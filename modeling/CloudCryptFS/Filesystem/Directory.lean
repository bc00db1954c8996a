import CloudCryptFS.Script.Counting
import CloudCryptFS.Filesystem.Content

/-! The content of a directory: the text of a flat object from file names to bucket
indexes. The exact condition on a map for it to survive being written and read back
is on the bytes of its names, the size of its indexes and the size of the text. -/

namespace CloudCryptFS.Filesystem
open Util Script Script.Lexer Script.Json Script.Flat Script.Counting

section Conversions

/-- `uint64_t` to `int64_t`. -/
def toInt64 (i : Nat) : Int := Int.bmod i (2 ^ 64)

/-- `int64_t` to `uint64_t`. -/
def toUInt64 (i : Int) : Nat := (i % 2 ^ 64).toNat

/-- The cast of a size to `int`. -/
def toInt32 (n : Nat) : Int := Int.bmod n (2 ^ 32)

theorem toUInt64_toInt64 {i : Nat} (fits : i < 2 ^ 64) : toUInt64 (toInt64 i) = i := by
  unfold toUInt64 toInt64
  rw [show ((2 : Int) ^ 64) = ((2 ^ 64 : Nat) : Int) by norm_num, Int.bmod_emod]
  omega

theorem toInt32_eq_iff (n : Nat) : (n : Int) = toInt32 n ↔ n < 2 ^ 31 := by
  unfold toInt32 Int.bmod
  dsimp only
  split <;> omega

end Conversions

section Directory
variable {σ H F : Type} [FloatLib F] (ops : HashOps σ H)

/-- `file::readDirectoryContent` of a directory: `none` for a failure. A read that falls
short leaves zeros in the text. -/
def readDirectoryContent (file : FileData H) : Run σ (Option (JSON F)) :=
  if file.size = 0 then pure (some .empty)
  else do
    let content ← readData ops file file.size 0
    if (content.length : Int) ≠ toInt32 file.size then pure none
    else
      match unserialize (content ++ List.replicate (file.size - content.length) 0) with
      | .ok json => pure (some json)
      | .error .exception => pure none
      | .error _ => Run.abort

/-- The text of a directory; an empty one has no text. -/
def directoryText (json : JSON F) : Str :=
  if (serialize 0 json).length = 2 then [] else serialize 0 json

/-- `file::writeDirectoryContent`, before the file is put to rest. -/
def writeDirectoryContent (file : FileData H) (json : JSON F) : Run σ (FileData H) :=
  swapContent ops file (directoryText json)

variable {ops} {R : σ → σ → Prop} [IsPreorder σ R]

/-- A directory is read by reads of its hashes. -/
theorem readDirectoryContent_within (reads : ∀ h offset size, Run.Within R (ops.read h offset size)) (file : FileData H) :
    Run.Within R (readDirectoryContent (F := F) ops file) := by
  unfold readDirectoryContent
  split
  · exact Run.Within.pure _
  · refine Run.Within.bind (readData_within reads file _ _) (fun content => ?_)
    split
    · exact Run.Within.pure _
    · split
      · exact Run.Within.pure _
      · exact Run.Within.pure _
      · exact Run.Within.abort

end Directory

/-- A name as the kernel passes it. -/
def FileName (name : Str) : Prop := name ≠ [] ∧ name.length ≤ 255 ∧ 47 ∉ name ∧ 0 ∉ name

instance (name : Str) : Decidable (FileName name) := inferInstanceAs (Decidable (_ ∧ _))

/-- The bytes that a map takes on disk: each entry has two quotes, a colon and a separator. -/
def storedSize (entries : List (Str × Nat)) : Nat :=
  if entries = [] then 0
  else 1 + (entries.map (fun entry => entry.1.length + (intToString (toInt64 entry.2)).length + 4)).sum

/-- The names and indexes that the text can carry. -/
def StorableEntries (entries : List (Str × Nat)) : Prop :=
  (∀ entry ∈ entries, PlainName entry.1 ∧ (toInt64 entry.2).natAbs ≤ intMax) ∧ storedSize entries < 2 ^ 31

instance (entries : List (Str × Nat)) : Decidable (StorableEntries entries) := inferInstanceAs (Decidable (_ ∧ _))

/-- A finite map from file names to bucket indexes. -/
structure DirMap where
  entries : List (Str × Nat)
  sorted : SortedEntries.Sorted entries
  names : ∀ entry ∈ entries, FileName entry.1
  indexes : ∀ entry ∈ entries, 0 < entry.2 ∧ entry.2 < 2 ^ 64

namespace DirMap

def signed (m : DirMap) : List (Str × Int) := SortedEntries.mapValues toInt64 m.entries

def json {F : Type} (m : DirMap) : JSON F := flat m.signed

def Storable (m : DirMap) : Prop := StorableEntries m.entries

instance (m : DirMap) : Decidable m.Storable := inferInstanceAs (Decidable (StorableEntries m.entries))

theorem sorted_signed (m : DirMap) : SortedEntries.Sorted m.signed := by
  have keys : m.signed.map Prod.fst = m.entries.map Prod.fst := by
    simp [signed, SortedEntries.mapValues]
  have sorted := m.sorted
  unfold SortedEntries.Sorted at sorted ⊢
  rw [keys]
  exact sorted

variable {F : Type} [FloatLib F]

private theorem serialize_length (entries : List (Str × Int)) (nonempty : entries ≠ []) :
    (serialize (F := F) 0 (flat entries)).length =
      1 + (entries.map (fun entry => entry.1.length + (intToString entry.2).length + 4)).sum := by
  have tail : ∀ entries : List (Str × Int), (tailText entries).length =
      1 + (entries.map (fun entry => entry.1.length + (intToString entry.2).length + 4)).sum := by
    intro entries
    induction entries with
    | nil => rfl
    | cons entry entries ih =>
      simp only [tailText, pairText, List.flatMap_cons, List.length_append, List.length_cons, List.length_nil,
        List.map_cons, List.sum_cons] at ih ⊢
      omega
  obtain ⟨entry, rest, rfl⟩ := List.exists_cons_of_ne_nil nonempty
  rw [serialize_cons]
  simp only [pairText, List.length_append, List.length_cons, List.length_nil, tail, List.map_cons, List.sum_cons]
  omega

theorem length_text (m : DirMap) : (directoryText (F := F) m.json).length = storedSize m.entries := by
  by_cases empty : m.entries = []
  · have none : m.signed = [] := by simp [signed, empty, SortedEntries.mapValues]
    simp [directoryText, json, none, serialize_nil, storedSize, empty]
  · have some : m.signed ≠ [] := by simpa [signed, SortedEntries.mapValues] using empty
    have length := serialize_length (F := F) m.signed some
    obtain ⟨entry, rest, shape⟩ := List.exists_cons_of_ne_nil some
    have long : (serialize (F := F) 0 m.json).length ≠ 2 := by
      rw [json, length, shape, List.map_cons, List.sum_cons]
      omega
    rw [directoryText, if_neg long, json, length, storedSize, if_neg empty]
    simp [signed, SortedEntries.mapValues, List.map_map, Function.comp_def]

/-- The text holds no zero byte, so none of its chunks is the zero chunk. -/
private theorem text_ne_zero (m : DirMap) : ∀ c ∈ directoryText (F := F) m.json, c ≠ 0 := by
  rintro c member rfl
  have inside : (0 : Byte) ∈ serialize (F := F) 0 (flat m.signed) := by
    unfold directoryText at member
    split at member
    · simp at member
    · exact member
  have count := count_serialize (F := F) (c := 0) ⟨by decide, by decide⟩ m.signed
  have positive := List.count_pos_iff.mpr inside
  have none : (m.signed.map (fun entry => entry.1.count 0)).sum = 0 := by
    apply List.sum_eq_zero
    intro n counted
    obtain ⟨entry, listed, rfl⟩ := List.mem_map.mp counted
    obtain ⟨original, here, rfl⟩ := List.mem_map.mp listed
    exact List.count_eq_zero_of_not_mem (m.names original here).2.2.2
  omega

variable {σ : Type}

/-- A directory that has been written reads back as what its text parses to. -/
theorem read_write (m : DirMap) {addChange : List Chunk → Run σ Unit}
    (attaches : ∀ list s, addChange list s = some ((), s)) (file : FileData Chunk) (s : σ) :
    ∃ after, writeDirectoryContent (chunkOps addChange) file (m.json : JSON F) s = some (after, s) ∧
      after.size = storedSize m.entries ∧
      (readDirectoryContent (chunkOps addChange) after s = some (some (m.json : JSON F), s) ↔ m.Storable) := by
  obtain ⟨after, ran, size, back⟩ :=
    read_swapContent attaches file (directoryText (F := F) m.json) m.text_ne_zero s
  refine ⟨after, ran, size.trans m.length_text, ?_⟩
  have exact_ := unserialize_serialize_iff (F := F) m.sorted_signed
  have pairs : (∀ entry ∈ m.signed, PlainName entry.1 ∧ entry.2.natAbs ≤ intMax) ↔
      ∀ entry ∈ m.entries, PlainName entry.1 ∧ (toInt64 entry.2).natAbs ≤ intMax := by
    simp only [signed, SortedEntries.mapValues, List.forall_mem_map]
  rw [pairs] at exact_
  by_cases empty : m.entries = []
  · have none : m.signed = [] := by simp [signed, empty, SortedEntries.mapValues]
    have nothing : after.size = 0 := by rw [size, m.length_text (F := F), storedSize, if_pos empty]
    simp [readDirectoryContent, nothing, Storable, StorableEntries, empty, storedSize, json, none, flat, JSON.empty,
      SortedEntries.mapValues]
  · have some : m.signed ≠ [] := by simpa [signed, SortedEntries.mapValues] using empty
    have positive : after.size ≠ 0 := by
      rw [size, m.length_text (F := F), storedSize, if_neg empty]
      omega
    have text : directoryText (F := F) m.json = serialize (F := F) 0 (flat m.signed) := by
      unfold directoryText
      rw [if_neg]
      · rfl
      · intro short
        have nil : directoryText (F := F) m.json = [] := by rw [directoryText, if_pos short]
        rw [nil] at size
        exact positive size
    rw [← size] at back
    rw [readDirectoryContent, if_neg positive, Run.bind_of_some back, Storable, StorableEntries,
      ← m.length_text (F := F)]
    by_cases short : (directoryText (F := F) m.json).length < 2 ^ 31
    · have agrees := (toInt32_eq_iff _).mpr short
      rw [size, if_neg (by simpa using agrees), Nat.sub_self, List.replicate_zero, List.append_nil, text]
      rw [text] at short
      simp only [short, and_true, ← exact_]
      cases unserialize (F := F) (serialize (F := F) 0 (flat m.signed)) with
      | ok other => simp [json]
      | error fault => cases fault <;> simp
    · have disagrees : ¬((directoryText (F := F) m.json).length : Int) = toInt32 (directoryText (F := F) m.json).length :=
        fun same => short ((toInt32_eq_iff _).mp same)
      rw [size, if_pos disagrees]
      simp only [short, and_false, iff_false]
      exact fun same => Option.some_ne_none _ (Prod.mk.inj (Option.some.inj same)).1.symm

end DirMap

/-- No change logs. -/
def plainOps : HashOps Unit Chunk := chunkOps (fun _ => pure ())

private theorem plain_attaches (list : List Chunk) (s : Unit) :
    (fun _ => pure () : List Chunk → Run Unit Unit) list s = some ((), s) := rfl

/-- Writing the directory and reading it back succeeds and yields the same map. -/
def RoundTrips (F : Type) [FloatLib F] (m : DirMap) : Prop :=
  ∀ file : FileData Chunk, ∃ after, writeDirectoryContent plainOps file (m.json : JSON F) () = some (after, ()) ∧
    readDirectoryContent plainOps after () = some (some (m.json : JSON F), ())

theorem storable_of_roundTrips {F : Type} [FloatLib F] {m : DirMap} (trips : RoundTrips F m) : m.Storable := by
  obtain ⟨after, ran, back⟩ := trips ⟨0, []⟩
  obtain ⟨other, ran', _, same⟩ := m.read_write (F := F) plain_attaches ⟨0, []⟩ ()
  have equal := ran.symm.trans ran'
  simp only [Option.some.injEq, Prod.mk.injEq, and_true] at equal
  exact same.mp (equal ▸ back)

theorem roundTrips_of_storable {F : Type} [FloatLib F] {m : DirMap} (storable : m.Storable) : RoundTrips F m := by
  intro file
  obtain ⟨after, ran, _, same⟩ := m.read_write (F := F) plain_attaches file ()
  exact ⟨after, ran, same.mpr storable⟩

/-- A directory survives exactly when its names are plain, its indexes are `int`s and
its size is an `int`. -/
theorem roundTrips_iff (F : Type) [FloatLib F] (m : DirMap) : RoundTrips F m ↔ m.Storable :=
  ⟨storable_of_roundTrips, roundTrips_of_storable⟩

/-- A directory with one file, the name of which is a quote. -/
def quoteMap : DirMap where
  entries := [([quote], 258)]
  sorted := by simp [SortedEntries.Sorted]
  names := by decide
  indexes := by decide

theorem quoteMap_lost : ¬∃ (F : Type) (_ : FloatLib F), RoundTrips F quoteMap := by
  rintro ⟨F, _, trips⟩
  exact absurd (storable_of_roundTrips trips) (by decide)

end CloudCryptFS.Filesystem
