import CloudCryptFS.Filesystem.Content
import CloudCryptFS.Util.Splice

/-! The bytes of a file, chunk after chunk, and what reading, writing and cutting a file
make of them. -/

namespace CloudCryptFS.Filesystem
open Util Script.Lexer

/-- The bytes of all chunks of a list. -/
def bytes (list : List Chunk) : Str := list.flatMap Chunk.data

section Bytes
variable {list : List Chunk}

@[simp]
theorem bytes_nil : bytes [] = [] := rfl

@[simp]
theorem bytes_cons (c : Chunk) (list : List Chunk) : bytes (c :: list) = c.data ++ bytes list := List.flatMap_cons

theorem bytes_append (list list' : List Chunk) : bytes (list ++ list') = bytes list ++ bytes list' := List.flatMap_append

theorem length_bytes (list : List Chunk) : (bytes list).length = list.length * chunkSize := by
  induction list with
  | nil => rw [bytes_nil, List.length_nil, List.length_nil, Nat.zero_mul]
  | cons c list ih => rw [bytes_cons, List.length_append, c.size_eq, ih, List.length_cons, Nat.succ_mul, Nat.add_comm]

theorem bytes_replicate (n : Nat) : bytes (List.replicate n Chunk.zero) = List.replicate (n * chunkSize) 0 := by
  induction n with
  | zero => rw [Nat.zero_mul, List.replicate_zero, List.replicate_zero, bytes_nil]
  | succ n ih =>
    have sum : (n + 1) * chunkSize = chunkSize + n * chunkSize := by rw [Nat.succ_mul, Nat.add_comm]
    rw [List.replicate_succ, bytes_cons, ih, sum, List.replicate_add]
    rfl

theorem bytes_take (list : List Chunk) (n : Nat) : bytes (list.take n) = (bytes list).take (n * chunkSize) := by
  by_cases short : n ≤ list.length
  · have first : (bytes (list.take n)).length = n * chunkSize := by rw [length_bytes, List.length_take, Nat.min_eq_left short]
    calc bytes (list.take n)
        = (bytes (list.take n) ++ bytes (list.drop n)).take (n * chunkSize) := by rw [← first, List.take_left]
      _ = (bytes list).take (n * chunkSize) := by rw [← bytes_append, List.take_append_drop]
  · have long : list.length ≤ n := by omega
    have all : (bytes list).length ≤ n * chunkSize := by
      rw [length_bytes]
      exact Nat.mul_le_mul_right _ long
    rw [List.take_of_length_le long, List.take_of_length_le all]

theorem bytes_drop (list : List Chunk) (n : Nat) : bytes (list.drop n) = (bytes list).drop (n * chunkSize) := by
  have pieces : bytes list = (bytes list).take (n * chunkSize) ++ bytes (list.drop n) := by
    rw [← bytes_take, ← bytes_append, List.take_append_drop]
  have both := (List.take_append_drop (n * chunkSize) (bytes list)).trans pieces
  exact (List.append_cancel_left both).symm

/-- Byte `k` is byte `k % 4096` of chunk `k / 4096`. -/
theorem bytes_getElem? (list : List Chunk) (k : Nat) :
    (bytes list)[k]? = (list[k / chunkSize]?).bind (fun c => c.data[k % chunkSize]?) := by
  induction list generalizing k with
  | nil => simp
  | cons c list ih =>
    have size := c.size_eq
    by_cases first : k < chunkSize
    · rw [bytes_cons, List.getElem?_append_left (by omega), Nat.div_eq_of_lt first, Nat.mod_eq_of_lt first]
      rfl
    · obtain ⟨j, rfl⟩ : ∃ j, k = chunkSize + j := Nat.exists_eq_add_of_le (by omega)
      have quotient : (chunkSize + j) / chunkSize = j / chunkSize + 1 := by
        rw [Nat.add_div_left j (by decide)]
      have other : chunkSize + j - c.data.length = j := by omega
      rw [bytes_cons, List.getElem?_append_right (by omega), other, ih, quotient, Nat.add_mod_left, List.getElem?_cons_succ]

theorem numChunks_mul (size : Nat) : size ≤ numChunks size * chunkSize ∧ numChunks size * chunkSize < size + chunkSize := by
  unfold numChunks chunkSize
  split <;> omega

/-- So many chunks are the fewest that have room for all bytes. -/
theorem numChunks_le {size n : Nat} : numChunks size ≤ n ↔ size ≤ n * chunkSize := by
  unfold numChunks chunkSize
  split <;> omega

end Bytes

namespace FileData

/-- The bytes of a file. -/
def text (file : FileData Chunk) : Str := (bytes file.hashList).take file.size

/-- What its chunks hold past the last byte. -/
def slack (file : FileData Chunk) : Str := (bytes file.hashList).drop file.size

theorem text_append_slack (file : FileData Chunk) : file.text ++ file.slack = bytes file.hashList := List.take_append_drop _ _

/-- Nothing but zeros is stored past the last byte. -/
def Blank (file : FileData Chunk) : Prop := ∀ b ∈ file.slack, b = 0

theorem Blank.bytes_eq {file : FileData Chunk} (blank : file.Blank) :
    bytes file.hashList = file.text ++ List.replicate (file.hashList.length * chunkSize - file.size) 0 := by
  have zeros : file.slack = List.replicate file.slack.length 0 := List.eq_replicate_of_mem blank
  have length : file.slack.length = file.hashList.length * chunkSize - file.size := by rw [slack, List.length_drop, length_bytes]
  rw [← length, ← zeros, text_append_slack]

theorem length_text {file : FileData Chunk} (long : numChunks file.size ≤ file.hashList.length) : file.text.length = file.size := by
  rw [text, List.length_take, length_bytes, Nat.min_eq_left (numChunks_le.mp long)]

end FileData

section Reads
variable {σ H : Type} {ops : HashOps σ H} {I : σ → Prop} {c : H → Chunk}

/-- As long as an invariant holds, reading a hash hands out what its chunk has. -/
def HashOps.Reads (ops : HashOps σ H) (I : σ → Prop) (c : H → Chunk) (h : H) : Prop :=
  ∀ s offset size, I s → offset + size ≤ chunkSize →
    ∃ t, ops.read h offset size s = some ((((c h).data.drop offset).take size), t) ∧ I t

theorem readLoop_bytes {hashes : List H} (reads : ∀ h ∈ hashes, ops.Reads I c h) (offset size fileOffset : Nat) {s : σ} (inv : I s) :
    ∃ t, readLoop ops offset hashes size fileOffset s = some (((bytes (hashes.map c)).drop (offset - fileOffset)).take size, t) ∧ I t := by
  induction hashes generalizing size fileOffset s with
  | nil => exact ⟨s, by simp [readLoop], inv⟩
  | cons readHash hashes ih =>
    replace ih := @ih (fun h member => reads h (List.mem_cons_of_mem _ member))
    have length := (c readHash).size_eq
    rw [readLoop, List.map_cons, bytes_cons]
    split
    · rename_i here
      have inside : offset - fileOffset ≤ (c readHash).data.length := by omega
      obtain ⟨mid, got, inv⟩ := reads readHash List.mem_cons_self s (offset - fileOffset)
        (min size (chunkSize - (offset - fileOffset))) inv (by omega)
      obtain ⟨t, rest, inv⟩ := ih (size - min size (chunkSize - (offset - fileOffset))) (fileOffset + chunkSize) inv
      refine ⟨t, ?_, inv⟩
      have start : offset - (fileOffset + chunkSize) = 0 := by omega
      have amount : size - ((c readHash).data.drop (offset - fileOffset)).length = size - min size (chunkSize - (offset - fileOffset)) := by
        rw [List.length_drop]
        omega
      have first : ((c readHash).data.drop (offset - fileOffset)).take (min size (chunkSize - (offset - fileOffset))) =
          ((c readHash).data.drop (offset - fileOffset)).take size := by
        apply List.take_eq_take_iff.mpr
        rw [List.length_drop]
        omega
      rw [start, List.drop_zero] at rest
      rw [Run.bind_of_some got, Run.bind_of_some rest, List.drop_append_of_le_length inside, List.take_append, amount, first, Run.pure_apply]
    · rename_i elsewhere
      by_cases empty : size = 0
      · obtain ⟨t, rest, inv⟩ := ih size (fileOffset + chunkSize) inv
        subst empty
        refine ⟨t, ?_, inv⟩
        rw [rest, List.take_zero, List.take_zero]
      · have skipped : (c readHash).data.length ≤ offset - fileOffset := by omega
        have start : offset - fileOffset - (c readHash).data.length = offset - (fileOffset + chunkSize) := by omega
        obtain ⟨t, rest, inv⟩ := ih size (fileOffset + chunkSize) inv
        refine ⟨t, ?_, inv⟩
        rw [rest, List.drop_append, List.drop_eq_nil_of_le skipped, List.nil_append, start]

/-- What is read, up to the end of the chunks that a read of so many bytes asks for. -/
theorem readData_bytes {file : FileData H} (reads : ∀ h ∈ file.hashList, ops.Reads I c h) (size offset : Nat) {s : σ} (inv : I s) :
    ∃ t, readData ops file size offset s = some (((bytes (file.hashList.map c)).drop offset).take
      (min (min (file.size - offset) size) (numChunks (min (file.size - offset) size) * chunkSize - offset % chunkSize)), t) ∧ I t := by
  unfold readData
  split
  · rename_i past
    have nothing : min (file.size - offset) size = 0 := by omega
    refine ⟨s, ?_, inv⟩
    rw [nothing, Nat.zero_min, List.take_zero, Run.pure_apply]
  · obtain ⟨m, amount⟩ : ∃ m, m = min (file.size - offset) size := ⟨_, rfl⟩
    obtain ⟨t, ran, inv⟩ := readLoop_bytes (fun h member => reads h (List.mem_of_mem_drop (List.mem_of_mem_take member))) offset m
      (offset / chunkSize * chunkSize) inv
    refine ⟨t, ?_, inv⟩
    have split := Nat.div_add_mod offset chunkSize
    have start : offset - offset / chunkSize * chunkSize = offset % chunkSize := by
      rw [Nat.mul_comm] at split
      omega
    have whole : offset / chunkSize * chunkSize + offset % chunkSize = offset := by
      rw [Nat.mul_comm]
      exact split
    rw [← amount]
    rw [start, List.map_take, List.map_drop, bytes_take, bytes_drop, List.drop_take, List.drop_drop, whole, List.take_take] at ran
    exact ran

theorem readCount_eq (hashes : List H) {offset fileOffset : Nat} (here : offset < fileOffset + chunkSize) (size : Nat) :
    readCount offset hashes size fileOffset = if size = 0 then 0 else min hashes.length (numChunks (offset - fileOffset + size)) := by
  induction hashes generalizing size fileOffset with
  | nil => rw [readCount, List.length_nil, Nat.zero_min, ite_self]
  | cons h hashes ih =>
    rw [readCount]
    by_cases empty : size = 0
    · rw [if_neg (fun both => by omega), ih (by omega), if_pos empty, if_pos empty]
    · have more := @numChunks_succ (offset - fileOffset + size) (by omega)
      rw [if_pos ⟨here, by omega⟩, if_neg empty, ih (by omega), List.length_cons]
      by_cases last : size - min size (chunkSize - (offset - fileOffset)) = 0
      · have none : offset - fileOffset + size - chunkSize = 0 := by omega
        rw [none, numChunks_zero] at more
        rw [if_pos last, more]
        omega
      · have rest : offset - (fileOffset + chunkSize) + (size - min size (chunkSize - (offset - fileOffset))) = offset - fileOffset + size - chunkSize := by omega
        rw [if_neg last, rest, more]
        omega

/-- A read goes through as many hashes as it asks for, when their chunks have all bytes. -/
theorem hashReads_eq {file : FileData H} {size offset : Nat} (long : numChunks file.size ≤ file.hashList.length)
    (fits : min size (file.size - offset) = 0 ∨
      offset % chunkSize + min size (file.size - offset) ≤ numChunks (min size (file.size - offset)) * chunkSize) :
    hashReads file size offset = numChunks (min size (file.size - offset)) := by
  have order : min (file.size - offset) size = min size (file.size - offset) := Nat.min_comm _ _
  obtain ⟨m, amount⟩ : ∃ m, m = min size (file.size - offset) := ⟨_, rfl⟩
  have partly := Nat.mod_lt offset (show chunkSize > 0 by decide)
  have place := Nat.div_add_mod offset chunkSize
  rw [Nat.mul_comm] at place
  have start : offset - offset / chunkSize * chunkSize = offset % chunkSize := by omega
  have room := numChunks_le.mp long
  rw [← amount] at fits
  unfold hashReads
  dsimp only
  rw [order, ← amount, readCount_eq _ (by omega), List.length_take, List.length_drop, start]
  split
  · rename_i empty
    rw [empty, numChunks_zero]
  · rename_i some
    have whole : numChunks (offset % chunkSize + m) ≤ numChunks m := numChunks_le.mpr (fits.resolve_left some)
    have less : numChunks m ≤ numChunks (offset % chunkSize + m) := numChunks_le.mpr (Nat.le_trans (Nat.le_add_left _ _) (numChunks_mul _).1)
    have left : numChunks m ≤ file.hashList.length - offset / chunkSize := by
      rw [numChunks_le, Nat.sub_mul]
      omega
    omega

end Reads

/-- The chunk that a write has more for an offset inside of a chunk. -/
def unaligned (offset : Nat) : Nat := if offset % chunkSize > 0 then 1 else 0

/-- The number of chunks that a write asks for. -/
def numHashesInWrite (length offset : Nat) : Nat := numChunks length + unaligned offset

/-- The number of chunks that a write computes for the whole file. -/
def numHashes (size length offset : Nat) : Nat := numChunks (max size (offset + length)) + unaligned offset

/-- The list of hashes that a write works on. -/
def grown {H : Type} (zeroHash : H) (list : List H) (n : Nat) : List H := list ++ List.replicate (n - list.length) zeroHash

section Parts
variable {σ H : Type} (ops : HashOps σ H) (file : FileData H) (buf : Str) (offset : Nat)

/-- The hashes that are read for a write. -/
def windowOf (list : List H) (length offset : Nat) : List H :=
  (list.drop (offset / chunkSize)).take (numHashesInWrite length offset)

def growList (n : Nat) : Run σ Unit := if n > 0 then ops.incRefCnt ops.zeroHash n else pure ()

def attach (replaced : List (H × H)) : Run σ Unit :=
  if replaced ≠ [] then ops.addChange (replaced.flatMap (fun pair => [pair.2, pair.1])) else pure ()

/-- A write, part by part. -/
theorem writeData_eq : writeData ops file buf offset = (do
    Run.assert (file.hashList.length ≤ numHashes file.size buf.length offset)
    growList ops (numHashes file.size buf.length offset - file.hashList.length)
    let list := grown ops.zeroHash file.hashList (numHashes file.size buf.length offset)
    Run.assert ((windowOf list buf.length offset).length = numHashesInWrite buf.length offset)
    let result ← writeLoop ops offset (windowOf list buf.length offset) buf (offset / chunkSize * chunkSize)
    result.2.forM (fun pair => ops.decRefCnt pair.1)
    attach ops result.2
    pure (⟨max file.size (offset + buf.length), list.take (offset / chunkSize) ++ result.1 ++
      list.drop (offset / chunkSize + numHashesInWrite buf.length offset)⟩, result.2.length)) := by
  have whenever : ∀ {c : Prop} [Decidable c] {α : Type} (first : Run σ Unit) (next : Run σ α),
      (if c then (first >>= fun _ => next) else next) = ((if c then first else pure ()) >>= fun _ => next) := by
    intro c _ α first next
    split
    · rfl
    · funext s
      rw [Run.bind_of_some (Run.pure_apply () s)]
  unfold writeData growList attach
  simp only [numHashes, numHashesInWrite, unaligned, grown, windowOf, whenever]
  rfl

end Parts

section Writes
variable {σ : Type}

/-- Hashes that are their chunks; the journal entry goes nowhere. -/
def quietOps : HashOps σ Chunk := chunkOps (fun _ => pure ())

theorem quiet_forM {α : Type} (list : List α) (s : σ) : list.forM (fun _ => (pure () : Run σ Unit)) s = some (⟨⟩, s) := by
  induction list with
  | nil => rfl
  | cons a list ih =>
    rw [List.forM_eq_forM, List.forM_cons, Run.bind_of_some (Run.pure_apply () s)]
    exact ih

/-- A chunk with the input in place; one that stays the same gets no new hash. -/
theorem quiet_write (c : Chunk) {offset : Nat} {input : Str} (fits : offset + input.length ≤ chunkSize) (s : σ) :
    ∃ d : Chunk, d.data = splice c.data offset input ∧
      quietOps.write c offset input s = some (if d = c then Option.none else Option.some d, s) := by
  have size : (splice c.data offset input).length = chunkSize := by
    have old := c.size_eq
    rw [length_splice (by omega)]
    omega
  have written : c.write offset input = some ⟨splice c.data offset input, size⟩ := by
    rw [Chunk.write, dif_pos fits]
    rfl
  refine ⟨⟨splice c.data offset input, size⟩, rfl, ?_⟩
  change (c.write offset input).map _ = _
  rw [written]
  rfl

theorem writeLoop_bytes (offset : Nat) (hashes : List Chunk) (buf : Str) (fileOffset : Nat)
    (fits : offset - fileOffset + buf.length ≤ hashes.length * chunkSize) (s : σ) :
    ∃ after replaced, writeLoop quietOps offset hashes buf fileOffset s = some ((after, replaced), s) ∧ after.length = hashes.length ∧
      bytes after = splice (bytes hashes) (offset - fileOffset) buf := by
  induction hashes generalizing buf fileOffset with
  | nil =>
    have empty : buf = [] := List.length_eq_zero_iff.mp (by rw [List.length_nil] at fits; omega)
    subst empty
    refine ⟨[], [], ?_, rfl, by rw [splice_nil]⟩
    rw [writeLoop, Run.bind_of_some (Run.assert_eq_some.mpr ⟨rfl, rfl⟩), Run.pure_apply]
  | cons writeHash hashes ih =>
    have length := writeHash.size_eq
    rw [List.length_cons, Nat.succ_mul] at fits
    rw [writeLoop]
    split
    · rename_i here
      obtain ⟨n, amount⟩ : ∃ n, n = min buf.length (chunkSize - (offset - fileOffset)) := ⟨_, rfl⟩
      have size : (buf.take n).length = n := by
        rw [List.length_take]
        omega
      have fits : offset - fileOffset + (buf.take n).length ≤ chunkSize := by omega
      obtain ⟨d, data, written⟩ := quiet_write writeHash fits s
      obtain ⟨after, replaced, ran, long, text⟩ := ih (buf.drop n) (fileOffset + chunkSize) (by rw [List.length_drop]; omega)
      have whole : bytes (d :: after) = splice (bytes (writeHash :: hashes)) (offset - fileOffset) buf := by
        have start : offset - (fileOffset + chunkSize) = 0 := by omega
        rw [bytes_cons, bytes_cons, splice_append _ _ (by omega), data, text, start, length, ← amount]
      dsimp only
      rw [← amount]
      by_cases same : d = writeHash
      · rw [if_pos same] at written
        refine ⟨writeHash :: after, replaced, ?_, by rw [List.length_cons, List.length_cons, long], by rw [← whole, same]⟩
        rw [Run.bind_of_some written]
        dsimp only
        rw [Run.bind_of_some ran, Run.pure_apply]
      · rw [if_neg same] at written
        refine ⟨d :: after, (writeHash, d) :: replaced, ?_, by rw [List.length_cons, List.length_cons, long], whole⟩
        rw [Run.bind_of_some written]
        dsimp only
        rw [Run.bind_of_some (show quietOps.incRefCnt d 1 s = some ((), s) from rfl), Run.bind_of_some ran, Run.pure_apply]
    · rename_i elsewhere
      have skip : buf.length = 0 ∨ fileOffset + chunkSize ≤ offset := by
        by_contra inside
        push Not at inside
        exact elsewhere ⟨inside.2, fun empty => inside.1 (congrArg List.length empty)⟩
      obtain ⟨after, replaced, ran, long, text⟩ := ih buf (fileOffset + chunkSize) (by omega)
      have whole : bytes (writeHash :: after) = splice (bytes (writeHash :: hashes)) (offset - fileOffset) buf := by
        rcases skip with empty | past
        · rw [List.length_eq_zero_iff.mp empty, splice_nil] at text ⊢
          rw [bytes_cons, bytes_cons, text]
        · have skipped : writeHash.data.length ≤ offset - fileOffset := by omega
          have start : offset - fileOffset - writeHash.data.length = offset - (fileOffset + chunkSize) := by omega
          rw [bytes_cons, bytes_cons, splice_append_right _ _ skipped, text, start]
      refine ⟨writeHash :: after, replaced, ?_, by rw [List.length_cons, List.length_cons, long], whole⟩
      rw [Run.bind_of_some ran]
      dsimp only
      rw [Run.pure_apply]

theorem numChunks_window (size offset length : Nat) :
    offset / chunkSize + numChunks length ≤ numChunks (max size (offset + length)) := by
  have start := Nat.div_mul_le_self offset chunkSize
  have room := (numChunks_mul (max size (offset + length))).1
  have first : offset / chunkSize ≤ numChunks (max size (offset + length)) := by
    apply Nat.le_of_mul_le_mul_right _ (show 0 < chunkSize by decide)
    omega
  have rest : numChunks length ≤ numChunks (max size (offset + length)) - offset / chunkSize := by
    rw [numChunks_le, Nat.sub_mul]
    omega
  omega

theorem length_grown {H : Type} (zeroHash : H) {list : List H} {n : Nat} (grows : list.length ≤ n) : (grown zeroHash list n).length = n := by
  rw [grown, List.length_append, List.length_replicate]
  omega

/-- The window of a write is never cut short. -/
theorem length_windowOf {H : Type} {list : List H} {size length offset : Nat} (long : list.length = numHashes size length offset) :
    (windowOf list length offset).length = numHashesInWrite length offset := by
  have inside := numChunks_window size offset length
  rw [windowOf, List.length_take, List.length_drop, long, numHashes, numHashesInWrite]
  omega

/-- The list has as many hashes after a write as the write computed. -/
theorem length_replaced {H : Type} {list new : List H} {size length offset : Nat} (long : list.length = numHashes size length offset)
    (count : new.length = numHashesInWrite length offset) :
    (list.take (offset / chunkSize) ++ new ++ list.drop (offset / chunkSize + numHashesInWrite length offset)).length =
      numHashes size length offset := by
  have inside := numChunks_window size offset length
  rw [List.length_append, List.length_append, List.length_take, List.length_drop, count, long]
  rw [numHashes, numHashesInWrite]
  omega

theorem offset_in_chunk (offset : Nat) : offset - offset / chunkSize * chunkSize = offset % chunkSize := by
  have place := Nat.div_add_mod offset chunkSize
  rw [Nat.mul_comm]
  omega

/-- The window of a write has room for the input. -/
theorem window_fits (length offset : Nat) : offset % chunkSize + length ≤ numHashesInWrite length offset * chunkSize := by
  have partly := Nat.mod_lt offset (show chunkSize > 0 by decide)
  have enough := (numChunks_mul length).1
  rw [numHashesInWrite, Nat.add_mul, unaligned]
  split <;> omega

/-- The list around the window of a write. -/
theorem windowOf_split {H : Type} (list : List H) (length offset : Nat) :
    list.take (offset / chunkSize) ++ windowOf list length offset ++ list.drop (offset / chunkSize + numHashesInWrite length offset) = list := by
  rw [windowOf, List.append_assoc, ← List.drop_drop, List.take_append_drop, List.take_append_drop]

theorem windowOf_map {H H' : Type} (f : H → H') (list : List H) (length offset : Nat) :
    windowOf (list.map f) length offset = (windowOf list length offset).map f := by
  rw [windowOf, windowOf, List.map_take, List.map_drop]

/-- What is made of the window stands in the list as the input does in its bytes. -/
theorem bytes_replaced {list new : List Chunk} {buf : Str} {offset : Nat} (inside : offset / chunkSize ≤ list.length)
    (count : (windowOf list buf.length offset).length = numHashesInWrite buf.length offset)
    (spliced : bytes new = splice (bytes (windowOf list buf.length offset)) (offset % chunkSize) buf) :
    bytes (list.take (offset / chunkSize) ++ new ++ list.drop (offset / chunkSize + numHashesInWrite buf.length offset)) =
      splice (bytes list) offset buf := by
  have early := Nat.div_mul_le_self offset chunkSize
  have head : (bytes (list.take (offset / chunkSize))).length = offset / chunkSize * chunkSize := by
    rw [length_bytes, List.length_take, Nat.min_eq_left inside]
  have room : offset % chunkSize + buf.length ≤ (bytes (windowOf list buf.length offset)).length := by
    rw [length_bytes, count]
    exact window_fits buf.length offset
  have pieces : bytes list = bytes (list.take (offset / chunkSize)) ++ (bytes (windowOf list buf.length offset) ++
      bytes (list.drop (offset / chunkSize + numHashesInWrite buf.length offset))) := by
    rw [← bytes_append, ← bytes_append, ← List.append_assoc, windowOf_split]
  rw [pieces, splice_append_right _ _ (by rw [head]; exact early), head, offset_in_chunk, splice_append_left _ room, ← spliced,
    bytes_append, bytes_append, List.append_assoc]

/-- A write takes the input into the bytes of the chunks. -/
theorem writeData_bytes {file : FileData Chunk} {buf : Str} {offset : Nat}
    (grows : file.hashList.length ≤ numHashes file.size buf.length offset) (s : σ) :
    ∃ after replaced, writeData quietOps file buf offset s = some ((after, replaced), s) ∧
      after.size = max file.size (offset + buf.length) ∧ after.hashList.length = numHashes file.size buf.length offset ∧
      bytes after.hashList = splice (bytes (grown .zero file.hashList (numHashes file.size buf.length offset))) offset buf := by
  obtain ⟨list, listShape⟩ : ∃ l, l = grown Chunk.zero file.hashList (numHashes file.size buf.length offset) := ⟨_, rfl⟩
  have total : list.length = numHashes file.size buf.length offset := listShape ▸ length_grown _ grows
  have count := length_windowOf total
  have inside : offset / chunkSize ≤ list.length := by
    have room := numChunks_window file.size offset buf.length
    rw [total, numHashes]
    omega
  have start := offset_in_chunk offset
  obtain ⟨new, replaced, ran, long, text⟩ := writeLoop_bytes offset (windowOf list buf.length offset) buf (offset / chunkSize * chunkSize)
    (by rw [start, count]; exact window_fits buf.length offset) s
  rw [count] at long
  rw [start] at text
  refine ⟨⟨max file.size (offset + buf.length), list.take (offset / chunkSize) ++ new ++
    list.drop (offset / chunkSize + numHashesInWrite buf.length offset)⟩, replaced.length, ?_, rfl, length_replaced total long, ?_⟩
  · have attached : attach quietOps replaced s = some ((), s) := by
      unfold attach
      split <;> rfl
    have paid : growList quietOps (numHashes file.size buf.length offset - file.hashList.length) s = some ((), s) := by
      unfold growList
      split <;> rfl
    have dropped : replaced.forM (fun pair => (quietOps (σ := σ)).decRefCnt pair.1) s = some (⟨⟩, s) := quiet_forM replaced s
    rw [writeData_eq, Run.bind_of_some (Run.assert_eq_some.mpr ⟨grows, rfl⟩), Run.bind_of_some paid]
    have same : grown (quietOps (σ := σ)).zeroHash file.hashList (numHashes file.size buf.length offset) = list := listShape.symm
    rw [same, Run.bind_of_some (Run.assert_eq_some.mpr ⟨count, rfl⟩), Run.bind_of_some ran]
    dsimp only
    rw [Run.bind_of_some dropped, Run.bind_of_some attached, Run.pure_apply]
  · rw [← listShape]
    exact bytes_replaced inside count text

theorem bytes_grown (list : List Chunk) (n : Nat) :
    bytes (grown .zero list n) = bytes list ++ List.replicate ((n - list.length) * chunkSize) 0 := by
  rw [grown, bytes_append, bytes_replicate]

/-- A write puts the input in its place and fills what is missing before it with zeros. -/
theorem writeData_text {file after : FileData Chunk} {buf : Str} {offset : Nat} (long : numChunks file.size ≤ file.hashList.length)
    (blank : file.Blank) (grows : file.hashList.length ≤ numHashes file.size buf.length offset) (size : after.size = max file.size (offset + buf.length))
    (spliced : bytes after.hashList = splice (bytes (grown .zero file.hashList (numHashes file.size buf.length offset))) offset buf) :
    after.text = splice (file.text ++ List.replicate (offset - file.size) 0) offset buf ∧ after.Blank := by
  obtain ⟨n, shape⟩ : ∃ n, n = file.hashList.length * chunkSize - file.size +
    (numHashes file.size buf.length offset - file.hashList.length) * chunkSize := ⟨_, rfl⟩
  have length := FileData.length_text long
  have covered := numChunks_le.mp long
  have more := Nat.mul_le_mul_right chunkSize grows
  have room : max file.size (offset + buf.length) ≤ numHashes file.size buf.length offset * chunkSize := by
    rw [← numChunks_le, numHashes]
    exact Nat.le_add_right _ _
  have enough : max file.size (offset + buf.length) ≤ file.size + n := by
    rw [shape, Nat.sub_mul]
    omega
  have all : bytes (grown .zero file.hashList (numHashes file.size buf.length offset)) = file.text ++ List.replicate n 0 := by
    rw [bytes_grown, blank.bytes_eq, List.append_assoc, ← List.replicate_add, ← shape]
  rw [all] at spliced
  have inside : offset ≤ (file.text ++ List.replicate n (0 : Byte)).length := by
    rw [List.length_append, List.length_replicate, length]
    omega
  have kept : file.text.take (max file.size (offset + buf.length)) = file.text := List.take_of_length_le (by omega)
  have rest : min (max file.size (offset + buf.length) - file.size) n = max file.size (offset + buf.length) - file.size := by omega
  constructor
  · rw [FileData.text, spliced, size, take_splice inside (Nat.le_max_right _ _), List.take_append, kept, List.take_replicate, length, rest,
      splice_fill _ _ _ (by omega) (by omega), length]
  · intro b member
    rw [FileData.slack, spliced, size, drop_splice inside (Nat.le_max_right _ _), List.drop_append, List.drop_eq_nil_of_le (by omega),
      List.nil_append, List.drop_replicate] at member
    exact List.eq_of_mem_replicate member

/-- The list that is left when a file gets another size. -/
def resized {H : Type} (zeroHash : H) (list : List H) (n : Nat) : List H := list.take n ++ List.replicate (n - list.length) zeroHash

theorem length_resized {H : Type} (zeroHash : H) (list : List H) (n : Nat) : (resized zeroHash list n).length = n := by
  rw [resized, List.length_append, List.length_take, List.length_replicate]
  omega

theorem truncateData_bytes (file : FileData Chunk) (newSize : Nat) (s : σ) :
    truncateData quietOps file newSize s = some (⟨newSize, resized .zero file.hashList (numChunks newSize)⟩, s) := by
  unfold truncateData resized
  dsimp only
  split
  · rename_i shorter
    have none : numChunks newSize - file.hashList.length = 0 := by omega
    have dropped : ((file.hashList.drop (numChunks newSize)).forM (fun h => quietOps.decRefCnt h >>= fun _ => quietOps.rest h) : Run σ PUnit) s =
        some (⟨⟩, s) := quiet_forM _ s
    rw [Run.bind_of_some dropped, Run.bind_of_some (show quietOps.addChange _ s = some ((), s) from rfl), Run.pure_apply, none,
      List.replicate_zero, List.append_nil]
  · split
    · rw [Run.bind_of_some (show quietOps.incRefCnt _ _ s = some ((), s) from rfl),
        Run.bind_of_some (show quietOps.addChange _ s = some ((), s) from rfl), Run.pure_apply, List.take_of_length_le (by omega)]
      rfl
    · have none : numChunks newSize - file.hashList.length = 0 := by omega
      rw [Run.pure_apply, none, List.replicate_zero, List.append_nil, List.take_of_length_le (by omega)]

theorem bytes_resized {file : FileData Chunk} (n : Nat) (long : numChunks file.size ≤ file.hashList.length) (blank : file.Blank) :
    bytes (resized .zero file.hashList n) = file.text.take (n * chunkSize) ++ List.replicate (n * chunkSize - file.size) 0 := by
  have length := FileData.length_text long
  have covered := numChunks_le.mp long
  rw [resized, bytes_append, bytes_replicate, bytes_take, blank.bytes_eq, List.take_append, List.take_replicate, length, Nat.sub_mul,
    List.append_assoc, ← List.replicate_add]
  congr 2
  rcases Nat.le_total n file.hashList.length with shorter | longer
  · have less := Nat.mul_le_mul_right chunkSize shorter
    omega
  · have more := Nat.mul_le_mul_right chunkSize longer
    omega

/-- Another size keeps the first bytes and fills up with zeros; what is cut off inside of the last
chunk stays stored. -/
theorem resized_text {file : FileData Chunk} (newSize : Nat) (long : numChunks file.size ≤ file.hashList.length) (blank : file.Blank) :
    (⟨newSize, resized .zero file.hashList (numChunks newSize)⟩ : FileData Chunk).text =
        file.text.take newSize ++ List.replicate (newSize - file.size) 0 ∧
      ((⟨newSize, resized .zero file.hashList (numChunks newSize)⟩ : FileData Chunk).Blank ↔
        ∀ b ∈ (file.text.drop newSize).take (numChunks newSize * chunkSize - newSize), b = 0) := by
  have length := FileData.length_text long
  have room := (numChunks_mul newSize).1
  have kept := bytes_resized (numChunks newSize) long blank
  constructor
  · have amount : min (newSize - min (numChunks newSize * chunkSize) file.size) (numChunks newSize * chunkSize - file.size) =
        newSize - file.size := by omega
    rw [FileData.text, kept, List.take_append, List.take_take, Nat.min_eq_left room, List.take_replicate, List.length_take, length, amount]
  · rw [← List.drop_take]
    unfold FileData.Blank FileData.slack
    dsimp only
    rw [kept, List.drop_append, List.drop_replicate]
    constructor
    · exact fun zeros b member => zeros b (List.mem_append_left _ member)
    · intro zeros b member
      rcases List.mem_append.mp member with old | new
      · exact zeros b old
      · exact List.eq_of_mem_replicate new

end Writes

end CloudCryptFS.Filesystem
