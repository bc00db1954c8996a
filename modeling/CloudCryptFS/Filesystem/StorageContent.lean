import CloudCryptFS.Filesystem.ContentBytes
import CloudCryptFS.Filesystem.StorageCounts
import CloudCryptFS.Filesystem.DataCalls
import Mathlib.Data.Set.Function

/-! The content of files over the storage. What is done to the hashes of a file is done to the
chunks in their slots, as long as the counts stand for the files that refer to them. -/

namespace CloudCryptFS.Filesystem
open Util Script.Lexer BucketIndex

namespace Storage
variable {sha : Chunk → Sha256} {s t : Storage} {o : Nat} {je : Bool}

/-- A file with the chunks of its hashes. -/
def contents (s : Storage) (file : FileData Nat) : FileData Chunk := ⟨file.size, file.hashList.map s.content⟩

section Reading

theorem getBucket_total (id : Nat) (s : Storage) : ∃ b t, getBucket id s = some (b, t) := by
  unfold getBucket
  split <;> exact ⟨_, _, rfl⟩

theorem loadChunks_total (id : Nat) (s : Storage) : ∃ C t, loadChunks id s = some (C, t) := by
  obtain ⟨b, mid, got⟩ := getBucket_total id s
  unfold loadChunks
  rw [Run.bind_of_some got]
  cases chunks : b.chunks <;> exact ⟨_, _, rfl⟩

theorem getChunk_total (i : BucketIndex) (s : Storage) : ∃ c t, getChunk i s = some (c, t) := by
  obtain ⟨C, t, got⟩ := loadChunks_total (bucket i) s
  refine ⟨C (slotOf i), t, ?_⟩
  rw [getChunk, Run.bind_of_some got, Run.pure_apply]

/-- The chunk of a live hash object is always at hand. -/
theorem data_total (rep : s.Rep sha) (live : s.Live o) : ∃ t, data o s = some (s.content o, t) := by
  have done : ∃ c t, data o s = some (c, t) := by
    unfold data
    rw [Run.bind_of_some (Run.get_apply s)]
    cases there : (s.objects o).data with
    | some c => exact ⟨c, s, rfl⟩
    | none =>
      have loose : (s.objects o).fixed = false := by
        by_contra fixed
        have zero := rep.fixed o (by simpa using fixed)
        rw [zero, rep.zero.2.2.1] at there
        cases there
      obtain ⟨c, mid, got⟩ := getChunk_total (s.objects o).bucketIndex s
      dsimp only
      rw [loose, if_neg Bool.false_ne_true, Run.bind_of_some got]
      exact ⟨c, _, rfl⟩
  obtain ⟨c, t, ran⟩ := done
  obtain ⟨_, facts⟩ : Advance sha _ _ ∧ _ := data_spec ran
  rw [(facts rep live).1] at ran
  exact ⟨t, ran⟩

/-- What stays the same while a file is read. -/
def Reading (sha : Chunk → Sha256) (s : Storage) (list : List Nat) (t : Storage) : Prop :=
  t.Rep sha ∧ ∀ o ∈ list, t.Live o ∧ t.content o = s.content o

theorem reads_hashOps {list : List Nat} (member : o ∈ list) : (hashOps sha je).Reads (Reading sha s list) s.content o := by
  intro u offset size inv fits
  obtain ⟨live, content⟩ := inv.2 o member
  obtain ⟨t, ran⟩ := data_total inv.1 live
  have still := data_still o _ _ _ ran
  have advance : Advance sha _ _ := (data_spec ran).1
  refine ⟨t, ?_, advance.rep inv.1, fun o' inside => ?_⟩
  · change (data o >>= _) u = _
    rw [Run.bind_of_some ran, content, Chunk.read, if_pos fits]
    rfl
  · obtain ⟨live, content⟩ := inv.2 o' inside
    have alive := (still.live o').mpr live
    exact ⟨alive, (advance.content inv.1 o' (inv.1.made o' live) alive).2.trans content⟩

theorem clearData_loaded (ran : clearData o s = some ((), t)) : t.loaded = s.loaded := by
  cases ran
  dsimp only
  split
  · rfl
  · rfl

/-- The hashes of a file that is put to rest are all referred to. -/
theorem restHashes_spec {list : List Nat} (ran : restHashes (hashOps sha je) list s = some ((), t)) :
    Still s t ∧ t.loaded = s.loaded ∧ ∀ o ∈ list, 0 < (s.objects o).refcnt := by
  induction list generalizing s with
  | nil =>
    cases ran
    exact ⟨Still.refl _, rfl, fun o member => absurd member List.not_mem_nil⟩
  | cons h list ih =>
    unfold restHashes at ran
    rw [List.forM_eq_forM, List.forM_cons] at ran
    obtain ⟨_, mid, body, rest⟩ := Run.bind_eq_some.mp ran
    obtain ⟨_, _, got, body⟩ := Run.bind_eq_some.mp body
    cases got
    obtain ⟨_, _, asserted, cleared⟩ := Run.bind_eq_some.mp body
    obtain ⟨alive, rfl⟩ := Run.assert_eq_some.mp asserted
    have first : Still s mid := clearData_still h _ _ _ cleared
    obtain ⟨later, same, all⟩ := ih rest
    refine ⟨first.trans later, same.trans (clearData_loaded cleared), fun o member => ?_⟩
    cases List.mem_cons.mp member with
    | inl here => exact here ▸ alive
    | inr there =>
      rw [← first.refcnt]
      exact all o there

/-- Nothing else stops a file from being put to rest. -/
theorem restHashes_runs {list : List Nat} (alive : ∀ o ∈ list, 0 < (s.objects o).refcnt) :
    ∃ t, restHashes (hashOps sha je) list s = some ((), t) := by
  induction list generalizing s with
  | nil => exact ⟨s, rfl⟩
  | cons h list ih =>
    obtain ⟨mid, cleared⟩ : ∃ mid, clearData h s = some ((), mid) := ⟨_, rfl⟩
    have still : Still s mid := clearData_still h _ _ _ cleared
    have later : ∀ o ∈ list, 0 < (mid.objects o).refcnt := by
      intro o member
      rw [still.refcnt]
      exact alive o (List.mem_cons_of_mem h member)
    obtain ⟨t, rest⟩ := ih later
    refine ⟨t, ?_⟩
    have asserted : (Run.assert ((s.objects h).refcnt > 0) : StorageM Unit) s = some ((), s) :=
      Run.assert_eq_some.mpr ⟨alive h List.mem_cons_self, rfl⟩
    have counted : (hashOps sha je).getRefCnt h s = some ((s.objects h).refcnt, s) := rfl
    unfold restHashes
    rw [List.forM_eq_forM, List.forM_cons, Run.bind_of_some (a := PUnit.unit) (t := mid)]
    · exact rest
    · rw [Run.bind_of_some counted, Run.bind_of_some asserted]
      exact cleared

theorem restHashes_iff {list : List Nat} : (∃ t, restHashes (hashOps sha je) list s = some ((), t)) ↔ ∀ o ∈ list, 0 < (s.objects o).refcnt :=
  ⟨fun ⟨_, ran⟩ => (restHashes_spec ran).2.2, restHashes_runs⟩

/-- A read comes back with as many bytes as its chunks have: all that are asked for just when
the offset does not push the last of them into one more chunk. -/
theorem readData_requested {file : FileData Nat} {size offset : Nat} (rep : s.Rep sha) (live : ∀ o ∈ file.hashList, s.Live o)
    (long : numChunks file.size ≤ file.hashList.length) (je : Bool) :
    ∃ text t, readData (hashOps sha je) file size offset s = some (text, t) ∧
      ((text.length = min size (file.size - offset) ∧ ∀ k, k < text.length →
        text[k]? = (file.hashList[(offset + k) / chunkSize]?).bind (fun o => (s.content o).data[(offset + k) % chunkSize]?)) ↔
      min size (file.size - offset) = 0 ∨
        offset % chunkSize + min size (file.size - offset) ≤ numChunks (min size (file.size - offset)) * chunkSize) := by
  have stays : ∀ o ∈ file.hashList, (hashOps sha je).Reads (Reading sha s file.hashList) s.content o := fun o member => reads_hashOps member
  obtain ⟨t, ran, _⟩ := readData_bytes stays size offset (s := s) ⟨rep, fun o member => ⟨live o member, rfl⟩⟩
  refine ⟨_, t, ran, ?_⟩
  obtain ⟨m, amount⟩ : ∃ m, m = min size (file.size - offset) := ⟨_, rfl⟩
  have amount' : min (file.size - offset) size = m := (Nat.min_comm _ _).trans amount.symm
  have room := numChunks_le.mp long
  have partly := Nat.mod_lt offset (show chunkSize > 0 by decide)
  rw [amount', ← amount, List.length_take, List.length_drop, length_bytes, List.length_map]
  constructor
  · rintro ⟨length, _⟩
    omega
  · intro fits
    refine ⟨by omega, fun k inside => ?_⟩
    rw [List.getElem?_take_of_lt (by omega), List.getElem?_drop, bytes_getElem?, List.getElem?_map]
    cases file.hashList[(offset + k) / chunkSize]? <;> rfl

/-- A read hands out all bytes that are asked for just when the offset does not push the last of
them into one more chunk, and no hash of a file that it puts to rest has lost its references. -/
theorem read_requested {f : OpenFile Nat} {size offset : Nat} (rep : s.Rep sha) (live : ∀ o ∈ f.data.hashList, s.Live o)
    (long : numChunks f.data.size ≤ f.data.hashList.length) (je : Bool) :
    (∃ text after t, read (hashOps sha je) f size offset s = some ((text, after), t) ∧ text.length = min size (f.data.size - offset) ∧
      ∀ k, k < text.length →
        text[k]? = (f.data.hashList[(offset + k) / chunkSize]?).bind (fun o => (s.content o).data[(offset + k) % chunkSize]?)) ↔
      (min size (f.data.size - offset) = 0 ∨
        offset % chunkSize + min size (f.data.size - offset) ≤ numChunks (min size (f.data.size - offset)) * chunkSize) ∧
      (offset < f.data.size → f.numHashReads + numChunks (min size (f.data.size - offset)) > chunksInBucket * 5 →
        ∀ o ∈ f.data.hashList, 0 < (s.objects o).refcnt) := by
  by_cases past : offset ≥ f.data.size
  · have nothing : min size (f.data.size - offset) = 0 := by omega
    rw [read, if_pos past]
    refine ⟨fun _ => ⟨Or.inl nothing, fun inside => by omega⟩, fun _ => ⟨[], f, s, rfl, nothing.symm, fun k inside => by cases inside⟩⟩
  · obtain ⟨text, mid, ran, sliced⟩ := @readData_requested sha s f.data size offset rep live long je
    have still : Still s mid := readData_within readHash_still f.data size offset _ _ _ ran
    rw [read, if_neg past, Run.bind_of_some ran]
    by_cases fits : min size (f.data.size - offset) = 0 ∨
        offset % chunkSize + min size (f.data.size - offset) ≤ numChunks (min size (f.data.size - offset)) * chunkSize
    · obtain ⟨length, right⟩ := sliced.mpr fits
      rw [hashReads_eq long fits]
      split
      · rename_i many
        have rested := @restHashes_iff sha mid je f.data.hashList
        simp only [still.refcnt] at rested
        constructor
        · rintro ⟨_, _, t, done, _⟩
          obtain ⟨_, _, rest, _⟩ := Run.bind_eq_some.mp done
          exact ⟨fits, fun _ _ => rested.mp ⟨_, rest⟩⟩
        · rintro ⟨_, alive⟩
          obtain ⟨t, rest⟩ := rested.mpr (alive (by omega) many)
          refine ⟨text, { f with numHashReads := 0 }, t, ?_, length, right⟩
          rw [Run.bind_of_some rest, Run.pure_apply]
      · rename_i few
        exact ⟨fun _ => ⟨fits, fun _ many => absurd many few⟩, fun _ => ⟨text, _, mid, rfl, length, right⟩⟩
    · refine ⟨?_, fun both => absurd both.1 fits⟩
      rintro ⟨text', _, t, done, length, right⟩
      suffices same : text' = text by
        rw [same] at length right
        exact absurd (sliced.mp ⟨length, right⟩) fits
      split at done
      · obtain ⟨_, _, _, rest⟩ := Run.bind_eq_some.mp done
        cases rest
        rfl
      · cases done
        rfl

/-- A read of one chunk, after which the file is put to rest. -/
theorem read_requested_rested : ∃ text after t,
    read (hashOps DataFs.prefixSum true) ⟨⟨chunkSize, [zeroHash]⟩, 1280, 0⟩ chunkSize 0 DataFs.zeroOnly = some ((text, after), t) ∧
      text.length = min chunkSize (chunkSize - 0) ∧ ∀ k, k < text.length →
        text[k]? = ([zeroHash][(0 + k) / chunkSize]?).bind (fun o => (DataFs.zeroOnly.content o).data[(0 + k) % chunkSize]?) :=
  (@read_requested DataFs.prefixSum DataFs.zeroOnly ⟨⟨chunkSize, [zeroHash]⟩, 1280, 0⟩ chunkSize 0 DataFs.rep_zeroOnly
    (fun o member => List.mem_singleton.mp member ▸ rfl) (by decide) true).mpr
      ⟨Or.inr (by decide), fun _ _ o member => List.mem_singleton.mp member ▸ by decide⟩

/-- Two bytes on both sides of a boundary: only the first one comes back. -/
theorem read_cut_short : ∃ text after t,
    read (hashOps DataFs.prefixSum true) ⟨⟨8192, [zeroHash, zeroHash]⟩, 0, 0⟩ 2 4095 DataFs.zeroOnly = some ((text, after), t) ∧
      text.length ≠ min 2 (8192 - 4095) := by
  have live : ∀ o ∈ [zeroHash, zeroHash], (hashOps DataFs.prefixSum true).Reads (Reading DataFs.prefixSum DataFs.zeroOnly [zeroHash, zeroHash])
      DataFs.zeroOnly.content o := fun o member => reads_hashOps member
  obtain ⟨text, t, ran, short⟩ : ∃ text t, readData (hashOps DataFs.prefixSum true) ⟨8192, [zeroHash, zeroHash]⟩ 2 4095 DataFs.zeroOnly = some (text, t) ∧
      text.length ≠ min 2 (8192 - 4095) := by
    obtain ⟨t, ran, _⟩ := @readData_bytes _ _ _ _ _ ⟨8192, [zeroHash, zeroHash]⟩ live 2 4095 DataFs.zeroOnly
      ⟨DataFs.rep_zeroOnly, fun o member => ⟨by simp only [List.mem_cons, List.not_mem_nil, or_false, or_self] at member; rw [member]; rfl, rfl⟩⟩
    refine ⟨_, t, ran, ?_⟩
    rw [List.length_take, List.length_drop, length_bytes]
    decide
  obtain ⟨f, opened⟩ : ∃ f : OpenFile Nat, f = ⟨⟨8192, [zeroHash, zeroHash]⟩, 0, 0⟩ := ⟨_, rfl⟩
  refine ⟨text, { f with numHashReads := 0 + hashReads f.data 2 4095 }, t, ?_, short⟩
  subst opened
  rw [read, if_neg (by decide), Run.bind_of_some ran, if_neg (by decide), Run.pure_apply]

/-- What a read comes back with depends on the chunks only. -/
theorem readData_same (je : Bool) (file : FileData Nat) (rep : s.Rep sha) (rep' : t.Rep sha)
    (kept : ∀ o ∈ file.hashList, s.Live o ∧ t.Live o ∧ t.content o = s.content o) (size offset : Nat) :
    ∃ text u v, readData (hashOps sha je) file size offset s = some (text, u) ∧ readData (hashOps sha je) file size offset t = some (text, v) := by
  have stays : ∀ o ∈ file.hashList, (hashOps sha je).Reads (Reading sha s file.hashList) s.content o := fun o member => reads_hashOps member
  obtain ⟨u, first, _⟩ := readData_bytes stays size offset (s := s) ⟨rep, fun o member => ⟨(kept o member).1, rfl⟩⟩
  obtain ⟨v, second, _⟩ := readData_bytes stays size offset (s := t) ⟨rep', fun o member => (kept o member).2⟩
  exact ⟨_, u, v, first, second⟩

end Reading

section Writing
variable {K : Set Chunk} {held : List Nat}

/-- All chunks of live hash objects are among these. -/
def Known (K : Set Chunk) (s : Storage) : Prop := ∀ o, s.Live o → s.content o ∈ K

theorem Known.of_advance (known : s.Known K) (rep : s.Rep sha) (advance : Advance sha s t) (created : t.created = s.created) : t.Known K := by
  intro o live
  have made := (advance.rep rep).made o live
  rw [created] at made
  obtain ⟨before, same⟩ := advance.content rep o made live
  rw [same]
  exact known o before

/-- A new hash has the chunk that it is asked for, when the sums tell the chunks apart. -/
theorem newHash_simulates (injective : Set.InjOn sha K) (counted : s.Counted sha held) (known : s.Known K) {d : Chunk} (within : d ∈ K)
    (ran : newHash (sha d) d s = some (o, t)) : t.Counted sha held ∧ t.Known K ∧ t.Live o ∧ t.content o = d := by
  obtain ⟨advance, facts⟩ := newHash_spec ran
  obtain ⟨live, found⟩ := facts counted.rep
  have content : t.content o = d := by
    rcases found with new | ⟨before, kept, same⟩
    · exact new
    · exact kept.trans (injective (known o before) within same)
  refine ⟨newHash_counted counted ran, ?_, live, content⟩
  rcases newHash_still ran with ⟨_, still⟩ | ⟨_, shape, i, a, _, still⟩
  · exact known.of_advance counted.rep advance still.created
  · intro o' live'
    by_cases same : o' = o
    · rw [same, content]
      exact within
    · have made := (advance.rep counted.rep).made o' live'
      rw [still.created] at made
      have older : o' < s.created := by
        have bound : o' < s.created + 1 := made
        omega
      obtain ⟨before, kept⟩ := advance.content counted.rep o' older live'
      rw [kept]
      exact known o' before

/-- A chunk that is written to gives a hash with the chunk that comes of it, or none when that is
the same. -/
theorem writeHash_simulates (injective : Set.InjOn sha K) (counted : s.Counted sha held) (known : s.Known K) (live : s.Live o)
    {offset : Nat} {input : Str} {d : Chunk} (written : (s.content o).write offset input = some d) (within : d ∈ K) {r : Option Nat}
    (ran : writeHash sha o offset input s = some (r, t)) :
    t.Counted sha held ∧ t.Known K ∧ Advance sha s t ∧
      if d = s.content o then r = none else ∃ n, r = some n ∧ t.Live n ∧ t.content n = d := by
  have advance := writeHash_within o offset input _ _ _ ran
  obtain ⟨c, mid, loaded, rest⟩ := Run.bind_eq_some.mp ran
  obtain ⟨first, facts⟩ : Advance sha _ _ ∧ _ := data_spec loaded
  obtain ⟨content, alive, kept⟩ := facts counted.rep live
  have still := data_still o _ _ _ loaded
  rw [content, written] at rest
  dsimp only at rest
  obtain ⟨_, _, got, rest⟩ := Run.bind_eq_some.mp rest
  cases got
  have sum : (mid.objects o).sum = sha (s.content o) := (still.sum o).trans (counted.rep.chunk o live).symm
  have same : sha d = (mid.objects o).sum ↔ d = s.content o := by
    rw [sum]
    exact ⟨fun equal => injective within (known o live) equal, congrArg sha⟩
  have counted' := counted.of_still still first
  have known' := known.of_advance counted.rep first still.created
  by_cases unchanged : d = s.content o
  · rw [if_pos (same.mpr unchanged)] at rest
    cases rest
    exact ⟨counted', known', advance, by rw [if_pos unchanged]⟩
  · rw [if_neg (fun equal => unchanged (same.mp equal))] at rest
    obtain ⟨n, last, made, rest⟩ := Run.bind_eq_some.mp rest
    cases rest
    obtain ⟨counted'', known'', live', content'⟩ := newHash_simulates injective counted' known' within made
    refine ⟨counted'', known'', advance, ?_⟩
    rw [if_neg unchanged]
    exact ⟨n, rfl, live', content'⟩

/-- What is referred to all along keeps its chunk. -/
theorem map_content {l : List Nat} (counted : s.Counted sha held) (advance : Advance sha s t) (sub : ∀ o ∈ l, o ∈ held)
    (live : ∀ o ∈ l, t.Live o) : l.map t.content = l.map s.content :=
  List.map_congr_left (fun o member => counted.content advance (sub o member) (live o member))

/-- The loop of a write over hashes is the loop over their chunks. -/
theorem writeLoop_simulates (injective : Set.InjOn sha K) {offset : Nat} {hashes after : List Nat} {replaced : List (Nat × Nat)} {buf : Str}
    {fileOffset : Nat} {after' : List Chunk} {replaced' : List (Chunk × Chunk)} (counted : s.Counted sha held) (known : s.Known K)
    (sub : ∀ o ∈ hashes, o ∈ held)
    (plain : writeLoop quietOps offset (hashes.map s.content) buf fileOffset () = some ((after', replaced'), ()))
    (within : ∀ d ∈ after', d ∈ K) (ran : writeLoop (hashOps sha je) offset hashes buf fileOffset s = some ((after, replaced), t)) :
    t.Counted sha (replaced.map Prod.snd ++ held) ∧ t.Known K ∧ Advance sha s t ∧ after.map t.content = after' ∧
      ∀ o ∈ after, o ∈ replaced.map Prod.snd ++ held := by
  induction hashes generalizing s held after replaced buf fileOffset after' replaced' with
  | nil =>
    obtain ⟨_, _, asserted, rest⟩ := Run.bind_eq_some.mp ran
    obtain ⟨_, rfl⟩ := Run.assert_eq_some.mp asserted
    cases rest
    obtain ⟨_, _, _, rest⟩ := Run.bind_eq_some.mp plain
    cases rest
    exact ⟨counted, known, Advance.refl sha _, rfl, fun o member => absurd member List.not_mem_nil⟩
  | cons writeHash hashes ih =>
    have member := sub writeHash List.mem_cons_self
    have others : ∀ o ∈ hashes, o ∈ held := fun o inside => sub o (List.mem_cons_of_mem _ inside)
    rw [List.map_cons, writeLoop] at plain
    rw [writeLoop] at ran
    split at ran
    · rename_i here
      rw [if_pos here] at plain
      dsimp only at ran plain
      obtain ⟨n, amount⟩ : ∃ n, n = min (List.length buf) (chunkSize - (offset - fileOffset)) := ⟨_, rfl⟩
      rw [← amount] at ran plain
      obtain ⟨r, mid, wrote, rest⟩ := Run.bind_eq_some.mp ran
      obtain ⟨r', _, wrote', rest'⟩ := Run.bind_eq_some.mp plain
      obtain ⟨d, written, shape⟩ := Option.map_eq_some_iff.mp wrote'
      cases shape
      have step := fun inside => writeHash_simulates injective counted known (counted.live _ member) written inside wrote
      by_cases same : d = s.content writeHash
      · rw [if_pos same] at rest'
        dsimp only at rest'
        obtain ⟨⟨after₂, replaced₂⟩, _, plain, rest'⟩ := Run.bind_eq_some.mp rest'
        cases rest'
        obtain ⟨counted₁, known₁, advance₁, shape⟩ := step (same ▸ within _ List.mem_cons_self)
        rw [if_pos same] at shape
        subst shape
        dsimp only at rest
        obtain ⟨⟨after₁, replaced₁⟩, last, ran, rest⟩ := Run.bind_eq_some.mp rest
        cases rest
        have kept := map_content counted advance₁ others (fun o inside => counted₁.live o (others o inside))
        rw [← kept] at plain
        obtain ⟨counted₂, known₂, advance₂, same₂, sub₂⟩ := ih counted₁ known₁ others plain
          (fun d inside => within d (List.mem_cons_of_mem _ inside)) ran
        have live := counted₂.live writeHash (List.mem_append_right _ member)
        refine ⟨counted₂, known₂, advance₁.trans advance₂, ?_, ?_⟩
        · rw [List.map_cons, same₂, counted.content (advance₁.trans advance₂) member live]
        · intro o inside
          rcases List.mem_cons.mp inside with rfl | inside
          · exact List.mem_append_right _ member
          · exact sub₂ o inside
      · rw [if_neg same] at rest'
        dsimp only at rest'
        obtain ⟨_, _, _, rest'⟩ := Run.bind_eq_some.mp rest'
        obtain ⟨⟨after₂, replaced₂⟩, _, plain, rest'⟩ := Run.bind_eq_some.mp rest'
        cases rest'
        obtain ⟨counted₁, known₁, advance₁, shape⟩ := step (within _ List.mem_cons_self)
        rw [if_neg same] at shape
        obtain ⟨newHsh, rfl, live₁, content₁⟩ := shape
        dsimp only at rest
        obtain ⟨_, mid₂, inc, rest⟩ := Run.bind_eq_some.mp rest
        obtain ⟨⟨after₁, replaced₁⟩, last, ran, rest⟩ := Run.bind_eq_some.mp rest
        cases rest
        have counted₂ : mid₂.Counted sha (newHsh :: held) := incRefCnt_counted counted₁ live₁ inc
        have advance₂ : Advance sha _ _ := incRefCnt_within newHsh 1 _ _ _ inc
        have known₂ := known₁.of_advance counted₁.rep advance₂ (incRefCnt_still inc).created
        have alive := counted₂.live newHsh List.mem_cons_self
        have content₂ : mid₂.content newHsh = d := (advance₂.content counted₁.rep newHsh (counted₁.rep.made newHsh live₁) alive).2.trans content₁
        have kept := map_content counted (advance₁.trans advance₂) others
          (fun o inside => counted₂.live o (List.mem_cons_of_mem _ (others o inside)))
        rw [← kept] at plain
        obtain ⟨counted₃, known₃, advance₃, same₃, sub₃⟩ := ih counted₂ known₂ (fun o inside => List.mem_cons_of_mem _ (others o inside)) plain
          (fun d inside => within d (List.mem_cons_of_mem _ inside)) ran
        have live₃ := counted₃.live newHsh (List.mem_append_right _ List.mem_cons_self)
        have order : (replaced₁.map Prod.snd ++ newHsh :: held).Perm (newHsh :: (replaced₁.map Prod.snd ++ held)) := List.perm_middle
        refine ⟨counted₃.congr (fun o => (order.count_eq o).symm), known₃, (advance₁.trans advance₂).trans advance₃, ?_, ?_⟩
        · rw [List.map_cons, same₃, counted₂.content advance₃ List.mem_cons_self live₃, content₂]
        · intro o inside
          rcases List.mem_cons.mp inside with rfl | inside
          · exact List.mem_cons_self
          · exact order.mem_iff.mp (sub₃ o inside)
    · rename_i elsewhere
      rw [if_neg elsewhere] at plain
      obtain ⟨⟨after₁, replaced₁⟩, mid, ran, rest⟩ := Run.bind_eq_some.mp ran
      cases rest
      obtain ⟨⟨after₂, replaced₂⟩, _, plain, rest⟩ := Run.bind_eq_some.mp plain
      cases rest
      obtain ⟨counted', known', advance, same, sub'⟩ := ih counted known others plain (fun d inside => within d (List.mem_cons_of_mem _ inside)) ran
      have live := counted'.live writeHash (List.mem_append_right _ member)
      refine ⟨counted', known', advance, ?_, ?_⟩
      · rw [List.map_cons, same, counted.content advance member live]
      · intro o inside
        rcases List.mem_cons.mp inside with rfl | inside
        · exact List.mem_append_right _ member
        · exact sub' o inside

/-- Hashes that are taken out of the list make room for the new ones. -/
theorem writeLoop_counts {offset : Nat} {hashes after : List Nat} {replaced : List (Nat × Nat)} {buf : Str} {fileOffset : Nat}
    (ran : writeLoop (hashOps sha je) offset hashes buf fileOffset s = some ((after, replaced), t)) (o : Nat) :
    after.count o + (replaced.map Prod.fst).count o = hashes.count o + (replaced.map Prod.snd).count o := by
  induction hashes generalizing s after replaced buf fileOffset with
  | nil =>
    obtain ⟨_, _, _, rest⟩ := Run.bind_eq_some.mp ran
    cases rest
    rfl
  | cons writeHash hashes ih =>
    rw [writeLoop] at ran
    split at ran
    · dsimp only at ran
      obtain ⟨r, mid, _, rest⟩ := Run.bind_eq_some.mp ran
      cases r with
      | some newHsh =>
        obtain ⟨_, _, _, rest⟩ := Run.bind_eq_some.mp rest
        obtain ⟨⟨after₁, replaced₁⟩, _, ran, rest⟩ := Run.bind_eq_some.mp rest
        cases rest
        have later := ih ran
        simp only [List.map_cons, List.count_cons]
        omega
      | none =>
        obtain ⟨⟨after₁, replaced₁⟩, _, ran, rest⟩ := Run.bind_eq_some.mp rest
        cases rest
        have later := ih ran
        simp only [List.count_cons]
        omega
    · obtain ⟨⟨after₁, replaced₁⟩, _, ran, rest⟩ := Run.bind_eq_some.mp ran
      cases rest
      have later := ih ran
      simp only [List.count_cons]
      omega

/-- A loop whose body gives up one reference each time. -/
theorem forM_counted {α : Type} {f : α → Nat} {body : α → StorageM PUnit}
    (each : ∀ a ⦃held s t⦄, s.Counted sha (f a :: held) → body a s = some (⟨⟩, t) → t.Counted sha held) {list : List α}
    (counted : s.Counted sha (list.map f ++ held)) (ran : list.forM body s = some (⟨⟩, t)) : t.Counted sha held := by
  induction list generalizing s with
  | nil =>
    cases ran
    exact counted
  | cons a list ih =>
    rw [List.forM_eq_forM, List.forM_cons] at ran
    obtain ⟨_, mid, first, rest⟩ := Run.bind_eq_some.mp ran
    exact ih (each a counted first) rest

theorem growList_counted {n : Nat} (counted : s.Counted sha held) (ran : growList (hashOps sha je) n s = some ((), t)) :
    t.Counted sha (List.replicate n zeroHash ++ held) ∧ Advance sha s t ∧ t.created = s.created := by
  unfold growList at ran
  split at ran
  · exact ⟨incRefCnt_counted counted counted.rep.zero.1 ran, incRefCnt_within zeroHash n _ _ _ ran, (incRefCnt_still ran).created⟩
  · have none : n = 0 := by omega
    cases ran
    rw [none]
    exact ⟨counted, Advance.refl sha _, rfl⟩

theorem attach_counted {replaced : List (Nat × Nat)} (counted : s.Counted sha held) (ran : attach (hashOps sha je) replaced s = some ((), t)) :
    t.Counted sha held ∧ Advance sha s t := by
  unfold attach at ran
  split at ran
  · exact ⟨counted.of_still (addChange_still je _ _ _ _ ran) (addChange_within je _ _ _ _ ran), addChange_within je _ _ _ _ ran⟩
  · cases ran
    exact ⟨counted, Advance.refl sha _⟩

theorem content_zeroHash (rep : s.Rep sha) : s.content zeroHash = .zero := (rep.data zeroHash .zero rep.zero.1 rep.zero.2.2.1).symm

/-- A write over hashes is the write over their chunks. -/
theorem writeData_simulates (injective : Set.InjOn sha K) {file after : FileData Nat} {buf : Str} {offset n n' : Nat} {others : List Nat}
    {after' : FileData Chunk} (counted : s.Counted sha (file.hashList ++ others)) (known : s.Known K)
    (plain : writeData quietOps (s.contents file) buf offset () = some ((after', n'), ())) (within : ∀ d ∈ after'.hashList, d ∈ K)
    (ran : writeData (hashOps sha je) file buf offset s = some ((after, n), t)) :
    t.Counted sha (after.hashList ++ others) ∧ Advance sha s t ∧ t.contents after = after' := by
  have advance := writeData_within (hashOps_within je) file buf offset _ _ _ ran
  rw [writeData_eq] at ran plain
  obtain ⟨_, _, asserted, rest⟩ := Run.bind_eq_some.mp ran
  obtain ⟨grows, rfl⟩ := Run.assert_eq_some.mp asserted
  obtain ⟨_, s₁, paid, rest⟩ := Run.bind_eq_some.mp rest
  obtain ⟨_, _, asserted, rest⟩ := Run.bind_eq_some.mp rest
  obtain ⟨_, rfl⟩ := Run.assert_eq_some.mp asserted
  obtain ⟨⟨new, replaced⟩, s₂, looped, rest⟩ := Run.bind_eq_some.mp rest
  obtain ⟨_, s₃, dropped, rest⟩ := Run.bind_eq_some.mp rest
  obtain ⟨_, _, attached, rest⟩ := Run.bind_eq_some.mp rest
  cases rest
  obtain ⟨_, _, _, rest⟩ := Run.bind_eq_some.mp plain
  obtain ⟨_, _, _, rest⟩ := Run.bind_eq_some.mp rest
  obtain ⟨_, _, _, rest⟩ := Run.bind_eq_some.mp rest
  obtain ⟨⟨new', replaced'⟩, _, looped', rest⟩ := Run.bind_eq_some.mp rest
  obtain ⟨_, _, _, rest⟩ := Run.bind_eq_some.mp rest
  obtain ⟨_, _, _, rest⟩ := Run.bind_eq_some.mp rest
  cases rest
  obtain ⟨counted₁, advance₁, created₁⟩ := growList_counted counted paid
  have known₁ := known.of_advance counted.rep advance₁ created₁
  obtain ⟨first, firstShape⟩ : ∃ i, i = offset / chunkSize := ⟨_, rfl⟩
  obtain ⟨count, countShape⟩ : ∃ i, i = numHashesInWrite (List.length buf) offset := ⟨_, rfl⟩
  obtain ⟨list, listShape⟩ : ∃ l, l = grown zeroHash file.hashList (numHashes file.size (List.length buf) offset) := ⟨_, rfl⟩
  have listed : s₁.Counted sha (list ++ others) := by
    refine counted₁.congr (fun o => ?_)
    rw [listShape, grown, List.count_append, List.count_append, List.count_append, List.count_append]
    omega
  have chunks : grown Chunk.zero (file.hashList.map s.content) (numHashes file.size (List.length buf) offset) = list.map s₁.content := by
    have old := map_content counted advance₁ (l := file.hashList) (fun o member => List.mem_append_left _ member)
      (fun o member => listed.live o (by rw [listShape]; exact List.mem_append_left _ (List.mem_append_left _ member)))
    rw [listShape, grown, grown, List.map_append, List.map_replicate, content_zeroHash listed.rep, old, List.length_map]
  change writeLoop quietOps offset (windowOf (grown Chunk.zero (file.hashList.map s.content) (numHashes file.size _ offset)) _ offset) buf _ () = _ at looped'
  change writeLoop (hashOps sha je) offset (windowOf (grown zeroHash file.hashList _) _ offset) buf _ s₁ = _ at looped
  rw [← listShape] at looped
  rw [chunks, windowOf_map] at looped'
  have inWindow : ∀ o ∈ windowOf list (List.length buf) offset, o ∈ list := fun o member => List.mem_of_mem_drop (List.mem_of_mem_take member)
  obtain ⟨counted₂, _, advance₂, same, sub⟩ := writeLoop_simulates injective listed known₁
    (fun o member => List.mem_append_left _ (inWindow o member)) looped'
    (fun d member => within d (List.mem_append_left _ (List.mem_append_right _ member))) looped
  obtain ⟨newList, newShape⟩ : ∃ l, l = list.take first ++ new ++ list.drop (first + count) := ⟨_, rfl⟩
  have exchanged : s₂.Counted sha (replaced.map Prod.fst ++ (newList ++ others)) := by
    refine counted₂.congr (fun o => ?_)
    have loop := writeLoop_counts looped o
    have pieces : list.count o = (list.take first).count o + ((windowOf list (List.length buf) offset).count o + (list.drop (first + count)).count o) := by
      rw [windowOf, ← firstShape, ← countShape, ← List.count_append, ← List.count_append, ← List.drop_drop, List.take_append_drop,
        List.take_append_drop]
    simp only [newShape, List.count_append]
    omega
  have counted₃ : s₃.Counted sha (newList ++ others) := forM_counted (fun _ _ _ _ counted ran => decRefCnt_counted counted ran) exchanged dropped
  have advance₃ : Advance sha s₂ s₃ := Run.Within.forM (fun pair : Nat × Nat => decRefCnt_within pair.1) _ _ _ dropped
  obtain ⟨counted₄, advance₄⟩ := attach_counted counted₃ attached
  have live : ∀ o ∈ newList, t.Live o := fun o member => counted₄.live o (List.mem_append_left _ member)
  have outside : ∀ part : List Nat, (∀ o ∈ part, o ∈ list ∧ o ∈ newList) → part.map t.content = part.map s₁.content :=
    fun part inside => map_content listed ((advance₂.trans advance₃).trans advance₄)
      (fun o member => List.mem_append_left _ (inside o member).1) (fun o member => live o (inside o member).2)
  have middle : new.map t.content = new.map s₂.content := map_content counted₂ (advance₃.trans advance₄) sub
    (fun o member => live o (by rw [newShape]; exact List.mem_append_left _ (List.mem_append_right _ member)))
  have heads := outside (list.take first)
    (fun o member => ⟨List.mem_of_mem_take member, by rw [newShape]; exact List.mem_append_left _ (List.mem_append_left _ member)⟩)
  have tails := outside (list.drop (first + count))
    (fun o member => ⟨List.mem_of_mem_drop member, by rw [newShape]; exact List.mem_append_right _ member⟩)
  refine ⟨?_, advance, ?_⟩
  · rw [newShape, listShape, firstShape, countShape] at counted₄
    exact counted₄
  · have whole : newList.map t.content = (list.map s₁.content).take first ++ new' ++ (list.map s₁.content).drop (first + count) := by
      rw [newShape, List.map_append, List.map_append, heads, tails, middle, same, List.map_take, List.map_drop]
    rw [newShape, listShape, firstShape, countShape, ← listShape, ← chunks] at whole
    rw [listShape] at whole
    exact congrArg (FileData.mk _) whole

theorem truncateData_counted {file after : FileData Nat} {newSize : Nat} {others : List Nat}
    (counted : s.Counted sha (file.hashList ++ others)) (ran : truncateData (hashOps sha je) file newSize s = some (after, t)) :
    t.Counted sha (after.hashList ++ others) ∧ after = ⟨newSize, resized zeroHash file.hashList (numChunks newSize)⟩ := by
  unfold truncateData at ran
  dsimp only at ran
  unfold resized
  split at ran
  · rename_i shorter
    obtain ⟨_, mid, dropped, rest⟩ := Run.bind_eq_some.mp ran
    obtain ⟨_, _, attached, rest⟩ := Run.bind_eq_some.mp rest
    cases rest
    have parted : s.Counted sha ((file.hashList.drop (numChunks newSize)).map id ++ (file.hashList.take (numChunks newSize) ++ others)) := by
      refine counted.congr (fun o => ?_)
      have pieces := congrArg (List.count o) (List.take_append_drop (numChunks newSize) file.hashList)
      simp only [List.count_append, List.map_id] at pieces ⊢
      omega
    have given : mid.Counted sha (file.hashList.take (numChunks newSize) ++ others) := by
      refine forM_counted (fun o _ _ _ counted ran => ?_) parted dropped
      obtain ⟨_, _, first, rest⟩ := Run.bind_eq_some.mp ran
      exact (decRefCnt_counted counted first).of_still (clearData_still o _ _ _ rest) (clearData_within o _ _ _ rest)
    have none : numChunks newSize - file.hashList.length = 0 := by omega
    rw [none, List.replicate_zero, List.append_nil]
    exact ⟨given.of_still (addChange_still je _ _ _ _ attached) (addChange_within je _ _ _ _ attached), rfl⟩
  · split at ran
    · obtain ⟨_, mid, inc, rest⟩ := Run.bind_eq_some.mp ran
      obtain ⟨_, _, attached, rest⟩ := Run.bind_eq_some.mp rest
      cases rest
      have more := incRefCnt_counted counted counted.rep.zero.1 inc
      have added := more.of_still (addChange_still je _ _ _ _ attached) (addChange_within je _ _ _ _ attached)
      rw [List.take_of_length_le (by omega)]
      refine ⟨added.congr (fun o => ?_), rfl⟩
      simp only [List.count_append]
      change _ + List.count o (List.replicate _ zeroHash) + _ = _
      omega
    · cases ran
      have none : numChunks newSize - file.hashList.length = 0 := by omega
      rw [none, List.replicate_zero, List.append_nil, List.take_of_length_le (by omega)]
      exact ⟨counted, rfl⟩

/-- Cutting a list of hashes is cutting the list of their chunks. -/
theorem truncateData_simulates {file after : FileData Nat} {newSize : Nat} {others : List Nat}
    (counted : s.Counted sha (file.hashList ++ others)) (ran : truncateData (hashOps sha je) file newSize s = some (after, t)) :
    t.Counted sha (after.hashList ++ others) ∧ Advance sha s t ∧
      t.contents after = ⟨newSize, resized .zero (s.contents file).hashList (numChunks newSize)⟩ := by
  have advance := truncateData_within (hashOps_within je) file newSize _ _ _ ran
  obtain ⟨counted', shape⟩ := truncateData_counted counted ran
  refine ⟨counted', advance, ?_⟩
  subst shape
  have kept := map_content counted advance (l := file.hashList.take (numChunks newSize))
    (fun o member => List.mem_append_left _ (List.mem_of_mem_take member))
    (fun o member => counted'.live o (List.mem_append_left _ (List.mem_append_left _ member)))
  unfold contents resized
  rw [List.map_append, List.map_replicate, content_zeroHash counted'.rep, kept, List.map_take, List.length_map]

/-- The references to the zero hash are not counted by its places in the files. -/
theorem Counted.recount_zero {held : List Nat} (counted : s.Counted sha held) (n : Int) : (s.recount zeroHash n).Counted sha held := by
  refine ⟨(advance_recount s zeroHash n).rep counted.rep, fun o member => (live_recount s zeroHash o n).mpr (counted.live o member), fun o live loose => ?_⟩
  rw [fixed_recount] at loose
  have other : o ≠ zeroHash := by
    rintro rfl
    cases loose.symm.trans counted.rep.zero.2.1
  rw [refcnt_recount_of_ne other]
  exact counted.refcnt o ((live_recount s zeroHash o n).mp live) loose

theorem counted_zeroOnly : DataFs.zeroOnly.Counted DataFs.prefixSum [] := by
  refine ⟨DataFs.rep_zeroOnly, fun o member => absurd member List.not_mem_nil, fun o live loose => ?_⟩
  rw [DataFs.live_zeroOnly live] at loose
  cases loose

end Writing

end Storage

end CloudCryptFS.Filesystem
