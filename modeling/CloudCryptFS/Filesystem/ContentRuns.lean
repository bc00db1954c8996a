import CloudCryptFS.Filesystem.Namespace
import CloudCryptFS.Filesystem.StorageCalls
import CloudCryptFS.Util.Schedule

/-! Sequences of writes, truncates, rests and reloads of one file over the storage. Whether one of
them aborts rests on how long the list of hashes is, which the offset of the last write decides, on
the references to the zero hash, which a mount counts anew, and on the room in the accounting. -/

namespace CloudCryptFS.Filesystem
open Util Script.Lexer BucketIndex

/-- What is done to one file. `reload` makes it again from what a rest has stored, `mount` does so
in a new process. -/
inductive ContentOp where
  | write (buf : Str) (offset : Nat)
  | truncate (newSize : Nat)
  | rest
  | reload
  | mount

namespace Storage
variable {sha : Chunk → Sha256} {s t : Storage} {je : Bool} {held others : List Nat} {base : Int}

/-- `file::loadHashes` of the hashes that were stored: as many as the size needs. -/
def loadList (file : FileData Nat) : StorageM (OpenFile Nat) := do
  let numHashes := numChunks file.size
  let missing := numHashes - file.hashList.length
  if missing > 0 then incRefCnt zeroHash missing
  pure ⟨⟨file.size, resized zeroHash file.hashList numHashes⟩, 0, 0⟩

/-- The storage of a new process: its zero hash is referred to once. -/
def mounted (s : Storage) : Storage := s.recount zeroHash (1 - (s.objects zeroHash).refcnt)

theorem Steady.mounted (steady : s.Steady sha base held) : s.mounted.Steady sha (1 - held.count zeroHash) held := by
  refine ⟨steady.counted.recount_zero _, ?_, steady.tidy, steady.records⟩
  rw [Storage.mounted, refcnt_recount_self]
  omega

theorem calm_mounted (s : Storage) : Calm 0 s s.mounted := Calm.of_loaded rfl

/-- A list that is loaded goes on with the zero hash; what it does not take is not given up. -/
theorem loadList_runs {file : FileData Nat} (steady : s.Steady sha base (file.hashList ++ others)) :
    ∃ after others' t, loadList file s = some (after, t) ∧ t.Steady sha base (after.data.hashList ++ others') ∧
      after.data.size = file.size ∧ after.data.hashList.length = numChunks file.size ∧ Calm 1 s t := by
  have length := length_resized zeroHash file.hashList (numChunks file.size)
  unfold loadList
  dsimp only
  split
  · rename_i short
    obtain ⟨t, inc, steady', calm, _⟩ := incRefCnt_runs steady steady.counted.rep.zero.1 (numChunks file.size - file.hashList.length)
    refine ⟨_, others, t, by rw [Run.bind_of_some inc, Run.pure_apply], steady'.congr (fun o => ?_), rfl, length, calm⟩
    rw [resized, List.take_of_length_le (by omega)]
    simp only [List.count_append]
    omega
  · rename_i enough
    have none : numChunks file.size - file.hashList.length = 0 := by omega
    refine ⟨_, file.hashList.drop (numChunks file.size) ++ others, s, rfl, steady.congr (fun o => ?_), rfl, length, (Calm.refl s).mono (Nat.zero_le 1)⟩
    have pieces := congrArg (List.count o) (List.take_append_drop (numChunks file.size) file.hashList)
    rw [resized, none, List.replicate_zero, List.append_nil]
    simp only [List.count_append] at pieces ⊢
    omega

end Storage

namespace ContentOp
open Storage (StorageM hashOps zeroHash HasRoom Rests freed written zerosAfter truncateChanges writeChanges loadList Steady Calm)

section Operations
variable (sha : Chunk → Sha256) (je : Bool)

def perform : ContentOp → OpenFile Nat → StorageM (OpenFile Nat)
  | .write buf offset, f => writeInner (hashOps sha je) f buf offset
  | .truncate newSize, f => if newSize > maxFileSize then pure f else truncateInner (hashOps sha je) f newSize
  | .rest, f => do
    restHashes (hashOps sha je) f.data.hashList
    pure f
  | .reload, f => do
    restHashes (hashOps sha je) f.data.hashList
    loadList f.data
  | .mount, f => do
    restHashes (hashOps sha je) f.data.hashList
    modify Storage.mounted
    loadList f.data

/-- One operation as a step of a run. -/
def step (op : ContentOp) (x : OpenFile Nat × Storage) : Option (OpenFile Nat × Storage) := perform sha je op x.1 x.2

end Operations

/-- The size after an operation. -/
def sizeAfter (size : Nat) : ContentOp → Nat
  | .write buf offset => max size (offset + buf.length)
  | .truncate newSize => if newSize > maxFileSize then size else newSize
  | .rest | .reload | .mount => size

/-- Whether the list has one chunk more than the size needs: an unaligned write leaves it. -/
def spareAfter (spare : Bool) : ContentOp → Bool
  | .write _ offset => decide (offset % chunkSize > 0)
  | .truncate newSize => if newSize > maxFileSize then spare else false
  | .rest => spare
  | .reload | .mount => false

/-- An aligned write to a file with a spare chunk has to need one more. -/
def Allowed (size : Nat) (spare : Bool) : ContentOp → Prop
  | .write buf offset => spare = true → offset % chunkSize = 0 → numChunks size < numChunks (max size (offset + buf.length))
  | _ => True

def AllAllowed (size : Nat) (spare : Bool) : List ContentOp → Prop
  | [] => True
  | op :: later => op.Allowed size spare ∧ AllAllowed (op.sizeAfter size) (op.spareAfter spare) later

/-- The accounting has room for what an operation fetches and posts, and the zero hash still has
references if the operation puts a file to rest that has it. -/
def Safe (sha : Chunk → Sha256) (x : OpenFile Nat × Storage) : ContentOp → Prop
  | .write buf offset => x.2.HasRoom (written sha x.2 x.1.data buf offset) ∧
      (x.1.numHashWrites + (written sha x.2 x.1.data buf offset).length > chunksInBucket * 5 →
        x.2.Rests x.1.data.hashList (x.2.zerosAfter x.1.data buf offset (written sha x.2 x.1.data buf offset)))
  | .truncate newSize => newSize ≤ maxFileSize →
      (x.2.accounting.postAll (x.2.freed (x.1.data.hashList.drop (numChunks newSize)) [])).isSome ∧
        x.2.Rests x.1.data.hashList ((resized zeroHash x.1.data.hashList (numChunks newSize)).count zeroHash)
  | .rest | .reload | .mount => x.2.Rests x.1.data.hashList (x.1.data.hashList.count zeroHash)

/-- How many changes an operation counts in a bucket at most. -/
def changes (file : FileData Nat) : ContentOp → Nat
  | .write buf offset => writeChanges buf offset
  | .truncate _ => truncateChanges file
  | .rest | .reload | .mount => 1

/-- No bucket whose log is full has counted so many changes that an operation could make it wrap
around. -/
def Wide (x : OpenFile Nat × Storage) (op : ContentOp) : Prop := ∀ id, (x.2.bucketAt id).Room (op.changes x.1.data)

/-- The length of the list of hashes between operations. -/
def Long (spare : Bool) (file : FileData Nat) : Prop := file.hashList.length = numChunks file.size + spare.toNat

theorem numChunks_mono {size size' : Nat} (smaller : size ≤ size') : numChunks size ≤ numChunks size' :=
  numChunks_le.mpr (smaller.trans (numChunks_mul size').1)

theorem unaligned_toNat (offset : Nat) : (decide (offset % chunkSize > 0)).toNat = unaligned offset := by
  unfold unaligned
  split <;> simp_all

/-- The list is not too long just when the write is allowed. -/
theorem grows_iff {file : FileData Nat} {spare : Bool} (long : Long spare file) (buf : Str) (offset : Nat) :
    file.hashList.length ≤ numHashes file.size buf.length offset ↔ (ContentOp.write buf offset).Allowed file.size spare := by
  have more := numChunks_mono (Nat.le_max_left file.size (offset + buf.length))
  rw [long, numHashes, unaligned, Allowed]
  cases spare with
  | false => simpa using Nat.le_add_right_of_le more
  | true =>
    rw [Bool.toNat_true]
    split
    · exact ⟨fun _ _ aligned => by omega, fun _ => by omega⟩
    · exact ⟨fun grows _ _ => by omega, fun allowed => allowed rfl (by omega)⟩

section Steps
variable {sha : Chunk → Sha256} {s t : Storage} {f after : OpenFile Nat} {je spare : Bool} {others : List Nat} {base : Int} {op : ContentOp}

/-- A file between two operations, in a storage that counts its references and others. -/
structure Between (sha : Chunk → Sha256) (spare : Bool) (x : OpenFile Nat × Storage) : Prop where
  steady : ∃ base others, x.2.Steady sha base (x.1.data.hashList ++ others)
  long : Long spare x.1.data

theorem rest_iff (steady : s.Steady sha base (f.data.hashList ++ others)) :
    (∃ t, restHashes (hashOps sha je) f.data.hashList s = some ((), t)) ↔ s.Rests f.data.hashList (f.data.hashList.count zeroHash) :=
  Storage.restHashes_iff.trans (Storage.rests_of_steady steady steady)

/-- An operation goes through just when it is allowed and safe. -/
theorem perform_iff (between : Between sha spare (f, s)) (wide : Wide (f, s) op) :
    (∃ after t, perform sha je op f s = some (after, t)) ↔ op.Allowed f.data.size spare ∧ op.Safe sha (f, s) := by
  obtain ⟨⟨base, others, steady⟩, long⟩ := between
  cases op with
  | write buf offset =>
    rw [← grows_iff long]
    exact Storage.writeInner_iff steady wide
  | truncate newSize =>
    rw [perform]
    split
    · rename_i large
      exact ⟨fun _ => ⟨trivial, fun small => absurd small (by omega)⟩, fun _ => ⟨f, s, rfl⟩⟩
    · rename_i small
      rw [Storage.truncateInner_iff steady wide]
      exact ⟨fun room => ⟨trivial, fun _ => room⟩, fun safe => safe.2 (by omega)⟩
  | rest =>
    rw [Safe, ← @rest_iff sha s f je others base steady]
    constructor
    · rintro ⟨after, t, ran⟩
      obtain ⟨_, mid, rested, _⟩ := Run.bind_eq_some.mp ran
      exact ⟨trivial, mid, rested⟩
    · rintro ⟨_, mid, rested⟩
      exact ⟨f, mid, by rw [perform, Run.bind_of_some rested, Run.pure_apply]⟩
  | reload =>
    rw [Safe, ← @rest_iff sha s f je others base steady]
    constructor
    · rintro ⟨after, t, ran⟩
      obtain ⟨_, mid, rested, _⟩ := Run.bind_eq_some.mp ran
      exact ⟨trivial, mid, rested⟩
    · rintro ⟨_, mid, rested⟩
      obtain ⟨after, _, t, loaded, _⟩ := Storage.loadList_runs (steady.rested rested).1
      exact ⟨after, t, by rw [perform, Run.bind_of_some rested, loaded]⟩
  | mount =>
    rw [Safe, ← @rest_iff sha s f je others base steady]
    constructor
    · rintro ⟨after, t, ran⟩
      obtain ⟨_, mid, rested, _⟩ := Run.bind_eq_some.mp ran
      exact ⟨trivial, mid, rested⟩
    · rintro ⟨_, mid, rested⟩
      obtain ⟨after, _, t, loaded, _⟩ := Storage.loadList_runs (steady.rested rested).1.mounted
      refine ⟨after, t, ?_⟩
      rw [perform, Run.bind_of_some rested]
      exact loaded

/-- It leaves the references counted and the list as long as the offset of the last write says. -/
theorem perform_between (between : Between sha spare (f, s)) (wide : Wide (f, s) op) (ran : perform sha je op f s = some (after, t)) :
    Between sha (op.spareAfter spare) (after, t) ∧ after.data.size = op.sizeAfter f.data.size ∧
      (je = false → Calm (op.changes f.data) s t) := by
  have safe := (perform_iff between wide).mp ⟨after, t, ran⟩
  obtain ⟨⟨base, others, steady⟩, long⟩ := between
  cases op with
  | write buf offset =>
    obtain ⟨⟨data, n⟩, mid, wrote, rest⟩ := Run.bind_eq_some.mp ran
    obtain ⟨grows, room⟩ := Storage.writeData_room steady wrote
    obtain ⟨data', mid', again, steady', size, length, _, calm⟩ := Storage.writeData_runs steady grows wide room
    cases wrote.symm.trans again
    have long' : Long (decide (offset % chunkSize > 0)) data := by rw [Long, unaligned_toNat, length, numHashes, size]
    dsimp only at rest
    split at rest
    · obtain ⟨_, last, rested, ended⟩ := Run.bind_eq_some.mp rest
      cases ended
      obtain ⟨steady₂, calm₂⟩ := steady'.rested rested
      exact ⟨⟨⟨base, others, steady₂⟩, long'⟩, size, fun off => (calm off).trans calm₂⟩
    · cases rest
      exact ⟨⟨⟨base, others, steady'⟩, long'⟩, size, calm⟩
  | truncate newSize =>
    rw [perform] at ran
    rw [spareAfter, sizeAfter]
    split at ran
    · rename_i large
      cases ran
      rw [if_pos large, if_pos large]
      exact ⟨⟨⟨base, others, steady⟩, long⟩, rfl, fun _ => (Calm.refl s).mono (Nat.zero_le _)⟩
    · rename_i small
      rw [if_neg small, if_neg small]
      obtain ⟨data, mid, cutOff, rest⟩ := Run.bind_eq_some.mp ran
      obtain ⟨mid', again, steady', calm⟩ := Storage.truncateData_runs steady wide (Storage.truncateData_room steady cutOff)
      cases cutOff.symm.trans again
      obtain ⟨_, last, rested, ended⟩ := Run.bind_eq_some.mp rest
      cases ended
      obtain ⟨steady₂, calm₂⟩ := steady'.rested rested
      exact ⟨⟨⟨base, others, steady₂⟩, length_resized _ _ _⟩, rfl, fun off => (calm off).trans calm₂⟩
  | rest =>
    obtain ⟨_, mid, rested, ended⟩ := Run.bind_eq_some.mp ran
    cases ended
    obtain ⟨steady₂, calm⟩ := steady.rested rested
    exact ⟨⟨⟨base, others, steady₂⟩, long⟩, rfl, fun _ => calm.mono (Nat.zero_le 1)⟩
  | reload =>
    obtain ⟨_, mid, rested, rest⟩ := Run.bind_eq_some.mp ran
    obtain ⟨steady₂, calm⟩ := steady.rested rested
    obtain ⟨after', others', t', loaded, steady₃, size, length, calm'⟩ := Storage.loadList_runs steady₂
    cases loaded.symm.trans rest
    exact ⟨⟨⟨base, others', steady₃⟩, by rw [Long, length, size]; rfl⟩, size, fun _ => (calm.trans calm').mono (Nat.zero_add 1).le⟩
  | mount =>
    obtain ⟨_, mid, rested, rest⟩ := Run.bind_eq_some.mp ran
    obtain ⟨steady₂, calm⟩ := steady.rested rested
    obtain ⟨after', others', t', loaded, steady₃, size, length, calm'⟩ := Storage.loadList_runs steady₂.mounted
    have loads : loadList f.data mid.mounted = some (after, t) := rest
    cases loaded.symm.trans loads
    exact ⟨⟨⟨_, others', steady₃⟩, by rw [Long, length, size]; rfl⟩, size,
      fun _ => ((calm.trans (Storage.calm_mounted mid)).trans calm').mono (Nat.zero_add 1).le⟩

end Steps

section Runs
variable {sha : Chunk → Sha256} {s : Storage} {f : OpenFile Nat} {je spare : Bool} {others : List Nat} {base : Int}

/-- A sequence of operations goes through just when each of them is allowed and safe. -/
theorem run_iff (between : Between sha spare (f, s)) {ops : List ContentOp} (wide : Schedule.OrderedRun (step sha je) Wide ops (f, s)) :
    (∃ x, Schedule.run (step sha je) ops (f, s) = some x) ↔
      AllAllowed f.data.size spare ops ∧ Schedule.OrderedRun (step sha je) (Safe sha) ops (f, s) := by
  induction ops generalizing f s spare with
  | nil => exact ⟨fun _ => ⟨trivial, trivial⟩, fun _ => ⟨(f, s), rfl⟩⟩
  | cons op later ih =>
    obtain ⟨here, rest⟩ := wide
    have goes := @perform_iff sha s f je spare op between here
    rw [AllAllowed, Schedule.OrderedRun]
    cases made : step sha je op (f, s) with
    | none =>
      rw [Schedule.run, made]
      constructor
      · rintro ⟨x, ran⟩
        cases ran
      · rintro ⟨⟨allowed, _⟩, safe, _⟩
        obtain ⟨after, t, ran⟩ := goes.mpr ⟨allowed, safe⟩
        cases made.symm.trans ran
    | some x =>
      obtain ⟨after, t⟩ := x
      obtain ⟨allowed, safe⟩ := goes.mp ⟨after, t, made⟩
      obtain ⟨between', size, _⟩ := perform_between between here made
      rw [made] at rest
      rw [Schedule.run_cons made, ih between' rest, size]
      exact ⟨fun both => ⟨⟨allowed, both.1⟩, safe, both.2⟩, fun both => ⟨both.1.2, both.2.2⟩⟩

/-- Where nothing is journaled no log is ever full. -/
theorem wide_unjournaled (between : Between sha spare (f, s)) (free : ∀ n id, (s.bucketAt id).Room n) (ops : List ContentOp) :
    Schedule.OrderedRun (step sha false) Wide ops (f, s) := by
  induction ops generalizing f s spare with
  | nil => trivial
  | cons op later ih =>
    have here : Wide (f, s) op := fun id => free _ id
    refine ⟨here, ?_⟩
    split
    · rename_i x made
      obtain ⟨after, t⟩ := x
      obtain ⟨between', _, calm⟩ := perform_between between here made
      exact ih between' (fun n id => (calm rfl id).room n (free _ id))
    · trivial

theorem between_empty (steady : s.Steady sha base others) : Between sha false (⟨⟨0, []⟩, 0, 0⟩, s) :=
  ⟨⟨base, others, steady⟩, by simp [Long]⟩

/-- From an empty file, no assertion of a write, a truncate or a rest fails just when no aligned
write follows an unaligned one without making the file need one chunk more, the accounting has room
for what each write and truncate fetches and posts, and the zero hash still has references whenever
a file that has it is put to rest. -/
theorem run_empty (steady : s.Steady sha base others) (ops : List ContentOp)
    (wide : Schedule.OrderedRun (step sha je) Wide ops (⟨⟨0, []⟩, 0, 0⟩, s)) :
    (∃ x, Schedule.run (step sha je) ops (⟨⟨0, []⟩, 0, 0⟩, s) = some x) ↔
      AllAllowed 0 false ops ∧ Schedule.OrderedRun (step sha je) (Safe sha) ops (⟨⟨0, []⟩, 0, 0⟩, s) :=
  run_iff (between_empty steady) wide

end Runs

section New
open DataFs

/-- Two chunks, of which a new process keeps one. -/
def growAndCut : List ContentOp := [.write [1] 1, .write [1] 4096, .mount, .truncate 4096]

theorem run_empty_grow : ∃ x, Schedule.run (step prefixSum false) growAndCut (⟨⟨0, []⟩, 0, 0⟩, zeroOnly) = some x ∧ x.1.data.size = 4096 ∧
    AllAllowed 0 false growAndCut ∧ Schedule.OrderedRun (step prefixSum false) (Safe prefixSum) growAndCut (⟨⟨0, []⟩, 0, 0⟩, zeroOnly) := by
  have outcome : (Schedule.run (step prefixSum false) growAndCut (⟨⟨0, []⟩, 0, 0⟩, zeroOnly)).map (fun x => x.1.data.size) = some 4096 := by decide +kernel
  obtain ⟨x, ran, size⟩ := Option.map_eq_some_iff.mp outcome
  have wide := wide_unjournaled (between_empty (Storage.steady_zeroOnly 0)) (fun n id => Storage.room_zeroOnly n id) growAndCut
  exact ⟨x, ran, size, (run_empty (Storage.steady_zeroOnly 0) growAndCut wide).mp ⟨x, ran⟩⟩

/-- One byte at offset 1, and then one at offset 0; and a file of zeros that is cut after a mount. -/
theorem run_aborts : Schedule.run (step prefixSum false) [.write [1] 1, .write [1] 0] (⟨⟨0, []⟩, 0, 0⟩, zeroOnly) = none ∧
    Schedule.run (step prefixSum false) [.truncate 8192, .mount, .truncate 4096] (⟨⟨0, []⟩, 0, 0⟩, zeroOnly) = none := by
  constructor
  · apply Option.isNone_iff_eq_none.mp
    decide +kernel
  · apply Option.isNone_iff_eq_none.mp
    decide +kernel

end New

end ContentOp

end CloudCryptFS.Filesystem
