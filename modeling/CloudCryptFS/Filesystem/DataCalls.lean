import CloudCryptFS.Filesystem.StorageRep

/-! The data of files within one mount: what is written, cut off, swapped in and unlinked goes
through the hashes of one storage. -/

namespace CloudCryptFS.Filesystem
open Util Script.Lexer BucketIndex

structure DataFs where
  storage : Storage
  contents : BucketIndex → Option (OpenFile Nat)

/-- What is done to hashes and to the data of files; with `je` there is a journal entry. -/
inductive DataOp where
  | newHash (c : Chunk)
  | incRefCnt (o n : Nat)
  | decRefCnt (o : Nat)
  | create (i : BucketIndex)
  | read (i : BucketIndex) (size offset : Nat)
  | write (i : BucketIndex) (buf : Str) (offset : Nat) (je : Bool)
  | truncate (i : BucketIndex) (newSize : Nat) (je : Bool)
  | swapContent (i : BucketIndex) (newContent : Str) (je : Bool)
  | unlink (i : BucketIndex)
  | rest (i : BucketIndex)
  | storeAllData (ids : List Nat)

namespace DataFs
open Storage

abbrev DataM := Run DataFs

section Calls
variable (sha : Chunk → Sha256)

def onStorage {α : Type} (run : StorageM α) : DataM α := fun s => (run s.storage).map (fun result => (result.1, { s with storage := result.2 }))

def file (i : BucketIndex) : DataM (OpenFile Nat) := fun s => (s.contents i).map (fun f => (f, s))

def setFile (i : BucketIndex) (f : Option (OpenFile Nat)) : DataM Unit := modify (fun s => { s with contents := Function.update s.contents i f })

def fileSwap (f : OpenFile Nat) (newContent : Str) (je : Bool) : StorageM (OpenFile Nat) := do
  let data ← swapContent (hashOps sha je) f.data newContent
  pure { f with data := data }

/-- `storage::storeAllData` for the data buckets, in the order of the list. -/
def storeAll (ids : List Nat) : StorageM Unit := ids.forM (fun id => store id true)

def perform : DataOp → DataM Unit
  | .newHash c => do
    let _ ← onStorage (newHash (sha c) c)
    pure ()
  | .incRefCnt o n => onStorage (incRefCnt o n)
  | .decRefCnt o => onStorage (decRefCnt o)
  | .create i => setFile i (some ⟨⟨0, []⟩, 0, 0⟩)
  | .read i size offset => do
    let f ← file i
    let (_, after) ← onStorage (read (hashOps sha false) f size offset)
    setFile i (some after)
  | .write i buf offset je => do
    let f ← file i
    let after ← onStorage (writeInner (hashOps sha je) f buf offset)
    setFile i (some after)
  | .truncate i newSize je => do
    let f ← file i
    let after ← onStorage (truncateInner (hashOps sha je) f newSize)
    setFile i (some after)
  | .swapContent i newContent je => do
    let f ← file i
    let after ← onStorage (fileSwap sha f newContent je)
    setFile i (some after)
  | .unlink i => do
    -- the file counts as deleted already, so that it is not put to rest
    let f ← file i
    let _ ← onStorage (truncateData (hashOps sha false) f.data 0)
    setFile i none
  | .rest i => do
    let f ← file i
    onStorage (restHashes (hashOps sha false) f.data.hashList)
  | .storeAllData ids => onStorage (storeAll ids)

def performAll (ops : List DataOp) : DataM Unit := ops.forM (perform sha)

end Calls

section Rep
variable {sha : Chunk → Sha256} {s t : DataFs}

/-- One storage goes on from another. -/
def Advances (sha : Chunk → Sha256) (s t : DataFs) : Prop := Advance sha s.storage t.storage

instance : IsPreorder DataFs (Advances sha) where
  refl s := Advance.refl sha s.storage
  trans _ _ _ := Advance.trans

theorem onStorage_within {α : Type} {run : StorageM α} (within : Run.Within (Advance sha) run) : Run.Within (Advances sha) (onStorage run) := by
  intro s a t ran
  obtain ⟨result, inner, shape⟩ := Option.map_eq_some_iff.mp ran
  cases shape
  exact within _ _ _ inner

theorem file_within (i : BucketIndex) : Run.Within (Advances sha) (file i) := by
  intro s a t ran
  obtain ⟨f, _, shape⟩ := Option.map_eq_some_iff.mp ran
  cases shape
  exact Advance.refl sha s.storage

theorem setFile_within (i : BucketIndex) (f : Option (OpenFile Nat)) : Run.Within (Advances sha) (setFile i f) :=
  Run.Within.modify (fun s => Advance.refl sha s.storage)

theorem storeAll_within (ids : List Nat) : Run.Within (Advance sha) (storeAll ids) :=
  Run.Within.forM (fun _ _ _ _ ran => (store_spec ran).advance)

/-- Each operation goes on from a state in which index, slots and accounting agree to another. -/
theorem perform_within (op : DataOp) : Run.Within (Advances sha) (perform sha op) := by
  cases op with
  | newHash c => exact Run.Within.bind (onStorage_within (newHash_within c)) (fun _ => Run.Within.pure _)
  | incRefCnt o n => exact onStorage_within (incRefCnt_within o n)
  | decRefCnt o => exact onStorage_within (decRefCnt_within o)
  | create i => exact setFile_within i _
  | read i size offset =>
    refine Run.Within.bind (file_within i) (fun f => ?_)
    exact Run.Within.bind (onStorage_within (read_within (hashOps_within false) f size offset)) (fun _ => setFile_within i _)
  | write i buf offset je =>
    refine Run.Within.bind (file_within i) (fun f => ?_)
    exact Run.Within.bind (onStorage_within (writeInner_within (hashOps_within je) f buf offset)) (fun _ => setFile_within i _)
  | truncate i newSize je =>
    refine Run.Within.bind (file_within i) (fun f => ?_)
    exact Run.Within.bind (onStorage_within (truncateInner_within (hashOps_within je) f newSize)) (fun _ => setFile_within i _)
  | swapContent i newContent je =>
    refine Run.Within.bind (file_within i) (fun f => Run.Within.bind (onStorage_within ?_) (fun _ => setFile_within i _))
    exact Run.Within.bind (swapContent_within (hashOps_within je) f.data newContent) (fun _ => Run.Within.pure _)
  | unlink i =>
    refine Run.Within.bind (file_within i) (fun f => ?_)
    exact Run.Within.bind (onStorage_within (truncateData_within (hashOps_within false) f.data 0)) (fun _ => setFile_within i _)
  | rest i =>
    refine Run.Within.bind (file_within i) (fun f => ?_)
    exact onStorage_within (restHashes_within (hashOps_within false) _)
  | storeAllData ids => exact onStorage_within (storeAll_within ids)

end Rep

section Runs

/-- A sum for concrete runs: the first bytes of the chunk. -/
def prefixSum (c : Chunk) : Sha256 := ⟨c.data.take 32, by rw [List.length_take, c.size_eq]; rfl⟩

def oneChunk : Chunk := ⟨1 :: List.replicate (chunkSize - 1) 0, by rw [List.length_cons, List.length_replicate]; rfl⟩

def zeroObject : Hash := ⟨prefixSum .zero, 256, 1, some .zero, false, true⟩
def unmade : Hash := ⟨prefixSum .zero, 0, 0, none, true, false⟩

/-- The storage with nothing but the zero hash. -/
def zeroOnly : Storage where
  objects := Function.update (fun _ => unmade) zeroHash zeroObject
  created := 1
  hashesIndex := Function.update (fun _ => none) (prefixSum .zero) (some zeroHash)
  loaded := Function.update (fun _ => none) 1 (some
    { hashes := some (Function.update (fun _ => .empty) (slotOf 256) (.object zeroHash)), chunks := some (fun _ => .zero) })
  files := fun _ => ⟨none, none⟩
  accounting := ⟨2, {1}, [⟨0, 257⟩, ⟨1, 258⟩], []⟩

theorem live_zeroOnly {o : Nat} (live : zeroOnly.Live o) : o = zeroHash := by
  by_contra other
  unfold Live at live
  simp only [zeroOnly, Function.update_of_ne other, unmade] at live
  cases live

theorem rep_zeroOnly : zeroOnly.Rep prefixSum where
  index o live := by
    rw [live_zeroOnly live]
    exact Function.update_self (prefixSum .zero) (some zeroHash) (fun _ => none)
  known sum o there := by
    simp only [zeroOnly] at there
    by_cases same : sum = prefixSum .zero
    · subst same
      rw [Function.update_self] at there
      cases there
      exact ⟨rfl, rfl⟩
    · rw [Function.update_of_ne same] at there
      cases there
  holds o live := by
    rw [live_zeroOnly live]
    exact ⟨_, _, rfl, rfl, rfl⟩
  chunk o live := by
    rw [live_zeroOnly live]
    rfl
  data o c live data := by
    rw [live_zeroOnly live] at data ⊢
    cases data
    rfl
  unavailable o live := by
    rw [live_zeroOnly live]
    rintro (⟨node, member, same⟩ | ⟨_, unused⟩)
    · change node ∈ [(⟨0, 257⟩ : Accounting.Node), ⟨1, 258⟩] at member
      change node.data = 256 at same
      simp only [List.mem_cons, List.not_mem_nil, or_false] at member
      rcases member with rfl | rfl <;> cases same
    · exact unused (by decide)
  positive o live := by
    rw [live_zeroOnly live]
    decide
  made o live := by
    rw [live_zeroOnly live]
    exact Nat.one_pos
  accounting := ⟨by decide, by decide, by decide, by decide, by decide⟩
  zero := ⟨rfl, rfl, rfl, rfl⟩
  fixed o fixed := by
    by_contra other
    simp only [zeroOnly, Function.update_of_ne other, unmade] at fixed
    cases fixed

def noData : DataFs := ⟨zeroOnly, fun _ => none⟩

end Runs

end DataFs

end CloudCryptFS.Filesystem
