import CloudCryptFS.Filesystem.Bucket
import Mathlib.Data.Finset.Sort

/-! The storage of the data. A hash object stands for a chunk; the index finds it by its sum,
and a slot of a bucket holds it together with the chunk. What is no longer referred to goes
from the index and from its slot, and its bucket index can be fetched again. -/

namespace CloudCryptFS.Filesystem
open Util Script.Lexer BucketIndex

/-- A hash object. `fixed` is `FLAG_NOAUTOLOAD|FLAG_NOAUTOSTORE`, which the zero hash has. -/
structure Hash where
  sum : Sha256
  bucketIndex : BucketIndex
  refcnt : Int
  data : Option Chunk
  deleted : Bool
  fixed : Bool

/-- A slot of a bucket holds nothing, a hash object, or a hash that was only read from an old
file of the bucket and that nobody has asked for. -/
inductive HashSlot where
  | empty
  | object (o : Nat)
  | leftover (record : HashRecord)

/-- A data bucket in memory; `changes` counts the entries of its `bucketChangeLog`. -/
structure DataBucket where
  hashes : Option (SlotIndex → HashSlot) := none
  chunks : Option (SlotIndex → Chunk) := none
  hashChangesSinceLoad : Int := 0
  chunkChangesSinceLoad : Int := 0
  changes : Nat := 0

/-- The two files of a data bucket, in the clear. -/
structure DataFiles where
  hashes : Option (SlotIndex → Option HashRecord)
  chunks : Option (SlotIndex → Chunk)

/-- An object that has not been made yet counts as deleted. -/
structure Storage where
  objects : Nat → Hash
  created : Nat
  hashesIndex : Sha256 → Option Nat
  loaded : Nat → Option DataBucket
  files : Nat → DataFiles
  accounting : Accounting

namespace Storage

def slotOf (i : BucketIndex) : SlotIndex := ⟨i % chunksInBucket, Nat.mod_lt _ (by decide)⟩

/-- `FS->zeroHash()`. -/
def zeroHash : Nat := 0

/-- The length of a `bucketChangeLog`. -/
def maxChanges : Nat := 1024

def setObject (o : Nat) (h : Hash) (s : Storage) : Storage := { s with objects := Function.update s.objects o h }
def setBucket (id : Nat) (b : DataBucket) (s : Storage) : Storage := { s with loaded := Function.update s.loaded id (some b) }
def setFiles (id : Nat) (f : DataFiles) (s : Storage) : Storage := { s with files := Function.update s.files id f }

/-- What is written of a slot. -/
def recordOf (s : Storage) : HashSlot → Option HashRecord
  | .empty => none
  | .object o => some ⟨UInt64.ofNat (s.objects o).bucketIndex, Int64.ofInt (s.objects o).refcnt, (s.objects o).sum⟩
  | .leftover record => some record

/-- The slots as the file of hashes has them. -/
def leftovers (f : DataFiles) (id : SlotIndex) : HashSlot :=
  match (f.hashes.bind (fun H => H id)).filter HashRecord.counted with
  | some record => .leftover record
  | none => .empty

abbrev StorageM := Run Storage

section Buckets

def getBucket (id : Nat) : StorageM DataBucket := fun s =>
  match s.loaded id with
  | some b => some (b, s)
  | none => some ({}, s.setBucket id {})

def loadHashes (id : Nat) : StorageM (SlotIndex → HashSlot) := do
  let b ← getBucket id
  match b.hashes with
  | some H => pure H
  | none => do
    let s ← get
    let H := leftovers (s.files id)
    set (s.setBucket id { b with hashes := some H, hashChangesSinceLoad := 0 })
    pure H

def loadChunks (id : Nat) : StorageM (SlotIndex → Chunk) := do
  let b ← getBucket id
  match b.chunks with
  | some C => pure C
  | none => do
    let s ← get
    let C := (s.files id).chunks.getD (fun _ => .zero)
    set (s.setBucket id { b with chunks := some C, chunkChangesSinceLoad := 0 })
    pure C

def putHashAndChunk (i : BucketIndex) (h : HashSlot) (c : Chunk) : StorageM Unit := do
  let H ← loadHashes (bucket i)
  let C ← loadChunks (bucket i)
  let b ← getBucket (bucket i)
  modify (setBucket (bucket i) { b with
    chunkChangesSinceLoad := Bucket.increment b.chunkChangesSinceLoad
    hashChangesSinceLoad := Bucket.increment b.hashChangesSinceLoad
    hashes := some (Function.update H (slotOf i) h)
    chunks := some (Function.update C (slotOf i) c) })

def clearHashAndChunk (i : BucketIndex) : StorageM Unit := putHashAndChunk i .empty .zero

def getChunk (i : BucketIndex) : StorageM Chunk := do
  let C ← loadChunks (bucket i)
  pure (C (slotOf i))

def hashChanged (id : Nat) : StorageM Unit := do
  let b ← getBucket id
  modify (setBucket id { b with hashChangesSinceLoad := Bucket.increment b.hashChangesSinceLoad })

/-- The files of `bucket::store`: neither is written when no slot holds a hash. -/
def writeFiles (id : Nat) (C : Option (SlotIndex → Chunk)) (H : SlotIndex → HashSlot) : StorageM Unit := do
  let s ← get
  let records := fun i => s.recordOf (H i)
  if ∃ i, (records i).isSome then
    set (s.setFiles id ⟨some records,
      if C.isSome ∨ (s.files id).chunks.isNone then some (C.getD (fun _ => .zero)) else (s.files id).chunks⟩)
  else pure ()

/-- `bucket::store`; with `clearCache` the chunks are dropped. -/
def store (id : Nat) (clearCache : Bool) : StorageM Unit := do
  let b ← getBucket id
  if b.hashChangesSinceLoad > 0 ∨ b.chunkChangesSinceLoad > 0 then do
    modify (setBucket id { b with
      chunks := if clearCache then none else b.chunks
      hashChangesSinceLoad := 0
      chunkChangesSinceLoad := 0
      changes := 0 })
    match b.hashes with
    | none => Run.abort
    | some H => writeFiles id b.chunks H
  else pure ()

/-- `bucketInfo::removeBucket`; the destructor of the bucket stores it. -/
def removeBucket (id : Nat) : StorageM Unit := fun s =>
  match s.loaded id with
  | none => some ((), s)
  | some b =>
    ((if b.chunks.isSome ∨ b.hashes.isSome then store id false else pure ()) s).map (fun result =>
      ((), { result.2 with loaded := Function.update result.2.loaded id none }))

/-- `bucket::addChange` with a journal entry. A change log that stays full is tried for ever. -/
def addChangeTo (id : Nat) : StorageM Unit := do
  let b ← getBucket id
  if b.changes < maxChanges then modify (setBucket id { b with changes := b.changes + 1 })
  else do
    modify (setBucket id { b with
      hashChangesSinceLoad := Bucket.increment b.hashChangesSinceLoad
      chunkChangesSinceLoad := Bucket.increment b.chunkChangesSinceLoad })
    store id false
    let b ← getBucket id
    if b.changes < maxChanges then modify (setBucket id { b with changes := b.changes + 1 }) else Run.abort

def fetch : StorageM BucketIndex := fun s => s.accounting.fetch.map (fun result => (result.1, { s with accounting := result.2 }))

/-- `bucketaccounting::post` with the buckets that it releases. -/
def post (i : BucketIndex) : StorageM Unit := fun s =>
  match s.accounting.post i with
  | none => none
  | some a => do
    let (_, t) ← (((s.accounting.bucketsInUse \ a.bucketsInUse).sort (· ≤ ·)).forM removeBucket) s
    pure ((), { t with accounting := a })

end Buckets

section Hashes
variable (sha : Chunk → Sha256)

/-- `hash::data(true)`; who asks asserts that there is a chunk. -/
def data (o : Nat) : StorageM Chunk := do
  let h := (← get).objects o
  match h.data with
  | some c => pure c
  | none =>
    if h.fixed then Run.abort
    else do
      let c ← getChunk h.bucketIndex
      modify (setObject o { h with data := some c })
      pure c

/-- `hash::clearData`, which is also `hash::rest`. -/
def clearData (o : Nat) : StorageM Unit :=
  modify (fun s => if (s.objects o).fixed then s else s.setObject o { s.objects o with data := none })

/-- `refcnt += n`. -/
def recount (o : Nat) (n : Int) (s : Storage) : Storage := s.setObject o { s.objects o with refcnt := (s.objects o).refcnt + n }

def getRefCnt (o : Nat) : StorageM Int := do
  pure ((← get).objects o).refcnt

def incRefCnt (o n : Nat) : StorageM Unit := do
  modify (recount o n)
  let h := (← get).objects o
  if h.fixed = false then do
    Run.assert (h.deleted = false)
    hashChanged (bucket h.bucketIndex)
  else pure ()

/-- `setFlags(FLAG_DELETED)` and what follows it in `decRefCnt`. -/
def deleteHash (o : Nat) (h : Hash) : StorageM Unit := do
  modify (setObject o { h with deleted := true })
  Run.assert ((← get).hashesIndex h.sum = some o)
  modify (fun s => { s with hashesIndex := Function.update s.hashesIndex h.sum none })
  clearHashAndChunk h.bucketIndex
  post h.bucketIndex
  clearData o

def deleteUnused (o : Nat) (h : Hash) : StorageM Unit := if h.refcnt = 0 then deleteHash o h else pure ()

def decRefCnt (o : Nat) : StorageM Unit := do
  modify (recount o (-1))
  let h := (← get).objects o
  if h.fixed = false ∧ h.deleted = false then do
    deleteUnused o h
    hashChanged (bucket h.bucketIndex)
  else pure ()

/-- A new hash in the slot of an index. -/
def addHash (sum : Sha256) (c : Chunk) (i : BucketIndex) : StorageM Nat := do
  let o := (← get).created
  modify (fun s => { s.setObject o ⟨sum, i, 0, some c, false, false⟩ with created := o + 1 })
  putHashAndChunk i (.object o) c
  modify (fun s => { s with hashesIndex := Function.update s.hashesIndex sum (some o) })
  pure o

/-- `storage::newHash`; a collision is only reported. -/
def newHash (sum : Sha256) (c : Chunk) : StorageM Nat := do
  match (← get).hashesIndex sum with
  | some o => do
    let _ ← data o
    pure o
  | none => do
    let i ← fetch
    addHash sum c i

/-- `hash::read`. -/
def readHash (o offset size : Nat) : StorageM Str := do
  let d ← data o
  match d.read offset size with
  | some text => pure text
  | none => Run.abort

/-- `hash::write`: no new hash when nothing changes. -/
def writeHash (o offset : Nat) (input : Str) : StorageM (Option Nat) := do
  let d ← data o
  match d.write offset input with
  | none => Run.abort
  | some new =>
    if sha new = ((← get).objects o).sum then pure none
    else do
      let n ← newHash (sha new) new
      pure (some n)

/-- The journal entry goes to the buckets of the hashes. -/
def addChange (je : Bool) (hashes : List Nat) : StorageM Unit := fun s =>
  if je then (((hashes.map (fun o => bucket (s.objects o).bucketIndex)).toFinset.sort (· ≤ ·)).forM addChangeTo) s
  else some ((), s)

/-- The content of files over the hashes of the storage. -/
def hashOps (je : Bool) : HashOps Storage Nat where
  zeroHash := zeroHash
  read := readHash
  write := writeHash sha
  incRefCnt := incRefCnt
  decRefCnt := decRefCnt
  getRefCnt := getRefCnt
  rest := clearData
  addChange := addChange je

end Hashes

end Storage

end CloudCryptFS.Filesystem
