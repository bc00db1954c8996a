import CloudCryptFS.Filesystem.Inode
import CloudCryptFS.Util.Bytes
import CloudCryptFS.Util.Pages
import Mathlib.Data.List.DropRight

/-! The chains of records that an inode goes on in: one with the indexes of its hashes,
and one with its metadata as text. Both grow where they are written and never shrink, so
that what is read must not depend on what older contents have left in them. -/

namespace CloudCryptFS.Filesystem
open Util Bytes Pages Script.Lexer

/-- An `inode_ctd`. Its `ctd` is a view of the same bytes as `charContent`. -/
structure InodeCtd where
  myID : BucketIndex
  nextID : BucketIndex
  charContent : Nat → UInt8

/-- An index in a record; there is none where it is zero. -/
def link (i : BucketIndex) : Option BucketIndex := if i = 0 then none else some i

namespace InodeCtd

def numctd : Nat := 508

/-- `sizeof(inode_ctd::charContent)`. -/
def charSize : Nat := numctd * 8

/-- The record in a new chunk. -/
def zero : InodeCtd := ⟨0, 0, fun _ => 0⟩

def next (c : InodeCtd) : Option BucketIndex := link c.nextID

def ctd (c : InodeCtd) (idx : Nat) : BucketIndex := fromLittleEndian ((List.range 8).map (fun b => c.charContent (8 * idx + b)))

def setCtd (idx : Nat) (i : BucketIndex) (c : InodeCtd) : InodeCtd :=
  { c with charContent := fun k => if k / 8 = idx then (littleEndian 8 i).getD (k % 8) 0 else c.charContent k }

def setChar (offset : Nat) (i : UInt8) (c : InodeCtd) : InodeCtd := { c with charContent := Function.update c.charContent offset i }

end InodeCtd

/-- An `inode`, with what its chains need. -/
structure InodeChunk where
  myID : BucketIndex
  nextID : BucketIndex
  metaID : BucketIndex
  metasize : Nat
  size : Nat
  ctd : Nat → BucketIndex

/-- The chunk of one inode and the `inode_ctd` records in the meta buckets. -/
structure Metadata where
  inode : InodeChunk
  ctds : BucketIndex → Option InodeCtd
  accounting : Accounting

abbrev MetaM := Run Metadata

namespace Metadata

/-- `inoToChunk`, and the assertion that the chunk is an `inode_ctd`. -/
def inoToChunk (i : BucketIndex) : MetaM InodeCtd := fun s => (s.ctds i).map (fun c => (c, s))

def modifyCtd (i : BucketIndex) (f : InodeCtd → InodeCtd) : MetaM Unit :=
  fun s => (s.ctds i).map (fun c => ((), { s with ctds := Function.update s.ctds i (some (f c)) }))

def modifyInode (f : InodeChunk → InodeChunk) : MetaM Unit := modify (fun s => { s with inode := f s.inode })

/-- A new record, stored at the index that it gets. -/
def newCtd : MetaM BucketIndex := fun s =>
  s.accounting.fetch.map (fun result =>
    (result.1, { s with
      accounting := result.2
      ctds := Function.update s.ctds result.1 (some { InodeCtd.zero with myID := result.1 }) }))

/-- `createCtd` on the inode. -/
def createCtd (forMeta : Bool) : MetaM BucketIndex := do
  let s ← MonadState.get
  if forMeta then
    if s.inode.metaID = 0 then do
      let i ← newCtd
      modifyInode (fun n => { n with metaID := i })
      pure i
    else pure s.inode.metaID
  else if s.inode.nextID = 0 then do
    let i ← newCtd
    modifyInode (fun n => { n with nextID := i })
    pure i
  else pure s.inode.nextID

/-- `createCtd` on an `inode_ctd`. -/
def createCtdAfter (prevNode : BucketIndex) : MetaM BucketIndex := do
  let c ← inoToChunk prevNode
  if c.nextID = 0 then do
    let i ← newCtd
    modifyCtd prevNode (fun c => { c with nextID := i })
    pure i
  else pure c.nextID

section Text

/-- What is written goes on at the beginning of the next record as soon as one is full. -/
def writeOn {α : Type} (put : Nat → α → InodeCtd → InodeCtd) (size : Nat) : List α → (offset : Nat) → (c : BucketIndex) → MetaM Unit
  | [], _, _ => pure ()
  | i :: input, offset, c => do
    modifyCtd c (put offset i)
    if offset + 1 ≥ size then do
      let c ← createCtdAfter c
      writeOn put size input 0 c
    else writeOn put size input (offset + 1) c

def storeMetaDataInINode (input : Str) : MetaM Unit := do
  Run.assert (input.length < 2 ^ 32 - 1)
  modifyInode (fun n => { n with metasize := input.length })
  let c ← createCtd true
  writeOn InodeCtd.setChar InodeCtd.charSize input 0 c

/-- The contents of the records from one on; the fuel is for the loop. -/
def metaLoop : (fuel : Nat) → (metaNode : BucketIndex) → MetaM Str
  | 0, _ => Run.abort
  | fuel + 1, metaNode => do
    let c ← inoToChunk metaNode
    let here := (List.range InodeCtd.charSize).map c.charContent
    if c.nextID = 0 then pure here
    else do
      let later ← metaLoop fuel c.nextID
      pure (here ++ later)

/-- `ret.resize(maxSize, ' ')`. -/
def resize (ret : Str) (maxSize : Nat) : Str := ret.take maxSize ++ List.replicate (maxSize - ret.length) 32

def loadMetaDataFromINode (fuel : Nat) : MetaM Str := do
  let s ← MonadState.get
  if s.inode.metasize > 0 then do
    let ret ← metaLoop fuel s.inode.metaID
    pure (resize (ret.rdropWhile (· == 0)) s.inode.metasize)
  else pure []

end Text

/-- What `c` points to in the loops over the hashes. -/
inductive MetaPtr where
  | inode
  | ctd (i : BucketIndex)

namespace MetaPtr

/-- `imax`. -/
def imax : MetaPtr → Nat
  | inode => Inode.numctd
  | ctd _ => InodeCtd.numctd

def setCtd (idx : Nat) (i : BucketIndex) : MetaPtr → MetaM Unit
  | inode => modifyInode (fun n => { n with ctd := Function.update n.ctd idx i })
  | ctd c => modifyCtd c (InodeCtd.setCtd idx i)

def getCtd (idx : Nat) : MetaPtr → MetaM BucketIndex
  | inode => do
    let s ← MonadState.get
    pure (s.inode.ctd idx)
  | ctd c => do
    let c ← inoToChunk c
    pure (c.ctd idx)

/-- `storeInode`; the inode is its own chunk. -/
def store : MetaPtr → MetaM Unit
  | inode => pure ()
  | ctd c => do
    let c ← inoToChunk c
    modify (fun s => { s with ctds := Function.update s.ctds c.myID (some c) })

def create : MetaPtr → MetaM BucketIndex
  | inode => createCtd false
  | ctd c => createCtdAfter c

end MetaPtr

section Hashes
variable {H : Type} (bucketIndex : H → BucketIndex) (refcnt : H → Int) (rested : H → Bool) (getHash : BucketIndex → Option H) (zeroHash : H)

/-- The loop of `rest`. -/
def restLoop : List H → (idx : Nat) → (c : MetaPtr) → (nextId : BucketIndex) → MetaM Unit
  | [], _, c, _ => c.store
  | h :: hashes, idx, c, nextId => do
    Run.assert (0 < refcnt h)
    c.setCtd idx (bucketIndex h)
    if idx + 1 ≥ c.imax then do
      c.store
      let i ← if nextId ≠ 0 then pure nextId else c.create
      let node ← inoToChunk i
      restLoop hashes 0 (.ctd i) node.nextID
    else restLoop hashes (idx + 1) c nextId

/-- `rest` of a regular file, and whether any of its hashes came to rest. -/
def rest (hashes : List H) : MetaM Bool := do
  if hashes ≠ [] then do
    let s ← MonadState.get
    restLoop bucketIndex refcnt hashes 0 .inode s.inode.nextID
  else modifyInode (fun n => { n with ctd := Function.update n.ctd 0 0 })
  pure (hashes.any rested)

/-- The loop of `loadHashes`: the hashes, how many are missing, and how often the hash of
zeros stands for one that is lost. -/
def loadLoop : (numHashes : Nat) → (idx : Nat) → (c : MetaPtr) → (nextId : BucketIndex) → MetaM (List H × Nat × Nat)
  | 0, _, _, _ => pure ([], 0, 0)
  | numHashes + 1, idx, c, nextId => do
    let i ← c.getCtd idx
    if i = 0 then pure ([], numHashes + 1, 0)
    else do
      let (hashes, missing, lost) ←
        if idx + 1 ≥ c.imax then
          if nextId ≠ 0 then do
            let node ← inoToChunk nextId
            loadLoop numHashes 0 (.ctd nextId) node.nextID
          else pure ([], numHashes, 0)
        else loadLoop numHashes (idx + 1) c nextId
      match getHash i with
      | some loadHash => pure (loadHash :: hashes, missing, lost)
      | none => pure (zeroHash :: hashes, missing, lost + 1)

/-- `loadHashes`: the hash list of the file, and what it adds to the `refcnt` of the hash
of zeros. -/
def loadHashes : MetaM (List H × Nat) := do
  let s ← MonadState.get
  let numHashes := numChunks s.inode.size
  let (hashes, missing, lost) ← loadLoop getHash zeroHash numHashes 0 .inode s.inode.nextID
  Run.assert (hashes.length ≤ numHashes)
  pure (hashes ++ List.replicate (numHashes - hashes.length) zeroHash, missing + lost)

end Hashes

end Metadata

section Views

/-- One item of a record that is looked at item by item. -/
theorem map_range_put {α : Type} {n k : Nat} (inside : k < n) {f g : Nat → α} (a : α) (same : ∀ j, g j = if j = k then a else f j) :
    (List.range n).map g = splice ((List.range n).map f) k [a] := by
  have long : k < ((List.range n).map f).length := by
    rw [List.length_map, List.length_range]
    exact inside
  have set := (List.set_eq_take_append_cons_drop (l := (List.range n).map f) (i := k) (a := a)).trans (if_pos long)
  rw [splice, List.length_singleton, List.append_assoc, List.singleton_append, ← set]
  apply List.ext_getElem
  · simp only [List.length_map, List.length_range, List.length_set]
  · intro j here _
    simp only [List.getElem_map, List.getElem_range, List.getElem_set, same j, eq_comm (a := j)]

theorem map_range_const {α : Type} (n : Nat) {f : Nat → α} {a : α} (same : ∀ j, f j = a) : (List.range n).map f = List.replicate n a := by
  apply List.eq_replicate_iff.mpr
  constructor
  · rw [List.length_map, List.length_range]
  · intro b member
    obtain ⟨j, _, rfl⟩ := List.mem_map.mp member
    exact same j

/-- How the items of a record are put and looked at. -/
structure Layout (α : Type) where
  size : Nat
  put : Nat → α → InodeCtd → InodeCtd
  view : InodeCtd → List α
  blank : α
  Fits : α → Prop
  positive : 0 < size
  length_view : ∀ c, (view c).length = size
  view_put : ∀ c offset a, offset < size → Fits a → view (put offset a c) = splice (view c) offset [a]
  nextID_put : ∀ c offset a, (put offset a c).nextID = c.nextID
  myID_put : ∀ c offset a, (put offset a c).myID = c.myID
  view_link : ∀ c i, view { c with nextID := i } = view c
  view_zero : ∀ i, view { InodeCtd.zero with myID := i } = List.replicate size blank

theorem ctd_setCtd {idx : Nat} {i : BucketIndex} (fits : i < 2 ^ 64) (c : InodeCtd) (j : Nat) :
    (c.setCtd idx i).ctd j = if j = idx then i else c.ctd j := by
  have place : ∀ b ∈ List.range 8, (8 * j + b) / 8 = j ∧ (8 * j + b) % 8 = b := by
    intro b inside
    have below := List.mem_range.mp inside
    omega
  unfold InodeCtd.ctd InodeCtd.setCtd
  by_cases here : j = idx
  · have bytes : (List.range 8).map (fun b => if (8 * j + b) / 8 = idx then (littleEndian 8 i).getD ((8 * j + b) % 8) 0 else c.charContent (8 * j + b)) =
        (List.range 8).map (fun b => (littleEndian 8 i).getD b 0) := by
      apply List.map_congr_left
      intro b inside
      rw [(place b inside).1, (place b inside).2, if_pos here]
    rw [if_pos here, bytes]
    exact @fromLittleEndian_littleEndian 8 _ (lt_of_lt_of_eq fits (by norm_num))
  · rw [if_neg here]
    congr 1
    apply List.map_congr_left
    intro b inside
    dsimp only
    rw [(place b inside).1, if_neg here]

theorem ctd_zero (i : BucketIndex) (j : Nat) : ({ InodeCtd.zero with myID := i } : InodeCtd).ctd j = 0 := by
  have bytes : (List.range 8).map (fun b => InodeCtd.zero.charContent (8 * j + b)) = List.replicate 8 0 := map_range_const 8 (fun _ => rfl)
  calc ({ InodeCtd.zero with myID := i } : InodeCtd).ctd j
    _ = fromLittleEndian ((List.range 8).map (fun b => InodeCtd.zero.charContent (8 * j + b))) := rfl
    _ = fromLittleEndian (List.replicate 8 0) := by rw [bytes]
    _ = 0 := by decide

/-- A record of characters. -/
def charLayout : Layout UInt8 where
  size := InodeCtd.charSize
  put := InodeCtd.setChar
  view c := (List.range InodeCtd.charSize).map c.charContent
  blank := 0
  Fits _ := True
  positive := by decide
  length_view c := by rw [List.length_map, List.length_range]
  view_put c offset a inside _ := map_range_put inside a (fun j => Function.update_apply c.charContent offset a j)
  nextID_put _ _ _ := rfl
  myID_put _ _ _ := rfl
  view_link _ _ := rfl
  view_zero _ := map_range_const InodeCtd.charSize (fun _ => rfl)

/-- A record of indexes. -/
def ctdLayout : Layout BucketIndex where
  size := InodeCtd.numctd
  put := InodeCtd.setCtd
  view c := (List.range InodeCtd.numctd).map c.ctd
  blank := 0
  Fits i := i < 2 ^ 64
  positive := by decide
  length_view c := by rw [List.length_map, List.length_range]
  view_put c offset a inside fits := map_range_put inside a (ctd_setCtd fits c)
  nextID_put _ _ _ := rfl
  myID_put _ _ _ := rfl
  view_link _ _ := rfl
  view_zero i := map_range_const InodeCtd.numctd (ctd_zero i)

end Views

end CloudCryptFS.Filesystem
