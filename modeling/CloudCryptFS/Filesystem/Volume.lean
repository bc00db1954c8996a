import CloudCryptFS.Filesystem.References
import CloudCryptFS.Filesystem.ChainSteps

/-! One mount with its inodes, the chains that they go on in, and the hashes of their files.
Which file a name leads to, and what the context may do to it, is given. -/

namespace CloudCryptFS.Filesystem
open Util Script Script.Lexer Script.Json

/-- An inode with the file object on it. -/
structure FileNode where
  chunk : InodeChunk
  mode : Mode
  nlinks : Int
  hashList : List Nat
  numHashWrites : Nat := 0

namespace FileNode

def type (n : FileNode) : FileType := n.mode.fileType

def data (n : FileNode) : FileData Nat := ⟨n.chunk.size, n.hashList⟩

def withData (d : FileData Nat) (n : FileNode) : FileNode := { n with chunk := { n.chunk with size := d.size }, hashList := d.hashList }

/-- `setFileDefaults` on an empty chunk, which gets its own index. -/
def fresh (i : BucketIndex) (mod : Mode) : FileNode := ⟨⟨i, 0, 0, 0, 0, fun _ => 0⟩, mod, 1, [], 0⟩

end FileNode

/-- A slot of a meta bucket. -/
inductive MetaSlot where
  | empty
  | inode (n : FileNode)
  | ctd (c : InodeCtd)

namespace MetaSlot

def toInode : MetaSlot → Option FileNode
  | inode n => some n
  | _ => none

def toCtd : MetaSlot → Option InodeCtd
  | ctd c => some c
  | _ => none

end MetaSlot

structure Volume where
  slots : BucketIndex → MetaSlot
  accounting : Accounting
  storage : Storage

namespace Volume

abbrev VolumeM := Run Volume

def node (s : Volume) (i : BucketIndex) : Option FileNode := (s.slots i).toInode

def ctds (s : Volume) (i : BucketIndex) : Option InodeCtd := (s.slots i).toCtd

/-- An inode with the records of all chains. -/
def metadata (s : Volume) (n : FileNode) : Metadata := ⟨n.chunk, s.ctds, s.accounting⟩

/-- The inode at an index and the records as an operation on them has left them. -/
def withMetadata (s : Volume) (i : BucketIndex) (n : FileNode) (t : Metadata) : Volume := { s with
  slots := fun j =>
    match t.ctds j with
    | some c => .ctd c
    | none => if j = i then .inode { n with chunk := t.inode } else if (s.ctds j).isSome then .empty else s.slots j
  accounting := t.accounting }

section Basic

def getNode (i : BucketIndex) : VolumeM FileNode := fun s => (s.node i).map (fun n => (n, s))

def setSlot (i : BucketIndex) (slot : MetaSlot) : VolumeM Unit := modify (fun s => { s with slots := Function.update s.slots i slot })

def modifyNode (i : BucketIndex) (f : FileNode → FileNode) : VolumeM Unit := do
  let n ← getNode i
  setSlot i (.inode (f n))

/-- `inoToChunk`, and the assertion that the chunk is an `inode_ctd`. -/
def getCtd (i : BucketIndex) : VolumeM InodeCtd := fun s => (s.ctds i).map (fun c => (c, s))

def fetchIndex : VolumeM BucketIndex := fun s => s.accounting.fetch.map (fun result => (result.1, { s with accounting := result.2 }))

def postIndex (i : BucketIndex) : VolumeM Unit := fun s => (s.accounting.post i).map (fun a => ((), { s with accounting := a }))

def onStorage {α : Type} (run : Storage.StorageM α) : VolumeM α :=
  fun s => (run s.storage).map (fun result => (result.1, { s with storage := result.2 }))

def onMetadata {α : Type} (i : BucketIndex) (run : MetaM α) : VolumeM α := fun s =>
  (s.node i).bind (fun n => (run (s.metadata n)).map (fun result => (result.1, s.withMetadata i n result.2)))

end Basic

section Files
variable (sha : Chunk → Sha256)

/-- `file::rest`; of the hashes that it puts to rest it goes on to write the indexes. -/
def rest (i : BucketIndex) : VolumeM Unit := do
  let n ← getNode i
  onStorage (restHashes (Storage.hashOps sha false) n.hashList)
  let h := (← MonadState.get).storage.objects
  let _ ← onMetadata i (Metadata.rest (fun o => (h o).bucketIndex) (fun o => (h o).refcnt) (fun _ => false) n.hashList)
  pure ()

/-- `file::read` up to its counters. -/
def fileRead (i : BucketIndex) (size offset : Nat) : VolumeM Str := do
  let n ← getNode i
  onStorage (readData (Storage.hashOps sha false) n.data size offset)

def fileWriteInner (i : BucketIndex) (buf : Str) (offset : Nat) (je : Bool) : VolumeM Unit := do
  let n ← getNode i
  let (data, replaced) ← onStorage (writeData (Storage.hashOps sha je) n.data buf offset)
  modifyNode i (FileNode.withData data)
  if n.numHashWrites + replaced > chunksInBucket * 5 then do
    modifyNode i (fun n => { n with numHashWrites := 0 })
    rest sha i
  else modifyNode i (fun n => { n with numHashWrites := n.numHashWrites + replaced })

def fileTruncateInner (i : BucketIndex) (newSize : Nat) (je : Bool) : VolumeM Unit := do
  let n ← getNode i
  let data ← onStorage (truncateData (Storage.hashOps sha je) n.data newSize)
  modifyNode i (FileNode.withData data)
  rest sha i

end Files

section Directories
variable [Floats] (sha : Chunk → Sha256)

def readDirectory (i : BucketIndex) : VolumeM (Option (JSON Floats.F)) := do
  let n ← getNode i
  if n.type = .DIR then onStorage (readDirectoryContent (Storage.hashOps sha false) n.data) else pure (some .empty)

def writeDirectory (i : BucketIndex) (directory : JSON Floats.F) (je : Bool) : VolumeM Unit := do
  let n ← getNode i
  let data ← onStorage (writeDirectoryContent (Storage.hashOps sha je) n.data directory)
  modifyNode i (FileNode.withData data)
  rest sha i

/-- `addNode`; `allowed` is what `validate_access` says. -/
def addNode (i : BucketIndex) (name : Name) (node : BucketIndex) (allowed je : Bool) : VolumeM EE :=
  if allowed then do
    match ← readDirectory sha i with
    | none => pure .permission_denied
    | some directory =>
      if directory.hasProperty name then pure .exists
      else do
        Run.assert (node ≠ 0)
        writeDirectory sha i (directory.setValue name (.int [toInt64 node])) je
        pure .ok
  else pure .access_denied

def removeNode (i : BucketIndex) (name : Name) (allowed je : Bool) : VolumeM EE :=
  if allowed then do
    match ← readDirectory sha i with
    | none => pure .permission_denied
    | some directory =>
      if directory.hasProperty name then do
        writeDirectory sha i (directory.clearProperty name) je
        pure .ok
      else pure .entity_not_found
  else pure .access_denied

def isFullDir (i : BucketIndex) : VolumeM Bool := do
  match ← readDirectory sha i with
  | none => pure true
  | some directory => pure (directory.values.any (fun v => v.1 ≠ [] ∧ v.1.head? ≠ some 47))

/-- `mkobject`: an index that is not needed goes back. -/
def mkobject (parent : BucketIndex) (name : Name) (mod : Mode) (allowed : Bool) : VolumeM EE := do
  let ino ← fetchIndex
  let errorcode ← addNode sha parent name ino allowed true
  if errorcode = .ok then setSlot ino (.inode (.fresh ino mod)) else postIndex ino
  pure errorcode

def hardlink (parent : BucketIndex) (name : Name) (target : BucketIndex) (allowed : Bool) : VolumeM EE := do
  let e ← addNode sha parent name target allowed false
  if e = .ok then modifyNode target (fun n => { n with nlinks := n.nlinks + 1 })
  pure e

end Directories

section Remove
variable [Floats] (sha : Chunk → Sha256)

/-- The indexes on a chain from one on; the fuel is for the loop. -/
def indexesFrom : (fuel : Nat) → (c : BucketIndex) → VolumeM (List BucketIndex)
  | 0, _ => Run.abort
  | fuel + 1, c => do
    let c ← getCtd c
    if c.nextID = 0 then pure [c.myID]
    else do
      let later ← indexesFrom fuel c.nextID
      pure (c.myID :: later)

/-- The indexes on a chain, if there is one. -/
def indexesOn (fuel : Nat) (first : BucketIndex) : VolumeM (List BucketIndex) := if first ≠ 0 then indexesFrom fuel first else pure []

/-- The file counts as deleted at once, so that `truncateInner` does not put it to rest. -/
def setDeletedAndReturnAllUsedInodes (fuel : Nat) (i : BucketIndex) : VolumeM (List BucketIndex) := do
  let n ← getNode i
  let data ← onStorage (truncateData (Storage.hashOps sha false) n.data 0)
  modifyNode i (FileNode.withData data)
  let next ← indexesOn fuel n.chunk.nextID
  let metas ← indexesOn fuel n.chunk.metaID
  pure (n.chunk.myID :: (next ++ metas))

/-- `clearHashAndChunk`, and the index goes back. -/
def freeIndex (li : BucketIndex) : VolumeM Unit := do
  setSlot li .empty
  postIndex li

def deleteFile (fuel : Nat) (i : BucketIndex) : VolumeM Unit := do
  let inoToDel ← setDeletedAndReturnAllUsedInodes sha fuel i
  inoToDel.forM freeIndex

/-- The link that goes, and the file to delete with it. -/
def dropLink (i : BucketIndex) : VolumeM (Except EE (Option BucketIndex)) := do
  let f ← getNode i
  if f.type = .DIR then do
    if ← isFullDir sha i then pure (.error .not_empty) else pure (.ok (some i))
  else if f.type = .FILE ∨ f.type = .FIFO ∨ f.type = .LNK then do
    modifyNode i (fun n => { n with nlinks := n.nlinks - 1 })
    pure (.ok (if f.nlinks - 1 ≤ 0 then some i else none))
  else pure (.ok none)

/-- `unlinkinner` with the two files that it finds. -/
def unlinkinner (fuel : Nat) (parent i : BucketIndex) (name : Name) (allowed : Bool) : VolumeM EE := do
  match ← dropLink sha i with
  | .error e => pure e
  | .ok fileToDelete => do
    let ret ← removeNode sha parent name allowed true
    if ret = .ok then
      match fileToDelete with
      | some i => deleteFile sha fuel i
      | none => pure ()
    pure ret

/-- `unlink`; `granted` is what is found about the file, and `allowed` about its parent. -/
def unlink (fuel : Nat) (parent i : BucketIndex) (name : Name) (granted allowed : Bool) : VolumeM EE :=
  if granted ∧ i ≠ rootIndex then unlinkinner sha fuel parent i name allowed else pure .access_denied

end Remove

/-- What can be done within one mount. To move a file is to add a node and to remove one, and
first to unlink what is in its place. -/
inductive VolumeOp where
  | mkobject (parent : BucketIndex) (name : Name) (mod : Mode) (allowed : Bool)
  | hardlink (parent : BucketIndex) (name : Name) (target : BucketIndex) (allowed : Bool)
  | addNode (parent : BucketIndex) (name : Name) (node : BucketIndex) (allowed : Bool)
  | removeNode (parent : BucketIndex) (name : Name) (allowed : Bool)
  | unlink (parent i : BucketIndex) (name : Name) (granted allowed : Bool)
  | read (i : BucketIndex) (size offset : Nat)
  | write (i : BucketIndex) (buf : Str) (offset : Nat)
  | truncate (i : BucketIndex) (newSize : Nat)
  | rest (i : BucketIndex)
  | chmod (i : BucketIndex) (mod : Mode)
  | storeMetaProperties (i : BucketIndex) (metaString : Str)
  | storeAllData (ids : List Nat)

variable [Floats] (sha : Chunk → Sha256) (fuel : Nat)

def perform : VolumeOp → VolumeM Unit
  | .mkobject parent name mod allowed => do
    let _ ← mkobject sha parent name mod allowed
    pure ()
  | .hardlink parent name target allowed => do
    let _ ← hardlink sha parent name target allowed
    pure ()
  | .addNode parent name node allowed => do
    let _ ← addNode sha parent name node allowed true
    pure ()
  | .removeNode parent name allowed => do
    let _ ← removeNode sha parent name allowed true
    pure ()
  | .unlink parent i name granted allowed => do
    let _ ← unlink sha fuel parent i name granted allowed
    pure ()
  | .read i size offset => do
    let _ ← fileRead sha i size offset
    pure ()
  | .write i buf offset => fileWriteInner sha i buf offset true
  | .truncate i newSize => fileTruncateInner sha i newSize true
  | .rest i => rest sha i
  | .chmod i mod => modifyNode i (fun n => { n with mode := mod })
  | .storeMetaProperties i metaString =>
    if metaString.length > 2 then onMetadata i (Metadata.storeMetaDataInINode metaString) else pure ()
  | .storeAllData ids => onStorage (DataFs.storeAll ids)

def performAll (ops : List VolumeOp) : VolumeM Unit := ops.forM (perform sha fuel)

end Volume

end CloudCryptFS.Filesystem
