import CloudCryptFS.Filesystem.Directory
import CloudCryptFS.Filesystem.Accounting

/-! The data of the file system: inodes in the slots of the meta buckets, the file
objects and paths that are cached, and the entries of the journal that are open. -/

namespace CloudCryptFS.Filesystem
open Util Script Script.Lexer Script.Json

/-- The floats of the platform; a directory holds none unless its text was damaged. -/
class Floats where
  F : Type
  lib : FloatLib F

instance [Floats] : FloatLib Floats.F := Floats.lib

abbrev Name := Str

/-- An absolute path without empty components, its last component first. -/
abbrev Path := List Name

inductive EE where
  | ok | name_too_long | invalid_syscall | not_empty | entity_not_found | access_denied | permission_denied
  | exists | too_big | io_error
  deriving DecidableEq

abbrev Mode := BitVec 32

namespace Mode

def TYPE : Mode := 0o170000
def TYPE_LNK : Mode := 0o120000
def TYPE_REG : Mode := 0o100000
def TYPE_DIR : Mode := 0o040000
def TYPE_FIFO : Mode := 0o010000
def FLAG_SUID : Mode := 0o4000
def FLAG_SGID : Mode := 0o2000
def FLAG_SVTX : Mode := 0o1000

end Mode

namespace Access

def NONE : Mode := 0
def X : Mode := 1
def W : Mode := 2
def WX : Mode := 3

end Access

inductive FileType where
  | INVALID | FILE | DIR | LNK | FIFO
  deriving DecidableEq

def Mode.fileType (mode : Mode) : FileType :=
  if mode &&& Mode.TYPE = Mode.TYPE_DIR then .DIR
  else if mode &&& Mode.TYPE = Mode.TYPE_REG then .FILE
  else if mode &&& Mode.TYPE = Mode.TYPE_LNK then .LNK
  else if mode &&& Mode.TYPE = Mode.TYPE_FIFO then .FIFO
  else .INVALID

structure Context where
  uid : UInt32
  gid : UInt32
  gids : List UInt32 := []

/-- An inode with the content of its file. The chain of its `inode_ctd` records is the
list of their indexes, as is the chain of its metadata. -/
structure Inode where
  mode : Mode
  nlinks : Int
  uid : UInt32
  gid : UInt32
  nextIDs : List BucketIndex
  metaIDs : List BucketIndex
  data : FileData Chunk

namespace Inode

/-- The inode in an empty chunk. -/
def zero : Inode := ⟨0, 0, 0, 0, [], [], ⟨0, []⟩⟩

/-- `setFileDefaults` on an empty chunk. -/
def fresh (mod : Mode) (ctx : Context) : Inode :=
  { zero with mode := mod, nlinks := 1, uid := ctx.uid, gid := ctx.gid }

def type (n : Inode) : FileType := n.mode.fileType

def numctd : Nat := 495

/-- The number of `inode_ctd` records that `rest` makes for `n` hashes: one as soon as
the inode is full, and a further one whenever the last is. -/
def ctdsFor (n : Nat) : Nat := if n < numctd then 0 else 1 + (n - numctd) / 508

/-- The mode bits that apply to the context. -/
def permits (n : Inode) (ctx : Context) (access : Mode) : Bool :=
  let desired := if n.uid = ctx.uid then access <<< 6 else if n.gid = ctx.gid then access <<< 3 else access
  n.mode &&& desired = desired

end Inode

/-- What a slot of a meta bucket holds; an inode is stored at its own index. -/
inductive Slot where
  | none
  | node (inode : Inode)
  | ctd

/-- A file object. It lives as long as it is in the cache. -/
structure FileObject where
  pathPermissions : List BucketIndex
  special : Bool
  numHashWrites : Nat := 0

inductive JournalEntry where
  | mkobject (parentNode newNode : BucketIndex) (mod : Mode) (name : Name)
  | unlink (parentNode newNode : BucketIndex) (offset : Int) (name : Path)
  | renamemove (parentNode newNode newParentNode : BucketIndex) (name data : Path)
  | write (newNode : BucketIndex) (offset : Nat) (data : Str)
  | truncate (newNode : BucketIndex) (offset : Nat)
  | chmod (newNode : BucketIndex) (mod : Mode)
  | chown (newNode : BucketIndex) (uid gid : UInt32)

/-- An entry that has not been closed. It is held by the operation that wrote it and,
once attached, by the change log of a bucket. -/
structure OpenEntry where
  id : Nat
  entry : JournalEntry
  attached : Bool := false

structure Fs where
  slots : BucketIndex → Slot
  accounting : Accounting
  pathInodeCache : Path → Option BucketIndex
  inodeFileCache : BucketIndex → Option FileObject
  journal : List OpenEntry := []
  nextJournalEntry : Nat := 0

/-- A file pointer; `none` is the error file. -/
abbrev FilePtr := Option BucketIndex

abbrev FsM := Run Fs

def rootIndex : BucketIndex := BucketIndex.make 1 0
def metaIndex : BucketIndex := BucketIndex.make 1 1

namespace Fs

def setSlot (s : Fs) (i : BucketIndex) (slot : Slot) : Fs := { s with slots := Function.update s.slots i slot }

def setFile (s : Fs) (i : BucketIndex) (file : Option FileObject) : Fs :=
  { s with inodeFileCache := Function.update s.inodeFileCache i file }

def setPath (s : Fs) (path : Path) (i : Option BucketIndex) : Fs :=
  { s with pathInodeCache := Function.update s.pathInodeCache path i }

end Fs

section Basic

def state : FsM Fs := fun s => some (s, s)

def update (f : Fs → Fs) : FsM Unit := fun s => some ((), f s)

/-- `bucketIdx`: the error file has index zero. -/
def bucketIdx (F : FilePtr) : BucketIndex := F.getD 0

/-- The inode in the meta chunk of a file. -/
def INode : FilePtr → FsM Inode
  | none => pure .zero
  | some i => fun s =>
    match s.slots i with
    | .node n => some (n, s)
    | _ => none

def modifyINode (i : BucketIndex) (f : Inode → Inode) : FsM Unit := fun s =>
  match s.slots i with
  | .node n => some ((), s.setSlot i (.node (f n)))
  | _ => none

/-- `valid`: not the error file, and not deleted. -/
def valid (F : FilePtr) : FsM Bool := fun s =>
  some ((F.bind s.inodeFileCache).isSome, s)

def isSpecial (F : FilePtr) : FsM Bool := fun s =>
  some (match F with
    | none => true
    | some i => ((s.inodeFileCache i).map FileObject.special).getD false, s)

def getPathPermissions (i : BucketIndex) : FsM (List BucketIndex) := fun s =>
  some (((s.inodeFileCache i).map FileObject.pathPermissions).getD [], s)

def fetchIndex : FsM BucketIndex := fun s =>
  s.accounting.fetch.map (fun result => (result.1, { s with accounting := result.2 }))

def postIndex (i : BucketIndex) : FsM Unit := fun s =>
  (s.accounting.post i).map (fun accounting => ((), { s with accounting := accounting }))

end Basic

section Journal

/-- `journalEntryWrapper`. -/
structure Wrapper where
  id : Nat
  entry : JournalEntry

/-- `JOURNAL->add`. -/
def addEntry (entry : JournalEntry) : FsM Wrapper := fun s =>
  some (⟨s.nextJournalEntry, entry⟩, { s with
    journal := s.journal ++ [{ id := s.nextJournalEntry, entry := entry }]
    nextJournalEntry := s.nextJournalEntry + 1 })

/-- `bucket::addChange`: the change log of a bucket holds the entry. -/
def addChange (je : Option Wrapper) : FsM Unit :=
  update (fun s => { s with
    journal := s.journal.map (fun e => if some e.id = je.map Wrapper.id then { e with attached := true } else e) })

/-- The operation lets go of its entry; unless a change log holds it, it is closed. -/
def closeEntry (id : Nat) : FsM Unit :=
  update (fun s => { s with journal := s.journal.filter (fun e => e.id ≠ id ∨ e.attached) })

/-- An operation that holds the wrapper of an entry until it returns. -/
def withEntry {α : Type} (entry : JournalEntry) (body : Option Wrapper → FsM α) : FsM α := do
  let je ← addEntry entry
  let result ← body (some je)
  closeEntry je.id
  pure result

/-- The hashes of a file are its chunks. An entry is attached when there is a bucket
to attach it to. -/
def fileOps (je : Option Wrapper) : HashOps Fs Chunk :=
  chunkOps (fun hashes => if hashes = [] then pure () else addChange je)

end Journal

end CloudCryptFS.Filesystem
