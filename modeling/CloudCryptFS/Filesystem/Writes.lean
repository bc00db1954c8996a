import CloudCryptFS.Filesystem.StorageContent
import CloudCryptFS.Util.Linked
import CloudCryptFS.Util.Schedule

/-! Writes to one file by several threads. The size and the length of the list are changed
without a lock; a write that is not aligned has the lock of the file for itself, and aligned
ones share it. The journal entry of a write and the count of its hash writes are left out. -/

namespace CloudCryptFS.Filesystem
open Util Script.Lexer Storage

/-- The arguments of `file::write`. -/
structure WriteCall where
  buf : Str
  offset : Nat
  deriving DecidableEq

namespace WriteCall

def stop (w : WriteCall) : Nat := w.offset + w.buf.length

def firstHash (w : WriteCall) : Nat := w.offset / chunkSize

end WriteCall

/-- The loop over the hashes: what `getRange` has returned, the entries it makes of the
first ones, those that are left with the input for them, and the pairs of hashes where one
is replaced by another. -/
structure WriteLoop where
  hashes : List Nat
  after : List Nat
  todo : List Nat
  buf : Str
  fileOffset : Nat
  replaced : List (Nat × Nat)
  deriving DecidableEq

/-- The next step of `file::writeInner`. -/
inductive WriteStage where
  | compareSize
  | setSize
  | measure
  | compare (numHashes : Nat)
  | grow (numHashes : Nat)
  | incZero (added : Nat)
  | lock
  | getRange
  | write (loop : WriteLoop)
  | incRefCnt (newHsh : Nat) (loop : WriteLoop)
  | updateRange (loop : WriteLoop)
  | decRefCnt (hashesToRemoveFromFile : List Nat)
  | unlock
  | done
  deriving DecidableEq

structure Writer where
  call : WriteCall
  stage : WriteStage

structure SharedFile where
  storage : Storage
  size : Nat
  hashList : List Nat
  threads : List Writer

namespace WriteLoop

/-- The part of the input for the next hash. -/
def piece (offset : Nat) (l : WriteLoop) : Str := l.buf.take (min l.buf.length (chunkSize - (offset - l.fileOffset)))

/-- The entry of the next hash is made. -/
def advance (offset : Nat) (entry : Nat) (replaced : List (Nat × Nat)) (l : WriteLoop) : WriteLoop :=
  { l with
    after := l.after ++ [entry]
    todo := l.todo.tail
    buf := l.buf.drop (min l.buf.length (chunkSize - (offset - l.fileOffset)))
    fileOffset := l.fileOffset + chunkSize
    replaced := l.replaced ++ replaced }

/-- The next hash lies before the input, or behind it. -/
def pass (entry : Nat) (l : WriteLoop) : WriteLoop :=
  { l with after := l.after ++ [entry], todo := l.todo.tail, fileOffset := l.fileOffset + chunkSize }

end WriteLoop

namespace Writer

/-- A thread between taking the lock of the file and releasing it. -/
def inside (th : Writer) : Bool :=
  match th.stage with
  | .getRange | .write _ | .incRefCnt _ _ | .updateRange _ | .decRefCnt _ | .unlock => true
  | _ => false

def aligned (th : Writer) : Bool := th.call.offset % chunkSize = 0

end Writer

namespace SharedFile

def become (k : Nat) (w : WriteCall) (stage : WriteStage) (s : SharedFile) : SharedFile :=
  { s with threads := s.threads.set k ⟨w, stage⟩ }

/-- The lock is given to a thread alone, or beside aligned writes to an aligned one. -/
def free (aligned : Bool) (s : SharedFile) : Bool :=
  s.threads.all (fun th => !th.inside || aligned && th.aligned)

/-- What an operation of the storage does to the file. -/
def onStorage {α : Type} (run : StorageM α) (s : SharedFile) (next : α → SharedFile → SharedFile) : Option SharedFile :=
  (run s.storage).map (fun result => next result.1 { s with storage := result.2 })

section Steps
variable (sha : Chunk → Sha256)

/-- One round of the loop, up to `incRefCnt`. -/
def stepLoop (k : Nat) (w : WriteCall) (s : SharedFile) (l : WriteLoop) : Option SharedFile :=
  match l.todo with
  | [] => if l.buf = [] then some (s.become k w (if l.replaced = [] then .unlock else .updateRange l)) else none
  | hash :: _ =>
    if w.offset < l.fileOffset + chunkSize ∧ l.buf ≠ [] then
      s.onStorage (writeHash sha hash (w.offset - l.fileOffset) (l.piece w.offset)) (fun newHsh s =>
        match newHsh with
        | some newHsh => s.become k w (.incRefCnt newHsh l)
        | none => s.become k w (.write (l.advance w.offset hash [])))
    else some (s.become k w (.write (l.pass hash)))

/-- A step of thread `k` inside of `writeInner`. -/
def stepStage (k : Nat) (w : WriteCall) (s : SharedFile) : WriteStage → Option SharedFile
  | .compareSize => some (s.become k w (if s.size < w.stop then .setSize else .measure))
  | .setSize => some { s.become k w .measure with size := w.stop }
  | .measure => some (s.become k w (.compare (numChunks s.size + unaligned w.offset)))
  | .compare n =>
    if n = s.hashList.length then some (s.become k w .lock)
    else if s.hashList.length < n then some (s.become k w (.grow n))
    else none
  | .grow n =>
    -- `truncateAndReturn` returns as many entries as it adds, or those that it takes off
    some { s.become k w (.incZero (max n s.hashList.length - min n s.hashList.length)) with
      hashList := resized zeroHash s.hashList n }
  | .incZero added => s.onStorage (incRefCnt zeroHash added) (fun _ s => s.become k w .lock)
  | .lock => if s.free (w.offset % chunkSize = 0) then some (s.become k w .getRange) else none
  | .getRange =>
    let hashes := windowOf s.hashList w.buf.length w.offset
    if hashes.length = numHashesInWrite w.buf.length w.offset then
      some (s.become k w (.write ⟨hashes, [], hashes, w.buf, w.firstHash * chunkSize, []⟩))
    else none
  | .write l => s.stepLoop sha k w l
  | .incRefCnt newHsh l =>
    s.onStorage (incRefCnt newHsh 1) (fun _ s =>
      s.become k w (.write (l.advance w.offset newHsh (l.todo.head?.toList.map (fun hash => (hash, newHsh))))))
  | .updateRange l =>
    if w.firstHash + l.after.length ≤ s.hashList.length then
      some { s.become k w (.decRefCnt (l.replaced.map Prod.fst)) with
        hashList := s.hashList.take w.firstHash ++ l.after ++ s.hashList.drop (w.firstHash + l.after.length) }
    else none
  | .decRefCnt [] => some (s.become k w .unlock)
  | .decRefCnt (hash :: hashes) => s.onStorage (decRefCnt hash) (fun _ s => s.become k w (.decRefCnt hashes))
  | .unlock => some (s.become k w .done)
  | .done => none

def step (k : Nat) (s : SharedFile) : Option SharedFile :=
  s.threads[k]?.bind (fun th => s.stepStage sha k th.call th.stage)

abbrev run : List Nat → SharedFile → Option SharedFile := Schedule.run (step sha)

/-- A size is set that is not above it already, the list is not cut off, a hash that is
written to is not released yet, and the entries that are updated are those that were read. -/
def StageOrdered (s : SharedFile) (w : WriteCall) : WriteStage → Prop
  | .setSize => s.size ≤ w.stop
  | .grow n => s.hashList.length ≤ n
  | .write l => ∀ hash ∈ l.todo.head?, w.offset < l.fileOffset + chunkSize ∧ l.buf ≠ [] → s.storage.Live hash
  | .updateRange l => windowOf s.hashList w.buf.length w.offset = l.hashes
  | _ => True

def Ordered (s : SharedFile) (k : Nat) : Prop := ∀ th ∈ s.threads[k]?, s.StageOrdered th.call th.stage

abbrev OrderedRun : List Nat → SharedFile → Prop := Schedule.OrderedRun (step sha) Ordered

end Steps

instance (s : Storage) (o : Nat) : Decidable (s.Live o) := inferInstanceAs (Decidable (_ = false))

instance (s : SharedFile) (w : WriteCall) : (stage : WriteStage) → Decidable (s.StageOrdered w stage)
  | .setSize => inferInstanceAs (Decidable (s.size ≤ w.stop))
  | .grow n => inferInstanceAs (Decidable (s.hashList.length ≤ n))
  | .write l => inferInstanceAs (Decidable (∀ hash ∈ l.todo.head?, w.offset < l.fileOffset + chunkSize ∧ l.buf ≠ [] → s.storage.Live hash))
  | .updateRange l => inferInstanceAs (Decidable (windowOf s.hashList w.buf.length w.offset = l.hashes))
  | .compareSize => isTrue trivial
  | .measure => isTrue trivial
  | .compare _ => isTrue trivial
  | .incZero _ => isTrue trivial
  | .lock => isTrue trivial
  | .getRange => isTrue trivial
  | .incRefCnt _ _ => isTrue trivial
  | .decRefCnt _ => isTrue trivial
  | .unlock => isTrue trivial
  | .done => isTrue trivial

instance (s : SharedFile) (k : Nat) : Decidable (s.Ordered k) :=
  inferInstanceAs (Decidable (∀ th ∈ s.threads[k]?, s.StageOrdered th.call th.stage))

end SharedFile

end CloudCryptFS.Filesystem
