import CloudCryptFS.Filesystem.Accounting
import CloudCryptFS.Script.Lexer
import CloudCryptFS.Util.Run

/-! The content of a file: a size and a list of hashes, each of which stands for a
chunk of fixed size. The operations are written over any kind of hash, so that the
same code runs where a hash is the chunk itself and where it is an object that is
shared between files and counted. -/

namespace CloudCryptFS.Filesystem
open Util Script.Lexer

def chunkSize : Nat := 4096

structure Chunk where
  data : Str
  size_eq : data.length = chunkSize
  deriving DecidableEq

namespace Chunk

def zero : Chunk := ⟨List.replicate chunkSize 0, by simp⟩

/-- `chunk::read`, which throws outside of the chunk. -/
def read (c : Chunk) (offset size : Nat) : Option Str :=
  if offset + size ≤ chunkSize then some ((c.data.drop offset).take size) else none

/-- `chunk::write`: a copy with the input in place. -/
def write (c : Chunk) (offset : Nat) (input : Str) : Option Chunk :=
  if fits : offset + input.length ≤ chunkSize then
    some ⟨c.data.take offset ++ input ++ c.data.drop (offset + input.length), by
      have size := c.size_eq
      simp only [List.length_append, List.length_take, List.length_drop]
      omega⟩
  else none

end Chunk

/-- What the content of a file needs of its hashes. `addChange` hands the journal
entry to the buckets of the given hashes. -/
structure HashOps (σ H : Type) where
  zeroHash : H
  read : H → (offset size : Nat) → Run σ Str
  write : H → (offset : Nat) → Str → Run σ (Option H)
  incRefCnt : H → Nat → Run σ Unit
  decRefCnt : H → Run σ Unit
  getRefCnt : H → Run σ Int
  rest : H → Run σ Unit
  addChange : List H → Run σ Unit

structure FileData (H : Type) where
  size : Nat
  hashList : List H

/-- A file in memory; the counters tell when it is put to rest. -/
structure OpenFile (H : Type) where
  data : FileData H
  numHashReads : Nat := 0
  numHashWrites : Nat := 0

/-- The number of chunks that hold `size` bytes. -/
def numChunks (size : Nat) : Nat := size / chunkSize + if size % chunkSize > 0 then 1 else 0

section Operations
variable {σ H : Type} (ops : HashOps σ H)

/-- `file::rest`, as far as it concerns the hashes. -/
def restHashes (hashList : List H) : Run σ Unit := hashList.forM (fun h => do
  Run.assert ((← ops.getRefCnt h) > 0)
  ops.rest h)

def readLoop (offset : Nat) : List H → (size fileOffset : Nat) → Run σ Str
  | [], _, _ => pure []
  | readHash :: hashes, size, fileOffset =>
    if offset < fileOffset + chunkSize ∧ size > 0 then do
      let newOffset := offset - fileOffset
      let newSize := min size (chunkSize - newOffset)
      let here ← ops.read readHash newOffset newSize
      let later ← readLoop offset hashes (size - newSize) (fileOffset + chunkSize)
      pure (here ++ later)
    else readLoop offset hashes size (fileOffset + chunkSize)

/-- How often the loop counts up `numHashReads`. -/
def readCount (offset : Nat) : List H → (size fileOffset : Nat) → Nat
  | [], _, _ => 0
  | _ :: hashes, size, fileOffset =>
    if offset < fileOffset + chunkSize ∧ size > 0 then
      readCount offset hashes (size - min size (chunkSize - (offset - fileOffset))) (fileOffset + chunkSize) + 1
    else readCount offset hashes size (fileOffset + chunkSize)

/-- `file::read` of a regular file up to its counters: the bytes that end up in the buffer.
The number of hashes is taken from the size alone, so that an offset inside of a chunk can
cut the read short. -/
def readData (file : FileData H) (size offset : Nat) : Run σ Str :=
  if offset ≥ file.size then pure []
  else
    let firstHash := offset / chunkSize
    let maxReadSize := min (file.size - offset) size
    readLoop ops offset ((file.hashList.drop firstHash).take (numChunks maxReadSize)) maxReadSize
      (firstHash * chunkSize)

/-- The number of hashes that a read goes through. -/
def hashReads (file : FileData H) (size offset : Nat) : Nat :=
  let firstHash := offset / chunkSize
  let maxReadSize := min (file.size - offset) size
  readCount offset ((file.hashList.drop firstHash).take (numChunks maxReadSize)) maxReadSize (firstHash * chunkSize)

/-- `file::read`; many reads put the file to rest. -/
def read (f : OpenFile H) (size offset : Nat) : Run σ (Str × OpenFile H) :=
  if offset ≥ f.data.size then pure ([], f)
  else do
    let text ← readData ops f.data size offset
    let numHashReads := f.numHashReads + hashReads f.data size offset
    if numHashReads > chunksInBucket * 5 then do
      restHashes ops f.data.hashList
      pure (text, { f with numHashReads := 0 })
    else pure (text, { f with numHashReads := numHashReads })

/-- The hashes of a write, and the pairs of hashes that it replaced. -/
def writeLoop (offset : Nat) : List H → Str → (fileOffset : Nat) → Run σ (List H × List (H × H))
  | [], buf, _ => do
    Run.assert (buf = [])
    pure ([], [])
  | writeHash :: hashes, buf, fileOffset =>
    if offset < fileOffset + chunkSize ∧ buf ≠ [] then do
      let newOffset := offset - fileOffset
      let newSize := min buf.length (chunkSize - newOffset)
      let newHsh ← ops.write writeHash newOffset (buf.take newSize)
      match newHsh with
      | some newHsh =>
        ops.incRefCnt newHsh 1
        let (after, replaced) ← writeLoop offset hashes (buf.drop newSize) (fileOffset + chunkSize)
        pure (newHsh :: after, (writeHash, newHsh) :: replaced)
      | none =>
        let (after, replaced) ← writeLoop offset hashes (buf.drop newSize) (fileOffset + chunkSize)
        pure (writeHash :: after, replaced)
    else do
      let (after, replaced) ← writeLoop offset hashes buf (fileOffset + chunkSize)
      pure (writeHash :: after, replaced)

/-- `file::writeInner` up to its counters, with the number of hashes that it replaced. -/
def writeData (file : FileData H) (buf : Str) (offset : Nat) : Run σ (FileData H × Nat) := do
  let firstHash := offset / chunkSize
  let unaligned := if offset % chunkSize > 0 then 1 else 0
  let numHashesInWrite := numChunks buf.length + unaligned
  let fileSize := max file.size (offset + buf.length)
  let numHashes := numChunks fileSize + unaligned
  Run.assert (file.hashList.length ≤ numHashes)
  let added := numHashes - file.hashList.length
  if added > 0 then ops.incRefCnt ops.zeroHash added
  let hashList := file.hashList ++ List.replicate added ops.zeroHash
  let hashes := (hashList.drop firstHash).take numHashesInWrite
  Run.assert (hashes.length = numHashesInWrite)
  let (after, replaced) ← writeLoop ops offset hashes buf (firstHash * chunkSize)
  replaced.forM (fun pair => ops.decRefCnt pair.1)
  if replaced ≠ [] then ops.addChange (replaced.flatMap (fun pair => [pair.2, pair.1]))
  pure (⟨fileSize, hashList.take firstHash ++ after ++ hashList.drop (firstHash + numHashesInWrite)⟩, replaced.length)

/-- `file::writeInner`; many hashes that are replaced put the file to rest. -/
def writeInner (f : OpenFile H) (buf : Str) (offset : Nat) : Run σ (OpenFile H) := do
  let (data, replaced) ← writeData ops f.data buf offset
  if f.numHashWrites + replaced > chunksInBucket * 5 then do
    restHashes ops data.hashList
    pure { f with data := data, numHashWrites := 0 }
  else pure { f with data := data, numHashWrites := f.numHashWrites + replaced }

/-- `file::truncateInner` up to the change of the inode's own bucket; of a file that counts
as deleted this is all. -/
def truncateData (file : FileData H) (newSize : Nat) : Run σ (FileData H) := do
  let newNum := numChunks newSize
  if newNum < file.hashList.length then
    let toDelete := file.hashList.drop newNum
    toDelete.forM (fun deleteHash => do
      ops.decRefCnt deleteHash
      ops.rest deleteHash)
    ops.addChange toDelete
    pure ⟨newSize, file.hashList.take newNum⟩
  else if newNum > file.hashList.length then
    let numAdded := newNum - file.hashList.length
    ops.incRefCnt ops.zeroHash numAdded
    ops.addChange [ops.zeroHash]
    pure ⟨newSize, file.hashList ++ List.replicate numAdded ops.zeroHash⟩
  else pure ⟨newSize, file.hashList⟩

/-- `file::truncateInner`, which puts the file to rest. -/
def truncateInner (f : OpenFile H) (newSize : Nat) : Run σ (OpenFile H) := do
  let data ← truncateData ops f.data newSize
  restHashes ops data.hashList
  pure { f with data := data }

/-- The loop of `swapContent`: a new hash for each piece of the content. -/
def swapLoop : (fuel : Nat) → Str → Run σ (List H)
  | 0, _ => pure []
  | fuel + 1, newContent =>
    if newContent = [] then pure []
    else do
      let newHsh ← ops.write ops.zeroHash 0 (newContent.take chunkSize)
      match newHsh with
      | none => Run.abort
      | some newHsh =>
        ops.incRefCnt newHsh 1
        let newList ← swapLoop fuel (newContent.drop chunkSize)
        pure (newHsh :: newList)

/-- `file::swapContent`. -/
def swapContent (file : FileData H) (newContent : Str) : Run σ (FileData H) := do
  let newList ← swapLoop ops newContent.length newContent
  file.hashList.forM ops.decRefCnt
  ops.addChange newList
  pure ⟨newContent.length, newList⟩

end Operations

section Within
variable {σ H : Type} {R : σ → σ → Prop} {ops : HashOps σ H}

/-- All that is done to hashes stays within a relation. -/
structure HashOps.Within (R : σ → σ → Prop) (ops : HashOps σ H) : Prop where
  read : ∀ h offset size, Run.Within R (ops.read h offset size)
  write : ∀ h offset input, Run.Within R (ops.write h offset input)
  incRefCnt : ∀ h n, Run.Within R (ops.incRefCnt h n)
  decRefCnt : ∀ h, Run.Within R (ops.decRefCnt h)
  getRefCnt : ∀ h, Run.Within R (ops.getRefCnt h)
  rest : ∀ h, Run.Within R (ops.rest h)
  addChange : ∀ hashes, Run.Within R (ops.addChange hashes)

variable [IsPreorder σ R]

theorem restHashes_within (within : ops.Within R) (hashList : List H) : Run.Within R (restHashes ops hashList) := by
  apply Run.Within.forM
  intro h
  apply Run.Within.bind (within.getRefCnt h)
  intro n
  exact Run.Within.bind (Run.Within.assert _) (fun _ => within.rest h)

theorem readLoop_within (reads : ∀ h offset size, Run.Within R (ops.read h offset size)) (offset : Nat) (hashes : List H) (size fileOffset : Nat) :
    Run.Within R (readLoop ops offset hashes size fileOffset) := by
  induction hashes generalizing size fileOffset with
  | nil => exact Run.Within.pure _
  | cons readHash hashes ih =>
    rw [readLoop]
    split
    · apply Run.Within.bind (reads readHash _ _)
      intro here
      exact Run.Within.bind (ih _ _) (fun _ => Run.Within.pure _)
    · exact ih _ _

theorem readData_within (reads : ∀ h offset size, Run.Within R (ops.read h offset size)) (file : FileData H) (size offset : Nat) :
    Run.Within R (readData ops file size offset) := by
  unfold readData
  split
  · exact Run.Within.pure _
  · exact readLoop_within reads _ _ _ _

theorem read_within (within : ops.Within R) (f : OpenFile H) (size offset : Nat) : Run.Within R (read ops f size offset) := by
  unfold read
  split
  · exact Run.Within.pure _
  · apply Run.Within.bind (readData_within within.read f.data size offset)
    intro text
    dsimp only
    split
    · exact Run.Within.bind (restHashes_within within _) (fun _ => Run.Within.pure _)
    · exact Run.Within.pure _

theorem writeLoop_within (within : ops.Within R) (offset : Nat) (hashes : List H) (buf : Str) (fileOffset : Nat) :
    Run.Within R (writeLoop ops offset hashes buf fileOffset) := by
  induction hashes generalizing buf fileOffset with
  | nil =>
    rw [writeLoop]
    exact Run.Within.bind (Run.Within.assert _) (fun _ => Run.Within.pure _)
  | cons writeHash hashes ih =>
    rw [writeLoop]
    split
    · apply Run.Within.bind (within.write writeHash _ _)
      intro newHsh
      cases newHsh with
      | some newHsh =>
        apply Run.Within.bind (within.incRefCnt newHsh 1)
        intro _
        exact Run.Within.bind (ih _ _) (fun _ => Run.Within.pure _)
      | none => exact Run.Within.bind (ih _ _) (fun _ => Run.Within.pure _)
    · exact Run.Within.bind (ih _ _) (fun _ => Run.Within.pure _)

theorem writeData_within (within : ops.Within R) (file : FileData H) (buf : Str) (offset : Nat) : Run.Within R (writeData ops file buf offset) := by
  unfold writeData
  extract_lets _ _ _ _ _ added hashList hashes written
  refine Run.Within.bind (Run.Within.assert _) (fun _ => ?_)
  have rest : ∀ u, Run.Within R (written u) := by
    intro u
    refine Run.Within.bind (Run.Within.assert _) (fun _ => ?_)
    refine Run.Within.bind (writeLoop_within within offset hashes buf _) (fun result => ?_)
    obtain ⟨after, replaced⟩ := result
    refine Run.Within.bind (Run.Within.forM (fun pair => within.decRefCnt pair.1)) (fun _ => ?_)
    dsimp only
    split
    · exact Run.Within.bind (within.addChange _) (fun _ => Run.Within.pure _)
    · exact Run.Within.pure _
  split
  · exact Run.Within.bind (within.incRefCnt _ _) rest
  · exact rest ()

theorem writeInner_within (within : ops.Within R) (f : OpenFile H) (buf : Str) (offset : Nat) : Run.Within R (writeInner ops f buf offset) := by
  apply Run.Within.bind (writeData_within within f.data buf offset)
  intro result
  dsimp only
  split
  · exact Run.Within.bind (restHashes_within within _) (fun _ => Run.Within.pure _)
  · exact Run.Within.pure _

theorem truncateData_within (within : ops.Within R) (file : FileData H) (newSize : Nat) : Run.Within R (truncateData ops file newSize) := by
  unfold truncateData
  dsimp only
  split
  · apply Run.Within.bind (Run.Within.forM (fun deleteHash => Run.Within.bind (within.decRefCnt deleteHash) (fun _ => within.rest deleteHash)))
    intro _
    exact Run.Within.bind (within.addChange _) (fun _ => Run.Within.pure _)
  · split
    · apply Run.Within.bind (within.incRefCnt _ _)
      intro _
      exact Run.Within.bind (within.addChange _) (fun _ => Run.Within.pure _)
    · exact Run.Within.pure _

theorem truncateInner_within (within : ops.Within R) (f : OpenFile H) (newSize : Nat) : Run.Within R (truncateInner ops f newSize) := by
  apply Run.Within.bind (truncateData_within within f.data newSize)
  intro data
  exact Run.Within.bind (restHashes_within within _) (fun _ => Run.Within.pure _)

theorem swapLoop_within (within : ops.Within R) (fuel : Nat) (newContent : Str) : Run.Within R (swapLoop ops fuel newContent) := by
  induction fuel generalizing newContent with
  | zero => exact Run.Within.pure _
  | succ fuel ih =>
    rw [swapLoop]
    split
    · exact Run.Within.pure _
    · apply Run.Within.bind (within.write _ _ _)
      intro newHsh
      cases newHsh with
      | none => exact Run.Within.abort
      | some newHsh =>
        apply Run.Within.bind (within.incRefCnt newHsh 1)
        intro _
        exact Run.Within.bind (ih _) (fun _ => Run.Within.pure _)

theorem swapContent_within (within : ops.Within R) (file : FileData H) (newContent : Str) : Run.Within R (swapContent ops file newContent) := by
  apply Run.Within.bind (swapLoop_within within _ _)
  intro newList
  apply Run.Within.bind (Run.Within.forM within.decRefCnt)
  intro _
  exact Run.Within.bind (within.addChange newList) (fun _ => Run.Within.pure _)

end Within

/-- Hashes that are their chunks; nothing is counted. -/
def chunkOps {σ : Type} (addChange : List Chunk → Run σ Unit) : HashOps σ Chunk where
  zeroHash := .zero
  read := fun c offset size s => (c.read offset size).map (fun text => (text, s))
  write := fun c offset input s =>
    (c.write offset input).map (fun new => (if new = c then none else some new, s))
  incRefCnt := fun _ _ => pure ()
  decRefCnt := fun _ => pure ()
  getRefCnt := fun _ => pure 1
  rest := fun _ => pure ()
  addChange := addChange

section Swap
variable {σ : Type}

/-- A piece of content, filled up with zeros. -/
def Chunk.padded (piece : Str) (fits : piece.length ≤ chunkSize) : Chunk :=
  ⟨piece ++ List.replicate (chunkSize - piece.length) 0, by
    rw [List.length_append, List.length_replicate]
    omega⟩

theorem Chunk.zero_write (piece : Str) (fits : piece.length ≤ chunkSize) :
    Chunk.zero.write 0 piece = some (.padded piece fits) := by
  simp [Chunk.write, Chunk.padded, Chunk.zero, fits]

theorem Chunk.padded_ne_zero {piece : Str} (fits : piece.length ≤ chunkSize) {c : Byte} (member : c ∈ piece)
    (nonzero : c ≠ 0) : Chunk.padded piece fits ≠ .zero := by
  intro same
  have inside : c ∈ (Chunk.padded piece fits).data := List.mem_append_left _ member
  rw [same] at inside
  exact nonzero (List.eq_of_mem_replicate inside)

theorem Chunk.read_padded (piece : Str) (fits : piece.length ≤ chunkSize) :
    (Chunk.padded piece fits).read 0 piece.length = some piece := by
  simp [Chunk.read, Chunk.padded, fits]

theorem numChunks_succ {size : Nat} (positive : 0 < size) : numChunks size = numChunks (size - chunkSize) + 1 := by
  unfold numChunks chunkSize
  split <;> split <;> omega

@[simp]
theorem numChunks_zero : numChunks 0 = 0 := rfl

/-- The pieces of a content without zero bytes are read back one after the other. -/
private theorem swapLoop_spec (addChange : List Chunk → Run σ Unit) (fuel : Nat) (content : Str) (enough : content.length ≤ fuel)
    (nonzero : ∀ c ∈ content, c ≠ 0) (s : σ) :
    ∃ list, swapLoop (chunkOps addChange) fuel content s = some (list, s) ∧ list.length = numChunks content.length ∧
      ∀ fileOffset, readLoop (chunkOps addChange) 0 list content.length fileOffset s = some (content, s) := by
  induction fuel generalizing content with
  | zero =>
    have empty : content = [] := List.length_eq_zero_iff.mp (Nat.le_zero.mp enough)
    subst empty
    exact ⟨[], rfl, rfl, fun _ => rfl⟩
  | succ fuel ih =>
    by_cases empty : content = []
    · subst empty
      exact ⟨[], by simp [swapLoop], rfl, fun _ => rfl⟩
    · have positive : 0 < content.length := List.length_pos_of_ne_nil empty
      have size : (content.take chunkSize).length = min chunkSize content.length := List.length_take
      have fits : (content.take chunkSize).length ≤ chunkSize := by omega
      obtain ⟨first, member⟩ : ∃ c, c ∈ content.take chunkSize :=
        List.exists_mem_of_length_pos (by rw [size, chunkSize]; omega)
      have different := Chunk.padded_ne_zero fits member (nonzero first (List.mem_of_mem_take member))
      obtain ⟨list, ran, count, back⟩ := ih (content.drop chunkSize)
        (by rw [List.length_drop, chunkSize]; omega) (fun c inside => nonzero c (List.mem_of_mem_drop inside))
      refine ⟨.padded _ fits :: list, ?_, ?_, ?_⟩
      · have written : (chunkOps addChange).write (chunkOps addChange).zeroHash 0 (content.take chunkSize) s =
            some (some (.padded _ fits), s) := by
          simp [chunkOps, Chunk.zero_write _ fits, different]
        rw [swapLoop, if_neg empty, Run.bind_of_some written]
        dsimp only
        rw [Run.bind_of_some (t := s) (a := ()) rfl, Run.bind_of_some ran]
        rfl
      · rw [List.length_cons, count, List.length_drop, numChunks_succ positive]
      · intro fileOffset
        have amount : min content.length (chunkSize - (0 - fileOffset)) = (content.take chunkSize).length := by
          rw [size]
          omega
        have rest : content.length - (content.take chunkSize).length = (content.drop chunkSize).length := by
          rw [size, List.length_drop]
          omega
        have here : (chunkOps addChange).read (.padded _ fits) (0 - fileOffset) (content.take chunkSize).length s =
            some (content.take chunkSize, s) := by
          rw [Nat.zero_sub]
          change ((Chunk.padded _ fits).read 0 _).map _ = _
          rw [Chunk.read_padded _ fits]
          rfl
        rw [readLoop, if_pos ⟨by rw [chunkSize]; omega, positive⟩]
        rw [amount, Run.bind_of_some here, rest, Run.bind_of_some (back _), Run.pure_apply, List.take_append_drop]

/-- What is swapped in is read back. -/
theorem read_swapContent {addChange : List Chunk → Run σ Unit} (attaches : ∀ list s, addChange list s = some ((), s))
    (file : FileData Chunk) (content : Str) (nonzero : ∀ c ∈ content, c ≠ 0) (s : σ) :
    ∃ after, swapContent (chunkOps addChange) file content s = some (after, s) ∧ after.size = content.length ∧
      readData (chunkOps addChange) after content.length 0 s = some (content, s) := by
  obtain ⟨list, ran, count, back⟩ := swapLoop_spec addChange content.length content le_rfl nonzero s
  have dropped : ∀ old : List Chunk, old.forM (chunkOps addChange).decRefCnt s = some (⟨⟩, s) := by
    intro old
    induction old with
    | nil => rfl
    | cons first old ih =>
      rw [List.forM_eq_forM, List.forM_cons, Run.bind_of_some (t := s) (a := ()) rfl]
      exact ih
  refine ⟨⟨content.length, list⟩, ?_, rfl, ?_⟩
  · rw [swapContent, Run.bind_of_some ran, Run.bind_of_some (dropped _), Run.bind_of_some (show (chunkOps addChange).addChange list s = _ from attaches list s)]
    rfl
  · by_cases empty : content.length = 0
    · have nil := List.length_eq_zero_iff.mp empty
      subst nil
      rfl
    · have whole : (list.drop 0).take (numChunks content.length) = list := by
        rw [List.drop_zero, ← count, List.take_length]
      rw [readData, if_neg (by simpa using empty)]
      simp only [Nat.sub_zero, Nat.min_self, Nat.zero_div, Nat.zero_mul, whole, back]

end Swap

end CloudCryptFS.Filesystem
