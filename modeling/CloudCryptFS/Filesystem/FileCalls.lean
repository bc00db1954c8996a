import CloudCryptFS.Filesystem.Untouched
import CloudCryptFS.Filesystem.SerialWrites
import CloudCryptFS.Filesystem.Handles
import CloudCryptFS.Filesystem.Attributes

/-! The calls on the data of a file at a path. A file is a size and what stands at each
place, also behind its end: a write lies over that, and a new size keeps it up to the end
of a chunk. A read hands out what stands there, and can fall short by a part of a chunk. -/

namespace CloudCryptFS.Filesystem
open Util Script Script.Lexer

section Callbacks
variable [Floats]

/-- `file::read`. What a special file shows, and whether the file has been read so often
that it is put to rest, comes from outside. -/
def fileRead (F : FilePtr) (size offset : Nat) (shown : Str) (often : Bool) : FsM Str := do
  match F with
  | none => pure []
  | some i =>
    if ← valid F then
      if ← isSpecial F then pure shown
      else do
        let n ← INode F
        let text ← readData (fileOps none) n.data size offset
        if often then rest i
        pure text
    else pure []

def readlnk (F : FilePtr) (bufferSize : Nat) (shown : Str) (often : Bool) : FsM (Option Str) := do
  if ← valid F then
    if ← isSpecial F then pure none
    else do
      let n ← INode F
      if n.type ≠ .LNK then pure none
      else if n.data.size = 0 then pure (some (List.replicate bufferSize 0))
      else do
        let ret ← fileRead F (min n.data.size bufferSize) 0 shown often
        if (ret.length : Int) ≠ toInt32 n.data.size then pure none
        else pure (some (ret ++ List.replicate (bufferSize - ret.length) 0))
  else pure none

namespace ByPath

/-- `read_callback` without a handle. -/
def read_callback (path : Path) (size offset : Nat) (shown : Str) (often : Bool) : FsM (Except EE Str) := do
  let D ← get path
  if ← valid D then
    let n ← INode D
    if n.type = .FILE then do
      let ret ← fileRead D size offset shown often
      pure (.ok ret)
    else pure (.error .entity_not_found)
  else pure (.error .entity_not_found)

/-- `write_callback` without a handle. -/
def write_callback (path : Path) (buf : Str) (offset : Nat) : FsM (Except EE Nat) := do
  let D ← get path
  if ← valid D then
    let n ← INode D
    if n.type = .FILE then do
      let ret ← write D buf offset
      pure (.ok ret)
    else pure (.error .entity_not_found)
  else pure (.error .entity_not_found)

def readlink_callback (path : Path) (bufferSize : Nat) (shown : Str) (often : Bool) : FsM (Except EE Str) := do
  let F ← get path
  if ← valid F then
    match ← readlnk F bufferSize shown often with
    | some buffer => pure (.ok buffer)
    | none => pure (.error .entity_not_found)
  else pure (.error .entity_not_found)

end ByPath

end Callbacks

section Data
variable {σ : Type} {addChange : List Chunk → Run σ Unit} {s t : σ}

theorem writeLoop_chunkOps (offset : Nat) (hashes : List Chunk) (buf : Str) (fileOffset : Nat) :
    writeLoop (chunkOps addChange) offset hashes buf fileOffset = writeLoop quietOps offset hashes buf fileOffset := by
  induction hashes generalizing buf fileOffset with
  | nil => rfl
  | cons writeHash hashes ih =>
    rw [writeLoop, writeLoop]
    simp only [ih]
    rfl

theorem growList_chunkOps (n : Nat) (s : σ) : growList (chunkOps addChange) n s = some ((), s) := by
  unfold growList
  split <;> rfl

/-- A write is done with the hashes of its window, whatever becomes of the journal entry. -/
theorem writeData_window {file : FileData Chunk} {buf : Str} {offset : Nat} {result : FileData Chunk × Nat}
    (ran : writeData (chunkOps addChange) file buf offset s = some (result, t)) :
    file.hashList.length ≤ numHashes file.size buf.length offset ∧
      ∃ written, writeLoop quietOps offset (windowOf (grown .zero file.hashList (numHashes file.size buf.length offset)) buf.length offset) buf
          (offset / chunkSize * chunkSize) s = some written ∧
        result = (⟨max file.size (offset + buf.length),
          (grown .zero file.hashList (numHashes file.size buf.length offset)).take (offset / chunkSize) ++ written.1.1 ++
            (grown .zero file.hashList (numHashes file.size buf.length offset)).drop
              (offset / chunkSize + numHashesInWrite buf.length offset)⟩, written.1.2.length) := by
  rw [writeData_eq] at ran
  obtain ⟨_, _, asserted, ran⟩ := Run.bind_eq_some.mp ran
  obtain ⟨grows, rfl⟩ := Run.assert_eq_some.mp asserted
  rw [Run.bind_of_some (growList_chunkOps _ _)] at ran
  obtain ⟨_, _, asserted, ran⟩ := Run.bind_eq_some.mp ran
  obtain ⟨_, rfl⟩ := Run.assert_eq_some.mp asserted
  obtain ⟨written, u, looped, ran⟩ := Run.bind_eq_some.mp ran
  rw [writeLoop_chunkOps] at looped
  obtain ⟨_, v, _, ran⟩ := Run.bind_eq_some.mp ran
  obtain ⟨_, w, _, ran⟩ := Run.bind_eq_some.mp ran
  cases ran
  exact ⟨grows, (written, u), looped, rfl⟩

theorem writeData_chunkOps {file : FileData Chunk} {buf : Str} {offset : Nat} {result : FileData Chunk × Nat}
    (ran : writeData (chunkOps addChange) file buf offset s = some (result, t)) :
    result.1.size = max file.size (offset + buf.length) ∧ numChunks result.1.size ≤ result.1.hashList.length ∧
      result.1.image = overlay offset buf file.image := by
  obtain ⟨grows, written, looped, rfl⟩ := writeData_window ran
  obtain ⟨after, replaced, quiet, size, length, spliced⟩ := writeData_bytes grows s
  obtain ⟨_, written', looped', same⟩ := writeData_window quiet
  cases looped.symm.trans looped'
  have data := (Prod.mk.inj same).1
  rw [← data]
  have room : offset ≤ numHashes file.size buf.length offset * chunkSize := by
    have enough := (numChunks_mul (max file.size (offset + buf.length))).1
    have more : numChunks (max file.size (offset + buf.length)) ≤ numHashes file.size buf.length offset := Nat.le_add_right _ _
    have all := Nat.mul_le_mul_right chunkSize more
    omega
  refine ⟨size, ?_, ?_⟩
  · rw [size, length]
    exact Nat.le_add_right _ _
  · rw [FileData.image, spliced, filled_splice 0 _ buf, image_grown]
    · rfl
    · rw [length_bytes, length_grown _ grows]
      exact room

theorem truncateData_chunkOps {file after : FileData Chunk} {newSize : Nat}
    (ran : truncateData (chunkOps addChange) file newSize s = some (after, t)) :
    after = ⟨newSize, resized .zero file.hashList (numChunks newSize)⟩ := by
  unfold truncateData at ran
  unfold resized
  dsimp only at ran
  split at ran
  · rename_i shorter
    have none : numChunks newSize - file.hashList.length = 0 := by omega
    obtain ⟨_, u, _, ran⟩ := Run.bind_eq_some.mp ran
    obtain ⟨_, v, _, ran⟩ := Run.bind_eq_some.mp ran
    cases ran
    rw [none, List.replicate_zero, List.append_nil]
  · split at ran
    · obtain ⟨_, u, _, ran⟩ := Run.bind_eq_some.mp ran
      obtain ⟨_, v, _, ran⟩ := Run.bind_eq_some.mp ran
      cases ran
      rw [List.take_of_length_le (by omega)]
      rfl
    · have none : numChunks newSize - file.hashList.length = 0 := by omega
      cases ran
      rw [none, List.replicate_zero, List.append_nil, List.take_of_length_le (by omega)]

/-- Another size cuts the bytes off at the end of a chunk. -/
theorem image_resized (list : List Chunk) (n p : Nat) :
    filled 0 (bytes (resized .zero list n)) p = if p < n * chunkSize then filled 0 (bytes list) p else 0 := by
  rw [resized, bytes_append, bytes_replicate, filled_append_replicate, bytes_take, filled_take]

/-- How many bytes a read hands out. -/
def readLength (fileSize size offset : Nat) : Nat :=
  min (min (fileSize - offset) size) (numChunks (min (fileSize - offset) size) * chunkSize - offset % chunkSize)

/-- From the beginning a read is not short. -/
theorem readLength_start {fileSize size : Nat} (inside : size ≤ fileSize) : readLength fileSize size 0 = size := by
  unfold readLength
  rw [Nat.sub_zero, Nat.min_eq_right inside, Nat.zero_mod, Nat.sub_zero]
  exact Nat.min_eq_left (numChunks_mul size).1

theorem readData_chunkOps {file : FileData Chunk} {size offset : Nat} {text : Str} (long : numChunks file.size ≤ file.hashList.length)
    (ran : readData (chunkOps addChange) file size offset s = some (text, t)) :
    t = s ∧ text = window file.image offset (readLength file.size size offset) := by
  have reads : ∀ h ∈ file.hashList, (chunkOps addChange).Reads (· = s) id h := by
    intro c _ u start amount here fits
    have got : c.read start amount = some ((c.data.drop start).take amount) := if_pos fits
    exists u
    change (c.read start amount).map _ = _ ∧ u = s
    rw [got]
    exact ⟨rfl, here⟩
  obtain ⟨u, read, rfl⟩ := readData_bytes reads size offset rfl
  cases ran.symm.trans read
  refine ⟨rfl, ?_⟩
  rw [List.map_id]
  have whole := numChunks_le.mp long
  by_cases past : file.size ≤ offset
  · have nothing : min (file.size - offset) size = 0 := by omega
    unfold readLength
    rw [nothing, Nat.zero_min]
    rfl
  · apply window_filled
    have less : readLength file.size size offset ≤ file.size - offset := (Nat.min_le_left _ _).trans (Nat.min_le_left _ _)
    rw [length_bytes]
    omega

end Data

/-- A file: its size, and what stands at each place, also behind its end. -/
structure File where
  type : FileType
  size : Nat
  byte : Nat → Byte

namespace File

def empty (type : FileType) : File := ⟨type, 0, fun _ => 0⟩

def write (f : File) (buf : Str) (offset : Nat) : File := { f with
  size := max f.size (offset + buf.length)
  byte := overlay offset buf f.byte }

/-- What is cut off goes from the next chunk on. -/
def truncate (f : File) (newSize : Nat) : File := { f with
  size := newSize
  byte := fun p => if p < numChunks newSize * chunkSize then f.byte p else 0 }

/-- A read that begins inside of a chunk can fall short. -/
def read (f : File) (size offset : Nat) : Str := window f.byte offset (readLength f.size size offset)

end File

/-- The file of an inode that is no directory. -/
def Inode.file (n : Inode) : File := ⟨n.type, n.data.size, n.data.image⟩

/-- The chunks of a file reach up to its end. -/
def Inode.Long (n : Inode) : Prop := numChunks n.data.size ≤ n.data.hashList.length

section Effects
variable [Floats] {level : Level} {s t : Fs} {i : BucketIndex} {n : Inode} {buf : Str} {offset newSize k : Nat} {e : EE}

theorem fileWriteInner_effect {je : Option Wrapper} (alloc : Alloc s) (readable : Readable s.nodes) (here : s.nodes i = some n)
    (leaf : n.type ≠ .DIR) (ran : fileWriteInner i buf offset je s = some (k, t)) :
    k = buf.length ∧ ∃ n', t.nodes = Function.update s.nodes i (some n') ∧ n'.file = n.file.write buf offset ∧ n'.Long := by
  obtain ⟨m, slot, rfl⟩ := Fs.nodes_eq_some.mp here
  unfold fileWriteInner at ran
  obtain ⟨m', _, found, ran⟩ := Run.bind_eq_some.mp ran
  obtain ⟨slot', rfl⟩ := INode_eq_some.mp found
  cases slot.symm.trans slot'
  obtain ⟨⟨data, replaced⟩, u, written, ran⟩ := Run.bind_eq_some.mp ran
  have same := Quiet.writeData je m.data buf offset s _ u written
  have first := same.rewritten alloc readable
  obtain ⟨size, long, image⟩ := writeData_chunkOps written
  obtain ⟨_, v, modified, ran⟩ := Run.bind_eq_some.mp ran
  obtain ⟨m', slot', rfl⟩ := modifyINode_eq_some.mp modified
  rw [same.slots] at slot'
  cases slot.symm.trans slot'
  have isLeaf : m.type ≠ .DIR := leaf
  have moved : u.slots i = .node m := same.slots ▸ slot
  have second := first.trans (Rewritten.data first.alloc first.readable moved isLeaf data)
  have nodes : (u.setSlot i (.node { m with data := data })).nodes = Function.update s.nodes i (some { m.seen with data := data }) := by
    rw [Fs.nodes_setSlot_node, same.nodes]
    rfl
  have file : Inode.file { m.seen with data := data } = m.seen.file.write buf offset := by
    unfold Inode.file File.write
    dsimp only
    rw [size, image]
    rfl
  obtain ⟨_, _, start, ran⟩ := Run.bind_eq_some.mp ran
  cases start
  cases cached : (u.setSlot i (.node { m with data := data })).inodeFileCache i with
  | none =>
    rw [cached] at ran
    cases ran
    exact ⟨rfl, _, nodes, file, long⟩
  | some object =>
    rw [cached] at ran
    dsimp only at ran
    split at ran
    · obtain ⟨_, w, counted, ran⟩ := Run.bind_eq_some.mp ran
      cases counted
      obtain ⟨_, x, rested, ran⟩ := Run.bind_eq_some.mp ran
      cases ran
      have third := second.trans (Rewritten.count second.alloc second.readable cached 0)
      obtain ⟨_, kept, _⟩ := rest_spec third.alloc rested
      exact ⟨rfl, _, kept.trans nodes, file, long⟩
    · obtain ⟨_, w, counted, ran⟩ := Run.bind_eq_some.mp ran
      cases counted
      cases ran
      exact ⟨rfl, _, nodes, file, long⟩

theorem fileTruncateInner_effect {je : Option Wrapper} (alloc : Alloc s) (readable : Readable s.nodes) (here : s.nodes i = some n)
    (leaf : n.type ≠ .DIR) (ran : fileTruncateInner i newSize je s = some (e, t)) :
    e = .ok ∧ ∃ n', t.nodes = Function.update s.nodes i (some n') ∧ n'.file = n.file.truncate newSize ∧ n'.Long := by
  obtain ⟨m, slot, rfl⟩ := Fs.nodes_eq_some.mp here
  unfold fileTruncateInner at ran
  obtain ⟨m', _, found, ran⟩ := Run.bind_eq_some.mp ran
  obtain ⟨slot', rfl⟩ := INode_eq_some.mp found
  cases slot.symm.trans slot'
  obtain ⟨data, u, cutOff, ran⟩ := Run.bind_eq_some.mp ran
  obtain ⟨_, v, attached, ran⟩ := Run.bind_eq_some.mp ran
  have same := (Quiet.truncateData je m.data newSize s _ u cutOff).trans (Quiet.addChange je u _ v attached)
  have first := same.rewritten alloc readable
  have cut := truncateData_chunkOps cutOff
  obtain ⟨_, w, modified, ran⟩ := Run.bind_eq_some.mp ran
  obtain ⟨m', slot', rfl⟩ := modifyINode_eq_some.mp modified
  rw [same.slots] at slot'
  cases slot.symm.trans slot'
  have isLeaf : m.type ≠ .DIR := leaf
  have moved : v.slots i = .node m := same.slots ▸ slot
  have second := first.trans (Rewritten.data first.alloc first.readable moved isLeaf data)
  obtain ⟨_, x, rested, ran⟩ := Run.bind_eq_some.mp ran
  cases ran
  obtain ⟨_, kept, _⟩ := rest_spec second.alloc rested
  have nodes : (v.setSlot i (.node { m with data := data })).nodes = Function.update s.nodes i (some { m.seen with data := data }) := by
    rw [Fs.nodes_setSlot_node, same.nodes]
    rfl
  have file : Inode.file { m.seen with data := data } = m.seen.file.truncate newSize := by
    unfold Inode.file File.truncate FileData.image
    rw [cut]
    dsimp only
    congr 1
    funext p
    exact image_resized m.data.hashList (numChunks newSize) p
  have long : Inode.Long { m.seen with data := data } := by
    unfold Inode.Long
    rw [cut]
    dsimp only
    rw [length_resized]
  exact ⟨rfl, _, kept.trans nodes, file, long⟩

theorem write_effect {object : FileObject} (names : Names level s) (opened : s.inodeFileCache i = some object)
    (plain : object.special = false) (here : s.nodes i = some n) (leaf : n.type ≠ .DIR) (ran : write (some i) buf offset s = some (k, t)) :
    k = buf.length ∧ ∃ n', t.nodes = Function.update s.nodes i (some n') ∧ n'.file = n.file.write buf offset ∧ n'.Long := by
  unfold write at ran
  obtain ⟨isValid, _, asked, ran⟩ := Run.bind_eq_some.mp ran
  obtain ⟨validity, rfl⟩ := valid_eq_some.mp asked
  obtain ⟨special, _, asked, ran⟩ := Run.bind_eq_some.mp ran
  obtain ⟨isSpecial', rfl⟩ := isSpecial_eq_some.mp asked
  rw [if_pos (by simp [validity, isSpecial', opened, plain])] at ran
  obtain ⟨id, u, v, same, inner, same'⟩ := withEntry_spec ran
  have first := same.rewritten names.alloc names.readable
  obtain ⟨amount, n', nodes, file, long⟩ := fileWriteInner_effect first.alloc first.readable (same.nodes ▸ here) leaf inner
  exact ⟨amount, n', by rw [same'.nodes, nodes, same.nodes], file, long⟩

theorem truncate_effect {object : FileObject} (names : Names level s) (opened : s.inodeFileCache i = some object)
    (plain : object.special = false) (here : s.nodes i = some n) (leaf : n.type ≠ .DIR)
    (ran : truncate (some i) newSize s = some (e, t)) :
    (newSize > maxFileSize ∧ e = .too_big ∧ t = s) ∨ (newSize ≤ maxFileSize ∧ e = .ok ∧
      ∃ n', t.nodes = Function.update s.nodes i (some n') ∧ n'.file = n.file.truncate newSize ∧ n'.Long) := by
  unfold truncate at ran
  obtain ⟨isValid, _, asked, ran⟩ := Run.bind_eq_some.mp ran
  obtain ⟨validity, rfl⟩ := valid_eq_some.mp asked
  obtain ⟨special, _, asked, ran⟩ := Run.bind_eq_some.mp ran
  obtain ⟨isSpecial', rfl⟩ := isSpecial_eq_some.mp asked
  rw [if_pos (by simp [validity, isSpecial', opened, plain])] at ran
  split at ran
  · rename_i large
    cases ran
    exact Or.inl ⟨large, rfl, rfl⟩
  · rename_i small
    obtain ⟨id, u, v, same, inner, same'⟩ := withEntry_spec ran
    have first := same.rewritten names.alloc names.readable
    obtain ⟨isOk, n', nodes, file, long⟩ := fileTruncateInner_effect first.alloc first.readable (same.nodes ▸ here) leaf inner
    exact Or.inr ⟨Nat.le_of_not_gt small, isOk, n', by rw [same'.nodes, nodes, same.nodes], file, long⟩

omit [Floats] in
/-- The files that show something else are not written. -/
theorem write_special {object : FileObject} (opened : s.inodeFileCache i = some object) (special : ¬object.special = false)
    (ran : write (some i) buf offset s = some (k, t)) : k = 0 ∧ t = s := by
  unfold write at ran
  obtain ⟨isValid, _, asked, ran⟩ := Run.bind_eq_some.mp ran
  obtain ⟨_, rfl⟩ := valid_eq_some.mp asked
  obtain ⟨shows, _, asked, ran⟩ := Run.bind_eq_some.mp ran
  obtain ⟨isSpecial', rfl⟩ := isSpecial_eq_some.mp asked
  rw [if_neg (by simp [isSpecial', opened, special])] at ran
  cases ran
  exact ⟨rfl, rfl⟩

omit [Floats] in
theorem truncate_special {object : FileObject} (opened : s.inodeFileCache i = some object) (special : ¬object.special = false)
    (ran : truncate (some i) newSize s = some (e, t)) : t = s := by
  unfold truncate at ran
  obtain ⟨isValid, _, asked, ran⟩ := Run.bind_eq_some.mp ran
  obtain ⟨_, rfl⟩ := valid_eq_some.mp asked
  obtain ⟨shows, _, asked, ran⟩ := Run.bind_eq_some.mp ran
  obtain ⟨isSpecial', rfl⟩ := isSpecial_eq_some.mp asked
  rw [if_neg (by simp [isSpecial', opened, special])] at ran
  cases ran
  rfl

theorem fileRead_effect {object : FileObject} {size : Nat} {shown text : Str} {often : Bool} (names : Names level s)
    (opened : s.inodeFileCache i = some object) (plain : object.special = false) (here : s.nodes i = some n) (long : n.Long)
    (ran : fileRead (some i) size offset shown often s = some (text, t)) : text = n.file.read size offset ∧ Rewritten s t ∧ t.nodes = s.nodes := by
  obtain ⟨m, slot, rfl⟩ := Fs.nodes_eq_some.mp here
  have start := Rewritten.refl names.alloc names.readable
  unfold fileRead at ran
  obtain ⟨isValid, _, asked, ran⟩ := Run.bind_eq_some.mp ran
  obtain ⟨validity, rfl⟩ := valid_eq_some.mp asked
  rw [if_pos (by simp [validity, opened])] at ran
  obtain ⟨special, _, asked, ran⟩ := Run.bind_eq_some.mp ran
  obtain ⟨isSpecial', rfl⟩ := isSpecial_eq_some.mp asked
  rw [if_neg (by simp [isSpecial', opened, plain])] at ran
  obtain ⟨m', _, found, ran⟩ := Run.bind_eq_some.mp ran
  obtain ⟨slot', rfl⟩ := INode_eq_some.mp found
  cases slot.symm.trans slot'
  obtain ⟨text', u, read, ran⟩ := Run.bind_eq_some.mp ran
  obtain ⟨rfl, rfl⟩ := readData_chunkOps long read
  cases often with
  | false =>
    cases ran
    exact ⟨rfl, start, rfl⟩
  | true =>
    rw [if_pos rfl] at ran
    obtain ⟨_, v, rested, ran⟩ := Run.bind_eq_some.mp ran
    cases ran
    obtain ⟨_, kept, _⟩ := rest_spec names.alloc rested
    exact ⟨rfl, rest_rewritten names.alloc names.readable rested, kept⟩

end Effects

section Attributes
variable {level : Level} {s t : Fs} {i : BucketIndex} {n n' : Inode} {ctx : Context} {e : EE}

/-- What the tree depends on of an inode is not different. -/
structure Retitles (n n' : Inode) : Prop where
  type : n'.type = n.type
  nlinks : n'.nlinks = n.nlinks
  chain : n'.chain = n.chain
  data : n'.data = n.data

theorem Retitles.nodes (retitles : Retitles n n') (slot : s.slots i = .node n) (j : BucketIndex) {m : Inode}
    (here : (s.setSlot i (.node n')).nodes j = some m) : ∃ m₀, s.nodes j = some m₀ ∧ m.type = m₀.type ∧ m.nlinks = m₀.nlinks ∧ m.data = m₀.data := by
  rw [Fs.nodes_setSlot_node] at here
  by_cases same : j = i
  · rw [same, Function.update_self] at here
    cases here
    exact ⟨n.seen, same ▸ Fs.nodes_of_slot slot, retitles.type, retitles.nlinks, retitles.data⟩
  · rw [Function.update_of_ne same] at here
    exact ⟨m, here, rfl, rfl, rfl⟩

theorem isSome_setSlot_node {j : BucketIndex} (alive : (s.nodes j).isSome) (i : BucketIndex) (n' : Inode) :
    ((s.setSlot i (.node n')).nodes j).isSome := by
  rw [Fs.nodes_setSlot_node]
  by_cases same : j = i
  · rw [same, Function.update_self]
    rfl
  · rw [Function.update_of_ne same]
    exact alive

theorem Retitles.untouched (retitles : Retitles n n') (slot : s.slots i = .node n) : Untouched s (s.setSlot i (.node n')) :=
  setSlot_node_untouched slot retitles.type.symm (fun _ => retitles.data.symm)

theorem fileType_congr {mode mode' : Mode} (same : mode' &&& Mode.TYPE = mode &&& Mode.TYPE) : mode'.fileType = mode.fileType := by
  unfold Mode.fileType
  rw [same]

theorem Retitles.dirs (retitles : Retitles n n') (slot : s.slots i = .node n) :
    Filesystem.dirs (s.setSlot i (.node n')).nodes = Filesystem.dirs s.nodes := by
  apply Set.ext
  intro d
  constructor
  · intro member
    obtain ⟨m, here, isDir⟩ := member
    obtain ⟨m₀, before, type, _⟩ := retitles.nodes slot d here
    exact ⟨m₀, before, type ▸ isDir⟩
  · intro member
    obtain ⟨m₀, before, isDir⟩ := member
    obtain ⟨m, here⟩ := Option.isSome_iff_exists.mp (isSome_setSlot_node (Option.isSome_of_mem before) i n')
    obtain ⟨m₁, before', type, _⟩ := retitles.nodes slot d here
    cases before.symm.trans before'
    exact ⟨m, here, type.trans isDir⟩

variable [Floats]

theorem Retitles.edge (retitles : Retitles n n') (slot : s.slots i = .node n) :
    Filesystem.edge (s.setSlot i (.node n')).nodes = Filesystem.edge s.nodes := by
  have type : n'.seen.type = n.seen.type := retitles.type
  have data : n'.seen.data = n.seen.data := retitles.data
  funext d c
  unfold Filesystem.edge
  rw [Fs.nodes_setSlot_node]
  by_cases same : d = i
  · rw [same, Function.update_self, Fs.nodes_of_slot slot]
    dsimp only
    rw [type, data]
  · rw [Function.update_of_ne same]

/-- Another owner and other rights are no matter of names. -/
theorem Names.retitled (names : Names level s) (slot : s.slots i = .node n) (retitles : Retitles n n') :
    Names level (s.setSlot i (.node n')) := by
  have edges := retitles.edge slot
  have dirs := retitles.dirs slot
  have walk : (s.setSlot i (.node n')).walk = s.walk := Fs.walk_congr edges
  constructor
  · exact (names.alloc.modify slot retitles.chain).1
  · intro d member
    rw [dirs] at member
    obtain ⟨m, n₀, before, isDir, content, storable⟩ := names.readable d member
    obtain ⟨n₁, here⟩ := Option.isSome_iff_exists.mp (isSome_setSlot_node (Option.isSome_of_mem before) i n')
    obtain ⟨n₂, before', type, _, data⟩ := retitles.nodes slot d here
    cases before.symm.trans before'
    exact ⟨m, n₁, here, type.trans isDir, data ▸ content, storable⟩
  · rw [edges, dirs]
    exact names.tree
  · intro d c j found
    rw [edges] at found
    exact isSome_setSlot_node (names.live d c j found) i n'
  · intro j m here leaf
    obtain ⟨m₀, before, type, nlinks, _⟩ := retitles.nodes slot j here
    rw [edges, nlinks]
    exact names.links j m₀ before (type ▸ leaf)
  · intro strict j m here leaf
    obtain ⟨m₀, before, type, nlinks, _⟩ := retitles.nodes slot j here
    rw [edges, nlinks]
    exact names.counted strict j m₀ before (type ▸ leaf)
  · rw [walk]
    exact names.cached
  · exact names.rootFile
  · exact fun j file here => isSome_setSlot_node (names.files j file here) i n'
  · rw [edges]
    exact names.special
  · rw [walk, edges]
    exact names.unopened
  · intro strict
    obtain ⟨root, step, single⟩ := names.permitted strict
    exact ⟨root, by rw [edges]; exact step, by rw [edges]; exact single⟩
  · rw [edges, dirs]
    exact names.reached

/-- No name and no data is different. -/
structure Settles (level : Level) (s t : Fs) : Prop where
  names : Names level t
  edges : edge t.nodes = edge s.nodes
  alive : ∀ j, (s.nodes j).isSome → (t.nodes j).isSome
  untouched : Untouched s t

theorem Settles.of_nodes (names : Names level t) (nodes : t.nodes = s.nodes) : Settles level s t :=
  ⟨names, congrArg edge nodes, fun _ alive => nodes ▸ alive, Untouched.of_nodes nodes⟩

theorem Settles.trans {u : Fs} (first : Settles level s t) (second : Settles level t u) : Settles level s u :=
  ⟨second.names, second.edges.trans first.edges, fun j alive => second.alive j (first.alive j alive),
    trans_of Untouched first.untouched second.untouched⟩

theorem Settles.retitled (names : Names level s) (slot : s.slots i = .node n) (retitles : Retitles n n') :
    Settles level s (s.setSlot i (.node n')) :=
  ⟨names.retitled slot retitles, retitles.edge slot, fun _ alive => isSome_setSlot_node alive i n', retitles.untouched slot⟩

theorem Settles.same (names : Names level s) (same : Same s t) : Settles level s t := Settles.of_nodes (names.same same) same.nodes

theorem chmodInner_settles {mod : Mode} {je : Option Wrapper} (names : Names level s) (ran : chmodInner i mod je s = some (e, t)) :
    Settles level s t := by
  unfold chmodInner at ran
  obtain ⟨n, _, found, ran⟩ := Run.bind_eq_some.mp ran
  obtain ⟨slot, rfl⟩ := INode_eq_some.mp found
  obtain ⟨_, _, checked, ran⟩ := Run.bind_eq_some.mp ran
  obtain ⟨type, rfl⟩ := Run.assert_eq_some.mp checked
  obtain ⟨_, u, modified, ran⟩ := Run.bind_eq_some.mp ran
  obtain ⟨n', slot', rfl⟩ := modifyINode_eq_some.mp modified
  cases slot.symm.trans slot'
  obtain ⟨_, v, added, ran⟩ := Run.bind_eq_some.mp ran
  cases ran
  have retitles : Retitles n { n with mode := mod } := ⟨fileType_congr type, rfl, rfl, rfl⟩
  have first := Settles.retitled names slot retitles
  exact first.trans (Settles.same first.names (addChange_same added))

theorem withEntry_settles {α : Type} {entry : JournalEntry} {body : Option Wrapper → FsM α} {result : α} (names : Names level s)
    (inside : ∀ je u v, Names level u → body je u = some (result, v) → Settles level u v)
    (ran : withEntry entry body s = some (result, t)) : Settles level s t := by
  obtain ⟨id, u, v, same, inner, same'⟩ := withEntry_spec ran
  have first := Settles.same names same
  have second := first.trans (inside _ u v first.names inner)
  exact second.trans (Settles.same second.names same')

theorem access_settles {path : Path} {da dda : Mode} {sticky answer : Bool} (names : Names level s) (there : s.walk path = some i)
    (ran : validate_access (some i) ctx da dda sticky s = some (answer, t)) : Settles level s t := by
  obtain ⟨_, opened⟩ := validate_access_spec ran
  exact Settles.of_nodes (names.opened opened (names.listed there)) opened.nodes

theorem chmod_settles {path : Path} {mod : Mode} (names : Names level s) (there : s.walk path = some i)
    (ran : chmod (some i) mod ctx s = some (e, t)) : Settles level s t := by
  unfold chmod at ran
  obtain ⟨isValid, _, asked, ran⟩ := Run.bind_eq_some.mp ran
  obtain ⟨_, rfl⟩ := valid_eq_some.mp asked
  split at ran
  · obtain ⟨n, _, found, ran⟩ := Run.bind_eq_some.mp ran
    obtain ⟨slot, rfl⟩ := INode_eq_some.mp found
    obtain ⟨may, u, asked, ran⟩ := Run.bind_eq_some.mp ran
    have first : Settles level s u := by
      unfold mayChmod at asked
      split at asked
      · cases asked
        exact Settles.of_nodes names rfl
      · obtain ⟨access, v, answered, asked⟩ := Run.bind_eq_some.mp asked
        cases asked
        exact access_settles names there answered
    split at ran
    · exact first.trans (withEntry_settles first.names (fun _ _ _ names' inner => chmodInner_settles names' inner) ran)
    · cases ran
      exact first
  · cases ran
    exact Settles.of_nodes names rfl

omit [Floats] in
/-- A file that is open is there. -/
theorem chmod_answers {mod : Mode} (opened : (s.inodeFileCache i).isSome) (ran : chmod (some i) mod ctx s = some (e, t)) :
    e = .ok ∨ e = .permission_denied := by
  unfold chmod at ran
  obtain ⟨isValid, _, asked, ran⟩ := Run.bind_eq_some.mp ran
  obtain ⟨validity, rfl⟩ := valid_eq_some.mp asked
  rw [if_pos (validity.trans opened)] at ran
  obtain ⟨n, _, _, ran⟩ := Run.bind_eq_some.mp ran
  obtain ⟨may, u, _, ran⟩ := Run.bind_eq_some.mp ran
  split at ran
  · obtain ⟨id, v, w, _, inner, _⟩ := withEntry_spec ran
    unfold chmodInner at inner
    obtain ⟨_, _, _, inner⟩ := Run.bind_eq_some.mp inner
    obtain ⟨_, _, _, inner⟩ := Run.bind_eq_some.mp inner
    obtain ⟨_, _, _, inner⟩ := Run.bind_eq_some.mp inner
    obtain ⟨_, _, _, inner⟩ := Run.bind_eq_some.mp inner
    cases inner
    exact Or.inl rfl
  · cases ran
    exact Or.inr rfl

theorem chownInner_settles {uid gid : UInt32} {je : Option Wrapper} (names : Names level s)
    (ran : chownInner i uid gid je s = some (e, t)) : Settles level s t := by
  unfold chownInner at ran
  obtain ⟨_, u, modified, ran⟩ := Run.bind_eq_some.mp ran
  obtain ⟨n, slot, rfl⟩ := modifyINode_eq_some.mp modified
  obtain ⟨_, v, added, ran⟩ := Run.bind_eq_some.mp ran
  cases ran
  have retitles : Retitles n { n with
      uid := if uid ≠ maxId then uid else n.uid
      gid := if gid ≠ maxId then gid else n.gid } := ⟨rfl, rfl, rfl, rfl⟩
  have first := Settles.retitled names slot retitles
  exact first.trans (Settles.same first.names (addChange_same added))

omit [Floats] in
theorem chownInner_answers {uid gid : UInt32} {entry : JournalEntry} (ran : withEntry entry (chownInner i uid gid) s = some (e, t)) :
    e = .ok := by
  obtain ⟨id, v, w, _, inner, _⟩ := withEntry_spec ran
  unfold chownInner at inner
  obtain ⟨_, _, _, inner⟩ := Run.bind_eq_some.mp inner
  obtain ⟨_, _, _, inner⟩ := Run.bind_eq_some.mp inner
  cases inner
  rfl

omit [Floats] in
theorem chown_answers {uid gid : UInt32} (opened : (s.inodeFileCache i).isSome)
    (ran : chown (some i) uid gid ctx s = some (e, t)) : e = .ok ∨ e = .permission_denied ∨ e = .access_denied := by
  unfold chown at ran
  obtain ⟨isValid, _, asked, ran⟩ := Run.bind_eq_some.mp ran
  obtain ⟨validity, rfl⟩ := valid_eq_some.mp asked
  rw [if_pos (validity.trans opened)] at ran
  obtain ⟨access, u, _, ran⟩ := Run.bind_eq_some.mp ran
  split at ran
  · obtain ⟨n, _, _, ran⟩ := Run.bind_eq_some.mp ran
    split at ran
    · dsimp only at ran
      split at ran
      · obtain ⟨_, v, _, ran⟩ := Run.bind_eq_some.mp ran
        exact Or.inl (chownInner_answers ran)
      · exact Or.inl (chownInner_answers ran)
    · cases ran
      exact Or.inr (Or.inl rfl)
  · cases ran
    exact Or.inr (Or.inr rfl)

theorem chown_settles {path : Path} {uid gid : UInt32} (names : Names level s) (there : s.walk path = some i)
    (ran : chown (some i) uid gid ctx s = some (e, t)) : Settles level s t := by
  unfold chown at ran
  obtain ⟨isValid, _, asked, ran⟩ := Run.bind_eq_some.mp ran
  obtain ⟨_, rfl⟩ := valid_eq_some.mp asked
  split at ran
  · obtain ⟨access, u, answered, ran⟩ := Run.bind_eq_some.mp ran
    have first := access_settles names there answered
    split at ran
    · obtain ⟨n, _, found, ran⟩ := Run.bind_eq_some.mp ran
      obtain ⟨_, rfl⟩ := INode_eq_some.mp found
      have inside : ∀ je v w, Names level v → chownInner i uid gid je v = some (e, w) → Settles level v w :=
        fun _ _ _ names' inner => chownInner_settles names' inner
      split at ran
      · dsimp only at ran
        split at ran
        · obtain ⟨_, v, cleared, ran⟩ := Run.bind_eq_some.mp ran
          obtain ⟨n', slot', rfl⟩ := modifyINode_eq_some.mp cleared
          have bits : ~~~(Mode.FLAG_SGID ||| Mode.FLAG_SUID) &&& Mode.TYPE = Mode.TYPE := by decide
          have type : (n'.mode &&& ~~~(Mode.FLAG_SGID ||| Mode.FLAG_SUID)) &&& Mode.TYPE = n'.mode &&& Mode.TYPE := by
            rw [BitVec.and_assoc, bits]
          have retitles : Retitles n' { n' with mode := n'.mode &&& ~~~(Mode.FLAG_SGID ||| Mode.FLAG_SUID) } :=
            ⟨fileType_congr type, rfl, rfl, rfl⟩
          have second := first.trans (Settles.retitled first.names slot' retitles)
          exact second.trans (withEntry_settles second.names inside ran)
        · exact first.trans (withEntry_settles first.names inside ran)
      · cases ran
        exact first
    · cases ran
      exact first
  · cases ran
    exact Settles.of_nodes names rfl

end Attributes

end CloudCryptFS.Filesystem
