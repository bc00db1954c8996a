import CloudCryptFS.Filesystem.Writes
import CloudCryptFS.Util.Overlay

/-! Concurrent writes against writes one after the other. As long as the steps of the one
do not undo those of another, the file ends as if the writes had been made in the order in
which they updated the list, and every hash has the count of its positions. -/

namespace CloudCryptFS.Filesystem
open Util Script.Lexer Storage

/-- What a file has at each place, with zeros behind its chunks. -/
def FileData.image (file : FileData Chunk) : Nat → Byte := filled 0 (bytes file.hashList)

/-- The size after some writes. -/
def serialSize (size : Nat) (calls : List WriteCall) : Nat := calls.foldl (fun n w => max n w.stop) size

/-- The bytes after some writes, one over the other. -/
def serialImage (image : Nat → Byte) (calls : List WriteCall) : Nat → Byte := calls.foldl (fun f w => overlay w.offset w.buf f) image

/-- The writes one after the other, each as `writeInner` makes it. -/
def writeAll : List WriteCall → FileData Chunk → Option (FileData Chunk)
  | [], file => some file
  | w :: calls, file => (writeData quietOps file w.buf w.offset ()).bind (fun result => writeAll calls result.1.1)

section Serial

theorem serialImage_append (image : Nat → Byte) (calls : List WriteCall) (w : WriteCall) :
    serialImage image (calls ++ [w]) = overlay w.offset w.buf (serialImage image calls) := by
  rw [serialImage, List.foldl_append]
  rfl

/-- The size is one of those that are asked for, and none of them is above it. -/
theorem eq_serialSize {size n : Nat} {calls : List WriteCall} (least : size ≤ n) (all : ∀ w ∈ calls, w.stop ≤ n)
    (one : n = size ∨ ∃ w ∈ calls, n = w.stop) : n = serialSize size calls := by
  have upper : ∀ (calls : List WriteCall) (size : Nat), size ≤ n → (∀ w ∈ calls, w.stop ≤ n) → serialSize size calls ≤ n := by
    intro calls
    induction calls with
    | nil => exact fun size below _ => below
    | cons w calls ih =>
      exact fun size below all => ih _ (Nat.max_le.mpr ⟨below, all w List.mem_cons_self⟩) (fun v member => all v (List.mem_cons_of_mem w member))
  have lower : ∀ (calls : List WriteCall) (size : Nat), size ≤ serialSize size calls ∧ ∀ w ∈ calls, w.stop ≤ serialSize size calls := by
    intro calls
    induction calls with
    | nil => exact fun size => ⟨le_rfl, fun w none => absurd none List.not_mem_nil⟩
    | cons w calls ih =>
      intro size
      obtain ⟨first, later⟩ := ih (max size w.stop)
      refine ⟨(Nat.le_max_left _ _).trans first, fun v member => ?_⟩
      obtain rfl | member := List.mem_cons.mp member
      · exact (Nat.le_max_right _ _).trans first
      · exact later v member
  apply Nat.le_antisymm
  · obtain rfl | ⟨w, member, rfl⟩ := one
    · exact (lower calls n).1
    · exact (lower calls size).2 w member
  · exact upper calls size least all

theorem image_grown (list : List Chunk) (n : Nat) : filled 0 (bytes (grown .zero list n)) = filled 0 (bytes list) := by
  rw [bytes_grown, filled_append_replicate]

/-- What a write makes of its window lies over the bytes of the file. -/
theorem image_replaced {w : WriteCall} {list new : List Chunk} (room : numChunks w.stop ≤ list.length)
    (count : (windowOf list w.buf.length w.offset).length = numHashesInWrite w.buf.length w.offset)
    (spliced : bytes new = splice (bytes (windowOf list w.buf.length w.offset)) (w.offset % chunkSize) w.buf) :
    filled 0 (bytes (list.take w.firstHash ++ new ++ list.drop (w.firstHash + numHashesInWrite w.buf.length w.offset))) =
      overlay w.offset w.buf (filled 0 (bytes list)) := by
  have inside := numChunks_window 0 w.offset w.buf.length
  rw [Nat.zero_max] at inside
  have covered : w.offset ≤ (bytes list).length := by
    rw [length_bytes]
    exact (Nat.le_add_right _ _).trans (numChunks_le.mp room)
  rw [WriteCall.firstHash, bytes_replaced ((Nat.le_of_add_right_le inside).trans room) count spliced, filled_splice 0 covered w.buf]

/-- Writes that are made one after the other have the size and the bytes of the series. -/
theorem writeAll_serial {calls : List WriteCall} {file after : FileData Chunk} (long : numChunks file.size ≤ file.hashList.length)
    (written : writeAll calls file = some after) :
    after.size = serialSize file.size calls ∧ after.image = serialImage file.image calls ∧ numChunks after.size ≤ after.hashList.length := by
  induction calls generalizing file with
  | nil =>
    cases written
    exact ⟨rfl, rfl, long⟩
  | cons w calls ih =>
    obtain ⟨⟨⟨mid, n⟩, _⟩, first, rest⟩ := Option.bind_eq_some_iff.mp written
    have grows : file.hashList.length ≤ numHashes file.size w.buf.length w.offset := by
      have parts := first
      rw [writeData_eq] at parts
      obtain ⟨_, _, asserted, _⟩ := Run.bind_eq_some.mp parts
      exact (Run.assert_eq_some.mp asserted).1
    obtain ⟨mid', n', ran, size, length, spliced⟩ := writeData_bytes grows ()
    cases first.symm.trans ran
    have room := numChunks_le.mp (show numChunks (max file.size w.stop) ≤ numHashes file.size w.buf.length w.offset from Nat.le_add_right _ _)
    have image : mid.image = overlay w.offset w.buf file.image := by
      rw [FileData.image, spliced, filled_splice 0 _ w.buf, image_grown]
      · rfl
      · rw [length_bytes, length_grown _ grows]
        exact (Nat.le_add_right _ _).trans ((Nat.le_max_right _ _).trans room)
    have enough : numChunks mid.size ≤ mid.hashList.length := by
      rw [size, length]
      exact Nat.le_add_right _ _
    obtain ⟨sizes, images, last⟩ := ih enough rest
    rw [size] at sizes
    rw [image] at images
    exact ⟨sizes, images, last⟩

/-- Files of one size and with the same bytes have the same text. -/
theorem text_eq_of_image {first second : FileData Chunk} (size : first.size = second.size) (image : first.image = second.image)
    (long : numChunks first.size ≤ first.hashList.length) (long' : numChunks second.size ≤ second.hashList.length) : first.text = second.text := by
  have length := FileData.length_text long
  have length' := FileData.length_text long'
  apply @eq_of_filled _ 0 _ _ (by rw [length, length', size])
  funext p
  by_cases inside : p < first.size
  · have here := congrFun image p
    rw [FileData.image, FileData.image, filled, filled] at here
    rw [filled, filled, FileData.text, FileData.text, List.getElem?_take_of_lt inside, List.getElem?_take_of_lt (size ▸ inside)]
    exact here
  · rw [filled, filled, List.getElem?_eq_none (by omega), List.getElem?_eq_none (by omega)]

end Serial

section Loop
variable {sha : Chunk → Sha256} {K : Set Chunk} {s t : Storage} {w : WriteCall} {l : WriteLoop}

/-- A hash object has been made, and has this chunk as long as it is live. -/
def Stands (s : Storage) (o : Nat) (c : Chunk) : Prop := o < s.created ∧ (s.Live o → s.content o = c)

/-- How far the loop of a write is, beside the loop over the chunks that its hashes had. -/
structure Progress (K : Set Chunk) (s : Storage) (w : WriteCall) (l : WriteLoop) (chunks rest after later : List Chunk)
    (replaced replacing : List (Chunk × Chunk)) : Prop where
  hashes : List.Forall₂ (Stands s) l.hashes chunks
  todo : List.Forall₂ (Stands s) l.todo rest
  entries : List.Forall₂ (Stands s) l.after after
  whole : writeLoop quietOps w.offset chunks w.buf (w.firstHash * chunkSize) () = some ((after ++ later, replaced ++ replacing), ())
  part : writeLoop quietOps w.offset rest l.buf l.fileOffset () = some ((later, replacing), ())
  pairs : replaced.length = l.replaced.length
  known : ∀ c ∈ after ++ later, c ∈ K
  counts : ∀ o, l.after.count o + (l.replaced.map Prod.fst).count o + l.todo.count o = l.hashes.count o + (l.replaced.map Prod.snd).count o
  window : l.hashes.length = numHashesInWrite w.buf.length w.offset

theorem Stands.advance {o : Nat} {c : Chunk} (rep : s.Rep sha) (advance : Advance sha s t) (stands : Stands s o c) : Stands t o c := by
  refine ⟨stands.1.trans_le (advance.created rep), fun live => ?_⟩
  obtain ⟨before, same⟩ := advance.content rep o stands.1 live
  exact same.trans (stands.2 before)

theorem stands_of_live (rep : s.Rep sha) {o : Nat} (live : s.Live o) : Stands s o (s.content o) := ⟨rep.made o live, fun _ => rfl⟩

namespace Progress
variable {chunks rest after later : List Chunk} {replaced replacing : List (Chunk × Chunk)}

/-- Other steps of the storage do not disturb the loop. -/
theorem advance (progress : Progress K s w l chunks rest after later replaced replacing) (rep : s.Rep sha) (moved : Advance sha s t) :
    Progress K t w l chunks rest after later replaced replacing :=
  { progress with
    hashes := progress.hashes.imp (fun _ _ stands => stands.advance rep moved)
    todo := progress.todo.imp (fun _ _ stands => stands.advance rep moved)
    entries := progress.entries.imp (fun _ _ stands => stands.advance rep moved) }

/-- The loop begins. -/
theorem start {list : List Nat} (rep : s.Rep sha) (live : ∀ o ∈ list, s.Live o) (long : list.length = numHashesInWrite w.buf.length w.offset)
    (ran : writeLoop quietOps w.offset (list.map s.content) w.buf (w.firstHash * chunkSize) () = some ((later, replacing), ()))
    (within : ∀ c ∈ later, c ∈ K) :
    Progress K s w ⟨list, [], list, w.buf, w.firstHash * chunkSize, []⟩ (list.map s.content) (list.map s.content) [] later [] replacing := by
  have stands : List.Forall₂ (Stands s) list (list.map s.content) := by
    rw [List.forall₂_map_right_iff, List.forall₂_same]
    exact fun o member => stands_of_live rep (live o member)
  refine ⟨stands, stands, List.Forall₂.nil, ran, ran, rfl, within, fun o => ?_, long⟩
  simp only [List.count_nil, List.map_nil, Nat.zero_add, Nat.add_zero]

/-- A hash that lies before the input or behind it is passed. -/
theorem pass {hash : Nat} {todo : List Nat} (progress : Progress K s w l chunks rest after later replaced replacing) (next : l.todo = hash :: todo)
    (elsewhere : ¬(w.offset < l.fileOffset + chunkSize ∧ l.buf ≠ [])) :
    ∃ c rest' later', Progress K s w (l.pass hash) chunks rest' (after ++ [c]) later' replaced replacing := by
  have todo' := progress.todo
  rw [next] at todo'
  obtain ⟨c, rest', stands, others, shape⟩ := List.forall₂_cons_left_iff.mp todo'
  have part := progress.part
  rw [shape, writeLoop, if_neg elsewhere] at part
  obtain ⟨⟨later', replacing'⟩, _, ran, done⟩ := Run.bind_eq_some.mp part
  cases done
  refine ⟨c, rest', later', { progress with
    todo := by rw [WriteLoop.pass, next]; exact others
    entries := List.rel_append progress.entries (.cons stands .nil)
    whole := by rw [List.append_assoc]; exact progress.whole
    part := ran
    known := by rw [List.append_assoc]; exact progress.known
    counts := fun o => ?_ }⟩
  have before := progress.counts o
  rw [next] at before
  simp only [WriteLoop.pass, next, List.tail_cons, List.count_append, List.count_cons, List.count_nil] at before ⊢
  omega

/-- What the loop over the chunks makes of the next one. -/
theorem split {hash : Nat} {todo : List Nat} (progress : Progress K s w l chunks rest after later replaced replacing) (next : l.todo = hash :: todo)
    (here : w.offset < l.fileOffset + chunkSize ∧ l.buf ≠ []) :
    ∃ c d rest' later' replacing', rest = c :: rest' ∧ Stands s hash c ∧ List.Forall₂ (Stands s) todo rest' ∧
      c.write (w.offset - l.fileOffset) (l.piece w.offset) = some d ∧ later = d :: later' ∧
      replacing = (if d = c then [] else [(c, d)]) ++ replacing' ∧
      ∀ entry pairs, writeLoop quietOps w.offset rest' (l.advance w.offset entry pairs).buf (l.advance w.offset entry pairs).fileOffset () =
        some ((later', replacing'), ()) := by
  have todo' := progress.todo
  rw [next] at todo'
  obtain ⟨c, rest', stands, others, shape⟩ := List.forall₂_cons_left_iff.mp todo'
  have part := progress.part
  rw [shape, writeLoop, if_pos here] at part
  dsimp only at part
  obtain ⟨r, _, wrote, part⟩ := Run.bind_eq_some.mp part
  obtain ⟨d, written, pair⟩ := Option.map_eq_some_iff.mp wrote
  cases pair
  refine ⟨c, d, rest', ?_⟩
  by_cases same : d = c
  · rw [if_pos same] at part
    dsimp only at part
    obtain ⟨⟨later', replacing'⟩, _, ran, done⟩ := Run.bind_eq_some.mp part
    cases done
    exact ⟨later', _, shape, stands, others, written, by rw [same], by rw [if_pos same, List.nil_append], fun _ _ => ran⟩
  · rw [if_neg same] at part
    dsimp only at part
    obtain ⟨_, _, _, part⟩ := Run.bind_eq_some.mp part
    obtain ⟨⟨later', replacing'⟩, _, ran, done⟩ := Run.bind_eq_some.mp part
    cases done
    exact ⟨later', replacing', shape, stands, others, written, rfl, by rw [if_neg same, List.singleton_append], fun _ _ => ran⟩

/-- A hash whose chunk stays the same keeps its place. -/
theorem unchanged {hash : Nat} {todo : List Nat} {c : Chunk} {rest' later' : List Chunk}
    (progress : Progress K s w l chunks rest after (c :: later') replaced replacing) (next : l.todo = hash :: todo)
    (stands : Stands s hash c) (others : List.Forall₂ (Stands s) todo rest')
    (part : writeLoop quietOps w.offset rest' (l.advance w.offset hash []).buf (l.advance w.offset hash []).fileOffset () =
      some ((later', replacing), ())) :
    Progress K s w (l.advance w.offset hash []) chunks rest' (after ++ [c]) later' replaced replacing :=
  { progress with
    todo := by rw [WriteLoop.advance, next]; exact others
    entries := List.rel_append progress.entries (.cons stands .nil)
    whole := by rw [List.append_assoc]; exact progress.whole
    part := part
    pairs := by rw [WriteLoop.advance, List.append_nil]; exact progress.pairs
    known := by rw [List.append_assoc]; exact progress.known
    counts := fun o => by
      have before := progress.counts o
      rw [next] at before
      simp only [WriteLoop.advance, next, List.tail_cons, List.append_nil, List.count_append, List.count_cons, List.count_nil] at before ⊢
      omega }

/-- A hash whose chunk changes gives its place to another. -/
theorem changed {hash newHsh : Nat} {todo : List Nat} {c d : Chunk} {rest' later' : List Chunk} {replacing' : List (Chunk × Chunk)}
    (progress : Progress K s w l chunks rest after (d :: later') replaced ((c, d) :: replacing')) (next : l.todo = hash :: todo)
    (stands : Stands s newHsh d) (others : List.Forall₂ (Stands s) todo rest')
    (part : writeLoop quietOps w.offset rest' (l.advance w.offset newHsh [(hash, newHsh)]).buf
      (l.advance w.offset newHsh [(hash, newHsh)]).fileOffset () = some ((later', replacing'), ())) :
    Progress K s w (l.advance w.offset newHsh [(hash, newHsh)]) chunks rest' (after ++ [d]) later' (replaced ++ [(c, d)]) replacing' :=
  { progress with
    todo := by rw [WriteLoop.advance, next]; exact others
    entries := List.rel_append progress.entries (.cons stands .nil)
    whole := by rw [List.append_assoc, List.append_assoc]; exact progress.whole
    part := part
    pairs := by
      have before := progress.pairs
      rw [WriteLoop.advance, List.length_append, List.length_append, before]
      rfl
    known := by rw [List.append_assoc]; exact progress.known
    counts := fun o => by
      have before := progress.counts o
      rw [next] at before
      simp only [WriteLoop.advance, next, List.tail_cons, List.map_append, List.map_cons, List.map_nil, List.count_append, List.count_cons,
        List.count_nil] at before ⊢
      omega }

/-- At the end of the loop its entries have the chunks that a write makes, and hashes are
replaced just when chunks are. -/
theorem finish (progress : Progress K s w l chunks rest after later replaced replacing) (next : l.todo = []) :
    writeLoop quietOps w.offset chunks w.buf (w.firstHash * chunkSize) () = some ((after, replaced), ()) ∧ later = [] ∧ replacing = [] ∧
      (replaced = [] ↔ l.replaced = []) := by
  have todo' := progress.todo
  rw [next] at todo'
  have shape := List.forall₂_nil_left_iff.mp todo'
  have part := progress.part
  rw [shape, writeLoop] at part
  obtain ⟨_, _, _, done⟩ := Run.bind_eq_some.mp part
  cases done
  have whole := progress.whole
  rw [List.append_nil, List.append_nil] at whole
  refine ⟨whole, rfl, rfl, ?_⟩
  rw [← List.length_eq_zero_iff, ← List.length_eq_zero_iff, progress.pairs]

end Progress

/-- A write that changes no chunk leaves the list of them as it is. -/
theorem writeLoop_unchanged {offset : Nat} {chunks after : List Chunk} {buf : Str} {fileOffset : Nat}
    (ran : writeLoop quietOps offset chunks buf fileOffset () = some ((after, []), ())) : after = chunks := by
  induction chunks generalizing after buf fileOffset with
  | nil =>
    obtain ⟨_, _, _, done⟩ := Run.bind_eq_some.mp ran
    cases done
    rfl
  | cons c chunks ih =>
    rw [writeLoop] at ran
    split at ran
    · dsimp only at ran
      obtain ⟨r, _, wrote, ran⟩ := Run.bind_eq_some.mp ran
      cases r with
      | some d =>
        obtain ⟨_, _, _, ran⟩ := Run.bind_eq_some.mp ran
        obtain ⟨⟨after', replaced⟩, _, _, done⟩ := Run.bind_eq_some.mp ran
        cases done
      | none =>
        obtain ⟨⟨after', replaced⟩, _, later, done⟩ := Run.bind_eq_some.mp ran
        cases done
        rw [ih later]
    · obtain ⟨⟨after', replaced⟩, _, later, done⟩ := Run.bind_eq_some.mp ran
      cases done
      rw [ih later]

end Loop

end CloudCryptFS.Filesystem
