import CloudCryptFS.Filesystem.SerialWrites
import Mathlib.Data.List.Permutation

/-! Runs of concurrent writes. A write that replaces hashes takes effect where it updates the
list, and one that changes nothing where it reads the list. Every reference is the list's or
that of a thread which has taken it, and has not given it to the list yet. -/

namespace CloudCryptFS.Filesystem
open Util Script.Lexer Storage

namespace WriteStage

/-- The hashes that a thread has a reference to, besides the list. -/
def held : WriteStage → List Nat
  | .write l => l.replaced.map Prod.snd
  | .incRefCnt _ l => l.replaced.map Prod.snd
  | .updateRange l => l.replaced.map Prod.snd
  | .decRefCnt hashesToRemoveFromFile => hashesToRemoveFromFile
  | _ => []

/-- The places of the zero hash that a thread has made, and not counted yet. -/
def owed : WriteStage → Nat
  | .incZero added => added
  | _ => 0

end WriteStage

/-- What a write makes of the chunks of a set is in it. -/
def WriteCall.Closed (K : Set Chunk) (w : WriteCall) : Prop :=
  ∀ chunks after replaced, (∀ c ∈ chunks, c ∈ K) →
    writeLoop quietOps w.offset chunks w.buf (w.firstHash * chunkSize) () = some ((after, replaced), ()) → ∀ c ∈ after, c ∈ K

namespace SharedFile

def calls (s : SharedFile) : List WriteCall := s.threads.map Writer.call

/-- The file with the chunks of its hashes. -/
def contents (s : SharedFile) : FileData Chunk := s.storage.contents ⟨s.size, s.hashList⟩

/-- The hashes that are referred to, once for each reference. -/
def held (s : SharedFile) : List Nat := s.hashList ++ s.threads.flatMap (fun th => th.stage.held)

def owed (s : SharedFile) : Nat := (s.threads.map (fun th => th.stage.owed)).sum

/-- How far the zero hash is counted above its references. -/
def zeroExcess (others : List Nat) (s : SharedFile) : Int :=
  (s.storage.objects zeroHash).refcnt + s.owed - ((s.held ++ others).count zeroHash : Nat)

/-- Threads that are about to write to a file. The sums tell apart the chunks that there are
and those that the writes make. -/
structure Begins (sha : Chunk → Sha256) (K : Set Chunk) (others : List Nat) (s : SharedFile) : Prop where
  stages : ∀ th ∈ s.threads, th.stage = .compareSize
  counted : s.storage.Counted sha (s.hashList ++ others)
  known : s.storage.Known K
  long : numChunks s.size ≤ s.hashList.length
  injective : Set.InjOn sha K
  closed : ∀ w ∈ s.calls, w.Closed K

/-- What is asked of a file while threads write to it: the counts stand for the references,
and in the end the file is as if the writes had been made one after the other. -/
structure Serialised (sha : Chunk → Sha256) (others : List Nat) (s t : SharedFile) : Prop where
  counted : t.storage.Counted sha (t.held ++ others)
  zeroExcess : t.zeroExcess others = s.zeroExcess others
  serial : (∀ th ∈ t.threads, th.stage = .done) → t.held = t.hashList ∧ t.owed = 0 ∧ ∃ calls : List WriteCall, calls.Perm s.calls ∧
    t.size = serialSize s.size calls ∧ t.contents.image = serialImage s.contents.image calls ∧
    ∀ after, writeAll calls s.contents = some after → t.size = after.size ∧ t.contents.text = after.text

end SharedFile

/-- The loop of a write is on its way, or has made its entries. Whether it changes any chunk
is settled when it begins. -/
def WriteLoop.Underway (K : Set Chunk) (s : Storage) (w : WriteCall) (l : WriteLoop) (idle : Prop) : Prop :=
  ∃ chunks rest after later replaced replacing, Progress K s w l chunks rest after later replaced replacing ∧ (idle ↔ replaced ++ replacing = [])

section Loop
variable {sha : Chunk → Sha256} {K : Set Chunk} {s t : Storage} {w : WriteCall} {l : WriteLoop} {idle : Prop} {held : List Nat}

theorem content_of_stands {list : List Nat} {chunks : List Chunk} (stands : List.Forall₂ (Stands s) list chunks) (live : ∀ o ∈ list, s.Live o) :
    list.map s.content = chunks := by
  induction stands with
  | nil => rfl
  | cons stands _ ih =>
    rw [List.map_cons, stands.2 (live _ List.mem_cons_self), ih (fun o member => live o (List.mem_cons_of_mem _ member))]

/-- A loop that begins has a result over the chunks. -/
theorem underway_start {list : List Nat} (counted : s.Counted sha held) (known : s.Known K) (closed : w.Closed K) (sub : ∀ o ∈ list, o ∈ held)
    (long : list.length = numHashesInWrite w.buf.length w.offset) :
    ∃ after replaced, writeLoop quietOps w.offset (list.map s.content) w.buf (w.firstHash * chunkSize) () = some ((after, replaced), ()) ∧
      after.length = list.length ∧ bytes after = splice (bytes (list.map s.content)) (w.offset % chunkSize) w.buf ∧
      ∀ idle, (idle ↔ replaced = []) → WriteLoop.Underway K s w ⟨list, [], list, w.buf, w.firstHash * chunkSize, []⟩ idle := by
  have start : w.offset - w.firstHash * chunkSize = w.offset % chunkSize := offset_in_chunk w.offset
  have live : ∀ o ∈ list, s.Live o := fun o member => counted.live o (sub o member)
  obtain ⟨after, replaced, ran, length, spliced⟩ := writeLoop_bytes w.offset (list.map s.content) w.buf (w.firstHash * chunkSize)
    (by rw [start, List.length_map, long]; exact window_fits w.buf.length w.offset) ()
  rw [start] at spliced
  rw [List.length_map] at length
  refine ⟨after, replaced, ran, length, spliced, fun idle settled => ?_⟩
  have within : ∀ c ∈ after, c ∈ K := by
    apply closed _ after replaced _ ran
    intro c member
    obtain ⟨o, inside, rfl⟩ := List.mem_map.mp member
    exact known o (live o inside)
  exact ⟨_, _, _, _, _, _, Progress.start counted.rep live long ran within, settled⟩

namespace WriteLoop

theorem Underway.advance (underway : l.Underway K s w idle) (rep : s.Rep sha) (moved : Advance sha s t) : l.Underway K t w idle := by
  obtain ⟨chunks, rest, after, later, replaced, replacing, progress, settled⟩ := underway
  exact ⟨chunks, rest, after, later, replaced, replacing, progress.advance rep moved, settled⟩

theorem Underway.pass {hash : Nat} {todo : List Nat} (underway : l.Underway K s w idle) (next : l.todo = hash :: todo)
    (elsewhere : ¬(w.offset < l.fileOffset + chunkSize ∧ l.buf ≠ [])) : (l.pass hash).Underway K s w idle := by
  obtain ⟨chunks, rest, after, later, replaced, replacing, progress, settled⟩ := underway
  obtain ⟨c, rest', later', progress'⟩ := progress.pass next elsewhere
  exact ⟨_, _, _, _, _, _, progress', settled⟩

/-- A hash that is still live is written to. -/
theorem Underway.write {hash : Nat} {todo : List Nat} {r : Option Nat} (underway : l.Underway K s w idle) (injective : Set.InjOn sha K)
    (counted : s.Counted sha held) (known : s.Known K) (next : l.todo = hash :: todo)
    (here : w.offset < l.fileOffset + chunkSize ∧ l.buf ≠ []) (live : s.Live hash)
    (ran : writeHash sha hash (w.offset - l.fileOffset) (l.piece w.offset) s = some (r, t)) :
    t.Counted sha held ∧ t.Known K ∧
      match r with
      | some newHsh => (l.advance w.offset newHsh [(hash, newHsh)]).Underway K t w idle
      | none => (l.advance w.offset hash []).Underway K t w idle := by
  obtain ⟨chunks, rest, after, later, replaced, replacing, progress, settled⟩ := underway
  obtain ⟨c, d, rest', later', replacing', rfl, stands, others, written, rfl, rfl, part⟩ := progress.split next here
  rw [← stands.2 live] at written
  have within : d ∈ K := progress.known d (List.mem_append_right _ List.mem_cons_self)
  obtain ⟨counted', known', moved, made⟩ := writeHash_simulates injective counted known live written within ran
  refine ⟨counted', known', ?_⟩
  have progress' := progress.advance counted.rep moved
  have others' : List.Forall₂ (Stands t) todo rest' := others.imp (fun _ _ stands => stands.advance counted.rep moved)
  rw [stands.2 live] at made
  by_cases same : d = c
  · subst same
    rw [if_pos rfl] at made progress' settled
    subst made
    exact ⟨_, _, _, _, _, _, progress'.unchanged next (stands.advance counted.rep moved) others' (part hash []), settled⟩
  · rw [if_neg same] at made progress' settled
    obtain ⟨newHsh, rfl, live', content⟩ := made
    have stands' : Stands t newHsh d := content ▸ stands_of_live counted'.rep live'
    have changed : Progress K t w (l.advance w.offset newHsh [(hash, newHsh)]) chunks rest' (after ++ [d]) later' (replaced ++ [(c, d)]) replacing' :=
      progress'.changed next stands' others' (part newHsh [(hash, newHsh)])
    refine ⟨_, _, _, _, _, _, changed, settled.trans ?_⟩
    rw [List.append_assoc]

theorem Underway.idle_iff (underway : l.Underway K s w idle) (next : l.todo = []) : idle ↔ l.replaced = [] := by
  obtain ⟨chunks, rest, after, later, replaced, replacing, progress, settled⟩ := underway
  obtain ⟨_, _, rfl, same⟩ := progress.finish next
  rw [settled, List.append_nil, same]

/-- The entries of a loop that is through stand for what the write makes of its chunks. -/
theorem Underway.finish (underway : l.Underway K s w idle) (next : l.todo = []) (live : ∀ o ∈ l.hashes ++ l.replaced.map Prod.snd, s.Live o) :
    (idle ↔ l.replaced = []) ∧ l.after.length = numHashesInWrite w.buf.length w.offset ∧ l.hashes.length = numHashesInWrite w.buf.length w.offset ∧
      (∀ o, l.after.count o + (l.replaced.map Prod.fst).count o = l.hashes.count o + (l.replaced.map Prod.snd).count o) ∧
      bytes (l.after.map s.content) = splice (bytes (l.hashes.map s.content)) (w.offset % chunkSize) w.buf := by
  obtain ⟨chunks, rest, after, later, replaced, replacing, progress, settled⟩ := underway
  obtain ⟨ran, rfl, rfl, same⟩ := progress.finish next
  have counts : ∀ o, l.after.count o + (l.replaced.map Prod.fst).count o = l.hashes.count o + (l.replaced.map Prod.snd).count o := by
    intro o
    have before := progress.counts o
    rwa [next, List.count_nil, Nat.add_zero] at before
  have entries : l.after.map s.content = after := by
    apply content_of_stands progress.entries
    intro o member
    apply live
    have one := List.count_pos_iff.mpr member
    have many := counts o
    rw [← List.count_pos_iff, List.count_append]
    omega
  have hashes : l.hashes.map s.content = chunks := content_of_stands progress.hashes (fun o member => live o (List.mem_append_left _ member))
  have start : w.offset - w.firstHash * chunkSize = w.offset % chunkSize := offset_in_chunk w.offset
  obtain ⟨after', replaced', ran', length, spliced⟩ := writeLoop_bytes w.offset chunks w.buf (w.firstHash * chunkSize)
    (by rw [start, ← hashes, List.length_map, progress.window]; exact window_fits w.buf.length w.offset) ()
  cases ran.symm.trans ran'
  rw [start] at spliced
  rw [List.append_nil, same] at settled
  refine ⟨settled, ?_, progress.window, counts, by rw [entries, hashes, spliced]⟩
  rw [← List.length_map, entries, length, ← hashes, List.length_map, progress.window]

end WriteLoop

end Loop

namespace SharedFile

/-- The file has room for what a thread writes. -/
def Sized (t : SharedFile) (w : WriteCall) : Prop := w.stop ≤ t.size ∧ numChunks w.stop ≤ t.hashList.length

/-- What is known of a thread at its stage, when these threads have taken effect. -/
def StageOk (K : Set Chunk) (t : SharedFile) (order : List Nat) (k : Nat) (w : WriteCall) : WriteStage → Prop
  | .compareSize => k ∉ order
  | .setSize => k ∉ order
  | .measure => w.stop ≤ t.size ∧ k ∉ order
  | .compare n => w.stop ≤ t.size ∧ numChunks w.stop ≤ n ∧ k ∉ order
  | .grow n => w.stop ≤ t.size ∧ numChunks w.stop ≤ n ∧ k ∉ order
  | .incZero _ => t.Sized w ∧ k ∉ order
  | .lock => t.Sized w ∧ k ∉ order
  | .getRange => t.Sized w ∧ k ∉ order
  | .write l => t.Sized w ∧ l.Underway K t.storage w (k ∈ order)
  | .incRefCnt newHsh l => t.Sized w ∧ ∃ hash todo, l.todo = hash :: todo ∧
      (l.advance w.offset newHsh [(hash, newHsh)]).Underway K t.storage w (k ∈ order)
  | .updateRange l => t.Sized w ∧ l.todo = [] ∧ l.replaced ≠ [] ∧ l.Underway K t.storage w (k ∈ order)
  | .decRefCnt _ => t.Sized w ∧ k ∈ order
  | .unlock => t.Sized w ∧ k ∈ order
  | .done => t.Sized w ∧ k ∈ order

/-- What holds while the threads of a file write to it, some of which have taken effect in
this order. -/
structure Inv (sha : Chunk → Sha256) (K : Set Chunk) (others : List Nat) (s : SharedFile) (order : List Nat) (t : SharedFile) : Prop where
  calls : t.calls = s.calls
  counted : t.storage.Counted sha (t.held ++ others)
  known : t.storage.Known K
  zeroExcess : t.zeroExcess others = s.zeroExcess others
  nodup : order.Nodup
  inside : ∀ k ∈ order, k < s.calls.length
  size : s.size ≤ t.size ∧ (t.size = s.size ∨ ∃ w ∈ s.calls, t.size = w.stop)
  long : numChunks s.size ≤ t.hashList.length
  stages : ∀ (k : Nat) (th : Writer), t.threads[k]? = some th → t.StageOk K order k th.call th.stage
  image : t.contents.image = serialImage s.contents.image (order.filterMap (fun k => s.calls[k]?))

section Steps
variable {sha : Chunk → Sha256} {K : Set Chunk} {others order order' : List Nat} {s t u : SharedFile} {k j : Nat} {w : WriteCall}
  {old new stage : WriteStage}

/-- What a step of another thread leaves as it is. -/
theorem StageOk.stays (ok : t.StageOk K order j w stage) (rep : t.storage.Rep sha) (moved : Advance sha t.storage u.storage)
    (size : t.size ≤ u.size) (longer : t.hashList.length ≤ u.hashList.length) (same : j ∈ order' ↔ j ∈ order) :
    u.StageOk K order' j w stage := by
  have sized : t.Sized w → u.Sized w := fun room => ⟨room.1.trans size, room.2.trans longer⟩
  have settled := propext same
  cases stage with
  | compareSize => exact fun member => ok (same.mp member)
  | setSize => exact fun member => ok (same.mp member)
  | measure => exact ⟨ok.1.trans size, settled ▸ ok.2⟩
  | compare n => exact ⟨ok.1.trans size, ok.2.1, settled ▸ ok.2.2⟩
  | grow n => exact ⟨ok.1.trans size, ok.2.1, settled ▸ ok.2.2⟩
  | incZero added => exact ⟨sized ok.1, settled ▸ ok.2⟩
  | lock => exact ⟨sized ok.1, settled ▸ ok.2⟩
  | getRange => exact ⟨sized ok.1, settled ▸ ok.2⟩
  | write l => exact ⟨sized ok.1, settled ▸ ok.2.advance rep moved⟩
  | incRefCnt newHsh l =>
    obtain ⟨room, hash, todo, next, underway⟩ := ok
    exact ⟨sized room, hash, todo, next, settled ▸ underway.advance rep moved⟩
  | updateRange l => exact ⟨sized ok.1, ok.2.1, ok.2.2.1, settled ▸ ok.2.2.2.advance rep moved⟩
  | decRefCnt hashes => exact ⟨sized ok.1, settled ▸ ok.2⟩
  | unlock => exact ⟨sized ok.1, settled ▸ ok.2⟩
  | done => exact ⟨sized ok.1, settled ▸ ok.2⟩

/-- One thread goes on, and what is referred to changes in the list and there. -/
theorem count_held (here : t.threads[k]? = some ⟨w, old⟩) (threads : u.threads = t.threads.set k ⟨w, new⟩) (o : Nat) :
    u.held.count o + old.held.count o + t.hashList.count o = t.held.count o + new.held.count o + u.hashList.count o := by
  have sums := Linked.sum_set here ⟨w, new⟩ (f := fun th => th.stage.held.count o) (g := fun th => th.stage.held.count o) (fun _ _ _ _ => rfl)
  rw [held, held, List.count_append, List.count_append, List.count_flatMap, List.count_flatMap, threads]
  simp only [Function.comp_def] at sums ⊢
  omega

theorem owed_held (here : t.threads[k]? = some ⟨w, old⟩) (threads : u.threads = t.threads.set k ⟨w, new⟩) :
    u.owed + old.owed = t.owed + new.owed := by
  rw [owed, owed, threads]
  exact Linked.sum_set here ⟨w, new⟩ (fun _ _ _ _ => rfl)

theorem calls_set (here : t.threads[k]? = some ⟨w, old⟩) (threads : u.threads = t.threads.set k ⟨w, new⟩) : u.calls = t.calls := by
  obtain ⟨inside, there⟩ := List.getElem?_eq_some_iff.mp here
  have bound : k < (t.threads.map Writer.call).length := by rwa [List.length_map]
  have own : (t.threads.map Writer.call)[k] = w := by rw [List.getElem_map, there]
  calc u.calls = (t.threads.map Writer.call).set k w := by rw [calls, threads, List.map_set]
    _ = (t.threads.map Writer.call).set k (t.threads.map Writer.call)[k] := by rw [own]
    _ = t.calls := List.set_getElem_self _

/-- A list whose hashes keep their chunks has the same bytes. -/
theorem image_kept (counted : t.storage.Counted sha (t.held ++ others)) (moved : Advance sha t.storage u.storage)
    (live : ∀ o ∈ t.hashList, u.storage.Live o) (list : u.hashList = t.hashList) : u.contents.image = t.contents.image := by
  have kept : t.hashList.map u.storage.content = t.hashList.map t.storage.content :=
    map_content counted moved (fun o member => List.mem_append_left _ (List.mem_append_left _ member)) live
  rw [FileData.image, FileData.image, contents, contents, Storage.contents, Storage.contents, list, kept]

theorem Inv.known_at (inv : Inv sha K others s order t) (here : t.threads[k]? = some ⟨w, stage⟩) : t.StageOk K order k w stage := inv.stages k _ here

/-- One thread goes on, and takes effect or does not. -/
theorem Inv.moved (inv : Inv sha K others s order t) (here : t.threads[k]? = some ⟨w, old⟩)
    (threads : u.threads = t.threads.set k ⟨w, new⟩) (moved : Advance sha t.storage u.storage)
    (size : t.size ≤ u.size ∧ (u.size = t.size ∨ u.size = w.stop)) (longer : t.hashList.length ≤ u.hashList.length)
    (counted : u.storage.Counted sha (u.held ++ others)) (known : u.storage.Known K) (zeroExcess : u.zeroExcess others = t.zeroExcess others)
    (effect : order' = order ∧ u.contents.image = t.contents.image ∨
      k ∉ order ∧ order' = order ++ [k] ∧ u.contents.image = overlay w.offset w.buf t.contents.image)
    (stage : u.StageOk K order' k w new) : Inv sha K others s order' u := by
  have calls : u.calls = s.calls := (calls_set here threads).trans inv.calls
  have own : s.calls[k]? = some w := by
    rw [← inv.calls, SharedFile.calls, List.getElem?_map, here]
    rfl
  have others' : ∀ j, j ≠ k → (j ∈ order' ↔ j ∈ order) := by
    intro j different
    obtain ⟨rfl, _⟩ | ⟨_, rfl, _⟩ := effect
    · exact Iff.rfl
    · rw [List.mem_append, List.mem_singleton, or_iff_left different]
  refine ⟨calls, counted, known, zeroExcess.trans inv.zeroExcess, ?_, ?_, ⟨inv.size.1.trans size.1, ?_⟩, inv.long.trans longer, ?_, ?_⟩
  · obtain ⟨rfl, _⟩ | ⟨fresh, rfl, _⟩ := effect
    · exact inv.nodup
    · exact List.nodup_append.mpr ⟨inv.nodup, List.nodup_singleton k, fun j member i last => by
        rw [List.mem_singleton.mp last]
        rintro rfl
        exact fresh member⟩
  · intro j member
    by_cases same : j = k
    · rw [same]
      exact (List.getElem?_eq_some_iff.mp own).1
    · exact inv.inside j ((others' j same).mp member)
  · obtain same | raised := size.2
    · rw [same]
      exact inv.size.2
    · exact Or.inr ⟨w, List.mem_of_getElem? own, raised⟩
  · intro j th there
    rw [threads] at there
    by_cases same : j = k
    · subst same
      rw [List.getElem?_set_self (List.getElem?_eq_some_iff.mp here).1] at there
      cases there
      exact stage
    · rw [List.getElem?_set_ne (Ne.symm same)] at there
      exact (inv.stages j th there).stays inv.counted.rep moved size.1 longer (others' j same)
  · obtain ⟨rfl, image⟩ | ⟨_, rfl, image⟩ := effect
    · exact image.trans inv.image
    · rw [Schedule.places_append own, serialImage_append, image, inv.image]

theorem zeroExcess_kept (here : t.threads[k]? = some ⟨w, old⟩) (threads : u.threads = t.threads.set k ⟨w, new⟩)
    (balance : (u.storage.objects zeroHash).refcnt + new.owed + old.held.count zeroHash + t.hashList.count zeroHash =
      (t.storage.objects zeroHash).refcnt + old.owed + new.held.count zeroHash + u.hashList.count zeroHash) :
    u.zeroExcess others = t.zeroExcess others := by
  have counts := count_held here threads zeroHash
  have owes := owed_held here threads
  rw [SharedFile.zeroExcess, SharedFile.zeroExcess, List.count_append, List.count_append]
  omega

/-- One thread goes on beside the hashes. -/
theorem Inv.turn (inv : Inv sha K others s order t) (here : t.threads[k]? = some ⟨w, old⟩)
    (threads : u.threads = t.threads.set k ⟨w, new⟩) (storage : u.storage = t.storage) (list : u.hashList = t.hashList)
    (size : t.size ≤ u.size ∧ (u.size = t.size ∨ u.size = w.stop)) (held : new.held = old.held) (owed : new.owed = old.owed)
    (effect : order' = order ∨ k ∉ order ∧ order' = order ++ [k] ∧ overlay w.offset w.buf t.contents.image = t.contents.image)
    (stage : u.StageOk K order' k w new) : Inv sha K others s order' u := by
  have counts := count_held here threads
  have moved : Advance sha t.storage u.storage := storage ▸ Advance.refl sha _
  have counted : u.storage.Counted sha (u.held ++ others) := by
    rw [storage]
    apply inv.counted.congr
    intro o
    have here := counts o
    rw [held, list] at here
    rw [List.count_append, List.count_append]
    omega
  have image := image_kept inv.counted moved (fun o member => counted.live o (List.mem_append_left _ (List.mem_append_left _ (list ▸ member)))) list
  apply inv.moved here threads moved size (by rw [list]) counted (storage ▸ inv.known) (zeroExcess_kept here threads (by rw [storage, held, owed, list])) _ stage
  obtain same | ⟨fresh, grown, idle⟩ := effect
  · exact Or.inl ⟨same, image⟩
  · exact Or.inr ⟨fresh, grown, image.trans idle.symm⟩

theorem image_contents (t : SharedFile) : t.contents.image = filled 0 (bytes (t.hashList.map t.storage.content)) := rfl

/-- The list is made longer; what is added to it is not counted yet. -/
theorem Inv.grow {n : Nat} (inv : Inv sha K others s order t) (here : t.threads[k]? = some ⟨w, .grow n⟩) (longer : t.hashList.length ≤ n)
    (threads : u.threads = t.threads.set k ⟨w, .incZero (max n t.hashList.length - min n t.hashList.length)⟩) (storage : u.storage = t.storage)
    (size : u.size = t.size) (hashList : u.hashList = resized zeroHash t.hashList n) : Inv sha K others s order u := by
  obtain ⟨raised, enough, fresh⟩ := inv.known_at here
  have added : max n t.hashList.length - min n t.hashList.length = n - t.hashList.length := by omega
  have list : u.hashList = t.hashList ++ List.replicate (n - t.hashList.length) zeroHash := by
    rw [hashList, resized, List.take_of_length_le longer]
  have length : u.hashList.length = n := by
    rw [list, List.length_append, List.length_replicate]
    omega
  rw [added] at threads
  refine inv.moved here threads (storage ▸ Advance.refl sha _) ⟨size.ge, Or.inl size⟩ (longer.trans length.ge) ?_ (storage ▸ inv.known) ?_ ?_
    ⟨⟨raised.trans size.ge, enough.trans length.ge⟩, fresh⟩
  · rw [storage]
    apply inv.counted.congr_of_ne
    intro o different
    have counts := count_held here threads o
    rw [list] at counts
    simp only [List.count_append, List.count_replicate, beq_iff_eq, different.symm, if_false, WriteStage.held, List.count_nil] at counts ⊢
    omega
  · apply zeroExcess_kept here threads
    rw [storage, list]
    simp only [List.count_append, List.count_replicate_self, WriteStage.held, WriteStage.owed, List.count_nil]
    omega
  · have image := image_grown (t.hashList.map t.storage.content) n
    rw [grown, List.length_map] at image
    refine Or.inl ⟨rfl, ?_⟩
    rw [image_contents, image_contents, list, storage, List.map_append, List.map_replicate, content_zeroHash inv.counted.rep, image]

/-- One thread goes on among the hashes; the file keeps its list. -/
theorem Inv.storage (inv : Inv sha K others s order t) (here : t.threads[k]? = some ⟨w, old⟩)
    (threads : u.threads = t.threads.set k ⟨w, new⟩) (size : u.size = t.size) (hashList : u.hashList = t.hashList)
    (moved : Advance sha t.storage u.storage) (counted : u.storage.Counted sha (u.held ++ others)) (known : u.storage.Known K)
    (balance : (u.storage.objects zeroHash).refcnt + new.owed + old.held.count zeroHash =
      (t.storage.objects zeroHash).refcnt + old.owed + new.held.count zeroHash)
    (stage : u.StageOk K order k w new) : Inv sha K others s order u := by
  have live : ∀ o ∈ t.hashList, u.storage.Live o := by
    intro o member
    rw [← hashList] at member
    exact counted.live o (List.mem_append_left _ (List.mem_append_left _ member))
  refine inv.moved here threads moved ⟨size.ge, Or.inl size⟩ (by rw [hashList]) counted known ?_
    (Or.inl ⟨rfl, image_kept inv.counted moved live hashList⟩) stage
  apply zeroExcess_kept here threads
  rw [hashList, balance]

theorem Sized.kept (room : t.Sized w) (size : u.size = t.size) (hashList : u.hashList = t.hashList) : u.Sized w :=
  ⟨room.1.trans size.ge, by rw [hashList]; exact room.2⟩

/-- What has been added is counted. -/
theorem Inv.incZero {added : Nat} (inv : Inv sha K others s order t) (here : t.threads[k]? = some ⟨w, .incZero added⟩)
    (ran : incRefCnt zeroHash added t.storage = some ((), u.storage)) (threads : u.threads = t.threads.set k ⟨w, .lock⟩)
    (size : u.size = t.size) (hashList : u.hashList = t.hashList) : Inv sha K others s order u := by
  obtain ⟨room, fresh⟩ := inv.known_at here
  have moved : Advance sha t.storage u.storage := incRefCnt_within zeroHash added _ _ _ ran
  have counted := incRefCnt_counted inv.counted inv.counted.rep.zero.1 ran
  refine inv.storage here threads size hashList moved ?_ (inv.known.of_advance inv.counted.rep moved (incRefCnt_still ran).created) ?_
    ⟨room.kept size hashList, fresh⟩
  · apply counted.congr_of_ne
    intro o different
    have counts := count_held here threads o
    rw [hashList] at counts
    simp only [List.count_append, List.count_replicate, beq_iff_eq, different.symm, if_false, WriteStage.held, List.count_nil] at counts ⊢
    omega
  · rw [incRefCnt_zero ran, List.count_replicate_self]
    simp only [WriteStage.held, WriteStage.owed, List.count_nil]
    omega

/-- A hash that is written to gives another one, or stays. -/
theorem Inv.write {l : WriteLoop} {hash : Nat} {todo : List Nat} {r : Option Nat} (inv : Inv sha K others s order t)
    (injective : Set.InjOn sha K) (here : t.threads[k]? = some ⟨w, .write l⟩) (next : l.todo = hash :: todo)
    (reached : w.offset < l.fileOffset + chunkSize ∧ l.buf ≠ []) (live : t.storage.Live hash)
    (ran : writeHash sha hash (w.offset - l.fileOffset) (l.piece w.offset) t.storage = some (r, u.storage))
    (threads : u.threads = t.threads.set k ⟨w, r.elim (.write (l.advance w.offset hash [])) (fun newHsh => .incRefCnt newHsh l)⟩)
    (size : u.size = t.size) (hashList : u.hashList = t.hashList) : Inv sha K others s order u := by
  obtain ⟨room, underway⟩ := inv.known_at here
  have moved : Advance sha t.storage u.storage := writeHash_within hash _ _ _ _ _ ran
  obtain ⟨counted, known, later⟩ := underway.write injective inv.counted inv.known next reached live ran
  have held : (r.elim (.write (l.advance w.offset hash [])) (fun newHsh => .incRefCnt newHsh l) : WriteStage).held = (WriteStage.write l).held := by
    cases r with
    | none => exact congrArg (List.map Prod.snd) (List.append_nil l.replaced)
    | some newHsh => rfl
  have owed : (r.elim (.write (l.advance w.offset hash [])) (fun newHsh => .incRefCnt newHsh l) : WriteStage).owed = 0 := by
    cases r <;> rfl
  refine inv.storage here threads size hashList moved ?_ known ?_ ?_
  · apply counted.congr
    intro o
    have counts := count_held here threads o
    rw [held, hashList] at counts
    rw [List.count_append, List.count_append]
    omega
  · rw [held, owed, writeHash_zero inv.counted.rep ran]
    rfl
  · cases r with
    | none => exact ⟨room.kept size hashList, later⟩
    | some newHsh => exact ⟨room.kept size hashList, hash, todo, next, later⟩

/-- The new hash has a reference, and its place among the entries. -/
theorem Inv.incRefCnt {l : WriteLoop} {hash newHsh : Nat} {todo : List Nat} (inv : Inv sha K others s order t)
    (here : t.threads[k]? = some ⟨w, .incRefCnt newHsh l⟩) (next : l.todo = hash :: todo)
    (ran : incRefCnt newHsh 1 t.storage = some ((), u.storage))
    (threads : u.threads = t.threads.set k ⟨w, .write (l.advance w.offset newHsh [(hash, newHsh)])⟩)
    (size : u.size = t.size) (hashList : u.hashList = t.hashList) : Inv sha K others s order u := by
  obtain ⟨room, hash', todo', next', underway⟩ := inv.known_at here
  cases next.symm.trans next'
  have moved : Advance sha t.storage u.storage := incRefCnt_within newHsh 1 _ _ _ ran
  have counted := incRefCnt_counted inv.counted (incRefCnt_live inv.counted.rep ran) ran
  have held : (WriteStage.write (l.advance w.offset newHsh [(hash, newHsh)])).held = (WriteStage.incRefCnt newHsh l).held ++ [newHsh] :=
    List.map_append
  refine inv.storage here threads size hashList moved ?_ (inv.known.of_advance inv.counted.rep moved (incRefCnt_still ran).created) ?_
    ⟨room.kept size hashList, underway.advance inv.counted.rep moved⟩
  · apply counted.congr
    intro o
    have counts := count_held here threads o
    rw [held, hashList, List.count_append] at counts
    rw [List.count_append, List.count_append, List.count_append, List.replicate_one]
    omega
  · rw [incRefCnt_zero ran, held, List.count_append, List.replicate_one]
    simp only [WriteStage.owed]
    omega

/-- A replaced hash loses the reference that the list had to it. -/
theorem Inv.decRefCnt {hash : Nat} {hashes : List Nat} (inv : Inv sha K others s order t)
    (here : t.threads[k]? = some ⟨w, .decRefCnt (hash :: hashes)⟩) (ran : decRefCnt hash t.storage = some ((), u.storage))
    (threads : u.threads = t.threads.set k ⟨w, .decRefCnt hashes⟩) (size : u.size = t.size) (hashList : u.hashList = t.hashList) :
    Inv sha K others s order u := by
  obtain ⟨room, effective⟩ := inv.known_at here
  have moved : Advance sha t.storage u.storage := decRefCnt_within hash _ _ _ ran
  have counted : t.storage.Counted sha (hash :: (u.held ++ others)) := by
    apply inv.counted.congr
    intro o
    have counts := count_held here threads o
    rw [hashList] at counts
    simp only [WriteStage.held, List.count_cons, List.count_append] at counts ⊢
    omega
  refine inv.storage here threads size hashList moved (decRefCnt_counted counted ran) ?_ ?_ ⟨room.kept size hashList, effective⟩
  · exact inv.known.of_advance inv.counted.rep moved (decRefCnt_created ran)
  · have less := decRefCnt_zero inv.counted.rep ran
    simp only [WriteStage.held, WriteStage.owed, List.count_cons, List.count_nil] at less ⊢
    omega

/-- The hashes are read. A write that changes none of their chunks takes effect here. -/
theorem Inv.getRange {hashes : List Nat} (inv : Inv sha K others s order t) (closed : w.Closed K) (here : t.threads[k]? = some ⟨w, .getRange⟩)
    (shape : hashes = windowOf t.hashList w.buf.length w.offset) (long : hashes.length = numHashesInWrite w.buf.length w.offset)
    (threads : u.threads = t.threads.set k ⟨w, .write ⟨hashes, [], hashes, w.buf, w.firstHash * chunkSize, []⟩⟩)
    (storage : u.storage = t.storage) (size : u.size = t.size) (hashList : u.hashList = t.hashList) :
    ∃ order', Inv sha K others s order' u := by
  obtain ⟨room, fresh⟩ := inv.known_at here
  have sub : ∀ o ∈ hashes, o ∈ t.held ++ others := by
    intro o member
    rw [shape] at member
    exact List.mem_append_left _ (List.mem_append_left _ (List.mem_of_mem_drop (List.mem_of_mem_take member)))
  obtain ⟨after, replaced, ran, _, spliced, underway⟩ := underway_start inv.counted inv.known closed sub long
  by_cases idle : replaced = []
  · refine ⟨order ++ [k], inv.turn here threads storage hashList ⟨size.ge, Or.inl size⟩ rfl rfl (Or.inr ⟨fresh, rfl, ?_⟩)
      ⟨room.kept size hashList, storage ▸ underway _ (iff_of_true (List.mem_append_right _ List.mem_cons_self) idle)⟩⟩
    subst idle
    have windows := windowOf_map t.storage.content t.hashList w.buf.length w.offset
    rw [writeLoop_unchanged ran, shape, ← windows] at spliced
    have image := image_replaced (by rw [List.length_map]; exact room.2) (by rw [windows, List.length_map, ← shape]; exact long) spliced
    rw [WriteCall.firstHash, windowOf_split] at image
    exact image.symm
  · exact ⟨order, inv.turn here threads storage hashList ⟨size.ge, Or.inl size⟩ rfl rfl (Or.inl rfl)
      ⟨room.kept size hashList, storage ▸ underway _ (iff_of_false fresh idle)⟩⟩

/-- The entries go into the list where they were read; the write takes effect. -/
theorem Inv.updateRange {l : WriteLoop} (inv : Inv sha K others s order t) (here : t.threads[k]? = some ⟨w, .updateRange l⟩)
    (there : windowOf t.hashList w.buf.length w.offset = l.hashes) (threads : u.threads = t.threads.set k ⟨w, .decRefCnt (l.replaced.map Prod.fst)⟩)
    (storage : u.storage = t.storage) (size : u.size = t.size)
    (hashList : u.hashList = t.hashList.take w.firstHash ++ l.after ++ t.hashList.drop (w.firstHash + l.after.length)) :
    Inv sha K others s (order ++ [k]) u := by
  obtain ⟨room, next, replaces, underway⟩ := inv.known_at here
  have live : ∀ o ∈ l.hashes ++ l.replaced.map Prod.snd, t.storage.Live o := by
    intro o member
    apply inv.counted.live o
    apply List.mem_append_left
    obtain old | new := List.mem_append.mp member
    · rw [← there] at old
      exact List.mem_append_left _ (List.mem_of_mem_drop (List.mem_of_mem_take old))
    · exact List.mem_append_right _ (List.mem_flatMap.mpr ⟨_, List.mem_of_getElem? here, new⟩)
  obtain ⟨settled, length, long, exchanged, spliced⟩ := underway.finish next live
  have fresh : k ∉ order := fun member => replaces (settled.mp member)
  rw [length] at hashList
  have parts : t.hashList = t.hashList.take w.firstHash ++ l.hashes ++ t.hashList.drop (w.firstHash + numHashesInWrite w.buf.length w.offset) := by
    rw [← there, WriteCall.firstHash, windowOf_split]
  have exchanged' : ∀ o, u.hashList.count o + (l.replaced.map Prod.fst).count o = t.hashList.count o + (l.replaced.map Prod.snd).count o := by
    intro o
    have entries := exchanged o
    have before := congrArg (List.count o) parts
    rw [List.count_append, List.count_append] at before
    rw [hashList, List.count_append, List.count_append]
    omega
  have same : u.hashList.length = t.hashList.length := by
    have before := congrArg List.length parts
    rw [List.length_append, List.length_append] at before
    rw [hashList, List.length_append, List.length_append]
    omega
  refine inv.moved here threads (storage ▸ Advance.refl sha _) ⟨size.ge, Or.inl size⟩ same.ge ?_ (storage ▸ inv.known) ?_
    (Or.inr ⟨fresh, rfl, ?_⟩) ⟨⟨room.1.trans size.ge, room.2.trans same.ge⟩, List.mem_append_right _ List.mem_cons_self⟩
  · rw [storage]
    apply inv.counted.congr
    intro o
    have counts := count_held here threads o
    have entries := exchanged' o
    simp only [WriteStage.held] at counts
    rw [List.count_append, List.count_append]
    omega
  · apply zeroExcess_kept here threads
    have entries := exchanged' zeroHash
    rw [storage]
    simp only [WriteStage.held, WriteStage.owed]
    omega
  · have windows := windowOf_map t.storage.content t.hashList w.buf.length w.offset
    rw [← there, ← windows] at spliced
    rw [image_contents, image_contents, hashList, storage, List.map_append, List.map_append, List.map_take, List.map_drop]
    exact image_replaced (by rw [List.length_map]; exact room.2) (by rw [windows, List.length_map, there]; exact long) spliced

/-- A round of the loop of a thread. -/
theorem Inv.stepLoop {l : WriteLoop} (inv : Inv sha K others s order t) (injective : Set.InjOn sha K) (here : t.threads[k]? = some ⟨w, .write l⟩)
    (ordered : ∀ hash ∈ l.todo.head?, w.offset < l.fileOffset + chunkSize ∧ l.buf ≠ [] → t.storage.Live hash)
    (stepped : t.stepLoop sha k w l = some u) : Inv sha K others s order u := by
  obtain ⟨room, underway⟩ := inv.known_at here
  rw [SharedFile.stepLoop] at stepped
  cases next : l.todo with
  | nil =>
    rw [next] at stepped
    dsimp only at stepped
    split at stepped
    · cases stepped
      have settled := underway.idle_iff next
      by_cases idle : l.replaced = []
      · have empty : (WriteStage.write l).held = [] := by rw [WriteStage.held, idle, List.map_nil]
        rw [if_pos idle]
        exact inv.turn here rfl rfl rfl ⟨le_rfl, Or.inl rfl⟩ empty.symm rfl (Or.inl rfl) ⟨room, settled.mpr idle⟩
      · rw [if_neg idle]
        exact inv.turn here rfl rfl rfl ⟨le_rfl, Or.inl rfl⟩ rfl rfl (Or.inl rfl) ⟨room, next, idle, underway⟩
    · cases stepped
  | cons hash todo =>
    rw [next] at stepped ordered
    dsimp only at stepped
    split at stepped
    · rename_i reached
      obtain ⟨⟨r, mid⟩, ran, rfl⟩ := Option.map_eq_some_iff.mp stepped
      apply inv.write (u := _) injective here next reached (ordered hash rfl reached) (r := r) (by cases r <;> exact ran)
      all_goals cases r <;> rfl
    · rename_i elsewhere
      cases stepped
      exact inv.turn here rfl rfl rfl ⟨le_rfl, Or.inl rfl⟩ rfl rfl (Or.inl rfl) ⟨room, underway.pass next elsewhere⟩

/-- A step that is in order keeps the invariant. -/
theorem Inv.step (inv : Inv sha K others s order t) (begins : Begins sha K others s) (ordered : t.Ordered k) (stepped : t.step sha k = some u) :
    ∃ order', Inv sha K others s order' u := by
  obtain ⟨⟨w, stage⟩, here, ran⟩ := Option.bind_eq_some_iff.mp stepped
  have asked := ordered _ here
  have closed : w.Closed K := begins.closed w (inv.calls ▸ List.mem_map_of_mem (List.mem_of_getElem? here))
  have ok := inv.known_at here
  cases stage with
  | compareSize =>
    cases ran
    refine ⟨order, inv.turn here rfl rfl rfl ⟨le_rfl, Or.inl rfl⟩ ?_ ?_ (Or.inl rfl) ?_⟩
    · split <;> rfl
    · split <;> rfl
    · split
      · exact ok
      · exact ⟨Nat.not_lt.mp ‹_›, ok⟩
  | setSize =>
    cases ran
    exact ⟨order, inv.turn here rfl rfl rfl ⟨asked, Or.inr rfl⟩ rfl rfl (Or.inl rfl) ⟨le_rfl, ok⟩⟩
  | measure =>
    cases ran
    have enough : numChunks w.stop ≤ numChunks t.size + unaligned w.offset :=
      (numChunks_le.mpr (ok.1.trans (numChunks_le.mp le_rfl))).trans (Nat.le_add_right _ _)
    exact ⟨order, inv.turn here rfl rfl rfl ⟨le_rfl, Or.inl rfl⟩ rfl rfl (Or.inl rfl) ⟨ok.1, enough, ok.2⟩⟩
  | compare n =>
    rw [stepStage] at ran
    split at ran
    · rename_i long
      cases ran
      exact ⟨order, inv.turn here rfl rfl rfl ⟨le_rfl, Or.inl rfl⟩ rfl rfl (Or.inl rfl) ⟨⟨ok.1, long ▸ ok.2.1⟩, ok.2.2⟩⟩
    · split at ran
      · cases ran
        exact ⟨order, inv.turn here rfl rfl rfl ⟨le_rfl, Or.inl rfl⟩ rfl rfl (Or.inl rfl) ok⟩
      · cases ran
  | grow n =>
    cases ran
    exact ⟨order, inv.grow here asked rfl rfl rfl rfl⟩
  | incZero added =>
    obtain ⟨⟨_, mid⟩, counted, rfl⟩ := Option.map_eq_some_iff.mp ran
    exact ⟨order, inv.incZero here counted rfl rfl rfl⟩
  | lock =>
    rw [stepStage] at ran
    split at ran
    · cases ran
      exact ⟨order, inv.turn here rfl rfl rfl ⟨le_rfl, Or.inl rfl⟩ rfl rfl (Or.inl rfl) ok⟩
    · cases ran
  | getRange =>
    rw [stepStage] at ran
    dsimp only at ran
    split at ran
    · rename_i long
      cases ran
      exact inv.getRange closed here rfl long rfl rfl rfl rfl
    · cases ran
  | write l => exact ⟨order, inv.stepLoop begins.injective here asked ran⟩
  | incRefCnt newHsh l =>
    obtain ⟨_, hash, todo, next, _⟩ := ok
    obtain ⟨⟨_, mid⟩, counted, rfl⟩ := Option.map_eq_some_iff.mp ran
    refine ⟨order, inv.incRefCnt here next counted ?_ rfl rfl⟩
    rw [next]
    rfl
  | updateRange l =>
    rw [stepStage] at ran
    split at ran
    · cases ran
      exact ⟨order ++ [k], inv.updateRange here asked rfl rfl rfl rfl⟩
    · cases ran
  | decRefCnt hashes =>
    cases hashes with
    | nil =>
      cases ran
      exact ⟨order, inv.turn here rfl rfl rfl ⟨le_rfl, Or.inl rfl⟩ rfl rfl (Or.inl rfl) ok⟩
    | cons hash hashes =>
      obtain ⟨⟨_, mid⟩, counted, rfl⟩ := Option.map_eq_some_iff.mp ran
      exact ⟨order, inv.decRefCnt here counted rfl rfl rfl⟩
  | unlock =>
    cases ran
    exact ⟨order, inv.turn here rfl rfl rfl ⟨le_rfl, Or.inl rfl⟩ rfl rfl (Or.inl rfl) ok⟩
  | done => cases ran

theorem held_of_stages (t : SharedFile) (stages : ∀ th ∈ t.threads, th.stage.held = []) : t.held = t.hashList := by
  rw [held, List.flatMap_eq_nil_iff.mpr stages, List.append_nil]

theorem Begins.inv (begins : Begins sha K others s) : Inv sha K others s [] s := by
  have held : s.held = s.hashList := held_of_stages s (fun th member => by rw [begins.stages th member]; rfl)
  refine ⟨rfl, by rw [held]; exact begins.counted, begins.known, rfl, List.nodup_nil, ?_, ⟨le_rfl, Or.inl rfl⟩, begins.long, ?_, rfl⟩
  · exact fun k member => absurd member List.not_mem_nil
  · intro k th here
    rw [begins.stages th (List.mem_of_getElem? here)]
    exact List.not_mem_nil

/-- When all threads are done, each has taken effect once. -/
theorem Inv.finish (inv : Inv sha K others s order t) (begins : Begins sha K others s) : Serialised sha others s t := by
  refine ⟨inv.counted, inv.zeroExcess, fun finished => ?_⟩
  have ok : ∀ (k : Nat) (th : Writer), t.threads[k]? = some th → t.Sized th.call ∧ k ∈ order := by
    intro k th here
    have known := inv.stages k th here
    rw [finished th (List.mem_of_getElem? here)] at known
    exact known
  have sized : ∀ w ∈ s.calls, t.Sized w := by
    intro w member
    rw [← inv.calls] at member
    obtain ⟨th, inside, rfl⟩ := List.mem_map.mp member
    obtain ⟨k, here⟩ := List.mem_iff_getElem?.mp inside
    exact (ok k th here).1
  have places : ∀ k, k ∈ order ↔ k < s.calls.length := by
    refine fun k => ⟨inv.inside k, fun inside => ?_⟩
    rw [← inv.calls, SharedFile.calls, List.length_map] at inside
    exact (ok k _ (List.getElem?_eq_getElem inside)).2
  have perm := Schedule.places_perm inv.nodup places
  have size : t.size = serialSize s.size (order.filterMap (fun k => s.calls[k]?)) := by
    apply eq_serialSize inv.size.1 (fun w member => (sized w (perm.mem_iff.mp member)).1)
    obtain kept | ⟨w, member, raised⟩ := inv.size.2
    · exact Or.inl kept
    · exact Or.inr ⟨w, perm.mem_iff.mpr member, raised⟩
  have long : numChunks t.size ≤ t.hashList.length := by
    obtain kept | ⟨w, member, raised⟩ := inv.size.2
    · rw [kept]
      exact inv.long
    · rw [raised]
      exact (sized w member).2
  have list : ∀ u : SharedFile, u.contents.hashList.length = u.hashList.length := fun u => List.length_map _
  refine ⟨held_of_stages t (fun th member => by rw [finished th member]; rfl), ?_, _, perm, size, inv.image, fun after written => ?_⟩
  · apply List.sum_eq_zero
    intro n member
    obtain ⟨th, inside, rfl⟩ := List.mem_map.mp member
    rw [finished th inside]
    rfl
  · obtain ⟨size', image', long'⟩ := writeAll_serial (begins.long.trans (list s).ge) written
    have same : t.size = after.size := size.trans size'.symm
    exact ⟨same, text_eq_of_image same (inv.image.trans image'.symm) (long.trans (list t).ge) long'⟩

end Steps

section Runs
open DataFs

/-- The chunks that are zero but for their first bytes, which the sum shows. -/
def shortChunks : Set Chunk := {c | c.data.drop 32 = Chunk.zero.data.drop 32}

theorem injOn_prefixSum : Set.InjOn prefixSum shortChunks := by
  intro c inside d inside' same
  have first : c.data.take 32 = d.data.take 32 := congrArg (fun sum : Sha256 => sum.bytes) same
  have data : c.data = d.data := by
    rw [← List.take_append_drop 32 c.data, ← List.take_append_drop 32 d.data, first, inside.trans inside'.symm]
  cases c
  cases d
  cases data
  rfl

theorem writeLoop_nothing (offset : Nat) (chunks : List Chunk) (fileOffset : Nat) :
    writeLoop quietOps offset chunks [] fileOffset () = some ((chunks, []), ()) := by
  induction chunks generalizing fileOffset with
  | nil => rfl
  | cons c chunks ih =>
    rw [writeLoop, if_neg (fun here => here.2 rfl), Run.bind_of_some (ih _)]
    rfl

/-- A short input at the beginning stays within the first bytes of the first chunk. -/
theorem closed_shortChunks {buf : Str} (short : buf.length ≤ 32) (filled : buf ≠ []) : (WriteCall.mk buf 0).Closed shortChunks := by
  intro chunks after replaced inside ran
  have start : (WriteCall.mk buf 0).firstHash * chunkSize = 0 := by rw [WriteCall.firstHash, Nat.zero_div, Nat.zero_mul]
  have wide : 32 ≤ chunkSize := by decide
  rw [start] at ran
  cases chunks with
  | nil =>
    obtain ⟨_, _, asserted, _⟩ := Run.bind_eq_some.mp ran
    exact absurd (Run.assert_eq_some.mp asserted).1 filled
  | cons c chunks =>
    have others : ∀ e ∈ chunks, e ∈ shortChunks := fun e member => inside e (List.mem_cons_of_mem c member)
    obtain ⟨d, data, written⟩ := quiet_write c (show 0 + buf.length ≤ chunkSize by omega) ()
    have kept : d ∈ shortChunks := by
      change d.data.drop 32 = _
      rw [data, drop_splice (Nat.zero_le _) (by omega)]
      exact inside c List.mem_cons_self
    have whole : min buf.length (chunkSize - (0 - 0)) = buf.length := Nat.min_eq_left (short.trans wide)
    have rest := writeLoop_nothing 0 chunks (0 + chunkSize)
    rw [writeLoop, if_pos ⟨show 0 < 0 + chunkSize by decide, filled⟩] at ran
    dsimp only at ran
    rw [whole, List.take_length, List.drop_length, Nat.sub_zero, Run.bind_of_some written] at ran
    by_cases same : d = c
    · rw [if_pos same] at ran
      dsimp only at ran
      rw [Run.bind_of_some rest] at ran
      cases ran
      exact inside
    · rw [if_neg same] at ran
      dsimp only at ran
      rw [Run.bind_of_some (show quietOps.incRefCnt d 1 () = some ((), ()) from rfl), Run.bind_of_some rest] at ran
      cases ran
      intro e member
      obtain rfl | member := List.mem_cons.mp member
      · exact kept
      · exact others e member

/-- Two writes to the first bytes of a file with one chunk of zeros. -/
def twoWrites : SharedFile := ⟨zeroOnly, chunkSize, [zeroHash], [⟨⟨[1, 1], 0⟩, .compareSize⟩, ⟨⟨[2], 0⟩, .compareSize⟩]⟩

theorem begins_twoWrites : Begins prefixSum shortChunks [] twoWrites where
  stages th member := by
    simp only [twoWrites, List.mem_cons, List.not_mem_nil, or_false] at member
    rcases member with rfl | rfl <;> rfl
  counted := by
    apply counted_zeroOnly.congr_of_ne
    intro o different
    rw [List.append_nil]
    exact List.count_eq_zero.mpr (fun member => different (List.mem_singleton.mp member))
  known o live := by
    rw [live_zeroOnly live]
    exact congrArg (fun c : Chunk => c.data.drop 32) (content_zeroHash rep_zeroOnly)
  long := by decide
  injective := injOn_prefixSum
  closed w member := by
    simp only [calls, twoWrites, List.map_cons, List.map_nil, List.mem_cons, List.not_mem_nil, or_false] at member
    rcases member with rfl | rfl
    · exact closed_shortChunks (by decide) (by decide)
    · exact closed_shortChunks (by decide) (by decide)

/-- Both threads read the list before one of them updates it. -/
def lostUpdate : List Nat := List.replicate 5 0 ++ List.replicate 5 1 ++ List.replicate 7 0 ++ List.replicate 7 1

end Runs

end SharedFile

end CloudCryptFS.Filesystem
