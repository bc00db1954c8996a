import CloudCryptFS.Filesystem.Frames

/-! What the removal of a last link gives back, in every state that a mount comes to. -/

namespace CloudCryptFS.Filesystem
open Util Pages Script Script.Lexer Script.Json

namespace Volume
variable {sha : Chunk → Sha256} {s t : Volume} {i parent : BucketIndex} {n : FileNode} {pending l m : List BucketIndex} {extra : List Nat}

section Last

variable [Floats]

/-- While a link goes, the indexes of the inode stay its own. -/
theorem dropLink_spec {d : Volume} {r : Except EE (Option BucketIndex)} (sound : s.Sound sha (i :: (l ++ m) ++ pending) extra) (absent : i ∉ l ++ m)
    (here : s.node i = some n) (ran : dropLink sha i s = some (r, d)) :
    d.Sound sha (i :: (l ++ m) ++ pending) extra ∧ (∃ n', d.node i = some n' ∧ n'.chunk = n.chunk ∧ n'.hashList = n.hashList) ∧
      (∀ c ∈ l ++ m, d.slots c = s.slots c) ∧
      (n.type ≠ .INVALID → (n.type ≠ .DIR → n.nlinks = 1) → r = .error .not_empty ∨ r = .ok (some i)) := by
  obtain ⟨n', _, got, ran⟩ := Run.bind_eq_some.mp ran
  obtain ⟨here', rfl⟩ := getNode_eq_some.mp got
  cases here.symm.trans here'
  have edited : ∀ f : FileNode → FileNode, (∀ n, (f n).chunk = n.chunk ∧ (f n).hashList = n.hashList) → modifyNode i f s = some ((), d) →
      d.Sound sha (i :: (l ++ m) ++ pending) extra ∧ (∃ n', d.node i = some n' ∧ n'.chunk = n.chunk ∧ n'.hashList = n.hashList) ∧
        ∀ c ∈ l ++ m, d.slots c = s.slots c := by
    intro f same ran
    obtain ⟨n', here', rfl⟩ := modifyNode_eq_some.mp ran
    cases here.symm.trans here'
    refine ⟨sound.setSlot List.mem_cons_self _, ⟨f n, node_eq_some.mpr (Function.update_self i _ _), same n⟩, fun c member => ?_⟩
    exact Function.update_of_ne (fun equal : c = i => absent (equal ▸ member)) _ _
  split at ran
  · obtain ⟨full, mid, asked, ran⟩ := Run.bind_eq_some.mp ran
    obtain ⟨sound', same⟩ := isFullDir_keeps i _ _ _ asked sound
    have kept : ∀ c ∈ i :: (l ++ m), mid.slots c = s.slots c := fun c member => same c (List.mem_append_left pending member)
    have node : mid.node i = some n := (node_congr (kept i List.mem_cons_self)).trans here
    split at ran
    · cases ran
      exact ⟨sound', ⟨n, node, rfl, rfl⟩, fun c member => kept c (List.mem_cons_of_mem i member), fun _ _ => Or.inl rfl⟩
    · cases ran
      exact ⟨sound', ⟨n, node, rfl, rfl⟩, fun c member => kept c (List.mem_cons_of_mem i member), fun _ _ => Or.inr rfl⟩
  · rename_i notDir
    split at ran
    · obtain ⟨_, _, dropped, ran⟩ := Run.bind_eq_some.mp ran
      cases ran
      obtain ⟨sound', node, slots⟩ := edited (fun n => { n with nlinks := n.nlinks - 1 }) (fun _ => ⟨rfl, rfl⟩) dropped
      refine ⟨sound', node, slots, fun _ single => Or.inr ?_⟩
      rw [single notDir]
      rfl
    · rename_i others
      cases ran
      refine ⟨sound, ⟨n, here, rfl, rfl⟩, fun _ _ => rfl, fun kind => ?_⟩
      cases shape : n.type <;> simp_all

/-- Removing the last link of a file empties the slots of its inode and of both chains and posts
their indexes, each of them once. Apart from the rewrite of the parent, each hash loses its
places in the list of the file, and the indexes of those that come to zero are posted. -/
theorem unlink_deletes {fuel fuel' : Nat} {ops : List VolumeOp} {s₀ : Volume} {name : Name} {granted allowed : Bool}
    (sound : s₀.Sound sha [] []) (ran : performAll sha fuel ops s₀ = some ((), s)) (here : s.node i = some n) (kind : n.type ≠ .INVALID)
    (single : n.type ≠ .DIR → n.nlinks = 1) (other : parent ≠ i)
    (unlinked : unlink sha fuel' parent i name granted allowed s = some (.ok, t)) :
    ∃ l m d r posted, (s.metadata n).Chained l m ∧ dropLink sha i s = some (.ok (some i), d) ∧
      removeNode sha parent name allowed true d = some (.ok, r) ∧ Deleted r t i n l m posted := by
  have sound' := sound_performAll sound ran
  obtain ⟨l, m, own, chained, focused⟩ := sound'.focus List.not_mem_nil here
  obtain ⟨_, _, _, _, taken, _⟩ := id focused
  have absent : i ∉ l ++ m := (List.nodup_cons.mp (List.nodup_append.mp (List.nodup_append.mp taken.distinct).1).1).1
  unfold unlink at unlinked
  split at unlinked
  · obtain ⟨result, d, dropped, unlinked⟩ := Run.bind_eq_some.mp unlinked
    obtain ⟨focused₁, ⟨n', here₁, chunk, hashes⟩, same₁, cases'⟩ := dropLink_spec focused absent here dropped
    cases cases' kind single with
    | inl full =>
      rw [full] at unlinked
      cases unlinked
    | inr last =>
      rw [last] at unlinked dropped
      obtain ⟨ret, r, removed, unlinked⟩ := Run.bind_eq_some.mp unlinked
      have permitted : ret = .ok := by
        split at unlinked
        · assumption
        · cases unlinked
          rfl
      rw [permitted] at removed unlinked
      have chained₁ : (d.metadata n').Chained l m :=
        chained.congr ⟨congrArg _ chunk, congrArg _ chunk⟩ (fun c member => ctds_congr (same₁ c member))
      have outside : parent ∉ i :: (l ++ m) ++ [] := by
        rw [List.append_nil]
        intro member
        have inside := List.mem_of_ne_of_mem other member
        obtain ⟨p, found, _⟩ := chained.own parent inside
        have none : d.node parent = none := by
          unfold node
          rw [same₁ parent inside, ctds_eq_some.mp found]
          rfl
        cases (removeNode_none none removed).2
      obtain ⟨focused₂, same₂⟩ := removeNode_keeps outside name allowed true _ _ _ removed focused₁
      have kept : ∀ c ∈ i :: (l ++ m), r.slots c = d.slots c := fun c member => same₂ c (List.mem_append_left [] member)
      have here₂ : r.node i = some n' := (node_congr (kept i List.mem_cons_self)).trans here₁
      have chained₂ : (r.metadata n').Chained l m :=
        chained₁.congr ⟨rfl, rfl⟩ (fun c member => ctds_congr (kept c (List.mem_cons_of_mem i member)))
      have myID : n'.chunk.myID = i := by rw [chunk, own]
      have sound₂ : r.Sound sha [] [] := by
        rw [← hashes] at focused₂
        exact focused₂.unfocus here₂ myID chained₂
      have deletes : deleteFile sha fuel' i r = some ((), t) := by
        rw [if_pos rfl] at unlinked
        obtain ⟨_, _, deleted, rest⟩ := Run.bind_eq_some.mp unlinked
        cases rest
        exact deleted
      obtain ⟨_, l', m', posted, deleted⟩ := deleteFile_spec sound₂ List.not_mem_nil here₂ deletes
      obtain ⟨rfl, rfl⟩ := chained₂.unique deleted.chained
      refine ⟨l, m, d, r, posted, chained, dropped, removed, ?_⟩
      exact ⟨chained₂.congr ⟨congrArg InodeChunk.nextID chunk.symm, congrArg InodeChunk.metaID chunk.symm⟩ (fun _ _ => rfl), deleted.distinct,
        deleted.apart, deleted.posts, deleted.free, deleted.slots, hashes ▸ deleted.released, deleted.freed⟩
  · cases unlinked

end Last

section New

/-- A new mount has a new zero hash, which is referred to once: the places in the files are not
counted for it. -/
def remount (s : Volume) : Volume :=
  { s with storage := s.storage.recount Storage.zeroHash (1 - (s.storage.objects Storage.zeroHash).refcnt) }

theorem sound_remount (sound : s.Sound sha [] extra) : (remount s).Sound sha [] extra := by
  exact sound.withStorage (fun _ counted => counted.recount_zero _)

/-- A file with a chunk of its own and so many hashes that its list needs another record. -/
def chainedFile : List VolumeOp := [.mkobject rootIndex [97] (Mode.TYPE_REG ||| 0o644) true, .write 258 [1] 0, .truncate 258 (496 * chunkSize)]

theorem unlink_deletes_chainedFile : ∃ s t n l m d r posted, performAll DataFs.prefixSum 4 chainedFile newVolume = some ((), s) ∧
    s.node 258 = some n ∧ n.chunk.nextID = 259 ∧ (t.storage.objects 1).deleted = true ∧ (s.metadata n).Chained l m ∧
      dropLink DataFs.prefixSum 258 s = some (.ok (some 258), d) ∧ removeNode DataFs.prefixSum rootIndex [97] true true d = some (.ok, r) ∧
        Deleted r t 258 n l m posted := by
  have outcome : ((performAll DataFs.prefixSum 4 chainedFile newVolume).bind (fun x =>
      (unlink DataFs.prefixSum 4 rootIndex 258 [97] true true x.2).map (fun y => (y.1, (x.2.node 258).map (fun n => (n.mode, n.nlinks)),
        (x.2.node 258).map (fun n => n.chunk.nextID), (y.2.storage.objects 1).deleted)))) =
      some (.ok, some (Mode.TYPE_REG ||| 0o644, 1), some 259, true) := by decide +kernel
  obtain ⟨⟨_, s⟩, performed, rest⟩ := Option.bind_eq_some_iff.mp outcome
  obtain ⟨⟨e, t⟩, unlinked, shape⟩ := Option.map_eq_some_iff.mp rest
  obtain ⟨rfl, shape⟩ := Prod.mk.inj shape
  obtain ⟨node, shape⟩ := Prod.mk.inj shape
  obtain ⟨next, deleted⟩ := Prod.mk.inj shape
  obtain ⟨n, here, links⟩ := Option.map_eq_some_iff.mp node
  obtain ⟨mode, single⟩ := Prod.mk.inj links
  rw [here] at next
  have kind : n.type ≠ .INVALID := by
    rw [FileNode.type, mode]
    decide
  obtain ⟨l, m, d, r, posted, facts⟩ := unlink_deletes sound_newVolume performed here kind (fun _ => single) (by decide) unlinked
  exact ⟨s, t, n, l, m, d, r, posted, performed, here, Option.some.inj next, deleted, facts⟩

/-- After a new mount the zero hash comes to zero with such a file, and keeps its index. -/
theorem sparse_remounted : ∃ s t, performAll DataFs.prefixSum 1 sparseFile newVolume = some ((), s) ∧ (remount s).Sound DataFs.prefixSum [] [] ∧
    unlink DataFs.prefixSum 1 rootIndex 258 [97] true true (remount s) = some (.ok, t) ∧
    (t.storage.objects Storage.zeroHash).refcnt = 0 ∧ ¬t.storage.accounting.Free (t.storage.objects Storage.zeroHash).bucketIndex := by
  have outcome : ((performAll DataFs.prefixSum 1 sparseFile newVolume).bind (fun x =>
      (unlink DataFs.prefixSum 1 rootIndex 258 [97] true true (remount x.2)).map (fun y => (y.1, (y.2.storage.objects Storage.zeroHash).refcnt)))) =
      some (.ok, 0) := by decide +kernel
  obtain ⟨⟨_, s⟩, performed, rest⟩ := Option.bind_eq_some_iff.mp outcome
  obtain ⟨⟨e, t⟩, unlinked, shape⟩ := Option.map_eq_some_iff.mp rest
  obtain ⟨rfl, zero⟩ := Prod.mk.inj shape
  have sound := sound_remount (sound_performAll sound_newVolume performed)
  have absent : ∀ {i : BucketIndex}, i ∈ [] → (remount s).node i = none := fun member => absurd member List.not_mem_nil
  obtain ⟨⟨_, _, _, _, _, counted⟩, _⟩ := unlink_frame absent absent unlinked sound
  exact ⟨s, t, performed, sound, unlinked, zero, counted.rep.unavailable _ counted.rep.zero.1⟩

end New

end Volume

end CloudCryptFS.Filesystem
