import CloudCryptFS.Filesystem.CtdChains

/-! The two chains of an inode together. What an operation adds to one of them leaves the
other as it is. -/

namespace CloudCryptFS.Filesystem
open Util Pages Script.Lexer

namespace Metadata
variable {s t : Metadata} {l m new : List BucketIndex}

/-- The records that the inode goes on in, for its hashes and for its metadata. -/
structure Chained (s : Metadata) (l m : List BucketIndex) : Prop where
  next : Trail s.ctds InodeCtd.next (link s.inode.nextID) l
  metas : Trail s.ctds InodeCtd.next (link s.inode.metaID) m
  own : ∀ i ∈ l ++ m, s.Own i

/-- New records come to the chains of the inode. -/
structure Extended (s t : Metadata) (chain new : List BucketIndex) : Prop where
  grown : Grown { s with inode := t.inode } t chain new
  myID : t.inode.myID = s.inode.myID
  size : t.inode.size = s.inode.size

namespace Chained
variable (chained : s.Chained l m)
include chained

theorem unique {l' m' : List BucketIndex} (other : s.Chained l' m') : l = l' ∧ m = m' :=
  ⟨chained.next.unique other.next, chained.metas.unique other.metas⟩

/-- Records that are not touched are a chain as before. -/
theorem congr (inode : t.inode.nextID = s.inode.nextID ∧ t.inode.metaID = s.inode.metaID) (same : ∀ i ∈ l ++ m, t.ctds i = s.ctds i) :
    t.Chained l m := by
  refine ⟨?_, ?_, fun i member => ?_⟩
  · rw [inode.1]
    exact chained.next.congr (fun i member => same i (List.mem_append_left m member))
  · rw [inode.2]
    exact chained.metas.congr (fun i member => same i (List.mem_append_right l member))
  · rw [Own, same i member]
    exact chained.own i member

theorem grown_next (distinct : (l ++ m).Nodup) (apart : ∀ i ∈ l ++ m, ¬s.accounting.Free i) (grown : Grown { s with inode := t.inode } t l new)
    (metaID : t.inode.metaID = s.inode.metaID) (path : Trail t.ctds InodeCtd.next (link t.inode.nextID) (l ++ new)) :
    t.Chained (l ++ new) m ∧ Grown { s with inode := t.inode } t (l ++ m) new := by
  have same : ∀ i ∈ m, t.ctds i = s.ctds i := by
    intro i member
    apply grown.others i
    · exact fun other => List.disjoint_of_nodup_append distinct other member
    · exact fun other => apart i (List.mem_append_right l member) (grown.fresh i other)
  refine ⟨⟨path, ?_, fun i member => ?_⟩, grown.mono (List.subset_append_left l m)⟩
  · rw [metaID]
    exact chained.metas.congr same
  · cases List.mem_append.mp member with
    | inl here => exact grown.own (fun j inside => chained.own j (List.mem_append_left m inside)) i here
    | inr there =>
      rw [Own, same i there]
      exact chained.own i (List.mem_append_right l there)

theorem grown_metas (distinct : (l ++ m).Nodup) (apart : ∀ i ∈ l ++ m, ¬s.accounting.Free i) (grown : Grown { s with inode := t.inode } t m new)
    (nextID : t.inode.nextID = s.inode.nextID) (path : Trail t.ctds InodeCtd.next (link t.inode.metaID) (m ++ new)) :
    t.Chained l (m ++ new) ∧ Grown { s with inode := t.inode } t (l ++ m) new := by
  have same : ∀ i ∈ l, t.ctds i = s.ctds i := by
    intro i member
    apply grown.others i
    · exact fun other => List.disjoint_of_nodup_append distinct member other
    · exact fun other => apart i (List.mem_append_left m member) (grown.fresh i other)
  refine ⟨⟨?_, path, fun i member => ?_⟩, grown.mono (List.subset_append_right l m)⟩
  · rw [nextID]
    exact chained.next.congr same
  · cases List.mem_append.mp member with
    | inl here =>
      rw [Own, same i here]
      exact chained.own i (List.mem_append_left m here)
    | inr there => exact grown.own (fun j inside => chained.own j (List.mem_append_right l inside)) i there

/-- `rest` adds to the chain for the hashes. -/
theorem rest {H : Type} {bucketIndex : H → BucketIndex} {refcnt : H → Int} {rested : H → Bool} {hashes : List H} {b : Bool}
    (alive : ∀ h ∈ hashes, 0 < refcnt h) (distinct : (l ++ m).Nodup) (apart : ∀ i ∈ l ++ m, ¬s.accounting.Free i) (ready : s.accounting.Ready)
    (ran : Metadata.rest bucketIndex refcnt rested hashes s = some (b, t)) :
    ∃ new, t.Chained (l ++ new) m ∧ s.Extended t (l ++ m) new := by
  have inside : ∀ i ∈ l, ¬s.accounting.Free i := fun i member => apart i (List.mem_append_left m member)
  cases hashes with
  | nil =>
    cases ran
    refine ⟨[], ?_, ((Grown.refl ready).mono (List.nil_subset _)).withInode _, rfl, rfl⟩
    rw [List.append_nil]
    exact chained.congr ⟨rfl, rfl⟩ (fun _ _ => rfl)
  | cons h hashes =>
    obtain ⟨u, new, looped, grown, ⟨ctd, nextID, inode⟩, path, _⟩ := @restLoop_inode H bucketIndex refcnt (h :: hashes) alive s l 0 chained.next
      (fun i member => chained.own i (List.mem_append_left m member)) inside ready (show 0 < MetaPtr.inode.imax by decide)
    rw [Metadata.rest, if_pos (List.cons_ne_nil h hashes), Run.bind_of_some (Run.get_apply s), Run.bind_of_some looped] at ran
    cases ran
    have metaID : t.inode.metaID = s.inode.metaID := by rw [inode]
    obtain ⟨chained', grown'⟩ := chained.grown_next distinct apart grown metaID path
    exact ⟨new, chained', grown', by rw [inode], by rw [inode]⟩

/-- `storeMetaDataInINode` adds to the other one. -/
theorem storeMetaDataInINode {input : Str} (distinct : (l ++ m).Nodup) (apart : ∀ i ∈ l ++ m, ¬s.accounting.Free i) (ready : s.accounting.Ready)
    (ran : Metadata.storeMetaDataInINode input s = some ((), t)) : ∃ new, t.Chained l (m ++ new) ∧ s.Extended t (l ++ m) new := by
  have short : input.length < 2 ^ 32 - 1 := by
    obtain ⟨_, _, asserted, _⟩ := Run.bind_eq_some.mp ran
    exact (Run.assert_eq_some.mp asserted).1
  obtain ⟨c, rest, new, tail, u, stored, inode, nonzero, shape, path, _, grown⟩ := storeMetaDataInINode_spec short chained.metas
    (fun i member => apart i (List.mem_append_right l member)) ready
  rw [stored] at ran
  cases ran
  have nextID : t.inode.nextID = s.inode.nextID := by rw [inode]
  have head : link t.inode.metaID = some c := by
    rw [inode]
    exact if_neg nonzero
  obtain ⟨chained', grown'⟩ := chained.grown_metas distinct apart grown nextID (by
    rw [head, shape]
    exact path)
  exact ⟨new, chained', grown', by rw [inode], by rw [inode]⟩

end Chained

end Metadata

end CloudCryptFS.Filesystem
