import CloudCryptFS.Filesystem.Volume

/-! Whose the slots are. Each index in use belongs to one inode, as its own slot or as one on its
chains, and the counts of the hashes stand for the places in the lists of all files. While an
inode is worked on, its indexes and its hashes are counted apart from those of the others. -/

namespace CloudCryptFS.Filesystem
open Util Script Script.Lexer Script.Json
open BucketIndex (bucket)

section Taken

/-- Indexes that are not free, none of them twice. -/
structure Accounting.Taken (a : Accounting) (l : List BucketIndex) : Prop where
  ready : a.Ready
  distinct : l.Nodup
  positive : ∀ i ∈ l, 0 < bucket i
  apart : ∀ i ∈ l, ¬a.Free i

namespace Accounting
variable {a b : Accounting} {i : BucketIndex} {l l' new : List BucketIndex}

theorem Ok.positive_of_free (ok : a.Ok) (free : a.Free i) : 0 < bucket i := by
  cases free with
  | inl there =>
    obtain ⟨node, member, same⟩ := there
    exact same ▸ ok.positive node member
  | inr unused => exact unused.1

namespace Taken
variable (taken : a.Taken l)
include taken

theorem perm (same : l.Perm l') : a.Taken l' :=
  ⟨taken.ready, same.nodup_iff.mp taken.distinct, fun i member => taken.positive i (same.mem_iff.mpr member),
    fun i member => taken.apart i (same.mem_iff.mpr member)⟩

theorem fetch (fetched : a.fetch = some (i, b)) : b.Taken (i :: l) ∧ a.Free i ∧ i ≠ 0 := by
  obtain ⟨j, c, fetched', ready, nonzero, was, free⟩ := taken.ready.fetch
  rw [fetched] at fetched'
  cases fetched'
  refine ⟨⟨ready, List.nodup_cons.mpr ⟨fun member => taken.apart i member was, taken.distinct⟩, fun j member => ?_, fun j member again => ?_⟩,
    was, nonzero⟩
  · cases List.mem_cons.mp member with
    | inl here => exact here ▸ taken.ready.ok.positive_of_free was
    | inr there => exact taken.positive j there
  · obtain ⟨before, different⟩ := (free j).mp again
    exact taken.apart j ((List.mem_cons.mp member).resolve_left different) before

/-- What comes to the taken indexes was free. -/
theorem more (ready : b.Ready) (distinct : new.Nodup) (fresh : ∀ i ∈ new, a.Free i) (free : ∀ i, b.Free i ↔ a.Free i ∧ i ∉ new) :
    b.Taken (new ++ l) := by
  refine ⟨ready, List.nodup_append.mpr ⟨distinct, taken.distinct, fun i here j there same => ?_⟩, fun i member => ?_, fun i member again => ?_⟩
  · exact taken.apart j there (same ▸ fresh i here)
  · cases List.mem_append.mp member with
    | inl here => exact taken.ready.ok.positive_of_free (fresh i here)
    | inr there => exact taken.positive i there
  · obtain ⟨before, absent⟩ := (free i).mp again
    exact taken.apart i ((List.mem_append.mp member).resolve_left absent) before

end Taken

theorem Taken.post (taken : a.Taken (i :: l)) (posted : a.post i = some b) : b.Taken l ∧ ∀ j, b.Free j ↔ a.Free j ∨ j = i := by
  obtain ⟨ready, free⟩ := taken.ready.post (taken.positive i List.mem_cons_self) (taken.apart i List.mem_cons_self) posted
  obtain ⟨absent, distinct⟩ := List.nodup_cons.mp taken.distinct
  refine ⟨⟨ready, distinct, fun j member => taken.positive j (List.mem_cons_of_mem i member), fun j member again => ?_⟩, free⟩
  cases (free j).mp again with
  | inl before => exact taken.apart j (List.mem_cons_of_mem i member) before
  | inr same => exact absent (same ▸ member)

end Accounting

end Taken

namespace Volume
variable {sha : Chunk → Sha256} {s t : Volume} {i : BucketIndex} {n : FileNode} {pending pending' ids : List BucketIndex}
  {extra extra' : List Nat} {next metas : BucketIndex → List BucketIndex}

/-- The hashes in the list of the file on an inode. -/
def hashesOf (s : Volume) (i : BucketIndex) : List Nat := ((s.node i).map FileNode.hashList).getD []

def indexesOf (next metas : BucketIndex → List BucketIndex) (i : BucketIndex) : List BucketIndex := i :: (next i ++ metas i)

/-- The inodes, other than at some indexes, with their chains. -/
structure Placed (s : Volume) (pending ids : List BucketIndex) (next metas : BucketIndex → List BucketIndex) : Prop where
  nodes : ∀ i, i ∈ ids ↔ i ∉ pending ∧ (s.node i).isSome
  myID : ∀ i ∈ ids, ∀ n, s.node i = some n → n.chunk.myID = i
  chained : ∀ i ∈ ids, ∀ n, s.node i = some n → (s.metadata n).Chained (next i) (metas i)

/-- No index belongs to two, and no hash is counted for what does not refer to it. -/
def Sound (sha : Chunk → Sha256) (pending : List BucketIndex) (extra : List Nat) (s : Volume) : Prop :=
  ∃ ids next metas, s.Placed pending ids next metas ∧ s.accounting.Taken (pending ++ ids.flatMap (indexesOf next metas)) ∧
    s.storage.Counted sha (extra ++ ids.flatMap s.hashesOf)

section Views

theorem node_eq_some : s.node i = some n ↔ s.slots i = .inode n := by
  unfold node
  cases s.slots i <;> simp [MetaSlot.toInode]

theorem ctds_eq_some {c : InodeCtd} : s.ctds i = some c ↔ s.slots i = .ctd c := by
  unfold ctds
  cases s.slots i <;> simp [MetaSlot.toCtd]

/-- A slot holds one thing. -/
theorem ctds_of_node (here : s.node i = some n) : s.ctds i = none := by
  unfold ctds
  rw [node_eq_some.mp here]
  rfl

theorem node_congr (same : t.slots i = s.slots i) : t.node i = s.node i := congrArg MetaSlot.toInode same

theorem ctds_congr (same : t.slots i = s.slots i) : t.ctds i = s.ctds i := congrArg MetaSlot.toCtd same

theorem hashesOf_of_node (here : s.node i = some n) : s.hashesOf i = n.hashList := by
  rw [hashesOf, here]
  rfl

theorem hashesOf_congr (same : ∀ j ∈ ids, t.slots j = s.slots j) : ids.flatMap t.hashesOf = ids.flatMap s.hashesOf := by
  apply List.flatMap_congr
  intro j member
  rw [hashesOf, hashesOf, node_congr (same j member)]

end Views

namespace Placed
variable (placed : s.Placed pending ids next metas)
include placed

theorem perm {ids' : List BucketIndex} (same : ids.Perm ids') : s.Placed pending ids' next metas :=
  ⟨fun i => same.mem_iff.symm.trans (placed.nodes i), fun i member => placed.myID i (same.mem_iff.mpr member),
    fun i member => placed.chained i (same.mem_iff.mpr member)⟩

/-- What belongs to these inodes is in its slot. -/
theorem frame {t : Volume} (fewer : ∀ j, j ∉ pending' → (t.node j).isSome → j ∉ pending ∧ (s.node j).isSome)
    (apart : ∀ j ∈ ids, j ∉ pending') (same : ∀ j ∈ ids.flatMap (indexesOf next metas), t.slots j = s.slots j) :
    t.Placed pending' ids next metas := by
  have own : ∀ j ∈ ids, t.slots j = s.slots j := fun j member => same j (List.mem_flatMap.mpr ⟨j, member, List.mem_cons_self⟩)
  refine ⟨fun j => ⟨fun member => ⟨apart j member, ?_⟩, fun there => ?_⟩, fun j member m here => ?_, fun j member m here => ?_⟩
  · rw [node_congr (own j member)]
    exact ((placed.nodes j).mp member).2
  · exact (placed.nodes j).mpr (fewer j there.1 there.2)
  · rw [node_congr (own j member)] at here
    exact placed.myID j member m here
  · rw [node_congr (own j member)] at here
    refine (placed.chained j member m here).congr ⟨rfl, rfl⟩ (fun c inside => ?_)
    exact ctds_congr (same c (List.mem_flatMap.mpr ⟨j, member, List.mem_cons_of_mem j inside⟩))

end Placed

namespace Sound
variable (sound : s.Sound sha pending extra)
include sound

theorem perm (same : pending.Perm pending') (same' : extra.Perm extra') : s.Sound sha pending' extra' := by
  obtain ⟨ids, next, metas, placed, taken, counted⟩ := sound
  refine ⟨ids, next, metas, ?_, taken.perm (same.append_right _), counted.congr (fun o => ((same'.append_right _).count_eq o).symm)⟩
  refine ⟨fun i => ?_, placed.myID, placed.chained⟩
  rw [placed.nodes i, same.mem_iff]

/-- The indexes of one inode and the hashes of its file are counted apart. -/
theorem focus (outside : i ∉ pending) (here : s.node i = some n) :
    ∃ l m, n.chunk.myID = i ∧ (s.metadata n).Chained l m ∧ s.Sound sha (i :: (l ++ m) ++ pending) (n.hashList ++ extra) := by
  obtain ⟨ids, next, metas, placed, taken, counted⟩ := sound
  have member : i ∈ ids := (placed.nodes i).mpr ⟨outside, by rw [here]; rfl⟩
  have front : ids.Perm (i :: ids.erase i) := List.perm_cons_erase member
  have order : (pending ++ ids.flatMap (indexesOf next metas)).Perm
      (i :: (next i ++ metas i) ++ pending ++ (ids.erase i).flatMap (indexesOf next metas)) := by
    apply ((front.flatMap_right _).append_left pending).trans
    rw [List.flatMap_cons, indexesOf, List.append_assoc]
    exact List.perm_append_comm_assoc _ _ _
  have taken' := taken.perm order
  have chained := placed.chained i member n here
  have distinct := List.nodup_append.mp taken'.distinct
  refine ⟨next i, metas i, placed.myID i member n here, chained, ids.erase i, next, metas, ?_, taken', counted.congr (fun o => ?_)⟩
  · refine ⟨fun j => ⟨fun inside => ⟨fun again => ?_, ((placed.nodes j).mp (List.mem_of_mem_erase inside)).2⟩, fun there => ?_⟩,
      fun j inside => placed.myID j (List.mem_of_mem_erase inside), fun j inside => placed.chained j (List.mem_of_mem_erase inside)⟩
    · exact distinct.2.2 j again j (List.mem_flatMap.mpr ⟨j, inside, List.mem_cons_self⟩) rfl
    · have old : j ∈ ids := (placed.nodes j).mpr ⟨fun again => there.1 (List.mem_append_right _ again), there.2⟩
      cases List.mem_cons.mp (front.mem_iff.mp old) with
      | inl same => exact absurd (same ▸ List.mem_append_left pending List.mem_cons_self) there.1
      | inr inside => exact inside
  · have shape := (front.flatMap_right s.hashesOf).count_eq o
    rw [List.flatMap_cons, hashesOf_of_node here, List.count_append] at shape
    simp only [List.count_append, shape]
    omega

/-- A step that leaves the inodes which are not worked on as they are. -/
theorem change (same : ∀ j, ¬s.accounting.Free j → j ∉ pending → t.slots j = s.slots j)
    (fewer : ∀ j, j ∉ pending' → (t.node j).isSome → j ∉ pending ∧ (s.node j).isSome)
    (outside : ∀ j ∈ pending', j ∈ pending ∨ s.accounting.Free j)
    (taken : ∀ l, s.accounting.Taken (pending ++ l) → t.accounting.Taken (pending' ++ l))
    (counted : ∀ held, s.storage.Counted sha (extra ++ held) → t.storage.Counted sha (extra' ++ held)) : t.Sound sha pending' extra' := by
  obtain ⟨ids, next, metas, placed, taken₀, counted₀⟩ := sound
  have used : ∀ j ∈ ids.flatMap (indexesOf next metas), ¬s.accounting.Free j ∧ j ∉ pending := fun j member =>
    ⟨taken₀.apart j (List.mem_append_right pending member), fun again => (List.nodup_append.mp taken₀.distinct).2.2 j again j member rfl⟩
  have own : ∀ j ∈ ids, ¬s.accounting.Free j ∧ j ∉ pending := fun j member => used j (List.mem_flatMap.mpr ⟨j, member, List.mem_cons_self⟩)
  refine ⟨ids, next, metas, placed.frame fewer (fun j member again => ?_) (fun j member => same j (used j member).1 (used j member).2),
    taken _ taken₀, ?_⟩
  · exact (outside j again).elim (own j member).2 (own j member).1
  · rw [hashesOf_congr (fun j member => same j (own j member).1 (own j member).2)]
    exact counted _ counted₀

end Sound

/-- The inode is counted with the others again. -/
theorem Sound.unfocus {l m : List BucketIndex} (sound : s.Sound sha (i :: (l ++ m) ++ pending) (n.hashList ++ extra)) (here : s.node i = some n) (myID : n.chunk.myID = i)
    (chained : (s.metadata n).Chained l m) : s.Sound sha pending extra := by
  obtain ⟨ids, next, metas, placed, taken, counted⟩ := sound
  have distinct := List.nodup_append.mp taken.distinct
  have other : ∀ j ∈ ids, j ≠ i := by
    intro j member same
    exact ((placed.nodes j).mp member).1 (same ▸ List.mem_append_left pending List.mem_cons_self)
  have indexes : ids.flatMap (indexesOf (Function.update next i l) (Function.update metas i m)) = ids.flatMap (indexesOf next metas) := by
    apply List.flatMap_congr
    intro j member
    rw [indexesOf, indexesOf, Function.update_of_ne (other j member), Function.update_of_ne (other j member)]
  have own : indexesOf (Function.update next i l) (Function.update metas i m) i = i :: (l ++ m) := by
    rw [indexesOf, Function.update_self, Function.update_self]
  -- the records on its chains are no inodes
  have record : ∀ c ∈ l ++ m, s.node c = none := by
    intro c member
    obtain ⟨p, found, _⟩ := chained.own c member
    unfold node
    rw [ctds_eq_some.mp found]
    rfl
  refine ⟨i :: ids, Function.update next i l, Function.update metas i m, ⟨fun j => ?_, fun j member p there => ?_, fun j member p there => ?_⟩,
    taken.perm ?_, counted.congr (fun o => ?_)⟩
  · constructor
    · intro member
      cases List.mem_cons.mp member with
      | inl same =>
        rw [same, here]
        exact ⟨fun again => List.disjoint_of_nodup_append distinct.1 List.mem_cons_self again, rfl⟩
      | inr inside =>
        obtain ⟨absent, there⟩ := (placed.nodes j).mp inside
        exact ⟨fun again => absent (List.mem_append_right _ again), there⟩
    · rintro ⟨absent, there⟩
      by_cases same : j = i
      · exact same ▸ List.mem_cons_self
      · refine List.mem_cons_of_mem i ((placed.nodes j).mpr ⟨fun again => ?_, there⟩)
        cases List.mem_append.mp again with
        | inl mine =>
          rw [record j (List.mem_of_ne_of_mem same mine)] at there
          cases there
        | inr pended => exact absent pended
  · cases List.mem_cons.mp member with
    | inl same =>
      rw [same, here] at there
      cases there
      exact myID.trans same.symm
    | inr inside => exact placed.myID j inside p there
  · by_cases same : j = i
    · rw [same, here] at there
      cases there
      rw [same, Function.update_self, Function.update_self]
      exact chained
    · rw [Function.update_of_ne same, Function.update_of_ne same]
      exact placed.chained j (List.mem_of_ne_of_mem same member) p there
  · rw [List.flatMap_cons, own, indexes, List.append_assoc]
    exact List.perm_append_comm_assoc _ _ _
  · simp only [List.flatMap_cons, hashesOf_of_node here, List.count_append]
    omega

section Steps

/-- What is worked on is written to. -/
theorem Sound.setSlot (sound : s.Sound sha pending extra) (member : i ∈ pending) (slot : MetaSlot) :
    ({ s with slots := Function.update s.slots i slot } : Volume).Sound sha pending extra := by
  have same : ∀ j, j ∉ pending → Function.update s.slots i slot j = s.slots j := fun j outside =>
    Function.update_of_ne (fun equal : j = i => outside (equal ▸ member)) _ _
  refine sound.change (fun j _ outside => same j outside) (fun j outside there => ⟨outside, ?_⟩) (fun j member => Or.inl member)
    (fun _ taken => taken) (fun _ counted => counted)
  have equal : ({ s with slots := Function.update s.slots i slot } : Volume).node j = s.node j := node_congr (same j outside)
  exact equal ▸ there

theorem Sound.withStorage (sound : s.Sound sha pending extra) {u : Storage}
    (counted : ∀ held, s.storage.Counted sha (extra ++ held) → u.Counted sha (extra' ++ held)) :
    ({ s with storage := u } : Volume).Sound sha pending extra' :=
  sound.change (fun _ _ _ => rfl) (fun _ outside there => ⟨outside, there⟩) (fun _ member => Or.inl member) (fun _ taken => taken) counted

/-- An inode is not free unless it is worked on. -/
theorem Sound.not_free (sound : s.Sound sha pending extra) (there : i ∈ pending ∨ (s.node i).isSome) : ¬s.accounting.Free i := by
  obtain ⟨ids, next, metas, placed, taken, _⟩ := sound
  by_cases member : i ∈ pending
  · exact taken.apart i (List.mem_append_left _ member)
  · have inside := (placed.nodes i).mpr ⟨member, there.resolve_left member⟩
    exact taken.apart i (List.mem_append_right _ (List.mem_flatMap.mpr ⟨i, inside, List.mem_cons_self⟩))

theorem Sound.fetch (sound : s.Sound sha pending extra) {b : Accounting} (fetched : s.accounting.fetch = some (i, b)) :
    ({ s with accounting := b } : Volume).Sound sha (i :: pending) extra ∧ s.node i = none ∧ i ∉ pending ∧ i ≠ 0 := by
  obtain ⟨_, _, _, _, taken, _⟩ := id sound
  obtain ⟨_, free, nonzero⟩ := taken.fetch fetched
  have absent : i ∉ pending := fun member => sound.not_free (Or.inl member) free
  have none : s.node i = none := by
    by_contra there
    exact sound.not_free (Or.inr (Option.isSome_iff_ne_none.mpr there)) free
  refine ⟨sound.change (fun _ _ _ => rfl) (fun j outside there => ⟨fun member => outside (List.mem_cons_of_mem i member), there⟩)
    (fun j member => ?_) (fun l taken => (taken.fetch fetched).1) (fun _ counted => counted), none, absent, nonzero⟩
  cases List.mem_cons.mp member with
  | inl here => exact Or.inr (here ▸ free)
  | inr old => exact Or.inl old

/-- The index of an empty slot goes back. -/
theorem Sound.post (sound : s.Sound sha (i :: pending) extra) (empty : s.node i = none) {b : Accounting} (posted : s.accounting.post i = some b) :
    ({ s with accounting := b } : Volume).Sound sha pending extra ∧ ∀ j, b.Free j ↔ s.accounting.Free j ∨ j = i := by
  obtain ⟨_, _, _, _, taken, _⟩ := id sound
  refine ⟨sound.change (fun _ _ _ => rfl) (fun j outside there => ⟨fun member => ?_, there⟩)
    (fun j member => Or.inl (List.mem_cons_of_mem i member)) (fun l taken => (taken.post posted).1) (fun _ counted => counted), (taken.post posted).2⟩
  have here := (List.mem_cons.mp member).resolve_right outside
  have none : ({ s with accounting := b } : Volume).node j = none := here ▸ empty
  rw [none] at there
  cases there

/-- A file with other hashes, on an inode with the same chains. -/
theorem Sound.edit (sound : s.Sound sha pending extra) (outside : i ∉ pending) (here : s.node i = some n) {n' : FileNode} {u : Storage}
    (myID : n'.chunk.myID = n.chunk.myID) (chains : n'.chunk.nextID = n.chunk.nextID ∧ n'.chunk.metaID = n.chunk.metaID)
    (counted : ∀ held, s.storage.Counted sha (n.hashList ++ held) → u.Counted sha (n'.hashList ++ held)) :
    ({ s with slots := Function.update s.slots i (.inode n'), storage := u } : Volume).Sound sha pending extra := by
  obtain ⟨l, m, own, chained, focused⟩ := sound.focus outside here
  have stored : ({ s with storage := u } : Volume).Sound sha (i :: (l ++ m) ++ pending) (n'.hashList ++ extra) := by
    apply focused.withStorage
    intro held counted'
    rw [List.append_assoc] at counted' ⊢
    exact counted _ counted'
  have written := stored.setSlot (i := i) List.mem_cons_self (.inode n')
  refine written.unfocus (node_eq_some.mpr (Function.update_self i _ _)) (myID.trans own) (chained.congr chains (fun c member => ?_))
  apply ctds_congr
  apply Function.update_of_ne
  intro same
  obtain ⟨p, found, _⟩ := chained.own c member
  have none := ctds_of_node here
  rw [← same] at none
  cases none.symm.trans found

theorem ctds_withMetadata (u : Metadata) : (s.withMetadata i n u).ctds = u.ctds := by
  funext j
  unfold ctds withMetadata
  dsimp only
  cases found : u.ctds j with
  | some c => rfl
  | none =>
    dsimp only
    split
    · rfl
    · split
      · rfl
      · rename_i absent
        exact Option.not_isSome_iff_eq_none.mp absent

/-- What an operation on an inode and its records adds to the chains was free. -/
theorem Sound.withMetadata (sound : s.Sound sha pending extra) (outside : i ∉ pending) (here : s.node i = some n) {u : Metadata}
    (extends' : ∀ l m, (s.metadata n).Chained l m → (l ++ m).Nodup → (∀ c ∈ l ++ m, ¬s.accounting.Free c) → s.accounting.Ready →
      ∃ l' m' new, u.Chained l' m' ∧ (l' ++ m').Perm (new ++ (l ++ m)) ∧ (s.metadata n).Extended u (l ++ m) new) :
    (s.withMetadata i n u).Sound sha pending extra ∧ ∀ c ∈ pending, (s.withMetadata i n u).slots c = s.slots c := by
  obtain ⟨l, m, own, chained, focused⟩ := sound.focus outside here
  obtain ⟨_, _, _, _, taken, _⟩ := id focused
  have distinct : (l ++ m).Nodup := (List.nodup_cons.mp (List.nodup_append.mp (List.nodup_append.mp taken.distinct).1).1).2
  have absent : i ∉ l ++ m := (List.nodup_cons.mp (List.nodup_append.mp (List.nodup_append.mp taken.distinct).1).1).1
  have apart : ∀ c ∈ l ++ m, ¬s.accounting.Free c := fun c member => focused.not_free (Or.inl
    (List.mem_append_left pending (List.mem_cons_of_mem i member)))
  obtain ⟨l', m', new, chained', order, extended⟩ := extends' l m chained distinct apart taken.ready
  have fresh : ∀ c ∈ new, s.accounting.Free c := extended.grown.fresh
  have notNew : i ∉ new := fun member => focused.not_free (Or.inl (List.mem_append_left pending List.mem_cons_self)) (fresh i member)
  have others : ∀ j, j ∉ l ++ m → j ∉ new → u.ctds j = s.ctds j := extended.grown.others
  have slots : ∀ j, j ≠ i → j ∉ l ++ m → j ∉ new → (s.withMetadata i n u).slots j = s.slots j := by
    intro j different notOld notNew
    unfold Volume.withMetadata
    dsimp only
    rw [others j notOld notNew]
    cases found : s.ctds j with
    | some c => exact (ctds_eq_some.mp found).symm
    | none => rw [if_neg different, if_neg (by decide)]
  have node : (s.withMetadata i n u).node i = some { n with chunk := u.inode } := by
    apply node_eq_some.mpr
    unfold Volume.withMetadata
    dsimp only
    rw [others i absent notNew, ctds_of_node here, if_pos rfl]
  have grown : (s.withMetadata i n u).Sound sha (new ++ (i :: (l ++ m) ++ pending)) (n.hashList ++ extra) := by
    refine focused.change (fun j used notPending => ?_) (fun j notPending there => ?_) (fun j member => ?_) (fun held taken => ?_)
      (fun _ counted => counted)
    · apply slots j
      · exact fun same => notPending (same ▸ List.mem_append_left pending List.mem_cons_self)
      · exact fun member => notPending (List.mem_append_left pending (List.mem_cons_of_mem i member))
      · exact fun member => used (fresh j member)
    · rw [List.mem_append, not_or] at notPending
      refine ⟨notPending.2, ?_⟩
      rw [← node_congr (slots j ?_ ?_ notPending.1)]
      · exact there
      · exact fun same => notPending.2 (same ▸ List.mem_append_left pending List.mem_cons_self)
      · exact fun member => notPending.2 (List.mem_append_left pending (List.mem_cons_of_mem i member))
    · exact (List.mem_append.mp member).symm.imp_right (fresh j)
    · rw [List.append_assoc]
      exact taken.more extended.grown.ready extended.grown.distinct fresh extended.grown.free
  have moved : (new ++ (i :: (l ++ m) ++ pending)).Perm (i :: (l' ++ m') ++ pending) := by
    rw [← List.append_assoc]
    apply List.Perm.append_right
    exact List.perm_middle.trans (order.symm.cons i)
  have again := grown.perm moved (List.Perm.refl (n.hashList ++ extra))
  refine ⟨again.unfocus (n := { n with chunk := u.inode }) node (extended.myID.trans own) (chained'.congr ⟨rfl, rfl⟩ (fun c _ => ?_)),
    fun c member => ?_⟩
  · exact congrFun (ctds_withMetadata u) c
  · have parts := (List.nodup_append.mp (List.nodup_append.mp taken.distinct).1).2.2
    apply slots c
    · exact fun same => outside (same ▸ member)
    · exact fun mine => parts c (List.mem_cons_of_mem i mine) c member rfl
    · exact fun added => focused.not_free (Or.inl (List.mem_append_right _ member)) (fresh c added)

end Steps

section New

def rootNode : FileNode := { FileNode.fresh rootIndex (Mode.TYPE_DIR ||| 0o755) with chunk := ⟨rootIndex, 0, metaIndex, 0, 0, fun _ => 0⟩ }

/-- A new file system: the root with one record for its metadata, and the zero hash. -/
def newVolume : Volume where
  slots := Function.update (Function.update (fun _ => .empty) rootIndex (.inode rootNode)) metaIndex (.ctd ⟨metaIndex, 0, fun _ => 0⟩)
  accounting := ⟨2, {1}, [⟨0, 258⟩, ⟨1, 259⟩], []⟩
  storage := DataFs.zeroOnly

theorem node_newVolume (i : BucketIndex) : newVolume.node i = if i = rootIndex then some rootNode else none := by
  unfold node newVolume
  dsimp only
  by_cases records : i = metaIndex
  · rw [records, Function.update_self]
    rfl
  · rw [Function.update_of_ne records]
    by_cases root : i = rootIndex
    · rw [root, Function.update_self, if_pos rfl]
      rfl
    · rw [Function.update_of_ne root, if_neg root]
      rfl

theorem sound_newVolume : newVolume.Sound DataFs.prefixSum [] [] := by
  have found : newVolume.ctds metaIndex = some ⟨metaIndex, 0, fun _ => 0⟩ := rfl
  have only : ∀ i n, newVolume.node i = some n → i = rootIndex ∧ n = rootNode := by
    intro i n here
    rw [node_newVolume] at here
    split at here
    · rename_i root
      exact ⟨root, (Option.some.inj here).symm⟩
    · cases here
  refine ⟨[rootIndex], fun _ => [], fun _ => [metaIndex], ⟨fun i => ?_, fun i _ n here => ?_, fun i _ n here => ?_⟩, ?_, ?_⟩
  · rw [List.mem_singleton, node_newVolume]
    split
    · rename_i root
      exact ⟨fun _ => ⟨List.not_mem_nil, rfl⟩, fun _ => root⟩
    · rename_i other
      exact ⟨fun root => absurd root other, fun there => absurd there.2 Bool.false_ne_true⟩
  · obtain ⟨rfl, rfl⟩ := only i n here
    rfl
  · obtain ⟨rfl, rfl⟩ := only i n here
    refine ⟨.nil, .cons found (by exact .nil), fun j member => ?_⟩
    rw [List.mem_singleton.mp member]
    exact ⟨_, found, rfl⟩
  · refine ⟨⟨⟨by decide, by decide, by decide, by decide, by decide⟩, Or.inl (by decide)⟩, by decide, by decide, fun i member => ?_⟩
    have members : i = rootIndex ∨ i = metaIndex := by simpa [indexesOf] using member
    rintro (⟨node, there, same⟩ | ⟨_, unused⟩)
    · change node ∈ [(⟨0, 258⟩ : Accounting.Node), ⟨1, 259⟩] at there
      simp only [List.mem_cons, List.not_mem_nil, or_false] at there
      rcases there with rfl | rfl <;> rcases members with rfl | rfl <;> cases same
    · rcases members with rfl | rfl <;> exact unused (by decide)
  · have none : [rootIndex].flatMap newVolume.hashesOf = [] := by
      rw [List.flatMap_singleton, hashesOf, node_newVolume, if_pos rfl]
      rfl
    rw [none]
    exact Storage.counted_zeroOnly

end New

end Volume

end CloudCryptFS.Filesystem
