import Mathlib.Data.Finset.Card
import Mathlib.Data.Finset.Dedup
import Mathlib.Data.Finset.Image
import Mathlib.Order.Interval.Finset.Nat
import Mathlib.Data.List.Range
import Mathlib.Data.List.Nodup
import Mathlib.Algebra.BigOperators.Group.List.Basic

/-! The accounting of bucket indexes. A fixed pool of records is split between a list
of indexes that are available and a list of records that are free; when the first
runs out new buckets are made, and when the second runs out whole buckets are
released. What can still be fetched is what is available or lies in no bucket. -/

namespace CloudCryptFS.Filesystem

/-- `bucketIndex_t` as its full index: the bucket above the eight bits of the slot. -/
abbrev BucketIndex := Nat

def chunksInBucket : Nat := 256

namespace BucketIndex

def bucket (i : BucketIndex) : Nat := i / chunksInBucket

def make (bucket index : Nat) : BucketIndex := bucket * chunksInBucket + index

theorem bucket_make {id index : Nat} (small : index < chunksInBucket) : bucket (make id index) = id := by
  unfold bucket make chunksInBucket at *
  omega

end BucketIndex

open BucketIndex

namespace Accounting

def maxBuckets : Nat := 10

/-- A record on `availableList`. -/
structure Node where
  record : Nat
  data : BucketIndex
  deriving DecidableEq

end Accounting

open Accounting (Node maxBuckets)

/-- `bucketaccounting`; the data of a record on `freeList` is zero. -/
structure Accounting where
  hint : Nat
  bucketsInUse : Finset Nat
  availableList : List Node
  freeList : List Nat

namespace Accounting

/-- The constructor; the indexes that are not in use are posted afterwards. -/
def init (buckets : Finset Nat) : Accounting :=
  ⟨1, buckets, [], List.range (chunksInBucket * maxBuckets)⟩

/-- The first id from `hint` on that is not in use. -/
def nextUnused (used : Finset Nat) : (fuel : Nat) → (hint : Nat) → Nat
  | 0, hint => hint
  | fuel + 1, hint => if hint ∈ used then nextUnused used fuel (hint + 1) else hint

/-- The loop of `createBuckets`: the ids of `n` new buckets, and the next hint. -/
def createLoop : (n : Nat) → (hint : Nat) → (used : Finset Nat) → List Nat × Nat × Finset Nat
  | 0, hint, used => ([], hint, used)
  | n + 1, hint, used =>
    let id := nextUnused used (used.card + 1) hint
    let (ids, hint, used) := createLoop n (id + 1) (insert id used)
    (id :: ids, hint, used)

def indexesOf (bucket : Nat) : List BucketIndex := (List.range chunksInBucket).map (make bucket)

def createBuckets (a : Accounting) : Accounting :=
  let (ids, hint, used) := createLoop maxBuckets a.hint a.bucketsInUse
  { hint := hint
    bucketsInUse := used
    availableList := (ids.flatMap indexesOf).zipIdx.map (fun entry => ⟨entry.2, entry.1⟩)
    freeList := [] }

/-- The buckets all indexes of which are available. -/
def fullBuckets (a : Accounting) : Finset Nat :=
  (a.availableList.map (fun node => bucket node.data)).toFinset.filter
    (fun id => (a.availableList.filter (fun node => bucket node.data = id)).length = chunksInBucket)

/-- `releaseBuckets`: both lists come out in the order of their records. -/
def releaseBuckets (a : Accounting) : Option Accounting :=
  let toDelete := a.fullBuckets
  let inOrder := a.availableList.mergeSort (fun x y => x.record ≤ y.record)
  let gone := fun node : Node => node.data = 0 ∨ bucket node.data ∈ toDelete
  if toDelete = ∅ then none
  else some
    { a with
      bucketsInUse := a.bucketsInUse \ toDelete
      availableList := inOrder.filter (fun node => ¬gone node)
      freeList := (inOrder.filter (fun node => gone node)).map Node.record }

/-- `fetch`; with both lists empty it would wait for ever. -/
def fetch (a : Accounting) : Option (BucketIndex × Accounting) :=
  match a.availableList with
  | node :: rest => some (node.data, { a with availableList := rest, freeList := node.record :: a.freeList })
  | [] =>
    if a.freeList = [] then none
    else
      match a.createBuckets.availableList with
      | node :: rest =>
        some (node.data, { a.createBuckets with availableList := rest, freeList := [node.record] })
      | [] => none

/-- The index goes into the first free record. -/
def insertAvailable (a : Accounting) (data : BucketIndex) : Option Accounting :=
  match a.freeList with
  | record :: rest => some { a with availableList := ⟨record, data⟩ :: a.availableList, freeList := rest }
  | [] => none

def post (a : Accounting) (data : BucketIndex) : Option Accounting :=
  if a.freeList ≠ [] then a.insertAvailable data
  else if a.availableList = [] then none
  else a.releaseBuckets.bind (fun released => released.insertAvailable data)

/-- What `fetch` can return, now or after new buckets have been made. -/
def Free (a : Accounting) (i : BucketIndex) : Prop :=
  (∃ node ∈ a.availableList, node.data = i) ∨ (0 < bucket i ∧ bucket i ∉ a.bucketsInUse)

structure Ok (a : Accounting) : Prop where
  distinct : (a.availableList.map Node.data).Nodup
  inUse : ∀ node ∈ a.availableList, bucket node.data ∈ a.bucketsInUse
  positive : ∀ node ∈ a.availableList, 0 < bucket node.data
  hint : 0 < a.hint
  buckets : ∀ id ∈ a.bucketsInUse, 0 < id

section Fetch

theorem nextUnused_ge (used : Finset Nat) (fuel hint : Nat) : hint ≤ nextUnused used fuel hint := by
  induction fuel generalizing hint with
  | zero => exact le_rfl
  | succ fuel ih =>
    unfold nextUnused
    split
    · exact (Nat.le_succ hint).trans (ih (hint + 1))
    · exact le_rfl

private theorem nextUnused_or (used : Finset Nat) (fuel hint : Nat) :
    nextUnused used fuel hint ∉ used ∨ ∀ k ∈ Finset.Icc hint (hint + fuel), k ∈ used := by
  induction fuel generalizing hint with
  | zero =>
    by_cases member : hint ∈ used
    · right
      intro k between
      have same : k = hint := by
        rw [Finset.mem_Icc] at between
        omega
      exact same ▸ member
    · exact Or.inl member
  | succ fuel ih =>
    unfold nextUnused
    split
    · rename_i member
      refine (ih (hint + 1)).imp_right ?_
      intro all k between
      rw [Finset.mem_Icc] at between
      by_cases same : k = hint
      · exact same ▸ member
      · exact all k (Finset.mem_Icc.mpr ⟨by omega, by omega⟩)
    · rename_i absent
      exact Or.inl absent

theorem nextUnused_unused (used : Finset Nat) (hint : Nat) : nextUnused used (used.card + 1) hint ∉ used := by
  rcases nextUnused_or used (used.card + 1) hint with unused | all
  · exact unused
  · have bound := Finset.card_le_card (fun k between => all k between)
    rw [Nat.card_Icc] at bound
    omega

/-- The new buckets are distinct, were not in use, and are from then on. -/
theorem createLoop_spec (n hint : Nat) (used : Finset Nat) :
    (createLoop n hint used).1.Nodup ∧ (∀ id ∈ (createLoop n hint used).1, id ∉ used ∧ hint ≤ id) ∧
      (∀ id, id ∈ (createLoop n hint used).2.2 ↔ id ∈ used ∨ id ∈ (createLoop n hint used).1) ∧
      hint ≤ (createLoop n hint used).2.1 ∧ (createLoop n hint used).1.length = n := by
  induction n generalizing hint used with
  | zero => simp [createLoop]
  | succ n ih =>
    have above := nextUnused_ge used (used.card + 1) hint
    have unused := nextUnused_unused used hint
    generalize shape : nextUnused used (used.card + 1) hint = id at above unused
    obtain ⟨distinct, fresh, members, later, count⟩ := ih (id + 1) (insert id used)
    simp only [createLoop, shape, List.nodup_cons, List.length_cons]
    refine ⟨⟨?_, distinct⟩, ?_, ?_, (above.trans (Nat.le_succ id)).trans later, by rw [count]⟩
    · intro again
      exact (fresh id again).1 (Finset.mem_insert_self id used)
    · intro other member
      rcases List.mem_cons.mp member with rfl | later
      · exact ⟨unused, above⟩
      · have parts := fresh other later
        exact ⟨fun old => parts.1 (Finset.mem_insert_of_mem old), by omega⟩
    · intro other
      rw [members other, Finset.mem_insert, List.mem_cons]
      tauto

theorem mem_indexesOf {id : Nat} {i : BucketIndex} : i ∈ indexesOf id ↔ bucket i = id := by
  unfold indexesOf
  rw [List.mem_map]
  constructor
  · rintro ⟨index, inside, rfl⟩
    exact bucket_make (List.mem_range.mp inside)
  · rintro rfl
    refine ⟨i % chunksInBucket, List.mem_range.mpr (Nat.mod_lt _ (by decide)), ?_⟩
    exact Nat.div_add_mod' i chunksInBucket

theorem nodup_indexesOf (id : Nat) : (indexesOf id).Nodup := by
  refine List.Nodup.map ?_ List.nodup_range
  intro x y same
  exact Nat.add_left_cancel same

private theorem createBuckets_data (a : Accounting) :
    a.createBuckets.availableList.map Node.data =
      (createLoop maxBuckets a.hint a.bucketsInUse).1.flatMap indexesOf := by
  have first : ∀ (indexes : List BucketIndex) (k : Nat),
      ((indexes.zipIdx k).map (fun entry => (⟨entry.2, entry.1⟩ : Node))).map Node.data = indexes := by
    intro indexes
    induction indexes with
    | nil => intro k; rfl
    | cons i indexes ih =>
      intro k
      rw [List.zipIdx_cons, List.map_cons, List.map_cons, ih]
  exact first _ 0

private theorem createBuckets_mem (a : Accounting) (i : BucketIndex) :
    (∃ node ∈ a.createBuckets.availableList, node.data = i) ↔
      bucket i ∈ (createLoop maxBuckets a.hint a.bucketsInUse).1 := by
  rw [← List.mem_map, createBuckets_data, List.mem_flatMap]
  simp [mem_indexesOf]

theorem createBuckets_ok {a : Accounting} (ok : a.Ok) : a.createBuckets.Ok := by
  obtain ⟨distinct, fresh, members, later, _⟩ := createLoop_spec maxBuckets a.hint a.bucketsInUse
  have inside : ∀ node ∈ a.createBuckets.availableList,
      bucket node.data ∈ (createLoop maxBuckets a.hint a.bucketsInUse).1 := fun node member =>
    (createBuckets_mem a node.data).mp ⟨node, member, rfl⟩
  refine ⟨?_, ?_, ?_, ok.hint.trans_le later, ?_⟩
  · rw [createBuckets_data, List.nodup_flatMap]
    refine ⟨fun id _ => nodup_indexesOf id, distinct.imp ?_⟩
    intro id other different i here there
    exact different ((mem_indexesOf.mp here).symm.trans (mem_indexesOf.mp there))
  · exact fun node member => (members _).mpr (Or.inr (inside node member))
  · exact fun node member => ok.hint.trans_le (fresh _ (inside node member)).2
  · intro id used
    rcases (members id).mp used with before | created
    · exact ok.buckets id before
    · exact ok.hint.trans_le (fresh id created).2

theorem createBuckets_free {a : Accounting} (ok : a.Ok) (empty : a.availableList = []) (i : BucketIndex) :
    a.createBuckets.Free i ↔ a.Free i := by
  obtain ⟨_, fresh, members, _, _⟩ := createLoop_spec maxBuckets a.hint a.bucketsInUse
  have used : bucket i ∈ a.createBuckets.bucketsInUse ↔
      bucket i ∈ a.bucketsInUse ∨ bucket i ∈ (createLoop maxBuckets a.hint a.bucketsInUse).1 := members _
  unfold Free
  rw [createBuckets_mem, used, empty]
  constructor
  · rintro (created | ⟨positive, unused⟩)
    · have parts := fresh _ created
      exact Or.inr ⟨ok.hint.trans_le parts.2, parts.1⟩
    · exact Or.inr ⟨positive, fun old => unused (Or.inl old)⟩
  · rintro (⟨node, member, _⟩ | ⟨positive, unused⟩)
    · simp at member
    · by_cases created : bucket i ∈ (createLoop maxBuckets a.hint a.bucketsInUse).1
      · exact Or.inl created
      · exact Or.inr ⟨positive, fun either => either.elim unused created⟩

/-- The head of the list goes to the free records. -/
private theorem take_spec {a : Accounting} (ok : a.Ok) {node : Node} {rest : List Node} (free : List Nat)
    (shape : a.availableList = node :: rest) :
    Ok { a with availableList := rest, freeList := free } ∧ a.Free node.data ∧
      ∀ j, Free { a with availableList := rest, freeList := free } j ↔ a.Free j ∧ j ≠ node.data := by
  have distinct := ok.distinct
  rw [shape, List.map_cons, List.nodup_cons] at distinct
  have inUse := ok.inUse
  have positive := ok.positive
  rw [shape] at inUse positive
  refine ⟨⟨distinct.2, fun other member => inUse other (List.mem_cons_of_mem _ member),
    fun other member => positive other (List.mem_cons_of_mem _ member), ok.hint, ok.buckets⟩,
    Or.inl ⟨node, shape ▸ List.mem_cons_self, rfl⟩, ?_⟩
  intro j
  constructor
  · rintro (⟨other, member, rfl⟩ | unused)
    · refine ⟨Or.inl ⟨other, shape ▸ List.mem_cons_of_mem _ member, rfl⟩, ?_⟩
      intro same
      exact distinct.1 (same ▸ List.mem_map_of_mem member)
    · refine ⟨Or.inr unused, ?_⟩
      rintro rfl
      exact unused.2 (inUse node List.mem_cons_self)
  · rintro ⟨⟨other, member, rfl⟩ | unused, different⟩
    · rw [shape] at member
      rcases List.mem_cons.mp member with rfl | later
      · exact absurd rfl different
      · exact Or.inl ⟨other, later, rfl⟩
    · exact Or.inr unused

/-- What is fetched was free, and nothing else stops being so. -/
theorem fetch_spec {a b : Accounting} {i : BucketIndex} (ok : a.Ok) (fetched : a.fetch = some (i, b)) :
    b.Ok ∧ a.Free i ∧ ∀ j, b.Free j ↔ a.Free j ∧ j ≠ i := by
  unfold fetch at fetched
  split at fetched
  · rename_i node rest shape
    cases fetched
    exact take_spec ok _ shape
  · rename_i empty
    split at fetched
    · cases fetched
    · split at fetched
      · rename_i node rest shape
        cases fetched
        have taken := take_spec (createBuckets_ok ok) [node.record] shape
        simp only [createBuckets_free ok empty] at taken
        exact taken
      · cases fetched

end Fetch

section Post

private theorem insertAvailable_spec {a b : Accounting} {i : BucketIndex} (ok : a.Ok) (inUse : bucket i ∈ a.bucketsInUse)
    (positive : 0 < bucket i) (absent : ¬a.Free i) (inserted : a.insertAvailable i = some b) :
    b.Ok ∧ ∀ j, b.Free j ↔ a.Free j ∨ j = i := by
  unfold insertAvailable at inserted
  split at inserted
  · rename_i record rest shape
    cases inserted
    refine ⟨⟨?_, ?_, ?_, ok.hint, ok.buckets⟩, ?_⟩
    · rw [List.map_cons, List.nodup_cons]
      refine ⟨?_, ok.distinct⟩
      intro member
      obtain ⟨node, inside, same⟩ := List.mem_map.mp member
      exact absent (Or.inl ⟨node, inside, same⟩)
    · intro node member
      rcases List.mem_cons.mp member with rfl | later
      · exact inUse
      · exact ok.inUse node later
    · intro node member
      rcases List.mem_cons.mp member with rfl | later
      · exact positive
      · exact ok.positive node later
    · intro j
      unfold Free
      simp only [List.mem_cons, exists_eq_or_imp, eq_comm (b := j)]
      exact or_assoc.trans or_comm
  · cases inserted

/-- A bucket with an index that is not free is not released. -/
private theorem not_mem_fullBuckets {a : Accounting} (ok : a.Ok) {i : BucketIndex} (absent : ¬a.Free i) :
    bucket i ∉ a.fullBuckets := by
  intro member
  have full := (Finset.mem_filter.mp member).2
  have distinct : ((a.availableList.filter (fun node => bucket node.data = bucket i)).map Node.data).Nodup :=
    ok.distinct.sublist (List.filter_sublist.map _)
  have inside : ((a.availableList.filter (fun node => bucket node.data = bucket i)).map Node.data) ⊆
      (indexesOf (bucket i)).erase i := by
    intro j listed
    obtain ⟨node, kept, rfl⟩ := List.mem_map.mp listed
    have parts := List.mem_filter.mp kept
    refine (List.mem_erase_of_ne ?_).mpr (mem_indexesOf.mpr (by simpa using parts.2))
    exact fun same => absent (Or.inl ⟨node, parts.1, same⟩)
  have fewer := (List.subperm_of_subset distinct inside).length_le
  have count : ((indexesOf (bucket i)).erase i).length = chunksInBucket - 1 := by
    rw [List.length_erase_of_mem (mem_indexesOf.mpr rfl)]
    simp [indexesOf]
  rw [List.length_map, full, count] at fewer
  exact absurd fewer (by decide)

private theorem releaseBuckets_spec {a b : Accounting} (ok : a.Ok) (released : a.releaseBuckets = some b) :
    b.Ok ∧ (∀ j, b.Free j ↔ a.Free j) ∧ b.bucketsInUse = a.bucketsInUse \ a.fullBuckets := by
  unfold releaseBuckets at released
  dsimp only at released
  split at released
  · cases released
  · cases released
    have order := List.mergeSort_perm a.availableList (fun x y => x.record ≤ y.record)
    have nonzero : ∀ node ∈ a.availableList, ¬node.data = 0 := by
      intro node member same
      have positive := ok.positive node member
      rw [same] at positive
      exact absurd positive (by decide)
    have kept : ∀ node : Node,
        (node ∈ (a.availableList.mergeSort (fun x y => x.record ≤ y.record)).filter
          (fun node => ¬(node.data = 0 ∨ bucket node.data ∈ a.fullBuckets))) ↔
          node ∈ a.availableList ∧ bucket node.data ∉ a.fullBuckets := by
      intro node
      rw [List.mem_filter, order.mem_iff]
      constructor
      · rintro ⟨member, stays⟩
        simp only [not_or, decide_eq_true_eq] at stays
        exact ⟨member, stays.2⟩
      · rintro ⟨member, stays⟩
        exact ⟨member, by simpa using ⟨nonzero node member, stays⟩⟩
    refine ⟨⟨?_, ?_, ?_, ok.hint, fun id used => ok.buckets id (Finset.mem_sdiff.mp used).1⟩, ?_, rfl⟩
    · exact ((order.map Node.data).nodup_iff.mpr ok.distinct).sublist (List.filter_sublist.map _)
    · intro node member
      have parts := (kept node).mp member
      exact Finset.mem_sdiff.mpr ⟨ok.inUse node parts.1, parts.2⟩
    · exact fun node member => ok.positive node ((kept node).mp member).1
    · intro j
      unfold Free
      constructor
      · rintro (⟨node, member, rfl⟩ | ⟨positive, unused⟩)
        · exact Or.inl ⟨node, ((kept node).mp member).1, rfl⟩
        · by_cases used : bucket j ∈ a.bucketsInUse
          · -- all of a released bucket was available
            have gone : bucket j ∈ a.fullBuckets := by
              by_contra stays
              exact unused (Finset.mem_sdiff.mpr ⟨used, stays⟩)
            by_contra absent
            exact not_mem_fullBuckets ok absent gone
          · exact Or.inr ⟨positive, used⟩
      · rintro (⟨node, member, rfl⟩ | ⟨positive, unused⟩)
        · by_cases gone : bucket node.data ∈ a.fullBuckets
          · exact Or.inr ⟨ok.positive node member, fun stays => (Finset.mem_sdiff.mp stays).2 gone⟩
          · exact Or.inl ⟨node, (kept node).mpr ⟨member, gone⟩, rfl⟩
        · exact Or.inr ⟨positive, fun stays => unused (Finset.mem_sdiff.mp stays).1⟩

/-- What is posted becomes free, and nothing else does. -/
theorem post_spec {a b : Accounting} {i : BucketIndex} (ok : a.Ok) (positive : 0 < bucket i) (absent : ¬a.Free i)
    (posted : a.post i = some b) : b.Ok ∧ ∀ j, b.Free j ↔ a.Free j ∨ j = i := by
  have inUse : bucket i ∈ a.bucketsInUse := by
    by_contra unused
    exact absent (Or.inr ⟨positive, unused⟩)
  unfold post at posted
  split at posted
  · exact insertAvailable_spec ok inUse positive absent posted
  · split at posted
    · cases posted
    · obtain ⟨middle, released, inserted⟩ := Option.bind_eq_some_iff.mp posted
      obtain ⟨ok', same, used⟩ := releaseBuckets_spec ok released
      have stays : bucket i ∈ middle.bucketsInUse := by
        rw [used]
        exact Finset.mem_sdiff.mpr ⟨inUse, not_mem_fullBuckets ok absent⟩
      have result := insertAvailable_spec ok' stays positive (fun free => absent ((same i).mp free)) inserted
      simpa only [same] using result

/-- The list of indexes that a mount posts. -/
def postAll (a : Accounting) : List BucketIndex → Option Accounting
  | [] => some a
  | i :: rest => (a.post i).bind (fun b => b.postAll rest)

theorem postAll_spec {a b : Accounting} {indexes : List BucketIndex} (ok : a.Ok) (distinct : indexes.Nodup)
    (positive : ∀ i ∈ indexes, 0 < bucket i) (absent : ∀ i ∈ indexes, ¬a.Free i)
    (posted : a.postAll indexes = some b) : b.Ok ∧ ∀ j, b.Free j ↔ a.Free j ∨ j ∈ indexes := by
  induction indexes generalizing a with
  | nil =>
    cases posted
    exact ⟨ok, by simp⟩
  | cons i rest ih =>
    obtain ⟨middle, first, later⟩ := Option.bind_eq_some_iff.mp posted
    obtain ⟨notAgain, distinct⟩ := List.nodup_cons.mp distinct
    obtain ⟨ok', free⟩ := post_spec ok (positive i List.mem_cons_self) (absent i List.mem_cons_self) first
    have result := ih ok' distinct (fun j member => positive j (List.mem_cons_of_mem _ member))
      (fun j member free' => by
        rcases (free j).mp free' with old | rfl
        · exact absent j (List.mem_cons_of_mem _ member) old
        · exact notAgain member) later
    refine ⟨result.1, fun j => ?_⟩
    rw [result.2 j, free j, List.mem_cons]
    tauto

end Post

section Ready
variable {a b : Accounting} {i : BucketIndex}

/-- An accounting that can be fetched from. -/
structure Ready (a : Accounting) : Prop where
  ok : a.Ok
  records : a.availableList ≠ [] ∨ a.freeList ≠ []

theorem ready_init {buckets : Finset Nat} (positive : ∀ id ∈ buckets, 0 < id) : (init buckets).Ready := by
  refine ⟨⟨List.nodup_nil, fun _ member => absurd member List.not_mem_nil, fun _ member => absurd member List.not_mem_nil, Nat.one_pos, positive⟩,
    Or.inr ?_⟩
  exact List.ne_nil_of_length_pos (by rw [init, List.length_range]; decide)

theorem createBuckets_ne_nil (a : Accounting) : a.createBuckets.availableList ≠ [] := by
  obtain ⟨_, _, _, _, length⟩ := createLoop_spec maxBuckets a.hint a.bucketsInUse
  intro nothing
  have indexes : (createLoop maxBuckets a.hint a.bucketsInUse).1.flatMap indexesOf = [] := by
    have map : (((createLoop maxBuckets a.hint a.bucketsInUse).1.flatMap indexesOf).zipIdx.map
      (fun entry => (⟨entry.2, entry.1⟩ : Node))) = [] := nothing
    exact List.zipIdx_eq_nil_iff.mp (List.map_eq_nil_iff.mp map)
  cases ids : (createLoop maxBuckets a.hint a.bucketsInUse).1 with
  | nil =>
    rw [ids] at length
    cases length
  | cons id rest =>
    have none := List.flatMap_eq_nil_iff.mp indexes id (ids ▸ List.mem_cons_self)
    have first : make id 0 ∈ indexesOf id := mem_indexesOf.mpr (bucket_make (by decide))
    rw [none] at first
    cases first

theorem freeList_of_fetch (fetched : a.fetch = some (i, b)) : b.freeList ≠ [] := by
  unfold fetch at fetched
  split at fetched
  · cases fetched
    exact List.cons_ne_nil _ _
  · split at fetched
    · cases fetched
    · split at fetched
      · cases fetched
        exact List.cons_ne_nil _ _
      · cases fetched

theorem availableList_of_post (posted : a.post i = some b) : b.availableList ≠ [] := by
  have inserted : ∀ {a : Accounting}, a.insertAvailable i = some b → b.availableList ≠ [] := by
    intro a ran
    unfold insertAvailable at ran
    split at ran
    · cases ran
      exact List.cons_ne_nil _ _
    · cases ran
  unfold post at posted
  split at posted
  · exact inserted posted
  · split at posted
    · cases posted
    · obtain ⟨_, _, ran⟩ := Option.bind_eq_some_iff.mp posted
      exact inserted ran

/-- With a record on either list there is an index to fetch. -/
theorem fetch_of_records (records : a.availableList ≠ [] ∨ a.freeList ≠ []) : ∃ i b, a.fetch = some (i, b) := by
  unfold fetch
  cases shape : a.availableList with
  | cons node rest => exact ⟨_, _, rfl⟩
  | nil =>
    have some := records.resolve_left (not_not.mpr shape)
    obtain ⟨node, rest, made⟩ := List.exists_cons_of_ne_nil a.createBuckets_ne_nil
    dsimp only
    rw [if_neg some, made]
    exact ⟨_, _, rfl⟩

/-- A fetch returns an index that was free. -/
theorem Ready.fetch (ready : a.Ready) :
    ∃ i b, a.fetch = some (i, b) ∧ b.Ready ∧ i ≠ 0 ∧ a.Free i ∧ ∀ j, b.Free j ↔ a.Free j ∧ j ≠ i := by
  obtain ⟨i, b, fetched⟩ := fetch_of_records ready.records
  obtain ⟨ok, was, free⟩ := fetch_spec ready.ok fetched
  have positive : 0 < bucket i := by
    cases was with
    | inl there =>
      obtain ⟨node, member, same⟩ := there
      exact same ▸ ready.ok.positive node member
    | inr unused => exact unused.1
  have nonzero : i ≠ 0 := by
    rintro rfl
    exact absurd positive (by decide)
  exact ⟨i, b, fetched, ⟨ok, Or.inr (freeList_of_fetch fetched)⟩, nonzero, was, free⟩

theorem Ready.post (ready : a.Ready) (positive : 0 < bucket i) (apart : ¬a.Free i) (posted : a.post i = some b) :
    b.Ready ∧ ∀ j, b.Free j ↔ a.Free j ∨ j = i := by
  obtain ⟨ok, free⟩ := post_spec ready.ok positive apart posted
  exact ⟨⟨ok, Or.inl (availableList_of_post posted)⟩, free⟩

/-- So many indexes are fetched, one after the other. -/
def fetchAll : (n : Nat) → Accounting → Option Accounting
  | 0, a => some a
  | n + 1, a => a.fetch.bind (fun result => fetchAll n result.2)

theorem fetchAll_add (m n : Nat) (a : Accounting) : fetchAll (m + n) a = (fetchAll m a).bind (fetchAll n) := by
  induction m generalizing a with
  | zero => rw [Nat.zero_add, fetchAll, Option.bind_some]
  | succ m ih =>
    rw [Nat.succ_add, fetchAll, fetchAll]
    cases a.fetch with
    | none => rfl
    | some result => exact ih result.2

end Ready

end Accounting
end CloudCryptFS.Filesystem
