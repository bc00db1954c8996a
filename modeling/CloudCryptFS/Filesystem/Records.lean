import CloudCryptFS.Filesystem.PoolSteps
import Mathlib.Data.Finset.Sort

/-! One caller on the accounting of bucket indexes. The lists are those of the records
themselves, relinked when buckets are made or released, and the ids that come and go
are those that the storage is told of. -/

namespace CloudCryptFS.Filesystem
open Util Linked BucketIndex
open Accounting (maxBuckets indexesOf createLoop createLoop_spec mem_indexesOf nodup_indexesOf)

/-- What the accounting tells its `bucketInfo`. -/
inductive InfoCall where
  | createNewBucket (id : Nat)
  | removeBucket (id : Nat)
  deriving DecidableEq

/-- The buckets that a call leaves. -/
def InfoCall.on (buckets : Finset Nat) : InfoCall → Finset Nat
  | createNewBucket id => insert id buckets
  | removeBucket id => buckets.erase id

/-- `bucketaccounting`, with the calls of `info` so far. -/
structure Records where
  memory : Memory
  calls : List InfoCall

namespace Records

def takeFromList (l : ListName) (m : Memory) : Option (Nat × Memory) :=
  (m.head l).map (fun expected => (expected, m.setHead l (m.nextNode expected)))

def insertIntoList (newNode : Nat) (l : ListName) (m : Memory) : Memory :=
  (m.setNext newNode (m.head l)).setHead l (some newNode)

def stealList (l : ListName) (m : Memory) : Option Memory := (m.head l).map (fun _ => m.setHead l none)

/-- The constructor. -/
def create (buckets : Finset Nat) : Records := ⟨(Pool.create buckets []).memory, []⟩

/-- The ids that the loop of `createBuckets` picks. -/
def newIds (s : Records) : List Nat := (createLoop maxBuckets s.memory.hint s.memory.bucketsInUse).1

def createBuckets (s : Records) : Records :=
  ⟨s.memory.writeAll (createWrites s.newIds), s.calls ++ s.newIds.map .createNewBucket⟩

/-- The nodes are inserted from the last one on. -/
def insertAll (nodes : List Nat) (l : ListName) (m : Memory) : Memory := nodes.foldr (fun n m => insertIntoList n l m) m

def clearAll (nodes : List Nat) (m : Memory) : Memory := nodes.foldl (fun m n => m.setData n 0) m

/-- The buckets that are found 256 times in the records. -/
def toDelete (m : Memory) : Finset Nat := Pool.fullBuckets ((List.range recordCount).map m.data)

def gone (toDelete : Finset Nat) (m : Memory) (n : Nat) : Bool := m.data n = 0 ∨ bucket (m.data n) ∈ toDelete

def delList (toDelete : Finset Nat) (m : Memory) : List Nat := (List.range recordCount).filter (gone toDelete m)

def availList (toDelete : Finset Nat) (m : Memory) : List Nat := (List.range recordCount).filter (fun n => !gone toDelete m n)

/-- The nodes of `delList` go to `freeList`, and those of `availList` back to `availableList`. -/
def relink (toDelete : Finset Nat) (m : Memory) : Memory :=
  insertAll (availList toDelete m) .available (insertAll (delList toDelete m) .free (clearAll (delList toDelete m) m))

/-- `releaseBuckets`; `none` where an assertion fails. -/
def releaseBuckets (s : Records) : Option Records :=
  if s.memory.head .free ≠ none then none
  else
    match stealList .available s.memory with
    | none => none
    | some m =>
      if toDelete m = ∅ then none
      else
        let linked := relink (toDelete m) m
        let calls := s.calls ++ ((toDelete m).sort (· ≤ ·)).map .removeBucket
        if linked.head .free = none then none else some ⟨{ linked with bucketsInUse := linked.bucketsInUse \ toDelete m }, calls⟩

/-- `fetch`; the fuel is for the rounds of its loop. -/
def fetch : (fuel : Nat) → Records → Option (BucketIndex × Records)
  | 0, _ => none
  | fuel + 1, s =>
    match takeFromList .available s.memory with
    | some (node, m) => some (m.data node, { s with memory := insertIntoList node .free (m.setData node 0) })
    | none => fetch fuel (if s.memory.head .available = none ∧ s.memory.head .free ≠ none then s.createBuckets else s)

def post : (fuel : Nat) → BucketIndex → Records → Option Records
  | 0, _, _ => none
  | fuel + 1, data, s =>
    match takeFromList .free s.memory with
    | some (node, m) => some { s with memory := insertIntoList node .available (m.setData node data) }
    | none =>
      if s.memory.head .free = none ∧ s.memory.head .available ≠ none then s.releaseBuckets.bind (post fuel data)
      else post fuel data s

inductive Op where
  | fetch
  | post (data : BucketIndex)

def step (fuel : Nat) : Op → Records → Option Records
  | .fetch, s => (s.fetch fuel).map Prod.snd
  | .post data, s => s.post fuel data

abbrev run (fuel : Nat) : List Op → Records → Option Records := Schedule.run (step fuel)

/-- The indexes in the records of `availableList`, from its head on. -/
def Available (s : Records) (i : BucketIndex) : Prop :=
  ∃ l, Chain s.memory.nextNode (s.memory.head .available) l ∧ i ∈ l.map s.memory.data

/-- What is posted is a slot of a bucket in use, and not available. -/
def Valid (s : Records) : Op → Prop
  | .fetch => True
  | .post data => bucket data ∈ s.memory.bucketsInUse ∧ ¬s.Available data

/-- Every record is in one place, and every available index in one record. -/
structure Sound (m : Memory) (L : ListName → List Nat) : Prop where
  chain : ∀ l, Chain m.nextNode (m.head l) (L l)
  records : (L .available ++ L .free).Perm (List.range recordCount)
  distinct : ((L .available).map m.data).Nodup
  inUse : ∀ n ∈ L .available, bucket (m.data n) ∈ m.bucketsInUse
  hint : 0 < m.hint

variable {m : Memory} {L : ListName → List Nat} {s t : Records}

theorem available_iff (sound : Sound s.memory L) (i : BucketIndex) : s.Available i ↔ i ∈ (L .available).map s.memory.data := by
  constructor
  · rintro ⟨l, chain, member⟩
    rwa [(sound.chain .available).unique chain]
  · exact fun member => ⟨L .available, sound.chain .available, member⟩

theorem Sound.nodup (sound : Sound m L) : (L .available ++ L .free).Nodup := sound.records.nodup_iff.mpr List.nodup_range

theorem Sound.head_eq_none_iff (sound : Sound m L) (l : ListName) : m.head l = none ↔ L l = [] := by
  have chain := sound.chain l
  constructor
  · intro nothing
    rw [nothing] at chain
    exact chain.of_none
  · intro nothing
    rw [nothing] at chain
    exact chain.of_nil

theorem recordCount_pos : 0 < recordCount := by decide

theorem create_memory (buckets : Finset Nat) : ∃ blank : Memory, (create buckets).memory = blank.writeAll cleanRecords ∧
    blank.head .available = none ∧ blank.head .free = some 0 ∧ blank.hint = 1 ∧ blank.bucketsInUse = buckets := by
  dsimp only [create, Pool.create]
  exact ⟨_, rfl, rfl, rfl, rfl, rfl⟩

theorem create_sound (buckets : Finset Nat) :
    Sound (create buckets).memory (fun l => match l with | .available => [] | .free => List.range recordCount) := by
  obtain ⟨blank, shape, head, first, hint, _⟩ := create_memory buckets
  have chain := cleanRecords_chain blank
  obtain ⟨next, linked⟩ := writeAll_cleanRecords blank
  rw [shape]
  rw [linked] at chain ⊢
  refine ⟨fun l => ?_, List.Perm.of_eq (List.nil_append _), List.nodup_nil, fun n member => absurd member List.not_mem_nil, hint ▸ Nat.one_pos⟩
  cases l with
  | available =>
    dsimp only
    rw [head]
    exact .nil
  | free =>
    dsimp only
    rw [first]
    exact chain

section Move

theorem data_moved (node : Nat) (i : BucketIndex) (source target : ListName) (next : Option Nat) {n : Nat} (other : n ≠ node) :
    (insertIntoList node target ((m.setHead source next).setData node i)).data n = m.data n := by
  simp only [insertIntoList, Memory.setHead, Memory.setNext, Memory.setData, Function.update_of_ne other]

theorem data_moved_self (node : Nat) (i : BucketIndex) (source target : ListName) (next : Option Nat) :
    (insertIntoList node target ((m.setHead source next).setData node i)).data node = i := by
  simp only [insertIntoList, Memory.setHead, Memory.setNext, Memory.setData, Function.update_self]

/-- A node that is taken from one list and inserted into the other. -/
theorem move_chain {source target : ListName} (different : target ≠ source) {node : Nat} {rest : List Nat} (data : BucketIndex)
    (taken : Chain m.nextNode (m.nextNode node) rest) (other : Chain m.nextNode (m.head target) (L target))
    (left : node ∉ rest) (apart : node ∉ L target) :
    let moved := insertIntoList node target ((m.setHead source (m.nextNode node)).setData node data)
    Chain moved.nextNode (moved.head source) rest ∧ Chain moved.nextNode (moved.head target) (node :: L target) := by
  intro moved
  have next : ∀ n, n ≠ node → moved.nextNode n = m.nextNode n := fun n far => Function.update_of_ne far _ _
  have here : moved.nextNode node = m.head target := (Function.update_self node _ _).trans (Function.update_of_ne different _ _)
  have first : moved.head source = m.nextNode node := (Function.update_of_ne different.symm _ _).trans (Function.update_self source _ _)
  have last : moved.head target = some node := Function.update_self target _ _
  constructor
  · rw [first]
    exact taken.congr (fun n member => next n (fun same => left (same ▸ member)))
  · rw [last]
    refine .cons ?_
    rw [here]
    exact other.congr (fun n member => next n (fun same => apart (same ▸ member)))

/-- The head of `availableList` goes to `freeList`. -/
theorem fetched_sound (sound : Sound m L) {node : Nat} (head : m.head .available = some node) :
    ∃ rest, L .available = node :: rest ∧
      rest.map (insertIntoList node .free ((m.setHead .available (m.nextNode node)).setData node 0)).data = rest.map m.data ∧
      Sound (insertIntoList node .free ((m.setHead .available (m.nextNode node)).setData node 0))
        (fun l => match l with | .available => rest | .free => node :: L .free) := by
  have chain := sound.chain .available
  rw [head] at chain
  obtain ⟨rest, shape, taken⟩ := chain.of_some
  have nodup := sound.nodup
  rw [shape, List.cons_append, List.nodup_cons, List.mem_append, not_or] at nodup
  have apart : ListName.free ≠ ListName.available := by decide
  obtain ⟨first, last⟩ := move_chain apart 0 taken (sound.chain .free) nodup.1.1 nodup.1.2
  have same : rest.map (insertIntoList node .free ((m.setHead .available (m.nextNode node)).setData node 0)).data = rest.map m.data := by
    apply List.map_congr_left
    intro n member
    exact data_moved node 0 .available .free _ (fun here : n = node => nodup.1.1 (here ▸ member))
  have distinct := sound.distinct
  have inUse := sound.inUse
  have records := sound.records
  rw [shape] at distinct inUse records
  refine ⟨rest, shape, same, fun l => ?_, ?_, ?_, fun n member => ?_, sound.hint⟩
  · cases l with
    | available => exact first
    | free => exact last
  · exact List.perm_middle.trans records
  · change (rest.map _).Nodup
    rw [same]
    exact (List.nodup_cons.mp distinct).2
  · have kept : (insertIntoList node .free ((m.setHead .available (m.nextNode node)).setData node 0)).data n = m.data n :=
      data_moved node 0 .available .free _ (fun here : n = node => nodup.1.1 (here ▸ member))
    rw [kept]
    exact inUse n (List.mem_cons_of_mem _ member)

/-- The head of `freeList` goes to `availableList`, with an index that is not there yet. -/
theorem posted_sound (sound : Sound m L) {node : Nat} (head : m.head .free = some node) {i : BucketIndex}
    (used : bucket i ∈ m.bucketsInUse) (absent : i ∉ (L .available).map m.data) :
    ∃ rest, L .free = node :: rest ∧
      (L .available).map (insertIntoList node .available ((m.setHead .free (m.nextNode node)).setData node i)).data = (L .available).map m.data ∧
      Sound (insertIntoList node .available ((m.setHead .free (m.nextNode node)).setData node i))
        (fun l => match l with | .available => node :: L .available | .free => rest) := by
  have chain := sound.chain .free
  rw [head] at chain
  obtain ⟨rest, shape, taken⟩ := chain.of_some
  have nodup := (List.perm_append_comm.nodup_iff).mp sound.nodup
  rw [shape, List.cons_append, List.nodup_cons, List.mem_append, not_or] at nodup
  have apart : ListName.available ≠ ListName.free := by decide
  obtain ⟨first, last⟩ := move_chain apart i taken (sound.chain .available) nodup.1.1 nodup.1.2
  have here : (insertIntoList node .available ((m.setHead .free (m.nextNode node)).setData node i)).data node = i :=
    data_moved_self node i .free .available _
  have kept : ∀ n ∈ L .available, (insertIntoList node .available ((m.setHead .free (m.nextNode node)).setData node i)).data n = m.data n :=
    fun n member => data_moved node i .free .available _ (fun same : n = node => nodup.1.2 (same ▸ member))
  have same := List.map_congr_left kept
  have records := sound.records
  rw [shape] at records
  refine ⟨rest, shape, same, fun l => ?_, ?_, ?_, fun n member => ?_, sound.hint⟩
  · cases l with
    | available => exact last
    | free => exact first
  · exact List.perm_middle.symm.trans records
  · change ((node :: L .available).map _).Nodup
    rw [List.map_cons, here, same]
    exact List.nodup_cons.mpr ⟨absent, sound.distinct⟩
  · cases List.mem_cons.mp member with
    | inl new =>
      rw [new, here]
      exact used
    | inr old =>
      rw [kept n old]
      exact sound.inUse n old

end Move

section Create

theorem newIds_spec (s : Records) :
    s.newIds.Nodup ∧ (∀ id ∈ s.newIds, id ∉ s.memory.bucketsInUse ∧ s.memory.hint ≤ id) ∧ s.newIds.length = maxBuckets := by
  obtain ⟨distinct, fresh, _, _, length⟩ := createLoop_spec maxBuckets s.memory.hint s.memory.bucketsInUse
  exact ⟨distinct, fresh, length⟩

theorem nodup_flatMap_indexesOf {ids : List Nat} (distinct : ids.Nodup) : (ids.flatMap indexesOf).Nodup := by
  rw [List.nodup_flatMap]
  apply And.intro (fun id _ => nodup_indexesOf id)
  apply distinct.imp
  intro id other different i here there
  exact different ((mem_indexesOf.mp here).symm.trans (mem_indexesOf.mp there))

theorem mem_flatMap_indexesOf {ids : List Nat} {i : BucketIndex} : i ∈ ids.flatMap indexesOf ↔ bucket i ∈ ids := by
  simp [List.mem_flatMap, mem_indexesOf]

/-- After `createBuckets` all indexes of the new buckets are available. -/
theorem createBuckets_sound (positive : 0 < s.memory.hint) :
    Sound s.createBuckets.memory (fun l => match l with | .available => List.range recordCount | .free => []) ∧
      (List.range recordCount).map s.createBuckets.memory.data = s.newIds.flatMap indexesOf ∧
      ∀ id, id ∈ s.createBuckets.memory.bucketsInUse ↔ id ∈ s.memory.bucketsInUse ∨ id ∈ s.newIds := by
  obtain ⟨distinct, fresh, length⟩ := newIds_spec s
  obtain ⟨chain, available, free, data, used, hint⟩ := createWrites_spec s.newIds length s.memory
  have shape : s.createBuckets.memory = s.memory.writeAll (createWrites s.newIds) := by rw [createBuckets]
  rw [← shape] at chain available free data used hint
  generalize s.createBuckets.memory = made at chain available free data used hint ⊢
  generalize s.newIds = ids at distinct data used ⊢
  refine ⟨⟨fun l => ?_, List.Perm.of_eq (List.append_nil _), ?_, fun n member => ?_, hint positive⟩, data, used⟩
  · cases l with
    | available =>
      dsimp only
      rw [available]
      exact chain
    | free =>
      dsimp only
      rw [free]
      exact .nil
  · change ((List.range recordCount).map made.data).Nodup
    rw [data]
    exact nodup_flatMap_indexesOf distinct
  · have there : made.data n ∈ ids.flatMap indexesOf := by
      rw [← data]
      exact List.mem_map_of_mem member
    exact (used _).mpr (Or.inr (mem_flatMap_indexesOf.mp there))

end Create

section Release

theorem clearAll_spec (nodes : List Nat) (m : Memory) : clearAll nodes m = { m with data := fun n => if n ∈ nodes then 0 else m.data n } := by
  induction nodes generalizing m with
  | nil => simp [clearAll]
  | cons node nodes ih =>
    have later : clearAll (node :: nodes) m = clearAll nodes (m.setData node 0) := rfl
    rw [later, ih]
    simp only [Memory.setData]
    congr 1
    funext n
    by_cases here : n = node
    · rw [here, Function.update_self, if_pos List.mem_cons_self]
      exact ite_self 0
    · rw [Function.update_of_ne here]
      simp only [List.mem_cons, here, false_or]

/-- Only links and heads change. -/
theorem insertAll_shape (nodes : List Nat) (l : ListName) (m : Memory) :
    ∃ next head, insertAll nodes l m = { m with nextNode := next, head := head } := by
  induction nodes with
  | nil => exact ⟨m.nextNode, m.head, rfl⟩
  | cons node nodes ih =>
    obtain ⟨next, head, shape⟩ := ih
    have first : insertAll (node :: nodes) l m = insertIntoList node l (insertAll nodes l m) := rfl
    rw [first, shape]
    exact ⟨_, _, rfl⟩

/-- An empty list gets the nodes in their order. -/
theorem insertAll_chain {nodes : List Nat} (distinct : nodes.Nodup) {l : ListName} (empty : m.head l = none) :
    Chain (insertAll nodes l m).nextNode ((insertAll nodes l m).head l) nodes ∧
      (∀ n ∉ nodes, (insertAll nodes l m).nextNode n = m.nextNode n) ∧ ∀ l' ≠ l, (insertAll nodes l m).head l' = m.head l' := by
  induction nodes with
  | nil =>
    have same : insertAll [] l m = m := rfl
    rw [same, empty]
    exact ⟨.nil, fun _ _ => rfl, fun _ _ => rfl⟩
  | cons node nodes ih =>
    obtain ⟨notAgain, distinct⟩ := List.nodup_cons.mp distinct
    obtain ⟨chain, others, heads⟩ := ih distinct
    have first : insertAll (node :: nodes) l m = insertIntoList node l (insertAll nodes l m) := rfl
    rw [first]
    generalize insertAll nodes l m = later at chain others heads
    have next : ∀ n, n ≠ node → (insertIntoList node l later).nextNode n = later.nextNode n := fun n far => by
      simp only [insertIntoList, Memory.setHead, Memory.setNext, Function.update_of_ne far]
    have here : (insertIntoList node l later).nextNode node = later.head l := by
      simp only [insertIntoList, Memory.setHead, Memory.setNext, Function.update_self]
    refine ⟨?_, fun n outside => ?_, fun l' different => ?_⟩
    · rw [show (insertIntoList node l later).head l = some node from Memory.head_setHead_self l _ _]
      refine .cons ?_
      rw [here]
      exact chain.congr (fun n member => next n (fun same => notAgain (same ▸ member)))
    · rw [List.mem_cons, not_or] at outside
      exact (next n outside.1).trans (others n outside.2)
    · exact (Memory.head_setHead_of_ne different _ _).trans (heads l' different)

/-- The nodes of `delList` are free, and the others available as before. -/
theorem relink_spec (toDelete : Finset Nat) (empty : ∀ l, m.head l = none) :
    Chain (relink toDelete m).nextNode ((relink toDelete m).head .free) (delList toDelete m) ∧
      Chain (relink toDelete m).nextNode ((relink toDelete m).head .available) (availList toDelete m) ∧
      (∀ n ∈ availList toDelete m, (relink toDelete m).data n = m.data n) ∧
      (relink toDelete m).bucketsInUse = m.bucketsInUse ∧ (relink toDelete m).hint = m.hint := by
  have disjoint : ∀ n ∈ delList toDelete m, n ∉ availList toDelete m := by
    intro n member again
    have yes := (List.mem_filter.mp member).2
    have no := (List.mem_filter.mp again).2
    rw [yes] at no
    cases no
  have first : (delList toDelete m).Nodup := List.nodup_range.filter _
  have second : (availList toDelete m).Nodup := List.nodup_range.filter _
  unfold relink
  generalize delList toDelete m = del at disjoint first
  generalize availList toDelete m = avail at disjoint second
  have cleared := clearAll_spec del m
  have head : ∀ l, (clearAll del m).head l = none := fun l => by rw [cleared]; exact empty l
  obtain ⟨next, heads, shape⟩ := insertAll_shape del .free (clearAll del m)
  obtain ⟨chain, _, left⟩ := insertAll_chain first (head .free)
  have empty' := (left .available (by decide)).trans (head .available)
  obtain ⟨next', heads', shape'⟩ := insertAll_shape avail .available (insertAll del .free (clearAll del m))
  obtain ⟨chain', others, left'⟩ := insertAll_chain second empty'
  refine ⟨?_, chain', fun n member => ?_, ?_, ?_⟩
  · rw [left' .free (by decide)]
    exact chain.congr (fun n member => others n (disjoint n member))
  · rw [shape', shape, cleared]
    exact if_neg (fun again => disjoint n again member)
  · rw [shape', shape, cleared]
  · rw [shape', shape, cleared]

/-- Without repetition, a bucket is found 256 times where all its indexes are. -/
theorem mem_fullBuckets_iff {seen : List BucketIndex} (distinct : seen.Nodup) {id : Nat} :
    id ∈ Pool.fullBuckets seen ↔ ∀ i ∈ indexesOf id, i ∈ seen := by
  constructor
  · intro full i inside
    rw [← mem_indexesOf.mp inside] at full
    have once := Pool.count_eq_one_of_full (List.nodup_iff_count_le_one.mp distinct) full
    exact List.count_pos_iff.mp (once ▸ Nat.one_pos)
  · intro all
    have perm : (seen.filter (fun i => bucket i = id)).Perm (indexesOf id) := by
      apply (List.perm_ext_iff_of_nodup (distinct.filter _) (nodup_indexesOf id)).mpr
      intro i
      rw [List.mem_filter, mem_indexesOf, decide_eq_true_eq]
      exact ⟨fun both => both.2, fun here => ⟨all i (mem_indexesOf.mpr here), here⟩⟩
    have often : (seen.map bucket).count id = chunksInBucket := by
      rw [List.count_eq_countP, List.countP_map, List.countP_eq_length_filter]
      exact perm.length_eq.trans (by rw [indexesOf, List.length_map, List.length_range])
    have there : id ∈ seen.map bucket := List.count_pos_iff.mp (often ▸ (by decide : 0 < chunksInBucket))
    exact Finset.mem_filter.mpr ⟨List.mem_toFinset.mpr there, often⟩

theorem Sound.of_empty (sound : Sound m L) (empty : m.head .free = none) : (L .available).Perm (List.range recordCount) := by
  have free := sound.chain .free
  rw [empty] at free
  have records := sound.records
  rwa [free.of_none, List.append_nil] at records

theorem Sound.available_of_empty (sound : Sound m L) (empty : m.head .free = none) : m.head .available ≠ none := by
  intro nothing
  have length := (sound.of_empty empty).length_eq
  rw [(sound.head_eq_none_iff .available).mp nothing, List.length_range] at length
  exact recordCount_pos.ne length

/-- With no free record, the buckets to delete are those all of which is available. -/
theorem mem_toDelete_iff (sound : Sound m L) (empty : m.head .free = none) {id : Nat} :
    id ∈ toDelete m ↔ ∀ i ∈ indexesOf id, i ∈ (L .available).map m.data := by
  have perm := (sound.of_empty empty).map m.data
  rw [toDelete, mem_fullBuckets_iff (perm.nodup_iff.mp sound.distinct)]
  simp only [perm.mem_iff]

/-- The list of available records has been taken, and is linked again without the buckets
that are full. -/
theorem relink_sound (sound : Sound m L) (empty : m.head .free = none) {stolen linked : Memory} (taken : stolen = m.setHead .available none)
    (shape : linked = relink (toDelete m) stolen) :
    ∃ L', Sound { linked with bucketsInUse := linked.bucketsInUse \ toDelete m } L' ∧
      (L' .available).map linked.data ⊆ (L .available).map m.data ∧
      linked.bucketsInUse = m.bucketsInUse ∧ (toDelete m ≠ ∅ → L' .free ≠ [] ∧ linked.head .free ≠ none) := by
  have all := sound.of_empty empty
  have heads : ∀ l, stolen.head l = none := fun l => by
    rw [taken]
    cases l with
    | available => exact Memory.head_setHead_self _ _ _
    | free => exact (Memory.head_setHead_of_ne (by decide) _ _).trans empty
  have data : stolen.data = m.data := by rw [taken]; rfl
  obtain ⟨delChain, availChain, kept, used, hint⟩ := relink_spec (toDelete m) heads
  rw [← shape] at delChain availChain kept used hint
  rw [data] at kept
  have used' : linked.bucketsInUse = m.bucketsInUse := used.trans (by rw [taken]; rfl)
  have hint' : 0 < linked.hint := by
    rw [hint, taken]
    exact sound.hint
  have some : toDelete m ≠ ∅ → delList (toDelete m) stolen ≠ [] := by
    intro something
    obtain ⟨id, full⟩ := Finset.nonempty_iff_ne_empty.mpr something
    have first : make id 0 ∈ indexesOf id := mem_indexesOf.mpr (bucket_make (by decide))
    obtain ⟨n, inside, there⟩ := List.mem_map.mp ((mem_toDelete_iff sound empty).mp full _ first)
    apply List.ne_nil_of_mem (a := n)
    apply List.mem_filter.mpr
    refine ⟨all.mem_iff.mp inside, ?_⟩
    rw [gone, decide_eq_true_eq, data, there, bucket_make (by decide)]
    exact Or.inr full
  have seen : ∀ n ∈ availList (toDelete m) stolen, n ∈ L .available := fun n listed => all.mem_iff.mpr (List.mem_filter.mp listed).1
  have stays : ∀ n ∈ availList (toDelete m) stolen, bucket (m.data n) ∉ toDelete m := by
    intro n listed
    have stays := (List.mem_filter.mp listed).2
    rw [gone, Bool.not_eq_true', decide_eq_false_iff_not, not_or, data] at stays
    exact stays.2
  have records : (availList (toDelete m) stolen ++ delList (toDelete m) stolen).Perm (List.range recordCount) :=
    List.perm_append_comm.trans (List.filter_append_perm (gone (toDelete m) stolen) _)
  have distinct : (availList (toDelete m) stolen).Nodup := List.nodup_range.filter _
  have injective := List.inj_on_of_nodup_map sound.distinct
  generalize availList (toDelete m) stolen = avail at availChain kept seen stays records distinct
  generalize delList (toDelete m) stolen = del at delChain some records
  have map : avail.map linked.data = avail.map m.data := List.map_congr_left kept
  refine ⟨fun l => match l with | .available => avail | .free => del, ⟨fun l => ?_, records, ?_, fun n listed => ?_, hint'⟩, ?_, used', fun something => ⟨some something, fun nothing => ?_⟩⟩
  · cases l with
    | available => exact availChain
    | free => exact delChain
  · change (avail.map linked.data).Nodup
    rw [map]
    exact distinct.map_on (fun x here y there => injective (seen x here) (seen y there))
  · change bucket (linked.data n) ∈ linked.bucketsInUse \ toDelete m
    rw [kept n listed, used']
    exact Finset.mem_sdiff.mpr ⟨sound.inUse n (seen n listed), stays n listed⟩
  · change avail.map linked.data ⊆ _
    rw [map]
    exact List.map_subset _ seen
  · rw [nothing] at delChain
    exact some something delChain.of_none

/-- What `releaseBuckets` does where no record is free: it fails where no bucket is full,
and the records of full buckets are free after it. -/
theorem releaseBuckets_spec (sound : Sound s.memory L) (empty : s.memory.head .free = none) :
    (toDelete s.memory = ∅ ∧ s.releaseBuckets = none) ∨
      (toDelete s.memory ≠ ∅ ∧ ∃ t L', s.releaseBuckets = some t ∧ Sound t.memory L' ∧ L' .free ≠ [] ∧
        ((L' .available).map t.memory.data) ⊆ ((L .available).map s.memory.data) ∧
        t.memory.bucketsInUse = s.memory.bucketsInUse \ toDelete s.memory ∧
        t.calls = s.calls ++ ((toDelete s.memory).sort (· ≤ ·)).map .removeBucket) := by
  obtain ⟨first, head⟩ := Option.ne_none_iff_exists'.mp (sound.available_of_empty empty)
  obtain ⟨stolen, taken⟩ : ∃ stolen, stolen = s.memory.setHead .available none := ⟨_, rfl⟩
  have steal : stealList .available s.memory = Option.some stolen := by rw [stealList, head, Option.map_some, taken]
  have same : toDelete stolen = toDelete s.memory := by rw [taken, toDelete, toDelete, Memory.setHead]
  obtain ⟨linked, shape⟩ : ∃ linked, linked = relink (toDelete s.memory) stolen := ⟨_, rfl⟩
  obtain ⟨L', sound', subset, used, filled⟩ := relink_sound sound empty taken shape
  unfold releaseBuckets
  rw [if_neg (not_not.mpr empty), steal]
  dsimp only
  rw [same, ← shape]
  by_cases nothing : toDelete s.memory = ∅
  · exact Or.inl ⟨nothing, if_pos nothing⟩
  · right
    rw [if_neg nothing, if_neg (filled nothing).2]
    rw [used] at sound' ⊢
    exact ⟨nothing, _, L', rfl, sound', (filled nothing).1, subset, rfl, rfl⟩

end Release

section Calls

theorem foldl_create (ids : List Nat) (buckets : Finset Nat) :
    (ids.map InfoCall.createNewBucket).foldl InfoCall.on buckets = buckets ∪ ids.toFinset := by
  induction ids generalizing buckets with
  | nil => simp
  | cons id ids ih =>
    rw [List.map_cons, List.foldl_cons, ih, InfoCall.on, List.toFinset_cons, Finset.insert_union, Finset.union_insert]

theorem foldl_remove (ids : List Nat) (buckets : Finset Nat) :
    (ids.map InfoCall.removeBucket).foldl InfoCall.on buckets = buckets \ ids.toFinset := by
  induction ids generalizing buckets with
  | nil => simp
  | cons id ids ih =>
    rw [List.map_cons, List.foldl_cons, ih, InfoCall.on, List.toFinset_cons, Finset.sdiff_insert, Finset.erase_sdiff_comm]

/-- The buckets in use are the first ones, with those that were made and without those
that were released. -/
def Logged (buckets : Finset Nat) (s : Records) : Prop := s.memory.bucketsInUse = s.calls.foldl InfoCall.on buckets

theorem Logged.append {buckets : Finset Nat} (logged : Logged buckets s) {new : List InfoCall} (calls : t.calls = s.calls ++ new)
    (used : t.memory.bucketsInUse = new.foldl InfoCall.on s.memory.bucketsInUse) : Logged buckets t := by
  rw [Logged, calls, List.foldl_append, ← logged, used]

/-- What a `fetch` does: the index is the first that is available, perhaps after buckets
have been made. -/
structure Fetched (s : Records) (L L' : ListName → List Nat) (i : BucketIndex) (t : Records) (new : List InfoCall) : Prop where
  sound : Sound t.memory L'
  calls : t.calls = s.calls ++ new
  used : t.memory.bucketsInUse = new.foldl InfoCall.on s.memory.bucketsInUse
  taken : (new = [] ∧ (L .available).map s.memory.data = i :: (L' .available).map t.memory.data) ∨
    (L .available = [] ∧ new = s.newIds.map .createNewBucket ∧ s.newIds.flatMap indexesOf = i :: (L' .available).map t.memory.data)

theorem fetch_some (sound : Sound s.memory L) (filled : L .available ≠ []) (fuel : Nat) :
    ∃ i t L', s.fetch (fuel + 1) = some (i, t) ∧ Sound t.memory L' ∧ t.calls = s.calls ∧ t.memory.bucketsInUse = s.memory.bucketsInUse ∧
      (L .available).map s.memory.data = i :: (L' .available).map t.memory.data := by
  obtain ⟨node, head⟩ := Option.ne_none_iff_exists'.mp (fun nothing => filled ((sound.head_eq_none_iff .available).mp nothing))
  obtain ⟨rest, shape, same, sound'⟩ := fetched_sound sound head
  refine ⟨s.memory.data node,
    { s with memory := insertIntoList node .free ((s.memory.setHead .available (s.memory.nextNode node)).setData node 0) }, _, ?_, sound', rfl, rfl, ?_⟩
  · rw [fetch, takeFromList, head, Option.map_some]
    rfl
  · rw [shape, List.map_cons]
    exact congrArg _ same.symm

theorem fetch_create (sound : Sound s.memory L) (empty : L .available = []) (fuel : Nat) : s.fetch (fuel + 1) = s.createBuckets.fetch fuel := by
  have available := (sound.head_eq_none_iff .available).mpr empty
  have free : s.memory.head .free ≠ none := fun nothing => sound.available_of_empty nothing available
  rw [fetch, takeFromList, available, Option.map_none]
  dsimp only
  rw [if_pos ⟨rfl, free⟩]

theorem fetched {fuel : Nat} {i : BucketIndex} (sound : Sound s.memory L) (ran : s.fetch fuel = some (i, t)) : ∃ L' new, Fetched s L L' i t new := by
  cases fuel with
  | zero => cases ran
  | succ fuel =>
    by_cases empty : L .available = []
    · rw [fetch_create sound empty] at ran
      obtain ⟨sound', data, used⟩ := createBuckets_sound sound.hint
      cases fuel with
      | zero => cases ran
      | succ fuel =>
        obtain ⟨j, u, L', ran', made, calls, used', shape⟩ := fetch_some sound' (List.ne_nil_of_length_pos (by simpa using recordCount_pos)) fuel
        rw [ran'] at ran
        cases ran
        refine ⟨L', s.newIds.map .createNewBucket, made, calls, ?_, Or.inr ⟨empty, rfl, data.symm.trans shape⟩⟩
        rw [used', foldl_create]
        ext id
        rw [used, Finset.mem_union, List.mem_toFinset]
    · obtain ⟨j, u, L', ran', made, calls, used, shape⟩ := fetch_some sound empty fuel
      rw [ran'] at ran
      cases ran
      exact ⟨L', [], made, calls.trans (List.append_nil _).symm, used, Or.inl ⟨rfl, shape⟩⟩

/-- What a `post` does: the index is available afterwards, perhaps after full buckets have
been released. -/
structure Posted (s : Records) (L L' : ListName → List Nat) (i : BucketIndex) (t : Records) (new : List InfoCall) : Prop where
  sound : Sound t.memory L'
  calls : t.calls = s.calls ++ new
  used : t.memory.bucketsInUse = new.foldl InfoCall.on s.memory.bucketsInUse
  subset : (L' .available).map t.memory.data ⊆ i :: (L .available).map s.memory.data
  posted : i ∈ (L' .available).map t.memory.data
  added : (new = [] ∧ (L' .available).map t.memory.data = i :: (L .available).map s.memory.data) ∨
    (s.memory.head .free = none ∧ new = ((toDelete s.memory).sort (· ≤ ·)).map .removeBucket ∧ toDelete s.memory ≠ ∅)

theorem post_some (sound : Sound s.memory L) (filled : L .free ≠ []) {i : BucketIndex} (used : bucket i ∈ s.memory.bucketsInUse)
    (absent : i ∉ (L .available).map s.memory.data) (fuel : Nat) :
    ∃ t L', s.post (fuel + 1) i = some t ∧ Sound t.memory L' ∧ t.calls = s.calls ∧ t.memory.bucketsInUse = s.memory.bucketsInUse ∧
      (L' .available).map t.memory.data = i :: (L .available).map s.memory.data := by
  obtain ⟨node, head⟩ := Option.ne_none_iff_exists'.mp (fun nothing => filled ((sound.head_eq_none_iff .free).mp nothing))
  obtain ⟨rest, shape, same, sound'⟩ := posted_sound sound head used absent
  refine ⟨{ s with memory := insertIntoList node .available ((s.memory.setHead .free (s.memory.nextNode node)).setData node i) }, _, ?_, sound', rfl, rfl, ?_⟩
  · rw [post, takeFromList, head, Option.map_some]
  · rw [List.map_cons, data_moved_self]
    exact congrArg _ same

theorem post_full (empty : s.memory.head .free = none) (sound : Sound s.memory L) (i : BucketIndex) (fuel : Nat) :
    s.post (fuel + 1) i = s.releaseBuckets.bind (post fuel i) := by
  have available := sound.available_of_empty empty
  rw [post, takeFromList, empty, Option.map_none]
  dsimp only
  rw [if_pos ⟨rfl, available⟩]

theorem sort_toFinset_foldl (D buckets : Finset Nat) :
    ((D.sort (· ≤ ·)).map InfoCall.removeBucket).foldl InfoCall.on buckets = buckets \ D := by
  rw [foldl_remove, Finset.sort_toFinset]

theorem posted {fuel : Nat} {i : BucketIndex} (sound : Sound s.memory L) (used : bucket i ∈ s.memory.bucketsInUse)
    (absent : i ∉ (L .available).map s.memory.data) (ran : s.post fuel i = some t) : ∃ L' new, Posted s L L' i t new := by
  cases fuel with
  | zero => cases ran
  | succ fuel =>
    by_cases empty : s.memory.head .free = none
    · rw [post_full empty sound] at ran
      obtain ⟨u, released, ran⟩ := Option.bind_eq_some_iff.mp ran
      cases releaseBuckets_spec sound empty with
      | inl failed =>
        rw [failed.2] at released
        cases released
      | inr done =>
        obtain ⟨something, u', L', released', sound', filled, subset, used', calls⟩ := done
        rw [released'] at released
        cases released
        have stays : bucket i ∈ u.memory.bucketsInUse := by
          rw [used']
          apply Finset.mem_sdiff.mpr
          exact ⟨used, fun full => absent ((mem_toDelete_iff sound empty).mp full i (mem_indexesOf.mpr rfl))⟩
        cases fuel with
        | zero => cases ran
        | succ fuel =>
          obtain ⟨v, M, ran', made, calls', used'', shape⟩ := post_some sound' filled stays (fun old => absent (subset old)) fuel
          rw [ran'] at ran
          cases ran
          refine ⟨M, _, made, calls'.trans calls, ?_, ?_, shape ▸ List.mem_cons_self, Or.inr ⟨empty, rfl, something⟩⟩
          · rw [sort_toFinset_foldl, used'', used']
          · rw [shape]
            exact List.cons_subset_cons i subset
    · have filled : L .free ≠ [] := fun nothing => empty ((sound.head_eq_none_iff .free).mpr nothing)
      obtain ⟨u, L', ran', made, calls, used', shape⟩ := post_some sound filled used absent fuel
      rw [ran'] at ran
      cases ran
      exact ⟨L', [], made, calls.trans (List.append_nil _).symm, used', shape ▸ List.Subset.refl _, shape ▸ List.mem_cons_self,
        Or.inl ⟨rfl, shape⟩⟩

/-- With a free record, or else a full bucket, a `post` returns, and without it aborts. -/
theorem post_isSome_iff {fuel : Nat} (enough : 1 < fuel) {i : BucketIndex} (sound : Sound s.memory L)
    (used : bucket i ∈ s.memory.bucketsInUse) (absent : i ∉ (L .available).map s.memory.data) :
    (s.post fuel i).isSome ↔ (s.memory.head .free = none → toDelete s.memory ≠ ∅) := by
  obtain ⟨fuel, rfl⟩ := Nat.exists_eq_add_of_le' enough
  by_cases empty : s.memory.head .free = none
  · rw [post_full empty sound]
    cases releaseBuckets_spec sound empty with
    | inl failed => simp [failed.1, failed.2, empty]
    | inr done =>
      obtain ⟨something, u, L', released, sound', filled, subset, used', calls⟩ := done
      have stays : bucket i ∈ u.memory.bucketsInUse := by
        rw [used']
        apply Finset.mem_sdiff.mpr
        exact ⟨used, fun full => absent ((mem_toDelete_iff sound empty).mp full i (mem_indexesOf.mpr rfl))⟩
      obtain ⟨v, M, ran, _⟩ := post_some sound' filled stays (fun old => absent (subset old)) fuel
      rw [released, Option.bind_some, ran]
      exact ⟨fun _ _ => something, fun _ => rfl⟩
  · have filled : L .free ≠ [] := fun nothing => empty ((sound.head_eq_none_iff .free).mpr nothing)
    obtain ⟨u, L', ran, _⟩ := post_some sound filled used absent (fuel + 1)
    rw [ran]
    exact ⟨fun _ nothing => absurd nothing empty, fun _ => rfl⟩

/-- A `fetch` always returns. -/
theorem fetch_isSome {fuel : Nat} (enough : 1 < fuel) (sound : Sound s.memory L) : (s.fetch fuel).isSome := by
  obtain ⟨fuel, rfl⟩ := Nat.exists_eq_add_of_le' enough
  by_cases empty : L .available = []
  · rw [fetch_create sound empty]
    obtain ⟨sound', _⟩ := createBuckets_sound sound.hint
    obtain ⟨i, t, L', ran, _⟩ := fetch_some sound' (List.ne_nil_of_length_pos (by simpa using recordCount_pos)) fuel
    rw [ran]
    rfl
  · obtain ⟨i, t, L', ran, _⟩ := fetch_some sound empty (fuel + 1)
    rw [ran]
    rfl

end Calls

section Runs
variable {fuel : Nat} {buckets : Finset Nat} {ops : List Op}

/-- What every call keeps. -/
def Invariant (buckets : Finset Nat) (s : Records) : Prop := (∃ L, Sound s.memory L) ∧ Logged buckets s

theorem create_invariant (buckets : Finset Nat) : Invariant buckets (create buckets) := by
  obtain ⟨blank, shape, _, _, _, used⟩ := create_memory buckets
  obtain ⟨next, linked⟩ := writeAll_cleanRecords blank
  refine ⟨⟨_, create_sound buckets⟩, ?_⟩
  rw [Logged, shape, linked]
  exact used

theorem step_invariant {op : Op} (inv : Invariant buckets s) (valid : Valid s op) (stepped : step fuel op s = some t) : Invariant buckets t := by
  obtain ⟨⟨L, sound⟩, logged⟩ := inv
  cases op with
  | fetch =>
    obtain ⟨⟨i, u⟩, ran, rfl⟩ := Option.map_eq_some_iff.mp stepped
    obtain ⟨L', new, done⟩ := fetched sound ran
    exact ⟨⟨L', done.sound⟩, logged.append done.calls done.used⟩
  | post i =>
    obtain ⟨L', new, done⟩ := posted sound valid.1 (fun old => valid.2 ((available_iff sound i).mpr old)) stepped
    exact ⟨⟨L', done.sound⟩, logged.append done.calls done.used⟩

theorem run_invariant (inv : Invariant buckets s) (valid : Schedule.OrderedRun (step fuel) Valid ops s) (ran : run fuel ops s = some t) :
    Invariant buckets t := Schedule.invariant_run step_invariant inv valid ran

theorem create_filled (buckets : Finset Nat) : (create buckets).memory.head .free ≠ none := by
  intro nothing
  have empty := ((create_sound buckets).head_eq_none_iff .free).mp nothing
  exact List.ne_nil_of_length_pos (by simpa using recordCount_pos) empty

theorem create_available (buckets : Finset Nat) (i : BucketIndex) : ¬(create buckets).Available i := by
  rw [available_iff (create_sound buckets)]
  exact List.not_mem_nil

/-- A post finds a free record, or a bucket all indexes of which are available. -/
def Roomy (s : Records) : Op → Prop
  | .fetch => True
  | .post _ => s.memory.head .free = none → ∃ id, ∀ i ∈ indexesOf id, s.Available i

theorem step_isSome_iff {op : Op} (enough : 1 < fuel) (sound : Sound s.memory L) (valid : Valid s op) : (step fuel op s).isSome ↔ Roomy s op := by
  cases op with
  | fetch =>
    rw [step, Option.isSome_map]
    exact iff_of_true (fetch_isSome enough sound) trivial
  | post i =>
    have absent : i ∉ (L .available).map s.memory.data := fun old => valid.2 ((available_iff sound i).mpr old)
    rw [step, post_isSome_iff enough sound valid.1 absent, Roomy]
    apply imp_congr_right
    intro empty
    rw [← Finset.nonempty_iff_ne_empty, Finset.Nonempty]
    apply exists_congr
    intro id
    rw [mem_toDelete_iff sound empty]
    simp only [available_iff sound]

/-- A run returns where each of its posts finds room, and only there. -/
theorem run_isSome_iff {first : Finset Nat} (enough : 1 < fuel) (inv : Invariant first s) (valid : Schedule.OrderedRun (step fuel) Valid ops s) :
    (run fuel ops s).isSome ↔ Schedule.OrderedRun (step fuel) Roomy ops s := by
  induction ops generalizing s with
  | nil => exact iff_of_true rfl trivial
  | cons op ops ih =>
    obtain ⟨here, rest⟩ := valid
    obtain ⟨L, sound⟩ := inv.1
    have one := step_isSome_iff enough sound here
    rw [run, Schedule.run, Schedule.OrderedRun]
    cases stepped : step fuel op s with
    | none =>
      rw [stepped] at one
      simp only [Option.bind_none, Option.isSome_none, Bool.false_eq_true, false_iff, not_and]
      exact fun roomy => absurd (one.mpr roomy) (by simp)
    | some t =>
      rw [stepped] at rest one
      rw [Option.bind_some]
      exact (ih (step_invariant inv here stepped) rest).trans (and_iff_right (one.mp rfl)).symm

/-- Slots of buckets in use that are posted one after the other. -/
theorem posts_valid {first : Finset Nat} {is : List BucketIndex} (inv : Invariant first s) (distinct : is.Nodup)
    (used : ∀ i ∈ is, bucket i ∈ s.memory.bucketsInUse) (absent : ∀ i ∈ is, ¬s.Available i) :
    Schedule.OrderedRun (step fuel) Valid (is.map .post) s := by
  induction is generalizing s with
  | nil => trivial
  | cons i is ih =>
    obtain ⟨notAgain, distinct⟩ := List.nodup_cons.mp distinct
    obtain ⟨L, sound⟩ := inv.1
    have here : Valid s (.post i) := ⟨used i List.mem_cons_self, absent i List.mem_cons_self⟩
    refine ⟨here, ?_⟩
    cases stepped : step fuel (.post i) s with
    | none => trivial
    | some t =>
      obtain ⟨L', new, done⟩ := posted sound here.1 (fun old => here.2 ((available_iff sound i).mpr old)) stepped
      have later : ∀ j ∈ is, j ∉ (L .available).map s.memory.data := fun j member old =>
        absent j (List.mem_cons_of_mem _ member) ((available_iff sound j).mpr old)
      refine ih (step_invariant inv here stepped) distinct (fun j member => ?_) (fun j member again => ?_)
      · have before := used j (List.mem_cons_of_mem _ member)
        rw [done.used]
        cases done.added with
        | inl same =>
          rw [same.1]
          exact before
        | inr full =>
          rw [full.2.1, sort_toFinset_foldl]
          apply Finset.mem_sdiff.mpr
          exact ⟨before, fun gone => later j member ((mem_toDelete_iff sound full.1).mp gone j (mem_indexesOf.mpr rfl))⟩
      · cases List.mem_cons.mp (done.subset ((available_iff done.sound j).mp again)) with
        | inl same => exact notAgain (same ▸ member)
        | inr old => exact later j member old

/-- While no bucket has all its indexes among what is posted and available, every post
takes a record. -/
theorem posts_length {is : List BucketIndex} (sound : Sound s.memory L) (valid : Schedule.OrderedRun (step fuel) Valid (is.map .post) s)
    (apart : ∀ id, ∃ j ∈ indexesOf id, j ∉ is ∧ j ∉ (L .available).map s.memory.data) (ran : run fuel (is.map .post) s = some t) :
    is.length + (L .available).length ≤ recordCount := by
  induction is generalizing s L with
  | nil =>
    have length := sound.records.length_eq
    rw [List.length_append, List.length_range] at length
    rw [List.length_nil]
    omega
  | cons i is ih =>
    obtain ⟨u, stepped, later⟩ := Option.bind_eq_some_iff.mp ran
    obtain ⟨here, rest⟩ := valid
    rw [stepped] at rest
    obtain ⟨L', new, done⟩ := posted sound here.1 (fun old => here.2 ((available_iff sound i).mpr old)) stepped
    have whole := ih done.sound rest (fun id => ?_) later
    · cases done.added with
      | inl same =>
        have length := congrArg List.length same.2
        rw [List.length_map, List.length_cons, List.length_map] at length
        rw [List.length_cons]
        omega
      | inr full =>
        obtain ⟨id, member⟩ := Finset.nonempty_iff_ne_empty.mpr full.2.2
        obtain ⟨j, index, _, absent⟩ := apart id
        exact absurd ((mem_toDelete_iff sound full.1).mp member j index) absent
    · obtain ⟨j, index, outside, absent⟩ := apart id
      rw [List.mem_cons, not_or] at outside
      refine ⟨j, index, outside.2, fun again => ?_⟩
      cases List.mem_cons.mp (done.subset again) with
      | inl same => exact outside.1 same
      | inr old => exact absent old

end Runs

section Exact
open Schedule
variable {fuel : Nat} {buckets : Finset Nat} {ops : List Op}

/-- A fetch has taken an index, from those that were available or from new buckets. -/
def Takes (s : Records) (i : BucketIndex) (t : Records) : Prop :=
  (s.Available i ∧ (∀ j, t.Available j ↔ j ≠ i ∧ s.Available j) ∧ t.calls = s.calls) ∨
    ((∀ j, ¬s.Available j) ∧ bucket i ∈ s.newIds ∧ (∀ j, t.Available j ↔ j ≠ i ∧ bucket j ∈ s.newIds) ∧
      t.calls = s.calls ++ s.newIds.map .createNewBucket)

/-- The accounting is exact: every record is in one of the lists and once there, no index
is available twice, and the buckets in use are the first ones with what was made and
without what was released. New buckets have new ids. A fetch returns one of the available
indexes and takes it, once buckets have been made if there were none, a post makes its
index available, and all indexes of a bucket that is released were. -/
structure Exact (fuel : Nat) (buckets : Finset Nat) (s : Records) : Prop where
  partition : ∃ avail free, Chain s.memory.nextNode (s.memory.head .available) avail ∧ Chain s.memory.nextNode (s.memory.head .free) free ∧
    (avail ++ free).Perm (List.range recordCount) ∧ (avail.map s.memory.data).Nodup
  used : s.memory.bucketsInUse = s.calls.foldl InfoCall.on buckets
  fresh : s.newIds.Nodup ∧ ∀ id ∈ s.newIds, id ≠ 0 ∧ id ∉ s.memory.bucketsInUse
  fetches : 1 < fuel → (s.fetch fuel).isSome
  fetched : ∀ i t, s.fetch fuel = some (i, t) → Takes s i t
  posted : ∀ i t, Valid s (.post i) → s.post fuel i = some t → t.Available i ∧ ∀ j, t.Available j → j = i ∨ s.Available j
  released : ∀ i t, Valid s (.post i) → s.post fuel i = some t →
    ∃ new, t.calls = s.calls ++ new ∧ ∀ call ∈ new, ∃ id, call = .removeBucket id ∧ ∀ j ∈ indexesOf id, s.Available j

theorem Fetched.takes {L L' : ListName → List Nat} {i : BucketIndex} {new : List InfoCall} (sound : Sound s.memory L)
    (done : Fetched s L L' i t new) : Takes s i t := by
  have rest : ∀ {list : List BucketIndex} {P : BucketIndex → Prop}, list.Nodup → (∀ j, j ∈ list ↔ P j) →
      list = i :: (L' .available).map t.memory.data → P i ∧ ∀ j, t.Available j ↔ j ≠ i ∧ P j := by
    rintro list P distinct mem rfl
    obtain ⟨absent, _⟩ := List.nodup_cons.mp distinct
    refine ⟨(mem i).mp List.mem_cons_self, fun j => ?_⟩
    rw [available_iff done.sound, ← mem j, List.mem_cons]
    constructor
    · exact fun member => ⟨fun same => absent (same ▸ member), Or.inr member⟩
    · exact fun both => both.2.resolve_left both.1
  cases done.taken with
  | inl old =>
    obtain ⟨was, left⟩ := rest sound.distinct (fun j => (available_iff sound j).symm) old.2
    exact Or.inl ⟨was, left, by rw [done.calls, old.1, List.append_nil]⟩
  | inr new =>
    have none : ∀ j, ¬s.Available j := by
      intro j
      rw [available_iff sound, new.1]
      exact List.not_mem_nil
    obtain ⟨was, left⟩ := rest (nodup_flatMap_indexesOf (newIds_spec s).1) (fun j => mem_flatMap_indexesOf) new.2.2
    exact Or.inr ⟨none, was, left, by rw [done.calls, new.2.1]⟩

/-- However indexes are fetched and posted, the accounting is exact. -/
theorem run_exact (valid : Schedule.OrderedRun (step fuel) Valid ops (create buckets)) (ran : run fuel ops (create buckets) = some s) :
    Exact fuel buckets s := by
  obtain ⟨⟨L, sound⟩, logged⟩ := run_invariant (create_invariant buckets) valid ran
  obtain ⟨distinct, fresh, _⟩ := newIds_spec s
  refine ⟨⟨_, _, sound.chain .available, sound.chain .free, sound.records, sound.distinct⟩, logged, ⟨distinct, fun id new => ?_⟩,
    fun enough => fetch_isSome enough sound, fun i t ran => ?_, fun i t valid ran => ?_, fun i t valid ran => ?_⟩
  · exact ⟨(sound.hint.trans_le (fresh id new).2).ne', (fresh id new).1⟩
  · obtain ⟨L', new, done⟩ := fetched sound ran
    exact done.takes sound
  · obtain ⟨L', new, done⟩ := posted sound valid.1 (fun old => valid.2 ((available_iff sound i).mpr old)) ran
    refine ⟨(available_iff done.sound i).mpr done.posted, fun j there => ?_⟩
    rw [available_iff sound]
    exact List.mem_cons.mp (done.subset ((available_iff done.sound j).mp there))
  · obtain ⟨L', new, done⟩ := posted sound valid.1 (fun old => valid.2 ((available_iff sound i).mpr old)) ran
    refine ⟨new, done.calls, fun call member => ?_⟩
    cases done.added with
    | inl same =>
      rw [same.1] at member
      cases member
    | inr full =>
      rw [full.2.1] at member
      obtain ⟨id, inside, rfl⟩ := List.mem_map.mp member
      refine ⟨id, rfl, fun j index => (available_iff sound j).mpr ?_⟩
      exact (mem_toDelete_iff sound full.1).mp ((Finset.mem_sort _).mp inside) j index

/-- A post and a fetch. -/
theorem run_exact_post : ∃ s, run 2 [.post (make 3 5), .fetch] (create {3}) = some s ∧ Exact 2 {3} s := by
  have valid : OrderedRun (step 2) Valid ([make 3 5].map .post ++ [.fetch]) (create {3}) := by
    apply orderedRun_append (posts_valid (create_invariant {3}) (List.nodup_singleton _) (fun i member => ?_) (fun i _ => create_available {3} i))
    · exact fun t _ => ⟨trivial, by split <;> trivial⟩
    · rw [List.mem_singleton.mp member, (create_invariant {3}).2]
      decide
  have roomy : OrderedRun (step 2) Roomy [.post (make 3 5), .fetch] (create {3}) := by
    apply And.intro (fun nothing => absurd nothing (create_filled _))
    split
    · exact ⟨trivial, by split <;> trivial⟩
    · trivial
  obtain ⟨s, ran⟩ := Option.isSome_iff_exists.mp ((run_isSome_iff (by decide) (create_invariant {3}) valid).mpr roomy)
  exact ⟨s, ran, run_exact valid ran⟩

end Exact

section Load
variable {fuel : Nat} {buckets : List Nat} {inUse : BucketIndex → Bool} {ops : List Op}

/-- The slots that `loadHashesFromBucket` finds empty. -/
def postList (inUse : BucketIndex → Bool) (buckets : List Nat) : List BucketIndex := (buckets.flatMap indexesOf).filter (fun i => !inUse i)

/-- `loadBuckets` posts the empty slots from the last one on. -/
def loadBuckets (fuel : Nat) (inUse : BucketIndex → Bool) (buckets : List Nat) : Option Records :=
  run fuel ((postList inUse buckets).reverse.map .post) (create buckets.toFinset)

theorem mem_postList {i : BucketIndex} : i ∈ postList inUse buckets ↔ bucket i ∈ buckets ∧ inUse i = false := by
  rw [postList, List.mem_filter, mem_flatMap_indexesOf, Bool.not_eq_true']

theorem load_valid (distinct : buckets.Nodup) :
    Schedule.OrderedRun (step fuel) Valid ((postList inUse buckets).reverse.map .post) (create buckets.toFinset) := by
  have sound := create_sound buckets.toFinset
  obtain ⟨⟨_, _⟩, logged⟩ := create_invariant buckets.toFinset
  refine posts_valid (create_invariant buckets.toFinset) (List.nodup_reverse.mpr ((nodup_flatMap_indexesOf distinct).filter _))
    (fun i member => ?_) (fun i _ old => ?_)
  · rw [show (create buckets.toFinset).memory.bucketsInUse = buckets.toFinset from logged]
    exact List.mem_toFinset.mpr (mem_postList.mp (List.mem_reverse.mp member)).1
  · exact List.not_mem_nil ((available_iff sound i).mp old)

/-- The mount and what is fetched and posted after it go through where each post finds
room, and only there. -/
theorem loadBuckets_completes (distinct : buckets.Nodup) (enough : 1 < fuel)
    (valid : ∀ s, loadBuckets fuel inUse buckets = some s → Schedule.OrderedRun (step fuel) Valid ops s) :
    ((loadBuckets fuel inUse buckets).bind (run fuel ops)).isSome ↔
      Schedule.OrderedRun (step fuel) Roomy ((postList inUse buckets).reverse.map .post ++ ops) (create buckets.toFinset) := by
  have load : Schedule.OrderedRun (step fuel) Valid ((postList inUse buckets).reverse.map .post) (create buckets.toFinset) := load_valid distinct
  have all := Schedule.orderedRun_append load valid
  rw [← run_isSome_iff enough (create_invariant _) all, loadBuckets, run, Schedule.run_append_bind]

/-- A mount with one free slot, and a fetch of it. -/
theorem loadBuckets_completes_one : ((loadBuckets 2 (fun i => i != make 3 5) [3]).bind (run 2 [.fetch])).isSome := by
  have posts : postList (fun i => i != make 3 5) [3] = [make 3 5] := by decide
  have valid : ∀ s, loadBuckets 2 (fun i => i != make 3 5) [3] = some s → Schedule.OrderedRun (step 2) Valid [.fetch] s :=
    fun s _ => ⟨trivial, by split <;> trivial⟩
  apply (loadBuckets_completes (List.nodup_singleton 3) (by decide) valid).mpr
  rw [posts]
  apply And.intro (fun nothing => absurd nothing (create_filled _))
  split
  · exact ⟨trivial, by split <;> trivial⟩
  · trivial

/-- Eleven buckets with one slot in use in each: more is posted than there are records, and
no bucket is full. -/
theorem loadBuckets_aborts : ¬∃ fuel, (loadBuckets fuel (fun i => i % chunksInBucket == 0) (List.range' 1 11)).isSome := by
  rintro ⟨fuel, completes⟩
  cases ran : loadBuckets fuel (fun i => i % chunksInBucket == 0) (List.range' 1 11) with
  | none =>
    rw [ran] at completes
    cases completes
  | some s =>
    have fits := posts_length (create_sound (List.range' 1 11).toFinset) (load_valid List.nodup_range') (fun id => by
      refine ⟨make id 0, mem_indexesOf.mpr (bucket_make (by decide)), fun member => ?_, List.not_mem_nil⟩
      have free := (mem_postList.mp (List.mem_reverse.mp member)).2
      rw [make, Nat.add_zero, Nat.mul_mod_left] at free
      cases free) ran
    have each : ∀ id, ((indexesOf id).filter (fun i => !(i % chunksInBucket == 0))).length = 255 := by
      intro id
      have same : (fun i => !(i % chunksInBucket == 0)) ∘ make id = fun b => !(b % chunksInBucket == 0) := by
        funext b
        rw [Function.comp_apply, make, Nat.mul_add_mod_self_right]
      rw [indexesOf, List.filter_map, List.length_map, same]
      decide +kernel
    have count : (postList (fun i => i % chunksInBucket == 0) (List.range' 1 11)).length = 2805 := by
      rw [postList, List.filter_flatMap, List.length_flatMap]
      simp only [each]
      decide
    rw [List.length_reverse, count] at fits
    exact absurd fits (by decide)

end Load

end Records
end CloudCryptFS.Filesystem
