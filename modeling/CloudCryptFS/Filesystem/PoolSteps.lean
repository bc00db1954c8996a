import CloudCryptFS.Filesystem.Pool

/-! Every node and every index is in one place, and each step of a call keeps it so: a call
moves what it has in hand and writes to its own nodes. -/

namespace CloudCryptFS.Filesystem
open Util Linked BucketIndex
open Accounting (maxBuckets indexesOf createLoop)

namespace Pool

section Frame
variable {s : Pool} {L L' : ListName → List Nat} {m m' : Memory}

theorem count_map_congr {l : List Nat} {data data' : Nat → BucketIndex} (same : ∀ n ∈ l, data' n = data n) : l.map data' = l.map data :=
  List.map_congr_left same

theorem indexCount_congr {stage : PoolStage} {data data' : Nat → BucketIndex} (i : BucketIndex) (same : ∀ n ∈ stage.nodes, data' n = data n) :
    stage.indexCount data' i = stage.indexCount data i := by
  cases stage with
  | read node =>
    simp only [PoolStage.indexCount]
    rw [same node List.mem_cons_self]
  | count seen =>
    simp only [PoolStage.indexCount]
    rw [count_map_congr (l := List.range recordCount) same]
  | sort toDelete node delList availList next =>
    have first : ∀ n ∈ availList, data' n = data n := fun n member =>
      same n (List.mem_append_left _ (List.mem_append_right _ member))
    have second : ∀ n ∈ List.range' node (recordCount - node), data' n = data n := fun n member => same n (List.mem_append_right _ member)
    have kept : (List.range' node (recordCount - node)).filter (fun n => bucket (data' n) ∉ toDelete) =
        (List.range' node (recordCount - node)).filter (fun n => bucket (data n) ∉ toDelete) := by
      apply List.filter_congr
      intro n member
      rw [second n member]
    simp only [PoolStage.indexCount]
    rw [count_map_congr first, kept, count_map_congr (fun n member => second n (List.mem_filter.mp member).1)]
  | link toDelete delList availList next =>
    simp only [PoolStage.indexCount]
    rw [count_map_congr (fun n member => same n (List.mem_append_right _ member))]
  | _ => rfl

theorem threadCount_congr {th : PoolThread} {data data' : Nat → BucketIndex} (i : BucketIndex) (same : ∀ n ∈ th.nodes, data' n = data n) :
    th.indexCount data' i = th.indexCount data i := by
  unfold PoolThread.indexCount PoolThread.flightCount
  cases call : th.call with
  | none => rfl
  | some going =>
    unfold PoolThread.nodes at same
    rw [call] at same
    dsimp only
    rw [indexCount_congr i same]

theorem ok_congr {th : PoolThread} (same : ∀ n ∈ th.nodes, m'.data n = m.data n ∧ m'.nextNode n = m.nextNode n) (ok : th.Ok m) : th.Ok m' := by
  unfold PoolThread.Ok at ok ⊢
  unfold PoolThread.nodes at same
  cases call : th.call with
  | none => trivial
  | some going =>
    obtain ⟨call, stage⟩ := going
    rw [‹th.call = _›] at ok same
    dsimp only at ok same ⊢
    cases stage with
    | insert node next =>
      obtain ⟨data, linked⟩ := same node List.mem_cons_self
      simp only [PoolStage.Ok] at ok ⊢
      rw [data, linked]
      exact ok
    | count seen =>
      refine ⟨ok.1, ok.2.trans (count_map_congr (fun n member => ?_)).symm⟩
      exact (same n (List.mem_range.mpr ((List.mem_range.mp member).trans_le ok.1))).1
    | sort toDelete node delList availList next =>
      cases next with
      | zero => exact ok
      | find => exact ok
      | clear =>
        refine ⟨ok.1, ?_⟩
        have inside : node < recordCount := ok.1
        rw [(same node (List.mem_append_right _ (List.mem_range'_1.mpr ⟨le_rfl, by omega⟩))).1]
        exact ok.2
    | link toDelete delList availList next =>
      intro expected node shape first
      rw [(same node (List.mem_of_mem_head? first)).2]
      exact ok expected node shape first
    | _ => trivial

/-- A node in hand is in no list and in no other hand. -/
theorem Normal.mine (normal : s.Normal L) {k : Nat} {th : PoolThread} (found : s.threads[k]? = some th) {n : Nat} (member : n ∈ th.nodes) :
    (∀ l, n ∉ L l) ∧ ∀ j other, j ≠ k → s.threads[j]? = some other → n ∉ other.nodes := by
  have count := normal.nodes n
  have here : 0 < th.nodes.count n := List.count_pos_iff.mpr member
  have total := le_sum (f := fun th => th.nodes.count n) found
  have bound : (if n < recordCount then 1 else 0) ≤ 1 := by split <;> decide
  constructor
  · intro l there
    have positive : 0 < (L l).count n := List.count_pos_iff.mpr there
    cases l <;> omega
  · intro j other different there again
    have positive : 0 < other.nodes.count n := List.count_pos_iff.mpr again
    have both := add_le_sum (f := fun th => th.nodes.count n) found there different
    omega

/-- A thread moves nodes and indexes, and writes to its own nodes only. -/
theorem Normal.change (normal : s.Normal L) {k : Nat} {th : PoolThread} (found : s.threads[k]? = some th) (th' : PoolThread)
    (chain : ∀ l, Chain m.nextNode (m.head l) (L' l))
    (frame : ∀ n, n ∉ th.nodes → m.data n = s.memory.data n ∧ m.nextNode n = s.memory.nextNode n)
    (nodes : ∀ n, (L' .available).count n + (L' .free).count n + th'.nodes.count n =
      (L .available).count n + (L .free).count n + th.nodes.count n)
    (indexes : ∀ i, ((L' .available).map m.data).count i + th'.indexCount m.data i + (if bucket i ∈ s.memory.bucketsInUse then 1 else 0) =
      ((L .available).map s.memory.data).count i + th.indexCount s.memory.data i + if bucket i ∈ m.bucketsInUse then 1 else 0)
    (ok : th'.Ok m) (idle : ¬th'.Creating) (hint : 0 < m.hint) (positive : ∀ id ∈ m.bucketsInUse, 0 < id) (mutex : Option Nat) :
    Normal ⟨m, mutex, s.threads.set k th'⟩ L' := by
  have others : ∀ j other, j ≠ k → s.threads[j]? = some other → ∀ n ∈ other.nodes, n ∉ th.nodes := fun j other different there n member again =>
    (normal.mine found again).2 j other different there member
  have inside : ∀ other ∈ s.threads.set k th', other = th' ∨ ∃ j, j ≠ k ∧ s.threads[j]? = some other := by
    intro other member
    obtain ⟨j, there⟩ := List.mem_iff_getElem?.mp member
    by_cases same : j = k
    · rw [same, List.getElem?_set_self (List.getElem?_eq_some_iff.mp found).1] at there
      exact Or.inl (Option.some.inj there).symm
    · rw [List.getElem?_set_ne (Ne.symm same)] at there
      exact Or.inr ⟨j, same, there⟩
  refine ⟨chain, fun n => ?_, fun i => ?_, fun other member => ?_, hint, positive, fun other member => ?_⟩
  · have moved := sum_set (f := fun th => th.nodes.count n) (g := fun th => th.nodes.count n) found th' (fun _ _ _ _ => rfl)
    have before := normal.nodes n
    have same := nodes n
    dsimp only at moved ⊢
    omega
  · have moved := sum_set (f := fun th => th.indexCount s.memory.data i) (g := fun th => th.indexCount m.data i) found th' (fun j other different there =>
      threadCount_congr i (fun n member => (frame n (others j other different there n member)).1))
    have before := normal.indexes i
    have same := indexes i
    dsimp only at moved ⊢
    omega
  · rcases inside other member with rfl | ⟨j, different, there⟩
    · exact ok
    · exact ok_congr (fun n member => frame n (others j other different there n member)) (normal.ok other (List.mem_of_getElem? there))
  · rcases inside other member with rfl | ⟨j, different, there⟩
    · exact idle
    · exact normal.idle other (List.mem_of_getElem? there)

/-- The same with the buckets that are in use left alone. -/
theorem Normal.move (normal : s.Normal L) {k : Nat} {th : PoolThread} (found : s.threads[k]? = some th) {th' : PoolThread}
    (chain : ∀ l, Chain m.nextNode (m.head l) (L' l))
    (frame : ∀ n, n ∉ th.nodes → m.data n = s.memory.data n ∧ m.nextNode n = s.memory.nextNode n)
    (nodes : ∀ n, (L' .available).count n + (L' .free).count n + th'.nodes.count n =
      (L .available).count n + (L .free).count n + th.nodes.count n)
    (indexes : ∀ i, ((L' .available).map m.data).count i + th'.indexCount m.data i =
      ((L .available).map s.memory.data).count i + th.indexCount s.memory.data i)
    (ok : th'.Ok m) (idle : ¬th'.Creating) (same : m.hint = s.memory.hint ∧ m.bucketsInUse = s.memory.bucketsInUse) :
    Normal (s.become k th' m) L' := by
  refine normal.change found th' chain frame nodes (fun i => ?_) ok idle (same.1 ▸ normal.hint) (same.2 ▸ normal.positive) s.mutex
  rw [indexes i, same.2]

/-- A step that moves nothing. -/
theorem Normal.stay (normal : s.Normal L) {k : Nat} {th : PoolThread} (found : s.threads[k]? = some th) {th' : PoolThread}
    (nodes : ∀ n, th'.nodes.count n = th.nodes.count n) (indexes : ∀ i, th'.indexCount s.memory.data i = th.indexCount s.memory.data i)
    (ok : th'.Ok s.memory) (idle : ¬th'.Creating) (mutex : Option Nat) :
    Normal ⟨s.memory, mutex, s.threads.set k th'⟩ L := by
  refine normal.change found th' normal.chain (fun _ _ => ⟨rfl, rfl⟩) (fun n => ?_) (fun i => ?_) ok idle normal.hint normal.positive mutex
  · rw [nodes n]
  · rw [indexes i]

end Frame

section Steps
variable {s t : Pool} {L : ListName → List Nat} {k : Nat} {held : List BucketIndex} {call : PoolCall}

/-- The stages at which a call has nothing in hand but its index. -/
structure Bare (stage : PoolStage) : Prop where
  nodes : stage.nodes = []
  indexCount : ∀ data i, stage.indexCount data i = 0
  ok : ∀ call m, stage.Ok call m
  idle : ∀ buckets writes, stage ≠ .create buckets writes

theorem bare_take (next : Taking) : Bare (.take next) := ⟨rfl, fun _ _ => rfl, fun _ _ => trivial, fun _ _ same => (by cases same)⟩
theorem bare_lock : Bare .lock := ⟨rfl, fun _ _ => rfl, fun _ _ => trivial, fun _ _ same => (by cases same)⟩
theorem bare_checkEmpty : Bare .checkEmpty := ⟨rfl, fun _ _ => rfl, fun _ _ => trivial, fun _ _ same => (by cases same)⟩
theorem bare_checkFilled : Bare .checkFilled := ⟨rfl, fun _ _ => rfl, fun _ _ => trivial, fun _ _ same => (by cases same)⟩
theorem bare_assertEmpty : Bare .assertEmpty := ⟨rfl, fun _ _ => rfl, fun _ _ => trivial, fun _ _ same => (by cases same)⟩
theorem bare_steal (expected : Option Nat) : Bare (.steal expected) := ⟨rfl, fun _ _ => rfl, fun _ _ => trivial, fun _ _ same => (by cases same)⟩
theorem bare_assertFilled : Bare .assertFilled := ⟨rfl, fun _ _ => rfl, fun _ _ => trivial, fun _ _ same => (by cases same)⟩
theorem bare_unlock : Bare .unlock := ⟨rfl, fun _ _ => rfl, fun _ _ => trivial, fun _ _ same => (by cases same)⟩

theorem bare_takeNext (head : Option Nat) : Bare (takeNext head) := by
  cases head with
  | none => exact bare_lock
  | some expected => exact bare_take (.next expected)

theorem normal_goOn (normal : s.Normal L) {stage stage' : PoolStage} (found : s.threads[k]? = some ⟨held, some (call, stage)⟩)
    (before : Bare stage) (after : Bare stage') (mutex : Option Nat) : Normal { s.goOn k held call stage' with mutex := mutex } L := by
  refine normal.stay found (fun n => ?_) (fun i => ?_) ?_ ?_ mutex
  · unfold PoolThread.nodes
    dsimp only
    rw [before.nodes, after.nodes]
  · unfold PoolThread.indexCount PoolThread.flightCount
    dsimp only
    rw [before.indexCount, after.indexCount]
  · exact after.ok call s.memory
  · unfold PoolThread.Creating
    dsimp only
    split
    · rename_i same
      cases same
      exact absurd rfl (after.idle _ _)
    · exact not_false

/-- The head of a list goes to the thread that has taken it. -/
theorem normal_taken (normal : s.Normal L) {expected : Nat} {newNode : Option Nat}
    (found : s.threads[k]? = some ⟨held, some (call, .take (.exchange expected newNode))⟩)
    (head : s.memory.head call.source = some expected) (fresh : s.memory.nextNode expected = newNode) :
    ∃ L', Normal (s.become k ⟨held, some (call, taken expected call)⟩ (s.memory.setHead call.source newNode)) L' := by
  have source := normal.chain call.source
  rw [head] at source
  obtain ⟨rest, shape, chain⟩ := source.of_some
  refine ⟨Function.update L call.source rest, normal.move found (fun l => ?_) (fun _ _ => ⟨rfl, rfl⟩) (fun n => ?_) (fun i => ?_) ?_ ?_ ⟨rfl, rfl⟩⟩
  · change Chain s.memory.nextNode (Function.update s.memory.head call.source newNode l) _
    by_cases same : l = call.source
    · rw [same, Function.update_self, Function.update_self, ← fresh]
      exact chain
    · rw [Function.update_of_ne same, Function.update_of_ne same]
      exact normal.chain l
  · cases call <;> simp only [PoolCall.source] at shape ⊢ <;> rw [Function.update_self, Function.update_of_ne (by decide), shape] <;>
      simp only [PoolThread.nodes, taken, PoolStage.nodes, List.count_cons, List.count_nil] <;> omega
  · cases call with
    | post data =>
      simp only [PoolCall.source]
      rw [Function.update_of_ne (by decide)]
      rfl
    | _ =>
      simp only [PoolCall.source] at shape ⊢
      rw [Function.update_self, shape]
      simp only [PoolThread.indexCount, PoolThread.flightCount, taken, PoolStage.indexCount, Memory.setHead, List.map_cons, List.count_cons,
        List.count_nil]
      omega
  · cases call <;> trivial
  · cases call <;> exact not_false

theorem normal_stepTake (normal : s.Normal L) {next : Taking} (found : s.threads[k]? = some ⟨held, some (call, .take next)⟩)
    (ordered : s.Ordered (.next k)) : ∃ L', Normal (s.stepTake k held call next) L' := by
  cases next with
  | load => exact ⟨L, normal_goOn normal found (bare_take _) (bare_takeNext _) s.mutex⟩
  | next expected => exact ⟨L, normal_goOn normal found (bare_take _) (bare_take _) s.mutex⟩
  | exchange expected newNode =>
    simp only [stepTake]
    by_cases head : s.memory.head call.source = some expected
    · rw [if_pos head]
      exact normal_taken normal found head (ordered _ found head).1
    · rw [if_neg head]
      exact ⟨L, normal_goOn normal found (bare_take _) (bare_takeNext _) s.mutex⟩

theorem normal_read (normal : s.Normal L) {node : Nat} (found : s.threads[k]? = some ⟨held, some (.fetch, .read node)⟩) :
    Normal (s.goOn k held (.fetched (s.memory.data node)) (.clear node)) L := by
  refine normal.move found normal.chain (fun _ _ => ⟨rfl, rfl⟩) (fun n => rfl) (fun i => ?_) (fun i same => (by cases same)) not_false ⟨rfl, rfl⟩
  simp only [PoolThread.indexCount, PoolThread.flightCount, PoolCall.carried, PoolStage.indexCount, List.count_nil]
  omega

/-- A node in hand gets other data. -/
theorem normal_setData (normal : s.Normal L) {stage stage' : PoolStage} {node : Nat} {i : BucketIndex}
    (found : s.threads[k]? = some ⟨held, some (call, stage)⟩) (before : stage.nodes = [node]) (after : stage'.nodes = [node])
    (empty : ∀ j, stage.indexCount s.memory.data j = 0) (empty' : ∀ j, stage'.indexCount (s.memory.setData node i).data j = 0)
    (ok : stage'.Ok call (s.memory.setData node i)) (idle : ∀ buckets writes, stage' ≠ .create buckets writes) :
    Normal (s.become k ⟨held, some (call, stage')⟩ (s.memory.setData node i)) L := by
  have inHand : node ∈ PoolThread.nodes ⟨held, some (call, stage)⟩ := by
    unfold PoolThread.nodes
    dsimp only
    rw [before]
    exact List.mem_singleton_self node
  have mine := (normal.mine found inHand).1
  refine normal.move found normal.chain (fun n other => ⟨?_, rfl⟩) (fun n => ?_) (fun j => ?_) ok ?_ ⟨rfl, rfl⟩
  · exact Function.update_of_ne (fun same : n = node => other (same ▸ inHand)) _ _
  · simp only [PoolThread.nodes, before, after]
  · have same : (L .available).map (s.memory.setData node i).data = (L .available).map s.memory.data :=
      count_map_congr (fun n member => Function.update_of_ne (fun same : n = node => mine .available (same ▸ member)) _ _)
    simp only [PoolThread.indexCount, PoolThread.flightCount]
    rw [same, empty, empty']
  · unfold PoolThread.Creating
    dsimp only
    split
    · rename_i same
      cases same
      exact absurd rfl (idle _ _)
    · exact not_false

theorem normal_clear (normal : s.Normal L) {node : Nat} (found : s.threads[k]? = some ⟨held, some (call, .clear node)⟩)
    (fetched : ∀ i, call ≠ .post i) : Normal (s.become k ⟨held, some (call, .insert node .load)⟩ (s.memory.setData node 0)) L :=
  normal_setData normal found rfl rfl (fun _ => rfl) (fun _ => rfl) ⟨fun i same => absurd same (fetched i), fun _ same => (by cases same)⟩
    (fun _ _ same => (by cases same))

theorem normal_write (normal : s.Normal L) {node : Nat} {data : BucketIndex}
    (found : s.threads[k]? = some ⟨held, some (.post data, .write node)⟩) :
    Normal (s.become k ⟨held, some (.post data, .insert node .load)⟩ (s.memory.setData node data)) L := by
  refine normal_setData normal found rfl rfl (fun _ => rfl) (fun _ => rfl) ⟨fun i same => ?_, fun _ same => (by cases same)⟩
    (fun _ _ same => (by cases same))
  cases same
  exact Function.update_self node data s.memory.data

theorem chain_setNext (normal : s.Normal L) {th : PoolThread} (found : s.threads[k]? = some th) {node : Nat} (member : node ∈ th.nodes)
    (expected : Option Nat) (l : ListName) : Chain (s.memory.setNext node expected).nextNode (s.memory.head l) (L l) := by
  refine (normal.chain l).congr (fun n inside => Function.update_of_ne (fun same : n = node => ?_) _ _)
  exact (normal.mine found member).1 l (same ▸ inside)

theorem chain_setHead (normal : s.Normal L) {l : ListName} {node : Nat} (linked : s.memory.nextNode node = s.memory.head l) (l' : ListName) :
    Chain s.memory.nextNode ((s.memory.setHead l (some node)).head l') (Function.update L l (node :: L l) l') := by
  change Chain s.memory.nextNode (Function.update s.memory.head l (some node) l') _
  by_cases same : l' = l
  · rw [same, Function.update_self, Function.update_self]
    refine .cons ?_
    rw [linked]
    exact normal.chain l
  · rw [Function.update_of_ne same, Function.update_of_ne same]
    exact normal.chain l'

/-- The node that is inserted goes to its list, with the index of a post. -/
theorem normal_inserted (normal : s.Normal L) {node : Nat} {next : Inserting}
    (found : s.threads[k]? = some ⟨held, some (call, .insert node next)⟩) (linked : s.memory.nextNode node = s.memory.head call.target) :
    Normal (s.become k ⟨call.returned ++ held, none⟩ (s.memory.setHead call.target (some node)))
      (Function.update L call.target (node :: L call.target)) := by
  have ok := normal.ok _ (List.mem_of_getElem? found)
  refine normal.move found (chain_setHead normal linked) (fun _ _ => ⟨rfl, rfl⟩) (fun n => ?_) (fun i => ?_) trivial not_false ⟨rfl, rfl⟩
  · cases call <;> simp only [PoolCall.target] <;> rw [Function.update_self, Function.update_of_ne (by decide)] <;>
      simp only [PoolThread.nodes, PoolStage.nodes, List.count_cons, List.count_nil] <;> omega
  · cases call with
    | post data =>
      have there : s.memory.data node = data := ok.1 data rfl
      simp only [PoolCall.target]
      rw [Function.update_self]
      simp only [PoolThread.indexCount, PoolThread.flightCount, PoolStage.indexCount, PoolCall.carried, PoolCall.returned, Memory.setHead,
        List.map_cons, List.count_cons, List.count_nil, List.nil_append, there]
      omega
    | _ =>
      simp only [PoolCall.target]
      rw [Function.update_of_ne (by decide)]
      simp only [PoolThread.indexCount, PoolThread.flightCount, PoolStage.indexCount, PoolCall.carried, PoolCall.returned, Memory.setHead,
        List.count_append, List.count_nil]
      omega

theorem normal_insert (normal : s.Normal L) {node : Nat} {next : Inserting} (found : s.threads[k]? = some ⟨held, some (call, .insert node next)⟩)
    (ran : s.stepCall k held call (.insert node next) = some t) : ∃ L', Normal t L' := by
  have ok : PoolStage.Ok call s.memory (.insert node next) := normal.ok _ (List.mem_of_getElem? found)
  simp only [stepCall] at ran
  cases next with
  | load =>
    cases ran
    refine ⟨L, normal.move found normal.chain (fun _ _ => ⟨rfl, rfl⟩) (fun n => rfl) (fun i => rfl) ?_ not_false ⟨rfl, rfl⟩⟩
    exact ⟨ok.1, fun _ same => (by cases same)⟩
  | next expected =>
    cases ran
    refine ⟨L, normal.move found (chain_setNext normal found List.mem_cons_self expected) (fun n other => ⟨rfl, ?_⟩) (fun n => rfl) (fun i => rfl) ?_
      not_false ⟨rfl, rfl⟩⟩
    · exact Function.update_of_ne (fun same : n = node => other (same ▸ List.mem_cons_self)) _ _
    · refine ⟨ok.1, fun e same => ?_⟩
      cases same
      exact Function.update_self node expected s.memory.nextNode
  | exchange expected =>
    simp only [stepInsert] at ran
    by_cases head : s.memory.head call.target = expected
    · rw [if_pos head] at ran
      cases ran
      exact ⟨_, normal_inserted normal found ((ok.2 expected rfl).trans head.symm)⟩
    · rw [if_neg head] at ran
      cases ran
      refine ⟨L, normal.move found normal.chain (fun _ _ => ⟨rfl, rfl⟩) (fun n => rfl) (fun i => rfl) ?_ not_false ⟨rfl, rfl⟩⟩
      exact ⟨ok.1, fun _ same => (by cases same)⟩

theorem sum_nodes_eq_zero (alone : s.Alone k) {th : PoolThread} (found : s.threads[k]? = some th) (bare : th.nodes = []) (n : Nat) :
    (s.threads.map (fun th => th.nodes.count n)).sum = 0 := by
  apply List.sum_eq_zero
  intro count member
  obtain ⟨other, inside, rfl⟩ := List.mem_map.mp member
  obtain ⟨j, there⟩ := List.mem_iff_getElem?.mp inside
  have none : other.nodes = [] := by
    by_cases same : j = k
    · rw [same, found] at there
      cases there
      exact bare
    · exact alone j other same there
  rw [none, List.count_nil]

/-- Where no call has a node in hand and one list is empty, the other has all of them. -/
theorem perm_range (normal : s.Normal L) (alone : s.Alone k) {th : PoolThread} (found : s.threads[k]? = some th) (bare : th.nodes = [])
    (empty : s.memory.head .free = none) : (L .available).Perm (List.range recordCount) := by
  apply List.perm_iff_count.mpr
  intro n
  have free := normal.chain .free
  rw [empty] at free
  have count := normal.nodes n
  rw [sum_nodes_eq_zero alone found bare n, free.of_none, List.count_nil] at count
  rw [List.nodup_range.count, ← Nat.add_zero (List.count n (L .available)), ← Nat.add_zero (List.count n (L .available) + 0), count]
  simp only [List.mem_range]

theorem normal_stolen (normal : s.Normal L) (alone : s.Alone k) {expected : Option Nat}
    (found : s.threads[k]? = some ⟨held, some (call, .steal expected)⟩) (empty : s.memory.head .free = none) :
    Normal (s.become k ⟨held, some (call, .count [])⟩ (s.memory.setHead .available none)) (fun _ => []) := by
  have all := perm_range normal alone found rfl empty
  have free := normal.chain .free
  rw [empty] at free
  refine normal.move found (fun l => ?_) (fun _ _ => ⟨rfl, rfl⟩) (fun n => ?_) (fun i => ?_) ⟨Nat.zero_le _, rfl⟩ not_false ⟨rfl, rfl⟩
  · have none : (s.memory.setHead .available none).head l = none := by
      cases l with
      | available => exact Memory.head_setHead_self .available none s.memory
      | free => exact (Memory.head_setHead_of_ne (by decide) none s.memory).trans empty
    rw [none]
    exact .nil
  · rw [free.of_none, all.count_eq]
    simp only [PoolThread.nodes, PoolStage.nodes, List.count_nil]
    omega
  · rw [(all.map s.memory.data).count_eq]
    simp only [PoolThread.indexCount, PoolThread.flightCount, PoolStage.indexCount, Memory.setHead, List.map_nil, List.count_nil]
    omega

/-- Without repetition, all indexes of a bucket that is found often enough are there. -/
theorem count_eq_one_of_full {seen : List BucketIndex} (once : ∀ i, seen.count i ≤ 1) {i : BucketIndex} (full : bucket i ∈ fullBuckets seen) :
    seen.count i = 1 := by
  have often := (Finset.mem_filter.mp full).2
  have distinct : (seen.filter (fun j => bucket j = bucket i)).Nodup := (List.nodup_iff_count_le_one.mpr once).filter _
  have inside : (seen.filter (fun j => bucket j = bucket i)) ⊆ indexesOf (bucket i) := by
    intro j member
    exact Accounting.mem_indexesOf.mpr (by simpa using (List.mem_filter.mp member).2)
  have length : (seen.filter (fun j => bucket j = bucket i)).length = chunksInBucket := by
    rw [← often, List.count_eq_countP, List.countP_map, List.countP_eq_length_filter]
    rfl
  have perm : (seen.filter (fun j => bucket j = bucket i)).Perm (indexesOf (bucket i)) := by
    refine (List.subperm_of_subset distinct inside).perm_of_length_le ?_
    rw [length]
    simp [indexesOf]
  have there : i ∈ seen := (List.mem_filter.mp (perm.mem_iff.mpr (Accounting.mem_indexesOf.mpr rfl))).1
  exact Nat.le_antisymm (once i) (List.count_pos_iff.mpr there)

/-- Indexes of some buckets are apart from the others. -/
theorem count_filter_add (l : List Nat) (data : Nat → BucketIndex) (D : Finset Nat) (i : BucketIndex) :
    (l.map data).count i = ((l.filter (fun n => bucket (data n) ∉ D)).map data).count i + if bucket i ∈ D then (l.map data).count i else 0 := by
  induction l with
  | nil => simp
  | cons n l ih =>
    by_cases here : bucket (data n) ∈ D
    · rw [List.filter_cons_of_neg (by simpa using here), List.map_cons, List.count_cons]
      by_cases same : data n = i
      · rw [same] at here
        rw [if_pos here] at ih ⊢
        omega
      · rw [if_neg (by simpa using same), Nat.add_zero]
        exact ih
    · rw [List.filter_cons_of_pos (by simpa using here), List.map_cons, List.map_cons, List.count_cons, List.count_cons]
      by_cases same : data n = i
      · rw [same] at here
        rw [if_neg here] at ih ⊢
        omega
      · rw [if_neg (by simpa using same), Nat.add_zero, Nat.add_zero]
        exact ih

/-- Each place has its share of the count. -/
theorem indexCount_le (normal : s.Normal L) {stage : PoolStage} (found : s.threads[k]? = some ⟨held, some (call, stage)⟩) (i : BucketIndex) :
    held.count i + (call.carried.count i + stage.indexCount s.memory.data i) ≤ if bucket i ∈ s.memory.bucketsInUse then 1 else 0 := by
  have part : PoolThread.indexCount s.memory.data i ⟨held, some (call, stage)⟩ ≤ _ := le_sum (f := fun th => th.indexCount s.memory.data i) found
  have all := normal.indexes i
  exact part.trans (by omega)

theorem nodes_le (normal : s.Normal L) {stage : PoolStage} (found : s.threads[k]? = some ⟨held, some (call, stage)⟩) (n : Nat) :
    stage.nodes.count n ≤ 1 := by
  have part : (PoolThread.nodes ⟨held, some (call, stage)⟩).count n ≤ _ := le_sum (f := fun th => th.nodes.count n) found
  have all := normal.nodes n
  refine part.trans ?_
  split at all <;> omega

theorem normal_count (normal : s.Normal L) {seen : List BucketIndex} (found : s.threads[k]? = some ⟨held, some (call, .count seen)⟩)
    (ran : s.stepCall k held call (.count seen) = some t) : ∃ L', Normal t L' := by
  have ok : PoolStage.Ok call s.memory (.count seen) := normal.ok _ (List.mem_of_getElem? found)
  obtain ⟨short, shape⟩ := ok
  simp only [stepCall] at ran
  by_cases more : seen.length < recordCount
  · rw [if_pos more] at ran
    cases ran
    refine ⟨L, normal.move found normal.chain (fun _ _ => ⟨rfl, rfl⟩) (fun n => rfl) (fun i => rfl) ⟨?_, ?_⟩ not_false ⟨rfl, rfl⟩⟩
    · rw [List.length_append, List.length_singleton]
      omega
    · rw [List.length_append, List.length_singleton, List.range_succ, List.map_append, ← shape]
      rfl
  · rw [if_neg more] at ran
    split at ran
    · cases ran
    · cases ran
      have length : seen.length = recordCount := Nat.le_antisymm short (not_lt.mp more)
      have whole : (List.range' 0 (recordCount - 0)) = List.range recordCount := (List.range_eq_range').symm
      rw [length] at shape
      have once : ∀ i, seen.count i ≤ 1 := by
        intro i
        have bound := indexCount_le normal found i
        simp only [PoolStage.indexCount] at bound
        rw [shape]
        split at bound <;> omega
      refine ⟨L, normal.move found normal.chain (fun _ _ => ⟨rfl, rfl⟩) (fun n => ?_) (fun i => ?_) (Nat.zero_le _) not_false ⟨rfl, rfl⟩⟩
      · simp only [PoolThread.nodes, PoolStage.nodes, List.nil_append, whole]
      · have split := count_filter_add (List.range recordCount) s.memory.data (fullBuckets seen) i
        have full : (if bucket i ∈ fullBuckets seen then ((List.range recordCount).map s.memory.data).count i else 0) =
            if bucket i ∈ fullBuckets seen then 1 else 0 := by
          by_cases member : bucket i ∈ fullBuckets seen
          · rw [if_pos member, if_pos member, ← shape]
            exact count_eq_one_of_full once member
          · rw [if_neg member, if_neg member]
        rw [full] at split
        simp only [PoolThread.indexCount, PoolThread.flightCount, PoolStage.indexCount, whole, List.map_nil, List.count_nil]
        omega

theorem normal_remove (normal : s.Normal L) {toDelete : Finset Nat} (found : s.threads[k]? = some ⟨held, some (call, .remove toDelete)⟩) :
    Normal (s.become k ⟨held, some (call, .assertFilled)⟩ { s.memory with bucketsInUse := s.memory.bucketsInUse \ toDelete }) L := by
  let m : Memory := { s.memory with bucketsInUse := s.memory.bucketsInUse \ toDelete }
  refine normal.change (m := m) found ⟨held, some (call, .assertFilled)⟩ normal.chain (fun _ _ => ⟨rfl, rfl⟩) (fun n => rfl) (fun i => ?_) trivial
    not_false normal.hint (fun id used => normal.positive id (Finset.mem_sdiff.mp used).1) s.mutex
  simp only [PoolThread.indexCount, PoolThread.flightCount, PoolStage.indexCount, m, Finset.mem_sdiff]
  by_cases gone : bucket i ∈ toDelete
  · have part := indexCount_le normal found i
    simp only [PoolStage.indexCount, if_pos gone] at part
    have used : bucket i ∈ s.memory.bucketsInUse := by
      by_contra unused
      rw [if_neg unused] at part
      omega
    rw [if_pos gone, if_pos used, if_neg (fun both => both.2 gone)]
    omega
  · by_cases used : bucket i ∈ s.memory.bucketsInUse
    · rw [if_neg gone, if_pos used, if_pos ⟨used, gone⟩]
    · rw [if_neg gone, if_neg used, if_neg (fun both => used both.1)]

section SecondLoop
variable {toDelete : Finset Nat} {node : Nat} {delList availList : List Nat}

/-- The nodes that are not looked at yet begin with the next one. -/
theorem range'_sort (inside : node < recordCount) :
    List.range' node (recordCount - node) = node :: List.range' (node + 1) (recordCount - (node + 1)) := by
  rw [← List.range'_succ]
  congr 1
  omega

theorem data_ne_zero (normal : s.Normal L) {next : Sorting} (found : s.threads[k]? = some ⟨held, some (call, .sort toDelete node delList availList next)⟩)
    (inside : node < recordCount) (zero : s.memory.data node = 0) : bucket (s.memory.data node) ∈ toDelete := by
  by_contra stays
  have unused : bucket 0 ∉ s.memory.bucketsInUse := fun used => absurd (normal.positive _ used) (by decide)
  have part := indexCount_le normal found 0
  rw [if_neg unused] at part
  simp only [PoolStage.indexCount] at part
  rw [range'_sort inside, List.filter_cons_of_pos (by simpa using stays), List.map_cons, zero, List.count_cons_self] at part
  omega

theorem normal_sort (normal : s.Normal L) {next : Sorting}
    (found : s.threads[k]? = some ⟨held, some (call, .sort toDelete node delList availList next)⟩) :
    Normal (s.stepSort k held call toDelete node delList availList next) L := by
  have ok : PoolStage.Ok call s.memory (.sort toDelete node delList availList next) := normal.ok _ (List.mem_of_getElem? found)
  cases next with
  | zero =>
    simp only [stepSort]
    by_cases inside : node < recordCount
    · rw [if_pos inside]
      refine normal.move found normal.chain (fun _ _ => ⟨rfl, rfl⟩) (fun n => rfl) (fun i => rfl) ?_ not_false ⟨rfl, rfl⟩
      by_cases zero : s.memory.data node = 0
      · rw [if_pos zero]
        exact ⟨inside, data_ne_zero normal found inside zero⟩
      · rw [if_neg zero]
        exact inside
    · have done : recordCount - node = 0 := by omega
      rw [if_neg inside]
      refine normal.move found normal.chain (fun _ _ => ⟨rfl, rfl⟩) (fun n => ?_) (fun i => ?_) (fun _ _ same => (by cases same)) not_false ⟨rfl, rfl⟩
      · simp only [PoolThread.nodes, PoolStage.nodes, done, List.range'_zero, List.append_nil, List.count_append, List.count_reverse]
      · simp only [PoolThread.indexCount, PoolThread.flightCount, PoolStage.indexCount, done, List.range'_zero, List.filter_nil, List.map_nil,
          List.count_nil, List.map_reverse, List.count_reverse, Nat.add_zero]
  | find =>
    have inside : node < recordCount := ok
    simp only [stepSort]
    by_cases gone : bucket (s.memory.data node) ∈ toDelete
    · rw [if_pos gone]
      exact normal.move found normal.chain (fun _ _ => ⟨rfl, rfl⟩) (fun n => rfl) (fun i => rfl) ⟨inside, gone⟩ not_false ⟨rfl, rfl⟩
    · rw [if_neg gone]
      refine normal.move found normal.chain (fun _ _ => ⟨rfl, rfl⟩) (fun n => ?_) (fun i => ?_) inside not_false ⟨rfl, rfl⟩
      · simp only [PoolThread.nodes, PoolStage.nodes, range'_sort inside, List.count_append, List.count_cons, List.count_nil]
        omega
      · simp only [PoolThread.indexCount, PoolThread.flightCount, PoolStage.indexCount]
        rw [range'_sort inside, List.filter_cons_of_pos (by simpa using gone)]
        simp only [List.map_append, List.map_cons, List.map_nil, List.count_append, List.count_cons, List.count_nil]
        omega
  | clear =>
    obtain ⟨inside, gone⟩ : node < recordCount ∧ bucket (s.memory.data node) ∈ toDelete := ok
    have shape := range'_sort inside
    have inHand : node ∈ PoolThread.nodes ⟨held, some (call, .sort toDelete node delList availList .clear)⟩ := by
      simp only [PoolThread.nodes, PoolStage.nodes, shape]
      exact List.mem_append_right _ List.mem_cons_self
    have mine := (normal.mine found inHand).1 .available
    -- the node is in one place of the lists, so that no other data is cleared
    have once : (delList ++ availList ++ (node :: List.range' (node + 1) (recordCount - (node + 1)))).count node ≤ 1 := by
      have part := nodes_le normal found node
      rwa [PoolStage.nodes, shape] at part
    rw [List.count_append, List.count_append, List.count_cons_self] at once
    have notAvail : node ∉ availList := List.count_eq_zero.mp (by omega)
    have notLater : node ∉ List.range' (node + 1) (recordCount - (node + 1)) := List.count_eq_zero.mp (by omega)
    have other : ∀ l : List Nat, node ∉ l → ∀ n ∈ l, (s.memory.setData node 0).data n = s.memory.data n := fun l absent n member =>
      Function.update_of_ne (fun same : n = node => absent (same ▸ member)) _ _
    have kept : (List.range' (node + 1) (recordCount - (node + 1))).filter (fun n => bucket ((s.memory.setData node 0).data n) ∉ toDelete) =
        (List.range' (node + 1) (recordCount - (node + 1))).filter (fun n => bucket (s.memory.data n) ∉ toDelete) := by
      apply List.filter_congr
      intro n member
      rw [other _ notLater n member]
    simp only [stepSort]
    refine normal.move found normal.chain (fun n outside => ⟨?_, rfl⟩) (fun n => ?_) (fun i => ?_) inside not_false ⟨rfl, rfl⟩
    · exact Function.update_of_ne (fun same : n = node => outside (same ▸ inHand)) _ _
    · simp only [PoolThread.nodes, PoolStage.nodes, shape, List.count_append, List.count_cons, List.count_nil]
      omega
    · simp only [PoolThread.indexCount, PoolThread.flightCount, PoolStage.indexCount]
      rw [count_map_congr (other _ mine), count_map_congr (other _ notAvail), kept, shape, List.filter_cons_of_neg (by simpa using gone),
        count_map_congr (fun n member => other _ notLater n (List.mem_filter.mp member).1)]

end SecondLoop

section Link
variable {toDelete : Finset Nat} {delList availList : List Nat} {node : Nat}

/-- A step of the insertion that leaves the node where it is. -/
theorem normal_linking (normal : s.Normal L) {next next' : Inserting} {l : ListName} {m : Memory}
    (found : s.threads[k]? = some ⟨held, some (call, .link toDelete delList availList next)⟩)
    (first : (delList ++ availList).head? = some node) (ran : stepInsert l node s.memory next = (m, some next')) :
    Normal (s.become k ⟨held, some (call, .link toDelete delList availList next')⟩ m) L := by
  have inHand : node ∈ PoolThread.nodes ⟨held, some (call, .link toDelete delList availList next)⟩ := List.mem_of_mem_head? first
  cases next with
  | load =>
    cases ran
    exact normal.move found normal.chain (fun _ _ => ⟨rfl, rfl⟩) (fun n => rfl) (fun i => rfl) (fun _ _ same => (by cases same)) not_false ⟨rfl, rfl⟩
  | next expected =>
    cases ran
    refine normal.move found (chain_setNext normal found inHand expected) (fun n other => ⟨rfl, ?_⟩) (fun n => rfl) (fun i => rfl) ?_ not_false ⟨rfl, rfl⟩
    · exact Function.update_of_ne (fun same : n = node => other (same ▸ inHand)) _ _
    · intro e n same head
      cases same
      obtain rfl : n = node := Option.some.inj (head.symm.trans first)
      exact Function.update_self n expected s.memory.nextNode
  | exchange expected =>
    simp only [stepInsert] at ran
    split at ran
    · cases ran
    · cases ran
      exact normal.move found normal.chain (fun _ _ => ⟨rfl, rfl⟩) (fun n => rfl) (fun i => rfl) (fun _ _ same => (by cases same)) not_false ⟨rfl, rfl⟩

/-- The head is what the node has as its next one. -/
theorem linked_of_stepInsert (normal : s.Normal L) {next : Inserting} {l : ListName} {m : Memory}
    (found : s.threads[k]? = some ⟨held, some (call, .link toDelete delList availList next)⟩)
    (first : (delList ++ availList).head? = some node) (ran : stepInsert l node s.memory next = (m, none)) :
    s.memory.nextNode node = s.memory.head l ∧ m = s.memory.setHead l (some node) := by
  have ok : PoolStage.Ok call s.memory (.link toDelete delList availList next) := normal.ok _ (List.mem_of_getElem? found)
  cases next with
  | load => cases ran
  | next expected => cases ran
  | exchange expected =>
    simp only [stepInsert] at ran
    split at ran
    · rename_i head
      cases ran
      exact ⟨(ok expected node rfl first).trans head.symm, rfl⟩
    · cases ran

theorem normal_link (normal : s.Normal L) {next : Inserting} (found : s.threads[k]? = some ⟨held, some (call, .link toDelete delList availList next)⟩) :
    ∃ L', Normal (s.stepLink k held call toDelete delList availList next) L' := by
  cases delList with
  | cons node delList =>
    cases ran : stepInsert .free node s.memory next with
    | mk m next' =>
      simp only [stepLink, ran]
      cases next' with
      | some next' => exact ⟨L, normal_linking normal found rfl ran⟩
      | none =>
        obtain ⟨linked, rfl⟩ := linked_of_stepInsert normal found rfl ran
        refine ⟨Function.update L .free (node :: L .free), normal.move found (chain_setHead normal linked) (fun _ _ => ⟨rfl, rfl⟩) (fun n => ?_)
          (fun i => ?_) (fun _ _ same => (by cases same)) not_false ⟨rfl, rfl⟩⟩
        · rw [Function.update_self, Function.update_of_ne (by decide)]
          simp only [PoolThread.nodes, PoolStage.nodes, List.cons_append, List.count_cons]
          omega
        · rw [Function.update_of_ne (by decide)]
          rfl
  | nil =>
    cases availList with
    | cons node availList =>
      cases ran : stepInsert .available node s.memory next with
      | mk m next' =>
        simp only [stepLink, ran]
        cases next' with
        | some next' => exact ⟨L, normal_linking normal found rfl ran⟩
        | none =>
          obtain ⟨linked, rfl⟩ := linked_of_stepInsert normal found rfl ran
          refine ⟨Function.update L .available (node :: L .available), normal.move found (chain_setHead normal linked) (fun _ _ => ⟨rfl, rfl⟩)
            (fun n => ?_) (fun i => ?_) (fun _ _ same => (by cases same)) not_false ⟨rfl, rfl⟩⟩
          · rw [Function.update_self, Function.update_of_ne (by decide)]
            simp only [PoolThread.nodes, PoolStage.nodes, List.nil_append, List.count_cons]
            omega
          · rw [Function.update_self]
            simp only [PoolThread.indexCount, PoolThread.flightCount, PoolStage.indexCount, Memory.setHead, List.map_cons, List.count_cons]
            omega
    | nil => exact ⟨L, normal.move found normal.chain (fun _ _ => ⟨rfl, rfl⟩) (fun n => rfl) (fun i => by
        simp only [PoolThread.indexCount, PoolThread.flightCount, PoolStage.indexCount, List.map_nil, List.count_nil, Nat.zero_add])
        trivial not_false ⟨rfl, rfl⟩⟩

end Link

end Steps

end Pool

end CloudCryptFS.Filesystem
