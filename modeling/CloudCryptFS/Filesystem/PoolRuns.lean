import CloudCryptFS.Filesystem.PoolSteps

/-! Runs of several threads on the accounting. As long as nodes are taken, buckets made and
buckets released in good order, no index is in two places and none is lost. -/

namespace CloudCryptFS.Filesystem
open Util Linked BucketIndex
open Accounting (maxBuckets indexesOf createLoop)

namespace Pool

section Runs
variable {s t : Pool} {L : ListName → List Nat} {k : Nat} {held : List BucketIndex} {call : PoolCall}

/-- A thread that asks for the mutex waits for the one that has it. -/
theorem Locks.set (locks : s.Locks) (m : Memory) (mutex : Option Nat) (th : PoolThread) (mine : th.Locked → mutex = some k)
    (others : mutex = s.mutex ∨ s.mutex = none ∨ s.mutex = some k) : Locks ⟨m, mutex, s.threads.set k th⟩ := by
  intro j other there locked
  by_cases same : j = k
  · rw [same] at there ⊢
    have inside : k < (s.threads.set k th).length := (List.getElem?_eq_some_iff.mp there).1
    rw [List.length_set] at inside
    obtain rfl : th = other := Option.some.inj ((List.getElem?_set_self inside).symm.trans there)
    exact mine locked
  · have before : s.mutex = some j := locks j other ((List.getElem?_set_ne (Ne.symm same)).symm.trans there) locked
    rcases others with kept | free | held
    · exact kept.trans before
    · rw [free] at before
      cases before
    · rw [held] at before
      cases before
      exact absurd rfl same

theorem stepTake_shape (held : List BucketIndex) (call : PoolCall) (next : Taking) : ∃ stage m, s.stepTake k held call next = s.become k ⟨held, some (call, stage)⟩ m ∧ ¬stage.Locked := by
  have free : ∀ head, ¬(takeNext head).Locked := by
    intro head
    cases head <;> exact not_false
  cases next with
  | load => exact ⟨_, _, rfl, free _⟩
  | next expected => exact ⟨_, _, rfl, not_false⟩
  | exchange expected newNode =>
    simp only [stepTake]
    split
    · exact ⟨_, _, rfl, by cases call <;> exact not_false⟩
    · exact ⟨_, _, rfl, free _⟩

theorem stepSort_shape (held : List BucketIndex) (call : PoolCall) (toDelete : Finset Nat) (node : Nat) (delList availList : List Nat) (next : Sorting) :
    ∃ th m, s.stepSort k held call toDelete node delList availList next = s.become k th m := by
  cases next <;> simp only [stepSort]
  · split <;> exact ⟨_, _, rfl⟩
  · split <;> exact ⟨_, _, rfl⟩
  · exact ⟨_, _, rfl⟩

theorem stepLink_shape (held : List BucketIndex) (call : PoolCall) (toDelete : Finset Nat) (delList availList : List Nat) (next : Inserting) :
    ∃ th m, s.stepLink k held call toDelete delList availList next = s.become k th m := by
  unfold stepLink
  split
  · split <;> exact ⟨_, _, rfl⟩
  · split <;> exact ⟨_, _, rfl⟩
  · exact ⟨_, _, rfl⟩

/-- A step is one of its thread, and moves the mutex only to it or away from it. -/
theorem stepCall_shape {stage : PoolStage} (ran : s.stepCall k held call stage = some t) :
    ∃ th m mutex, t = ⟨m, mutex, s.threads.set k th⟩ ∧ (th.Locked → stage.Locked ∧ mutex = s.mutex ∨ mutex = some k) ∧
      (mutex = s.mutex ∨ s.mutex = none ∨ stage.Locked) := by
  cases stage with
  | take next =>
    obtain ⟨stage, m, shape, free⟩ := stepTake_shape (s := s) (k := k) held call next
    cases ran
    exact ⟨_, m, s.mutex, shape, fun locked => absurd locked free, Or.inl rfl⟩
  | read node =>
    simp only [stepCall] at ran
    split at ran <;> cases ran
    exact ⟨_, _, _, rfl, False.elim, Or.inl rfl⟩
  | clear node =>
    cases ran
    exact ⟨_, _, _, rfl, False.elim, Or.inl rfl⟩
  | write node =>
    simp only [stepCall] at ran
    split at ran <;> cases ran
    exact ⟨_, _, _, rfl, False.elim, Or.inl rfl⟩
  | insert node next =>
    simp only [stepCall] at ran
    split at ran <;> cases ran <;> exact ⟨_, _, _, rfl, False.elim, Or.inl rfl⟩
  | lock =>
    simp only [stepCall] at ran
    split at ran
    · rename_i free
      cases ran
      exact ⟨_, _, _, rfl, fun _ => Or.inr rfl, Or.inr (Or.inl free)⟩
    · cases ran
  | checkEmpty =>
    cases ran
    exact ⟨_, _, _, rfl, fun _ => Or.inl ⟨trivial, rfl⟩, Or.inl rfl⟩
  | checkFilled =>
    simp only [stepCall] at ran
    split at ran
    · cases ran
      exact ⟨_, _, _, rfl, fun _ => Or.inl ⟨trivial, rfl⟩, Or.inl rfl⟩
    · split at ran <;> cases ran <;> exact ⟨_, _, _, rfl, fun _ => Or.inl ⟨trivial, rfl⟩, Or.inl rfl⟩
  | create buckets writes =>
    cases writes <;> cases ran <;> exact ⟨_, _, _, rfl, fun _ => Or.inl ⟨trivial, rfl⟩, Or.inl rfl⟩
  | assertEmpty =>
    simp only [stepCall] at ran
    split at ran <;> cases ran
    exact ⟨_, _, _, rfl, fun _ => Or.inl ⟨trivial, rfl⟩, Or.inl rfl⟩
  | steal expected =>
    cases expected with
    | none =>
      obtain ⟨expected, _, rfl⟩ := Option.map_eq_some_iff.mp ran
      exact ⟨_, _, _, rfl, fun _ => Or.inl ⟨trivial, rfl⟩, Or.inl rfl⟩
    | some expected =>
      simp only [stepCall] at ran
      split at ran
      · cases ran
        exact ⟨_, _, _, rfl, fun _ => Or.inl ⟨trivial, rfl⟩, Or.inl rfl⟩
      · obtain ⟨expected, _, rfl⟩ := Option.map_eq_some_iff.mp ran
        exact ⟨_, _, _, rfl, fun _ => Or.inl ⟨trivial, rfl⟩, Or.inl rfl⟩
  | count seen =>
    simp only [stepCall] at ran
    split at ran
    · cases ran
      exact ⟨_, _, _, rfl, fun _ => Or.inl ⟨trivial, rfl⟩, Or.inl rfl⟩
    · split at ran <;> cases ran
      exact ⟨_, _, _, rfl, fun _ => Or.inl ⟨trivial, rfl⟩, Or.inl rfl⟩
  | sort toDelete node delList availList next =>
    obtain ⟨th, m, shape⟩ := stepSort_shape (s := s) (k := k) held call toDelete node delList availList next
    cases ran
    exact ⟨th, m, s.mutex, shape, fun _ => Or.inl ⟨trivial, rfl⟩, Or.inl rfl⟩
  | link toDelete delList availList next =>
    obtain ⟨th, m, shape⟩ := stepLink_shape (s := s) (k := k) held call toDelete delList availList next
    cases ran
    exact ⟨th, m, s.mutex, shape, fun _ => Or.inl ⟨trivial, rfl⟩, Or.inl rfl⟩
  | remove toDelete =>
    cases ran
    exact ⟨_, _, _, rfl, fun _ => Or.inl ⟨trivial, rfl⟩, Or.inl rfl⟩
  | assertFilled =>
    simp only [stepCall] at ran
    split at ran <;> cases ran
    exact ⟨_, _, _, rfl, fun _ => Or.inl ⟨trivial, rfl⟩, Or.inl rfl⟩
  | unlock =>
    cases ran
    exact ⟨_, _, _, rfl, False.elim, Or.inr (Or.inr trivial)⟩

/-- A call begins with nothing in hand but the index that it posts. -/
theorem step_shape {next : PoolStep} (ran : s.step next = some t) :
    (∃ k th th', s.threads[k]? = some th ∧ th.call = none ∧ t = s.become k th' s.memory ∧ th'.nodes = [] ∧ ¬th'.Creating ∧ ¬th'.Locked ∧
      (∀ m, th'.Ok m) ∧ ∀ data i, th'.indexCount data i = th.indexCount data i) ∨
    ∃ k held call stage, next = .next k ∧ s.threads[k]? = some ⟨held, some (call, stage)⟩ ∧ s.stepCall k held call stage = some t := by
  cases next with
  | fetch k =>
    obtain ⟨th, found, ran⟩ := Option.bind_eq_some_iff.mp ran
    split at ran
    · rename_i idle
      cases ran
      have none : th.call = none := Option.isNone_iff_eq_none.mp idle
      refine Or.inl ⟨k, th, _, found, none, rfl, rfl, not_false, not_false, fun _ => trivial, fun data i => ?_⟩
      simp only [PoolThread.indexCount, PoolThread.flightCount, none, PoolCall.carried, PoolStage.indexCount, List.count_nil]
    · cases ran
  | post k i =>
    obtain ⟨th, found, ran⟩ := Option.bind_eq_some_iff.mp ran
    split at ran
    · rename_i both
      cases ran
      have none : th.call = none := Option.isNone_iff_eq_none.mp both.1
      refine Or.inl ⟨k, th, _, found, none, rfl, rfl, not_false, not_false, fun _ => trivial, fun data j => ?_⟩
      have held := (List.perm_cons_erase both.2).count_eq j
      simp only [PoolThread.indexCount, PoolThread.flightCount, none, PoolCall.carried, PoolStage.indexCount, List.count_cons, List.count_nil] at held ⊢
      omega
    · cases ran
  | next k =>
    obtain ⟨th, found, ran⟩ := Option.bind_eq_some_iff.mp ran
    obtain ⟨⟨call, stage⟩, going, ran⟩ := Option.bind_eq_some_iff.mp ran
    obtain ⟨held, _⟩ := th
    cases going
    exact Or.inr ⟨k, held, call, stage, rfl, found, ran⟩

theorem locks_step (locks : s.Locks) {next : PoolStep} (ran : s.step next = some t) : t.Locks := by
  rcases step_shape ran with ⟨k, th, th', found, _, rfl, _, _, free, _⟩ | ⟨k, held, call, stage, _, found, stepped⟩
  · exact locks.set s.memory s.mutex th' (fun locked => absurd locked free) (Or.inl rfl)
  · obtain ⟨th, m, mutex, rfl, mine, others⟩ := stepCall_shape stepped
    have before : stage.Locked → s.mutex = some k := fun locked => locks k _ found locked
    refine locks.set m mutex th (fun locked => ?_) (others.imp_right (Or.imp_right before))
    rcases mine locked with ⟨still, kept⟩ | taken
    · exact kept.trans (before still)
    · exact taken

section Creating
variable {buckets : List Nat} {writes : List Write}

def Plain (w : Write) : Prop := ∀ l n, w ≠ .head l n

/-- A thread makes buckets: no other has a node in hand, and when all is written the lists
are in order again. -/
structure CreatingAt (s : Pool) (k : Nat) (held : List BucketIndex) (call : PoolCall) (buckets : List Nat) (writes : List Write) : Prop where
  found : s.threads[k]? = some ⟨held, some (call, .create buckets writes)⟩
  alone : s.Alone k
  others : ∀ j th, j ≠ k → s.threads[j]? = some th → ¬th.Creating
  finished : ∃ L, Normal (s.become k ⟨held, some (call, .unlock)⟩ (s.memory.writeAll writes)) L ∧
    ∀ n ∈ L .available, bucket ((s.memory.writeAll writes).data n) ∈ buckets
  hidden : (s.memory.head .available = none ∧ ∃ front, writes = front ++ [.head .available (some 0), .head .free none] ∧ ∀ w ∈ front, Plain w) ∨
    writes = [.head .free none] ∨ writes = []

theorem plain_recordWrites (recId : Nat) (ids : List Nat) : ∀ w ∈ recordWrites recId ids, Plain w := by
  induction ids generalizing recId with
  | nil => exact fun w none => absurd none List.not_mem_nil
  | cons id ids ih =>
    intro w member
    rw [recordWrites, List.cons_append, List.mem_cons, List.mem_append] at member
    rcases member with rfl | data | later
    · exact fun l n same => (by cases same)
    · obtain ⟨b, _, rfl⟩ := List.mem_map.mp data
      exact fun l n same => (by cases same)
    · exact ih _ w later

theorem plain_cleanRecords : ∀ w ∈ cleanRecords, Plain w := by
  intro w member
  obtain ⟨a, _, inside⟩ := List.mem_flatMap.mp member
  rcases List.mem_cons.mp inside with rfl | inside
  · exact fun l n same => (by cases same)
  · rw [List.mem_singleton.mp inside]
    exact fun l n same => (by cases same)

theorem count_flatMap_indexesOf {ids : List Nat} (distinct : ids.Nodup) (i : BucketIndex) :
    (ids.flatMap indexesOf).count i = if bucket i ∈ ids then 1 else 0 := by
  have nodup : (ids.flatMap indexesOf).Nodup := by
    rw [List.nodup_flatMap]
    refine ⟨fun id _ => Accounting.nodup_indexesOf id, distinct.imp (fun {id other} different i here there => ?_)⟩
    exact different ((Accounting.mem_indexesOf.mp here).symm.trans (Accounting.mem_indexesOf.mp there))
  have member : i ∈ ids.flatMap indexesOf ↔ bucket i ∈ ids := by
    rw [List.mem_flatMap]
    constructor
    · rintro ⟨id, inside, here⟩
      rwa [Accounting.mem_indexesOf.mp here]
    · exact fun inside => ⟨bucket i, inside, Accounting.mem_indexesOf.mpr rfl⟩
  rw [nodup.count]
  simp only [member]

/-- With no other node in hand and nothing available, the new buckets are all that there is
on the lists. -/
theorem creatingAt_begin (normal : s.Normal L) (found : s.threads[k]? = some ⟨held, some (call, .checkFilled)⟩)
    (empty : s.memory.head .available = none) (alone : s.Alone k) :
    CreatingAt (s.goOn k held call (.create (createLoop maxBuckets s.memory.hint s.memory.bucketsInUse).1
      (createWrites (createLoop maxBuckets s.memory.hint s.memory.bucketsInUse).1))) k held call
      (createLoop maxBuckets s.memory.hint s.memory.bucketsInUse).1
      (createWrites (createLoop maxBuckets s.memory.hint s.memory.bucketsInUse).1) := by
  obtain ⟨distinct, fresh, _, _, length⟩ := Accounting.createLoop_spec maxBuckets s.memory.hint s.memory.bucketsInUse
  generalize (createLoop maxBuckets s.memory.hint s.memory.bucketsInUse).1 = buckets at distinct fresh length ⊢
  obtain ⟨chain, available, free, data, used, hint⟩ := createWrites_spec buckets length s.memory
  have inside : k < s.threads.length := (List.getElem?_eq_some_iff.mp found).1
  have other : ∀ th j z, j ≠ k → (s.threads.set k th)[j]? = some z → s.threads[j]? = some z := fun th j z different there =>
    (List.getElem?_set_ne different.symm).symm.trans there
  have noneAvailable := normal.chain .available
  rw [empty] at noneAvailable
  refine ⟨List.getElem?_set_self inside, fun j th different there => alone j th different (other _ j th different there),
    fun j th different there => normal.idle th (List.mem_of_getElem? (other _ j th different there)), ?_,
    Or.inl ⟨empty, recordWrites 0 buckets ++ cleanRecords, rfl, ?_⟩⟩
  · change ∃ L, Normal ⟨s.memory.writeAll (createWrites buckets), s.mutex, (s.threads.set k _).set k _⟩ L ∧ _
    rw [List.set_set]
    change ∃ L : ListName → List Nat, _ ∧ ∀ n ∈ L .available, bucket ((s.memory.writeAll (createWrites buckets)).data n) ∈ buckets
    generalize s.memory.writeAll (createWrites buckets) = m at chain available free data used hint ⊢
    obtain ⟨th', shape⟩ : ∃ th', th' = (⟨held, some (call, .unlock)⟩ : PoolThread) := ⟨_, rfl⟩
    rw [← shape]
    have memberOf : ∀ th ∈ s.threads.set k th', th = th' ∨ ∃ j, j ≠ k ∧ s.threads[j]? = some th := by
      intro th member
      obtain ⟨j, there⟩ := List.mem_iff_getElem?.mp member
      by_cases same : j = k
      · rw [same, List.getElem?_set_self inside] at there
        exact Or.inl (Option.some.inj there).symm
      · exact Or.inr ⟨j, same, other th' j th same there⟩
    refine ⟨fun l => l.casesOn (List.range recordCount) [], ⟨fun l => ?_, fun n => ?_, fun i => ?_, fun th member => ?_, hint normal.hint, fun id member => ?_, fun th member => ?_⟩,
      fun n member => ?_⟩
    · cases l with
      | available =>
        rw [available]
        exact chain
      | free =>
        rw [free]
        exact .nil
    · have moved := sum_set (f := fun th => th.nodes.count n) (g := fun th => th.nodes.count n) found th' (fun _ _ _ _ => rfl)
      have before := sum_nodes_eq_zero alone found rfl n
      have mine : th'.nodes.count n = 0 := by
        rw [shape]
        exact List.count_nil
      have zero : ((s.threads.set k th').map (fun th => th.nodes.count n)).sum = 0 := by omega
      dsimp only
      rw [zero, List.nodup_range.count, List.count_nil]
      simp only [List.mem_range, Nat.add_zero]
    · have moved := sum_set (f := fun th => th.indexCount s.memory.data i) (g := fun th => th.indexCount m.data i) found th'
        (fun j th different there => threadCount_congr i (fun n member => by
          rw [alone j th different there] at member
          cases member))
      have same : PoolThread.indexCount m.data i th' = PoolThread.indexCount s.memory.data i ⟨held, some (call, .checkFilled)⟩ := by
        rw [shape]
        rfl
      have before := normal.indexes i
      rw [noneAvailable.of_none, List.map_nil, List.count_nil] at before
      dsimp only at moved ⊢
      rw [data, count_flatMap_indexesOf distinct]
      have apart : bucket i ∈ buckets → bucket i ∉ s.memory.bucketsInUse := fun created => (fresh _ created).1
      simp only [used]
      by_cases created : bucket i ∈ buckets
      · rw [if_neg (apart created)] at before
        rw [if_pos created, if_pos (Or.inr created)]
        omega
      · by_cases old : bucket i ∈ s.memory.bucketsInUse
        · rw [if_pos old] at before
          rw [if_neg created, if_pos (Or.inl old)]
          omega
        · rw [if_neg old] at before
          rw [if_neg created, if_neg (fun either => either.elim old created)]
          omega
    · rcases memberOf th member with rfl | ⟨j, different, there⟩
      · rw [shape]
        trivial
      · refine ok_congr (fun n inHand => ?_) (normal.ok th (List.mem_of_getElem? there))
        rw [alone j th different there] at inHand
        cases inHand
    · rcases (used id).mp member with old | created
      · exact normal.positive id old
      · exact normal.hint.trans_le (fresh id created).2
    · rcases memberOf th member with rfl | ⟨j, different, there⟩
      · rw [shape]
        exact not_false
      · exact normal.idle th (List.mem_of_getElem? there)
    · have there : m.data n ∈ buckets.flatMap indexesOf := data ▸ List.mem_map_of_mem member
      obtain ⟨id, created, here⟩ := List.mem_flatMap.mp there
      rwa [Accounting.mem_indexesOf.mp here]
  · intro w member
    rcases List.mem_append.mp member with record | clean
    · exact plain_recordWrites 0 buckets w record
    · exact plain_cleanRecords w clean

/-- The thread that makes the buckets goes on. -/
theorem creatingAt_write {w : Write} (creating : CreatingAt s k held call buckets (w :: writes)) :
    CreatingAt (s.become k ⟨held, some (call, .create buckets writes)⟩ (s.memory.write w)) k held call buckets writes := by
  have inside : k < s.threads.length := (List.getElem?_eq_some_iff.mp creating.found).1
  have other : ∀ j th, j ≠ k → (s.threads.set k ⟨held, some (call, .create buckets writes)⟩)[j]? = some th → s.threads[j]? = some th :=
    fun j th different there => (List.getElem?_set_ne different.symm).symm.trans there
  refine ⟨List.getElem?_set_self inside, fun j th different there => creating.alone j th different (other j th different there),
    fun j th different there => creating.others j th different (other j th different there), ?_, ?_⟩
  · obtain ⟨L, normal, new⟩ := creating.finished
    refine ⟨L, ?_, new⟩
    change Normal ⟨_, s.mutex, (s.threads.set k _).set k _⟩ L
    rw [List.set_set]
    exact normal
  · rcases creating.hidden with ⟨empty, front, shape, plain⟩ | last | none
    · cases front with
      | nil =>
        cases shape
        exact Or.inr (Or.inl rfl)
      | cons first front =>
        cases shape
        refine Or.inl ⟨?_, front, rfl, fun w member => plain w (List.mem_cons_of_mem _ member)⟩
        cases w with
        | head l n => exact absurd rfl (plain _ List.mem_cons_self l n)
        | _ => exact empty
    · cases last
      exact Or.inr (Or.inr rfl)
    · cases none

theorem normal_of_creatingAt (creating : CreatingAt s k held call buckets []) : ∃ L, Normal (s.goOn k held call .unlock) L :=
  creating.finished.imp (fun _ both => both.1)

/-- Another thread goes on without a node in hand. -/
theorem creatingAt_other (creating : CreatingAt s k held call buckets writes) {j : Nat} {th th' : PoolThread} (different : j ≠ k)
    (found : s.threads[j]? = some th) (bare : th'.nodes = []) (idle : ¬th'.Creating) (ok : ∀ m, th'.Ok m)
    (indexes : ∀ data i, th'.indexCount data i = th.indexCount data i) : CreatingAt (s.become j th' s.memory) k held call buckets writes := by
  have inside : j < s.threads.length := (List.getElem?_eq_some_iff.mp found).1
  have which : ∀ i other, i ≠ k → (s.threads.set j th')[i]? = some other → other = th' ∨ s.threads[i]? = some other := by
    intro i other _ there
    by_cases same : i = j
    · rw [same, List.getElem?_set_self inside] at there
      exact Or.inl (Option.some.inj there).symm
    · exact Or.inr ((List.getElem?_set_ne (Ne.symm same)).symm.trans there)
  refine ⟨(List.getElem?_set_ne different).trans creating.found, fun i other notK there => ?_, fun i other notK there => ?_, ?_, creating.hidden⟩
  · rcases which i other notK there with rfl | before
    · exact bare
    · exact creating.alone i other notK before
  · rcases which i other notK there with rfl | before
    · exact idle
    · exact creating.others i other notK before
  · obtain ⟨L, normal, new⟩ := creating.finished
    refine ⟨L, ?_, new⟩
    change Normal ⟨_, s.mutex, (s.threads.set j th').set k _⟩ L
    rw [List.set_comm _ _ different]
    have there : (s.become k ⟨held, some (call, .unlock)⟩ (s.memory.writeAll writes)).threads[j]? = some th :=
      (List.getElem?_set_ne different.symm).trans found
    have none : th.nodes = [] := creating.alone j th different found
    exact normal.stay there (fun n => by rw [bare, none]) (fun i => indexes _ i) (ok _) idle s.mutex

end Creating

/-- The lists are in order, or one thread is about to put them in order. -/
def Inv (s : Pool) : Prop :=
  s.Locks ∧ ((∃ L, Normal s L) ∨ ∃ k held call buckets writes, CreatingAt s k held call buckets writes)

theorem normal_steal (normal : s.Normal L) {expected : Option Nat} (found : s.threads[k]? = some ⟨held, some (call, .steal expected)⟩)
    (ordered : s.Ordered (.next k)) (ran : s.stepCall k held call (.steal expected) = some t) : ∃ L, Normal t L := by
  cases expected with
  | none =>
    obtain ⟨expected, _, rfl⟩ := Option.map_eq_some_iff.mp ran
    exact ⟨L, normal_goOn normal found (bare_steal _) (bare_steal _) s.mutex⟩
  | some expected =>
    simp only [stepCall] at ran
    split at ran
    · rename_i head
      cases ran
      obtain ⟨empty, alone⟩ := ordered _ found head
      exact ⟨_, normal_stolen normal alone found empty⟩
    · obtain ⟨expected, _, rfl⟩ := Option.map_eq_some_iff.mp ran
      exact ⟨L, normal_goOn normal found (bare_steal _) (bare_steal _) s.mutex⟩

theorem normal_checkFilled (normal : s.Normal L) (found : s.threads[k]? = some ⟨held, some (call, .checkFilled)⟩)
    (ordered : s.Ordered (.next k)) (ran : s.stepCall k held call .checkFilled = some t) :
    (∃ L, Normal t L) ∨ ∃ k held call buckets writes, CreatingAt t k held call buckets writes := by
  simp only [stepCall] at ran
  split at ran
  · cases ran
    exact Or.inl ⟨L, normal_goOn normal found bare_checkFilled bare_unlock s.mutex⟩
  · rename_i filled
    have begun := ordered _ found
    cases call with
    | post data =>
      cases ran
      exact Or.inl ⟨L, normal_goOn normal found bare_checkFilled bare_assertEmpty s.mutex⟩
    | fetch =>
      cases ran
      obtain ⟨empty, alone⟩ := begun rfl filled
      exact Or.inr ⟨_, _, _, _, _, creatingAt_begin normal found empty alone⟩
    | fetched ret =>
      cases ran
      obtain ⟨empty, alone⟩ := begun rfl filled
      exact Or.inr ⟨_, _, _, _, _, creatingAt_begin normal found empty alone⟩

theorem normal_stepCall (normal : s.Normal L) {stage : PoolStage} (found : s.threads[k]? = some ⟨held, some (call, stage)⟩)
    (ordered : s.Ordered (.next k)) (ran : s.stepCall k held call stage = some t) :
    (∃ L, Normal t L) ∨ ∃ k held call buckets writes, CreatingAt t k held call buckets writes := by
  cases stage with
  | take next =>
    cases ran
    exact Or.inl (normal_stepTake normal found ordered)
  | read node =>
    cases call with
    | fetch =>
      cases ran
      exact Or.inl ⟨L, normal_read normal found⟩
    | fetched ret => cases ran
    | post data => cases ran
  | clear node =>
    cases ran
    exact Or.inl ⟨L, normal_clear normal found (normal.ok _ (List.mem_of_getElem? found))⟩
  | write node =>
    cases call with
    | fetch => cases ran
    | fetched ret => cases ran
    | post data =>
      cases ran
      exact Or.inl ⟨L, normal_write normal found⟩
  | insert node next => exact Or.inl (normal_insert normal found ran)
  | lock =>
    simp only [stepCall] at ran
    split at ran
    · cases ran
      exact Or.inl ⟨L, normal_goOn normal found bare_lock bare_checkEmpty (some k)⟩
    · cases ran
  | checkEmpty =>
    simp only [stepCall] at ran
    cases ran
    refine Or.inl ⟨L, normal_goOn normal found bare_checkEmpty ?_ s.mutex⟩
    split
    · exact bare_checkFilled
    · exact bare_unlock
  | checkFilled => exact normal_checkFilled normal found ordered ran
  | create buckets writes => exact absurd trivial (normal.idle _ (List.mem_of_getElem? found))
  | assertEmpty =>
    simp only [stepCall] at ran
    split at ran
    · cases ran
      exact Or.inl ⟨L, normal_goOn normal found bare_assertEmpty (bare_steal _) s.mutex⟩
    · cases ran
  | steal expected => exact Or.inl (normal_steal normal found ordered ran)
  | count seen => exact Or.inl (normal_count normal found ran)
  | sort toDelete node delList availList next =>
    cases ran
    exact Or.inl ⟨L, normal_sort normal found⟩
  | link toDelete delList availList next =>
    cases ran
    exact Or.inl (normal_link normal found)
  | remove toDelete =>
    cases ran
    exact Or.inl ⟨L, normal_remove normal found⟩
  | assertFilled =>
    simp only [stepCall] at ran
    split at ran
    · cases ran
    · cases ran
      exact Or.inl ⟨L, normal_goOn normal found bare_assertFilled bare_unlock s.mutex⟩
  | unlock =>
    cases ran
    exact Or.inl ⟨L, normal_goOn normal found bare_unlock (bare_take _) none⟩

/-- While buckets are made, other threads only look. -/
theorem creatingAt_stepCall {buckets : List Nat} {writes : List Write} {held' : List BucketIndex} {call' : PoolCall} {stage : PoolStage} {j : Nat}
    (locks : s.Locks) (creating : CreatingAt s k held call buckets writes) (different : j ≠ k)
    (found : s.threads[j]? = some ⟨held', some (call', stage)⟩) (ordered : s.Ordered (.next j)) (ran : s.stepCall j held' call' stage = some t) :
    CreatingAt t k held call buckets writes := by
  have bare : stage.nodes = [] := creating.alone j _ different found
  have mutex : s.mutex = some k := locks k _ creating.found trivial
  have free : ¬stage.Locked := by
    intro locked
    have other : s.mutex = some j := locks j _ found locked
    rw [mutex] at other
    cases other
    exact different rfl
  have go : ∀ stage', Bare stage → Bare stage' → CreatingAt (s.goOn j held' call' stage') k held call buckets writes := by
    intro stage' before after
    refine creatingAt_other creating different found after.nodes ?_ (fun m => after.ok call' m) (fun data i => ?_)
    · unfold PoolThread.Creating
      dsimp only
      split
      · rename_i same
        cases same
        exact absurd rfl (after.idle _ _)
      · exact not_false
    · unfold PoolThread.indexCount PoolThread.flightCount
      dsimp only
      rw [before.indexCount, after.indexCount]
  cases stage with
  | take next =>
    cases ran
    cases next with
    | load => exact go _ (bare_take _) (bare_takeNext _)
    | next expected => exact go _ (bare_take _) (bare_take _)
    | exchange expected newNode =>
      simp only [stepTake]
      by_cases head : s.memory.head call'.source = some expected
      · exact absurd trivial ((ordered _ found head).2 _ (List.mem_of_getElem? creating.found))
      · rw [if_neg head]
        exact go _ (bare_take _) (bare_takeNext _)
  | read node => cases bare
  | clear node => cases bare
  | write node => cases bare
  | insert node next => cases bare
  | lock =>
    simp only [stepCall] at ran
    rw [mutex, if_neg (by simp)] at ran
    cases ran
  | _ => exact absurd trivial free

theorem inv_step (inv : s.Inv) {next : PoolStep} (ordered : s.Ordered next) (ran : s.step next = some t) : t.Inv := by
  obtain ⟨locks, order⟩ := inv
  refine ⟨locks_step locks ran, ?_⟩
  rcases step_shape ran with ⟨k, th, th', found, none, rfl, bare, idle, _, ok, indexes⟩ | ⟨k, held, call, stage, rfl, found, stepped⟩
  · rcases order with ⟨L, normal⟩ | ⟨j, held, call, buckets, writes, creating⟩
    · refine Or.inl ⟨L, normal.stay found (fun n => ?_) (fun i => indexes _ i) (ok _) idle s.mutex⟩
      unfold PoolThread.nodes at bare ⊢
      rw [bare, none]
    · refine Or.inr ⟨j, held, call, buckets, writes, creatingAt_other creating ?_ found bare idle ok indexes⟩
      rintro rfl
      rw [creating.found] at found
      cases found
      cases none
  · rcases order with ⟨L, normal⟩ | ⟨j, held', call', buckets, writes, creating⟩
    · exact normal_stepCall normal found ordered stepped
    · by_cases same : k = j
      · subst same
        rw [creating.found] at found
        cases found
        cases writes with
        | nil =>
          cases stepped
          exact Or.inl (normal_of_creatingAt creating)
        | cons w writes =>
          cases stepped
          exact Or.inr ⟨_, _, _, _, _, creatingAt_write creating⟩
      · exact Or.inr ⟨_, _, _, _, _, creatingAt_stepCall locks creating same found ordered stepped⟩

/-- Each index is with one caller at most and then not available, and none of a bucket in
use is lost. -/
structure Accounted (s : Pool) : Prop where
  apart : ∀ (j k : Nat) (th th' : PoolThread) (i : BucketIndex), s.threads[j]? = some th → s.threads[k]? = some th' → i ∈ th.held → i ∈ th'.held → j = k
  once : ∀ th ∈ s.threads, th.held.Nodup
  unavailable : ∀ th ∈ s.threads, ∀ i ∈ th.held, ¬s.Available i
  somewhere : ∀ i, bucket i ∈ s.memory.bucketsInUse → (∃ th ∈ s.threads, i ∈ th.held) ∨ s.Available i ∨ s.InFlight i

section Count

theorem indexCount_pos_of_held {th : PoolThread} {i : BucketIndex} (data : Nat → BucketIndex) (member : i ∈ th.held) : 0 < th.indexCount data i :=
  Nat.add_pos_left (List.count_pos_iff.mpr member) _

theorem Normal.sum_le_one (normal : s.Normal L) (i : BucketIndex) :
    ((L .available).map s.memory.data).count i + (s.threads.map (fun th => th.indexCount s.memory.data i)).sum ≤ 1 := by
  rw [normal.indexes i]
  split <;> decide

theorem Normal.apart (normal : s.Normal L) {j k : Nat} {th th' : PoolThread} {i : BucketIndex} (first : s.threads[j]? = some th)
    (second : s.threads[k]? = some th') (here : i ∈ th.held) (there : i ∈ th'.held) : j = k := by
  by_contra different
  have both := add_le_sum (f := fun th => th.indexCount s.memory.data i) first second (Ne.symm different)
  have bound := normal.sum_le_one i
  have one := indexCount_pos_of_held s.memory.data here
  have two := indexCount_pos_of_held s.memory.data there
  omega

theorem Normal.once (normal : s.Normal L) {th : PoolThread} (member : th ∈ s.threads) : th.held.Nodup := by
  apply List.nodup_iff_count_le_one.mpr
  intro i
  obtain ⟨k, found⟩ := List.mem_iff_getElem?.mp member
  have part : th.indexCount s.memory.data i ≤ _ := le_sum (f := fun th => th.indexCount s.memory.data i) found
  have bound := normal.sum_le_one i
  have mine : th.held.count i ≤ th.indexCount s.memory.data i := Nat.le_add_right _ _
  omega

theorem Normal.not_mem_available (normal : s.Normal L) {th : PoolThread} {i : BucketIndex} (member : th ∈ s.threads) (held : i ∈ th.held) :
    i ∉ (L .available).map s.memory.data := by
  intro there
  obtain ⟨k, found⟩ := List.mem_iff_getElem?.mp member
  have part : th.indexCount s.memory.data i ≤ _ := le_sum (f := fun th => th.indexCount s.memory.data i) found
  have bound := normal.sum_le_one i
  have one := indexCount_pos_of_held s.memory.data held
  have two := List.count_pos_iff.mpr there
  omega

theorem Normal.somewhere (normal : s.Normal L) {i : BucketIndex} (used : bucket i ∈ s.memory.bucketsInUse) :
    i ∈ (L .available).map s.memory.data ∨ ∃ th ∈ s.threads, i ∈ th.held ∨ 0 < th.flightCount s.memory.data i := by
  have all := normal.indexes i
  rw [if_pos used] at all
  by_cases there : i ∈ (L .available).map s.memory.data
  · exact Or.inl there
  · rw [List.count_eq_zero.mpr there] at all
    obtain ⟨th, member, positive⟩ := exists_of_sum_pos (f := fun th => th.indexCount s.memory.data i) (l := s.threads) (by omega)
    refine Or.inr ⟨th, member, ?_⟩
    by_cases held : i ∈ th.held
    · exact Or.inl held
    · unfold PoolThread.indexCount at positive
      rw [List.count_eq_zero.mpr held] at positive
      exact Or.inr (by omega)

end Count

theorem Normal.accounted (normal : s.Normal L) : s.Accounted where
  apart j k th th' i first second here there := normal.apart first second here there
  once th member := normal.once member
  unavailable th member i held := by
    rintro ⟨l, chain, there⟩
    rw [chain.unique (normal.chain .available)] at there
    exact normal.not_mem_available member held there
  somewhere i used := by
    rcases normal.somewhere used with there | ⟨th, member, held | flight⟩
    · exact Or.inr (Or.inl ⟨L .available, normal.chain .available, there⟩)
    · exact Or.inl ⟨th, member, held⟩
    · exact Or.inr (Or.inr ⟨th, member, flight⟩)

theorem used_writeAll (writes : List Write) (m : Memory) : m.bucketsInUse ⊆ (m.writeAll writes).bucketsInUse := by
  induction writes generalizing m with
  | nil => exact Finset.Subset.refl _
  | cons w writes ih =>
    rw [writeAll_cons]
    refine Finset.Subset.trans ?_ (ih (m.write w))
    cases w with
    | use id => exact Finset.subset_insert id m.bucketsInUse
    | _ => exact Finset.Subset.refl _

/-- What the threads hold while buckets are made is what they hold afterwards. -/
theorem CreatingAt.accounted {buckets : List Nat} {writes : List Write} (creating : CreatingAt s k held call buckets writes) : s.Accounted := by
  obtain ⟨L, normal, new⟩ := creating.finished
  let th' : PoolThread := ⟨held, some (call, .unlock)⟩
  have inside : k < s.threads.length := (List.getElem?_eq_some_iff.mp creating.found).1
  have after : ∀ (j : Nat) (th : PoolThread), s.threads[j]? = some th →
      ∃ other : PoolThread, (s.threads.set k th')[j]? = some other ∧ other.held = th.held := by
    intro j th there
    by_cases same : j = k
    · rw [same, creating.found] at there
      cases there
      refine ⟨th', ?_, rfl⟩
      rw [same]
      exact List.getElem?_set_self inside
    · exact ⟨th, (List.getElem?_set_ne (Ne.symm same)).trans there, rfl⟩
  refine ⟨fun i j th other index first second here there => ?_, fun th member => ?_, fun th member i mine => ?_, fun i used => ?_⟩
  · obtain ⟨one, first', same⟩ := after i th first
    obtain ⟨two, second', same'⟩ := after j other second
    exact normal.apart first' second' (same ▸ here) (same' ▸ there)
  · obtain ⟨j, found⟩ := List.mem_iff_getElem?.mp member
    obtain ⟨other, there, same⟩ := after j th found
    exact same ▸ normal.once (List.mem_of_getElem? there)
  · obtain ⟨j, found⟩ := List.mem_iff_getElem?.mp member
    obtain ⟨other, there, same⟩ := after j th found
    have absent := normal.not_mem_available (List.mem_of_getElem? there) (same ▸ mine)
    have available := normal.chain .available
    rintro ⟨l, chain, listed⟩
    rcases creating.hidden with ⟨empty, _⟩ | last | none
    · rw [empty] at chain
      rw [chain.of_none] at listed
      cases listed
    · rw [last] at absent available
      have kept : (s.memory.writeAll [.head .free none]).head .available = s.memory.head .available :=
        Memory.head_setHead_of_ne (by decide) none s.memory
      rw [chain.unique (m := L .available) (kept ▸ available)] at listed
      exact absent listed
    · rw [none] at absent available
      rw [chain.unique available] at listed
      exact absent listed
  · rcases normal.somewhere (used_writeAll writes s.memory used) with there | ⟨th, member, which⟩
    · obtain ⟨n, listed, same⟩ := List.mem_map.mp there
      refine Or.inr (Or.inr ⟨_, List.mem_of_getElem? creating.found, ?_⟩)
      have created : bucket i ∈ buckets := same ▸ new n listed
      simp only [PoolThread.flightCount, PoolStage.indexCount, if_pos created]
      omega
    · obtain ⟨j, found⟩ := List.mem_iff_getElem?.mp member
      by_cases same : j = k
      · rw [same] at found
        obtain rfl : th' = th := Option.some.inj ((List.getElem?_set_self inside).symm.trans found)
        rcases which with mine | flight
        · exact Or.inl ⟨_, List.mem_of_getElem? creating.found, mine⟩
        · refine Or.inr (Or.inr ⟨_, List.mem_of_getElem? creating.found, ?_⟩)
          have carried : 0 < call.carried.count i + 0 := flight
          simp only [PoolThread.flightCount]
          omega
      · have found' : s.threads[j]? = some th := (List.getElem?_set_ne (Ne.symm same)).symm.trans found
        rcases which with mine | flight
        · exact Or.inl ⟨th, List.mem_of_getElem? found', mine⟩
        · refine Or.inr (Or.inr ⟨th, List.mem_of_getElem? found', ?_⟩)
          have none : th.nodes = [] := creating.alone j th same found'
          have count : th.indexCount (s.memory.writeAll writes).data i = th.indexCount s.memory.data i := threadCount_congr i (fun n inHand => by
            rw [none] at inHand
            cases inHand)
          unfold PoolThread.indexCount at count
          change 0 < th.flightCount (s.memory.writeAll writes).data i at flight
          omega

theorem Inv.accounted (inv : s.Inv) : s.Accounted := by
  rcases inv.2 with ⟨L, normal⟩ | ⟨k, held, call, buckets, writes, creating⟩
  · exact normal.accounted
  · exact creating.accounted

/-- All records are linked to a list of free ones. -/
theorem create_linked (buckets : Finset Nat) (threads : List PoolThread) :
    ∃ next, Chain next (some 0) (List.range recordCount) ∧
      create buckets threads = ⟨⟨fun _ => 0, next, fun l => l.casesOn none (some 0), 1, buckets⟩, none, threads⟩ := by
  obtain ⟨bare, made, data, head, hint, used⟩ : ∃ bare : Memory, create buckets threads = ⟨bare.writeAll cleanRecords, none, threads⟩ ∧
      bare.data = (fun _ => 0) ∧ bare.head = (fun l => l.casesOn none (some 0)) ∧ bare.hint = 1 ∧ bare.bucketsInUse = buckets := by
    refine ⟨_, rfl, rfl, ?_, rfl, rfl⟩
    funext l
    cases l <;> rfl
  have chain := cleanRecords_chain bare
  obtain ⟨next, linked⟩ := writeAll_cleanRecords bare
  rw [linked] at chain made
  rw [data, head, hint, used] at made
  exact ⟨next, chain, made⟩

/-- A pool with nothing in it, beside threads that hold what is in use. -/
theorem inv_create {buckets : Finset Nat} {threads : List PoolThread} (idle : ∀ th ∈ threads, th.call = none)
    (owned : ∀ i, (threads.map (fun th => th.held.count i)).sum = if bucket i ∈ buckets then 1 else 0) (positive : ∀ id ∈ buckets, 0 < id) :
    (create buckets threads).Inv := by
  obtain ⟨next, chain, shape⟩ := create_linked buckets threads
  rw [shape]
  refine ⟨fun k th found locked => ?_, Or.inl ⟨fun l => l.casesOn [] (List.range recordCount), fun l => ?_, fun n => ?_, fun i => ?_, fun th member => ?_, Nat.one_pos, positive, fun th member => ?_⟩⟩
  · unfold PoolThread.Locked at locked
    rw [idle th (List.mem_of_getElem? found)] at locked
    exact locked.elim
  · cases l with
    | available => exact .nil
    | free => exact chain
  · have zero : (threads.map (fun th => th.nodes.count n)).sum = 0 := by
      apply List.sum_eq_zero
      intro count member
      obtain ⟨th, inside, rfl⟩ := List.mem_map.mp member
      unfold PoolThread.nodes
      rw [idle th inside]
      rfl
    dsimp only
    rw [zero, List.count_nil, Nat.zero_add, Nat.add_zero, List.nodup_range.count]
    simp only [List.mem_range]
  · have same : threads.map (fun th => th.indexCount (fun _ => 0) i) = threads.map (fun th => th.held.count i) := by
      apply List.map_congr_left
      intro th inside
      unfold PoolThread.indexCount PoolThread.flightCount
      rw [idle th inside]
      rfl
    dsimp only
    rw [List.map_nil, List.count_nil, Nat.zero_add]
    change (threads.map (fun th => th.indexCount (fun _ => 0) i)).sum = _
    rw [same]
    exact owned i
  · unfold PoolThread.Ok
    rw [idle th member]
    trivial
  · unfold PoolThread.Creating
    rw [idle th member]
    exact not_false

end Runs

/-- In every ordered run no index is with two callers, none is with a caller and available,
and none of a bucket in use is lost. -/
theorem accounted_ordered {buckets : Finset Nat} {threads : List PoolThread} {steps : List PoolStep} {s : Pool}
    (idle : ∀ th ∈ threads, th.call = none)
    (owned : ∀ i, (threads.map (fun th => th.held.count i)).sum = if bucket i ∈ buckets then 1 else 0) (positive : ∀ id ∈ buckets, 0 < id)
    (ordered : OrderedRun steps (create buckets threads)) (ran : run steps (create buckets threads) = some s) : s.Accounted :=
  (Schedule.invariant_run (fun inv here stepped => inv_step inv here stepped) (inv_create idle owned positive) ordered ran).accounted

section Schedules

theorem create_eq (buckets : Finset Nat) (threads : List PoolThread) :
    create buckets threads =
      { memory :=
          { data := fun _ => 0
            nextNode := fun n => if n < recordCount - 1 then some (n + 1) else if n = recordCount - 1 ∧ 0 < recordCount - 1 then none else none
            head := fun l => l.casesOn none (some 0)
            hint := 1
            bucketsInUse := buckets }
        mutex := none
        threads := threads } := by
  rw [create, cleanRecords, writeAll_next]
  congr 2
  funext l
  cases l <;> rfl

/-- Three threads; two of them hold the indexes of the bucket 1. -/
def callers : List PoolThread := [⟨[256], none⟩, ⟨(List.range 255).map (fun b => 257 + b), none⟩, ⟨[], none⟩]

theorem idle_callers : ∀ th ∈ callers, th.call = none := by
  intro th member
  simp only [callers, List.mem_cons, List.not_mem_nil, or_false] at member
  rcases member with rfl | rfl | rfl <;> rfl

theorem owned_callers (i : BucketIndex) : (callers.map (fun th => th.held.count i)).sum = if bucket i ∈ ({1} : Finset Nat) then 1 else 0 := by
  have all : [1].flatMap indexesOf = [256] ++ (List.range 255).map (fun b => 257 + b) := by decide +kernel
  have count := count_flatMap_indexesOf (List.nodup_singleton 1) i
  rw [all, List.count_append] at count
  simp only [callers, List.map_cons, List.map_nil, List.sum_cons, List.sum_nil, List.count_nil, Nat.add_zero, Finset.mem_singleton]
  simpa only [List.mem_singleton] using count

theorem positive_callers : ∀ id ∈ ({1} : Finset Nat), 0 < id := by
  intro id member
  rw [Finset.mem_singleton.mp member]
  exact Nat.one_pos

/-- A stage at which no buckets are made or released. -/
def simple : PoolStage → Bool
  | .create _ _ | .checkFilled | .steal _ => false
  | _ => true

/-- What is checked of a step where no buckets are made or released. -/
def check (s : Pool) : PoolStep → Bool
  | .next k =>
    match s.threads[k]? with
    | some ⟨_, some (call, .take (.exchange expected newNode))⟩ =>
      decide (s.memory.head call.source ≠ some expected) ||
        (decide (s.memory.nextNode expected = newNode) && s.threads.all (fun th => th.call.all (fun call => simple call.2)))
    | some ⟨_, some (_, stage)⟩ => simple stage
    | _ => true
  | _ => true

theorem not_creating_of_simple {th : PoolThread} (none : th.call.all (fun call => simple call.2) = true) : ¬th.Creating := by
  obtain ⟨held, call⟩ := th
  cases call with
  | none => exact not_false
  | some call =>
    obtain ⟨call, stage⟩ := call
    cases stage with
    | create buckets writes => cases none
    | _ => exact not_false

theorem ordered_of_check (s : Pool) (next : PoolStep) (checked : s.check next = true) : s.Ordered next := by
  cases next with
  | next k =>
    intro th found
    obtain ⟨held, call⟩ := th
    rw [check, found] at checked
    cases call with
    | none => trivial
    | some call =>
      obtain ⟨call, stage⟩ := call
      cases stage with
      | take taking =>
        cases taking with
        | exchange expected newNode =>
          dsimp only at checked ⊢
          intro here
          rw [here] at checked
          simp only [ne_eq, not_true_eq_false, decide_false, Bool.false_or, Bool.and_eq_true, decide_eq_true_eq, List.all_eq_true] at checked
          exact ⟨checked.1, fun th member => not_creating_of_simple (checked.2 th member)⟩
        | _ => trivial
      | checkFilled => cases checked
      | steal expected => cases checked
      | _ => trivial
  | _ => trivial

/-- Two threads post at the same time: both read the same head, and only one of them gets its node
at the first try. -/
def twoPosts : List PoolStep :=
  .post 0 256 :: .post 1 257 :: (List.replicate 7 [.next 0, .next 1]).flatten ++ List.replicate 2 (.next 1)

theorem accounted_ordered_twoPosts : ∃ s, run twoPosts (create {1} callers) = some s ∧ s.memory.head .available = some 1 ∧ s.Accounted := by
  have checked : Schedule.OrderedRun step (fun s next => s.check next = true) twoPosts (create {1} callers) := by
    rw [create_eq]
    decide +kernel
  have outcome : (run twoPosts (create {1} callers)).map (fun s => s.memory.head .available) = some (some 1) := by
    rw [create_eq]
    decide +kernel
  obtain ⟨s, ran, head⟩ := Option.map_eq_some_iff.mp outcome
  exact ⟨s, ran, head, accounted_ordered idle_callers owned_callers positive_callers (Schedule.orderedRun_mono ordered_of_check checked) ran⟩

def fetchOf (k : Nat) : List PoolStep := .fetch k :: List.replicate 8 (.next k)
def postOf (k : Nat) (i : BucketIndex) : List PoolStep := .post k i :: List.replicate 7 (.next k)

/-- The thread 0 is about to take the node 0 with the node 1 as its next one. Before it goes
on both nodes are posted, and both are taken again, but only the node 0 comes back. -/
def lateExchange : List PoolStep :=
  .post 0 256 :: List.replicate 2 (.next 0) ++ postOf 1 257 ++ postOf 1 258 ++ .fetch 2 :: List.replicate 4 (.next 2) ++ fetchOf 1 ++
    .next 0 :: postOf 1 259 ++ [.next 2]

/-- The node 1 is taken by a post while another thread still has it, and the index of that
post is lost. -/
theorem index_lost : ∃ s, run lateExchange (create {1} callers) = some s ∧ ¬s.Accounted := by
  have ran : (run lateExchange (create {1} callers)).any (fun s =>
      decide (s.memory.head .available = some 1 ∧ s.memory.nextNode 1 = none ∧ s.memory.data 1 = 0 ∧ bucket 259 ∈ s.memory.bucketsInUse ∧
        (∀ th ∈ s.threads, 259 ∉ th.held) ∧ ∀ th ∈ s.threads, th.flightCount s.memory.data 259 = 0)) = true := by
    rw [create_eq]
    decide +kernel
  obtain ⟨s, ran, facts⟩ := (Option.any_eq_true _ _).mp ran
  obtain ⟨head, last, data, used, notHeld, notFlight⟩ := of_decide_eq_true facts
  refine ⟨s, ran, fun accounted => ?_⟩
  rcases accounted.somewhere 259 used with ⟨th, member, held⟩ | ⟨l, chain, there⟩ | ⟨th, member, flight⟩
  · exact notHeld th member held
  · rw [head] at chain
    obtain ⟨rest, rfl, later⟩ := chain.of_some
    rw [last] at later
    rw [later.of_none, List.map_cons, List.map_nil, data] at there
    exact absurd there (by decide)
  · rw [notFlight th member] at flight
    exact absurd flight (by decide)

end Schedules

end Pool

end CloudCryptFS.Filesystem
