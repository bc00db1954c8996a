import CloudCryptFS.Filesystem.HashSteps

/-! Whole runs of threads on the index of hashes. -/

namespace CloudCryptFS.Filesystem
open Util Linked

namespace Dedup

section Runs
variable {s t : Dedup} {k : Nat} {owned : List Nat}

/-- Nobody stands at a stage in a state that excludes it. -/
theorem inv_miss_of_ordered (inv : s.Inv) {sum : Sha256} (found : s.threads[k]? = some ⟨owned, some (.lookup sum)⟩)
    (ordered : s.Ordered (.next k)) (absent : s.hashesIndex sum = none) : (s.become k owned (some (.fetch sum))).Inv := by
  have excluded := ordered _ found
  simp only [absent] at excluded
  exact inv_miss inv found absent (standing_eq_zero excluded)

theorem inv_hit_of_ordered (inv : s.Inv) {sum : Sha256} {o : Nat} (found : s.threads[k]? = some ⟨owned, some (.lookup sum)⟩)
    (ordered : s.Ordered (.next k)) (there : s.hashesIndex sum = some o) : (s.become k owned (some (.increment o))).Inv := by
  have excluded := ordered _ found
  simp only [there] at excluded
  exact inv_hit inv found there (standing_eq_zero excluded)

theorem inv_test (inv : s.Inv) {o : Nat} {obj : HashObject} (found : s.threads[k]? = some ⟨owned, some (.test o)⟩) (ordered : s.Ordered (.next k))
    (here : s.objects o = some obj) : (s.become k owned (if obj.refcnt = 0 then some (.setDeleted o) else none)).Inv := by
  by_cases zero : obj.refcnt = 0
  · rw [if_pos zero]
    obtain ⟨alive, excluded⟩ := ordered _ found obj here zero
    refine inv_doomed inv found here zero alive (standing_eq_zero ?_) (standing_eq_zero ?_)
    · rintro th member stage call rfl
      exact (excluded th member).1 call
    · rintro th member stage call rfl
      exact (excluded th member).2 call
  · rw [if_neg zero]
    exact inv_end inv found (fun _ => by simp [HashThread.refs, HashThread.standing]) (fun _ _ => by simp [HashThread.standing])
      (fun _ => by simp [HashThread.standing, HashStage.deleting])

/-- The step of a thread on a hash object. -/
theorem inv_stepHash (inv : s.Inv) {stage : HashStage} {o : Nat} {obj : HashObject} (found : s.threads[k]? = some ⟨owned, some stage⟩)
    (ordered : s.Ordered (.next k)) (object : stage.object = some o) (here : s.objects o = some obj) (next : s.stepHash k owned o obj stage = some t) :
    t.Inv := by
  have ok := inv.stages _ (List.mem_of_getElem? found) stage rfl
  cases stage with
  | lookup sum => cases next
  | fetch sum => cases next
  | put sum i => cases next
  | insert sum o' =>
    cases object
    cases next
    exact inv_insert inv found
  | increment o' =>
    cases object
    cases next
    obtain ⟨obj', here', there⟩ := ok
    obtain rfl : obj = obj' := Option.some.inj (here.symm.trans here')
    exact inv_recount inv found here there (Or.inl ⟨rfl, rfl, rfl⟩)
  | checkRevived o' =>
    cases object
    obtain ⟨obj', here', alive, _⟩ := inv.live_of_refs (o := o) (count_pos_of_found found (by simp [HashThread.refs, HashThread.standing]))
    obtain rfl : obj = obj' := Option.some.inj (here.symm.trans here')
    have kept : ¬(obj.fixed = false ∧ obj.deleted = true) := fun both => absurd (alive.symm.trans both.2) Bool.false_ne_true
    rw [stepHash, if_neg kept] at next
    cases next
    exact inv_checkRevived inv found
  | decrement o' =>
    cases object
    cases next
    obtain ⟨obj', here', there⟩ := ok
    obtain rfl : obj = obj' := Option.some.inj (here.symm.trans here')
    exact inv_recount inv found here there (Or.inr ⟨rfl, rfl, rfl⟩)
  | checkFlags o' =>
    cases object
    cases next
    exact inv_checkFlags inv found here
  | test o' =>
    cases object
    cases next
    exact inv_test inv found ordered here
  | setDeleted o' =>
    cases object
    cases next
    exact inv_setDeleted inv found here
  | verify o' =>
    cases object
    obtain ⟨obj', here', _, there⟩ := ok
    obtain rfl : obj = obj' := Option.some.inj (here.symm.trans here')
    rw [stepHash, if_pos there] at next
    cases next
    exact inv_verified inv found
  | erase o' =>
    cases object
    obtain ⟨obj', here', _, there⟩ := ok
    obtain rfl : obj = obj' := Option.some.inj (here.symm.trans here')
    rw [stepHash, there] at next
    cases next
    exact inv_erase inv found here
  | clear o' =>
    cases object
    cases next
    exact (inv_cleared inv found).other _ s.accounting
  | post o' =>
    cases object
    obtain ⟨a, _, rfl⟩ := Option.map_eq_some_iff.mp next
    exact (inv_posted inv found).other s.slots a

theorem inv_stepCall (inv : s.Inv) {stage : HashStage} (found : s.threads[k]? = some ⟨owned, some stage⟩)
    (ordered : s.Ordered (.next k)) (next : s.stepCall k owned stage = some t) : t.Inv := by
  cases stage with
  | lookup sum =>
    simp only [stepCall] at next
    split at next
    · rename_i o there
      cases next
      exact inv_hit_of_ordered inv found ordered there
    · rename_i absent
      cases next
      exact inv_miss_of_ordered inv found ordered absent
  | fetch sum =>
    obtain ⟨fetched, _, rfl⟩ := Option.map_eq_some_iff.mp next
    exact (inv_fetched inv found).other s.slots fetched.2
  | put sum i =>
    cases next
    exact (inv_put inv found).other _ s.accounting
  | _ =>
    obtain ⟨obj, here, stepped⟩ := Option.bind_eq_some_iff.mp next
    exact inv_stepHash inv found ordered rfl here stepped

theorem inv_step {next : HashStep} (inv : s.Inv) (ordered : s.Ordered next) (stepped : step next s = some t) : t.Inv := by
  cases next with
  | obtain k sum =>
    rw [step, if_neg (by rw [inv.sound]; exact Bool.false_ne_true)] at stepped
    obtain ⟨⟨owned, call⟩, found, rest⟩ := Option.bind_eq_some_iff.mp stepped
    cases call with
    | some stage => cases rest
    | none =>
      cases rest
      exact inv_next inv found (fun _ => by simp [HashThread.refs, HashThread.standing]) (fun _ _ => rfl) (fun _ _ => by simp)
        (fun _ => by simp [HashThread.standing, HashStage.deleting]) (fun _ => by simp) (fun _ => by simp) rfl trivial
  | release k o =>
    rw [step, if_neg (by rw [inv.sound]; exact Bool.false_ne_true)] at stepped
    obtain ⟨⟨owned, call⟩, found, rest⟩ := Option.bind_eq_some_iff.mp stepped
    cases call with
    | some stage =>
      rw [if_neg (fun both => by cases both.1)] at rest
      cases rest
    | none =>
      split at rest
      · rename_i both
        cases rest
        exact inv_release inv found both.2
      · cases rest
  | next k =>
    rw [step, if_neg (by rw [inv.sound]; exact Bool.false_ne_true)] at stepped
    obtain ⟨⟨owned, call⟩, found, rest⟩ := Option.bind_eq_some_iff.mp stepped
    obtain ⟨stage, rfl, called⟩ := Option.bind_eq_some_iff.mp rest
    exact inv_stepCall inv found ordered called

/-- Nobody is in the middle of a call. -/
theorem inv_of_consistent (consistent : s.Consistent) : s.Inv := by
  have nobody : ∀ (p : HashStage → Prop) [DecidablePred p], s.standing p = 0 := by
    intro p _
    apply standing_eq_zero
    intro th member stage call
    rw [consistent.idle th member] at call
    cases call
  have refs : ∀ o, s.count (HashThread.refs o) = (s.threads.map (fun th => th.owned.count o)).sum := by
    intro o
    unfold count
    congr 1
    apply List.map_congr_left
    intro th member
    simp only [HashThread.refs, HashThread.standing, consistent.idle th member, Nat.add_zero]
  refine ⟨consistent.sound, consistent.created, consistent.index, fun o obj here _ => Or.inl (consistent.live o obj here).2,
    fun o obj here gone _ => ?_, fun o obj here loose => ?_, fun o positive => ?_, fun o obj here doomed => ?_, fun th member stage call => ?_,
    fun o => (nobody _).trans_le (Nat.zero_le 1), fun sum => (nobody _).trans_le (Nat.zero_le 1)⟩
  · rw [(consistent.live o obj here).1] at gone
    cases gone
  · rw [refs]
    exact consistent.counts o obj here loose
  · rw [refs] at positive
    obtain ⟨th, member, some⟩ := exists_of_sum_pos positive
    obtain ⟨obj, here⟩ := Option.ne_none_iff_exists'.mp (consistent.owned th member o (List.count_pos_iff.mp some))
    exact ⟨obj, here, (consistent.live o obj here).2⟩
  · rcases doomed with gone | positive
    · rw [(consistent.live o obj here).1] at gone
      cases gone
    · rw [nobody] at positive
      cases positive
  · rw [consistent.idle th member] at call
    cases call

/-- The sum of an insertion tells the hash. -/
theorem inserting_unique (inv : s.Inv) {sum : Sha256} {o o' : Nat} (first : 0 < s.standing (· = .insert sum o))
    (second : 0 < s.standing (· = .insert sum o')) : o = o' := by
  obtain ⟨⟨owned, call⟩, member, stage, here, same⟩ := exists_of_standing_pos first
  obtain ⟨th, member', stage', there, same'⟩ := exists_of_standing_pos second
  obtain ⟨j, found⟩ := List.mem_iff_getElem?.mp member
  obtain ⟨j', found'⟩ := List.mem_iff_getElem?.mp member'
  subst same same'
  obtain rfl : call = some (.insert sum o) := here
  by_cases one : j' = j
  · subst one
    obtain rfl := Option.some.inj (found.symm.trans found')
    injection there with there
    injection there
  · have two := two_le_standing (p := (·.missing = some sum)) found found' one there rfl rfl
    exact absurd (two.trans (inv.missingOnce sum)) (by omega)

theorem oneLive_of_inv (inv : s.Inv) : s.OneLive := by
  refine ⟨inv.sound, fun o o' obj obj' here here' alive alive' same => ?_, fun th member o mine => ?_⟩
  · rcases inv.live o obj here alive with there | inserting <;> rcases inv.live o' obj' here' alive' with there' | inserting'
    · rw [← same, there] at there'
      exact Option.some.inj there'
    · obtain ⟨th, member, stage, call, rfl⟩ := exists_of_standing_pos inserting'
      have absent := (inv.stages th member _ call).1
      rw [← same, there] at absent
      cases absent
    · obtain ⟨th, member, stage, call, rfl⟩ := exists_of_standing_pos inserting
      have absent := (inv.stages th member _ call).1
      rw [same, there'] at absent
      cases absent
    · exact inserting_unique inv inserting (same ▸ inserting')
  · obtain ⟨j, found⟩ := List.mem_iff_getElem?.mp member
    obtain ⟨obj, here, alive, _⟩ := inv.live_of_refs (count_pos_of_found found (Nat.add_pos_left (List.count_pos_iff.mpr mine) _))
    exact ⟨obj, here, alive⟩

/-- As long as no call finds or misses a hash that another is about to delete or to insert,
and none deletes a hash that another has found. -/
theorem oneLive_ordered {steps : List HashStep} (consistent : s.Consistent) (ordered : OrderedRun steps s) (ran : run steps s = some t) : t.OneLive :=
  oneLive_of_inv (Schedule.invariant_run inv_step (inv_of_consistent consistent) ordered ran)

end Runs

section Schedules

def zeroSum : Sha256 := ⟨List.replicate 32 0, rfl⟩
def newSum : Sha256 := ⟨List.replicate 32 1, rfl⟩

/-- Two threads, and no hash but the one of the zero chunk. -/
def zeroHashOnly : Dedup where
  objects := Function.update (fun _ => none) 0 (some ⟨zeroSum, 256, 1, false, true⟩)
  created := 1
  hashesIndex := Function.update (fun _ => none) zeroSum (some 0)
  slots := Function.update (fun _ => none) 256 (some 0)
  accounting := ⟨2, {1}, [⟨0, 257⟩, ⟨1, 258⟩], []⟩
  threads := [⟨[], none⟩, ⟨[], none⟩]
  failed := false

theorem objects_zeroHashOnly {o : Nat} {obj : HashObject} (here : zeroHashOnly.objects o = some obj) : o = 0 ∧ obj = ⟨zeroSum, 256, 1, false, true⟩ := by
  by_cases same : o = 0
  · subst same
    exact ⟨rfl, (Option.some.inj here).symm⟩
  · simp only [zeroHashOnly] at here
    rw [Function.update_of_ne same] at here
    cases here

theorem consistent_zeroHashOnly : zeroHashOnly.Consistent where
  idle th member := by
    simp only [zeroHashOnly, List.mem_cons, List.not_mem_nil, or_false, or_self] at member
    rw [member]
  sound := rfl
  created o known := by
    obtain ⟨obj, here⟩ := Option.ne_none_iff_exists'.mp known
    rw [(objects_zeroHashOnly here).1]
    exact Nat.one_pos
  index sum o there := by
    simp only [zeroHashOnly] at there
    by_cases same : sum = zeroSum
    · subst same
      rw [Function.update_self] at there
      cases there
      exact ⟨_, rfl, rfl⟩
    · rw [Function.update_of_ne same] at there
      cases there
  live o obj here := by
    obtain ⟨rfl, rfl⟩ := objects_zeroHashOnly here
    exact ⟨rfl, by decide⟩
  counts o obj here loose := by
    rw [(objects_zeroHashOnly here).2] at loose
    cases loose
  owned th member o mine := by
    simp only [zeroHashOnly, List.mem_cons, List.not_mem_nil, or_false, or_self] at member
    rw [member] at mine
    cases mine

/-- What is checked of a step before which no reference has been given back. -/
def check (s : Dedup) : HashStep → Bool
  | .next k =>
    match s.threads[k]? with
    | some ⟨_, some (.lookup sum)⟩ =>
      match s.hashesIndex sum with
      | none => s.threads.all (fun th => th.call.all (fun stage => decide (stage.missing ≠ some sum)))
      | some o => s.threads.all (fun th => th.call.all (fun stage => decide (stage.deleting ≠ some o)))
    | some ⟨_, some (.test _)⟩ => false
    | _ => true
  | _ => true

theorem ordered_of_check (s : Dedup) (next : HashStep) (checked : s.check next = true) : s.Ordered next := by
  cases next with
  | next k =>
    intro th found
    obtain ⟨owned, call⟩ := th
    rw [check, found] at checked
    cases call with
    | none => trivial
    | some stage =>
      cases stage with
      | lookup sum =>
        dsimp only at checked ⊢
        cases known : s.hashesIndex sum with
        | none =>
          rw [known] at checked
          intro th member stage same
          have each := List.all_eq_true.mp checked th member
          rw [same] at each
          exact of_decide_eq_true each
        | some o =>
          rw [known] at checked
          intro th member stage same
          have each := List.all_eq_true.mp checked th member
          rw [same] at each
          exact of_decide_eq_true each
      | test o => cases checked
      | _ => trivial
  | _ => trivial

def otherSum : Sha256 := ⟨List.replicate 32 2, rfl⟩

/-- Two threads obtain hashes of different sums at the same time, and one of them then obtains
the hash of the other one. -/
def twoSums : List HashStep :=
  .obtain 0 newSum :: .obtain 1 otherSum :: (List.replicate 6 [.next 0, .next 1]).flatten ++ .obtain 1 newSum :: List.replicate 3 (.next 1)

theorem oneLive_ordered_twoSums : ∃ s, run twoSums zeroHashOnly = some s ∧ s.threads.map HashThread.owned = [[1], [1, 2]] ∧ s.OneLive := by
  have checked : Schedule.OrderedRun step (fun s next => s.check next = true) twoSums zeroHashOnly := by decide +kernel
  have outcome : (run twoSums zeroHashOnly).map (fun s => s.threads.map HashThread.owned) = some [[1], [1, 2]] := by decide +kernel
  obtain ⟨s, ran, owned⟩ := Option.map_eq_some_iff.mp outcome
  exact ⟨s, ran, owned, oneLive_ordered consistent_zeroHashOnly (Schedule.orderedRun_mono ordered_of_check checked) ran⟩

/-- Both threads look the same sum up before either of them inserts it. -/
def twoObtain : List HashStep :=
  .obtain 0 newSum :: .obtain 1 newSum :: .next 0 :: .next 1 :: List.replicate 5 (.next 0) ++ List.replicate 5 (.next 1)

/-- There are two live hashes with one sum, and when the first of them is released it is not
the one in the index. -/
theorem sum_twice : ∃ s, run twoObtain zeroHashOnly = some s ∧ ¬s.OneLive ∧
    ∃ t, run (.release 0 1 :: List.replicate 5 (.next 0)) s = some t ∧ t.failed = true := by
  refine ⟨_, rfl, fun live => ?_, _, rfl, rfl⟩
  have same := live.unique 1 2 ⟨newSum, 257, 1, false, false⟩ ⟨newSum, 258, 1, false, false⟩ rfl rfl rfl rfl rfl
  cases same

end Schedules

end Dedup

end CloudCryptFS.Filesystem
