import CloudCryptFS.Filesystem.HashThreads

/-! What each step of a thread keeps. Where a step changes an object or the index, the stages
of the other threads are looked at one by one. -/

namespace CloudCryptFS.Filesystem
open Util Linked

namespace Dedup

section Steps
variable {s t : Dedup} {k : Nat} {owned owned' : List Nat} {call call' : Option HashStage}

theorem StageOk.congr {stage : HashStage} (objects : t.objects = s.objects) (index : t.hashesIndex = s.hashesIndex) (ok : s.StageOk stage) :
    t.StageOk stage := by
  cases stage <;> simp only [StageOk, objects, index] at ok ⊢ <;> exact ok

/-- A step that leaves the objects and the index alone, and the insertions too. -/
theorem Inv.stay (inv : s.Inv) (found : s.threads[k]? = some ⟨owned, call⟩) (threads : t.threads = s.threads.set k ⟨owned', call'⟩)
    (objects : t.objects = s.objects) (created : t.created = s.created) (index : t.hashesIndex = s.hashesIndex) (sound : t.failed = s.failed)
    (refs : ∀ o, HashThread.refs o ⟨owned', call'⟩ = HashThread.refs o ⟨owned, call⟩)
    (inserting : ∀ sum o, HashThread.standing (· = .insert sum o) ⟨owned', call'⟩ = HashThread.standing (· = .insert sum o) ⟨owned, call⟩)
    (deleting : ∀ o, HashThread.standing (·.deleting = some o) ⟨owned, call⟩ ≤ HashThread.standing (·.deleting = some o) ⟨owned', call'⟩)
    (stage : ∀ stage, call' = some stage → s.StageOk stage)
    (dead : ∀ o obj, s.objects o = some obj → obj.deleted = true ∨ 0 < t.standing (· = .setDeleted o) →
      s.count (HashThread.refs o) = 0 ∧ t.standing (· = .increment o) = 0)
    (deletingOnce : ∀ o, t.standing (·.deleting = some o) ≤ 1) (missingOnce : ∀ sum, t.standing (·.missing = some sum) ≤ 1) : t.Inv := by
  have sameRefs : ∀ o, t.count (HashThread.refs o) = s.count (HashThread.refs o) := by
    intro o
    have moved := count_become found threads (HashThread.refs o)
    have same := refs o
    omega
  refine ⟨sound.trans inv.sound, ?_, ?_, fun o obj here alive => ?_, fun o obj here gone there => ?_, fun o obj here loose => ?_,
    fun o positive => ?_, fun o obj here which => ?_, fun th member stage' there => ?_, deletingOnce, missingOnce⟩
  · rw [objects, created]
    exact inv.created
  · rw [objects, index]
    exact inv.index
  · rw [objects] at here
    rw [index]
    have moved := count_become found threads (HashThread.standing (· = .insert obj.sum o))
    have same := inserting obj.sum o
    refine (inv.live o obj here alive).imp_right (fun positive => ?_)
    change 0 < s.count _ at positive
    change 0 < t.count _
    omega
  · rw [objects] at here
    rw [index] at there
    have positive : 0 < s.count _ := inv.leaving o obj here gone there
    have moved := count_become found threads (HashThread.standing (·.deleting = some o))
    have more := deleting o
    change 0 < t.count _
    omega
  · rw [objects] at here
    rw [sameRefs]
    exact inv.counts o obj here loose
  · rw [sameRefs] at positive
    rw [objects, index]
    exact inv.owned o positive
  · rw [objects] at here
    rw [sameRefs]
    exact dead o obj here which
  · rcases mem_become found threads member with rfl | ⟨j, _, old⟩
    · exact (stage stage' there).congr objects index
    · exact (inv.stages th (List.mem_of_getElem? old) stage' there).congr objects index

/-- The same for a step that neither looks anything up nor decides to delete. -/
theorem Inv.goOn (inv : s.Inv) (found : s.threads[k]? = some ⟨owned, call⟩) (threads : t.threads = s.threads.set k ⟨owned', call'⟩)
    (objects : t.objects = s.objects) (created : t.created = s.created) (index : t.hashesIndex = s.hashesIndex) (sound : t.failed = s.failed)
    (refs : ∀ o, HashThread.refs o ⟨owned', call'⟩ = HashThread.refs o ⟨owned, call⟩)
    (inserting : ∀ sum o, HashThread.standing (· = .insert sum o) ⟨owned', call'⟩ = HashThread.standing (· = .insert sum o) ⟨owned, call⟩)
    (deleting : ∀ o, HashThread.standing (·.deleting = some o) ⟨owned', call'⟩ = HashThread.standing (·.deleting = some o) ⟨owned, call⟩)
    (dooming : ∀ o, HashThread.standing (· = .setDeleted o) ⟨owned', call'⟩ = 0)
    (incrementing : ∀ o, HashThread.standing (· = .increment o) ⟨owned', call'⟩ = 0)
    (missingOnce : ∀ sum, t.standing (·.missing = some sum) ≤ 1) (stage : ∀ stage, call' = some stage → s.StageOk stage) : t.Inv := by
  refine inv.stay found threads objects created index sound refs inserting (fun o => (deleting o).ge) stage (fun o obj here which => ?_)
    (fun o => ?_) missingOnce
  · have moved := count_become found threads (HashThread.standing (· = .setDeleted o))
    have moved' := count_become found threads (HashThread.standing (· = .increment o))
    have zero := dooming o
    have zero' := incrementing o
    have before := inv.dead o obj here (which.imp_right (fun positive => by
      change 0 < t.count _ at positive
      change 0 < s.count _
      omega))
    have none : s.count _ = 0 := before.2
    refine ⟨before.1, ?_⟩
    change t.count _ = 0
    omega
  · have moved := count_become found threads (HashThread.standing (·.deleting = some o))
    have same := deleting o
    have before : s.count _ ≤ 1 := inv.deletingOnce o
    change t.count _ ≤ 1
    omega

theorem Inv.missingOnce_of_le (inv : s.Inv) (found : s.threads[k]? = some ⟨owned, call⟩) (threads : t.threads = s.threads.set k ⟨owned', call'⟩)
    (sum : Sha256)
    (fewer : HashThread.standing (·.missing = some sum) ⟨owned', call'⟩ ≤ HashThread.standing (·.missing = some sum) ⟨owned, call⟩) :
    t.standing (·.missing = some sum) ≤ 1 := by
  have moved := count_become found threads (HashThread.standing (·.missing = some sum))
  have before : s.count _ ≤ 1 := inv.missingOnce sum
  change t.count _ ≤ 1
  omega

/-- The object of an index entry is live while nobody deletes it. -/
theorem Inv.live_of_index (inv : s.Inv) {sum : Sha256} {o : Nat} (there : s.hashesIndex sum = some o)
    (kept : s.standing (·.deleting = some o) = 0) : ∃ obj, s.objects o = some obj ∧ obj.sum = sum ∧ obj.deleted = false := by
  obtain ⟨obj, here, same⟩ := inv.index sum o there
  refine ⟨obj, here, same, ?_⟩
  by_contra gone
  have positive := inv.leaving o obj here (by simpa using gone) (same ▸ there)
  omega

theorem standing_setDeleted_le (o : Nat) : s.standing (· = .setDeleted o) ≤ s.standing (·.deleting = some o) := by
  apply List.sum_le_sum
  intro th _
  unfold HashThread.standing
  split
  · rename_i stage call
    by_cases here : stage = .setDeleted o
    · rw [here]
      simp [HashStage.deleting]
    · rw [if_neg here]
      exact Nat.zero_le _
  · exact le_rfl

theorem inv_hit (inv : s.Inv) {sum : Sha256} {o : Nat} (found : s.threads[k]? = some ⟨owned, some (.lookup sum)⟩)
    (there : s.hashesIndex sum = some o) (kept : s.standing (·.deleting = some o) = 0) : (s.become k owned (some (.increment o))).Inv := by
  obtain ⟨obj, here, same, alive⟩ := inv.live_of_index there kept
  have threads : (s.become k owned (some (.increment o))).threads = s.threads.set k ⟨owned, some (.increment o)⟩ := rfl
  refine inv.stay found threads rfl rfl rfl rfl (fun _ => by simp [HashThread.refs, HashThread.standing]) (fun _ _ => by simp [HashThread.standing])
    (fun _ => by simp [HashThread.standing, HashStage.deleting]) (fun stage next => ?_) (fun o' obj' here' which => ?_) (fun o' => ?_)
    (fun sum' => inv.missingOnce_of_le found threads sum' (by simp [HashThread.standing, HashStage.missing]))
  · cases next
    exact ⟨obj, here, same ▸ there⟩
  · have doomed := count_become found threads (HashThread.standing (· = .setDeleted o'))
    have moved := count_become found threads (HashThread.standing (· = .increment o'))
    simp only [HashThread.standing, reduceCtorEq, if_false, Nat.add_zero] at doomed moved
    have before := inv.dead o' obj' here' (which.imp_right (fun positive => lt_of_lt_of_eq positive doomed))
    have different : o ≠ o' := by
      rintro rfl
      rw [here] at here'
      cases here'
      rcases which with gone | positive
      · rw [alive] at gone
        cases gone
      · have fewer := standing_setDeleted_le (s := s) o
        have positive' := lt_of_lt_of_eq positive doomed
        exact absurd (positive'.trans_le fewer) (by omega)
    refine ⟨before.1, ?_⟩
    rw [if_neg (by simpa using different), Nat.add_zero] at moved
    exact moved.trans before.2
  · have moved := count_become found threads (HashThread.standing (·.deleting = some o'))
    simp only [HashThread.standing, HashStage.deleting, reduceCtorEq, if_false, Nat.add_zero] at moved
    exact moved.trans_le (inv.deletingOnce o')

theorem inv_miss (inv : s.Inv) {sum : Sha256} (found : s.threads[k]? = some ⟨owned, some (.lookup sum)⟩) (absent : s.hashesIndex sum = none)
    (nobody : s.standing (·.missing = some sum) = 0) : (s.become k owned (some (.fetch sum))).Inv := by
  have threads : (s.become k owned (some (.fetch sum))).threads = s.threads.set k ⟨owned, some (.fetch sum)⟩ := rfl
  refine inv.goOn found threads rfl rfl rfl rfl (fun _ => by simp [HashThread.refs, HashThread.standing]) (fun _ _ => by simp [HashThread.standing])
    (fun _ => by simp [HashThread.standing, HashStage.deleting]) (fun _ => by simp [HashThread.standing]) (fun _ => by simp [HashThread.standing])
    (fun sum' => ?_) (fun stage next => ?_)
  · have moved := count_become found threads (HashThread.standing (·.missing = some sum'))
    have before : HashThread.standing (·.missing = some sum') ⟨owned, some (.lookup sum)⟩ = 0 := rfl
    have after : HashThread.standing (·.missing = some sum') ⟨owned, some (.fetch sum)⟩ = if sum = sum' then 1 else 0 := by
      simp [HashThread.standing, HashStage.missing]
    rw [before, after] at moved
    by_cases same : sum = sum'
    · subst same
      rw [if_pos rfl] at moved
      exact moved.le.trans (Nat.add_le_add_right nobody.le 1)
    · rw [if_neg same] at moved
      exact moved.trans_le (inv.missingOnce sum')
  · cases next
    exact absent

theorem inv_fetched (inv : s.Inv) {sum : Sha256} {i : BucketIndex} (found : s.threads[k]? = some ⟨owned, some (.fetch sum)⟩) :
    (s.become k owned (some (.put sum i))).Inv := by
  refine inv.goOn found rfl rfl rfl rfl rfl (fun _ => by simp [HashThread.refs, HashThread.standing]) (fun _ _ => by simp [HashThread.standing])
    (fun _ => by simp [HashThread.standing, HashStage.deleting]) (fun _ => by simp [HashThread.standing]) (fun _ => by simp [HashThread.standing])
    (fun sum' => inv.missingOnce_of_le found rfl sum' (by simp [HashThread.standing, HashStage.missing])) (fun stage next => ?_)
  cases next
  exact inv.stages _ (List.mem_of_getElem? found) (.fetch sum) rfl

/-- A call goes on with what it knows. -/
theorem inv_next (inv : s.Inv) {stage : HashStage} (found : s.threads[k]? = some ⟨owned, call⟩) (refs : ∀ o, HashThread.refs o ⟨owned', some stage⟩ =
    HashThread.refs o ⟨owned, call⟩)
    (inserting : ∀ sum o, HashThread.standing (· = .insert sum o) ⟨owned, call⟩ = 0) (inserting' : ∀ sum o, stage ≠ .insert sum o)
    (deleting : ∀ o, HashThread.standing (·.deleting = some o) ⟨owned', some stage⟩ = HashThread.standing (·.deleting = some o) ⟨owned, call⟩)
    (dooming : ∀ o, stage ≠ .setDeleted o) (incrementing : ∀ o, stage ≠ .increment o) (missing : stage.missing = none) (ok : s.StageOk stage) :
    (s.become k owned' (some stage)).Inv := by
  refine inv.goOn found rfl rfl rfl rfl rfl refs (fun sum o => ?_) deleting (fun o => if_neg (dooming o)) (fun o => if_neg (incrementing o))
    (fun sum => inv.missingOnce_of_le found rfl sum ?_) (fun stage' next => ?_)
  · rw [inserting sum o]
    exact if_neg (inserting' sum o)
  · have none : HashThread.standing (·.missing = some sum) ⟨owned', some stage⟩ = 0 := if_neg (fun same => by simp [missing] at same)
    rw [none]
    exact Nat.zero_le _
  · cases next
    exact ok

/-- A call ends. -/
theorem inv_end (inv : s.Inv) (found : s.threads[k]? = some ⟨owned, call⟩) (refs : ∀ o, HashThread.refs o ⟨owned', none⟩ = HashThread.refs o ⟨owned, call⟩)
    (inserting : ∀ sum o, HashThread.standing (· = .insert sum o) ⟨owned, call⟩ = 0)
    (deleting : ∀ o, HashThread.standing (·.deleting = some o) ⟨owned, call⟩ = 0) : (s.become k owned' none).Inv := by
  refine inv.goOn found rfl rfl rfl rfl rfl refs (fun sum o => (inserting sum o).symm) (fun o => (deleting o).symm) (fun _ => rfl) (fun _ => rfl)
    (fun sum => inv.missingOnce_of_le found rfl sum (Nat.zero_le _)) (fun stage next => (by cases next))

/-- The hash of a reference is live. -/
theorem Inv.live_of_refs (inv : s.Inv) {o : Nat} (positive : 0 < s.count (HashThread.refs o)) :
    ∃ obj, s.objects o = some obj ∧ obj.deleted = false ∧ s.hashesIndex obj.sum = some o := by
  obtain ⟨obj, here, there⟩ := inv.owned o positive
  refine ⟨obj, here, ?_, there⟩
  by_contra gone
  have none := (inv.dead o obj here (Or.inl (by simpa using gone))).1
  omega

theorem inv_release (inv : s.Inv) {o : Nat} (found : s.threads[k]? = some ⟨owned, none⟩) (mine : o ∈ owned) :
    (s.become k (owned.erase o) (some (.decrement o))).Inv := by
  have positive : 0 < s.count (HashThread.refs o) :=
    count_pos_of_found found (Nat.add_pos_left (List.count_pos_iff.mpr mine) _)
  obtain ⟨obj, here, _, there⟩ := inv.live_of_refs positive
  refine inv_next inv found (fun o' => ?_) (fun _ _ => rfl) (fun _ _ => by simp) (fun _ => by simp [HashThread.standing, HashStage.deleting])
    (fun _ => by simp) (fun _ => by simp) rfl ⟨obj, here, there⟩
  have moved := (List.perm_cons_erase mine).count_eq o'
  simp only [List.count_cons, beq_iff_eq] at moved
  simp only [HashThread.refs, HashThread.standing, reduceCtorEq, false_or, HashStage.decrement.injEq]
  omega

theorem inv_checkRevived (inv : s.Inv) {o : Nat} (found : s.threads[k]? = some ⟨owned, some (.checkRevived o)⟩) : (s.become k (o :: owned) none).Inv := by
  refine inv_end inv found (fun o' => ?_) (fun _ _ => by simp [HashThread.standing]) (fun _ => by simp [HashThread.standing, HashStage.deleting])
  simp only [HashThread.refs, HashThread.standing, reduceCtorEq, or_false, HashStage.checkRevived.injEq, List.count_cons, beq_iff_eq, Nat.add_zero]

theorem inv_checkFlags (inv : s.Inv) {o : Nat} {obj : HashObject} (found : s.threads[k]? = some ⟨owned, some (.checkFlags o)⟩)
    (here : s.objects o = some obj) : (s.become k owned (if obj.fixed ∨ obj.deleted then none else some (.test o))).Inv := by
  obtain ⟨obj', here', which⟩ : s.StageOk (.checkFlags o) := inv.stages _ (List.mem_of_getElem? found) _ rfl
  obtain rfl : obj = obj' := Option.some.inj (here.symm.trans here')
  split
  · exact inv_end inv found (fun _ => by simp [HashThread.refs, HashThread.standing]) (fun _ _ => by simp [HashThread.standing])
      (fun _ => by simp [HashThread.standing, HashStage.deleting])
  · rename_i flags
    have loose : obj.fixed = false := by
      by_contra some
      exact flags (Or.inl (by simpa using some))
    exact inv_next inv found (fun _ => by simp [HashThread.refs, HashThread.standing]) (fun _ _ => by simp [HashThread.standing]) (fun _ _ => by simp)
      (fun _ => by simp [HashThread.standing, HashStage.deleting]) (fun _ => by simp) (fun _ => by simp) rfl ⟨obj, here, loose, which⟩

/-- Nobody else holds on to a hash whose last reference is gone. -/
theorem inv_doomed (inv : s.Inv) {o : Nat} {obj : HashObject} (found : s.threads[k]? = some ⟨owned, some (.test o)⟩) (here : s.objects o = some obj)
    (zero : obj.refcnt = 0) (alive : obj.deleted = false) (nobody : s.standing (· = .setDeleted o) = 0)
    (none : s.standing (· = .increment o) = 0) : (s.become k owned (some (.setDeleted o))).Inv := by
  have ok : s.StageOk (.test o) := inv.stages _ (List.mem_of_getElem? found) _ rfl
  obtain ⟨obj', here', loose, which⟩ := ok
  obtain rfl : obj = obj' := Option.some.inj (here.symm.trans here')
  have there : s.hashesIndex obj.sum = some o := which.resolve_left (by rw [alive]; exact Bool.false_ne_true)
  have threads : (s.become k owned (some (.setDeleted o))).threads = s.threads.set k ⟨owned, some (.setDeleted o)⟩ := rfl
  -- who deletes the hash has either the flag still to set or has set it
  have deleting : s.standing (·.deleting = some o) = 0 := by
    apply standing_eq_zero
    intro th member stage call doing
    have ok := inv.stages th member stage call
    cases stage with
    | setDeleted o' =>
      cases doing
      exact absurd (standing_pos (p := (· = .setDeleted o)) member call rfl) (by omega)
    | verify o' =>
      cases doing
      obtain ⟨obj', here', gone, _⟩ := ok
      rw [here] at here'
      cases here'
      rw [alive] at gone
      cases gone
    | erase o' =>
      cases doing
      obtain ⟨obj', here', gone, _⟩ := ok
      rw [here] at here'
      cases here'
      rw [alive] at gone
      cases gone
    | _ => cases doing
  refine inv.stay found threads rfl rfl rfl rfl (fun _ => by simp [HashThread.refs, HashThread.standing]) (fun _ _ => by simp [HashThread.standing])
    (fun _ => by simp [HashThread.standing, HashStage.deleting]) (fun stage next => ?_) (fun o' obj' here' which => ?_) (fun o' => ?_)
    (fun sum => inv.missingOnce_of_le found threads sum (by simp [HashThread.standing, HashStage.missing]))
  · cases next
    exact ⟨obj, here, alive, there⟩
  · have doomed := count_become found threads (HashThread.standing (· = .setDeleted o'))
    have moved := count_become found threads (HashThread.standing (· = .increment o'))
    simp only [HashThread.standing, reduceCtorEq, if_false, Nat.add_zero, HashStage.setDeleted.injEq] at doomed moved
    by_cases same : o = o'
    · subst same
      rw [here] at here'
      cases here'
      have count := inv.counts o obj here loose
      refine ⟨by omega, moved.trans none⟩
    · rw [if_neg same, Nat.add_zero] at doomed
      have before := inv.dead o' obj' here' (which.imp_right (fun positive => lt_of_lt_of_eq positive doomed))
      exact ⟨before.1, moved.trans before.2⟩
  · have moved := count_become found threads (HashThread.standing (·.deleting = some o'))
    have before : HashThread.standing (·.deleting = some o') ⟨owned, some (.test o)⟩ = 0 := rfl
    have after : HashThread.standing (·.deleting = some o') ⟨owned, some (.setDeleted o)⟩ = if o = o' then 1 else 0 := by
      simp [HashThread.standing, HashStage.deleting]
    rw [before, after] at moved
    by_cases same : o = o'
    · subst same
      rw [if_pos rfl] at moved
      exact moved.le.trans (Nat.add_le_add_right deleting.le 1)
    · rw [if_neg same] at moved
      exact moved.trans_le (inv.deletingOnce o')

theorem inv_verified (inv : s.Inv) {o : Nat} (found : s.threads[k]? = some ⟨owned, some (.verify o)⟩) : (s.become k owned (some (.erase o))).Inv := by
  have ok : s.StageOk (.verify o) := inv.stages _ (List.mem_of_getElem? found) _ rfl
  exact inv_next inv found (fun _ => by simp [HashThread.refs, HashThread.standing]) (fun _ _ => by simp [HashThread.standing]) (fun _ _ => by simp)
    (fun _ => by simp [HashThread.standing, HashStage.deleting]) (fun _ => by simp) (fun _ => by simp) rfl ok

/-- The slots and the accounting are nobody's concern here. -/
theorem Inv.other (inv : s.Inv) (slots : BucketIndex → Option Nat) (a : Accounting) : ({ s with slots := slots, accounting := a } : Dedup).Inv :=
  ⟨inv.sound, inv.created, inv.index, inv.live, inv.leaving, inv.counts, inv.owned, inv.dead,
    fun th member stage call => (inv.stages th member stage call).congr rfl rfl, inv.deletingOnce, inv.missingOnce⟩

theorem inv_cleared (inv : s.Inv) {o : Nat} (found : s.threads[k]? = some ⟨owned, some (.clear o)⟩) : (s.become k owned (some (.post o))).Inv := by
  have ok : s.StageOk (.clear o) := inv.stages _ (List.mem_of_getElem? found) _ rfl
  exact inv_next inv found (fun _ => by simp [HashThread.refs, HashThread.standing]) (fun _ _ => by simp [HashThread.standing]) (fun _ _ => by simp)
    (fun _ => by simp [HashThread.standing, HashStage.deleting]) (fun _ => by simp) (fun _ => by simp) rfl ok

theorem inv_posted (inv : s.Inv) {o : Nat} (found : s.threads[k]? = some ⟨owned, some (.post o)⟩) : (s.become k owned none).Inv :=
  inv_end inv found (fun _ => by simp [HashThread.refs, HashThread.standing]) (fun _ _ => by simp [HashThread.standing])
    (fun _ => by simp [HashThread.standing, HashStage.deleting])

/-- A new hash object that nobody knows yet. -/
theorem inv_put (inv : s.Inv) {sum : Sha256} {i : BucketIndex} (found : s.threads[k]? = some ⟨owned, some (.put sum i)⟩) :
    ({ (s.update s.created ⟨sum, i, 0, false, false⟩).become k owned (some (.insert sum s.created)) with created := s.created + 1 } : Dedup).Inv := by
  have absent : s.hashesIndex sum = none := inv.stages _ (List.mem_of_getElem? found) (.put sum i) rfl
  have unknown : s.objects s.created = none := by
    by_contra known
    exact absurd (inv.created s.created known) (Nat.lt_irrefl _)
  let t : Dedup := { (s.update s.created ⟨sum, i, 0, false, false⟩).become k owned (some (.insert sum s.created)) with created := s.created + 1 }
  have threads : t.threads = s.threads.set k ⟨owned, some (.insert sum s.created)⟩ := rfl
  have old : ∀ {o obj}, s.objects o = some obj → t.objects o = some obj := by
    intro o obj here
    have different : o ≠ s.created := by
      rintro rfl
      rw [unknown] at here
      cases here
    exact (Function.update_of_ne different _ _).trans here
  have which : ∀ {o obj}, t.objects o = some obj → (o = s.created ∧ obj = ⟨sum, i, 0, false, false⟩) ∨ s.objects o = some obj := by
    intro o obj here
    by_cases same : o = s.created
    · subst same
      exact Or.inl ⟨rfl, (Option.some.inj ((Function.update_self s.created _ s.objects).symm.trans here)).symm⟩
    · exact Or.inr ((Function.update_of_ne same _ _).symm.trans here)
  have refs : ∀ o, t.count (HashThread.refs o) = s.count (HashThread.refs o) := by
    intro o
    have moved := count_become found threads (HashThread.refs o)
    simp only [HashThread.refs, HashThread.standing, reduceCtorEq, or_false, if_false, Nat.add_zero] at moved ⊢
    omega
  have sameStage : ∀ (p : HashStage → Prop) [DecidablePred p], ¬p (.put sum i) → ¬p (.insert sum s.created) → t.standing p = s.standing p := by
    intro p _ before after
    refine standing_eq found threads p before (fun stage next => ?_)
    cases next
    exact after
  refine ⟨inv.sound, fun o known => ?_, fun sum' o there => ?_, fun o obj here alive => ?_, fun o obj here gone there => ?_,
    fun o obj here loose => ?_, fun o positive => ?_, fun o obj here doomed => ?_, fun th member stage call => ?_, fun o => ?_, fun sum' => ?_⟩
  · by_cases same : o = s.created
    · exact same ▸ Nat.lt_succ_self s.created
    · exact (inv.created o (fun none => known ((Function.update_of_ne same _ _).trans none))).trans (Nat.lt_succ_self s.created)
  · obtain ⟨obj, here, same⟩ := inv.index sum' o there
    exact ⟨obj, old here, same⟩
  · rcases which here with ⟨rfl, rfl⟩ | before
    · have there : t.threads[k]? = some ⟨owned, some (.insert sum s.created)⟩ :=
        List.getElem?_set_self (List.getElem?_eq_some_iff.mp found).1
      exact Or.inr (count_pos_of_found there (Nat.lt_of_lt_of_eq Nat.one_pos (if_pos rfl).symm))
    · refine (inv.live o obj before alive).imp_right (fun positive => ?_)
      have different : o ≠ s.created := by
        rintro rfl
        rw [unknown] at before
        cases before
      rw [sameStage (· = .insert obj.sum o) (by simp) (by simp [different.symm])]
      exact positive
  · rcases which here with ⟨rfl, rfl⟩ | before
    · cases gone
    · rw [sameStage (·.deleting = some o) (by simp [HashStage.deleting]) (by simp [HashStage.deleting])]
      exact inv.leaving o obj before gone there
  · change obj.refcnt = (t.count (HashThread.refs o) : Int)
    rw [refs]
    rcases which here with ⟨rfl, rfl⟩ | before
    · have zero : s.count (HashThread.refs s.created) = 0 := by
        by_contra some
        obtain ⟨obj, here, _⟩ := inv.owned s.created (Nat.pos_of_ne_zero some)
        rw [unknown] at here
        cases here
      rw [zero]
      rfl
    · exact inv.counts o obj before loose
  · change 0 < t.count (HashThread.refs o) at positive
    rw [refs] at positive
    obtain ⟨obj, here, there⟩ := inv.owned o positive
    exact ⟨obj, old here, there⟩
  · change t.count (HashThread.refs o) = 0 ∧ t.standing (· = .increment o) = 0
    change _ ∨ 0 < t.standing (· = .setDeleted o) at doomed
    rw [refs, sameStage (· = .increment o) (by simp) (by simp)]
    rw [sameStage (· = .setDeleted o) (by simp) (by simp)] at doomed
    rcases which here with ⟨rfl, rfl⟩ | before
    · rcases doomed with gone | positive
      · cases gone
      · obtain ⟨th, member, stage, call, same⟩ := exists_of_standing_pos positive
        obtain ⟨obj, here, _⟩ : s.StageOk (.setDeleted s.created) := same ▸ inv.stages th member stage call
        rw [unknown] at here
        cases here
    · exact inv.dead o obj before doomed
  · rcases mem_become found threads member with rfl | ⟨j, _, there⟩
    · cases call
      exact ⟨absent, _, Function.update_self s.created _ s.objects, rfl, rfl⟩
    · have ok := inv.stages th (List.mem_of_getElem? there) stage call
      cases stage with
      | lookup sum' => trivial
      | fetch sum' => exact ok
      | put sum' i' => exact ok
      | insert sum' o => exact ⟨ok.1, ok.2.imp (fun obj both => ⟨old both.1, both.2⟩)⟩
      | _ => exact ok.imp (fun obj both => ⟨old both.1, both.2⟩)
  · change t.standing (·.deleting = some o) ≤ 1
    rw [sameStage (·.deleting = some o) (by simp [HashStage.deleting]) (by simp [HashStage.deleting])]
    exact inv.deletingOnce o
  · exact inv.missingOnce_of_le found threads sum' le_rfl

/-- The sum becomes known. -/
theorem inv_insert (inv : s.Inv) {sum : Sha256} {o : Nat} (found : s.threads[k]? = some ⟨owned, some (.insert sum o)⟩) :
    ({ s.become k owned (some (.increment o)) with hashesIndex := Function.update s.hashesIndex sum (some o) } : Dedup).Inv := by
  obtain ⟨absent, obj, here, rfl, alive⟩ : s.StageOk (.insert sum o) := inv.stages _ (List.mem_of_getElem? found) _ rfl
  let t : Dedup := { s.become k owned (some (.increment o)) with hashesIndex := Function.update s.hashesIndex obj.sum (some o) }
  have threads : t.threads = s.threads.set k ⟨owned, some (.increment o)⟩ := rfl
  have keep : ∀ {sum' : Sha256} {o' : Nat}, s.hashesIndex sum' = some o' → t.hashesIndex sum' = some o' := by
    intro sum' o' there
    have different : sum' ≠ obj.sum := by
      intro same
      rw [same, absent] at there
      cases there
    exact (Function.update_of_ne different _ _).trans there
  have own : t.hashesIndex obj.sum = some o := Function.update_self obj.sum _ s.hashesIndex
  have refs : ∀ o', t.count (HashThread.refs o') = s.count (HashThread.refs o') := by
    intro o'
    have moved := count_become found threads (HashThread.refs o')
    simp only [HashThread.refs, HashThread.standing, reduceCtorEq, or_false, if_false, Nat.add_zero] at moved ⊢
    omega
  have sameStage : ∀ (p : HashStage → Prop) [DecidablePred p], ¬p (.insert obj.sum o) → ¬p (.increment o) → t.standing p = s.standing p := by
    intro p _ before after
    refine standing_eq found threads p before (fun stage next => ?_)
    cases next
    exact after
  refine ⟨inv.sound, inv.created, fun sum' o' there => ?_, fun o' obj' here' alive' => ?_, fun o' obj' here' gone there => ?_,
    fun o' obj' here' loose => ?_, fun o' positive => ?_, fun o' obj' here' doomed => ?_, fun th member stage call => ?_, fun o' => ?_, fun sum' => ?_⟩
  · by_cases same : sum' = obj.sum
    · subst same
      obtain rfl : o = o' := Option.some.inj (own.symm.trans there)
      exact ⟨obj, here, rfl⟩
    · exact inv.index sum' o' ((Function.update_of_ne same _ _).symm.trans there)
  · rcases inv.live o' obj' here' alive' with there | positive
    · exact Or.inl (keep there)
    · by_cases same : o' = o
      · subst same
        obtain rfl : obj = obj' := Option.some.inj (here.symm.trans here')
        exact Or.inl own
      · refine Or.inr (lt_of_lt_of_eq positive (Eq.symm ?_))
        exact sameStage (· = .insert obj'.sum o') (by simp [Ne.symm same]) (by simp)
  · have different : obj'.sum ≠ obj.sum := by
      intro same
      rw [same] at there
      obtain rfl : o = o' := Option.some.inj (own.symm.trans there)
      obtain rfl : obj = obj' := Option.some.inj (here.symm.trans here')
      rw [alive] at gone
      cases gone
    have positive := inv.leaving o' obj' here' gone ((Function.update_of_ne different _ _).symm.trans there)
    exact lt_of_lt_of_eq positive (sameStage (·.deleting = some o') (by simp [HashStage.deleting]) (by simp [HashStage.deleting])).symm
  · change obj'.refcnt = (t.count (HashThread.refs o') : Int)
    rw [refs]
    exact inv.counts o' obj' here' loose
  · change 0 < t.count (HashThread.refs o') at positive
    rw [refs] at positive
    obtain ⟨obj', here', there⟩ := inv.owned o' positive
    exact ⟨obj', here', keep there⟩
  · change t.count (HashThread.refs o') = 0 ∧ t.standing (· = .increment o') = 0
    have doomed' := doomed.imp_right (fun positive => lt_of_lt_of_eq positive (sameStage (· = .setDeleted o') (by simp) (by simp)))
    have before := inv.dead o' obj' here' doomed'
    have different : o ≠ o' := by
      rintro rfl
      obtain rfl : obj = obj' := Option.some.inj (here.symm.trans here')
      rcases doomed' with gone | positive
      · rw [alive] at gone
        cases gone
      · obtain ⟨th, member, stage, call, same⟩ := exists_of_standing_pos positive
        obtain ⟨obj', here', _, there⟩ : s.StageOk (.setDeleted o) := same ▸ inv.stages th member stage call
        obtain rfl : obj = obj' := Option.some.inj (here.symm.trans here')
        rw [absent] at there
        cases there
    rw [refs, sameStage (· = .increment o') (by simp) (by simp [different])]
    exact before
  · rcases mem_become found threads member with rfl | ⟨j, other, there⟩
    · cases call
      exact ⟨obj, here, own⟩
    · have ok := inv.stages th (List.mem_of_getElem? there) stage call
      -- nobody else is about to insert the same sum
      have differs : ∀ sum', stage.missing = some sum' → sum' ≠ obj.sum := by
        intro sum' missing same
        subst same
        have two := two_le_standing (p := (·.missing = some obj.sum)) found there other call rfl missing
        exact absurd (two.trans (inv.missingOnce obj.sum)) (by omega)
      cases stage with
      | lookup sum' => trivial
      | fetch sum' => exact (Function.update_of_ne (differs sum' rfl) _ _).trans ok
      | put sum' i => exact (Function.update_of_ne (differs sum' rfl) _ _).trans ok
      | insert sum' o' => exact ⟨(Function.update_of_ne (differs sum' rfl) _ _).trans ok.1, ok.2⟩
      | increment o' => exact ok.imp (fun obj' both => both.imp_right keep)
      | checkRevived o' => exact ok.imp (fun obj' both => both.imp_right keep)
      | decrement o' => exact ok.imp (fun obj' both => both.imp_right keep)
      | checkFlags o' => exact ok.imp (fun obj' both => both.imp_right (Or.imp_right keep))
      | test o' => exact ok.imp (fun obj' all => ⟨all.1, all.2.1, all.2.2.imp_right keep⟩)
      | setDeleted o' => exact ok.imp (fun obj' all => ⟨all.1, all.2.1, keep all.2.2⟩)
      | verify o' => exact ok.imp (fun obj' all => ⟨all.1, all.2.1, keep all.2.2⟩)
      | erase o' => exact ok.imp (fun obj' all => ⟨all.1, all.2.1, keep all.2.2⟩)
      | clear o' => exact ok
      | post o' => exact ok
  · change t.standing (·.deleting = some o') ≤ 1
    rw [sameStage (·.deleting = some o') (by simp [HashStage.deleting]) (by simp [HashStage.deleting])]
    exact inv.deletingOnce o'
  · exact inv.missingOnce_of_le found threads sum' (Nat.zero_le _)

/-- One reference more or one less to a hash that is live. -/
theorem inv_recount (inv : s.Inv) {o : Nat} {obj : HashObject} {stage stage' : HashStage} {n : Int} (found : s.threads[k]? = some ⟨owned, some stage⟩)
    (here : s.objects o = some obj) (there : s.hashesIndex obj.sum = some o)
    (which : stage = .increment o ∧ stage' = .checkRevived o ∧ n = obj.refcnt + 1 ∨ stage = .decrement o ∧ stage' = .checkFlags o ∧ n = obj.refcnt - 1) :
    ((s.update o { obj with refcnt := n }).become k owned (some stage')).Inv := by
  let t : Dedup := (s.update o { obj with refcnt := n }).become k owned (some stage')
  have threads : t.threads = s.threads.set k ⟨owned, some stage'⟩ := rfl
  have own : t.objects o = some { obj with refcnt := n } := Function.update_self o _ s.objects
  have old : ∀ {o'}, o' ≠ o → t.objects o' = s.objects o' := fun different => Function.update_of_ne different _ _
  have kept : ∀ {o' obj'}, s.objects o' = some obj' →
      ∃ obj'', t.objects o' = some obj'' ∧ obj''.sum = obj'.sum ∧ obj''.deleted = obj'.deleted ∧ obj''.fixed = obj'.fixed := by
    intro o' obj' here'
    by_cases same : o' = o
    · subst same
      obtain rfl : obj = obj' := Option.some.inj (here.symm.trans here')
      exact ⟨_, own, rfl, rfl, rfl⟩
    · exact ⟨obj', (old same).trans here', rfl, rfl, rfl⟩
  have was : ∀ {o' obj'}, t.objects o' = some obj' →
      ∃ obj'', s.objects o' = some obj'' ∧ obj''.sum = obj'.sum ∧ obj''.deleted = obj'.deleted ∧ obj''.fixed = obj'.fixed := by
    intro o' obj' here'
    by_cases same : o' = o
    · subst same
      obtain rfl := Option.some.inj (own.symm.trans here')
      exact ⟨_, here, rfl, rfl, rfl⟩
    · exact ⟨obj', (old same).symm.trans here', rfl, rfl, rfl⟩
  have sameStage : ∀ (p : HashStage → Prop) [DecidablePred p], ¬p stage → ¬p stage' → t.standing p = s.standing p := by
    intro p _ before after
    refine standing_eq found threads p before (fun stage next => ?_)
    cases next
    exact after
  have refs := fun o' => count_become found threads (HashThread.refs o')
  -- the thread itself shows that the hash is neither deleted nor about to be
  have alive : ¬(obj.deleted = true ∨ 0 < s.standing (· = .setDeleted o)) := by
    intro doomed
    have none := inv.dead o obj here doomed
    rcases which with ⟨rfl, -, -⟩ | ⟨rfl, -, -⟩
    · have positive := standing_pos (s := s) (p := (· = .increment o)) (List.mem_of_getElem? found) rfl rfl
      omega
    · have positive : 0 < s.count (HashThread.refs o) := count_pos_of_found found (by simp [HashThread.refs, HashThread.standing])
      omega
  refine ⟨inv.sound, fun o' known => ?_, fun sum' o' there' => ?_, fun o' obj' here' alive' => ?_, fun o' obj' here' gone there' => ?_,
    fun o' obj' here' loose => ?_, fun o' positive => ?_, fun o' obj' here' doomed => ?_, fun th member stage'' call => ?_, fun o' => ?_, fun sum' => ?_⟩
  · apply inv.created o'
    by_cases same : o' = o
    · subst same
      rw [here]
      exact Option.some_ne_none obj
    · exact fun none => known ((old same).trans none)
  · obtain ⟨obj', here', same⟩ := inv.index sum' o' there'
    obtain ⟨obj'', now, sum, _⟩ := kept here'
    exact ⟨obj'', now, sum.trans same⟩
  · obtain ⟨obj'', before, sum, deleted, _⟩ := was here'
    rw [← sum]
    refine (inv.live o' obj'' before (deleted.trans alive')).imp_right (fun positive => lt_of_lt_of_eq positive (Eq.symm ?_))
    exact sameStage (· = .insert obj''.sum o') (by rcases which with ⟨rfl, -, -⟩ | ⟨rfl, -, -⟩ <;> simp)
      (by rcases which with ⟨-, rfl, -⟩ | ⟨-, rfl, -⟩ <;> simp)
  · obtain ⟨obj'', before, sum, deleted, _⟩ := was here'
    refine lt_of_lt_of_eq (inv.leaving o' obj'' before (deleted.trans gone) (sum ▸ there')) (Eq.symm ?_)
    exact sameStage (·.deleting = some o') (by rcases which with ⟨rfl, -, -⟩ | ⟨rfl, -, -⟩ <;> simp [HashStage.deleting])
      (by rcases which with ⟨-, rfl, -⟩ | ⟨-, rfl, -⟩ <;> simp [HashStage.deleting])
  · change obj'.refcnt = (t.count (HashThread.refs o') : Int)
    have moved := refs o'
    by_cases same : o' = o
    · subst same
      obtain rfl := Option.some.inj (own.symm.trans here')
      have count := inv.counts o' obj here loose
      rcases which with ⟨rfl, rfl, rfl⟩ | ⟨rfl, rfl, rfl⟩ <;>
        simp only [HashThread.refs, HashThread.standing, reduceCtorEq, or_false, or_true, if_true, if_false] at moved count ⊢ <;> omega
    · have count := inv.counts o' obj' ((old same).symm.trans here') loose
      rcases which with ⟨rfl, rfl, rfl⟩ | ⟨rfl, rfl, rfl⟩ <;>
        simp only [HashThread.refs, HashThread.standing, reduceCtorEq, or_false, if_false, HashStage.checkRevived.injEq,
          HashStage.decrement.injEq, Ne.symm same] at moved count ⊢ <;> omega
  · by_cases same : o' = o
    · subst same
      exact ⟨_, own, there⟩
    · have moved := refs o'
      have before : 0 < s.count (HashThread.refs o') := by
        change 0 < t.count _ at positive
        rcases which with ⟨rfl, rfl, rfl⟩ | ⟨rfl, rfl, rfl⟩ <;>
          simp only [HashThread.refs, HashThread.standing, reduceCtorEq, or_false, if_false, HashStage.checkRevived.injEq,
            HashStage.decrement.injEq, Ne.symm same] at moved positive ⊢ <;> omega
      obtain ⟨obj', here', there'⟩ := inv.owned o' before
      exact ⟨obj', (old same).trans here', there'⟩
  · change t.count (HashThread.refs o') = 0 ∧ t.standing (· = .increment o') = 0
    have doomed' : obj'.deleted = true ∨ 0 < s.standing (· = .setDeleted o') := by
      refine doomed.imp_right (fun positive => lt_of_lt_of_eq positive ?_)
      exact sameStage (· = .setDeleted o') (by rcases which with ⟨rfl, -, -⟩ | ⟨rfl, -, -⟩ <;> simp)
        (by rcases which with ⟨-, rfl, -⟩ | ⟨-, rfl, -⟩ <;> simp)
    have different : o' ≠ o := by
      rintro rfl
      obtain rfl := Option.some.inj (own.symm.trans here')
      exact alive doomed'
    have before := inv.dead o' obj' ((old different).symm.trans here') doomed'
    rw [sameStage (· = .increment o') (by rcases which with ⟨rfl, -, -⟩ | ⟨rfl, -, -⟩ <;> simp [different.symm])
      (by rcases which with ⟨-, rfl, -⟩ | ⟨-, rfl, -⟩ <;> simp)]
    refine ⟨?_, before.2⟩
    have moved := refs o'
    have none := before.1
    rcases which with ⟨rfl, rfl, rfl⟩ | ⟨rfl, rfl, rfl⟩ <;>
      simp only [HashThread.refs, HashThread.standing, reduceCtorEq, or_false, if_false, HashStage.checkRevived.injEq,
        HashStage.decrement.injEq, different.symm] at moved none ⊢ <;> omega
  · rcases mem_become found threads member with rfl | ⟨j, _, before⟩
    · cases call
      rcases which with ⟨-, rfl, -⟩ | ⟨-, rfl, -⟩
      · exact ⟨_, own, there⟩
      · exact ⟨_, own, Or.inr there⟩
    · have ok := inv.stages th (List.mem_of_getElem? before) stage'' call
      cases stage'' with
      | lookup sum' => trivial
      | fetch sum' => exact ok
      | put sum' i => exact ok
      | insert sum' o' =>
        obtain ⟨absent, obj', here', sum, alive'⟩ := ok
        obtain ⟨obj'', now, sum', deleted, _⟩ := kept here'
        exact ⟨absent, obj'', now, sum'.trans sum, deleted.trans alive'⟩
      | _ =>
        obtain ⟨obj', here', rest⟩ := ok
        obtain ⟨obj'', now, sum', deleted, fixed⟩ := kept here'
        refine ⟨obj'', now, ?_⟩
        simp only [sum', deleted, fixed]
        exact rest
  · change t.standing (·.deleting = some o') ≤ 1
    rw [sameStage (·.deleting = some o') (by rcases which with ⟨rfl, -, -⟩ | ⟨rfl, -, -⟩ <;> simp [HashStage.deleting])
      (by rcases which with ⟨-, rfl, -⟩ | ⟨-, rfl, -⟩ <;> simp [HashStage.deleting])]
    exact inv.deletingOnce o'
  · apply inv.missingOnce_of_le found threads sum'
    rcases which with ⟨rfl, rfl, rfl⟩ | ⟨rfl, rfl, rfl⟩ <;> simp [HashThread.standing, HashStage.missing]

/-- The flag is set. -/
theorem inv_setDeleted (inv : s.Inv) {o : Nat} {obj : HashObject} (found : s.threads[k]? = some ⟨owned, some (.setDeleted o)⟩)
    (here : s.objects o = some obj) : ((s.update o { obj with deleted := true }).become k owned (some (.verify o))).Inv := by
  obtain ⟨first, again, alive, there⟩ : s.StageOk (.setDeleted o) := inv.stages _ (List.mem_of_getElem? found) _ rfl
  obtain rfl : obj = first := Option.some.inj (here.symm.trans again)
  let t : Dedup := (s.update o { obj with deleted := true }).become k owned (some (.verify o))
  have threads : t.threads = s.threads.set k ⟨owned, some (.verify o)⟩ := rfl
  have own : t.objects o = some { obj with deleted := true } := Function.update_self o _ s.objects
  have old : ∀ {o'}, o' ≠ o → t.objects o' = s.objects o' := fun different => Function.update_of_ne different _ _
  have kept : ∀ {o' obj'}, s.objects o' = some obj' →
      ∃ obj'', t.objects o' = some obj'' ∧ obj''.sum = obj'.sum ∧ (obj'.deleted = true → obj''.deleted = true) ∧ obj''.fixed = obj'.fixed := by
    intro o' obj' here'
    by_cases same : o' = o
    · subst same
      obtain rfl : obj = obj' := Option.some.inj (here.symm.trans here')
      exact ⟨_, own, rfl, fun _ => rfl, rfl⟩
    · exact ⟨obj', (old same).trans here', rfl, id, rfl⟩
  have sameStage : ∀ (p : HashStage → Prop) [DecidablePred p], ¬p (.setDeleted o) → ¬p (.verify o) → t.standing p = s.standing p := by
    intro p _ before after
    refine standing_eq found threads p before (fun stage next => ?_)
    cases next
    exact after
  have refs : ∀ o', t.count (HashThread.refs o') = s.count (HashThread.refs o') := by
    intro o'
    have moved := count_become found threads (HashThread.refs o')
    simp only [HashThread.refs, HashThread.standing, reduceCtorEq, or_false, if_false, Nat.add_zero] at moved ⊢
    omega
  have deleting : ∀ o', t.standing (·.deleting = some o') = s.standing (·.deleting = some o') := by
    intro o'
    have moved := count_become found threads (HashThread.standing (·.deleting = some o'))
    simp only [HashThread.standing, HashStage.deleting] at moved
    exact Nat.add_right_cancel moved
  have none : s.count (HashThread.refs o) = 0 ∧ s.standing (· = .increment o) = 0 :=
    inv.dead o obj here (Or.inr (standing_pos (List.mem_of_getElem? found) rfl rfl))
  refine ⟨inv.sound, fun o' known => ?_, fun sum' o' there' => ?_, fun o' obj' here' alive' => ?_, fun o' obj' here' gone there' => ?_,
    fun o' obj' here' loose => ?_, fun o' positive => ?_, fun o' obj' here' doomed => ?_, fun th member stage' call => ?_, fun o' => ?_, fun sum' => ?_⟩
  · apply inv.created o'
    by_cases same : o' = o
    · subst same
      rw [here]
      exact Option.some_ne_none obj
    · exact fun none => known ((old same).trans none)
  · obtain ⟨obj', here', same⟩ := inv.index sum' o' there'
    obtain ⟨obj'', now, sum, _⟩ := kept here'
    exact ⟨obj'', now, sum.trans same⟩
  · have different : o' ≠ o := by
      rintro rfl
      obtain rfl := Option.some.inj (own.symm.trans here')
      cases alive'
    refine (inv.live o' obj' ((old different).symm.trans here') alive').imp_right (fun positive => lt_of_lt_of_eq positive (Eq.symm ?_))
    exact sameStage (· = .insert obj'.sum o') (by simp) (by simp)
  · refine lt_of_lt_of_eq ?_ (deleting o').symm
    by_cases same : o' = o
    · subst same
      exact standing_pos (List.mem_of_getElem? found) rfl rfl
    · exact inv.leaving o' obj' ((old same).symm.trans here') gone there'
  · change obj'.refcnt = (t.count (HashThread.refs o') : Int)
    rw [refs]
    by_cases same : o' = o
    · subst same
      obtain rfl := Option.some.inj (own.symm.trans here')
      exact inv.counts o' obj here loose
    · exact inv.counts o' obj' ((old same).symm.trans here') loose
  · change 0 < t.count (HashThread.refs o') at positive
    rw [refs] at positive
    obtain ⟨obj', here', there'⟩ := inv.owned o' positive
    obtain ⟨obj'', now, sum, _⟩ := kept here'
    exact ⟨obj'', now, sum ▸ there'⟩
  · change t.count (HashThread.refs o') = 0 ∧ t.standing (· = .increment o') = 0
    rw [refs, sameStage (· = .increment o') (by simp) (by simp)]
    by_cases same : o' = o
    · subst same
      exact none
    · have doomed' := doomed.imp_right (fun positive => lt_of_lt_of_eq positive
        (sameStage (· = .setDeleted o') (by simp [Ne.symm same]) (by simp)))
      exact inv.dead o' obj' ((old same).symm.trans here') doomed'
  · rcases mem_become found threads member with rfl | ⟨j, other, before⟩
    · cases call
      exact ⟨_, own, rfl, there⟩
    · have ok := inv.stages th (List.mem_of_getElem? before) stage' call
      cases stage' with
      | lookup sum' => trivial
      | fetch sum' => exact ok
      | put sum' i => exact ok
      | insert sum' o' =>
        obtain ⟨absent, obj', here', rfl, alive'⟩ := ok
        have different : o' ≠ o := by
          rintro rfl
          obtain rfl : obj = obj' := Option.some.inj (here.symm.trans here')
          rw [there] at absent
          cases absent
        exact ⟨absent, obj', (old different).trans here', rfl, alive'⟩
      | setDeleted o' =>
        obtain ⟨obj', here', rest⟩ := ok
        -- one thread at a time decides to delete a hash
        have different : o' ≠ o := by
          rintro rfl
          have two := two_le_standing (p := (·.deleting = some o')) found before other call rfl rfl
          exact absurd (two.trans (inv.deletingOnce o')) (by omega)
        exact ⟨obj', (old different).trans here', rest⟩
      | checkFlags o' =>
        obtain ⟨obj', here', which⟩ := ok
        obtain ⟨obj'', now, sum', deleted, _⟩ := kept here'
        exact ⟨obj'', now, which.imp deleted (fun there' => sum' ▸ there')⟩
      | test o' =>
        obtain ⟨obj', here', loose, which⟩ := ok
        obtain ⟨obj'', now, sum', deleted, fixed⟩ := kept here'
        exact ⟨obj'', now, fixed.trans loose, which.imp deleted (fun there' => sum' ▸ there')⟩
      | verify o' =>
        obtain ⟨obj', here', gone, there'⟩ := ok
        obtain ⟨obj'', now, sum', deleted, _⟩ := kept here'
        exact ⟨obj'', now, deleted gone, sum' ▸ there'⟩
      | erase o' =>
        obtain ⟨obj', here', gone, there'⟩ := ok
        obtain ⟨obj'', now, sum', deleted, _⟩ := kept here'
        exact ⟨obj'', now, deleted gone, sum' ▸ there'⟩
      | clear o' =>
        obtain ⟨obj', here', gone⟩ := ok
        obtain ⟨obj'', now, _, deleted, _⟩ := kept here'
        exact ⟨obj'', now, deleted gone⟩
      | post o' =>
        obtain ⟨obj', here', gone⟩ := ok
        obtain ⟨obj'', now, _, deleted, _⟩ := kept here'
        exact ⟨obj'', now, deleted gone⟩
      | _ =>
        obtain ⟨obj', here', there'⟩ := ok
        obtain ⟨obj'', now, sum', _⟩ := kept here'
        exact ⟨obj'', now, sum' ▸ there'⟩
  · exact (deleting o').trans_le (inv.deletingOnce o')
  · exact inv.missingOnce_of_le found threads sum' (Nat.zero_le _)

/-- The sum is forgotten. -/
theorem inv_erase (inv : s.Inv) {o : Nat} {obj : HashObject} (found : s.threads[k]? = some ⟨owned, some (.erase o)⟩)
    (here : s.objects o = some obj) :
    ({ s.become k owned (some (.clear o)) with hashesIndex := Function.update s.hashesIndex obj.sum none } : Dedup).Inv := by
  obtain ⟨first, again, gone, there⟩ : s.StageOk (.erase o) := inv.stages _ (List.mem_of_getElem? found) _ rfl
  obtain rfl : obj = first := Option.some.inj (here.symm.trans again)
  let t : Dedup := { s.become k owned (some (.clear o)) with hashesIndex := Function.update s.hashesIndex obj.sum none }
  have threads : t.threads = s.threads.set k ⟨owned, some (.clear o)⟩ := rfl
  have keep : ∀ {sum' : Sha256} {o' : Nat}, s.hashesIndex sum' = some o' → o' ≠ o → t.hashesIndex sum' = some o' := by
    intro sum' o' there' different
    have other : sum' ≠ obj.sum := by
      rintro rfl
      exact different (Option.some.inj (there'.symm.trans there))
    exact (Function.update_of_ne other _ _).trans there'
  have less : ∀ {sum' : Sha256} {o' : Nat}, t.hashesIndex sum' = some o' → s.hashesIndex sum' = some o' ∧ o' ≠ o := by
    intro sum' o' there'
    have other : sum' ≠ obj.sum := by
      rintro rfl
      cases (Function.update_self obj.sum _ s.hashesIndex).symm.trans there'
    have before : s.hashesIndex sum' = some o' := (Function.update_of_ne other _ _).symm.trans there'
    refine ⟨before, ?_⟩
    rintro rfl
    obtain ⟨obj', here', same⟩ := inv.index sum' o' before
    obtain rfl : obj = obj' := Option.some.inj (here.symm.trans here')
    exact other same.symm
  have still : ∀ {sum' : Sha256}, s.hashesIndex sum' = none → t.hashesIndex sum' = none := by
    intro sum' absent
    by_cases same : sum' = obj.sum
    · subst same
      exact Function.update_self obj.sum _ s.hashesIndex
    · exact (Function.update_of_ne same _ _).trans absent
  have sameStage : ∀ (p : HashStage → Prop) [DecidablePred p], ¬p (.erase o) → ¬p (.clear o) → t.standing p = s.standing p := by
    intro p _ before after
    refine standing_eq found threads p before (fun stage next => ?_)
    cases next
    exact after
  have refs : ∀ o', t.count (HashThread.refs o') = s.count (HashThread.refs o') := by
    intro o'
    have moved := count_become found threads (HashThread.refs o')
    simp only [HashThread.refs, HashThread.standing, reduceCtorEq, or_false, if_false, Nat.add_zero] at moved ⊢
    omega
  have none := inv.dead o obj here (Or.inl gone)
  have unowned : ∀ {o'}, 0 < s.count (HashThread.refs o') → o' ≠ o := by
    rintro o' positive rfl
    omega
  refine ⟨inv.sound, inv.created, fun sum' o' there' => ?_, fun o' obj' here' alive' => ?_, fun o' obj' here' gone' there' => ?_,
    fun o' obj' here' loose => ?_, fun o' positive => ?_, fun o' obj' here' doomed => ?_, fun th member stage' call => ?_, fun o' => ?_, fun sum' => ?_⟩
  · exact inv.index sum' o' (less there').1
  · have different : o' ≠ o := by
      rintro rfl
      obtain rfl : obj = obj' := Option.some.inj (here.symm.trans here')
      rw [gone] at alive'
      cases alive'
    refine (inv.live o' obj' here' alive').imp (fun there' => keep there' different) (fun positive => lt_of_lt_of_eq positive (Eq.symm ?_))
    exact sameStage (· = .insert obj'.sum o') (by simp) (by simp)
  · obtain ⟨before, different⟩ := less there'
    refine lt_of_lt_of_eq (inv.leaving o' obj' here' gone' before) (Eq.symm ?_)
    exact sameStage (·.deleting = some o') (by simpa [HashStage.deleting] using different.symm) (by simp [HashStage.deleting])
  · change obj'.refcnt = (t.count (HashThread.refs o') : Int)
    rw [refs]
    exact inv.counts o' obj' here' loose
  · change 0 < t.count (HashThread.refs o') at positive
    rw [refs] at positive
    obtain ⟨obj', here', there'⟩ := inv.owned o' positive
    exact ⟨obj', here', keep there' (unowned positive)⟩
  · change t.count (HashThread.refs o') = 0 ∧ t.standing (· = .increment o') = 0
    rw [refs, sameStage (· = .increment o') (by simp) (by simp)]
    exact inv.dead o' obj' here' (doomed.imp_right (fun positive => lt_of_lt_of_eq positive (sameStage (· = .setDeleted o') (by simp) (by simp))))
  · rcases mem_become found threads member with rfl | ⟨j, other, before⟩
    · cases call
      exact ⟨obj, here, gone⟩
    · have inside := List.mem_of_getElem? before
      have ok := inv.stages th inside stage' call
      have referring : ∀ o', stage' = .checkRevived o' ∨ stage' = .decrement o' → o' ≠ o := by
        intro o' which
        apply unowned
        apply count_pos_of_found before
        unfold HashThread.refs
        refine Nat.add_pos_right _ ?_
        unfold HashThread.standing
        rw [call]
        exact Nat.lt_of_lt_of_eq Nat.one_pos (if_pos which).symm
      have deleting : ∀ o', stage'.deleting = some o' → o' ≠ o := by
        rintro o' doing rfl
        have two := two_le_standing (p := (·.deleting = some o')) found before other call rfl doing
        exact absurd (two.trans (inv.deletingOnce o')) (by omega)
      have either : ∀ {o' : Nat} {obj' : HashObject}, s.objects o' = some obj' → (obj'.deleted = true ∨ s.hashesIndex obj'.sum = some o') →
          obj'.deleted = true ∨ t.hashesIndex obj'.sum = some o' := by
        intro o' obj' here' which
        by_cases same : o' = o
        · subst same
          obtain rfl : obj = obj' := Option.some.inj (here.symm.trans here')
          exact Or.inl gone
        · exact which.imp_right (fun there' => keep there' same)
      cases stage' with
      | lookup sum' => trivial
      | fetch sum' => exact still ok
      | put sum' i => exact still ok
      | insert sum' o' => exact ⟨still ok.1, ok.2⟩
      | increment o' =>
        have different : o' ≠ o := by
          rintro rfl
          have positive := standing_pos (s := s) (p := (· = .increment o')) inside call rfl
          omega
        exact ok.imp (fun obj' both => ⟨both.1, keep both.2 different⟩)
      | checkRevived o' => exact ok.imp (fun obj' both => ⟨both.1, keep both.2 (referring o' (Or.inl rfl))⟩)
      | decrement o' => exact ok.imp (fun obj' both => ⟨both.1, keep both.2 (referring o' (Or.inr rfl))⟩)
      | checkFlags o' => exact ok.imp (fun obj' both => ⟨both.1, either both.1 both.2⟩)
      | test o' => exact ok.imp (fun obj' all => ⟨all.1, all.2.1, either all.1 all.2.2⟩)
      | setDeleted o' => exact ok.imp (fun obj' all => ⟨all.1, all.2.1, keep all.2.2 (deleting o' rfl)⟩)
      | verify o' => exact ok.imp (fun obj' all => ⟨all.1, all.2.1, keep all.2.2 (deleting o' rfl)⟩)
      | erase o' => exact ok.imp (fun obj' all => ⟨all.1, all.2.1, keep all.2.2 (deleting o' rfl)⟩)
      | clear o' => exact ok
      | post o' => exact ok
  · have moved := count_become found threads (HashThread.standing (·.deleting = some o'))
    have after : HashThread.standing (·.deleting = some o') ⟨owned, some (.clear o)⟩ = 0 := rfl
    have before := inv.deletingOnce o'
    change s.count _ ≤ 1 at before
    change t.count _ ≤ 1
    omega
  · exact inv.missingOnce_of_le found threads sum' (Nat.zero_le _)

end Steps

end Dedup

end CloudCryptFS.Filesystem
