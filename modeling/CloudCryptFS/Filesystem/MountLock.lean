import Mathlib.Data.List.GetD
import CloudCryptFS.Util.Schedule

/-! The file that keeps two processes from working on one directory. `initStorage` waits
until there is no lock and adds one in a second step, and the lock goes with the storage
service of every process that ends in order, also of one that has come to an end before
it mounted anything. -/

namespace CloudCryptFS.Filesystem.MountLock
open Util Schedule

/-- Where a process stands that works on the directory. -/
inductive Stage where
  | started
  | waiting
  | checked
  | mounted
  | gone
  deriving DecidableEq

structure State where
  lock : Bool
  processes : List Stage
  deriving DecidableEq

inductive Step where
  | main
  | fileExists (p : Nat)
  | putSystemString (p : Nat) (written : Bool)
  | stopAllServices (p : Nat)
  | crash (p : Nat)
  | removeByHand

def State.stage (s : State) (p : Nat) : Stage := s.processes.getD p .gone

def State.enter (s : State) (p : Nat) (stage : Stage) : State := { s with processes := s.processes.set p stage }

def step : Step → State → Option State
  | .main, s => some { s with processes := s.processes ++ [.started] }
  -- the loop of `initStorage` goes on while there is a lock
  | .fileExists p, s =>
    if s.stage p = .started ∨ s.stage p = .waiting then some (s.enter p (if s.lock then .waiting else .checked)) else none
  -- nobody looks at what `putSystemString` returns
  | .putSystemString p written, s =>
    if s.stage p = .checked then some { s.enter p .mounted with lock := s.lock || written } else none
  -- `~storage` removes the lock, whoever added it; no process ends in order while it waits
  | .stopAllServices p, s =>
    if s.stage p = .started ∨ s.stage p = .mounted then some { s.enter p .gone with lock := false } else none
  | .crash p, s => if s.stage p = .gone then none else some (s.enter p .gone)
  | .removeByHand, s => some { s with lock := false }

def start : State := ⟨false, []⟩

/-- At most one process works on the directory. -/
def State.Exclusive (s : State) : Prop := ∀ p p', s.stage p = .mounted → s.stage p' = .mounted → p = p'

/-- The process has found no lock. -/
def Stage.Past (stage : Stage) : Prop := stage = .checked ∨ stage = .mounted

/-- At most one process has found no lock. There is a lock once it is mounted, and none
while it is about to add one. -/
structure State.Safe (s : State) : Prop where
  single : ∀ p p', (s.stage p).Past → (s.stage p').Past → p = p'
  locked : ∀ p, s.stage p = .mounted → s.lock = true
  unlocked : ∀ p, s.stage p = .checked → s.lock = false

/-- Two processes have found no lock, or one is mounted and there is none. -/
def State.Open (s : State) : Prop :=
  (∃ p p', p ≠ p' ∧ (s.stage p).Past ∧ (s.stage p').Past) ∨ (∃ p, s.stage p = .mounted) ∧ s.lock = false

/-- No process looks for the lock while another one is about to add it, the lock is
written, and it is not taken away, by hand or by a process that has not mounted, while
another process is mounted. -/
def Ordered (s : State) : Step → Prop
  | .fileExists _ => s.lock = false → .checked ∉ s.processes
  | .putSystemString _ written => written = true
  | .stopAllServices p => s.stage p = .started → .mounted ∉ s.processes
  | .removeByHand => .mounted ∉ s.processes
  | _ => True

instance (s : State) (a : Step) : Decidable (Ordered s a) := by
  unfold Ordered
  split <;> infer_instance

section Stages
variable {s t : State} {p p' : Nat} {stage : Stage}

theorem State.lt_of_stage (here : s.stage p ≠ .gone) : p < s.processes.length := by
  by_contra outside
  apply here
  exact List.getD_eq_default _ _ (Nat.le_of_not_lt outside)

theorem State.mem_processes (other : stage ≠ .gone) : stage ∈ s.processes ↔ ∃ p, s.stage p = stage := by
  constructor
  · intro member
    obtain ⟨p, inside, here⟩ := List.getElem_of_mem member
    exact ⟨p, (List.getD_eq_getElem _ _ inside).trans here⟩
  · intro found
    obtain ⟨p, here⟩ := found
    have inside : p < s.processes.length := State.lt_of_stage (here ▸ other)
    rw [← here, State.stage, List.getD_eq_getElem _ _ inside]
    exact List.getElem_mem inside

theorem State.stage_enter (here : s.stage p ≠ .gone) (p' : Nat) :
    (s.enter p stage).stage p' = if p' = p then stage else s.stage p' := by
  have inside := State.lt_of_stage here
  unfold State.stage State.enter
  dsimp only
  rw [List.getD_eq_getElem?_getD, List.getElem?_set]
  by_cases same : p' = p
  · rw [if_pos same, if_pos same.symm, if_pos inside, Option.getD_some]
  · rw [if_neg same, if_neg (fun equal => same equal.symm), ← List.getD_eq_getElem?_getD]

theorem State.stage_append (p' : Nat) :
    State.stage { s with processes := s.processes ++ [.started] } p' = if p' = s.processes.length then .started else s.stage p' := by
  unfold State.stage
  dsimp only
  rw [List.getD_eq_getElem?_getD, List.getElem?_append]
  by_cases inside : p' < s.processes.length
  · rw [if_pos inside, if_neg (Nat.ne_of_lt inside), ← List.getD_eq_getElem?_getD]
  · rw [if_neg inside]
    by_cases last : p' = s.processes.length
    · rw [if_pos last, last, Nat.sub_self]
      rfl
    · have past : p' - s.processes.length ≠ 0 := by omega
      obtain ⟨k, amount⟩ := Nat.exists_eq_succ_of_ne_zero past
      rw [if_neg last, amount, List.getD_eq_default _ _ (Nat.le_of_not_lt inside)]
      rfl

end Stages

section Safety
variable {s t : State} {p : Nat} {next : Step}

theorem Stage.Past.ne_gone {stage : Stage} (past : stage.Past) : stage ≠ .gone := by
  cases past with
  | inl checked => simp [checked]
  | inr mounted => simp [mounted]

theorem Stage.not_past_started : ¬Stage.Past .started := by
  unfold Stage.Past
  simp

theorem Stage.not_past_waiting : ¬Stage.Past .waiting := by
  unfold Stage.Past
  simp

theorem Stage.not_past_gone : ¬Stage.Past .gone := fun past => past.ne_gone rfl

/-- Nothing is lost when processes end, and when they have not looked yet. -/
theorem State.Safe.mono (safe : s.Safe) (fewer : ∀ p, (t.stage p).Past → s.stage p = t.stage p) (same : t.lock = s.lock) : t.Safe where
  single p p' here there := safe.single p p' (fewer p here ▸ here) (fewer p' there ▸ there)
  locked p mounted := same.trans (safe.locked p ((fewer p (.inr mounted)).trans mounted))
  unlocked p checked := same.trans (safe.unlocked p ((fewer p (.inl checked)).trans checked))

/-- The lock may go when no process is mounted any more. -/
theorem State.Safe.remove (safe : s.Safe) (fewer : ∀ p, (t.stage p).Past → s.stage p = t.stage p)
    (last : ∀ p, t.stage p ≠ .mounted) (removed : t.lock = false) : t.Safe where
  single p p' here there := safe.single p p' (fewer p here ▸ here) (fewer p' there ▸ there)
  locked p mounted := absurd mounted (last p)
  unlocked _ _ := removed

/-- One process is past the check, at the stage that its lock says. -/
theorem State.Safe.of_only (only : ∀ p', (t.stage p').Past → p' = p) (locked : t.stage p = .mounted → t.lock = true)
    (unlocked : t.stage p = .checked → t.lock = false) : t.Safe where
  single p p' here there := (only p here).trans (only p' there).symm
  locked p' mounted := locked (only p' (.inr mounted) ▸ mounted)
  unlocked p' checked := unlocked (only p' (.inl checked) ▸ checked)

theorem State.stage_enter_fewer (here : s.stage p ≠ .gone) {stage : Stage} (before : ¬stage.Past) (p' : Nat)
    (past : ((s.enter p stage).stage p').Past) : p' ≠ p ∧ s.stage p' = (s.enter p stage).stage p' := by
  rw [State.stage_enter here] at past ⊢
  by_cases same : p' = p
  · rw [if_pos same] at past
    exact absurd past before
  · exact ⟨same, (if_neg same).symm⟩

theorem main_keeps (safe : s.Safe) : State.Safe { s with processes := s.processes ++ [.started] } := by
  apply safe.mono (t := { s with processes := s.processes ++ [.started] }) _ rfl
  intro p past
  rw [State.stage_append] at past ⊢
  by_cases last : p = s.processes.length
  · rw [if_pos last] at past
    exact absurd past Stage.not_past_started
  · exact (if_neg last).symm

theorem State.ne_gone_of_before (here : s.stage p = .started ∨ s.stage p = .waiting) : s.stage p ≠ .gone := by
  cases here with
  | inl started => simp [started]
  | inr waiting => simp [waiting]

theorem fileExists_keeps (safe : s.Safe) (present : s.stage p ≠ .gone) (unlocked : s.lock = false) (alone : .checked ∉ s.processes) :
    (s.enter p .checked).Safe := by
  have nobody : ∀ p', ¬(s.stage p').Past := by
    intro p' past
    cases past with
    | inl checked => exact alone ((State.mem_processes (by simp)).mpr ⟨p', checked⟩)
    | inr mounted => simp [safe.locked p' mounted] at unlocked
  apply State.Safe.of_only (p := p)
  · intro p' past
    by_contra other
    rw [State.stage_enter present, if_neg other] at past
    exact nobody p' past
  · intro mounted
    rw [State.stage_enter present, if_pos rfl] at mounted
    cases mounted
  · exact fun _ => unlocked

theorem putSystemString_keeps (safe : s.Safe) (here : s.stage p = .checked) :
    State.Safe { s.enter p .mounted with lock := s.lock || true } := by
  have present : s.stage p ≠ .gone := by simp [here]
  have staged : ∀ p', State.stage { s.enter p .mounted with lock := s.lock || true } p' = if p' = p then .mounted else s.stage p' :=
    fun p' => State.stage_enter present p'
  apply State.Safe.of_only (p := p)
  · intro p' past
    by_contra other
    rw [staged, if_neg other] at past
    exact other (safe.single p' p past (.inl here))
  · exact fun _ => Bool.or_true _
  · intro checked
    rw [staged, if_pos rfl] at checked
    cases checked

theorem stopAllServices_keeps (safe : s.Safe) (here : s.stage p = .started ∨ s.stage p = .mounted)
    (early : s.stage p = .started → .mounted ∉ s.processes) : State.Safe { s.enter p .gone with lock := false } := by
  have present : s.stage p ≠ .gone := by
    cases here with
    | inl started => simp [started]
    | inr mounted => simp [mounted]
  have fewer := State.stage_enter_fewer present Stage.not_past_gone
  apply safe.remove (t := { s.enter p .gone with lock := false }) (fun p' past => (fewer p' past).2) _ rfl
  intro p' mounted
  have left := fewer p' (.inr mounted)
  have mounted := left.2.trans mounted
  cases here with
  | inl started => exact early started ((State.mem_processes (by simp)).mpr ⟨p', mounted⟩)
  | inr own => exact left.1 (safe.single p' p (.inr mounted) (.inr own))

theorem step_keeps (safe : s.Safe) (ordered : Ordered s next) (stepped : step next s = some t) : t.Safe := by
  cases next with
  | main =>
    cases stepped
    exact main_keeps safe
  | fileExists p =>
    rw [step] at stepped
    split at stepped
    · next here =>
      cases stepped
      have present := State.ne_gone_of_before here
      split
      · exact safe.mono (fun p' past => (State.stage_enter_fewer present Stage.not_past_waiting p' past).2) rfl
      · next lock => exact fileExists_keeps safe present (Bool.not_eq_true _ ▸ lock) (ordered (Bool.not_eq_true _ ▸ lock))
    · cases stepped
  | putSystemString p written =>
    rw [step] at stepped
    split at stepped
    · next here =>
      cases stepped
      cases ordered
      exact putSystemString_keeps safe here
    · cases stepped
  | stopAllServices p =>
    rw [step] at stepped
    split at stepped
    · next here =>
      cases stepped
      exact stopAllServices_keeps safe here ordered
    · cases stepped
  | crash p =>
    rw [step] at stepped
    split at stepped
    · cases stepped
    · next here =>
      cases stepped
      exact safe.mono (fun p' past => (State.stage_enter_fewer here Stage.not_past_gone p' past).2) rfl
  | removeByHand =>
    cases stepped
    exact safe.remove (fun _ _ => rfl) (fun p mounted => ordered ((State.mem_processes (by simp)).mpr ⟨p, mounted⟩)) rfl

/-- A step out of order lets another process in. -/
theorem step_opens (safe : s.Safe) (unordered : ¬Ordered s next) (stepped : step next s = some t) : t.Open := by
  cases next with
  | main => exact absurd trivial unordered
  | crash p => exact absurd trivial unordered
  | fileExists p =>
    unfold Ordered at unordered
    push Not at unordered
    have waiting := (State.mem_processes (by simp)).mp unordered.2
    rw [step] at stepped
    split at stepped
    · next here =>
      rw [unordered.1, if_neg Bool.false_ne_true] at stepped
      cases stepped
      have present := State.ne_gone_of_before here
      obtain ⟨p', checked⟩ := waiting
      have other : p' ≠ p := by
        intro same
        simp [← same, checked] at here
      apply Or.inl
      exists p', p
      rw [State.stage_enter present, State.stage_enter present, if_neg other, if_pos rfl]
      exact ⟨other, .inl checked, .inl rfl⟩
    · cases stepped
  | putSystemString p written =>
    have unwritten : written = false := by simpa [Ordered] using unordered
    rw [step] at stepped
    split at stepped
    · next here =>
      cases stepped
      have present : s.stage p ≠ .gone := by simp [here]
      apply Or.inr
      constructor
      · exists p
        exact (State.stage_enter present p).trans (if_pos rfl)
      · dsimp only
        rw [safe.unlocked p here, unwritten, Bool.or_false]
    · cases stepped
  | stopAllServices p =>
    unfold Ordered at unordered
    push Not at unordered
    have mounted := (State.mem_processes (by simp)).mp unordered.2
    rw [step] at stepped
    split at stepped
    · cases stepped
      have present : s.stage p ≠ .gone := by simp [unordered.1]
      obtain ⟨p', mounted⟩ := mounted
      have other : p' ≠ p := by
        intro same
        simp [same, unordered.1] at mounted
      apply Or.inr
      constructor
      · exists p'
        exact ((State.stage_enter present p').trans (if_neg other)).trans mounted
      · rfl
    · cases stepped
  | removeByHand =>
    cases stepped
    have mounted := (State.mem_processes (by simp)).mp (not_not.mp unordered)
    exact .inr ⟨mounted, rfl⟩

end Safety

section Exclusion
variable {s t : State} {p p' : Nat}

/-- A process that has found no lock mounts, and the others stay where they are. -/
theorem mounts (past : (s.stage p).Past) : ∃ more t, OrderedRun step Ordered more s ∧ run step more s = some t ∧
    t.stage p = .mounted ∧ ∀ p', p' ≠ p → t.stage p' = s.stage p' := by
  cases past with
  | inr mounted => exact ⟨[], s, trivial, rfl, mounted, fun _ _ => rfl⟩
  | inl checked =>
    have present : s.stage p ≠ .gone := by simp [checked]
    have stepped : step (.putSystemString p true) s = some { s.enter p .mounted with lock := s.lock || true } := by
      rw [step, if_pos checked]
    exists [.putSystemString p true], { s.enter p .mounted with lock := s.lock || true }
    apply And.intro
    · rw [OrderedRun, stepped]
      exact ⟨rfl, trivial⟩
    apply And.intro (run_cons stepped)
    constructor
    · exact (State.stage_enter present p).trans (if_pos rfl)
    · intro p' other
      exact (State.stage_enter present p').trans (if_neg other)

theorem mounts_two (other : p ≠ p') (here : (s.stage p).Past) (there : (s.stage p').Past) :
    ∃ more t, OrderedRun step Ordered more s ∧ run step more s = some t ∧ ¬t.Exclusive := by
  obtain ⟨first, mid, ordered, ran, mounted, kept⟩ := mounts here
  have there' : (mid.stage p').Past := (kept p' other.symm).symm ▸ there
  obtain ⟨later, t, ordered', ran', mounted', kept'⟩ := mounts there'
  exists first ++ later, t
  constructor
  · apply orderedRun_append ordered
    intro between made
    cases ran.symm.trans made
    exact ordered'
  · apply And.intro ((run_append ran).trans ran')
    intro exclusive
    exact other (exclusive p p' ((kept' p other).trans mounted) mounted')

/-- Another process comes, finds no lock and goes on. -/
theorem State.Open.mounts_both (opened : s.Open) : ∃ more t, OrderedRun step Ordered more s ∧ run step more s = some t ∧ ¬t.Exclusive := by
  cases opened with
  | inl two =>
    obtain ⟨p, p', other, here, there⟩ := two
    exact mounts_two other here there
  | inr unlocked =>
    obtain ⟨⟨p, mounted⟩, unlocked⟩ := unlocked
    by_cases waiting : .checked ∈ s.processes
    · obtain ⟨p', checked⟩ := (State.mem_processes (by simp)).mp waiting
      have other : p ≠ p' := by
        intro same
        simp [← same, mounted] at checked
      exact mounts_two other (.inr mounted) (.inl checked)
    · have present : s.stage p ≠ .gone := by simp [mounted]
      have inside := State.lt_of_stage present
      let mid : State := { s with processes := s.processes ++ [.started] }
      have fresh : mid.stage s.processes.length = .started := (State.stage_append _).trans (if_pos rfl)
      have entered : step (.fileExists s.processes.length) mid = some (mid.enter s.processes.length .checked) := by
        rw [step, if_pos (.inl fresh), if_neg (fun lock => Bool.false_ne_true (unlocked.symm.trans lock))]
      have alone : Ordered mid (.fileExists s.processes.length) := by
        intro _ member
        cases List.mem_append.mp member with
        | inl old => exact waiting old
        | inr new => cases List.mem_singleton.mp new
      have staged : ∀ p', (mid.enter s.processes.length .checked).stage p' = if p' = s.processes.length then .checked else mid.stage p' :=
        State.stage_enter (by simp [fresh])
      have here : (mid.enter s.processes.length .checked).stage p = .mounted := by
        rw [staged, if_neg (Nat.ne_of_lt inside), State.stage_append, if_neg (Nat.ne_of_lt inside), mounted]
      have there : (mid.enter s.processes.length .checked).stage s.processes.length = .checked := by
        rw [staged, if_pos rfl]
      obtain ⟨more, t, ordered, ran, twice⟩ := mounts_two (Nat.ne_of_lt inside) (.inr here) (.inl there)
      exists .main :: .fileExists s.processes.length :: more, t
      apply And.intro
      · exact orderedRun_cons (s := s) (t := mid) trivial rfl (orderedRun_cons alone entered ordered)
      · exact And.intro ((run_cons (s := s) (t := mid) rfl).trans ((run_cons entered).trans ran)) twice

theorem State.Safe.exclusive (safe : s.Safe) : s.Exclusive := fun p p' here there => safe.single p p' (.inr here) (.inr there)

theorem safe_start : start.Safe where
  single p _ past _ := absurd rfl past.ne_gone
  locked p mounted := by cases mounted
  unlocked _ _ := rfl

/-- The steps that must not come out of order are exactly those of `Ordered`: after any
other one there is a way on, in order, to two processes that work on the directory. -/
theorem exclusive_iff {steps : List Step} (ran : run step steps start = some s) :
    OrderedRun step Ordered steps start ↔ ∀ first later more t u, steps = first ++ later → run step first start = some t →
      OrderedRun step Ordered more t → run step more t = some u → u.Exclusive := by
  have safe := safe_start
  generalize start = begin at ran safe ⊢
  induction steps generalizing begin with
  | nil =>
    apply iff_of_true trivial
    intro first later more t u split before ordered after
    obtain ⟨rfl, rfl⟩ := List.append_eq_nil_iff.mp split.symm
    cases before
    exact (invariant_run step_keeps safe ordered after).exclusive
  | cons next steps ih =>
    obtain ⟨mid, stepped, rest⟩ := Option.bind_eq_some_iff.mp ran
    constructor
    · intro ordered first later more t u split before onward after
      cases first with
      | nil =>
        cases before
        exact (invariant_run step_keeps safe onward after).exclusive
      | cons _ first =>
        cases split
        rw [OrderedRun, stepped] at ordered
        rw [run_cons stepped] at before
        exact (ih mid rest (step_keeps safe ordered.1 stepped)).mp ordered.2 first later more t u rfl before onward after
    · intro exclusive
      by_cases here : Ordered begin next
      · apply orderedRun_cons here stepped
        apply (ih mid rest (step_keeps safe here stepped)).mpr
        intro first later more t u split before
        exact exclusive (next :: first) later more t u (congrArg (List.cons next) split) ((run_cons stepped).trans before)
      · obtain ⟨more, u, onward, after, twice⟩ := (step_opens safe here stepped).mounts_both
        exact absurd (exclusive [next] steps more mid u rfl (run_cons stepped) onward after) twice

end Exclusion

/-- A process that comes to an end before it has looked for the lock takes it away: the
next one mounts beside the first one. -/
theorem exclusive_iff_early : (∃ s, run step [.main, .fileExists 0, .putSystemString 0 true, .main, .stopAllServices 1] start = some s ∧
      s.lock = false) ∧
    ¬∀ first later more t u, [Step.main, .fileExists 0, .putSystemString 0 true, .main, .stopAllServices 1] = first ++ later →
      run step first start = some t → OrderedRun step Ordered more t → run step more t = some u → u.Exclusive := by
  apply And.intro ⟨⟨false, [.mounted, .gone]⟩, by decide, rfl⟩
  have ran : run step [.main, .fileExists 0, .putSystemString 0 true, .main, .stopAllServices 1] start = some ⟨false, [.mounted, .gone]⟩ := by decide
  exact fun excludes => absurd ((exclusive_iff ran).mpr excludes) (by decide)

end CloudCryptFS.Filesystem.MountLock
