import Mathlib.Algebra.GroupWithZero.Nat
import Mathlib.Algebra.Order.BigOperators.Group.List
import CloudCryptFS.Util.Schedule

/-! The thread that stores the file system in the background. A call that has changed
something asks for a store; one is under way already while `outstandingWrites` is held,
and the thread that is to make it sleeps before it begins. -/

namespace CloudCryptFS.Filesystem.Background
open Util Schedule

/-- The call of `unloadBuckets` that got the lock. -/
inductive Spawner where
  | idle
  | locked
  | started
  deriving DecidableEq

/-- Where a writer thread stands; a store covers the changes that were made when it began. -/
inductive Writer where
  | waiting
  | sleeping
  | ready
  | storing (seen : Nat)
  | finished
  deriving DecidableEq

namespace Writer

/-- The store is still to begin. -/
def pending : Writer → Bool
  | waiting | sleeping | ready => true
  | _ => false

def isStoring : Writer → Bool
  | storing _ => true
  | _ => false

/-- The steps that a writer still takes. -/
def rank : Writer → Nat
  | waiting => 4
  | sleeping => 3
  | ready => 2
  | storing _ => 1
  | finished => 0

end Writer

/-- The changes are counted. Calls have asked for a store of those up to `requested`, and a store
that began after those up to `served` has ended, whether it wrote all of them or gave up. -/
structure State where
  changes : Nat
  requested : Nat
  served : Nat
  outstandingWrites : Bool
  actualWriting : Bool
  spawner : Spawner
  writers : List Writer

inductive Step where
  | change
  | unloadBuckets
  | spawn
  | unlock
  | writer (i : Nat)

/-- One step of the writer thread that `unloadBuckets` starts. -/
def writerStep (i : Nat) (s : State) : Writer → Option State
  | .waiting => if s.outstandingWrites then none else some { s with outstandingWrites := true, writers := s.writers.set i .sleeping }
  | .sleeping => some { s with outstandingWrites := false, writers := s.writers.set i .ready }
  | .ready => if s.actualWriting then none else some { s with actualWriting := true, writers := s.writers.set i (.storing s.changes) }
  | .storing seen => some { s with actualWriting := false, served := max s.served seen, writers := s.writers.set i .finished }
  | .finished => none

def step : Step → State → Option State
  | .change, s => some { s with changes := s.changes + 1 }
  | .unloadBuckets, s =>
    if s.outstandingWrites then some { s with requested := s.changes }
    else some { s with requested := s.changes, outstandingWrites := true, spawner := .locked }
  | .spawn, s => if s.spawner = .locked then some { s with spawner := .started, writers := s.writers ++ [.waiting] } else none
  | .unlock, s => if s.spawner = .started then some { s with spawner := .idle, outstandingWrites := false } else none
  | .writer i, s => (s.writers[i]?).bind (writerStep i s)

def start : State := ⟨0, 0, 0, false, false, .idle, []⟩

/-- No thread is at work. -/
def Quiet (s : State) : Prop := s.spawner = .idle ∧ ∀ w ∈ s.writers, w = .finished

/-- A step that no new call makes. -/
def Internal : Step → Prop
  | .change => False
  | .unloadBuckets => False
  | _ => True

def holding (s : State) : Nat := (if s.spawner = .idle then 0 else 1) + s.writers.count .sleeping

structure Inv (s : State) : Prop where
  outstanding : holding s = if s.outstandingWrites then 1 else 0
  actual : s.writers.countP Writer.isStoring = if s.actualWriting then 1 else 0
  bounded : s.requested ≤ s.changes
  started : s.spawner = .started → .waiting ∈ s.writers
  covered : s.requested ≤ s.served ∨ (∃ seen, .storing seen ∈ s.writers ∧ s.requested ≤ seen) ∨ (∃ w ∈ s.writers, w.pending) ∨
    s.spawner = .locked

/-- The writer at an index, and the list when it has moved on. -/
theorem exists_split {writers : List Writer} {i : Nat} {w : Writer} (here : writers[i]? = some w) :
    ∃ before after, writers = before ++ w :: after ∧ ∀ w', writers.set i w' = before ++ w' :: after := by
  obtain ⟨inside, rfl⟩ := List.getElem?_eq_some_iff.mp here
  refine ⟨writers.take i, writers.drop (i + 1), ?_, fun w' => ?_⟩
  · rw [List.getElem_cons_drop, List.take_append_drop]
  · exact List.set_eq_take_append_cons_drop.trans (if_pos inside)

/-- What one step of a writer does. -/
theorem writer_cases {s t : State} {i : Nat} (stepped : step (.writer i) s = some t) : ∃ before after,
    (s.writers = before ++ .waiting :: after ∧ s.outstandingWrites = false ∧
      t = { s with outstandingWrites := true, writers := before ++ .sleeping :: after }) ∨
    (s.writers = before ++ .sleeping :: after ∧ t = { s with outstandingWrites := false, writers := before ++ .ready :: after }) ∨
    (s.writers = before ++ .ready :: after ∧ s.actualWriting = false ∧
      t = { s with actualWriting := true, writers := before ++ .storing s.changes :: after }) ∨
    ∃ seen, s.writers = before ++ .storing seen :: after ∧
      t = { s with actualWriting := false, served := max s.served seen, writers := before ++ .finished :: after } := by
  obtain ⟨w, here, moved⟩ := Option.bind_eq_some_iff.mp stepped
  obtain ⟨before, after, whole, set⟩ := exists_split here
  refine ⟨before, after, ?_⟩
  cases w with
  | waiting =>
    simp only [writerStep, set, Option.ite_none_left_eq_some, Option.some.injEq, Bool.not_eq_true] at moved
    exact Or.inl ⟨whole, moved.1, moved.2.symm⟩
  | sleeping =>
    simp only [writerStep, set, Option.some.injEq] at moved
    exact Or.inr (Or.inl ⟨whole, moved.symm⟩)
  | ready =>
    simp only [writerStep, set, Option.ite_none_left_eq_some, Option.some.injEq, Bool.not_eq_true] at moved
    exact Or.inr (Or.inr (Or.inl ⟨whole, moved.1, moved.2.symm⟩))
  | storing seen =>
    simp only [writerStep, set, Option.some.injEq] at moved
    exact Or.inr (Or.inr (Or.inr ⟨seen, whole, moved.symm⟩))
  | finished => cases moved

theorem spawn_cases {s t : State} (stepped : step .spawn s = some t) :
    s.spawner = .locked ∧ t = { s with spawner := .started, writers := s.writers ++ [.waiting] } := by
  obtain ⟨locked, made⟩ := Option.ite_none_right_eq_some.mp stepped
  exact ⟨locked, (Option.some.inj made).symm⟩

theorem unlock_cases {s t : State} (stepped : step .unlock s = some t) :
    s.spawner = .started ∧ t = { s with spawner := .idle, outstandingWrites := false } := by
  obtain ⟨started, made⟩ := Option.ite_none_right_eq_some.mp stepped
  exact ⟨started, (Option.some.inj made).symm⟩

theorem unloadBuckets_cases {s t : State} (stepped : step .unloadBuckets s = some t) :
    (s.outstandingWrites = true ∧ t = { s with requested := s.changes }) ∨
      (s.outstandingWrites = false ∧ t = { s with requested := s.changes, outstandingWrites := true, spawner := .locked }) := by
  cases held : s.outstandingWrites with
  | true =>
    simp only [step, held, if_true, Option.some.injEq] at stepped
    exact Or.inl ⟨rfl, stepped.symm⟩
  | false =>
    simp only [step, held, Bool.false_eq_true, if_false, Option.some.injEq] at stepped
    exact Or.inr ⟨rfl, stepped.symm⟩

def Spawner.rank : Spawner → Nat
  | idle => 0
  | locked => 6
  | started => 1

/-- The steps that are left without new calls. -/
def rank (s : State) : Nat := s.spawner.rank + (s.writers.map Writer.rank).sum

theorem step_rank {s t : State} {next : Step} (internal : Internal next) (stepped : step next s = some t) : rank t < rank s := by
  cases next with
  | change => cases internal
  | unloadBuckets => cases internal
  | spawn =>
    obtain ⟨locked, rfl⟩ := spawn_cases stepped
    simp only [rank, locked, Spawner.rank, List.map_append, List.sum_append, List.map_cons, List.map_nil, List.sum_cons, List.sum_nil,
      Writer.rank]
    omega
  | unlock =>
    obtain ⟨started, rfl⟩ := unlock_cases stepped
    simp only [rank, started, Spawner.rank]
    omega
  | writer i =>
    obtain ⟨before, after, ⟨whole, _, rfl⟩ | ⟨whole, rfl⟩ | ⟨whole, _, rfl⟩ | ⟨seen, whole, rfl⟩⟩ := writer_cases stepped
    all_goals
      simp only [rank, whole, List.map_append, List.map_cons, List.sum_append, List.sum_cons, Writer.rank]
      omega

/-- The other writers stay where they are. -/
theorem mem_replace {before after : List Writer} {w w' v : Writer} (member : v ∈ before ++ w :: after) (other : v ≠ w) :
    v ∈ before ++ w' :: after := by
  rcases List.mem_append.mp member with first | rest
  · exact List.mem_append_left _ first
  · rcases List.mem_cons.mp rest with same | later
    · exact absurd same other
    · exact List.mem_append_right _ (List.mem_cons_of_mem _ later)

theorem mem_middle {before after : List Writer} (w : Writer) : w ∈ before ++ w :: after :=
  List.mem_append_right _ List.mem_cons_self

/-- Whoever holds the lock is on the way to a store that is still to begin. -/
theorem Inv.coming {s : State} (inv : Inv s) (held : s.outstandingWrites = true) : (∃ w ∈ s.writers, w.pending) ∨ s.spawner = .locked := by
  cases where_ : s.spawner with
  | locked => exact Or.inr rfl
  | started => exact Or.inl ⟨.waiting, inv.started where_, rfl⟩
  | idle =>
    have count := inv.outstanding
    rw [holding, where_, held] at count
    have sleeper : 0 < s.writers.count .sleeping := by
      simp only [if_true] at count
      omega
    exact Or.inl ⟨.sleeping, List.count_pos_iff.mp sleeper, rfl⟩

theorem unloadBuckets_inv {s t : State} (inv : Inv s) (stepped : step .unloadBuckets s = some t) : Inv t := by
  cases unloadBuckets_cases stepped with
  | inl taken =>
    obtain ⟨held, rfl⟩ := taken
    exact ⟨inv.outstanding, inv.actual, Nat.le_refl _, inv.started, Or.inr (Or.inr (inv.coming held))⟩
  | inr taken =>
    obtain ⟨free, rfl⟩ := taken
    have outstanding := inv.outstanding
    rw [holding, free] at outstanding
    refine ⟨?_, inv.actual, Nat.le_refl _, ?_, Or.inr (Or.inr (Or.inr rfl))⟩
    · simp only [holding, reduceCtorEq, if_false, if_true] at outstanding ⊢
      omega
    · intro impossible
      cases impossible

theorem spawn_inv {s t : State} (inv : Inv s) (stepped : step .spawn s = some t) : Inv t := by
  obtain ⟨locked, rfl⟩ := spawn_cases stepped
  have outstanding := inv.outstanding
  have actual := inv.actual
  have member : Writer.waiting ∈ s.writers ++ [.waiting] := List.mem_append_right _ List.mem_cons_self
  rw [holding, locked] at outstanding
  refine ⟨?_, ?_, inv.bounded, fun _ => member, Or.inr (Or.inr (Or.inl ⟨.waiting, member, rfl⟩))⟩
  · simpa [holding] using outstanding
  · simpa [Writer.isStoring] using actual

theorem unlock_inv {s t : State} (inv : Inv s) (stepped : step .unlock s = some t) : Inv t := by
  obtain ⟨here, rfl⟩ := unlock_cases stepped
  have outstanding := inv.outstanding
  rw [holding, here] at outstanding
  refine ⟨?_, inv.actual, inv.bounded, ?_, ?_⟩
  · simp only [holding, reduceCtorEq, if_false, if_true] at outstanding ⊢
    split at outstanding <;> omega
  · intro impossible
    cases impossible
  · rcases inv.covered with served | storing | pending | locked
    · exact Or.inl served
    · exact Or.inr (Or.inl storing)
    · exact Or.inr (Or.inr (Or.inl pending))
    · rw [here] at locked
      cases locked

section Writers
variable {s : State} {before after : List Writer}

/-- A writer that stays on the way to its store while the spawner is idle keeps every request covered. -/
theorem covered_pending (inv : Inv s) {w w' : Writer} (whole : s.writers = before ++ w :: after) (idle : s.spawner = .idle)
    (early : w.isStoring = false) (pending : w'.pending = true) : s.requested ≤ s.served ∨
      (∃ seen, .storing seen ∈ before ++ w' :: after ∧ s.requested ≤ seen) ∨ (∃ w ∈ before ++ w' :: after, w.pending) ∨
      s.spawner = .locked := by
  have covered := inv.covered
  rw [whole] at covered
  rcases covered with served | ⟨seen, storing, enough⟩ | _ | locked
  · exact Or.inl served
  · have other : Writer.storing seen ≠ w := by
      intro same
      rw [← same] at early
      cases early
    exact Or.inr (Or.inl ⟨seen, mem_replace storing other, enough⟩)
  · exact Or.inr (Or.inr (Or.inl ⟨w', mem_middle _, pending⟩))
  · cases idle.symm.trans locked

/-- A writer takes `outstandingWrites`, and sleeps. -/
theorem waiting_inv (inv : Inv s) (whole : s.writers = before ++ .waiting :: after) (free : s.outstandingWrites = false) :
    Inv { s with outstandingWrites := true, writers := before ++ .sleeping :: after } := by
  have outstanding := inv.outstanding
  have actual := inv.actual
  rw [holding, whole, free] at outstanding
  rw [whole] at actual
  have idle : s.spawner = .idle := by
    by_contra busy
    rw [if_neg busy] at outstanding
    simp at outstanding
  refine ⟨?_, ?_, inv.bounded, ?_, covered_pending inv whole idle rfl rfl⟩
  · simp only [holding, idle, if_true, List.count_append, List.count_cons, reduceCtorEq, beq_iff_eq, if_false, Bool.false_eq_true] at outstanding ⊢
    omega
  · simpa [List.countP_append, List.countP_cons, Writer.isStoring] using actual
  · intro impossible
    cases idle.symm.trans impossible

/-- A writer has slept, and lets go of `outstandingWrites`. -/
theorem sleeping_inv (inv : Inv s) (whole : s.writers = before ++ .sleeping :: after) :
    Inv { s with outstandingWrites := false, writers := before ++ .ready :: after } := by
  have outstanding := inv.outstanding
  have actual := inv.actual
  rw [holding, whole] at outstanding
  rw [whole] at actual
  have held : s.outstandingWrites = true ∧ s.spawner = .idle ∧ (before ++ after).count .sleeping = 0 := by
    simp only [List.count_append, List.count_cons, beq_self_eq_true, if_true] at outstanding ⊢
    by_cases idle : s.spawner = .idle <;> cases flag : s.outstandingWrites <;> simp [idle, flag] at outstanding ⊢
    omega
  refine ⟨?_, ?_, inv.bounded, ?_, covered_pending inv whole held.2.1 rfl rfl⟩
  · have none := held.2.2
    simp only [holding, held.2.1, if_true, List.count_append, List.count_cons, reduceCtorEq, beq_iff_eq, if_false, Bool.false_eq_true] at none ⊢
    omega
  · simpa [List.countP_append, List.countP_cons, Writer.isStoring] using actual
  · intro impossible
    cases held.2.1.symm.trans impossible

/-- A writer begins to store, with all that was changed until then. -/
theorem ready_inv (inv : Inv s) (whole : s.writers = before ++ .ready :: after) (free : s.actualWriting = false) :
    Inv { s with actualWriting := true, writers := before ++ .storing s.changes :: after } := by
  have outstanding := inv.outstanding
  have actual := inv.actual
  have started := inv.started
  rw [whole, free] at actual
  rw [holding, whole] at outstanding
  rw [whole] at started
  refine ⟨?_, ?_, inv.bounded, fun here => mem_replace (started here) (by simp),
    Or.inr (Or.inl ⟨s.changes, mem_middle _, inv.bounded⟩)⟩
  · simpa [holding, List.count_cons] using outstanding
  · simp only [List.countP_append, List.countP_cons, Writer.isStoring, Bool.false_eq_true, if_false, if_true] at actual ⊢
    omega

/-- The store of a writer ends. -/
theorem storing_inv (inv : Inv s) {seen : Nat} (whole : s.writers = before ++ .storing seen :: after) :
    Inv { s with actualWriting := false, served := max s.served seen, writers := before ++ .finished :: after } := by
  have outstanding := inv.outstanding
  have actual := inv.actual
  have started := inv.started
  have covered := inv.covered
  rw [whole] at actual started covered
  rw [holding, whole] at outstanding
  refine ⟨?_, ?_, inv.bounded, fun here => mem_replace (started here) (by simp), ?_⟩
  · simpa [holding, List.count_cons] using outstanding
  · simp only [List.countP_append, List.countP_cons, Writer.isStoring, Bool.false_eq_true, if_false, if_true] at actual ⊢
    split at actual <;> omega
  · rcases covered with served | ⟨seen', storing, enough⟩ | ⟨w, member, pending⟩ | locked
    · exact Or.inl (Nat.le_trans served (Nat.le_max_left _ _))
    · by_cases same : seen' = seen
      · rw [same] at enough
        exact Or.inl (Nat.le_trans enough (Nat.le_max_right _ _))
      · exact Or.inr (Or.inl ⟨seen', mem_replace storing (by simpa using same), enough⟩)
    · refine Or.inr (Or.inr (Or.inl ⟨w, mem_replace member ?_, pending⟩))
      intro same
      rw [same] at pending
      cases pending
    · exact Or.inr (Or.inr (Or.inr locked))

end Writers

theorem step_inv {s t : State} {next : Step} (inv : Inv s) (stepped : step next s = some t) : Inv t := by
  cases next with
  | change =>
    cases stepped
    exact ⟨inv.outstanding, inv.actual, Nat.le_succ_of_le inv.bounded, inv.started, inv.covered⟩
  | unloadBuckets => exact unloadBuckets_inv inv stepped
  | spawn => exact spawn_inv inv stepped
  | unlock => exact unlock_inv inv stepped
  | writer i =>
    obtain ⟨before, after, ⟨whole, free, rfl⟩ | ⟨whole, rfl⟩ | ⟨whole, free, rfl⟩ | ⟨seen, whole, rfl⟩⟩ := writer_cases stepped
    · exact waiting_inv inv whole free
    · exact sleeping_inv inv whole
    · exact ready_inv inv whole free
    · exact storing_inv inv whole

theorem start_inv : Inv start where
  outstanding := rfl
  actual := rfl
  bounded := Nat.le_refl _
  started := fun impossible => by cases impossible
  covered := Or.inl (Nat.le_refl _)

theorem run_inv {steps : List Step} {s t : State} (inv : Inv s) (ran : run step steps s = some t) : Inv t :=
  invariant_run (fun inv _ stepped => step_inv inv stepped) inv (orderedRun_of_forall (fun _ _ _ => trivial)) ran

theorem exists_writer_step {s : State} {w : Writer} (member : w ∈ s.writers) {t : Nat → State} (moves : ∀ i, writerStep i s w = some (t i)) :
    ∃ next t, Internal next ∧ step next s = some t := by
  obtain ⟨i, here⟩ := List.getElem?_of_mem member
  refine ⟨.writer i, t i, trivial, ?_⟩
  rw [step, here, Option.bind_some, moves i]

/-- Some thread can go on unless all are done. -/
theorem exists_step {s : State} (inv : Inv s) (busy : ¬Quiet s) : ∃ next t, Internal next ∧ step next s = some t := by
  cases where_ : s.spawner with
  | locked => exact ⟨.spawn, _, trivial, if_pos where_⟩
  | started => exact ⟨.unlock, _, trivial, if_pos where_⟩
  | idle =>
    by_cases store : ∃ seen, .storing seen ∈ s.writers
    · obtain ⟨seen, member⟩ := store
      exact exists_writer_step member (fun _ => rfl)
    · by_cases sleeper : .sleeping ∈ s.writers
      · exact exists_writer_step sleeper (fun _ => rfl)
      · -- with no thread inside them both locks are free
        have free : s.outstandingWrites = false := by
          have count := inv.outstanding
          rw [holding, where_, if_pos rfl, List.count_eq_zero.mpr sleeper] at count
          cases flag : s.outstandingWrites with
          | false => rfl
          | true =>
            rw [flag] at count
            cases count
        have free' : s.actualWriting = false := by
          have count := inv.actual
          have none : s.writers.countP Writer.isStoring = 0 := by
            apply List.countP_eq_zero.mpr
            intro w member storing
            cases w with
            | storing seen => exact store ⟨seen, member⟩
            | _ => cases storing
          rw [none] at count
          cases flag : s.actualWriting with
          | false => rfl
          | true =>
            rw [flag] at count
            cases count
        have left : ∃ w ∈ s.writers, w ≠ .finished := by
          by_contra done
          exact busy ⟨where_, fun w member => by_contra fun other => done ⟨w, member, other⟩⟩
        obtain ⟨w, member, other⟩ := left
        cases w with
        | waiting => exact exists_writer_step member (fun _ => if_neg (by rw [free]; decide))
        | sleeping => exact absurd member sleeper
        | ready => exact exists_writer_step member (fun _ => if_neg (by rw [free']; decide))
        | storing seen => exact absurd ⟨seen, member⟩ store
        | finished => exact absurd rfl other

/-- In every run at most one store is under way. When the threads are done a store has ended that began after every change that
one was asked for, and they get there by themselves: there is always a step until then, and no run of them is longer than `rank`. -/
theorem store_follows {steps : List Step} {s : State} (ran : run step steps start = some s) :
    s.writers.countP Writer.isStoring ≤ 1 ∧ (Quiet s → s.requested ≤ s.served) ∧
      (¬Quiet s → ∃ next t, Internal next ∧ step next s = some t) ∧
      ∀ later t, (∀ next ∈ later, Internal next) → run step later s = some t → later.length ≤ rank s := by
  have inv := run_inv start_inv ran
  refine ⟨?_, fun quiet => ?_, exists_step inv, fun later t internal ran' => ?_⟩
  · rw [inv.actual]
    split <;> decide
  · rcases inv.covered with served | ⟨seen, storing, _⟩ | ⟨w, member, pending⟩ | locked
    · exact served
    · cases quiet.2 _ storing
    · rw [quiet.2 w member] at pending
      cases pending
    · cases quiet.1.symm.trans locked
  · have decreases : ∀ {s t : State} {next : Step}, Inv s → Internal next → step next s = some t → rank t < rank s :=
      fun _ internal stepped => step_rank internal stepped
    have bound := @length_add_le _ _ step _ _ Inv Internal rank step_inv decreases _ inv internal ran'
    omega

/-- A store is asked for after one change, and again after a second before it begins; the first thread serves both. -/
theorem store_follows_both : ∃ s, run step [.change, .unloadBuckets, .spawn, .unlock, .writer 0, .change, .unloadBuckets, .writer 0,
    .writer 0, .writer 0] start = some s ∧ s.requested = 2 ∧ s.requested ≤ s.served := by
  have ran : run step [.change, .unloadBuckets, .spawn, .unlock, .writer 0, .change, .unloadBuckets, .writer 0, .writer 0, .writer 0] start =
      some ⟨2, 2, 2, false, false, .idle, [.finished]⟩ := rfl
  exact ⟨_, ran, rfl, (store_follows ran).2.1 ⟨rfl, fun w member => List.mem_singleton.mp member⟩⟩

end CloudCryptFS.Filesystem.Background
