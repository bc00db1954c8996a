import CloudCryptFS.Util.Run

/-! Runs that can throw. The state that was reached stays when an exception is thrown, unlike
when the program aborts. -/

namespace CloudCryptFS.Util

/-- A run whose result is `none` when it threw. -/
abbrev Tried (σ α : Type) := OptionT (Run σ) α

namespace Tried
variable {σ α β : Type} {s t : σ}

def throw : Tried σ α := OptionT.mk (pure none)

@[simp]
theorem run_throw (s : σ) : (throw : Tried σ α).run s = some (none, s) := rfl

@[simp]
theorem run_pure (a : α) (s : σ) : (pure a : Tried σ α).run s = some (some a, s) := rfl

/-- A run that does not throw. -/
def lift (run : Run σ α) : Tried σ α := OptionT.mk (fun s => (run s).map (fun result => (some result.1, result.2)))

theorem run_lift {run : Run σ α} {r : Option α} : (lift run).run s = some (r, t) ↔ ∃ a, r = some a ∧ run s = some (a, t) := by
  constructor
  · intro ran
    obtain ⟨result, inner, shape⟩ := Option.map_eq_some_iff.mp ran
    cases shape
    exact ⟨result.1, rfl, inner⟩
  · rintro ⟨a, rfl, inner⟩
    exact Option.map_eq_some_iff.mpr ⟨(a, t), inner, rfl⟩

/-- Something is put right before an exception goes on. -/
def cleanUp (run : Tried σ α) (after : Run σ Unit) : Tried σ α := OptionT.mk (do
  let result ← run.run
  match result with
  | some a => pure (some a)
  | none => do
    after
    pure none)

theorem run_cleanUp {run : Tried σ α} {after : Run σ Unit} {r : Option α} : (cleanUp run after).run s = some (r, t) ↔
    (∃ a, r = some a ∧ run.run s = some (some a, t)) ∨ (r = none ∧ ∃ mid, run.run s = some (none, mid) ∧ after mid = some ((), t)) := by
  have shape : (cleanUp run after).run = run.run >>= fun result => match result with
      | some a => pure (some a)
      | none => after >>= fun _ => pure none := rfl
  rw [shape, Run.bind_eq_some]
  constructor
  · rintro ⟨result, mid, first, rest⟩
    cases result with
    | some a =>
      cases rest
      exact Or.inl ⟨a, rfl, first⟩
    | none =>
      obtain ⟨_, _, cleaned, rest⟩ := Run.bind_eq_some.mp rest
      cases rest
      exact Or.inr ⟨rfl, mid, first, cleaned⟩
  · rintro (⟨a, rfl, ran⟩ | ⟨rfl, mid, first, cleaned⟩)
    · exact ⟨some a, t, ran, rfl⟩
    · refine ⟨none, mid, first, ?_⟩
      dsimp only
      rw [Run.bind_of_some cleaned, Run.pure_apply]

theorem run_bind {run : Tried σ α} {next : α → Tried σ β} {r : Option β} : (run >>= next).run s = some (r, t) ↔
    (∃ a mid, run.run s = some (some a, mid) ∧ (next a).run mid = some (r, t)) ∨ (run.run s = some (none, t) ∧ r = none) := by
  have shape : (run >>= next).run = run.run >>= fun result => match result with
      | some a => (next a).run
      | none => pure none := rfl
  rw [shape, Run.bind_eq_some]
  constructor
  · rintro ⟨result, mid, first, rest⟩
    cases result with
    | some a => exact Or.inl ⟨a, mid, first, rest⟩
    | none =>
      cases rest
      exact Or.inr ⟨first, rfl⟩
  · rintro (⟨a, mid, first, rest⟩ | ⟨first, rfl⟩)
    · exact ⟨some a, mid, first, rest⟩
    · exact ⟨none, t, first, rfl⟩

/-- A run that returns is made of two that return. -/
theorem run_bind_some {run : Tried σ α} {next : α → Tried σ β} {b : β} : (run >>= next).run s = some (some b, t) ↔
    ∃ a mid, run.run s = some (some a, mid) ∧ (next a).run mid = some (some b, t) := by
  rw [run_bind]
  constructor
  · rintro (both | ⟨_, impossible⟩)
    · exact both
    · cases impossible
  · exact Or.inl

theorem run_lift_bind {run : Run σ α} {next : α → Tried σ β} {r : Option β} : (lift run >>= next).run s = some (r, t) ↔
    ∃ a mid, run s = some (a, mid) ∧ (next a).run mid = some (r, t) := by
  rw [run_bind]
  constructor
  · rintro (⟨a, mid, first, rest⟩ | ⟨first, _⟩)
    · obtain ⟨_, shape, ran⟩ := run_lift.mp first
      cases shape
      exact ⟨a, mid, ran, rest⟩
    · obtain ⟨_, shape, _⟩ := run_lift.mp first
      cases shape
  · rintro ⟨a, mid, first, rest⟩
    exact Or.inl ⟨a, mid, run_lift.mpr ⟨a, rfl, first⟩, rest⟩

/-- A run does what another one does that never throws, unless it throws. -/
structure Mirrors (run : Tried σ α) (plain : Run σ α) : Prop where
  returns : ∀ s a t, run.run s = some (some a, t) → plain s = some (a, t)
  follows : ∀ s a t, plain s = some (a, t) → run.run s = some (some a, t) ∨ ∃ u, run.run s = some (none, u)

namespace Mirrors

theorem lift (run : Run σ α) : Mirrors (Tried.lift run) run := by
  constructor
  · intro s a t ran
    obtain ⟨_, shape, inner⟩ := run_lift.mp ran
    cases shape
    exact inner
  · intro s a t ran
    exact Or.inl (run_lift.mpr ⟨a, rfl, ran⟩)

theorem pure (a : α) : Mirrors (Pure.pure a : Tried σ α) (Pure.pure a) := by
  constructor
  · intro s b t ran
    cases ran
    rfl
  · intro s b t ran
    cases ran
    exact Or.inl rfl

theorem throw (plain : Run σ α) : Mirrors (Tried.throw : Tried σ α) plain := by
  constructor
  · intro s a t ran
    cases ran
  · intro s a t _
    exact Or.inr ⟨s, rfl⟩

theorem cleanUp {run : Tried σ α} {plain : Run σ α} (mirrors : Mirrors run plain) {after : Run σ Unit} (total : ∀ s, ∃ t, after s = some ((), t)) :
    Mirrors (Tried.cleanUp run after) plain := by
  constructor
  · intro s a t ran
    cases run_cleanUp.mp ran with
    | inl returned =>
      obtain ⟨_, shape, inner⟩ := returned
      cases shape
      exact mirrors.returns s a t inner
    | inr thrown => cases thrown.1
  · intro s a t ran
    cases mirrors.follows s a t ran with
    | inl returned => exact Or.inl (run_cleanUp.mpr (Or.inl ⟨a, rfl, returned⟩))
    | inr thrown =>
      obtain ⟨mid, thrown⟩ := thrown
      obtain ⟨u, cleaned⟩ := total mid
      exact Or.inr ⟨u, run_cleanUp.mpr (Or.inr ⟨rfl, mid, thrown, cleaned⟩)⟩

theorem bind {run : Tried σ α} {plain : Run σ α} {next : α → Tried σ β} {later : α → Run σ β} (first : Mirrors run plain)
    (second : ∀ a, Mirrors (next a) (later a)) : Mirrors (run >>= next) (plain >>= later) := by
  constructor
  · intro s b t ran
    obtain ⟨a, mid, before, after⟩ := run_bind_some.mp ran
    rw [Run.bind_of_some (first.returns s a mid before)]
    exact (second a).returns mid b t after
  · intro s b t ran
    obtain ⟨a, mid, before, after⟩ := Run.bind_eq_some.mp ran
    cases first.follows s a mid before with
    | inl returned =>
      apply ((second a).follows mid b t after).imp
      · exact fun later => run_bind.mpr (Or.inl ⟨a, mid, returned, later⟩)
      · exact fun ⟨u, later⟩ => ⟨u, run_bind.mpr (Or.inl ⟨a, mid, returned, later⟩)⟩
    | inr thrown =>
      obtain ⟨u, thrown⟩ := thrown
      exact Or.inr ⟨u, run_bind.mpr (Or.inr ⟨thrown, rfl⟩)⟩

theorem forM {body : α → Tried σ PUnit} {plain : α → Run σ PUnit} (each : ∀ a, Mirrors (body a) (plain a)) (list : List α) :
    Mirrors (list.forM body) (list.forM plain) := by
  induction list with
  | nil => exact Mirrors.pure _
  | cons a list ih => exact Mirrors.bind (each a) (fun _ => ih)

end Mirrors

end Tried
end CloudCryptFS.Util
