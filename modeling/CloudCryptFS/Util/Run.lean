import Mathlib.Order.Defs.Unbundled

/-! Runs over a state that can end early: the program aborts on a failed assertion,
and no operation goes on after that. -/

namespace CloudCryptFS.Util

abbrev Run (σ α : Type) := StateT σ Option α

namespace Run
variable {σ α β : Type}

def abort : Run σ α := fun _ => none

/-- `_ASSERT`. -/
def assert (condition : Prop) [Decidable condition] : Run σ Unit :=
  fun s => if condition then some ((), s) else none

@[simp]
theorem pure_apply (a : α) (s : σ) : (pure a : Run σ α) s = some (a, s) := rfl

@[simp]
theorem abort_apply (s : σ) : (abort : Run σ α) s = none := rfl

@[simp]
theorem get_apply (s : σ) : (get : Run σ σ) s = some (s, s) := rfl

@[simp]
theorem set_apply (s s' : σ) : (set s' : Run σ PUnit) s = some (⟨⟩, s') := rfl

@[simp]
theorem modify_apply (f : σ → σ) (s : σ) : (modify f : Run σ PUnit) s = some (⟨⟩, f s) := rfl

theorem bind_apply (run : Run σ α) (next : α → Run σ β) (s : σ) :
    (run >>= next) s = (run s).bind (fun result => next result.1 result.2) := by
  cases shape : run s <;> simp [bind, StateT.bind, shape]

@[simp]
theorem assert_apply (condition : Prop) [Decidable condition] (s : σ) :
    (assert condition : Run σ Unit) s = if condition then some ((), s) else none := rfl

theorem bind_of_some {run : Run σ α} {next : α → Run σ β} {s t : σ} {a : α} (ran : run s = some (a, t)) :
    (run >>= next) s = next a t := by
  simp [bind_apply, ran]

/-- What a run of two parts was made of. -/
theorem bind_eq_some {run : Run σ α} {next : α → Run σ β} {s s' : σ} {b : β} :
    (run >>= next) s = some (b, s') ↔ ∃ a mid, run s = some (a, mid) ∧ next a mid = some (b, s') := by
  rw [bind_apply]
  cases shape : run s with
  | none => simp
  | some result =>
    obtain ⟨a, mid⟩ := result
    simp only [Option.bind_some, Option.some.injEq, Prod.mk.injEq]
    constructor
    · exact fun done => ⟨a, mid, ⟨rfl, rfl⟩, done⟩
    · rintro ⟨_, _, ⟨rfl, rfl⟩, done⟩
      exact done

theorem assert_eq_some {condition : Prop} [Decidable condition] {s s' : σ} :
    (assert condition : Run σ Unit) s = some ((), s') ↔ condition ∧ s = s' := by
  by_cases holds : condition <;> simp [holds]

/-- Wherever the run gets to stands in a relation to where it began. -/
def Within (R : σ → σ → Prop) (run : Run σ α) : Prop := ∀ s a t, run s = some (a, t) → R s t

/-- The relation in which an invariant goes on to hold. -/
def Keeping (I : σ → Prop) (s t : σ) : Prop := I s → I t

instance (I : σ → Prop) : IsPreorder σ (Keeping I) where
  refl _ := id
  trans _ _ _ first second := second ∘ first

section Within
variable {R : σ → σ → Prop}

theorem Within.mono {R' : σ → σ → Prop} {run : Run σ α} (weaker : ∀ s t, R s t → R' s t) (within : Within R run) : Within R' run :=
  fun s a t ran => weaker s t (within s a t ran)

theorem Within.abort : Within R (abort : Run σ α) := by
  intro s a t ran
  cases ran

theorem Within.modify {f : σ → σ} (related : ∀ s, R s (f s)) : Within R (modify f : Run σ PUnit) := by
  intro s a t ran
  cases ran
  exact related s

/-- The second part may rely on the state that it begins in. -/
theorem Within.get_bind {next : σ → Run σ β} (second : ∀ s b t, next s s = some (b, t) → R s t) : Within R (MonadState.get >>= next) :=
  fun s b t ran => second s b t ran

variable [IsPreorder σ R]

theorem Within.pure (a : α) : Within R (Pure.pure a : Run σ α) := by
  intro s b t ran
  cases ran
  exact refl_of R s

theorem Within.assert (condition : Prop) [Decidable condition] : Within R (assert condition : Run σ Unit) := by
  intro s b t ran
  obtain ⟨_, rfl⟩ := assert_eq_some.mp ran
  exact refl_of R s

theorem Within.bind {run : Run σ α} {next : α → Run σ β} (first : Within R run) (second : ∀ a, Within R (next a)) : Within R (run >>= next) := by
  intro s b t ran
  obtain ⟨a, mid, before, after⟩ := bind_eq_some.mp ran
  exact trans_of R (first s a mid before) (second a mid b t after)

theorem Within.forM {list : List α} {body : α → Run σ PUnit} (each : ∀ a, Within R (body a)) : Within R (list.forM body) := by
  induction list with
  | nil => exact Within.pure _
  | cons a list ih => exact Within.bind (each a) (fun _ => ih)

end Within

end Run
end CloudCryptFS.Util
