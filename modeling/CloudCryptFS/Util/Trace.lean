import Mathlib.Init

/-! Runs with what a caller sees of them. Each step has a label, which tells what was
asked and what was answered, and the labels of a run are its trace. One system simulates
another when all of its traces are traces of the other one. -/

namespace CloudCryptFS.Util

variable {σ τ α : Type*}

inductive Trace (step : σ → α → σ → Prop) : List α → σ → σ → Prop where
  | nil (s : σ) : Trace step [] s s
  | cons {a : α} {labels : List α} {s t u : σ} : step s a t → Trace step labels t u → Trace step (a :: labels) s u

variable {step : σ → α → σ → Prop} {labels : List α} {s s' : σ}

/-- Steps that another system can follow, while an invariant holds, are runs that it can follow. -/
theorem Trace.simulates {step' : τ → α → τ → Prop} {I : σ → Prop} (view : σ → τ) (keeps : ∀ {s a t}, I s → step s a t → I t)
    (follows : ∀ {s a t}, I s → step s a t → step' (view s) a (view t)) (trace : Trace step labels s s') (start : I s) :
    Trace step' labels (view s) (view s') := by
  induction trace with
  | nil s => exact Trace.nil (view s)
  | cons first _ ih => exact Trace.cons (follows start first) (ih (keeps start first))

end CloudCryptFS.Util
