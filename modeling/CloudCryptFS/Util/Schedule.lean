import Mathlib.Data.List.Basic
import Mathlib.Data.List.Nodup
import Mathlib.Data.List.Perm.Basic

/-! Schedules: the steps of several threads, one after the other. A step that is not
enabled ends the run. A condition on the steps of a schedule is asked for in the state
in which each of them is taken. -/

namespace CloudCryptFS.Util.Schedule
variable {σ ι : Type}

section Definitions
variable (step : ι → σ → Option σ) (Ordered : σ → ι → Prop)

def run : List ι → σ → Option σ
  | [], s => some s
  | next :: steps, s => (step next s).bind (run steps)

/-- Each step is taken in a state that allows it. -/
def OrderedRun : List ι → σ → Prop
  | [], _ => True
  | next :: steps, s =>
    Ordered s next ∧
      match step next s with
      | some t => OrderedRun steps t
      | none => True

instance [∀ s next, Decidable (Ordered s next)] : (steps : List ι) → (s : σ) → Decidable (OrderedRun step Ordered steps s)
  | [], _ => isTrue trivial
  | next :: steps, s =>
    match made : step next s with
    | some t =>
      have := instDecidableOrderedRun steps t
      decidable_of_iff (Ordered s next ∧ OrderedRun step Ordered steps t) (by rw [OrderedRun, made])
    | none => decidable_of_iff (Ordered s next) (by rw [OrderedRun, made, and_true])

end Definitions

variable {step : ι → σ → Option σ} {Ordered : σ → ι → Prop} {s t : σ}

theorem run_cons {next : ι} {steps : List ι} (stepped : step next s = some t) : run step (next :: steps) s = run step steps t := by
  rw [run, stepped, Option.bind_some]

theorem run_append {first later : List ι} (ran : run step first s = some t) : run step (first ++ later) s = run step later t := by
  induction first generalizing s with
  | nil =>
    cases ran
    rfl
  | cons next first ih =>
    obtain ⟨mid, stepped, rest⟩ := Option.bind_eq_some_iff.mp ran
    exact (run_cons stepped).trans (ih rest)

theorem run_append_bind (first later : List ι) (s : σ) : run step (first ++ later) s = (run step first s).bind (run step later) := by
  induction first generalizing s with
  | nil => rfl
  | cons next first ih =>
    rw [List.cons_append, run, run, Option.bind_assoc]
    congr 1
    funext t
    exact ih t

/-- The steps that come later are asked for in the state in which the first ones end. -/
theorem orderedRun_append {first later : List ι} (here : OrderedRun step Ordered first s)
    (rest : ∀ t, run step first s = some t → OrderedRun step Ordered later t) : OrderedRun step Ordered (first ++ later) s := by
  induction first generalizing s with
  | nil => exact rest s rfl
  | cons next first ih =>
    obtain ⟨now, after⟩ := here
    refine ⟨now, ?_⟩
    cases stepped : step next s with
    | none => trivial
    | some t =>
      rw [stepped] at after
      exact ih after (fun u ran => rest u ((run_cons stepped).trans ran))

theorem orderedRun_cons {next : ι} {steps : List ι} (here : Ordered s next) (stepped : step next s = some t)
    (later : OrderedRun step Ordered steps t) : OrderedRun step Ordered (next :: steps) s := by
  rw [OrderedRun, stepped]
  exact ⟨here, later⟩

/-- A condition that is asked for whenever another one holds. -/
theorem orderedRun_mono {Checked : σ → ι → Prop} (sound : ∀ s next, Checked s next → Ordered s next) {steps : List ι}
    (checked : OrderedRun step Checked steps s) : OrderedRun step Ordered steps s := by
  induction steps generalizing s with
  | nil => trivial
  | cons next steps ih =>
    obtain ⟨here, rest⟩ := checked
    refine ⟨sound s next here, ?_⟩
    split
    · rename_i t stepped
      rw [stepped] at rest
      exact ih rest
    · trivial

/-- Steps that every state allows. -/
theorem orderedRun_of_forall {steps : List ι} (free : ∀ next ∈ steps, ∀ s : σ, Ordered s next) : OrderedRun step Ordered steps s := by
  induction steps generalizing s with
  | nil => trivial
  | cons next steps ih =>
    refine ⟨free next List.mem_cons_self s, ?_⟩
    split
    · exact ih (fun later member => free later (List.mem_cons_of_mem next member))
    · trivial

/-- An ordered run asks for the condition at each step that is reached. -/
theorem orderedRun_iff {steps : List ι} : OrderedRun step Ordered steps s ↔
    ∀ first next later, steps = first ++ next :: later → ∀ t, run step first s = some t → Ordered t next := by
  induction steps generalizing s with
  | nil => exact iff_of_true trivial (fun first next later split => absurd split.symm (by simp))
  | cons head steps ih =>
    constructor
    · intro ordered first next later split t ran
      cases first with
      | nil =>
        cases split
        cases ran
        exact ordered.1
      | cons _ first =>
        obtain ⟨rfl, tail⟩ := List.cons.inj split
        obtain ⟨mid, made, ran⟩ := Option.bind_eq_some_iff.mp ran
        have rest := ordered.2
        rw [made] at rest
        exact ih.mp rest first next later tail t ran
    · intro asked
      refine ⟨asked [] head steps rfl s rfl, ?_⟩
      cases made : step head s with
      | none => trivial
      | some mid =>
        exact ih.mpr (fun first next later split t ran =>
          asked (head :: first) next later (by rw [split, List.cons_append]) t ((run_cons made).trans ran))

/-- What every ordered step keeps holds at the end of an ordered run. -/
theorem invariant_run {I : σ → Prop} (keeps : ∀ {s t : σ} {next : ι}, I s → Ordered s next → step next s = some t → I t)
    {steps : List ι} (inv : I s) (ordered : OrderedRun step Ordered steps s) (ran : run step steps s = some t) : I t := by
  induction steps generalizing s with
  | nil =>
    cases ran
    exact inv
  | cons next steps ih =>
    obtain ⟨mid, stepped, later⟩ := Option.bind_eq_some_iff.mp ran
    obtain ⟨here, rest⟩ := ordered
    rw [stepped] at rest
    exact ih (keeps inv here stepped) rest later

/-- Where the ordered steps keep a property, and only they do, it holds all along the
ordered runs, and only there. -/
theorem always_iff {I P : σ → Prop} (keeps : ∀ {s t : σ} {next : ι}, I s → step next s = some t → I t)
    (holds : ∀ {s t : σ} {next : ι}, I s → P s → Ordered s next → step next s = some t → P t)
    (breaks : ∀ {s : σ} {next : ι}, I s → P s → (∀ t, step next s = some t → P t) → Ordered s next)
    {steps : List ι} (inv : I s) (here : P s) :
    (∀ first later, steps = first ++ later → ∀ t, run step first s = some t → P t) ↔ OrderedRun step Ordered steps s := by
  induction steps generalizing s with
  | nil =>
    refine iff_of_true (fun first later split t ran => ?_) trivial
    obtain ⟨rfl, _⟩ := List.append_eq_nil_iff.mp split.symm
    cases ran
    exact here
  | cons next steps ih =>
    constructor
    · intro always
      have after : ∀ t, step next s = some t → P t := fun t made =>
        always [next] steps rfl t ((run_cons made).trans rfl)
      refine ⟨breaks inv here after, ?_⟩
      cases made : step next s with
      | none => trivial
      | some t =>
        exact (ih (keeps inv made) (after t made)).mp (fun first later split u ran =>
          always (next :: first) later (by rw [split, List.cons_append]) u ((run_cons made).trans ran))
    · intro ordered first later split t ran
      cases first with
      | nil =>
        cases ran
        exact here
      | cons head first =>
        obtain ⟨rfl, tail⟩ := List.cons.inj split
        obtain ⟨mid, made, ran⟩ := Option.bind_eq_some_iff.mp ran
        obtain ⟨now, rest⟩ := ordered
        rw [made] at rest
        exact (ih (keeps inv made) (holds inv here now made)).mpr rest first later tail t ran

/-- In a run that gets to its end the steps are asked about where they can be taken. -/
theorem always_iff_of_run {I P : σ → Prop} (keeps : ∀ {s t : σ} {next : ι}, I s → step next s = some t → I t)
    (holds : ∀ {s t : σ} {next : ι}, I s → P s → Ordered s next → step next s = some t → P t)
    (breaks : ∀ {s t : σ} {next : ι}, I s → P s → step next s = some t → P t → Ordered s next)
    {steps : List ι} (inv : I s) (here : P s) (ran : run step steps s = some t) :
    (∀ first later, steps = first ++ later → ∀ u, run step first s = some u → P u) ↔ OrderedRun step Ordered steps s := by
  induction steps generalizing s with
  | nil =>
    refine iff_of_true (fun first later split u done => ?_) trivial
    obtain ⟨rfl, _⟩ := List.append_eq_nil_iff.mp split.symm
    cases done
    exact here
  | cons next steps ih =>
    obtain ⟨mid, made, ran⟩ := Option.bind_eq_some_iff.mp ran
    constructor
    · intro always
      have after : P mid := always [next] steps rfl mid ((run_cons made).trans rfl)
      refine orderedRun_cons (breaks inv here made after) made ((ih (keeps inv made) after ran).mp ?_)
      exact fun first later split u done => always (next :: first) later (by rw [split, List.cons_append]) u ((run_cons made).trans done)
    · intro ordered first later split u done
      cases first with
      | nil =>
        cases done
        exact here
      | cons head first =>
        obtain ⟨rfl, tail⟩ := List.cons.inj split
        obtain ⟨now, rest⟩ := ordered
        rw [made] at rest
        exact (ih (keeps inv made) (holds inv here now made) ran).mpr rest first later tail u ((run_cons made).symm.trans done)

/-- A run is no longer than what its steps have to use up. -/
theorem length_add_le {I : σ → Prop} {Allowed : ι → Prop} {rank : σ → Nat} (keeps : ∀ {s t : σ} {next : ι}, I s → step next s = some t → I t)
    (decreases : ∀ {s t : σ} {next : ι}, I s → Allowed next → step next s = some t → rank t < rank s) {steps : List ι} (inv : I s)
    (allowed : ∀ next ∈ steps, Allowed next) (ran : run step steps s = some t) : steps.length + rank t ≤ rank s := by
  induction steps generalizing s with
  | nil =>
    cases ran
    simp
  | cons next steps ih =>
    obtain ⟨mid, stepped, later⟩ := Option.bind_eq_some_iff.mp ran
    have here := decreases inv (allowed next List.mem_cons_self) stepped
    have rest := ih (keeps inv stepped) (fun other member => allowed other (List.mem_cons_of_mem _ member)) later
    rw [List.length_cons]
    omega

section Places
variable {α : Type} {l : List α} {order : List Nat}

theorem places_range (l : List α) : (List.range l.length).filterMap (fun k => l[k]?) = l := by
  induction l with
  | nil => rfl
  | cons first rest ih =>
    have later : (List.range rest.length).filterMap ((fun k => (first :: rest)[k]?) ∘ Nat.succ) = rest := ih
    rw [List.length_cons, List.range_succ_eq_map, List.filterMap_cons_some List.getElem?_cons_zero, List.filterMap_map, later]

/-- In whatever order the places of a list are taken, each once, its elements are taken. -/
theorem places_perm (nodup : order.Nodup) (all : ∀ k, k ∈ order ↔ k < l.length) : (order.filterMap (fun k => l[k]?)).Perm l := by
  have same : order.Perm (List.range l.length) := by
    rw [List.perm_ext_iff_of_nodup nodup List.nodup_range]
    exact fun k => (all k).trans List.mem_range.symm
  have mapped := same.filterMap (fun k => l[k]?)
  rwa [places_range] at mapped

/-- One more place is taken. -/
theorem places_append {k : Nat} {x : α} (here : l[k]? = some x) :
    (order ++ [k]).filterMap (fun k => l[k]?) = order.filterMap (fun k => l[k]?) ++ [x] := by
  rw [List.filterMap_append, List.filterMap_cons_some here, List.filterMap_nil]

end Places

end CloudCryptFS.Util.Schedule
