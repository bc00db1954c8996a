import CloudCryptFS.Util.Splice
import Mathlib.Data.List.Basic
import Mathlib.Data.List.Nodup

/-! Texts on pages. Each page names the next one, and a text goes on from page to page;
what a page holds is looked at through a view of a fixed length. -/

namespace CloudCryptFS.Util.Pages
variable {ν π α : Type}

/-- The places of the pages from a first one on. -/
inductive Trail (store : ν → Option π) (next : π → Option ν) : Option ν → List ν → Prop where
  | nil : Trail store next none []
  | cons {i : ν} {p : π} {l : List ν} (found : store i = some p) (rest : Trail store next (next p) l) : Trail store next (some i) (i :: l)

section Trail
variable {store store' : ν → Option π} {next : π → Option ν} {head : Option ν} {i : ν} {l : List ν}

theorem Trail.of_none (path : Trail store next none l) : l = [] := by
  cases path
  rfl

theorem Trail.of_some (path : Trail store next (some i) l) : ∃ p rest, store i = some p ∧ l = i :: rest ∧ Trail store next (next p) rest := by
  cases path with
  | cons found rest => exact ⟨_, _, found, rfl, rest⟩

theorem Trail.head_eq (path : Trail store next head l) : head = l.head? := by
  cases path <;> rfl

/-- The first page determines the others. -/
theorem Trail.unique {m : List ν} (path : Trail store next head l) (other : Trail store next head m) : l = m := by
  induction path generalizing m with
  | nil => exact other.of_none.symm
  | cons found rest ih =>
    obtain ⟨p, tail, found', rfl, later⟩ := other.of_some
    rw [found] at found'
    cases found'
    rw [ih later]

theorem Trail.congr (path : Trail store next head l) (same : ∀ i ∈ l, store' i = store i) : Trail store' next head l := by
  induction path with
  | nil => exact .nil
  | cons found rest ih =>
    have here := same _ List.mem_cons_self
    exact .cons (here.trans found) (ih (fun i member => same i (List.mem_cons_of_mem _ member)))

/-- The part of a path from one of its pages on. -/
theorem Trail.suffix (path : Trail store next head l) (member : i ∈ l) :
    ∃ before after, l = before ++ i :: after ∧ Trail store next (some i) (i :: after) := by
  induction path with
  | nil => cases member
  | @cons first p l found rest ih =>
    by_cases here : i = first
    · rw [here]
      exact ⟨[], l, rfl, .cons found rest⟩
    · obtain ⟨before, after, shape, path⟩ := ih (List.mem_of_ne_of_mem here member)
      exact ⟨first :: before, after, congrArg _ shape, path⟩

/-- No page comes twice. -/
theorem Trail.nodup (path : Trail store next head l) : l.Nodup := by
  induction path with
  | nil => exact List.nodup_nil
  | @cons i p l found rest ih =>
    apply List.nodup_cons.mpr
    refine ⟨fun again => ?_, ih⟩
    obtain ⟨before, after, shape, path⟩ := rest.suffix again
    have same := path.unique (.cons found rest)
    have length := congrArg List.length shape
    rw [← List.tail_eq_of_cons_eq same, List.length_append, List.length_cons] at length
    omega

theorem Trail.found (path : Trail store next head l) (member : i ∈ l) : ∃ p, store i = some p := by
  obtain ⟨_, _, _, path⟩ := path.suffix member
  obtain ⟨p, _, found, _⟩ := path.of_some
  exact ⟨p, found⟩

end Trail

section Text
variable {store store' : ν → Option π} {next : π → Option ν} {head : Option ν} {view : π → List α} {i : ν} {p : π} {l : List ν}

/-- What stands on some pages, one after the other. -/
def text (store : ν → Option π) (view : π → List α) (l : List ν) : List α := l.flatMap (fun i => ((store i).map view).getD [])

theorem text_nil : text store view [] = [] := rfl

theorem text_cons (found : store i = some p) : text store view (i :: l) = view p ++ text store view l := by
  rw [text, List.flatMap_cons, found]
  rfl

theorem text_congr (same : ∀ i ∈ l, store' i = store i) : text store' view l = text store view l := by
  apply List.flatMap_congr
  intro i member
  rw [same i member]

theorem length_text {size : Nat} (each : ∀ p, (view p).length = size) (path : Trail store next head l) :
    (text store view l).length = l.length * size := by
  induction path with
  | nil => rw [text_nil, List.length_nil, List.length_nil, Nat.zero_mul]
  | cons found rest ih => rw [text_cons found, List.length_append, each, ih, List.length_cons, Nat.succ_mul, Nat.add_comm]

end Text

end CloudCryptFS.Util.Pages
