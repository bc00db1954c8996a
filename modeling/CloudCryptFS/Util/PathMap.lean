import CloudCryptFS.Util.NameGraph
import Mathlib.Logic.Function.Basic

/-! A graph with named edges as one map from paths to nodes. In a tree, an edge that is
linked enters one path, an edge that is cut takes one away, and an edge that is moved
takes with it all that lies below. -/

namespace CloudCryptFS.Util.NameGraph

variable {ι ν : Type*}

section Move

/-- The path that lies below `source` as the given one does below `dest`. -/
def rebase (source dest path : List ν) : List ν := path.take (path.length - dest.length) ++ source

theorem rebase_append (source dest below : List ν) : rebase source dest (below ++ dest) = below ++ source := by
  unfold rebase
  rw [List.length_append, Nat.add_sub_cancel, List.take_left]

variable [DecidableEq ν]

/-- What was at `source` and below is at `dest` and below. -/
def move (map : List ν → Option ι) (source dest : List ν) : List ν → Option ι := fun path =>
  if dest <:+ path then map (rebase source dest path)
  else if source <:+ path then none
  else map path

variable {map : List ν → Option ι} {source dest path : List ν}

theorem move_dest (below : List ν) : move map source dest (below ++ dest) = map (below ++ source) := by
  unfold move
  rw [if_pos (List.suffix_append below dest), rebase_append]

theorem move_source (apart : ¬dest <:+ path) (inside : source <:+ path) : move map source dest path = none := by
  unfold move
  rw [if_neg apart, if_pos inside]

theorem move_other (apart : ¬dest <:+ path) (outside : ¬source <:+ path) : move map source dest path = map path := by
  unfold move
  rw [if_neg apart, if_neg outside]

end Move

section Walks
variable {edge : ι → ν → Option ι} {root : ι} {dirs : Set ι}

theorem not_cons_suffix (c : ν) (q : List ν) : ¬c :: q <:+ q := by
  intro inside
  have long := inside.length_le
  rw [List.length_cons] at long
  omega

/-- No path goes on where there is no edge. -/
theorem walk_eq_none {d : ι} {c : ν} {q path : List ν} (above : walk edge root q = some d) (absent : edge d c = none)
    (inside : c :: q <:+ path) : walk edge root path = none := by
  have nowhere : walk edge root (c :: q) = none := by
    rw [walk, above]
    exact absent
  by_contra somewhere
  obtain ⟨i, found⟩ := Option.ne_none_iff_exists'.mp somewhere
  rcases walk_suffix found inside with same | ⟨k, _, _, further, _⟩
  · rw [← same, nowhere] at found
    cases found
  · rw [nowhere] at further
    cases further

variable [DecidableEq ι] [DecidableEq ν]

/-- An edge to a node that has none enters one path. -/
theorem Tree.walk_link_eq (tree : Tree edge root dirs) {d i : ι} {c : ν} {q : List ν} (above : walk edge root q = some d)
    (dir : d ∈ dirs) (absent : edge d c = none) (other : i ≠ d) (empty : ∀ x, edge i x = none) :
    walk (link edge d c i) root = Function.update (walk edge root) (c :: q) (some i) := by
  have more := link_mono absent i
  have entered : walk (link edge d c i) root (c :: q) = some i :=
    walk_cons.mpr ⟨d, walk_mono more above, link_self d c i⟩
  have back : ∀ (path : List ν) (j : ι), walk (link edge d c i) root path = some j → path ≠ c :: q → walk edge root path = some j := by
    intro path
    induction path with
    | nil => exact fun j found _ => found
    | cons x path ih =>
      intro j found differs
      obtain ⟨k, before, last⟩ := walk_cons.mp found
      have notEntered : path ≠ c :: q := by
        intro same
        rw [same, entered] at before
        cases before
        rcases link_eq_some last with ⟨same, _, _⟩ | old
        · exact other same
        · rw [empty x] at old
          cases old
      have before' := ih k before notEntered
      rcases link_eq_some last with ⟨rfl, rfl, _⟩ | old
      · exact absurd (congrArg (List.cons x) (tree.walk_unique dir before' above)) differs
      · exact walk_cons.mpr ⟨k, before', old⟩
  funext path
  by_cases same : path = c :: q
  · rw [same, entered, Function.update_self]
  · rw [Function.update_of_ne same]
    apply Option.ext
    intro j
    exact ⟨fun found => back path j found same, fun found => walk_mono more found⟩

/-- An edge to a node that has none takes one path away. -/
theorem Tree.walk_cut_eq (tree : Tree edge root dirs) {d i : ι} {c : ν} {q : List ν} (above : walk edge root q = some d)
    (present : edge d c = some i) (empty : ∀ x, edge i x = none) :
    walk (NameGraph.cut edge d c) root = Function.update (walk edge root) (c :: q) none := by
  have dir := tree.source d c i present
  have there : walk edge root (c :: q) = some i := walk_cons.mpr ⟨d, above, present⟩
  have kept : ∀ d' c' j, edge d' c' = some j → ¬(d' = d ∧ c' = c) → NameGraph.cut edge d c d' c' = some j :=
    fun d' c' j found outside => cut_eq_some.mpr ⟨outside, found⟩
  funext path
  by_cases same : path = c :: q
  · rw [same, Function.update_self]
    exact walk_eq_none (tree.walk_cut above dir kept above (not_cons_suffix c q)) (cut_self d c) (List.suffix_refl _)
  · rw [Function.update_of_ne same]
    apply Option.ext
    intro j
    constructor
    · exact walk_mono (fun d' c' k found => (cut_eq_some.mp found).2)
    · intro found
      apply tree.walk_cut above dir kept found
      intro inside
      rcases walk_suffix found inside with equal | ⟨k, x, k', atEnd, further⟩
      · exact same equal.symm
      · rw [there] at atEnd
        cases atEnd
        rw [empty x] at further
        cases further

/-- An edge that is moved takes along what lies below it. -/
theorem Tree.walk_move_eq (tree : Tree edge root dirs) {d d' i : ι} {c c' : ν} {q q' : List ν} (above : walk edge root q = some d)
    (present : edge d c = some i) (above' : walk edge root q' = some d') (dir' : d' ∈ dirs) (absent : edge d' c' = none)
    (outside : ¬c :: q <:+ q') :
    walk (NameGraph.cut (link edge d' c' i) d c) root = NameGraph.move (walk edge root) (c :: q) (c' :: q') := by
  have dir := tree.source d c i present
  have places : ¬(d' = d ∧ c' = c) := by
    intro same
    rw [same.1, same.2, present] at absent
    cases absent
  have kept : ∀ x y k, edge x y = some k → ¬(x = d ∧ y = c) → NameGraph.cut (link edge d' c' i) d c x y = some k :=
    fun x y k found other => cut_eq_some.mpr ⟨other, link_mono absent i x y k found⟩
  have backwards : ∀ x y k, NameGraph.cut (link edge d' c' i) d c x y = some k → ¬(x = d' ∧ y = c') → edge x y = some k := by
    intro x y k found other
    rcases link_eq_some (cut_eq_some.mp found).2 with ⟨atD, atC, _⟩ | old
    · exact absurd ⟨atD, atC⟩ other
    · exact old
  -- moved back, the edge is where it was
  have tree' : Tree (NameGraph.cut (link edge d' c' i) d c) root dirs := tree.move present dir'
  have above₁ := tree.walk_cut above dir kept above (not_cons_suffix c q)
  have above₁' := tree.walk_cut above dir kept above' outside
  have present' : NameGraph.cut (link edge d' c' i) d c d' c' = some i := cut_eq_some.mpr ⟨places, link_self d' c' i⟩
  have outside' : ¬c' :: q' <:+ q := by
    intro inside
    rw [walk_eq_none above' absent inside] at above
    cases above
  have undone : NameGraph.cut (link (NameGraph.cut (link edge d' c' i) d c) d c i) d' c' = edge := by
    funext x y
    unfold NameGraph.cut link
    dsimp only
    by_cases atNew : x = d' ∧ y = c'
    · rw [if_pos atNew, atNew.1, atNew.2, absent]
    · rw [if_neg atNew]
      by_cases atOld : x = d ∧ y = c
      · rw [if_pos atOld, atOld.1, atOld.2, present]
      · rw [if_neg atOld, if_neg atOld, if_neg atNew]
  funext path
  by_cases inNew : c' :: q' <:+ path
  · obtain ⟨below, rfl⟩ := inNew
    rw [move_dest]
    apply Option.ext
    intro j
    constructor
    · intro found
      have back := tree'.walk_move above₁' present' above₁ (cut_self d c) outside' below found
      rw [undone] at back
      exact back
    · exact tree.walk_move above present above' absent outside below
  · by_cases inOld : c :: q <:+ path
    · rw [move_source inNew inOld]
      exact walk_eq_none above₁ (cut_self d c) inOld
    · rw [move_other inNew inOld]
      apply Option.ext
      intro j
      constructor
      · exact fun found => tree'.walk_cut above₁' dir' backwards found inNew
      · exact fun found => tree.walk_cut above dir kept found inOld

end Walks

end CloudCryptFS.Util.NameGraph
