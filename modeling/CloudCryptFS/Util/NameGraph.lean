import Mathlib.Data.Set.Card
import Mathlib.Data.Set.Insert

/-! Rooted graphs with named edges, as a hierarchy of directories is one. Only
directories have edges, and no two edges lead to the same directory, so a directory
lies on one path. A path is written with its last name first. -/

namespace CloudCryptFS.Util.NameGraph

variable {ι ν : Type*}

/-- The node at the end of a path. -/
def walk (edge : ι → ν → Option ι) (root : ι) : List ν → Option ι
  | [] => some root
  | c :: path => (walk edge root path).bind (fun d => edge d c)

section Walk
variable {edge edge' : ι → ν → Option ι} {root : ι}

theorem walk_cons {c : ν} {path : List ν} {i : ι} :
    walk edge root (c :: path) = some i ↔ ∃ d, walk edge root path = some d ∧ edge d c = some i :=
  Option.bind_eq_some_iff

/-- A path whose edges are all kept leads to the same node. -/
theorem walk_of_kept {path : List ν} {i : ι} (found : walk edge root path = some i)
    (kept : ∀ c q d j, c :: q <:+ path → walk edge root q = some d → edge d c = some j → edge' d c = some j) :
    walk edge' root path = some i := by
  induction path generalizing i with
  | nil => exact found
  | cons c path ih =>
    obtain ⟨d, before, last⟩ := walk_cons.mp found
    refine walk_cons.mpr ⟨d, ?_, kept c path d i (List.suffix_refl _) before last⟩
    exact ih before (fun c' q d' j inside => kept c' q d' j (inside.trans (List.suffix_cons c path)))

theorem walk_mono (more : ∀ d c j, edge d c = some j → edge' d c = some j) {path : List ν} {i : ι}
    (found : walk edge root path = some i) : walk edge' root path = some i :=
  walk_of_kept found (fun c _ d j _ _ here => more d c j here)

/-- A path goes on below each of its proper ends. -/
theorem walk_suffix {path q : List ν} {i : ι} (found : walk edge root path = some i) (inside : q <:+ path) :
    q = path ∨ ∃ d c j, walk edge root q = some d ∧ edge d c = some j := by
  induction path generalizing i with
  | nil => exact Or.inl (List.suffix_nil.mp inside)
  | cons c path ih =>
    obtain ⟨d, before, last⟩ := walk_cons.mp found
    rcases List.suffix_cons_iff.mp inside with same | below
    · exact Or.inl same
    · right
      rcases ih before below with same | further
      · exact ⟨d, c, i, same ▸ before, last⟩
      · exact further

end Walk

/-- No edge but from a directory, none to the root, and at most one to each directory. -/
structure Tree (edge : ι → ν → Option ι) (root : ι) (dirs : Set ι) : Prop where
  root_dir : root ∈ dirs
  source : ∀ d c i, edge d c = some i → d ∈ dirs
  no_root : ∀ d c, edge d c ≠ some root
  single : ∀ d c d' c' i, i ∈ dirs → edge d c = some i → edge d' c' = some i → d = d' ∧ c = c'

/-- Every directory lies on a path. -/
def Reached (edge : ι → ν → Option ι) (root : ι) (dirs : Set ι) : Prop :=
  ∀ d ∈ dirs, ∃ path, walk edge root path = some d

theorem Reached.mono {edge edge' : ι → ν → Option ι} {root : ι} {dirs : Set ι} (reached : Reached edge root dirs)
    (more : ∀ d c j, edge d c = some j → edge' d c = some j) : Reached edge' root dirs := by
  intro d member
  obtain ⟨path, found⟩ := reached d member
  exact ⟨path, walk_mono more found⟩

section Tree
variable {edge : ι → ν → Option ι} {root : ι} {dirs : Set ι}

theorem Tree.walk_unique (tree : Tree edge root dirs) {p q : List ν} {i : ι} (dir : i ∈ dirs)
    (first : walk edge root p = some i) (second : walk edge root q = some i) : p = q := by
  induction p generalizing q i with
  | nil =>
    cases first
    cases q with
    | nil => rfl
    | cons c q =>
      obtain ⟨d, _, last⟩ := walk_cons.mp second
      exact absurd last (tree.no_root d c)
  | cons c p ih =>
    obtain ⟨d, before, last⟩ := walk_cons.mp first
    cases q with
    | nil =>
      cases second
      exact absurd last (tree.no_root d c)
    | cons c' q =>
      obtain ⟨d', before', last'⟩ := walk_cons.mp second
      obtain ⟨rfl, rfl⟩ := tree.single d c d' c' i dir last last'
      rw [ih (tree.source d c i last) before before']

/-- A directory that nothing leads to. -/
theorem Tree.add_dir (tree : Tree edge root dirs) {i : ι} (fresh : ∀ d c, edge d c ≠ some i) :
    Tree edge root (insert i dirs) where
  root_dir := Set.mem_insert_of_mem i tree.root_dir
  source := fun d c j found => Set.mem_insert_of_mem i (tree.source d c j found)
  no_root := tree.no_root
  single := fun d c d' c' j member first second => by
    rcases Set.mem_insert_iff.mp member with rfl | member
    · exact absurd first (fresh d c)
    · exact tree.single d c d' c' j member first second

/-- A node without edges is no directory any more. -/
theorem Tree.drop_dir (tree : Tree edge root dirs) {i : ι} (empty : ∀ c, edge i c = none) (other : i ≠ root) :
    Tree edge root (dirs \ {i}) where
  root_dir := ⟨tree.root_dir, fun same => other (Set.mem_singleton_iff.mp same).symm⟩
  source := fun d c j found => by
    refine ⟨tree.source d c j found, fun same => ?_⟩
    rw [Set.mem_singleton_iff.mp same, empty c] at found
    cases found
  no_root := tree.no_root
  single := fun d₁ c₁ d₂ c₂ j member => tree.single d₁ c₁ d₂ c₂ j member.1

/-- A path that does not run through an edge is not affected when it is cut. -/
theorem Tree.walk_cut (tree : Tree edge root dirs) {edge' : ι → ν → Option ι} {d : ι} {c : ν} {q : List ν}
    (at_d : walk edge root q = some d) (dir : d ∈ dirs)
    (kept : ∀ d' c' j, edge d' c' = some j → ¬(d' = d ∧ c' = c) → edge' d' c' = some j) {path : List ν} {i : ι}
    (found : walk edge root path = some i) (outside : ¬(c :: q <:+ path)) : walk edge' root path = some i := by
  refine walk_of_kept found ?_
  intro c' q' d' j inside before last
  refine kept d' c' j last ?_
  rintro ⟨rfl, rfl⟩
  exact outside (tree.walk_unique dir before at_d ▸ inside)

variable [DecidableEq ι] [DecidableEq ν]

/-- A new edge. -/
def link (edge : ι → ν → Option ι) (d : ι) (c : ν) (i : ι) : ι → ν → Option ι :=
  fun d' c' => if d' = d ∧ c' = c then some i else edge d' c'

/-- One edge less. -/
def cut (edge : ι → ν → Option ι) (d : ι) (c : ν) : ι → ν → Option ι :=
  fun d' c' => if d' = d ∧ c' = c then none else edge d' c'

theorem link_self (d : ι) (c : ν) (i : ι) : link edge d c i d c = some i := if_pos ⟨rfl, rfl⟩

theorem cut_self (d : ι) (c : ν) : cut edge d c d c = none := if_pos ⟨rfl, rfl⟩

theorem link_eq_some {d d' : ι} {c c' : ν} {i j : ι} (found : link edge d c i d' c' = some j) :
    (d' = d ∧ c' = c ∧ j = i) ∨ edge d' c' = some j := by
  unfold link at found
  split at found
  · rename_i here
    cases found
    exact Or.inl ⟨here.1, here.2, rfl⟩
  · exact Or.inr found

theorem cut_eq_some {d d' : ι} {c c' : ν} {j : ι} :
    cut edge d c d' c' = some j ↔ ¬(d' = d ∧ c' = c) ∧ edge d' c' = some j := by
  unfold cut
  split <;> simp_all

theorem link_mono {d : ι} {c : ν} (absent : edge d c = none) (i : ι) :
    ∀ d' c' j, edge d' c' = some j → link edge d c i d' c' = some j := by
  intro d' c' j found
  unfold link
  split
  · rename_i here
    rw [here.1, here.2, absent] at found
    cases found
  · exact found

/-- An edge to a node that is no directory. -/
theorem Tree.link_leaf (tree : Tree edge root dirs) {d : ι} (dir : d ∈ dirs) (c : ν) {i : ι} (leaf : i ∉ dirs) :
    Tree (link edge d c i) root dirs where
  root_dir := tree.root_dir
  source := fun d' c' j found => by
    rcases link_eq_some found with ⟨rfl, _, _⟩ | old
    · exact dir
    · exact tree.source d' c' j old
  no_root := fun d' c' found => by
    rcases link_eq_some found with ⟨_, _, rfl⟩ | old
    · exact leaf tree.root_dir
    · exact tree.no_root d' c' old
  single := fun d₁ c₁ d₂ c₂ j member first second => by
    rcases link_eq_some first with ⟨_, _, rfl⟩ | first
    · exact absurd member leaf
    · rcases link_eq_some second with ⟨_, _, rfl⟩ | second
      · exact absurd member leaf
      · exact tree.single d₁ c₁ d₂ c₂ j member first second

/-- An edge to a directory that has none yet. -/
theorem Tree.link_dir (tree : Tree edge root dirs) {d : ι} (dir : d ∈ dirs) (c : ν) {i : ι}
    (fresh : ∀ d' c', edge d' c' ≠ some i) (other : i ≠ root) : Tree (link edge d c i) root (insert i dirs) where
  root_dir := Set.mem_insert_of_mem i tree.root_dir
  source := fun d' c' j found => by
    rcases link_eq_some found with ⟨rfl, _, _⟩ | old
    · exact Set.mem_insert_of_mem i dir
    · exact Set.mem_insert_of_mem i (tree.source d' c' j old)
  no_root := fun d' c' found => by
    rcases link_eq_some found with ⟨_, _, same⟩ | old
    · exact other same.symm
    · exact tree.no_root d' c' old
  single := fun d₁ c₁ d₂ c₂ j member first second => by
    rcases link_eq_some first with ⟨rfl, rfl, rfl⟩ | old₁
    · rcases link_eq_some second with ⟨rfl, rfl, _⟩ | old₂
      · exact ⟨rfl, rfl⟩
      · exact absurd old₂ (fresh d₂ c₂)
    · rcases link_eq_some second with ⟨rfl, rfl, rfl⟩ | old₂
      · exact absurd old₁ (fresh d₁ c₁)
      · rcases Set.mem_insert_iff.mp member with rfl | member
        · exact absurd old₁ (fresh d₁ c₁)
        · exact tree.single d₁ c₁ d₂ c₂ j member old₁ old₂

theorem Tree.cut (tree : Tree edge root dirs) (d : ι) (c : ν) : Tree (cut edge d c) root dirs where
  root_dir := tree.root_dir
  source := fun d' c' j found => tree.source d' c' j (cut_eq_some.mp found).2
  no_root := fun d' c' found => tree.no_root d' c' (cut_eq_some.mp found).2
  single := fun d₁ c₁ d₂ c₂ j member first second =>
    tree.single d₁ c₁ d₂ c₂ j member (cut_eq_some.mp first).2 (cut_eq_some.mp second).2

/-- An edge that is moved to another place. -/
theorem Tree.move (tree : Tree edge root dirs) {d d' : ι} {c c' : ν} {i : ι} (source : edge d c = some i)
    (dir : d' ∈ dirs) : Tree (NameGraph.cut (link edge d' c' i) d c) root dirs where
  root_dir := tree.root_dir
  source := fun d₁ c₁ j found => by
    rcases link_eq_some (cut_eq_some.mp found).2 with ⟨rfl, _, _⟩ | old
    · exact dir
    · exact tree.source d₁ c₁ j old
  no_root := fun d₁ c₁ found => by
    rcases link_eq_some (cut_eq_some.mp found).2 with ⟨_, _, rfl⟩ | old
    · exact tree.no_root d c source
    · exact tree.no_root d₁ c₁ old
  single := fun d₁ c₁ d₂ c₂ j member first second => by
    obtain ⟨kept₁, first⟩ := cut_eq_some.mp first
    obtain ⟨kept₂, second⟩ := cut_eq_some.mp second
    rcases link_eq_some first with ⟨rfl, rfl, rfl⟩ | old₁
    · rcases link_eq_some second with ⟨rfl, rfl, _⟩ | old₂
      · exact ⟨rfl, rfl⟩
      · exact absurd (tree.single d₂ c₂ d c j member old₂ source) kept₂
    · rcases link_eq_some second with ⟨rfl, rfl, rfl⟩ | old₂
      · exact absurd (tree.single d₁ c₁ d c j member old₁ source) kept₁
      · exact tree.single d₁ c₁ d₂ c₂ j member old₁ old₂

/-- A new directory is reached from the one that it is entered in. -/
theorem Reached.link_dir (reached : Reached edge root dirs) {d : ι} {c : ν} (absent : edge d c = none) (dir : d ∈ dirs) (i : ι) :
    Reached (link edge d c i) root (insert i dirs) := by
  intro j member
  rcases Set.mem_insert_iff.mp member with rfl | member
  · obtain ⟨path, found⟩ := reached d dir
    exact ⟨c :: path, walk_cons.mpr ⟨d, walk_mono (link_mono absent j) found, link_self d c j⟩⟩
  · exact reached.mono (link_mono absent i) j member

/-- A node without edges is not on the way to another one. -/
theorem Reached.cut (reached : Reached edge root dirs) {d i : ι} {c : ν} (present : edge d c = some i) (empty : ∀ x, edge i x = none)
    {dirs' : Set ι} (fewer : dirs' ⊆ dirs) (gone : i ∉ dirs') : Reached (cut edge d c) root dirs' := by
  intro j member
  obtain ⟨path, found⟩ := reached j (fewer member)
  refine ⟨path, walk_of_kept found ?_⟩
  intro c' q d' k inside before last
  refine cut_eq_some.mpr ⟨?_, last⟩
  rintro ⟨rfl, rfl⟩
  have atNode : walk edge root (c' :: q) = some i := walk_cons.mpr ⟨d', before, present⟩
  rcases walk_suffix found inside with same | ⟨k', x, further, atEnd, next⟩
  · rw [← same, atNode] at found
    cases found
    exact gone member
  · rw [atNode] at atEnd
    cases atEnd
    rw [empty x] at next
    cases next

/-- What lay below the old place of an edge lies below its new place. -/
theorem Tree.walk_move (tree : Tree edge root dirs) {d d' i : ι} {c c' : ν} {q q' : List ν} (above : walk edge root q = some d)
    (source : edge d c = some i) (above' : walk edge root q' = some d') (absent : edge d' c' = none)
    (outside : ¬c :: q <:+ q') (below : List ν) {j : ι} (found : walk edge root (below ++ c :: q) = some j) :
    walk (NameGraph.cut (link edge d' c' i) d c) root (below ++ c' :: q') = some j := by
  have dir := tree.source d c i source
  have kept : ∀ x y k, edge x y = some k → ¬(x = d ∧ y = c) → NameGraph.cut (link edge d' c' i) d c x y = some k :=
    fun x y k here other => cut_eq_some.mpr ⟨other, link_mono absent i x y k here⟩
  induction below generalizing j with
  | nil =>
    have last : walk edge root (c :: q) = some i := walk_cons.mpr ⟨d, above, source⟩
    rw [List.nil_append, last] at found
    cases found
    refine walk_cons.mpr ⟨d', tree.walk_cut above dir kept above' outside, cut_eq_some.mpr ⟨?_, link_self d' c' i⟩⟩
    rintro ⟨rfl, rfl⟩
    rw [absent] at source
    cases source
  | cons y below ih =>
    obtain ⟨k, before, last⟩ := walk_cons.mp found
    refine walk_cons.mpr ⟨k, ih before, kept k y j last ?_⟩
    rintro ⟨rfl, rfl⟩
    have same : q.length = (below ++ y :: q).length := congrArg List.length (tree.walk_unique dir above before)
    rw [List.length_append, List.length_cons] at same
    omega

theorem Reached.move (reached : Reached edge root dirs) (tree : Tree edge root dirs) {d d' i : ι} {c c' : ν} {q q' : List ν}
    (above : walk edge root q = some d) (source : edge d c = some i) (above' : walk edge root q' = some d')
    (absent : edge d' c' = none) (outside : ¬c :: q <:+ q') : Reached (NameGraph.cut (link edge d' c' i) d c) root dirs := by
  intro j member
  obtain ⟨path, found⟩ := reached j member
  by_cases inside : c :: q <:+ path
  · obtain ⟨below, rfl⟩ := inside
    exact ⟨below ++ c' :: q', tree.walk_move above source above' absent outside below found⟩
  · refine ⟨path, tree.walk_cut above (tree.source d c i source) ?_ found inside⟩
    exact fun x y k here other => cut_eq_some.mpr ⟨other, link_mono absent i x y k here⟩

end Tree

section Links
variable {edge : ι → ν → Option ι}

/-- The edges that lead to a node. -/
def links (edge : ι → ν → Option ι) (i : ι) : Set (ι × ν) := {e | edge e.1 e.2 = some i}

variable [DecidableEq ι] [DecidableEq ν]

theorem encard_links_link {d : ι} {c : ν} (absent : edge d c = none) (i j : ι) :
    (links (link edge d c i) j).encard = (links edge j).encard + if j = i then 1 else 0 := by
  by_cases same : j = i
  · subst same
    have grown : links (link edge d c j) j = insert (d, c) (links edge j) := by
      ext ⟨d', c'⟩
      simp only [links, link, Set.mem_ofPred_eq, Set.mem_insert_iff, Prod.mk.injEq]
      split <;> simp_all
    have fresh : (d, c) ∉ links edge j := by
      simp [links, absent]
    rw [grown, Set.encard_insert_of_notMem fresh, if_pos rfl]
  · have equal : links (link edge d c i) j = links edge j := by
      ext ⟨d', c'⟩
      simp only [links, link, Set.mem_ofPred_eq]
      split
      · rename_i here
        have other : i ≠ j := fun equal => same equal.symm
        simp [here.1, here.2, absent, other]
      · rfl
    rw [equal, if_neg same, add_zero]

theorem encard_links_cut {d : ι} {c : ν} {i : ι} (present : edge d c = some i) (j : ι) :
    (links (cut edge d c) j).encard + (if j = i then 1 else 0) = (links edge j).encard := by
  by_cases same : j = i
  · subst same
    have less : links (cut edge d c) j = links edge j \ {(d, c)} := by
      ext ⟨d', c'⟩
      simp only [links, Set.mem_ofPred_eq, Set.mem_sdiff, Set.mem_singleton_iff, Prod.mk.injEq, cut_eq_some]
      exact and_comm
    rw [less, if_pos rfl]
    exact Set.encard_sdiff_singleton_add_one present
  · have equal : links (cut edge d c) j = links edge j := by
      ext ⟨d', c'⟩
      simp only [links, Set.mem_ofPred_eq, cut_eq_some, and_iff_right_iff_imp]
      rintro found ⟨rfl, rfl⟩
      rw [present, Option.some.injEq] at found
      exact same found.symm
    rw [equal, if_neg same, add_zero]

end Links

end CloudCryptFS.Util.NameGraph
