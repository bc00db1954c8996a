import CloudCryptFS.Filesystem.Names

/-! What a change of the tree must respect: opening files for their rights, new entries,
an entry that goes, and an entry that moves each keep the tree and its caches in step. -/

namespace CloudCryptFS.Filesystem
open Util NameGraph

section Heads

/-- No inode but one has another head. -/
def HeadsBut (i : BucketIndex) (nodes nodes' : Nodes) : Prop :=
  ∀ j, j ≠ i → (nodes' j).map Inode.head = (nodes j).map Inode.head

theorem HeadsBut.node {i j : BucketIndex} {nodes nodes' : Nodes} (heads : HeadsBut i nodes nodes') (other : j ≠ i) {n : Inode}
    (here : nodes j = some n) : ∃ n', nodes' j = some n' ∧ n'.type = n.type ∧ n'.nlinks = n.nlinks := by
  have equal := heads j other
  rw [here, Option.map_some] at equal
  obtain ⟨n', here', head⟩ := Option.map_eq_some_iff.mp equal
  have type := congrArg Inode.type head
  have nlinks := congrArg Inode.nlinks head
  exact ⟨n', here', type, nlinks⟩

theorem HeadsBut.symm {i : BucketIndex} {nodes nodes' : Nodes} (heads : HeadsBut i nodes nodes') : HeadsBut i nodes' nodes :=
  fun j other => (heads j other).symm

theorem HeadsBut.mem_dirs {i j : BucketIndex} {nodes nodes' : Nodes} (heads : HeadsBut i nodes nodes') (other : j ≠ i) :
    j ∈ dirs nodes' ↔ j ∈ dirs nodes := by
  have sub : ∀ {first second : Nodes}, HeadsBut i first second → j ∈ dirs first → j ∈ dirs second := by
    intro first second same member
    obtain ⟨n, here, dir⟩ := member
    obtain ⟨n', here', type, _⟩ := same.node other here
    exact ⟨n', here', type.trans dir⟩
  exact ⟨sub heads.symm, sub heads⟩

theorem SameHeads.but {nodes nodes' : Nodes} (same : SameHeads nodes nodes') (i : BucketIndex) : HeadsBut i nodes nodes' :=
  fun j _ => same j

private theorem specialPath_single {p : Path} (special : specialPath p = true) : ∃ c, p = [c] := by
  unfold specialPath at special
  rcases of_decide_eq_true special with same | same
  · exact ⟨_, same⟩
  · exact ⟨_, same⟩

end Heads

variable [Floats] {level : Level} {s s' : Fs}

section Permissions

/-- The directories that lie on a path, from the root to the parent. -/
def Fs.pathDirs (s : Fs) : Path → List BucketIndex
  | [] => []
  | _ :: q =>
    match s.walk q with
    | some d => s.pathDirs q ++ [d]
    | none => []

/-- The list of an open file is its path, and the directories on it are open. -/
theorem Permitted.list (permitted : Permitted s) {p : Path} {i : BucketIndex} (found : s.walk p = some i) {file : FileObject}
    (here : s.inodeFileCache i = some file) :
    file.pathPermissions = s.pathDirs p ∧ ∀ j ∈ file.pathPermissions, (s.inodeFileCache j).isSome := by
  induction p generalizing i file with
  | nil =>
    cases found
    rw [permitted.root file here]
    exact ⟨rfl, fun j member => absurd member List.not_mem_nil⟩
  | cons c q ih =>
    obtain ⟨d, before, last⟩ := Fs.walk_cons.mp found
    obtain ⟨parent, folder, list⟩ := permitted.step d c i file last here
    obtain ⟨same, opened⟩ := ih before folder
    rw [list, Fs.pathDirs, before, same]
    refine ⟨rfl, fun j member => ?_⟩
    rcases List.mem_append.mp member with inside | last
    · exact opened j (same ▸ inside)
    · rw [List.mem_singleton.mp last, folder]
      rfl

/-- Where lists are paths, all that a check could open is open. -/
theorem Names.listed (names : Names level s) {p : Path} {i : BucketIndex} (found : s.walk p = some i) (strict : level.permitted) :
    ∀ j ∈ s.permissions i, (s.inodeFileCache j).isSome := by
  intro j member
  unfold Fs.permissions at member
  cases here : s.inodeFileCache i with
  | none =>
    rw [here] at member
    exact absurd member List.not_mem_nil
  | some file =>
    rw [here] at member
    exact ((names.permitted strict).list found here).2 j member

theorem Names.opened (names : Names level s) {pathPermissions : List BucketIndex} (opened : Opened pathPermissions s s')
    (listed : level.permitted → ∀ j ∈ pathPermissions, (s.inodeFileCache j).isSome) : Names level s' := by
  have nodes := opened.nodes
  have walk : s'.walk = s.walk := Fs.walk_congr (by rw [nodes])
  have kept : ∀ i, (s.inodeFileCache i).isSome → (s'.inodeFileCache i).isSome := by
    intro i here
    obtain ⟨file, here⟩ := Option.isSome_iff_exists.mp here
    rw [opened.files.kept here]
    rfl
  constructor
  · exact names.alloc.congr opened.slots opened.accounting
  · exact nodes ▸ names.readable
  · exact nodes ▸ names.tree
  · exact nodes ▸ names.live
  · exact nodes ▸ names.links
  · exact nodes ▸ names.counted
  · intro p i here
    rw [opened.paths] at here
    rw [walk]
    obtain ⟨found, isOpen⟩ := names.cached p i here
    exact ⟨found, kept i isOpen⟩
  · exact kept rootIndex names.rootFile
  · intro i file here
    rw [nodes]
    rcases opened.files i with same | ⟨_, _, alive, _⟩
    · exact names.files i file (same ▸ here)
    · exact alive
  · intro i file here special
    rw [nodes]
    rcases opened.files i with same | ⟨_, _, _, new⟩
    · exact names.special i file (same ▸ here) special
    · rw [new] at here
      cases here
      cases special
  · intro p i special found closed
    rw [walk] at found
    rw [nodes]
    apply names.unopened p i special found
    rcases opened.files i with same | ⟨none, _⟩
    · exact same ▸ closed
    · exact none
  · intro strict
    have files : s'.inodeFileCache = s.inodeFileCache := by
      funext i
      rcases opened.files i with same | ⟨none, member, _⟩
      · exact same
      · have isOpen := listed strict i member
        rw [none] at isOpen
        cases isOpen
    obtain ⟨root, step, single⟩ := names.permitted strict
    exact ⟨files ▸ root, by rw [nodes, files]; exact step, by rw [nodes]; exact single⟩
  · exact nodes ▸ names.reached

end Permissions

section Changes

/-- What is new leads from an open directory to one inode. -/
def NewEdges (s s' : Fs) (i : BucketIndex) : Prop := ∀ d c j, edge s'.nodes d c = some j →
  edge s.nodes d c = some j ∨ j = i ∧ ∃ parent, s.inodeFileCache d = some parent ∧ parent.special = false

namespace NewEdges
variable {i j : BucketIndex}

/-- No statistics file gets an entry. -/
theorem special (new : NewEdges s s' i) (names : Names level s) {file : FileObject} (here : s.inodeFileCache j = some file)
    (special : file.special = true) (c : Name) : edge s'.nodes j c = none := by
  cases found : edge s'.nodes j c with
  | none => rfl
  | some k =>
    rcases new j c k found with old | ⟨_, parent, folder, plain⟩
    · rw [names.special j file here special c] at old
      cases old
    · rw [here] at folder
      cases folder
      rw [special] at plain
      cases plain

theorem unopened (new : NewEdges s s' i) (names : Names level s) (shut : s.inodeFileCache i = none → ∀ c, edge s'.nodes i c = none)
    {p : Path} (special : specialPath p = true) (found : s'.walk p = some j) (closed : s.inodeFileCache j = none) (c : Name) :
    edge s'.nodes j c = none := by
  obtain ⟨x, rfl⟩ := specialPath_single special
  obtain ⟨d, atRoot, last⟩ := Fs.walk_cons.mp found
  cases atRoot
  rcases new rootIndex x j last with old | ⟨same, _⟩
  · have none := names.unopened [x] j special (Fs.walk_cons.mpr ⟨rootIndex, rfl, old⟩) closed c
    cases further : edge s'.nodes j c with
    | none => rfl
    | some k =>
      rcases new j c k further with old' | ⟨_, parent, folder, _⟩
      · rw [none] at old'
        cases old'
      · rw [closed] at folder
        cases folder
  · exact same ▸ shut (same ▸ closed) c

end NewEdges

/-- One inode gets an entry, or is made. -/
theorem Names.grow (names : Names level s) {i : BucketIndex} {n' : Inode} (alloc : Alloc s') (readable : Readable s'.nodes)
    (tree : Tree (edge s'.nodes) rootIndex (dirs s'.nodes)) (heads : HeadsBut i s.nodes s'.nodes)
    (node : s'.nodes i = some n') (more : ∀ d c j, edge s.nodes d c = some j → edge s'.nodes d c = some j)
    (new : ∀ d c j, edge s'.nodes d c = some j → edge s.nodes d c = some j ∨
      j = i ∧ ∃ parent, s.inodeFileCache d = some parent ∧ parent.special = false)
    (leaf : ∀ c, edge s'.nodes i c = none)
    (links : n'.type ≠ .DIR → 0 ≤ n'.nlinks ∧ (NameGraph.links (edge s'.nodes) i).encard ≤ n'.nlinks.toNat)
    (counted : level.counted → n'.type ≠ .DIR → (NameGraph.links (edge s'.nodes) i).encard = n'.nlinks.toNat)
    (single : level.permitted → ∀ d c d' c', edge s'.nodes d c = some i → edge s'.nodes d' c' = some i → d = d')
    (sibling : level.permitted → ∀ d c, edge s'.nodes d c = some i → (s.inodeFileCache i).isSome →
      ∃ c', edge s.nodes d c' = some i)
    (reached : level.counted → Reached (edge s'.nodes) rootIndex (dirs s'.nodes))
    (paths : s'.pathInodeCache = s.pathInodeCache) (files : s'.inodeFileCache = s.inodeFileCache) : Names level s' := by
  have others : ∀ j, j ≠ i → NameGraph.links (edge s'.nodes) j = NameGraph.links (edge s.nodes) j := by
    intro j other
    ext ⟨d, c⟩
    constructor
    · intro found
      rcases new d c j found with old | ⟨same, _⟩
      · exact old
      · exact absurd same other
    · exact more d c j
  have alive : ∀ j, (s.nodes j).isSome → (s'.nodes j).isSome := by
    intro j here
    by_cases same : j = i
    · rw [same, node]
      rfl
    · obtain ⟨n, here⟩ := Option.isSome_iff_exists.mp here
      obtain ⟨n', here', _⟩ := heads.node same here
      rw [here']
      rfl
  have before : ∀ j n, j ≠ i → s'.nodes j = some n → ∃ n₀, s.nodes j = some n₀ ∧ n₀.type = n.type ∧ n₀.nlinks = n.nlinks :=
    fun j n other here => heads.symm.node other here
  constructor
  · exact alloc
  · exact readable
  · exact tree
  · intro d c j found
    rcases new d c j found with old | ⟨same, _⟩
    · exact alive j (names.live d c j old)
    · rw [same, node]
      rfl
  · intro j n here isLeaf
    by_cases same : j = i
    · subst same
      rw [node] at here
      cases here
      exact links isLeaf
    · obtain ⟨n₀, here₀, type, nlinks⟩ := before j n same here
      rw [others j same, ← nlinks]
      exact names.links j n₀ here₀ (type ▸ isLeaf)
  · intro strict j n here isLeaf
    by_cases same : j = i
    · subst same
      rw [node] at here
      cases here
      exact counted strict isLeaf
    · obtain ⟨n₀, here₀, type, nlinks⟩ := before j n same here
      rw [others j same, ← nlinks]
      exact names.counted strict j n₀ here₀ (type ▸ isLeaf)
  · intro p j here
    rw [paths] at here
    rw [files]
    obtain ⟨found, opened⟩ := names.cached p j here
    exact ⟨walk_mono more found, opened⟩
  · exact files ▸ names.rootFile
  · intro j file here
    rw [files] at here
    exact alive j (names.files j file here)
  · intro j file here special
    rw [files] at here
    exact NewEdges.special new names here special
  · intro p j special found closed
    rw [files] at closed
    exact NewEdges.unopened new names (fun _ => leaf) special found closed
  · intro strict
    obtain ⟨root, step, oneParent⟩ := names.permitted strict
    refine ⟨files ▸ root, ?_, ?_⟩
    · intro d c j file found here
      rw [files] at here ⊢
      rcases new d c j found with old | ⟨same, _⟩
      · exact step d c j file old here
      · subst same
        obtain ⟨c', old⟩ := sibling strict d c found (by rw [here]; rfl)
        exact step d c' j file old here
    · intro d c d' c' j first second
      by_cases same : j = i
      · subst same
        exact single strict d c d' c' first second
      · rcases new d c j first with old | ⟨equal, _⟩
        · rcases new d' c' j second with old' | ⟨equal, _⟩
          · exact oneParent d c d' c' j old old'
          · exact absurd equal same
        · exact absurd equal same
  · exact reached

/-- What goes with an entry: the edge, its path in the cache, and the inode with its file object or
one link of it. -/
structure Loses (level : Level) (s s' : Fs) (q : Path) (c : Name) (d i : BucketIndex) : Prop where
  above : s.walk q = some d
  last : edge s.nodes d c = some i
  edges : edge s'.nodes = cut (edge s.nodes) d c
  heads : HeadsBut i s.nodes s'.nodes
  empty : ∀ c, edge s.nodes i c = none
  paths : s'.pathInodeCache = Function.update s.pathInodeCache (c :: q) none
  after : (s'.nodes i = none ∧ s'.inodeFileCache = Function.update s.inodeFileCache i none ∧
      ∀ d' c', edge s'.nodes d' c' ≠ some i) ∨
    (s'.inodeFileCache = s.inodeFileCache ∧ ∃ n n', s.nodes i = some n ∧ s'.nodes i = some n' ∧ n'.type = n.type ∧
      n.type ≠ .DIR ∧ (0 < n.nlinks ∧ n'.nlinks = n.nlinks - 1 ∨ n'.nlinks = n.nlinks ∧ ¬level.counted))

namespace Loses
variable {q : Path} {c : Name} {d i j : BucketIndex}

theorem less (loses : Loses level s s' q c d i) {d' j : BucketIndex} {c' : Name} (found : edge s'.nodes d' c' = some j) :
    edge s.nodes d' c' = some j := by
  rw [loses.edges] at found
  exact (cut_eq_some.mp found).2

/-- No other edge is lost. -/
theorem kept (loses : Loses level s s' q c d i) {d' j : BucketIndex} {c' : Name} (found : edge s.nodes d' c' = some j)
    (other : ¬(d' = d ∧ c' = c)) : edge s'.nodes d' c' = some j := by
  rw [loses.edges]
  exact cut_eq_some.mpr ⟨other, found⟩

theorem ne_root (loses : Loses level s s' q c d i) (names : Names level s) : i ≠ rootIndex := by
  intro same
  exact names.tree.no_root d c (same ▸ loses.last)

theorem files (loses : Loses level s s' q c d i) {file : FileObject} (here : s'.inodeFileCache j = some file) :
    s.inodeFileCache j = some file := by
  rcases loses.after with ⟨_, files, _⟩ | ⟨files, _⟩
  · rw [files] at here
    by_cases same : j = i
    · simp [same] at here
    · rw [Function.update_of_ne same] at here
      exact here
  · exact files ▸ here

/-- What is still reached is still open. -/
theorem filesKept (loses : Loses level s s' q c d i) (names : Names level s)
    (reached : j = rootIndex ∨ ∃ d' c', edge s'.nodes d' c' = some j) : s'.inodeFileCache j = s.inodeFileCache j := by
  rcases loses.after with ⟨_, files, unreached⟩ | ⟨files, _⟩
  · rw [files, Function.update_of_ne]
    intro same
    rcases reached with root | ⟨d', c', found⟩
    · exact loses.ne_root names (same ▸ root)
    · exact unreached d' c' (same ▸ found)
  · rw [files]

theorem count (loses : Loses level s s' q c d i) (j : BucketIndex) :
    (NameGraph.links (edge s'.nodes) j).encard + (if j = i then 1 else 0) = (NameGraph.links (edge s.nodes) j).encard := by
  rw [loses.edges]
  exact encard_links_cut loses.last j

/-- The inode that loses its entry is not a directory any more. -/
theorem not_mem_dirs (loses : Loses level s s' q c d i) : i ∉ dirs s'.nodes := by
  rintro ⟨m, there, dir⟩
  rcases loses.after with ⟨none, _⟩ | ⟨_, n, n', _, here', type, isLeaf, _⟩
  · rw [none] at there
    cases there
  · rw [here'] at there
    cases there
    exact isLeaf (type ▸ dir)

theorem tree (loses : Loses level s s' q c d i) (names : Names level s) : Tree (edge s'.nodes) rootIndex (dirs s'.nodes) := by
  have tree := names.tree.cut d c
  rw [← loses.edges] at tree
  have noEdge : ∀ c, edge s'.nodes i c = none := fun c => edge_of_leaf loses.not_mem_dirs c
  have smaller : dirs s'.nodes = dirs s.nodes \ {i} := by
    ext j
    by_cases same : j = i
    · rw [same]
      exact ⟨fun member => absurd member loses.not_mem_dirs, fun member => absurd rfl member.2⟩
    · rw [loses.heads.mem_dirs same]
      exact ⟨fun member => ⟨member, same⟩, fun member => member.1⟩
  rw [smaller]
  exact tree.drop_dir noEdge (loses.ne_root names)

theorem live (loses : Loses level s s' q c d i) (names : Names level s) {d' j : BucketIndex} {c' : Name}
    (found : edge s'.nodes d' c' = some j) : (s'.nodes j).isSome := by
  have alive := names.live d' c' j (loses.less found)
  by_cases same : j = i
  · rcases loses.after with ⟨_, _, unreached⟩ | ⟨_, n, n', _, here', _⟩
    · exact absurd (same ▸ found) (unreached d' c')
    · rw [same, here']
      rfl
  · obtain ⟨n, here⟩ := Option.isSome_iff_exists.mp alive
    obtain ⟨n', here', _⟩ := loses.heads.node same here
    rw [here']
    rfl

theorem links (loses : Loses level s s' q c d i) (names : Names level s) {n : Inode} (here : s'.nodes j = some n) (isLeaf : n.type ≠ .DIR) :
    0 ≤ n.nlinks ∧ (NameGraph.links (edge s'.nodes) j).encard ≤ n.nlinks.toNat := by
  have count := loses.count j
  by_cases same : j = i
  · subst same
    rcases loses.after with ⟨gone, _⟩ | ⟨_, n₀, n', here₀, here', type, isLeaf₀, less | ⟨equal, _⟩⟩
    · rw [gone] at here
      cases here
    · rw [here'] at here
      cases here
      obtain ⟨_, bound⟩ := names.links j n₀ here₀ isLeaf₀
      have amount : n₀.nlinks.toNat = n.nlinks.toNat + 1 := by omega
      rw [← count, if_pos rfl, amount, Nat.cast_add, Nat.cast_one] at bound
      exact ⟨by omega, (ENat.add_le_add_iff_right ENat.one_ne_top).mp bound⟩
    · rw [here'] at here
      cases here
      obtain ⟨positive, bound⟩ := names.links j n₀ here₀ isLeaf₀
      rw [equal]
      exact ⟨positive, le_trans (le_trans le_self_add count.le) bound⟩
  · obtain ⟨n₀, here₀, type, nlinks⟩ := loses.heads.symm.node same here
    have links := names.links j n₀ here₀ (type ▸ isLeaf)
    rw [← count, if_neg same, add_zero, nlinks] at links
    exact links

theorem counted (loses : Loses level s s' q c d i) (names : Names level s) (strict : level.counted) {n : Inode} (here : s'.nodes j = some n)
    (isLeaf : n.type ≠ .DIR) : (NameGraph.links (edge s'.nodes) j).encard = n.nlinks.toNat := by
  have count := loses.count j
  by_cases same : j = i
  · subst same
    rcases loses.after with ⟨gone, _⟩ | ⟨_, n₀, n', here₀, here', type, isLeaf₀, less | ⟨_, loose⟩⟩
    · rw [gone] at here
      cases here
    · rw [here'] at here
      cases here
      have exactly := names.counted strict j n₀ here₀ isLeaf₀
      have amount : n₀.nlinks.toNat = n.nlinks.toNat + 1 := by omega
      rw [← count, if_pos rfl, amount, Nat.cast_add, Nat.cast_one] at exactly
      exact ENat.add_left_injective_of_ne_top ENat.one_ne_top exactly
    · exact absurd strict loose
  · obtain ⟨n₀, here₀, type, nlinks⟩ := loses.heads.symm.node same here
    have counted := names.counted strict j n₀ here₀ (type ▸ isLeaf)
    rw [← count, if_neg same, add_zero, nlinks] at counted
    exact counted

theorem walk_less (loses : Loses level s s' q c d i) {p : Path} (found : s'.walk p = some j) : s.walk p = some j :=
  walk_mono (fun _ _ _ => loses.less) found

theorem reached_of_walk {p : Path} (found : s'.walk p = some j) : j = rootIndex ∨ ∃ d' c', edge s'.nodes d' c' = some j := by
  cases p with
  | nil =>
    cases found
    exact Or.inl rfl
  | cons x p =>
    obtain ⟨d', _, last⟩ := Fs.walk_cons.mp found
    exact Or.inr ⟨d', x, last⟩

theorem cached (loses : Loses level s s' q c d i) (names : Names level s) {p : Path} (here : s'.pathInodeCache p = some j) :
    s'.walk p = some j ∧ (s'.inodeFileCache j).isSome := by
  rw [loses.paths] at here
  by_cases same : p = c :: q
  · simp [same] at here
  · rw [Function.update_of_ne same] at here
    obtain ⟨found, opened⟩ := names.cached p j here
    -- nothing below the entry was found
    have outside : ¬(c :: q <:+ p) := by
      intro inside
      rcases walk_suffix found inside with equal | ⟨i', x, k, atEnd, further⟩
      · exact same equal.symm
      · rw [NameGraph.walk, show NameGraph.walk (edge s.nodes) rootIndex q = some d from loses.above, Option.bind_some, loses.last] at atEnd
        cases atEnd
        rw [loses.empty x] at further
        cases further
    have found' : s'.walk p = some j :=
      names.tree.walk_cut loses.above (names.tree.source d c i loses.last) (fun _ _ _ => loses.kept) found outside
    refine ⟨found', ?_⟩
    rw [loses.filesKept names (reached_of_walk found')]
    exact opened

theorem alive (loses : Loses level s s' q c d i) (names : Names level s) {file : FileObject} (here : s'.inodeFileCache j = some file) :
    (s'.nodes j).isSome := by
  have alive := names.files j file (loses.files here)
  by_cases same : j = i
  · rcases loses.after with ⟨_, gone, _⟩ | ⟨_, n, n', _, here', _⟩
    · rw [gone, same] at here
      simp at here
    · rw [same, here']
      rfl
  · obtain ⟨n, there⟩ := Option.isSome_iff_exists.mp alive
    obtain ⟨n', there', _⟩ := loses.heads.node same there
    rw [there']
    rfl

theorem no_edge (loses : Loses level s s' q c d i) (before : ∀ x, edge s.nodes j x = none) (x : Name) : edge s'.nodes j x = none := by
  cases found : edge s'.nodes j x with
  | none => rfl
  | some k =>
    have nothing := before x
    rw [loses.less found] at nothing
    cases nothing

theorem permitted (loses : Loses level s s' q c d i) (permitted : Permitted s) : Permitted s' := by
  obtain ⟨root, step, single⟩ := permitted
  refine ⟨fun file here => root file (loses.files here), ?_, ?_⟩
  · intro d' c' j file found here
    have old := loses.less found
    obtain ⟨parent, folder, list⟩ := step d' c' j file old (loses.files here)
    refine ⟨parent, ?_, list⟩
    rcases loses.after with ⟨_, gone, _⟩ | ⟨same, _⟩
    · rw [gone, Function.update_of_ne]
      · exact folder
      · intro same
        rw [same, loses.empty c'] at old
        cases old
    · rw [same]
      exact folder
  · intro d₁ c₁ d₂ c₂ j first second
    exact single d₁ c₁ d₂ c₂ j (loses.less first) (loses.less second)

theorem reached (loses : Loses level s s' q c d i) (reached : Reached (edge s.nodes) rootIndex (dirs s.nodes)) :
    Reached (edge s'.nodes) rootIndex (dirs s'.nodes) := by
  have fewer : dirs s'.nodes ⊆ dirs s.nodes := fun j member =>
    (loses.heads.mem_dirs (fun same => loses.not_mem_dirs (same ▸ member))).mp member
  rw [loses.edges]
  exact reached.cut loses.last loses.empty fewer loses.not_mem_dirs

end Loses

/-- An entry goes, and its inode with it or one link less. -/
theorem Names.remove (names : Names level s) {q : Path} {c : Name} {d i : BucketIndex} (alloc : Alloc s')
    (readable : Readable s'.nodes) (above : s.walk q = some d) (last : edge s.nodes d c = some i)
    (edges : edge s'.nodes = cut (edge s.nodes) d c) (heads : HeadsBut i s.nodes s'.nodes)
    (empty : ∀ c, edge s.nodes i c = none) (paths : s'.pathInodeCache = Function.update s.pathInodeCache (c :: q) none)
    (after : (s'.nodes i = none ∧ s'.inodeFileCache = Function.update s.inodeFileCache i none ∧
        ∀ d' c', edge s'.nodes d' c' ≠ some i) ∨
      (s'.inodeFileCache = s.inodeFileCache ∧ ∃ n n', s.nodes i = some n ∧ s'.nodes i = some n' ∧ n'.type = n.type ∧
        n.type ≠ .DIR ∧ (0 < n.nlinks ∧ n'.nlinks = n.nlinks - 1 ∨ n'.nlinks = n.nlinks ∧ ¬level.counted))) :
    Names level s' := by
  have loses : Loses level s s' q c d i := ⟨above, last, edges, heads, empty, paths, after⟩
  constructor
  · exact alloc
  · exact readable
  · exact loses.tree names
  · exact fun _ _ _ found => loses.live names found
  · exact fun _ _ here isLeaf => loses.links names here isLeaf
  · exact fun strict _ _ here isLeaf => loses.counted names strict here isLeaf
  · exact fun _ _ here => loses.cached names here
  · rw [loses.filesKept names (Or.inl rfl)]
    exact names.rootFile
  · exact fun _ _ here => loses.alive names here
  · exact fun j file here special => loses.no_edge (names.special j file (loses.files here) special)
  · intro p j special found closed
    rw [loses.filesKept names (Loses.reached_of_walk found)] at closed
    exact loses.no_edge (names.unopened p j special (loses.walk_less found) closed)
  · exact fun strict => loses.permitted (names.permitted strict)
  · exact fun strict => loses.reached (names.reached strict)

/-- What moves with an entry: its edge, which is lost where the new folder is no directory. -/
structure Moves (level : Level) (s s' : Fs) (q : Path) (c c' : Name) (d d' i : BucketIndex) (parent : FileObject) : Prop where
  heads : SameHeads s.nodes s'.nodes
  files : s'.inodeFileCache = s.inodeFileCache
  above : s.walk q = some d
  last : edge s.nodes d c = some i
  absent : edge s.nodes d' c' = none
  folder : s.inodeFileCache d' = some parent
  edges : d' ∈ dirs s.nodes ∧ parent.special = false ∧ edge s'.nodes = cut (link (edge s.nodes) d' c' i) d c ∨
    ¬level.counted ∧ edge s'.nodes = cut (edge s.nodes) d c

namespace Moves
variable {q : Path} {c c' : Name} {d d' i j : BucketIndex} {parent : FileObject}

theorem new (moves : Moves level s s' q c c' d d' i parent) {x : BucketIndex} {y : Name} (found : edge s'.nodes x y = some j) :
    edge s.nodes x y = some j ∨ x = d' ∧ j = i ∧ parent.special = false := by
  rcases moves.edges with ⟨_, plain, edges⟩ | ⟨_, edges⟩
  · rw [edges] at found
    rcases link_eq_some (cut_eq_some.mp found).2 with ⟨atFolder, _, same⟩ | old
    · exact Or.inr ⟨atFolder, same, plain⟩
    · exact Or.inl old
  · rw [edges] at found
    exact Or.inl (cut_eq_some.mp found).2

theorem newEdges (moves : Moves level s s' q c c' d d' i parent) : NewEdges s s' i := by
  intro x y j found
  rcases moves.new found with old | ⟨atFolder, same, plain⟩
  · exact Or.inl old
  · exact Or.inr ⟨same, parent, atFolder ▸ moves.folder, plain⟩

theorem kept (moves : Moves level s s' q c c' d d' i parent) {x : BucketIndex} {y : Name} (found : edge s.nodes x y = some j)
    (other : ¬(x = d ∧ y = c)) : edge s'.nodes x y = some j := by
  rcases moves.edges with ⟨_, _, edges⟩ | ⟨_, edges⟩
  · rw [edges]
    exact cut_eq_some.mpr ⟨other, link_mono moves.absent i x y j found⟩
  · rw [edges]
    exact cut_eq_some.mpr ⟨other, found⟩

theorem count_le (moves : Moves level s s' q c c' d d' i parent) (j : BucketIndex) :
    (NameGraph.links (edge s'.nodes) j).encard ≤ (NameGraph.links (edge s.nodes) j).encard ∧
      (level.counted → (NameGraph.links (edge s'.nodes) j).encard = (NameGraph.links (edge s.nodes) j).encard) := by
  rcases moves.edges with ⟨_, _, edges⟩ | ⟨loose, edges⟩
  · have removed := encard_links_cut (link_mono moves.absent i d c i moves.last) j
    rw [encard_links_link moves.absent i j, ← edges] at removed
    have equal : (NameGraph.links (edge s'.nodes) j).encard = (NameGraph.links (edge s.nodes) j).encard := by
      split at removed
      · exact ENat.add_left_injective_of_ne_top ENat.one_ne_top removed
      · simpa using removed
    exact ⟨equal.le, fun _ => equal⟩
  · have removed := encard_links_cut moves.last j
    rw [← edges] at removed
    exact ⟨le_trans le_self_add removed.le, fun strict => absurd strict loose⟩

theorem before (moves : Moves level s s' q c c' d d' i parent) {n : Inode} (here : s'.nodes j = some n) :
    ∃ n₀, s.nodes j = some n₀ ∧ n₀.type = n.type ∧ n₀.nlinks = n.nlinks := by
  obtain ⟨n₀, here₀, head⟩ := moves.heads.symm.node here
  have type := congrArg Inode.type head
  have nlinks := congrArg Inode.nlinks head
  exact ⟨n₀, here₀, type, nlinks⟩

theorem tree (moves : Moves level s s' q c c' d d' i parent) (names : Names level s) : Tree (edge s'.nodes) rootIndex (dirs s'.nodes) := by
  rw [moves.heads.dirs]
  rcases moves.edges with ⟨dir, _, edges⟩ | ⟨_, edges⟩
  · rw [edges]
    exact names.tree.move moves.last dir
  · rw [edges]
    exact names.tree.cut d c

theorem live (moves : Moves level s s' q c c' d d' i parent) (names : Names level s) {x : BucketIndex} {y : Name}
    (found : edge s'.nodes x y = some j) : (s'.nodes j).isSome := by
  apply moves.heads.alive
  rcases moves.new found with old | ⟨_, same, _⟩
  · exact names.live x y j old
  · rw [same]
    exact names.live d c i moves.last

theorem links (moves : Moves level s s' q c c' d d' i parent) (names : Names level s) {n : Inode} (here : s'.nodes j = some n)
    (isLeaf : n.type ≠ .DIR) : 0 ≤ n.nlinks ∧ (NameGraph.links (edge s'.nodes) j).encard ≤ n.nlinks.toNat := by
  obtain ⟨n₀, here₀, type, nlinks⟩ := moves.before here
  obtain ⟨positive, bound⟩ := names.links j n₀ here₀ (type ▸ isLeaf)
  rw [← nlinks]
  exact ⟨positive, le_trans (moves.count_le j).1 bound⟩

theorem counted (moves : Moves level s s' q c c' d d' i parent) (names : Names level s) (strict : level.counted) {n : Inode}
    (here : s'.nodes j = some n) (isLeaf : n.type ≠ .DIR) : (NameGraph.links (edge s'.nodes) j).encard = n.nlinks.toNat := by
  obtain ⟨n₀, here₀, type, nlinks⟩ := moves.before here
  rw [← nlinks, (moves.count_le j).2 strict]
  exact names.counted strict j n₀ here₀ (type ▸ isLeaf)

/-- Lists of rights stay true where the entry keeps its folder. -/
theorem permitted (moves : Moves level s s' q c c' d d' i parent) (permitted : Permitted s) (sameFolder : d = d') : Permitted s' := by
  obtain ⟨root, step, single⟩ := permitted
  have source : ∀ {x y j}, edge s'.nodes x y = some j → ∃ y', edge s.nodes x y' = some j := by
    intro x y j found
    rcases moves.new found with old | ⟨atFolder, same, _⟩
    · exact ⟨y, old⟩
    · rw [atFolder, ← sameFolder, same]
      exact ⟨c, moves.last⟩
  refine ⟨moves.files ▸ root, ?_, ?_⟩
  · intro x y j file found here
    rw [moves.files] at here ⊢
    obtain ⟨y', old⟩ := source found
    exact step x y' j file old here
  · intro x₁ y₁ x₂ y₂ j first second
    obtain ⟨z₁, old₁⟩ := source first
    obtain ⟨z₂, old₂⟩ := source second
    exact single x₁ z₁ x₂ z₂ j old₁ old₂

theorem reached (moves : Moves level s s' q c c' d d' i parent) (names : Names level s) (strict : level.counted) {q' : Path}
    (above' : s.walk q' = some d') (outside : ¬c :: q <:+ q') : Reached (edge s'.nodes) rootIndex (dirs s'.nodes) := by
  rw [moves.heads.dirs]
  rcases moves.edges with ⟨_, _, edges⟩ | ⟨loose, _⟩
  · rw [edges]
    exact (names.reached strict).move names.tree moves.above moves.last above' moves.absent outside
  · exact absurd strict loose

end Moves

/-- An entry moves to another directory or gets another name. -/
theorem Names.move (names : Names level s) {q q' : Path} {c c' : Name} {d d' i : BucketIndex} {parent : FileObject}
    (alloc : Alloc s') (readable : Readable s'.nodes) (heads : SameHeads s.nodes s'.nodes)
    (files : s'.inodeFileCache = s.inodeFileCache) (above : s.walk q = some d) (last : edge s.nodes d c = some i)
    (opened : (s.inodeFileCache i).isSome) (above' : s.walk q' = some d') (absent : edge s.nodes d' c' = none)
    (outside : ¬c :: q <:+ q') (folder : s.inodeFileCache d' = some parent)
    (edges : d' ∈ dirs s.nodes ∧ parent.special = false ∧ edge s'.nodes = cut (link (edge s.nodes) d' c' i) d c ∨
      ¬level.counted ∧ edge s'.nodes = cut (edge s.nodes) d c)
    (below : ∀ p j, s.pathInodeCache p = some j → c :: q <:+ p → p = c :: q)
    (paths : ∀ p j, s'.pathInodeCache p = some j → p ≠ c :: q ∧ s.pathInodeCache p = some j)
    (sameParent : level.permitted → d = d') : Names level s' := by
  have moves : Moves level s s' q c c' d d' i parent := ⟨heads, files, above, last, absent, folder, edges⟩
  constructor
  · exact alloc
  · exact readable
  · exact moves.tree names
  · exact fun _ _ _ found => moves.live names found
  · exact fun _ _ here isLeaf => moves.links names here isLeaf
  · exact fun strict _ _ here isLeaf => moves.counted names strict here isLeaf
  · intro p j here
    obtain ⟨other, here⟩ := paths p j here
    obtain ⟨found, isOpen⟩ := names.cached p j here
    rw [files]
    exact ⟨names.tree.walk_cut above (names.tree.source d c i last) (fun _ _ _ => moves.kept) found
      (fun inside => other (below p j here inside)), isOpen⟩
  · exact files ▸ names.rootFile
  · intro j file here
    rw [files] at here
    exact heads.alive (names.files j file here)
  · intro j file here special
    rw [files] at here
    exact moves.newEdges.special names here special
  · intro p j special found closed
    rw [files] at closed
    apply moves.newEdges.unopened names _ special found closed
    intro shut
    rw [shut] at opened
    cases opened
  · exact fun strict => moves.permitted (names.permitted strict) (sameParent strict)
  · exact fun strict => moves.reached names strict above' outside

end Changes

end CloudCryptFS.Filesystem
