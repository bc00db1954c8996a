import CloudCryptFS.Filesystem.Entries

/-! The tree and its caches between two calls. The stored directories form a tree, each
inode is linked no more often than it counts, and each cached path leads to the inode
that the directories spell. Two stricter levels of this are kept by fewer calls: that
the counts are exact, and that the directories on the list of a file are those on its
path. -/

namespace CloudCryptFS.Filesystem
open Util NameGraph Script Script.Lexer Script.Json

section Cache

/-- Files have been opened, and paths below `p` cached. -/
structure Looked (p : Path) (s s' : Fs) : Prop where
  slots : s'.slots = s.slots
  accounting : s'.accounting = s.accounting
  files : ∀ i file, s.inodeFileCache i = some file → s'.inodeFileCache i = some file
  paths : ∀ q i, s'.pathInodeCache q = some i → s.pathInodeCache q = some i ∨ q <:+ p

theorem Looked.refl (p : Path) (s : Fs) : Looked p s s :=
  ⟨rfl, rfl, fun _ _ here => here, fun _ _ here => Or.inl here⟩

theorem Looked.nodes {p : Path} {s s' : Fs} (looked : Looked p s s') : s'.nodes = s.nodes := Fs.nodes_congr looked.slots

theorem Looked.trans {p q r : Path} {s t s' : Fs} (first : Looked p s t) (second : Looked q t s') (left : p <:+ r) (right : q <:+ r) :
    Looked r s s' :=
  ⟨second.slots.trans first.slots, second.accounting.trans first.accounting,
    fun i file here => second.files i file (first.files i file here), fun x i here => by
      rcases second.paths x i here with before | inside
      · exact (first.paths x i before).imp id (fun inside => inside.trans left)
      · exact Or.inr (inside.trans right)⟩

private theorem getCached_of_none {s : Fs} {p : Path} (fresh : s.pathInodeCache p = none) : getCached p s = some (none, s) := by
  unfold getCached
  rw [Run.bind_of_some (t := s) (a := s) rfl, fresh]
  rfl

private theorem getCached_of_some {s : Fs} {p : Path} {i : BucketIndex} (cached : s.pathInodeCache p = some i)
    (opened : (s.inodeFileCache i).isSome) : getCached p s = some (some i, s) := by
  unfold getCached
  rw [Run.bind_of_some (t := s) (a := s) rfl, cached]
  dsimp only
  rw [Run.bind_of_some (inodeToFile_of_open opened _ _)]
  rfl

end Cache

variable [Floats]

/-- The inode at the end of a path, by the directories. -/
def Fs.walk (s : Fs) (path : Path) : Option BucketIndex := NameGraph.walk (edge s.nodes) rootIndex path

structure Level where
  counted : Prop
  permitted : Prop

/-- The list of each open file continues that of the directory it lies in. -/
structure Permitted (s : Fs) : Prop where
  root : ∀ file, s.inodeFileCache rootIndex = some file → file.pathPermissions = []
  step : ∀ d c i file, edge s.nodes d c = some i → s.inodeFileCache i = some file →
    ∃ parent, s.inodeFileCache d = some parent ∧ file.pathPermissions = parent.pathPermissions ++ [d]
  single : ∀ d c d' c' i, edge s.nodes d c = some i → edge s.nodes d' c' = some i → d = d'

structure Names (level : Level) (s : Fs) : Prop where
  alloc : Alloc s
  readable : Readable s.nodes
  tree : Tree (edge s.nodes) rootIndex (dirs s.nodes)
  live : ∀ d c i, edge s.nodes d c = some i → (s.nodes i).isSome
  links : ∀ i n, s.nodes i = some n → n.type ≠ .DIR →
    0 ≤ n.nlinks ∧ (links (edge s.nodes) i).encard ≤ n.nlinks.toNat
  counted : level.counted → ∀ i n, s.nodes i = some n → n.type ≠ .DIR →
    (NameGraph.links (edge s.nodes) i).encard = n.nlinks.toNat
  cached : ∀ p i, s.pathInodeCache p = some i → s.walk p = some i ∧ (s.inodeFileCache i).isSome
  rootFile : (s.inodeFileCache rootIndex).isSome
  files : ∀ i file, s.inodeFileCache i = some file → (s.nodes i).isSome
  special : ∀ i file, s.inodeFileCache i = some file → file.special = true → ∀ c, edge s.nodes i c = none
  unopened : ∀ p i, specialPath p = true → s.walk p = some i → s.inodeFileCache i = none → ∀ c, edge s.nodes i c = none
  permitted : level.permitted → Permitted s
  reached : level.counted → Reached (edge s.nodes) rootIndex (dirs s.nodes)

section Lookup
variable {level : Level} {s : Fs}

theorem Fs.walk_congr {s s' : Fs} (same : edge s'.nodes = edge s.nodes) : s'.walk = s.walk := by
  funext p
  unfold Fs.walk
  rw [same]

theorem Fs.walk_cons {c : Name} {q : Path} {i : BucketIndex} :
    s.walk (c :: q) = some i ↔ ∃ d, s.walk q = some d ∧ edge s.nodes d c = some i := NameGraph.walk_cons

theorem Fs.walk_cons_of {c : Name} {q : Path} {d : BucketIndex} (found : s.walk q = some d) :
    s.walk (c :: q) = edge s.nodes d c := by
  unfold Fs.walk at *
  rw [NameGraph.walk, found, Option.bind_some]

theorem Names.walk_alive (names : Names level s) {p : Path} {i : BucketIndex} (found : s.walk p = some i) : (s.nodes i).isSome := by
  cases p with
  | nil =>
    cases found
    obtain ⟨n, here, _⟩ := names.tree.root_dir
    rw [here]
    rfl
  | cons c q =>
    obtain ⟨d, _, last⟩ := Fs.walk_cons.mp found
    exact names.live d c i last

/-- A path is cached once its file is open. -/
theorem Names.cache (names : Names level s) {p : Path} {i : BucketIndex} (found : s.walk p = some i)
    (opened : (s.inodeFileCache i).isSome) : Names level (s.setPath p (some i)) where
  alloc := names.alloc.congr rfl rfl
  readable := names.readable
  tree := names.tree
  live := names.live
  links := names.links
  counted := names.counted
  cached := fun q j here => by
    by_cases same : q = p
    · have there : i = j := by simpa [Fs.setPath, same] using here
      rw [same, ← there]
      exact ⟨found, opened⟩
    · have before : s.pathInodeCache q = some j := by simpa [Fs.setPath, same] using here
      exact names.cached q j before
  rootFile := names.rootFile
  files := names.files
  special := names.special
  unopened := names.unopened
  permitted := fun level => ⟨(names.permitted level).root, (names.permitted level).step, (names.permitted level).single⟩
  reached := names.reached

/-- A file is opened below the directory it was found in. -/
theorem Names.open (names : Names level s) {c : Name} {q : Path} {d i : BucketIndex} {parent : FileObject}
    (before : s.walk q = some d) (last : edge s.nodes d c = some i) (folder : s.inodeFileCache d = some parent)
    (closed : s.inodeFileCache i = none) :
    Names level (s.setFile i (some ⟨parent.pathPermissions ++ [d], specialPath (c :: q), 0⟩)) := by
  have alive := names.live d c i last
  have found : s.walk (c :: q) = some i := Fs.walk_cons.mpr ⟨d, before, last⟩
  have files : ∀ j, (s.setFile i (some ⟨parent.pathPermissions ++ [d], specialPath (c :: q), 0⟩)).inodeFileCache j =
      if j = i then some ⟨parent.pathPermissions ++ [d], specialPath (c :: q), 0⟩ else s.inodeFileCache j := by
    intro j
    by_cases same : j = i
    · simp [Fs.setFile, same]
    · simp [Fs.setFile, same]
  have kept : ∀ j, (s.inodeFileCache j).isSome →
      ((s.setFile i (some ⟨parent.pathPermissions ++ [d], specialPath (c :: q), 0⟩)).inodeFileCache j).isSome := by
    intro j opened
    rw [files]
    split
    · rfl
    · exact opened
  constructor
  · exact names.alloc.congr rfl rfl
  · exact names.readable
  · exact names.tree
  · exact names.live
  · exact names.links
  · exact names.counted
  · intro p j here
    obtain ⟨there, opened⟩ := names.cached p j here
    exact ⟨there, kept j opened⟩
  · exact kept rootIndex names.rootFile
  · intro j file here
    rw [files] at here
    split at here
    · rename_i same
      rw [same]
      exact alive
    · exact names.files j file here
  · intro j file here isSpecial
    rw [files] at here
    split at here
    · rename_i same
      cases here
      rw [same]
      exact names.unopened (c :: q) i isSpecial found closed
    · exact names.special j file here isSpecial
  · intro p j isSpecial there shut
    rw [files] at shut
    split at shut
    · cases shut
    · exact names.unopened p j isSpecial there shut
  · intro level
    obtain ⟨root, step, single⟩ := names.permitted level
    refine ⟨?_, ?_, single⟩
    · intro file here
      have other : rootIndex ≠ i := by
        intro same
        rw [← same] at last
        exact names.tree.no_root d c last
      rw [files, if_neg other] at here
      exact root file here
    · intro d' c' j file found' here
      rw [files] at here
      split at here
      · rename_i same
        cases here
        rw [same] at found'
        have sameParent := single d' c' d c i found' last
        refine ⟨parent, ?_, by rw [sameParent]⟩
        rw [files, if_neg, sameParent]
        · exact folder
        · intro loop
          rw [← sameParent, loop, closed] at folder
          cases folder
      · obtain ⟨parent', folder', list⟩ := step d' c' j file found' here
        refine ⟨parent', ?_, list⟩
        rw [files, if_neg]
        · exact folder'
        · intro loop
          rw [loop, closed] at folder'
          cases folder'
  · exact names.reached

/-- An open directory answers with its edges. -/
theorem Names.hasNode (names : Names level s) {d : BucketIndex} (dir : d ∈ dirs s.nodes) {file : FileObject}
    (here : s.inodeFileCache d = some file) (c : Name) :
    (∃ e, hasNode d c s = some (.error e, s) ∧ edge s.nodes d c = none) ∨
      ∃ i, hasNode d c s = some (.ok i, s) ∧ edge s.nodes d c = some i := by
  have valid' : valid (some d) s = some (true, s) := valid_eq_some.mpr ⟨by simp [here], rfl⟩
  unfold Filesystem.hasNode
  rw [Run.bind_of_some valid', if_pos rfl]
  cases special : file.special with
  | true =>
    rw [Run.bind_of_some (readDirectory_of_special here special dir)]
    exact Or.inl ⟨_, rfl, names.special d file here special c⟩
  | false =>
    obtain ⟨m, holds⟩ := names.readable d dir
    rw [Run.bind_of_some (readDirectory_of_holds here special holds), holds.edge]
    dsimp only
    rw [m.hasProperty_json]
    have looked := m.lookup_json (F := Floats.F) c
    unfold lookup at looked
    rw [m.hasProperty_json] at looked
    cases found : m.find c with
    | none => exact Or.inl ⟨_, rfl, rfl⟩
    | some i =>
      right
      refine ⟨i, ?_, rfl⟩
      rw [found, Option.isSome_some, if_pos rfl] at looked
      rw [Option.isSome_some, if_pos rfl]
      have index : getIndex (m.json : JSON Floats.F) c s = some (i, s) := by
        unfold getIndex
        split at looked
        · rename_i values same
          rw [same]
          cases looked
          rfl
        · cases looked
      rw [Run.bind_of_some index]
      rfl

/-- A lookup has come to its end as the directories say, and what it has found is open. -/
def Answers (level : Level) (p : Path) (s : Fs) (result : Option (FilePtr × Fs)) : Prop :=
  ∃ s', result = some (s.walk p, s') ∧ Names level s' ∧ Looked p s s' ∧ ∀ i, s.walk p = some i → (s'.inodeFileCache i).isSome

theorem Answers.of_none {p : Path} (nowhere : s.walk p = none) (names : Names level s') (looked : Looked p s s') :
    Answers level p s (some (none, s')) := by
  refine ⟨s', by rw [nowhere], names, looked, fun i found => ?_⟩
  rw [nowhere] at found
  cases found

theorem Answers.of_some {p : Path} {i : BucketIndex} (found : s.walk p = some i) (names : Names level s') (looked : Looked p s s')
    (opened : (s'.inodeFileCache i).isSome) : Answers level p s (some (some i, s')) := by
  refine ⟨s', by rw [found], names, looked, fun j same => ?_⟩
  cases found.symm.trans same
  exact opened

theorem Names.getCached (names : Names level s) {p : Path} {i : BucketIndex} (cached : s.pathInodeCache p = some i) :
    Filesystem.getCached p s = some (some i, s) ∧ Answers level p s (some (some i, s)) := by
  obtain ⟨found, opened⟩ := names.cached p i cached
  exact ⟨getCached_of_some cached opened, Answers.of_some found names (Looked.refl p s) opened⟩

/-- No directory holds so long a name. -/
theorem Names.walk_long (names : Names level s) {c : Name} (q : Path) (long : c.length > 255) : s.walk (c :: q) = none := by
  by_contra somewhere
  obtain ⟨i, found⟩ := Option.ne_none_iff_exists'.mp somewhere
  obtain ⟨d, _, last⟩ := Fs.walk_cons.mp found
  have short := (names.readable.edge_name last).2.1
  omega

/-- What a directory has is cached and opened. -/
theorem Names.enter (names : Names level s) {c : Name} {q : Path} {d i : BucketIndex} {folder : FileObject} (before : s.walk q = some d)
    (last : edge s.nodes d c = some i) (folderHere : s.inodeFileCache d = some folder) :
    ∃ s', (do
        update (fun s => s.setPath (c :: q) (some i))
        let pPerm ← getPathPermissions d
        inodeToFile i (some (c :: q)) (pPerm ++ [d]) : FsM FilePtr) s = some (some i, s') ∧
      Names level s' ∧ Looked (c :: q) s s' ∧ (s'.inodeFileCache i).isSome := by
  have found : s.walk (c :: q) = some i := Fs.walk_cons.mpr ⟨d, before, last⟩
  have real : i ≠ 0 := Nat.pos_iff_ne_zero.mp (names.readable.edge_index last).1
  have pathsOf : ∀ p j, (s.setPath (c :: q) (some i)).pathInodeCache p = some j → s.pathInodeCache p = some j ∨ p <:+ c :: q := by
    intro p j here
    by_cases same : p = c :: q
    · right
      rw [same]
    · left
      simpa [Fs.setPath, same] using here
  rw [Run.bind_of_some (t := s.setPath (c :: q) (some i)) (a := ()) rfl,
    Run.bind_of_some (t := s.setPath (c :: q) (some i)) (a := folder.pathPermissions) (by simp [getPathPermissions, Fs.setPath, folderHere])]
  cases file : s.inodeFileCache i with
  | some file' =>
    have opened : ((s.setPath (c :: q) (some i)).inodeFileCache i).isSome := by
      rw [show (s.setPath (c :: q) (some i)).inodeFileCache i = s.inodeFileCache i from rfl, file]
      rfl
    exact ⟨_, inodeToFile_of_open opened _ _, names.cache found opened, ⟨rfl, rfl, fun _ _ here => here, pathsOf⟩, opened⟩
  | none =>
    have names' := names.open (c := c) before last folderHere file
    have opened : ((s.setFile i (some ⟨folder.pathPermissions ++ [d], specialPath (c :: q), 0⟩)).inodeFileCache i).isSome := by simp [Fs.setFile]
    refine ⟨(s.setFile i (some ⟨folder.pathPermissions ++ [d], specialPath (c :: q), 0⟩)).setPath (c :: q) (some i), ?_,
      names'.cache found opened, ⟨rfl, rfl, ?_, pathsOf⟩, opened⟩
    · rw [inodeToFile_of_closed (s := s.setPath (c :: q) (some i)) file real, if_pos]
      · rfl
      · exact names.live d c i last
    · intro j file' here
      have other : j ≠ i := by
        intro same
        rw [same, file] at here
        cases here
      simpa [Fs.setFile, Fs.setPath, other] using here

/-- The lookup of a name in the directory that has been found. -/
theorem Names.getChild (names : Names level s) {c : Name} {q : Path} {d : BucketIndex} (before : s.walk q = some d)
    (opened : (s.inodeFileCache d).isSome) :
    Answers level (c :: q) s ((do
      let n ← INode (some d)
      if n.type ≠ .DIR then pure none
      else
        match ← Filesystem.hasNode d c with
        | .error _ => pure none
        | .ok i => do
          Run.assert (i ≠ 0)
          update (fun s => s.setPath (c :: q) (some i))
          let pPerm ← getPathPermissions d
          inodeToFile i (some (c :: q)) (pPerm ++ [d]) : FsM FilePtr) s) := by
  have step := Fs.walk_cons_of (c := c) before
  obtain ⟨folder, folderHere⟩ := Option.isSome_iff_exists.mp opened
  obtain ⟨n, node⟩ := Option.isSome_iff_exists.mp (names.walk_alive before)
  obtain ⟨n', slot, rfl⟩ := Fs.nodes_eq_some.mp node
  rw [Run.bind_of_some (INode_eq_some.mpr ⟨slot, rfl⟩)]
  by_cases leaf : n'.type ≠ .DIR
  · rw [if_pos leaf]
    apply Answers.of_none _ names (Looked.refl _ s)
    rw [step]
    apply edge_of_leaf
    rintro ⟨m, node', dir⟩
    cases node.symm.trans node'
    exact leaf dir
  · rw [if_neg leaf]
    rcases names.hasNode ⟨n'.seen, node, not_not.mp leaf⟩ folderHere c with ⟨e, answered, none⟩ | ⟨i, answered, last⟩
    · rw [Run.bind_of_some answered]
      exact Answers.of_none (step.trans none) names (Looked.refl _ s)
    · have real : i ≠ 0 := Nat.pos_iff_ne_zero.mp (names.readable.edge_index last).1
      obtain ⟨s', entered, names', looked, here⟩ := names.enter before last folderHere
      rw [Run.bind_of_some answered]
      dsimp only
      rw [Run.bind_of_some (Run.assert_eq_some.mpr ⟨real, rfl⟩), entered]
      exact Answers.of_some (step.trans last) names' looked here

/-- The lookup of a path answers as the directories do, whatever is cached. -/
theorem Names.get (names : Names level s) (p : Path) :
    ∃ s', get p s = some (s.walk p, s') ∧ Names level s' ∧ Looked p s s' ∧
      ∀ i, s.walk p = some i → (s'.inodeFileCache i).isSome := by
  change Answers level p s (Filesystem.get p s)
  induction p with
  | nil =>
    unfold Filesystem.get
    cases cached : s.pathInodeCache [] with
    | none =>
      rw [Run.bind_of_some (getCached_of_none cached)]
      exact Answers.of_some rfl names (Looked.refl [] s) names.rootFile
    | some i =>
      obtain ⟨ran, answers⟩ := names.getCached cached
      rw [Run.bind_of_some ran]
      exact answers
  | cons c q ih =>
    unfold Filesystem.get
    cases cached : s.pathInodeCache (c :: q) with
    | some i =>
      obtain ⟨ran, answers⟩ := names.getCached cached
      rw [Run.bind_of_some ran]
      exact answers
    | none =>
      rw [Run.bind_of_some (getCached_of_none cached)]
      dsimp only
      by_cases long : c.length > 255
      · rw [if_pos long]
        exact Answers.of_none (names.walk_long q long) names (Looked.refl _ s)
      · rw [if_neg long]
        obtain ⟨s', ran, names', looked, opened⟩ := ih
        have looked' := looked.trans (Looked.refl (c :: q) s') (List.suffix_cons c q) (List.suffix_refl _)
        rw [Run.bind_of_some ran]
        cases before : s.walk q with
        | none =>
          apply Answers.of_none _ names' looked'
          unfold Fs.walk at before ⊢
          rw [NameGraph.walk, before]
          rfl
        | some d =>
          have sameWalk : s'.walk = s.walk := Fs.walk_congr (by rw [looked.nodes])
          obtain ⟨t, child, names'', further, here⟩ := names'.getChild (c := c) (sameWalk ▸ before) (opened d before)
          rw [sameWalk] at child here
          exact ⟨t, child, names'', looked'.trans further (List.suffix_refl _) (List.suffix_refl _), here⟩

end Lookup

section Errcode
variable {level : Level} {s s' : Fs}

/-- A name that cannot be given is refused with an error. -/
theorem hasNode_error {i : BucketIndex} {name : Name} {e : EE} (ran : hasNode i name s = some (.error e, s')) : e ≠ .ok := by
  unfold hasNode at ran
  obtain ⟨isValid, t, _, ran⟩ := Run.bind_eq_some.mp ran
  split at ran
  · obtain ⟨read, u, _, ran⟩ := Run.bind_eq_some.mp ran
    cases read with
    | none =>
      cases ran
      decide
    | some directory =>
      dsimp only at ran
      split at ran
      · obtain ⟨index, v, _, ran⟩ := Run.bind_eq_some.mp ran
        cases ran
      · cases ran
        decide
  · cases ran
    decide

omit [Floats] in
private theorem getCachedErrcode_eq_some {p : Path} {F : FilePtr} {e e' : EE} (ran : getCachedErrcode p e s = some ((F, e'), s')) :
    getCached p s = some (F, s') ∧ ((s.pathInodeCache p = none ∨ F.isSome) → e' = e) := by
  unfold getCachedErrcode at ran
  unfold getCached
  rw [Run.bind_of_some (t := s) (a := s) rfl] at ran ⊢
  cases cached : s.pathInodeCache p with
  | none =>
    rw [cached] at ran
    cases ran
    exact ⟨rfl, fun _ => rfl⟩
  | some i =>
    rw [cached] at ran
    obtain ⟨F', t, opened, ran⟩ := Run.bind_eq_some.mp ran
    dsimp only
    rw [Run.bind_of_some opened]
    cases F' with
    | some F' =>
      cases ran
      exact ⟨rfl, fun _ => rfl⟩
    | none =>
      cases ran
      refine ⟨rfl, fun which => ?_⟩
      rcases which with none | some
      · cases none
      · cases some

/-- The lookup with an error code finds the same; what is not found has an error. -/
theorem getErrcode_eq_some {p : Path} {F : FilePtr} {e e' : EE} (ran : getErrcode p e s = some ((F, e'), s')) :
    get p s = some (F, s') ∧ (F = none → e' ≠ .ok) := by
  induction p generalizing s s' F e e' with
  | nil =>
    rw [getErrcode] at ran
    obtain ⟨⟨F', e₁⟩, t, cached, ran⟩ := Run.bind_eq_some.mp ran
    rw [get, Run.bind_of_some (getCachedErrcode_eq_some cached).1]
    cases F' <;> (cases ran; exact ⟨rfl, fun none => nomatch none⟩)
  | cons c q ih =>
    rw [getErrcode] at ran
    obtain ⟨⟨F', e₁⟩, t, cached, ran⟩ := Run.bind_eq_some.mp ran
    rw [get, Run.bind_of_some (getCachedErrcode_eq_some cached).1]
    cases F' with
    | some F' =>
      cases ran
      exact ⟨rfl, fun none => nomatch none⟩
    | none =>
      dsimp only at ran ⊢
      split at ran
      · rename_i long
        cases ran
        rw [if_pos long]
        exact ⟨rfl, fun _ => by decide⟩
      · rename_i short
        rw [if_neg short]
        obtain ⟨⟨P, e₂⟩, u, above, ran⟩ := Run.bind_eq_some.mp ran
        rw [Run.bind_of_some (ih above).1]
        cases P with
        | none =>
          cases ran
          exact ⟨rfl, fun _ => by decide⟩
        | some P =>
          obtain ⟨n, v, node, ran⟩ := Run.bind_eq_some.mp ran
          dsimp only
          rw [Run.bind_of_some node]
          split at ran
          · rename_i leaf
            cases ran
            rw [if_pos leaf]
            exact ⟨rfl, fun _ => by decide⟩
          · rename_i dir
            rw [if_neg dir]
            obtain ⟨answer, w, asked, ran⟩ := Run.bind_eq_some.mp ran
            rw [Run.bind_of_some asked]
            cases answer with
            | error error =>
              cases ran
              exact ⟨rfl, fun _ => hasNode_error asked⟩
            | ok i =>
              obtain ⟨_, x, asserted, ran⟩ := Run.bind_eq_some.mp ran
              obtain ⟨_, y, updated, ran⟩ := Run.bind_eq_some.mp ran
              obtain ⟨pPerm, z, permissions, ran⟩ := Run.bind_eq_some.mp ran
              obtain ⟨F', z', opened, ran⟩ := Run.bind_eq_some.mp ran
              dsimp only
              rw [Run.bind_of_some asserted, Run.bind_of_some updated, Run.bind_of_some permissions, opened]
              cases F' with
              | some F' =>
                cases ran
                exact ⟨rfl, fun none => nomatch none⟩
              | none =>
                cases ran
                exact ⟨rfl, fun _ => by decide⟩

private theorem Names.getCachedErrcode (names : Names level s) {p : Path} {F : FilePtr} {e e' : EE}
    (ran : getCachedErrcode p e s = some ((F, e'), s')) : e' = e ∧ (F = none → s' = s) := by
  obtain ⟨found, kept⟩ := getCachedErrcode_eq_some ran
  cases cached : s.pathInodeCache p with
  | none =>
    rw [getCached_of_none cached] at found
    cases found
    exact ⟨kept (Or.inl cached), fun _ => rfl⟩
  | some i =>
    rw [getCached_of_some cached (names.cached p i cached).2] at found
    cases found
    exact ⟨kept (Or.inr rfl), fun none => nomatch none⟩

/-- Where each cached path leads to a file, no error is left behind on the way to one. -/
theorem Names.getErrcode (names : Names level s) {p : Path} {i : BucketIndex} {e e' : EE}
    (got : getErrcode p e s = some ((some i, e'), s')) : e' = e := by
  induction p generalizing s s' i e e' with
  | nil =>
    rw [Filesystem.getErrcode] at got
    obtain ⟨⟨F, e₁⟩, t, cached, ran⟩ := Run.bind_eq_some.mp got
    obtain ⟨rfl, _⟩ := names.getCachedErrcode cached
    cases F <;> (cases ran; rfl)
  | cons c q ih =>
    rw [Filesystem.getErrcode] at got
    obtain ⟨⟨F, e₁⟩, t, cached, ran⟩ := Run.bind_eq_some.mp got
    obtain ⟨rfl, same⟩ := names.getCachedErrcode cached
    cases F with
    | some F =>
      cases ran
      rfl
    | none =>
      obtain rfl := same rfl
      dsimp only at ran
      split at ran
      · cases ran
      · obtain ⟨⟨P, e₂⟩, u, above, ran⟩ := Run.bind_eq_some.mp ran
        cases P with
        | none => cases ran
        | some P =>
          have kept := ih names above
          obtain ⟨n, v, _, ran⟩ := Run.bind_eq_some.mp ran
          split at ran
          · cases ran
          · obtain ⟨answer, w, _, ran⟩ := Run.bind_eq_some.mp ran
            cases answer with
            | error error => cases ran
            | ok j =>
              obtain ⟨_, x, _, ran⟩ := Run.bind_eq_some.mp ran
              obtain ⟨_, y, _, ran⟩ := Run.bind_eq_some.mp ran
              obtain ⟨pPerm, z, _, ran⟩ := Run.bind_eq_some.mp ran
              obtain ⟨F, z', _, ran⟩ := Run.bind_eq_some.mp ran
              cases F <;> cases ran
              exact kept

/-- The lookup with an error code, as one step of a call. -/
theorem Names.lookedErrcode (names : Names level s) {p : Path} {F : FilePtr} {e : EE}
    (ran : Filesystem.getErrcode p .ok s = some ((F, e), s')) :
    Filesystem.get p s = some (F, s') ∧ ((F = none ∧ e ≠ .ok) ∨ ∃ i, F = some i ∧ e = .ok) := by
  obtain ⟨found, failed⟩ := getErrcode_eq_some ran
  cases F with
  | none => exact ⟨found, Or.inl ⟨rfl, failed rfl⟩⟩
  | some i => exact ⟨found, Or.inr ⟨i, rfl, names.getErrcode ran⟩⟩

end Errcode

end CloudCryptFS.Filesystem
