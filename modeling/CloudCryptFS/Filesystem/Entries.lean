import CloudCryptFS.Filesystem.Stored

/-! One entry of one directory: what the checks of access answer, and what adding and
removing an entry does to the edges of the tree. A check may open the directories of
the path; apart from that it leaves everything as it was. -/

namespace CloudCryptFS.Filesystem
open Util Script Script.Lexer Script.Json

section Checks

/-- What access depends on. -/
def Inode.rights (n : Inode) : Inode := { n.seen with nlinks := 0, data := ⟨0, []⟩ }

theorem Inode.rights_permits (n : Inode) (ctx : Context) (access : Mode) : n.rights.permits ctx access = n.permits ctx access := rfl

theorem Inode.permits_congr {n n' : Inode} (same : n'.rights = n.rights) (ctx : Context) (access : Mode) :
    n'.permits ctx access = n.permits ctx access := by
  rw [← Inode.rights_permits, same, Inode.rights_permits]

theorem Inode.mode_congr {n n' : Inode} (same : n'.rights = n.rights) : n'.mode = n.mode := by
  have mode := congrArg Inode.mode same
  exact mode

theorem Inode.uid_congr {n n' : Inode} (same : n'.rights = n.rights) : n'.uid = n.uid := by
  have uid := congrArg Inode.uid same
  exact uid

/-- The inode of `permission::node`; where there is none, that of the error file. -/
def folder (nodes : Nodes) (i : BucketIndex) : Inode := (nodes i).getD .zero

def checkLoop (nodes : Nodes) (ctx : Context) (checkStickyOwner : Bool) :
    List BucketIndex → (stickySet owndir : Bool) → Option (Bool × Bool)
  | [], stickySet, owndir => some (stickySet, owndir)
  | p :: pathPermissions, stickySet, owndir =>
    let node := folder nodes p
    let sticky := checkStickyOwner && !stickySet && node.mode &&& Mode.FLAG_SVTX ≠ 0
    let owndir := if sticky && node.uid = ctx.uid then true else owndir
    if node.permits ctx Access.X then checkLoop nodes ctx checkStickyOwner pathPermissions (stickySet || sticky) owndir
    else none

/-- The answer of `checkFolder`. -/
def folderPermits (nodes : Nodes) (pathPermissions : List BucketIndex) (ctx : Context) (dda : Mode) : Bool :=
  match pathPermissions.getLast? with
  | some last => if dda ≠ Access.NONE then (folder nodes last).permits ctx dda else true
  | none => true

/-- The answer of `validateWith`, without the files that it opens. -/
def checkWith (nodes : Nodes) (pathPermissions : List BucketIndex) (n : Inode) (ctx : Context) (da dda : Mode)
    (checkStickyOwner : Bool) : Bool :=
  match checkLoop nodes ctx checkStickyOwner pathPermissions false false with
  | none => false
  | some (stickySet, owndir) =>
    if !folderPermits nodes pathPermissions ctx dda then false
    else if checkStickyOwner && stickySet && n.uid ≠ ctx.uid && !owndir then false
    else n.permits ctx da

/-- The answer of `validate_access`. -/
def Fs.access (s : Fs) (F : FilePtr) (ctx : Context) (da : Mode) (dda : Mode := Access.NONE)
    (checkStickyOwner : Bool := false) : Bool :=
  match F with
  | none => false
  | some i =>
    match s.inodeFileCache i with
    | none => false
    | some file => ctx.uid = 0 || checkWith s.nodes file.pathPermissions (folder s.nodes i) ctx da dda checkStickyOwner

private theorem checkLoop_congr {nodes nodes' : Nodes} {ctx : Context} {checkStickyOwner : Bool}
    {pathPermissions : List BucketIndex} (same : ∀ p ∈ pathPermissions, (folder nodes' p).rights = (folder nodes p).rights)
    (stickySet owndir : Bool) :
    checkLoop nodes' ctx checkStickyOwner pathPermissions stickySet owndir =
      checkLoop nodes ctx checkStickyOwner pathPermissions stickySet owndir := by
  induction pathPermissions generalizing stickySet owndir with
  | nil => rfl
  | cons p pathPermissions ih =>
    have here := same p List.mem_cons_self
    unfold checkLoop
    simp only [Inode.mode_congr here, Inode.uid_congr here, Inode.permits_congr here, ih (fun q member => same q (List.mem_cons_of_mem p member))]

theorem checkWith_congr {nodes nodes' : Nodes} {ctx : Context} {pathPermissions : List BucketIndex} {n n' : Inode}
    (same : ∀ p ∈ pathPermissions, (folder nodes' p).rights = (folder nodes p).rights) (file : n'.rights = n.rights)
    (da dda : Mode) (checkStickyOwner : Bool) :
    checkWith nodes' pathPermissions n' ctx da dda checkStickyOwner =
      checkWith nodes pathPermissions n ctx da dda checkStickyOwner := by
  unfold checkWith
  rw [checkLoop_congr same, Inode.uid_congr file, Inode.permits_congr file]
  have last : folderPermits nodes' pathPermissions ctx dda = folderPermits nodes pathPermissions ctx dda := by
    unfold folderPermits
    cases isLast : pathPermissions.getLast? with
    | none => rfl
    | some p => simp only [Inode.permits_congr (same p (List.mem_of_getLast? isLast))]
  rw [last]

/-- Files that have been opened for their rights only. -/
def OpenedFiles (pathPermissions : List BucketIndex) (s s' : Fs) : Prop :=
  ∀ j, s'.inodeFileCache j = s.inodeFileCache j ∨
    (s.inodeFileCache j = none ∧ j ∈ pathPermissions ∧ (s.nodes j).isSome ∧ s'.inodeFileCache j = some ⟨[], false, 0⟩)

structure Opened (pathPermissions : List BucketIndex) (s s' : Fs) : Prop where
  slots : s'.slots = s.slots
  accounting : s'.accounting = s.accounting
  paths : s'.pathInodeCache = s.pathInodeCache
  files : OpenedFiles pathPermissions s s'

theorem OpenedFiles.refl (pathPermissions : List BucketIndex) (s : Fs) : OpenedFiles pathPermissions s s :=
  fun _ => Or.inl rfl

theorem OpenedFiles.of_eq {pathPermissions : List BucketIndex} {s s' : Fs} (same : s'.inodeFileCache = s.inodeFileCache) :
    OpenedFiles pathPermissions s s' := fun j => Or.inl (congrFun same j)

theorem OpenedFiles.trans {pathPermissions : List BucketIndex} {s t u : Fs} (first : OpenedFiles pathPermissions s t)
    (alive : ∀ j, (t.nodes j).isSome → (s.nodes j).isSome) (second : OpenedFiles pathPermissions t u) :
    OpenedFiles pathPermissions s u := by
  intro j
  rcases second j with same | ⟨none, member, node, opened⟩
  · rcases first j with same' | ⟨none, member, node, opened⟩
    · exact Or.inl (same.trans same')
    · exact Or.inr ⟨none, member, node, same.trans opened⟩
  · rcases first j with same' | ⟨_, _, _, already⟩
    · exact Or.inr ⟨same' ▸ none, member, alive j node, opened⟩
    · rw [already] at none
      cases none

theorem OpenedFiles.mono {pathPermissions more : List BucketIndex} {s s' : Fs} (opened : OpenedFiles pathPermissions s s')
    (sub : pathPermissions ⊆ more) : OpenedFiles more s s' := by
  intro j
  rcases opened j with same | ⟨none, member, rest⟩
  · exact Or.inl same
  · exact Or.inr ⟨none, sub member, rest⟩

theorem OpenedFiles.kept {pathPermissions : List BucketIndex} {s s' : Fs} (opened : OpenedFiles pathPermissions s s')
    {j : BucketIndex} {file : FileObject} (here : s.inodeFileCache j = some file) : s'.inodeFileCache j = some file := by
  rcases opened j with same | ⟨none, _⟩
  · exact same.trans here
  · rw [none] at here
    cases here

theorem Opened.refl (pathPermissions : List BucketIndex) (s : Fs) : Opened pathPermissions s s :=
  ⟨rfl, rfl, rfl, OpenedFiles.refl pathPermissions s⟩

theorem Opened.nodes {pathPermissions : List BucketIndex} {s s' : Fs} (opened : Opened pathPermissions s s') :
    s'.nodes = s.nodes := Fs.nodes_congr opened.slots

theorem Opened.trans {pathPermissions : List BucketIndex} {s t u : Fs} (first : Opened pathPermissions s t)
    (second : Opened pathPermissions t u) : Opened pathPermissions s u where
  slots := second.slots.trans first.slots
  accounting := second.accounting.trans first.accounting
  paths := second.paths.trans first.paths
  files := first.files.trans (fun _ alive => first.nodes ▸ alive) second.files

theorem Opened.mono {pathPermissions more : List BucketIndex} {s s' : Fs} (opened : Opened pathPermissions s s')
    (sub : pathPermissions ⊆ more) : Opened more s s' :=
  ⟨opened.slots, opened.accounting, opened.paths, opened.files.mono sub⟩

theorem Opened.beside {pathPermissions : List BucketIndex} {s s' : Fs} (opened : Opened pathPermissions s s')
    {j : BucketIndex} (held : Held s j) : Held s' j :=
  ⟨by rw [opened.accounting]; exact held.taken, by rw [opened.slots]; exact held.empty, held.bucket⟩

theorem inodeToFile_of_open {i : BucketIndex} {s : Fs} (opened : (s.inodeFileCache i).isSome) (filename : Option Path)
    (pPerm : List BucketIndex) : inodeToFile i filename pPerm s = some (some i, s) := by
  unfold inodeToFile
  rw [Run.bind_of_some (t := s) (a := s) rfl, if_pos opened]
  rfl

theorem inodeToFile_of_closed {i : BucketIndex} {s : Fs} (closed : s.inodeFileCache i = none) (real : i ≠ 0)
    (filename : Option Path) (pPerm : List BucketIndex) : inodeToFile i filename pPerm s =
      if (s.nodes i).isSome then
        some (some i, s.setFile i (some ⟨pPerm, (filename.map specialPath).getD false, 0⟩))
      else some (none, s) := by
  have shut : ¬(s.inodeFileCache i).isSome = true := by simp [closed]
  unfold inodeToFile
  rw [Run.bind_of_some (t := s) (a := s) rfl, if_neg shut, Run.bind_of_some (t := s) (a := ()) (by simp [real])]
  cases here : s.slots i with
  | none => simp [Fs.nodes, here]
  | ctd => simp [Fs.nodes, here]
  | node n =>
    rw [Fs.nodes_of_slot here]
    rfl

theorem inodeToFile_spec {i : BucketIndex} {filename : Option Path} {pPerm : List BucketIndex} {F : FilePtr} {s s' : Fs}
    (ran : inodeToFile i filename pPerm s = some (F, s')) :
    ((s.inodeFileCache i).isSome ∧ F = some i ∧ s = s') ∨
      (s.inodeFileCache i = none ∧ (s.nodes i).isSome ∧ F = some i ∧
        s' = s.setFile i (some ⟨pPerm, (filename.map specialPath).getD false, 0⟩)) ∨
      (s.inodeFileCache i = none ∧ s.nodes i = none ∧ F = none ∧ s = s') := by
  by_cases opened : (s.inodeFileCache i).isSome
  · rw [inodeToFile_of_open opened] at ran
    cases ran
    exact Or.inl ⟨opened, rfl, rfl⟩
  · have closed : s.inodeFileCache i = none := by simpa using opened
    have real : i ≠ 0 := by
      rintro rfl
      unfold inodeToFile at ran
      rw [Run.bind_of_some (t := s) (a := s) rfl, if_neg opened, Run.bind_apply] at ran
      simp at ran
    rw [inodeToFile_of_closed closed real] at ran
    split at ran
    · rename_i alive
      cases ran
      exact Or.inr (Or.inl ⟨closed, alive, rfl, rfl⟩)
    · rename_i dead
      cases ran
      exact Or.inr (Or.inr ⟨closed, by simpa using dead, rfl, rfl⟩)

/-- The inode that a check of one directory sees. -/
private theorem permissionNode_spec {p : BucketIndex} {F : FilePtr} {n : Inode} {s t u : Fs}
    (opened : permissionNode p s = some (F, t)) (found : INode F t = some (n, u)) :
    t = u ∧ n.seen = folder s.nodes p ∧ Opened [p] s t := by
  rcases inodeToFile_spec opened with ⟨_, rfl, rfl⟩ | ⟨closed, alive, rfl, rfl⟩ | ⟨closed, dead, rfl, rfl⟩
  · obtain ⟨here, same⟩ := INode_eq_some.mp found
    refine ⟨same, ?_, Opened.refl _ _⟩
    rw [folder, Fs.nodes_of_slot here]
    rfl
  · obtain ⟨here, same⟩ := INode_eq_some.mp found
    have here' : s.slots p = .node n := here
    refine ⟨same, ?_, rfl, rfl, rfl, ?_⟩
    · rw [folder, Fs.nodes_of_slot here']
      rfl
    · intro j
      by_cases this : j = p
      · subst this
        exact Or.inr ⟨closed, List.mem_singleton_self j, alive, by simp [Fs.setFile]⟩
      · left
        simp [Fs.setFile, this]
  · cases found
    refine ⟨rfl, ?_, Opened.refl _ _⟩
    rw [folder, dead]
    rfl

theorem accessLoop_spec {ctx : Context} {checkStickyOwner : Bool} {pathPermissions : List BucketIndex}
    {stickySet owndir : Bool} {s s' : Fs} {result : Option (Bool × Bool)}
    (ran : accessLoop ctx checkStickyOwner pathPermissions stickySet owndir s = some (result, s')) :
    result = checkLoop s.nodes ctx checkStickyOwner pathPermissions stickySet owndir ∧ Opened pathPermissions s s' := by
  induction pathPermissions generalizing stickySet owndir s with
  | nil =>
    cases ran
    exact ⟨rfl, Opened.refl _ _⟩
  | cons p pathPermissions ih =>
    unfold accessLoop at ran
    obtain ⟨F, t, opened, ran⟩ := Run.bind_eq_some.mp ran
    obtain ⟨n, u, found, ran⟩ := Run.bind_eq_some.mp ran
    obtain ⟨rfl, same, first⟩ := permissionNode_spec opened found
    have first' := first.mono (List.cons_subset_cons p (List.nil_subset pathPermissions))
    have mode : (folder s.nodes p).mode = n.mode := by rw [← same]; rfl
    have uid : (folder s.nodes p).uid = n.uid := by rw [← same]; rfl
    have permits : (folder s.nodes p).permits ctx Access.X = n.permits ctx Access.X := by rw [← same]; rfl
    unfold checkLoop
    simp only [mode, uid, permits]
    split at ran
    · rename_i allowed
      obtain ⟨answer, later⟩ := ih ran
      rw [if_pos allowed, ← first.nodes]
      exact ⟨answer, first'.trans (later.mono (List.subset_cons_self p pathPermissions))⟩
    · rename_i refused
      cases ran
      rw [if_neg refused]
      exact ⟨rfl, first'⟩

theorem checkFolder_spec {pathPermissions : List BucketIndex} {ctx : Context} {dda : Mode} {answer : Bool} {s s' : Fs}
    (ran : checkFolder pathPermissions ctx dda s = some (answer, s')) :
    answer = folderPermits s.nodes pathPermissions ctx dda ∧ Opened pathPermissions s s' := by
  unfold checkFolder at ran
  unfold folderPermits
  cases isLast : pathPermissions.getLast? with
  | none =>
    rw [isLast] at ran
    cases ran
    exact ⟨rfl, Opened.refl _ _⟩
  | some last =>
    rw [isLast] at ran
    dsimp only at ran ⊢
    split at ran
    · rename_i wanted
      obtain ⟨F, t, opened, ran⟩ := Run.bind_eq_some.mp ran
      obtain ⟨n, u, found, ran⟩ := Run.bind_eq_some.mp ran
      obtain ⟨rfl, same, more⟩ := permissionNode_spec opened found
      cases ran
      rw [if_pos wanted, ← same]
      refine ⟨rfl, more.mono ?_⟩
      intro p member
      rw [List.mem_singleton.mp member]
      exact List.mem_of_getLast? isLast
    · rename_i unwanted
      cases ran
      rw [if_neg unwanted]
      exact ⟨rfl, Opened.refl _ _⟩

theorem validateWith_spec {pathPermissions : List BucketIndex} {i : BucketIndex} {ctx : Context} {da dda : Mode}
    {checkStickyOwner answer : Bool} {s s' : Fs}
    (ran : validateWith pathPermissions (some i) ctx da dda checkStickyOwner s = some (answer, s')) :
    answer = checkWith s.nodes pathPermissions (folder s.nodes i) ctx da dda checkStickyOwner ∧
      Opened pathPermissions s s' := by
  unfold validateWith at ran
  obtain ⟨result, t, looped, ran⟩ := Run.bind_eq_some.mp ran
  obtain ⟨searched, opened⟩ := accessLoop_spec looped
  unfold checkWith
  rw [← searched]
  cases result with
  | none =>
    cases ran
    exact ⟨rfl, opened⟩
  | some result =>
    obtain ⟨stickySet, owndir⟩ := result
    obtain ⟨allowed, u, asked, ran⟩ := Run.bind_eq_some.mp ran
    obtain ⟨answered, opened'⟩ := checkFolder_spec asked
    rw [opened.nodes] at answered
    have before := opened.trans opened'
    dsimp only
    rw [← answered]
    split at ran
    · rename_i refused
      cases ran
      rw [if_pos refused]
      exact ⟨rfl, before⟩
    · rename_i granted
      obtain ⟨n, v, found, ran⟩ := Run.bind_eq_some.mp ran
      obtain ⟨here, rfl⟩ := INode_eq_some.mp found
      have same : folder s.nodes i = n.seen := by
        rw [folder, ← before.nodes, Fs.nodes_of_slot here]
        rfl
      have uid : n.seen.uid = n.uid := rfl
      rw [if_neg granted, same, uid, Inode.seen_permits]
      split at ran
      · rename_i sticky
        cases ran
        rw [if_pos sticky]
        exact ⟨rfl, before⟩
      · rename_i free
        cases ran
        rw [if_neg free]
        exact ⟨rfl, before⟩

/-- The directories on the path of a file. -/
def Fs.permissions (s : Fs) (i : BucketIndex) : List BucketIndex :=
  ((s.inodeFileCache i).map FileObject.pathPermissions).getD []

theorem Fs.permissions_of_file {s : Fs} {i : BucketIndex} {file : FileObject} (here : s.inodeFileCache i = some file) :
    s.permissions i = file.pathPermissions := by
  simp [Fs.permissions, here]

theorem validate_access_spec {i : BucketIndex} {ctx : Context} {da dda : Mode} {checkStickyOwner answer : Bool} {s s' : Fs}
    (ran : validate_access (some i) ctx da dda checkStickyOwner s = some (answer, s')) :
    answer = s.access (some i) ctx da dda checkStickyOwner ∧ Opened (s.permissions i) s s' := by
  unfold validate_access at ran
  obtain ⟨isValid, _, found, ran⟩ := Run.bind_eq_some.mp ran
  obtain ⟨validity, rfl⟩ := valid_eq_some.mp found
  cases file : s.inodeFileCache i with
  | none =>
    have closed : isValid = false := by simp [validity, file]
    rw [closed, if_neg Bool.false_ne_true] at ran
    cases ran
    simp only [Fs.access, file, true_and]
    exact Opened.refl _ _
  | some file' =>
    have opened : isValid = true := by simp [validity, file]
    rw [if_pos opened] at ran
    split at ran
    · rename_i root
      cases ran
      simp only [Fs.access, file, root, decide_true, Bool.true_or, true_and]
      exact Opened.refl _ _
    · rename_i other
      obtain ⟨pathPermissions, _, listed, ran⟩ := Run.bind_eq_some.mp ran
      unfold getPathPermissions at listed
      obtain ⟨rfl, rfl⟩ := Prod.mk.inj (Option.some.inj listed)
      obtain ⟨same, opened'⟩ := validateWith_spec ran
      have list : ((s.inodeFileCache (bucketIdx (some i))).map FileObject.pathPermissions).getD [] = s.permissions i := rfl
      rw [list] at same opened'
      refine ⟨?_, opened'⟩
      rw [same, Fs.permissions_of_file file]
      simp only [Fs.access, file, other, decide_false, Bool.false_or]

/-- Access is a matter of the rights of the file and of the directories on its list. -/
theorem Fs.access_congr {s s' : Fs} {i : BucketIndex} {file : FileObject} (here : s.inodeFileCache i = some file)
    (here' : s'.inodeFileCache i = some file)
    (same : ∀ p, p = i ∨ p ∈ file.pathPermissions → (folder s'.nodes p).rights = (folder s.nodes p).rights)
    (ctx : Context) (da dda : Mode) (checkStickyOwner : Bool) :
    s'.access (some i) ctx da dda checkStickyOwner = s.access (some i) ctx da dda checkStickyOwner := by
  unfold Fs.access
  simp only [here, here']
  rw [checkWith_congr (fun p member => same p (Or.inr member)) (same i (Or.inl rfl))]

end Checks

section Reads
variable [Floats]

/-- The readings of a file that is open: a special file cannot be read, a directory
reads as its map, and all others as empty. -/
theorem readDirectory_spec {i : BucketIndex} {file : FileObject} {result : Option (JSON Floats.F)} {s s' : Fs}
    (readable : Readable s.nodes) (here : s.inodeFileCache i = some file) (ran : readDirectory i s = some (result, s')) :
    s = s' ∧ ((file.special = true ∧ result = none) ∨
      (∃ m, Holds s.nodes i m ∧ file.special = false ∧ result = some m.json) ∨
      (i ∉ dirs s.nodes ∧ result = some .empty)) := by
  unfold readDirectory at ran
  obtain ⟨isValid, _, found, ran⟩ := Run.bind_eq_some.mp ran
  obtain ⟨validity, rfl⟩ := valid_eq_some.mp found
  have opened : isValid = true := by simp [validity, here]
  rw [if_pos opened] at ran
  obtain ⟨n, _, found, ran⟩ := Run.bind_eq_some.mp ran
  obtain ⟨slot, rfl⟩ := INode_eq_some.mp found
  split at ran
  · rename_i dir
    obtain ⟨special, _, found, ran⟩ := Run.bind_eq_some.mp ran
    obtain ⟨isSpecial', rfl⟩ := isSpecial_eq_some.mp found
    rw [here, Option.map_some, Option.getD_some] at isSpecial'
    split at ran
    · rename_i yes
      cases ran
      exact ⟨rfl, Or.inl ⟨isSpecial' ▸ yes, rfl⟩⟩
    · rename_i no
      unfold fileOps at ran
      rw [readDirectoryContent_eq] at ran
      obtain ⟨result', content, same⟩ := Option.map_eq_some_iff.mp ran
      obtain ⟨rfl, rfl⟩ := Prod.mk.inj same
      obtain ⟨m, holds⟩ := readable i ⟨n.seen, Fs.nodes_of_slot slot, dir⟩
      have plain : file.special = false := by
        rw [← isSpecial']
        exact Bool.eq_false_iff.mpr no
      refine ⟨rfl, Or.inr (Or.inl ⟨m, holds, plain, ?_⟩)⟩
      obtain ⟨n', node, _, content', _⟩ := holds
      rw [Fs.nodes_of_slot slot] at node
      cases node
      rw [Inode.seen_data, content] at content'
      exact Option.some.inj content'
  · rename_i leaf
    cases ran
    refine ⟨rfl, Or.inr (Or.inr ⟨?_, rfl⟩)⟩
    intro member
    obtain ⟨n', node, dir⟩ := member
    rw [Fs.nodes_of_slot slot] at node
    cases node
    exact leaf dir

/-- A directory that can be read is read as its map. -/
theorem readDirectory_of_holds {d : BucketIndex} {file : FileObject} {m : DirMap} {s : Fs}
    (here : s.inodeFileCache d = some file) (plain : file.special = false) (holds : Holds s.nodes d m) :
    readDirectory d s = some (some m.json, s) := by
  obtain ⟨n, node, dir, content, _⟩ := holds
  obtain ⟨n', slot, rfl⟩ := Fs.nodes_eq_some.mp node
  unfold readDirectory
  rw [Run.bind_of_some (valid_eq_some.mpr ⟨rfl, rfl⟩), if_pos (by simp [here]),
    Run.bind_of_some (INode_eq_some.mpr ⟨slot, rfl⟩), if_pos (show n'.type = .DIR from dir),
    Run.bind_of_some (isSpecial_eq_some.mpr ⟨rfl, rfl⟩), if_neg (by simp [here, plain])]
  unfold fileOps
  have content' : contentOf (F := Floats.F) n'.data = some (some m.json) := content
  rw [readDirectoryContent_eq, content']
  rfl

theorem readDirectory_of_special {d : BucketIndex} {file : FileObject} {s : Fs} (here : s.inodeFileCache d = some file)
    (special : file.special = true) (dir : d ∈ dirs s.nodes) : readDirectory d s = some (none, s) := by
  obtain ⟨n, node, isDir⟩ := dir
  obtain ⟨n', slot, rfl⟩ := Fs.nodes_eq_some.mp node
  unfold readDirectory
  rw [Run.bind_of_some (valid_eq_some.mpr ⟨rfl, rfl⟩), if_pos (by simp [here]),
    Run.bind_of_some (INode_eq_some.mpr ⟨slot, rfl⟩), if_pos (show n'.type = .DIR from isDir),
    Run.bind_of_some (isSpecial_eq_some.mpr ⟨rfl, rfl⟩), if_pos (by simp [here, special])]
  rfl

/-- What `isFullDir` lets pass has no entries. -/
theorem isFullDir_spec {i : BucketIndex} {file : FileObject} {full : Bool} {s s' : Fs} (readable : Readable s.nodes)
    (here : s.inodeFileCache i = some file) (ran : isFullDir (some i) s = some (full, s')) :
    s = s' ∧ (full = false → ∀ c, edge s.nodes i c = none) := by
  unfold isFullDir at ran
  obtain ⟨isValid, _, found, ran⟩ := Run.bind_eq_some.mp ran
  obtain ⟨validity, rfl⟩ := valid_eq_some.mp found
  have opened : isValid = true := by simp [validity, here]
  rw [if_pos opened] at ran
  obtain ⟨n, _, found, ran⟩ := Run.bind_eq_some.mp ran
  obtain ⟨slot, rfl⟩ := INode_eq_some.mp found
  have node := Fs.nodes_of_slot slot
  split at ran
  · rename_i leaf
    cases ran
    refine ⟨rfl, fun _ c => edge_of_leaf ?_ c⟩
    intro member
    obtain ⟨n', node', dir⟩ := member
    rw [node] at node'
    cases node'
    exact leaf dir
  · rename_i notLeaf
    have dir : n.seen.type = .DIR := by simpa using notLeaf
    obtain ⟨result, _, read, ran⟩ := Run.bind_eq_some.mp ran
    obtain ⟨rfl, ⟨_, rfl⟩ | ⟨m, holds, _, rfl⟩ | ⟨outside, _⟩⟩ := readDirectory_spec readable here read
    · cases ran
      exact ⟨rfl, fun impossible => absurd impossible (by decide)⟩
    · cases ran
      refine ⟨rfl, fun empty c => ?_⟩
      rw [holds.edge]
      by_contra listed
      obtain ⟨j, found⟩ := Option.ne_none_iff_exists'.mp listed
      have name := m.find_name found
      have value := m.find_json (F := Floats.F) c
      rw [found, Option.map_some] at value
      have member := SortedEntries.mem_of_find? value
      have any := List.any_eq_false.mp empty _ member
      obtain ⟨nonempty, _, noSlash, _⟩ := name
      obtain ⟨first, others, rfl⟩ := List.exists_cons_of_ne_nil nonempty
      have slash : first = 47 := by simpa using any
      exact noSlash (slash ▸ List.mem_cons_self)
    · exact absurd ⟨n.seen, node, dir⟩ outside

/-- What `isFullDir` holds back has an entry, or it cannot be read. -/
theorem isFullDir_full {i : BucketIndex} {file : FileObject} {s s' : Fs} (readable : Readable s.nodes)
    (here : s.inodeFileCache i = some file) (ran : isFullDir (some i) s = some (true, s')) :
    file.special = true ∨ ∃ c, edge s.nodes i c ≠ none := by
  unfold isFullDir at ran
  obtain ⟨isValid, _, found, ran⟩ := Run.bind_eq_some.mp ran
  obtain ⟨validity, rfl⟩ := valid_eq_some.mp found
  have opened : isValid = true := by simp [validity, here]
  rw [if_pos opened] at ran
  obtain ⟨n, _, found, ran⟩ := Run.bind_eq_some.mp ran
  obtain ⟨_, rfl⟩ := INode_eq_some.mp found
  split at ran
  · cases ran
  · obtain ⟨result, _, read, ran⟩ := Run.bind_eq_some.mp ran
    obtain ⟨rfl, ⟨special, _⟩ | ⟨m, holds, _, rfl⟩ | ⟨_, rfl⟩⟩ := readDirectory_spec readable here read
    · exact Or.inl special
    · obtain ⟨full, _⟩ := Prod.mk.inj (Option.some.inj ran)
      obtain ⟨entry, member, _⟩ := List.any_eq_true.mp full
      have listed : (m.json : JSON Floats.F).hasProperty entry.1 = true := by
        unfold JSON.hasProperty
        rw [Option.isSome_iff_ne_none]
        exact fun none => (SortedEntries.find?_eq_none_iff _ _).mp none entry member rfl
      right
      refine ⟨entry.1, ?_⟩
      rw [holds.edge, ← Option.isSome_iff_ne_none, ← m.hasProperty_json (F := Floats.F)]
      exact listed
    · cases ran

end Reads

section Heads

/-- An inode without its content. -/
def Inode.head (n : Inode) : Inode := { n.seen with data := ⟨0, []⟩ }

/-- Nothing but contents is different. -/
def SameHeads (nodes nodes' : Nodes) : Prop := ∀ i, (nodes' i).map Inode.head = (nodes i).map Inode.head

theorem SameHeads.refl (nodes : Nodes) : SameHeads nodes nodes := fun _ => rfl

theorem SameHeads.trans {nodes nodes' nodes'' : Nodes} (first : SameHeads nodes nodes') (second : SameHeads nodes' nodes'') :
    SameHeads nodes nodes'' := fun i => (second i).trans (first i)

theorem SameHeads.symm {nodes nodes' : Nodes} (same : SameHeads nodes nodes') : SameHeads nodes' nodes := fun i => (same i).symm

theorem SameHeads.node {nodes nodes' : Nodes} (same : SameHeads nodes nodes') {i : BucketIndex} {n : Inode}
    (here : nodes i = some n) : ∃ n', nodes' i = some n' ∧ n'.head = n.head := by
  have equal := same i
  rw [here, Option.map_some] at equal
  exact Option.map_eq_some_iff.mp equal

theorem SameHeads.alive {nodes nodes' : Nodes} (same : SameHeads nodes nodes') {i : BucketIndex} (alive : (nodes i).isSome) :
    (nodes' i).isSome := by
  obtain ⟨n, here⟩ := Option.isSome_iff_exists.mp alive
  obtain ⟨n', here', _⟩ := same.node here
  rw [here']
  rfl

theorem SameHeads.folder_rights {nodes nodes' : Nodes} (same : SameHeads nodes nodes') (i : BucketIndex) :
    (folder nodes' i).rights = (folder nodes i).rights := by
  unfold folder
  cases here : nodes i with
  | none =>
    have equal := same i
    rw [here, Option.map_none, Option.map_eq_none_iff] at equal
    rw [equal]
  | some n =>
    obtain ⟨n', here', head⟩ := same.node here
    rw [here']
    have rights := congrArg Inode.rights head
    exact rights

theorem SameHeads.update {nodes : Nodes} {i : BucketIndex} {n : Inode} (here : nodes i = some n) (data : FileData Chunk) :
    SameHeads nodes (Function.update nodes i (some { n with data := data })) := by
  intro j
  by_cases same : j = i
  · rw [same, Function.update_self, here]
    rfl
  · rw [Function.update_of_ne same]

theorem SameHeads.dirs {nodes nodes' : Nodes} (same : SameHeads nodes nodes') : dirs nodes' = dirs nodes := by
  have sub : ∀ {first second : Nodes}, SameHeads first second → Filesystem.dirs first ⊆ Filesystem.dirs second := by
    intro first second equal i member
    obtain ⟨n, here, dir⟩ := member
    obtain ⟨n', here', head⟩ := equal.node here
    have type : n'.type = n.type := by
      have type := congrArg Inode.type head
      exact type
    exact ⟨n', here', type.trans dir⟩
  exact Set.Subset.antisymm (sub same.symm) (sub same)

end Heads

section Writes
variable [Floats]

/-- One directory has been written, and files have been opened for their rights. -/
structure Relinked (pathPermissions : List BucketIndex) (s s' : Fs) : Prop where
  alloc : Alloc s'
  readable : Readable s'.nodes
  heads : SameHeads s.nodes s'.nodes
  paths : s'.pathInodeCache = s.pathInodeCache
  files : OpenedFiles pathPermissions s s'
  held : ∀ i, Held s i → Held s' i

theorem Opened.relinked {pathPermissions : List BucketIndex} {s t u : Fs} (opened : Opened pathPermissions s t)
    (relinked : Relinked pathPermissions t u) : Relinked pathPermissions s u where
  alloc := relinked.alloc
  readable := relinked.readable
  heads := opened.nodes ▸ relinked.heads
  paths := relinked.paths.trans opened.paths
  files := opened.files.trans (fun _ alive => opened.nodes ▸ alive) relinked.files
  held := fun i held => relinked.held i (opened.beside held)

/-- A directory that is written as another map. -/
theorem writeDirectory_dir {d : BucketIndex} {m m' : DirMap} {je : Option Wrapper} {s s' : Fs} (alloc : Alloc s)
    (readable : Readable s.nodes) (holds : Holds s.nodes d m) (storable : m'.Storable)
    (ran : writeDirectory d m'.json je s = some ((), s')) :
    Relinked (s.permissions d) s s' ∧
      edge s'.nodes = fun d' c => if d' = d then m'.find c else edge s.nodes d' c := by
  obtain ⟨n, data, here, nodes, alloc', beside, content⟩ := writeDirectory_spec alloc ran
  obtain ⟨n', here', dir, _, _⟩ := id holds
  rw [here] at here'
  cases here'
  have heads : SameHeads s.nodes s'.nodes := by
    rw [nodes]
    exact SameHeads.update here data
  have holds' : Holds s'.nodes d m' := by
    refine ⟨{ n with data := data }, ?_, dir, content m' rfl storable, storable⟩
    rw [nodes, Function.update_self]
  have others : ∀ d', d' ≠ d → s'.nodes d' = s.nodes d' := by
    intro d' other
    rw [nodes, Function.update_of_ne other]
  refine ⟨⟨alloc', ?_, heads, beside.paths, OpenedFiles.of_eq beside.files, beside.held⟩, ?_⟩
  · intro d' member
    by_cases same : d' = d
    · rw [same]
      exact ⟨m', holds'⟩
    · rw [heads.dirs] at member
      obtain ⟨m'', holds''⟩ := readable d' member
      exact ⟨m'', holds''.congr (others d' same)⟩
  · funext d' c
    split
    · rename_i same
      rw [same, holds'.edge]
    · rename_i other
      exact edge_congr (others d' other) c

/-- A file that is no directory has no entries to lose. -/
theorem writeDirectory_leaf {d : BucketIndex} {directory : JSON Floats.F} {je : Option Wrapper} {s s' : Fs} (alloc : Alloc s)
    (readable : Readable s.nodes) (leaf : d ∉ dirs s.nodes) (ran : writeDirectory d directory je s = some ((), s')) :
    Relinked (s.permissions d) s s' ∧ edge s'.nodes = edge s.nodes := by
  obtain ⟨n, data, here, nodes, alloc', beside, _⟩ := writeDirectory_spec alloc ran
  have heads : SameHeads s.nodes s'.nodes := by
    rw [nodes]
    exact SameHeads.update here data
  have others : ∀ d', d' ≠ d → s'.nodes d' = s.nodes d' := by
    intro d' other
    rw [nodes, Function.update_of_ne other]
  refine ⟨⟨alloc', ?_, heads, beside.paths, OpenedFiles.of_eq beside.files, beside.held⟩, ?_⟩
  · intro d' member
    rw [heads.dirs] at member
    obtain ⟨m, holds⟩ := readable d' member
    have other : d' ≠ d := by
      intro same
      exact leaf (same ▸ member)
    exact ⟨m, holds.congr (others d' other)⟩
  · funext d' c
    by_cases same : d' = d
    · have leaf' : d ∉ dirs s'.nodes := by
        rw [heads.dirs]
        exact leaf
      rw [same, edge_of_leaf leaf', edge_of_leaf leaf]
    · exact edge_congr (others d' same) c

/-- An entry that the directory, with its other entries, can carry. -/
def Fits (nodes : Nodes) (d : BucketIndex) (name : Name) (i : BucketIndex) : Prop :=
  FileName name ∧ (0 < i ∧ i < 2 ^ 64) ∧
    ∀ m : DirMap, (∀ c, m.find c = if c = name then some i else edge nodes d c) → m.Storable

theorem addNode_spec {d i : BucketIndex} {name : Name} {ctx : Context} {je : Option Wrapper} {e : EE} {s s' : Fs}
    (alloc : Alloc s) (readable : Readable s.nodes)
    (fits : edge s.nodes d name = none → d ∈ dirs s.nodes → Fits s.nodes d name i)
    (ran : addNode (some d) name i ctx je s = some (e, s')) :
    (e ≠ .ok ∧ Opened (s.permissions d) s s') ∨
      (e = .ok ∧ edge s.nodes d name = none ∧ Relinked (s.permissions d) s s' ∧ ∃ file, s.inodeFileCache d = some file ∧
        ((d ∈ dirs s.nodes ∧ file.special = false ∧ edge s'.nodes = NameGraph.link (edge s.nodes) d name i) ∨
          (d ∉ dirs s.nodes ∧ edge s'.nodes = edge s.nodes))) := by
  unfold addNode at ran
  obtain ⟨isValid, _, found, ran⟩ := Run.bind_eq_some.mp ran
  obtain ⟨validity, rfl⟩ := valid_eq_some.mp found
  split at ran
  · rename_i yes
    rw [validity] at yes
    obtain ⟨file, here⟩ := Option.isSome_iff_exists.mp yes
    change s.inodeFileCache d = some file at here
    obtain ⟨allowed, t, checked, ran⟩ := Run.bind_eq_some.mp ran
    obtain ⟨_, opened⟩ := validate_access_spec checked
    have here' := opened.files.kept here
    split at ran
    · obtain ⟨result, _, read, ran⟩ := Run.bind_eq_some.mp ran
      obtain ⟨rfl, cases'⟩ := readDirectory_spec (opened.nodes ▸ readable) here' read
      rw [opened.nodes] at cases'
      rcases cases' with ⟨_, rfl⟩ | ⟨m, holds, plain, rfl⟩ | ⟨outside, rfl⟩
      · cases ran
        exact Or.inl ⟨by decide, opened⟩
      · dsimp only at ran
        rw [m.hasProperty_json, ← holds.edge] at ran
        split at ran
        · cases ran
          exact Or.inl ⟨by decide, opened⟩
        · rename_i absent
          have member := holds.mem
          have none : edge s.nodes d name = .none := by simpa using absent
          obtain ⟨isName, index, storable⟩ := fits none member
          have carried : (m.insert isName index).Storable := by
            apply storable
            intro c
            rw [m.find_insert isName index, holds.edge]
          obtain ⟨_, _, asserted, ran⟩ := Run.bind_eq_some.mp ran
          obtain ⟨_, rfl⟩ := Run.assert_eq_some.mp asserted
          obtain ⟨_, u, written, ran⟩ := Run.bind_eq_some.mp ran
          cases ran
          rw [m.json_insert isName index] at written
          have list : t.permissions d = s.permissions d := by
            rw [Fs.permissions_of_file here', Fs.permissions_of_file here]
          obtain ⟨relinked, edges⟩ := writeDirectory_dir (alloc.congr opened.slots opened.accounting)
            (opened.nodes ▸ readable) (opened.nodes ▸ holds) carried written
          rw [list] at relinked
          refine Or.inr ⟨rfl, none, opened.relinked relinked, file, here, Or.inl ⟨member, plain, ?_⟩⟩
          rw [edges, opened.nodes]
          funext d' c
          unfold NameGraph.link
          by_cases same : d' = d
          · rw [if_pos same, m.find_insert isName index, same, holds.edge]
            by_cases this : c = name
            · rw [if_pos this, if_pos ⟨rfl, this⟩]
            · rw [if_neg this, if_neg (fun both => this both.2)]
          · rw [if_neg same, if_neg (fun both => same both.1)]
      · have absent : (JSON.empty : JSON Floats.F).hasProperty name = false := rfl
        dsimp only at ran
        rw [absent, if_neg Bool.false_ne_true] at ran
        obtain ⟨_, _, asserted, ran⟩ := Run.bind_eq_some.mp ran
        obtain ⟨_, rfl⟩ := Run.assert_eq_some.mp asserted
        obtain ⟨_, u, written, ran⟩ := Run.bind_eq_some.mp ran
        cases ran
        have list : t.permissions d = s.permissions d := by
          rw [Fs.permissions_of_file here', Fs.permissions_of_file here]
        obtain ⟨relinked, edges⟩ := writeDirectory_leaf (alloc.congr opened.slots opened.accounting)
          (opened.nodes ▸ readable) (opened.nodes ▸ outside) written
        rw [list] at relinked
        refine Or.inr ⟨rfl, edge_of_leaf outside name, opened.relinked relinked, file, here, Or.inr ⟨outside, ?_⟩⟩
        rw [edges, opened.nodes]
    · cases ran
      exact Or.inl ⟨by decide, opened⟩
  · cases ran
    exact Or.inl ⟨by decide, Opened.refl _ _⟩

/-- An entry is removed, unless the directory may not be written or has no such entry. -/
theorem removeNode_spec {d : BucketIndex} {name : Name} {ctx : Context} {je : Option Wrapper} {e : EE} {s s' : Fs}
    (alloc : Alloc s) (readable : Readable s.nodes) (ran : removeNode (some d) name ctx je s = some (e, s')) :
    (e ≠ .ok ∧ Opened (s.permissions d) s s' ∧
        (s.access (some d) ctx Access.WX = false ∨ edge s.nodes d name = none ∨
          ∃ file, s.inodeFileCache d = some file ∧ file.special = true)) ∨
      (e = .ok ∧ ∃ i, edge s.nodes d name = some i ∧ Relinked (s.permissions d) s s' ∧
        edge s'.nodes = NameGraph.cut (edge s.nodes) d name) := by
  unfold removeNode at ran
  obtain ⟨isValid, _, found, ran⟩ := Run.bind_eq_some.mp ran
  obtain ⟨validity, rfl⟩ := valid_eq_some.mp found
  split at ran
  · rename_i yes
    rw [validity] at yes
    obtain ⟨file, here⟩ := Option.isSome_iff_exists.mp yes
    change s.inodeFileCache d = some file at here
    obtain ⟨allowed, t, checked, ran⟩ := Run.bind_eq_some.mp ran
    obtain ⟨answer, opened⟩ := validate_access_spec checked
    have here' := opened.files.kept here
    split at ran
    · obtain ⟨result, _, read, ran⟩ := Run.bind_eq_some.mp ran
      obtain ⟨rfl, cases'⟩ := readDirectory_spec (opened.nodes ▸ readable) here' read
      rw [opened.nodes] at cases'
      rcases cases' with ⟨special, rfl⟩ | ⟨m, holds, _, rfl⟩ | ⟨outside, rfl⟩
      · cases ran
        exact Or.inl ⟨by decide, opened, Or.inr (Or.inr ⟨file, here, special⟩)⟩
      · dsimp only at ran
        rw [m.hasProperty_json, ← holds.edge] at ran
        split at ran
        · rename_i present
          obtain ⟨i, found⟩ := Option.isSome_iff_exists.mp present
          obtain ⟨_, u, written, ran⟩ := Run.bind_eq_some.mp ran
          cases ran
          rw [m.json_erase name] at written
          have list : t.permissions d = s.permissions d := by
            rw [Fs.permissions_of_file here', Fs.permissions_of_file here]
          obtain ⟨relinked, edges⟩ := writeDirectory_dir (alloc.congr opened.slots opened.accounting)
            (opened.nodes ▸ readable) (opened.nodes ▸ holds) (holds.storable.erase name) written
          rw [list] at relinked
          refine Or.inr ⟨rfl, i, found, opened.relinked relinked, ?_⟩
          rw [edges, opened.nodes]
          funext d' c
          unfold NameGraph.cut
          by_cases same : d' = d
          · rw [if_pos same, m.find_erase, same, holds.edge]
            by_cases this : c = name
            · rw [if_pos this, if_pos ⟨rfl, this⟩]
            · rw [if_neg this, if_neg (fun both => this both.2)]
          · rw [if_neg same, if_neg (fun both => same both.1)]
        · rename_i absent
          cases ran
          exact Or.inl ⟨by decide, opened, Or.inr (Or.inl (by simpa using absent))⟩
      · have absent : (JSON.empty : JSON Floats.F).hasProperty name = false := rfl
        dsimp only at ran
        rw [absent, if_neg Bool.false_ne_true] at ran
        cases ran
        exact Or.inl ⟨by decide, opened, Or.inr (Or.inl (edge_of_leaf outside name))⟩
    · rename_i refused
      cases ran
      refine Or.inl ⟨by decide, opened, Or.inl ?_⟩
      rw [← answer]
      exact Bool.eq_false_iff.mpr refused
  · rename_i no
    cases ran
    refine Or.inl ⟨by decide, Opened.refl _ _, Or.inl ?_⟩
    have closed : s.inodeFileCache d = none := by
      rw [validity] at no
      simpa using no
    simp [Fs.access, closed]

end Writes

end CloudCryptFS.Filesystem
