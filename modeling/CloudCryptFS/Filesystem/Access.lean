import CloudCryptFS.Filesystem.Runs

/-! The check of access against the rule that it stands for. The sticky bit counts where
it is found first on the way down, though the rule asks for it in the last directory. -/

namespace CloudCryptFS.Filesystem
open Util Script

/-- The bit that keeps others from removing the files of a directory. -/
def Inode.sticky (d : Inode) : Prop := d.mode &&& Mode.FLAG_SVTX ≠ 0

instance : DecidablePred Inode.sticky := fun d => inferInstanceAs (Decidable (d.mode &&& Mode.FLAG_SVTX ≠ 0))

/-- The rule: the directories `dirs` may be searched, the last one and the file give the
access that is asked for, and a last directory that is sticky or the file is one's own. -/
structure Posix (dirs : List Inode) (n : Inode) (ctx : Context) (da dda : Mode) (checkStickyOwner : Bool) : Prop where
  search : ∀ d ∈ dirs, d.permits ctx Access.X = true
  folder : ∀ d ∈ dirs.getLast?, d.permits ctx dda = true
  file : n.permits ctx da = true
  sticky : checkStickyOwner = true → ∀ d ∈ dirs.getLast?, d.sticky → n.uid = ctx.uid ∨ d.uid = ctx.uid

/-- The first sticky directory is one's own, if there is one, just when the last is if it
is sticky. -/
def StickyAgrees (dirs : List Inode) (ctx : Context) : Prop :=
  (∀ d ∈ dirs.find? (fun d => d.sticky), d.uid = ctx.uid) ↔ ∀ d ∈ dirs.getLast?, d.sticky → d.uid = ctx.uid

namespace Fs

/-- The inodes of the directories that a file object has on its list. -/
def above (s : Fs) (file : FileObject) : List Inode := file.pathPermissions.map (folder s.nodes)

/-- A file and its directories are all there. -/
structure Reaches (s : Fs) (i : BucketIndex) (file : FileObject) : Prop where
  opened : s.inodeFileCache i = some file
  alive : (s.nodes i).isSome
  above : ∀ p ∈ file.pathPermissions, p ≠ 0 ∧ (s.nodes p).isSome

end Fs

section Rule
variable {nodes : Nodes} {ctx : Context}

theorem Inode.permits_none (n : Inode) (ctx : Context) : n.permits ctx Access.NONE = true := by
  unfold permits
  split_ifs <;> simp [Access.NONE]

/-- The loop finds out about the first sticky directory. -/
theorem checkLoop_eq (checkStickyOwner : Bool) (pathPermissions : List BucketIndex) (stickySet owndir : Bool) :
    checkLoop nodes ctx checkStickyOwner pathPermissions stickySet owndir =
      if ∀ d ∈ pathPermissions.map (folder nodes), d.permits ctx Access.X = true then
        let first := (pathPermissions.map (folder nodes)).find? (fun d => d.sticky)
        some (stickySet || checkStickyOwner && first.isSome,
          owndir || checkStickyOwner && !stickySet && first.any (fun d => d.uid = ctx.uid))
      else none := by
  induction pathPermissions generalizing stickySet owndir with
  | nil => simp [checkLoop]
  | cons p pathPermissions ih =>
    by_cases allowed : (folder nodes p).permits ctx Access.X = true
    · have bit : decide ((folder nodes p).mode &&& Mode.FLAG_SVTX ≠ 0) = decide (folder nodes p).sticky := rfl
      unfold checkLoop
      simp only [allowed, if_true, ih, List.map_cons, List.forall_mem_cons, true_and, List.find?_cons, bit]
      generalize (pathPermissions.map (folder nodes)).find? (fun d => d.sticky) = first
      by_cases here : (folder nodes p).sticky <;> cases checkStickyOwner <;> cases stickySet <;> cases owndir <;>
        simp [here]
    · simp [checkLoop, allowed]

/-- The directory that must give access is the last one. -/
theorem folderPermits_iff (pathPermissions : List BucketIndex) (dda : Mode) :
    folderPermits nodes pathPermissions ctx dda = true ↔
      ∀ d ∈ (pathPermissions.map (folder nodes)).getLast?, d.permits ctx dda = true := by
  unfold folderPermits
  rw [List.getLast?_map]
  cases pathPermissions.getLast? with
  | none => simp
  | some last =>
    by_cases wanted : dda = Access.NONE
    · simp [wanted, Inode.permits_none]
    · simp [wanted]

theorem checkWith_iff (pathPermissions : List BucketIndex) (n : Inode) (da dda : Mode) (checkStickyOwner : Bool) :
    checkWith nodes pathPermissions n ctx da dda checkStickyOwner = true ↔
      (∀ d ∈ pathPermissions.map (folder nodes), d.permits ctx Access.X = true) ∧
      (∀ d ∈ (pathPermissions.map (folder nodes)).getLast?, d.permits ctx dda = true) ∧ n.permits ctx da = true ∧
      (checkStickyOwner = true → n.uid = ctx.uid ∨
        ∀ d ∈ (pathPermissions.map (folder nodes)).find? (fun d => d.sticky), d.uid = ctx.uid) := by
  unfold checkWith
  rw [checkLoop_eq]
  by_cases search : ∀ d ∈ pathPermissions.map (folder nodes), d.permits ctx Access.X = true
  · rw [if_pos search, ← folderPermits_iff, and_iff_right search]
    generalize (pathPermissions.map (folder nodes)).find? (fun d => d.sticky) = first
    cases allowed : folderPermits nodes pathPermissions ctx dda with
    | false => simp
    | true =>
      cases checkStickyOwner <;> cases first <;> by_cases own : n.uid = ctx.uid <;> simp [own, and_comm]
  · rw [if_neg search]
    exact iff_of_false Bool.false_ne_true (fun all => search all.1)

/-- The check follows the rule but where the first sticky directory decides against it. -/
theorem checkWith_posix_iff (pathPermissions : List BucketIndex) (n : Inode) (da dda : Mode) (checkStickyOwner : Bool) :
    (checkWith nodes pathPermissions n ctx da dda checkStickyOwner = true ↔
        Posix (pathPermissions.map (folder nodes)) n ctx da dda checkStickyOwner) ↔
      (checkStickyOwner = true → n.uid ≠ ctx.uid →
        (∀ d ∈ pathPermissions.map (folder nodes), d.permits ctx Access.X = true) →
        (∀ d ∈ (pathPermissions.map (folder nodes)).getLast?, d.permits ctx dda = true) → n.permits ctx da = true →
        StickyAgrees (pathPermissions.map (folder nodes)) ctx) := by
  rw [checkWith_iff]
  generalize pathPermissions.map (folder nodes) = dirs
  constructor
  · intro same asked other search folder file
    constructor
    · intro own
      have granted := same.mp ⟨search, folder, file, fun _ => Or.inr own⟩
      exact fun d last sticky => (granted.sticky asked d last sticky).resolve_left other
    · intro own
      have granted := same.mpr ⟨search, folder, file, fun _ d last sticky => Or.inr (own d last sticky)⟩
      exact (granted.2.2.2 asked).resolve_left other
  · intro agrees
    constructor
    · intro granted
      obtain ⟨search, folder, file, sticky⟩ := granted
      refine ⟨search, folder, file, fun asked d last isSticky => ?_⟩
      by_cases own : n.uid = ctx.uid
      · exact Or.inl own
      · have first := (sticky asked).resolve_left own
        exact Or.inr ((agrees asked own search folder file).mp first d last isSticky)
    · intro granted
      refine ⟨granted.search, granted.folder, granted.file, fun asked => ?_⟩
      by_cases own : n.uid = ctx.uid
      · exact Or.inl own
      · have last := fun d last isSticky => (granted.sticky asked d last isSticky).resolve_left own
        exact Or.inr ((agrees asked own granted.search granted.folder granted.file).mpr last)

end Rule

section Total
variable {s : Fs}

/-- The directories that are there can be opened and read. -/
theorem permissionNode_alive {p : BucketIndex} (real : p ≠ 0) (alive : (s.nodes p).isSome) :
    ∃ t n, permissionNode p s = some (some p, t) ∧ INode (some p) t = some (n, t) ∧ t.slots = s.slots := by
  obtain ⟨n, node⟩ := Option.isSome_iff_exists.mp alive
  obtain ⟨n', slot, _⟩ := Fs.nodes_eq_some.mp node
  cases file : s.inodeFileCache p with
  | some file =>
    exact ⟨s, n', inodeToFile_of_open (by rw [file]; rfl) none [], INode_eq_some.mpr ⟨slot, rfl⟩, rfl⟩
  | none =>
    have opened := inodeToFile_of_closed file real none []
    rw [if_pos alive] at opened
    exact ⟨_, n', opened, INode_eq_some.mpr ⟨slot, rfl⟩, rfl⟩

theorem accessLoop_total (ctx : Context) (checkStickyOwner : Bool) {pathPermissions : List BucketIndex}
    (alive : ∀ p ∈ pathPermissions, p ≠ 0 ∧ (s.nodes p).isSome) (stickySet owndir : Bool) :
    ∃ result, accessLoop ctx checkStickyOwner pathPermissions stickySet owndir s = some result := by
  induction pathPermissions generalizing s stickySet owndir with
  | nil => exact ⟨_, rfl⟩
  | cons p pathPermissions ih =>
    obtain ⟨real, here⟩ := alive p List.mem_cons_self
    obtain ⟨t, n, opened, found, slots⟩ := permissionNode_alive real here
    unfold accessLoop
    rw [Run.bind_of_some opened, Run.bind_of_some found]
    split
    · have later : ∀ q ∈ pathPermissions, q ≠ 0 ∧ (t.nodes q).isSome := fun q member =>
        Fs.nodes_congr slots ▸ alive q (List.mem_cons_of_mem p member)
      exact ih later _ _
    · exact ⟨_, rfl⟩

theorem checkFolder_total (ctx : Context) (dda : Mode) {pathPermissions : List BucketIndex}
    (alive : ∀ p ∈ pathPermissions, p ≠ 0 ∧ (s.nodes p).isSome) :
    ∃ result, checkFolder pathPermissions ctx dda s = some result := by
  unfold checkFolder
  cases isLast : pathPermissions.getLast? with
  | none => exact ⟨_, rfl⟩
  | some last =>
    obtain ⟨real, here⟩ := alive last (List.mem_of_getLast? isLast)
    obtain ⟨t, n, opened, found, _⟩ := permissionNode_alive real here
    dsimp only
    split
    · rw [Run.bind_of_some opened, Run.bind_of_some found]
      exact ⟨_, rfl⟩
    · exact ⟨_, rfl⟩

theorem validateWith_total (ctx : Context) (da dda : Mode) (checkStickyOwner : Bool) {i : BucketIndex}
    {pathPermissions : List BucketIndex} (alive : ∀ p ∈ pathPermissions, p ≠ 0 ∧ (s.nodes p).isSome)
    (here : (s.nodes i).isSome) :
    ∃ result, validateWith pathPermissions (some i) ctx da dda checkStickyOwner s = some result := by
  obtain ⟨⟨result, t⟩, looped⟩ := accessLoop_total ctx checkStickyOwner alive false false
  have opened := (accessLoop_spec looped).2
  unfold validateWith
  rw [Run.bind_of_some looped]
  cases result with
  | none => exact ⟨_, rfl⟩
  | some found =>
    have later : ∀ q ∈ pathPermissions, q ≠ 0 ∧ (t.nodes q).isSome := fun q member => opened.nodes ▸ alive q member
    obtain ⟨⟨allowed, u⟩, asked⟩ := checkFolder_total ctx dda later
    have slots : u.slots = s.slots := (checkFolder_spec asked).2.slots.trans opened.slots
    obtain ⟨n, node⟩ := Option.isSome_iff_exists.mp here
    obtain ⟨n', slot, _⟩ := Fs.nodes_eq_some.mp node
    have inode : INode (some i) u = some (n', u) := INode_eq_some.mpr ⟨by rw [slots, slot], rfl⟩
    dsimp only
    rw [Run.bind_of_some asked]
    split
    · exact ⟨_, rfl⟩
    · rw [Run.bind_of_some inode]
      split <;> exact ⟨_, rfl⟩

end Total

section Answers
variable {s : Fs} {i : BucketIndex} {file : FileObject}

/-- Every check of access to a file whose directories are there has an answer. -/
theorem validate_access_total (reaches : s.Reaches i file) (ctx : Context) (da dda : Mode) (checkStickyOwner : Bool) :
    ∃ answer t, validate_access (some i) ctx da dda checkStickyOwner s = some (answer, t) := by
  have isValid : valid (some i) s = some (true, s) := valid_eq_some.mpr ⟨by simp [reaches.opened], rfl⟩
  have listed : getPathPermissions (bucketIdx (some i)) s = some (file.pathPermissions, s) := by
    simp [getPathPermissions, bucketIdx, reaches.opened]
  obtain ⟨⟨answer, t⟩, ran⟩ := validateWith_total ctx da dda checkStickyOwner reaches.above reaches.alive
  unfold validate_access
  rw [Run.bind_of_some isValid, if_pos rfl]
  split
  · exact ⟨true, s, rfl⟩
  · rw [Run.bind_of_some listed]
    exact ⟨answer, t, ran⟩

/-- The check of access follows the rule, except for a sticky directory further up that
decides otherwise. -/
theorem validate_access_posix_iff (reaches : s.Reaches i file) {ctx : Context} (user : ctx.uid ≠ 0) (da dda : Mode)
    (checkStickyOwner : Bool) :
    ∃ answer t, validate_access (some i) ctx da dda checkStickyOwner s = some (answer, t) ∧
      ((answer = true ↔ Posix (s.above file) (folder s.nodes i) ctx da dda checkStickyOwner) ↔
        (checkStickyOwner = true → (folder s.nodes i).uid ≠ ctx.uid →
          (∀ d ∈ s.above file, d.permits ctx Access.X = true) → (∀ d ∈ (s.above file).getLast?, d.permits ctx dda = true) →
          (folder s.nodes i).permits ctx da = true → StickyAgrees (s.above file) ctx)) := by
  obtain ⟨answer, t, ran⟩ := validate_access_total reaches ctx da dda checkStickyOwner
  have same := (validate_access_spec ran).1
  rw [Fs.access, reaches.opened] at same
  simp only [user, decide_false, Bool.false_or] at same
  exact ⟨answer, t, ran, by rw [same]; exact checkWith_posix_iff file.pathPermissions _ da dda checkStickyOwner⟩

end Answers

section Sticky

instance (dirs : List Inode) (n : Inode) (ctx : Context) (da dda : Mode) (checkStickyOwner : Bool) :
    Decidable (Posix dirs n ctx da dda checkStickyOwner) :=
  decidable_of_iff
    ((∀ d ∈ dirs, d.permits ctx Access.X = true) ∧ (∀ d ∈ dirs.getLast?, d.permits ctx dda = true) ∧
      n.permits ctx da = true ∧
      (checkStickyOwner = true → ∀ d ∈ dirs.getLast?, d.sticky → n.uid = ctx.uid ∨ d.uid = ctx.uid))
    ⟨fun all => ⟨all.1, all.2.1, all.2.2.1, all.2.2.2⟩, fun rule => ⟨rule.search, rule.folder, rule.file, rule.sticky⟩⟩

def someone : Context := ⟨1000, 1000, []⟩

/-- `/d` is sticky, `/d/e` is open to all, and `/d/e/f` is a file in it. -/
def openBelowSticky : List Op :=
  [.mkdir dirD 0o1777 superuser, .mkdir [[101], [100]] 0o777 superuser, .mknod [[102], [101], [100]] 0o666 superuser]

/-- The file `f` is not removed for someone who may write the directory `/d/e`. -/
private theorem refused_openBelowSticky : ∃ s file, s.Reaches 260 file ∧ file.pathPermissions = [256, 258, 259] ∧
    (validate_access (some 260) someone Access.NONE Access.W true s).map Prod.fst = some false ∧
    Posix (s.above file) (folder s.nodes 260) someone Access.NONE Access.W true := by
  have facts : (mount (formatted superuser)).bind (fun s₀ => (runAll openBelowSticky s₀).map (fun result =>
      ((result.2.inodeFileCache 260).map FileObject.pathPermissions,
        ([260, 256, 258, 259] : List BucketIndex).all (fun p => (result.2.nodes p).isSome),
        (validate_access (some 260) someone Access.NONE Access.W true result.2).map Prod.fst,
        decide (Posix ([256, 258, 259].map (folder result.2.nodes)) (folder result.2.nodes 260) someone Access.NONE
          Access.W true)))) = some (some [256, 258, 259], true, some false, true) := by decide +kernel
  obtain ⟨s₀, _, ran⟩ := Option.bind_eq_some_iff.mp facts
  obtain ⟨⟨_, s⟩, _, facts⟩ := Option.map_eq_some_iff.mp ran
  simp only [Prod.mk.injEq, decide_eq_true_eq, List.all_eq_true] at facts
  obtain ⟨file, alive, refused, rule⟩ := facts
  obtain ⟨file, opened, directories⟩ := Option.map_eq_some_iff.mp file
  refine ⟨s, file, ⟨opened, alive 260 (by decide), fun p member => ?_⟩, directories, refused, ?_⟩
  · rw [directories] at member
    refine ⟨fun zero => ?_, alive p (List.mem_cons_of_mem _ member)⟩
    rw [zero] at member
    exact absurd member (by decide)
  · rw [Fs.above, directories]
    exact rule

theorem validate_access_openBelowSticky : ∃ s file answer t, s.Reaches 260 file ∧
    validate_access (some 260) someone Access.NONE Access.W true s = some (answer, t) ∧
      ((answer = true ↔ Posix (s.above file) (folder s.nodes 260) someone Access.NONE Access.W true) ↔
        (true = true → (folder s.nodes 260).uid ≠ someone.uid →
          (∀ d ∈ s.above file, d.permits someone Access.X = true) →
          (∀ d ∈ (s.above file).getLast?, d.permits someone Access.W = true) →
          (folder s.nodes 260).permits someone Access.NONE = true → StickyAgrees (s.above file) someone)) := by
  obtain ⟨s, file, reaches, _⟩ := refused_openBelowSticky
  obtain ⟨answer, t, ran, same⟩ := validate_access_posix_iff reaches (by decide : someone.uid ≠ 0) Access.NONE Access.W true
  exact ⟨s, file, answer, t, reaches, ran, same⟩

/-- The sticky bit of a directory above the last one does have an effect. -/
theorem validate_access_not_posix : ¬∀ (s : Fs) (i : BucketIndex) (file : FileObject) (ctx : Context) (da dda : Mode)
    (checkStickyOwner : Bool), s.Reaches i file → file.pathPermissions ≠ [] → ctx.uid ≠ 0 →
    ∃ answer t, validate_access (some i) ctx da dda checkStickyOwner s = some (answer, t) ∧
      (answer = true ↔ Posix (s.above file) (folder s.nodes i) ctx da dda checkStickyOwner) := by
  intro agrees
  obtain ⟨s, file, reaches, directories, refused, rule⟩ := refused_openBelowSticky
  have filled : file.pathPermissions ≠ [] := by
    rw [directories]
    exact List.cons_ne_nil _ _
  obtain ⟨answer, t, ran, same⟩ := agrees s 260 file someone Access.NONE Access.W true reaches filled (by decide)
  rw [ran] at refused
  cases refused
  exact absurd (same.mpr rule) (by decide)

end Sticky

end CloudCryptFS.Filesystem
