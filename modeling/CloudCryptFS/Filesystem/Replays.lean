import CloudCryptFS.Filesystem.Stored

/-! The replay of an entry of the journal, which holds no wrapper for it, and what the
replay itself adds to the journal: only a rename does, whose destination is taken. -/

namespace CloudCryptFS.Filesystem
open Util Script Script.Lexer Script.Json

/-- Nothing has been added to the journal. -/
def Unjournaled (s t : Fs) : Prop := t.nextJournalEntry = s.nextJournalEntry

instance : IsPreorder Fs Unjournaled where
  refl _ := Eq.refl _
  trans _ _ _ first second := Eq.trans second first

section Basic

theorem update_unjournaled {f : Fs → Fs} (keeps : ∀ s, (f s).nextJournalEntry = s.nextJournalEntry) : Run.Within Unjournaled (update f) := by
  intro s _ t ran
  cases ran
  exact keeps s

theorem state_unjournaled : Run.Within Unjournaled state := by
  intro s _ t ran
  cases ran
  exact refl_of Unjournaled s

theorem INode_unjournaled (F : FilePtr) : Run.Within Unjournaled (INode F) := by
  cases F with
  | none => exact Run.Within.pure _
  | some i =>
    intro s n t ran
    obtain ⟨_, rfl⟩ := INode_eq_some.mp ran
    exact refl_of Unjournaled s

theorem modifyINode_unjournaled (i : BucketIndex) (f : Inode → Inode) : Run.Within Unjournaled (modifyINode i f) := by
  intro s _ t ran
  obtain ⟨n, _, rfl⟩ := modifyINode_eq_some.mp ran
  exact Eq.refl s.nextJournalEntry

theorem valid_unjournaled (F : FilePtr) : Run.Within Unjournaled (valid F) := by
  intro s _ t ran
  obtain ⟨_, rfl⟩ := valid_eq_some.mp ran
  exact refl_of Unjournaled s

theorem isSpecial_unjournaled (F : FilePtr) : Run.Within Unjournaled (isSpecial F) := by
  intro s _ t ran
  cases ran
  exact refl_of Unjournaled s

theorem getPathPermissions_unjournaled (i : BucketIndex) : Run.Within Unjournaled (getPathPermissions i) := by
  intro s _ t ran
  cases ran
  exact refl_of Unjournaled s

theorem fetchIndex_unjournaled : Run.Within Unjournaled fetchIndex := by
  intro s i t ran
  obtain ⟨_, _, pair⟩ := Option.map_eq_some_iff.mp ran
  cases pair
  exact Eq.refl s.nextJournalEntry

theorem postIndex_unjournaled (i : BucketIndex) : Run.Within Unjournaled (postIndex i) := by
  intro s _ t ran
  obtain ⟨_, _, pair⟩ := Option.map_eq_some_iff.mp ran
  cases pair
  exact Eq.refl s.nextJournalEntry

theorem addChange_unjournaled (je : Option Wrapper) : Run.Within Unjournaled (addChange je) :=
  update_unjournaled (fun _ => rfl)

theorem fileOps_unjournaled (je : Option Wrapper) : (fileOps je).Within Unjournaled where
  read h offset size := by
    intro s _ t ran
    obtain ⟨_, _, pair⟩ := Option.map_eq_some_iff.mp ran
    cases pair
    exact Eq.refl s.nextJournalEntry
  write h offset input := by
    intro s _ t ran
    obtain ⟨_, _, pair⟩ := Option.map_eq_some_iff.mp ran
    cases pair
    exact Eq.refl s.nextJournalEntry
  incRefCnt _ _ := Run.Within.pure _
  decRefCnt _ := Run.Within.pure _
  getRefCnt _ := Run.Within.pure _
  rest _ := Run.Within.pure _
  addChange hashes := by
    change Run.Within Unjournaled (if hashes = [] then pure () else addChange je)
    split
    · exact Run.Within.pure _
    · exact addChange_unjournaled je

theorem inodeToFile_unjournaled (i : BucketIndex) (filename : Option Path) (pPerm : List BucketIndex) :
    Run.Within Unjournaled (inodeToFile i filename pPerm) := by
  refine Run.Within.bind state_unjournaled (fun s => ?_)
  split
  · exact Run.Within.pure _
  · refine Run.Within.bind (Run.Within.assert _) (fun _ => ?_)
    split
    · exact Run.Within.bind (update_unjournaled (fun _ => rfl)) (fun _ => Run.Within.pure _)
    · exact Run.Within.pure _

theorem createCtds_unjournaled (i : BucketIndex) (n : Nat) : Run.Within Unjournaled (createCtds i n) := by
  induction n with
  | zero => exact Run.Within.pure _
  | succ n ih =>
    refine Run.Within.bind fetchIndex_unjournaled (fun ctd => ?_)
    refine Run.Within.bind (update_unjournaled (fun _ => rfl)) (fun _ => ?_)
    exact Run.Within.bind (modifyINode_unjournaled i _) (fun _ => ih)

theorem rest_unjournaled (i : BucketIndex) : Run.Within Unjournaled (rest i) := by
  refine Run.Within.bind (valid_unjournaled _) (fun isValid => ?_)
  split
  · refine Run.Within.bind (isSpecial_unjournaled _) (fun special => ?_)
    split
    · exact Run.Within.pure _
    · exact Run.Within.bind (INode_unjournaled _) (fun n => createCtds_unjournaled i _)
  · exact Run.Within.pure _

theorem getCached_unjournaled (path : Path) : Run.Within Unjournaled (getCached path) := by
  refine Run.Within.bind state_unjournaled (fun s => ?_)
  split
  · exact Run.Within.pure _
  · refine Run.Within.bind (inodeToFile_unjournaled _ _ _) (fun F => ?_)
    split
    · exact Run.Within.pure _
    · exact Run.Within.bind (update_unjournaled (fun _ => rfl)) (fun _ => Run.Within.pure _)

theorem accessLoop_unjournaled (ctx : Context) (checkStickyOwner : Bool) (pathPermissions : List BucketIndex) (stickySet owndir : Bool) :
    Run.Within Unjournaled (accessLoop ctx checkStickyOwner pathPermissions stickySet owndir) := by
  induction pathPermissions generalizing stickySet owndir with
  | nil => exact Run.Within.pure _
  | cons p pathPermissions ih =>
    refine Run.Within.bind (inodeToFile_unjournaled _ _ _) (fun F => ?_)
    refine Run.Within.bind (INode_unjournaled F) (fun node => ?_)
    dsimp only
    split
    · exact ih _ _
    · exact Run.Within.pure _

theorem checkFolder_unjournaled (pathPermissions : List BucketIndex) (ctx : Context) (dda : Mode) :
    Run.Within Unjournaled (checkFolder pathPermissions ctx dda) := by
  unfold checkFolder
  split
  · split
    · refine Run.Within.bind (inodeToFile_unjournaled _ _ _) (fun F => ?_)
      exact Run.Within.bind (INode_unjournaled F) (fun _ => Run.Within.pure _)
    · exact Run.Within.pure _
  · exact Run.Within.pure _

theorem validate_access_unjournaled (F : FilePtr) (ctx : Context) (da dda : Mode) (checkStickyOwner : Bool) :
    Run.Within Unjournaled (validate_access F ctx da dda checkStickyOwner) := by
  refine Run.Within.bind (valid_unjournaled F) (fun isValid => ?_)
  split
  · split
    · exact Run.Within.pure _
    · refine Run.Within.bind (getPathPermissions_unjournaled _) (fun pathPermissions => ?_)
      refine Run.Within.bind (accessLoop_unjournaled _ _ _ _ _) (fun looped => ?_)
      split
      · exact Run.Within.pure _
      · refine Run.Within.bind (checkFolder_unjournaled _ _ _) (fun folder => ?_)
        split
        · exact Run.Within.pure _
        · refine Run.Within.bind (INode_unjournaled F) (fun n => ?_)
          split <;> exact Run.Within.pure _
  · exact Run.Within.pure _

theorem fileWriteInner_unjournaled (i : BucketIndex) (buf : Str) (offset : Nat) (je : Option Wrapper) :
    Run.Within Unjournaled (fileWriteInner i buf offset je) := by
  refine Run.Within.bind (INode_unjournaled _) (fun n => ?_)
  refine Run.Within.bind (writeData_within (fileOps_unjournaled je) n.data buf offset) (fun written => ?_)
  refine Run.Within.bind (modifyINode_unjournaled i _) (fun _ => ?_)
  refine Run.Within.bind state_unjournaled (fun s => ?_)
  split
  · exact Run.Within.pure _
  · dsimp only
    split
    · refine Run.Within.bind (update_unjournaled (fun _ => rfl)) (fun _ => ?_)
      exact Run.Within.bind (rest_unjournaled i) (fun _ => Run.Within.pure _)
    · exact Run.Within.bind (update_unjournaled (fun _ => rfl)) (fun _ => Run.Within.pure _)

theorem fileTruncateInner_unjournaled (i : BucketIndex) (newSize : Nat) (je : Option Wrapper) :
    Run.Within Unjournaled (fileTruncateInner i newSize je) := by
  refine Run.Within.bind (INode_unjournaled _) (fun n => ?_)
  refine Run.Within.bind (truncateData_within (fileOps_unjournaled je) n.data newSize) (fun data => ?_)
  refine Run.Within.bind (addChange_unjournaled je) (fun _ => ?_)
  refine Run.Within.bind (modifyINode_unjournaled i _) (fun _ => ?_)
  exact Run.Within.bind (rest_unjournaled i) (fun _ => Run.Within.pure _)

theorem chmodInner_unjournaled (i : BucketIndex) (mod : Mode) (je : Option Wrapper) : Run.Within Unjournaled (chmodInner i mod je) := by
  refine Run.Within.bind (INode_unjournaled _) (fun n => ?_)
  refine Run.Within.bind (Run.Within.assert _) (fun _ => ?_)
  refine Run.Within.bind (modifyINode_unjournaled i _) (fun _ => ?_)
  exact Run.Within.bind (addChange_unjournaled je) (fun _ => Run.Within.pure _)

theorem chownInner_unjournaled (i : BucketIndex) (uid gid : UInt32) (je : Option Wrapper) :
    Run.Within Unjournaled (chownInner i uid gid je) := by
  refine Run.Within.bind (modifyINode_unjournaled i _) (fun _ => ?_)
  exact Run.Within.bind (addChange_unjournaled je) (fun _ => Run.Within.pure _)

theorem deleteFile_unjournaled (i : BucketIndex) : Run.Within Unjournaled (deleteFile i) := by
  refine Run.Within.bind (INode_unjournaled _) (fun n => ?_)
  refine Run.Within.bind (update_unjournaled (fun _ => rfl)) (fun _ => ?_)
  exact Run.Within.forM (fun li => Run.Within.bind (update_unjournaled (fun _ => rfl)) (fun _ => postIndex_unjournaled li))

theorem withEntry_next {α : Type} {s t : Fs} {entry : JournalEntry} {body : Option Wrapper → FsM α} {a : α}
    (quiet : ∀ je, Run.Within Unjournaled (body je)) (ran : withEntry entry body s = some (a, t)) :
    t.nextJournalEntry = s.nextJournalEntry + 1 := by
  obtain ⟨je, u, added, ran⟩ := Run.bind_eq_some.mp ran
  obtain ⟨result, v, inner, ran⟩ := Run.bind_eq_some.mp ran
  have drawn : u.nextJournalEntry = s.nextJournalEntry + 1 := by
    cases added
    rfl
  have kept := quiet _ _ _ _ inner
  cases ran
  exact kept.trans drawn

end Basic

variable [Floats]

section Lookup

theorem readDirectory_unjournaled (i : BucketIndex) : Run.Within Unjournaled (readDirectory i) := by
  refine Run.Within.bind (valid_unjournaled _) (fun isValid => ?_)
  split
  · refine Run.Within.bind (INode_unjournaled _) (fun n => ?_)
    split
    · refine Run.Within.bind (isSpecial_unjournaled _) (fun special => ?_)
      split
      · exact Run.Within.pure _
      · exact readDirectoryContent_within (fileOps_unjournaled none).read n.data
    · exact Run.Within.pure _
  · exact Run.Within.pure _

theorem getIndex_unjournaled (directory : JSON Floats.F) (name : Name) : Run.Within Unjournaled (getIndex directory name) := by
  unfold getIndex
  split
  · exact Run.Within.pure _
  · exact Run.Within.abort

theorem hasNode_unjournaled (i : BucketIndex) (name : Name) : Run.Within Unjournaled (hasNode i name) := by
  refine Run.Within.bind (valid_unjournaled _) (fun isValid => ?_)
  split
  · refine Run.Within.bind (readDirectory_unjournaled i) (fun found => ?_)
    split
    · exact Run.Within.pure _
    · split
      · exact Run.Within.bind (getIndex_unjournaled _ _) (fun _ => Run.Within.pure _)
      · exact Run.Within.pure _
  · exact Run.Within.pure _

theorem get_unjournaled (path : Path) : Run.Within Unjournaled (get path) := by
  induction path with
  | nil =>
    refine Run.Within.bind (getCached_unjournaled []) (fun F => ?_)
    split <;> exact Run.Within.pure _
  | cons childname parentname ih =>
    refine Run.Within.bind (getCached_unjournaled _) (fun F => ?_)
    split
    · exact Run.Within.pure _
    · split
      · exact Run.Within.pure _
      · refine Run.Within.bind ih (fun parent => ?_)
        split
        · exact Run.Within.pure _
        · refine Run.Within.bind (INode_unjournaled _) (fun n => ?_)
          split
          · exact Run.Within.pure _
          · refine Run.Within.bind (hasNode_unjournaled _ _) (fun found => ?_)
            split
            · exact Run.Within.pure _
            · refine Run.Within.bind (Run.Within.assert _) (fun _ => ?_)
              refine Run.Within.bind (update_unjournaled (fun _ => rfl)) (fun _ => ?_)
              exact Run.Within.bind (getPathPermissions_unjournaled _) (fun _ => inodeToFile_unjournaled _ _ _)

end Lookup

section Directories

theorem writeDirectory_unjournaled (i : BucketIndex) (directory : JSON Floats.F) (je : Option Wrapper) :
    Run.Within Unjournaled (writeDirectory i directory je) := by
  refine Run.Within.bind (isSpecial_unjournaled _) (fun special => ?_)
  refine Run.Within.bind (Run.Within.assert _) (fun _ => ?_)
  refine Run.Within.bind (INode_unjournaled _) (fun n => ?_)
  refine Run.Within.bind (swapContent_within (fileOps_unjournaled je) n.data _) (fun data => ?_)
  exact Run.Within.bind (modifyINode_unjournaled i _) (fun _ => rest_unjournaled i)

theorem addNode_unjournaled (F : FilePtr) (name : Name) (node : BucketIndex) (ctx : Context) (je : Option Wrapper) :
    Run.Within Unjournaled (addNode F name node ctx je) := by
  cases F with
  | none => exact Run.Within.pure _
  | some i =>
    refine Run.Within.bind (valid_unjournaled _) (fun isValid => ?_)
    split
    · refine Run.Within.bind (validate_access_unjournaled _ _ _ _ _) (fun access => ?_)
      split
      · refine Run.Within.bind (readDirectory_unjournaled i) (fun found => ?_)
        split
        · exact Run.Within.pure _
        · split
          · exact Run.Within.pure _
          · refine Run.Within.bind (Run.Within.assert _) (fun _ => ?_)
            exact Run.Within.bind (writeDirectory_unjournaled i _ je) (fun _ => Run.Within.pure _)
      · exact Run.Within.pure _
    · exact Run.Within.pure _

theorem removeNode_unjournaled (F : FilePtr) (name : Name) (ctx : Context) (je : Option Wrapper) :
    Run.Within Unjournaled (removeNode F name ctx je) := by
  cases F with
  | none => exact Run.Within.pure _
  | some i =>
    refine Run.Within.bind (valid_unjournaled _) (fun isValid => ?_)
    split
    · refine Run.Within.bind (validate_access_unjournaled _ _ _ _ _) (fun access => ?_)
      split
      · refine Run.Within.bind (readDirectory_unjournaled i) (fun found => ?_)
        split
        · exact Run.Within.pure _
        · split
          · exact Run.Within.bind (writeDirectory_unjournaled i _ je) (fun _ => Run.Within.pure _)
          · exact Run.Within.pure _
      · exact Run.Within.pure _
    · exact Run.Within.pure _

theorem isFullDir_unjournaled (F : FilePtr) : Run.Within Unjournaled (isFullDir F) := by
  cases F with
  | none => exact Run.Within.pure _
  | some i =>
    refine Run.Within.bind (valid_unjournaled _) (fun isValid => ?_)
    split
    · refine Run.Within.bind (INode_unjournaled _) (fun n => ?_)
      split
      · exact Run.Within.pure _
      · refine Run.Within.bind (readDirectory_unjournaled i) (fun found => ?_)
        split <;> exact Run.Within.pure _
    · exact Run.Within.pure _

end Directories

section Operations

theorem mkobjectInner_unjournaled (parentNode newNode : BucketIndex) (mod : Mode) (name : Name) (ctx : Context) (je : Option Wrapper) :
    Run.Within Unjournaled (mkobjectInner parentNode newNode mod name ctx je) := by
  refine Run.Within.bind (inodeToFile_unjournaled _ _ _) (fun parent => ?_)
  refine Run.Within.bind (valid_unjournaled _) (fun isValid => ?_)
  refine Run.Within.bind (Run.Within.assert _) (fun _ => ?_)
  refine Run.Within.bind (Run.Within.assert _) (fun _ => ?_)
  refine Run.Within.bind (addNode_unjournaled _ _ _ _ _) (fun status => ?_)
  dsimp only
  split
  · exact Run.Within.bind (update_unjournaled (fun _ => rfl)) (fun _ => Run.Within.pure _)
  · exact Run.Within.pure _

theorem dropLink_unjournaled (f : FilePtr) (n : Inode) : Run.Within Unjournaled (dropLink f n) := by
  unfold dropLink
  split
  · refine Run.Within.bind (isFullDir_unjournaled _) (fun full => ?_)
    split <;> exact Run.Within.pure _
  · exact Run.Within.pure _
  · exact Run.Within.pure _
  · exact Run.Within.bind (modifyINode_unjournaled _ _) (fun _ => Run.Within.pure _)

theorem unlinkinner_unjournaled (filename : Path) (ctx : Context) (je : Option Wrapper) :
    Run.Within Unjournaled (unlinkinner filename ctx je) := by
  refine Run.Within.bind (get_unjournaled _) (fun parent => ?_)
  refine Run.Within.bind (get_unjournaled _) (fun f => ?_)
  refine Run.Within.bind (INode_unjournaled f) (fun n => ?_)
  have checked : Run.Within Unjournaled (checkUnlink je parent f n) := by
    unfold checkUnlink
    split
    · exact Run.Within.assert _
    · exact Run.Within.pure _
  refine Run.Within.bind checked (fun _ => ?_)
  refine Run.Within.bind (dropLink_unjournaled f n) (fun dropped => ?_)
  split
  · exact Run.Within.pure _
  · refine Run.Within.bind (removeNode_unjournaled _ _ _ _) (fun ret => ?_)
    dsimp only
    split
    · split
      · refine Run.Within.bind (deleteFile_unjournaled _) (fun _ => ?_)
        exact Run.Within.bind (update_unjournaled (fun _ => rfl)) (fun _ => Run.Within.pure _)
      · exact Run.Within.bind (update_unjournaled (fun _ => rfl)) (fun _ => Run.Within.pure _)
    · exact Run.Within.pure _

end Operations

section Replay

/-- `file::replayEntry`, with what it does for the type of the entry. -/
def fileReplayEntry (i : BucketIndex) (inner : FsM EE) : FsM EE := do
  let F ← inodeToFile i none []
  if ← valid F then inner else pure .entity_not_found

/-- `fs::replayEntry` without a wrapper. -/
def replayEntry (ctx : Context) : JournalEntry → FsM EE
  | .mkobject parentNode newNode mod name => mkobjectInner parentNode newNode mod name ctx none
  | .unlink _ _ _ name => unlinkinner name ctx none
  | .renamemove _ _ _ name data => renamemoveinner name data ctx none
  | .write newNode offset data => fileReplayEntry newNode (do
      let written ← fileWriteInner newNode data offset none
      pure (if written = data.length then .ok else .io_error))
  | .truncate newNode offset => fileReplayEntry newNode (fileTruncateInner newNode offset none)
  | .chmod newNode mod => fileReplayEntry newNode (chmodInner newNode mod none)
  | .chown newNode uid gid => fileReplayEntry newNode (chownInner newNode uid gid none)

/-- Whether `unlink` gets to its entry. -/
def unlinkable (filename : Path) (ctx : Context) : FsM Bool := do
  let _ ← get (getParentPath filename)
  match ← get filename with
  | none => pure false
  | some f =>
    if ← validate_access (some f) ctx Access.NONE Access.W true then
      let special ← isSpecial (some f)
      pure (!special && f ≠ rootIndex)
    else pure false

/-- Whether the destination is taken, and by a file that is unlinked for that. -/
def taken (dstparent : FilePtr) (dest : Path) (node : BucketIndex) (ctx : Context) : FsM Bool := do
  let error ← addNode dstparent (getChildPath dest) node ctx none
  if error = .exists then unlinkable dest ctx else pure false

/-- Whether the replay of an entry overwrites a file. -/
def overwrites (ctx : Context) : JournalEntry → FsM Bool
  | .renamemove _ _ _ source dest => do
    let _ ← get (getParentPath source)
    let dstparent ← get (getParentPath dest)
    let srcfile ← get source
    let _ ← get dest
    taken dstparent dest (bucketIdx srcfile) ctx
  | _ => pure false

variable {s t : Fs} {ctx : Context} {e : EE}

/-- An unlink adds its entry, if it gets there. -/
theorem unlink_next {filename : Path} (ran : unlink filename ctx s = some (e, t)) :
    ∃ b u, unlinkable filename ctx s = some (b, u) ∧ t.nextJournalEntry = s.nextJournalEntry + b.toNat := by
  obtain ⟨parent, p, looked, ran⟩ := Run.bind_eq_some.mp ran
  obtain ⟨F, q, found, ran⟩ := Run.bind_eq_some.mp ran
  have before : q.nextJournalEntry = s.nextJournalEntry :=
    trans_of Unjournaled (get_unjournaled _ _ _ _ looked) (get_unjournaled _ _ _ _ found)
  unfold unlinkable
  rw [Run.bind_of_some looked, Run.bind_of_some found]
  cases F with
  | none =>
    cases ran
    exact ⟨false, t, rfl, before⟩
  | some f =>
    obtain ⟨access, v, answered, ran⟩ := Run.bind_eq_some.mp ran
    have checked := (validate_access_unjournaled _ _ _ _ _ _ _ _ answered).trans before
    dsimp only
    rw [Run.bind_of_some answered]
    cases access with
    | false =>
      cases ran
      exact ⟨false, t, rfl, checked⟩
    | true =>
      obtain ⟨special, w, asked, ran⟩ := Run.bind_eq_some.mp ran
      have still := (isSpecial_unjournaled _ _ _ _ asked).trans checked
      refine ⟨!special && f ≠ rootIndex, w, ?_, ?_⟩
      · rw [if_pos rfl]
        exact Run.bind_of_some asked
      · split at ran
        · rename_i kept
          cases ran
          rw [still]
          rcases kept with rfl | rfl <;> simp
        · rename_i free
          obtain ⟨n, x, node, ran⟩ := Run.bind_eq_some.mp ran
          rw [withEntry_next (unlinkinner_unjournaled filename ctx) ran, INode_unjournaled _ _ _ _ node, still]
          obtain ⟨plain, other⟩ := not_or.mp free
          simp [Bool.not_eq_true _ ▸ plain, other]

/-- The destination is free, or its file goes by an unlink of its own. -/
theorem moveIn_next {dstparent : FilePtr} {dest : Path} {node : BucketIndex} (ran : moveIn dstparent dest node ctx none s = some (e, t)) :
    ∃ b u, taken dstparent dest node ctx s = some (b, u) ∧ t.nextJournalEntry = s.nextJournalEntry + b.toNat := by
  obtain ⟨error, u, added, ran⟩ := Run.bind_eq_some.mp ran
  have before : u.nextJournalEntry = s.nextJournalEntry := addNode_unjournaled _ _ _ _ _ _ _ _ added
  unfold taken
  rw [Run.bind_of_some added]
  split at ran
  · rename_i here
    obtain ⟨_, v, unlinked, ran⟩ := Run.bind_eq_some.mp ran
    obtain ⟨b, w, may, next⟩ := unlink_next unlinked
    rw [if_pos here]
    exact ⟨b, w, may, (addNode_unjournaled _ _ _ _ _ _ _ _ ran).trans (next.trans (congrArg (· + b.toNat) before))⟩
  · rename_i free
    cases ran
    rw [if_neg free]
    exact ⟨false, _, rfl, before⟩

theorem renamemoveinner_next {source dest : Path} (ran : renamemoveinner source dest ctx none s = some (e, t))
    (parentNode newNode newParentNode : BucketIndex) :
    ∃ b u, overwrites ctx (.renamemove parentNode newNode newParentNode source dest) s = some (b, u) ∧
      t.nextJournalEntry = s.nextJournalEntry + b.toNat := by
  obtain ⟨srcparent, s₁, first, ran⟩ := Run.bind_eq_some.mp ran
  obtain ⟨dstparent, s₂, second, ran⟩ := Run.bind_eq_some.mp ran
  obtain ⟨srcfile, s₃, third, ran⟩ := Run.bind_eq_some.mp ran
  obtain ⟨dstfile, s₄, fourth, ran⟩ := Run.bind_eq_some.mp ran
  obtain ⟨_, _, checked, ran⟩ := Run.bind_eq_some.mp ran
  cases checked
  have looked : s₄.nextJournalEntry = s.nextJournalEntry :=
    calc s₄.nextJournalEntry = s₃.nextJournalEntry := get_unjournaled _ _ _ _ fourth
      _ = s₂.nextJournalEntry := get_unjournaled _ _ _ _ third
      _ = s₁.nextJournalEntry := get_unjournaled _ _ _ _ second
      _ = s.nextJournalEntry := get_unjournaled _ _ _ _ first
  obtain ⟨error, s₅, moved, ran⟩ := Run.bind_eq_some.mp ran
  obtain ⟨b, u, may, next⟩ := moveIn_next moved
  have later : t.nextJournalEntry = s₅.nextJournalEntry := by
    split at ran
    · cases ran
      rfl
    · obtain ⟨error', s₆, removed, ran⟩ := Run.bind_eq_some.mp ran
      have kept := removeNode_unjournaled _ _ _ _ _ _ _ removed
      split at ran <;> cases ran <;> exact kept
  refine ⟨b, u, ?_, later.trans (next.trans (congrArg (· + b.toNat) looked))⟩
  dsimp only [overwrites]
  rw [Run.bind_of_some first, Run.bind_of_some second, Run.bind_of_some third, Run.bind_of_some fourth]
  exact may

/-- The replay of an entry adds one to the journal if it is a rename that overwrites, and
none otherwise. -/
theorem replayEntry_next {entry : JournalEntry} (ran : replayEntry ctx entry s = some (e, t)) :
    ∃ b u, overwrites ctx entry s = some (b, u) ∧ t.nextJournalEntry = s.nextJournalEntry + b.toNat := by
  have quiet : ∀ i inner, Run.Within Unjournaled inner → Run.Within Unjournaled (fileReplayEntry i inner) := by
    intro i inner within
    refine Run.Within.bind (inodeToFile_unjournaled _ _ _) (fun F => ?_)
    refine Run.Within.bind (valid_unjournaled F) (fun isValid => ?_)
    split
    · exact within
    · exact Run.Within.pure _
  cases entry with
  | mkobject parentNode newNode mod name => exact ⟨false, s, rfl, mkobjectInner_unjournaled _ _ _ _ _ _ _ _ _ ran⟩
  | unlink parentNode newNode offset name => exact ⟨false, s, rfl, unlinkinner_unjournaled _ _ _ _ _ _ ran⟩
  | renamemove parentNode newNode newParentNode source dest => exact renamemoveinner_next ran _ _ _
  | write newNode offset data =>
    refine ⟨false, s, rfl, quiet newNode _ ?_ _ _ _ ran⟩
    exact Run.Within.bind (fileWriteInner_unjournaled _ _ _ _) (fun _ => Run.Within.pure _)
  | truncate newNode offset => exact ⟨false, s, rfl, quiet newNode _ (fileTruncateInner_unjournaled _ _ _) _ _ _ ran⟩
  | chmod newNode mod => exact ⟨false, s, rfl, quiet newNode _ (chmodInner_unjournaled _ _ _) _ _ _ ran⟩
  | chown newNode uid gid => exact ⟨false, s, rfl, quiet newNode _ (chownInner_unjournaled _ _ _ _) _ _ _ ran⟩

end Replay

end CloudCryptFS.Filesystem
