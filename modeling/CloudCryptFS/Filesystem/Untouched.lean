import CloudCryptFS.Filesystem.Hierarchy

/-! What calls on names leave of the files: whatever has been entered, removed, moved or
looked up, a file that is no directory and is still there has the data it had. Only the
text of a directory is written, and only that of the directory of a new or an old name. -/

namespace CloudCryptFS.Filesystem
open Util Script Script.Lexer Script.Json

section Looking

/-- No slot is different. -/
def Looking (s t : Fs) : Prop := t.slots = s.slots

instance : IsPreorder Fs Looking where
  refl _ := rfl
  trans _ _ _ first second := second.trans first

theorem update_looking {f : Fs → Fs} (same : ∀ s, (f s).slots = s.slots) : Run.Within Looking (update f) := by
  intro s a t ran
  cases ran
  exact same s

theorem setPath_looking (path : Path) (i : Option BucketIndex) : Run.Within Looking (update (fun s => s.setPath path i)) :=
  update_looking (fun _ => rfl)

theorem setFile_looking (i : BucketIndex) (file : Option FileObject) : Run.Within Looking (update (fun s => s.setFile i file)) :=
  update_looking (fun _ => rfl)

theorem state_looking : Run.Within Looking state := by
  intro s a t ran
  cases ran
  exact refl_of Looking s

theorem INode_looking (F : FilePtr) : Run.Within Looking (INode F) := by
  intro s n t ran
  cases F with
  | none =>
    cases ran
    exact refl_of Looking s
  | some i =>
    obtain ⟨_, rfl⟩ := INode_eq_some.mp ran
    exact refl_of Looking s

theorem valid_looking (F : FilePtr) : Run.Within Looking (valid F) := by
  intro s a t ran
  cases ran
  exact refl_of Looking s

theorem isSpecial_looking (F : FilePtr) : Run.Within Looking (isSpecial F) := by
  intro s a t ran
  cases ran
  exact refl_of Looking s

theorem getPathPermissions_looking (i : BucketIndex) : Run.Within Looking (getPathPermissions i) := by
  intro s a t ran
  cases ran
  exact refl_of Looking s

theorem fetchIndex_looking : Run.Within Looking fetchIndex := by
  intro s i t ran
  obtain ⟨result, _, same⟩ := Option.map_eq_some_iff.mp ran
  cases same
  exact refl_of Looking s

theorem postIndex_looking (i : BucketIndex) : Run.Within Looking (postIndex i) := by
  intro s a t ran
  obtain ⟨accounting, _, same⟩ := Option.map_eq_some_iff.mp ran
  cases same
  exact refl_of Looking s

theorem addChange_looking (je : Option Wrapper) : Run.Within Looking (addChange je) := update_looking (fun _ => rfl)

theorem addEntry_looking (entry : JournalEntry) : Run.Within Looking (addEntry entry) := by
  intro s a t ran
  cases ran
  exact refl_of Looking s

theorem closeEntry_looking (id : Nat) : Run.Within Looking (closeEntry id) := update_looking (fun _ => rfl)

theorem fileOps_looking (je : Option Wrapper) : (fileOps je).Within Looking where
  read c offset size := by
    intro s a t ran
    obtain ⟨_, _, same⟩ := Option.map_eq_some_iff.mp ran
    cases same
    exact refl_of Looking s
  write c offset input := by
    intro s a t ran
    obtain ⟨_, _, same⟩ := Option.map_eq_some_iff.mp ran
    cases same
    exact refl_of Looking s
  incRefCnt _ _ := Run.Within.pure _
  decRefCnt _ := Run.Within.pure _
  getRefCnt _ := Run.Within.pure _
  rest _ := Run.Within.pure _
  addChange hashes := by
    change Run.Within Looking (if hashes = [] then pure () else addChange je)
    split
    · exact Run.Within.pure _
    · exact addChange_looking je

theorem inodeToFile_looking (i : BucketIndex) (filename : Option Path) (pPerm : List BucketIndex) :
    Run.Within Looking (inodeToFile i filename pPerm) := by
  apply Run.Within.bind state_looking
  intro s
  split
  · exact Run.Within.pure _
  · apply Run.Within.bind (R := Looking) (Run.Within.assert _)
    intro _
    split
    · exact Run.Within.bind (update_looking (fun _ => rfl)) (fun _ => Run.Within.pure _)
    · exact Run.Within.pure _

theorem getCached_looking (path : Path) : Run.Within Looking (getCached path) := by
  apply Run.Within.bind state_looking
  intro s
  split
  · exact Run.Within.pure _
  · apply Run.Within.bind (inodeToFile_looking _ _ _)
    intro F
    split
    · exact Run.Within.pure _
    · exact Run.Within.bind (update_looking (fun _ => rfl)) (fun _ => Run.Within.pure _)

theorem accessLoop_looking (ctx : Context) (checkStickyOwner : Bool) (pathPermissions : List BucketIndex) (stickySet owndir : Bool) :
    Run.Within Looking (accessLoop ctx checkStickyOwner pathPermissions stickySet owndir) := by
  induction pathPermissions generalizing stickySet owndir with
  | nil => exact Run.Within.pure _
  | cons p pathPermissions ih =>
    apply Run.Within.bind (inodeToFile_looking _ _ _)
    intro F
    apply Run.Within.bind (INode_looking F)
    intro node
    dsimp only
    split
    · exact ih _ _
    · exact Run.Within.pure _

theorem checkFolder_looking (pathPermissions : List BucketIndex) (ctx : Context) (dda : Mode) :
    Run.Within Looking (checkFolder pathPermissions ctx dda) := by
  unfold checkFolder
  split
  · split
    · apply Run.Within.bind (inodeToFile_looking _ _ _)
      intro F
      exact Run.Within.bind (INode_looking F) (fun _ => Run.Within.pure _)
    · exact Run.Within.pure _
  · exact Run.Within.pure _

theorem validate_access_looking (F : FilePtr) (ctx : Context) (da dda : Mode) (checkStickyOwner : Bool) :
    Run.Within Looking (validate_access F ctx da dda checkStickyOwner) := by
  apply Run.Within.bind (valid_looking F)
  intro isValid
  split
  · split
    · exact Run.Within.pure _
    · apply Run.Within.bind (getPathPermissions_looking _)
      intro pathPermissions
      apply Run.Within.bind (accessLoop_looking _ _ _ _ _)
      intro looped
      split
      · exact Run.Within.pure _
      · apply Run.Within.bind (checkFolder_looking _ _ _)
        intro folder
        split
        · exact Run.Within.pure _
        · apply Run.Within.bind (INode_looking F)
          intro n
          split <;> exact Run.Within.pure _
  · exact Run.Within.pure _

variable [Floats]

theorem readDirectory_looking (i : BucketIndex) : Run.Within Looking (readDirectory i) := by
  apply Run.Within.bind (valid_looking _)
  intro isValid
  split
  · apply Run.Within.bind (INode_looking _)
    intro n
    split
    · apply Run.Within.bind (isSpecial_looking _)
      intro special
      split
      · exact Run.Within.pure _
      · exact readDirectoryContent_within (fileOps_looking none).read n.data
    · exact Run.Within.pure _
  · exact Run.Within.pure _

theorem getIndex_looking (directory : JSON Floats.F) (name : Name) : Run.Within Looking (getIndex directory name) := by
  unfold getIndex
  split
  · exact Run.Within.pure _
  · exact Run.Within.abort

theorem hasNode_looking (i : BucketIndex) (name : Name) : Run.Within Looking (hasNode i name) := by
  apply Run.Within.bind (valid_looking _)
  intro isValid
  split
  · apply Run.Within.bind (readDirectory_looking i)
    intro directory
    split
    · exact Run.Within.pure _
    · split
      · exact Run.Within.bind (getIndex_looking _ _) (fun _ => Run.Within.pure _)
      · exact Run.Within.pure _
  · exact Run.Within.pure _

theorem get_looking (path : Path) : Run.Within Looking (Filesystem.get path) := by
  induction path with
  | nil =>
    apply Run.Within.bind (getCached_looking [])
    intro F
    split <;> exact Run.Within.pure _
  | cons childname parentname ih =>
    apply Run.Within.bind (getCached_looking _)
    intro F
    split
    · exact Run.Within.pure _
    · split
      · exact Run.Within.pure _
      · apply Run.Within.bind ih
        intro parent
        split
        · exact Run.Within.pure _
        · apply Run.Within.bind (INode_looking _)
          intro n
          split
          · exact Run.Within.pure _
          · apply Run.Within.bind (hasNode_looking _ _)
            intro found
            split
            · exact Run.Within.pure _
            · apply Run.Within.bind (R := Looking) (Run.Within.assert _)
              intro _
              apply Run.Within.bind (setPath_looking _ _)
              intro _
              apply Run.Within.bind (getPathPermissions_looking _)
              intro pPerm
              exact inodeToFile_looking _ _ _

theorem isFullDir_looking (F : FilePtr) : Run.Within Looking (isFullDir F) := by
  cases F with
  | none => exact Run.Within.pure _
  | some i =>
    apply Run.Within.bind (valid_looking _)
    intro isValid
    split
    · apply Run.Within.bind (INode_looking _)
      intro n
      split
      · exact Run.Within.pure _
      · apply Run.Within.bind (readDirectory_looking i)
        intro directory
        split <;> exact Run.Within.pure _
    · exact Run.Within.pure _

end Looking

section Untouched
variable {s t u : Fs} {i j : BucketIndex}

/-- What is at the index was there, of the same type, and with the same data if it is no directory. -/
def UntouchedAt (j : BucketIndex) (s t : Fs) : Prop :=
  ∀ n', t.nodes j = some n' → ∃ n, s.nodes j = some n ∧ n.type = n'.type ∧ (n.type ≠ .DIR → n.data = n'.data)

def Untouched (s t : Fs) : Prop := ∀ j, UntouchedAt j s t

theorem UntouchedAt.of_nodes (same : t.nodes j = s.nodes j) : UntouchedAt j s t :=
  fun n' here => ⟨n', same ▸ here, rfl, fun _ => rfl⟩

theorem Untouched.of_nodes (same : t.nodes = s.nodes) : Untouched s t := fun j => UntouchedAt.of_nodes (congrFun same j)

theorem UntouchedAt.trans (first : UntouchedAt j s t) (second : UntouchedAt j t u) : UntouchedAt j s u := by
  intro n'' here
  obtain ⟨n', there, type', data'⟩ := second n'' here
  obtain ⟨n, before, type, data⟩ := first n' there
  exact ⟨n, before, type.trans type', fun leaf => (data leaf).trans (data' (type ▸ leaf))⟩

instance : IsPreorder Fs Untouched where
  refl _ := Untouched.of_nodes rfl
  trans _ _ _ first second := fun j => (first j).trans (second j)

theorem Looking.untouched (looking : Looking s t) : Untouched s t := Untouched.of_nodes (Fs.nodes_congr looking)

theorem untouched_of_looking {α : Type} {run : FsM α} (within : Run.Within Looking run) : Run.Within Untouched run :=
  within.mono (fun _ _ => Looking.untouched)

/-- Another inode of the same type and with the same data. -/
theorem setSlot_node_untouched {n n' : Inode} (slot : s.slots i = .node n) (type : n.type = n'.type)
    (data : n.type ≠ .DIR → n.data = n'.data) : Untouched s (s.setSlot i (.node n')) := by
  intro j m here
  rw [Fs.nodes_setSlot_node] at here
  by_cases same : j = i
  · rw [same, Function.update_self] at here
    cases here
    exact ⟨n.seen, same ▸ Fs.nodes_of_slot slot, type, data⟩
  · rw [Function.update_of_ne same] at here
    exact ⟨m, here, rfl, fun _ => rfl⟩

theorem setSlot_untouched {slot : Slot} (empty : ∀ n, slot ≠ .node n) (s : Fs) (i : BucketIndex) : Untouched s (s.setSlot i slot) := by
  intro j m here
  by_cases same : j = i
  · have gone : (s.setSlot i slot).nodes j = none := by
      apply Fs.nodes_eq_none
      intro n
      rw [same, setSlot_self]
      exact empty n
    rw [gone] at here
    cases here
  · obtain ⟨m', there, rfl⟩ := Fs.nodes_eq_some.mp here
    rw [setSlot_of_ne s same] at there
    exact ⟨m'.seen, Fs.nodes_of_slot there, rfl, fun _ => rfl⟩

theorem update_untouched {slot : Slot} (empty : ∀ n, slot ≠ .node n) (i : BucketIndex) :
    Run.Within Untouched (update (fun s => s.setSlot i slot)) := by
  intro s a t ran
  cases ran
  exact setSlot_untouched empty s i

theorem modifyINode_untouched {f : Inode → Inode} (type : ∀ n, (f n).type = n.type) (data : ∀ n, (f n).data = n.data) (i : BucketIndex) :
    Run.Within Untouched (modifyINode i f) := by
  intro s a t ran
  obtain ⟨n, slot, rfl⟩ := modifyINode_eq_some.mp ran
  exact setSlot_node_untouched slot (type n).symm (fun _ => (data n).symm)

theorem createCtds_untouched (i : BucketIndex) (n : Nat) : Run.Within Untouched (createCtds i n) := by
  induction n with
  | zero => exact Run.Within.pure _
  | succ n ih =>
    apply Run.Within.bind (untouched_of_looking fetchIndex_looking)
    intro ctd
    apply Run.Within.bind (update_untouched (by simp) _)
    intro _
    have chained := modifyINode_untouched (f := fun n => { n with nextIDs := n.nextIDs ++ [ctd] }) (fun _ => rfl) (fun _ => rfl) i
    exact Run.Within.bind chained (fun _ => ih)

theorem rest_untouched (i : BucketIndex) : Run.Within Untouched (rest i) := by
  apply Run.Within.bind (untouched_of_looking (valid_looking _))
  intro isValid
  split
  · apply Run.Within.bind (untouched_of_looking (isSpecial_looking _))
    intro special
    split
    · exact Run.Within.pure _
    · exact Run.Within.bind (untouched_of_looking (INode_looking _)) (fun n => createCtds_untouched i _)
  · exact Run.Within.pure _

theorem freeIndex_untouched (i : BucketIndex) : Run.Within Untouched (freeIndex i) :=
  Run.Within.bind (update_untouched (by simp) _) (fun _ => untouched_of_looking (postIndex_looking i))

theorem deleteFile_untouched (i : BucketIndex) : Run.Within Untouched (deleteFile i) := by
  apply Run.Within.bind (untouched_of_looking (INode_looking _))
  intro n
  apply Run.Within.bind (untouched_of_looking (setFile_looking i none))
  intro _
  exact Run.Within.forM freeIndex_untouched

theorem withEntry_untouched {α : Type} {R : Fs → Fs → Prop} [IsPreorder Fs R] (weaker : ∀ s t, Looking s t → R s t)
    {entry : JournalEntry} {body : Option Wrapper → FsM α} (within : ∀ je, Run.Within R (body je)) : Run.Within R (withEntry entry body) := by
  apply Run.Within.bind ((addEntry_looking entry).mono weaker)
  intro je
  apply Run.Within.bind (within _)
  intro result
  exact Run.Within.bind ((closeEntry_looking _).mono weaker) (fun _ => Run.Within.pure _)

/-- An inode is new, and all others are left alone. -/
structure AddsAt (i : BucketIndex) (n : Inode) (s t : Fs) : Prop where
  absent : s.nodes i = none
  present : t.nodes i = some n
  others : ∀ j, j ≠ i → UntouchedAt j s t

theorem AddsAt.congr {n : Inode} {s₀ t₀ : Fs} (adds : AddsAt i n s t) (before : s.nodes = s₀.nodes) (after : t₀.nodes = t.nodes) :
    AddsAt i n s₀ t₀ where
  absent := before ▸ adds.absent
  present := after ▸ adds.present
  others j other := by
    have untouched := adds.others j other
    unfold UntouchedAt at untouched ⊢
    rw [after, ← before]
    exact untouched

/-- The new inode is written once more. -/
theorem AddsAt.update {n n' : Inode} (adds : AddsAt i n s t) (nodes : u.nodes = Function.update t.nodes i (some n')) : AddsAt i n' s u where
  absent := adds.absent
  present := by
    rw [nodes, Function.update_self]
  others j other := by
    apply (adds.others j other).trans
    apply UntouchedAt.of_nodes
    rw [nodes, Function.update_of_ne other]

end Untouched

section Folders
variable {s t : Fs} {d i : BucketIndex} {name : Name} {ctx : Context} {je : Option Wrapper}

def Folder (d : BucketIndex) (s : Fs) : Prop := ∀ n, s.nodes d = some n → n.type = .DIR

/-- Files are left alone as long as what is written at this index is a directory. -/
def Under (d : BucketIndex) (s t : Fs) : Prop := Folder d s → Untouched s t

theorem Folder.of_mem (dir : d ∈ dirs s.nodes) : Folder d s := by
  intro n here
  obtain ⟨n', there, isDir⟩ := dir
  rw [here] at there
  cases there
  exact isDir

theorem not_mem_dirs {n : Inode} (here : s.nodes i = some n) (leaf : n.type ≠ .DIR) : i ∉ dirs s.nodes := by
  intro member
  obtain ⟨m, there, dir⟩ := member
  cases here.symm.trans there
  exact leaf dir

theorem Untouched.folder (untouched : Untouched s t) (folder : Folder d s) : Folder d t := by
  intro n' here
  obtain ⟨n, before, type, _⟩ := untouched d n' here
  exact type ▸ folder n before

instance (d : BucketIndex) : IsPreorder Fs (Under d) where
  refl s _ := refl_of Untouched s
  trans _ _ _ first second folder := trans_of Untouched (first folder) (second ((first folder).folder folder))

theorem under_of_untouched {α : Type} {run : FsM α} (within : Run.Within Untouched run) : Run.Within (Under d) run :=
  within.mono (fun _ _ untouched _ => untouched)

theorem under_of_looking {α : Type} {run : FsM α} (within : Run.Within Looking run) : Run.Within (Under d) run :=
  under_of_untouched (untouched_of_looking within)

theorem modifyINode_under (data : FileData Chunk) : Run.Within (Under d) (modifyINode d (fun n => { n with data := data })) := by
  intro s a t ran folder
  obtain ⟨n, slot, rfl⟩ := modifyINode_eq_some.mp ran
  exact setSlot_node_untouched slot rfl (fun leaf => absurd (folder _ (Fs.nodes_of_slot slot)) leaf)

variable [Floats]

theorem writeDirectory_under (directory : JSON Floats.F) : Run.Within (Under d) (writeDirectory d directory je) := by
  apply Run.Within.bind (under_of_looking (isSpecial_looking _))
  intro special
  apply Run.Within.bind (R := Under d) (Run.Within.assert _)
  intro _
  apply Run.Within.bind (under_of_looking (INode_looking _))
  intro n
  apply Run.Within.bind (under_of_looking (swapContent_within (fileOps_looking je) n.data (directoryText directory)))
  intro data
  exact Run.Within.bind (modifyINode_under data) (fun _ => under_of_untouched (rest_untouched d))

theorem addNode_under {node : BucketIndex} : Run.Within (Under d) (addNode (some d) name node ctx je) := by
  apply Run.Within.bind (under_of_looking (valid_looking _))
  intro isValid
  split
  · apply Run.Within.bind (under_of_looking (validate_access_looking _ _ _ _ _))
    intro allowed
    split
    · apply Run.Within.bind (under_of_looking (readDirectory_looking d))
      intro result
      split
      · exact Run.Within.pure _
      · split
        · exact Run.Within.pure _
        · apply Run.Within.bind (R := Under d) (Run.Within.assert _)
          intro _
          exact Run.Within.bind (writeDirectory_under _) (fun _ => Run.Within.pure _)
    · exact Run.Within.pure _
  · exact Run.Within.pure _

/-- Only a directory lists a name. -/
theorem readDirectory_folder {directory : JSON Floats.F} (read : readDirectory i s = some (some directory, t))
    (listed : directory.hasProperty name = true) : Folder i s := by
  unfold readDirectory at read
  obtain ⟨isValid, _, found, read⟩ := Run.bind_eq_some.mp read
  obtain ⟨_, rfl⟩ := valid_eq_some.mp found
  split at read
  · obtain ⟨n, _, found, read⟩ := Run.bind_eq_some.mp read
    obtain ⟨slot, rfl⟩ := INode_eq_some.mp found
    split at read
    · rename_i isDir
      exact Folder.of_mem ⟨n.seen, Fs.nodes_of_slot slot, isDir⟩
    · cases read
      cases listed
  · cases read

theorem removeNode_untouched (F : FilePtr) : Run.Within Untouched (removeNode F name ctx je) := by
  cases F with
  | none => exact Run.Within.pure _
  | some i =>
    apply Run.Within.bind (untouched_of_looking (valid_looking _))
    intro isValid
    split
    · apply Run.Within.bind (untouched_of_looking (validate_access_looking _ _ _ _ _))
      intro allowed
      split
      · intro s e u ran
        obtain ⟨result, t, read, ran⟩ := Run.bind_eq_some.mp ran
        have looked := (readDirectory_looking i s _ t read).untouched
        cases result with
        | none =>
          cases ran
          exact looked
        | some directory =>
          dsimp only at ran
          split at ran
          · rename_i listed
            obtain ⟨_, v, written, ran⟩ := Run.bind_eq_some.mp ran
            cases ran
            have folder := looked.folder (readDirectory_folder read listed)
            exact trans_of Untouched looked (writeDirectory_under _ t _ _ written folder)
          · cases ran
            exact looked
      · exact Run.Within.pure _
    · exact Run.Within.pure _

end Folders

section Calls
variable [Floats] {s t : Fs} {ctx : Context} {e : EE}

theorem dropLink_untouched (f : FilePtr) (n : Inode) : Run.Within Untouched (dropLink f n) := by
  unfold dropLink
  split
  · apply Run.Within.bind (untouched_of_looking (isFullDir_looking _))
    intro full
    split <;> exact Run.Within.pure _
  · exact Run.Within.pure _
  · exact Run.Within.pure _
  · have dropped := modifyINode_untouched (f := fun n => { n with nlinks := n.nlinks - 1 }) (fun _ => rfl) (fun _ => rfl)
    exact Run.Within.bind (dropped _) (fun _ => Run.Within.pure _)

theorem unlinkinner_untouched (filename : Path) (ctx : Context) (je : Option Wrapper) : Run.Within Untouched (unlinkinner filename ctx je) := by
  apply Run.Within.bind (untouched_of_looking (get_looking _))
  intro parent
  apply Run.Within.bind (untouched_of_looking (get_looking _))
  intro f
  apply Run.Within.bind (untouched_of_looking (INode_looking f))
  intro n
  have checked : Run.Within Untouched (checkUnlink je parent f n) := by
    unfold checkUnlink
    split
    · exact Run.Within.assert _
    · exact Run.Within.pure _
  apply Run.Within.bind checked
  intro _
  apply Run.Within.bind (dropLink_untouched f n)
  intro dropped
  split
  · exact Run.Within.pure _
  · apply Run.Within.bind (removeNode_untouched parent)
    intro ret
    have cached := untouched_of_looking (setPath_looking filename none)
    split
    · split
      · exact Run.Within.bind (deleteFile_untouched _) (fun _ => Run.Within.bind cached (fun _ => Run.Within.pure _))
      · exact Run.Within.bind cached (fun _ => Run.Within.pure _)
    · exact Run.Within.pure _

theorem unlink_untouched (filename : Path) (ctx : Context) : Run.Within Untouched (unlink filename ctx) := by
  apply Run.Within.bind (untouched_of_looking (get_looking _))
  intro parent
  apply Run.Within.bind (untouched_of_looking (get_looking _))
  intro f
  split
  · exact Run.Within.pure _
  · apply Run.Within.bind (untouched_of_looking (validate_access_looking _ _ _ _ _))
    intro allowed
    split
    · apply Run.Within.bind (untouched_of_looking (isSpecial_looking _))
      intro special
      split
      · exact Run.Within.pure _
      · apply Run.Within.bind (untouched_of_looking (INode_looking _))
        intro n
        exact withEntry_untouched (fun _ _ => Looking.untouched) (unlinkinner_untouched filename ctx)
    · exact Run.Within.pure _

theorem moveIn_under {d i : BucketIndex} {dest : Path} {je : Option Wrapper} :
    Run.Within (Under d) (moveIn (some d) dest i ctx je) := by
  apply Run.Within.bind addNode_under
  intro error
  split
  · exact Run.Within.bind (under_of_untouched (unlink_untouched dest ctx)) (fun _ => addNode_under)
  · exact Run.Within.pure _

theorem renamemoveinner_untouched {c : Name} {q dest : Path} {d d' i : BucketIndex} {je : Option Wrapper} (names : Names .exact s)
    (ready : Ready .exact s c q dest d d' i ctx) (ran : renamemoveinner (c :: q) dest ctx je s = some (e, t)) : Untouched s t := by
  have folder : Folder d' s := Folder.of_mem (ready.dir trivial)
  unfold renamemoveinner at ran
  obtain ⟨srcparent, s₁, first, ran⟩ := Run.bind_eq_some.mp ran
  obtain ⟨_, names₁, looked₁, _⟩ := names.looked first
  obtain ⟨dstparent, s₂, second, ran⟩ := Run.bind_eq_some.mp ran
  obtain ⟨found, _, looked₂, _⟩ := names₁.looked second
  have here : dstparent = some d' := by
    rw [found, looked₁.walk]
    exact ready.above'
  subst here
  have looked : Untouched s s₂ := Untouched.of_nodes (looked₂.nodes.trans looked₁.nodes)
  apply trans_of Untouched looked
  have under : Under d' s₂ t := by
    refine Run.Within.bind (under_of_looking (get_looking (c :: q))) (fun srcfile => ?_) s₂ e t ran
    apply Run.Within.bind (under_of_looking (get_looking dest))
    intro _
    have checked : Run.Within (Under d') (checkRename je srcparent srcfile (some d')) := by
      unfold checkRename
      split
      · exact Run.Within.assert _
      · exact Run.Within.pure _
    apply Run.Within.bind checked
    intro _
    apply Run.Within.bind moveIn_under
    intro error
    split
    · exact Run.Within.pure _
    · apply Run.Within.bind (under_of_untouched (removeNode_untouched srcparent))
      intro error
      split
      · exact Run.Within.pure _
      · have cached : Run.Within (Under d') (update (fun s => (s.setPath (c :: q) none).setPath dest none)) :=
          under_of_looking (update_looking (fun _ => rfl))
        exact Run.Within.bind cached (fun _ => Run.Within.pure _)
  exact under (looked.folder folder)

theorem renamemove_untouched {source dest : Path} (names : Names .exact s) (renames : Renames .exact s source dest ctx)
    (ran : renamemove source dest ctx s = some (e, t)) : Untouched s t := by
  rcases renamemove_ready names renames ran with ⟨_, _, nodes⟩ | ⟨c, q, d, d', i, je, u, v, _, names', ready, nodes, inner, same⟩
  · exact Untouched.of_nodes nodes
  · have moved := renamemoveinner_untouched names' ready inner
    exact trans_of Untouched (Untouched.of_nodes nodes) (trans_of Untouched moved (Untouched.of_nodes same.nodes))

theorem hardlink_untouched {linktarget linkname : Path} (names : Names .exact s) (links : Links .exact s linktarget linkname)
    (ran : hardlink linktarget linkname ctx s = some (e, t)) : Untouched s t := by
  unfold hardlink at ran
  obtain ⟨target, s₁, found, ran⟩ := Run.bind_eq_some.mp ran
  obtain ⟨rfl, names₁, looked₁, _⟩ := names.looked found
  cases there : s.walk linktarget with
  | none =>
    rw [there] at ran
    cases ran
    exact Untouched.of_nodes looked₁.nodes
  | some i =>
    rw [there] at ran
    obtain ⟨parent, s₂, found, ran⟩ := Run.bind_eq_some.mp ran
    obtain ⟨rfl, _, looked₂, _⟩ := names₁.looked found
    have looked : Untouched s s₂ := Untouched.of_nodes (looked₂.nodes.trans looked₁.nodes)
    apply trans_of Untouched looked
    rw [looked₁.walk] at ran
    cases above : s.walk (getParentPath linkname) with
    | none =>
      rw [above] at ran
      cases ran
      exact refl_of Untouched _
    | some d =>
      rw [above] at ran
      obtain ⟨_, _, dir, _⟩ := links i d there above
      have under : Under d s₂ t := by
        refine Run.Within.bind addNode_under (fun error => ?_) s₂ e t ran
        split
        · exact Run.Within.pure _
        · have linked := modifyINode_untouched (f := fun n => { n with nlinks := n.nlinks + 1 }) (fun _ => rfl) (fun _ => rfl) i
          exact Run.Within.bind (under_of_untouched linked) (fun _ => Run.Within.pure _)
      exact under (looked.folder (Folder.of_mem (dir trivial)))

theorem mkobject_adds {filename : Path} {type mod : Mode} (names : Names .exact s) (creates : Creates .exact s filename)
    (ran : mkobject filename ctx type mod s = some (e, t)) :
    (e ≠ .ok ∧ Untouched s t) ∨ (e = .ok ∧ ∃ i, AddsAt i (Inode.fresh (mod ||| type) ctx) s t) := by
  unfold mkobject at ran
  obtain ⟨_, _, asserted, ran⟩ := Run.bind_eq_some.mp ran
  obtain ⟨_, rfl⟩ := Run.assert_eq_some.mp asserted
  cases filename with
  | nil =>
    cases ran
    exact Or.inl ⟨by decide, refl_of Untouched _⟩
  | cons c q =>
    obtain ⟨F, s₁, found, ran⟩ := Run.bind_eq_some.mp ran
    obtain ⟨rfl, names₁, looked, opened⟩ := names.looked found
    cases above : s.walk q with
    | none =>
      rw [above] at ran
      cases ran
      exact Or.inl ⟨by decide, Untouched.of_nodes looked.nodes⟩
    | some d =>
      rw [above] at ran
      obtain ⟨ino, s₂, fetched, ran⟩ := Run.bind_eq_some.mp ran
      obtain ⟨b, fetched'⟩ := fetchIndex_fetched fetched
      rw [looked.accounting] at fetched'
      obtain ⟨_, dir⟩ := creates c q d ino b rfl above fetched'
      obtain ⟨_, _, held, beside, slots⟩ := fetchIndex_spec names₁.alloc fetched
      obtain ⟨id, s₃, s₄, same, body, same'⟩ := withEntry_spec ran
      have nodes : s₃.nodes = s.nodes := by
        rw [same.nodes, Fs.nodes_congr slots, looked.nodes]
      have absent : s.nodes ino = none := by
        rw [← nodes, same.nodes]
        exact Fs.nodes_eq_none (fun n here => by rw [held.empty] at here; cases here)
      have opened₃ : (s₃.inodeFileCache d).isSome := by
        rw [same.files, beside.files]
        exact opened d above
      obtain ⟨e', s₅, inner, body⟩ := Run.bind_eq_some.mp body
      obtain ⟨u, added, rfl⟩ := mkobjectInner_eq_some opened₃ inner
      have untouched : Untouched s₃ u := addNode_under s₃ _ _ added (Folder.of_mem (nodes ▸ dir trivial))
      split at body
      · rename_i failed
        obtain ⟨_, v, posted, body⟩ := Run.bind_eq_some.mp body
        cases body
        have all := trans_of Untouched untouched (postIndex_looking _ _ _ _ posted).untouched
        refine Or.inl ⟨failed, ?_⟩
        exact trans_of Untouched (Untouched.of_nodes nodes) (trans_of Untouched all (Untouched.of_nodes same'.nodes))
      · rename_i done
        cases body
        rw [if_pos (not_not.mp done)] at same'
        have placed : AddsAt ino (Inode.fresh (mod ||| type) ctx) s₃ (u.setSlot ino (.node (Inode.fresh (mod ||| type) ctx))) := by
          constructor
          · rw [nodes]
            exact absent
          · rw [Fs.nodes_setSlot_node, Function.update_self]
            rfl
          · intro j other
            apply (untouched j).trans
            apply UntouchedAt.of_nodes
            rw [Fs.nodes_setSlot_node, Function.update_of_ne other]
        exact Or.inr ⟨not_not.mp done, ino, placed.congr nodes same'.nodes⟩

end Calls

end CloudCryptFS.Filesystem
