import CloudCryptFS.Filesystem.Runs
import CloudCryptFS.Util.Schedule

/-! The handles of open files. A handle is a slot of a table that holds a file object,
which stays there when the file is deleted; a file that is made later at the same index
is another object. -/

namespace CloudCryptFS.Filesystem
open Util Script Script.Lexer

/-- A file object: its inode and the number of objects of that inode deleted before it. -/
structure FileRef where
  node : BucketIndex
  life : Nat
  deriving DecidableEq

structure OpenFs where
  fs : Fs
  lives : BucketIndex → Nat
  openHandles : Nat → Option FileRef
  refs : FileRef → Int

abbrev OpenM := Run OpenFs

def maxOpenFiles : Nat := 128

namespace OpenFs

/-- `valid`: the object has not been deleted. -/
def valid (s : OpenFs) (F : FileRef) : Bool := F.life = s.lives F.node && (s.fs.inodeFileCache F.node).isSome

def mounted (fs : Fs) : OpenFs := ⟨fs, fun _ => 0, fun _ => none, fun _ => 0⟩

end OpenFs

section Callbacks
variable [Floats]

/-- A call on the file system; objects that leave the cache have been deleted. -/
def onFs {α : Type} (body : FsM α) : OpenM α := fun s =>
  (body s.fs).map (fun result => (result.1, { s with
    fs := result.2
    lives := fun i => if (s.fs.inodeFileCache i).isSome ∧ result.2.inodeFileCache i = none then s.lives i + 1 else s.lives i }))

def object (F : FilePtr) : OpenM (Option FileRef) := fun s => some (F.map (fun i => ⟨i, s.lives i⟩), s)

/-- `fs::get` with a handle. -/
def getHandle (path : Path) (H : Nat) : OpenM (Option FileRef) := do
  let s ← MonadState.get
  match if 0 < H ∧ H < maxOpenFiles then s.openHandles H else none with
  | some handle => pure (some handle)
  | none => do
    let F ← onFs (get path)
    object F

/-- `file::open`. -/
def fileOpen (F : FileRef) : OpenM Unit :=
  modify (fun s => { s with refs := Function.update s.refs F (s.refs F + 1) })

/-- `file::close`, which also puts the file to rest. -/
def fileClose (F : FileRef) : OpenM Unit := do
  modify (fun s => { s with refs := Function.update s.refs F (s.refs F - 1) })
  onFs (rest F.node)

/-- `fs::open`: the first free slot, or zero. -/
def fsOpen (F : FileRef) : OpenM Nat := fun s =>
  match (List.range' 1 (maxOpenFiles - 1)).find? (fun a => s.openHandles a = none) with
  | some a => some (a, { s with openHandles := Function.update s.openHandles a (some F) })
  | none => some (0, s)

/-- `fs::close`: the slot is cleared if it holds the file. -/
def fsClose (F : FileRef) (H : Nat) : OpenM Unit :=
  modify (fun s =>
    if 0 < H ∧ H < maxOpenFiles ∧ s.openHandles H = some F then
      { s with openHandles := Function.update s.openHandles H none }
    else s)

/-- `flagsToAccess`, of `O_RDWR`, `O_WRONLY` and `O_TRUNC`. -/
def flagsToAccess (flags : Mode) : Mode :=
  if flags &&& 2 = 2 then 6 else if flags &&& 1 = 1 then 2 else if flags &&& 512 = 512 then 6 else 4

def open_callback (path : Path) (flags : Mode) (ctx : Context) : OpenM (Except EE Nat) := do
  let F ← onFs (get path)
  if ← onFs (validate_access F ctx (flagsToAccess flags)) then
    match ← object F with
    | none => pure (.error .entity_not_found)
    | some F => do
      fileOpen F
      let fh ← fsOpen F
      pure (.ok fh)
  else pure (.error .access_denied)

def release_callback (path : Path) (fh : Nat) : OpenM (Except EE Unit) := do
  match ← getHandle path fh with
  | none => pure (.error .entity_not_found)
  | some F => do
    let s ← MonadState.get
    if s.valid F then
      fileClose F
      fsClose F fh
      pure (.ok ())
    else pure (.error .entity_not_found)

/-- `write_callback`: the number of bytes, or an error. -/
def write_callback (path : Path) (buf : Str) (offset fh : Nat) : OpenM (Except EE Nat) := do
  match ← getHandle path fh with
  | none => pure (.error .entity_not_found)
  | some D => do
    let s ← MonadState.get
    if s.valid D then
      let n ← onFs (INode (some D.node))
      if n.type = .FILE then
        let written ← onFs (write (some D.node) buf offset)
        pure (.ok written)
      else pure (.error .entity_not_found)
    else pure (.error .entity_not_found)

def truncate_callback (path : Path) (newSize : Nat) (ctx : Context) : FsM EE := do
  let F ← get path
  if ← valid F then
    if ← validate_access F ctx Access.W then truncate F newSize
    else pure .access_denied
  else pure .entity_not_found

def chmod_callback (path : Path) (mode : Mode) (ctx : Context) : FsM EE := do
  let F ← get path
  chmod F mode ctx

def chown_callback (path : Path) (uid gid : UInt32) (ctx : Context) : FsM EE := do
  let F ← get path
  chown F uid gid ctx

end Callbacks

/-- The calls on files; each of `release` and `write` comes with a handle. -/
inductive HandleOp where
  | openFile (path : Path) (flags : Mode) (ctx : Context)
  | release (path : Path) (fh : Nat)
  | write (path : Path) (buf : Str) (offset fh : Nat)
  | truncate (path : Path) (newSize : Nat) (ctx : Context)
  | chmod (path : Path) (mode : Mode) (ctx : Context)
  | chown (path : Path) (uid gid : UInt32) (ctx : Context)
  | call (op : Op)

/-- The file system with the handles that have been given out and not been released. -/
structure Opens where
  fs : OpenFs
  pending : List Nat

namespace Opens
variable [Floats]

def mounted (fs : Fs) : Opens := ⟨.mounted fs, []⟩

/-- A handle is released once. -/
def step : HandleOp → Opens → Option Opens
  | .openFile path flags ctx, s => (open_callback path flags ctx s.fs).map (fun result =>
      ⟨result.2, match result.1 with
        | .ok fh => fh :: s.pending
        | .error _ => s.pending⟩)
  | .release path fh, s =>
    if fh ∈ s.pending then (release_callback path fh s.fs).map (fun result => ⟨result.2, s.pending.erase fh⟩) else none
  | .write path buf offset fh, s => (write_callback path buf offset fh s.fs).map (fun result => ⟨result.2, s.pending⟩)
  | .truncate path newSize ctx, s => (onFs (truncate_callback path newSize ctx) s.fs).map (fun result => ⟨result.2, s.pending⟩)
  | .chmod path mode ctx, s => (onFs (chmod_callback path mode ctx) s.fs).map (fun result => ⟨result.2, s.pending⟩)
  | .chown path uid gid ctx, s => (onFs (chown_callback path uid gid ctx) s.fs).map (fun result => ⟨result.2, s.pending⟩)
  | .call op, s => (onFs op.run s.fs).map (fun result => ⟨result.2, s.pending⟩)

abbrev run : List HandleOp → Opens → Option Opens := Schedule.run step

/-- How many slots of the table are taken. -/
def occupied (s : Opens) : Nat := (List.range maxOpenFiles).countP (fun a => (s.fs.openHandles a).isSome)

/-- The slots that are taken are the handles that have not been released, each once. -/
structure Balanced (s : Opens) : Prop where
  count : s.occupied = (s.pending.filter (· ≠ 0)).length
  distinct : (s.pending.filter (· ≠ 0)).Nodup
  own : ∀ a, (s.fs.openHandles a).isSome ↔ a ≠ 0 ∧ a ∈ s.pending

/-- A handle is released before its file is deleted. -/
def Ordered (s : Opens) : HandleOp → Prop
  | .release _ fh => ∀ F, s.fs.openHandles fh = some F → s.fs.valid F
  | _ => True

abbrev OrderedRun : List HandleOp → Opens → Prop := Schedule.OrderedRun step Ordered

/-- The slots beyond the table are never taken. -/
def Inv (s : Opens) : Prop := ∀ a F, s.fs.openHandles a = some F → 0 < a ∧ a < maxOpenFiles

end Opens

section Frames

/-- The table stays as it is. -/
def SameHandles (s t : OpenFs) : Prop := t.openHandles = s.openHandles

instance : IsPreorder OpenFs SameHandles where
  refl _ := rfl
  trans _ _ _ first second := second.trans first

theorem onFs_within {α : Type} (body : FsM α) : Run.Within SameHandles (onFs body) := by
  intro s a t ran
  obtain ⟨result, _, made⟩ := Option.map_eq_some_iff.mp ran
  cases made
  rfl

theorem object_within (F : FilePtr) : Run.Within SameHandles (object F) := by
  intro s a t ran
  cases ran
  rfl

theorem fileClose_within (F : FileRef) : Run.Within SameHandles (fileClose F) :=
  Run.Within.bind (Run.Within.modify (fun _ => rfl)) (fun _ => onFs_within _)

variable [Floats]

theorem getHandle_within (path : Path) (H : Nat) : Run.Within SameHandles (getHandle path H) := by
  apply Run.Within.get_bind
  intro s b t ran
  cases found : if 0 < H ∧ H < maxOpenFiles then s.openHandles H else none with
  | some handle =>
    rw [found] at ran
    cases ran
    rfl
  | none =>
    rw [found] at ran
    exact Run.Within.bind (onFs_within _) (fun F => object_within F) s b t ran

theorem write_callback_within (path : Path) (buf : Str) (offset fh : Nat) :
    Run.Within SameHandles (write_callback path buf offset fh) := by
  apply Run.Within.bind (getHandle_within path fh)
  intro D
  cases D with
  | none => exact Run.Within.pure _
  | some D =>
    apply Run.Within.get_bind
    intro s b t ran
    by_cases valid : s.valid D
    · rw [if_pos valid] at ran
      refine Run.Within.bind (onFs_within _) (fun n => ?_) s b t ran
      by_cases regular : n.type = .FILE
      · rw [if_pos regular]
        exact Run.Within.bind (onFs_within _) (fun _ => Run.Within.pure _)
      · rw [if_neg regular]
        exact Run.Within.pure _
    · rw [if_neg valid] at ran
      cases ran
      rfl

end Frames

section Specs

theorem fsOpen_cases (F : FileRef) (s : OpenFs) :
    (∃ a, 0 < a ∧ a < maxOpenFiles ∧ s.openHandles a = none ∧
      fsOpen F s = some (a, { s with openHandles := Function.update s.openHandles a (some F) })) ∨
    fsOpen F s = some (0, s) := by
  unfold fsOpen
  cases found : (List.range' 1 (maxOpenFiles - 1)).find? (fun a => s.openHandles a = none) with
  | none => exact Or.inr rfl
  | some a =>
    have free : s.openHandles a = none := by simpa using List.find?_some found
    have inTable := List.mem_range'_1.mp (List.mem_of_find?_eq_some found)
    have below : a < maxOpenFiles := by
      unfold maxOpenFiles at inTable ⊢
      omega
    exact Or.inl ⟨a, inTable.1, below, free, rfl⟩

variable [Floats] {s t : OpenFs}

/-- An open that succeeds takes a free slot, or none. -/
theorem open_callback_spec {path : Path} {flags : Mode} {ctx : Context} {result : Except EE Nat}
    (ran : open_callback path flags ctx s = some (result, t)) :
    (∃ a F, result = .ok a ∧ 0 < a ∧ a < maxOpenFiles ∧ s.openHandles a = none ∧
      t.openHandles = Function.update s.openHandles a (some F)) ∨
    t.openHandles = s.openHandles ∧ (result = .ok 0 ∨ ∃ e, result = .error e) := by
  obtain ⟨F, s₁, found, ran⟩ := Run.bind_eq_some.mp ran
  obtain ⟨access, s₂, checked, ran⟩ := Run.bind_eq_some.mp ran
  have same : s₂.openHandles = s.openHandles := (onFs_within _ _ _ _ checked).trans (onFs_within _ _ _ _ found)
  cases access with
  | false =>
    cases ran
    exact Or.inr ⟨same, Or.inr ⟨_, rfl⟩⟩
  | true =>
    obtain ⟨F, s₃, made, ran⟩ := Run.bind_eq_some.mp ran
    have same : s₃.openHandles = s.openHandles := (object_within _ _ _ _ made).trans same
    cases F with
    | none =>
      cases ran
      exact Or.inr ⟨same, Or.inr ⟨_, rfl⟩⟩
    | some F =>
      obtain ⟨_, s₄, opened, ran⟩ := Run.bind_eq_some.mp ran
      cases opened
      obtain ⟨fh, s₅, taken, ran⟩ := Run.bind_eq_some.mp ran
      cases ran
      obtain ⟨a, positive, below, free, slot⟩ | full := fsOpen_cases F _
      · cases taken.symm.trans slot
        have freed : s.openHandles fh = none := (congrFun same fh).symm.trans free
        exact Or.inl ⟨fh, F, rfl, positive, below, freed, by rw [← same]⟩
      · cases taken.symm.trans full
        exact Or.inr ⟨same, Or.inl rfl⟩

theorem getHandle_held {path : Path} {fh : Nat} {F : FileRef} (positive : 0 < fh) (below : fh < maxOpenFiles)
    (slot : s.openHandles fh = some F) : getHandle path fh s = some (some F, s) := by
  rw [getHandle, Run.bind_apply]
  simp only [Run.get_apply, Option.bind_some, if_pos (And.intro positive below), slot, Run.pure_apply]

/-- The handle of a file that is no longer valid is refused. -/
theorem release_callback_invalid {path : Path} {fh : Nat} {F : FileRef} (positive : 0 < fh) (below : fh < maxOpenFiles)
    (slot : s.openHandles fh = some F) (invalid : s.valid F = false) :
    release_callback path fh s = some (.error .entity_not_found, s) := by
  rw [release_callback, Run.bind_of_some (getHandle_held positive below slot)]
  simp [Run.bind_apply, invalid]

/-- Releasing a handle whose file is valid clears its slot; else the slot stays taken. -/
theorem release_callback_spec {path : Path} {fh : Nat} {result : Except EE Unit}
    (ran : release_callback path fh s = some (result, t)) :
    (∃ F, 0 < fh ∧ fh < maxOpenFiles ∧ s.openHandles fh = some F ∧ s.valid F = true ∧
      t.openHandles = Function.update s.openHandles fh none) ∨
    (∀ F, 0 < fh → fh < maxOpenFiles → s.openHandles fh = some F → s.valid F = false) ∧ t.openHandles = s.openHandles := by
  have closes {F : FileRef} {s t : OpenFs} (ran : (do fileClose F; fsClose F fh; pure (.ok ()) : OpenM (Except EE Unit)) s =
      some (result, t)) : t.openHandles =
        if 0 < fh ∧ fh < maxOpenFiles ∧ s.openHandles fh = some F then Function.update s.openHandles fh none
        else s.openHandles := by
    obtain ⟨_, mid, closed, ran⟩ := Run.bind_eq_some.mp ran
    have same : mid.openHandles = s.openHandles := fileClose_within F _ _ _ closed
    obtain ⟨_, last, cleared, ran⟩ := Run.bind_eq_some.mp ran
    cases ran
    cases cleared
    rw [← same]
    exact apply_ite OpenFs.openHandles _ _ _
  obtain ⟨F, s₁, found, ran⟩ := Run.bind_eq_some.mp ran
  by_cases held : ∃ F, 0 < fh ∧ fh < maxOpenFiles ∧ s.openHandles fh = some F
  · obtain ⟨G, positive, below, slot⟩ := held
    by_cases valid : s.valid G = true
    · cases (getHandle_held positive below slot).symm.trans found
      have cleared := closes (F := G) (s := s) (t := t) (by simpa [Run.bind_apply, valid] using ran)
      exact Or.inl ⟨G, positive, below, slot, valid, by rw [cleared, if_pos ⟨positive, below, slot⟩]⟩
    · have invalid := Bool.eq_false_of_not_eq_true valid
      have refused : release_callback path fh s = some (result, t) := Run.bind_eq_some.mpr ⟨F, s₁, found, ran⟩
      cases (release_callback_invalid positive below slot invalid).symm.trans refused
      refine Or.inr ⟨fun F _ _ here => ?_, rfl⟩
      cases slot.symm.trans here
      exact invalid
  · refine Or.inr ⟨fun F positive below slot => absurd ⟨F, positive, below, slot⟩ held, ?_⟩
    have same : s₁.openHandles = s.openHandles := getHandle_within path fh _ _ _ found
    cases F with
    | none =>
      cases ran
      exact same
    | some F =>
      by_cases valid : s₁.valid F = true
      · have cleared := closes (F := F) (s := s₁) (t := t) (by simpa [Run.bind_apply, valid] using ran)
        rw [cleared, same, if_neg (fun all => held ⟨F, all⟩)]
      · have ran : (pure (.error .entity_not_found) : OpenM (Except EE Unit)) s₁ = some (result, t) := by
          simpa [Run.bind_apply, valid] using ran
        cases ran
        exact same

end Specs

namespace Opens

theorem inv_mounted (fs : Fs) : Inv (mounted fs) := by
  intro a F taken
  cases taken

/-- A handle that is given out once is gone when it has been released. -/
theorem not_mem_erase {pending : List Nat} {fh : Nat} (distinct : (pending.filter (· ≠ 0)).Nodup) (real : fh ≠ 0) :
    fh ∉ pending.erase fh := by
  have once := List.nodup_iff_count_le_one.mp distinct fh
  rw [List.count_filter (by simpa using real)] at once
  have left : (pending.erase fh).count fh = pending.count fh - 1 := List.count_erase_self
  exact List.count_eq_zero.mp (by omega)

variable {s t : Opens}

section Balance

/-- The number of slots follows from which slots are taken. -/
theorem balanced_of_own (inv : Inv s) (distinct : (s.pending.filter (· ≠ 0)).Nodup)
    (own : ∀ a, (s.fs.openHandles a).isSome ↔ a ≠ 0 ∧ a ∈ s.pending) : s.Balanced := by
  refine ⟨?_, distinct, own⟩
  have taken : ((List.range maxOpenFiles).filter (fun a => (s.fs.openHandles a).isSome)).Perm (s.pending.filter (· ≠ 0)) := by
    rw [List.perm_ext_iff_of_nodup (List.nodup_range.filter _) distinct]
    intro a
    simp only [List.mem_filter, List.mem_range, own a, ne_eq, decide_not, Bool.not_eq_eq_eq_not, Bool.not_true,
      decide_eq_false_iff_not]
    constructor
    · exact fun both => ⟨both.2.2, both.2.1⟩
    · intro both
      obtain ⟨F, slot⟩ := Option.isSome_iff_exists.mp ((own a).mpr ⟨both.2, both.1⟩)
      exact ⟨(inv a F slot).2, both.2, both.1⟩
  rw [occupied, List.countP_eq_length_filter]
  exact taken.length_eq

theorem balanced_mounted (fs : Fs) : (mounted fs).Balanced := by
  apply balanced_of_own (inv_mounted fs) List.nodup_nil
  intro a
  exact iff_of_false Bool.false_ne_true (fun both => List.not_mem_nil both.2)

variable [Floats]

/-- The calls that neither open nor release leave the table and the handles alone. -/
theorem step_other {op : HandleOp} (stepped : step op s = some t) :
    (∃ path flags ctx, op = .openFile path flags ctx) ∨ (∃ path fh, op = .release path fh) ∨
      t.fs.openHandles = s.fs.openHandles ∧ t.pending = s.pending := by
  have other {α : Type} {body : OpenM α} (within : Run.Within SameHandles body)
      (made : (body s.fs).map (fun result => (⟨result.2, s.pending⟩ : Opens)) = some t) :
      t.fs.openHandles = s.fs.openHandles ∧ t.pending = s.pending := by
    obtain ⟨⟨a, u⟩, ran, rfl⟩ := Option.map_eq_some_iff.mp made
    exact ⟨within _ _ _ ran, rfl⟩
  cases op with
  | openFile path flags ctx => exact Or.inl ⟨path, flags, ctx, rfl⟩
  | release path fh => exact Or.inr (Or.inl ⟨path, fh, rfl⟩)
  | write path buf offset fh => exact Or.inr (Or.inr (other (write_callback_within path buf offset fh) stepped))
  | truncate path newSize ctx => exact Or.inr (Or.inr (other (onFs_within _) stepped))
  | chmod path mode ctx => exact Or.inr (Or.inr (other (onFs_within _) stepped))
  | chown path uid gid ctx => exact Or.inr (Or.inr (other (onFs_within _) stepped))
  | call op => exact Or.inr (Or.inr (other (onFs_within _) stepped))

theorem step_open {path : Path} {flags : Mode} {ctx : Context} (stepped : step (.openFile path flags ctx) s = some t) :
    (∃ a F, 0 < a ∧ a < maxOpenFiles ∧ s.fs.openHandles a = none ∧
      t.fs.openHandles = Function.update s.fs.openHandles a (some F) ∧ t.pending = a :: s.pending) ∨
    t.fs.openHandles = s.fs.openHandles ∧ (t.pending = 0 :: s.pending ∨ t.pending = s.pending) := by
  obtain ⟨⟨result, u⟩, ran, rfl⟩ := Option.map_eq_some_iff.mp stepped
  obtain ⟨a, F, rfl, positive, below, free, slots⟩ | ⟨same, rfl | ⟨e, rfl⟩⟩ := open_callback_spec ran
  · exact Or.inl ⟨a, F, positive, below, free, slots, rfl⟩
  · exact Or.inr ⟨same, Or.inl rfl⟩
  · exact Or.inr ⟨same, Or.inr rfl⟩

theorem step_release {path : Path} {fh : Nat} (stepped : step (.release path fh) s = some t) :
    fh ∈ s.pending ∧ t.pending = s.pending.erase fh ∧
      ((∃ F, 0 < fh ∧ fh < maxOpenFiles ∧ s.fs.openHandles fh = some F ∧ s.fs.valid F = true ∧
        t.fs.openHandles = Function.update s.fs.openHandles fh none) ∨
      (∀ F, 0 < fh → fh < maxOpenFiles → s.fs.openHandles fh = some F → s.fs.valid F = false) ∧
        t.fs.openHandles = s.fs.openHandles) := by
  obtain ⟨given, made⟩ := Option.ite_none_right_eq_some.mp stepped
  obtain ⟨⟨result, u⟩, ran, rfl⟩ := Option.map_eq_some_iff.mp made
  exact ⟨given, rfl, release_callback_spec ran⟩

theorem Inv.step {op : HandleOp} (inv : Inv s) (stepped : step op s = some t) : Inv t := by
  intro a F taken
  obtain ⟨path, flags, ctx, rfl⟩ | ⟨path, fh, rfl⟩ | ⟨same, _⟩ := step_other stepped
  · obtain ⟨b, G, positive, below, _, slots, _⟩ | ⟨same, _⟩ := step_open stepped
    · rw [slots, Function.update_apply] at taken
      split_ifs at taken with here
      · rw [here]
        exact ⟨positive, below⟩
      · exact inv a F taken
    · exact inv a F (same ▸ taken)
  · obtain ⟨_, _, ⟨G, _, _, _, _, slots⟩ | ⟨_, same⟩⟩ := step_release stepped
    · rw [slots, Function.update_apply] at taken
      split_ifs at taken
      exact inv a F taken
    · exact inv a F (same ▸ taken)
  · exact inv a F (same ▸ taken)

theorem Balanced.step {op : HandleOp} (inv : Inv s) (balanced : s.Balanced) (ordered : s.Ordered op)
    (stepped : step op s = some t) : t.Balanced := by
  have distinct := balanced.distinct
  obtain ⟨path, flags, ctx, rfl⟩ | ⟨path, fh, rfl⟩ | ⟨same, pending⟩ := step_other stepped
  · obtain ⟨a, F, positive, below, free, slots, pending⟩ | ⟨same, pending⟩ := step_open stepped
    · have real : a ≠ 0 := Nat.ne_of_gt positive
      have fresh : a ∉ s.pending := by
        intro member
        have taken := (balanced.own a).mpr ⟨real, member⟩
        rw [free] at taken
        cases taken
      apply balanced_of_own (inv.step stepped)
      · rw [pending, List.filter_cons_of_pos (by simpa using real)]
        exact List.nodup_cons.mpr ⟨fun member => fresh (List.mem_filter.mp member).1, distinct⟩
      · intro b
        rw [slots, pending, Function.update_apply, List.mem_cons]
        split_ifs with here
        · exact iff_of_true rfl ⟨here ▸ real, Or.inl here⟩
        · rw [balanced.own b, or_iff_right here]
    · apply balanced_of_own (inv.step stepped)
      · obtain pending | pending := pending <;> rw [pending]
        · rwa [List.filter_cons_of_neg (by decide)]
        · exact distinct
      · intro b
        obtain pending | pending := pending <;> rw [same, pending, balanced.own b]
        constructor
        · exact fun both => ⟨both.1, List.mem_cons_of_mem 0 both.2⟩
        · exact fun both => ⟨both.1, (List.mem_cons.mp both.2).resolve_left both.1⟩
  · obtain ⟨given, pending, change⟩ := step_release stepped
    apply balanced_of_own (inv.step stepped)
    · rw [pending]
      exact distinct.sublist (List.erase_sublist.filter _)
    · intro b
      obtain ⟨F, positive, below, slot, valid, slots⟩ | ⟨invalid, same⟩ := change
      · rw [slots, pending, Function.update_apply]
        split_ifs with here
        · subst here
          exact iff_of_false Bool.false_ne_true (fun both => not_mem_erase distinct both.1 both.2)
        · rw [balanced.own b, List.mem_erase_of_ne here]
      · have zero : fh = 0 := by
          by_contra real
          obtain ⟨F, slot⟩ := Option.isSome_iff_exists.mp ((balanced.own fh).mpr ⟨real, given⟩)
          have bounds := inv fh F slot
          have valid := ordered F slot
          rw [invalid F bounds.1 bounds.2 slot] at valid
          cases valid
        rw [same, pending, balanced.own b, zero]
        constructor
        · exact fun both => ⟨both.1, (List.mem_erase_of_ne both.1).mpr both.2⟩
        · exact fun both => ⟨both.1, List.mem_of_mem_erase both.2⟩
  · apply balanced_of_own (inv.step stepped)
    · rw [pending]
      exact distinct
    · intro b
      rw [same, pending]
      exact balanced.own b

/-- A release that is refused leaves a slot taken for which there is no handle. -/
theorem ordered_of_balanced {op : HandleOp} (inv : Inv s) (balanced : s.Balanced)
    (after : ∀ t, step op s = some t → t.Balanced) : s.Ordered op := by
  cases op with
  | release path fh =>
    intro F slot
    by_contra valid
    have bounds := inv fh F slot
    have given : fh ∈ s.pending := ((balanced.own fh).mp (by rw [slot]; rfl)).2
    have refused : release_callback path fh s.fs = some (.error .entity_not_found, s.fs) :=
      release_callback_invalid bounds.1 bounds.2 slot (Bool.eq_false_of_not_eq_true valid)
    have stepped : step (.release path fh) s = some ⟨s.fs, s.pending.erase fh⟩ := by
      rw [step, if_pos given, refused]
      rfl
    have kept := ((after _ stepped).own fh).mp (by rw [slot]; rfl)
    exact not_mem_erase balanced.distinct kept.1 kept.2
  | _ => trivial

/-- No slot is ever left behind as long as every file is released before it is deleted,
and not beyond that. -/
theorem balanced_iff (fs : Fs) (ops : List HandleOp) :
    (∀ first later, ops = first ++ later → ∀ t, run first (mounted fs) = some t → t.Balanced) ↔ OrderedRun ops (mounted fs) :=
  Schedule.always_iff (I := Inv) (P := Balanced) (fun inv made => inv.step made) (fun inv balanced now made => balanced.step inv now made)
    (fun inv balanced after => ordered_of_balanced inv balanced after) (inv_mounted fs) (balanced_mounted fs)

end Balance

/-- A file is unlinked between its opening and its release. -/
def leaking : List HandleOp :=
  [.call (.mknod [[102]] 0o644 superuser), .openFile [[102]] 0 superuser, .call (.unlink [[102]] superuser), .release [[102]] 1]

/-- Its slot stays taken though no handle is left. -/
theorem leaking_not_balanced :
    ∃ s₀ t, mount (formatted superuser) = some s₀ ∧ run leaking (mounted s₀) = some t ∧
      t.pending = [] ∧ t.occupied = 1 ∧ ¬t.Balanced := by
  have leaks : (mount (formatted superuser)).bind (fun s₀ => (run leaking (mounted s₀)).map (fun t => (t.pending, t.occupied))) =
      some ([], 1) := by decide +kernel
  obtain ⟨s₀, mounted, ran⟩ := Option.bind_eq_some_iff.mp leaks
  obtain ⟨t, ran, result⟩ := Option.map_eq_some_iff.mp ran
  obtain ⟨pending, occupied⟩ := Prod.mk.inj result
  refine ⟨s₀, t, mounted, ran, pending, occupied, fun balanced => ?_⟩
  have count := balanced.count
  rw [pending, occupied] at count
  cases count

end Opens

end CloudCryptFS.Filesystem
