import CloudCryptFS.Filesystem.Removal

/-! Calls on the content of a file that is no directory. They change the content, the
chain and the journal, and so nothing that a path depends on. -/

namespace CloudCryptFS.Filesystem
open Util NameGraph Script.Lexer

section Quiet

/-- A run that changes the journal at most. -/
def Quiet {α : Type} (run : FsM α) : Prop := ∀ s a t, run s = some (a, t) → Same s t

theorem Quiet.pure {α : Type} (a : α) : Quiet (Pure.pure a : FsM α) := by
  intro s b t ran
  cases ran
  exact Same.refl _

theorem Quiet.bind {α β : Type} {run : FsM α} {next : α → FsM β} (first : Quiet run) (second : ∀ a, Quiet (next a)) :
    Quiet (run >>= next) := by
  intro s b u ran
  obtain ⟨a, t, ran, later⟩ := Run.bind_eq_some.mp ran
  exact (first s a t ran).trans (second a t b u later)

theorem Quiet.assert (condition : Prop) [Decidable condition] : Quiet (Run.assert condition : FsM Unit) := by
  intro s a t ran
  obtain ⟨_, rfl⟩ := Run.assert_eq_some.mp ran
  exact Same.refl _

theorem Quiet.forM {α : Type} {list : List α} {body : α → FsM PUnit} (each : ∀ a, Quiet (body a)) :
    Quiet (list.forM body : FsM PUnit) := by
  induction list with
  | nil => exact Quiet.pure _
  | cons a list ih =>
    rw [List.forM_eq_forM, List.forM_cons]
    exact (each a).bind (fun _ => ih)

theorem Quiet.addChange (je : Option Wrapper) : Quiet (addChange je) := by
  intro s a t ran
  cases ran
  exact ⟨rfl, rfl, rfl, rfl⟩

variable (je : Option Wrapper)

theorem Quiet.write (c : Chunk) (offset : Nat) (input : Str) : Quiet ((fileOps je).write c offset input) := by
  intro s a t ran
  obtain ⟨new, _, same⟩ := Option.map_eq_some_iff.mp ran
  cases same
  exact Same.refl _

theorem Quiet.attach (hashes : List Chunk) : Quiet ((fileOps je).addChange hashes) := by
  unfold fileOps chunkOps
  dsimp only
  split
  · exact Quiet.pure ()
  · exact Quiet.addChange je

private theorem Quiet.writeLoop (offset : Nat) (hashes : List Chunk) (buf : Str) (fileOffset : Nat) :
    Quiet (writeLoop (fileOps je) offset hashes buf fileOffset) := by
  induction hashes generalizing buf fileOffset with
  | nil => exact (Quiet.assert _).bind (fun _ => Quiet.pure _)
  | cons c hashes ih =>
    unfold Filesystem.writeLoop
    split
    · apply (Quiet.write je _ _ _).bind
      intro new
      cases new with
      | none => exact (ih _ _).bind (fun _ => Quiet.pure _)
      | some new => exact (Quiet.pure ()).bind (fun _ => (ih _ _).bind (fun _ => Quiet.pure _))
    · exact (ih _ _).bind (fun _ => Quiet.pure _)

theorem Quiet.writeData (file : FileData Chunk) (buf : Str) (offset : Nat) :
    Quiet (writeData (fileOps je) file buf offset) := by
  unfold Filesystem.writeData
  apply (Quiet.assert _).bind
  intro _
  extract_lets added hashList hashes written
  have rest : ∀ u, Quiet (written u) := by
    intro u
    apply (Quiet.assert _).bind
    intro _
    apply (Quiet.writeLoop je _ _ _ _).bind
    intro result
    obtain ⟨after, replaced⟩ := result
    apply (Quiet.forM (fun _ => Quiet.pure _)).bind
    intro _
    dsimp only
    split
    · exact (Quiet.attach je _).bind (fun _ => Quiet.pure _)
    · exact Quiet.pure _
  split
  · exact (Quiet.pure ()).bind rest
  · exact rest ()

theorem Quiet.truncateData (file : FileData Chunk) (newSize : Nat) : Quiet (truncateData (fileOps je) file newSize) := by
  unfold Filesystem.truncateData
  dsimp only
  split
  · apply (Quiet.forM (fun _ => (Quiet.pure ()).bind (fun _ => Quiet.pure ()))).bind
    intro _
    exact (Quiet.attach je _).bind (fun _ => Quiet.pure _)
  · split
    · exact (Quiet.pure ()).bind (fun _ => (Quiet.attach je _).bind (fun _ => Quiet.pure _))
    · exact Quiet.pure _

end Quiet

section Contents
variable [Floats] {level : Level} {s s' : Fs}

/-- What a path depends on of an open file. -/
def FileObject.place (file : FileObject) : FileObject := { file with numHashWrites := 0 }

/-- Only the content of one file that is no directory is different. -/
structure Rewritten (s s' : Fs) : Prop where
  alloc : Alloc s'
  readable : Readable s'.nodes
  heads : SameHeads s.nodes s'.nodes
  edges : edge s'.nodes = edge s.nodes
  paths : s'.pathInodeCache = s.pathInodeCache
  files : ∀ j, (s'.inodeFileCache j).map FileObject.place = (s.inodeFileCache j).map FileObject.place

theorem Rewritten.file (rewritten : Rewritten s s') {j : BucketIndex} {file : FileObject} (here : s'.inodeFileCache j = some file) :
    ∃ before, s.inodeFileCache j = some before ∧ before.pathPermissions = file.pathPermissions ∧ before.special = file.special := by
  have same := rewritten.files j
  rw [here, Option.map_some] at same
  obtain ⟨before, there, place⟩ := Option.map_eq_some_iff.mp same.symm
  have list := congrArg FileObject.pathPermissions place
  have special := congrArg FileObject.special place
  exact ⟨before, there, list, special⟩

theorem Rewritten.isSome (rewritten : Rewritten s s') (j : BucketIndex) : (s'.inodeFileCache j).isSome = (s.inodeFileCache j).isSome := by
  have same := congrArg Option.isSome (rewritten.files j)
  rw [Option.isSome_map, Option.isSome_map] at same
  exact same

theorem Names.rewritten (names : Names level s) (rewritten : Rewritten s s') : Names level s' := by
  have walk : s'.walk = s.walk := Fs.walk_congr rewritten.edges
  have before : ∀ j n, s'.nodes j = some n → ∃ n₀, s.nodes j = some n₀ ∧ n₀.type = n.type ∧ n₀.nlinks = n.nlinks := by
    intro j n here
    obtain ⟨n₀, here₀, head⟩ := rewritten.heads.symm.node here
    have type := congrArg Inode.type head
    have nlinks := congrArg Inode.nlinks head
    exact ⟨n₀, here₀, type, nlinks⟩
  have closed : ∀ j, s'.inodeFileCache j = none → s.inodeFileCache j = none := by
    intro j none
    have same := rewritten.isSome j
    rw [none] at same
    simpa using same.symm
  constructor
  · exact rewritten.alloc
  · exact rewritten.readable
  · rw [rewritten.edges, rewritten.heads.dirs]
    exact names.tree
  · intro d c i found
    rw [rewritten.edges] at found
    exact rewritten.heads.alive (names.live d c i found)
  · intro j n here leaf
    obtain ⟨n₀, here₀, type, nlinks⟩ := before j n here
    rw [rewritten.edges, ← nlinks]
    exact names.links j n₀ here₀ (type ▸ leaf)
  · intro strict j n here leaf
    obtain ⟨n₀, here₀, type, nlinks⟩ := before j n here
    rw [rewritten.edges, ← nlinks]
    exact names.counted strict j n₀ here₀ (type ▸ leaf)
  · intro p j here
    rw [rewritten.paths] at here
    rw [walk, rewritten.isSome]
    exact names.cached p j here
  · rw [rewritten.isSome]
    exact names.rootFile
  · intro j file here
    obtain ⟨file₀, here₀, _⟩ := rewritten.file here
    exact rewritten.heads.alive (names.files j file₀ here₀)
  · intro j file here special c
    obtain ⟨file₀, here₀, _, same⟩ := rewritten.file here
    rw [rewritten.edges]
    exact names.special j file₀ here₀ (same.trans special) c
  · intro p j special found none c
    rw [walk] at found
    rw [rewritten.edges]
    exact names.unopened p j special found (closed j none) c
  · intro strict
    obtain ⟨root, step, single⟩ := names.permitted strict
    refine ⟨?_, ?_, ?_⟩
    · intro file here
      obtain ⟨file₀, here₀, list, _⟩ := rewritten.file here
      rw [← list]
      exact root file₀ here₀
    · intro d c i file found here
      rw [rewritten.edges] at found
      obtain ⟨file₀, here₀, list, _⟩ := rewritten.file here
      obtain ⟨parent, folder, more⟩ := step d c i file₀ found here₀
      have same := rewritten.files d
      rw [folder, Option.map_some] at same
      obtain ⟨parent', folder', place⟩ := Option.map_eq_some_iff.mp same
      have equal := congrArg FileObject.pathPermissions place
      refine ⟨parent', folder', ?_⟩
      rw [← list, more]
      exact congrArg (fun list => list ++ [d]) equal.symm
    · rw [rewritten.edges]
      exact single
  · rw [rewritten.edges, rewritten.heads.dirs]
    exact names.reached

theorem Rewritten.refl (alloc : Alloc s) (readable : Readable s.nodes) : Rewritten s s :=
  ⟨alloc, readable, SameHeads.refl _, rfl, rfl, fun _ => rfl⟩

theorem Rewritten.trans {t : Fs} (first : Rewritten s t) (second : Rewritten t s') : Rewritten s s' :=
  ⟨second.alloc, second.readable, first.heads.trans second.heads, second.edges.trans first.edges,
    second.paths.trans first.paths, fun j => (second.files j).trans (first.files j)⟩

theorem Same.rewritten (same : Same s s') (alloc : Alloc s) (readable : Readable s.nodes) : Rewritten s s' :=
  ⟨alloc.congr same.slots same.accounting, same.nodes ▸ readable, fun j => by rw [same.nodes], by rw [same.nodes], same.paths,
    fun j => by rw [same.files]⟩

/-- The content in the inode of a file that is no directory. -/
theorem Rewritten.data {i : BucketIndex} {n : Inode} (alloc : Alloc s) (readable : Readable s.nodes) (slot : s.slots i = .node n)
    (leaf : n.type ≠ .DIR) (data : FileData Chunk) : Rewritten s (s.setSlot i (.node { n with data := data })) := by
  obtain ⟨edges, _, readable'⟩ := leaf_modify { n with data := data } slot leaf rfl
  have sameChain : ({ n with data := data } : Inode).chain = n.chain := rfl
  refine ⟨(alloc.modify slot sameChain).1, readable' readable, ?_, edges, rfl, fun _ => rfl⟩
  rw [Fs.nodes_setSlot_node]
  exact SameHeads.update (Fs.nodes_of_slot slot) data

theorem rest_rewritten {i : BucketIndex} (alloc : Alloc s) (readable : Readable s.nodes) (ran : rest i s = some ((), s')) :
    Rewritten s s' := by
  obtain ⟨alloc', nodes, beside⟩ := rest_spec alloc ran
  exact ⟨alloc', nodes ▸ readable, fun j => by rw [nodes], by rw [nodes], beside.paths, fun j => by rw [beside.files]⟩

/-- The count of writes of an open file. -/
theorem Rewritten.count {i : BucketIndex} {file : FileObject} (alloc : Alloc s) (readable : Readable s.nodes)
    (here : s.inodeFileCache i = some file) (k : Nat) : Rewritten s (s.setFile i (some { file with numHashWrites := k })) := by
  refine ⟨alloc.congr rfl rfl, readable, SameHeads.refl _, rfl, rfl, fun j => ?_⟩
  by_cases same : j = i
  · rw [same, here]
    simp [Fs.setFile, FileObject.place]
  · simp [Fs.setFile, same]

theorem fileWriteInner_spec {i : BucketIndex} {buf : Str} {offset k : Nat} {je : Option Wrapper} (alloc : Alloc s)
    (readable : Readable s.nodes) (leaf : i ∉ dirs s.nodes) (ran : fileWriteInner i buf offset je s = some (k, s')) :
    Rewritten s s' := by
  unfold fileWriteInner at ran
  obtain ⟨n, _, found, ran⟩ := Run.bind_eq_some.mp ran
  obtain ⟨slot, rfl⟩ := INode_eq_some.mp found
  obtain ⟨⟨data, replaced⟩, t, written, ran⟩ := Run.bind_eq_some.mp ran
  have same := Quiet.writeData je n.data buf offset s _ t written
  have first := same.rewritten alloc readable
  have isLeaf : n.type ≠ .DIR := fun dir => leaf ⟨n.seen, Fs.nodes_of_slot slot, dir⟩
  obtain ⟨_, u, modified, ran⟩ := Run.bind_eq_some.mp ran
  obtain ⟨n', slot', rfl⟩ := modifyINode_eq_some.mp modified
  rw [same.slots, slot] at slot'
  cases slot'
  have second := first.trans (Rewritten.data first.alloc first.readable (same.slots ▸ slot) isLeaf data)
  obtain ⟨_, _, start, ran⟩ := Run.bind_eq_some.mp ran
  cases start
  cases here : (t.setSlot i (.node { n with data := data })).inodeFileCache i with
  | none =>
    rw [here] at ran
    cases ran
    exact second
  | some file =>
    rw [here] at ran
    dsimp only at ran
    split at ran
    · obtain ⟨_, v, counted, ran⟩ := Run.bind_eq_some.mp ran
      cases counted
      obtain ⟨_, w, rested, ran⟩ := Run.bind_eq_some.mp ran
      cases ran
      have third := second.trans (Rewritten.count second.alloc second.readable here 0)
      exact third.trans (rest_rewritten third.alloc third.readable rested)
    · obtain ⟨_, v, counted, ran⟩ := Run.bind_eq_some.mp ran
      cases counted
      cases ran
      exact second.trans (Rewritten.count second.alloc second.readable here _)

theorem fileTruncateInner_spec {i : BucketIndex} {newSize : Nat} {e : EE} {je : Option Wrapper} (alloc : Alloc s)
    (readable : Readable s.nodes) (leaf : i ∉ dirs s.nodes) (ran : fileTruncateInner i newSize je s = some (e, s')) :
    Rewritten s s' := by
  unfold fileTruncateInner at ran
  obtain ⟨n, _, found, ran⟩ := Run.bind_eq_some.mp ran
  obtain ⟨slot, rfl⟩ := INode_eq_some.mp found
  obtain ⟨data, t, cutOff, ran⟩ := Run.bind_eq_some.mp ran
  obtain ⟨_, u, attached, ran⟩ := Run.bind_eq_some.mp ran
  have same := (Quiet.truncateData je n.data newSize s _ t cutOff).trans (Quiet.addChange je t _ u attached)
  have first := same.rewritten alloc readable
  have isLeaf : n.type ≠ .DIR := fun dir => leaf ⟨n.seen, Fs.nodes_of_slot slot, dir⟩
  obtain ⟨_, v, modified, ran⟩ := Run.bind_eq_some.mp ran
  obtain ⟨n', slot', rfl⟩ := modifyINode_eq_some.mp modified
  rw [same.slots, slot] at slot'
  cases slot'
  have second := first.trans (Rewritten.data first.alloc first.readable (same.slots ▸ slot) isLeaf data)
  obtain ⟨_, w, rested, ran⟩ := Run.bind_eq_some.mp ran
  cases ran
  exact second.trans (rest_rewritten second.alloc second.readable rested)

theorem write_spec {i : BucketIndex} {buf : Str} {offset k : Nat} (alloc : Alloc s) (readable : Readable s.nodes)
    (leaf : i ∉ dirs s.nodes) (ran : write (some i) buf offset s = some (k, s')) : Rewritten s s' := by
  unfold write at ran
  obtain ⟨isValid, _, asked, ran⟩ := Run.bind_eq_some.mp ran
  obtain ⟨_, rfl⟩ := valid_eq_some.mp asked
  obtain ⟨special, _, asked, ran⟩ := Run.bind_eq_some.mp ran
  obtain ⟨_, rfl⟩ := isSpecial_eq_some.mp asked
  split at ran
  · obtain ⟨id, t, u, same, inner, same'⟩ := withEntry_spec ran
    have first := same.rewritten alloc readable
    have second := first.trans (fileWriteInner_spec first.alloc first.readable (same.nodes ▸ leaf) inner)
    exact second.trans (same'.rewritten second.alloc second.readable)
  · cases ran
    exact Rewritten.refl alloc readable

theorem truncate_spec {i : BucketIndex} {newSize : Nat} {e : EE} (alloc : Alloc s) (readable : Readable s.nodes)
    (leaf : i ∉ dirs s.nodes) (ran : truncate (some i) newSize s = some (e, s')) : Rewritten s s' := by
  unfold truncate at ran
  obtain ⟨isValid, _, asked, ran⟩ := Run.bind_eq_some.mp ran
  obtain ⟨_, rfl⟩ := valid_eq_some.mp asked
  obtain ⟨special, _, asked, ran⟩ := Run.bind_eq_some.mp ran
  obtain ⟨_, rfl⟩ := isSpecial_eq_some.mp asked
  split at ran
  · split at ran
    · cases ran
      exact Rewritten.refl alloc readable
    · obtain ⟨id, t, u, same, inner, same'⟩ := withEntry_spec ran
      have first := same.rewritten alloc readable
      have second := first.trans (fileTruncateInner_spec first.alloc first.readable (same.nodes ▸ leaf) inner)
      exact second.trans (same'.rewritten second.alloc second.readable)
  · cases ran
    exact Rewritten.refl alloc readable

end Contents

section Objects
variable [Floats] {level : Level} {s s' : Fs}

theorem mknod_spec {filename : Path} {m : Mode} {ctx : Context} {e : EE} (names : Names level s) (creates : Creates level s filename)
    (ran : mknod filename m ctx s = some (e, s')) : Names level s' := by
  unfold mknod at ran
  obtain ⟨error, t, made, ran⟩ := Run.bind_eq_some.mp ran
  obtain ⟨names', _⟩ := mkobject_spec names creates made
  split at ran
  · cases ran
    exact names'
  · obtain ⟨F, u, found, ran⟩ := Run.bind_eq_some.mp ran
    cases ran
    obtain ⟨_, names'', _⟩ := names'.looked found
    exact names''

theorem mkdir_spec {name : Path} {mode : Mode} {ctx : Context} {e : EE} (names : Names level s) (creates : Creates level s name)
    (ran : mkdir name mode ctx s = some (e, s')) : Names level s' :=
  (mkobject_spec names creates ran).1

/-- A link is made, looked up, written, cut to its length and put to rest. -/
theorem softlink_spec {linktarget : Str} {linkname : Path} {ctx : Context} {e : EE} (names : Names level s)
    (creates : Creates level s linkname) (ran : softlink linktarget linkname ctx s = some (e, s')) : Names level s' := by
  unfold softlink at ran
  obtain ⟨error, t, made, ran⟩ := Run.bind_eq_some.mp ran
  obtain ⟨names₁, type⟩ := mkobject_spec names creates made
  split at ran
  · cases ran
    exact names₁
  · rename_i done
    obtain ⟨⟨F, e₁⟩, u, found, ran⟩ := Run.bind_eq_some.mp ran
    dsimp only at ran
    obtain ⟨found, which⟩ := names₁.lookedErrcode found
    obtain ⟨there, names₂, looked, _⟩ := names₁.looked found
    rcases which with ⟨_, failed⟩ | ⟨i, rfl, rfl⟩
    · rw [if_pos failed] at ran
      cases ran
      exact names₂
    · rw [if_neg (fun no => no rfl)] at ran
      obtain ⟨n, here, isLink⟩ := type (not_not.mp done) i there.symm
      have leaf : i ∉ dirs u.nodes := by
        intro member
        obtain ⟨m, there, dir⟩ := member
        rw [looked.nodes, here] at there
        cases there
        rw [dir] at isLink
        exact absurd isLink (by decide)
      obtain ⟨ret, v, written, ran⟩ := Run.bind_eq_some.mp ran
      have first := write_spec names₂.alloc names₂.readable leaf written
      have leaf' : i ∉ dirs v.nodes := by
        rw [first.heads.dirs]
        exact leaf
      obtain ⟨_, w, cutOff, ran⟩ := Run.bind_eq_some.mp ran
      have second := first.trans (truncate_spec first.alloc first.readable leaf' cutOff)
      split at ran
      · cases ran
        exact names₂.rewritten second
      · obtain ⟨_, x, rested, ran⟩ := Run.bind_eq_some.mp ran
        cases ran
        exact names₂.rewritten (second.trans (rest_rewritten second.alloc second.readable rested))

end Objects

end CloudCryptFS.Filesystem
