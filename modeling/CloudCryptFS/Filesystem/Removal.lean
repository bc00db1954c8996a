import CloudCryptFS.Filesystem.Calls

/-! The calls that take an entry away. `unlink` counts a link down before it asks for the
right to change the directory, and `renamemove` enters the new name before it removes the
old one, so both are only safe where the later check cannot fail. -/

namespace CloudCryptFS.Filesystem
open Util NameGraph Script.Lexer

section Delete

/-- A slot that no chain refers to is emptied and posted. -/
private theorem free_spec {s s' : Fs} {i : BucketIndex} (alloc : Alloc s) (used : s.slots i ≠ .none)
    (alone : ∀ j n, s.slots j = .node n → i ∉ n.chain) (ran : freeIndex i s = some ((), s')) :
    Alloc s' ∧ s'.slots = Function.update s.slots i .none ∧ s'.pathInodeCache = s.pathInodeCache ∧
      s'.inodeFileCache = s.inodeFileCache := by
  unfold freeIndex at ran
  obtain ⟨_, t, set, ran⟩ := Run.bind_eq_some.mp ran
  cases set
  have taken : ¬s.accounting.Free i := fun free => used (alloc.free i free)
  have slots : ∀ j, (s.setSlot i .none).slots j = if j = i then .none else s.slots j := by
    intro j
    split
    · rename_i same
      rw [same, setSlot_self]
    · rename_i other
      exact setSlot_of_ne s other _
  have before : ∀ j n, (s.setSlot i .none).slots j = .node n → s.slots j = .node n := by
    intro j n found
    rw [slots] at found
    split at found
    · cases found
    · exact found
  have emptied : Alloc (s.setSlot i .none) := by
    refine ⟨alloc.ok, ?_, ?_, ?_, ?_⟩
    · intro j free
      rw [slots]
      split
      · rfl
      · exact alloc.free j free
    · intro j nonempty
      rw [slots] at nonempty
      split at nonempty
      · exact absurd rfl nonempty
      · exact alloc.bucket j nonempty
    · intro j n found
      have old := before j n found
      obtain ⟨distinct, records⟩ := alloc.chain j n old
      refine ⟨distinct, fun k member => ?_⟩
      rw [slots, if_neg]
      · exact records k member
      · intro same
        exact alone j n old (same ▸ member)
    · intro j n j' n' k first second
      exact alloc.apart j n j' n' k (before j n first) (before j' n' second)
  have held : Held (s.setSlot i .none) i := ⟨taken, setSlot_self s i _, alloc.bucket i used⟩
  obtain ⟨alloc', slots', paths, files⟩ := postIndex_spec emptied held ran
  exact ⟨alloc', slots', paths, files⟩

private theorem freeAll_spec {s s' : Fs} {indexes : List BucketIndex} (alloc : Alloc s) (distinct : indexes.Nodup)
    (used : ∀ i ∈ indexes, s.slots i ≠ .none) (alone : ∀ i ∈ indexes, ∀ j n, s.slots j = .node n → i ∉ n.chain)
    (ran : (indexes.forM freeIndex : FsM PUnit) s = some (⟨⟩, s')) :
    Alloc s' ∧ (∀ j, s'.slots j = if j ∈ indexes then .none else s.slots j) ∧ s'.pathInodeCache = s.pathInodeCache ∧
      s'.inodeFileCache = s.inodeFileCache := by
  induction indexes generalizing s with
  | nil =>
    cases ran
    exact ⟨alloc, fun j => by simp, rfl, rfl⟩
  | cons i indexes ih =>
    rw [List.forM_eq_forM, List.forM_cons] at ran
    obtain ⟨_, t, first, ran⟩ := Run.bind_eq_some.mp ran
    obtain ⟨alloc', slots, paths, files⟩ := free_spec alloc (used i List.mem_cons_self) (alone i List.mem_cons_self) first
    obtain ⟨notLater, distinct'⟩ := List.nodup_cons.mp distinct
    have others : ∀ j, j ≠ i → t.slots j = s.slots j := by
      intro j other
      rw [slots, Function.update_of_ne other]
    have gone : t.slots i = .none := by
      rw [slots, Function.update_self]
    have used' : ∀ j ∈ indexes, t.slots j ≠ .none := by
      intro j member
      rw [others j (fun same => notLater (same ▸ member))]
      exact used j (List.mem_cons_of_mem i member)
    have alone' : ∀ j ∈ indexes, ∀ k n, t.slots k = .node n → j ∉ n.chain := by
      intro j member k n found
      have other : k ≠ i := by
        intro same
        rw [same, gone] at found
        cases found
      exact alone j (List.mem_cons_of_mem i member) k n (others k other ▸ found)
    obtain ⟨alloc'', slots', paths', files'⟩ := ih alloc' distinct' used' alone' ran
    refine ⟨alloc'', fun j => ?_, paths'.trans paths, files'.trans files⟩
    rw [slots']
    by_cases same : j = i
    · rw [same, gone]
      simp
    · rw [others j same]
      simp [same]

theorem deleteFile_spec {s s' : Fs} {i : BucketIndex} (alloc : Alloc s) (ran : deleteFile i s = some ((), s')) :
    Alloc s' ∧ s'.nodes = Function.update s.nodes i none ∧ s'.pathInodeCache = s.pathInodeCache ∧
      s'.inodeFileCache = Function.update s.inodeFileCache i none := by
  unfold deleteFile at ran
  obtain ⟨n, _, found, ran⟩ := Run.bind_eq_some.mp ran
  obtain ⟨slot, rfl⟩ := INode_eq_some.mp found
  obtain ⟨_, t, set, ran⟩ := Run.bind_eq_some.mp ran
  cases set
  rw [List.forM_eq_forM, List.forM_cons] at ran
  obtain ⟨_, u, first, ran⟩ := Run.bind_eq_some.mp ran
  have alloc₁ : Alloc (s.setFile i none) := alloc.congr rfl rfl
  obtain ⟨distinct, records⟩ := alloc.chain i n slot
  have used : s.slots i ≠ .none := by
    rw [slot]
    exact Slot.noConfusion
  have alone : ∀ j m, s.slots j = .node m → i ∉ m.chain := by
    intro j m found' member
    have record := (alloc.chain j m found').2 i member
    rw [slot] at record
    cases record
  obtain ⟨alloc₂, slots, paths, files⟩ := free_spec alloc₁ used alone first
  have gone : u.slots i = .none := by
    rw [slots, Function.update_self]
  have others : ∀ j, j ≠ i → u.slots j = s.slots j := by
    intro j other
    rw [slots, Function.update_of_ne other]
    rfl
  have notOwn : i ∉ n.chain := alone i n slot
  have used₂ : ∀ j ∈ n.chain, u.slots j ≠ .none := by
    intro j member
    rw [others j (fun same => notOwn (same ▸ member)), records j member]
    exact Slot.noConfusion
  have alone₂ : ∀ j ∈ n.chain, ∀ k m, u.slots k = .node m → j ∉ m.chain := by
    intro j member k m found' member'
    have other : k ≠ i := by
      intro same
      rw [same, gone] at found'
      cases found'
    rw [others k other] at found'
    exact other (alloc.apart k m i n j found' slot member' member)
  obtain ⟨alloc₃, slots', paths', files'⟩ := freeAll_spec alloc₂ distinct used₂ alone₂ ran
  refine ⟨alloc₃, ?_, paths'.trans paths, ?_⟩
  · funext j
    by_cases same : j = i
    · rw [same, Function.update_self]
      apply Fs.nodes_eq_none
      intro m found'
      rw [slots', gone] at found'
      split at found' <;> cases found'
    · rw [Function.update_of_ne same]
      unfold Fs.nodes
      rw [slots']
      by_cases member : j ∈ n.chain
      · rw [if_pos member, records j member]
      · rw [if_neg member, others j same]
  · rw [files', files]
    rfl

end Delete

section States
variable {s s' : Fs}

/-- The same inodes and the same open files give the same access. -/
theorem access_kept {i : BucketIndex} (opened : (s.inodeFileCache i).isSome) (nodes : s'.nodes = s.nodes)
    (files : ∀ j file, s.inodeFileCache j = some file → s'.inodeFileCache j = some file) (ctx : Context) (da dda : Mode)
    (checkStickyOwner : Bool) :
    s'.access (some i) ctx da dda checkStickyOwner = s.access (some i) ctx da dda checkStickyOwner := by
  obtain ⟨file, here⟩ := Option.isSome_iff_exists.mp opened
  exact Fs.access_congr here (files i file here) (fun p _ => by rw [nodes]) ctx da dda checkStickyOwner

theorem Opened.looked {pathPermissions : List BucketIndex} (opened : Opened pathPermissions s s') (p : Path) : Looked p s s' :=
  ⟨opened.slots, opened.accounting, fun _ _ here => opened.files.kept here, fun _ _ here => Or.inl (opened.paths ▸ here)⟩

theorem Same.looked (same : Same s s') (p : Path) : Looked p s s' :=
  ⟨same.slots, same.accounting, fun _ _ here => same.files ▸ here, fun _ _ here => Or.inl (same.paths ▸ here)⟩

private theorem setPath_paths {p x : Path} {k : BucketIndex} (here : (s.setPath x none).pathInodeCache p = some k) :
    s.pathInodeCache p = some k := by
  by_cases same : p = x
  · simp [Fs.setPath, same] at here
  · simpa [Fs.setPath, same] using here

theorem checkUnlink_eq_some {je : Option Wrapper} {parent f : FilePtr} {n : Inode}
    (ran : checkUnlink je parent f n s = some ((), s')) : s = s' := by
  unfold checkUnlink at ran
  split at ran
  · exact (Run.assert_eq_some.mp ran).2
  · cases ran
    rfl

theorem open_kept {k : BucketIndex} (opened : (s.inodeFileCache k).isSome)
    (files : ∀ j file, s.inodeFileCache j = some file → s'.inodeFileCache j = some file) : (s'.inodeFileCache k).isSome := by
  obtain ⟨file, here⟩ := Option.isSome_iff_exists.mp opened
  rw [files k file here]
  rfl

theorem checkRename_eq_some {je : Option Wrapper} {srcparent srcfile dstparent : FilePtr}
    (ran : checkRename je srcparent srcfile dstparent s = some ((), s')) : s = s' := by
  unfold checkRename at ran
  split at ran
  · exact (Run.assert_eq_some.mp ran).2
  · cases ran
    rfl

end States

section Unlink
variable [Floats] {level : Level} {s s' : Fs}

theorem dropLink_spec {i : BucketIndex} {n : Inode} {file : FileObject} {result : Except EE FilePtr} (readable : Readable s.nodes)
    (slot : s.slots i = .node n) (here : s.inodeFileCache i = some file) (ran : dropLink (some i) n s = some (result, s')) :
    (∃ e, e ≠ .ok ∧ result = .error e ∧ s = s') ∨
      (n.type = .DIR ∧ result = .ok (some i) ∧ s = s' ∧ ∀ c, edge s.nodes i c = none) ∨
      (n.type = .INVALID ∧ result = .ok none ∧ s = s') ∨
      (n.type ≠ .DIR ∧ n.type ≠ .INVALID ∧ s' = s.setSlot i (.node { n with nlinks := n.nlinks - 1 }) ∧
        result = .ok (if n.nlinks - 1 ≤ 0 then some i else none)) := by
  have leaf : n.type ≠ .DIR → n.type ≠ .INVALID →
      (do
        modifyINode i (fun n => { n with nlinks := n.nlinks - 1 })
        pure (.ok (if n.nlinks - 1 ≤ 0 then some i else none)) : FsM (Except EE FilePtr)) s = some (result, s') →
      s' = s.setSlot i (.node { n with nlinks := n.nlinks - 1 }) ∧ result = .ok (if n.nlinks - 1 ≤ 0 then some i else none) := by
    intro _ _ ran
    obtain ⟨_, t, modified, ran⟩ := Run.bind_eq_some.mp ran
    obtain ⟨n', slot', rfl⟩ := modifyINode_eq_some.mp modified
    rw [slot] at slot'
    cases slot'
    cases ran
    exact ⟨rfl, rfl⟩
  unfold dropLink at ran
  cases type : n.type with
  | INVALID =>
    rw [type] at ran
    cases ran
    exact Or.inr (Or.inr (Or.inl ⟨rfl, rfl, rfl⟩))
  | DIR =>
    rw [type] at ran
    obtain ⟨full, _, asked, ran⟩ := Run.bind_eq_some.mp ran
    obtain ⟨rfl, empty⟩ := isFullDir_spec readable here asked
    cases full with
    | true =>
      cases ran
      exact Or.inl ⟨.not_empty, by decide, rfl, rfl⟩
    | false =>
      cases ran
      exact Or.inr (Or.inl ⟨rfl, rfl, rfl, empty rfl⟩)
  | FILE =>
    rw [type] at ran
    obtain ⟨same, answer⟩ := leaf (by rw [type]; decide) (by rw [type]; decide) ran
    exact Or.inr (Or.inr (Or.inr ⟨by decide, by decide, same, answer⟩))
  | LNK =>
    rw [type] at ran
    obtain ⟨same, answer⟩ := leaf (by rw [type]; decide) (by rw [type]; decide) ran
    exact Or.inr (Or.inr (Or.inr ⟨by decide, by decide, same, answer⟩))
  | FIFO =>
    rw [type] at ran
    obtain ⟨same, answer⟩ := leaf (by rw [type]; decide) (by rw [type]; decide) ran
    exact Or.inr (Or.inr (Or.inr ⟨by decide, by decide, same, answer⟩))

theorem Looked.walk {p : Path} (looked : Looked p s s') : s'.walk = s.walk := Fs.walk_congr (congrArg edge looked.nodes)

/-- An entry has been removed, and possibly its inode. -/
structure Removed (s s' : Fs) (d : BucketIndex) (c : Name) (q : Path) (i : BucketIndex) : Prop where
  edges : edge s'.nodes = cut (edge s.nodes) d c
  empty : ∀ x, edge s.nodes i x = none
  heads : HeadsBut i s.nodes s'.nodes
  rights : ∀ n', s'.nodes i = some n' → ∃ n, s.nodes i = some n ∧ n'.rights = n.rights
  files : ∀ k file, s.inodeFileCache k = some file → (s'.nodes k).isSome → s'.inodeFileCache k = some file
  paths : ∀ p k, s'.pathInodeCache p = some k → s.pathInodeCache p = some k ∨ p <:+ c :: q

/-- An entry that has been cut, while its inode may have been counted down. -/
structure Cut (s t : Fs) (d : BucketIndex) (c : Name) (i : BucketIndex) : Prop where
  alloc : Alloc t
  readable : Readable t.nodes
  edges : edge t.nodes = cut (edge s.nodes) d c
  heads : HeadsBut i s.nodes t.nodes
  rights : ∀ n', t.nodes i = some n' → ∃ n, s.nodes i = some n ∧ n'.rights = n.rights
  files : OpenedFiles (s.permissions d) s t
  paths : t.pathInodeCache = s.pathInodeCache

/-- The inode goes after its last entry. -/
private theorem Names.cutDelete (names : Names level s) {q : Path} {c : Name} {d i : BucketIndex} {t u : Fs}
    (above : s.walk q = some d) (last : edge s.nodes d c = some i) (done : Cut s t d c i)
    (empty : ∀ c, edge s.nodes i c = none) (unreached : ∀ d' c', edge t.nodes d' c' ≠ some i)
    (deleted : deleteFile i t = some ((), u)) :
    Names level (u.setPath (c :: q) none) ∧ Removed s (u.setPath (c :: q) none) d c q i := by
  obtain ⟨alloc, nodes, paths, files⟩ := deleteFile_spec done.alloc deleted
  have others : ∀ j, j ≠ i → u.nodes j = t.nodes j := by
    intro j other
    rw [nodes, Function.update_of_ne other]
  have gone : u.nodes i = none := by
    rw [nodes, Function.update_self]
  have outside : i ∉ dirs u.nodes := by
    intro member
    obtain ⟨n, here, _⟩ := member
    rw [gone] at here
    cases here
  have sameEdges : edge u.nodes = edge t.nodes := by
    funext j x
    by_cases same : j = i
    · rw [same, edge_of_leaf outside]
      cases found : edge t.nodes i x with
      | none => rfl
      | some k =>
        rw [done.edges] at found
        have old := (cut_eq_some.mp found).2
        rw [empty x] at old
        cases old
    · exact edge_congr (others j same) x
  have readable : Readable u.nodes := by
    intro j member
    have other : j ≠ i := fun same => outside (same ▸ member)
    obtain ⟨n, here, dir⟩ := member
    rw [others j other] at here
    obtain ⟨m, holds⟩ := done.readable j ⟨n, here, dir⟩
    exact ⟨m, holds.congr (others j other)⟩
  have heads : HeadsBut i s.nodes u.nodes := by
    intro j other
    rw [others j other]
    exact done.heads j other
  constructor
  · refine (names.withFiles above done.files).remove (alloc.congr rfl rfl) readable above last (sameEdges.trans done.edges)
      heads empty ?_ (Or.inl ⟨gone, files, fun d' c' found => ?_⟩)
    · change Function.update u.pathInodeCache (c :: q) none = Function.update s.pathInodeCache (c :: q) none
      rw [paths, done.paths]
    · change edge u.nodes d' c' = some i at found
      rw [sameEdges] at found
      exact unreached d' c' found
  · refine ⟨sameEdges.trans done.edges, empty, heads, fun n' here => ?_, fun k file here alive => ?_, fun p k here => Or.inl ?_⟩
    · rw [show (u.setPath (c :: q) none).nodes = u.nodes from rfl, gone] at here
      cases here
    · have other : k ≠ i := by
        intro same
        rw [same, show (u.setPath (c :: q) none).nodes = u.nodes from rfl, gone] at alive
        cases alive
      change u.inodeFileCache k = some file
      rw [files, Function.update_of_ne other]
      exact done.files.kept here
    · have before := setPath_paths here
      rw [paths, done.paths] at before
      exact before

/-- The inode stays behind its other entries. -/
private theorem Names.cutKeep (names : Names level s) {q : Path} {c : Name} {d i : BucketIndex} {t : Fs}
    (above : s.walk q = some d) (last : edge s.nodes d c = some i) (done : Cut s t d c i)
    (empty : ∀ c, edge s.nodes i c = none)
    (kept : ∃ n n', s.nodes i = some n ∧ t.nodes i = some n' ∧ n'.type = n.type ∧ n.type ≠ .DIR ∧
      (0 < n.nlinks ∧ n'.nlinks = n.nlinks - 1 ∨ n'.nlinks = n.nlinks ∧ ¬level.counted)) :
    Names level (t.setPath (c :: q) none) ∧ Removed s (t.setPath (c :: q) none) d c q i := by
  constructor
  · refine (names.withFiles above done.files).remove (done.alloc.congr rfl rfl) done.readable above last done.edges done.heads
      empty ?_ (Or.inr ⟨rfl, kept⟩)
    change Function.update t.pathInodeCache (c :: q) none = Function.update s.pathInodeCache (c :: q) none
    rw [done.paths]
  · refine ⟨done.edges, empty, done.heads, done.rights, fun k file here _ => done.files.kept here, fun p k here => Or.inl ?_⟩
    have before := setPath_paths here
    rw [done.paths] at before
    exact before

theorem Removed.after_looked {d i : BucketIndex} {c : Name} {q : Path} {t : Fs} (looked : Looked (c :: q) s t)
    (removed : Removed t s' d c q i) : Removed s s' d c q i where
  edges := by rw [removed.edges, looked.nodes]
  empty := looked.nodes ▸ removed.empty
  heads := looked.nodes ▸ removed.heads
  rights := looked.nodes ▸ removed.rights
  files := fun k file here alive => removed.files k file (looked.files k file here) alive
  paths := fun p k here => by
    rcases removed.paths p k here with before | inside
    · exact looked.paths p k before
    · exact Or.inr inside

/-- An inode whose last link is cut is not reached any more. -/
private theorem Names.unreached (names : Names level s) {d i : BucketIndex} {c : Name} {n : Inode} {t : Fs}
    (last : edge s.nodes d c = some i) (here : s.nodes i = some n) (edges : edge t.nodes = cut (edge s.nodes) d c)
    (single : n.type = .DIR ∨ n.nlinks - 1 ≤ 0) : ∀ d' c', edge t.nodes d' c' ≠ some i := by
  intro d' c' found
  rw [edges] at found
  obtain ⟨other, old⟩ := cut_eq_some.mp found
  by_cases dir : n.type = .DIR
  · exact other (names.tree.single d' c' d c i ⟨n, here, dir⟩ old last)
  · have one : n.nlinks - 1 ≤ 0 := single.resolve_left dir
    obtain ⟨_, bound⟩ := names.links i n here dir
    have removed := encard_links_cut last i
    rw [if_pos rfl] at removed
    have small : n.nlinks.toNat ≤ 1 := by omega
    have upper : (NameGraph.links (cut (edge s.nodes) d c) i).encard + 1 ≤ 0 + 1 := by
      rw [removed, zero_add]
      exact le_trans bound (by exact_mod_cast small)
    have none := nonpos_iff_eq_zero.mp ((ENat.add_le_add_iff_right ENat.one_ne_top).mp upper)
    have member : (d', c') ∈ NameGraph.links (cut (edge s.nodes) d c) i := found
    rw [Set.encard_eq_zero.mp none] at member
    exact member

/-- What `removeNode` has left when nothing else was changed before. -/
private theorem Relinked.toCut {d i : BucketIndex} {c : Name} {t : Fs} (relinked : Relinked (s.permissions d) s t)
    (edges : edge t.nodes = cut (edge s.nodes) d c) : Cut s t d c i where
  alloc := relinked.alloc
  readable := relinked.readable
  edges := edges
  heads := relinked.heads.but i
  rights := fun n' here => by
    obtain ⟨n, before, head⟩ := relinked.heads.symm.node here
    have rights := congrArg Inode.rights head
    exact ⟨n, before, rights.symm⟩
  files := relinked.files
  paths := relinked.paths

/-- What `removeNode` has left of an inode that was counted down before. -/
private theorem Relinked.toCut_counted {d i : BucketIndex} {c : Name} {n : Inode} {t : Fs} (slot : s.slots i = .node n)
    (leaf : n.type ≠ .DIR)
    (relinked : Relinked (s.permissions d) (s.setSlot i (.node { n with nlinks := n.nlinks - 1 })) t)
    (edges : edge t.nodes = cut (edge (s.setSlot i (.node { n with nlinks := n.nlinks - 1 })).nodes) d c) :
    Cut s t d c i ∧ ∃ n', t.nodes i = some n' ∧ n'.type = n.type ∧ n'.nlinks = n.nlinks - 1 := by
  obtain ⟨sameEdges, _, _⟩ := leaf_modify { n with nlinks := n.nlinks - 1 } slot leaf rfl
  have nodes := Fs.nodes_setSlot_node s i { n with nlinks := n.nlinks - 1 }
  have alive : ∀ j, ((s.setSlot i (.node { n with nlinks := n.nlinks - 1 })).nodes j).isSome → (s.nodes j).isSome := by
    intro j here
    by_cases same : j = i
    · rw [same, Fs.nodes_of_slot slot]
      rfl
    · rw [nodes, Function.update_of_ne same] at here
      exact here
  have here : (s.setSlot i (.node { n with nlinks := n.nlinks - 1 })).nodes i = some { n with nlinks := n.nlinks - 1 }.seen := by
    rw [nodes, Function.update_self]
  obtain ⟨n', there, head⟩ := relinked.heads.node here
  have type := congrArg Inode.type head
  have nlinks := congrArg Inode.nlinks head
  refine ⟨⟨relinked.alloc, relinked.readable, by rw [edges, sameEdges], ?_, ?_, ?_, relinked.paths⟩, n', there, type, nlinks⟩
  · intro j other
    have before := relinked.heads j
    rw [nodes, Function.update_of_ne other] at before
    exact before
  · intro m found
    rw [there] at found
    cases found
    have rights := congrArg Inode.rights head
    exact ⟨n.seen, Fs.nodes_of_slot slot, rights⟩
  · intro j
    rcases relinked.files j with same | ⟨none, member, node, opened⟩
    · exact Or.inl same
    · exact Or.inr ⟨none, member, alive j node, opened⟩

theorem unlinkinner_spec {q : Path} {c : Name} {d i : BucketIndex} {ctx : Context} {je : Option Wrapper} {e : EE}
    (names : Names level s) (above : s.walk q = some d) (last : edge s.nodes d c = some i)
    (openFolder : (s.inodeFileCache d).isSome)
    (safe : ∀ n, s.nodes i = some n → n.type ≠ .DIR →
      (level.counted → n.type ≠ .INVALID) ∧ (n.type ≠ .INVALID → s.access (some d) ctx Access.WX = true))
    (ran : unlinkinner (c :: q) ctx je s = some (e, s')) :
    Names level s' ∧ ((e ≠ .ok ∧ Looked (c :: q) s s') ∨ (e = .ok ∧ Removed s s' d c q i)) := by
  unfold unlinkinner at ran
  obtain ⟨F, s₁, found, ran⟩ := Run.bind_eq_some.mp ran
  obtain ⟨rfl, names₁, looked₁, _⟩ := names.looked found
  obtain ⟨F, s₂, found, ran⟩ := Run.bind_eq_some.mp ran
  obtain ⟨rfl, names₂, looked₂, opened₂⟩ := names₁.looked found
  have looked : Looked (c :: q) s s₂ := looked₁.trans looked₂ (List.suffix_cons c q) (List.suffix_refl _)
  have there : s.walk (c :: q) = some i := (Fs.walk_cons_of above).trans last
  rw [looked₁.walk, there, show s.walk (getParentPath (c :: q)) = some d from above] at ran
  rw [looked₁.walk] at opened₂
  rw [← looked.walk] at above
  rw [← looked.nodes] at last
  obtain ⟨file, here⟩ := Option.isSome_iff_exists.mp (opened₂ i there)
  obtain ⟨n, _, found, ran⟩ := Run.bind_eq_some.mp ran
  obtain ⟨slot, rfl⟩ := INode_eq_some.mp found
  obtain ⟨_, t, checked, ran⟩ := Run.bind_eq_some.mp ran
  obtain rfl := checkUnlink_eq_some checked
  obtain ⟨result, t, dropped, ran⟩ := Run.bind_eq_some.mp ran
  have node := Fs.nodes_of_slot slot
  have readable := names₂.readable
  have notLeaf : n.type = .INVALID → n.seen.type ≠ .DIR := by
    intro invalid dir
    rw [Inode.seen_type, invalid] at dir
    cases dir
  rcases dropLink_spec readable slot here dropped with
    ⟨e', failed, rfl, rfl⟩ | ⟨dir, rfl, rfl, empty⟩ | ⟨invalid, rfl, rfl⟩ | ⟨leaf, valid, rfl, rfl⟩
  · cases ran
    exact ⟨names₂, Or.inl ⟨failed, looked⟩⟩
  · -- a directory: nothing has been changed yet
    obtain ⟨ret, t, removed, ran⟩ := Run.bind_eq_some.mp ran
    rcases removeNode_spec names₂.alloc readable removed with ⟨failed, opened, _⟩ | ⟨rfl, _, _, relinked, edges⟩
    · rw [if_neg failed] at ran
      cases ran
      refine ⟨names₂.opened opened (names₂.listed above), Or.inl ⟨failed, ?_⟩⟩
      exact looked.trans (opened.looked (c :: q)) (List.suffix_refl _) (List.suffix_refl _)
    · rw [if_pos rfl] at ran
      obtain ⟨_, u, deleted, ran⟩ := Run.bind_eq_some.mp ran
      cases ran
      obtain ⟨names', done⟩ := names₂.cutDelete above last (relinked.toCut edges) empty
        (names₂.unreached last node edges (Or.inl dir)) deleted
      exact ⟨names', Or.inr ⟨rfl, done.after_looked looked⟩⟩
  · -- an inode of no type is not counted down
    have outside : i ∉ dirs s₂.nodes := by
      intro member
      obtain ⟨m, found, dir⟩ := member
      rw [node] at found
      cases found
      exact notLeaf invalid dir
    obtain ⟨ret, t, removed, ran⟩ := Run.bind_eq_some.mp ran
    rcases removeNode_spec names₂.alloc readable removed with ⟨failed, opened, _⟩ | ⟨rfl, _, _, relinked, edges⟩
    · rw [if_neg failed] at ran
      cases ran
      refine ⟨names₂.opened opened (names₂.listed above), Or.inl ⟨failed, ?_⟩⟩
      exact looked.trans (opened.looked (c :: q)) (List.suffix_refl _) (List.suffix_refl _)
    · rw [if_pos rfl] at ran
      obtain ⟨_, u, nothing, ran⟩ := Run.bind_eq_some.mp ran
      cases nothing
      cases ran
      obtain ⟨n', there', head⟩ := relinked.heads.node node
      have type := congrArg Inode.type head
      have nlinks := congrArg Inode.nlinks head
      have loose : ¬level.counted := fun strict =>
        (safe n.seen (looked.nodes ▸ node) (notLeaf invalid)).1 strict invalid
      obtain ⟨names', done⟩ := names₂.cutKeep above last (relinked.toCut edges) (edge_of_leaf outside)
        ⟨n.seen, n', node, there', type, notLeaf invalid, Or.inr ⟨nlinks, loose⟩⟩
      exact ⟨names', Or.inr ⟨rfl, done.after_looked looked⟩⟩
  · -- the link has been counted down, so the entry must go
    have outside : i ∉ dirs s₂.nodes := by
      intro member
      obtain ⟨m, found, dir⟩ := member
      rw [node] at found
      cases found
      exact leaf dir
    have notFolder : i ≠ d := by
      intro same
      rw [same] at outside
      exact outside (names₂.tree.source d c i last)
    obtain ⟨sameEdges, _, readable'⟩ := leaf_modify { n with nlinks := n.nlinks - 1 } slot leaf rfl
    have sameChain : ({ n with nlinks := n.nlinks - 1 } : Inode).chain = n.chain := rfl
    obtain ⟨ret, t, removed, ran⟩ := Run.bind_eq_some.mp ran
    have allowed : (s₂.setSlot i (.node { n with nlinks := n.nlinks - 1 })).access (some d) ctx Access.WX = true := by
      obtain ⟨folder, folderHere⟩ := Option.isSome_iff_exists.mp openFolder
      rw [← (safe n.seen (looked.nodes ▸ node) leaf).2 valid]
      have folderThere : (s₂.setSlot i (.node { n with nlinks := n.nlinks - 1 })).inodeFileCache d = some folder :=
        looked.files d folder folderHere
      refine Fs.access_congr folderHere folderThere (fun p _ => ?_) ctx _ _ _
      by_cases same : p = i
      · rw [same]
        unfold Filesystem.folder
        rw [Fs.nodes_setSlot_node, Function.update_self, ← looked.nodes, node]
        rfl
      · unfold Filesystem.folder
        rw [Fs.nodes_setSlot_node, Function.update_of_ne same, looked.nodes]
    rcases removeNode_spec (names₂.alloc.modify slot sameChain).1 (readable' readable) removed with
      ⟨_, _, refused | absent | ⟨folder, folderHere, special⟩⟩ | ⟨rfl, _, _, relinked, edges⟩
    · rw [allowed] at refused
      cases refused
    · rw [sameEdges, show getChildPath (c :: q) = c from rfl, last] at absent
      cases absent
    · rw [names₂.special d folder folderHere special c] at last
      cases last
    · rw [if_pos rfl] at ran
      obtain ⟨done, n', there', type, nlinks⟩ := Relinked.toCut_counted slot leaf relinked edges
      by_cases final : n.nlinks - 1 ≤ 0
      · rw [if_pos final] at ran
        obtain ⟨_, u, deleted, ran⟩ := Run.bind_eq_some.mp ran
        cases ran
        obtain ⟨names', done'⟩ := names₂.cutDelete above last done (edge_of_leaf outside)
          (names₂.unreached last node done.edges (Or.inr final)) deleted
        exact ⟨names', Or.inr ⟨rfl, done'.after_looked looked⟩⟩
      · rw [if_neg final] at ran
        obtain ⟨_, u, nothing, ran⟩ := Run.bind_eq_some.mp ran
        cases nothing
        cases ran
        obtain ⟨names', done'⟩ := names₂.cutKeep above last done (edge_of_leaf outside)
          ⟨n.seen, n', node, there', type, leaf, Or.inl ⟨by rw [Inode.seen_nlinks]; omega, nlinks⟩⟩
        exact ⟨names', Or.inr ⟨rfl, done'.after_looked looked⟩⟩

/-- The state after some lookups. -/
def Fs.lookUp (s : Fs) (paths : List Path) : Fs := paths.foldl (fun s p => ((get p s).map Prod.snd).getD s) s

theorem Fs.lookUp_cons {p : Path} {paths : List Path} {F : FilePtr} {t : Fs} (found : get p s = some (F, t)) :
    s.lookUp (p :: paths) = t.lookUp paths := by
  simp [Fs.lookUp, found]

/-- A link that the call counts down is also removed: whoever may unlink the file by the
list of the file may also write to its directory by the list of the directory. -/
def Removable (level : Level) (s : Fs) (d i : BucketIndex) (ctx : Context) : Prop :=
  ∀ n, s.nodes i = some n → n.type ≠ .DIR → s.access (some i) ctx Access.NONE Access.W true = true →
    (level.counted → n.type ≠ .INVALID) ∧ (n.type ≠ .INVALID → s.access (some d) ctx Access.WX = true)

def Unlinks (level : Level) (s : Fs) (filename : Path) (ctx : Context) : Prop :=
  ∀ d i, s.walk (getParentPath filename) = some d → s.walk filename = some i →
    Removable level (s.lookUp [getParentPath filename, filename]) d i ctx

theorem unlink_spec {filename : Path} {ctx : Context} {e : EE} (names : Names level s) (unlinks : Unlinks level s filename ctx)
    (ran : unlink filename ctx s = some (e, s')) :
    Names level s' ∧ ((e ≠ .ok ∧ Looked filename s s') ∨
      ∃ c q d i, filename = c :: q ∧ s.walk q = some d ∧ edge s.nodes d c = some i ∧ e = .ok ∧ Removed s s' d c q i) := by
  unfold unlink at ran
  obtain ⟨F, s₁, first, ran⟩ := Run.bind_eq_some.mp ran
  obtain ⟨rfl, names₁, looked₁, opened₁⟩ := names.looked first
  obtain ⟨F, s₂, second, ran⟩ := Run.bind_eq_some.mp ran
  obtain ⟨rfl, names₂, looked₂, opened₂⟩ := names₁.looked second
  have looked : Looked filename s s₂ := looked₁.trans looked₂ (List.tail_suffix filename) (List.suffix_refl filename)
  rw [looked₁.walk] at ran
  cases there : s.walk filename with
  | none =>
    rw [there] at ran
    cases ran
    exact ⟨names₂, Or.inl ⟨by decide, looked⟩⟩
  | some i =>
    rw [there] at ran
    obtain ⟨allowed, s₃, checked, ran⟩ := Run.bind_eq_some.mp ran
    obtain ⟨answer, opened⟩ := validate_access_spec checked
    have there₂ : s₂.walk filename = some i := by rw [looked.walk]; exact there
    have names₃ := names₂.opened opened (names₂.listed there₂)
    have looked₃ : Looked filename s s₃ := looked.trans (opened.looked filename) (List.suffix_refl _) (List.suffix_refl _)
    split at ran
    · rename_i granted
      obtain ⟨special, _, asked, ran⟩ := Run.bind_eq_some.mp ran
      obtain ⟨_, rfl⟩ := isSpecial_eq_some.mp asked
      split at ran
      · cases ran
        exact ⟨names₃, Or.inl ⟨by decide, looked₃⟩⟩
      · rename_i ordinary
        have notRoot : i ≠ rootIndex := fun same => ordinary (Or.inr same)
        cases filename with
        | nil =>
          cases there
          exact absurd rfl notRoot
        | cons c q =>
          obtain ⟨d, above, last⟩ := Fs.walk_cons.mp there
          obtain ⟨n, _, found, ran⟩ := Run.bind_eq_some.mp ran
          obtain ⟨slot, rfl⟩ := INode_eq_some.mp found
          obtain ⟨id, s₄, s₅, same, inner, same'⟩ := withEntry_spec ran
          have looked₄ : Looked (c :: q) s s₄ := looked₃.trans (same.looked (c :: q)) (List.suffix_refl _) (List.suffix_refl _)
          have openFolder : (s₂.inodeFileCache d).isSome := by
            obtain ⟨folder, here⟩ := Option.isSome_iff_exists.mp (opened₁ d above)
            rw [looked₂.files d folder here]
            rfl
          have after : s.lookUp [getParentPath (c :: q), c :: q] = s₂ := by
            rw [Fs.lookUp_cons first, Fs.lookUp_cons second]
            rfl
          have removable := unlinks d i above there
          rw [after] at removable
          have nodes : s₄.nodes = s₂.nodes := by rw [looked₄.nodes, looked.nodes]
          have kept : ∀ j file, s₂.inodeFileCache j = some file → s₄.inodeFileCache j = some file := by
            intro j file here
            rw [same.files]
            exact opened.files.kept here
          have openFolder₄ : (s₄.inodeFileCache d).isSome := by
            obtain ⟨folder, here⟩ := Option.isSome_iff_exists.mp openFolder
            rw [kept d folder here]
            rfl
          obtain ⟨names₅, done⟩ := unlinkinner_spec (names₃.same same) (looked₄.walk ▸ above) (looked₄.nodes ▸ last) openFolder₄
            (fun m here leaf => by
              obtain ⟨typed, allowed'⟩ := removable m (nodes ▸ here) leaf (answer ▸ granted)
              refine ⟨typed, fun valid => ?_⟩
              rw [access_kept openFolder nodes kept]
              exact allowed' valid) inner
          refine ⟨names₅.same same', ?_⟩
          rcases done with ⟨failed, looked₅⟩ | ⟨rfl, removed⟩
          · left
            exact ⟨failed, (looked₄.trans looked₅ (List.suffix_refl _) (List.suffix_refl _)).trans (same'.looked (c :: q))
              (List.suffix_refl _) (List.suffix_refl _)⟩
          · right
            have removed' := removed.after_looked looked₄
            exact ⟨c, q, d, i, rfl, above, last, rfl, by rw [same'.nodes]; exact removed'.edges, removed'.empty,
              by rw [same'.nodes]; exact removed'.heads, by rw [same'.nodes]; exact removed'.rights,
              by rw [same'.nodes, same'.files]; exact removed'.files, by rw [same'.paths]; exact removed'.paths⟩
    · cases ran
      exact ⟨names₃, Or.inl ⟨by decide, looked₃⟩⟩

end Unlink

section Rename
variable [Floats] {level : Level} {s s' : Fs}

/-- What moving `c :: q` to `dest` asks of a state in which all is looked up: the new place
does not lie below the old one, nothing below the old one is cached, the new entry fits,
the old one can be removed, and so can what is at the new place. -/
structure Ready (level : Level) (s : Fs) (c : Name) (q dest : Path) (d d' i : BucketIndex) (ctx : Context) : Prop where
  above : s.walk q = some d
  last : edge s.nodes d c = some i
  above' : s.walk (getParentPath dest) = some d'
  folder : (s.inodeFileCache d).isSome
  folder' : (s.inodeFileCache d').isSome
  file : (s.inodeFileCache i).isSome
  outside : ¬c :: q <:+ dest
  unseen : ∀ p j, s.pathInodeCache p = some j → c :: q <:+ p → p = c :: q
  fits : d' ∈ dirs s.nodes → Fits s.nodes d' (getChildPath dest) i
  dir : level.counted → d' ∈ dirs s.nodes
  sameParent : level.permitted → d = d'
  safe : s.access (some d) ctx Access.WX = true
  replaced : ∀ j, s.walk dest = some j →
    (s.inodeFileCache j).isSome ∧ (ctx.uid ≠ 0 → j ∉ s.permissions d) ∧ Removable level s d' j ctx

variable {c : Name} {q dest : Path} {d d' i : BucketIndex} {ctx : Context}

theorem Ready.looked (ready : Ready level s c q dest d d' i ctx) {p : Path} (looked : Looked p s s')
    (elsewhere : p <:+ c :: q ∨ ¬c :: q <:+ p) : Ready level s' c q dest d d' i ctx where
  above := looked.walk ▸ ready.above
  last := looked.nodes ▸ ready.last
  above' := looked.walk ▸ ready.above'
  folder := open_kept ready.folder looked.files
  folder' := open_kept ready.folder' looked.files
  file := open_kept ready.file looked.files
  outside := ready.outside
  unseen := fun x j here inside => by
    rcases looked.paths x j here with before | part
    · exact ready.unseen x j before inside
    · rcases elsewhere with above | apart
      · exact (part.trans above).eq_of_length_le inside.length_le
      · exact absurd (inside.trans part) apart
  fits := looked.nodes ▸ ready.fits
  dir := looked.nodes ▸ ready.dir
  sameParent := ready.sameParent
  safe := by
    rw [access_kept ready.folder looked.nodes looked.files]
    exact ready.safe
  replaced := fun j found => by
    rw [looked.walk] at found
    obtain ⟨opened, apart, removable⟩ := ready.replaced j found
    refine ⟨open_kept opened looked.files, fun other => ?_, fun n here leaf granted => ?_⟩
    · obtain ⟨file, here⟩ := Option.isSome_iff_exists.mp ready.folder
      rw [Fs.permissions_of_file (looked.files d file here), ← Fs.permissions_of_file here]
      exact apart other
    · rw [looked.nodes] at here
      rw [access_kept opened looked.nodes looked.files] at granted
      rw [access_kept ready.folder' looked.nodes looked.files]
      exact removable n here leaf granted

/-- The file at the new place goes; the old place and both directories are still there. -/
theorem Ready.removed (ready : Ready level s c q dest d d' i ctx) (names : Names level s) (names' : Names level s')
    {c' : Name} {q' : Path} {e j : BucketIndex} (shape : dest = c' :: q') (above : s.walk q' = some e)
    (last : edge s.nodes e c' = some j) (removed : Removed s s' e c' q' j) :
    Ready level s' c q dest d d' i ctx := by
  subst shape
  have apart := (ready.replaced j (Fs.walk_cons.mpr ⟨e, above, last⟩)).2.1
  have sameFolder : e = d' := by
    have found := ready.above'
    rw [show getParentPath (c' :: q') = q' from rfl, above] at found
    exact Option.some.inj found
  subst sameFolder
  have notSource : ¬(d = e ∧ c = c') := by
    intro ⟨sameDir, sameName⟩
    have same := names.tree.walk_unique (names.tree.source d c i ready.last) ready.above (sameDir ▸ above)
    apply ready.outside
    rw [same, sameName]
  have last' : edge s'.nodes d c = some i := by
    rw [removed.edges]
    exact cut_eq_some.mpr ⟨notSource, ready.last⟩
  have kept : ∀ x y k, edge s.nodes x y = some k → ¬(x = e ∧ y = c') → edge s'.nodes x y = some k := by
    intro x y k found other
    rw [removed.edges]
    exact cut_eq_some.mpr ⟨other, found⟩
  have folderAlive : d ≠ j := by
    intro same
    have none := removed.empty c
    rw [← same, ready.last] at none
    cases none
  have folderAlive' : e ≠ j := by
    intro same
    have none := removed.empty c'
    rw [← same, last] at none
    cases none
  have dirE : e ∈ dirs s.nodes := names.tree.source e c' j last
  have walkKept : ∀ p k, s.walk p = some k → ¬c' :: q' <:+ p → s'.walk p = some k :=
    fun p k found outside => names.tree.walk_cut above dirE kept found outside
  have above₁ : s'.walk q = some d := by
    refine walkKept q d ready.above ?_
    intro inside
    have there : NameGraph.walk (edge s.nodes) rootIndex (c' :: q') = some j := Fs.walk_cons.mpr ⟨e, above, last⟩
    rcases walk_suffix ready.above inside with same | ⟨k, x, k', atEnd, further⟩
    · have found := ready.above
      rw [← same] at found
      exact folderAlive (Option.some.inj (found.symm.trans there))
    · rw [there] at atEnd
      cases atEnd
      rw [removed.empty x] at further
      cases further
  have above₂ : s'.walk q' = some e := by
    refine walkKept q' e above ?_
    intro inside
    have long := inside.length_le
    rw [List.length_cons] at long
    omega
  have fileKept : ∀ k, (s.inodeFileCache k).isSome → (s'.nodes k).isSome → (s'.inodeFileCache k).isSome := by
    intro k opened alive
    obtain ⟨file, here⟩ := Option.isSome_iff_exists.mp opened
    rw [removed.files k file here alive]
    rfl
  have aliveFolder := names'.walk_alive above₁
  have aliveFolder' := names'.walk_alive above₂
  refine ⟨above₁, last', above₂, fileKept d ready.folder aliveFolder, fileKept e ready.folder' aliveFolder',
    fileKept i ready.file (names'.live d c i last'), ready.outside, ?_, ?_, ?_, ready.sameParent, ?_, ?_⟩
  · intro p k here inside
    rcases removed.paths p k here with before | part
    · exact ready.unseen p k before inside
    · exact absurd (inside.trans part) ready.outside
  · intro _
    obtain ⟨isName, index, storable⟩ := ready.fits dirE
    refine ⟨isName, index, fun m find => storable m (fun x => ?_)⟩
    rw [find, removed.edges]
    by_cases same : x = getChildPath (c' :: q')
    · rw [if_pos same, if_pos same]
    · rw [if_neg same, if_neg same, cut, if_neg (fun both => same both.2)]
  · intro _
    exact (removed.heads.mem_dirs folderAlive').mpr dirE
  · obtain ⟨file, here⟩ := Option.isSome_iff_exists.mp ready.folder
    have here' := removed.files d file here aliveFolder
    by_cases root : ctx.uid = 0
    · simp [Fs.access, here', root]
    · rw [← ready.safe]
      refine Fs.access_congr here here' (fun p member => ?_) ctx _ _ _
      have other : p ≠ j := by
        intro same
        rcases member with isFolder | listed
        · exact folderAlive (isFolder.symm.trans same)
        · rw [← Fs.permissions_of_file here, same] at listed
          exact apart root listed
      unfold Filesystem.folder
      have head := removed.heads p other
      cases before : s.nodes p with
      | none =>
        rw [before, Option.map_none, Option.map_eq_none_iff] at head
        rw [head]
      | some n =>
        rw [before, Option.map_some] at head
        obtain ⟨n', there, equal⟩ := Option.map_eq_some_iff.mp head
        rw [there]
        have rights := congrArg Inode.rights equal
        exact rights
  · intro k found
    rw [Fs.walk_cons_of above₂, removed.edges, cut_self] at found
    cases found

/-- What is at the new place can be removed as far as it must be. -/
theorem Ready.unlinks (ready : Ready level s c q dest d d' i ctx) (names : Names level s) : Unlinks level s dest ctx := by
  intro e j above there
  obtain ⟨v, first, names₁, looked₁, _⟩ := names.get (getParentPath dest)
  obtain ⟨w, second, _, looked₂, _⟩ := names₁.get dest
  have after : s.lookUp [getParentPath dest, dest] = w := by
    rw [Fs.lookUp_cons first, Fs.lookUp_cons second]
    rfl
  have all : Looked dest s w := looked₁.trans looked₂ (List.tail_suffix dest) (List.suffix_refl _)
  rw [ready.above'] at above
  cases above
  rw [after]
  exact ((ready.looked all (Or.inr ready.outside)).replaced j (all.walk ▸ there)).2.2

theorem Ready.unlinked {e : EE} (ready : Ready level s c q dest d d' i ctx) (names : Names level s)
    (ran : unlink dest ctx s = some (e, s')) : Names level s' ∧ Ready level s' c q dest d d' i ctx := by
  obtain ⟨names', done⟩ := unlink_spec names (ready.unlinks names) ran
  refine ⟨names', ?_⟩
  rcases done with ⟨_, looked⟩ | ⟨c', q', e', j, shape, above, last, _, gone⟩
  · exact ready.looked looked (Or.inr ready.outside)
  · exact ready.removed names names' shape above last gone

/-- The file at its new place, with the state in which it was entered. -/
theorem moveIn_spec {je : Option Wrapper} {e : EE} (names : Names level s) (ready : Ready level s c q dest d d' i ctx)
    (ran : moveIn (some d') dest i ctx je s = some (e, s')) :
    (e ≠ .ok ∧ Names level s') ∨
      (e = .ok ∧ ∃ u, Names level u ∧ Ready level u c q dest d d' i ctx ∧ edge u.nodes d' (getChildPath dest) = none ∧
        Relinked (u.permissions d') u s' ∧ ∃ file, u.inodeFileCache d' = some file ∧
          ((d' ∈ dirs u.nodes ∧ file.special = false ∧ edge s'.nodes = link (edge u.nodes) d' (getChildPath dest) i) ∨
            (d' ∉ dirs u.nodes ∧ edge s'.nodes = edge u.nodes))) := by
  -- one attempt to enter the file
  have enter : ∀ {u v : Fs} {e : EE}, Names level u → Ready level u c q dest d d' i ctx →
      addNode (some d') (getChildPath dest) i ctx je u = some (e, v) →
      (e ≠ .ok ∧ Opened (u.permissions d') u v ∧ Names level v) ∨
      (e = .ok ∧ edge u.nodes d' (getChildPath dest) = none ∧
        Relinked (u.permissions d') u v ∧ ∃ file, u.inodeFileCache d' = some file ∧
          ((d' ∈ dirs u.nodes ∧ file.special = false ∧ edge v.nodes = link (edge u.nodes) d' (getChildPath dest) i) ∨
            (d' ∉ dirs u.nodes ∧ edge v.nodes = edge u.nodes))) := by
    intro u v e names ready added
    rcases addNode_spec names.alloc names.readable (fun _ => ready.fits) added with ⟨failed, opened⟩ | done
    · exact Or.inl ⟨failed, opened, names.opened opened (names.listed ready.above')⟩
    · exact Or.inr done
  unfold moveIn at ran
  obtain ⟨error, t, added, ran⟩ := Run.bind_eq_some.mp ran
  rcases enter names ready added with ⟨failed, opened, names₁⟩ | ⟨rfl, absent, relinked, edges⟩
  · by_cases already : error = .exists
    · rw [if_pos already] at ran
      obtain ⟨removed, u, unlinked, ran⟩ := Run.bind_eq_some.mp ran
      have looked := opened.looked dest
      have ready₁ := ready.looked looked (Or.inr ready.outside)
      obtain ⟨names₂, ready₂⟩ := ready₁.unlinked names₁ unlinked
      rcases enter names₂ ready₂ ran with ⟨failed, _, names₃⟩ | ⟨isOk, absent, relinked, edges⟩
      · exact Or.inl ⟨failed, names₃⟩
      · exact Or.inr ⟨isOk, u, names₂, ready₂, absent, relinked, edges⟩
    · rw [if_neg already] at ran
      cases ran
      exact Or.inl ⟨failed, names₁⟩
  · rw [if_neg (by decide)] at ran
    cases ran
    exact Or.inr ⟨rfl, s, names, ready, absent, relinked, edges⟩

/-- The old place is given up, after the file has been entered at the new one. -/
theorem moveOut_spec {je : Option Wrapper} {e : EE} {u : Fs} {file : FileObject} (names : Names level u)
    (ready : Ready level u c q dest d d' i ctx) (absent : edge u.nodes d' (getChildPath dest) = none)
    (relinked : Relinked (u.permissions d') u s) (folder : u.inodeFileCache d' = some file)
    (edges : (d' ∈ dirs u.nodes ∧ file.special = false ∧ edge s.nodes = link (edge u.nodes) d' (getChildPath dest) i) ∨
      (d' ∉ dirs u.nodes ∧ edge s.nodes = edge u.nodes))
    (ran : removeNode (some d) c ctx je s = some (e, s')) :
    e = .ok ∧ Names level ((s'.setPath (c :: q) none).setPath dest none) := by
  have last : edge s.nodes d c = some i := by
    rcases edges with ⟨_, _, edges⟩ | ⟨_, edges⟩
    · rw [edges]
      exact link_mono absent i d c i ready.last
    · rw [edges]
      exact ready.last
  obtain ⟨source, here⟩ := Option.isSome_iff_exists.mp ready.folder
  have here' := relinked.files.kept here
  have allowed : s.access (some d) ctx Access.WX = true := by
    rw [← ready.safe]
    exact Fs.access_congr here here' (fun p _ => relinked.heads.folder_rights p) ctx _ _ _
  have plain : source.special = false := by
    by_contra special
    have none := names.special d source here (by simpa using special) c
    rw [ready.last] at none
    cases none
  rcases removeNode_spec relinked.alloc relinked.readable ran with
    ⟨_, _, refused | none | ⟨file', here'', special⟩⟩ | ⟨isOk, _, _, relinked', edges'⟩
  · rw [allowed] at refused
    cases refused
  · rw [last] at none
    cases none
  · rw [here'] at here''
    cases here''
    rw [plain] at special
    cases special
  · refine ⟨isOk, ?_⟩
    have names₁ := names.withFiles ready.above' relinked.files
    have sameList : (u.withFiles s).permissions d = s.permissions d := rfl
    have alive : ∀ j, (s.nodes j).isSome → ((u.withFiles s).nodes j).isSome := fun j there => relinked.heads.symm.alive there
    have files : OpenedFiles ((u.withFiles s).permissions d) (u.withFiles s) s' := by
      intro j
      rcases relinked'.files j with same | ⟨none, member, node, opened⟩
      · exact Or.inl same
      · exact Or.inr ⟨none, sameList ▸ member, alive j node, opened⟩
    have names₂ := names₁.withFiles ready.above files
    have kept : ∀ k file, u.inodeFileCache k = some file → s'.inodeFileCache k = some file :=
      fun k file there => relinked'.files.kept (relinked.files.kept there)
    have outside : ¬c :: q <:+ getParentPath dest := fun inside => ready.outside (inside.trans (List.tail_suffix dest))
    refine names₂.move (relinked'.alloc.congr rfl rfl) relinked'.readable (relinked.heads.trans relinked'.heads) rfl ready.above ready.last
      (open_kept ready.file kept) ready.above' absent outside (kept d' file folder) ?_ (fun p j there => ready.unseen p j there) ?_ ready.sameParent
    · rcases edges with ⟨dir, notSpecial, edges⟩ | ⟨outside, edges⟩
      · exact Or.inl ⟨dir, notSpecial, edges'.trans (congrArg (fun links => cut links d c) edges)⟩
      · exact Or.inr ⟨fun strict => outside (ready.dir strict), edges'.trans (congrArg (fun links => cut links d c) edges)⟩
    · intro p j there
      have before : p ≠ c :: q ∧ s'.pathInodeCache p = some j := by
        have first := setPath_paths there
        refine ⟨fun same => ?_, setPath_paths first⟩
        rw [same] at first
        simp [Fs.setPath] at first
      refine ⟨before.1, ?_⟩
      have there' := before.2
      rw [relinked'.paths, relinked.paths] at there'
      exact there'

theorem renamemoveinner_spec {je : Option Wrapper} {e : EE} (names : Names level s) (ready : Ready level s c q dest d d' i ctx)
    (ran : renamemoveinner (c :: q) dest ctx je s = some (e, s')) : Names level s' := by
  have belowDest : ∀ {p : Path}, p <:+ dest → p <:+ c :: q ∨ ¬c :: q <:+ p := fun part =>
    Or.inr (fun inside => ready.outside (inside.trans part))
  unfold renamemoveinner at ran
  obtain ⟨F₁, s₁, first, ran⟩ := Run.bind_eq_some.mp ran
  obtain ⟨found₁, names₁, looked₁, _⟩ := names.looked first
  have ready₁ := ready.looked looked₁ (Or.inl (List.suffix_cons c q))
  obtain ⟨F₂, s₂, second, ran⟩ := Run.bind_eq_some.mp ran
  obtain ⟨found₂, names₂, looked₂, _⟩ := names₁.looked second
  have ready₂ := ready₁.looked looked₂ (belowDest (List.tail_suffix dest))
  obtain ⟨F₃, s₃, third, ran⟩ := Run.bind_eq_some.mp ran
  obtain ⟨found₃, names₃, looked₃, _⟩ := names₂.looked third
  have ready₃ := ready₂.looked looked₃ (Or.inl (List.suffix_refl _))
  obtain ⟨F₄, s₄, fourth, ran⟩ := Run.bind_eq_some.mp ran
  obtain ⟨_, names₄, looked₄, _⟩ := names₃.looked fourth
  have ready₄ := ready₃.looked looked₄ (belowDest (List.suffix_refl _))
  obtain ⟨_, _, checked, ran⟩ := Run.bind_eq_some.mp ran
  obtain rfl := checkRename_eq_some checked
  have srcparent : F₁ = some d := found₁.trans ready.above
  have dstparent : F₂ = some d' := found₂.trans ready₁.above'
  have srcfile : F₃ = some i := found₃.trans (Fs.walk_cons.mpr ⟨d, ready₂.above, ready₂.last⟩)
  subst srcparent dstparent srcfile
  obtain ⟨error, t, moved, ran⟩ := Run.bind_eq_some.mp ran
  rcases moveIn_spec names₄ ready₄ moved with ⟨failed, names₅⟩ | ⟨rfl, u, names₅, ready₅, absent, relinked, file, folder, edges⟩
  · rw [if_pos failed] at ran
    cases ran
    exact names₅
  · rw [if_neg (fun no => no rfl)] at ran
    obtain ⟨error, v, removed, ran⟩ := Run.bind_eq_some.mp ran
    obtain ⟨rfl, names₆⟩ := moveOut_spec names₅ ready₅ absent relinked folder edges removed
    rw [if_neg (fun no => no rfl)] at ran
    cases ran
    exact names₆

/-- The conditions on a call that moves a file, once the caller passes the first check. -/
def Renames (level : Level) (s : Fs) (source dest : Path) (ctx : Context) : Prop :=
  ∀ d d' i, s.walk (getParentPath source) = some d → s.walk (getParentPath dest) = some d' → s.walk source = some i →
    (s.lookUp [getParentPath source, getParentPath dest, source, dest]).access (some i) ctx Access.NONE Access.WX true = true →
    ¬source <:+ dest ∧ (∀ p j, s.pathInodeCache p = some j → source <:+ p → p = source) ∧
    (d' ∈ dirs s.nodes → Fits s.nodes d' (getChildPath dest) i) ∧ (level.counted → d' ∈ dirs s.nodes) ∧
    (level.permitted → d = d') ∧
    (s.lookUp [getParentPath source, getParentPath dest, source, dest]).access (some d) ctx Access.WX = true ∧
    ∀ j, s.walk dest = some j →
      (ctx.uid ≠ 0 → j ∉ (s.lookUp [getParentPath source, getParentPath dest, source, dest]).permissions d) ∧
      Removable level (s.lookUp [getParentPath source, getParentPath dest, source, dest]) d' j ctx

/-- A file that is not to be replaced: it has an entry, or it cannot be read. -/
def NotReplaced (s : Fs) (dest : Path) (file : BucketIndex → Option FileObject) : Prop :=
  ∃ j object, s.walk dest = some j ∧ file j = some object ∧ (object.special = true ∨ ∃ c, edge s.nodes j c ≠ none)

private theorem checkReplaced_refused {e : EE} (readable : Readable s.nodes)
    (opened : ∀ j, s.walk dest = some j → (s.inodeFileCache j).isSome) (ran : checkReplaced (s.walk dest) ctx s = some (some e, s')) :
    e = .access_denied ∨ (e = .not_empty ∧ NotReplaced s dest s.inodeFileCache) := by
  unfold checkReplaced at ran
  cases there : s.walk dest with
  | none =>
    rw [there] at ran
    cases ran
  | some j =>
    rw [there] at ran
    obtain ⟨_, t, checked, ran⟩ := Run.bind_eq_some.mp ran
    obtain ⟨_, looked⟩ := validate_access_spec checked
    split at ran
    · cases ran
      exact Or.inl rfl
    · obtain ⟨full, u, asked, ran⟩ := Run.bind_eq_some.mp ran
      split at ran
      · rename_i isFull
        cases ran
        obtain ⟨object, here⟩ := Option.isSome_iff_exists.mp (opened j there)
        have why := isFullDir_full (looked.nodes ▸ readable) (looked.files.kept here) (isFull ▸ asked)
        rw [looked.nodes] at why
        exact Or.inr ⟨rfl, j, object, there, here, why⟩
      · cases ran

private theorem checkReplaced_spec {result : Option EE} (names : Names level s)
    (ran : checkReplaced (s.walk dest) ctx s = some (result, s')) : Names level s' ∧ Looked [] s s' := by
  unfold checkReplaced at ran
  cases there : s.walk dest with
  | none =>
    rw [there] at ran
    cases ran
    exact ⟨names, Looked.refl _ _⟩
  | some j =>
    rw [there] at ran
    obtain ⟨allowed, t, checked, ran⟩ := Run.bind_eq_some.mp ran
    obtain ⟨answer, opened⟩ := validate_access_spec checked
    have names' := names.opened opened (names.listed there)
    have looked := opened.looked []
    split at ran
    · cases ran
      exact ⟨names', looked⟩
    · rename_i granted
      have isOpen : (s.inodeFileCache j).isSome := by
        by_contra closed
        have none : s.inodeFileCache j = none := by simpa using closed
        rw [answer] at granted
        simp [Fs.access, none] at granted
      obtain ⟨file, here⟩ := Option.isSome_iff_exists.mp isOpen
      obtain ⟨full, u, asked, ran⟩ := Run.bind_eq_some.mp ran
      obtain ⟨rfl, _⟩ := isFullDir_spec names'.readable (looked.files j file here) asked
      split at ran
      · cases ran
        exact ⟨names', looked⟩
      · cases ran
        exact ⟨names', looked⟩

/-- A move is refused before it changes anything, or comes to its second part. -/
theorem renamemove_ready {source : Path} {e : EE} (names : Names level s) (renames : Renames level s source dest ctx)
    (ran : renamemove source dest ctx s = some (e, s')) :
    (((e = .entity_not_found ∧ ∃ p ∈ [getParentPath source, source, getParentPath dest], s.walk p = none) ∨
        e = .access_denied ∨ (e = .not_empty ∧ NotReplaced s dest
          (s.lookUp [getParentPath source, getParentPath dest, source, dest]).inodeFileCache)) ∧ Names level s' ∧ s'.nodes = s.nodes) ∨
      ∃ c q d d' i je t u, source = c :: q ∧ Names level t ∧ Ready level t c q dest d d' i ctx ∧ t.nodes = s.nodes ∧
        renamemoveinner (c :: q) dest ctx je t = some (e, u) ∧ Same u s' := by
  unfold renamemove at ran
  obtain ⟨F₁, s₁, first, ran⟩ := Run.bind_eq_some.mp ran
  obtain ⟨found₁, names₁, looked₁, opened₁⟩ := names.looked first
  obtain ⟨F₂, s₂, second, ran⟩ := Run.bind_eq_some.mp ran
  obtain ⟨found₂, names₂, looked₂, opened₂⟩ := names₁.looked second
  obtain ⟨F₃, s₃, third, ran⟩ := Run.bind_eq_some.mp ran
  obtain ⟨found₃, names₃, looked₃, opened₃⟩ := names₂.looked third
  obtain ⟨F₄, s₄, fourth, ran⟩ := Run.bind_eq_some.mp ran
  obtain ⟨found₄, names₄, looked₄, opened₄⟩ := names₃.looked fourth
  have walk₂ : s₂.walk = s.walk := looked₂.walk.trans looked₁.walk
  have walk₃ : s₃.walk = s.walk := looked₃.walk.trans walk₂
  have walk₄ : s₄.walk = s.walk := looked₄.walk.trans walk₃
  have nodes₄ : s₄.nodes = s.nodes := by rw [looked₄.nodes, looked₃.nodes, looked₂.nodes, looked₁.nodes]
  rw [looked₁.walk] at found₂ opened₂
  rw [walk₂] at found₃ opened₃
  rw [walk₃, ← walk₄] at found₄
  rw [walk₃] at opened₄
  have after : s.lookUp [getParentPath source, getParentPath dest, source, dest] = s₄ := by
    rw [Fs.lookUp_cons first, Fs.lookUp_cons second, Fs.lookUp_cons third, Fs.lookUp_cons fourth]
    rfl
  split at ran
  · rename_i missing
    cases ran
    refine Or.inl ⟨Or.inl ⟨rfl, ?_⟩, names₄, nodes₄⟩
    rcases missing with noParent | noFile | noParent
    · exact ⟨getParentPath source, by simp, found₁.symm.trans noParent⟩
    · exact ⟨source, by simp, found₃.symm.trans noFile⟩
    · exact ⟨getParentPath dest, by simp, found₂.symm.trans noParent⟩
  · rename_i present
    have present₁ : F₁ ≠ none := fun no => present (Or.inl no)
    have present₂ : F₂ ≠ none := fun no => present (Or.inr (Or.inr no))
    have present₃ : F₃ ≠ none := fun no => present (Or.inr (Or.inl no))
    obtain ⟨d, isFolder⟩ := Option.ne_none_iff_exists'.mp present₁
    obtain ⟨d', isFolder'⟩ := Option.ne_none_iff_exists'.mp present₂
    obtain ⟨i, isFile⟩ := Option.ne_none_iff_exists'.mp present₃
    have above : s.walk (getParentPath source) = some d := found₁.symm.trans isFolder
    have above' : s.walk (getParentPath dest) = some d' := found₂.symm.trans isFolder'
    have there : s.walk source = some i := found₃.symm.trans isFile
    obtain ⟨allowed, s₅, checked, ran⟩ := Run.bind_eq_some.mp ran
    rw [isFile] at checked
    obtain ⟨answer, opened⟩ := validate_access_spec checked
    have names₅ := names₄.opened opened (names₄.listed (walk₄ ▸ there))
    split at ran
    · cases ran
      exact Or.inl ⟨Or.inr (Or.inl rfl), names₅, opened.nodes.trans nodes₄⟩
    · rename_i granted
      have conditions := renames d d' i above above' there
      rw [after] at conditions
      have granted' : s₄.access (some i) ctx Access.NONE Access.WX true = true := by
        rw [← answer]
        simpa using granted
      obtain ⟨outside, unseen, fits, dir, sameParent, safe, replaced⟩ := conditions granted'
      cases source with
      | nil => exact absurd (List.nil_suffix) outside
      | cons c q =>
        have folder : (s₄.inodeFileCache d).isSome :=
          open_kept (open_kept (open_kept (opened₁ d above) looked₂.files) looked₃.files) looked₄.files
        have folder' : (s₄.inodeFileCache d').isSome := open_kept (open_kept (opened₂ d' above') looked₃.files) looked₄.files
        have file : (s₄.inodeFileCache i).isSome := open_kept (opened₃ i there) looked₄.files
        have unseen₄ : ∀ p j, s₄.pathInodeCache p = some j → c :: q <:+ p → p = c :: q := by
          have inDest : ∀ {p : Path}, p <:+ dest → c :: q <:+ p → p = c :: q := fun part inside =>
            absurd (inside.trans part) outside
          have inSource : ∀ {p : Path}, p <:+ c :: q → c :: q <:+ p → p = c :: q := fun part inside =>
            part.eq_of_length_le inside.length_le
          intro p j here inside
          rcases looked₄.paths p j here with here | part
          · rcases looked₃.paths p j here with here | part
            · rcases looked₂.paths p j here with here | part
              · rcases looked₁.paths p j here with here | part
                · exact unseen p j here inside
                · exact inSource (part.trans (List.suffix_cons c q)) inside
              · exact inDest (part.trans (List.tail_suffix dest)) inside
            · exact inSource part inside
          · exact inDest part inside
        have last : edge s.nodes d c = some i := (Fs.walk_cons_of above).symm.trans there
        have ready : Ready level s₄ c q dest d d' i ctx :=
          ⟨walk₄ ▸ above, nodes₄ ▸ last, walk₄ ▸ above', folder, folder', file, outside, unseen₄, nodes₄ ▸ fits, nodes₄ ▸ dir,
            sameParent, safe, fun j found => ⟨open_kept (opened₄ j (walk₄ ▸ found)) (fun _ _ here => here), replaced j (walk₄ ▸ found)⟩⟩
        have nothing : ∀ {p : Path}, p = [] → p <:+ c :: q ∨ ¬c :: q <:+ p := fun empty => Or.inl (empty ▸ List.nil_suffix)
        have looked₅ := opened.looked []
        have ready₅ := ready.looked looked₅ (nothing rfl)
        obtain ⟨denied, s₆, asked, ran⟩ := Run.bind_eq_some.mp ran
        rw [found₄, ← looked₅.walk] at asked
        obtain ⟨names₆, looked₆⟩ := checkReplaced_spec names₅ asked
        have ready₆ := ready₅.looked looked₆ (nothing rfl)
        have nodes₆ : s₆.nodes = s.nodes := by rw [looked₆.nodes, opened.nodes, nodes₄]
        cases denied with
        | some error =>
          have nodes₅ : s₅.nodes = s.nodes := opened.nodes.trans nodes₄
          have walk₅ : s₅.walk = s.walk := looked₅.walk.trans walk₄
          have refused := checkReplaced_refused names₅.readable
            (fun j found => open_kept (opened₄ j (walk₅ ▸ found)) looked₅.files) asked
          cases ran
          refine Or.inl ⟨Or.inr (refused.imp id ?_), names₆, nodes₆⟩
          rintro ⟨rfl, j, object, found, here, why⟩
          rw [walk₅] at found
          rw [nodes₅] at why
          obtain ⟨object', before⟩ := Option.isSome_iff_exists.mp (opened₄ j found)
          cases here.symm.trans (looked₅.files j object' before)
          exact ⟨rfl, j, object, found, after ▸ before, why⟩
        | none =>
          obtain ⟨id, s₇, s₈, same, inner, same'⟩ := withEntry_spec ran
          have ready₇ := ready₆.looked (same.looked []) (nothing rfl)
          exact Or.inr ⟨c, q, d, d', i, _, s₇, s₈, rfl, names₆.same same, ready₇, same.nodes.trans nodes₆, inner, same'⟩

theorem renamemove_spec {source : Path} {e : EE} (names : Names level s) (renames : Renames level s source dest ctx)
    (ran : renamemove source dest ctx s = some (e, s')) : Names level s' := by
  rcases renamemove_ready names renames ran with ⟨_, names', _⟩ | ⟨c, q, d, d', i, je, t, u, rfl, names', ready, _, inner, same⟩
  · exact names'
  · exact (renamemoveinner_spec names' ready inner).same same

end Rename

end CloudCryptFS.Filesystem
