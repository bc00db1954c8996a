import CloudCryptFS.Filesystem.Access
import CloudCryptFS.Util.Schedule

/-! Who changes the mode, the owner and the group of a file. `chown` asks for the owner;
`chmod` lets others pass who may write the file. -/

namespace CloudCryptFS.Filesystem
open Util Script

inductive AttributeCall where
  | chmod (i : BucketIndex) (mod : Mode) (ctx : Context)
  | chown (i : BucketIndex) (uid gid : UInt32) (ctx : Context)

namespace AttributeCall

def file : AttributeCall → BucketIndex
  | .chmod i _ _ => i
  | .chown i _ _ _ => i

def context : AttributeCall → Context
  | .chmod _ _ ctx => ctx
  | .chown _ _ _ ctx => ctx

def run : AttributeCall → FsM EE
  | .chmod i mod ctx => Filesystem.chmod (some i) mod ctx
  | .chown i uid gid ctx => Filesystem.chown (some i) uid gid ctx

end AttributeCall

structure Attributes where
  mode : Mode
  uid : UInt32
  gid : UInt32
  deriving DecidableEq

def Inode.attributes (n : Inode) : Attributes := ⟨n.mode, n.uid, n.gid⟩

def Fs.attributes (s : Fs) (i : BucketIndex) : Option Attributes := (s.nodes i).map Inode.attributes

/-- What a call may do: only the owner changes the attributes of the file, not the owner
itself, and the group to one of his own only; a call that fails changes nothing. -/
structure OwnerOnly (call : AttributeCall) (s : Fs) (e : EE) (t : Fs) : Prop where
  others : ∀ j, j ≠ call.file → t.attributes j = s.attributes j
  failed : e ≠ .ok → t.attributes call.file = s.attributes call.file
  owner : ∀ a, s.attributes call.file = some a → ∃ b, t.attributes call.file = some b ∧
    (b ≠ a → call.context.uid = a.uid ∧ b.uid = a.uid ∧ (b.gid ≠ a.gid → b.gid = call.context.gid ∨ b.gid ∈ call.context.gids))

/-- The mode that `chmod` sets. -/
def chmodMode (n : Inode) (ctx : Context) (mod : Mode) : Mode :=
  if ctx.gid ≠ n.gid ∧ ctx.uid ≠ 0 then mod &&& ~~~Mode.FLAG_SGID else mod

namespace AttributeCall

/-- A `chmod` that is let through is the owner's, or changes nothing; with another type
of file it fails an assertion. -/
def Ordered (s : Fs) : AttributeCall → Prop
  | .chmod i mod ctx => ∀ n, s.nodes i = some n → (s.inodeFileCache i).isSome → ctx.uid ≠ n.uid →
      s.access (some i) ctx Access.W = true → validate_ownership n ctx mod = true →
      chmodMode n ctx mod &&& Mode.TYPE = n.mode &&& Mode.TYPE → chmodMode n ctx mod = n.mode
  | .chown _ _ _ _ => True

def step (call : AttributeCall) (s : Fs) : Option Fs := (call.run s).map Prod.snd

abbrev OrderedRun : List AttributeCall → Fs → Prop := Schedule.OrderedRun step Ordered

end AttributeCall

/-- Every file in the cache has its inode and those of its directories. -/
def Fs.Sound (s : Fs) : Prop := ∀ i file, s.inodeFileCache i = some file → s.Reaches i file

/-- No inode comes or goes, and files are opened for their rights only. -/
structure Kept (s t : Fs) : Prop where
  alive : ∀ j, (t.nodes j).isSome = (s.nodes j).isSome
  files : ∀ j file, t.inodeFileCache j = some file →
    s.inodeFileCache j = some file ∨ file.pathPermissions = [] ∧ (s.nodes j).isSome

section Frames
variable {s t u : Fs}

theorem Kept.trans (first : Kept s t) (second : Kept t u) : Kept s u where
  alive j := (second.alive j).trans (first.alive j)
  files j file here := by
    obtain before | ⟨empty, alive⟩ := second.files j file here
    · exact first.files j file before
    · exact Or.inr ⟨empty, first.alive j ▸ alive⟩

theorem Opened.kept {pathPermissions : List BucketIndex} (opened : Opened pathPermissions s t) : Kept s t where
  alive j := by rw [opened.nodes]
  files j file here := by
    obtain same | ⟨_, _, alive, made⟩ := opened.files j
    · exact Or.inl (same.symm.trans here)
    · cases made.symm.trans here
      exact Or.inr ⟨rfl, alive⟩

theorem Same.kept (same : Same s t) : Kept s t where
  alive j := by rw [same.nodes]
  files j file here := Or.inl (same.files ▸ here)

theorem Kept.setSlot {i : BucketIndex} {n n' : Inode} (here : s.slots i = .node n) : Kept s (s.setSlot i (.node n')) where
  alive j := by
    rw [Fs.nodes_setSlot_node, Function.update_apply]
    split_ifs with same
    · rw [same, Fs.nodes_of_slot here]
      rfl
    · rfl
  files j file here := Or.inl here

theorem Kept.sound (kept : Kept s t) (sound : s.Sound) : t.Sound := by
  intro i file here
  obtain before | ⟨empty, alive⟩ := kept.files i file here
  · have reaches := sound i file before
    exact ⟨here, kept.alive i ▸ reaches.alive, fun p member => ⟨(reaches.above p member).1, kept.alive p ▸ (reaches.above p member).2⟩⟩
  · refine ⟨here, kept.alive i ▸ alive, fun p member => ?_⟩
    rw [empty] at member
    exact absurd member List.not_mem_nil

end Frames

section Specs
variable {s t : Fs} {i : BucketIndex} {ctx : Context} {e : EE}

theorem addChange_same {je : Option Wrapper} (ran : addChange je s = some ((), t)) : Same s t := by
  cases ran
  exact ⟨rfl, rfl, rfl, rfl⟩

theorem chmodInner_spec {mod : Mode} {je : Option Wrapper} (ran : chmodInner i mod je s = some (e, t)) :
    Kept s t ∧ e = .ok ∧ ∃ n, s.slots i = .node n ∧ mod &&& Mode.TYPE = n.mode &&& Mode.TYPE ∧
      t.nodes = Function.update s.nodes i (some { n.seen with mode := mod }) := by
  unfold chmodInner at ran
  obtain ⟨n, _, found, ran⟩ := Run.bind_eq_some.mp ran
  obtain ⟨slot, rfl⟩ := INode_eq_some.mp found
  obtain ⟨_, _, checked, ran⟩ := Run.bind_eq_some.mp ran
  obtain ⟨type, rfl⟩ := Run.assert_eq_some.mp checked
  obtain ⟨_, u, modified, ran⟩ := Run.bind_eq_some.mp ran
  obtain ⟨n', slot', rfl⟩ := modifyINode_eq_some.mp modified
  cases slot.symm.trans slot'
  obtain ⟨_, v, added, ran⟩ := Run.bind_eq_some.mp ran
  have same := addChange_same added
  cases ran
  refine ⟨(Kept.setSlot slot).trans same.kept, rfl, n, slot, type, ?_⟩
  rw [same.nodes, Fs.nodes_setSlot_node]
  rfl

/-- A `chmod` either fails and changes nothing, or sets the mode. -/
theorem chmod_spec {mod : Mode} (ran : chmod (some i) mod ctx s = some (e, t)) :
    Kept s t ∧ (e ≠ .ok ∧ t.nodes = s.nodes ∨
      ∃ n, e = .ok ∧ s.nodes i = some n ∧ (s.inodeFileCache i).isSome ∧
        chmodMode n ctx mod &&& Mode.TYPE = n.mode &&& Mode.TYPE ∧
        (ctx.uid = n.uid ∨ s.access (some i) ctx Access.W = true ∧ validate_ownership n ctx mod = true) ∧
        t.nodes = Function.update s.nodes i (some { n with mode := chmodMode n ctx mod })) := by
  unfold chmod at ran
  obtain ⟨isValid, _, found, ran⟩ := Run.bind_eq_some.mp ran
  obtain ⟨validity, rfl⟩ := valid_eq_some.mp found
  cases isValid with
  | false =>
    cases ran
    exact ⟨(Same.refl s).kept, Or.inl ⟨nofun, rfl⟩⟩
  | true =>
    obtain ⟨n, _, found, ran⟩ := Run.bind_eq_some.mp ran
    obtain ⟨slot, rfl⟩ := INode_eq_some.mp found
    obtain ⟨may, u, asked, ran⟩ := Run.bind_eq_some.mp ran
    have checked : Kept s u ∧ u.slots = s.slots ∧ (may = true → ctx.uid = n.uid ∨
        s.access (some i) ctx Access.W = true ∧ validate_ownership n ctx mod = true) := by
      unfold mayChmod at asked
      by_cases own : ctx.uid = n.uid
      · rw [if_pos own] at asked
        cases asked
        exact ⟨(Same.refl s).kept, rfl, fun _ => Or.inl own⟩
      · rw [if_neg own] at asked
        obtain ⟨access, v, answered, asked⟩ := Run.bind_eq_some.mp asked
        obtain ⟨answer, opened⟩ := validate_access_spec answered
        cases asked
        refine ⟨opened.kept, opened.slots, fun granted => Or.inr ?_⟩
        rw [← answer]
        exact Bool.and_eq_true_iff.mp granted
    obtain ⟨kept, slots, allowed⟩ := checked
    cases may with
    | false =>
      cases ran
      exact ⟨kept, Or.inl ⟨nofun, Fs.nodes_congr slots⟩⟩
    | true =>
      obtain ⟨id, v, w, same, inner, same'⟩ := withEntry_spec ran
      obtain ⟨kept', ok, m, slot', type, nodes⟩ := chmodInner_spec inner
      rw [same.slots, slots, slot] at slot'
      cases slot'
      have before : v.nodes = s.nodes := same.nodes.trans (Fs.nodes_congr slots)
      refine ⟨((kept.trans same.kept).trans kept').trans same'.kept, Or.inr ⟨n.seen, ok, Fs.nodes_of_slot slot, ?_, type, ?_, ?_⟩⟩
      · simpa using validity.symm
      · exact allowed rfl
      · rw [same'.nodes, nodes, before]
        rfl

theorem chownInner_spec {uid gid : UInt32} {je : Option Wrapper} (ran : chownInner i uid gid je s = some (e, t)) :
    Kept s t ∧ e = .ok ∧ ∃ n, s.slots i = .node n ∧ t.nodes = Function.update s.nodes i (some { n.seen with
      uid := if uid ≠ maxId then uid else n.uid
      gid := if gid ≠ maxId then gid else n.gid }) := by
  unfold chownInner at ran
  obtain ⟨_, u, modified, ran⟩ := Run.bind_eq_some.mp ran
  obtain ⟨n, slot, rfl⟩ := modifyINode_eq_some.mp modified
  obtain ⟨_, v, added, ran⟩ := Run.bind_eq_some.mp ran
  have same := addChange_same added
  cases ran
  refine ⟨(Kept.setSlot slot).trans same.kept, rfl, n, slot, ?_⟩
  rw [same.nodes, Fs.nodes_setSlot_node]
  rfl

/-- A `chown` either fails and changes nothing, or is the owner's. -/
theorem chown_spec {uid gid : UInt32} (ran : chown (some i) uid gid ctx s = some (e, t)) :
    Kept s t ∧ (e ≠ .ok ∧ t.nodes = s.nodes ∨
      ∃ n m, e = .ok ∧ s.nodes i = some n ∧ mayChown n ctx uid gid = true ∧ t.nodes = Function.update s.nodes i (some m) ∧
        m.uid = (if uid ≠ maxId then uid else n.uid) ∧ m.gid = (if gid ≠ maxId then gid else n.gid)) := by
  unfold chown at ran
  obtain ⟨isValid, _, found, ran⟩ := Run.bind_eq_some.mp ran
  obtain ⟨_, rfl⟩ := valid_eq_some.mp found
  cases isValid with
  | false =>
    cases ran
    exact ⟨(Same.refl s).kept, Or.inl ⟨nofun, rfl⟩⟩
  | true =>
    obtain ⟨access, u, answered, ran⟩ := Run.bind_eq_some.mp ran
    have opened := (validate_access_spec answered).2
    cases access with
    | false =>
      cases ran
      exact ⟨opened.kept, Or.inl ⟨nofun, opened.nodes⟩⟩
    | true =>
      obtain ⟨n, _, found, ran⟩ := Run.bind_eq_some.mp ran
      obtain ⟨slot, rfl⟩ := INode_eq_some.mp found
      split at ran
      · rename_i may
        obtain ⟨v, n', slot', kept, nodes, uid', gid', ran⟩ : ∃ v n', v.slots i = .node n' ∧ Kept u v ∧
            (∀ m, Function.update v.nodes i (some m) = Function.update u.nodes i (some m)) ∧ n'.uid = n.uid ∧
            n'.gid = n.gid ∧ withEntry (.chown i uid gid) (chownInner i uid gid) v = some (e, t) := by
          dsimp only at ran
          split at ran
          · obtain ⟨_, v, cleared, ran⟩ := Run.bind_eq_some.mp ran
            obtain ⟨n'', slot'', rfl⟩ := modifyINode_eq_some.mp cleared
            cases slot.symm.trans slot''
            refine ⟨_, { n with mode := n.mode &&& ~~~(Mode.FLAG_SGID ||| Mode.FLAG_SUID) }, Function.update_self ..,
              Kept.setSlot slot, fun m => ?_, rfl, rfl, ran⟩
            rw [Fs.nodes_setSlot_node, Function.update_idem]
          · exact ⟨u, n, slot, (Same.refl u).kept, fun _ => rfl, rfl, rfl, ran⟩
        obtain ⟨id, w, x, same, inner, same'⟩ := withEntry_spec ran
        obtain ⟨kept', ok, m, slot'', nodes'⟩ := chownInner_spec inner
        rw [same.slots, slot'] at slot''
        cases slot''
        refine ⟨(((opened.kept.trans kept).trans same.kept).trans kept').trans same'.kept,
          Or.inr ⟨n.seen, { n'.seen with
            uid := if uid ≠ maxId then uid else n'.uid
            gid := if gid ≠ maxId then gid else n'.gid }, ok, opened.nodes ▸ Fs.nodes_of_slot slot, may, ?_, ?_, ?_⟩⟩
        · rw [same'.nodes, nodes', same.nodes, nodes, opened.nodes]
        · simp only [uid']
          rfl
        · simp only [gid']
          rfl
      · cases ran
        exact ⟨opened.kept, Or.inl ⟨nofun, opened.nodes⟩⟩

theorem chmodInner_runs {n : Inode} {mod : Mode} (je : Option Wrapper) (slot : s.slots i = .node n)
    (type : mod &&& Mode.TYPE = n.mode &&& Mode.TYPE) : ∃ t, chmodInner i mod je s = some (.ok, t) := by
  unfold chmodInner
  rw [Run.bind_of_some (INode_eq_some.mpr ⟨slot, rfl⟩), Run.bind_of_some (Run.assert_eq_some.mpr ⟨type, rfl⟩),
    Run.bind_of_some (modifyINode_eq_some.mpr ⟨n, slot, rfl⟩)]
  exact ⟨_, rfl⟩

/-- A `chmod` that is let through returns, unless it is for another type of file. -/
theorem chmod_runs {file : FileObject} {n : Inode} {mod : Mode} (reaches : s.Reaches i file) (node : s.nodes i = some n)
    (access : s.access (some i) ctx Access.W = true) (ownership : validate_ownership n ctx mod = true)
    (type : chmodMode n ctx mod &&& Mode.TYPE = n.mode &&& Mode.TYPE) : ∃ t, chmod (some i) mod ctx s = some (.ok, t) := by
  obtain ⟨n, slot, rfl⟩ := Fs.nodes_eq_some.mp node
  obtain ⟨u, may, slots⟩ : ∃ u, mayChmod (some i) n ctx mod s = some (true, u) ∧ u.slots = s.slots := by
    unfold mayChmod
    by_cases own : ctx.uid = n.uid
    · rw [if_pos own]
      exact ⟨s, rfl, rfl⟩
    · obtain ⟨answer, u, answered⟩ := validate_access_total reaches ctx Access.W Access.NONE false
      have spec := validate_access_spec answered
      rw [if_neg own, Run.bind_of_some answered, spec.1, access]
      have ownership' : validate_ownership n ctx mod = true := ownership
      exact ⟨u, by rw [ownership']; rfl, spec.2.slots⟩
  have isValid : valid (some i) s = some (true, s) := valid_eq_some.mpr ⟨by simp [reaches.opened], rfl⟩
  have entered : ∀ entry, addEntry entry u = some (⟨u.nextJournalEntry, entry⟩, { u with
      journal := u.journal ++ [{ id := u.nextJournalEntry, entry := entry }]
      nextJournalEntry := u.nextJournalEntry + 1 }) := fun _ => rfl
  have type' : chmodMode n ctx mod &&& Mode.TYPE = n.mode &&& Mode.TYPE := type
  obtain ⟨v, inner⟩ := chmodInner_runs (i := i) (n := n) (s := { u with
    journal := u.journal ++ [{ id := u.nextJournalEntry, entry := .chmod i (chmodMode n ctx mod) }]
    nextJournalEntry := u.nextJournalEntry + 1 }) (some ⟨u.nextJournalEntry, .chmod i (chmodMode n ctx mod)⟩)
    ((congrFun slots i).trans slot) type'
  have body : withEntry (.chmod i (chmodMode n ctx mod)) (chmodInner i (chmodMode n ctx mod)) u =
      (closeEntry u.nextJournalEntry >>= fun _ => pure EE.ok) v := by
    unfold withEntry
    rw [Run.bind_of_some (entered _), Run.bind_of_some inner]
  obtain ⟨w, ended⟩ : ∃ w, (closeEntry u.nextJournalEntry >>= fun _ => pure EE.ok) v = some (EE.ok, w) := ⟨_, rfl⟩
  exact ⟨w, calc chmod (some i) mod ctx s
    _ = _ := Run.bind_of_some isValid
    _ = _ := Run.bind_of_some (INode_eq_some.mpr ⟨slot, rfl⟩)
    _ = _ := Run.bind_of_some may
    _ = _ := body
    _ = _ := ended⟩

end Specs

namespace AttributeCall
variable {s t : Fs} {call : AttributeCall}

theorem kept_run {e : EE} (ran : call.run s = some (e, t)) : Kept s t := by
  cases call with
  | chmod i mod ctx => exact (chmod_spec ran).1
  | chown i uid gid ctx => exact (chown_spec ran).1

theorem attributes_update {i j : BucketIndex} {n m : Inode} (node : s.nodes i = some n)
    (nodes : t.nodes = Function.update s.nodes i (some m)) :
    t.attributes i = some m.attributes ∧ s.attributes i = some n.attributes ∧ (j ≠ i → t.attributes j = s.attributes j) := by
  refine ⟨?_, ?_, fun other => ?_⟩
  · rw [Fs.attributes, nodes, Function.update_self, Option.map_some]
  · rw [Fs.attributes, node, Option.map_some]
  · rw [Fs.attributes, nodes, Function.update_of_ne other, Fs.attributes]

theorem ownerOnly_of_nodes {e : EE} (nodes : t.nodes = s.nodes) : OwnerOnly call s e t := by
  have same : t.attributes = s.attributes := by
    unfold Fs.attributes
    rw [nodes]
  exact ⟨fun j _ => congrFun same j, fun _ => congrFun same _, fun a here =>
    ⟨a, by rw [same, here], fun different => absurd rfl different⟩⟩

/-- A call in order is the owner's, or changes nothing. -/
theorem ownerOnly_of_ordered {e : EE} (user : call.context.uid ≠ 0) (ordered : call.Ordered s) (ran : call.run s = some (e, t)) :
    OwnerOnly call s e t := by
  cases call with
  | chmod i mod ctx =>
    obtain ⟨_, ⟨_, nodes⟩ | ⟨n, ok, node, opened, type, allowed, nodes⟩⟩ := chmod_spec ran
    · exact ownerOnly_of_nodes nodes
    · obtain ⟨after, before, _⟩ := attributes_update (j := i) node nodes
      refine ⟨fun j => (attributes_update node nodes).2.2, fun failed => absurd ok failed, fun a here => ⟨_, after, ?_⟩⟩
      cases before.symm.trans here
      intro changed
      refine ⟨?_, rfl, fun group => absurd rfl group⟩
      by_contra other
      have passed := allowed.resolve_left other
      have same := ordered n node opened other passed.1 passed.2 type
      exact changed (congrArg (fun m => (⟨m, n.uid, n.gid⟩ : Attributes)) same)
  | chown i uid gid ctx =>
    obtain ⟨_, ⟨_, nodes⟩ | ⟨n, m, ok, node, may, nodes, uid', gid'⟩⟩ := chown_spec ran
    · exact ownerOnly_of_nodes nodes
    · obtain ⟨after, before, _⟩ := attributes_update (j := i) node nodes
      refine ⟨fun j => (attributes_update node nodes).2.2, fun failed => absurd ok failed, fun a here => ⟨_, after, ?_⟩⟩
      cases before.symm.trans here
      intro _
      obtain ⟨sameUid, own, group⟩ := (of_decide_eq_true may).resolve_left user
      refine ⟨own.symm, ?_, fun changed => ?_⟩
      · change m.uid = n.uid
        rw [uid']
        split_ifs with given
        · exact sameUid.resolve_right given
        · rfl
      · change m.gid = ctx.gid ∨ m.gid ∈ ctx.gids
        rw [gid']
        split_ifs with given
        · obtain member | same | unset := group
          · exact Or.inr member
          · exact Or.inl same.symm
          · exact absurd unset given
        · exact absurd (gid'.trans (if_neg given)) changed

/-- A call out of order changes the mode for someone who is not the owner. -/
theorem ordered_of_ownerOnly (sound : s.Sound) (only : ∀ e t, call.run s = some (e, t) → OwnerOnly call s e t) :
    call.Ordered s := by
  cases call with
  | chmod i mod ctx =>
    intro n node opened other access ownership type
    obtain ⟨file, here⟩ := Option.isSome_iff_exists.mp opened
    obtain ⟨t, ran⟩ := chmod_runs (sound i file here) node access ownership type
    obtain ⟨_, ⟨failed, _⟩ | ⟨n', _, node', _, _, _, nodes⟩⟩ := chmod_spec ran
    · exact absurd rfl failed
    · cases node.symm.trans node'
      obtain ⟨after, before, _⟩ := attributes_update (j := i) node nodes
      obtain ⟨b, after', rule⟩ := (only _ t ran).owner n.attributes before
      cases after.symm.trans after'
      by_contra changed
      exact other (rule (fun same => changed (congrArg Attributes.mode same))).1
  | chown i uid gid ctx => trivial

theorem step_eq_some : call.step s = some t ↔ ∃ e, call.run s = some (e, t) := by
  unfold step
  rw [Option.map_eq_some_iff]
  constructor
  · intro made
    obtain ⟨⟨e, _⟩, ran, rfl⟩ := made
    exact ⟨e, ran⟩
  · intro made
    obtain ⟨e, ran⟩ := made
    exact ⟨_, ran, rfl⟩

theorem sound_run {calls : List AttributeCall} (sound : s.Sound) (ran : Schedule.run step calls s = some t) : t.Sound := by
  have free : Schedule.OrderedRun step (fun _ _ => True) calls s := Schedule.orderedRun_of_forall fun _ _ _ => trivial
  refine Schedule.invariant_run (fun sound _ made => ?_) sound free ran
  obtain ⟨_, ran⟩ := step_eq_some.mp made
  exact (kept_run ran).sound sound

/-- In an ordered run a file keeps its attributes unless its owner changes them. -/
theorem attributes_run {calls : List AttributeCall} (users : ∀ call ∈ calls, call.context.uid ≠ 0)
    (ordered : OrderedRun calls s) (ran : Schedule.run step calls s = some t) {i : BucketIndex} {a : Attributes}
    (here : s.attributes i = some a) (others : ∀ call ∈ calls, call.file = i → call.context.uid ≠ a.uid) :
    t.attributes i = some a := by
  induction calls generalizing s with
  | nil =>
    cases ran
    exact here
  | cons call calls ih =>
    obtain ⟨mid, made, ran⟩ := Option.bind_eq_some_iff.mp ran
    obtain ⟨now, rest⟩ := ordered
    rw [made] at rest
    obtain ⟨e, called⟩ := step_eq_some.mp made
    have only := ownerOnly_of_ordered (users call List.mem_cons_self) now called
    have kept : mid.attributes i = some a := by
      by_cases its : call.file = i
      · subst its
        obtain ⟨b, after, rule⟩ := only.owner a here
        by_cases changed : b = a
        · rw [after, changed]
        · exact absurd (rule changed).1 (others call List.mem_cons_self rfl)
      · rw [only.others i (Ne.symm its), here]
    exact ih (fun later member => users later (List.mem_cons_of_mem call member)) rest ran kept
      (fun later member => others later (List.mem_cons_of_mem call member))

/-- Each call of a run does what it may. -/
def OwnersOnly (calls : List AttributeCall) (s : Fs) : Prop := ∀ first call later, calls = first ++ call :: later →
  ∀ mid, Schedule.run step first s = some mid → ∀ e t, call.run mid = some (e, t) → OwnerOnly call mid e t

/-- Only owners change the attributes of files in the runs in which each `chmod` is in
order, and then no others do in the whole run. -/
theorem ownersOnly_iff {calls : List AttributeCall} (users : ∀ call ∈ calls, call.context.uid ≠ 0) :
    (OrderedRun calls s → OwnersOnly calls s ∧ ∀ t, Schedule.run step calls s = some t → ∀ i a, s.attributes i = some a →
        (∀ call ∈ calls, call.file = i → call.context.uid ≠ a.uid) → t.attributes i = some a) ∧
      (s.Sound → OwnersOnly calls s → OrderedRun calls s) := by
  constructor
  · intro ordered
    refine ⟨fun first call later split mid ran e t called => ?_,
      fun t ran i a here others => attributes_run users ordered ran here others⟩
    have member : call ∈ calls := by
      rw [split]
      exact List.mem_append_right first List.mem_cons_self
    exact ownerOnly_of_ordered (users call member) (Schedule.orderedRun_iff.mp ordered first call later split mid ran) called
  · intro sound only
    exact Schedule.orderedRun_iff.mpr (fun first call later split mid ran =>
      ordered_of_ownerOnly (sound_run sound ran) (only first call later split mid ran))

section Runs

/-- Someone else asks for the mode, and then for the group. -/
theorem ownersOnly_someone : ∃ s₀ s, mount (formatted superuser) = some s₀ ∧ runAll [.mknod fileG 0o666 superuser] s₀ = some ((), s) ∧
    ((OrderedRun [.chmod 258 0o100600 someone, .chown 258 maxId 1000 someone] s →
        OwnersOnly [.chmod 258 0o100600 someone, .chown 258 maxId 1000 someone] s ∧
          ∀ t, Schedule.run step [.chmod 258 0o100600 someone, .chown 258 maxId 1000 someone] s = some t →
            ∀ i a, s.attributes i = some a →
            (∀ call ∈ [AttributeCall.chmod 258 0o100600 someone, .chown 258 maxId 1000 someone], call.file = i →
              call.context.uid ≠ a.uid) → t.attributes i = some a) ∧
      (s.Sound → OwnersOnly [.chmod 258 0o100600 someone, .chown 258 maxId 1000 someone] s →
        OrderedRun [.chmod 258 0o100600 someone, .chown 258 maxId 1000 someone] s)) := by
  have runs : ((mount (formatted superuser)).bind (fun s₀ => (runAll [.mknod fileG 0o666 superuser] s₀).map (fun _ => ()))) =
      some () := by decide +kernel
  obtain ⟨s₀, mounted, ran⟩ := Option.bind_eq_some_iff.mp runs
  obtain ⟨⟨_, s⟩, ran, _⟩ := Option.map_eq_some_iff.mp ran
  exact ⟨s₀, s, mounted, ran, ownersOnly_iff (by decide)⟩

/-- Someone who may write the file of another makes it run under the other's name. -/
theorem setuid_someone : ¬∀ (ops : List Op) (s₀ s : Fs) (calls : List AttributeCall), mount (formatted superuser) = some s₀ →
    runAll ops s₀ = some ((), s) → (∀ call ∈ calls, call.context.uid ≠ 0) → OwnersOnly calls s := by
  intro only
  have changes : ((mount (formatted superuser)).bind (fun s₀ => (runAll [.mknod fileG 0o666 superuser] s₀).bind (fun result =>
      ((AttributeCall.chmod 258 0o104666 someone).run result.2).map (fun after =>
        (result.2.attributes 258, after.2.attributes 258))))) = some (some ⟨0o100666, 0, 0⟩, some ⟨0o104666, 0, 0⟩) := by
    decide +kernel
  obtain ⟨s₀, mounted, ran⟩ := Option.bind_eq_some_iff.mp changes
  obtain ⟨⟨_, s⟩, ran, called⟩ := Option.bind_eq_some_iff.mp ran
  obtain ⟨⟨e, t⟩, called, attributes⟩ := Option.map_eq_some_iff.mp called
  obtain ⟨before, after⟩ := Prod.mk.inj attributes
  have its := only _ s₀ s [.chmod 258 0o104666 someone] mounted ran (by decide) [] _ [] rfl s rfl e t called
  obtain ⟨b, after', rule⟩ := its.owner _ before
  cases after.symm.trans after'
  exact absurd (rule (by decide)).1 (by decide)

end Runs

end AttributeCall

end CloudCryptFS.Filesystem
