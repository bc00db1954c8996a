import CloudCryptFS.Filesystem.Changes

/-! The calls that change the tree, one after the other. Each keeps the tree and its
caches in step, provided that the conditions stated with it hold before the call. -/

namespace CloudCryptFS.Filesystem
open Util NameGraph Script.Lexer

section Parts

/-- Only the journal is different. -/
structure Same (s s' : Fs) : Prop where
  slots : s'.slots = s.slots
  accounting : s'.accounting = s.accounting
  paths : s'.pathInodeCache = s.pathInodeCache
  files : s'.inodeFileCache = s.inodeFileCache

theorem Same.refl (s : Fs) : Same s s := ⟨rfl, rfl, rfl, rfl⟩

theorem Same.nodes {s s' : Fs} (same : Same s s') : s'.nodes = s.nodes := Fs.nodes_congr same.slots

theorem Same.trans {s t u : Fs} (first : Same s t) (second : Same t u) : Same s u :=
  ⟨second.slots.trans first.slots, second.accounting.trans first.accounting, second.paths.trans first.paths,
    second.files.trans first.files⟩

theorem withEntry_spec {α : Type} {entry : JournalEntry} {body : Option Wrapper → FsM α} {result : α} {s s' : Fs}
    (ran : withEntry entry body s = some (result, s')) :
    ∃ id t u, Same s t ∧ body (some ⟨id, entry⟩) t = some (result, u) ∧ Same u s' := by
  unfold withEntry at ran
  obtain ⟨je, t, added, ran⟩ := Run.bind_eq_some.mp ran
  obtain ⟨result', u, inside, ran⟩ := Run.bind_eq_some.mp ran
  obtain ⟨_, v, closed, ran⟩ := Run.bind_eq_some.mp ran
  cases added
  cases closed
  cases ran
  refine ⟨_, _, u, ?_, inside, ⟨rfl, rfl, rfl, rfl⟩⟩
  exact ⟨rfl, rfl, rfl, rfl⟩

/-- A held index is used for an inode without a chain. -/
theorem Alloc.use {s : Fs} (alloc : Alloc s) {i : BucketIndex} (held : Held s i) {n : Inode} (noChain : n.chain = []) :
    Alloc (s.setSlot i (.node n)) := by
  have slots : ∀ j, (s.setSlot i (.node n)).slots j = if j = i then .node n else s.slots j := by
    intro j
    split
    · rename_i same
      rw [same, setSlot_self]
    · rename_i other
      exact setSlot_of_ne s other _
  have before : ∀ j m k, (s.setSlot i (.node n)).slots j = .node m → k ∈ m.chain → s.slots j = .node m := by
    intro j m k found member
    rw [slots] at found
    split at found
    · cases found
      rw [noChain] at member
      exact absurd member List.not_mem_nil
    · exact found
  refine ⟨alloc.ok, ?_, ?_, ?_, ?_⟩
  · intro j later
    rw [slots, if_neg]
    · exact alloc.free j later
    · intro same
      exact held.taken (same ▸ later)
  · intro j used
    rw [slots] at used
    split at used
    · rename_i same
      exact same ▸ held.bucket
    · exact alloc.bucket j used
  · intro j m found
    rw [slots] at found
    split at found
    · cases found
      rw [noChain]
      exact ⟨List.nodup_nil, fun k member => absurd member List.not_mem_nil⟩
    · obtain ⟨distinct, records⟩ := alloc.chain j m found
      refine ⟨distinct, fun k member => ?_⟩
      rw [slots, if_neg]
      · exact records k member
      · intro same
        have record := records k member
        rw [same, held.empty] at record
        cases record
  · intro j m j' m' k first second inFirst inSecond
    exact alloc.apart j m j' m' k (before j m k first inFirst) (before j' m' k second inSecond) inFirst inSecond

variable [Floats] {level : Level} {s s' : Fs}

theorem Names.congr (names : Names level s) (alloc : Alloc s') (slots : s'.slots = s.slots)
    (paths : s'.pathInodeCache = s.pathInodeCache) (files : s'.inodeFileCache = s.inodeFileCache) : Names level s' := by
  have nodes : s'.nodes = s.nodes := Fs.nodes_congr slots
  have walk : s'.walk = s.walk := Fs.walk_congr (by rw [nodes])
  constructor
  · exact alloc
  · exact nodes ▸ names.readable
  · exact nodes ▸ names.tree
  · exact nodes ▸ names.live
  · exact nodes ▸ names.links
  · exact nodes ▸ names.counted
  · rw [paths, files, walk]
    exact names.cached
  · exact files ▸ names.rootFile
  · rw [files, nodes]
    exact names.files
  · rw [files, nodes]
    exact names.special
  · rw [files, nodes, walk]
    exact names.unopened
  · intro strict
    obtain ⟨root, step, single⟩ := names.permitted strict
    exact ⟨files ▸ root, by rw [files, nodes]; exact step, by rw [nodes]; exact single⟩
  · exact nodes ▸ names.reached

theorem Names.same (names : Names level s) (same : Same s s') : Names level s' :=
  names.congr (names.alloc.congr same.slots same.accounting) same.slots same.paths same.files

/-- The lookup of a path, as one step of a call. -/
theorem Names.looked (names : Names level s) {p : Path} {F : FilePtr} (ran : Filesystem.get p s = some (F, s')) :
    F = s.walk p ∧ Names level s' ∧ Looked p s s' ∧ ∀ i, s.walk p = some i → (s'.inodeFileCache i).isSome := by
  obtain ⟨t, found, names', looked, opened⟩ := names.get p
  rw [found] at ran
  cases ran
  exact ⟨rfl, names', looked, opened⟩

/-- The files of one state in another. -/
def Fs.withFiles (s t : Fs) : Fs := { s with inodeFileCache := t.inodeFileCache }

theorem Names.withFiles (names : Names level s) {t : Fs} {d : BucketIndex} {q : Path} (above : s.walk q = some d)
    (files : OpenedFiles (s.permissions d) s t) : Names level (s.withFiles t) :=
  have opened : Opened (s.permissions d) s (s.withFiles t) := ⟨rfl, rfl, rfl, files⟩
  names.opened opened (names.listed above)

end Parts

section Create
variable [Floats] {level : Level} {s s' : Fs}

/-- The conditions on a call that makes an object: a new entry fits into its directory. -/
def Creates (level : Level) (s : Fs) (filename : Path) : Prop :=
  ∀ c q d ino b, filename = c :: q → s.walk q = some d → s.accounting.fetch = some (ino, b) →
    (edge s.nodes d c = none → d ∈ dirs s.nodes → Fits s.nodes d c ino) ∧ (level.counted → d ∈ dirs s.nodes)

theorem mkobjectInner_eq_some {d ino : BucketIndex} {mod : Mode} {c : Name} {ctx : Context} {je : Option Wrapper} {e : EE}
    (opened : (s.inodeFileCache d).isSome) (ran : mkobjectInner d ino mod c ctx je s = some (e, s')) :
    ∃ t, addNode (some d) c ino ctx je s = some (e, t) ∧
      s' = if e = .ok then t.setSlot ino (.node (.fresh mod ctx)) else t := by
  unfold mkobjectInner at ran
  obtain ⟨F, t, found, ran⟩ := Run.bind_eq_some.mp ran
  rw [inodeToFile_of_open opened] at found
  cases found
  obtain ⟨isValid, _, asked, ran⟩ := Run.bind_eq_some.mp ran
  obtain ⟨_, rfl⟩ := valid_eq_some.mp asked
  obtain ⟨_, _, asserted, ran⟩ := Run.bind_eq_some.mp ran
  obtain ⟨_, rfl⟩ := Run.assert_eq_some.mp asserted
  obtain ⟨_, _, asserted, ran⟩ := Run.bind_eq_some.mp ran
  obtain ⟨_, rfl⟩ := Run.assert_eq_some.mp asserted
  obtain ⟨status, t, added, ran⟩ := Run.bind_eq_some.mp ran
  by_cases done : status = .ok
  · rw [if_pos done] at ran
    obtain ⟨_, u, set, ran⟩ := Run.bind_eq_some.mp ran
    cases set
    cases ran
    exact ⟨t, added, by rw [if_pos done]⟩
  · rw [if_neg done] at ran
    cases ran
    exact ⟨_, added, by rw [if_neg done]⟩

/-- An inode that has just been made has no entries. -/
theorem edge_setSlot_fresh {s : Fs} {i : BucketIndex} (empty : s.slots i = .none) (mod : Mode) (ctx : Context) :
    edge (s.setSlot i (.node (.fresh mod ctx))).nodes = edge s.nodes ∧
      (Readable s.nodes → Readable (s.setSlot i (.node (.fresh mod ctx))).nodes) := by
  have nodes := Fs.nodes_setSlot_node s i (.fresh mod ctx)
  have noNode : s.nodes i = none := Fs.nodes_eq_none (fun n here => by rw [empty] at here; cases here)
  have outside : i ∉ dirs s.nodes := by
    intro member
    obtain ⟨n, here, _⟩ := member
    rw [noNode] at here
    cases here
  have content : contentOf (F := Floats.F) (Inode.fresh mod ctx).seen.data = some (some DirMap.empty.json) := contentOf_empty
  have holds : i ∈ dirs (s.setSlot i (.node (.fresh mod ctx))).nodes →
      Holds (s.setSlot i (.node (.fresh mod ctx))).nodes i DirMap.empty := by
    intro member
    obtain ⟨n, here, dir⟩ := member
    have this := here
    rw [nodes, Function.update_self] at this
    cases this
    exact ⟨_, here, dir, content, DirMap.storable_empty⟩
  have others : ∀ j, j ≠ i → (s.setSlot i (.node (.fresh mod ctx))).nodes j = s.nodes j := by
    intro j other
    rw [nodes, Function.update_of_ne other]
  constructor
  · funext j c
    by_cases same : j = i
    · rw [same, edge_of_leaf outside]
      by_cases member : i ∈ dirs (s.setSlot i (.node (.fresh mod ctx))).nodes
      · rw [(holds member).edge]
        rfl
      · exact edge_of_leaf member c
    · exact edge_congr (others j same) c
  · intro readable j member
    by_cases same : j = i
    · rw [same] at member ⊢
      exact ⟨DirMap.empty, holds member⟩
    · obtain ⟨n, here, dir⟩ := member
      rw [others j same] at here
      obtain ⟨m, holds'⟩ := readable j ⟨n, here, dir⟩
      exact ⟨m, holds'.congr (others j same)⟩

/-- One edge to an inode that is no directory, or is not there yet, comes to the tree, or none does. -/
structure Gains (nodes nodes' : Nodes) (d ino : BucketIndex) (c : Name) (plain : Prop) : Prop where
  absent : edge nodes d c = none
  leaf : ino ∉ dirs nodes
  edges : d ∈ dirs nodes ∧ plain ∧ edge nodes' = link (edge nodes) d c ino ∨ d ∉ dirs nodes ∧ edge nodes' = edge nodes

namespace Gains
variable {nodes nodes' : Nodes} {d ino : BucketIndex} {c : Name} {plain : Prop}

theorem new (gains : Gains nodes nodes' d ino c plain) {d' j : BucketIndex} {c' : Name} (found : edge nodes' d' c' = some j) :
    edge nodes d' c' = some j ∨ d' = d ∧ c' = c ∧ j = ino ∧ plain := by
  rcases gains.edges with ⟨_, plain, edges⟩ | ⟨_, edges⟩
  · rw [edges] at found
    rcases link_eq_some found with ⟨rfl, rfl, rfl⟩ | old
    · exact Or.inr ⟨rfl, rfl, rfl, plain⟩
    · exact Or.inl old
  · rw [edges] at found
    exact Or.inl found

theorem more (gains : Gains nodes nodes' d ino c plain) (d' : BucketIndex) (c' : Name) (j : BucketIndex) (found : edge nodes d' c' = some j) :
    edge nodes' d' c' = some j := by
  rcases gains.edges with ⟨_, _, edges⟩ | ⟨_, edges⟩
  · rw [edges]
    exact link_mono gains.absent ino d' c' j found
  · rw [edges]
    exact found

theorem reached (gains : Gains nodes nodes' d ino c plain) (dir : d ∈ dirs nodes) (reached : Reached (edge nodes) rootIndex (dirs nodes)) :
    Reached (edge nodes') rootIndex (insert ino (dirs nodes)) := by
  rcases gains.edges with ⟨_, _, edges⟩ | ⟨outside, _⟩
  · rw [edges]
    exact reached.link_dir gains.absent dir ino
  · exact absurd dir outside

/-- The inode has one link more where the entry was made. -/
theorem count (gains : Gains nodes nodes' d ino c plain) :
    (NameGraph.links (edge nodes') ino).encard ≤ (NameGraph.links (edge nodes) ino).encard + 1 ∧
      (d ∈ dirs nodes → (NameGraph.links (edge nodes') ino).encard = (NameGraph.links (edge nodes) ino).encard + 1) := by
  rcases gains.edges with ⟨_, _, edges⟩ | ⟨outside, edges⟩
  · rw [edges, encard_links_link gains.absent, if_pos rfl]
    exact ⟨le_rfl, fun _ => rfl⟩
  · rw [edges]
    exact ⟨le_self_add, fun dir => absurd dir outside⟩

/-- The tree where no inode is new. -/
theorem tree_leaf (gains : Gains nodes nodes' d ino c plain) (before : Tree (edge nodes) rootIndex (dirs nodes)) :
    Tree (edge nodes') rootIndex (dirs nodes) := by
  rcases gains.edges with ⟨dir, _, edges⟩ | ⟨_, edges⟩
  · rw [edges]
    exact before.link_leaf dir c gains.leaf
  · rw [edges]
    exact before

/-- The tree with the new inode, which may be a directory or not. -/
theorem tree {last : Nodes} {n : Inode} (gains : Gains nodes nodes' d ino c plain) (before : Tree (edge nodes) rootIndex (dirs nodes))
    (unreached : ∀ d' c', edge nodes d' c' ≠ some ino) (heads : HeadsBut ino nodes last) (node : last ino = some n) :
    Tree (edge nodes') rootIndex (dirs last) := by
  have outside := gains.leaf
  have notRoot : ino ≠ rootIndex := fun same => outside (same ▸ before.root_dir)
  by_cases isDir : n.type = .DIR
  · have grown : dirs last = insert ino (dirs nodes) := by
      ext j
      by_cases same : j = ino
      · rw [same]
        exact ⟨fun _ => Set.mem_insert ino _, fun _ => ⟨n, node, isDir⟩⟩
      · rw [heads.mem_dirs same]
        exact ⟨Set.mem_insert_of_mem ino, fun member => (Set.mem_insert_iff.mp member).resolve_left same⟩
    rw [grown]
    rcases gains.edges with ⟨dir, _, edges⟩ | ⟨_, edges⟩
    · rw [edges]
      exact before.link_dir dir c unreached notRoot
    · rw [edges]
      exact before.add_dir unreached
  · have equal : dirs last = dirs nodes := by
      ext j
      by_cases same : j = ino
      · rw [same]
        refine ⟨fun member => ?_, fun member => absurd member outside⟩
        obtain ⟨m, here, dir⟩ := member
        cases node.symm.trans here
        exact absurd dir isDir
      · exact heads.mem_dirs same
    rw [equal]
    exact gains.tree_leaf before

/-- What the new entry leads to. -/
theorem walk (gains : Gains nodes nodes' d ino c plain) {q : Path} {i : BucketIndex} (above : NameGraph.walk (edge nodes) rootIndex q = some d)
    (found : NameGraph.walk (edge nodes') rootIndex (c :: q) = some i) : i = ino := by
  obtain ⟨d', before, last⟩ := NameGraph.walk_cons.mp found
  cases (walk_mono gains.more above).symm.trans before
  rcases gains.new last with old | ⟨_, _, same, _⟩
  · rw [gains.absent] at old
    cases old
  · exact same

end Gains

/-- The object is entered and made. -/
theorem Names.made (names : Names level s) {q : Path} {c : Name} {d ino : BucketIndex} (mod : Mode) {ctx : Context}
    {je : Option Wrapper} {t : Fs} (above : s.walk q = some d) (held : Held s ino)
    (fits : edge s.nodes d c = none → d ∈ dirs s.nodes → Fits s.nodes d c ino) (dir : level.counted → d ∈ dirs s.nodes)
    (ran : addNode (some d) c ino ctx je s = some (.ok, t)) :
    Names level (t.setSlot ino (.node (.fresh mod ctx))) ∧
      ∀ i, (t.setSlot ino (.node (.fresh mod ctx))).walk (c :: q) = some i → i = ino := by
  rcases addNode_spec names.alloc names.readable fits ran with ⟨failed, _⟩ | ⟨_, absent, relinked, parent, folder, edges⟩
  · exact absurd rfl failed
  have held' := relinked.held ino held
  obtain ⟨sameEdges, readable⟩ := edge_setSlot_fresh held'.empty mod ctx
  have noNode : s.nodes ino = none := Fs.nodes_eq_none (fun n here => by rw [held.empty] at here; cases here)
  have outside : ino ∉ dirs s.nodes := by
    rintro ⟨n, here, _⟩
    rw [noNode] at here
    cases here
  have gains : Gains s.nodes (t.setSlot ino (.node (.fresh mod ctx))).nodes d ino c (parent.special = false) :=
    ⟨absent, outside, by rw [sameEdges]; exact edges⟩
  have names' := names.withFiles above relinked.files
  have folder' : (s.withFiles t).inodeFileCache d = some parent := relinked.files.kept folder
  have unreached : ∀ d' c', edge s.nodes d' c' ≠ some ino := by
    intro d' c' found
    have alive := names.live d' c' ino found
    rw [noNode] at alive
    cases alive
  have notOpen : (s.withFiles t).inodeFileCache ino = none := by
    by_contra isOpen
    obtain ⟨file, here⟩ := Option.ne_none_iff_exists'.mp isOpen
    have alive := names'.files ino file here
    rw [show (s.withFiles t).nodes = s.nodes from rfl, noNode] at alive
    cases alive
  have heads : HeadsBut ino s.nodes (t.setSlot ino (.node (.fresh mod ctx))).nodes := by
    intro j other
    rw [Fs.nodes_setSlot_node, Function.update_of_ne other]
    exact relinked.heads j
  have node : (t.setSlot ino (.node (.fresh mod ctx))).nodes ino = some (Inode.fresh mod ctx).seen := by
    rw [Fs.nodes_setSlot_node, Function.update_self]
  have noLinks : (NameGraph.links (edge s.nodes) ino).encard = 0 := by
    rw [Set.encard_eq_zero]
    ext ⟨d', c'⟩
    exact ⟨fun found => unreached d' c' found, fun impossible => absurd impossible (Set.notMem_empty _)⟩
  have count := gains.count
  rw [noLinks, zero_add] at count
  refine ⟨names'.grow (i := ino) ((relinked.alloc).use held' rfl) (readable relinked.readable) (gains.tree names.tree unreached heads node) heads node
    gains.more ?_ ?_ ?_ ?_ ?_ ?_ ?_ relinked.paths rfl, fun i found => gains.walk above found⟩
  · intro d' c' j found
    rcases gains.new found with old | ⟨atFolder, _, same, plain⟩
    · exact Or.inl old
    · exact Or.inr ⟨same, parent, atFolder ▸ folder', plain⟩
  · intro c'
    cases found : edge (t.setSlot ino (.node (.fresh mod ctx))).nodes ino c' with
    | none => rfl
    | some j =>
      rcases gains.new found with old | ⟨atFolder, _⟩
      · rw [edge_of_leaf gains.leaf] at old
        cases old
      · rw [← atFolder, notOpen] at folder'
        cases folder'
  · exact fun _ => ⟨show (0 : Int) ≤ 1 by decide, count.1⟩
  · exact fun strict _ => (count.2 (dir strict)).trans rfl
  · intro _ d₁ c₁ d₂ c₂ first second
    rcases gains.new first with old | ⟨same₁, _⟩
    · exact absurd old (unreached d₁ c₁)
    · rcases gains.new second with old | ⟨same₂, _⟩
      · exact absurd old (unreached d₂ c₂)
      · exact same₁.trans same₂.symm
  · intro _ _ _ _ isOpen
    rw [notOpen] at isOpen
    cases isOpen
  · intro strict j member
    apply gains.reached (dir strict) (names.reached strict) j
    by_cases same : j = ino
    · rw [same]
      exact Set.mem_insert ino _
    · exact Set.mem_insert_of_mem ino ((heads.mem_dirs same).mp member)

theorem mkobject_spec {filename : Path} {ctx : Context} {type mod : Mode} {e : EE} (names : Names level s)
    (creates : Creates level s filename) (ran : mkobject filename ctx type mod s = some (e, s')) :
    Names level s' ∧ (e = .ok → ∀ i, s'.walk filename = some i →
      ∃ n, s'.nodes i = some n ∧ n.type = (mod ||| type).fileType) := by
  unfold mkobject at ran
  obtain ⟨_, _, asserted, ran⟩ := Run.bind_eq_some.mp ran
  obtain ⟨_, rfl⟩ := Run.assert_eq_some.mp asserted
  cases filename with
  | nil =>
    cases ran
    exact ⟨names, fun impossible => absurd impossible (by decide)⟩
  | cons c q =>
    obtain ⟨F, s₁, found, ran⟩ := Run.bind_eq_some.mp ran
    obtain ⟨rfl, names₁, looked, opened⟩ := names.looked found
    cases above : s.walk q with
    | none =>
      rw [above] at ran
      cases ran
      exact ⟨names₁, fun impossible => absurd impossible (by decide)⟩
    | some d =>
      rw [above] at ran
      obtain ⟨ino, s₂, fetched, ran⟩ := Run.bind_eq_some.mp ran
      obtain ⟨b, fetched', _⟩ : ∃ b, s.accounting.fetch = some (ino, b) ∧ True := by
        unfold fetchIndex at fetched
        obtain ⟨⟨_, b⟩, here, same⟩ := Option.map_eq_some_iff.mp fetched
        obtain ⟨rfl, _⟩ := Prod.mk.inj same
        rw [looked.accounting] at here
        exact ⟨b, here, trivial⟩
      obtain ⟨fits, dir⟩ := creates c q d ino b rfl above fetched'
      obtain ⟨_, alloc₂, held, beside, slots⟩ := fetchIndex_spec names₁.alloc fetched
      have names₂ := names₁.congr alloc₂ slots beside.paths beside.files
      obtain ⟨id, s₃, s₄, same, body, same'⟩ := withEntry_spec ran
      have names₃ := names₂.same same
      have nodes : s₃.nodes = s.nodes := by
        rw [same.nodes, Fs.nodes_congr slots, looked.nodes]
      have walk : s₃.walk = s.walk := Fs.walk_congr (by rw [nodes])
      have above₃ : s₃.walk q = some d := by rw [walk]; exact above
      have held₃ : Held s₃ ino := ⟨by rw [same.accounting]; exact held.taken, by rw [same.slots]; exact held.empty, held.bucket⟩
      have opened₃ : (s₃.inodeFileCache d).isSome := by
        rw [same.files, beside.files]
        exact opened d above
      obtain ⟨e', s₅, inner, body⟩ := Run.bind_eq_some.mp body
      obtain ⟨t, added, rfl⟩ := mkobjectInner_eq_some opened₃ inner
      by_cases done : e' = .ok
      · subst done
        rw [if_neg (fun no => no rfl)] at body
        cases body
        obtain ⟨made, end'⟩ := names₃.made (mod ||| type) above₃ held₃ (nodes ▸ fits) (nodes ▸ dir) added
        refine ⟨made.same same', fun _ i found => ?_⟩
        rw [if_pos rfl] at same'
        rw [Fs.walk_congr (congrArg edge same'.nodes)] at found
        rw [end' i found, same'.nodes]
        refine ⟨(Inode.fresh (mod ||| type) ctx).seen, ?_, rfl⟩
        rw [Fs.nodes_setSlot_node, Function.update_self]
      · rw [if_pos done] at body
        obtain ⟨_, s₆, posted, body⟩ := Run.bind_eq_some.mp body
        cases body
        rw [if_neg done] at posted
        rcases addNode_spec names₃.alloc names₃.readable (nodes ▸ fits) added with ⟨_, opened'⟩ | ⟨isOk, _⟩
        · have names₄ := names₃.opened opened' (names₃.listed above₃)
          obtain ⟨alloc, slots', paths, files⟩ := postIndex_spec names₄.alloc (opened'.beside held₃) posted
          exact ⟨(names₄.congr alloc slots' paths files).same same', fun isOk => absurd isOk done⟩
        · exact absurd isOk done

/-- An inode that is no directory changes without its type. -/
theorem leaf_modify {i : BucketIndex} {n : Inode} (n' : Inode) (here : s.slots i = .node n) (leaf : n.type ≠ .DIR) (type : n'.type = n.type) :
    edge (s.setSlot i (.node n')).nodes = edge s.nodes ∧ dirs (s.setSlot i (.node n')).nodes = dirs s.nodes ∧
      (Readable s.nodes → Readable (s.setSlot i (.node n')).nodes) := by
  have nodes := Fs.nodes_setSlot_node s i n'
  have outside : i ∉ dirs s.nodes := by
    intro member
    obtain ⟨m, there, dir⟩ := member
    rw [Fs.nodes_of_slot here] at there
    cases there
    exact leaf dir
  have outside' : i ∉ dirs (s.setSlot i (.node n')).nodes := by
    intro member
    obtain ⟨m, there, dir⟩ := member
    rw [nodes, Function.update_self] at there
    cases there
    exact leaf (type ▸ dir)
  have others : ∀ j, j ≠ i → (s.setSlot i (.node n')).nodes j = s.nodes j := by
    intro j other
    rw [nodes, Function.update_of_ne other]
  have equal : dirs (s.setSlot i (.node n')).nodes = dirs s.nodes := by
    ext j
    by_cases same : j = i
    · rw [same]
      exact ⟨fun member => absurd member outside', fun member => absurd member outside⟩
    · unfold dirs
      rw [Set.mem_ofPred_eq, Set.mem_ofPred_eq, others j same]
  refine ⟨?_, equal, ?_⟩
  · funext j c
    by_cases same : j = i
    · rw [same, edge_of_leaf outside, edge_of_leaf outside']
    · exact edge_congr (others j same) c
  · intro readable j member
    have other : j ≠ i := fun same => outside' (same ▸ member)
    rw [equal] at member
    obtain ⟨m, holds⟩ := readable j member
    exact ⟨m, holds.congr (others j other)⟩

/-- The conditions on a hard link: it leads to no directory, and its entry fits. -/
def Links (level : Level) (s : Fs) (linktarget linkname : Path) : Prop :=
  ∀ i d, s.walk linktarget = some i → s.walk (getParentPath linkname) = some d →
    i ∉ dirs s.nodes ∧
    (edge s.nodes d (getChildPath linkname) = none → d ∈ dirs s.nodes → Fits s.nodes d (getChildPath linkname) i) ∧
    (level.counted → d ∈ dirs s.nodes) ∧ (level.permitted → ∃ c, edge s.nodes d c = some i)

/-- An inode that is no directory gets another entry and one link more. -/
theorem Names.linked (names : Names level s) {q : Path} {c : Name} {d i : BucketIndex} {t : Fs} {folder : FileObject}
    (above : s.walk q = some d) (relinked : Relinked (s.permissions d) s t) (here : s.inodeFileCache d = some folder)
    (gains : Gains s.nodes t.nodes d i c (folder.special = false)) (dir : level.counted → d ∈ dirs s.nodes)
    (sibling : level.permitted → ∃ c, edge s.nodes d c = some i) {n : Inode} (slot : t.slots i = .node n) :
    Names level (t.setSlot i (.node { n with nlinks := n.nlinks + 1 })) := by
  have names' := names.withFiles above relinked.files
  have folder' : (s.withFiles t).inodeFileCache d = some folder := relinked.files.kept here
  obtain ⟨before, there, head⟩ := relinked.heads.symm.node (Fs.nodes_of_slot slot)
  have type : before.type = n.type := by
    have type := congrArg Inode.type head
    exact type
  have nlinks : before.nlinks = n.nlinks := by
    have nlinks := congrArg Inode.nlinks head
    exact nlinks
  have leafBefore : before.type ≠ .DIR := fun isDir => gains.leaf ⟨before, there, isDir⟩
  have isLeaf : n.type ≠ .DIR := type ▸ leafBefore
  obtain ⟨sameEdges, sameDirs, readable⟩ := leaf_modify { n with nlinks := n.nlinks + 1 } slot isLeaf rfl
  have dirs_eq : dirs (t.setSlot i (.node { n with nlinks := n.nlinks + 1 })).nodes = dirs s.nodes := by rw [sameDirs, relinked.heads.dirs]
  obtain ⟨positive, bound⟩ := names.links i before there leafBefore
  rw [nlinks] at positive bound
  have amount : (n.nlinks + 1).toNat = n.nlinks.toNat + 1 := by omega
  have sameChain : ({ n with nlinks := n.nlinks + 1 } : Inode).chain = n.chain := rfl
  have heads : HeadsBut i s.nodes (t.setSlot i (.node { n with nlinks := n.nlinks + 1 })).nodes := by
    intro j other
    rw [Fs.nodes_setSlot_node, Function.update_of_ne other]
    exact relinked.heads j
  have node : (t.setSlot i (.node { n with nlinks := n.nlinks + 1 })).nodes i = some { n with nlinks := n.nlinks + 1 }.seen := by
    rw [Fs.nodes_setSlot_node, Function.update_self]
  refine names'.grow (relinked.alloc.modify slot sameChain).1 (readable relinked.readable) ?_ heads node ?_ ?_ ?_ ?_ ?_ ?_ ?_ ?_
    relinked.paths rfl
  · rw [sameEdges, dirs_eq]
    exact gains.tree_leaf names.tree
  · rw [sameEdges]
    exact gains.more
  · intro d' c' j found
    rw [sameEdges] at found
    rcases gains.new found with old | ⟨atFolder, _, same, plain⟩
    · exact Or.inl old
    · exact Or.inr ⟨same, folder, atFolder ▸ folder', plain⟩
  · apply edge_of_leaf
    rw [dirs_eq]
    exact gains.leaf
  · intro _
    rw [sameEdges]
    refine ⟨show (0 : Int) ≤ n.nlinks + 1 by omega, ?_⟩
    change _ ≤ ((n.nlinks + 1).toNat : ℕ∞)
    rw [amount, Nat.cast_add, Nat.cast_one]
    exact le_trans gains.count.1 (add_le_add_left bound 1)
  · intro strict _
    have exactly := names.counted strict i before there leafBefore
    rw [nlinks] at exactly
    rw [sameEdges, gains.count.2 (dir strict), exactly]
    change _ = ((n.nlinks + 1).toNat : ℕ∞)
    rw [amount, Nat.cast_add, Nat.cast_one]
  · intro strict d₁ c₁ d₂ c₂ first second
    rw [sameEdges] at first second
    obtain ⟨c₀, old₀⟩ := sibling strict
    have inFolder : ∀ d' c', edge t.nodes d' c' = some i → d' = d := by
      intro d' c' found
      rcases gains.new found with old | ⟨atFolder, _⟩
      · exact (names.permitted strict).single d' c' d c₀ i old old₀
      · exact atFolder
    rw [inFolder d₁ c₁ first, inFolder d₂ c₂ second]
  · intro strict d' c' found _
    rw [sameEdges] at found
    rcases gains.new found with old | ⟨atFolder, _⟩
    · exact ⟨c', old⟩
    · rw [atFolder]
      exact sibling strict
  · intro strict
    rw [sameEdges, dirs_eq]
    exact (names.reached strict).mono gains.more

theorem hardlink_spec {linktarget linkname : Path} {ctx : Context} {e : EE} (names : Names level s)
    (links : Links level s linktarget linkname) (ran : hardlink linktarget linkname ctx s = some (e, s')) : Names level s' := by
  unfold hardlink at ran
  obtain ⟨F, s₁, found, ran⟩ := Run.bind_eq_some.mp ran
  obtain ⟨rfl, names₁, looked₁, opened₁⟩ := names.looked found
  cases target : s.walk linktarget with
  | none =>
    rw [target] at ran
    cases ran
    exact names₁
  | some i =>
    rw [target] at ran
    obtain ⟨F, s₂, found, ran⟩ := Run.bind_eq_some.mp ran
    obtain ⟨rfl, names₂, looked₂, opened₂⟩ := names₁.looked found
    have nodes : s₂.nodes = s.nodes := looked₂.nodes.trans looked₁.nodes
    have walk₁ : s₁.walk = s.walk := Fs.walk_congr (congrArg edge looked₁.nodes)
    have walk₂ : s₂.walk = s.walk := Fs.walk_congr (congrArg edge nodes)
    cases parent : s₁.walk (getParentPath linkname) with
    | none =>
      rw [parent] at ran
      cases ran
      exact names₂
    | some d =>
      rw [parent] at ran
      rw [walk₁] at parent
      obtain ⟨leaf, fits, dir, sibling⟩ := links i d target parent
      rw [← nodes] at leaf fits dir sibling
      rw [← walk₂] at parent target
      obtain ⟨e', t, added, ran⟩ := Run.bind_eq_some.mp ran
      rcases addNode_spec names₂.alloc names₂.readable fits added with
        ⟨failed, opened⟩ | ⟨rfl, absent, relinked, folder, folderHere, edges⟩
      · rw [if_pos failed] at ran
        cases ran
        exact names₂.opened opened (names₂.listed parent)
      · rw [if_neg (fun no => no rfl)] at ran
        obtain ⟨_, u, modified, ran⟩ := Run.bind_eq_some.mp ran
        cases ran
        obtain ⟨n, slot, rfl⟩ := modifyINode_eq_some.mp modified
        exact names₂.linked parent relinked folderHere ⟨absent, leaf, edges⟩ dir sibling slot

end Create

end CloudCryptFS.Filesystem
