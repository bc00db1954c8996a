import CloudCryptFS.Filesystem.Runs
import CloudCryptFS.Util.PathMap
import CloudCryptFS.Util.Trace

/-! What the calls on names are for: one map from paths to inodes, in which a call enters
a path, takes one away or moves all that lies below one. Directories, their stored text,
link counts, caches, rights and the journal do not occur in it, and a caller who sees the
answers only cannot tell the file system from it. -/

namespace CloudCryptFS.Filesystem
open Util NameGraph Script.Lexer

section Answers

/-- What a call tells its caller. -/
inductive Answer where
  | status (e : EE)
  | file (F : FilePtr)
  deriving DecidableEq

/-- A call together with its answer. -/
def Op.answer [Floats] : Op → FsM Answer
  | .mknod filename m ctx => do return .status (← Filesystem.mknod filename m ctx)
  | .mkdir name mode ctx => do return .status (← Filesystem.mkdir name mode ctx)
  | .softlink linktarget linkname ctx => do return .status (← Filesystem.softlink linktarget linkname ctx)
  | .hardlink linktarget linkname ctx => do return .status (← Filesystem.hardlink linktarget linkname ctx)
  | .unlink filename ctx => do return .status (← Filesystem.unlink filename ctx)
  | .renamemove source dest ctx => do return .status (← Filesystem.renamemove source dest ctx)
  | .get path => do return .file (← Filesystem.get path)

theorem answer_eq_some {β : Type} {body : FsM β} {wrap : β → Answer} {answer : Answer} {s s' : Fs}
    (ran : (do return wrap (← body) : FsM Answer) s = some (answer, s')) : ∃ b, answer = wrap b ∧ body s = some (b, s') := by
  obtain ⟨b, t, called, done⟩ := Run.bind_eq_some.mp ran
  cases done
  exact ⟨b, rfl, called⟩

theorem Op.run_of_answer [Floats] {op : Op} {answer : Answer} {s s' : Fs} (ran : op.answer s = some (answer, s')) :
    op.run s = some ((), s') := by
  cases op with
  | mknod filename m ctx =>
    obtain ⟨e, _, called⟩ := answer_eq_some ran
    exact Run.bind_of_some called
  | mkdir name mode ctx =>
    obtain ⟨e, _, called⟩ := answer_eq_some ran
    exact Run.bind_of_some called
  | softlink linktarget linkname ctx =>
    obtain ⟨e, _, called⟩ := answer_eq_some ran
    exact Run.bind_of_some called
  | hardlink linktarget linkname ctx =>
    obtain ⟨e, _, called⟩ := answer_eq_some ran
    exact Run.bind_of_some called
  | unlink filename ctx =>
    obtain ⟨e, _, called⟩ := answer_eq_some ran
    exact Run.bind_of_some called
  | renamemove source dest ctx =>
    obtain ⟨e, _, called⟩ := answer_eq_some ran
    exact Run.bind_of_some called
  | get path =>
    obtain ⟨F, _, called⟩ := answer_eq_some ran
    exact Run.bind_of_some called

end Answers

/-- The inode at each path. -/
abbrev Hierarchy := Path → Option BucketIndex

namespace Hierarchy

/-- Nothing lies below the path. -/
def Bare (map : Hierarchy) (path : Path) : Prop := ∀ p, path <:+ p → p ≠ path → map p = none

/-- The path at which a call makes a file. -/
def makes : Op → Option Path
  | .mknod filename _ _ => some filename
  | .mkdir name _ _ => some name
  | .softlink _ linkname _ => some linkname
  | _ => none

/-- The path at which a call enters a file. -/
def enters : Op → Option Path
  | .hardlink _ linkname _ => some linkname
  | .renamemove _ dest _ => some dest
  | op => makes op

/-- The path from which a call takes a file away. -/
def takes : Op → Option Path
  | .unlink filename _ => some filename
  | .renamemove _ dest _ => some dest
  | _ => none

/-- The paths that have to be there for a call. -/
def needs : Op → List Path
  | .mknod filename _ _ => [getParentPath filename]
  | .mkdir name _ _ => [getParentPath name]
  | .softlink _ linkname _ => [getParentPath linkname]
  | .hardlink linktarget linkname _ => [linktarget, getParentPath linkname]
  | .unlink filename _ => [filename]
  | .renamemove source dest _ => [getParentPath source, source, getParentPath dest]
  | .get _ => []

/-- A path at which a file can be entered: its directory is there, and it is not. -/
def Vacant (map : Hierarchy) (path : Path) : Prop := ∃ c q, path = c :: q ∧ map q ≠ none ∧ map path = none

/-- A path that can be taken away. -/
def Removable (map : Hierarchy) (path : Path) : Prop := path ≠ [] ∧ map path ≠ none ∧ map.Bare path

/-- Why a file cannot be entered in a directory that is there. -/
inductive Barred (map : Hierarchy) (path : Path) : EE → Prop where
  | present (there : map path ≠ none) : Barred map path .exists
  | access : Barred map path .access_denied
  | permission : Barred map path .permission_denied

/-- What a refused call answers; the rights that it may lack do not occur in the map. -/
inductive Refusal (map : Hierarchy) (op : Op) : EE → Prop where
  | absent {path : Path} (needed : path ∈ needs op) (none : map path = none) : Refusal map op .entity_not_found
  | barred {path : Path} {e : EE} (entered : enters op = some path) (barred : map.Barred path e) : Refusal map op e
  | full {path : Path} (taken : takes op = some path) (below : ¬map.Bare path) : Refusal map op .not_empty
  | access : Refusal map op .access_denied
  | permission : Refusal map op .permission_denied

theorem Barred.failed {map : Hierarchy} {path : Path} {e : EE} (barred : map.Barred path e) : e ≠ .ok := by
  cases barred <;> decide

theorem Barred.mono {map map' : Hierarchy} {path : Path} {e : EE} (barred : map'.Barred path e)
    (fewer : map' path ≠ none → map path ≠ none) : map.Barred path e := by
  cases barred with
  | present there => exact .present (fewer there)
  | access => exact .access
  | permission => exact .permission

theorem Refusal.failed {map : Hierarchy} {op : Op} {e : EE} (refusal : map.Refusal op e) : e ≠ .ok := by
  cases refusal with
  | barred _ barred => exact barred.failed
  | _ => decide

/-- Whatever was at the path may have been taken away. -/
def Cleared (map map' : Hierarchy) (path : Path) : Prop :=
  map' = map ∨ (map.Removable path ∧ map' = Function.update map path none)

/-- How the map may change in a call that gives this answer. -/
inductive Does (map : Hierarchy) : Op × Answer → Hierarchy → Prop where
  | look (path : Path) : Does map (.get path, .file (map path)) map
  | refuse {op : Op} {e : EE} (refusal : map.Refusal op e) : Does map (op, .status e) map
  | make {op : Op} {path : Path} {i : BucketIndex} (made : makes op = some path) (vacant : map.Vacant path)
      (fresh : ∀ p, map p ≠ some i) : Does map (op, .status .ok) (Function.update map path (some i))
  -- the text of a link is written after its name has been entered
  | makeBlank (target : Str) {path : Path} (ctx : Context) {i : BucketIndex} (vacant : map.Vacant path)
      (fresh : ∀ p, map p ≠ some i) :
      Does map (.softlink target path ctx, .status .entity_not_found) (Function.update map path (some i))
  | link {target path : Path} (ctx : Context) {i : BucketIndex} (there : map target = some i) (vacant : map.Vacant path) :
      Does map (.hardlink target path ctx, .status .ok) (Function.update map path (some i))
  | remove {path : Path} (ctx : Context) (removable : map.Removable path) :
      Does map (.unlink path ctx, .status .ok) (Function.update map path none)
  | move {source dest : Path} (ctx : Context) (there : map source ≠ none) (outside : ¬source <:+ dest) (vacant : map.Vacant dest) :
      Does map (.renamemove source dest ctx, .status .ok) (NameGraph.move map source dest)
  | replace {source dest : Path} (ctx : Context) (there : map source ≠ none) (outside : ¬source <:+ dest)
      (removable : map.Removable dest) :
      Does map (.renamemove source dest ctx, .status .ok) (NameGraph.move (Function.update map dest none) source dest)
  -- what is at the new place goes before the file is entered there
  | lose {source dest : Path} (ctx : Context) {e : EE} (refusal : map.Refusal (.renamemove source dest ctx) e)
      (removable : map.Removable dest) :
      Does map (.renamemove source dest ctx, .status e) (Function.update map dest none)

end Hierarchy

section Entries
variable [Floats] {s s' : Fs} {level : Level} {c : Name} {q : Path} {d i : BucketIndex}

theorem Fs.walk_of_nodes (same : s'.nodes = s.nodes) : s'.walk = s.walk := Fs.walk_congr (congrArg edge same)

/-- A name has been entered for a file that is no directory yet. -/
structure Entered (s s' : Fs) (c : Name) (q : Path) (d i : BucketIndex) : Prop where
  above : s.walk q = some d
  dir : d ∈ dirs s.nodes
  absent : edge s.nodes d c = none
  leaf : i ∉ dirs s.nodes
  edges : edge s'.nodes = NameGraph.link (edge s.nodes) d c i

theorem Entered.vacant (entered : Entered s s' c q d i) : Hierarchy.Vacant s.walk (c :: q) := by
  refine ⟨c, q, rfl, ?_, ?_⟩
  · rw [entered.above]
    exact Option.some_ne_none d
  · rw [Fs.walk_cons_of entered.above]
    exact entered.absent

theorem Entered.walk (entered : Entered s s' c q d i) (names : Names level s) :
    s'.walk = Function.update s.walk (c :: q) (some i) := by
  have other : i ≠ d := fun same => entered.leaf (same ▸ entered.dir)
  calc s'.walk = NameGraph.walk (NameGraph.link (edge s.nodes) d c i) rootIndex := by
        rw [← entered.edges]
        rfl
    _ = Function.update s.walk (c :: q) (some i) :=
        names.tree.walk_link_eq entered.above entered.dir entered.absent other (edge_of_leaf entered.leaf)

theorem Entered.congr {t u : Fs} (entered : Entered s s' c q d i) (before : s.nodes = t.nodes) (after : edge u.nodes = edge s'.nodes) :
    Entered t u c q d i where
  above := by
    rw [← entered.above]
    exact congrFun (Fs.walk_of_nodes before.symm) q
  dir := before ▸ entered.dir
  absent := before ▸ entered.absent
  leaf := before ▸ entered.leaf
  edges := by rw [after, entered.edges, before]

/-- A directory that is open answers a refusal with its reason. -/
theorem addNode_barred {ctx : Context} {je : Option Wrapper} {e : EE} (readable : Readable s.nodes)
    (opened : (s.inodeFileCache d).isSome) (above : s.walk q = some d) (ran : addNode (some d) c i ctx je s = some (e, s')) :
    e = .ok ∨ Hierarchy.Barred s.walk (c :: q) e := by
  obtain ⟨file, here⟩ := Option.isSome_iff_exists.mp opened
  unfold addNode at ran
  obtain ⟨isValid, _, found, ran⟩ := Run.bind_eq_some.mp ran
  obtain ⟨validity, rfl⟩ := valid_eq_some.mp found
  rw [if_pos (validity.trans opened)] at ran
  obtain ⟨allowed, t, checked, ran⟩ := Run.bind_eq_some.mp ran
  obtain ⟨_, looked⟩ := validate_access_spec checked
  split at ran
  · obtain ⟨result, _, read, ran⟩ := Run.bind_eq_some.mp ran
    obtain ⟨rfl, which⟩ := readDirectory_spec (looked.nodes ▸ readable) (looked.files.kept here) read
    rw [looked.nodes] at which
    cases result with
    | none =>
      cases ran
      exact Or.inr .permission
    | some directory =>
      dsimp only at ran
      split at ran
      · rename_i listed
        cases ran
        right
        apply Hierarchy.Barred.present
        rw [Fs.walk_cons_of above]
        rcases which with ⟨_, none⟩ | ⟨m, holds, _, same⟩ | ⟨_, same⟩
        · cases none
        · cases same
          rw [m.hasProperty_json, ← holds.edge] at listed
          exact Option.isSome_iff_ne_none.mp listed
        · cases same
          cases listed
      · obtain ⟨_, _, _, ran⟩ := Run.bind_eq_some.mp ran
        obtain ⟨_, u, _, ran⟩ := Run.bind_eq_some.mp ran
        cases ran
        exact Or.inl rfl
  · cases ran
    exact Or.inr .access

theorem addNode_does {ctx : Context} {je : Option Wrapper} {e : EE} (names : Names level s) (opened : (s.inodeFileCache d).isSome)
    (above : s.walk q = some d) (dir : d ∈ dirs s.nodes)
    (fits : edge s.nodes d c = none → d ∈ dirs s.nodes → Fits s.nodes d c i) (ran : addNode (some d) c i ctx je s = some (e, s')) :
    (Hierarchy.Barred s.walk (c :: q) e ∧ Opened (s.permissions d) s s') ∨
      (e = .ok ∧ edge s.nodes d c = none ∧ edge s'.nodes = NameGraph.link (edge s.nodes) d c i ∧ Relinked (s.permissions d) s s') := by
  rcases addNode_spec names.alloc names.readable fits ran with ⟨failed, looked⟩ | ⟨isOk, absent, relinked, _, _, edges⟩
  · have barred := (addNode_barred names.readable opened above ran).resolve_left failed
    exact Or.inl ⟨barred, looked⟩
  · rcases edges with ⟨_, _, edges⟩ | ⟨outside, _⟩
    · exact Or.inr ⟨isOk, absent, edges, relinked⟩
    · exact absurd dir outside

end Entries

section Creates
variable [Floats] {s s' : Fs} {op : Op} {path : Path} {e : EE}

/-- A file has been made at the path, or the call has been refused. -/
def Made (s s' : Fs) (op : Op) (path : Path) (e : EE) : Prop :=
  (Hierarchy.Refusal s.walk op e ∧ s'.nodes = s.nodes) ∨
    (e = .ok ∧ ∃ c q d i, path = c :: q ∧ s.nodes i = none ∧ Entered s s' c q d i)

theorem Made.then (made : Made s s' op path e) {t : Fs} (same : t.nodes = s'.nodes) : Made s t op path e := by
  rcases made with ⟨refusal, nodes⟩ | ⟨isOk, c, q, d, i, shape, new, entered⟩
  · exact Or.inl ⟨refusal, same.trans nodes⟩
  · exact Or.inr ⟨isOk, c, q, d, i, shape, new, entered.congr rfl (congrArg edge same)⟩

theorem Names.unseen {level : Level} (names : Names level s) {i : BucketIndex} (new : s.nodes i = none) (p : Path) : s.walk p ≠ some i := by
  intro found
  have alive := names.walk_alive found
  rw [new] at alive
  cases alive

theorem Made.does {level : Level} (made : Made s s' op path e) (names : Names level s) (makes : Hierarchy.makes op = some path) :
    Hierarchy.Does s.walk (op, .status e) s'.walk := by
  rcases made with ⟨refusal, nodes⟩ | ⟨rfl, c, q, d, i, rfl, new, entered⟩
  · rw [Fs.walk_of_nodes nodes]
    exact .refuse refusal
  · rw [entered.walk names]
    exact .make makes entered.vacant (names.unseen new)

omit [Floats] in
theorem fetchIndex_fetched {s s' : Fs} {ino : BucketIndex} (ran : fetchIndex s = some (ino, s')) : ∃ b, s.accounting.fetch = some (ino, b) := by
  obtain ⟨⟨_, b⟩, here, same⟩ := Option.map_eq_some_iff.mp ran
  cases same
  exact ⟨b, here⟩

theorem mkobject_does (op : Op) {filename : Path} {ctx : Context} {type mod : Mode} (names : Names .exact s)
    (creates : Creates .exact s filename) (needed : getParentPath filename ∈ Hierarchy.needs op)
    (entered : Hierarchy.enters op = some filename) (ran : mkobject filename ctx type mod s = some (e, s')) : Made s s' op filename e := by
  unfold mkobject at ran
  obtain ⟨_, _, asserted, ran⟩ := Run.bind_eq_some.mp ran
  obtain ⟨_, rfl⟩ := Run.assert_eq_some.mp asserted
  cases filename with
  | nil =>
    cases ran
    exact Or.inl ⟨.barred entered (.present (Option.some_ne_none rootIndex)), rfl⟩
  | cons c q =>
    obtain ⟨F, s₁, found, ran⟩ := Run.bind_eq_some.mp ran
    obtain ⟨rfl, names₁, looked, opened⟩ := names.looked found
    cases above : s.walk q with
    | none =>
      rw [above] at ran
      cases ran
      exact Or.inl ⟨.absent needed above, looked.nodes⟩
    | some d =>
      rw [above] at ran
      obtain ⟨ino, s₂, fetched, ran⟩ := Run.bind_eq_some.mp ran
      obtain ⟨b, fetched'⟩ := fetchIndex_fetched fetched
      rw [looked.accounting] at fetched'
      obtain ⟨fits, dir⟩ := creates c q d ino b rfl above fetched'
      obtain ⟨_, alloc₂, held, beside, slots⟩ := fetchIndex_spec names₁.alloc fetched
      have names₂ := names₁.congr alloc₂ slots beside.paths beside.files
      obtain ⟨id, s₃, s₄, same, body, same'⟩ := withEntry_spec ran
      have names₃ := names₂.same same
      have nodes : s₃.nodes = s.nodes := by
        rw [same.nodes, Fs.nodes_congr slots, looked.nodes]
      have held₃ : Held s₃ ino := ⟨by rw [same.accounting]; exact held.taken, by rw [same.slots]; exact held.empty, held.bucket⟩
      have noNode : s₃.nodes ino = none := Fs.nodes_eq_none (fun n here => by rw [held₃.empty] at here; cases here)
      have leaf : ino ∉ dirs s₃.nodes := by
        intro member
        obtain ⟨n, here, _⟩ := member
        rw [noNode] at here
        cases here
      have walk := Fs.walk_of_nodes nodes
      have opened₃ : (s₃.inodeFileCache d).isSome := by
        rw [same.files, beside.files]
        exact opened d above
      obtain ⟨e', s₅, inner, body⟩ := Run.bind_eq_some.mp body
      obtain ⟨t, added, rfl⟩ := mkobjectInner_eq_some opened₃ inner
      have above₃ : s₃.walk q = some d := walk ▸ above
      have dir₃ : d ∈ dirs s₃.nodes := nodes ▸ dir trivial
      rcases addNode_does names₃ opened₃ above₃ dir₃ (nodes ▸ fits) added with ⟨barred, looked'⟩ | ⟨rfl, absent, edges, relinked⟩
      · rw [if_pos barred.failed, if_neg barred.failed] at body
        obtain ⟨_, s₆, posted, body⟩ := Run.bind_eq_some.mp body
        cases body
        obtain ⟨b', _, posted⟩ := Option.map_eq_some_iff.mp posted
        cases posted
        refine Or.inl ⟨.barred entered (walk ▸ barred), ?_⟩
        rw [same'.nodes]
        exact looked'.nodes.trans nodes
      · rw [if_neg (fun no => no rfl), if_pos rfl] at body
        cases body
        have entered' : Entered s₃ t c q d ino := ⟨above₃, dir₃, absent, leaf, edges⟩
        refine Or.inr ⟨rfl, c, q, d, ino, rfl, nodes ▸ noNode, entered'.congr nodes ?_⟩
        rw [same'.nodes]
        exact (edge_setSlot_fresh (relinked.held ino held₃).empty _ ctx).1

theorem mkdir_does {name : Path} {mode : Mode} {ctx : Context} (names : Names .exact s) (creates : Creates .exact s name)
    (ran : mkdir name mode ctx s = some (e, s')) : Hierarchy.Does s.walk (.mkdir name mode ctx, .status e) s'.walk :=
  (mkobject_does (.mkdir name mode ctx) names creates (List.mem_singleton_self _) rfl ran).does names rfl

theorem mknod_does {filename : Path} {m : Mode} {ctx : Context} (names : Names .exact s) (creates : Creates .exact s filename)
    (ran : mknod filename m ctx s = some (e, s')) : Hierarchy.Does s.walk (.mknod filename m ctx, .status e) s'.walk := by
  unfold mknod at ran
  obtain ⟨error, t, called, ran⟩ := Run.bind_eq_some.mp ran
  have made := mkobject_does (.mknod filename m ctx) names creates (List.mem_singleton_self _) rfl called
  split at ran
  · cases ran
    exact made.does names rfl
  · rename_i done
    obtain ⟨F, u, found, ran⟩ := Run.bind_eq_some.mp ran
    cases ran
    obtain ⟨names', _⟩ := mkobject_spec names creates called
    obtain ⟨_, _, looked, _⟩ := names'.looked found
    rw [not_not.mp done] at made
    exact (made.then looked.nodes).does names rfl

/-- Once its name is entered, a link is only written. -/
theorem softlink_does {linktarget : Str} {linkname : Path} {ctx : Context} (names : Names .exact s)
    (creates : Creates .exact s linkname) (ran : softlink linktarget linkname ctx s = some (e, s')) :
    Hierarchy.Does s.walk (.softlink linktarget linkname ctx, .status e) s'.walk := by
  unfold softlink at ran
  obtain ⟨error, t, called, ran⟩ := Run.bind_eq_some.mp ran
  have made := mkobject_does (.softlink linktarget linkname ctx) names creates (List.mem_singleton_self _) rfl called
  obtain ⟨names₁, type⟩ := mkobject_spec names creates called
  split at ran
  · cases ran
    exact made.does names rfl
  · rename_i done
    obtain ⟨⟨F, e₁⟩, u, found, ran⟩ := Run.bind_eq_some.mp ran
    dsimp only at ran
    obtain ⟨found, which⟩ := names₁.lookedErrcode found
    obtain ⟨there, names₂, looked, _⟩ := names₁.looked found
    rcases made with ⟨refusal, _⟩ | ⟨rfl, c, q, d, i, rfl, new, entered⟩
    · exact absurd refusal.failed done
    · have here : t.walk (c :: q) = some i := by
        rw [entered.walk names, Function.update_self]
      rw [here] at there
      subst there
      obtain rfl : e₁ = .ok := by
        rcases which with ⟨none, _⟩ | ⟨_, _, done⟩
        · cases none
        · exact done
      rw [if_neg (fun no => no rfl)] at ran
      obtain ⟨n, node, isLink⟩ := type rfl i here
      have leaf : i ∉ dirs u.nodes := by
        intro member
        obtain ⟨m, there, dir⟩ := member
        rw [looked.nodes, node] at there
        cases there
        rw [dir] at isLink
        exact absurd isLink (by decide)
      have written : ∀ {v : Fs}, Rewritten u v → v.walk = Function.update s.walk (c :: q) (some i) := by
        intro v rewritten
        rw [Fs.walk_congr rewritten.edges, looked.walk, entered.walk names]
      obtain ⟨ret, v, wrote, ran⟩ := Run.bind_eq_some.mp ran
      have first := write_spec names₂.alloc names₂.readable leaf wrote
      have leaf' : i ∉ dirs v.nodes := by
        rw [first.heads.dirs]
        exact leaf
      obtain ⟨_, w, cutOff, ran⟩ := Run.bind_eq_some.mp ran
      have second := first.trans (truncate_spec first.alloc first.readable leaf' cutOff)
      split at ran
      · cases ran
        rw [written second]
        exact .makeBlank linktarget ctx entered.vacant (names.unseen new)
      · obtain ⟨_, x, rested, ran⟩ := Run.bind_eq_some.mp ran
        cases ran
        rw [written (second.trans (rest_rewritten second.alloc second.readable rested))]
        exact .make rfl entered.vacant (names.unseen new)

theorem hardlink_does {linktarget linkname : Path} {ctx : Context} (names : Names .exact s)
    (links : Links .exact s linktarget linkname) (ran : hardlink linktarget linkname ctx s = some (e, s')) :
    Hierarchy.Does s.walk (.hardlink linktarget linkname ctx, .status e) s'.walk := by
  unfold hardlink at ran
  obtain ⟨F, s₁, found, ran⟩ := Run.bind_eq_some.mp ran
  obtain ⟨rfl, names₁, looked₁, _⟩ := names.looked found
  cases target : s.walk linktarget with
  | none =>
    rw [target] at ran
    cases ran
    rw [looked₁.walk]
    exact .refuse (.absent List.mem_cons_self target)
  | some i =>
    rw [target] at ran
    obtain ⟨F, s₂, found, ran⟩ := Run.bind_eq_some.mp ran
    obtain ⟨rfl, names₂, looked₂, opened₂⟩ := names₁.looked found
    have nodes : s₂.nodes = s.nodes := looked₂.nodes.trans looked₁.nodes
    have walk := Fs.walk_of_nodes nodes
    rw [looked₁.walk] at opened₂ ran
    cases above : s.walk (getParentPath linkname) with
    | none =>
      rw [above] at ran
      cases ran
      rw [walk]
      exact .refuse (.absent (List.mem_cons_of_mem _ (List.mem_singleton_self _)) above)
    | some d =>
      rw [above] at ran
      obtain ⟨leaf, fits, dir, _⟩ := links i d target above
      cases linkname with
      | nil =>
        -- the root is its own directory, where no entry is without a name
        cases above
        have none : edge s.nodes rootIndex [] = none := by
          cases there : edge s.nodes rootIndex [] with
          | none => rfl
          | some j => exact absurd rfl (names.readable.edge_name there).1
        exact absurd rfl (fits none (dir trivial)).1.1
      | cons c q =>
        obtain ⟨e', t, added, ran⟩ := Run.bind_eq_some.mp ran
        have above₂ : s₂.walk q = some d := walk ▸ above
        have dir₂ : d ∈ dirs s₂.nodes := nodes ▸ dir trivial
        rcases addNode_does names₂ (opened₂ d above) above₂ dir₂ (nodes ▸ fits) added with
          ⟨barred, looked⟩ | ⟨rfl, absent, edges, relinked⟩
        · rw [if_pos barred.failed] at ran
          cases ran
          rw [walk] at barred
          rw [Fs.walk_of_nodes (looked.nodes.trans nodes)]
          exact .refuse (.barred rfl barred)
        · rw [if_neg (fun no => no rfl)] at ran
          obtain ⟨_, u, modified, ran⟩ := Run.bind_eq_some.mp ran
          cases ran
          obtain ⟨n, slot, rfl⟩ := modifyINode_eq_some.mp modified
          have leaf₂ : i ∉ dirs s₂.nodes := nodes ▸ leaf
          have entered : Entered s₂ t c q d i := ⟨above₂, dir₂, absent, leaf₂, edges⟩
          have isLeaf : n.type ≠ .DIR := by
            intro dir
            apply leaf₂
            rw [← relinked.heads.dirs]
            exact ⟨n.seen, Fs.nodes_of_slot slot, dir⟩
          have sameEdges := (leaf_modify { n with nlinks := n.nlinks + 1 } slot isLeaf rfl).1
          have entered' := entered.congr nodes sameEdges
          rw [entered'.walk names]
          exact .link ctx target entered'.vacant

end Creates

section Removes
variable [Floats] {level : Level} {s s' : Fs} {map : Hierarchy} {op : Op} {c : Name} {q : Path} {d i : BucketIndex} {ctx : Context} {e : EE}

/-- An entry of the file at a path lies below it. -/
theorem Fs.not_bare {path : Path} (there : s.walk path = some i) (entry : edge s.nodes i c ≠ none) : ¬Hierarchy.Bare s.walk path := by
  intro bare
  apply entry
  rw [← Fs.walk_cons_of there]
  exact bare (c :: path) (List.suffix_cons c path) (List.cons_ne_self c path)

theorem dropLink_refusal {n : Inode} {file : FileObject} (readable : Readable s.nodes) (here : s.inodeFileCache i = some file)
    (plain : file.special = false) (ran : dropLink (some i) n s = some (.error e, s')) :
    e = .not_empty ∧ ∃ c, edge s.nodes i c ≠ none := by
  unfold dropLink at ran
  cases type : n.type with
  | DIR =>
    rw [type] at ran
    obtain ⟨full, t, asked, ran⟩ := Run.bind_eq_some.mp ran
    cases full with
    | true =>
      cases ran
      rcases isFullDir_full readable here asked with special | entry
      · rw [plain] at special
        cases special
      · exact ⟨rfl, entry⟩
    | false => cases ran
  | INVALID =>
    rw [type] at ran
    cases ran
  | _ =>
    rw [type] at ran
    obtain ⟨_, t, _, ran⟩ := Run.bind_eq_some.mp ran
    cases ran

/-- A name that is there is refused for its rights only. -/
theorem removeNode_refusal {je : Option Wrapper} (readable : Readable s.nodes) (opened : (s.inodeFileCache d).isSome)
    (last : edge s.nodes d c = some i) (ran : removeNode (some d) c ctx je s = some (e, s')) : e = .ok ∨ map.Refusal op e := by
  obtain ⟨file, here⟩ := Option.isSome_iff_exists.mp opened
  unfold removeNode at ran
  obtain ⟨isValid, _, found, ran⟩ := Run.bind_eq_some.mp ran
  obtain ⟨validity, rfl⟩ := valid_eq_some.mp found
  rw [if_pos (validity.trans opened)] at ran
  obtain ⟨allowed, t, checked, ran⟩ := Run.bind_eq_some.mp ran
  obtain ⟨_, looked⟩ := validate_access_spec checked
  split at ran
  · obtain ⟨result, _, read, ran⟩ := Run.bind_eq_some.mp ran
    obtain ⟨rfl, which⟩ := readDirectory_spec (looked.nodes ▸ readable) (looked.files.kept here) read
    rw [looked.nodes] at which
    rcases which with ⟨_, rfl⟩ | ⟨m, holds, _, rfl⟩ | ⟨outside, _⟩
    · cases ran
      exact Or.inr .permission
    · dsimp only at ran
      rw [m.hasProperty_json, ← holds.edge, last, Option.isSome_some, if_pos rfl] at ran
      obtain ⟨_, u, _, ran⟩ := Run.bind_eq_some.mp ran
      cases ran
      exact Or.inl rfl
    · rw [edge_of_leaf outside] at last
      cases last
  · cases ran
    exact Or.inr .access

theorem unlinkinner_refusal {je : Option Wrapper} {object : FileObject} (names : Names level s) (above : s.walk q = some d)
    (last : edge s.nodes d c = some i) (taken : Hierarchy.takes op = some (c :: q)) (opened : s.inodeFileCache i = some object)
    (plain : object.special = false) (ran : unlinkinner (c :: q) ctx je s = some (e, s')) : e = .ok ∨ Hierarchy.Refusal s.walk op e := by
  unfold unlinkinner at ran
  obtain ⟨F, s₁, found, ran⟩ := Run.bind_eq_some.mp ran
  obtain ⟨rfl, names₁, looked₁, opened₁⟩ := names.looked found
  obtain ⟨F, s₂, found, ran⟩ := Run.bind_eq_some.mp ran
  obtain ⟨rfl, names₂, looked₂, opened₂⟩ := names₁.looked found
  have there : s.walk (c :: q) = some i := (Fs.walk_cons_of above).trans last
  have nodes : s₂.nodes = s.nodes := looked₂.nodes.trans looked₁.nodes
  rw [looked₁.walk] at opened₂
  rw [looked₁.walk, there, show s.walk (getParentPath (c :: q)) = some d from above] at ran
  have folder : (s₂.inodeFileCache d).isSome := open_kept (opened₁ d above) looked₂.files
  have here := looked₂.files i object (looked₁.files i object opened)
  obtain ⟨n, _, found, ran⟩ := Run.bind_eq_some.mp ran
  obtain ⟨slot, rfl⟩ := INode_eq_some.mp found
  obtain ⟨_, t, checked, ran⟩ := Run.bind_eq_some.mp ran
  obtain rfl := checkUnlink_eq_some checked
  obtain ⟨result, t, dropped, ran⟩ := Run.bind_eq_some.mp ran
  have after : Readable t.nodes ∧ (t.inodeFileCache d).isSome ∧ edge t.nodes d c = some i := by
    rcases dropLink_spec names₂.readable slot here dropped with
      ⟨_, _, _, rfl⟩ | ⟨_, _, rfl, _⟩ | ⟨_, _, rfl⟩ | ⟨leaf, _, rfl, _⟩
    · exact ⟨names₂.readable, folder, nodes ▸ last⟩
    · exact ⟨names₂.readable, folder, nodes ▸ last⟩
    · exact ⟨names₂.readable, folder, nodes ▸ last⟩
    · obtain ⟨edges, _, readable⟩ := leaf_modify { n with nlinks := n.nlinks - 1 } slot leaf rfl
      exact ⟨readable names₂.readable, folder, by rw [edges, nodes]; exact last⟩
  cases result with
  | error error =>
    cases ran
    obtain ⟨rfl, x, entry⟩ := dropLink_refusal names₂.readable here plain dropped
    rw [nodes] at entry
    exact Or.inr (.full taken (Fs.not_bare there entry))
  | ok fileToDelete =>
    obtain ⟨ret, u, removed, ran⟩ := Run.bind_eq_some.mp ran
    have answer : ret = .ok ∨ Hierarchy.Refusal s.walk op ret := removeNode_refusal after.1 after.2.1 after.2.2 removed
    rcases answer with rfl | refusal
    · rw [if_pos rfl] at ran
      cases fileToDelete with
      | none =>
        obtain ⟨_, v, _, ran⟩ := Run.bind_eq_some.mp ran
        cases ran
        exact Or.inl rfl
      | some j =>
        obtain ⟨_, v, _, ran⟩ := Run.bind_eq_some.mp ran
        obtain ⟨_, w, _, ran⟩ := Run.bind_eq_some.mp ran
        cases ran
        exact Or.inl rfl
    · rw [if_neg refusal.failed] at ran
      cases ran
      exact Or.inr refusal

theorem unlink_refusal (op : Op) {filename : Path} (names : Names level s) (needed : filename ∈ Hierarchy.needs op)
    (taken : Hierarchy.takes op = some filename) (ran : unlink filename ctx s = some (e, s')) : e = .ok ∨ Hierarchy.Refusal s.walk op e := by
  unfold unlink at ran
  obtain ⟨F, s₁, first, ran⟩ := Run.bind_eq_some.mp ran
  obtain ⟨rfl, names₁, looked₁, _⟩ := names.looked first
  obtain ⟨F, s₂, second, ran⟩ := Run.bind_eq_some.mp ran
  obtain ⟨rfl, names₂, looked₂, opened₂⟩ := names₁.looked second
  have walk₂ : s₂.walk = s.walk := looked₂.walk.trans looked₁.walk
  rw [looked₁.walk] at opened₂ ran
  cases there : s.walk filename with
  | none =>
    rw [there] at ran
    cases ran
    exact Or.inr (.absent needed there)
  | some i =>
    rw [there] at ran
    obtain ⟨allowed, s₃, checked, ran⟩ := Run.bind_eq_some.mp ran
    obtain ⟨_, opened⟩ := validate_access_spec checked
    have names₃ := names₂.opened opened (names₂.listed (walk₂ ▸ there))
    split at ran
    · obtain ⟨special, _, asked, ran⟩ := Run.bind_eq_some.mp ran
      obtain ⟨shows, rfl⟩ := isSpecial_eq_some.mp asked
      obtain ⟨object, cached⟩ := Option.isSome_iff_exists.mp (opened₂ i there)
      have here := opened.files.kept cached
      split at ran
      · cases ran
        exact Or.inr .access
      · rename_i ordinary
        have plain : object.special = false := by
          rw [here, Option.map_some, Option.getD_some] at shows
          rw [← shows]
          exact Bool.eq_false_iff.mpr (fun isSpecial => ordinary (Or.inl isSpecial))
        cases filename with
        | nil =>
          cases there
          exact absurd (Or.inr rfl) ordinary
        | cons c q =>
          obtain ⟨d, above, last⟩ := Fs.walk_cons.mp there
          obtain ⟨n, _, found, ran⟩ := Run.bind_eq_some.mp ran
          obtain ⟨_, rfl⟩ := INode_eq_some.mp found
          obtain ⟨id, s₄, s₅, same, inner, _⟩ := withEntry_spec ran
          have nodes : s₄.nodes = s.nodes := by
            rw [same.nodes, opened.nodes, looked₂.nodes, looked₁.nodes]
          have answer := unlinkinner_refusal (names₃.same same) (Fs.walk_of_nodes nodes ▸ above) (nodes ▸ last) taken
            (same.files ▸ here) plain inner
          rw [Fs.walk_of_nodes nodes] at answer
          exact answer
    · cases ran
      exact Or.inr .access

/-- The file at the path is gone, with nothing below it. -/
theorem Removed.removable (names : Names level s) (above : s.walk q = some d) (last : edge s.nodes d c = some i)
    (removed : Removed s s' d c q i) :
    Hierarchy.Removable s.walk (c :: q) ∧ s'.walk = Function.update s.walk (c :: q) none := by
  have there : s.walk (c :: q) = some i := (Fs.walk_cons_of above).trans last
  refine ⟨⟨List.cons_ne_nil c q, ?_, ?_⟩, ?_⟩
  · rw [there]
    exact Option.some_ne_none i
  · intro p inside differs
    by_contra somewhere
    obtain ⟨j, found⟩ := Option.ne_none_iff_exists'.mp somewhere
    rcases walk_suffix found inside with same | ⟨k, x, k', atEnd, further⟩
    · exact differs same.symm
    · have atFile : k = i := Option.some.inj (atEnd.symm.trans there)
      rw [atFile, removed.empty x] at further
      cases further
  · calc s'.walk = NameGraph.walk (cut (edge s.nodes) d c) rootIndex := by
          rw [← removed.edges]
          rfl
      _ = Function.update s.walk (c :: q) none := names.tree.walk_cut_eq above last removed.empty

theorem unlink_does {filename : Path} (names : Names level s) (unlinks : Unlinks level s filename ctx)
    (ran : unlink filename ctx s = some (e, s')) : Hierarchy.Does s.walk (.unlink filename ctx, .status e) s'.walk := by
  have refusal := unlink_refusal (.unlink filename ctx) names (List.mem_singleton_self _) rfl ran
  obtain ⟨_, ⟨failed, looked⟩ | ⟨c, q, d, i, rfl, above, last, rfl, removed⟩⟩ := unlink_spec names unlinks ran
  · rw [looked.walk]
    exact .refuse (refusal.resolve_left failed)
  · obtain ⟨removable, walk⟩ := removed.removable names above last
    rw [walk]
    exact .remove ctx removable

end Removes

section Moves
variable [Floats] {s s' : Fs} {c c' : Name} {q q' dest : Path} {d d' i : BucketIndex} {ctx : Context} {e : EE}

/-- No directory has an entry without a name, so nothing is moved to the root. -/
theorem Ready.dest_ne_nil (ready : Ready .exact s c q dest d d' i ctx) : dest ≠ [] := by
  rintro rfl
  exact absurd rfl (ready.fits (ready.dir trivial)).1.1

/-- The call moves a file to where one of the files that show statistics and metadata is. -/
def Fs.Shows (s : Fs) : Op → Prop
  | .renamemove source dest _ => ∃ j object, s.walk dest = some j ∧
      (s.lookUp [getParentPath source, getParentPath dest, source, dest]).inodeFileCache j = some object ∧ object.special = true
  | _ => False

/-- At most what is at the new place goes before the file is entered there. -/
theorem moveIn_does {je : Option Wrapper} (names : Names .exact s) (ready : Ready .exact s c q (c' :: q') d d' i ctx)
    (ran : moveIn (some d') (c' :: q') i ctx je s = some (e, s')) :
    ∃ u, Names .exact u ∧ Ready .exact u c q (c' :: q') d d' i ctx ∧ Hierarchy.Cleared s.walk u.walk (c' :: q') ∧
      ((Hierarchy.Barred s.walk (c' :: q') e ∧ s'.nodes = u.nodes) ∨
        (e = .ok ∧ edge u.nodes d' c' = none ∧ edge s'.nodes = NameGraph.link (edge u.nodes) d' c' i)) := by
  unfold moveIn at ran
  obtain ⟨error, t, added, ran⟩ := Run.bind_eq_some.mp ran
  rcases addNode_does names ready.folder' ready.above' (ready.dir trivial) (fun _ => ready.fits) added with
    ⟨barred, opened⟩ | ⟨rfl, absent, edges, _⟩
  · have names₁ := names.opened opened (names.listed ready.above')
    have ready₁ := ready.looked (opened.looked (c' :: q')) (Or.inr ready.outside)
    have walk₁ : t.walk = s.walk := Fs.walk_of_nodes opened.nodes
    by_cases already : error = .exists
    · rw [if_pos already] at ran
      obtain ⟨removed, u, unlinked, ran⟩ := Run.bind_eq_some.mp ran
      obtain ⟨names₂, ready₂⟩ := ready₁.unlinked names₁ unlinked
      have cleared : Hierarchy.Cleared s.walk u.walk (c' :: q') := by
        have does := unlink_does names₁ (ready₁.unlinks names₁) unlinked
        rw [walk₁] at does
        generalize u.walk = map at does ⊢
        cases does with
        | refuse _ => exact Or.inl rfl
        | make makes _ _ => cases makes
        | remove _ removable => exact Or.inr ⟨removable, rfl⟩
      have fewer : u.walk (c' :: q') ≠ none → s.walk (c' :: q') ≠ none := by
        rcases cleared with same | ⟨_, gone⟩
        · rw [same]
          exact id
        · rw [gone, Function.update_self]
          exact fun impossible => absurd rfl impossible
      refine ⟨u, names₂, ready₂, cleared, ?_⟩
      rcases addNode_does names₂ ready₂.folder' ready₂.above' (ready₂.dir trivial) (fun _ => ready₂.fits) ran with
        ⟨barred', opened'⟩ | ⟨isOk, absent, edges, _⟩
      · exact Or.inl ⟨barred'.mono fewer, opened'.nodes⟩
      · exact Or.inr ⟨isOk, absent, edges⟩
    · rw [if_neg already] at ran
      cases ran
      exact ⟨s, names, ready, Or.inl rfl, Or.inl ⟨barred, opened.nodes⟩⟩
  · rw [if_neg (by decide)] at ran
    cases ran
    exact ⟨s, names, ready, Or.inl rfl, Or.inr ⟨rfl, absent, edges⟩⟩

theorem renamemoveinner_does {je : Option Wrapper} (names : Names .exact s) (ready : Ready .exact s c q dest d d' i ctx)
    (ran : renamemoveinner (c :: q) dest ctx je s = some (e, s')) :
    Hierarchy.Does s.walk (.renamemove (c :: q) dest ctx, .status e) s'.walk := by
  obtain ⟨c', q', rfl⟩ := List.exists_cons_of_ne_nil ready.dest_ne_nil
  have there : s.walk (c :: q) ≠ none := by
    rw [Fs.walk_cons_of ready.above, ready.last]
    exact Option.some_ne_none i
  have below : ∀ {p : Path}, p <:+ c' :: q' → p <:+ c :: q ∨ ¬c :: q <:+ p :=
    fun part => Or.inr (fun inside => ready.outside (inside.trans part))
  unfold renamemoveinner at ran
  obtain ⟨F₁, s₁, first, ran⟩ := Run.bind_eq_some.mp ran
  obtain ⟨found₁, names₁, looked₁, _⟩ := names.looked first
  have ready₁ := ready.looked looked₁ (Or.inl (List.suffix_cons c q))
  obtain ⟨F₂, s₂, second, ran⟩ := Run.bind_eq_some.mp ran
  obtain ⟨found₂, names₂, looked₂, _⟩ := names₁.looked second
  have ready₂ := ready₁.looked looked₂ (below (List.suffix_cons c' q'))
  obtain ⟨F₃, s₃, third, ran⟩ := Run.bind_eq_some.mp ran
  obtain ⟨found₃, names₃, looked₃, _⟩ := names₂.looked third
  have ready₃ := ready₂.looked looked₃ (Or.inl (List.suffix_refl _))
  obtain ⟨F₄, s₄, fourth, ran⟩ := Run.bind_eq_some.mp ran
  obtain ⟨_, names₄, looked₄, _⟩ := names₃.looked fourth
  have ready₄ := ready₃.looked looked₄ (below (List.suffix_refl _))
  obtain ⟨_, _, checked, ran⟩ := Run.bind_eq_some.mp ran
  obtain rfl := checkRename_eq_some checked
  have srcparent : F₁ = some d := found₁.trans ready.above
  have dstparent : F₂ = some d' := found₂.trans ready₁.above'
  have srcfile : F₃ = some i := found₃.trans (Fs.walk_cons.mpr ⟨d, ready₂.above, ready₂.last⟩)
  subst srcparent dstparent srcfile
  have walk : s₄.walk = s.walk := by
    rw [looked₄.walk, looked₃.walk, looked₂.walk, looked₁.walk]
  rw [← walk] at there ⊢
  obtain ⟨error, t, moved, ran⟩ := Run.bind_eq_some.mp ran
  obtain ⟨u, namesU, readyU, cleared, which⟩ := moveIn_does names₄ ready₄ moved
  rcases which with ⟨barred, nodes⟩ | ⟨rfl, absent, edges⟩
  · rw [if_pos barred.failed] at ran
    cases ran
    rw [Fs.walk_of_nodes nodes]
    rcases cleared with same | ⟨removable, gone⟩
    · rw [same]
      exact .refuse (.barred rfl barred)
    · rw [gone]
      exact .lose ctx (.barred rfl barred) removable
  · rw [if_neg (fun no => no rfl)] at ran
    obtain ⟨error, v, removed, ran⟩ := Run.bind_eq_some.mp ran
    rcases moveIn_spec names₄ ready₄ moved with ⟨failed, _⟩ | ⟨_, w, namesW, readyW, absentW, relinked, file, folder, edgesW⟩
    · exact absurd rfl failed
    obtain ⟨rfl, _⟩ := moveOut_spec namesW readyW absentW relinked folder edgesW removed
    rw [if_neg (fun no => no rfl)] at ran
    cases ran
    rcases removeNode_spec relinked.alloc relinked.readable removed with ⟨failed, _⟩ | ⟨_, _, _, _, cutEdges⟩
    · exact absurd rfl failed
    have outside : ¬c :: q <:+ q' := fun inside => ready.outside (inside.trans (List.suffix_cons c' q'))
    have moved' : ((v.setPath (c :: q) none).setPath (c' :: q') none).walk = NameGraph.move u.walk (c :: q) (c' :: q') := by
      calc ((v.setPath (c :: q) none).setPath (c' :: q') none).walk
          = NameGraph.walk (NameGraph.cut (NameGraph.link (edge u.nodes) d' c' i) d c) rootIndex := by
            rw [← edges]
            exact congrArg (fun edges => NameGraph.walk edges rootIndex) cutEdges
        _ = NameGraph.move u.walk (c :: q) (c' :: q') :=
            namesU.tree.walk_move_eq readyU.above readyU.last readyU.above' (readyU.dir trivial) absent outside
    rw [moved']
    rcases cleared with same | ⟨removable, gone⟩
    · rw [same]
      refine .move ctx there ready.outside ⟨c', q', rfl, ?_, ?_⟩
      · rw [show s₄.walk q' = some d' from ready₄.above']
        exact Option.some_ne_none d'
      · rw [← same, Fs.walk_cons_of (show u.walk q' = some d' from readyU.above')]
        exact absent
    · rw [gone]
      exact .replace ctx there ready.outside removable

/-- A move over a directory that shows statistics is refused as one over a full directory. -/
theorem renamemove_does {source : Path} (names : Names .exact s) (renames : Renames .exact s source dest ctx)
    (ran : renamemove source dest ctx s = some (e, s')) :
    Hierarchy.Does s.walk (.renamemove source dest ctx, .status e) s'.walk ∨
      (e = .not_empty ∧ s'.nodes = s.nodes ∧ s.Shows (.renamemove source dest ctx)) := by
  rcases renamemove_ready names renames ran with ⟨refused, _, nodes⟩ | ⟨c, q, d, d', i, je, t, u, rfl, names', ready, nodes, inner, same⟩
  · rcases refused with ⟨rfl, p, needed, none⟩ | rfl | ⟨rfl, j, object, there, here, special | ⟨x, entry⟩⟩
    · rw [Fs.walk_of_nodes nodes]
      exact Or.inl (.refuse (.absent needed none))
    · rw [Fs.walk_of_nodes nodes]
      exact Or.inl (.refuse .access)
    · exact Or.inr ⟨rfl, nodes, j, object, there, here, special⟩
    · rw [Fs.walk_of_nodes nodes]
      exact Or.inl (.refuse (.full rfl (Fs.not_bare there entry)))
  · have does := renamemoveinner_does names' ready inner
    rw [Fs.walk_of_nodes nodes] at does
    rw [Fs.walk_of_nodes same.nodes]
    exact Or.inl does

end Moves

section Runs
variable [Floats] {s s' : Fs}

/-- Every call does to the paths what its answer says, unless it would replace such a file. -/
theorem Op.does {op : Op} {answer : Answer} (names : Names .exact s) (regular : op.Regular .exact s)
    (ran : op.answer s = some (answer, s')) :
    Hierarchy.Does s.walk (op, answer) s'.walk ∨ (answer = .status .not_empty ∧ s'.nodes = s.nodes ∧ s.Shows op) := by
  cases op with
  | mknod filename m ctx =>
    obtain ⟨e, rfl, called⟩ := answer_eq_some ran
    exact Or.inl (mknod_does names regular called)
  | mkdir name mode ctx =>
    obtain ⟨e, rfl, called⟩ := answer_eq_some ran
    exact Or.inl (mkdir_does names regular called)
  | softlink linktarget linkname ctx =>
    obtain ⟨e, rfl, called⟩ := answer_eq_some ran
    exact Or.inl (softlink_does names regular called)
  | hardlink linktarget linkname ctx =>
    obtain ⟨e, rfl, called⟩ := answer_eq_some ran
    exact Or.inl (hardlink_does names regular called)
  | unlink filename ctx =>
    obtain ⟨e, rfl, called⟩ := answer_eq_some ran
    exact Or.inl (unlink_does names regular called)
  | renamemove source dest ctx =>
    obtain ⟨e, rfl, called⟩ := answer_eq_some ran
    exact (renamemove_does names regular called).imp id (fun which => ⟨congrArg Answer.status which.1, which.2⟩)
  | get path =>
    obtain ⟨F, rfl, called⟩ := answer_eq_some ran
    obtain ⟨rfl, _, looked, _⟩ := names.looked called
    rw [looked.walk]
    exact Or.inl (.look path)

/-- A call with its answer, under the conditions on it. -/
def Fs.Calls (s : Fs) (call : Op × Answer) (s' : Fs) : Prop :=
  call.1.Regular .exact s ∧ ¬s.Shows call.1 ∧ call.1.answer s = some (call.2, s')

/-- The paths of a stored image. -/
def Image.hierarchy (image : Image) : Hierarchy := NameGraph.walk (edge image.nodes) rootIndex

/-- Whatever a caller is told from a mount on, the map from paths to inodes could have told. -/
theorem calls_refine {image : Image} {s₀ s : Fs} {calls : List (Op × Answer)} (stored : Stored .exact image)
    (mounted : mount image = some s₀) (trace : Trace Fs.Calls calls s₀ s) :
    Trace Hierarchy.Does calls image.hierarchy s.walk := by
  have start : s₀.walk = image.hierarchy := by
    unfold Fs.walk Image.hierarchy
    rw [mount_nodes mounted]
  rw [← start]
  apply trace.simulates Fs.walk _ _ (stored.names mounted)
  · intro s call t names called
    obtain ⟨regular, _, ran⟩ := called
    exact names.step regular (Op.run_of_answer ran)
  · intro s call t names called
    obtain ⟨regular, plain, ran⟩ := called
    exact (Op.does names regular ran).resolve_right (fun which => plain which.2.2)

end Runs

section Tours
variable [Floats] {s s' : Fs}

/-- The calls of a list with their answers, each behind its check. -/
def answerChecked : List Op → Fs → Option (List (Op × Answer) × Fs)
  | [], s => some ([], s)
  | op :: ops, s =>
    if op.Checked s then (op.answer s).bind (fun result =>
      (answerChecked ops result.2).map (fun later => ((op, result.1) :: later.1, later.2)))
    else none

theorem Op.Checked.plain {op : Op} (checked : op.Checked s) : ¬s.Shows op := by
  cases op with
  | renamemove source dest ctx =>
    rintro ⟨j, _, there, _⟩
    rw [checked.2.1] at there
    cases there
  | _ => exact id

theorem Names.answerChecked (names : Names .exact s) {ops : List Op} {calls : List (Op × Answer)}
    (ran : answerChecked ops s = some (calls, s')) : calls.map Prod.fst = ops ∧ Trace Fs.Calls calls s s' := by
  induction ops generalizing s calls with
  | nil =>
    cases ran
    exact ⟨rfl, Trace.nil _⟩
  | cons op ops ih =>
    rw [Filesystem.answerChecked] at ran
    split at ran
    · rename_i checked
      obtain ⟨⟨answer, t⟩, first, ran⟩ := Option.bind_eq_some_iff.mp ran
      obtain ⟨⟨later, u⟩, rest, shape⟩ := Option.map_eq_some_iff.mp ran
      cases shape
      have regular := names.regular checked
      obtain ⟨same, trace⟩ := ih (names.step regular (Op.run_of_answer first)) rest
      exact ⟨congrArg (op :: ·) same, Trace.cons ⟨regular, checked.plain, first⟩ trace⟩
    · cases ran

end Tours

/-- A file is made, linked, moved and unlinked, and found at the place where it is left. -/
theorem calls_refine_tour : ∃ s₀ s : Fs, ∃ calls, mount (formatted superuser) = some s₀ ∧ calls.map Prod.fst = tour ∧
    calls.map Prod.snd = List.replicate 5 (.status .ok) ++ [.file (some 259)] ∧
    Trace Hierarchy.Does calls (formatted superuser).hierarchy s.walk := by
  have runs : (mount (formatted superuser)).bind (fun s₀ => (answerChecked tour s₀).map (fun ran => ran.1.map Prod.snd)) =
      some (List.replicate 5 (.status .ok) ++ [.file (some 259)]) := by decide +kernel
  obtain ⟨s₀, mounted, runs⟩ := Option.bind_eq_some_iff.mp runs
  obtain ⟨⟨calls, s⟩, ran, answers⟩ := Option.map_eq_some_iff.mp runs
  obtain ⟨same, trace⟩ := ((stored_formatted .exact).names mounted).answerChecked ran
  exact ⟨s₀, s, calls, mounted, same, answers, calls_refine (stored_formatted .exact) mounted trace⟩

end CloudCryptFS.Filesystem
