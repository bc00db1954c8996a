import CloudCryptFS.Filesystem.Mount
import Mathlib.Logic.Relation

/-! Runs of calls from a mount on. Each call keeps the tree and its caches in step under
the conditions on it, and so does each run; what follows for lookups, link counts and
checks of access is read off at the end of the run. -/

namespace CloudCryptFS.Filesystem
open Util NameGraph Script Script.Lexer Script.Json

theorem run_eq_some {α : Type} {body : FsM α} {s s' : Fs}
    (ran : (do let _ ← body : FsM Unit) s = some ((), s')) : ∃ result, body s = some (result, s') := by
  obtain ⟨result, t, called, done⟩ := Run.bind_eq_some.mp ran
  cases done
  exact ⟨result, called⟩

section Runs
variable [Floats]

/-- The calls that are of interest: a file is not moved onto itself or below itself. -/
def Op.Sensible : Op → Prop
  | .renamemove source dest _ => ¬source <:+ dest
  | _ => True

instance : DecidablePred Op.Sensible := fun op => by
  unfold Op.Sensible
  split <;> infer_instance

/-- The conditions on a call. -/
def Op.Regular (level : Level) (s : Fs) : Op → Prop
  | .mknod filename _ _ => Creates level s filename
  | .mkdir name _ _ => Creates level s name
  | .softlink _ linkname _ => Creates level s linkname
  | .hardlink linktarget linkname _ => Links level s linktarget linkname
  | .unlink filename ctx => Unlinks level s filename ctx
  | .renamemove source dest ctx => Renames level s source dest ctx
  | .get _ => True

/-- A run of allowed calls; a call that does not return leads nowhere. -/
def Steps (allowed : Fs → Op → Prop) : Fs → Fs → Prop :=
  Relation.ReflTransGen (fun s s' => ∃ op, allowed s op ∧ op.run s = some ((), s'))

variable {level : Level} {s s' : Fs}

theorem Names.step {op : Op} (names : Names level s) (regular : op.Regular level s) (ran : op.run s = some ((), s')) :
    Names level s' := by
  cases op with
  | mknod filename m ctx =>
    obtain ⟨e, called⟩ := run_eq_some ran
    exact mknod_spec names regular called
  | mkdir name mode ctx =>
    obtain ⟨e, called⟩ := run_eq_some ran
    exact mkdir_spec names regular called
  | softlink linktarget linkname ctx =>
    obtain ⟨e, called⟩ := run_eq_some ran
    exact softlink_spec names regular called
  | hardlink linktarget linkname ctx =>
    obtain ⟨e, called⟩ := run_eq_some ran
    exact hardlink_spec names regular called
  | unlink filename ctx =>
    obtain ⟨e, called⟩ := run_eq_some ran
    exact (unlink_spec names regular called).1
  | renamemove source dest ctx =>
    obtain ⟨e, called⟩ := run_eq_some ran
    exact renamemove_spec names regular called
  | get path =>
    obtain ⟨F, called⟩ := run_eq_some ran
    exact (names.looked called).2.1

theorem Names.run (names : Names level s) (steps : Steps (fun s op => op.Regular level s) s s') : Names level s' := by
  induction steps with
  | refl => exact names
  | tail _ last ih =>
    obtain ⟨op, regular, ran⟩ := last
    exact ih.step regular ran

def Level.plain : Level := ⟨False, False⟩
def Level.exact : Level := ⟨True, False⟩
def Level.strict : Level := ⟨False, True⟩

/-- The calls of a list, one after the other. -/
def runAll : List Op → FsM Unit
  | [] => pure ()
  | op :: ops => do
    op.run
    runAll ops

theorem steps_of_runAll {allowed : Op → Prop} {ops : List Op} (all : ∀ op ∈ ops, allowed op) (ran : runAll ops s = some ((), s')) :
    Steps (fun _ op => allowed op) s s' := by
  induction ops generalizing s with
  | nil =>
    cases ran
    exact Relation.ReflTransGen.refl
  | cons op ops ih =>
    obtain ⟨_, t, first, later⟩ := Run.bind_eq_some.mp ran
    have step : ∃ op : Op, allowed op ∧ op.run s = some ((), t) := ⟨op, all op List.mem_cons_self, first⟩
    exact Relation.ReflTransGen.head step (ih (fun op member => all op (List.mem_cons_of_mem _ member)) later)

end Runs

section Format

/-- What `initFileSystem` stores of a new file system, without its metadata. -/
def formatted (ctx : Context) : Image where
  metaBuckets := [1]
  slots := fun i =>
    if i = rootIndex then .node { Inode.fresh (0o777 ||| Mode.TYPE_DIR) ctx with metaIDs := [metaIndex] }
    else if i = metaIndex then .ctd
    else .none

variable {ctx : Context}

private theorem formatted_type : (Inode.fresh (0o777 ||| Mode.TYPE_DIR) ctx).type = .DIR := by
  have type : Mode.fileType (0o777 ||| Mode.TYPE_DIR) = .DIR := by decide
  exact type

private theorem formatted_node {i : BucketIndex} {n : Inode} (here : (formatted ctx).slots i = .node n) :
    i = rootIndex ∧ n = { Inode.fresh (0o777 ||| Mode.TYPE_DIR) ctx with metaIDs := [metaIndex] } := by
  unfold formatted at here
  dsimp only at here
  split at here
  · rename_i isRoot
    cases here
    exact ⟨isRoot, rfl⟩
  · split at here
    · cases here
    · cases here

theorem formatted_nodes {i : BucketIndex} {n : Inode} (here : (formatted ctx).nodes i = some n) :
    i = rootIndex ∧ n = Inode.fresh (0o777 ||| Mode.TYPE_DIR) ctx := by
  unfold Image.nodes at here
  split at here
  · rename_i m slot
    obtain ⟨isRoot, rfl⟩ := formatted_node slot
    cases here
    exact ⟨isRoot, rfl⟩
  · cases here

variable [Floats]

private theorem formatted_holds : Holds (formatted ctx).nodes rootIndex DirMap.empty :=
  ⟨Inode.fresh (0o777 ||| Mode.TYPE_DIR) ctx, rfl, formatted_type, contentOf_empty, DirMap.storable_empty⟩

theorem edge_formatted (d : BucketIndex) (c : Name) : edge (formatted ctx).nodes d c = none := by
  by_cases isRoot : d = rootIndex
  · rw [isRoot, formatted_holds.edge]
    rfl
  · apply edge_of_leaf
    intro member
    obtain ⟨n, here, _⟩ := member
    exact isRoot (formatted_nodes here).1

theorem dirs_formatted : dirs (formatted ctx).nodes = {rootIndex} := by
  ext i
  constructor
  · intro member
    obtain ⟨n, here, _⟩ := member
    exact (formatted_nodes here).1
  · intro same
    rw [Set.mem_singleton_iff.mp same]
    exact formatted_holds.mem

/-- A new file system is sound at every level. -/
theorem stored_formatted (level : Level) : Stored level (formatted ctx) where
  distinct := List.nodup_singleton 1
  positive := fun id member => by
    rw [List.mem_singleton.mp member]
    exact Nat.one_pos
  listed := fun i used => by
    unfold formatted at used ⊢
    dsimp only at used ⊢
    split at used
    · rename_i same
      rw [same]
      decide
    · split at used
      · rename_i same
        rw [same]
        decide
      · exact absurd rfl used
  chain := fun i n here => by
    obtain ⟨_, rfl⟩ := formatted_node here
    refine ⟨List.nodup_singleton metaIndex, fun j member => ?_⟩
    rw [List.mem_singleton.mp member]
    rfl
  apart := fun i n i' n' j here there _ _ => (formatted_node here).1.trans (formatted_node there).1.symm
  readable := fun d member => by
    rw [dirs_formatted] at member
    rw [Set.mem_singleton_iff.mp member]
    exact ⟨DirMap.empty, formatted_holds⟩
  tree := by
    refine ⟨formatted_holds.mem, ?_, ?_, ?_⟩
    · intro d c i found
      rw [edge_formatted] at found
      cases found
    · intro d c found
      rw [edge_formatted] at found
      cases found
    · intro d c d' c' i _ found
      rw [edge_formatted] at found
      cases found
  live := fun d c i found => by
    rw [edge_formatted] at found
    cases found
  links := fun i n here leaf => by
    obtain ⟨_, rfl⟩ := formatted_nodes here
    exact absurd formatted_type leaf
  counted := fun _ i n here leaf => by
    obtain ⟨_, rfl⟩ := formatted_nodes here
    exact absurd formatted_type leaf
  special := fun p i _ _ c => edge_formatted i c
  single := fun _ d c d' c' i found => by
    rw [edge_formatted] at found
    cases found
  reached := fun _ d member => by
    rw [dirs_formatted] at member
    exact ⟨[], congrArg some (Set.mem_singleton_iff.mp member).symm⟩

end Format

section Checks
variable [Floats]
variable {level : Level} {s s' : Fs} {nodes : Nodes} {d i : BucketIndex} {m : DirMap} {name : Name}

instance : DecidablePred (fun i => i ∈ dirs nodes) := fun i =>
  decidable_of_iff (∃ n ∈ nodes i, n.type = .DIR) Iff.rfl

/-- The entries of a directory with their indexes. -/
def entriesAt (nodes : Nodes) (d : BucketIndex) : List (Name × BucketIndex) :=
  match (nodes d).map (fun n => contentOf (F := Floats.F) n.data) with
  | some (some (some directory)) => directory.values.map (fun entry => (entry.1, (lookup directory entry.1).getD 0))
  | _ => []

theorem Holds.entriesAt (holds : Holds nodes d m) : entriesAt nodes d = m.entries := by
  obtain ⟨n, here, _, content, _⟩ := holds
  unfold Filesystem.entriesAt
  rw [here, Option.map_some, content]
  dsimp only
  simp only [m.lookup_json]
  have values : (m.json : JSON Floats.F).values = m.entries.map (fun entry => (entry.1, .int [toInt64 entry.2])) := by
    simp only [DirMap.json, Flat.flat, JSON.values, DirMap.signed, SortedEntries.mapValues, List.map_map, Function.comp_def]
  rw [values, List.map_map]
  calc m.entries.map _ = m.entries.map id := List.map_congr_left (fun entry member => by
          have found : m.find entry.1 = some entry.2 := (SortedEntries.find?_eq_some_iff m.sorted entry.1 entry.2).mpr member
          simp [found])
    _ = m.entries := List.map_id _

/-- `Fits`, by a look at the entries that are there. -/
def FitsNow (nodes : Nodes) (d : BucketIndex) (name : Name) (i : BucketIndex) : Prop :=
  FileName name ∧ (0 < i ∧ i < 2 ^ 64) ∧ StorableEntries (SortedEntries.set name i (entriesAt nodes d))

instance : Decidable (FitsNow nodes d name i) := inferInstanceAs (Decidable (_ ∧ _))

theorem Holds.fits (holds : Holds nodes d m) (fits : FitsNow nodes d name i) : Fits nodes d name i := by
  obtain ⟨isName, index, storable⟩ := fits
  refine ⟨isName, index, fun m' find => ?_⟩
  have same : m'.entries = (m.insert isName index).entries := by
    apply SortedEntries.eq_of_find? m'.sorted (m.insert isName index).sorted
    intro c
    calc m'.find c = if c = name then some i else Filesystem.edge nodes d c := find c
      _ = (m.insert isName index).find c := by rw [holds.edge, m.find_insert]
  unfold DirMap.Storable
  rw [same]
  rw [holds.entriesAt] at storable
  exact storable

/-- A check of the conditions on a call, for the superuser and a place without a file. -/
def Op.Checked (s : Fs) : Op → Prop
  | .mknod filename _ _ | .mkdir filename _ _ | .softlink _ filename _ =>
    ∀ d ∈ s.walk (getParentPath filename), ∀ fetched ∈ s.accounting.fetch,
      d ∈ dirs s.nodes ∧ FitsNow s.nodes d (getChildPath filename) fetched.1
  | .hardlink linktarget linkname _ =>
    ∀ i ∈ s.walk linktarget, ∀ d ∈ s.walk (getParentPath linkname), i ∉ dirs s.nodes ∧ d ∈ dirs s.nodes ∧
      FitsNow s.nodes d (getChildPath linkname) i ∧ ∃ entry ∈ entriesAt s.nodes d, entry.2 = i
  | .unlink filename ctx =>
    ∀ d ∈ s.walk (getParentPath filename), ∀ i ∈ s.walk filename,
      (∀ n ∈ (s.lookUp [getParentPath filename, filename]).nodes i, n.type ≠ .INVALID) ∧
        (s.lookUp [getParentPath filename, filename]).access (some d) ctx Access.WX = true
  | .renamemove source dest ctx =>
    ¬source <:+ dest ∧ s.walk dest = none ∧
      ∀ d ∈ s.walk (getParentPath source), ∀ d' ∈ s.walk (getParentPath dest), ∀ i ∈ s.walk source,
        i ∉ dirs s.nodes ∧ d = d' ∧ d' ∈ dirs s.nodes ∧ FitsNow s.nodes d' (getChildPath dest) i ∧
          (s.lookUp [getParentPath source, getParentPath dest, source, dest]).access (some d) ctx Access.WX = true
  | .get _ => True

instance : DecidablePred (Op.Checked s) := fun op => by
  unfold Op.Checked
  split <;> infer_instance

theorem Names.fits (names : Names level s) (dir : d ∈ dirs s.nodes) (fits : FitsNow s.nodes d name i) : Fits s.nodes d name i := by
  obtain ⟨m, holds⟩ := names.readable d dir
  exact holds.fits fits

/-- Nothing is cached below a file. -/
theorem Names.cached_leaf (names : Names level s) {source p : Path} {j : BucketIndex} (found : s.walk source = some i)
    (leaf : i ∉ dirs s.nodes) (cached : s.pathInodeCache p = some j) (below : source <:+ p) : p = source := by
  obtain ⟨front, rfl⟩ := below
  have walked := (names.cached _ _ cached).1
  clear cached
  induction front generalizing j with
  | nil => rfl
  | cons c front ih =>
    obtain ⟨d, above, last⟩ := Fs.walk_cons.mp walked
    have same : front ++ source = source := ih above
    rw [show front.append source = source from same, found] at above
    cases above
    rw [edge_of_leaf leaf] at last
    cases last

theorem Names.creates (names : Names level s) {filename : Path}
    (checked : ∀ d ∈ s.walk (getParentPath filename), ∀ fetched ∈ s.accounting.fetch,
      d ∈ dirs s.nodes ∧ FitsNow s.nodes d (getChildPath filename) fetched.1) : Creates level s filename := by
  rintro c q d ino b rfl above fetched
  obtain ⟨dir, fits⟩ := checked d above (ino, b) fetched
  exact ⟨fun _ _ => names.fits dir fits, fun _ => dir⟩

theorem Names.regular (names : Names level s) {op : Op} (checked : op.Checked s) : op.Regular level s := by
  cases op with
  | mknod filename m ctx => exact names.creates checked
  | mkdir name mode ctx => exact names.creates checked
  | softlink linktarget linkname ctx => exact names.creates checked
  | hardlink linktarget linkname ctx =>
    intro i d target above
    obtain ⟨leaf, dir, fits, ⟨c, _⟩, member, rfl⟩ := checked i target d above
    refine ⟨leaf, fun _ _ => names.fits dir fits, fun _ => dir, fun _ => ⟨c, ?_⟩⟩
    obtain ⟨m, holds⟩ := names.readable d dir
    rw [holds.entriesAt] at member
    rw [holds.edge]
    exact (SortedEntries.find?_eq_some_iff m.sorted _ _).mpr member
  | unlink filename ctx =>
    intro d i above found n here _ _
    obtain ⟨valid, access⟩ := checked d above i found
    exact ⟨fun _ => valid n here, fun _ => access⟩
  | renamemove source dest ctx =>
    obtain ⟨outside, fresh, places⟩ := checked
    intro d d' i above above' found _
    obtain ⟨leaf, same, dir, fits, access⟩ := places d above d' above' i found
    refine ⟨outside, fun p j cached below => names.cached_leaf found leaf cached below, fun _ => names.fits dir fits, fun _ => dir,
      fun _ => same, access, fun j there => ?_⟩
    rw [fresh] at there
    cases there
  | get path => trivial

/-- The calls of a list, each behind its check. -/
def runChecked : List Op → Fs → Option Fs
  | [], s => some s
  | op :: ops, s => if op.Checked s then (op.run s).bind (fun result => runChecked ops result.2) else none

theorem Names.runChecked (names : Names level s) {ops : List Op} (ran : runChecked ops s = some s') :
    runAll ops s = some ((), s') ∧ Steps (fun s op => op.Regular level s) s s' := by
  induction ops generalizing s with
  | nil =>
    cases ran
    exact ⟨rfl, Relation.ReflTransGen.refl⟩
  | cons op ops ih =>
    rw [Filesystem.runChecked] at ran
    split at ran
    · rename_i checked
      obtain ⟨⟨_, t⟩, first, later⟩ := Option.bind_eq_some_iff.mp ran
      have regular := names.regular checked
      obtain ⟨ranAll, steps⟩ := ih (names.step regular first) later
      exact ⟨by rw [runAll, Run.bind_of_some first, ranAll], Relation.ReflTransGen.head ⟨op, regular, first⟩ steps⟩
    · cases ran

end Checks

section Made

/-- A platform whose floats are whole numbers. -/
instance wholeFloats : Floats where
  F := Int
  lib := ⟨0, fun x => -x, fun i => i, fun x => x, fun _ => [], fun _ => none⟩

def superuser : Context := ⟨0, 0, []⟩

def dirD : Path := [[100]]
def dirE : Path := [[101]]
def fileD : Path := [[102], [100]]

/-- A first directory can be made in a new file system. -/
theorem creates_dirD {level : Level} {s₀ : Fs} (mounted : mount (formatted superuser) = some s₀) : Creates level s₀ dirD := by
  have checked : (mount (formatted superuser)).map (fun s₀ => decide ((Op.mkdir dirD 0o755 superuser).Checked s₀)) = some true := by
    decide +kernel
  rw [mounted, Option.map_some, Option.some.injEq, decide_eq_true_eq] at checked
  exact ((stored_formatted level).names mounted).regular checked

/-- The state after the first directory has been made. -/
theorem made_dirD (level : Level) : ∃ s₀ s, mount (formatted superuser) = some s₀ ∧
    (Op.mkdir dirD 0o755 superuser).run s₀ = some ((), s) ∧ Steps (fun s op => op.Regular level s) s₀ s := by
  have runs : ((mount (formatted superuser)).bind (fun s₀ => (Op.mkdir dirD 0o755 superuser).run s₀)).isSome := by decide +kernel
  obtain ⟨⟨_, s⟩, ran⟩ := Option.isSome_iff_exists.mp runs
  obtain ⟨s₀, mounted, ran⟩ := Option.bind_eq_some_iff.mp ran
  have regular : (Op.mkdir dirD 0o755 superuser).Regular level s₀ := creates_dirD mounted
  exact ⟨s₀, s, mounted, ran, Relation.ReflTransGen.single ⟨_, regular, ran⟩⟩

def fileGD : Path := [[103], [100]]
def fileH : Path := [[104], [100]]

/-- A file is made below a directory, linked, moved and unlinked at its second name. -/
def tour : List Op :=
  [.mkdir dirD 0o755 superuser, .mknod fileD 0o644 superuser, .hardlink fileD fileGD superuser,
    .renamemove fileD fileH superuser, .unlink fileGD superuser, .get fileH]

theorem toured (level : Level) : ∃ s₀ s, mount (formatted superuser) = some s₀ ∧ runAll tour s₀ = some ((), s) ∧
    Steps (fun s op => op.Regular level s) s₀ s ∧ s.walk fileH = some 259 ∧ s.pathInodeCache fileH = some 259 ∧
    (s.nodes 259).map (fun n => (n.type, n.nlinks)) = some (.FILE, 1) := by
  have runs : (mount (formatted superuser)).bind (fun s₀ => (runChecked tour s₀).map (fun s =>
      (s.walk fileH, s.pathInodeCache fileH, (s.nodes 259).map (fun n => (n.type, n.nlinks))))) =
      some (some 259, some 259, some (.FILE, 1)) := by decide +kernel
  obtain ⟨s₀, mounted, runs⟩ := Option.bind_eq_some_iff.mp runs
  obtain ⟨s, ran, ends⟩ := Option.map_eq_some_iff.mp runs
  simp only [Prod.mk.injEq] at ends
  obtain ⟨ranAll, steps⟩ := ((stored_formatted level).names mounted).runChecked ran
  exact ⟨s₀, s, mounted, ranAll, steps, ends⟩

end Made

section Lookups

/-- Lookups follow the directories in every run of regular calls. -/
theorem get_eq_walk [Floats] {image : Image} {s₀ s : Fs} (stored : Stored .plain image) (mounted : mount image = some s₀)
    (steps : Steps (fun s op => op.Regular .plain s) s₀ s) (p : Path) : ∃ s', get p s = some (s.walk p, s') := by
  obtain ⟨s', found, _⟩ := ((stored.names mounted).run steps).get p
  exact ⟨s', found⟩

theorem get_eq_walk_tour : ∃ s₀ s s', mount (formatted superuser) = some s₀ ∧ runAll tour s₀ = some ((), s) ∧
    s.pathInodeCache fileH = some 259 ∧ s.walk fileH = some 259 ∧ get fileH s = some (s.walk fileH, s') := by
  obtain ⟨s₀, s, mounted, ran, steps, there, cached, _⟩ := toured .plain
  obtain ⟨s', found⟩ := get_eq_walk (stored_formatted .plain) mounted steps fileH
  exact ⟨s₀, s, s', mounted, ran, cached, there, found⟩

/-- A file is still found where its directory was before it was moved. -/
theorem get_stale : ¬∀ (image : Image) (s₀ s : Fs) (p : Path), Stored .plain image → mount image = some s₀ →
    Steps (fun _ op => op.Sensible) s₀ s → ∃ s', get p s = some (s.walk p, s') := by
  intro agrees
  let ops : List Op := [.mkdir dirD 0o755 superuser, .mknod fileD 0o644 superuser, .renamemove dirD dirE superuser]
  have differs : ((mount (formatted superuser)).bind (fun s₀ => (runAll ops s₀).map (fun result =>
      ((get fileD result.2).map Prod.fst, result.2.walk fileD)))) = some (some (some 259), none) := by decide +kernel
  obtain ⟨s₀, mounted, ran⟩ := Option.bind_eq_some_iff.mp differs
  obtain ⟨⟨_, s⟩, ran, answers⟩ := Option.map_eq_some_iff.mp ran
  obtain ⟨s', found⟩ := agrees _ s₀ s fileD (stored_formatted .plain) mounted (steps_of_runAll (by decide) ran)
  obtain ⟨cached, walked⟩ := Prod.mk.inj answers
  rw [found, walked] at cached
  cases cached

end Lookups

section Links

/-- The entries in the tree that carry an index. -/
def Fs.entries [Floats] (s : Fs) (i : BucketIndex) : Set (BucketIndex × Name) :=
  {e | (∃ p, s.walk p = some e.1) ∧ edge s.nodes e.1 e.2 = some i}

/-- The links of each file are counted, and no entry leads to an inode that was freed. -/
def Fs.Counted [Floats] (s : Fs) : Prop :=
  (∀ i n, s.nodes i = some n → n.type ≠ .DIR → 0 ≤ n.nlinks ∧ (s.entries i).encard = n.nlinks.toNat) ∧
    ∀ p d c i, s.walk p = some d → edge s.nodes d c = some i → (s.nodes i).isSome ∧ ¬s.accounting.Free i

theorem counted_of_regular [Floats] {image : Image} {s₀ s : Fs} (stored : Stored .exact image) (mounted : mount image = some s₀)
    (steps : Steps (fun s op => op.Regular .exact s) s₀ s) : s.Counted := by
  have names := (stored.names mounted).run steps
  have inTree : ∀ i, s.entries i = links (edge s.nodes) i := by
    intro i
    ext ⟨d, c⟩
    constructor
    · exact fun entry => entry.2
    · intro found
      exact ⟨names.reached trivial d (names.tree.source d c i found), found⟩
  constructor
  · intro i n here leaf
    rw [inTree]
    exact ⟨(names.links i n here leaf).1, names.counted trivial i n here leaf⟩
  · intro p d c i _ found
    have alive := names.live d c i found
    refine ⟨alive, fun free => ?_⟩
    have none : s.nodes i = none := Fs.nodes_eq_none (fun n here => by rw [names.alloc.free i free] at here; cases here)
    rw [none] at alive
    cases alive

theorem counted_tour : ∃ s₀ s, mount (formatted superuser) = some s₀ ∧ runAll tour s₀ = some ((), s) ∧
    (s.nodes 259).map (fun n => (n.type, n.nlinks)) = some (.FILE, 1) ∧ s.Counted := by
  obtain ⟨s₀, s, mounted, ran, steps, _, _, file⟩ := toured .exact
  exact ⟨s₀, s, mounted, ran, file, counted_of_regular (stored_formatted .exact) mounted steps⟩

/-- The calls that the link counts are about. -/
def Op.Linking : Op → Prop
  | .mknod _ _ _ | .softlink _ _ _ | .hardlink _ _ _ | .unlink _ _ => True
  | .renamemove source dest _ => ¬source <:+ dest
  | _ => False

instance : DecidablePred Op.Linking := fun op => by
  unfold Op.Linking
  split <;> infer_instance

/-- A file is counted down at a place where its directory was before. -/
theorem count_lost : ¬∀ (image : Image) (s₀ s : Fs), Stored .exact image → mount image = some s₀ →
    Steps (fun _ op => op.Linking) s₀ s → s.Counted := by
  intro counts
  let ops : List Op := [.mknod fileD 0o644 superuser, .renamemove dirD dirE superuser, .unlink fileD superuser]
  obtain ⟨s₀, made, mounted, ranMkdir, steps⟩ := made_dirD .exact
  have image : ((mount (formatted superuser)).bind (fun s₀ => ((Op.mkdir dirD 0o755 superuser).run s₀).map (fun made =>
      (decide (made.2.accounting.bucketsInUse = {1}), made.2.walk [lit "._stats"], made.2.walk [lit "._meta"])))) =
      some (true, none, none) := by decide +kernel
  have wrong : ((mount (formatted superuser)).bind (fun s₀ => ((Op.mkdir dirD 0o755 superuser).run s₀).bind (fun made =>
      (mount ⟨[1], made.2.slots⟩).bind (fun s₁ => (runAll ops s₁).map (fun result =>
        ((result.2.nodes 259).map (fun n => (n.type, n.nlinks)), result.2.walk dirE, edge result.2.nodes 258 [102])))))) =
      some (some (.FILE, 0), some 258, some 259) := by decide +kernel
  rw [mounted, Option.bind_some, ranMkdir] at image
  rw [mounted, Option.bind_some, ranMkdir, Option.bind_some] at wrong
  obtain ⟨s₁, mounted₁, ran⟩ := Option.bind_eq_some_iff.mp wrong
  obtain ⟨⟨_, s⟩, ranAll, result⟩ := Option.map_eq_some_iff.mp ran
  simp only [Option.map_some, Option.some.injEq, Prod.mk.injEq] at image result
  obtain ⟨inUse, noStats, noMeta⟩ := image
  obtain ⟨file, atE, entry⟩ := result
  have names := ((stored_formatted .exact).names mounted).run steps
  have stored : Stored .exact ⟨[1], made.slots⟩ := by
    apply names.stored (List.nodup_singleton 1)
    · intro id
      rw [of_decide_eq_true inUse, List.mem_singleton, Finset.mem_singleton]
    · intro p i special found
      unfold specialPath at special
      rcases of_decide_eq_true special with rfl | rfl
      · rw [noStats] at found
        cases found
      · rw [noMeta] at found
        cases found
  obtain ⟨n, here, head⟩ := Option.map_eq_some_iff.mp file
  obtain ⟨type, nlinks⟩ := Prod.mk.inj head
  obtain ⟨_, count⟩ := (counts _ s₁ s stored mounted₁ (steps_of_runAll (by decide) ranAll)).1 259 n here (by rw [type]; decide)
  rw [nlinks] at count
  have none : s.entries 259 = ∅ := Set.encard_eq_zero.mp count
  have inside : ((258, [102]) : BucketIndex × Name) ∈ s.entries 259 := ⟨⟨dirE, atE⟩, entry⟩
  rw [none] at inside
  exact inside

end Links

section Access

/-- `validate_access` along another list of directories. -/
def validate_access_along [Floats] (pathPermissions : List BucketIndex) (F : FilePtr) (ctx : Context) (da dda : Mode)
    (checkStickyOwner : Bool) : FsM Bool := do
  if ← valid F then
    if ctx.uid = 0 then pure true
    else validateWith pathPermissions F ctx da dda checkStickyOwner
  else pure false

/-- In every run of regular calls, access to a file is checked along its path. -/
theorem validate_access_eq [Floats] {image : Image} {s₀ s : Fs} (stored : Stored .strict image) (mounted : mount image = some s₀)
    (steps : Steps (fun s op => op.Regular .strict s) s₀ s) {p : Path} {i : BucketIndex} (found : s.walk p = some i) :
    ∃ t, get p s = some (some i, t) ∧ ∀ ctx da dda checkStickyOwner,
      validate_access (some i) ctx da dda checkStickyOwner t =
        validate_access_along (s.pathDirs p) (some i) ctx da dda checkStickyOwner t := by
  have names := (stored.names mounted).run steps
  obtain ⟨t, got, names', looked, opened⟩ := names.get p
  rw [found] at got
  refine ⟨t, got, fun ctx da dda checkStickyOwner => ?_⟩
  obtain ⟨file, here⟩ := Option.isSome_iff_exists.mp (opened i found)
  have found' : t.walk p = some i := by rw [looked.walk]; exact found
  obtain ⟨list, _⟩ := (names'.permitted trivial).list found' here
  have dirs : ∀ q, t.pathDirs q = s.pathDirs q := by
    intro q
    induction q with
    | nil => rfl
    | cons c q ih =>
      unfold Fs.pathDirs
      rw [looked.walk, ih]
  unfold validate_access validate_access_along
  have isValid : valid (some i) t = some (true, t) := by
    unfold valid
    rw [Option.bind_some, here]
    rfl
  have permissions : getPathPermissions (bucketIdx (some i)) t = some (s.pathDirs p, t) := by
    unfold getPathPermissions bucketIdx
    rw [Option.getD_some, here, Option.map_some, Option.getD_some, list, dirs]
  rw [Run.bind_of_some isValid, Run.bind_of_some isValid, if_pos rfl, if_pos rfl]
  split
  · rfl
  · rw [Run.bind_of_some permissions]

theorem validate_access_tour : ∃ s₀ s, mount (formatted superuser) = some s₀ ∧ runAll tour s₀ = some ((), s) ∧
    ∃ t, get fileH s = some (some 259, t) ∧ ∀ ctx da dda checkStickyOwner,
      validate_access (some 259) ctx da dda checkStickyOwner t =
        validate_access_along (s.pathDirs fileH) (some 259) ctx da dda checkStickyOwner t := by
  obtain ⟨s₀, s, mounted, ran, steps, there, _⟩ := toured .strict
  exact ⟨s₀, s, mounted, ran, validate_access_eq (stored_formatted .strict) mounted steps there⟩

def fileG : Path := [[103]]

/-- A file that has been moved out of a closed directory is still refused. -/
theorem access_stale : ¬∀ (image : Image) (s₀ s t : Fs) (p : Path) (i : BucketIndex) (ctx : Context) (da dda : Mode)
    (checkStickyOwner : Bool), Stored .strict image → mount image = some s₀ → Steps (fun _ op => op.Sensible) s₀ s →
    s.walk p = some i → get p s = some (some i, t) →
    (validate_access (some i) ctx da dda checkStickyOwner t).map Prod.fst =
      (validate_access_along (s.pathDirs p) (some i) ctx da dda checkStickyOwner t).map Prod.fst := by
  intro agrees
  let ops : List Op := [.mkdir dirD 0o700 superuser, .mknod fileD 0o644 superuser, .renamemove fileD fileG superuser]
  let ctx : Context := ⟨1000, 1000, []⟩
  have differs : ((mount (formatted superuser)).bind (fun s₀ => (runAll ops s₀).bind (fun result =>
      (get fileG result.2).map (fun found => (result.2.walk fileG, found.1,
        (validate_access (some 259) ctx 4 0 false found.2).map Prod.fst,
        (validate_access_along (result.2.pathDirs fileG) (some 259) ctx 4 0 false found.2).map Prod.fst))))) =
      some (some 259, some 259, some false, some true) := by decide +kernel
  obtain ⟨s₀, mounted, ran⟩ := Option.bind_eq_some_iff.mp differs
  obtain ⟨⟨_, s⟩, ran, found⟩ := Option.bind_eq_some_iff.mp ran
  obtain ⟨⟨F, t⟩, found, answers⟩ := Option.map_eq_some_iff.mp found
  simp only [Prod.mk.injEq] at answers
  obtain ⟨there, rfl, refused, allowed⟩ := answers
  have same := agrees _ s₀ s t fileG 259 ctx 4 0 false (stored_formatted .strict) mounted (steps_of_runAll (by decide) ran) there found
  rw [refused, allowed] at same
  cases same

end Access

end CloudCryptFS.Filesystem
