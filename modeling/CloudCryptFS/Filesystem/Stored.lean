import CloudCryptFS.Filesystem.Namespace
import CloudCryptFS.Util.NameGraph
import Mathlib.Algebra.Order.BigOperators.Group.List

/-! What is stored of the tree: the inodes without the records of their chains, and the
edges that the texts of the directories spell. The reads and writes of one directory are
specified here on that view; the slots and the accounting are kept in step below it. -/

namespace CloudCryptFS.Filesystem
open Util Script Script.Lexer Script.Json Script.Flat

section Maps

/-- `get<I>(name)` of a name that is there. -/
def lookup {F : Type} [FloatLib F] (directory : JSON F) (name : Name) : Option BucketIndex :=
  if directory.hasProperty name then
    match toInts (directory.value name) with
    | .ok values => some (toUInt64 (values.headD 0))
    | .error _ => none
  else none

namespace DirMap

def insert (m : DirMap) {name : Name} {i : BucketIndex} (isName : FileName name) (index : 0 < i ∧ i < 2 ^ 64) : DirMap where
  entries := SortedEntries.set name i m.entries
  sorted := SortedEntries.sorted_set m.sorted name i
  names := fun entry member => by
    rcases SortedEntries.mem_set member with equal | old
    · rw [equal]
      exact isName
    · exact m.names entry old
  indexes := fun entry member => by
    rcases SortedEntries.mem_set member with equal | old
    · rw [equal]
      exact index
    · exact m.indexes entry old

def erase (m : DirMap) (name : Name) : DirMap where
  entries := SortedEntries.erase name m.entries
  sorted := SortedEntries.sorted_erase m.sorted name
  names := fun entry member => m.names entry (SortedEntries.mem_erase member)
  indexes := fun entry member => m.indexes entry (SortedEntries.mem_erase member)

/-- The map of a directory without entries. -/
def empty : DirMap := ⟨[], SortedEntries.sorted_nil, by simp, by simp⟩

def find (m : DirMap) (name : Name) : Option BucketIndex := SortedEntries.find? name m.entries

section Json
variable {F : Type} (m : DirMap)

theorem json_empty : (empty.json : JSON F) = .empty := rfl

theorem storable_empty : empty.Storable := by decide

theorem json_insert {name : Name} {i : BucketIndex} (isName : FileName name) (index : 0 < i ∧ i < 2 ^ 64) :
    (m.json : JSON F).setValue name (.int [toInt64 i]) = (m.insert isName index).json := by
  simp only [json, flat, JSON.setValue, JSON.values, JSON.comments, signed, insert, JSON.mk.injEq, and_true]
  rw [← SortedEntries.set_mapValues toInt64 name i,
    ← SortedEntries.set_mapValues (fun value => (ListVariant.int [value] : ListVariant F)) name (toInt64 i)]

theorem json_erase (name : Name) : (m.json : JSON F).clearProperty name = (m.erase name).json := by
  simp only [json, flat, JSON.clearProperty, JSON.values, JSON.comments, signed, erase, SortedEntries.erase_mapValues]

theorem find_json (name : Name) :
    SortedEntries.find? name (m.json : JSON F).values = (m.find name).map (fun i => .int [toInt64 i]) := by
  simp only [json, flat, JSON.values, signed, find, SortedEntries.find?_mapValues, Option.map_map]
  rfl

theorem hasProperty_json (name : Name) : (m.json : JSON F).hasProperty name = (m.find name).isSome := by
  rw [JSON.hasProperty, find_json, Option.isSome_map]

theorem find_index {name : Name} {i : BucketIndex} (found : m.find name = some i) : 0 < i ∧ i < 2 ^ 64 :=
  m.indexes _ (SortedEntries.mem_of_find? found)

theorem find_name {name : Name} {i : BucketIndex} (found : m.find name = some i) : FileName name :=
  m.names _ (SortedEntries.mem_of_find? found)

theorem lookup_json [FloatLib F] (name : Name) : lookup (m.json : JSON F) name = m.find name := by
  have number : ∀ value : Int, (match toInts (F := F) (.int [value]) with
      | .ok values => some (toUInt64 (values.headD 0))
      | .error _ => none) = some (toUInt64 value) := fun _ => rfl
  unfold lookup
  rw [hasProperty_json, JSON.value, find_json]
  cases found : m.find name with
  | none => rfl
  | some i =>
    rw [Option.isSome_some, if_pos rfl, Option.map_some, Option.getD_some, number,
      toUInt64_toInt64 (m.find_index found).2]

theorem find_insert {name : Name} {i : BucketIndex} (isName : FileName name) (index : 0 < i ∧ i < 2 ^ 64) (other : Name) :
    (m.insert isName index).find other = if other = name then some i else m.find other := by
  unfold find insert
  split
  · rename_i same
    rw [same]
    exact SortedEntries.find?_set_self name i m.entries
  · rename_i different
    exact SortedEntries.find?_set_of_ne different i m.entries

theorem find_erase (name other : Name) : (m.erase name).find other = if other = name then none else m.find other := by
  unfold find erase
  split
  · rename_i same
    rw [same]
    exact SortedEntries.find?_erase_self m.sorted
  · rename_i different
    exact SortedEntries.find?_erase_of_ne different m.entries

theorem find_empty (name : Name) : empty.find name = none := rfl

end Json

private theorem erase_sublist (name : Name) (entries : List (Str × Nat)) :
    (SortedEntries.erase name entries).Sublist entries := by
  induction entries with
  | nil => exact List.Sublist.slnil
  | cons entry rest ih =>
    unfold SortedEntries.erase
    split
    · exact List.sublist_cons_self entry rest
    · exact ih.cons_cons entry

theorem Storable.erase {m : DirMap} (storable : m.Storable) (name : Name) : (m.erase name).Storable := by
  have part := erase_sublist name m.entries
  refine ⟨fun entry member => storable.1 entry (part.subset member), lt_of_le_of_lt ?_ storable.2⟩
  unfold storedSize
  split
  · exact Nat.zero_le _
  · rename_i nonempty
    have whole : m.entries ≠ [] := by
      intro none
      apply nonempty
      change SortedEntries.erase name m.entries = []
      rw [none]
      rfl
    rw [if_neg whole]
    exact Nat.add_le_add_left ((part.map _).sum_le_sum (fun n _ => Nat.zero_le n)) 1

end DirMap

end Maps

section Content
variable {F : Type} [FloatLib F] {σ : Type} (addChange : List Chunk → Run σ Unit)

/-- What a directory with this content reads as. -/
def contentOf (data : FileData Chunk) : Option (Option (JSON F)) :=
  (readDirectoryContent plainOps data ()).map Prod.fst

private theorem chunkOps_read (c : Chunk) (offset size : Nat) (s : σ) :
    (chunkOps addChange).read c offset size s = (c.read offset size).map (fun text => (text, s)) := rfl

/-- Chunks are read without a look at the state. -/
private theorem readLoop_plain (offset : Nat) (hashes : List Chunk) (size fileOffset : Nat) (s : σ) :
    readLoop (chunkOps addChange) offset hashes size fileOffset s =
      (readLoop plainOps offset hashes size fileOffset ()).map (fun result => (result.1, s)) := by
  induction hashes generalizing size fileOffset with
  | nil => rfl
  | cons c hashes ih =>
    unfold readLoop
    split
    · rw [Run.bind_apply, Run.bind_apply, chunkOps_read, plainOps, chunkOps_read]
      cases c.read (offset - fileOffset) (min size (chunkSize - (offset - fileOffset))) with
      | none => rfl
      | some here =>
        simp only [Option.map_some, Option.bind_some, Run.bind_apply, ih, plainOps]
        cases readLoop (chunkOps fun _ => pure ()) offset hashes
          (size - min size (chunkSize - (offset - fileOffset))) (fileOffset + chunkSize) () <;> rfl
    · exact ih size (fileOffset + chunkSize)

theorem readDirectoryContent_eq (data : FileData Chunk) (s : σ) :
    readDirectoryContent (F := F) (chunkOps addChange) data s = (contentOf data).map (fun result => (result, s)) := by
  unfold contentOf readDirectoryContent
  split
  · rfl
  · have same : readData (chunkOps addChange) data data.size 0 s =
        (readData plainOps data data.size 0 ()).map (fun result => (result.1, s)) := by
      unfold readData
      split
      · rfl
      · exact readLoop_plain addChange _ _ _ _ s
    rw [Run.bind_apply, Run.bind_apply, same]
    cases readData plainOps data data.size 0 () with
    | none => rfl
    | some result =>
      rw [Option.map_some, Option.bind_some, Option.bind_some]
      by_cases short : (result.1.length : Int) ≠ toInt32 data.size
      · rw [if_pos short, if_pos short]
        rfl
      · rw [if_neg short, if_neg short]
        cases unserialize (F := F) (result.1 ++ List.replicate (data.size - result.1.length) 0) with
        | ok json => rfl
        | error fault => cases fault <;> rfl

theorem contentOf_empty : contentOf (F := F) ⟨0, []⟩ = some (some (DirMap.empty.json)) := rfl

private theorem swapLoop_plain (fuel : Nat) (content : Str) (s : σ) :
    swapLoop (chunkOps addChange) fuel content s =
      (swapLoop plainOps fuel content ()).map (fun result => (result.1, s)) := by
  induction fuel generalizing content with
  | zero => rfl
  | succ fuel ih =>
    unfold swapLoop
    split
    · rfl
    · simp only [Run.bind_apply, plainOps, chunkOps]
      cases Chunk.zero.write 0 (content.take chunkSize) with
      | none => rfl
      | some new =>
        simp only [Option.map_some, Option.bind_some]
        split
        · rfl
        · simp only [Run.bind_apply, Run.pure_apply, Option.bind_some]
          have later := ih (content.drop chunkSize)
          simp only [plainOps, chunkOps] at later
          rw [later]
          cases swapLoop _ fuel (content.drop chunkSize) () <;> rfl

private theorem forM_pure {σ' : Type} (hashes : List Chunk) (s : σ') :
    (hashes.forM (fun _ => (pure () : Run σ' Unit))) s = some (⟨⟩, s) := by
  induction hashes with
  | nil => rfl
  | cons first hashes ih =>
    rw [List.forM_eq_forM, List.forM_cons, Run.bind_of_some (t := s) (a := ()) rfl]
    exact ih

theorem swapContent_eq (file : FileData Chunk) (content : Str) (s : σ) :
    swapContent (chunkOps addChange) file content s =
      (swapContent plainOps file content ()).bind (fun after =>
        (addChange after.1.hashList s).map (fun result => (after.1, result.2))) := by
  unfold swapContent
  simp only [Run.bind_apply, swapLoop_plain addChange]
  simp only [plainOps]
  cases swapLoop (chunkOps fun _ => pure ()) content.length content () with
  | none => rfl
  | some list =>
    simp only [Option.map_some, Option.bind_some]
    simp only [chunkOps, forM_pure, Option.bind_some, Run.pure_apply]
    cases addChange list.1 s <;> rfl

end Content

section View

/-- An inode without the records of its chain, which nothing but the accounting sees. -/
def Inode.seen (n : Inode) : Inode := { n with nextIDs := [], metaIDs := [] }

def Inode.chain (n : Inode) : List BucketIndex := n.nextIDs ++ n.metaIDs

@[simp]
theorem Inode.seen_type (n : Inode) : n.seen.type = n.type := rfl

@[simp]
theorem Inode.seen_data (n : Inode) : n.seen.data = n.data := rfl

@[simp]
theorem Inode.seen_nlinks (n : Inode) : n.seen.nlinks = n.nlinks := rfl

@[simp]
theorem Inode.seen_permits (n : Inode) (ctx : Context) (access : Mode) : n.seen.permits ctx access = n.permits ctx access := rfl

/-- The inodes of the tree, by their indexes. -/
abbrev Nodes := BucketIndex → Option Inode

def Fs.nodes (s : Fs) : Nodes := fun i =>
  match s.slots i with
  | .node n => some n.seen
  | _ => none

theorem Fs.nodes_eq_some {s : Fs} {i : BucketIndex} {n : Inode} :
    s.nodes i = some n ↔ ∃ n', s.slots i = .node n' ∧ n = n'.seen := by
  unfold Fs.nodes
  cases s.slots i with
  | none => simp
  | ctd => simp
  | node n' => simp [eq_comm]

theorem Fs.nodes_of_slot {s : Fs} {i : BucketIndex} {n : Inode} (here : s.slots i = .node n) : s.nodes i = some n.seen :=
  Fs.nodes_eq_some.mpr ⟨n, here, rfl⟩

theorem Fs.nodes_eq_none {s : Fs} {i : BucketIndex} (none : ∀ n, s.slots i ≠ .node n) : s.nodes i = .none := by
  unfold Fs.nodes
  split
  · rename_i n here
    exact absurd here (none n)
  · rfl

theorem Fs.nodes_congr {s s' : Fs} (same : s'.slots = s.slots) : s'.nodes = s.nodes := by
  unfold Fs.nodes
  rw [same]

theorem Fs.nodes_setSlot_node (s : Fs) (i : BucketIndex) (n : Inode) :
    (s.setSlot i (.node n)).nodes = Function.update s.nodes i (some n.seen) := by
  funext j
  unfold Fs.nodes Fs.setSlot
  by_cases same : j = i
  · subst same
    simp
  · simp [same]

/-- A slot that holds no inode before and after is not seen. -/
theorem Fs.nodes_setSlot_ctd {s : Fs} {i : BucketIndex} (empty : s.slots i = .none) : (s.setSlot i .ctd).nodes = s.nodes := by
  funext j
  unfold Fs.nodes Fs.setSlot
  by_cases same : j = i
  · subst same
    simp [empty]
  · simp [same]

variable [Floats]

/-- The entry of a directory. -/
def edge (nodes : Nodes) (d : BucketIndex) (name : Name) : Option BucketIndex :=
  match nodes d with
  | none => none
  | some n =>
    if n.type = .DIR then
      match contentOf (F := Floats.F) n.data with
      | some (some directory) => lookup directory name
      | _ => none
    else none

def dirs (nodes : Nodes) : Set BucketIndex := {i | ∃ n, nodes i = some n ∧ n.type = .DIR}

/-- The directory at an index, as a map that its text can carry. -/
def Holds (nodes : Nodes) (d : BucketIndex) (m : DirMap) : Prop :=
  ∃ n, nodes d = some n ∧ n.type = .DIR ∧ contentOf (F := Floats.F) n.data = some (some m.json) ∧ m.Storable

def Readable (nodes : Nodes) : Prop := ∀ d ∈ dirs nodes, ∃ m, Holds nodes d m

theorem Holds.edge {nodes : Nodes} {d : BucketIndex} {m : DirMap} (holds : Holds nodes d m) (name : Name) :
    edge nodes d name = m.find name := by
  obtain ⟨n, here, dir, content, _⟩ := holds
  unfold Filesystem.edge
  simp only [here, if_pos dir, content]
  exact m.lookup_json name

theorem Holds.mem {nodes : Nodes} {d : BucketIndex} {m : DirMap} (holds : Holds nodes d m) : d ∈ dirs nodes := by
  obtain ⟨n, here, dir, _⟩ := holds
  exact ⟨n, here, dir⟩

theorem Holds.storable {nodes : Nodes} {d : BucketIndex} {m : DirMap} (holds : Holds nodes d m) : m.Storable := by
  obtain ⟨_, _, _, _, storable⟩ := holds
  exact storable

theorem edge_of_leaf {nodes : Nodes} {d : BucketIndex} (leaf : d ∉ dirs nodes) (name : Name) : edge nodes d name = none := by
  unfold edge
  split
  · rfl
  · rename_i n here
    rw [if_neg]
    intro dir
    exact leaf ⟨n, here, dir⟩

theorem edge_congr {nodes nodes' : Nodes} {d : BucketIndex} (same : nodes' d = nodes d) (name : Name) :
    edge nodes' d name = edge nodes d name := by
  unfold edge
  rw [same]

theorem Holds.congr {nodes nodes' : Nodes} {d : BucketIndex} {m : DirMap} (holds : Holds nodes d m)
    (same : nodes' d = nodes d) : Holds nodes' d m := by
  obtain ⟨n, here, rest⟩ := holds
  exact ⟨n, same.trans here, rest⟩

theorem mem_dirs_of_edge {nodes : Nodes} {d : BucketIndex} {name : Name} {i : BucketIndex}
    (found : edge nodes d name = some i) : d ∈ dirs nodes := by
  by_contra leaf
  rw [edge_of_leaf leaf] at found
  cases found

theorem Readable.edge_index {nodes : Nodes} (readable : Readable nodes) {d : BucketIndex} {name : Name} {i : BucketIndex}
    (found : edge nodes d name = some i) : 0 < i ∧ i < 2 ^ 64 := by
  obtain ⟨m, holds⟩ := readable d (mem_dirs_of_edge found)
  rw [holds.edge] at found
  exact m.find_index found

theorem Readable.edge_name {nodes : Nodes} (readable : Readable nodes) {d : BucketIndex} {name : Name} {i : BucketIndex}
    (found : edge nodes d name = some i) : FileName name := by
  obtain ⟨m, holds⟩ := readable d (mem_dirs_of_edge found)
  rw [holds.edge] at found
  exact m.find_name found

end View

section Slots

/-- The slots are in step with the accounting: what can be fetched is empty, and no two
inodes share a record of their chains. -/
structure Alloc (s : Fs) : Prop where
  ok : s.accounting.Ok
  free : ∀ i, s.accounting.Free i → s.slots i = .none
  bucket : ∀ i, s.slots i ≠ .none → 0 < BucketIndex.bucket i
  chain : ∀ i n, s.slots i = .node n → n.chain.Nodup ∧ ∀ j ∈ n.chain, s.slots j = .ctd
  apart : ∀ i n i' n' j, s.slots i = .node n → s.slots i' = .node n' → j ∈ n.chain → j ∈ n'.chain → i = i'

/-- An index that was fetched and has not been used yet. -/
structure Held (s : Fs) (i : BucketIndex) : Prop where
  taken : ¬s.accounting.Free i
  empty : s.slots i = .none
  bucket : 0 < BucketIndex.bucket i

/-- What an operation on slots leaves alone. -/
structure Beside (s s' : Fs) : Prop where
  paths : s'.pathInodeCache = s.pathInodeCache
  files : s'.inodeFileCache = s.inodeFileCache
  held : ∀ i, Held s i → Held s' i

theorem Beside.refl (s : Fs) : Beside s s := ⟨rfl, rfl, fun _ held => held⟩

theorem Beside.trans {s t u : Fs} (first : Beside s t) (second : Beside t u) : Beside s u :=
  ⟨second.paths.trans first.paths, second.files.trans first.files, fun i held => second.held i (first.held i held)⟩

theorem Beside.of_eq {s s' : Fs} (slots : s'.slots = s.slots) (accounting : s'.accounting = s.accounting)
    (paths : s'.pathInodeCache = s.pathInodeCache) (files : s'.inodeFileCache = s.inodeFileCache) : Beside s s' :=
  ⟨paths, files, fun i held => ⟨by rw [accounting]; exact held.taken, by rw [slots]; exact held.empty, held.bucket⟩⟩

theorem Alloc.congr {s s' : Fs} (alloc : Alloc s) (slots : s'.slots = s.slots) (accounting : s'.accounting = s.accounting) :
    Alloc s' := by
  constructor
  · rw [accounting]
    exact alloc.ok
  · rw [accounting, slots]
    exact alloc.free
  · rw [slots]
    exact alloc.bucket
  · rw [slots]
    exact alloc.chain
  · rw [slots]
    exact alloc.apart

theorem Accounting.Ok.free_bucket {a : Accounting} (ok : a.Ok) {i : BucketIndex} (free : a.Free i) : 0 < BucketIndex.bucket i := by
  rcases free with ⟨node, member, rfl⟩ | ⟨positive, _⟩
  · exact ok.positive node member
  · exact positive

/-- A fetched index is empty and held from then on. -/
theorem fetchIndex_spec {s s' : Fs} {i : BucketIndex} (alloc : Alloc s) (ran : fetchIndex s = some (i, s')) :
    s.accounting.Free i ∧ Alloc s' ∧ Held s' i ∧ Beside s s' ∧ s'.slots = s.slots := by
  unfold fetchIndex at ran
  obtain ⟨⟨_, b⟩, fetched, done⟩ := Option.map_eq_some_iff.mp ran
  obtain ⟨rfl, rfl⟩ := Prod.mk.inj done
  obtain ⟨ok, was, free⟩ := Accounting.fetch_spec alloc.ok fetched
  have empty := alloc.free _ was
  refine ⟨was, ⟨ok, ?_, alloc.bucket, alloc.chain, alloc.apart⟩, ?_, ⟨rfl, rfl, ?_⟩, rfl⟩
  · intro j later
    exact alloc.free j ((free j).mp later).1
  · exact ⟨fun later => ((free _).mp later).2 rfl, empty, alloc.ok.free_bucket was⟩
  · intro j held
    exact ⟨fun later => held.taken ((free j).mp later).1, held.empty, held.bucket⟩

/-- A held index goes back. -/
theorem postIndex_spec {s s' : Fs} {i : BucketIndex} (alloc : Alloc s) (held : Held s i)
    (ran : postIndex i s = some ((), s')) :
    Alloc s' ∧ s'.slots = s.slots ∧ s'.pathInodeCache = s.pathInodeCache ∧ s'.inodeFileCache = s.inodeFileCache := by
  unfold postIndex at ran
  obtain ⟨b, posted, done⟩ := Option.map_eq_some_iff.mp ran
  cases done
  obtain ⟨ok, free⟩ := Accounting.post_spec alloc.ok held.bucket held.taken posted
  refine ⟨⟨ok, ?_, alloc.bucket, alloc.chain, alloc.apart⟩, rfl, rfl, rfl⟩
  intro j later
  rcases (free j).mp later with before | rfl
  · exact alloc.free j before
  · exact held.empty

theorem modifyINode_eq_some {i : BucketIndex} {f : Inode → Inode} {s s' : Fs} :
    modifyINode i f s = some ((), s') ↔ ∃ n, s.slots i = .node n ∧ s' = s.setSlot i (.node (f n)) := by
  unfold modifyINode
  cases here : s.slots i with
  | none => simp
  | ctd => simp
  | node n => simp [eq_comm]

theorem setSlot_of_ne (s : Fs) {i j : BucketIndex} (other : j ≠ i) (slot : Slot) : (s.setSlot i slot).slots j = s.slots j := by
  simp [Fs.setSlot, other]

theorem setSlot_self (s : Fs) (i : BucketIndex) (slot : Slot) : (s.setSlot i slot).slots i = slot := by
  simp [Fs.setSlot]

/-- An inode that keeps its chain. -/
theorem Alloc.modify {s : Fs} (alloc : Alloc s) {i : BucketIndex} {n n' : Inode} (here : s.slots i = .node n)
    (chain : n'.chain = n.chain) : Alloc (s.setSlot i (.node n')) ∧ Beside s (s.setSlot i (.node n')) := by
  have slots : ∀ j, (s.setSlot i (.node n')).slots j = if j = i then .node n' else s.slots j := by
    intro j
    split
    · rename_i same
      rw [same]
      exact setSlot_self s i _
    · rename_i other
      exact setSlot_of_ne s other _
  -- what the slots say about chains is the same before and after
  have before : ∀ j m, (s.setSlot i (.node n')).slots j = .node m → ∃ m', s.slots j = .node m' ∧ m.chain = m'.chain := by
    intro j m found
    rw [slots] at found
    split at found
    · rename_i same
      cases found
      exact ⟨n, same ▸ here, chain⟩
    · exact ⟨m, found, rfl⟩
  have free : ∀ j, s.slots j = .none → j ≠ i := by
    rintro j none rfl
    rw [here] at none
    cases none
  refine ⟨⟨alloc.ok, ?_, ?_, ?_, ?_⟩, rfl, rfl, ?_⟩
  · intro j later
    have none := alloc.free j later
    rw [slots, if_neg (free j none)]
    exact none
  · intro j used
    rw [slots] at used
    split at used
    · rename_i same
      apply alloc.bucket
      rw [same, here]
      exact Slot.noConfusion
    · exact alloc.bucket j used
  · intro j m found
    obtain ⟨m', old, same⟩ := before j m found
    obtain ⟨distinct, records⟩ := alloc.chain j m' old
    rw [same]
    refine ⟨distinct, fun k member => ?_⟩
    rw [slots, if_neg]
    · exact records k member
    · rintro rfl
      rw [records k member] at here
      cases here
  · intro j m j' m' k first second inFirst inSecond
    obtain ⟨m₁, old₁, same₁⟩ := before j m first
    obtain ⟨m₂, old₂, same₂⟩ := before j' m' second
    exact alloc.apart j m₁ j' m₂ k old₁ old₂ (same₁ ▸ inFirst) (same₂ ▸ inSecond)
  · intro j held
    refine ⟨held.taken, ?_, held.bucket⟩
    rw [slots, if_neg (free j held.empty)]
    exact held.empty

/-- A held index becomes the last record of a chain. -/
theorem Alloc.grow {s : Fs} (alloc : Alloc s) {c i : BucketIndex} {n : Inode} (held : Held s c) (here : s.slots i = .node n) :
    Alloc ((s.setSlot c .ctd).setSlot i (.node { n with nextIDs := n.nextIDs ++ [c] })) ∧
      ((s.setSlot c .ctd).setSlot i (.node { n with nextIDs := n.nextIDs ++ [c] })).nodes = s.nodes ∧
      ∀ j, j ≠ c → Held s j → Held ((s.setSlot c .ctd).setSlot i (.node { n with nextIDs := n.nextIDs ++ [c] })) j := by
  have other : i ≠ c := by
    rintro rfl
    rw [held.empty] at here
    cases here
  have slots : ∀ j, ((s.setSlot c .ctd).setSlot i (.node { n with nextIDs := n.nextIDs ++ [c] })).slots j =
      if j = i then .node { n with nextIDs := n.nextIDs ++ [c] } else if j = c then .ctd else s.slots j := by
    intro j
    split
    · rename_i same
      rw [same, setSlot_self]
    · rename_i different
      rw [setSlot_of_ne _ different]
      split
      · rename_i same
        rw [same, setSlot_self]
      · rename_i different
        rw [setSlot_of_ne _ different]
  have free : ∀ j, s.slots j = .none → j ≠ i := by
    rintro j none rfl
    rw [here] at none
    cases none
  have records : ∀ j m, s.slots j = .node m → c ∉ m.chain := by
    intro j m found member
    have record := (alloc.chain j m found).2 c member
    rw [held.empty] at record
    cases record
  have order : ({ n with nextIDs := n.nextIDs ++ [c] } : Inode).chain.Perm (c :: n.chain) := by
    unfold Inode.chain
    rw [List.append_assoc]
    exact List.perm_middle
  have before : ∀ j m, ((s.setSlot c .ctd).setSlot i (.node { n with nextIDs := n.nextIDs ++ [c] })).slots j = .node m →
      ∃ m', s.slots j = .node m' ∧ (m.chain = m'.chain ∨ j = i ∧ m.chain.Perm (c :: m'.chain)) := by
    intro j m found
    rw [slots] at found
    split at found
    · rename_i same
      cases found
      exact ⟨n, same ▸ here, Or.inr ⟨same, order⟩⟩
    · split at found
      · cases found
      · exact ⟨m, found, Or.inl rfl⟩
  have place : ∀ j m k, ((s.setSlot c .ctd).setSlot i (.node { n with nextIDs := n.nextIDs ++ [c] })).slots j = .node m →
      k ∈ m.chain → (k = c ∧ j = i) ∨ (k ≠ c ∧ ∃ m', s.slots j = .node m' ∧ k ∈ m'.chain) := by
    intro j m k found member
    obtain ⟨m', old, same | ⟨at_i, perm⟩⟩ := before j m found
    · rw [same] at member
      exact Or.inr ⟨fun equal => records j m' old (equal ▸ member), m', old, member⟩
    · rcases List.mem_cons.mp (perm.subset member) with equal | member
      · exact Or.inl ⟨equal, at_i⟩
      · exact Or.inr ⟨fun equal => records j m' old (equal ▸ member), m', old, member⟩
  refine ⟨⟨alloc.ok, ?_, ?_, ?_, ?_⟩, ?_, ?_⟩
  · intro j later
    have none := alloc.free j later
    rw [slots, if_neg (free j none), if_neg]
    · exact none
    · rintro rfl
      exact held.taken later
  · intro j used
    rw [slots] at used
    split at used
    · rename_i same
      apply alloc.bucket
      rw [same, here]
      exact Slot.noConfusion
    · split at used
      · rename_i same
        rw [same]
        exact held.bucket
      · exact alloc.bucket j used
  · intro j m found
    obtain ⟨m', old, same | ⟨_, perm⟩⟩ := before j m found
    all_goals obtain ⟨distinct, all⟩ := alloc.chain j m' old
    · rw [same]
      refine ⟨distinct, fun k member => ?_⟩
      have record := all k member
      rw [slots, if_neg, if_neg]
      · exact record
      · rintro rfl
        exact records j m' old member
      · rintro rfl
        rw [record] at here
        cases here
    · refine ⟨perm.nodup_iff.mpr (List.nodup_cons.mpr ⟨records j m' old, distinct⟩), fun k member => ?_⟩
      rcases List.mem_cons.mp (perm.subset member) with rfl | member
      · rw [slots, if_neg other.symm, if_pos rfl]
      · have record := all k member
        rw [slots, if_neg, if_neg]
        · exact record
        · rintro rfl
          exact records j m' old member
        · rintro rfl
          rw [record] at here
          cases here
  · intro j m j' m' k first second inFirst inSecond
    rcases place j m k first inFirst with ⟨isNew, at_i⟩ | ⟨isOld, m₁, old₁, member₁⟩
    · rcases place j' m' k second inSecond with ⟨_, at_i'⟩ | ⟨isOld, _⟩
      · exact at_i.trans at_i'.symm
      · exact absurd isNew isOld
    · rcases place j' m' k second inSecond with ⟨isNew, _⟩ | ⟨_, m₂, old₂, member₂⟩
      · exact absurd isNew isOld
      · exact alloc.apart j m₁ j' m₂ k old₁ old₂ member₁ member₂
  · rw [Fs.nodes_setSlot_node, Fs.nodes_setSlot_ctd held.empty]
    funext j
    by_cases same : j = i
    · rw [same, Function.update_self, Fs.nodes_of_slot here]
      rfl
    · rw [Function.update_of_ne same]
  · intro j different before
    refine ⟨before.taken, ?_, before.bucket⟩
    rw [slots, if_neg (free j before.empty), if_neg different]
    exact before.empty

theorem createCtds_spec {i : BucketIndex} {k : Nat} {s s' : Fs} (alloc : Alloc s) (ran : createCtds i k s = some ((), s')) :
    Alloc s' ∧ s'.nodes = s.nodes ∧ Beside s s' := by
  induction k generalizing s with
  | zero =>
    cases ran
    exact ⟨alloc, rfl, Beside.refl _⟩
  | succ k ih =>
    unfold createCtds at ran
    obtain ⟨c, t, fetched, ran⟩ := Run.bind_eq_some.mp ran
    obtain ⟨_, t', set, ran⟩ := Run.bind_eq_some.mp ran
    obtain ⟨_, u, modified, ran⟩ := Run.bind_eq_some.mp ran
    obtain ⟨free, alloc', held, beside, slots⟩ := fetchIndex_spec alloc fetched
    cases set
    obtain ⟨n, here, rfl⟩ := modifyINode_eq_some.mp modified
    have other : i ≠ c := by
      rintro rfl
      rw [setSlot_self] at here
      cases here
    rw [setSlot_of_ne _ other] at here
    obtain ⟨grown, nodes, kept⟩ := alloc'.grow held here
    obtain ⟨alloc'', nodes', beside'⟩ := ih grown ran
    refine ⟨alloc'', ?_, ?_⟩
    · rw [nodes', nodes]
      exact Fs.nodes_congr slots
    · apply Beside.trans _ beside'
      refine ⟨beside.paths, beside.files, fun j before => kept j ?_ (beside.held j before)⟩
      rintro rfl
      exact before.taken free

theorem INode_eq_some {i : BucketIndex} {n : Inode} {s s' : Fs} :
    INode (some i) s = some (n, s') ↔ s.slots i = .node n ∧ s = s' := by
  unfold INode
  dsimp only
  cases here : s.slots i with
  | none => simp
  | ctd => simp
  | node n' => simp

theorem valid_eq_some {F : FilePtr} {b : Bool} {s s' : Fs} :
    valid F s = some (b, s') ↔ b = (F.bind s.inodeFileCache).isSome ∧ s = s' := by
  unfold valid
  simp [eq_comm]

theorem isSpecial_eq_some {i : BucketIndex} {b : Bool} {s s' : Fs} :
    isSpecial (some i) s = some (b, s') ↔ b = ((s.inodeFileCache i).map FileObject.special).getD false ∧ s = s' := by
  unfold isSpecial
  simp [eq_comm]

theorem rest_spec {i : BucketIndex} {s s' : Fs} (alloc : Alloc s) (ran : rest i s = some ((), s')) :
    Alloc s' ∧ s'.nodes = s.nodes ∧ Beside s s' := by
  have unchanged : some ((), s) = some ((), s') → Alloc s' ∧ s'.nodes = s.nodes ∧ Beside s s' := by
    intro same
    cases same
    exact ⟨alloc, rfl, Beside.refl _⟩
  unfold rest at ran
  obtain ⟨isValid, _, found, ran⟩ := Run.bind_eq_some.mp ran
  obtain ⟨_, rfl⟩ := valid_eq_some.mp found
  split at ran
  · obtain ⟨special, _, found, ran⟩ := Run.bind_eq_some.mp ran
    obtain ⟨_, rfl⟩ := isSpecial_eq_some.mp found
    split at ran
    · exact unchanged ran
    · obtain ⟨n, _, found, ran⟩ := Run.bind_eq_some.mp ran
      obtain ⟨_, rfl⟩ := INode_eq_some.mp found
      exact createCtds_spec alloc ran
  · exact unchanged ran

end Slots

section Write
variable [Floats]

/-- Only the journal takes notice of an attached entry. -/
private theorem writeDirectoryContent_spec {je : Option Wrapper} {file after : FileData Chunk} {directory : JSON Floats.F}
    {s s' : Fs} (ran : writeDirectoryContent (fileOps je) file directory s = some (after, s')) :
    (s'.slots = s.slots ∧ s'.accounting = s.accounting ∧ s'.pathInodeCache = s.pathInodeCache ∧
      s'.inodeFileCache = s.inodeFileCache) ∧
      ∀ m : DirMap, directory = m.json → m.Storable → contentOf (F := Floats.F) after = some (some m.json) := by
  unfold writeDirectoryContent fileOps at ran
  rw [swapContent_eq] at ran
  obtain ⟨swapped, plain, ran⟩ := Option.bind_eq_some_iff.mp ran
  obtain ⟨attached, change, ran⟩ := Option.map_eq_some_iff.mp ran
  cases ran
  constructor
  · split at change
    · cases change
      exact ⟨rfl, rfl, rfl, rfl⟩
    · cases change
      exact ⟨rfl, rfl, rfl, rfl⟩
  · rintro m rfl storable
    obtain ⟨other, ran, back⟩ := roundTrips_of_storable (F := Floats.F) storable file
    rw [writeDirectoryContent, plain] at ran
    cases ran
    rw [contentOf, back]
    rfl

theorem writeDirectory_spec {i : BucketIndex} {directory : JSON Floats.F} {je : Option Wrapper} {s s' : Fs} (alloc : Alloc s)
    (ran : writeDirectory i directory je s = some ((), s')) :
    ∃ n data, s.nodes i = some n ∧ s'.nodes = Function.update s.nodes i (some { n with data := data }) ∧ Alloc s' ∧
      Beside s s' ∧ ∀ m : DirMap, directory = m.json → m.Storable → contentOf (F := Floats.F) data = some (some m.json) := by
  unfold writeDirectory at ran
  obtain ⟨special, _, found, ran⟩ := Run.bind_eq_some.mp ran
  obtain ⟨_, rfl⟩ := isSpecial_eq_some.mp found
  obtain ⟨_, _, asserted, ran⟩ := Run.bind_eq_some.mp ran
  obtain ⟨_, rfl⟩ := Run.assert_eq_some.mp asserted
  obtain ⟨n, _, found, ran⟩ := Run.bind_eq_some.mp ran
  obtain ⟨here, rfl⟩ := INode_eq_some.mp found
  obtain ⟨data, t, written, ran⟩ := Run.bind_eq_some.mp ran
  obtain ⟨⟨slots, accounting, paths, files⟩, content⟩ := writeDirectoryContent_spec written
  obtain ⟨_, u, modified, ran⟩ := Run.bind_eq_some.mp ran
  obtain ⟨n', here', rfl⟩ := modifyINode_eq_some.mp modified
  rw [slots, here] at here'
  cases here'
  have sameChain : ({ n with data := data } : Inode).chain = n.chain := rfl
  obtain ⟨alloc', beside⟩ := (alloc.congr slots accounting).modify (show t.slots i = .node n by rw [slots, here]) sameChain
  obtain ⟨alloc'', nodes, beside'⟩ := rest_spec alloc' ran
  refine ⟨n.seen, data, Fs.nodes_of_slot here, ?_, alloc'', ?_, content⟩
  · rw [nodes, Fs.nodes_setSlot_node, Fs.nodes_congr slots]
    rfl
  · exact ((Beside.of_eq slots accounting paths files).trans beside).trans beside'

end Write

end CloudCryptFS.Filesystem
