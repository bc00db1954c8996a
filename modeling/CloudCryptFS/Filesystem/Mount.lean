import CloudCryptFS.Filesystem.Contents

/-! The mount of a stored image: the indexes of the empty slots are posted, the caches
hold the root only, and the tree is that of the image. -/

namespace CloudCryptFS.Filesystem
open Util NameGraph Script.Lexer

section Mount

/-- What is stored of the meta buckets: the ids listed in the metadata, and the slots. -/
structure Image where
  metaBuckets : List Nat
  slots : BucketIndex → Slot

def Slot.isEmpty : Slot → Bool
  | .none => true
  | _ => false

/-- The indexes that `loadHashesFromBucket` puts on its list. -/
def Image.postList (image : Image) : List BucketIndex :=
  (image.metaBuckets.flatMap Accounting.indexesOf).filter (fun i => (image.slots i).isEmpty)

/-- `initFileSystem` with an empty journal. -/
def mount (image : Image) : Option Fs :=
  match image.slots rootIndex with
  | .node _ =>
    ((Accounting.init image.metaBuckets.toFinset).postAll image.postList.reverse).map (fun accounting =>
      { slots := image.slots
        accounting := accounting
        pathInodeCache := fun path => if path = [] then some rootIndex else none
        inodeFileCache := fun i => if i = rootIndex then some ⟨[], false, 0⟩ else none })
  | _ => none

def Image.nodes (image : Image) : Nodes := fun i =>
  match image.slots i with
  | .node n => some n.seen
  | _ => none

theorem mount_eq_some {image : Image} {s : Fs} (mounted : mount image = some s) :
    s.slots = image.slots ∧ (Accounting.init image.metaBuckets.toFinset).postAll image.postList.reverse = some s.accounting ∧
      s.pathInodeCache = (fun path => if path = [] then some rootIndex else none) ∧
      s.inodeFileCache = (fun i => if i = rootIndex then some ⟨[], false, 0⟩ else none) := by
  unfold mount at mounted
  split at mounted
  · obtain ⟨accounting, posted, rfl⟩ := Option.map_eq_some_iff.mp mounted
    exact ⟨rfl, posted, rfl, rfl⟩
  · cases mounted

theorem mount_nodes {image : Image} {s : Fs} (mounted : mount image = some s) : s.nodes = image.nodes := by
  have same := (mount_eq_some mounted).1
  exact congrArg (fun slots : BucketIndex → Slot => ({ s with slots := slots } : Fs).nodes) same

theorem mem_postList {image : Image} {i : BucketIndex} :
    i ∈ image.postList ↔ BucketIndex.bucket i ∈ image.metaBuckets ∧ image.slots i = .none := by
  unfold Image.postList
  rw [List.mem_filter, List.mem_flatMap]
  constructor
  · intro listed
    obtain ⟨⟨id, member, inside⟩, empty⟩ := listed
    rw [Accounting.mem_indexesOf] at inside
    refine ⟨inside ▸ member, ?_⟩
    cases shape : image.slots i with
    | none => rfl
    | node n => simp [shape, Slot.isEmpty] at empty
    | ctd => simp [shape, Slot.isEmpty] at empty
  · intro listed
    obtain ⟨member, empty⟩ := listed
    exact ⟨⟨_, member, Accounting.mem_indexesOf.mpr rfl⟩, by rw [empty]; rfl⟩

end Mount

variable [Floats] {level : Level} {s : Fs} {image : Image}

/-- The image of a sound tree: its directories can be read and form a tree, its entries
lead to inodes, the links of which are counted, and no directory with entries lies where
the special files do. -/
structure Stored (level : Level) (image : Image) : Prop where
  distinct : image.metaBuckets.Nodup
  positive : ∀ id ∈ image.metaBuckets, 0 < id
  listed : ∀ i, image.slots i ≠ .none → BucketIndex.bucket i ∈ image.metaBuckets
  chain : ∀ i n, image.slots i = .node n → n.chain.Nodup ∧ ∀ j ∈ n.chain, image.slots j = .ctd
  apart : ∀ i n i' n' j, image.slots i = .node n → image.slots i' = .node n' → j ∈ n.chain → j ∈ n'.chain → i = i'
  readable : Readable image.nodes
  tree : Tree (edge image.nodes) rootIndex (dirs image.nodes)
  live : ∀ d c i, edge image.nodes d c = some i → (image.nodes i).isSome
  links : ∀ i n, image.nodes i = some n → n.type ≠ .DIR →
    0 ≤ n.nlinks ∧ (links (edge image.nodes) i).encard ≤ n.nlinks.toNat
  counted : level.counted → ∀ i n, image.nodes i = some n → n.type ≠ .DIR →
    (NameGraph.links (edge image.nodes) i).encard = n.nlinks.toNat
  special : ∀ p i, specialPath p = true → NameGraph.walk (edge image.nodes) rootIndex p = some i → ∀ c, edge image.nodes i c = none
  single : level.permitted → ∀ d c d' c' i, edge image.nodes d c = some i → edge image.nodes d' c' = some i → d = d'
  reached : level.counted → Reached (edge image.nodes) rootIndex (dirs image.nodes)

private theorem Stored.alloc (stored : Stored level image) (mounted : mount image = some s) : Alloc s := by
  obtain ⟨slots, posted, _, _⟩ := mount_eq_some mounted
  have free : ∀ i, (Accounting.init image.metaBuckets.toFinset).Free i ↔
      0 < BucketIndex.bucket i ∧ BucketIndex.bucket i ∉ image.metaBuckets := by
    intro i
    simp [Accounting.Free, Accounting.init]
  have start : (Accounting.init image.metaBuckets.toFinset).Ok :=
    ⟨List.nodup_nil, fun _ member => absurd member List.not_mem_nil, fun _ member => absurd member List.not_mem_nil, Nat.one_pos,
      fun id used => stored.positive id (List.mem_toFinset.mp used)⟩
  have distinct : image.postList.Nodup := by
    apply List.Nodup.filter
    rw [List.nodup_flatMap]
    refine ⟨fun id _ => Accounting.nodup_indexesOf id, stored.distinct.imp ?_⟩
    intro id other different i here there
    exact different ((Accounting.mem_indexesOf.mp here).symm.trans (Accounting.mem_indexesOf.mp there))
  obtain ⟨ok, after⟩ := Accounting.postAll_spec start (List.nodup_reverse.mpr distinct)
    (fun i member => stored.positive _ (mem_postList.mp (List.mem_reverse.mp member)).1)
    (fun i member isFree => ((free i).mp isFree).2 (mem_postList.mp (List.mem_reverse.mp member)).1) posted
  refine ⟨ok, ?_, ?_, ?_, ?_⟩
  · intro i later
    rw [slots]
    rcases (after i).mp later with before | member
    · by_contra used
      exact ((free i).mp before).2 (stored.listed i used)
    · exact (mem_postList.mp (List.mem_reverse.mp member)).2
  · intro i used
    rw [slots] at used
    exact stored.positive _ (stored.listed i used)
  · rw [slots]
    exact stored.chain
  · rw [slots]
    exact stored.apart

theorem Stored.names (stored : Stored level image) (mounted : mount image = some s) : Names level s := by
  obtain ⟨slots, posted, paths, files⟩ := mount_eq_some mounted
  have nodes := mount_nodes mounted
  have walk : ∀ p, s.walk p = NameGraph.walk (edge image.nodes) rootIndex p := fun p => by
    unfold Fs.walk
    rw [nodes]
  have onlyRoot : ∀ i file, s.inodeFileCache i = some file → i = rootIndex ∧ file = ⟨[], false, 0⟩ := by
    intro i file here
    rw [files] at here
    dsimp only at here
    split at here
    · rename_i isRoot
      cases here
      exact ⟨isRoot, rfl⟩
    · cases here
  have rootFile : s.inodeFileCache rootIndex = some ⟨[], false, 0⟩ := by
    rw [files]
    exact if_pos rfl
  constructor
  · exact stored.alloc mounted
  · exact nodes ▸ stored.readable
  · exact nodes ▸ stored.tree
  · exact nodes ▸ stored.live
  · exact nodes ▸ stored.links
  · exact nodes ▸ stored.counted
  · intro p i here
    rw [paths] at here
    dsimp only at here
    split at here
    · rename_i isRoot
      cases here
      rw [isRoot, rootFile]
      exact ⟨rfl, rfl⟩
    · cases here
  · rw [rootFile]
    rfl
  · intro i file here
    obtain ⟨rfl, _⟩ := onlyRoot i file here
    obtain ⟨n, there, _⟩ := stored.tree.root_dir
    rw [nodes, there]
    rfl
  · intro i file here special
    obtain ⟨_, rfl⟩ := onlyRoot i file here
    cases special
  · intro p i special found _
    rw [walk] at found
    rw [nodes]
    exact stored.special p i special found
  · intro strict
    refine ⟨?_, ?_, nodes ▸ stored.single strict⟩
    · intro file here
      rw [(onlyRoot _ file here).2]
    · intro d c i file found here
      obtain ⟨rfl, _⟩ := onlyRoot i file here
      rw [nodes] at found
      exact absurd found (stored.tree.no_root d c)
  · exact nodes ▸ stored.reached

/-- A state between two calls leaves a sound image, with the buckets in use listed in any
order, unless a directory with entries has been moved to where the special files lie. -/
theorem Names.stored (names : Names level s) {metaBuckets : List Nat} (distinct : metaBuckets.Nodup)
    (inUse : ∀ id, id ∈ metaBuckets ↔ id ∈ s.accounting.bucketsInUse)
    (plain : ∀ p i, specialPath p = true → s.walk p = some i → ∀ c, edge s.nodes i c = none) :
    Stored level ⟨metaBuckets, s.slots⟩ where
  distinct := distinct
  positive := fun id member => names.alloc.ok.buckets id ((inUse id).mp member)
  listed := fun i used => by
    rw [inUse]
    by_contra unused
    exact used (names.alloc.free i (Or.inr ⟨names.alloc.bucket i used, unused⟩))
  chain := names.alloc.chain
  apart := names.alloc.apart
  readable := names.readable
  tree := names.tree
  live := names.live
  links := names.links
  counted := names.counted
  special := plain
  single := fun strict => (names.permitted strict).single
  reached := names.reached

end CloudCryptFS.Filesystem
