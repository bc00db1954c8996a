import CloudCryptFS.Filesystem.FileCalls
import CloudCryptFS.Filesystem.Listing

/-! What the file system is for: a map from paths to inodes, and a file for each inode that
is no directory. Directories and their texts, chunks and their lists, link counts, owners,
rights, caches and the journal do not occur in it, and a caller who sees the answers only
cannot tell the calls on names, data and attributes from steps of it. -/

namespace CloudCryptFS.Filesystem
open Util NameGraph Script Script.Lexer

section Answers

/-- The calls on a mounted file system. -/
inductive FileCall where
  | name (op : Op)
  | readdir (path : Path)
  | read (path : Path) (size offset : Nat) (shown : Str) (often : Bool)
  | write (path : Path) (buf : Str) (offset : Nat)
  | truncate (path : Path) (newSize : Nat) (ctx : Context)
  | readlink (path : Path) (bufferSize : Nat) (shown : Str) (often : Bool)
  | chmod (path : Path) (mode : Mode) (ctx : Context)
  | chown (path : Path) (uid gid : UInt32) (ctx : Context)

inductive Reply where
  | answer (answer : Answer)
  | names (names : Except EE (List Name))
  | bytes (text : Except EE Str)
  | count (amount : Except EE Nat)
  | status (e : EE)

/-- A call together with its reply. -/
def FileCall.reply [Floats] : FileCall → FsM Reply
  | .name op => do return .answer (← op.answer)
  | .readdir path => do return .names (← readdir_callback path)
  | .read path size offset shown often => do return .bytes (← ByPath.read_callback path size offset shown often)
  | .write path buf offset => do return .count (← ByPath.write_callback path buf offset)
  | .truncate path newSize ctx => do return .status (← truncate_callback path newSize ctx)
  | .readlink path bufferSize shown often => do return .bytes (← ByPath.readlink_callback path bufferSize shown often)
  | .chmod path mode ctx => do return .status (← chmod_callback path mode ctx)
  | .chown path uid gid ctx => do return .status (← chown_callback path uid gid ctx)

theorem reply_eq_some {β : Type} {body : FsM β} {wrap : β → Reply} {reply : Reply} {s s' : Fs}
    (ran : (do return wrap (← body) : FsM Reply) s = some (reply, s')) : ∃ b, reply = wrap b ∧ body s = some (b, s') := by
  obtain ⟨b, t, called, done⟩ := Run.bind_eq_some.mp ran
  cases done
  exact ⟨b, rfl, called⟩

end Answers

/-- The inode at each path, and the file of each inode that is no directory. -/
structure FileTree where
  paths : Hierarchy
  files : BucketIndex → Option File

namespace FileTree

def fileAt (tree : FileTree) (path : Path) : Option File := (tree.paths path).bind tree.files

/-- The mode of the object that a call makes. -/
def modeOf : Op → Mode
  | .mknod _ m _ => let m := if m &&& Mode.TYPE = 0 then m ||| Mode.TYPE_REG else m; m ||| m &&& Mode.TYPE
  | .mkdir _ mode _ => mode ||| Mode.TYPE_DIR
  | .softlink _ _ _ => 0o777 ||| Mode.TYPE_LNK
  | _ => 0

/-- The file of a new inode. -/
def fresh (mode : Mode) : Option File := if mode.fileType = .DIR then none else some (File.empty mode.fileType)

/-- The file that a call makes: an empty one, or a link with its text. -/
def made : Op → Answer → Option File
  | .softlink linktarget _ _, .status .ok => some ((File.empty .LNK).write linktarget 0)
  | op, _ => fresh (modeOf op)

/-- What `read_callback` hands out. -/
def readAt (tree : FileTree) (path : Path) (size offset : Nat) : Except EE Str :=
  match tree.fileAt path with
  | some f => if f.type = .FILE then .ok (f.read size offset) else .error .entity_not_found
  | none => .error .entity_not_found

/-- What `readlink_callback` hands out: the text of a link that fits into the buffer. -/
def linkAt (tree : FileTree) (path : Path) (bufferSize : Nat) : Except EE Str :=
  match tree.fileAt path with
  | some f =>
    if f.type = .LNK ∧ (min f.size bufferSize : Int) = toInt32 f.size then
      .ok (window f.byte 0 (min f.size bufferSize) ++ List.replicate (bufferSize - f.size) 0)
    else .error .entity_not_found
  | none => .error .entity_not_found

theorem readAt_of_file {tree : FileTree} {path : Path} {f : File} (size offset : Nat) (file : tree.fileAt path = some f)
    (type : f.type = .FILE) : tree.readAt path size offset = .ok (f.read size offset) := by
  unfold readAt
  rw [file]
  exact if_pos type

theorem readAt_of_not {tree : FileTree} {path : Path} (size offset : Nat) (none : ∀ f, tree.fileAt path = some f → f.type ≠ .FILE) :
    tree.readAt path size offset = .error .entity_not_found := by
  unfold readAt
  split
  · rename_i f file
    exact if_neg (none f file)
  · rfl

/-- Files that stay somewhere in the tree stay as they are. -/
def Keeps (tree tree' : FileTree) : Prop :=
  ∀ i, (∃ p, tree.paths p = some i) → (∃ p, tree'.paths p = some i) → tree'.files i = tree.files i

/-- How the tree may change in a call that gives this reply. -/
inductive Does (tree : FileTree) : FileCall × Reply → FileTree → Prop where
  | name {op : Op} {answer : Answer} {tree' : FileTree} (does : tree.paths.Does (op, answer) tree'.paths) (keeps : tree.Keeps tree')
      (new : ∀ path i, Hierarchy.makes op = some path → tree'.paths path = some i → (∀ p, tree.paths p ≠ some i) →
        tree'.files i = made op answer) : Does tree (.name op, .answer answer) tree'
  -- a directory that shows statistics is not read, and counts as full
  | shows {source dest : Path} (ctx : Context) (there : tree.paths dest ≠ none) :
      Does tree (.name (.renamemove source dest ctx), .answer (.status .not_empty)) tree
  | readdir (path : Path) {names : Except EE (List Name)} (nodup : (listed names).Nodup)
      (lists : ∀ c, c ∈ listed names ↔ ∃ i, tree.paths (c :: path) = some i ∧ i < 2 ^ 63) : Does tree (.readdir path, .names names) tree
  | read (path : Path) (size offset : Nat) (shown : Str) (often : Bool) :
      Does tree (.read path size offset shown often, .bytes (tree.readAt path size offset)) tree
  | write {path : Path} {i : BucketIndex} {f : File} (buf : Str) (offset : Nat) (there : tree.paths path = some i)
      (file : tree.files i = some f) (type : f.type = .FILE) :
      Does tree (.write path buf offset, .count (.ok buf.length)) { tree with files := Function.update tree.files i (some (f.write buf offset)) }
  | writeNothing {path : Path} (buf : Str) (offset : Nat) (none : ∀ f, tree.fileAt path = some f → f.type ≠ .FILE) :
      Does tree (.write path buf offset, .count (.error .entity_not_found)) tree
  | truncate {path : Path} {i : BucketIndex} {f : File} {newSize : Nat} (ctx : Context) (there : tree.paths path = some i)
      (file : tree.files i = some f) (fits : newSize ≤ maxFileSize) :
      Does tree (.truncate path newSize ctx, .status .ok) { tree with files := Function.update tree.files i (some (f.truncate newSize)) }
  | truncateAbsent {path : Path} (newSize : Nat) (ctx : Context) (none : tree.paths path = none) :
      Does tree (.truncate path newSize ctx, .status .entity_not_found) tree
  | truncateRefused {path : Path} {newSize : Nat} (ctx : Context) {e : EE} (there : tree.paths path ≠ none)
      (why : e = .access_denied ∨ e = .too_big ∧ newSize > maxFileSize) : Does tree (.truncate path newSize ctx, .status e) tree
  | readlink (path : Path) (bufferSize : Nat) (shown : Str) (often : Bool) :
      Does tree (.readlink path bufferSize shown often, .bytes (tree.linkAt path bufferSize)) tree
  | chmod {path : Path} (mode : Mode) (ctx : Context) {e : EE} (absent : tree.paths path = none → e = .entity_not_found)
      (present : tree.paths path ≠ none → e = .ok ∨ e = .permission_denied) :
      Does tree (.chmod path mode ctx, .status e) tree
  | chown {path : Path} (uid gid : UInt32) (ctx : Context) {e : EE} (absent : tree.paths path = none → e = .entity_not_found)
      (present : tree.paths path ≠ none → e = .ok ∨ e = .permission_denied ∨ e = .access_denied) :
      Does tree (.chown path uid gid ctx, .status e) tree

end FileTree

section View
variable [Floats] {s t : Fs} {i : BucketIndex} {n : Inode} {path : Path} {F : FilePtr}

/-- The file of an inode, unless it is a directory. -/
def Inode.fileOf (n : Inode) : Option File := if n.type = .DIR then none else some n.file

def Fs.fileTree (s : Fs) : FileTree := ⟨s.walk, fun i => (s.nodes i).bind Inode.fileOf⟩

/-- The names are in order, and the chunks of every file reach up to its end. -/
structure Fs.Grounded (s : Fs) : Prop where
  names : Names .exact s
  long : ∀ i n, s.nodes i = some n → n.type ≠ .DIR → n.Long

omit [Floats] in
theorem Inode.fileOf_leaf (leaf : n.type ≠ .DIR) : n.fileOf = some n.file := if_neg leaf

omit [Floats] in
theorem Inode.fileOf_congr {n' : Inode} (type : n.type = n'.type) (data : n.type ≠ .DIR → n.data = n'.data) : n'.fileOf = n.fileOf := by
  unfold Inode.fileOf Inode.file
  rw [← type]
  by_cases dir : n.type = .DIR
  · rw [if_pos dir, if_pos dir]
  · rw [if_neg dir, if_neg dir, data dir]

theorem Fs.fileTree_files (here : s.nodes i = some n) : s.fileTree.files i = n.fileOf := by
  unfold Fs.fileTree
  dsimp only
  rw [here]
  rfl

theorem Fs.fileTree_of_nodes (same : t.nodes = s.nodes) : t.fileTree = s.fileTree := by
  unfold Fs.fileTree
  rw [Fs.walk_of_nodes same, same]

theorem Settles.fileTree (settles : Settles .exact s t) : t.fileTree = s.fileTree := by
  unfold Fs.fileTree
  rw [Fs.walk_congr settles.edges]
  congr 1
  funext j
  cases after : t.nodes j with
  | none =>
    have before : s.nodes j = none := by
      by_contra alive
      have lives := settles.alive j (Option.isSome_iff_ne_none.mpr alive)
      rw [after] at lives
      cases lives
    rw [before]
  | some n' =>
    obtain ⟨n, before, type, data⟩ := settles.untouched j n' after
    rw [before]
    exact Inode.fileOf_congr type data

/-- One file is different, and nothing else. -/
theorem Fs.fileTree_of_update {n' : Inode} (edges : edge t.nodes = edge s.nodes) (nodes : t.nodes = Function.update s.nodes i (some n'))
    (leaf : n'.type ≠ .DIR) : t.fileTree = { s.fileTree with files := Function.update s.fileTree.files i (some n'.file) } := by
  unfold Fs.fileTree
  rw [Fs.walk_congr edges]
  congr 1
  funext j
  dsimp only
  rw [nodes]
  by_cases same : j = i
  · rw [same, Function.update_self, Function.update_self]
    exact Inode.fileOf_leaf leaf
  · rw [Function.update_of_ne same, Function.update_of_ne same]

/-- Every inode has been left alone, or it is new and has this file. -/
def Brings (file : Option File) (s t : Fs) : Prop :=
  ∀ j n', t.nodes j = some n' → UntouchedAt j s t ∨ (s.nodes j = none ∧ (n'.type ≠ .DIR → n'.Long) ∧ n'.fileOf = file)

omit [Floats] in
theorem Brings.of_untouched {file : Option File} (untouched : Untouched s t) : Brings file s t := fun j _ _ => Or.inl (untouched j)

theorem Brings.grounded {file : Option File} (brings : Brings file s t) (grounded : s.Grounded) (names : Names .exact t) : t.Grounded where
  names := names
  long := by
    intro j n' here leaf
    rcases brings j n' here with untouched | ⟨_, long, _⟩
    · obtain ⟨n, before, type, data⟩ := untouched n' here
      have leaf₀ : n.type ≠ .DIR := type ▸ leaf
      have long := grounded.long j n before leaf₀
      unfold Inode.Long at long ⊢
      rw [← data leaf₀]
      exact long
    · exact long leaf

theorem Fs.Grounded.of_untouched (grounded : s.Grounded) (names : Names .exact t) (untouched : Untouched s t) : t.Grounded :=
  Brings.grounded (Brings.of_untouched untouched : Brings none s t) grounded names

theorem Fs.Grounded.of_nodes (grounded : s.Grounded) (names : Names .exact t) (same : t.nodes = s.nodes) : t.Grounded :=
  grounded.of_untouched names (Untouched.of_nodes same)

theorem Fs.Grounded.of_update {n' : Inode} (grounded : s.Grounded) (names : Names .exact t)
    (nodes : t.nodes = Function.update s.nodes i (some n')) (long : n'.Long) : t.Grounded where
  names := names
  long := by
    intro j m here leaf
    rw [nodes] at here
    by_cases same : j = i
    · rw [same, Function.update_self] at here
      cases here
      exact long
    · rw [Function.update_of_ne same] at here
      exact grounded.long j m here leaf

/-- The path leads to none of the files that show statistics and metadata. -/
def Fs.Ordinary (s : Fs) (path : Path) : Prop :=
  ∀ i t object, get path s = some (some i, t) → t.inodeFileCache i = some object → object.special = false

/-- The path leads to an inode, whose file object is open and shows its own data. -/
structure Fs.Finds (s u : Fs) (path : Path) (i : BucketIndex) (n : Inode) : Prop where
  there : s.walk path = some i
  grounded : u.Grounded
  nodes : u.nodes = s.nodes
  here : u.nodes i = some n
  opened : ∃ object, u.inodeFileCache i = some object ∧ object.special = false

theorem Fs.Grounded.get_cases (grounded : s.Grounded) (ordinary : s.Ordinary path) (ran : get path s = some (F, t)) :
    (F = none ∧ s.walk path = none ∧ t.Grounded ∧ t.nodes = s.nodes) ∨ ∃ i n, F = some i ∧ s.Finds t path i n := by
  obtain ⟨rfl, names, looked, opened⟩ := grounded.names.looked ran
  have grounded' := grounded.of_nodes names looked.nodes
  cases there : s.walk path with
  | none => exact Or.inl ⟨rfl, rfl, grounded', looked.nodes⟩
  | some i =>
    obtain ⟨n, here⟩ := Option.isSome_iff_exists.mp (grounded.names.walk_alive there)
    obtain ⟨object, cached⟩ := Option.isSome_iff_exists.mp (opened i there)
    have plain := ordinary i t object (there ▸ ran) cached
    exact Or.inr ⟨i, n, rfl, there, grounded', looked.nodes, looked.nodes ▸ here, object, cached, plain⟩

theorem Fs.fileAt_none (there : s.walk path = none) : s.fileTree.fileAt path = none := by
  unfold FileTree.fileAt
  have place : s.fileTree.paths path = none := there
  rw [place]
  rfl

theorem Fs.fileAt_some (there : s.walk path = some i) (here : s.nodes i = some n) : s.fileTree.fileAt path = n.fileOf := by
  unfold FileTree.fileAt
  have place : s.fileTree.paths path = some i := there
  rw [place]
  exact Fs.fileTree_files here

theorem Fs.fileAt_type {f : File} (there : s.walk path = some i) (here : s.nodes i = some n) (file : s.fileTree.fileAt path = some f) :
    f.type = n.type := by
  rw [Fs.fileAt_some there here] at file
  unfold Inode.fileOf at file
  split at file
  · cases file
  · cases file
    rfl

end View

section DataCalls
variable [Floats] {s t : Fs} {path : Path} {size offset : Nat} {shown : Str} {often : Bool}

theorem Fs.Grounded.of_rewritten (grounded : s.Grounded) (rewritten : Rewritten s t) (same : t.nodes = s.nodes) : t.Grounded :=
  grounded.of_nodes (grounded.names.rewritten rewritten) same

/-- `read_callback` and `write_callback` do nothing unless the path leads to a regular file. -/
theorem onFile_cases {α : Type} {body : FilePtr → FsM α} {r : Except EE α} (grounded : s.Grounded) (ordinary : s.Ordinary path)
    (ran : (do
      let D ← get path
      if ← valid D then
        let n ← INode D
        if n.type = .FILE then do
          let ret ← body D
          pure (.ok ret)
        else pure (.error .entity_not_found)
      else pure (.error .entity_not_found) : FsM (Except EE α)) s = some (r, t)) :
    (r = .error .entity_not_found ∧ t.Grounded ∧ t.nodes = s.nodes ∧ ∀ f, s.fileTree.fileAt path = some f → f.type ≠ .FILE) ∨
      ∃ i n u ret, s.Finds u path i n ∧ n.type = .FILE ∧ body (some i) u = some (ret, t) ∧ r = .ok ret := by
  obtain ⟨D, u, found, ran⟩ := Run.bind_eq_some.mp ran
  obtain ⟨isValid, _, asked, ran⟩ := Run.bind_eq_some.mp ran
  obtain ⟨validity, rfl⟩ := valid_eq_some.mp asked
  rcases grounded.get_cases ordinary found with ⟨rfl, there, grounded', nodes⟩ | ⟨i, n, rfl, finds⟩
  · rw [if_neg (by simp [validity])] at ran
    cases ran
    refine Or.inl ⟨rfl, grounded', nodes, ?_⟩
    intro f file
    cases (Fs.fileAt_none there).symm.trans file
  · obtain ⟨object, cached, _⟩ := finds.opened
    rw [if_pos (by simp [validity, cached])] at ran
    obtain ⟨m, _, asked, ran⟩ := Run.bind_eq_some.mp ran
    obtain ⟨slot, rfl⟩ := INode_eq_some.mp asked
    cases finds.here.symm.trans (Fs.nodes_of_slot slot)
    split at ran
    · rename_i isFile
      obtain ⟨ret, v, done, ran⟩ := Run.bind_eq_some.mp ran
      cases ran
      exact Or.inr ⟨i, _, _, ret, finds, isFile, done, rfl⟩
    · rename_i other
      cases ran
      refine Or.inl ⟨rfl, finds.grounded, finds.nodes, ?_⟩
      intro f file type
      have same : f.type = m.seen.type := Fs.fileAt_type finds.there (finds.nodes ▸ finds.here) file
      exact other (same.symm.trans type)

theorem Fs.Finds.file {u : Fs} {i : BucketIndex} {n : Inode} (finds : s.Finds u path i n) (leaf : n.type ≠ .DIR) :
    s.fileTree.files i = some n.file :=
  (Fs.fileTree_files (finds.nodes ▸ finds.here)).trans (Inode.fileOf_leaf leaf)

theorem read_callback_does {r : Except EE Str} (grounded : s.Grounded) (ordinary : s.Ordinary path)
    (ran : ByPath.read_callback path size offset shown often s = some (r, t)) :
    t.Grounded ∧ s.fileTree.Does (.read path size offset shown often, .bytes r) t.fileTree := by
  rcases onFile_cases grounded ordinary ran with ⟨rfl, grounded', nodes, none⟩ | ⟨i, n, u, ret, finds, type, read, rfl⟩
  · rw [Fs.fileTree_of_nodes nodes, ← FileTree.readAt_of_not size offset none]
    exact ⟨grounded', .read path size offset shown often⟩
  · obtain ⟨object, cached, plain⟩ := finds.opened
    have leaf : n.type ≠ .DIR := by
      rw [type]
      decide
    obtain ⟨rfl, rewritten, same⟩ :=
      fileRead_effect finds.grounded.names cached plain finds.here (finds.grounded.long i n finds.here leaf) read
    have file : s.fileTree.fileAt path = some n.file :=
      (Fs.fileAt_some finds.there (finds.nodes ▸ finds.here)).trans (Inode.fileOf_leaf leaf)
    rw [Fs.fileTree_of_nodes (same.trans finds.nodes), ← FileTree.readAt_of_file size offset file type]
    exact ⟨finds.grounded.of_rewritten rewritten same, .read path size offset shown often⟩

/-- What writing one file does to the tree. -/
theorem Fs.Finds.updated {u : Fs} {i : BucketIndex} {n n' : Inode} {f : File} (finds : s.Finds u path i n) (leaf : n.type ≠ .DIR)
    (rewritten : Rewritten u t) (nodes : t.nodes = Function.update u.nodes i (some n')) (type : f.type = n.type) (file : n'.file = f)
    (long : n'.Long) : t.Grounded ∧ t.fileTree = { s.fileTree with files := Function.update s.fileTree.files i (some f) } := by
  have leaf' : n'.type ≠ .DIR := by
    have same : n'.type = n.type := (congrArg File.type file).trans type
    rw [same]
    exact leaf
  constructor
  · exact finds.grounded.of_update (finds.grounded.names.rewritten rewritten) nodes long
  · rw [Fs.fileTree_of_update rewritten.edges nodes leaf', Fs.fileTree_of_nodes finds.nodes, file]

theorem write_callback_does {buf : Str} {r : Except EE Nat} (grounded : s.Grounded) (ordinary : s.Ordinary path)
    (ran : ByPath.write_callback path buf offset s = some (r, t)) :
    t.Grounded ∧ s.fileTree.Does (.write path buf offset, .count r) t.fileTree := by
  rcases onFile_cases grounded ordinary ran with ⟨rfl, grounded', nodes, none⟩ | ⟨i, n, u, ret, finds, type, wrote, rfl⟩
  · rw [Fs.fileTree_of_nodes nodes]
    exact ⟨grounded', .writeNothing buf offset none⟩
  · obtain ⟨object, cached, plain⟩ := finds.opened
    have leaf : n.type ≠ .DIR := by
      rw [type]
      decide
    have names := finds.grounded.names
    have rewritten := write_spec names.alloc names.readable (not_mem_dirs finds.here leaf) wrote
    obtain ⟨rfl, n', nodes, file, long⟩ := write_effect names cached plain finds.here leaf wrote
    obtain ⟨grounded', tree⟩ := finds.updated leaf rewritten nodes rfl file long
    rw [tree]
    exact ⟨grounded', .write buf offset finds.there (finds.file leaf) type⟩

theorem truncate_callback_does {newSize : Nat} {ctx : Context} {e : EE} (grounded : s.Grounded) (ordinary : s.Ordinary path)
    (leaf : ∀ i, s.walk path = some i → i ∉ dirs s.nodes) (ran : truncate_callback path newSize ctx s = some (e, t)) :
    t.Grounded ∧ s.fileTree.Does (.truncate path newSize ctx, .status e) t.fileTree := by
  unfold truncate_callback at ran
  obtain ⟨F, u, found, ran⟩ := Run.bind_eq_some.mp ran
  obtain ⟨isValid, _, asked, ran⟩ := Run.bind_eq_some.mp ran
  obtain ⟨validity, rfl⟩ := valid_eq_some.mp asked
  rcases grounded.get_cases ordinary found with ⟨rfl, there, grounded', nodes⟩ | ⟨i, n, rfl, finds⟩
  · rw [if_neg (by simp [validity])] at ran
    cases ran
    rw [Fs.fileTree_of_nodes nodes]
    exact ⟨grounded', .truncateAbsent newSize ctx there⟩
  · obtain ⟨object, cached, plain⟩ := finds.opened
    have present : s.fileTree.paths path ≠ none := by
      rw [show s.fileTree.paths path = some i from finds.there]
      exact Option.some_ne_none i
    rw [if_pos (by simp [validity, cached])] at ran
    obtain ⟨allowed, v, checked, ran⟩ := Run.bind_eq_some.mp ran
    obtain ⟨_, opened⟩ := validate_access_spec checked
    have walks : u.walk path = some i := by
      rw [Fs.walk_of_nodes finds.nodes]
      exact finds.there
    have names := finds.grounded.names.opened opened (finds.grounded.names.listed walks)
    have finds' : s.Finds v path i n := by
      refine ⟨finds.there, finds.grounded.of_nodes names opened.nodes, opened.nodes.trans finds.nodes, ?_, object, ?_, plain⟩
      · rw [opened.nodes]
        exact finds.here
      · exact opened.files.kept cached
    have isLeaf : n.type ≠ .DIR := fun dir => leaf i finds.there ⟨n, finds.nodes ▸ finds.here, dir⟩
    split at ran
    · rcases truncate_effect names (opened.files.kept cached) plain finds'.here isLeaf ran with
        ⟨large, rfl, rfl⟩ | ⟨small, rfl, n', nodes, file, long⟩
      · rw [Fs.fileTree_of_nodes finds'.nodes]
        exact ⟨finds'.grounded, .truncateRefused ctx present (Or.inr ⟨rfl, large⟩)⟩
      · have rewritten := truncate_spec names.alloc names.readable (not_mem_dirs finds'.here isLeaf) ran
        obtain ⟨grounded', tree⟩ := finds'.updated isLeaf rewritten nodes rfl file long
        rw [tree]
        exact ⟨grounded', .truncate ctx finds.there (finds.file isLeaf) small⟩
    · cases ran
      rw [Fs.fileTree_of_nodes finds'.nodes]
      exact ⟨finds'.grounded, .truncateRefused ctx present (Or.inl rfl)⟩

theorem readlnk_spec {i : BucketIndex} {n : Inode} {object : FileObject} {bufferSize : Nat} {r : Option Str} (grounded : s.Grounded)
    (here : s.nodes i = some n) (cached : s.inodeFileCache i = some object) (plain : object.special = false)
    (ran : readlnk (some i) bufferSize shown often s = some (r, t)) :
    t.Grounded ∧ t.nodes = s.nodes ∧ r = if n.type = .LNK ∧ (min n.file.size bufferSize : Int) = toInt32 n.file.size then
      some (window n.file.byte 0 (min n.file.size bufferSize) ++ List.replicate (bufferSize - n.file.size) 0) else none := by
  unfold readlnk at ran
  obtain ⟨isValid, _, asked, ran⟩ := Run.bind_eq_some.mp ran
  obtain ⟨validity, rfl⟩ := valid_eq_some.mp asked
  rw [if_pos (by simp [validity, cached])] at ran
  obtain ⟨special, _, asked, ran⟩ := Run.bind_eq_some.mp ran
  obtain ⟨isSpecial', rfl⟩ := isSpecial_eq_some.mp asked
  rw [if_neg (by simp [isSpecial', cached, plain])] at ran
  obtain ⟨m, _, asked, ran⟩ := Run.bind_eq_some.mp ran
  obtain ⟨slot, rfl⟩ := INode_eq_some.mp asked
  cases here.symm.trans (Fs.nodes_of_slot slot)
  split at ran
  · rename_i other
    cases ran
    exact ⟨grounded, rfl, (if_neg (fun both => other both.1)).symm⟩
  · rename_i isLink
    have type : m.seen.type = .LNK := not_not.mp isLink
    split at ran
    · rename_i empty
      cases ran
      refine ⟨grounded, rfl, ?_⟩
      have size : m.seen.file.size = 0 := empty
      rw [size, if_pos ⟨type, rfl⟩]
      rfl
    · have leaf : m.seen.type ≠ .DIR := by
        rw [type]
        decide
      obtain ⟨ret, v, read, ran⟩ := Run.bind_eq_some.mp ran
      obtain ⟨rfl, rewritten, same⟩ := fileRead_effect grounded.names cached plain here (grounded.long i _ here leaf) read
      have amount : readLength m.seen.file.size (min m.data.size bufferSize) 0 = min m.seen.file.size bufferSize :=
        readLength_start (Nat.min_le_left _ _)
      have length : (m.seen.file.read (min m.data.size bufferSize) 0).length = min m.seen.file.size bufferSize := by
        rw [File.read, amount, window, List.length_map, List.length_range]
      rw [length] at ran
      split at ran
      · rename_i differs
        cases ran
        refine ⟨grounded.of_rewritten rewritten same, same, (if_neg ?_).symm⟩
        intro both
        exact differs (by rw [Nat.cast_min]; exact both.2)
      · rename_i fits
        cases ran
        refine ⟨grounded.of_rewritten rewritten same, same, ?_⟩
        have rest : bufferSize - min m.seen.file.size bufferSize = bufferSize - m.seen.file.size := by omega
        rw [if_pos ⟨type, by rw [← Nat.cast_min]; exact not_not.mp fits⟩, File.read, amount, rest]

omit [Floats] in
theorem FileTree.linkAt_of_file {tree : FileTree} {f : File} (bufferSize : Nat) (file : tree.fileAt path = some f) :
    tree.linkAt path bufferSize = if f.type = .LNK ∧ (min f.size bufferSize : Int) = toInt32 f.size then
      .ok (window f.byte 0 (min f.size bufferSize) ++ List.replicate (bufferSize - f.size) 0) else .error .entity_not_found := by
  unfold FileTree.linkAt
  rw [file]

omit [Floats] in
theorem FileTree.linkAt_of_none {tree : FileTree} (bufferSize : Nat) (none : tree.fileAt path = none) :
    tree.linkAt path bufferSize = .error .entity_not_found := by
  unfold FileTree.linkAt
  rw [none]

theorem readlink_callback_does {bufferSize : Nat} {r : Except EE Str} (grounded : s.Grounded) (ordinary : s.Ordinary path)
    (ran : ByPath.readlink_callback path bufferSize shown often s = some (r, t)) :
    t.Grounded ∧ s.fileTree.Does (.readlink path bufferSize shown often, .bytes r) t.fileTree := by
  unfold ByPath.readlink_callback at ran
  obtain ⟨F, u, found, ran⟩ := Run.bind_eq_some.mp ran
  obtain ⟨isValid, _, asked, ran⟩ := Run.bind_eq_some.mp ran
  obtain ⟨validity, rfl⟩ := valid_eq_some.mp asked
  rcases grounded.get_cases ordinary found with ⟨rfl, there, grounded', nodes⟩ | ⟨i, n, rfl, finds⟩
  · rw [if_neg (by simp [validity])] at ran
    cases ran
    rw [Fs.fileTree_of_nodes nodes, ← FileTree.linkAt_of_none bufferSize (Fs.fileAt_none there)]
    exact ⟨grounded', .readlink path bufferSize shown often⟩
  · obtain ⟨object, cached, plain⟩ := finds.opened
    rw [if_pos (by simp [validity, cached])] at ran
    obtain ⟨buffer, v, read, ran⟩ := Run.bind_eq_some.mp ran
    obtain ⟨grounded', nodes, result⟩ := readlnk_spec finds.grounded finds.here cached plain read
    have hands : r = s.fileTree.linkAt path bufferSize ∧ v = t := by
      by_cases dir : n.type = .DIR
      · have none : s.fileTree.fileAt path = none := (Fs.fileAt_some finds.there (finds.nodes ▸ finds.here)).trans (if_pos dir)
        rw [if_neg (fun both => absurd (dir.symm.trans both.1) (by decide))] at result
        rw [result] at ran
        cases ran
        exact ⟨(FileTree.linkAt_of_none bufferSize none).symm, rfl⟩
      · have file : s.fileTree.fileAt path = some n.file :=
          (Fs.fileAt_some finds.there (finds.nodes ▸ finds.here)).trans (Inode.fileOf_leaf dir)
        rw [FileTree.linkAt_of_file bufferSize file]
        by_cases fits : n.type = .LNK ∧ (min n.file.size bufferSize : Int) = toInt32 n.file.size
        · rw [if_pos fits] at result
          rw [result] at ran
          cases ran
          exact ⟨(if_pos fits).symm, rfl⟩
        · rw [if_neg fits] at result
          rw [result] at ran
          cases ran
          exact ⟨(if_neg fits).symm, rfl⟩
    obtain ⟨rfl, rfl⟩ := hands
    rw [Fs.fileTree_of_nodes (nodes.trans finds.nodes)]
    exact ⟨grounded', .readlink path bufferSize shown often⟩

theorem readdir_callback_does {r : Except EE (List Name)} (grounded : s.Grounded) (ran : readdir_callback path s = some (r, t)) :
    t.Grounded ∧ s.fileTree.Does (.readdir path, .names r) t.fileTree := by
  obtain ⟨u, found, names, looked, opened⟩ := grounded.names.get path
  obtain ⟨r', read, _, nodup, lists⟩ := readdir_spec found names looked opened
  cases ran.symm.trans read
  rw [Fs.fileTree_of_nodes looked.nodes]
  exact ⟨grounded.of_nodes names looked.nodes, .readdir path nodup lists⟩

end DataCalls

section AttributeCalls
variable [Floats] {s t u : Fs} {path : Path} {ctx : Context} {e : EE}

theorem Fs.Grounded.of_settles (grounded : s.Grounded) (settles : Settles .exact s t) : t.Grounded :=
  grounded.of_untouched settles.names settles.untouched

/-- A call that gives the file at the path another owner or other rights, and nothing else. -/
theorem onNode_settles {body : FilePtr → FsM EE} {P : Prop} (grounded : s.Grounded) (absent : body none = pure .entity_not_found)
    (answers : ∀ {i u}, (u.inodeFileCache i).isSome → body (some i) u = some (e, t) → P)
    (settles : ∀ {i u}, Names .exact u → u.walk path = some i → body (some i) u = some (e, t) → Settles .exact u t)
    (ran : (do
      let F ← get path
      body F : FsM EE) s = some (e, t)) :
    t.Grounded ∧ t.fileTree = s.fileTree ∧ (s.fileTree.paths path = none → e = .entity_not_found) ∧ (s.fileTree.paths path ≠ none → P) := by
  obtain ⟨F, u, found, ran⟩ := Run.bind_eq_some.mp ran
  obtain ⟨rfl, names, looked, opened⟩ := grounded.names.looked found
  have first : Settles .exact s u := Settles.of_nodes names looked.nodes
  cases there : s.walk path with
  | none =>
    rw [there, absent] at ran
    cases ran
    exact ⟨grounded.of_settles first, first.fileTree, fun _ => rfl, fun present => absurd there present⟩
  | some i =>
    rw [there] at ran
    have all := first.trans (settles names (looked.walk ▸ there) ran)
    refine ⟨grounded.of_settles all, all.fileTree, fun none => ?_, fun _ => answers (opened i there) ran⟩
    cases there.symm.trans none

theorem chmod_callback_does {mode : Mode} (grounded : s.Grounded) (ran : chmod_callback path mode ctx s = some (e, t)) :
    t.Grounded ∧ s.fileTree.Does (.chmod path mode ctx, .status e) t.fileTree := by
  have settles : ∀ {i u}, Names .exact u → u.walk path = some i → chmod (some i) mode ctx u = some (e, t) → Settles .exact u t :=
    fun names there changed => chmod_settles names there changed
  obtain ⟨grounded', same, absent, present⟩ :=
    @onNode_settles _ s t path e (fun F => chmod F mode ctx) _ grounded rfl chmod_answers settles ran
  rw [same]
  exact ⟨grounded', .chmod mode ctx absent present⟩

theorem chown_callback_does {uid gid : UInt32} (grounded : s.Grounded) (ran : chown_callback path uid gid ctx s = some (e, t)) :
    t.Grounded ∧ s.fileTree.Does (.chown path uid gid ctx, .status e) t.fileTree := by
  have settles : ∀ {i u}, Names .exact u → u.walk path = some i → chown (some i) uid gid ctx u = some (e, t) → Settles .exact u t :=
    fun names there changed => chown_settles names there changed
  obtain ⟨grounded', same, absent, present⟩ :=
    @onNode_settles _ s t path e (fun F => chown F uid gid ctx) _ grounded rfl chown_answers settles ran
  rw [same]
  exact ⟨grounded', .chown uid gid ctx absent present⟩

end AttributeCalls

section NameCalls
variable [Floats] {s t u : Fs} {i : BucketIndex} {path : Path} {ctx : Context} {e : EE} {file : Option File}

omit [Floats] in
theorem Brings.of_addsAt {n : Inode} (adds : AddsAt i n s t) (long : n.type ≠ .DIR → n.Long) (same : n.fileOf = file) : Brings file s t := by
  intro j n' here
  by_cases new : j = i
  · rw [new, adds.present] at here
    cases here
    exact Or.inr ⟨new ▸ adds.absent, long, same⟩
  · exact Or.inl (adds.others j new)

theorem Brings.keeps (brings : Brings file s t) (names : Names .exact s) (names' : Names .exact t) : s.fileTree.Keeps t.fileTree := by
  intro j before after
  obtain ⟨p, before⟩ := before
  obtain ⟨p', after⟩ := after
  obtain ⟨n, old⟩ := Option.isSome_iff_exists.mp (names.walk_alive before)
  obtain ⟨n', here⟩ := Option.isSome_iff_exists.mp (names'.walk_alive after)
  rw [Fs.fileTree_files old, Fs.fileTree_files here]
  rcases brings j n' here with untouched | ⟨absent, _, _⟩
  · obtain ⟨m, before, type, data⟩ := untouched n' here
    cases old.symm.trans before
    exact Inode.fileOf_congr type data
  · cases absent.symm.trans old

theorem Brings.new (brings : Brings file s t) (names' : Names .exact t) (there : t.walk path = some i) (absent : s.nodes i = none) :
    t.fileTree.files i = file := by
  obtain ⟨n', here⟩ := Option.isSome_iff_exists.mp (names'.walk_alive there)
  rw [Fs.fileTree_files here]
  rcases brings i n' here with untouched | ⟨_, _, same⟩
  · obtain ⟨n, before, _⟩ := untouched n' here
    cases absent.symm.trans before
  · exact same

theorem Made.absent {op : Op} (made : Made s t op path e) (names : Names .exact s) (there : t.walk path = some i)
    (unseen : ∀ p, s.walk p ≠ some i) : s.nodes i = none := by
  rcases made with ⟨_, nodes⟩ | ⟨_, c, q, d, j, rfl, new, entered⟩
  · rw [Fs.walk_of_nodes nodes] at there
    exact absurd there (unseen path)
  · rw [entered.walk names, Function.update_self] at there
    cases there
    exact new

omit [Floats] in
theorem Inode.file_fresh (mode : Mode) (ctx : Context) : (Inode.fresh mode ctx).file = File.empty mode.fileType := rfl

omit [Floats] in
theorem Inode.fileOf_fresh (mode : Mode) (ctx : Context) : (Inode.fresh mode ctx).fileOf = FileTree.fresh mode := rfl

omit [Floats] in
theorem Inode.long_fresh (mode : Mode) (ctx : Context) : (Inode.fresh mode ctx).Long := numChunks_zero.le

theorem mkobject_brings {type mod : Mode} (names : Names .exact s) (creates : Creates .exact s path)
    (ran : mkobject path ctx type mod s = some (e, t)) : Brings (FileTree.fresh (mod ||| type)) s t := by
  rcases mkobject_adds names creates ran with ⟨_, untouched⟩ | ⟨_, i, adds⟩
  · exact Brings.of_untouched untouched
  · exact Brings.of_addsAt adds (fun _ => Inode.long_fresh _ ctx) (Inode.fileOf_fresh _ ctx)

omit [Floats] in
theorem Brings.then (brings : Brings file s t) (same : u.nodes = t.nodes) : Brings file s u := by
  intro j n' here
  have untouched : UntouchedAt j t u := UntouchedAt.of_nodes (congrFun same j)
  rw [same] at here
  rcases brings j n' here with first | new
  · exact Or.inl (first.trans untouched)
  · exact Or.inr new

omit [Floats] in
theorem File.write_nil (f : File) : f.write [] 0 = f := by
  have size : max f.size (0 + ([] : Str).length) = f.size := Nat.max_eq_left (Nat.zero_le _)
  have byte : overlay 0 [] f.byte = f.byte := by
    funext p
    rw [overlay, if_pos (Nat.zero_le p)]
    rfl
  unfold File.write
  rw [size, byte]

omit [Floats] in
/-- Nothing stands behind the end of a text that has been written to an empty file. -/
theorem File.truncate_write_empty (type : FileType) (text : Str) :
    ((File.empty type).write text 0).truncate text.length = (File.empty type).write text 0 := by
  have size : max 0 (0 + text.length) = text.length := by omega
  have byte : (fun p => if p < numChunks text.length * chunkSize then overlay 0 text (fun _ => 0) p else 0) =
      overlay 0 text (fun _ => (0 : Byte)) := by
    funext p
    by_cases inside : p < numChunks text.length * chunkSize
    · rw [if_pos inside]
    · have covers := (numChunks_mul text.length).1
      rw [if_neg inside, overlay, if_pos (Nat.zero_le p), List.getElem?_eq_none (by omega)]
      rfl
  unfold File.write File.truncate File.empty
  dsimp only
  rw [size, byte]

/-- The text of a link, unless its file object shows something else. -/
theorem link_written {object : FileObject} {n : Inode} {linktarget : Str} {k : Nat} {v w : Fs} (names : Names .exact u)
    (cached : u.inodeFileCache i = some object) (here : u.nodes i = some n) (blank : n.file = File.empty .LNK)
    (wrote : write (some i) linktarget 0 u = some (k, v)) (cutOff : truncate (some i) linktarget.length v = some (e, w)) :
    (k = linktarget.length ∧ ∃ n', w.nodes = Function.update u.nodes i (some n') ∧
      n'.file = (File.empty .LNK).write linktarget 0 ∧ n'.Long) ∨ (k = 0 ∧ w.nodes = u.nodes) := by
  have link : ∀ {n : Inode}, n.file.type = .LNK → n.type ≠ .DIR := by
    intro n type dir
    cases type.symm.trans dir
  by_cases plain : object.special = false
  · have leaf := link (congrArg File.type blank)
    have first := write_spec names.alloc names.readable (not_mem_dirs here leaf) wrote
    obtain ⟨rfl, n', nodes, file, long⟩ := write_effect names cached plain here leaf wrote
    have place := first.files i
    rw [cached, Option.map_some] at place
    obtain ⟨object', cached', _⟩ := Option.map_eq_some_iff.mp place
    obtain ⟨before, there, _, same⟩ := first.file cached'
    cases cached.symm.trans there
    have here' : v.nodes i = some n' := by
      rw [nodes, Function.update_self]
    rw [blank] at file
    rcases truncate_effect (names.rewritten first) cached' (same.symm.trans plain) here' (link (congrArg File.type file)) cutOff with
      ⟨_, _, rfl⟩ | ⟨_, _, n'', nodes', file', long'⟩
    · exact Or.inl ⟨rfl, n', nodes, file, long⟩
    · refine Or.inl ⟨rfl, n'', ?_, ?_, long'⟩
      · rw [nodes', nodes, Function.update_idem]
      · rw [file', file, File.truncate_write_empty]
  · obtain ⟨rfl, rfl⟩ := write_special cached plain wrote
    have same := truncate_special cached plain cutOff
    exact Or.inr ⟨rfl, congrArg Fs.nodes same⟩

/-- The inode that is new is the one at the new path. -/
theorem Made.added {op : Op} {n : Inode} (made : Made s t op path .ok) (adds : AddsAt i n s t) (names : Names .exact s)
    (names' : Names .exact t) : t.walk path = some i := by
  rcases made with ⟨refusal, _⟩ | ⟨_, c, q, d, j, rfl, new, entered⟩
  · exact absurd rfl refusal.failed
  · have there : t.walk (c :: q) = some j := by
      rw [entered.walk names, Function.update_self]
    obtain ⟨m, alive⟩ := Option.isSome_iff_exists.mp (names'.walk_alive there)
    by_cases same : j = i
    · rw [there, same]
    · obtain ⟨n, before, _⟩ := adds.others j same m alive
      cases new.symm.trans before

theorem softlink_brings {linktarget : Str} (names : Names .exact s) (creates : Creates .exact s path)
    (ran : softlink linktarget path ctx s = some (e, t)) :
    Brings (FileTree.made (.softlink linktarget path ctx) (.status e)) s t ∧
      ∀ i, t.walk path = some i → (∀ p, s.walk p ≠ some i) → s.nodes i = none := by
  unfold softlink at ran
  obtain ⟨error, u, called, ran⟩ := Run.bind_eq_some.mp ran
  have made := mkobject_does (.softlink linktarget path ctx) names creates (List.mem_singleton_self _) rfl called
  have absent : ∀ i, u.walk path = some i → (∀ p, s.walk p ≠ some i) → s.nodes i = none :=
    fun i there unseen => made.absent names there unseen
  obtain ⟨names₁, _⟩ := mkobject_spec names creates called
  rcases mkobject_adds names creates called with ⟨failed, untouched⟩ | ⟨rfl, i, adds⟩
  · rw [if_pos failed] at ran
    cases ran
    exact ⟨Brings.of_untouched untouched, absent⟩
  · rw [if_neg (fun no => no rfl)] at ran
    obtain ⟨⟨F, e₁⟩, v, found, ran⟩ := Run.bind_eq_some.mp ran
    dsimp only at ran
    obtain ⟨found, which⟩ := names₁.lookedErrcode found
    obtain ⟨rfl, names₂, looked, opened⟩ := names₁.looked found
    have there := made.added adds names names₁
    obtain ⟨object, cached⟩ := Option.isSome_iff_exists.mp (opened i there)
    rw [there] at which ran
    obtain rfl : e₁ = .ok := by
      rcases which with ⟨none, _⟩ | ⟨_, _, done⟩
      · cases none
      · exact done
    rw [if_neg (fun no => no rfl)] at ran
    obtain ⟨k, w, wrote, ran⟩ := Run.bind_eq_some.mp ran
    obtain ⟨e', x, cutOff, ran⟩ := Run.bind_eq_some.mp ran
    have here : v.nodes i = some (Inode.fresh (0o777 ||| Mode.TYPE_LNK) ctx) := by
      rw [looked.nodes]
      exact adds.present
    have written := link_written names₂ cached here (Inode.file_fresh _ ctx) wrote cutOff
    have link : ((0o777 : Mode) ||| Mode.TYPE_LNK).fileType = .LNK := by decide
    have outside : i ∉ dirs v.nodes := not_mem_dirs here (fun dir => nomatch link.symm.trans dir)
    have first := write_spec names₂.alloc names₂.readable outside wrote
    have second := first.trans (truncate_spec first.alloc first.readable (first.heads.dirs ▸ outside) cutOff)
    have ends : t.nodes = x.nodes ∧ ((k ≠ linktarget.length ∧ e = .entity_not_found) ∨ (k = linktarget.length ∧ e = .ok)) := by
      split at ran
      · rename_i differs
        cases ran
        exact ⟨rfl, Or.inl ⟨differs, rfl⟩⟩
      · rename_i fits
        obtain ⟨_, y, rested, ran⟩ := Run.bind_eq_some.mp ran
        cases ran
        obtain ⟨_, kept, _⟩ := rest_spec second.alloc rested
        exact ⟨kept, Or.inr ⟨not_not.mp fits, rfl⟩⟩
    obtain ⟨nodes, which⟩ := ends
    have walk : t.walk = u.walk := by
      rw [Fs.walk_of_nodes nodes, Fs.walk_congr second.edges, looked.walk]
    refine ⟨?_, fun j there unseen => absent j (walk ▸ there) unseen⟩
    rcases written with ⟨amount, n', nodes', file, long⟩ | ⟨amount, nodes'⟩
    · have leaf : n'.type ≠ .DIR := by
        intro dir
        cases (congrArg File.type file).symm.trans dir
      have all : AddsAt i n' s t := adds.update (by rw [nodes, nodes', looked.nodes])
      rcases which with ⟨differs, _⟩ | ⟨_, rfl⟩
      · exact absurd amount differs
      · exact Brings.of_addsAt all (fun _ => long) ((Inode.fileOf_leaf leaf).trans (congrArg some file))
    · have all := (mkobject_brings names creates called).then (nodes.trans (nodes'.trans looked.nodes))
      rcases which with ⟨_, rfl⟩ | ⟨fits, rfl⟩
      · exact all
      · have empty : linktarget = [] := List.length_eq_zero_iff.mp (fits.symm.trans amount)
        rw [empty, FileTree.made, File.write_nil]
        have blank : FileTree.fresh (0o777 ||| Mode.TYPE_LNK) = some (File.empty .LNK) := by
          unfold FileTree.fresh
          rw [link]
          rfl
        exact blank ▸ all

/-- What a call brings: new files are those of the calls that make one. -/
theorem Op.brings {op : Op} {answer : Answer} (names : Names .exact s) (regular : op.Regular .exact s)
    (ran : op.answer s = some (answer, t)) : Brings (FileTree.made op answer) s t ∧
      ∀ path i, Hierarchy.makes op = some path → t.walk path = some i → (∀ p, s.walk p ≠ some i) → s.nodes i = none := by
  cases op with
  | mknod filename m ctx =>
    obtain ⟨e, rfl, called⟩ := answer_eq_some ran
    unfold Filesystem.mknod at called
    obtain ⟨error, u, made, called⟩ := Run.bind_eq_some.mp called
    have brings := mkobject_brings names regular made
    obtain ⟨names', _⟩ := mkobject_spec names regular made
    have does := mkobject_does (.mknod filename m ctx) names regular (List.mem_singleton_self _) rfl made
    have nodes : t.nodes = u.nodes := by
      split at called
      · cases called
        rfl
      · obtain ⟨F, v, found, called⟩ := Run.bind_eq_some.mp called
        cases called
        obtain ⟨_, _, looked, _⟩ := names'.looked found
        exact looked.nodes
    refine ⟨brings.then nodes, ?_⟩
    intro path i makes there unseen
    cases makes
    exact does.absent names (Fs.walk_of_nodes nodes ▸ there) unseen
  | mkdir name mode ctx =>
    obtain ⟨e, rfl, called⟩ := answer_eq_some ran
    have does := mkobject_does (.mkdir name mode ctx) names regular (List.mem_singleton_self _) rfl called
    refine ⟨mkobject_brings names regular called, ?_⟩
    intro path i makes there unseen
    cases makes
    exact does.absent names there unseen
  | softlink linktarget linkname ctx =>
    obtain ⟨e, rfl, called⟩ := answer_eq_some ran
    obtain ⟨brings, absent⟩ := softlink_brings names regular called
    refine ⟨brings, ?_⟩
    intro path i makes there unseen
    cases makes
    exact absent i there unseen
  | hardlink linktarget linkname ctx =>
    obtain ⟨e, rfl, called⟩ := answer_eq_some ran
    exact ⟨Brings.of_untouched (hardlink_untouched names regular called), fun path i makes => nomatch makes⟩
  | unlink filename ctx =>
    obtain ⟨e, rfl, called⟩ := answer_eq_some ran
    exact ⟨Brings.of_untouched (unlink_untouched filename ctx s _ _ called), fun path i makes => nomatch makes⟩
  | renamemove source dest ctx =>
    obtain ⟨e, rfl, called⟩ := answer_eq_some ran
    exact ⟨Brings.of_untouched (renamemove_untouched names regular called), fun path i makes => nomatch makes⟩
  | get path =>
    obtain ⟨F, rfl, called⟩ := answer_eq_some ran
    exact ⟨Brings.of_untouched (get_looking path _ _ _ called).untouched, fun path i makes => nomatch makes⟩

theorem Op.does_files {op : Op} {answer : Answer} (grounded : s.Grounded) (regular : op.Regular .exact s)
    (ran : op.answer s = some (answer, t)) : t.Grounded ∧ s.fileTree.Does (.name op, .answer answer) t.fileTree := by
  have names := grounded.names.step regular (Op.run_of_answer ran)
  obtain ⟨brings, absent⟩ := Op.brings grounded.names regular ran
  refine ⟨brings.grounded grounded names, ?_⟩
  rcases Op.does grounded.names regular ran with does | ⟨rfl, nodes, shows⟩
  · apply FileTree.Does.name does (brings.keeps grounded.names names)
    intro path i makes there unseen
    exact brings.new names there (absent path i makes there unseen)
  · rw [Fs.fileTree_of_nodes nodes]
    cases op with
    | renamemove source dest ctx =>
      obtain ⟨j, _, there, _⟩ := shows
      exact .shows ctx (fun none => nomatch there.symm.trans none)
    | _ => exact absurd shows id

end NameCalls

section Runs
variable [Floats] {s t : Fs} {call : FileCall} {reply : Reply}

/-- What the callers of the file system see to: names that fit, no data of a directory by a
call on files, and none of the files that show statistics and metadata. -/
def FileCall.Regular (s : Fs) : FileCall → Prop
  | .name op => op.Regular .exact s
  | .read path _ _ _ _ | .write path _ _ | .readlink path _ _ _ => s.Ordinary path
  | .truncate path _ _ => s.Ordinary path ∧ ∀ i, s.walk path = some i → i ∉ dirs s.nodes
  | .readdir _ | .chmod _ _ _ | .chown _ _ _ _ => True

/-- Every call does to the tree what its reply says. -/
theorem FileCall.does (grounded : s.Grounded) (regular : call.Regular s) (ran : call.reply s = some (reply, t)) :
    t.Grounded ∧ s.fileTree.Does (call, reply) t.fileTree := by
  cases call with
  | name op =>
    obtain ⟨answer, rfl, called⟩ := reply_eq_some ran
    exact Op.does_files grounded regular called
  | readdir path =>
    obtain ⟨names, rfl, called⟩ := reply_eq_some ran
    exact readdir_callback_does grounded called
  | read path size offset shown often =>
    obtain ⟨text, rfl, called⟩ := reply_eq_some ran
    exact read_callback_does grounded regular called
  | write path buf offset =>
    obtain ⟨amount, rfl, called⟩ := reply_eq_some ran
    exact write_callback_does grounded regular called
  | truncate path newSize ctx =>
    obtain ⟨e, rfl, called⟩ := reply_eq_some ran
    exact truncate_callback_does grounded regular.1 regular.2 called
  | readlink path bufferSize shown often =>
    obtain ⟨text, rfl, called⟩ := reply_eq_some ran
    exact readlink_callback_does grounded regular called
  | chmod path mode ctx =>
    obtain ⟨e, rfl, called⟩ := reply_eq_some ran
    exact chmod_callback_does grounded called
  | chown path uid gid ctx =>
    obtain ⟨e, rfl, called⟩ := reply_eq_some ran
    exact chown_callback_does grounded called

/-- A call with its reply, under the conditions on it. -/
def Fs.Replies (s : Fs) (call : FileCall × Reply) (t : Fs) : Prop := call.1.Regular s ∧ call.1.reply s = some (call.2, t)

/-- The tree of a stored image. -/
def Image.fileTree (image : Image) : FileTree := ⟨image.hierarchy, fun i => (image.nodes i).bind Inode.fileOf⟩

/-- The chunks of every stored file reach up to its end. -/
def Image.Long (image : Image) : Prop := ∀ i n, image.nodes i = some n → n.type ≠ .DIR → n.Long

end Runs

theorem Fs.ordinary_of_eq [Floats] {s : Fs} {path : Path}
    (plain : (get path s).map (fun found => (found.1.bind found.2.inodeFileCache).any FileObject.special) = some false) : s.Ordinary path := by
  intro i t object found cached
  rw [found] at plain
  simpa [cached] using plain

end CloudCryptFS.Filesystem
