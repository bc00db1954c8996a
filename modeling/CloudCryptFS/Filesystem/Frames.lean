import CloudCryptFS.Filesystem.VolumeRuns
import CloudCryptFS.Filesystem.Runs

/-! What an operation within a mount leaves as it is: every other file, byte for byte, however
many of its chunks it shares with the one that is operated on. -/

namespace CloudCryptFS.Filesystem
open Util Pages Script Script.Lexer Script.Json

namespace Volume

/-- The inodes that are operated on, with the directory of the name. -/
def VolumeOp.touched : VolumeOp → List BucketIndex
  | .mkobject parent _ _ _ => [parent]
  | .hardlink parent _ target _ => [parent, target]
  | .addNode parent _ _ _ => [parent]
  | .removeNode parent _ _ => [parent]
  | .unlink parent i _ _ _ => [parent, i]
  | .read _ _ _ => []
  | .write i _ _ => [i]
  | .truncate i _ => [i]
  | .rest i => [i]
  | .chmod i _ => [i]
  | .storeMetaProperties i _ => [i]
  | .storeAllData _ => []

variable {sha : Chunk → Sha256} {s t : Volume} {i parent : BucketIndex} {n : FileNode} {pending : List BucketIndex} {extra : List Nat}

section Frame

/-- What is worked on as an inode is not worked on elsewhere. -/
theorem outside_of_getNode {α : Type} {next : FileNode → VolumeM α} {a : α} (absent : i ∈ pending → s.node i = none)
    (ran : (getNode i >>= next) s = some (a, t)) : i ∉ pending := by
  intro member
  obtain ⟨n, _, got, _⟩ := Run.bind_eq_some.mp ran
  have here := (getNode_eq_some.mp got).1
  rw [absent member] at here
  cases here

theorem deleteFile_keeps (fuel : Nat) (outside : i ∉ pending) : Run.Within (Keeps sha pending extra) (deleteFile sha fuel i) := by
  intro s _ t ran sound
  obtain ⟨_, _, marked, _⟩ := Run.bind_eq_some.mp ran
  obtain ⟨n, _, got, _⟩ := Run.bind_eq_some.mp marked
  exact (deleteFile_spec sound outside (getNode_eq_some.mp got).1 ran).1

variable [Floats]

theorem dropLink_keeps (outside : i ∉ pending) : Run.Within (Keeps sha pending extra) (dropLink sha i) := by
  refine Run.Within.bind (getNode_keeps i) (fun f => ?_)
  split
  · refine Run.Within.bind (isFullDir_keeps i) (fun full => ?_)
    split <;> exact Run.Within.pure _
  · split
    · exact Run.Within.bind (modifyNode_keeps outside (fun _ => ⟨rfl, rfl⟩)) (fun _ => Run.Within.pure _)
    · exact Run.Within.pure _

/-- The file to delete is the one whose link goes. -/
theorem dropLink_file {f : BucketIndex} (ran : dropLink sha i s = some (.ok (some f), t)) : f = i := by
  obtain ⟨n, _, _, ran⟩ := Run.bind_eq_some.mp ran
  split at ran
  · obtain ⟨full, _, _, ran⟩ := Run.bind_eq_some.mp ran
    cases full <;> cases ran
    rfl
  · split at ran
    · obtain ⟨_, _, _, ran⟩ := Run.bind_eq_some.mp ran
      split at ran <;> cases ran
      rfl
    · cases ran

theorem hardlink_frame {name : Name} {target : BucketIndex} {allowed : Bool} {e : EE} (absent : parent ∈ pending → s.node parent = none)
    (absent' : target ∈ pending → s.node target = none) (ran : hardlink sha parent name target allowed s = some (e, t)) :
    Keeps sha pending extra s t := by
  intro sound
  obtain ⟨e', mid, added, ran⟩ := Run.bind_eq_some.mp ran
  obtain ⟨sound₁, same₁⟩ := addNode_frame absent added sound
  split at ran
  · obtain ⟨_, last, linked, ran⟩ := Run.bind_eq_some.mp ran
    cases ran
    have outside : target ∉ pending :=
      outside_of_getNode (fun member => (node_congr (same₁ target member)).trans (absent' member)) linked
    have second : Keeps sha pending extra mid t := by
      apply modifyNode_keeps outside _ _ _ _ linked
      exact fun _ => ⟨rfl, rfl⟩
    exact trans_of _ (fun _ => ⟨sound₁, same₁⟩) second sound
  · cases ran
    exact ⟨sound₁, same₁⟩

theorem unlink_frame {fuel : Nat} {name : Name} {granted allowed : Bool} {e : EE} (absent : parent ∈ pending → s.node parent = none)
    (absent' : i ∈ pending → s.node i = none) (ran : unlink sha fuel parent i name granted allowed s = some (e, t)) :
    Keeps sha pending extra s t := by
  intro sound
  unfold unlink at ran
  split at ran
  · obtain ⟨result, d, dropped, ran⟩ := Run.bind_eq_some.mp ran
    have outside : i ∉ pending := outside_of_getNode absent' dropped
    obtain ⟨sound₁, same₁⟩ := dropLink_keeps outside _ _ _ dropped sound
    cases result with
    | error e =>
      cases ran
      exact ⟨sound₁, same₁⟩
    | ok fileToDelete =>
      obtain ⟨ret, r, removed, ran⟩ := Run.bind_eq_some.mp ran
      have absent₁ : parent ∈ pending → d.node parent = none := fun member => (node_congr (same₁ parent member)).trans (absent member)
      have second : Keeps sha pending extra s r := trans_of _ (fun _ => ⟨sound₁, same₁⟩) (removeNode_frame absent₁ removed)
      split at ran
      · cases fileToDelete with
        | none =>
          cases ran
          exact second sound
        | some f =>
          have own : f = i := dropLink_file dropped
          rw [own] at ran
          obtain ⟨_, last, deleted, ran⟩ := Run.bind_eq_some.mp ran
          cases ran
          exact trans_of _ second (deleteFile_keeps fuel outside _ _ _ deleted) sound
      · cases ran
        exact second sound
  · cases ran
    exact ⟨sound, fun _ _ => rfl⟩

/-- Each operation keeps what it does not touch. -/
theorem perform_frame {fuel : Nat} {op : VolumeOp} (absent : ∀ i ∈ op.touched, i ∈ pending → s.node i = none)
    (ran : perform sha fuel op s = some ((), t)) : Keeps sha pending extra s t := by
  have first : ∀ {i l}, op.touched = i :: l → i ∈ pending → s.node i = none := fun shape => absent _ (shape ▸ List.mem_cons_self)
  have second : ∀ {i j l}, op.touched = i :: j :: l → j ∈ pending → s.node j = none := fun shape =>
    absent _ (shape ▸ List.mem_cons_of_mem _ List.mem_cons_self)
  cases op with
  | mkobject parent name mod allowed =>
    obtain ⟨_, _, inner, rest⟩ := Run.bind_eq_some.mp ran
    cases rest
    exact mkobject_frame (first rfl) inner
  | hardlink parent name target allowed =>
    obtain ⟨_, _, inner, rest⟩ := Run.bind_eq_some.mp ran
    cases rest
    exact hardlink_frame (first rfl) (second rfl) inner
  | addNode parent name node allowed =>
    obtain ⟨_, _, inner, rest⟩ := Run.bind_eq_some.mp ran
    cases rest
    exact addNode_frame (first rfl) inner
  | removeNode parent name allowed =>
    obtain ⟨_, _, inner, rest⟩ := Run.bind_eq_some.mp ran
    cases rest
    exact removeNode_frame (first rfl) inner
  | unlink parent i name granted allowed =>
    obtain ⟨_, _, inner, rest⟩ := Run.bind_eq_some.mp ran
    cases rest
    exact unlink_frame (first rfl) (second rfl) inner
  | read i size offset =>
    obtain ⟨_, _, inner, rest⟩ := Run.bind_eq_some.mp ran
    cases rest
    exact fileRead_keeps i size offset _ _ _ inner
  | write i buf offset => exact fileWriteInner_keeps (outside_of_getNode (first rfl) ran) buf offset true _ _ _ ran
  | truncate i newSize => exact fileTruncateInner_keeps (outside_of_getNode (first rfl) ran) newSize true _ _ _ ran
  | rest i => exact rest_keeps (outside_of_getNode (first rfl) ran) _ _ _ ran
  | chmod i mod =>
    apply modifyNode_keeps (outside_of_getNode (first rfl) ran) _ _ _ _ ran
    exact fun _ => ⟨rfl, rfl⟩
  | storeMetaProperties i metaString =>
    rw [perform] at ran
    split at ran
    · obtain ⟨n, _, here, _⟩ := onMetadata_eq_some.mp ran
      have outside : i ∉ pending := by
        intro member
        rw [first rfl member] at here
        cases here
      exact storeMetaDataInINode_keeps outside metaString _ _ _ ran
    · cases ran
      exact refl_of _ s
  | storeAllData ids => exact onStorage_keeps (fun held => Storage.storeAll_counted ids) _ _ _ ran

theorem sound_performAll {fuel : Nat} {ops : List VolumeOp} (sound : s.Sound sha [] extra) (ran : performAll sha fuel ops s = some ((), t)) :
    t.Sound sha [] extra := by
  have each : ∀ op, Run.Within (Run.Keeping (Sound sha [] extra)) (perform sha fuel op) := fun op s _ t ran sound =>
    (perform_frame (fun _ _ member => absurd member List.not_mem_nil) ran sound).1
  exact Run.Within.forM each _ _ _ ran sound

end Frame

section Content

/-- The storage of one state goes on from that of another. -/
def Goes (sha : Chunk → Sha256) (s t : Volume) : Prop := Storage.Advance sha s.storage t.storage

instance : IsPreorder Volume (Goes sha) where
  refl s := Storage.Advance.refl sha s.storage
  trans _ _ _ := Storage.Advance.trans

theorem getNode_goes (i : BucketIndex) : Run.Within (Goes sha) (getNode i) := by
  intro s n t ran
  obtain ⟨_, rfl⟩ := getNode_eq_some.mp ran
  exact refl_of _ s

theorem setSlot_goes (i : BucketIndex) (slot : MetaSlot) : Run.Within (Goes sha) (setSlot i slot) :=
  Run.Within.modify (fun s => Storage.Advance.refl sha s.storage)

theorem modifyNode_goes (i : BucketIndex) (f : FileNode → FileNode) : Run.Within (Goes sha) (modifyNode i f) :=
  Run.Within.bind (getNode_goes i) (fun _ => setSlot_goes i _)

theorem getCtd_goes (i : BucketIndex) : Run.Within (Goes sha) (getCtd i) := by
  intro s c t ran
  obtain ⟨_, _, shape⟩ := Option.map_eq_some_iff.mp ran
  cases shape
  exact refl_of _ s

theorem fetchIndex_goes : Run.Within (Goes sha) fetchIndex := by
  intro s i t ran
  obtain ⟨_, _, rfl⟩ := fetchIndex_eq_some.mp ran
  exact Storage.Advance.refl sha s.storage

theorem postIndex_goes (i : BucketIndex) : Run.Within (Goes sha) (postIndex i) := by
  intro s _ t ran
  obtain ⟨_, _, rfl⟩ := postIndex_eq_some.mp ran
  exact Storage.Advance.refl sha s.storage

theorem onStorage_goes {α : Type} {run : Storage.StorageM α} (within : Run.Within (Storage.Advance sha) run) :
    Run.Within (Goes sha) (onStorage run) := by
  intro s a t ran
  obtain ⟨u, inner, rfl⟩ := onStorage_eq_some.mp ran
  exact within _ _ _ inner

theorem onMetadata_goes {α : Type} (i : BucketIndex) (run : MetaM α) : Run.Within (Goes sha) (onMetadata i run) := by
  intro s a t ran
  obtain ⟨_, _, _, _, rfl⟩ := onMetadata_eq_some.mp ran
  exact Storage.Advance.refl sha s.storage

theorem rest_goes (i : BucketIndex) : Run.Within (Goes sha) (rest sha i) := by
  refine Run.Within.bind (getNode_goes i) (fun n => Run.Within.bind (onStorage_goes (restHashes_within (Storage.hashOps_within false) _)) (fun _ => ?_))
  refine Run.Within.get_bind (fun s _ t ran => ?_)
  exact Run.Within.bind (onMetadata_goes i _) (fun _ => Run.Within.pure _) _ _ _ ran

theorem fileRead_goes (i : BucketIndex) (size offset : Nat) : Run.Within (Goes sha) (fileRead sha i size offset) :=
  Run.Within.bind (getNode_goes i) (fun _ => onStorage_goes (readData_within (Storage.hashOps_within false).read _ _ _))

theorem fileWriteInner_goes (i : BucketIndex) (buf : Str) (offset : Nat) (je : Bool) : Run.Within (Goes sha) (fileWriteInner sha i buf offset je) := by
  refine Run.Within.bind (getNode_goes i) (fun n => ?_)
  refine Run.Within.bind (onStorage_goes (writeData_within (Storage.hashOps_within je) _ _ _)) (fun result => ?_)
  refine Run.Within.bind (modifyNode_goes i _) (fun _ => ?_)
  split
  · exact Run.Within.bind (modifyNode_goes i _) (fun _ => rest_goes i)
  · exact modifyNode_goes i _

theorem fileTruncateInner_goes (i : BucketIndex) (newSize : Nat) (je : Bool) : Run.Within (Goes sha) (fileTruncateInner sha i newSize je) := by
  refine Run.Within.bind (getNode_goes i) (fun n => ?_)
  refine Run.Within.bind (onStorage_goes (truncateData_within (Storage.hashOps_within je) _ _)) (fun data => ?_)
  exact Run.Within.bind (modifyNode_goes i _) (fun _ => rest_goes i)

theorem indexesFrom_goes (fuel : Nat) (c : BucketIndex) : Run.Within (Goes sha) (indexesFrom fuel c) := by
  induction fuel generalizing c with
  | zero => exact Run.Within.abort
  | succ fuel ih =>
    refine Run.Within.bind (getCtd_goes c) (fun c => ?_)
    split
    · exact Run.Within.pure _
    · exact Run.Within.bind (ih c.nextID) (fun _ => Run.Within.pure _)

theorem indexesOn_goes (fuel : Nat) (first : BucketIndex) : Run.Within (Goes sha) (indexesOn fuel first) := by
  unfold indexesOn
  split
  · exact indexesFrom_goes fuel first
  · exact Run.Within.pure _

theorem deleteFile_goes (fuel : Nat) (i : BucketIndex) : Run.Within (Goes sha) (deleteFile sha fuel i) := by
  apply Run.Within.bind
  · refine Run.Within.bind (getNode_goes i) (fun n => ?_)
    refine Run.Within.bind (onStorage_goes (truncateData_within (Storage.hashOps_within false) _ _)) (fun data => ?_)
    refine Run.Within.bind (modifyNode_goes i _) (fun _ => Run.Within.bind (indexesOn_goes fuel _) (fun next => ?_))
    exact Run.Within.bind (indexesOn_goes fuel _) (fun metas => Run.Within.pure _)
  · intro inoToDel
    apply Run.Within.forM
    exact fun li => Run.Within.bind (setSlot_goes li _) (fun _ => postIndex_goes li)

variable [Floats]

theorem readDirectory_goes (i : BucketIndex) : Run.Within (Goes sha) (readDirectory sha i) := by
  refine Run.Within.bind (getNode_goes i) (fun n => ?_)
  split
  · exact onStorage_goes (readDirectoryContent_within (Storage.hashOps_within false).read n.data)
  · exact Run.Within.pure _

theorem writeDirectory_goes (i : BucketIndex) (directory : JSON Floats.F) (je : Bool) : Run.Within (Goes sha) (writeDirectory sha i directory je) := by
  refine Run.Within.bind (getNode_goes i) (fun n => ?_)
  refine Run.Within.bind (onStorage_goes (swapContent_within (Storage.hashOps_within je) _ _)) (fun data => ?_)
  exact Run.Within.bind (modifyNode_goes i _) (fun _ => rest_goes i)

theorem addNode_goes (i : BucketIndex) (name : Name) (node : BucketIndex) (allowed je : Bool) :
    Run.Within (Goes sha) (addNode sha i name node allowed je) := by
  unfold addNode
  split
  · refine Run.Within.bind (readDirectory_goes i) (fun directory => ?_)
    split
    · exact Run.Within.pure _
    · split
      · exact Run.Within.pure _
      · refine Run.Within.bind (Run.Within.assert _) (fun _ => ?_)
        exact Run.Within.bind (writeDirectory_goes i _ je) (fun _ => Run.Within.pure _)
  · exact Run.Within.pure _

theorem removeNode_goes (i : BucketIndex) (name : Name) (allowed je : Bool) : Run.Within (Goes sha) (removeNode sha i name allowed je) := by
  unfold removeNode
  split
  · refine Run.Within.bind (readDirectory_goes i) (fun directory => ?_)
    split
    · exact Run.Within.pure _
    · split
      · exact Run.Within.bind (writeDirectory_goes i _ je) (fun _ => Run.Within.pure _)
      · exact Run.Within.pure _
  · exact Run.Within.pure _

theorem mkobject_goes (parent : BucketIndex) (name : Name) (mod : Mode) (allowed : Bool) :
    Run.Within (Goes sha) (mkobject sha parent name mod allowed) := by
  refine Run.Within.bind fetchIndex_goes (fun ino => Run.Within.bind (addNode_goes parent name ino allowed true) (fun errorcode => ?_))
  dsimp only
  split
  · exact Run.Within.bind (setSlot_goes ino _) (fun _ => Run.Within.pure _)
  · exact Run.Within.bind (postIndex_goes ino) (fun _ => Run.Within.pure _)

theorem hardlink_goes (parent : BucketIndex) (name : Name) (target : BucketIndex) (allowed : Bool) :
    Run.Within (Goes sha) (hardlink sha parent name target allowed) := by
  refine Run.Within.bind (addNode_goes parent name target allowed false) (fun e => ?_)
  dsimp only
  split
  · exact Run.Within.bind (modifyNode_goes target _) (fun _ => Run.Within.pure _)
  · exact Run.Within.pure _

theorem dropLink_goes (i : BucketIndex) : Run.Within (Goes sha) (dropLink sha i) := by
  refine Run.Within.bind (getNode_goes i) (fun f => ?_)
  split
  · refine Run.Within.bind (Run.Within.bind (readDirectory_goes i) (fun directory => ?_)) (fun full => ?_)
    · split <;> exact Run.Within.pure _
    · split <;> exact Run.Within.pure _
  · split
    · exact Run.Within.bind (modifyNode_goes i _) (fun _ => Run.Within.pure _)
    · exact Run.Within.pure _

theorem unlink_goes (fuel : Nat) (parent i : BucketIndex) (name : Name) (granted allowed : Bool) :
    Run.Within (Goes sha) (unlink sha fuel parent i name granted allowed) := by
  unfold unlink
  split
  · refine Run.Within.bind (dropLink_goes i) (fun result => ?_)
    split
    · exact Run.Within.pure _
    · refine Run.Within.bind (removeNode_goes parent name allowed true) (fun ret => ?_)
      dsimp only
      split
      · split
        · exact Run.Within.bind (deleteFile_goes fuel _) (fun _ => Run.Within.pure _)
        · exact Run.Within.pure _
      · exact Run.Within.pure _
  · exact Run.Within.pure _

/-- No operation changes the chunk of a hash that stays in use. -/
theorem perform_goes (fuel : Nat) (op : VolumeOp) : Run.Within (Goes sha) (perform sha fuel op) := by
  cases op with
  | mkobject parent name mod allowed => exact Run.Within.bind (mkobject_goes parent name mod allowed) (fun _ => Run.Within.pure _)
  | hardlink parent name target allowed => exact Run.Within.bind (hardlink_goes parent name target allowed) (fun _ => Run.Within.pure _)
  | addNode parent name node allowed => exact Run.Within.bind (addNode_goes parent name node allowed true) (fun _ => Run.Within.pure _)
  | removeNode parent name allowed => exact Run.Within.bind (removeNode_goes parent name allowed true) (fun _ => Run.Within.pure _)
  | unlink parent i name granted allowed => exact Run.Within.bind (unlink_goes fuel parent i name granted allowed) (fun _ => Run.Within.pure _)
  | read i size offset => exact Run.Within.bind (fileRead_goes i size offset) (fun _ => Run.Within.pure _)
  | write i buf offset => exact fileWriteInner_goes i buf offset true
  | truncate i newSize => exact fileTruncateInner_goes i newSize true
  | rest i => exact rest_goes i
  | chmod i mod => exact modifyNode_goes i _
  | storeMetaProperties i metaString =>
    rw [perform]
    split
    · exact onMetadata_goes i _
    · exact Run.Within.pure _
  | storeAllData ids => exact onStorage_goes (DataFs.storeAll_within ids)

/-- After each operation of a run every file that it was not about reads as before, in size and
bytes: the chunks that it shares with others stay, and no slot of them is filled again. -/
theorem others_unchanged {fuel : Nat} {ops : List VolumeOp} {op : VolumeOp} {s₀ : Volume} (sound : s₀.Sound sha [] [])
    (ran : performAll sha fuel ops s₀ = some ((), s)) (performed : perform sha fuel op s = some ((), t)) (here : s.node i = some n)
    (other : i ∉ op.touched) :
    t.node i = some n ∧ ∀ size offset, ∃ text u v, fileRead sha i size offset s = some (text, u) ∧ fileRead sha i size offset t = some (text, v) := by
  obtain ⟨l, m, own, chained, focused⟩ := (sound_performAll sound ran).focus List.not_mem_nil here
  have absent : ∀ j ∈ op.touched, j ∈ i :: (l ++ m) ++ [] → s.node j = none := by
    intro j member inside
    rw [List.append_nil] at inside
    have different : j ≠ i := fun same => other (same ▸ member)
    obtain ⟨c, found, _⟩ := chained.own j (List.mem_of_ne_of_mem different inside)
    unfold node
    rw [ctds_eq_some.mp found]
    rfl
  obtain ⟨focused', same⟩ := perform_frame absent performed focused
  have there : t.node i = some n := (node_congr (same i (List.mem_append_left [] List.mem_cons_self))).trans here
  obtain ⟨_, _, _, _, _, counted⟩ := id focused
  obtain ⟨_, _, _, _, _, counted'⟩ := id focused'
  refine ⟨there, fun size offset => ?_⟩
  have kept : ∀ o ∈ n.hashList, s.storage.Live o ∧ t.storage.Live o ∧ t.storage.content o = s.storage.content o := by
    intro o member
    have live := counted.live o (List.mem_append_left _ (List.mem_append_left _ member))
    have live' := counted'.live o (List.mem_append_left _ (List.mem_append_left _ member))
    exact ⟨live, live', ((perform_goes fuel op _ _ _ performed).content counted.rep o (counted.rep.made o live) live').2⟩
  obtain ⟨text, u, v, first, second⟩ := Storage.readData_same false n.data counted.rep counted'.rep kept size offset
  refine ⟨text, { s with storage := u }, { t with storage := v }, ?_, ?_⟩
  · exact (Run.bind_of_some (getNode_eq_some.mpr ⟨here, rfl⟩)).trans (onStorage_eq_some.mpr ⟨u, first, rfl⟩)
  · exact (Run.bind_of_some (getNode_eq_some.mpr ⟨there, rfl⟩)).trans (onStorage_eq_some.mpr ⟨v, second, rfl⟩)

end Content

section New

/-- A file that goes over one byte without a write to it. -/
def sparseFile : List VolumeOp := [.mkobject rootIndex [97] (Mode.TYPE_REG ||| 0o644) true, .truncate 258 1]

/-- Two files that share the zero hash, of which one is removed. -/
theorem others_unchanged_sparseFile : ∃ s t n, performAll DataFs.prefixSum 1 (sparseFile ++ [.mkobject rootIndex [98] (Mode.TYPE_REG ||| 0o644) true,
      .truncate 259 1]) newVolume = some ((), s) ∧ perform DataFs.prefixSum 1 (.unlink rootIndex 259 [98] true true) s = some ((), t) ∧
    t.node 258 = some n ∧ n.hashList = [Storage.zeroHash] ∧ ∀ size offset, ∃ text u v,
      fileRead DataFs.prefixSum 258 size offset s = some (text, u) ∧ fileRead DataFs.prefixSum 258 size offset t = some (text, v) := by
  have outcome : ((performAll DataFs.prefixSum 1 (sparseFile ++ [.mkobject rootIndex [98] (Mode.TYPE_REG ||| 0o644) true, .truncate 259 1])
      newVolume).bind (fun x => (perform DataFs.prefixSum 1 (.unlink rootIndex 259 [98] true true) x.2).map
        (fun y => (y.1, (x.2.node 258).map FileNode.hashList)))) = some ((), some [Storage.zeroHash]) := by decide +kernel
  obtain ⟨⟨_, s⟩, ran, rest⟩ := Option.bind_eq_some_iff.mp outcome
  obtain ⟨⟨_, t⟩, performed, shape⟩ := Option.map_eq_some_iff.mp rest
  obtain ⟨_, node⟩ := Prod.mk.inj shape
  obtain ⟨n, here, hashes⟩ := Option.map_eq_some_iff.mp node
  obtain ⟨there, reads⟩ := others_unchanged sound_newVolume ran performed here (by decide)
  exact ⟨s, t, n, ran, performed, there, hashes, reads⟩

end New

end Volume

end CloudCryptFS.Filesystem
