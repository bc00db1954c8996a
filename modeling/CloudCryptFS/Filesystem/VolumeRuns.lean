import CloudCryptFS.Filesystem.VolumeSound

/-! No operation within a mount gives an index or a hash to two owners. -/

namespace CloudCryptFS.Filesystem
open Util Pages Script Script.Lexer Script.Json
open BucketIndex (bucket)

namespace Volume
variable {sha : Chunk → Sha256} {s t : Volume} {i : BucketIndex} {n : FileNode} {pending : List BucketIndex} {extra : List Nat}

/-- What is worked on elsewhere stays as it is. -/
def Keeps (sha : Chunk → Sha256) (pending : List BucketIndex) (extra : List Nat) (s t : Volume) : Prop :=
  s.Sound sha pending extra → t.Sound sha pending extra ∧ ∀ c ∈ pending, t.slots c = s.slots c

instance : IsPreorder Volume (Keeps sha pending extra) where
  refl _ sound := ⟨sound, fun _ _ => rfl⟩
  trans _ _ _ first second sound := by
    obtain ⟨sound₁, same₁⟩ := first sound
    obtain ⟨sound₂, same₂⟩ := second sound₁
    exact ⟨sound₂, fun c member => (same₂ c member).trans (same₁ c member)⟩

section Basic

theorem getNode_eq_some : getNode i s = some (n, t) ↔ s.node i = some n ∧ s = t := by
  unfold getNode
  cases s.node i <;> simp

theorem modifyNode_eq_some {f : FileNode → FileNode} : modifyNode i f s = some ((), t) ↔
    ∃ n, s.node i = some n ∧ t = { s with slots := Function.update s.slots i (.inode (f n)) } := by
  unfold modifyNode
  rw [Run.bind_eq_some]
  constructor
  · rintro ⟨n, mid, got, rest⟩
    obtain ⟨here, rfl⟩ := getNode_eq_some.mp got
    cases rest
    exact ⟨n, here, rfl⟩
  · rintro ⟨n, here, rfl⟩
    exact ⟨n, s, getNode_eq_some.mpr ⟨here, rfl⟩, rfl⟩

theorem fetchIndex_eq_some : fetchIndex s = some (i, t) ↔ ∃ b, s.accounting.fetch = some (i, b) ∧ t = { s with accounting := b } := by
  unfold fetchIndex
  rw [Option.map_eq_some_iff]
  constructor
  · rintro ⟨⟨j, b⟩, fetched, shape⟩
    cases shape
    exact ⟨b, fetched, rfl⟩
  · rintro ⟨b, fetched, rfl⟩
    exact ⟨(i, b), fetched, rfl⟩

theorem postIndex_eq_some : postIndex i s = some ((), t) ↔ ∃ b, s.accounting.post i = some b ∧ t = { s with accounting := b } := by
  unfold postIndex
  rw [Option.map_eq_some_iff]
  constructor
  · rintro ⟨b, posted, shape⟩
    cases shape
    exact ⟨b, posted, rfl⟩
  · rintro ⟨b, posted, rfl⟩
    exact ⟨b, posted, rfl⟩

theorem onStorage_eq_some {α : Type} {run : Storage.StorageM α} {a : α} : onStorage run s = some (a, t) ↔
    ∃ u, run s.storage = some (a, u) ∧ t = { s with storage := u } := by
  unfold onStorage
  rw [Option.map_eq_some_iff]
  constructor
  · rintro ⟨⟨b, u⟩, ran, shape⟩
    cases shape
    exact ⟨u, ran, rfl⟩
  · rintro ⟨u, ran, rfl⟩
    exact ⟨(a, u), ran, rfl⟩

theorem onMetadata_eq_some {α : Type} {run : MetaM α} {a : α} : onMetadata i run s = some (a, t) ↔
    ∃ n u, s.node i = some n ∧ run (s.metadata n) = some (a, u) ∧ t = s.withMetadata i n u := by
  unfold onMetadata
  rw [Option.bind_eq_some_iff]
  constructor
  · rintro ⟨n, here, ran⟩
    obtain ⟨⟨b, u⟩, inner, shape⟩ := Option.map_eq_some_iff.mp ran
    cases shape
    exact ⟨n, u, here, inner, rfl⟩
  · rintro ⟨n, u, here, ran, rfl⟩
    exact ⟨n, here, Option.map_eq_some_iff.mpr ⟨(a, u), ran, rfl⟩⟩

theorem getNode_keeps (i : BucketIndex) : Run.Within (Keeps sha pending extra) (getNode i) := by
  intro s n t ran
  obtain ⟨_, rfl⟩ := getNode_eq_some.mp ran
  exact refl_of _ s

theorem onStorage_keeps {α : Type} {run : Storage.StorageM α} (counted : ∀ held, Run.Within (Run.Keeping (Storage.Counted sha held)) run) :
    Run.Within (Keeps sha pending extra) (onStorage run) := by
  intro s a t ran sound
  obtain ⟨u, inner, rfl⟩ := onStorage_eq_some.mp ran
  exact ⟨sound.withStorage (fun held before => counted _ _ _ _ inner before), fun _ _ => rfl⟩

/-- The hashes of a file are exchanged in one step with its list of them. -/
theorem keeps_edit (outside : i ∉ pending) (here : s.node i = some n) {n' : FileNode} {u : Storage} (myID : n'.chunk.myID = n.chunk.myID)
    (chains : n'.chunk.nextID = n.chunk.nextID ∧ n'.chunk.metaID = n.chunk.metaID)
    (counted : ∀ held, s.storage.Counted sha (n.hashList ++ held) → u.Counted sha (n'.hashList ++ held)) :
    Keeps sha pending extra s { s with slots := Function.update s.slots i (.inode n'), storage := u } := by
  intro sound
  refine ⟨sound.edit outside here myID chains counted, fun c member => ?_⟩
  exact Function.update_of_ne (fun same : c = i => outside (same ▸ member)) _ _

theorem modifyNode_keeps (outside : i ∉ pending) {f : FileNode → FileNode} (same : ∀ n, (f n).chunk = n.chunk ∧ (f n).hashList = n.hashList) :
    Run.Within (Keeps sha pending extra) (modifyNode i f) := by
  intro s _ t ran
  obtain ⟨n, here, rfl⟩ := modifyNode_eq_some.mp ran
  apply keeps_edit outside here (u := s.storage)
  · rw [(same n).1]
  · rw [(same n).1]
    exact ⟨rfl, rfl⟩
  · intro held counted
    rw [(same n).2]
    exact counted

theorem withData_keeps (outside : i ∉ pending) (here : s.node i = some n) {d : FileData Nat} {u : Storage}
    (counted : ∀ held, s.storage.Counted sha (n.hashList ++ held) → u.Counted sha (d.hashList ++ held))
    (ran : modifyNode i (FileNode.withData d) { s with storage := u } = some ((), t)) : Keeps sha pending extra s t := by
  obtain ⟨m, there, rfl⟩ := modifyNode_eq_some.mp ran
  have same : m = n := Option.some.inj (there.symm.trans here)
  subst same
  exact keeps_edit outside here rfl ⟨rfl, rfl⟩ counted

end Basic

section Files

/-- A file that is put to rest gets the records for its hashes. -/
theorem rest_keeps (outside : i ∉ pending) : Run.Within (Keeps sha pending extra) (rest sha i) := by
  intro s _ t ran
  obtain ⟨n, _, got, ran⟩ := Run.bind_eq_some.mp ran
  obtain ⟨here, rfl⟩ := getNode_eq_some.mp got
  obtain ⟨_, mid, rested, ran⟩ := Run.bind_eq_some.mp ran
  obtain ⟨u, cleared, rfl⟩ := onStorage_eq_some.mp rested
  obtain ⟨_, _, got, ran⟩ := Run.bind_eq_some.mp ran
  cases got
  obtain ⟨_, last, wrote, ran⟩ := Run.bind_eq_some.mp ran
  cases ran
  obtain ⟨n', v, here', inner, rfl⟩ := onMetadata_eq_some.mp wrote
  have same : n' = n := Option.some.inj (here'.symm.trans here)
  subst same
  obtain ⟨still, _, positive⟩ := Storage.restHashes_spec cleared
  have alive : ∀ o ∈ n'.hashList, 0 < (u.objects o).refcnt := by
    intro o member
    rw [still.refcnt]
    exact positive o member
  intro sound
  have stored := sound.withStorage (u := u) (fun held counted => Storage.restHashes_counted counted cleared)
  refine stored.withMetadata outside here' (fun l m chained distinct apart ready => ?_)
  obtain ⟨new, chained', extended⟩ := chained.rest alive distinct apart ready inner
  refine ⟨l ++ new, m, new, chained', ?_, extended⟩
  exact (List.perm_append_comm.append_right m).trans (List.append_assoc new l m ▸ List.Perm.refl _)

theorem storeMetaDataInINode_keeps (outside : i ∉ pending) (metaString : Str) :
    Run.Within (Keeps sha pending extra) (onMetadata i (Metadata.storeMetaDataInINode metaString)) := by
  intro s _ t ran sound
  obtain ⟨n, u, here, wrote, rfl⟩ := onMetadata_eq_some.mp ran
  refine sound.withMetadata outside here (fun l m chained distinct apart ready => ?_)
  obtain ⟨new, chained', extended⟩ := chained.storeMetaDataInINode distinct apart ready wrote
  refine ⟨l, m ++ new, new, chained', ?_, extended⟩
  exact List.append_assoc l m new ▸ List.perm_append_comm

theorem fileRead_keeps (i : BucketIndex) (size offset : Nat) : Run.Within (Keeps sha pending extra) (fileRead sha i size offset) := by
  refine Run.Within.bind (getNode_keeps i) (fun n => onStorage_keeps (fun held => ?_))
  exact readData_within (fun h offset size => Storage.readHash_counted h offset size) _ _ _

theorem fileWriteInner_keeps (outside : i ∉ pending) (buf : Str) (offset : Nat) (je : Bool) :
    Run.Within (Keeps sha pending extra) (fileWriteInner sha i buf offset je) := by
  intro s _ t ran
  obtain ⟨n, _, got, ran⟩ := Run.bind_eq_some.mp ran
  obtain ⟨here, rfl⟩ := getNode_eq_some.mp got
  obtain ⟨⟨data, replaced⟩, mid, wrote, ran⟩ := Run.bind_eq_some.mp ran
  obtain ⟨u, inner, rfl⟩ := onStorage_eq_some.mp wrote
  obtain ⟨_, mid, exchanged, ran⟩ := Run.bind_eq_some.mp ran
  have first : Keeps sha pending extra _ _ := withData_keeps outside here (fun held counted => Storage.writeData_counted counted inner) exchanged
  refine trans_of _ first ?_
  split at ran
  · obtain ⟨_, last, reset, ran⟩ := Run.bind_eq_some.mp ran
    have second : Keeps sha pending extra mid last := by
      apply modifyNode_keeps outside _ _ _ _ reset
      exact fun _ => ⟨rfl, rfl⟩
    exact trans_of _ second (rest_keeps outside _ _ _ ran)
  · apply modifyNode_keeps outside _ _ _ _ ran
    exact fun _ => ⟨rfl, rfl⟩

theorem fileTruncateInner_keeps (outside : i ∉ pending) (newSize : Nat) (je : Bool) :
    Run.Within (Keeps sha pending extra) (fileTruncateInner sha i newSize je) := by
  intro s _ t ran
  obtain ⟨n, _, got, ran⟩ := Run.bind_eq_some.mp ran
  obtain ⟨here, rfl⟩ := getNode_eq_some.mp got
  obtain ⟨data, mid, cut, ran⟩ := Run.bind_eq_some.mp ran
  obtain ⟨u, inner, rfl⟩ := onStorage_eq_some.mp cut
  obtain ⟨_, mid, exchanged, ran⟩ := Run.bind_eq_some.mp ran
  have first : Keeps sha pending extra _ _ := withData_keeps outside here (fun held counted => (Storage.truncateData_counted counted inner).1) exchanged
  exact trans_of _ first (rest_keeps outside _ _ _ ran)

end Files

section Directories
variable [Floats]

theorem readDirectory_keeps (i : BucketIndex) : Run.Within (Keeps sha pending extra) (readDirectory sha i) := by
  refine Run.Within.bind (getNode_keeps i) (fun n => ?_)
  split
  · exact onStorage_keeps (fun held => Storage.readDirectoryContent_counted n.data)
  · exact Run.Within.pure _

theorem writeDirectory_keeps (outside : i ∉ pending) (directory : JSON Floats.F) (je : Bool) :
    Run.Within (Keeps sha pending extra) (writeDirectory sha i directory je) := by
  intro s _ t ran
  obtain ⟨n, _, got, ran⟩ := Run.bind_eq_some.mp ran
  obtain ⟨here, rfl⟩ := getNode_eq_some.mp got
  obtain ⟨data, mid, swapped, ran⟩ := Run.bind_eq_some.mp ran
  obtain ⟨u, inner, rfl⟩ := onStorage_eq_some.mp swapped
  obtain ⟨_, mid, exchanged, ran⟩ := Run.bind_eq_some.mp ran
  have first : Keeps sha pending extra _ _ := withData_keeps outside here (fun held counted => Storage.swapContent_counted counted inner) exchanged
  exact trans_of _ first (rest_keeps outside _ _ _ ran)

theorem addNode_keeps (outside : i ∉ pending) (name : Name) (node : BucketIndex) (allowed je : Bool) :
    Run.Within (Keeps sha pending extra) (addNode sha i name node allowed je) := by
  unfold addNode
  split
  · refine Run.Within.bind (readDirectory_keeps i) (fun directory => ?_)
    split
    · exact Run.Within.pure _
    · split
      · exact Run.Within.pure _
      · refine Run.Within.bind (Run.Within.assert _) (fun _ => ?_)
        exact Run.Within.bind (writeDirectory_keeps outside _ je) (fun _ => Run.Within.pure _)
  · exact Run.Within.pure _

theorem removeNode_keeps (outside : i ∉ pending) (name : Name) (allowed je : Bool) :
    Run.Within (Keeps sha pending extra) (removeNode sha i name allowed je) := by
  unfold removeNode
  split
  · refine Run.Within.bind (readDirectory_keeps i) (fun directory => ?_)
    split
    · exact Run.Within.pure _
    · split
      · exact Run.Within.bind (writeDirectory_keeps outside _ je) (fun _ => Run.Within.pure _)
      · exact Run.Within.pure _
  · exact Run.Within.pure _

theorem isFullDir_keeps (i : BucketIndex) : Run.Within (Keeps sha pending extra) (isFullDir sha i) := by
  refine Run.Within.bind (readDirectory_keeps i) (fun directory => ?_)
  split <;> exact Run.Within.pure _

/-- Where the directory is no file, nothing is added. -/
theorem addNode_none (none : s.node i = none) {name : Name} {node : BucketIndex} {allowed je : Bool} {e : EE}
    (ran : addNode sha i name node allowed je s = some (e, t)) : t = s ∧ e = .access_denied := by
  unfold addNode at ran
  split at ran
  · obtain ⟨_, _, reads, _⟩ := Run.bind_eq_some.mp ran
    obtain ⟨n, _, got, _⟩ := Run.bind_eq_some.mp reads
    have here := (getNode_eq_some.mp got).1
    rw [none] at here
    cases here
  · cases ran
    exact ⟨rfl, rfl⟩

theorem removeNode_none (none : s.node i = none) {name : Name} {allowed je : Bool} {e : EE}
    (ran : removeNode sha i name allowed je s = some (e, t)) : t = s ∧ e = .access_denied := by
  unfold removeNode at ran
  split at ran
  · obtain ⟨_, _, reads, _⟩ := Run.bind_eq_some.mp ran
    obtain ⟨n, _, got, _⟩ := Run.bind_eq_some.mp reads
    have here := (getNode_eq_some.mp got).1
    rw [none] at here
    cases here
  · cases ran
    exact ⟨rfl, rfl⟩

/-- An index that is worked on may be named as a directory when it is not the one of an inode. -/
theorem addNode_frame (absent : i ∈ pending → s.node i = none) {name : Name} {node : BucketIndex} {allowed je : Bool} {e : EE}
    (ran : addNode sha i name node allowed je s = some (e, t)) : Keeps sha pending extra s t := by
  by_cases member : i ∈ pending
  · obtain ⟨rfl, _⟩ := addNode_none (absent member) ran
    exact refl_of _ t
  · exact addNode_keeps member name node allowed je _ _ _ ran

theorem removeNode_frame (absent : i ∈ pending → s.node i = none) {name : Name} {allowed je : Bool} {e : EE}
    (ran : removeNode sha i name allowed je s = some (e, t)) : Keeps sha pending extra s t := by
  by_cases member : i ∈ pending
  · obtain ⟨rfl, _⟩ := removeNode_none (absent member) ran
    exact refl_of _ t
  · exact removeNode_keeps member name allowed je _ _ _ ran

/-- The index of a new inode is nobody's until the inode is in its slot. -/
theorem mkobject_frame {parent : BucketIndex} {name : Name} {mod : Mode} {allowed : Bool} {e : EE} (absent : parent ∈ pending → s.node parent = none)
    (ran : mkobject sha parent name mod allowed s = some (e, t)) : Keeps sha pending extra s t := by
  intro sound
  obtain ⟨ino, mid, fetched, ran⟩ := Run.bind_eq_some.mp ran
  obtain ⟨b, taken, rfl⟩ := fetchIndex_eq_some.mp fetched
  obtain ⟨sound₁, empty, outside, _⟩ := sound.fetch taken
  obtain ⟨errorcode, last, added, ran⟩ := Run.bind_eq_some.mp ran
  have absent₁ : parent ∈ ino :: pending → ({ s with accounting := b } : Volume).node parent = none := by
    intro member
    cases List.mem_cons.mp member with
    | inl here => exact here ▸ empty
    | inr old => exact absent old
  obtain ⟨sound₂, same⟩ := addNode_frame absent₁ added sound₁
  have kept : ∀ c ∈ pending, last.slots c = s.slots c := fun c member => same c (List.mem_cons_of_mem ino member)
  split at ran
  · obtain ⟨_, _, stored, ran⟩ := Run.bind_eq_some.mp ran
    cases stored
    cases ran
    have written := sound₂.setSlot (i := ino) List.mem_cons_self (.inode (.fresh ino mod))
    refine ⟨?_, fun c member => ?_⟩
    · refine Sound.unfocus (n := .fresh ino mod) (l := []) (m := []) written (node_eq_some.mpr (Function.update_self ino _ _)) rfl ?_
      exact ⟨.nil, .nil, fun _ member => absurd member List.not_mem_nil⟩
    · exact (Function.update_of_ne (fun equal : c = ino => outside (equal ▸ member)) _ _).trans (kept c member)
  · obtain ⟨_, _, posted, ran⟩ := Run.bind_eq_some.mp ran
    obtain ⟨a, given, rfl⟩ := postIndex_eq_some.mp posted
    cases ran
    have empty₂ : last.node ino = none := (node_congr (same ino List.mem_cons_self)).trans empty
    exact ⟨(sound₂.post empty₂ given).1, kept⟩

end Directories

section Remove

/-- The indexes that the loop finds are those of the chain. -/
theorem indexesFrom_eq {c : BucketIndex} {rest : List BucketIndex} (path : Trail s.ctds InodeCtd.next (some c) (c :: rest))
    (own : ∀ j ∈ c :: rest, (s.metadata n).Own j) (fuel : Nat) :
    indexesFrom fuel c s = if rest.length < fuel then some (c :: rest, s) else none := by
  induction rest generalizing c fuel with
  | nil =>
    obtain ⟨p, _, found, same, last⟩ := path.of_some
    cases same
    obtain ⟨q, there, mine⟩ := own c List.mem_cons_self
    cases found.symm.trans there
    cases fuel with
    | zero => rfl
    | succ fuel =>
      have got : getCtd c s = some (p, s) := by rw [getCtd, found, Option.map_some]
      rw [indexesFrom, Run.bind_of_some got, if_pos (Metadata.link_eq_none.mp last.head_eq), mine,
        if_pos (show [].length < fuel + 1 from Nat.succ_pos fuel)]
      rfl
  | cons d rest ih =>
    obtain ⟨p, _, found, same, later⟩ := path.of_some
    cases same
    obtain ⟨q, there, mine⟩ := own c List.mem_cons_self
    cases found.symm.trans there
    obtain ⟨nonzero, next⟩ := Metadata.link_eq_some.mp later.head_eq
    rw [later.head_eq, List.head?_cons] at later
    cases fuel with
    | zero => rfl
    | succ fuel =>
      have got : getCtd c s = some (p, s) := by rw [getCtd, found, Option.map_some]
      have followed := ih later (fun j member => own j (List.mem_cons_of_mem c member)) fuel
      rw [indexesFrom, Run.bind_of_some got, if_neg nonzero, next, Run.bind_apply, followed, List.length_cons]
      by_cases enough : rest.length < fuel
      · rw [if_pos enough, if_pos (Nat.succ_lt_succ enough), mine]
        rfl
      · rw [if_neg enough, if_neg (fun again => enough (Nat.lt_of_succ_lt_succ again))]
        rfl

/-- Nothing is found where there is no chain. -/
theorem indexesOn_eq {first : BucketIndex} {l found : List BucketIndex} {fuel : Nat} (path : Trail s.ctds InodeCtd.next (link first) l)
    (own : ∀ j ∈ l, (s.metadata n).Own j) (ran : indexesOn fuel first s = some (found, t)) : found = l ∧ t = s := by
  unfold indexesOn at ran
  by_cases zero : first = 0
  · rw [if_neg (not_not.mpr zero)] at ran
    rw [Metadata.link_eq_none.mpr zero] at path
    cases ran
    exact ⟨path.of_none.symm, rfl⟩
  · rw [if_pos zero] at ran
    rw [show link first = some first from if_neg zero] at path
    obtain ⟨p, rest, _, rfl, _⟩ := path.of_some
    rw [indexesFrom_eq path own fuel] at ran
    split at ran
    · cases ran
      exact ⟨rfl, rfl⟩
    · cases ran

/-- Each slot on a list is cleared and its index posted, one after the other. -/
theorem freeIndexes_spec {list : List BucketIndex} (sound : s.Sound sha (list ++ pending) extra) (ran : list.forM freeIndex s = some (⟨⟩, t)) :
    t.Sound sha pending extra ∧ s.accounting.postAll list = some t.accounting ∧ t.storage = s.storage ∧
      (∀ c, t.slots c = if c ∈ list then .empty else s.slots c) ∧ ∀ c, t.accounting.Free c ↔ s.accounting.Free c ∨ c ∈ list := by
  induction list generalizing s with
  | nil =>
    cases ran
    exact ⟨sound, rfl, rfl, fun c => (if_neg List.not_mem_nil).symm, fun c => (or_iff_left List.not_mem_nil).symm⟩
  | cons li list ih =>
    rw [List.forM_eq_forM, List.forM_cons] at ran
    obtain ⟨_, mid, body, rest⟩ := Run.bind_eq_some.mp ran
    obtain ⟨_, _, cleared, posted⟩ := Run.bind_eq_some.mp body
    cases cleared
    obtain ⟨a, given, rfl⟩ := postIndex_eq_some.mp posted
    have empty := sound.setSlot (i := li) List.mem_cons_self .empty
    have none : ({ s with slots := Function.update s.slots li .empty } : Volume).node li = none := by
      unfold node
      dsimp only
      rw [Function.update_self]
      rfl
    obtain ⟨sound₁, free₁⟩ := Sound.post empty none given
    obtain ⟨sound₂, later, storage, slots, free₂⟩ := ih sound₁ rest
    refine ⟨sound₂, ?_, storage, fun c => ?_, fun c => ?_⟩
    · rw [Accounting.postAll]
      exact (congrArg (fun b => b.bind (fun b => b.postAll list)) given).trans later
    · rw [slots c]
      by_cases here : c = li
      · subst here
        rw [if_pos List.mem_cons_self]
        split
        · rfl
        · exact Function.update_self _ _ _
      · simp only [List.mem_cons, here, false_or]
        split
        · rfl
        · exact Function.update_of_ne here _ _
    · rw [free₂ c, List.mem_cons]
      exact (or_congr_left (free₁ c)).trans (or_assoc)

/-- What is left of a file that is deleted. -/
theorem setDeletedAndReturnAllUsedInodes_spec {l m list : List BucketIndex} {fuel : Nat} (here : s.node i = some n) (myID : n.chunk.myID = i)
    (chained : (s.metadata n).Chained l m) (ran : setDeletedAndReturnAllUsedInodes sha fuel i s = some (list, t)) :
    list = i :: (l ++ m) ∧ ∃ d u, truncateData (Storage.hashOps sha false) n.data 0 s.storage = some (d, u) ∧
      t = { s with slots := Function.update s.slots i (.inode (n.withData d)), storage := u } := by
  obtain ⟨n', _, got, ran⟩ := Run.bind_eq_some.mp ran
  obtain ⟨here', rfl⟩ := getNode_eq_some.mp got
  cases here.symm.trans here'
  obtain ⟨d, mid, cut, ran⟩ := Run.bind_eq_some.mp ran
  obtain ⟨u, inner, rfl⟩ := onStorage_eq_some.mp cut
  obtain ⟨_, mid, exchanged, ran⟩ := Run.bind_eq_some.mp ran
  obtain ⟨n', here', rfl⟩ := modifyNode_eq_some.mp exchanged
  cases here.symm.trans here'
  obtain ⟨v, shape⟩ : ∃ v : Volume, v = { s with slots := Function.update s.slots i (.inode (n.withData d)), storage := u } := ⟨_, rfl⟩
  have same : ∀ c ∈ l ++ m, (v.metadata n).ctds c = (s.metadata n).ctds c := by
    intro c member
    apply ctds_congr
    rw [shape]
    apply Function.update_of_ne
    intro equal
    obtain ⟨p, found, _⟩ := chained.own c member
    rw [equal] at found
    cases (ctds_of_node here).symm.trans found
  obtain ⟨next, metas, own⟩ := chained.congr (t := v.metadata n) ⟨rfl, rfl⟩ same
  rw [← shape] at ran
  obtain ⟨next', _, first, later⟩ := Run.bind_eq_some.mp ran
  obtain ⟨metas', _, second, last⟩ := Run.bind_eq_some.mp later
  obtain ⟨found, rfl⟩ := indexesOn_eq next (fun j member => own j (List.mem_append_left m member)) first
  obtain ⟨found', rfl⟩ := indexesOn_eq metas (fun j member => own j (List.mem_append_right l member)) second
  cases last
  exact ⟨by rw [myID, found, found'], d, u, inner, shape⟩

/-- What a volume is without a file: the slots of its inode and of the records on its chains are
empty and their indexes posted, and what it alone referred to is gone. -/
structure Deleted (s t : Volume) (i : BucketIndex) (n : FileNode) (l m posted : List BucketIndex) : Prop where
  chained : (s.metadata n).Chained l m
  distinct : (i :: (l ++ m)).Nodup
  apart : ∀ c ∈ i :: (l ++ m), ¬s.accounting.Free c
  posts : s.accounting.postAll (i :: (l ++ m)) = some t.accounting
  free : ∀ c, t.accounting.Free c ↔ s.accounting.Free c ∨ c ∈ i :: (l ++ m)
  slots : ∀ c, t.slots c = if c ∈ i :: (l ++ m) then .empty else s.slots c
  released : Storage.Released s.storage t.storage n.hashList posted
  freed : ∀ d, t.storage.accounting.Free d ↔ s.storage.accounting.Free d ∨ d ∈ posted

theorem deleteFile_spec {fuel : Nat} (sound : s.Sound sha pending extra) (outside : i ∉ pending) (here : s.node i = some n)
    (ran : deleteFile sha fuel i s = some ((), t)) :
    (t.Sound sha pending extra ∧ ∀ c ∈ pending, t.slots c = s.slots c) ∧ ∃ l m posted, Deleted s t i n l m posted := by
  obtain ⟨list, mid, marked, freed⟩ := Run.bind_eq_some.mp ran
  obtain ⟨l, m, own, chained, focused⟩ := sound.focus outside here
  obtain ⟨rfl, d, u, cut, rfl⟩ := setDeletedAndReturnAllUsedInodes_spec here own chained marked
  obtain ⟨_, _, _, _, taken, _⟩ := id focused
  have parts := List.nodup_append.mp (List.nodup_append.mp taken.distinct).1
  have given : ∀ held, s.storage.Counted sha (n.hashList ++ extra ++ held) → u.Counted sha (extra ++ held) ∧
      ∃ posted, Storage.Released s.storage u n.hashList posted := by
    intro held counted
    rw [List.append_assoc] at counted
    exact (Storage.truncateData_released counted cut).2
  obtain ⟨_, _, _, _, _, counted⟩ := id focused
  obtain ⟨posted, released⟩ := (given _ counted).2
  have referred : ∀ o ∈ n.hashList, s.storage.Live o := fun o member =>
    counted.live o (List.mem_append_left _ (List.mem_append_left _ member))
  have stored := (focused.withStorage (fun held counted => (given held counted).1)).setSlot (i := i) List.mem_cons_self (.inode (n.withData d))
  obtain ⟨sound', posts, storage, slots, free⟩ := freeIndexes_spec stored freed
  have cleared : ∀ c, t.slots c = if c ∈ i :: (l ++ m) then .empty else s.slots c := by
    intro c
    rw [slots c]
    split
    · rfl
    · rename_i absent
      exact Function.update_of_ne (fun same : c = i => absent (same ▸ List.mem_cons_self)) _ _
  refine ⟨⟨sound', fun c member => ?_⟩, l, m, posted, chained, parts.1,
    fun c member => taken.apart c (List.mem_append_left _ (List.mem_append_left _ member)), posts, free, cleared, storage ▸ released,
    storage ▸ released.free counted.rep referred⟩
  exact (cleared c).trans (if_neg (fun mine => parts.2.2 c mine c member rfl))

end Remove

end Volume

end CloudCryptFS.Filesystem
