import CloudCryptFS.Journal.Files
import CloudCryptFS.Util.Schedule
import CloudCryptFS.Filesystem.Replays
import CloudCryptFS.Filesystem.Runs
import Mathlib.Data.Finset.SDiff

/-! A mount after a crash. The entries that the crashed session left open are replayed
while a new session has begun, whose files and ids are numbered from zero again; after
that the files of the old session are removed. -/

namespace CloudCryptFS.Filesystem
open Util SortedEntries Script Script.Lexer
open CloudCryptFS.Journal (StreamCipher Session Replayed EntryType Addition)

section Operations

/-- A path as the journal has it, from the root on. -/
def pathOf (text : Str) : Path := if text = lit "/" then [] else (text.splitOn 47).tail.reverse

/-- The entry behind a record; offsets in a file are not negative. -/
def operation (r : Replayed) : Option JournalEntry :=
  let e := r.entry
  match EntryType.ofCode? e.type with
  | some .mkobject => some (.mkobject e.parentNode.toNat e.newNode.toNat e.mod.toBitVec r.name)
  | some .unlink => some (.unlink e.parentNode.toNat e.newNode.toNat e.offset.toInt (pathOf r.name))
  | some .renamemove =>
    some (.renamemove e.parentNode.toNat e.newNode.toNat e.newParentNode.toNat (pathOf r.name) (pathOf r.data))
  | some .write => some (.write e.newNode.toNat e.offset.toInt.toNat r.data)
  | some .truncate => some (.truncate e.newNode.toNat e.offset.toInt.toNat)
  | some .chmod => some (.chmod e.newNode.toNat e.mod.toBitVec)
  | some .chown => some (.chown e.newNode.toNat e.mod (UInt32.ofNat e.offset.toUInt64.toNat))
  | some .close | none => none

/-- The context of `tryReplay`. -/
def replayContext : Context := ⟨0, 0, []⟩

variable [Floats]

def replayRecord (r : Replayed) : FsM EE :=
  match operation r with
  | some entry => replayEntry replayContext entry
  | none => pure .invalid_syscall

/-- Whether the replay of a record overwrites a file. -/
def recordOverwrites (r : Replayed) (s : Fs) : Bool :=
  match operation r with
  | some entry => ((overwrites replayContext entry s).map Prod.fst).getD false
  | none => false

theorem replayRecord_next {r : Replayed} {s t : Fs} {e : EE} (ran : replayRecord r s = some (e, t)) :
    t.nextJournalEntry = s.nextJournalEntry + (recordOverwrites r s).toNat := by
  unfold replayRecord at ran
  unfold recordOverwrites
  cases shape : operation r with
  | none =>
    rw [shape] at ran
    cases ran
    rfl
  | some entry =>
    rw [shape] at ran
    obtain ⟨b, u, asked, next⟩ := replayEntry_next ran
    dsimp only
    rw [asked]
    exact next

end Operations

/-- A mount with its journal: the session that has begun, the directory with the names of
the files in it, and what `tryReplay` works on. The last two fields record the names and
ids that are used while it does. -/
structure Recovery (S : StreamCipher) where
  fs : Fs
  session : Session S
  directory : Finset UInt32
  files : List UInt32
  items : List Replayed
  pending : List Replayed
  replaying : Bool
  opened : List UInt32
  written : List UInt32

namespace Recovery
variable {S : StreamCipher}

/-- A step of the mount. The nested entry of a replay is the one that its `unlink` adds, if
it comes to that; calls of users add entries once the mount is done. -/
inductive Step where
  | replay (nested : Addition)
  | finish
  | add (a : Addition)
  | close (id : Nat)

/-- The counter as it stands in names and ids. -/
def number (n : Nat) : UInt32 := UInt32.ofNat n

/-- The directory is listed and the journal in it is read. -/
def start (S : StreamCipher) (listing : List (UInt32 × Str)) (fs : Fs) : Option (Recovery S) :=
  match Journal.tryReplay S (listing.map Prod.snd) with
  | .ok items => some ⟨fs, .start, (listing.map Prod.fst).toFinset, listing.map Prod.fst, items, items, true, [], []⟩
  | .error _ => none

/-- `journal::add`; a new file is opened for appending. -/
def addEntry (a : Addition) (s : Recovery S) : Recovery S :=
  let id := number s.session.nextJournalEntry
  let file := number (s.session.nextJournalEntry + 1)
  let new := s.session.opens a.thread
  { s with
    session := s.session.add a
    directory := if new then insert file s.directory else s.directory
    opened := if new && s.replaying then file :: s.opened else s.opened
    written := if s.replaying then id :: s.written else s.written }

/-- An entry is closed; `~journalFile` asserts that it removes its file. -/
def closeEntry (id : Nat) (s : Recovery S) : Option (Recovery S) :=
  match find? id s.session.wrappers, s.session.close id with
  | some w, some session =>
    if session.Open w.file then some { s with session := session }
    else if number w.file ∈ s.directory then
      some { s with session := session, directory := s.directory.erase (number w.file) }
    else none
  | _, _ => none

/-- The journal that is written stays apart from the one that is read. -/
structure Apart (s : Recovery S) : Prop where
  names : ∀ name ∈ s.opened, name ∉ s.files
  ids : ∀ id ∈ s.written, id ∉ s.items.map (fun r => r.entry.id)
  spared : s.replaying = true → ∀ m, s.session.Open m → number m ∉ s.files
  kept : ∀ m, s.session.Open m → number m ∈ s.directory
  single : ∀ m m', s.session.Open m → s.session.Open m' → number m = number m' → m = m'
  removes : ∀ id, (s.session.close id).isSome → (closeEntry id s).isSome

/-- The numbers that a nested entry draws are not in use in the old journal. -/
structure Fresh (s : Recovery S) (thread : Nat) : Prop where
  id : number s.session.nextJournalEntry ∉ s.items.map (fun r => r.entry.id)
  file : s.session.opens thread = true → number (s.session.nextJournalEntry + 1) ∉ s.files

/-- A file that is opened does not get the name of one that is still open, though the
counter has come round. -/
def Alone (s : Recovery S) (thread : Nat) : Prop :=
  s.session.opens thread = true → ∀ m, s.session.Open m → number m ≠ number (s.session.nextJournalEntry + 1)

structure Sound (s : Recovery S) : Prop where
  session : s.session.Sound
  listed : s.replaying = true → ∀ m, s.session.Open m → number m ∈ s.opened
  begun : s.pending ≠ [] → s.replaying = true

section Entries
variable {s t : Recovery S} {a : Addition}

/-- The assertion holds as long as the files that are open have their names. -/
theorem removes_of_kept (sound : s.session.Sound) (kept : ∀ m, s.session.Open m → number m ∈ s.directory) (id : Nat)
    (closes : (s.session.close id).isSome) : (closeEntry id s).isSome := by
  obtain ⟨session, closed⟩ := Option.isSome_iff_exists.mp closes
  obtain ⟨_, _, w, held, _⟩ := Session.close_spec sound closed
  unfold closeEntry
  rw [held, closed]
  dsimp only
  rw [if_pos (kept w.file (sound.owned id w held))]
  split <;> rfl

/-- Nothing that matters here depends on how far the replay is. -/
theorem Sound.advance (sound : s.Sound) (fs : Fs) {r : Replayed} {pending : List Replayed} (first : s.pending = r :: pending) :
    Sound { s with fs := fs, pending := pending } :=
  ⟨sound.session, sound.listed, fun _ => sound.begun (first ▸ List.cons_ne_nil r pending)⟩

theorem Apart.advance (sound : s.Sound) (apart : s.Apart) (fs : Fs) (pending : List Replayed) :
    Apart { s with fs := fs, pending := pending } where
  names := apart.names
  ids := apart.ids
  spared := apart.spared
  kept := apart.kept
  single := apart.single
  removes := removes_of_kept (s := { s with fs := fs, pending := pending }) sound.session apart.kept

theorem sound_addEntry (sound : s.Sound) (a : Addition) : (s.addEntry a).Sound := by
  obtain ⟨session, opened, _⟩ := Session.add_spec sound.session a
  refine ⟨session, fun replaying m here => ?_, sound.begun⟩
  have listed := sound.listed replaying
  change number m ∈ if (s.session.opens a.thread && s.replaying) = true then _ else _
  rw [show s.replaying = true from replaying, Bool.and_true]
  obtain before | ⟨new, rfl⟩ := (opened m).mp here
  · split
    · exact List.mem_cons_of_mem _ (listed m before)
    · exact listed m before
  · rw [if_pos new]
    exact List.mem_cons_self

/-- An entry with numbers of its own keeps the journals apart. -/
theorem apart_addEntry (sound : s.Sound) (apart : s.Apart) (alone : s.Alone a.thread)
    (fresh : s.replaying = true → s.Fresh a.thread) : (s.addEntry a).Apart := by
  obtain ⟨session, opened, _⟩ := Session.add_spec sound.session a
  have kept : ∀ m, (s.addEntry a).session.Open m → number m ∈ (s.addEntry a).directory := by
    intro m here
    change number m ∈ if s.session.opens a.thread = true then _ else _
    obtain before | ⟨new, rfl⟩ := (opened m).mp here
    · split
      · exact Finset.mem_insert_of_mem (apart.kept m before)
      · exact apart.kept m before
    · rw [if_pos new]
      exact Finset.mem_insert_self _ _
  refine ⟨?_, ?_, ?_, kept, ?_, removes_of_kept session kept⟩
  · intro name member
    change name ∈ if (s.session.opens a.thread && s.replaying) = true then _ else _ at member
    split at member
    · rename_i both
      obtain ⟨new, replaying⟩ := Bool.and_eq_true_iff.mp both
      obtain rfl | member := List.mem_cons.mp member
      · exact (fresh replaying).file new
      · exact apart.names name member
    · exact apart.names name member
  · intro id member
    change id ∈ if s.replaying = true then _ else _ at member
    split at member
    · rename_i replaying
      obtain rfl | member := List.mem_cons.mp member
      · exact (fresh replaying).id
      · exact apart.ids id member
    · exact apart.ids id member
  · intro replaying m here
    obtain before | ⟨new, rfl⟩ := (opened m).mp here
    · exact apart.spared replaying m before
    · exact (fresh replaying).file new
  · intro m m' here there same
    obtain before | ⟨new, rfl⟩ := (opened m).mp here
    · obtain before' | ⟨new, rfl⟩ := (opened m').mp there
      · exact apart.single m m' before before' same
      · exact absurd same (alone new m before)
    · obtain before' | ⟨_, rfl⟩ := (opened m').mp there
      · exact absurd same.symm (alone new m' before')
      · rfl

/-- Journals that are apart after an entry show that its numbers were its own. -/
theorem own_of_apart (sound : s.Sound) (apart : (s.addEntry a).Apart) :
    s.Alone a.thread ∧ (s.replaying = true → s.Fresh a.thread) := by
  obtain ⟨_, opened, _⟩ := Session.add_spec sound.session a
  refine ⟨fun new m before same => ?_, fun replaying => ⟨?_, fun new => ?_⟩⟩
  · have equal := apart.single m _ ((opened m).mpr (Or.inl before)) ((opened _).mpr (Or.inr ⟨new, rfl⟩)) same
    have less := sound.session.numbers m before
    omega
  · apply apart.ids
    change _ ∈ if s.replaying = true then _ else _
    rw [if_pos replaying]
    exact List.mem_cons_self
  · exact apart.spared replaying _ ((opened _).mpr (Or.inr ⟨new, rfl⟩))

theorem closeEntry_cases {id : Nat} (closed : closeEntry id s = some t) :
    ∃ w session, find? id s.session.wrappers = some w ∧ s.session.close id = some session ∧
      (session.Open w.file ∧ t = { s with session := session } ∨
        ¬session.Open w.file ∧ t = { s with session := session, directory := s.directory.erase (number w.file) }) := by
  unfold closeEntry at closed
  split at closed
  · rename_i w session held done
    refine ⟨w, session, held, done, ?_⟩
    split at closed
    · rename_i here
      cases closed
      exact Or.inl ⟨here, rfl⟩
    · rename_i gone
      split at closed
      · cases closed
        exact Or.inr ⟨gone, rfl⟩
      · cases closed
  · cases closed

/-- No file is opened by the end of an entry. -/
theorem closeEntry_spec {id : Nat} (sound : s.Sound) (closed : closeEntry id s = some t) :
    t.Sound ∧ (∀ m, t.session.Open m → s.session.Open m) ∧ t.files = s.files ∧ t.items = s.items ∧ t.replaying = s.replaying ∧
      t.opened = s.opened ∧ t.written = s.written := by
  obtain ⟨w, session, held, done, shape⟩ := closeEntry_cases closed
  obtain ⟨sound', _, _, _, opened⟩ := Session.close_spec sound.session done
  have before : ∀ m, session.Open m → s.session.Open m := fun m here => ((opened m).mp here).1
  have listed : s.replaying = true → ∀ m, session.Open m → number m ∈ s.opened := fun during m here => sound.listed during m (before m here)
  obtain ⟨_, rfl⟩ | ⟨_, rfl⟩ := shape <;> exact ⟨⟨sound', listed, sound.begun⟩, before, rfl, rfl, rfl, rfl, rfl⟩

theorem apart_closeEntry {id : Nat} (sound : s.Sound) (apart : s.Apart) (closed : closeEntry id s = some t) : t.Apart := by
  obtain ⟨sound', before, files, items, replaying, names, ids⟩ := closeEntry_spec sound closed
  have kept : ∀ m, t.session.Open m → number m ∈ t.directory := by
    intro m here
    obtain ⟨w, session, held, _, ⟨_, rfl⟩ | ⟨gone, rfl⟩⟩ := closeEntry_cases closed
    · exact apart.kept m (before m here)
    · -- the file that goes has a name of its own
      refine Finset.mem_erase.mpr ⟨fun same => gone ?_, apart.kept m (before m here)⟩
      exact apart.single m w.file (before m here) (sound.session.owned id w held) same ▸ here
  refine ⟨?_, ?_, ?_, kept, ?_, removes_of_kept sound'.session kept⟩
  · rw [names, files]
    exact apart.names
  · rw [ids, items]
    exact apart.ids
  · rw [replaying, files]
    exact fun during m here => apart.spared during m (before m here)
  · exact fun m m' here there => apart.single m m' (before m here) (before m' there)

theorem start_apart {listing : List (UInt32 × Str)} {fs : Fs} (begun : start S listing fs = some s) : s.Sound ∧ s.Apart := by
  unfold start at begun
  split at begun
  · cases begun
    have none : ∀ m, ¬(Session.start : Session S).Open m := fun m => Bool.false_ne_true
    refine ⟨⟨Session.sound_start, fun _ m here => absurd here (none m), fun _ => rfl⟩, ?_⟩
    refine ⟨fun _ member => absurd member List.not_mem_nil, fun _ member => absurd member List.not_mem_nil,
      fun _ m here => absurd here (none m), fun m here => absurd here (none m), fun m _ here => absurd here (none m), ?_⟩
    exact fun id closes => absurd closes Bool.false_ne_true
  · cases begun

end Entries

section Runs
variable [Floats]

/-- The next round of the loop over the items. -/
def replayNext (nested : Addition) (s : Recovery S) : Option (Recovery S) :=
  match s.pending with
  | [] => none
  | r :: pending =>
    match replayRecord r s.fs with
    | none => none
    | some (_, fs) =>
      let after := { s with fs := fs, pending := pending }
      if fs.nextJournalEntry = s.fs.nextJournalEntry then some after
      else if nested.kind = .unlink ∧ nested.name = r.data then some (after.addEntry nested)
      else none

def step : Step → Recovery S → Option (Recovery S)
  | .replay nested, s => replayNext nested s
  | .finish, s =>
    if s.replaying ∧ s.pending = [] then
      some { s with replaying := false, directory := s.directory \ s.files.toFinset }
    else none
  | .add a, s => if s.replaying then none else some (s.addEntry a)
  | .close id, s => closeEntry id s

abbrev run : List Step → Recovery S → Option (Recovery S) := Schedule.run step

def Ordered (s : Recovery S) : Step → Prop
  | .replay nested => (∃ r ∈ s.pending.head?, recordOverwrites r s.fs = true) → s.Fresh nested.thread ∧ s.Alone nested.thread
  | .add a => s.Alone a.thread
  | .finish | .close _ => True

abbrev OrderedRun : List Step → Recovery S → Prop := Schedule.OrderedRun step Ordered

variable {s t : Recovery S}

/-- A round of the loop adds an entry just when it overwrites a file. -/
theorem replayNext_cases {a : Addition} (replayed : replayNext a s = some t) :
    ∃ r pending fs, s.pending = r :: pending ∧
      (recordOverwrites r s.fs = false ∧ t = { s with fs := fs, pending := pending } ∨
        recordOverwrites r s.fs = true ∧ t = addEntry a { s with fs := fs, pending := pending }) := by
  unfold replayNext at replayed
  split at replayed
  · cases replayed
  · rename_i r pending shape
    split at replayed
    · cases replayed
    · rename_i e fs ran
      have next := replayRecord_next ran
      refine ⟨r, pending, fs, shape, ?_⟩
      dsimp only at replayed
      cases covers : recordOverwrites r s.fs with
      | false =>
        rw [covers] at next
        rw [if_pos (by rw [next]; rfl)] at replayed
        exact Or.inl ⟨rfl, (Option.some.inj replayed).symm⟩
      | true =>
        rw [covers] at next
        rw [if_neg (by rw [next]; exact Nat.succ_ne_self _)] at replayed
        split at replayed
        · exact Or.inr ⟨rfl, (Option.some.inj replayed).symm⟩
        · cases replayed

theorem sound_step {next : Step} (sound : s.Sound) (stepped : step next s = some t) : t.Sound := by
  cases next with
  | replay nested =>
    obtain ⟨r, pending, fs, first, ⟨_, rfl⟩ | ⟨_, rfl⟩⟩ := replayNext_cases stepped
    · exact sound.advance fs first
    · exact sound_addEntry (sound.advance fs first) nested
  | finish =>
    dsimp only [step] at stepped
    split at stepped
    · rename_i covers
      cases stepped
      exact ⟨sound.session, fun during => absurd during Bool.false_ne_true, fun more => absurd covers.2 more⟩
    · cases stepped
  | add a =>
    dsimp only [step] at stepped
    split at stepped
    · cases stepped
    · cases stepped
      exact sound_addEntry sound a
  | close id => exact (closeEntry_spec sound stepped).1

/-- The final loop removes none of the files that are open. -/
theorem apart_finish (sound : s.Sound) (apart : s.Apart) (stepped : step .finish s = some t) : t.Apart := by
  dsimp only [step] at stepped
  split at stepped
  · rename_i covers
    cases stepped
    have kept : ∀ m, s.session.Open m → number m ∈ s.directory \ s.files.toFinset := by
      intro m here
      rw [Finset.mem_sdiff, List.mem_toFinset]
      exact ⟨apart.kept m here, apart.spared covers.1 m here⟩
    exact ⟨apart.names, apart.ids, fun during => absurd during Bool.false_ne_true, kept, apart.single,
      removes_of_kept (s := { s with replaying := false, directory := s.directory \ s.files.toFinset }) sound.session kept⟩
  · cases stepped

theorem apart_step {next : Step} (sound : s.Sound) (apart : s.Apart) (ordered : Ordered s next) (stepped : step next s = some t) :
    t.Apart := by
  cases next with
  | replay nested =>
    obtain ⟨r, pending, fs, first, ⟨_, rfl⟩ | ⟨covers, rfl⟩⟩ := replayNext_cases stepped
    · exact apart.advance sound fs pending
    · obtain ⟨fresh, alone⟩ := ordered ⟨r, by rw [first]; rfl, covers⟩
      exact apart_addEntry (sound.advance fs first) (apart.advance sound fs pending) alone (fun _ => ⟨fresh.id, fresh.file⟩)
  | finish => exact apart_finish sound apart stepped
  | add a =>
    dsimp only [step] at stepped
    split at stepped
    · cases stepped
    · rename_i mounted
      cases stepped
      exact apart_addEntry sound apart ordered (fun during => absurd during mounted)
  | close id => exact apart_closeEntry sound apart stepped

theorem ordered_of_apart {next : Step} (sound : s.Sound) (stepped : step next s = some t) (apart : t.Apart) : Ordered s next := by
  cases next with
  | replay nested =>
    rintro ⟨r, head, covers⟩
    obtain ⟨r', pending, fs, first, ⟨not, _⟩ | ⟨_, rfl⟩⟩ := replayNext_cases stepped
    · rw [first] at head
      cases head
      exact absurd covers (not ▸ Bool.false_ne_true)
    · have during := sound.begun (first ▸ List.cons_ne_nil r' pending)
      obtain ⟨alone, fresh⟩ := own_of_apart (sound.advance fs first) apart
      exact ⟨⟨(fresh during).id, (fresh during).file⟩, alone⟩
  | finish => trivial
  | add a =>
    dsimp only [step] at stepped
    split at stepped
    · cases stepped
    · cases stepped
      exact (own_of_apart sound apart).1
  | close id => trivial

/-- Whatever files are left, and whatever their entries do when they are replayed: the old
and the new journal are apart all along a run just when no file is overwritten at a moment
when the next numbers are in use in the old journal. -/
theorem apart_iff {listing : List (UInt32 × Str)} {fs : Fs} (begun : start S listing fs = some s) {steps : List Step}
    (ran : run steps s = some t) :
    (∀ first later, steps = first ++ later → ∀ u, run first s = some u → u.Apart) ↔ OrderedRun steps s := by
  obtain ⟨sound, apart⟩ := start_apart begun
  apply Schedule.always_iff_of_run (fun inv stepped => sound_step inv stepped)
  · exact fun inv here ordered stepped => apart_step inv here ordered stepped
  · exact fun inv _ stepped after => ordered_of_apart inv stepped after
  · exact sound
  · exact apart
  · exact ran

end Runs

section Made
open CloudCryptFS.Journal (taggedStream taggedStream_sound zeroHeader)

theorem renamemove_ne_close : EntryType.renamemove ≠ .close := by decide
theorem unlink_ne_close : EntryType.unlink ≠ .close := by decide
theorem length_slashA : (lit "/a").length < 2 ^ 64 := by decide
theorem length_slashB : (lit "/b").length < 2 ^ 64 := by decide
theorem length_nothing : ([] : Str).length < 2 ^ 64 := by decide

/-- A rename that has been journaled, and the entry of the unlink that its replay leads to. -/
def renameAB : Addition :=
  ⟨0, zeroHeader, .renamemove, 256, 258, 256, 0, 0, lit "/a", lit "/b", renamemove_ne_close, length_slashA, length_slashB⟩

def unlinkB : Addition := ⟨0, zeroHeader, .unlink, 256, 259, 0, 0, 1, lit "/b", [], unlink_ne_close, length_slashB, length_nothing⟩

/-- The journal of a session that crashed in the rename. -/
def crashed : Session taggedStream := Session.start.add renameAB

/-- The mount of an image with the files that have been made. -/
def mountWith (ops : List Op) : Option Fs :=
  (mount (formatted superuser)).bind (fun s₀ => (runAll ops s₀).bind (fun result => mount ⟨[1], result.2.slots⟩))

theorem start_crashed (fs : Fs) : start taggedStream (crashed.files.map (fun file => (number file.1, file.2.text))) fs =
    some ⟨fs, .start, {1}, [1], [(renameAB.record 0).toReplayed], [(renameAB.record 0).toReplayed], true, [], []⟩ := by
  have holds := (Journal.Holds.create (S := taggedStream) zeroHeader).writeEntry (renameAB.record 0)
  have read := Journal.readAll_ok (.cons (Journal.readFile_holds taggedStream_sound holds) .nil)
  have replayed : Journal.tryReplay taggedStream ((crashed.files.map (fun file => (number file.1, file.2.text))).map Prod.snd) =
      .ok [(renameAB.record 0).toReplayed] := Journal.tryReplay_records read
  unfold start
  rw [replayed]
  rfl

/-- The destination is free when the rename is replayed. -/
theorem apart_iff_free : ∃ (fs : Fs) (s t : Recovery taggedStream),
    start taggedStream (crashed.files.map (fun file => (number file.1, file.2.text))) fs = some s ∧
      run [.replay unlinkB, .finish, .add renameAB, .close 0] s = some t ∧
      ((∀ first later, [.replay unlinkB, .finish, .add renameAB, .close 0] = first ++ later → ∀ u, run first s = some u → u.Apart) ↔
        OrderedRun [.replay unlinkB, .finish, .add renameAB, .close 0] s) := by
  have runs : ((mountWith [.mknod [lit "a"] 0o644 superuser]).bind (fun fs =>
      (run [.replay unlinkB, .finish, .add renameAB, .close 0] (⟨fs, .start, {1}, [1], [(renameAB.record 0).toReplayed],
        [(renameAB.record 0).toReplayed], true, [], []⟩ : Recovery taggedStream)).map (fun _ => ()))) = some () := by
    decide +kernel
  obtain ⟨fs, _, ran⟩ := Option.bind_eq_some_iff.mp runs
  obtain ⟨t, ran, _⟩ := Option.map_eq_some_iff.mp ran
  exact ⟨fs, _, t, start_crashed fs, ran, apart_iff (start_crashed fs) ran⟩

/-- A session crashes in a rename onto a file. The unlink in its replay is journaled under
the id of the rename, and into the file that the rename is read from. -/
theorem collides_moveOnto : ¬∀ (events : List Journal.Event) (crashed : Session taggedStream) (ops : List Op) (fs : Fs)
    (steps : List Step) (s t : Recovery taggedStream), Session.run events .start = some crashed → mountWith ops = some fs →
    start taggedStream (crashed.files.map (fun file => (number file.1, file.2.text))) fs = some s → run steps s = some t →
    t.Apart := by
  intro always
  have runs : ((mountWith [.mknod [lit "a"] 0o644 superuser, .mknod [lit "b"] 0o644 superuser]).bind (fun fs =>
      (run [.replay unlinkB] (⟨fs, .start, {1}, [1], [(renameAB.record 0).toReplayed],
        [(renameAB.record 0).toReplayed], true, [], []⟩ : Recovery taggedStream)).map (fun t => (t.opened, t.files)))) =
      some ([1], [1]) := by
    decide +kernel
  obtain ⟨fs, mounted, ran⟩ := Option.bind_eq_some_iff.mp runs
  obtain ⟨t, ran, names⟩ := Option.map_eq_some_iff.mp ran
  obtain ⟨opened, files⟩ := Prod.mk.inj names
  have apart := always [.add renameAB] crashed _ fs _ _ t rfl mounted (start_crashed fs) ran
  have other := apart.names 1 (opened ▸ List.mem_cons_self)
  rw [files] at other
  exact other List.mem_cons_self

end Made

end Recovery

end CloudCryptFS.Filesystem
