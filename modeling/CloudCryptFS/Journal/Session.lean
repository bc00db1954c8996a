import CloudCryptFS.Journal.Replay
import Mathlib.Logic.Function.Basic

/-! One session of the journal. Each thread adds its entries to a file of its own, and an
entry is closed in the file it was added to; a file is gone with the last open entry in it. -/

namespace CloudCryptFS.Journal
open Util Bytes Script.Lexer SortedEntries

/-- `journalEntryWrapper`: an entry that is not closed yet, and its file. -/
structure Wrapper where
  inner : Record
  file : Nat

/-- The journal while it runs: files by the number in their name, for each thread the file
it last wrote to, and the wrappers by their ids. -/
structure Session (S : StreamCipher) where
  nextJournalEntry : Nat
  files : List (Nat × JournalFile S)
  jf : Nat → Option Nat
  wrappers : List (Nat × Wrapper)

/-- The arguments of `journal::add`, with the thread that calls it and the header that a new
file would get. -/
structure Addition where
  thread : Nat
  header : StreamHeader
  kind : EntryType
  parentNode : UInt64
  newNode : UInt64
  newParentNode : UInt64
  mod : UInt32
  offset : Int64
  name : Str
  data : Str
  notClose : kind ≠ .close
  name_fits : name.length < 2 ^ 64
  data_fits : data.length < 2 ^ 64

def Addition.record (a : Addition) (id : Nat) : Record where
  entry := ⟨UInt32.ofNat id, a.kind.code, a.parentNode, a.newNode, a.newParentNode, a.mod, a.offset, UInt64.ofNat a.name.length,
    UInt64.ofNat a.data.length⟩
  name := a.name
  data := a.data
  kind := a.kind
  type_eq := rfl
  nameLength_eq := UInt64.toNat_ofNat_of_lt' a.name_fits
  dataLength_eq := UInt64.toNat_ofNat_of_lt' a.data_fits

inductive Event where
  | add (a : Addition)
  | close (id : Nat)

namespace Session
variable {S : StreamCipher}

def start : Session S := ⟨0, [], fun _ => none, []⟩

def createFile (thread : Nat) (header : StreamHeader) (s : Session S) : Nat × Session S :=
  (s.nextJournalEntry,
    { s with
      nextJournalEntry := s.nextJournalEntry + 1
      files := set s.nextJournalEntry (.create header) s.files
      jf := Function.update s.jf thread (some s.nextJournalEntry) })

/-- `journal::getJournalFile`; the file of a thread is only held by its wrappers. -/
def getJournalFile (thread : Nat) (header : StreamHeader) (s : Session S) : Nat × Session S :=
  match (s.jf thread).bind (fun n => (find? n s.files).map (fun f => (n, f))) with
  | some (n, myFile) => if myFile.entries > 1024 then createFile thread header s else (n, s)
  | none => createFile thread header s

def changeFile (n : Nat) (change : JournalFile S → JournalFile S) (s : Session S) : Session S :=
  match find? n s.files with
  | some f => { s with files := set n (change f) s.files }
  | none => s

/-- `journal::add`. -/
def add (a : Addition) (s : Session S) : Session S :=
  let id := s.nextJournalEntry
  let r := a.record id
  let (n, t) := getJournalFile a.thread a.header { s with nextJournalEntry := s.nextJournalEntry + 1 }
  let t := t.changeFile n (JournalFile.writeEntry r.entry r.name r.data)
  { t with wrappers := set id ⟨r, n⟩ t.wrappers }

/-- `journalEntryWrapper::~journalEntryWrapper`, and with the last wrapper of a file
`journalFile::~journalFile`. -/
def close (id : Nat) (s : Session S) : Option (Session S) :=
  match find? id s.wrappers with
  | none => none
  | some w =>
    let t := s.changeFile w.file (JournalFile.deleteEntry w.inner.id)
    let wrappers := erase id t.wrappers
    some { t with
      wrappers := wrappers
      files := if wrappers.any (fun entry => entry.2.file = w.file) then t.files else erase w.file t.files }

def step : Event → Session S → Option (Session S)
  | .add a, s => some (s.add a)
  | .close id, s => s.close id

def run : List Event → Session S → Option (Session S)
  | [], s => some s
  | event :: events, s => (s.step event).bind (run events)

end Session

section Invariant
variable {S : StreamCipher}

/-- The files hold what the wrappers stand for, and no id is in two files. -/
structure Inv (s : Session S) (header : Nat → StreamHeader) (records : Nat → List Record) : Prop where
  sortedFiles : Sorted s.files
  sortedWrappers : Sorted s.wrappers
  holds : ∀ n f, find? n s.files = some f → Holds f (header n) (records n)
  numbers : ∀ n f, find? n s.files = some f → n < s.nextJournalEntry
  owned : ∀ id w, find? id s.wrappers = some w →
    id < s.nextJournalEntry ∧ w.inner.id.toNat = id ∧ ∃ f, find? w.file s.files = some f
  outstanding : ∀ n f, find? n s.files = some f → ∀ r,
    Outstanding (records n) r ↔ ∃ id w, find? id s.wrappers = some w ∧ w.file = n ∧ w.inner = r
  ids : ∀ n f, find? n s.files = some f → ∀ r ∈ records n, r.id.toNat < s.nextJournalEntry
  apart : ∀ n m f g, find? n s.files = some f → find? m s.files = some g → n ≠ m →
    ∀ r ∈ records n, ∀ r' ∈ records m, r.id ≠ r'.id

namespace Session
variable {s t : Session S} {header : Nat → StreamHeader} {records : Nat → List Record}

theorem inv_start : Inv (start : Session S) header records where
  sortedFiles := sorted_nil
  sortedWrappers := sorted_nil
  holds _ _ none := by cases none
  numbers _ _ none := by cases none
  owned _ _ none := by cases none
  outstanding _ _ none := by cases none
  ids _ _ none := by cases none
  apart _ _ _ _ none := by cases none

/-- An id that is drawn is in no file. -/
theorem inv_draw (inv : Inv s header records) : Inv { s with nextJournalEntry := s.nextJournalEntry + 1 } header records :=
  { inv with
    numbers := fun n f found => Nat.lt_succ_of_lt (inv.numbers n f found)
    owned := fun id w found => ⟨Nat.lt_succ_of_lt (inv.owned id w found).1, (inv.owned id w found).2⟩
    ids := fun n f found r member => Nat.lt_succ_of_lt (inv.ids n f found r member) }

theorem inv_createFile (inv : Inv s header records) (thread : Nat) (newHeader : StreamHeader) :
    Inv (createFile thread newHeader s).2 (Function.update header s.nextJournalEntry newHeader)
      (Function.update records s.nextJournalEntry []) := by
  have other : ∀ n f, find? n (set s.nextJournalEntry (.create newHeader) s.files) = some f → n ≠ s.nextJournalEntry →
      find? n s.files = some f := by
    intro n f found different
    rwa [find?_set_of_ne different] at found
  have new : ∀ f, find? s.nextJournalEntry (set s.nextJournalEntry (.create newHeader) s.files) = some f → f = .create newHeader := by
    intro f found
    rw [find?_set_self] at found
    exact (Option.some.inj found).symm
  refine ⟨sorted_set inv.sortedFiles _ _, inv.sortedWrappers, ?_, ?_, ?_, ?_, ?_, ?_⟩
  · intro n f found
    by_cases here : n = s.nextJournalEntry
    · subst here
      rw [Function.update_self, Function.update_self, new f found]
      exact Holds.create newHeader
    · rw [Function.update_of_ne here, Function.update_of_ne here]
      exact inv.holds n f (other n f found here)
  · intro n f found
    by_cases here : n = s.nextJournalEntry
    · exact here ▸ Nat.lt_succ_self _
    · exact Nat.lt_succ_of_lt (inv.numbers n f (other n f found here))
  · intro id w found
    obtain ⟨less, same, f, file⟩ := inv.owned id w found
    have different : w.file ≠ s.nextJournalEntry := Nat.ne_of_lt (inv.numbers w.file f file)
    exact ⟨Nat.lt_succ_of_lt less, same, f, (find?_set_of_ne different _ _).trans file⟩
  · intro n f found r
    by_cases here : n = s.nextJournalEntry
    · subst here
      rw [Function.update_self]
      constructor
      · rintro ⟨_, before, after, none, _⟩
        cases before <;> cases none
      · rintro ⟨id, w, open', file, _⟩
        obtain ⟨_, _, g, exists'⟩ := inv.owned id w open'
        exact absurd file (Nat.ne_of_lt (inv.numbers w.file g exists'))
    · rw [Function.update_of_ne here]
      exact inv.outstanding n f (other n f found here) r
  · intro n f found r member
    by_cases here : n = s.nextJournalEntry
    · rw [here, Function.update_self] at member
      cases member
    · rw [Function.update_of_ne here] at member
      exact Nat.lt_succ_of_lt (inv.ids n f (other n f found here) r member)
  · intro n m f g foundN foundM different r member r' member'
    by_cases hereN : n = s.nextJournalEntry
    · rw [hereN, Function.update_self] at member
      cases member
    · by_cases hereM : m = s.nextJournalEntry
      · rw [hereM, Function.update_self] at member'
        cases member'
      · rw [Function.update_of_ne hereN] at member
        rw [Function.update_of_ne hereM] at member'
        exact inv.apart n m f g (other n f foundN hereN) (other m g foundM hereM) different r member r' member'

/-- The file of a thread: it exists, ids that were in no file still are not, and the wrappers stay. -/
theorem getJournalFile_spec (inv : Inv s header records) (thread : Nat) (newHeader : StreamHeader) :
    ∃ header' records' f, Inv (getJournalFile thread newHeader s).2 header' records' ∧
      find? (getJournalFile thread newHeader s).1 (getJournalFile thread newHeader s).2.files = some f ∧
      (getJournalFile thread newHeader s).2.wrappers = s.wrappers ∧
      s.nextJournalEntry ≤ (getJournalFile thread newHeader s).2.nextJournalEntry ∧
      ∀ id, (∀ n f, find? n s.files = some f → ∀ r ∈ records n, r.id.toNat ≠ id) →
        ∀ n f, find? n (getJournalFile thread newHeader s).2.files = some f → ∀ r ∈ records' n, r.id.toNat ≠ id := by
  have created : ∃ header' records' f, Inv (createFile thread newHeader s).2 header' records' ∧
      find? (createFile thread newHeader s).1 (createFile thread newHeader s).2.files = some f ∧
      (createFile thread newHeader s).2.wrappers = s.wrappers ∧
      s.nextJournalEntry ≤ (createFile thread newHeader s).2.nextJournalEntry ∧
      ∀ id, (∀ n f, find? n s.files = some f → ∀ r ∈ records n, r.id.toNat ≠ id) →
        ∀ n f, find? n (createFile thread newHeader s).2.files = some f → ∀ r ∈ records' n, r.id.toNat ≠ id := by
    refine ⟨_, _, _, inv_createFile inv thread newHeader, find?_set_self _ _ _, rfl, Nat.le_succ _, ?_⟩
    intro id fresh n f found r member
    by_cases here : n = s.nextJournalEntry
    · rw [here, Function.update_self] at member
      cases member
    · rw [Function.update_of_ne here] at member
      exact fresh n f ((find?_set_of_ne here _ _).symm.trans found) r member
  unfold getJournalFile
  cases locked : (s.jf thread).bind (fun n => (find? n s.files).map (fun f => (n, f))) with
  | none => exact created
  | some held =>
    obtain ⟨n, f⟩ := held
    dsimp only
    by_cases full : f.entries > 1024
    · rw [if_pos full]
      exact created
    · rw [if_neg full]
      obtain ⟨m, _, mapped⟩ := Option.bind_eq_some_iff.mp locked
      obtain ⟨g, found, pair⟩ := Option.map_eq_some_iff.mp mapped
      cases pair
      exact ⟨header, records, f, inv, found, rfl, le_rfl, fun _ fresh => fresh⟩

/-- A record at the end of one file. -/
def appendTo (records : Nat → List Record) (n : Nat) (r : Record) : Nat → List Record :=
  Function.update records n (records n ++ [r])

theorem appendTo_self (n : Nat) (r : Record) : appendTo records n r n = records n ++ [r] := Function.update_self _ _ _

theorem appendTo_of_ne {n m : Nat} (different : m ≠ n) (r : Record) : appendTo records n r m = records m :=
  Function.update_of_ne different _ _

theorem mem_appendTo {n m : Nat} {r e : Record} (member : e ∈ appendTo records n r m) : e ∈ records m ∨ m = n ∧ e = r := by
  by_cases here : m = n
  · rw [here, appendTo_self] at member
    rcases List.mem_append.mp member with old | new
    · exact Or.inl (here ▸ old)
    · exact Or.inr ⟨here, List.mem_singleton.mp new⟩
  · rw [appendTo_of_ne here] at member
    exact Or.inl member

/-- One file gets one record more, or goes with it. -/
structure Appends (s t : Session S) (n : Nat) (r : Record) : Prop where
  here : ∃ f, find? n s.files = some f ∧ ∀ g, find? n t.files = some g → g = f.writeEntry r.entry r.name r.data
  other : ∀ m, m ≠ n → find? m t.files = find? m s.files
  next : t.nextJournalEntry = s.nextJournalEntry

/-- No other file has a record with the id. -/
def Elsewhere (s : Session S) (records : Nat → List Record) (n : Nat) (r : Record) : Prop :=
  ∀ m g, find? m s.files = some g → m ≠ n → ∀ e ∈ records m, e.id ≠ r.id

namespace Appends
variable {n m : Nat} {r : Record} {g : JournalFile S}

theorem still (appends : Appends s t n r) (there : find? m t.files = some g) : ∃ g', find? m s.files = some g' := by
  by_cases same : m = n
  · obtain ⟨f, found, _⟩ := appends.here
    exact ⟨f, same ▸ found⟩
  · rw [appends.other m same] at there
    exact ⟨g, there⟩

theorem holds (appends : Appends s t n r) (inv : Inv s header records) (there : find? m t.files = some g) :
    Holds g (header m) (appendTo records n r m) := by
  by_cases same : m = n
  · subst same
    obtain ⟨f, found, written⟩ := appends.here
    rw [appendTo_self, written g there]
    exact (inv.holds m f found).writeEntry r
  · rw [appends.other m same] at there
    rw [appendTo_of_ne same]
    exact inv.holds m g there

theorem numbers (appends : Appends s t n r) (inv : Inv s header records) (there : find? m t.files = some g) : m < t.nextJournalEntry := by
  obtain ⟨g', old⟩ := appends.still there
  rw [appends.next]
  exact inv.numbers m g' old

theorem ids (appends : Appends s t n r) (inv : Inv s header records) (drawn : r.id.toNat < s.nextJournalEntry)
    (there : find? m t.files = some g) {e : Record} (member : e ∈ appendTo records n r m) : e.id.toNat < t.nextJournalEntry := by
  obtain ⟨g', old⟩ := appends.still there
  rw [appends.next]
  rcases mem_appendTo member with before | ⟨_, rfl⟩
  · exact inv.ids m g' old e before
  · exact drawn

theorem apart (appends : Appends s t n r) (inv : Inv s header records) (elsewhere : Elsewhere s records n r) {k : Nat} {h : JournalFile S}
    (thereM : find? m t.files = some g) (thereK : find? k t.files = some h) (different : m ≠ k) {e e' : Record}
    (member : e ∈ appendTo records n r m) (member' : e' ∈ appendTo records n r k) : e.id ≠ e'.id := by
  obtain ⟨g', oldM⟩ := appends.still thereM
  obtain ⟨h', oldK⟩ := appends.still thereK
  rcases mem_appendTo member with inM | ⟨rfl, rfl⟩
  · rcases mem_appendTo member' with inK | ⟨rfl, rfl⟩
    · exact inv.apart m k g' h' oldM oldK different e inM e' inK
    · exact elsewhere m g' oldM different e inM
  · rcases mem_appendTo member' with inK | ⟨rfl, _⟩
    · exact (elsewhere k h' oldK (Ne.symm different) e' inK).symm
    · exact absurd rfl different

theorem outstanding_iff (appends : Appends s t n r) (elsewhere : Elsewhere s records n r) (there : find? m t.files = some g) (e : Record) :
    Outstanding (appendTo records n r m) e ↔ (m = n ∧ e = r ∧ r.kind ≠ .close) ∨ (Outstanding (records m) e ∧ r.id ≠ e.id) := by
  by_cases same : m = n
  · rw [same, appendTo_self, outstanding_append_singleton]
    exact or_congr_left ⟨fun new => ⟨rfl, new⟩, fun new => new.2⟩
  · obtain ⟨g', old⟩ := appends.still there
    rw [appendTo_of_ne same]
    constructor
    · intro before
      exact Or.inr ⟨before, (elsewhere m g' old same e (mem_of_outstanding before)).symm⟩
    · rintro (⟨here, _⟩ | ⟨before, _⟩)
      · exact absurd here same
      · exact before

end Appends

theorem inv_put (inv : Inv s header records) {n id : Nat} {f : JournalFile S} (found : find? n s.files = some f) {r : Record}
    (drawn : id < s.nextJournalEntry) (same : r.id.toNat = id) (known : r.kind ≠ .close)
    (fresh : ∀ n f, find? n s.files = some f → ∀ r ∈ records n, r.id.toNat ≠ id) :
    Inv { s.changeFile n (JournalFile.writeEntry r.entry r.name r.data) with wrappers := set id ⟨r, n⟩ s.wrappers }
      header (appendTo records n r) := by
  have changed : s.changeFile n (JournalFile.writeEntry r.entry r.name r.data) =
      { s with files := set n (f.writeEntry r.entry r.name r.data) s.files } := by
    unfold changeFile
    rw [found]
  rw [changed]
  have appends : Appends s { s with files := set n (f.writeEntry r.entry r.name r.data) s.files, wrappers := set id ⟨r, n⟩ s.wrappers } n r :=
    ⟨⟨f, found, fun g there => (Option.some.inj ((find?_set_self _ _ _).symm.trans there)).symm⟩, fun m other => find?_set_of_ne other _ _, rfl⟩
  have unused : ∀ m g, find? m s.files = some g → ∀ e ∈ records m, e.id ≠ r.id :=
    fun m g there e member equal => fresh m g there e member ((congrArg UInt32.toNat equal).trans same)
  have elsewhere : Elsewhere s records n r := fun m g there _ => unused m g there
  have notYet : find? id s.wrappers = none := by
    by_contra some
    obtain ⟨w, open'⟩ := Option.ne_none_iff_exists'.mp some
    obtain ⟨_, equal, g, file⟩ := inv.owned id w open'
    have there := (inv.outstanding w.file g file w.inner).mpr ⟨id, w, open', rfl, rfl⟩
    exact fresh w.file g file w.inner (mem_of_outstanding there) equal
  refine ⟨sorted_set inv.sortedFiles _ _, sorted_set inv.sortedWrappers _ _, fun m g there => appends.holds inv there,
    fun m g there => appends.numbers inv there, ?_, ?_, fun m g there e member => appends.ids inv (same ▸ drawn) there member,
    fun m k g h thereM thereK different e member e' member' => appends.apart inv elsewhere thereM thereK different member member'⟩
  · intro id' w there
    dsimp only at there ⊢
    by_cases here : id' = id
    · subst here
      rw [find?_set_self] at there
      cases there
      exact ⟨drawn, same, _, find?_set_self _ _ _⟩
    · rw [find?_set_of_ne here] at there
      obtain ⟨less, equal, g, file⟩ := inv.owned id' w there
      refine ⟨less, equal, ?_⟩
      by_cases inFile : w.file = n
      · rw [inFile]
        exact ⟨_, find?_set_self _ _ _⟩
      · exact ⟨g, (find?_set_of_ne inFile _ _).trans file⟩
  · intro m g there e
    obtain ⟨g', old⟩ := appends.still there
    rw [appends.outstanding_iff elsewhere there, inv.outstanding m g' old e]
    constructor
    · rintro (⟨rfl, rfl, _⟩ | ⟨⟨id', w, open', file, equal⟩, _⟩)
      · exact ⟨id, ⟨e, m⟩, find?_set_self _ _ _, rfl, rfl⟩
      · refine ⟨id', w, ?_, file, equal⟩
        rw [find?_set_of_ne, open']
        intro clash
        rw [clash, notYet] at open'
        cases open'
    · rintro ⟨id', w, open', file, equal⟩
      by_cases clash : id' = id
      · subst clash
        rw [find?_set_self] at open'
        cases open'
        exact Or.inl ⟨file.symm, equal.symm, known⟩
      · rw [find?_set_of_ne clash] at open'
        have before := (inv.outstanding m g' old e).mpr ⟨id', w, open', file, equal⟩
        exact Or.inr ⟨⟨id', w, open', file, equal⟩, (unused m g' old e (mem_of_outstanding before)).symm⟩

/-- What closing leaves: the wrapper goes, and its file with the last wrapper in it. -/
structure Closes (s t : Session S) (id : Nat) (w : Wrapper) : Prop where
  opened : find? id s.wrappers = some w
  wrappers : t.wrappers = erase id s.wrappers
  appends : Appends s t w.file (.close w.inner.id)
  sorted : Sorted t.files
  kept : (∃ entry ∈ t.wrappers, entry.2.file = w.file) → ∃ g, find? w.file t.files = some g

theorem closes_of_close {id : Nat} (inv : Inv s header records) (closed : s.close id = some t) : ∃ w, Closes s t id w := by
  unfold close at closed
  cases open' : find? id s.wrappers with
  | none =>
    rw [open'] at closed
    cases closed
  | some w =>
    rw [open'] at closed
    dsimp only at closed
    obtain ⟨_, _, f, found⟩ := inv.owned id w open'
    have changed : s.changeFile w.file (JournalFile.deleteEntry w.inner.id) =
        { s with files := set w.file (f.deleteEntry w.inner.id) s.files } := by
      unfold changeFile
      rw [found]
    rw [changed] at closed
    cases closed
    refine ⟨w, open', rfl, ⟨⟨f, found, ?_⟩, ?_, rfl⟩, ?_, ?_⟩
    · intro g there
      dsimp only at there
      split at there
      · rw [find?_set_self] at there
        exact (Option.some.inj there).symm
      · rw [find?_erase_self (sorted_set inv.sortedFiles _ _)] at there
        cases there
    · intro m other
      dsimp only
      split
      · exact find?_set_of_ne other _ _
      · exact (find?_erase_of_ne other _).trans (find?_set_of_ne other _ _)
    · dsimp only
      split
      · exact sorted_set inv.sortedFiles _ _
      · exact sorted_erase (sorted_set inv.sortedFiles _ _) _
    · rintro ⟨entry, member, inFile⟩
      dsimp only
      rw [if_pos (List.any_eq_true.mpr ⟨entry, member, decide_eq_true inFile⟩)]
      exact ⟨_, find?_set_self _ _ _⟩

theorem Closes.open_iff {id : Nat} {w : Wrapper} (closes : Closes s t id w) (sorted : Sorted s.wrappers) (id' : Nat) (w' : Wrapper) :
    find? id' t.wrappers = some w' ↔ id' ≠ id ∧ find? id' s.wrappers = some w' := by
  rw [closes.wrappers]
  by_cases here : id' = id
  · subst here
    rw [find?_erase_self sorted]
    exact ⟨fun none => (by cases none), fun both => absurd rfl both.1⟩
  · rw [find?_erase_of_ne here]
    exact ⟨fun some => ⟨here, some⟩, fun both => both.2⟩

theorem inv_close {id : Nat} (inv : Inv s header records) (closed : s.close id = some t) :
    ∃ w, find? id s.wrappers = some w ∧ t.wrappers = erase id s.wrappers ∧ t.nextJournalEntry = s.nextJournalEntry ∧
      Inv t header (appendTo records w.file (.close w.inner.id)) := by
  obtain ⟨w, closes⟩ := closes_of_close inv closed
  have appends := closes.appends
  have open_iff := closes.open_iff inv.sortedWrappers
  obtain ⟨drawn, key, f, found⟩ := inv.owned id w closes.opened
  have sortedWrappers : Sorted t.wrappers := closes.wrappers ▸ sorted_erase inv.sortedWrappers _
  -- the closing record has the id of a record that is in the file already
  have there := mem_of_outstanding ((inv.outstanding w.file f found w.inner).mpr ⟨id, w, closes.opened, rfl, rfl⟩)
  have elsewhere : Elsewhere s records w.file (.close w.inner.id) :=
    fun m g there' other e member => inv.apart m w.file g f there' found other e member w.inner there
  refine ⟨w, closes.opened, closes.wrappers, appends.next, closes.sorted, sortedWrappers, fun m g there => appends.holds inv there,
    fun m g there => appends.numbers inv there, ?_, ?_, fun m g there e member => appends.ids inv (key ▸ drawn) there member,
    fun m k g h thereM thereK different e member e' member' => appends.apart inv elsewhere thereM thereK different member member'⟩
  · intro id' w' there
    obtain ⟨_, old⟩ := (open_iff id' w').mp there
    obtain ⟨less, equal, g, file⟩ := inv.owned id' w' old
    rw [appends.next]
    refine ⟨less, equal, ?_⟩
    by_cases inFile : w'.file = w.file
    · rw [inFile]
      exact closes.kept ⟨(id', w'), (find?_eq_some_iff sortedWrappers id' w').mp there, inFile⟩
    · exact ⟨g, (appends.other w'.file inFile).trans file⟩
  · intro m g there e
    obtain ⟨g', old⟩ := appends.still there
    rw [appends.outstanding_iff elsewhere there, inv.outstanding m g' old e]
    constructor
    · rintro (⟨_, _, close⟩ | ⟨⟨id', w', open', file, equal⟩, different⟩)
      · exact absurd rfl close
      · refine ⟨id', w', (open_iff id' w').mpr ⟨fun clash => different ?_, open'⟩, file, equal⟩
        rw [clash, closes.opened] at open'
        cases open'
        exact (show w.inner.id = e.id from congrArg Record.id equal)
    · rintro ⟨id', w', open', file, equal⟩
      obtain ⟨different, old'⟩ := (open_iff id' w').mp open'
      refine Or.inr ⟨⟨id', w', old', file, equal⟩, fun sameId => different ?_⟩
      have key' := (inv.owned id' w' old').2.1
      rw [equal, ← sameId] at key'
      exact key'.symm.trans key

theorem changeFile_spec (n : Nat) (change : JournalFile S → JournalFile S) (s : Session S) :
    (s.changeFile n change).wrappers = s.wrappers ∧ (s.changeFile n change).nextJournalEntry = s.nextJournalEntry := by
  unfold changeFile
  split <;> exact ⟨rfl, rfl⟩

theorem getJournalFile_next (thread : Nat) (newHeader : StreamHeader) (s : Session S) :
    s.nextJournalEntry ≤ (getJournalFile thread newHeader s).2.nextJournalEntry := by
  unfold getJournalFile
  split
  · split
    · exact Nat.le_succ _
    · exact le_rfl
  · exact Nat.le_succ _

theorem add_next (a : Addition) (s : Session S) : s.nextJournalEntry < (s.add a).nextJournalEntry := by
  have file := getJournalFile_next a.thread a.header { s with nextJournalEntry := s.nextJournalEntry + 1 }
  exact lt_of_lt_of_le file (le_of_eq (changeFile_spec _ _ _).2.symm)

theorem close_next {id : Nat} (closed : s.close id = some t) : t.nextJournalEntry = s.nextJournalEntry := by
  unfold close at closed
  split at closed
  · cases closed
  · cases closed
    exact (changeFile_spec _ _ _).2

theorem run_next {events : List Event} (ran : run events s = some t) : s.nextJournalEntry ≤ t.nextJournalEntry := by
  induction events generalizing s with
  | nil =>
    cases ran
    exact le_rfl
  | cons event events ih =>
    obtain ⟨mid, first, later⟩ := Option.bind_eq_some_iff.mp ran
    have rest := ih later
    cases event with
    | add a =>
      cases first
      exact (add_next a s).le.trans rest
    | close id => exact (close_next first).symm.le.trans rest

/-- What an addition does: a wrapper more, under an id that was not used before. -/
theorem inv_add (inv : Inv s header records) (a : Addition) (room : s.nextJournalEntry < 2 ^ 32) :
    (a.record s.nextJournalEntry).id.toNat = s.nextJournalEntry ∧ ∃ header' records' n, Inv (s.add a) header' records' ∧
      (s.add a).wrappers = set s.nextJournalEntry ⟨a.record s.nextJournalEntry, n⟩ s.wrappers := by
  obtain ⟨header', records', f, inv', found, wrappers, next, fresh⟩ := getJournalFile_spec (inv_draw inv) a.thread a.header
  have same : (a.record s.nextJournalEntry).id.toNat = s.nextJournalEntry := UInt32.toNat_ofNat_of_lt' room
  have unused := fresh s.nextJournalEntry (fun n f found r member => Nat.ne_of_lt (inv.ids n f found r member))
  obtain ⟨n, u, got⟩ : ∃ n u, getJournalFile a.thread a.header { s with nextJournalEntry := s.nextJournalEntry + 1 } = (n, u) := ⟨_, _, rfl⟩
  rw [got] at inv' found wrappers next unused
  have put := inv_put inv' found next same a.notClose unused
  have shape : s.add a =
      { u.changeFile n (JournalFile.writeEntry (a.record s.nextJournalEntry).entry (a.record s.nextJournalEntry).name
          (a.record s.nextJournalEntry).data) with
        wrappers := set s.nextJournalEntry ⟨a.record s.nextJournalEntry, n⟩ u.wrappers } := by
    unfold add
    rw [got]
    dsimp only
    rw [(changeFile_spec _ _ _).1]
  rw [shape]
  exact ⟨same, header', _, n, put, congrArg _ wrappers⟩

/-- The records of the additions of a run, with the ids they get. -/
def added : List Event → Session S → List Record
  | [], _ => []
  | .add a :: events, s => a.record s.nextJournalEntry :: added events (s.add a)
  | .close id :: events, s =>
    match s.close id with
    | some t => added events t
    | none => []

def closed : List Event → List Nat
  | [] => []
  | .add _ :: events => closed events
  | .close id :: events => id :: closed events

/-- A run keeps the invariant, and what is open after it has been added and not closed. -/
theorem inv_run {events : List Event} {header : Nat → StreamHeader} {records : Nat → List Record} (inv : Inv s header records)
    (ran : run events s = some t) (ids : t.nextJournalEntry ≤ 2 ^ 32) :
    (∃ header' records', Inv t header' records') ∧ (∀ r ∈ added events s, s.nextJournalEntry ≤ r.id.toNat) ∧
      ∀ r, (∃ id w, find? id t.wrappers = some w ∧ w.inner = r) ↔
        ((∃ id w, find? id s.wrappers = some w ∧ w.inner = r) ∨ r ∈ added events s) ∧ r.id.toNat ∉ closed events := by
  induction events generalizing s header records with
  | nil =>
    cases ran
    refine ⟨⟨header, records, inv⟩, fun r none => absurd none List.not_mem_nil, fun r => ?_⟩
    simp only [added, closed, List.not_mem_nil, or_false, not_false_eq_true, and_true]
  | cons event events ih =>
    obtain ⟨mid, first, later⟩ := Option.bind_eq_some_iff.mp ran
    have rest := run_next later
    cases event with
    | add a =>
      cases first
      have next := add_next a s
      obtain ⟨same, header', records', n, inv', wrappers⟩ := inv_add inv a (lt_of_lt_of_le next (rest.trans ids))
      obtain ⟨kept, above, now⟩ := ih inv' later
      refine ⟨kept, ?_, fun r => ?_⟩
      · intro r member
        rcases List.mem_cons.mp member with rfl | member
        · exact same.symm.le
        · exact next.le.trans (above r member)
      · have opened : (∃ id w, find? id (s.add a).wrappers = some w ∧ w.inner = r) ↔
            (∃ id w, find? id s.wrappers = some w ∧ w.inner = r) ∨ r = a.record s.nextJournalEntry := by
          rw [wrappers]
          constructor
          · rintro ⟨id, w, found, equal⟩
            by_cases here : id = s.nextJournalEntry
            · rw [here, find?_set_self] at found
              cases found
              exact Or.inr equal.symm
            · rw [find?_set_of_ne here] at found
              exact Or.inl ⟨id, w, found, equal⟩
          · rintro (⟨id, w, found, equal⟩ | rfl)
            · have different : id ≠ s.nextJournalEntry := Nat.ne_of_lt (inv.owned id w found).1
              exact ⟨id, w, (find?_set_of_ne different _ _).trans found, equal⟩
            · exact ⟨_, _, find?_set_self _ _ _, rfl⟩
        rw [now r, opened, or_assoc, added, List.mem_cons]
        rfl
    | close id =>
      obtain ⟨w, there, wrappers, next, inv'⟩ := inv_close inv first
      obtain ⟨kept, above, now⟩ := ih inv' later
      obtain ⟨less, key, _⟩ := inv.owned id w there
      have same : added (.close id :: events) s = added events mid := by
        rw [added, show s.close id = some mid from first]
      rw [same]
      refine ⟨kept, fun r member => next ▸ above r member, fun r => ?_⟩
      have opened : (∃ id' w', find? id' mid.wrappers = some w' ∧ w'.inner = r) ↔
          (∃ id' w', find? id' s.wrappers = some w' ∧ w'.inner = r) ∧ r.id.toNat ≠ id := by
        rw [wrappers]
        constructor
        · rintro ⟨id', w', found, equal⟩
          by_cases here : id' = id
          · rw [here, find?_erase_self inv.sortedWrappers] at found
            cases found
          · rw [find?_erase_of_ne here] at found
            refine ⟨⟨id', w', found, equal⟩, ?_⟩
            rw [← equal, (inv.owned id' w' found).2.1]
            exact here
        · rintro ⟨⟨id', w', found, equal⟩, different⟩
          rw [← equal, (inv.owned id' w' found).2.1] at different
          exact ⟨id', w', (find?_erase_of_ne different _).trans found, equal⟩
      have fresh : r ∈ added events mid → r.id.toNat ≠ id := by
        intro member
        have least := above r member
        omega
      rw [now r, opened, closed, List.mem_cons, not_or]
      constructor
      · rintro ⟨⟨before, different⟩ | member, notLater⟩
        · exact ⟨Or.inl before, different, notLater⟩
        · exact ⟨Or.inr member, fresh member, notLater⟩
      · rintro ⟨before | member, different, notLater⟩
        · exact ⟨Or.inl ⟨before, different⟩, notLater⟩
        · exact ⟨Or.inr member, notLater⟩

end Session

end Invariant

section Decoding
variable {S : StreamCipher}

/-- After any run, and in whatever order the directory lists the files that are left, the
entries that were added and not closed are replayed, each once and in the order of their
ids. -/
theorem tryReplay_session (sound : S.Sound) {events : List Event} {s : Session S} (ran : Session.run events Session.start = some s)
    (ids : s.nextJournalEntry ≤ 2 ^ 32) {listing : List (Nat × JournalFile S)} (listed : listing.Perm s.files) :
    ∃ replayed, tryReplay S (listing.map (fun file => file.2.text)) = .ok replayed ∧
      Replays replayed (fun r => r ∈ Session.added events (Session.start : Session S) ∧ r.id.toNat ∉ Session.closed events) := by
  have begin' : Inv (Session.start : Session S) (fun _ => ⟨List.replicate 24 0, rfl⟩) (fun _ => []) := Session.inv_start
  obtain ⟨⟨header, records, inv⟩, _, opened⟩ := Session.inv_run begin' ran ids
  have mem_iff : ∀ n f, (n, f) ∈ listing ↔ find? n s.files = some f := by
    intro n f
    rw [listed.mem_iff, find?_eq_some_iff inv.sortedFiles]
  have read : readAll S (listing.map (fun file => file.2.text)) = .ok (((listing.map Prod.fst).flatMap records).flatMap Record.plain) := by
    rw [show (listing.map Prod.fst).flatMap records = (listing.map (fun file => records file.1)).flatten by
      rw [List.flatMap_def, List.map_map]; rfl]
    apply readAll_ok
    rw [List.forall₂_map_left_iff, List.forall₂_map_right_iff, List.forall₂_same]
    intro file member
    exact readFile_holds sound (inv.holds file.1 file.2 ((mem_iff file.1 file.2).mp member))
  have apart : (listing.map Prod.fst).Pairwise (fun n m => ∀ r ∈ records n, ∀ r' ∈ records m, r.id ≠ r'.id) := by
    have distinct : (listing.map Prod.fst).Nodup := (listed.map Prod.fst).nodup_iff.mpr (keys_nodup inv.sortedFiles)
    apply List.Pairwise.imp_of_mem _ distinct
    intro n m inN inM different
    obtain ⟨⟨_, f⟩, memberN, rfl⟩ := List.mem_map.mp inN
    obtain ⟨⟨_, g⟩, memberM, rfl⟩ := List.mem_map.mp inM
    exact inv.apart _ _ f g ((mem_iff _ f).mp memberN) ((mem_iff _ g).mp memberM) different
  have entries : ∀ r, Outstanding ((listing.map Prod.fst).flatMap records) r ↔
      r ∈ Session.added events (Session.start : Session S) ∧ r.id.toNat ∉ Session.closed events := by
    intro r
    rw [outstanding_flatMap apart]
    calc (∃ n ∈ listing.map Prod.fst, Outstanding (records n) r)
        ↔ ∃ id w, find? id s.wrappers = some w ∧ w.inner = r := by
          constructor
          · rintro ⟨n, member, outstanding⟩
            obtain ⟨⟨_, f⟩, inListing, rfl⟩ := List.mem_map.mp member
            obtain ⟨id, w, found, _, equal⟩ := (inv.outstanding _ f ((mem_iff _ f).mp inListing) r).mp outstanding
            exact ⟨id, w, found, equal⟩
          · rintro ⟨id, w, found, equal⟩
            obtain ⟨_, _, f, file⟩ := inv.owned id w found
            refine ⟨w.file, List.mem_map.mpr ⟨(w.file, f), (mem_iff _ f).mpr file, rfl⟩, ?_⟩
            exact (inv.outstanding w.file f file r).mpr ⟨id, w, found, rfl, equal⟩
      _ ↔ _ := by
          rw [opened r]
          have none : ¬∃ id w, find? id (Session.start : Session S).wrappers = some w ∧ w.inner = r := by
            rintro ⟨id, w, found, _⟩
            cases found
          tauto
  refine ⟨_, tryReplay_records read, ?_⟩
  have replays := replays_openRecords ((listing.map Prod.fst).flatMap records)
  refine ⟨fun e => ?_, replays.increasing⟩
  rw [replays.exact e]
  simp only [entries]

/-- Two threads: the first entry is closed, the second has neither name nor data. -/
def twoThreads : List Event :=
  [.add ⟨0, zeroHeader, .mkobject, 256, 257, 0, 0x81a4, 0, lit "a", [], by decide, by decide, by decide⟩,
    .add ⟨1, zeroHeader, .truncate, 0, 257, 0, 0, 4096, [], [], by decide, by decide, by decide⟩,
    .add ⟨0, zeroHeader, .renamemove, 256, 257, 256, 0, 0, lit "/a", lit "/b", by decide, by decide, by decide⟩,
    .close 0]

theorem tryReplay_session_twoThreads :
    ∃ s : Session taggedStream, Session.run twoThreads Session.start = some s ∧ ∀ listing : List (Nat × JournalFile taggedStream), listing.Perm s.files →
      ∃ replayed, tryReplay taggedStream (listing.map (fun file => file.2.text)) = .ok replayed ∧
        Replays replayed (fun r => r ∈ Session.added twoThreads (Session.start : Session taggedStream) ∧ r.id.toNat ∉ Session.closed twoThreads) := by
  have counted : (Session.run twoThreads (Session.start : Session taggedStream)).map Session.nextJournalEntry = some 5 := by decide +kernel
  obtain ⟨s, ran, next⟩ := Option.map_eq_some_iff.mp counted
  exact ⟨s, ran, fun listing listed => tryReplay_session taggedStream_sound ran (by omega) listed⟩

end Decoding

end CloudCryptFS.Journal
