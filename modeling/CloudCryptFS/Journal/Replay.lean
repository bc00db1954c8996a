import CloudCryptFS.Journal.Entry
import CloudCryptFS.Util.SortedEntries
import Mathlib.Data.List.Induction

/-! `journal::tryReplay`: the files of the directory are decrypted one after the other, the
entries that have not been closed are collected by their ids and replayed in that order. -/

namespace CloudCryptFS.Journal
open Util Bytes Script.Lexer

/-- How a replay ends early. -/
inductive Failure where
  | overread
  | forged
  | assertion
  | corrupted
  deriving DecidableEq

section Reading
variable (S : StreamCipher)

def entryEncSize : Nat := encryptionOverhead JournalEntry.width

/-- The loop over one file, from a state of the stream and what is left of the file. -/
def readEntries (state : S.State) (rest : Str) : Except Failure Str :=
  if _ : rest = [] then .ok []
  else if rest.length < entryEncSize then .error .overread
  else
    match S.pull state (rest.take entryEncSize) with
    | none => .error .forged
    | some (entry, state) =>
      if entry.length ≠ JournalEntry.width then .error .assertion
      else
        let e := JournalEntry.load entry
        let rest' := rest.drop entryEncSize
        if e.dataLength.toNat + e.nameLength.toNat ≠ 0 then
          let dataEncSize := encryptionOverhead (e.nameLength.toNat + e.dataLength.toNat)
          if rest'.length < dataEncSize then .error .overread
          else
            match S.pull state (rest'.take dataEncSize) with
            | none => .error .forged
            | some (data, state) => (readEntries state (rest'.drop dataEncSize)).map (fun later => (entry ++ data) ++ later)
        else (readEntries state rest').map (fun later => entry ++ later)
termination_by rest.length
decreasing_by
  all_goals
    have some : 0 < rest.length := List.length_pos_of_ne_nil ‹rest ≠ []›
    simp only [List.length_drop, entryEncSize, encryptionOverhead, JournalEntry.width]
    omega

/-- The header of a stream, filled up with zeros when the file is shorter. -/
def readHeader (text : Str) : Str := text.take streamHeaderSize ++ List.replicate (streamHeaderSize - text.length) 0

def readFile (text : Str) : Except Failure Str := readEntries S (S.start (readHeader text)) (text.drop streamHeaderSize)

/-- `completeJournal`, from the files in the order of the directory. -/
def readAll : List Str → Except Failure Str
  | [] => .ok []
  | text :: texts => do
    let entries ← readFile S text
    let later ← readAll texts
    pure (entries ++ later)

end Reading

/-- `_item`: where an entry is in the complete journal. -/
structure Item where
  offset : Nat
  size : Nat

/-- The second loop of `tryReplay`. -/
def collect (journal : Str) (offset : Nat) (items : List (Nat × Item)) : Except Failure (List (Nat × Item)) :=
  if offset < journal.length then
    if journal.length < offset + JournalEntry.width then .error .overread
    else
      let entry := JournalEntry.load (journal.drop offset)
      let size := JournalEntry.width + entry.nameLength.toNat + entry.dataLength.toNat
      match EntryType.ofCode? entry.type with
      | none => .error .corrupted
      | some .close => collect journal (offset + size) (SortedEntries.erase entry.id.toNat items)
      | some _ => collect journal (offset + size) (SortedEntries.set entry.id.toNat ⟨offset, size⟩ items)
  else .ok items
termination_by journal.length - offset
decreasing_by all_goals simp only [JournalEntry.width] at *; omega

/-- What is handed to `replayEntry` for an item, if anything. -/
def replayItem (journal : Str) (item : Item) : Except Failure (Option Replayed) :=
  if journal.length < item.offset + item.size then .error .overread
  else
    let content := (journal.drop item.offset).take item.size
    if content.length ≥ JournalEntry.width then
      let entry := JournalEntry.load content
      if content.length ≥ JournalEntry.width + entry.nameLength.toNat + entry.dataLength.toNat then
        .ok (some ⟨entry, (content.drop JournalEntry.width).take entry.nameLength.toNat,
          (content.drop (JournalEntry.width + entry.nameLength.toNat)).take entry.dataLength.toNat⟩)
      else .ok none
    else .ok none

def replayItems (journal : Str) : List (Nat × Item) → Except Failure (List Replayed)
  | [] => .ok []
  | item :: items => do
    let first ← replayItem journal item.2
    let later ← replayItems journal items
    pure (first.toList ++ later)

/-- `journal::tryReplay`, with the texts of the files as the directory lists them. -/
def tryReplay (S : StreamCipher) (texts : List Str) : Except Failure (List Replayed) := do
  let journal ← readAll S texts
  let items ← collect journal 0 []
  replayItems journal items

section Decoding
variable {S : StreamCipher}

theorem readEntries_nil (state : S.State) : readEntries S state [] = .ok [] := by
  rw [readEntries, dif_pos rfl]

theorem length_take_of_le {α : Type*} {n : Nat} {list : List α} (fits : n ≤ list.length) : (list.take n).length = n := by
  rw [List.length_take, Nat.min_eq_left fits]

/-- One record of a file, whatever comes after it. -/
theorem readEntries_cipher (sound : S.Sound) (state : S.State) (r : Record) (tail : Str) :
    readEntries S state ((r.cipher state).1 ++ tail) = (readEntries S (r.cipher state).2 tail).map (fun later => r.plain ++ later) := by
  have long := sound.length_push state r.entry.serialize
  rw [JournalEntry.length_serialize] at long
  have pulled := sound.pull_push state r.entry.serialize
  have lengths : r.entry.dataLength.toNat + r.entry.nameLength.toNat = (r.name ++ r.data).length := by
    rw [List.length_append, r.nameLength_eq, r.dataLength_eq, Nat.add_comm]
  have lengths' : r.entry.nameLength.toNat + r.entry.dataLength.toNat = (r.name ++ r.data).length := by
    rw [List.length_append, r.nameLength_eq, r.dataLength_eq]
  by_cases held : (r.name ++ r.data).length ≠ 0
  · have whole : r.cipher state = ((S.push state r.entry.serialize).1 ++ (S.push (S.push state r.entry.serialize).2 (r.name ++ r.data)).1,
        (S.push (S.push state r.entry.serialize).2 (r.name ++ r.data)).2) := by
      unfold Record.cipher
      dsimp only
      rw [if_pos held]
    have long' := sound.length_push (S.push state r.entry.serialize).2 (r.name ++ r.data)
    have pulled' := sound.pull_push (S.push state r.entry.serialize).2 (r.name ++ r.data)
    rw [whole]
    dsimp only
    rw [List.append_assoc]
    generalize (S.push state r.entry.serialize).1 = first at *
    generalize (S.push (S.push state r.entry.serialize).2 (r.name ++ r.data)).1 = second at *
    have some : first ++ (second ++ tail) ≠ [] := by
      intro empty
      have none := congrArg List.length empty
      rw [List.length_append, long, List.length_nil, encryptionOverhead] at none
      omega
    have enough : ¬(first ++ (second ++ tail)).length < entryEncSize := by
      rw [List.length_append, long, entryEncSize]
      omega
    have enough' : ¬(second ++ tail).length < encryptionOverhead (r.name ++ r.data).length := by
      rw [List.length_append, long']
      omega
    rw [readEntries, dif_neg some, if_neg enough, entryEncSize, List.take_left' long, pulled]
    dsimp only
    rw [if_neg (not_not.mpr (JournalEntry.length_serialize r.entry)), JournalEntry.load_serialize, List.drop_left' long, lengths, if_pos held,
      lengths', if_neg enough', List.take_left' long', pulled']
    dsimp only
    rw [List.drop_left' long']
    rfl
  · have whole : r.cipher state = S.push state r.entry.serialize := by
      unfold Record.cipher
      dsimp only
      rw [if_neg held]
    have bare : r.plain = r.entry.serialize := by
      rw [Record.plain, List.length_eq_zero_iff.mp (not_not.mp held), List.append_nil]
    rw [whole, bare]
    generalize (S.push state r.entry.serialize).1 = first at *
    have some : first ++ tail ≠ [] := by
      intro empty
      have none := congrArg List.length empty
      rw [List.length_append, long, List.length_nil, encryptionOverhead] at none
      omega
    have enough : ¬(first ++ tail).length < entryEncSize := by
      rw [List.length_append, long, entryEncSize]
      omega
    rw [readEntries, dif_neg some, if_neg enough, entryEncSize, List.take_left' long, pulled]
    dsimp only
    rw [if_neg (not_not.mpr (JournalEntry.length_serialize r.entry)), JournalEntry.load_serialize, List.drop_left' long, lengths, if_neg held]

/-- A record that is cut anywhere is read past its end. -/
theorem readEntries_torn (sound : S.Sound) (state : S.State) (r : Record) {cut : Nat} (some : 0 < cut) (torn : cut < r.size) :
    readEntries S state ((r.cipher state).1.take cut) = .error .overread := by
  have size := r.length_cipher sound state
  have long := sound.length_push state r.entry.serialize
  rw [JournalEntry.length_serialize] at long
  have short : ((r.cipher state).1.take cut).length = cut := length_take_of_le (by omega)
  have there : (r.cipher state).1.take cut ≠ [] := by
    intro empty
    rw [empty, List.length_nil] at short
    omega
  rw [readEntries, dif_neg there, short]
  by_cases early : cut < entryEncSize
  · rw [if_pos early]
  · rw [if_neg early]
    -- the entry is there, what follows it is not
    have held : (r.name ++ r.data).length ≠ 0 := by
      intro empty
      unfold Record.size at torn
      rw [if_neg (not_not.mpr empty)] at torn
      exact early torn
    have whole : (r.cipher state).1 = (S.push state r.entry.serialize).1 ++ (S.push (S.push state r.entry.serialize).2 (r.name ++ r.data)).1 := by
      unfold Record.cipher
      dsimp only
      rw [if_pos held]
    have lengths : r.entry.dataLength.toNat + r.entry.nameLength.toNat = (r.name ++ r.data).length := by
      rw [List.length_append, r.nameLength_eq, r.dataLength_eq, Nat.add_comm]
    have lengths' : r.entry.nameLength.toNat + r.entry.dataLength.toNat = (r.name ++ r.data).length := by
      rw [List.length_append, r.nameLength_eq, r.dataLength_eq]
    have begins : ((r.cipher state).1.take cut).take entryEncSize = (S.push state r.entry.serialize).1 := by
      rw [List.take_take, Nat.min_eq_left (not_lt.mp early), whole]
      exact List.take_left' long
    have missing : (((r.cipher state).1.take cut).drop entryEncSize).length < encryptionOverhead (r.name ++ r.data).length := by
      unfold Record.size at torn
      rw [if_pos held] at torn
      rw [List.length_drop, short]
      change cut < entryEncSize + _ at torn
      omega
    rw [begins, sound.pull_push]
    dsimp only
    rw [if_neg (not_not.mpr (JournalEntry.length_serialize r.entry)), JournalEntry.load_serialize, lengths, if_pos held, lengths', if_pos missing]

/-- The records of a file, whatever comes after them. -/
theorem readEntries_encode (sound : S.Sound) (state : S.State) (records : List Record) (tail : Str) :
    readEntries S state ((encode state records).1 ++ tail) =
      (readEntries S (encode state records).2 tail).map (fun later => records.flatMap Record.plain ++ later) := by
  induction records generalizing state with
  | nil =>
    change readEntries S state tail = (readEntries S state tail).map (fun later => later)
    cases readEntries S state tail <;> rfl
  | cons r rest ih =>
    change readEntries S state (((r.cipher state).1 ++ (encode (r.cipher state).2 rest).1) ++ tail) = _
    rw [List.append_assoc, readEntries_cipher sound, ih]
    change _ = (readEntries S (encode (r.cipher state).2 rest).2 tail).map _
    cases readEntries S (encode (r.cipher state).2 rest).2 tail with
    | error _ => rfl
    | ok later =>
      simp only [Except.map, List.flatMap_cons, List.append_assoc]

theorem readHeader_append (header : StreamHeader) (text : Str) : readHeader (header.text ++ text) = header.text := by
  have filled : streamHeaderSize - (header.text ++ text).length = 0 := by
    rw [List.length_append, header.size_eq]
    omega
  rw [readHeader, List.take_left' header.size_eq, filled, List.replicate_zero, List.append_nil]

/-- A file is read back as its records. -/
theorem readFile_holds (sound : S.Sound) {f : JournalFile S} {header : StreamHeader} {records : List Record} (holds : Holds f header records) :
    readFile S f.text = .ok (records.flatMap Record.plain) := by
  have read := readEntries_encode sound (S.start header.text) records []
  rw [List.append_nil, readEntries_nil] at read
  rw [readFile, holds.text, readHeader_append, List.drop_left' header.size_eq, read]
  simp only [Except.map, List.append_nil]

theorem readAll_ok {texts : List Str} {parts : List (List Record)}
    (read : List.Forall₂ (fun text records => readFile S text = .ok (records.flatMap Record.plain)) texts parts) :
    readAll S texts = .ok (parts.flatten.flatMap Record.plain) := by
  induction read with
  | nil => rfl
  | cons here _ ih =>
    rw [readAll, here, ih, List.flatten_cons, List.flatMap_append]
    rfl

end Decoding

section Collecting

/-- What the items are after some records. -/
def openRecords (items : List (Nat × Record)) : List Record → List (Nat × Record)
  | [] => items
  | r :: rest =>
    openRecords (if r.kind = .close then SortedEntries.erase r.id.toNat items else SortedEntries.set r.id.toNat r items) rest

/-- An item leads to a record in the complete journal. -/
def Located (journal : Str) (item : Nat × Item) (opened : Nat × Record) : Prop :=
  item.1 = opened.1 ∧ item.2.offset + item.2.size ≤ journal.length ∧
    (journal.drop item.2.offset).take item.2.size = opened.2.plain

theorem load_plain (r : Record) (tail : Str) : JournalEntry.load (r.plain ++ tail) = r.entry := by
  rw [Record.plain, List.append_assoc, JournalEntry.load_append]

theorem Record.size_plain (r : Record) : JournalEntry.width + r.entry.nameLength.toNat + r.entry.dataLength.toNat = r.plain.length := by
  rw [r.length_plain, Nat.add_assoc]

/-- Collecting the rest of a complete journal. -/
theorem collect_records {journal before : Str} {records : List Record} (shape : journal = before ++ records.flatMap Record.plain)
    {items : List (Nat × Item)} {opened : List (Nat × Record)} (located : List.Forall₂ (Located journal) items opened) :
    ∃ items', collect journal before.length items = .ok items' ∧ List.Forall₂ (Located journal) items' (openRecords opened records) := by
  induction records generalizing before items opened with
  | nil =>
    refine ⟨items, ?_, located⟩
    rw [collect, if_neg]
    rw [shape, List.flatMap_nil, List.append_nil]
    exact lt_irrefl _
  | cons r rest ih =>
    have sameKey : ∀ first second, Located journal first second → first.1 = second.1 := fun _ _ here => here.1
    have ahead : journal.drop before.length = r.plain ++ rest.flatMap Record.plain := by
      rw [shape, List.flatMap_cons]
      exact List.drop_left' rfl
    have total : journal.length = before.length + (r.plain.length + (rest.flatMap Record.plain).length) := by
      rw [shape, List.flatMap_cons, List.length_append, List.length_append]
    have size := r.length_plain
    have inside : before.length < journal.length := by
      rw [total, size, JournalEntry.width]
      omega
    have enough : ¬journal.length < before.length + JournalEntry.width := by
      rw [total, size]
      omega
    have later : journal = (before ++ r.plain) ++ rest.flatMap Record.plain := by
      rw [shape, List.flatMap_cons, List.append_assoc]
    have next : before.length + r.plain.length = (before ++ r.plain).length := List.length_append.symm
    have here : Located journal (r.id.toNat, ⟨before.length, r.plain.length⟩) (r.id.toNat, r) := by
      refine ⟨rfl, by dsimp only; omega, ?_⟩
      dsimp only
      rw [ahead]
      exact List.take_left' rfl
    rw [collect, if_pos inside, if_neg enough]
    dsimp only
    rw [ahead, load_plain, r.size_plain, r.type_eq, EntryType.ofCode?_code, next]
    unfold openRecords
    by_cases close : r.kind = .close
    · rw [close, if_pos rfl]
      exact ih later (SortedEntries.forall₂_erase sameKey located _)
    · rw [if_neg close]
      have set := ih later (SortedEntries.forall₂_set sameKey located here)
      cases kind : r.kind with
      | close => exact absurd kind close
      | _ => exact set

theorem replayItem_located {journal : Str} {item : Nat × Item} {opened : Nat × Record} (located : Located journal item opened) :
    replayItem journal item.2 = .ok (some opened.2.toReplayed) := by
  obtain ⟨_, inside, text⟩ := located
  have size := opened.2.length_plain
  have whole := opened.2.size_plain
  have loaded := load_plain opened.2 []
  rw [List.append_nil] at loaded
  have named : (opened.2.plain.drop JournalEntry.width).take opened.2.entry.nameLength.toNat = opened.2.name := by
    rw [Record.plain, List.drop_left' (JournalEntry.length_serialize _), opened.2.nameLength_eq]
    exact List.take_left' rfl
  have filled : (opened.2.plain.drop (JournalEntry.width + opened.2.entry.nameLength.toNat)).take opened.2.entry.dataLength.toNat = opened.2.data := by
    rw [← List.drop_drop, Record.plain, List.drop_left' (JournalEntry.length_serialize _), List.drop_left' opened.2.nameLength_eq.symm,
      opened.2.dataLength_eq, List.take_length]
  rw [replayItem, if_neg (by omega)]
  dsimp only
  rw [text, loaded, if_pos (by omega), if_pos (by omega), named, filled]

theorem replayItems_located {journal : Str} {items : List (Nat × Item)} {opened : List (Nat × Record)}
    (located : List.Forall₂ (Located journal) items opened) :
    replayItems journal items = .ok (opened.map (fun entry => entry.2.toReplayed)) := by
  induction located with
  | nil => rfl
  | cons here _ ih =>
    rw [replayItems, replayItem_located here, ih]
    rfl

/-- A complete journal of records is replayed as the items that are left. -/
theorem tryReplay_records {S : StreamCipher} {texts : List Str} {records : List Record}
    (read : readAll S texts = .ok (records.flatMap Record.plain)) :
    tryReplay S texts = .ok ((openRecords [] records).map (fun entry => entry.2.toReplayed)) := by
  have none : List.Forall₂ (Located (records.flatMap Record.plain)) [] [] := List.Forall₂.nil
  obtain ⟨items, collected, located⟩ := collect_records (List.nil_append _).symm none
  rw [List.length_nil] at collected
  rw [tryReplay, read]
  change (collect _ 0 [] >>= fun items => replayItems _ items) = _
  rw [collected]
  exact replayItems_located located

end Collecting

section Outstanding

/-- An entry that has been added, and has not been closed or replaced after that. -/
def Outstanding (records : List Record) (r : Record) : Prop :=
  r.kind ≠ .close ∧ ∃ before after, records = before ++ r :: after ∧ ∀ other ∈ after, other.id ≠ r.id

theorem sorted_openRecords {items : List (Nat × Record)} (sorted : SortedEntries.Sorted items) (records : List Record) :
    SortedEntries.Sorted (openRecords items records) := by
  induction records generalizing items with
  | nil => exact sorted
  | cons r rest ih =>
    unfold openRecords
    apply ih
    split
    · exact SortedEntries.sorted_erase sorted _
    · exact SortedEntries.sorted_set sorted _ _

/-- The items by their ids: the last record with an id decides. -/
theorem find?_openRecords {items : List (Nat × Record)} (sorted : SortedEntries.Sorted items) (records : List Record) (key : Nat) (r : Record) :
    SortedEntries.find? key (openRecords items records) = some r ↔
      (r.id.toNat = key ∧ Outstanding records r) ∨
        ((∀ other ∈ records, other.id.toNat ≠ key) ∧ SortedEntries.find? key items = some r) := by
  induction records generalizing items with
  | nil =>
    constructor
    · exact fun found => Or.inr ⟨fun _ none => absurd none List.not_mem_nil, found⟩
    · rintro (⟨_, _, before, after, none, _⟩ | ⟨_, found⟩)
      · cases before <;> cases none
      · exact found
  | cons first rest ih =>
    have sorted' : SortedEntries.Sorted
        (if first.kind = .close then SortedEntries.erase first.id.toNat items else SortedEntries.set first.id.toNat first items) := by
      split
      · exact SortedEntries.sorted_erase sorted _
      · exact SortedEntries.sorted_set sorted _ _
    unfold openRecords
    rw [ih sorted']
    constructor
    · rintro (⟨same, known, before, after, split, apart⟩ | ⟨absent, found⟩)
      · exact Or.inl ⟨same, known, first :: before, after, by rw [split, List.cons_append], apart⟩
      · by_cases here : first.id.toNat = key
        · rw [← here] at found
          split at found
          · rw [SortedEntries.find?_erase_self sorted] at found
            cases found
          · rename_i known
            rw [SortedEntries.find?_set_self] at found
            cases found
            refine Or.inl ⟨here, known, [], rest, rfl, fun other member same => ?_⟩
            exact absent other member ((congrArg UInt32.toNat same).trans here)
        · have other : ∀ later ∈ first :: rest, later.id.toNat ≠ key := by
            intro later member
            rcases List.mem_cons.mp member with rfl | member
            · exact here
            · exact absent later member
          refine Or.inr ⟨other, ?_⟩
          split at found
          · rwa [SortedEntries.find?_erase_of_ne (Ne.symm here)] at found
          · rwa [SortedEntries.find?_set_of_ne (Ne.symm here)] at found
    · rintro (⟨same, known, before, after, split, apart⟩ | ⟨absent, found⟩)
      · cases before with
        | nil =>
          cases split
          refine Or.inr ⟨fun other member equal => ?_, ?_⟩
          · exact apart other member (UInt32.toNat_inj.mp (equal.trans same.symm))
          · rw [if_neg known, ← same, SortedEntries.find?_set_self]
        | cons head before =>
          cases split
          exact Or.inl ⟨same, known, before, after, rfl, apart⟩
      · have here : first.id.toNat ≠ key := absent first List.mem_cons_self
        refine Or.inr ⟨fun other member => absent other (List.mem_cons_of_mem _ member), ?_⟩
        split
        · rwa [SortedEntries.find?_erase_of_ne (Ne.symm here)]
        · rwa [SortedEntries.find?_set_of_ne (Ne.symm here)]

theorem mem_openRecords (records : List Record) (key : Nat) (r : Record) :
    (key, r) ∈ openRecords [] records ↔ r.id.toNat = key ∧ Outstanding records r := by
  rw [← SortedEntries.find?_eq_some_iff (sorted_openRecords SortedEntries.sorted_nil records),
    find?_openRecords SortedEntries.sorted_nil]
  constructor
  · rintro (found | ⟨_, none⟩)
    · exact found
    · cases none
  · exact Or.inl

/-- What `tryReplay` hands to `replayEntry`: the given entries, each once and in the order of the ids. -/
structure Replays (replayed : List Replayed) (entries : Record → Prop) : Prop where
  exact : ∀ e, e ∈ replayed ↔ ∃ r, entries r ∧ r.toReplayed = e
  increasing : (replayed.map (fun e => e.entry.id.toNat)).Pairwise (· < ·)

theorem replays_openRecords (records : List Record) :
    Replays ((openRecords [] records).map (fun entry => entry.2.toReplayed)) (Outstanding records) := by
  have sorted := sorted_openRecords SortedEntries.sorted_nil records
  constructor
  · intro e
    rw [List.mem_map]
    constructor
    · rintro ⟨⟨key, r⟩, member, rfl⟩
      exact ⟨r, ((mem_openRecords records key r).mp member).2, rfl⟩
    · rintro ⟨r, outstanding, rfl⟩
      exact ⟨(r.id.toNat, r), (mem_openRecords records _ r).mpr ⟨rfl, outstanding⟩, rfl⟩
  · have keys : ((openRecords [] records).map (fun entry => entry.2.toReplayed)).map (fun e => e.entry.id.toNat) =
        (openRecords [] records).map Prod.fst := by
      rw [List.map_map]
      apply List.map_congr_left
      intro entry member
      exact ((mem_openRecords records entry.1 entry.2).mp member).1
    rw [keys]
    exact sorted

/-- A record at the end of a file. -/
theorem outstanding_append_singleton (records : List Record) (last r : Record) :
    Outstanding (records ++ [last]) r ↔ (r = last ∧ last.kind ≠ .close) ∨ (Outstanding records r ∧ last.id ≠ r.id) := by
  constructor
  · rintro ⟨known, before, after, split, apart⟩
    rcases List.eq_nil_or_concat after with rfl | ⟨after, final, rfl⟩
    · obtain ⟨_, same⟩ := List.append_inj' split rfl
      cases same
      exact Or.inl ⟨rfl, known⟩
    · rw [List.concat_eq_append] at split apart
      rw [← List.cons_append, ← List.append_assoc] at split
      obtain ⟨front, same⟩ := List.append_inj' split rfl
      cases same
      refine Or.inr ⟨⟨known, before, after, front, fun other member => apart other (List.mem_append_left _ member)⟩, ?_⟩
      exact apart last (List.mem_append_right _ List.mem_cons_self)
  · rintro (⟨rfl, known⟩ | ⟨⟨known, before, after, split, apart⟩, different⟩)
    · exact ⟨known, records, [], rfl, fun other none => absurd none List.not_mem_nil⟩
    · refine ⟨known, before, after ++ [last], by rw [split, List.append_assoc, List.cons_append], fun other member => ?_⟩
      rcases List.mem_append.mp member with member | member
      · exact apart other member
      · rw [List.mem_singleton.mp member]
        exact different

theorem outstanding_append (first second : List Record) (r : Record) :
    Outstanding (first ++ second) r ↔ (Outstanding first r ∧ ∀ other ∈ second, other.id ≠ r.id) ∨ Outstanding second r := by
  induction second using List.reverseRecOn with
  | nil =>
    rw [List.append_nil]
    constructor
    · exact fun outstanding => Or.inl ⟨outstanding, fun other none => absurd none List.not_mem_nil⟩
    · rintro (⟨outstanding, _⟩ | ⟨_, before, after, none, _⟩)
      · exact outstanding
      · cases before <;> cases none
  | append_singleton second last ih =>
    rw [← List.append_assoc, outstanding_append_singleton, ih, outstanding_append_singleton]
    simp only [List.forall_mem_append, List.forall_mem_singleton]
    tauto

theorem mem_of_outstanding {records : List Record} {r : Record} (outstanding : Outstanding records r) : r ∈ records := by
  obtain ⟨_, before, after, rfl, _⟩ := outstanding
  exact List.mem_append_right _ List.mem_cons_self

/-- Files whose ids are apart have the entries of each of them. -/
theorem outstanding_flatMap {records : Nat → List Record} {numbers : List Nat}
    (apart : numbers.Pairwise (fun n m => ∀ r ∈ records n, ∀ r' ∈ records m, r.id ≠ r'.id)) (r : Record) :
    Outstanding (numbers.flatMap records) r ↔ ∃ n ∈ numbers, Outstanding (records n) r := by
  induction numbers with
  | nil =>
    constructor
    · rintro ⟨_, before, after, none, _⟩
      cases before <;> cases none
    · rintro ⟨n, none, _⟩
      cases none
  | cons n rest ih =>
    obtain ⟨here, later⟩ := List.pairwise_cons.mp apart
    rw [List.flatMap_cons, outstanding_append, ih later]
    constructor
    · rintro (⟨outstanding, _⟩ | ⟨m, member, outstanding⟩)
      · exact ⟨n, List.mem_cons_self, outstanding⟩
      · exact ⟨m, List.mem_cons_of_mem _ member, outstanding⟩
    · rintro ⟨m, member, outstanding⟩
      rcases List.mem_cons.mp member with rfl | member
      · refine Or.inl ⟨outstanding, fun other found => ?_⟩
        obtain ⟨k, inRest, found⟩ := List.mem_flatMap.mp found
        exact (here k inRest r (mem_of_outstanding outstanding) other found).symm
      · exact Or.inr ⟨m, member, outstanding⟩

end Outstanding

end CloudCryptFS.Journal
