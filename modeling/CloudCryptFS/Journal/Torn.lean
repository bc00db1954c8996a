import CloudCryptFS.Journal.Replay

/-! Journal files that end early, as a crash leaves them. `tryReplay` cuts the next message
out of the text without a look at how much is left, so that a file has to end in its header
or behind a record. -/

namespace CloudCryptFS.Journal
open Util Bytes Script.Lexer

section Cut

/-- The records that are completely there in the first bytes behind the header. -/
def complete : Nat → List Record → List Record
  | _, [] => []
  | cut, r :: rest => if r.size ≤ cut then r :: complete (cut - r.size) rest else []

/-- The cut is at the end of a record, or behind all of them. -/
def Whole : Nat → List Record → Prop
  | _, [] => True
  | cut, r :: rest => cut = 0 ∨ (r.size ≤ cut ∧ Whole (cut - r.size) rest)

instance decidableWhole : (cut : Nat) → (records : List Record) → Decidable (Whole cut records)
  | _, [] => isTrue trivial
  | cut, r :: rest =>
    have := decidableWhole (cut - r.size) rest
    inferInstanceAs (Decidable (cut = 0 ∨ (r.size ≤ cut ∧ Whole (cut - r.size) rest)))

variable {S : StreamCipher}

theorem readEntries_take (sound : S.Sound) (state : S.State) (records : List Record) (cut : Nat) :
    readEntries S state ((encode state records).1.take cut) =
      if Whole cut records then .ok ((complete cut records).flatMap Record.plain) else .error .overread := by
  induction records generalizing state cut with
  | nil =>
    rw [if_pos (show Whole cut [] from trivial)]
    change readEntries S state (([] : Str).take cut) = .ok []
    rw [List.take_nil, readEntries_nil]
  | cons r rest ih =>
    have size := r.length_cipher sound state
    have positive := r.size_pos
    change readEntries S state (((r.cipher state).1 ++ (encode (r.cipher state).2 rest).1).take cut) = _
    by_cases fits : r.size ≤ cut
    · have split : ((r.cipher state).1 ++ (encode (r.cipher state).2 rest).1).take cut =
          (r.cipher state).1 ++ (encode (r.cipher state).2 rest).1.take (cut - r.size) := by
        rw [List.take_append, size, List.take_of_length_le (by omega)]
      have same : Whole cut (r :: rest) ↔ Whole (cut - r.size) rest := by
        constructor
        · rintro (zero | ⟨_, later⟩)
          · omega
          · exact later
        · exact fun later => Or.inr ⟨fits, later⟩
      rw [split, readEntries_cipher sound, ih, complete, if_pos fits]
      by_cases whole : Whole (cut - r.size) rest
      · rw [if_pos whole, if_pos (same.mpr whole)]
        rfl
      · rw [if_neg whole, if_neg (fun other => whole (same.mp other))]
        rfl
    · have split : ((r.cipher state).1 ++ (encode (r.cipher state).2 rest).1).take cut = (r.cipher state).1.take cut := by
        rw [List.take_append_of_le_length (by omega)]
      rw [split, complete, if_neg fits]
      by_cases zero : cut = 0
      · rw [if_pos (show Whole cut (r :: rest) from Or.inl zero), zero, List.take_zero, readEntries_nil]
        rfl
      · have torn : ¬Whole cut (r :: rest) := by
          rintro (none | ⟨whole, _⟩)
          · exact zero none
          · exact fits whole
        rw [if_neg torn]
        exact readEntries_torn sound state r (by omega) (by omega)

end Cut

/-- A file of the journal, and where it is cut off. -/
structure Piece where
  header : StreamHeader
  records : List Record
  cut : Nat

namespace Piece
variable (S : StreamCipher)

/-- The file as `journalFile` has written it. -/
def file (p : Piece) : JournalFile S :=
  p.records.foldl (fun f r => f.writeEntry r.entry r.name r.data) (.create p.header)

def text (p : Piece) : Str := (p.file S).text.take p.cut

/-- The records that are completely there. -/
def present (p : Piece) : List Record := complete (p.cut - streamHeaderSize) p.records

/-- The file ends in its header or at the end of a record. -/
def EndsWhole (p : Piece) : Prop := Whole (p.cut - streamHeaderSize) p.records

instance (p : Piece) : Decidable p.EndsWhole := decidableWhole _ _

variable {S}

theorem holds (p : Piece) : Holds (p.file S) p.header p.records := by
  have run : ∀ (records done : List Record) (f : JournalFile S), Holds f p.header done →
      Holds (records.foldl (fun f r => f.writeEntry r.entry r.name r.data) f) p.header (done ++ records) := by
    intro records
    induction records with
    | nil => exact fun done f held => by rwa [List.append_nil]
    | cons r rest ih =>
      intro done f held
      have later := ih (done ++ [r]) (f.writeEntry r.entry r.name r.data) (held.writeEntry r)
      rwa [List.append_assoc, List.singleton_append] at later
  exact run p.records [] (.create p.header) (Holds.create p.header)

theorem readFile_text (sound : S.Sound) (p : Piece) :
    readFile S (p.text S) = if p.EndsWhole then .ok (p.present.flatMap Record.plain) else .error .overread := by
  have size := p.header.size_eq
  by_cases inHeader : p.cut ≤ streamHeaderSize
  · -- nothing is left behind the header, whatever it reads as
    have none : p.cut - streamHeaderSize = 0 := by omega
    have short : (p.text S).drop streamHeaderSize = [] := by
      apply List.drop_eq_nil_of_le
      exact (List.length_take_le _ _).trans inHeader
    have whole : p.EndsWhole := by
      unfold EndsWhole
      rw [none]
      cases p.records with
      | nil => trivial
      | cons r rest => exact Or.inl rfl
    have empty : p.present = [] := by
      unfold present
      rw [none]
      cases p.records with
      | nil => rfl
      | cons r rest =>
        rw [complete, if_neg (by have := r.size_pos; omega)]
    rw [readFile, short, readEntries_nil, if_pos whole, empty]
    rfl
  · have split : p.text S = p.header.text ++ (encode (S.start p.header.text) p.records).1.take (p.cut - streamHeaderSize) := by
      rw [text, p.holds.text, List.take_append, size, List.take_of_length_le (by omega)]
    rw [readFile, split, readHeader_append, List.drop_left' size, readEntries_take sound]
    rfl

end Piece

section Torn
variable {S : StreamCipher}

theorem readAll_pieces (sound : S.Sound) (pieces : List Piece) :
    readAll S (pieces.map (Piece.text S)) =
      if ∀ p ∈ pieces, p.EndsWhole then .ok ((pieces.flatMap Piece.present).flatMap Record.plain) else .error .overread := by
  induction pieces with
  | nil =>
    rw [if_pos (fun p none => absurd none List.not_mem_nil)]
    rfl
  | cons p rest ih =>
    rw [List.map_cons, readAll, p.readFile_text sound, ih]
    by_cases here : p.EndsWhole
    · rw [if_pos here]
      by_cases later : ∀ p ∈ rest, p.EndsWhole
      · rw [if_pos later, if_pos (List.forall_mem_cons.mpr ⟨here, later⟩), List.flatMap_cons, List.flatMap_append]
        rfl
      · rw [if_neg later, if_neg (fun all => later (List.forall_mem_cons.mp all).2)]
        rfl
    · rw [if_neg here, if_neg (fun all => here (List.forall_mem_cons.mp all).1)]
      rfl

/-- A journal is replayed up to where its files end exactly when each of them ends in its
header or behind a record. -/
theorem tryReplay_pieces_iff (sound : S.Sound) (pieces : List Piece) :
    (∃ replayed, tryReplay S (pieces.map (Piece.text S)) = .ok replayed ∧ Replays replayed (Outstanding (pieces.flatMap Piece.present))) ↔
      ∀ p ∈ pieces, p.EndsWhole := by
  have read := readAll_pieces sound pieces
  constructor
  · rintro ⟨replayed, ran, _⟩
    by_contra torn
    rw [if_neg torn] at read
    rw [tryReplay, read] at ran
    cases ran
  · intro whole
    rw [if_pos whole] at read
    exact ⟨_, tryReplay_records read, replays_openRecords _⟩

end Torn

section Tagged

theorem tryReplay_pieces_iff_mkobject :
    (∃ replayed, tryReplay taggedStream ([⟨zeroHeader, [mkobjectA], 123⟩].map (Piece.text taggedStream)) = .ok replayed ∧
      Replays replayed (Outstanding ([⟨zeroHeader, [mkobjectA], 123⟩].flatMap Piece.present))) ↔
      ∀ p ∈ [(⟨zeroHeader, [mkobjectA], 123⟩ : Piece)], p.EndsWhole :=
  tryReplay_pieces_iff taggedStream_sound _

/-- The crash comes between an entry and its name. -/
theorem tryReplay_overread :
    ¬∃ replayed, tryReplay taggedStream ([⟨zeroHeader, [mkobjectA], 105⟩].map (Piece.text taggedStream)) = .ok replayed ∧
      Replays replayed (Outstanding ([⟨zeroHeader, [mkobjectA], 105⟩].flatMap Piece.present)) := by
  rintro ⟨replayed, ran, _⟩
  have read := readAll_pieces taggedStream_sound [⟨zeroHeader, [mkobjectA], 105⟩]
  rw [if_neg (by decide)] at read
  rw [tryReplay, read] at ran
  cases ran

end Tagged

end CloudCryptFS.Journal
