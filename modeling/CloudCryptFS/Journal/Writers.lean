import CloudCryptFS.Journal.Replay
import CloudCryptFS.Util.Schedule

/-! Several threads on one file of the journal. A call of `writeEntry` is one or two
messages on the stream and then one append to the file, and no lock holds these steps
together. -/

namespace CloudCryptFS.Journal
open Util Bytes Script.Lexer

/-- A call of `writeEntry` between its first message and its append. -/
structure Writing where
  record : Record
  encryptedContent : Str
  complete : Bool

/-- A `journalFile` that is shared: the calls are in the order of their first messages, and
`finished` has the records of the calls that have returned. -/
structure Shared (S : StreamCipher) where
  cryptostream : S.State
  text : Str
  calls : List Writing
  finished : List Record

/-- One step: a call begins with its first message, sends its second one, or appends. -/
inductive WriterStep where
  | message (r : Record)
  | data (call : Nat)
  | append (call : Nat)

namespace Shared
variable {S : StreamCipher}

def create (header : StreamHeader) : Shared S := ⟨S.start header.text, header.text, [], []⟩

def step : WriterStep → Shared S → Option (Shared S)
  | .message r, s =>
    let content := S.push s.cryptostream r.entry.serialize
    some { s with cryptostream := content.2, calls := s.calls ++ [⟨r, content.1, (r.name ++ r.data).length = 0⟩] }
  | .data call, s =>
    match s.calls[call]? with
    | some w =>
      if w.complete then none
      else
        let data := S.push s.cryptostream (w.record.name ++ w.record.data)
        some { s with
          cryptostream := data.2
          calls := s.calls.set call { w with encryptedContent := w.encryptedContent ++ data.1, complete := true } }
    | none => none
  | .append call, s =>
    match s.calls[call]? with
    | some w =>
      if w.complete then
        some { s with text := s.text ++ w.encryptedContent, calls := s.calls.eraseIdx call, finished := s.finished ++ [w.record] }
      else none
    | none => none

abbrev run : List WriterStep → Shared S → Option (Shared S) := Schedule.run step

/-- The second message follows the first one directly, and the oldest call appends first. -/
def Ordered (s : Shared S) : WriterStep → Prop
  | .message _ => True
  | .data call => call + 1 = s.calls.length
  | .append call => call = 0

abbrev OrderedRun : List WriterStep → Shared S → Prop := Schedule.OrderedRun step Ordered

/-- What a call has sent moves the stream from one state to another. -/
def Sent (before : S.State) (w : Writing) (after : S.State) : Prop :=
  if w.complete then w.record.cipher before = (w.encryptedContent, after)
  else (w.record.name ++ w.record.data).length ≠ 0 ∧ S.push before w.record.entry.serialize = (w.encryptedContent, after)

/-- The messages of the calls, one after the other. -/
def Chain (before : S.State) : List Writing → S.State → Prop
  | [], after => before = after
  | w :: calls, after => ∃ mid, Sent before w mid ∧ Chain mid calls after

theorem chain_append_singleton {before after : S.State} {calls : List Writing} {w : Writing} :
    Chain before (calls ++ [w]) after ↔ ∃ mid, Chain before calls mid ∧ Sent mid w after := by
  induction calls generalizing before with
  | nil =>
    constructor
    · rintro ⟨mid, sent, rfl⟩
      exact ⟨before, rfl, sent⟩
    · rintro ⟨mid, rfl, sent⟩
      exact ⟨after, sent, rfl⟩
  | cons first calls ih =>
    constructor
    · rintro ⟨mid, sent, chain⟩
      obtain ⟨last, front, final⟩ := ih.mp chain
      exact ⟨last, ⟨mid, sent, front⟩, final⟩
    · rintro ⟨last, ⟨mid, sent, front⟩, final⟩
      exact ⟨mid, sent, ih.mpr ⟨last, front, final⟩⟩

/-- The file holds the finished calls, and the others go on from there. -/
structure Inv (header : StreamHeader) (s : Shared S) : Prop where
  text : s.text = header.text ++ (encode (S.start header.text) s.finished).1
  chain : Chain (encode (S.start header.text) s.finished).2 s.calls s.cryptostream

theorem inv_create (header : StreamHeader) : Inv header (create header : Shared S) :=
  ⟨(List.append_nil _).symm, rfl⟩

theorem data_spec {s t : Shared S} {call : Nat} (stepped : s.step (.data call) = some t) :
    ∃ w, s.calls[call]? = some w ∧ w.complete = false ∧
      t = { s with
        cryptostream := (S.push s.cryptostream (w.record.name ++ w.record.data)).2
        calls := s.calls.set call
          { w with encryptedContent := w.encryptedContent ++ (S.push s.cryptostream (w.record.name ++ w.record.data)).1, complete := true } } := by
  simp only [step] at stepped
  cases found : s.calls[call]? with
  | none =>
    rw [found] at stepped
    cases stepped
  | some w =>
    rw [found] at stepped
    dsimp only at stepped
    cases incomplete : w.complete with
    | true =>
      rw [if_pos incomplete] at stepped
      cases stepped
    | false =>
      rw [if_neg (by rw [incomplete]; exact Bool.false_ne_true)] at stepped
      exact ⟨w, rfl, incomplete, (Option.some.inj stepped).symm⟩

theorem append_spec {s t : Shared S} {call : Nat} (stepped : s.step (.append call) = some t) :
    ∃ w, s.calls[call]? = some w ∧ w.complete = true ∧
      t = { s with text := s.text ++ w.encryptedContent, calls := s.calls.eraseIdx call, finished := s.finished ++ [w.record] } := by
  simp only [step] at stepped
  cases found : s.calls[call]? with
  | none =>
    rw [found] at stepped
    cases stepped
  | some w =>
    rw [found] at stepped
    dsimp only at stepped
    cases complete : w.complete with
    | false =>
      rw [if_neg (by rw [complete]; exact Bool.false_ne_true)] at stepped
      cases stepped
    | true =>
      rw [if_pos complete] at stepped
      exact ⟨w, rfl, complete, (Option.some.inj stepped).symm⟩

theorem inv_step {header : StreamHeader} {s t : Shared S} (inv : Inv header s) {next : WriterStep} (ordered : s.Ordered next)
    (stepped : s.step next = some t) : Inv header t := by
  cases next with
  | message r =>
    cases stepped
    refine ⟨inv.text, chain_append_singleton.mpr ⟨s.cryptostream, inv.chain, ?_⟩⟩
    unfold Sent Record.cipher
    dsimp only
    by_cases bare : (r.name ++ r.data).length = 0
    · rw [if_pos (decide_eq_true bare), if_neg (not_not.mpr bare)]
    · rw [if_neg (by rw [decide_eq_false bare]; exact Bool.false_ne_true)]
      exact ⟨bare, rfl⟩
  | data call =>
    obtain ⟨w, found, incomplete, rfl⟩ := data_spec stepped
    have last : call + 1 = s.calls.length := ordered
    obtain ⟨before, final, shape⟩ : ∃ before final, s.calls = before ++ [final] := by
      rcases List.eq_nil_or_concat s.calls with none | ⟨before, final, shape⟩
      · rw [none] at last
        cases last
      · exact ⟨before, final, shape.trans (List.concat_eq_append)⟩
    have position : call = before.length := by
      rw [shape, List.length_append, List.length_singleton] at last
      omega
    have same : final = w := by
      rw [shape, position, List.getElem?_append_right le_rfl, Nat.sub_self] at found
      exact Option.some.inj found
    subst same
    obtain ⟨mid, front, sent⟩ := chain_append_singleton.mp (shape ▸ inv.chain)
    unfold Sent at sent
    rw [incomplete, if_neg Bool.false_ne_true] at sent
    obtain ⟨held, pushed⟩ := sent
    refine ⟨inv.text, ?_⟩
    dsimp only
    rw [shape, position, List.set_append_right _ _ le_rfl, Nat.sub_self]
    refine chain_append_singleton.mpr ⟨mid, front, ?_⟩
    unfold Sent Record.cipher
    dsimp only
    rw [if_pos rfl, if_pos held, pushed]
  | append call =>
    obtain ⟨w, found, complete, rfl⟩ := append_spec stepped
    cases (show call = 0 from ordered)
    cases calls : s.calls with
    | nil =>
      rw [calls] at found
      cases found
    | cons first rest =>
      rw [calls] at found
      cases found
      obtain ⟨mid, sent, chain⟩ : Chain _ (w :: rest) _ := calls ▸ inv.chain
      unfold Sent at sent
      rw [if_pos complete] at sent
      have longer : encode (S.start header.text) (s.finished ++ [w.record]) =
          ((encode (S.start header.text) s.finished).1 ++ w.encryptedContent, mid) := by
        rw [encode_append]
        simp only [encode, sent, List.append_nil]
      refine ⟨?_, ?_⟩
      · dsimp only
        rw [longer, inv.text, List.append_assoc]
      · dsimp only
        rw [longer]
        exact chain

end Shared

section Decoding
variable {S : StreamCipher}

/-- As long as the messages of a call stay together and the calls append in the order of
their messages, the file is read back as one record for each call that has returned. -/
theorem readFile_ordered (sound : S.Sound) {header : StreamHeader} {steps : List WriterStep} {s : Shared S}
    (ordered : Shared.OrderedRun steps (Shared.create header : Shared S)) (ran : Shared.run steps (Shared.create header) = some s) :
    readFile S s.text = .ok (s.finished.flatMap Record.plain) := by
  have inv := Schedule.invariant_run (fun inv here stepped => Shared.inv_step inv here stepped) (Shared.inv_create header) ordered ran
  have read := readEntries_encode sound (S.start header.text) s.finished []
  rw [List.append_nil, readEntries_nil] at read
  rw [readFile, inv.text, readHeader_append, List.drop_left' header.size_eq, read]
  simp only [Except.map, List.append_nil]

theorem readEntries_forged {state : S.State} {rest : Str} (enough : entryEncSize ≤ rest.length)
    (forged : S.pull state (rest.take entryEncSize) = none) : readEntries S state rest = .error .forged := by
  have there : rest ≠ [] := by
    intro none
    rw [none, List.length_nil, entryEncSize, encryptionOverhead, JournalEntry.width] at enough
    omega
  rw [readEntries, dif_neg there, if_neg (not_lt.mpr enough), forged]

/-- The entry of the owner, and a closing record between its steps. -/
def oneByOne : List WriterStep := [.message mkobjectA, .data 0, .append 0, .message (.close 7), .append 0]

theorem readFile_ordered_oneByOne : ∃ s : Shared taggedStream, Shared.run oneByOne (Shared.create zeroHeader) = some s ∧
    readFile taggedStream s.text = .ok (s.finished.flatMap Record.plain) :=
  ⟨_, rfl, readFile_ordered taggedStream_sound (show Shared.OrderedRun oneByOne (Shared.create zeroHeader : Shared taggedStream) from
    ⟨trivial, rfl, rfl, trivial, rfl, trivial⟩) rfl⟩

def between : List WriterStep := [.message mkobjectA, .message (.close 7), .data 0, .append 1, .append 0]

/-- A close that comes between the two messages of an entry makes the file unreadable. -/
theorem readFile_between : ∃ s : Shared taggedStream, Shared.run between (Shared.create zeroHeader) = some s ∧ s.calls = [] ∧
    readFile taggedStream s.text = .error .forged := by
  refine ⟨_, rfl, rfl, ?_⟩
  apply readEntries_forged
  · decide +kernel
  · apply Option.isNone_iff_eq_none.mp
    decide +kernel

end Decoding

end CloudCryptFS.Journal
