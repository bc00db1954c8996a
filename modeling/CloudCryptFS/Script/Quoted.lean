import CloudCryptFS.Script.Flat

/-! What the lexer makes of a quoted string. A backslash escapes the byte after it also
when it was itself escaped, so that two backslashes are read as two and the second one
takes the next byte away. -/

namespace CloudCryptFS.Script.Quoted
open Lexer Json Flat

/-- What the quoted text holds for a byte. -/
def quoteByte (c : Byte) : Str :=
  if c = quote then [backslash, quote] else if c = backslash then [backslash, backslash]
  else if c = 8 then [backslash, 98] else if c = 13 then [backslash, 114]
  else if c = 12 then [backslash, 102] else if c = 10 then [backslash, 110]
  else if c = 9 then [backslash, 116] else [c]

/-- Read or written by another byte when a backslash stands before it. -/
def escapes : Str := [backslash, quote, 110, 114, 116, 98, 102, 118, 8, 9, 10, 12, 13]

/-- Every backslash is followed by a byte that no escape is about, and no byte reads as
the end of the text. -/
def Readable (text : Str) : Prop :=
  eofByte ∉ text ∧ ∀ i, text[i]? = some backslash → ∃ c, text[i + 1]? = some c ∧ c ∉ escapes

section Scan

/-- The loop of a string literal before it has read its next byte. -/
def scanNext (st : Str) (this : Byte) (text : Str) : Str × Str :=
  match nextC text with
  | (none, rest) => (st, rest)
  | (some last, rest) => scanString quote rest st this last

@[simp]
theorem scanNext_nil (st : Str) (this : Byte) : scanNext st this [] = (st, []) := rfl

theorem scanNext_eof (st : Str) (this : Byte) (text : Str) : scanNext st this (eofByte :: text) = (st, text) := by
  simp [scanNext, nextC]

theorem scanNext_close {this : Byte} (fresh : this ≠ backslash) (st text : Str) :
    scanNext st this (quote :: text) = (st, text) := by
  rw [scanNext, nextC, if_neg (by decide)]
  dsimp only
  rw [scanString, if_pos ⟨fresh, rfl⟩]

theorem scanNext_byte {this last : Byte} (real : last ≠ eofByte) (inside : this = backslash ∨ last ≠ quote) (st text : Str) :
    scanNext st this (last :: text) =
      scanNext (if this = backslash then st.dropLast ++ unescape last else st ++ [last]) last text := by
  have stays : ¬(this ≠ backslash ∧ last = quote) := by
    intro ends
    exact inside.elim ends.1 (fun other => other ends.2)
  rw [scanNext, nextC, if_neg real]
  dsimp only
  rw [scanString, if_neg stays]
  cases text with
  | nil => rfl
  | cons next text =>
    by_cases last : next = eofByte
    · subst last
      simp only [if_true, scanNext_eof]
    · simp only [if_neg last, scanNext, nextC]

theorem scanNext_plain {this last : Byte} (fresh : this ≠ backslash) (real : last ≠ eofByte) (inside : last ≠ quote)
    (st text : Str) : scanNext st this (last :: text) = scanNext (st ++ [last]) last text := by
  rw [scanNext_byte real (Or.inr inside), if_neg fresh]

theorem scanNext_escaped {last : Byte} (real : last ≠ eofByte) (st text : Str) (c : Byte) :
    scanNext (st ++ [c]) backslash (last :: text) = scanNext (st ++ unescape last) last text := by
  rw [scanNext_byte real (Or.inl rfl), if_pos rfl, List.dropLast_concat]

/-- The tokens of a quoted text: what the loop gathers, and whatever follows. -/
theorem lexLoop_quoted (tokenizeComment : Bool) (fuel : Nat) (text comment : Str) :
    lexLoop tokenizeComment (fuel + 1) (some quote) text comment =
      ⟨(scanNext [] 0 text).1, .string, comment⟩ ::
        lexLoop tokenizeComment fuel (nextC (scanNext [] 0 text).2).1 (nextC (scanNext [] 0 text).2).2 [] := by
  have still : spanC isspace (some quote) text = ([], some quote, text) := by
    cases text <;> rfl
  rw [lexLoop, still]
  dsimp only
  rw [if_pos (Or.inl rfl)]
  unfold scanNext
  cases nextC text with
  | mk first rest => cases first <;> rfl

theorem lex_quoted (tokenizeComment : Bool) (text : Str) :
    lex (quote :: text) tokenizeComment =
      ⟨(scanNext [] 0 text).1, .string, []⟩ ::
        lexLoop tokenizeComment (text.length + 2) (nextC (scanNext [] 0 text).2).1
          (nextC (scanNext [] 0 text).2).2 [] := by
  rw [← lexLoop_quoted]
  rfl

end Scan

section Read

/-- What is read back; `after` says that the last byte was a backslash, which is then
written twice and waits to be taken away by the next byte. -/
def readBack : (after : Bool) → Str → Str
  | false, [] => []
  | true, [] => [quote]
  | false, c :: text => if c = backslash then backslash :: readBack true text else c :: readBack false text
  | true, c :: text =>
    if c = backslash then backslash :: backslash :: readBack true text
    else if quoteByte c = [c] then unescape c ++ readBack false text
    else backslash :: c :: readBack false text

theorem quoteByte_backslash : quoteByte backslash = [backslash, backslash] := by decide

theorem quoteByte_cases {c : Byte} (other : c ≠ backslash) :
    (quoteByte c = [c] ∧ c ≠ quote) ∨
      ∃ x, quoteByte c = [backslash, x] ∧ unescape x = [c] ∧ x ≠ backslash ∧ x ≠ eofByte := by
  by_cases special : c = quote ∨ c = 8 ∨ c = 13 ∨ c = 12 ∨ c = 10 ∨ c = 9
  · right
    rcases special with rfl | rfl | rfl | rfl | rfl | rfl
    · exact ⟨quote, by decide⟩
    · exact ⟨98, by decide⟩
    · exact ⟨114, by decide⟩
    · exact ⟨102, by decide⟩
    · exact ⟨110, by decide⟩
    · exact ⟨116, by decide⟩
  · push Not at special
    exact Or.inl ⟨by simp [quoteByte, other, special], special.1⟩

/-- Outside an escape a quoted byte is read as it was. -/
theorem scanNext_fresh (st text : Str) {this c : Byte} (fresh : this ≠ backslash) (real : c ≠ eofByte)
    (other : c ≠ backslash) :
    ∃ last, last ≠ backslash ∧ scanNext st this (quoteByte c ++ text) = scanNext (st ++ [c]) last text := by
  obtain ⟨plain, inside⟩ | ⟨x, escape, back, ordinary, byte⟩ := quoteByte_cases other
  · rw [plain, List.singleton_append, scanNext_plain fresh real inside]
    exact ⟨c, other, rfl⟩
  · rw [escape, List.cons_append, List.singleton_append, scanNext_plain fresh (by decide) (by decide),
      scanNext_escaped byte, back]
    exact ⟨x, ordinary, rfl⟩

/-- After a doubled backslash it takes the second backslash away or, when it was
quoted itself, leaves it. -/
theorem scanNext_after (st text : Str) {c : Byte} (real : c ≠ eofByte) (other : c ≠ backslash) :
    ∃ last, last ≠ backslash ∧
      scanNext (st ++ [backslash, backslash]) backslash (quoteByte c ++ text) =
        scanNext (st ++ backslash :: if quoteByte c = [c] then unescape c else [backslash, c]) last text := by
  have ends : st ++ [backslash, backslash] = (st ++ [backslash]) ++ [backslash] := by simp
  obtain ⟨plain, _⟩ | ⟨x, escape, back, ordinary, byte⟩ := quoteByte_cases other
  · rw [ends, if_pos plain, plain, List.singleton_append, scanNext_escaped real, List.append_assoc]
    exact ⟨c, other, rfl⟩
  · have twice : unescape backslash = [backslash] ++ [backslash] := by decide
    have quoted : ¬quoteByte c = [c] := by simp [escape]
    rw [ends, if_neg quoted, escape, List.cons_append, List.singleton_append, scanNext_escaped (by decide), twice,
      ← List.append_assoc, scanNext_escaped byte, back]
    exact ⟨x, ordinary, by simp⟩

theorem readBack_after_cons {c : Byte} (other : c ≠ backslash) (text : Str) :
    readBack true (c :: text) =
      (if quoteByte c = [c] then unescape c else [backslash, c]) ++ readBack false text := by
  rw [readBack, if_neg other]
  by_cases plain : quoteByte c = [c]
  · rw [if_pos plain, if_pos plain]
  · rw [if_neg plain, if_neg plain, List.cons_append, List.singleton_append]

theorem scanNext_flatMap (text : Str) (real : eofByte ∉ text) (st : Str) :
    (∀ this, this ≠ backslash → ¬[backslash, quote] <:+: text →
      scanNext st this (text.flatMap quoteByte ++ [quote]) = (st ++ readBack false text, [])) ∧
    (¬[backslash, quote] <:+: backslash :: text →
      scanNext (st ++ [backslash, backslash]) backslash (text.flatMap quoteByte ++ [quote]) =
        (st ++ backslash :: readBack true text, [])) := by
  induction text generalizing st with
  | nil =>
    constructor
    · intro this fresh _
      rw [List.flatMap_nil, List.nil_append, scanNext_close fresh]
      simp [readBack]
    · intro _
      have ends : st ++ [backslash, backslash] = (st ++ [backslash]) ++ [backslash] := by simp
      rw [List.flatMap_nil, List.nil_append, ends, scanNext_escaped (by decide)]
      simp [readBack, show unescape quote = [quote] by decide]
  | cons c text ih =>
    have byte : c ≠ eofByte := fun same => real (same ▸ List.mem_cons_self)
    have ih := ih (fun member => real (List.mem_cons_of_mem _ member))
    rw [List.flatMap_cons, List.append_assoc]
    constructor
    · intro this fresh clean
      have cleanTail : ¬[backslash, quote] <:+: text := fun inside => clean (List.infix_cons inside)
      by_cases slash : c = backslash
      · subst slash
        have twice : unescape backslash = [backslash] ++ [backslash] := by decide
        rw [quoteByte_backslash, List.cons_append, List.singleton_append, scanNext_plain fresh byte (by decide),
          scanNext_escaped byte, twice]
        exact (ih st).2 clean
      · obtain ⟨last, fresh, next⟩ := scanNext_fresh st (text.flatMap quoteByte ++ [quote]) fresh byte slash
        rw [next, (ih _).1 last fresh cleanTail, readBack, if_neg slash, List.append_assoc, List.singleton_append]
    · intro clean
      have cleanHere : ¬[backslash, quote] <:+: c :: text := fun inside => clean (List.infix_cons inside)
      have cleanTail : ¬[backslash, quote] <:+: text := fun inside => cleanHere (List.infix_cons inside)
      by_cases slash : c = backslash
      · subst slash
        have twice : unescape backslash = [backslash] ++ [backslash] := by decide
        have split : st ++ [backslash, backslash] = (st ++ [backslash]) ++ [backslash] := by simp
        rw [quoteByte_backslash, List.cons_append, List.singleton_append, split, scanNext_escaped byte, twice,
          ← List.append_assoc (st ++ [backslash]), scanNext_escaped byte, twice]
        simpa [readBack] using (ih (st ++ [backslash, backslash])).2 cleanHere
      · obtain ⟨last, fresh, next⟩ := scanNext_after st (text.flatMap quoteByte ++ [quote]) byte slash
        rw [next, (ih _).1 last fresh cleanTail, readBack_after_cons slash, List.append_assoc, List.cons_append]

theorem readBack_length (after : Bool) (text : Str) : text.length ≤ (readBack after text).length := by
  have single (c : Byte) : 1 ≤ (unescape c).length := by
    unfold unescape
    split_ifs <;> simp
  induction text generalizing after with
  | nil => exact Nat.zero_le _
  | cons c text ih =>
    have fresh := ih false
    have escaped := ih true
    have taken := single c
    cases after <;> simp only [readBack] <;> split_ifs <;>
      simp only [List.length_cons, List.length_append] <;> omega

/-- The first byte of the rest is left alone by the backslash before it. -/
def KeptFirst (text : Str) : Prop := ∃ c, text[0]? = some c ∧ c ∉ escapes

theorem readable_cons (c : Byte) (text : Str) :
    Readable (c :: text) ↔ c ≠ eofByte ∧ (c = backslash → KeptFirst text) ∧ Readable text := by
  constructor
  · intro readable
    have tail : ∀ i, text[i]? = some backslash → ∃ d, text[i + 1]? = some d ∧ d ∉ escapes :=
      fun i => by simpa using readable.2 (i + 1)
    refine ⟨fun same => readable.1 (same ▸ List.mem_cons_self), fun slash => ?_,
      fun member => readable.1 (List.mem_cons_of_mem _ member), tail⟩
    simpa [KeptFirst] using readable.2 0 (by simp [slash])
  · intro parts
    refine ⟨fun member => ?_, fun i => ?_⟩
    · exact (List.mem_cons.mp member).elim (fun same => parts.1 same.symm) parts.2.2.1
    · cases i with
      | zero => simpa [KeptFirst] using parts.2.1
      | succ i => simpa using parts.2.2.2 i

theorem keptFirst_cons (c : Byte) (text : Str) : KeptFirst (c :: text) ↔ c ∉ escapes := by
  simp [KeptFirst]

theorem escaped_of_quoted {c : Byte} (quoted : quoteByte c ≠ [c]) : c ∈ escapes := by
  by_contra other
  simp only [escapes, List.mem_cons, List.not_mem_nil, or_false, not_or] at other
  exact quoted (by simp [quoteByte, other])

theorem unescape_self {c : Byte} (other : c ≠ backslash) (inside : c ≠ quote) (plain : quoteByte c = [c]) :
    unescape c = [c] ↔ c ∉ escapes := by
  constructor
  · intro back member
    simp only [escapes, List.mem_cons, List.not_mem_nil, or_false] at member
    rcases member with rfl | rfl | rfl | rfl | rfl | rfl | rfl | rfl | rfl | rfl | rfl | rfl | rfl <;>
      revert back plain <;> first | exact absurd rfl other | exact absurd rfl inside | decide
  · intro fresh
    simp only [escapes, List.mem_cons, List.not_mem_nil, or_false, not_or] at fresh
    simp [unescape, fresh]

theorem unescape_single {c : Byte} (other : c ≠ backslash) : ∃ d, unescape c = [d] := by
  unfold unescape
  split_ifs <;> exact ⟨_, rfl⟩

theorem readBack_eq (text : Str) (real : eofByte ∉ text) :
    (¬[backslash, quote] <:+: text → (readBack false text = text ↔ Readable text)) ∧
      (¬[backslash, quote] <:+: backslash :: text →
        (readBack true text = text ↔ KeptFirst text ∧ Readable text)) := by
  induction text with
  | nil =>
    refine ⟨fun _ => ⟨fun _ => ⟨by simp, by simp⟩, fun _ => rfl⟩, fun _ => ?_⟩
    simp [readBack, KeptFirst]
  | cons c text ih =>
    have byte : c ≠ eofByte := fun same => real (same ▸ List.mem_cons_self)
    have ih := ih (fun member => real (List.mem_cons_of_mem _ member))
    constructor
    · intro clean
      have cleanTail : ¬[backslash, quote] <:+: text := fun inside => clean (List.infix_cons inside)
      rw [readable_cons, readBack]
      by_cases slash : c = backslash
      · subst slash
        rw [if_pos rfl, List.cons.injEq, (ih.2 clean)]
        simp [byte]
      · rw [if_neg slash, List.cons.injEq, ih.1 cleanTail]
        simp [byte, slash]
    · intro clean
      have cleanHere : ¬[backslash, quote] <:+: c :: text := fun inside => clean (List.infix_cons inside)
      have cleanTail : ¬[backslash, quote] <:+: text := fun inside => cleanHere (List.infix_cons inside)
      have inside : c ≠ quote := fun same => clean ⟨[], text, by rw [same]; rfl⟩
      rw [readable_cons, keptFirst_cons]
      by_cases slash : c = backslash
      · have long := readBack_length true text
        have differs : readBack true (c :: text) ≠ c :: text := by
          intro same
          have lengths := congrArg List.length same
          simp only [readBack, if_pos slash, List.length_cons] at lengths
          omega
        exact iff_of_false differs (fun both => both.1 (slash ▸ by decide))
      · rw [readBack_after_cons slash]
        by_cases plain : quoteByte c = [c]
        · obtain ⟨d, single⟩ := unescape_single slash
          rw [if_pos plain, ← unescape_self slash inside plain, ← ih.1 cleanTail, single]
          simp [byte, slash]
        · have long := readBack_length false text
          have differs : [backslash, c] ++ readBack false text ≠ c :: text := by
            intro same
            have lengths := congrArg List.length same
            simp only [List.length_cons, List.length_append, List.length_nil] at lengths
            omega
          rw [if_neg plain]
          exact iff_of_false differs (fun both => both.1 (escaped_of_quoted plain))

end Read

section Short

theorem unescape_real {c : Byte} (real : c ≠ eofByte) : eofByte ∉ unescape c := by
  unfold unescape
  split_ifs <;> first | decide | simp [Ne.symm real]

/-- The loop stops at what it has, or goes on with at most one byte more. -/
theorem scanNext_cases (st : Str) (this c : Byte) (text : Str) (stored : this = backslash → st ≠ []) :
    (scanNext st this (c :: text)).1 = st ∨
      ∃ st', st' ≠ [] ∧ st'.length ≤ st.length + 1 ∧ (eofByte ∈ st' → eofByte ∈ st) ∧
        scanNext st this (c :: text) = scanNext st' c text := by
  by_cases last : c = eofByte
  · subst last
    exact Or.inl (by rw [scanNext_eof])
  by_cases escaped : this = backslash
  · have filled := List.length_pos_iff.mpr (stored escaped)
    refine Or.inr ⟨st.dropLast ++ unescape c, ?_, ?_, ?_, ?_⟩
    · unfold unescape
      split_ifs <;> simp
    · have taken : (unescape c).length ≤ 2 := by
        unfold unescape
        split_ifs <;> simp
      simp only [List.length_append, List.length_dropLast]
      omega
    · intro member
      exact (List.mem_append.mp member).elim List.mem_of_mem_dropLast (fun inside => absurd inside (unescape_real last))
    · rw [scanNext_byte last (Or.inl escaped), if_pos escaped]
  by_cases closing : c = quote
  · subst closing
    exact Or.inl (by rw [scanNext_close escaped])
  · refine Or.inr ⟨st ++ [c], by simp, by simp, fun member => ?_, scanNext_plain escaped last closing st text⟩
    simpa [Ne.symm last] using member

theorem scanNext_noEof (text st : Str) (this : Byte) (stored : this = backslash → st ≠ []) (real : eofByte ∉ st) :
    eofByte ∉ (scanNext st this text).1 := by
  induction text generalizing st this with
  | nil => exact real
  | cons c text ih =>
    obtain same | ⟨st', filled, _, kept, next⟩ := scanNext_cases st this c text stored
    · rwa [same]
    · rw [next]
      exact ih st' c (fun _ => filled) (fun member => real (kept member))

theorem scanNext_length_le (text st : Str) (this : Byte) (stored : this = backslash → st ≠ []) :
    (scanNext st this (text ++ [quote])).1.length ≤ st.length + text.length := by
  induction text generalizing st this with
  | nil =>
    by_cases escaped : this = backslash
    · have filled := List.length_pos_iff.mpr (stored escaped)
      rw [List.nil_append, scanNext_byte (by decide) (Or.inl escaped), if_pos escaped]
      simp [show unescape quote = [quote] by decide]
      omega
    · simp [scanNext_close escaped]
  | cons c text ih =>
    obtain same | ⟨st', filled, longer, _, next⟩ := scanNext_cases st this c (text ++ [quote]) stored
    · rw [List.cons_append, same]
      omega
    · have rest := ih st' c (fun _ => filled)
      rw [List.cons_append, next, List.length_cons]
      omega

/-- A text that holds a quoted quote is put out as it is and comes back shorter. -/
theorem scanNext_length_lt (text st : Str) (this : Byte) (stored : this = backslash → st ≠ [])
    (holds : [backslash, quote] <:+: text) :
    (scanNext st this (text ++ [quote])).1.length < st.length + text.length := by
  induction text generalizing st this with
  | nil => simp at holds
  | cons c text ih =>
    obtain same | ⟨st', filled, longer, _, next⟩ := scanNext_cases st this c (text ++ [quote]) stored
    · rw [List.cons_append, same, List.length_cons]
      omega
    rw [List.cons_append, next, List.length_cons]
    obtain here | later := List.infix_cons_iff.mp holds
    · obtain ⟨rfl, rest, rfl⟩ : c = backslash ∧ ∃ rest, text = quote :: rest := by
        obtain ⟨rest, same⟩ := here
        simp only [List.cons_append, List.nil_append, List.cons.injEq] at same
        exact ⟨same.1.symm, rest, same.2.symm⟩
      have positive := List.length_pos_iff.mpr filled
      have taken : unescape quote = [quote] := by decide
      rw [List.cons_append, scanNext_byte (by decide) (Or.inl rfl), if_pos rfl, taken]
      have bound := scanNext_length_le rest (st'.dropLast ++ [quote]) quote (fun same => absurd same (by decide))
      simp only [List.length_append, List.length_dropLast, List.length_cons, List.length_nil] at bound ⊢
      omega
    · have rest := ih st' c (fun _ => filled) later
      omega

end Short

section Quotestring

theorem quotestring_clean {text : Str} (clean : ¬[backslash, quote] <:+: text) :
    quotestring text = quote :: (text.flatMap quoteByte ++ [quote]) := by
  rw [quotestring, if_neg clean]
  rfl

theorem quotestring_raw {text : Str} (holds : [backslash, quote] <:+: text) :
    quotestring text = quote :: (text ++ [quote]) := by
  rw [quotestring, if_pos holds]
  rfl

theorem not_readable_of_inside {text : Str} (holds : [backslash, quote] <:+: text) : ¬Readable text := by
  obtain ⟨before, after, rfl⟩ := holds
  intro readable
  obtain ⟨c, here, kept⟩ := readable.2 before.length (by simp)
  have same : c = quote := by simpa using here.symm
  exact kept (same ▸ by decide)

/-- The lexer undoes the quoting of the readable texts, and of no other. -/
theorem lex_quotestring (tokenizeComment : Bool) (text : Str) :
    (lex (quotestring text) tokenizeComment).map (fun token => (token.type, token.content)) =
        [(.string, text), (.eof, [])] ↔ Readable text := by
  by_cases holds : [backslash, quote] <:+: text
  · rw [quotestring_raw holds, lex_quoted, List.map_cons]
    refine iff_of_false (fun same => ?_) (not_readable_of_inside holds)
    have content : (scanNext [] 0 (text ++ [quote])).1 = text := congrArg Prod.snd (List.cons.inj same).1
    have short := scanNext_length_lt text [] 0 (by decide) holds
    rw [content] at short
    simp at short
  · rw [quotestring_clean holds, lex_quoted, List.map_cons]
    by_cases last : eofByte ∈ text
    · refine iff_of_false (fun same => ?_) (fun readable => readable.1 last)
      have content : (scanNext [] 0 (text.flatMap quoteByte ++ [quote])).1 = text :=
        congrArg Prod.snd (List.cons.inj same).1
      have real := scanNext_noEof (text.flatMap quoteByte ++ [quote]) [] 0 (by decide) (by simp)
      rw [content] at real
      exact real last
    · have ends (fuel : Nat) : lexLoop tokenizeComment (fuel + 1) none [] [] = [⟨[], .eof, []⟩] := rfl
      rw [(scanNext_flatMap text last []).1 0 (by decide) holds, ← (readBack_eq text last).1 holds]
      simp only [nextC, ends, List.nil_append, List.map_cons, List.map_nil, List.cons.injEq, Prod.mk.injEq, true_and,
        and_true]

/-- A backslash before an `n` comes back as the end of a line. -/
theorem lex_quotestring_newline :
    (lex (quotestring (lit "C:\\new"))).map (fun token => (token.type, token.content)) ≠
      [(.string, lit "C:\\new"), (.eof, [])] := by
  decide +kernel

end Quotestring

end CloudCryptFS.Script.Quoted
