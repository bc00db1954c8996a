import CloudCryptFS.Script.Json
import Mathlib.Data.List.TakeWhile

/-! Flat objects: every value is one integer. A directory is stored as such an
object, from file names to bucket indexes. Names go out unescaped and come back
through the string literals of the lexer, so the text is read back in step with
the writer as long as no name holds a byte that the lexer treats specially. -/

namespace CloudCryptFS.Script.Flat
open Util Lexer Json

variable {F : Type} [FloatLib F]

def flat (entries : List (Str × Int)) : JSON F :=
  .mk (SortedEntries.mapValues (fun value => .int [value]) entries) []

/-- A byte that a string literal keeps as it is. -/
def PlainByte (c : Byte) : Prop := c ≠ quote ∧ c ≠ backslash ∧ c ≠ eofByte

def PlainName (name : Str) : Prop := ∀ c ∈ name, PlainByte c

instance (c : Byte) : Decidable (PlainByte c) := inferInstanceAs (Decidable (_ ∧ _))

instance (name : Str) : Decidable (PlainName name) := inferInstanceAs (Decidable (∀ c ∈ name, _))

section Digits

/-- The byte of a decimal digit; all others are no digits. -/
private theorem digit_byte {c : Char} (digit : c.isDigit = true) :
    isdigit (UInt8.ofNat c.toNat) = true ∧ (UInt8.ofNat c.toNat).toNat = c.toNat := by
  rw [Char.isDigit_iff_toNat] at digit
  change 48 ≤ c.toNat ∧ c.toNat ≤ 57 at digit
  have small : (UInt8.ofNat c.toNat).toNat = c.toNat := by
    rw [UInt8.toNat_ofNat']
    omega
  refine ⟨?_, small⟩
  simp only [isdigit, Bool.and_eq_true, decide_eq_true_eq, UInt8.le_iff_toNat_le, small]
  exact digit

theorem digitsOf_isdigit (n : Nat) : ∀ c ∈ digitsOf n, isdigit c = true := by
  intro c member
  obtain ⟨digit, inside, rfl⟩ := List.mem_map.mp member
  exact (digit_byte (Nat.isDigit_of_mem_toDigits (by decide) (by decide) inside)).1

theorem digitsOf_ne_nil (n : Nat) : digitsOf n ≠ [] := by
  simp [digitsOf, Nat.toDigits_ne_nil]

theorem digitsValue_digitsOf (n : Nat) : digitsValue (digitsOf n) = n := by
  have agree : ∀ (digits : List Char) (start : Nat), (∀ c ∈ digits, c.isDigit = true) →
      (digits.map (fun c => UInt8.ofNat c.toNat)).foldl
        (fun (value : Nat) (c : Byte) => 10 * value + (c.toNat - 48)) start =
      Nat.ofDigitChars 10 digits start := by
    intro digits
    induction digits with
    | nil => intro start _; rfl
    | cons c digits ih =>
      intro start all
      have here := digit_byte (all c List.mem_cons_self)
      simp only [List.map_cons, List.foldl_cons, here.2, Nat.ofDigitChars_cons]
      exact ih _ (fun d member => all d (List.mem_cons_of_mem _ member))
  have digits : ∀ c ∈ Nat.toDigits 10 n, c.isDigit = true := fun c member =>
    Nat.isDigit_of_mem_toDigits (by decide) (by decide) member
  rw [digitsValue, digitsOf, agree _ 0 digits]
  exact Nat.ofDigitChars_ten_toDigits

theorem isdigit_bounds {c : Byte} (digit : isdigit c = true) : 48 ≤ c.toNat ∧ c.toNat ≤ 57 := by
  simpa [isdigit, UInt8.le_iff_toNat_le] using digit

theorem ne_of_isdigit {c d : Byte} (digit : isdigit c = true) (other : isdigit d = false) : c ≠ d := by
  rintro rfl
  rw [digit] at other
  cases other

theorem isspace_of_isdigit {c : Byte} (digit : isdigit c = true) : isspace c = false := by
  have bounds := isdigit_bounds digit
  simp only [isspace, Bool.or_eq_false_iff, beq_eq_false_iff_ne, Bool.and_eq_false_iff, decide_eq_false_iff_not,
    UInt8.le_iff_toNat_le, ne_eq, ← UInt8.toNat_inj]
  simp only [UInt8.reduceToNat]
  omega

/-- `std::stoi` reads a natural number back as long as it is an `int`. -/
theorem stoi_digitsOf (n : Nat) :
    stoi (digitsOf n) = if n ≤ intMax then some (n : Int) else none := by
  obtain ⟨first, rest, shape⟩ := List.exists_cons_of_ne_nil (digitsOf_ne_nil n)
  have digits := digitsOf_isdigit n
  rw [shape] at digits
  have noBlank := isspace_of_isdigit (digits first List.mem_cons_self)
  have noMinus : first ≠ 45 := ne_of_isdigit (digits first List.mem_cons_self) (by decide)
  have noPlus : first ≠ 43 := ne_of_isdigit (digits first List.mem_cons_self) (by decide)
  have whole : (first :: rest).takeWhile isdigit = first :: rest :=
    List.takeWhile_eq_self_iff.mpr digits
  have value := digitsValue_digitsOf n
  rw [shape] at value ⊢
  simp only [stoi, List.dropWhile_cons_of_neg (by simp [noBlank] : ¬isspace first = true), sign,
    if_neg noMinus, if_neg noPlus, whole, value, if_neg (List.cons_ne_nil first rest), Bool.false_eq_true, if_false]

end Digits

section Writer

def pairText (entry : Str × Int) : Str := quote :: entry.1 ++ [quote, 58] ++ intToString entry.2

/-- What follows the first entry: a separator before each further one, and the end. -/
def tailText (entries : List (Str × Int)) : Str := entries.flatMap (fun entry => 44 :: pairText entry) ++ [125]

theorem intToString_ne_nil (i : Int) : intToString i ≠ [] := by
  unfold intToString
  split
  · exact List.cons_ne_nil _ _
  · exact digitsOf_ne_nil _

private theorem serializeValues_flat (entries : List (Str × Int)) :
    serializeValues (F := F) 0 [] (SortedEntries.mapValues (fun value => .int [value]) entries) =
      entries.flatMap (fun entry => pairText entry ++ [44]) := by
  induction entries with
  | nil => simp [SortedEntries.mapValues, serializeValues]
  | cons entry entries ih =>
    simp only [SortedEntries.mapValues, List.map_cons, List.flatMap_cons] at ih ⊢
    simp [serializeValues, serializeVariant, bracketed, intToString_ne_nil, ih, pairText]

/-- The separator moves from behind each entry to its front. -/
private theorem separators_rotate (entry : Str × Int) (entries : List (Str × Int)) :
    (entry :: entries).flatMap (fun entry => pairText entry ++ [44]) =
      pairText entry ++ entries.flatMap (fun entry => 44 :: pairText entry) ++ [44] := by
  induction entries generalizing entry with
  | nil => simp
  | cons next entries ih =>
    rw [List.flatMap_cons, ih next]
    simp

theorem serialize_nil : serialize (F := F) 0 (flat []) = [123, 125] := by
  simp [flat, serialize, SortedEntries.mapValues, serializeValues]

theorem serialize_cons (entry : Str × Int) (entries : List (Str × Int)) :
    serialize (F := F) 0 (flat (entry :: entries)) = 123 :: pairText entry ++ tailText entries := by
  rw [flat, serialize, serializeValues_flat, separators_rotate]
  simp only [if_true, List.append_nil, ← List.append_assoc, List.getLast?_concat, List.dropLast_concat, tailText]
  simp

end Writer

section Reader

private theorem spanC_stop {p : Byte → Bool} {c : Byte} (stop : p c = false) (rest : Str) :
    spanC p (some c) rest = ([], some c, rest) := by
  cases rest <;> simp [spanC, stop]

private theorem spanC_run {p : Byte → Bool} {run : Str} {first stop : Byte} (inside : ∀ c ∈ first :: run, p c = true)
    (ends : p stop = false) (real : stop ≠ eofByte) (rest : Str) (noEof : p eofByte = false) :
    spanC p (some first) (run ++ stop :: rest) = (first :: run, some stop, rest) := by
  induction run generalizing first with
  | nil =>
    simp only [List.nil_append, spanC, inside first List.mem_cons_self, if_true, if_neg real, spanC_stop ends]
  | cons next run ih =>
    have later : ∀ c ∈ next :: run, p c = true := fun c member => inside c (List.mem_cons_of_mem _ member)
    have nextReal : next ≠ eofByte := by
      rintro rfl
      rw [later _ List.mem_cons_self] at noEof
      cases noEof
    simp only [List.cons_append, spanC, inside first List.mem_cons_self, if_true, if_neg nextReal, ih later]

private theorem scanString_plain (name after st : Str) (this first : Byte) (fresh : this ≠ backslash)
    (plain : PlainName (first :: name)) :
    scanString quote (name ++ quote :: after) st this first = (st ++ first :: name, after) := by
  induction name generalizing st this first with
  | nil =>
    have here := plain first List.mem_cons_self
    have closing : scanString quote after (st ++ [first]) first quote = (st ++ [first], after) := by
      rw [scanString, if_pos ⟨here.2.1, rfl⟩]
    rw [List.nil_append, scanString, if_neg (fun both => here.1 both.2)]
    simp only [if_neg fresh, if_neg (by decide : ¬quote = eofByte), closing]
  | cons next name ih =>
    have here := plain first List.mem_cons_self
    have later : PlainName (next :: name) := fun c member => plain c (List.mem_cons_of_mem _ member)
    rw [List.cons_append, scanString, if_neg (fun both => here.1 both.2)]
    simp only [if_neg fresh, if_neg (later next List.mem_cons_self).2.2]
    rw [ih (st ++ [first]) first next here.2.1 later]
    simp

theorem lexLoop_string (tokenizeComment : Bool) (fuel : Nat) {name : Str} (plain : PlainName name)
    (after comment : Str) :
    lexLoop tokenizeComment (fuel + 1) (some quote) (name ++ quote :: after) comment =
      ⟨name, .string, comment⟩ :: lexLoop tokenizeComment fuel (nextC after).1 (nextC after).2 [] := by
  rw [lexLoop, spanC_stop (by decide)]
  cases name with
  | nil =>
    have closing : scanString quote after [] 0 quote = ([], after) := by
      rw [scanString, if_pos ⟨by decide, rfl⟩]
    simp [nextC, closing, show ¬quote = eofByte by decide]
  | cons first name =>
    have real : ¬first = eofByte := (plain first List.mem_cons_self).2.2
    simp [nextC, real, scanString_plain name after [] 0 first (by decide) plain]

/-- A byte that starts no blank, literal, word, number or comment. -/
def Punctuation (c : Byte) : Prop :=
  isspace c = false ∧ ¬(c = quote ∨ c = apostrophe) ∧ ¬(c = 35 ∨ c = 36 ∨ c = 95 ∨ isalpha c) ∧
    ¬(isdigit c ∨ c = 46) ∧ c ≠ 47

instance (c : Byte) : Decidable (Punctuation c) := inferInstanceAs (Decidable (_ ∧ _))

theorem lexLoop_operator (tokenizeComment : Bool) (fuel : Nat) {c : Byte} {type : TokenType} (rest comment : Str)
    (mark : Punctuation c) (alone : find operators [c, toByte (nextC rest).1] = none)
    (found : find operators [c] = some ([c], type)) :
    lexLoop tokenizeComment (fuel + 1) (some c) rest comment =
      ⟨[c], type, []⟩ :: lexLoop tokenizeComment fuel (nextC rest).1 (nextC rest).2 comment := by
  obtain ⟨blank, literal, word, number, slash⟩ := mark
  rw [lexLoop, spanC_stop blank]
  simp only [if_neg literal, if_neg word, if_neg number, slash, false_and, if_false, alone, found]

theorem lexLoop_number (tokenizeComment : Bool) (fuel : Nat) {digits : Str} {first stop : Byte}
    (inside : ∀ c ∈ first :: digits, isdigit c = true) (ends : isdigit stop = false) (noDot : stop ≠ 46)
    (real : stop ≠ eofByte) (rest comment : Str) :
    lexLoop tokenizeComment (fuel + 1) (some first) (digits ++ stop :: rest) comment =
      ⟨first :: digits, .number, []⟩ :: lexLoop tokenizeComment fuel (some stop) rest comment := by
  have digit := inside first List.mem_cons_self
  have bounds := isdigit_bounds digit
  have noBlank := isspace_of_isdigit digit
  have noLiteral : ¬(first = quote ∨ first = apostrophe) := by
    rintro (rfl | rfl) <;> exact absurd digit (by decide)
  have noWord : ¬(first = 35 ∨ first = 36 ∨ first = 95 ∨ isalpha first = true) := by
    rintro (rfl | rfl | rfl | alpha)
    · exact absurd digit (by decide)
    · exact absurd digit (by decide)
    · exact absurd digit (by decide)
    · simp only [isalpha, Bool.or_eq_true, Bool.and_eq_true, decide_eq_true_eq, UInt8.le_iff_toNat_le,
        UInt8.reduceToNat] at alpha
      omega
  have run : spanC (fun c => isdigit c || c == 46) (some first) (digits ++ stop :: rest) =
      (first :: digits, some stop, rest) :=
    spanC_run (fun c member => by simp [inside c member]) (by simp [ends, noDot]) real rest (by decide)
  rw [lexLoop, spanC_stop noBlank]
  simp only [if_neg noLiteral, if_neg noWord, digit, true_or, if_true, run]

end Reader

section Tokens

def valueTokens (value : Int) : List Token :=
  if value < 0 then [⟨[45], .op_sub, []⟩, ⟨digitsOf value.natAbs, .number, []⟩]
  else [⟨digitsOf value.natAbs, .number, []⟩]

def pairTokens (entry : Str × Int) : List Token :=
  ⟨entry.1, .string, []⟩ :: ⟨[58], .jsonassign, []⟩ :: valueTokens entry.2

def endTokens : List Token := [⟨[125], .compound_r, []⟩, ⟨[], .eof, []⟩]

def tailTokens (entries : List (Str × Int)) : List Token :=
  entries.flatMap (fun entry => ⟨[44], .seperator, []⟩ :: pairTokens entry) ++ endTokens

/-- What follows starts with a byte that ends a number. -/
def Stops (rest : Str) : Prop := ∃ stop after, rest = stop :: after ∧ isdigit stop = false ∧ stop ≠ 46 ∧ stop ≠ eofByte

private theorem tailText_stops (entries : List (Str × Int)) : Stops (tailText entries) := by
  cases entries with
  | nil => exact ⟨125, [], rfl, by decide, by decide, by decide⟩
  | cons entry entries => exact ⟨44, _, rfl, by decide, by decide, by decide⟩

theorem lexLoop_digits (fuel n : Nat) {rest : Str} (stops : Stops rest) :
    lexLoop false (fuel + 1) (nextC (digitsOf n ++ rest)).1 (nextC (digitsOf n ++ rest)).2 [] =
      ⟨digitsOf n, .number, []⟩ :: lexLoop false fuel (nextC rest).1 (nextC rest).2 [] := by
  obtain ⟨first, digits, shape⟩ := List.exists_cons_of_ne_nil (digitsOf_ne_nil n)
  obtain ⟨stop, after, tail, ends, noDot, real⟩ := stops
  have inside := digitsOf_isdigit n
  rw [shape] at inside
  have firstReal : first ≠ eofByte := ne_of_isdigit (inside first List.mem_cons_self) (by decide)
  rw [shape, tail]
  simp only [List.cons_append, nextC, if_neg firstReal, if_neg real]
  exact lexLoop_number false fuel inside ends noDot real after []

theorem lexLoop_value (fuel : Nat) (value : Int) {rest : Str} (stops : Stops rest) :
    lexLoop false (fuel + (valueTokens value).length) (nextC (intToString value ++ rest)).1 (nextC (intToString value ++ rest)).2 [] =
      valueTokens value ++ lexLoop false fuel (nextC rest).1 (nextC rest).2 [] := by
  unfold valueTokens intToString
  split_ifs with negative
  · obtain ⟨first, digits, shape⟩ := List.exists_cons_of_ne_nil (digitsOf_ne_nil value.natAbs)
    have digit : isdigit first = true := digitsOf_isdigit value.natAbs first (shape ▸ List.mem_cons_self)
    have real : first ≠ eofByte := ne_of_isdigit digit (by decide)
    -- no operator of two bytes is a minus and a digit
    have alone : find operators [45, toByte (nextC (digitsOf value.natAbs ++ rest)).1] = none := by
      have notMore : first ≠ 62 := ne_of_isdigit digit (by decide)
      have notMinus : first ≠ 45 := ne_of_isdigit digit (by decide)
      have notEqual : first ≠ 61 := ne_of_isdigit digit (by decide)
      simp [shape, nextC, real, toByte, find, operators, lit, Ne.symm notMore, Ne.symm notMinus, Ne.symm notEqual]
    have minus := lexLoop_operator false (fuel + 1) (digitsOf value.natAbs ++ rest) []
      (by decide : Punctuation 45) alone (by decide : find operators [45] = some ([45], .op_sub))
    simp only [List.cons_append, nextC, if_neg (by decide : ¬(45 : Byte) = eofByte), List.length_cons, List.length_nil]
    rw [show fuel + (0 + 1 + 1) = fuel + 1 + 1 from rfl, minus, lexLoop_digits _ _ stops]
    rfl
  · exact lexLoop_digits fuel value.natAbs stops

private theorem lexLoop_pair (fuel : Nat) {entry : Str × Int} (plain : PlainName entry.1)
    (entries : List (Str × Int)) :
    lexLoop false (fuel + (pairTokens entry).length) (some quote)
        (entry.1 ++ [quote, 58] ++ intToString entry.2 ++ tailText entries) [] =
      pairTokens entry ++ lexLoop false fuel (nextC (tailText entries)).1 (nextC (tailText entries)).2 [] := by
  have name := lexLoop_string false (fuel + (valueTokens entry.2).length + 1) plain
    (58 :: (intToString entry.2 ++ tailText entries)) []
  have colon := lexLoop_operator false (fuel + (valueTokens entry.2).length)
    (intToString entry.2 ++ tailText entries) [] (by decide : Punctuation 58) (by simp [find, operators, lit])
    (by decide : find operators [58] = some ([58], .jsonassign))
  have shape : entry.1 ++ [quote, 58] ++ intToString entry.2 ++ tailText entries =
      entry.1 ++ quote :: 58 :: (intToString entry.2 ++ tailText entries) := by simp
  simp only [nextC, if_neg (by decide : ¬(58 : Byte) = eofByte)] at name
  rw [shape, pairTokens, List.length_cons, List.length_cons, ← Nat.add_assoc, ← Nat.add_assoc, name, colon,
    lexLoop_value _ _ (tailText_stops entries)]
  rfl

private theorem lexLoop_tail (fuel : Nat) (entries : List (Str × Int)) (plain : ∀ entry ∈ entries, PlainName entry.1) :
    lexLoop false (fuel + (tailTokens entries).length) (nextC (tailText entries)).1 (nextC (tailText entries)).2 [] =
      tailTokens entries := by
  induction entries with
  | nil =>
    have closing := lexLoop_operator false (fuel + 1) [] [] (by decide : Punctuation 125)
      (by simp [find, operators, lit]) (by decide : find operators [125] = some ([125], .compound_r))
    exact closing
  | cons entry entries ih =>
    have later := ih (fun other member => plain other (List.mem_cons_of_mem _ member))
    have shape : tailText (entry :: entries) =
        44 :: quote :: (entry.1 ++ [quote, 58] ++ intToString entry.2 ++ tailText entries) := by
      simp [tailText, pairText]
    have tokens : tailTokens (entry :: entries) =
        ⟨[44], .seperator, []⟩ :: (pairTokens entry ++ tailTokens entries) := by simp [tailTokens]
    have amount : fuel + (tailTokens (entry :: entries)).length =
        fuel + (tailTokens entries).length + (pairTokens entry).length + 1 := by
      rw [tokens, List.length_cons, List.length_append]
      omega
    have comma := lexLoop_operator false (fuel + (tailTokens entries).length + (pairTokens entry).length)
      (quote :: (entry.1 ++ [quote, 58] ++ intToString entry.2 ++ tailText entries)) [] (by decide : Punctuation 44)
      (by simp [find, operators, lit]) (by decide : find operators [44] = some ([44], .seperator))
    rw [amount, shape, tokens]
    simp only [nextC, if_neg (by decide : ¬(44 : Byte) = eofByte), if_neg (by decide : ¬quote = eofByte)] at comma ⊢
    rw [comma, lexLoop_pair _ (plain entry List.mem_cons_self), later]

theorem valueTokens_length_le (value : Int) : (valueTokens value).length ≤ (intToString value).length := by
  have digits := List.length_pos_of_ne_nil (digitsOf_ne_nil value.natAbs)
  unfold valueTokens intToString
  split_ifs
  · simp only [List.length_cons, List.length_nil]
    omega
  · simpa using Nat.succ_le_of_lt digits

private theorem pairTokens_length_le (entry : Str × Int) : (pairTokens entry).length ≤ (pairText entry).length := by
  have value := valueTokens_length_le entry.2
  simp only [pairTokens, pairText, List.length_cons, List.length_append, List.length_nil]
  omega

private theorem tailTokens_length_le (entries : List (Str × Int)) :
    (tailTokens entries).length ≤ (tailText entries).length + 1 := by
  induction entries with
  | nil => simp [tailTokens, tailText, endTokens]
  | cons entry entries ih =>
    have pair := pairTokens_length_le entry
    simp only [tailTokens, tailText, List.flatMap_cons, List.length_append, List.length_cons] at ih ⊢
    omega

theorem lexLoop_blank (tokenizeComment : Bool) (fuel : Nat) {c : Byte} (blank : isspace c = true) (rest comment : Str) :
    lexLoop tokenizeComment fuel (some c) rest comment = lexLoop tokenizeComment fuel (nextC rest).1 (nextC rest).2 comment := by
  have skip : spanC isspace (some c) rest =
      (c :: (spanC isspace (nextC rest).1 (nextC rest).2).1, (spanC isspace (nextC rest).1 (nextC rest).2).2) := by
    cases rest <;> simp [spanC, nextC, blank]
  cases fuel with
  | zero => rfl
  | succ fuel => rw [lexLoop, lexLoop, skip]

private theorem lex_open {c : Byte} (rest : Str) (real : c ≠ eofByte) :
    lex (123 :: c :: rest) = ⟨[123], .compound_l, []⟩ :: lexLoop false (rest.length + 3) (some c) rest [] := by
  have brace := lexLoop_operator false (rest.length + 3) (c :: rest) [] (by decide : Punctuation 123)
    (by simp [find, operators, lit]) (by decide : find operators [123] = some ([123], .compound_l))
  rw [lex]
  simp only [List.length_cons]
  rw [lexLoop_blank false _ (by decide) _ []]
  simp only [nextC, if_neg (by decide : ¬(123 : Byte) = eofByte)]
  rw [brace]
  simp only [nextC, if_neg real]

theorem lex_nil : lex (serialize (F := F) 0 (flat [])) = ⟨[123], .compound_l, []⟩ :: endTokens := by
  rw [serialize_nil, lex_open [] (by decide)]
  exact congrArg _ (lexLoop_tail 1 [] (by simp))

theorem lex_cons (entry : Str × Int) (entries : List (Str × Int))
    (plain : ∀ other ∈ entry :: entries, PlainName other.1) :
    lex (serialize (F := F) 0 (flat (entry :: entries))) =
      ⟨[123], .compound_l, []⟩ :: (pairTokens entry ++ tailTokens entries) := by
  have pair := pairTokens_length_le entry
  have tail := tailTokens_length_le entries
  have later : ∀ other ∈ entries, PlainName other.1 := fun other member => plain other (List.mem_cons_of_mem _ member)
  have shape : 123 :: pairText entry ++ tailText entries =
      123 :: quote :: (entry.1 ++ [quote, 58] ++ intToString entry.2 ++ tailText entries) := by simp [pairText]
  have amount : (entry.1 ++ [quote, 58] ++ intToString entry.2 ++ tailText entries).length + 1 =
      (pairText entry).length + (tailText entries).length := by
    simp only [pairText, List.length_append, List.length_cons, List.length_nil]
    omega
  obtain ⟨spare, enough⟩ : ∃ spare, (entry.1 ++ [quote, 58] ++ intToString entry.2 ++ tailText entries).length + 3 =
      spare + (tailTokens entries).length + (pairTokens entry).length := by
    refine ⟨(pairText entry).length + (tailText entries).length + 2 -
      ((tailTokens entries).length + (pairTokens entry).length), ?_⟩
    omega
  rw [serialize_cons, shape, lex_open _ (by decide), enough, lexLoop_pair _ (plain entry List.mem_cons_self),
    lexLoop_tail _ _ later]

end Tokens

section Parser

/-- The parser after a value: the name is still on the stack. -/
def afterValue (json : JSON F) (name : Str) : Parser F where
  tokenIsValue := true
  objStack := [⟨json, [], 0⟩]
  nameStack := [⟨name, 0, false⟩]

/-- The parser before a name. -/
def beforeName (json : JSON F) : Parser F where
  objStack := [⟨json, [], 0⟩]

private theorem storeScalar_flat {before : List (Str × Int)} {entry : Str × Int}
    (above : ∀ other ∈ before, other.1 < entry.1) :
    storeScalar (F := F) (.int entry.2) ⟨entry.1, 0, false⟩ (flat before) = .ok (flat (before ++ [entry])) := by
  have absent : SortedEntries.find? entry.1 (flat (F := F) before).values = none := by
    rw [flat, JSON.values, SortedEntries.find?_mapValues, Option.map_eq_none_iff, SortedEntries.find?_eq_none_iff]
    exact fun other member => ne_of_lt (above other member)
  have stored : SortedEntries.set entry.1 (ListVariant.int [entry.2]) (flat (F := F) before).values =
      (flat (before ++ [entry])).values := by
    simp only [flat, JSON.values]
    rw [SortedEntries.set_mapValues (fun value => ListVariant.int [value]), SortedEntries.set_append_of_lt _ above]
  simp only [storeScalar, JSON.value, absent, Option.getD_none, toInts, JSON.setValue, ok_bind, putAt, List.length_nil,
    List.nil_append, List.replicate, List.set_cons_zero, stored]
  rfl

theorem tokenScalar_digits (negate : Bool) (n : Nat) :
    tokenScalar (F := F) negate ⟨digitsOf n, .number, []⟩ =
      if n ≤ intMax then .ok (.int (if negate then -(n : Int) else n)) else .error .exception := by
  have noDot : 46 ∉ digitsOf n := fun member => absurd (digitsOf_isdigit n 46 member) (by decide)
  simp only [tokenScalar, if_neg (by decide : ¬TokenType.number = TokenType.string), if_neg noDot, stoi_digitsOf]
  split_ifs <;> rfl

/-- The tokens of one entry store it, or fail when the value is no `int`. -/
private theorem parse_pair {before : List (Str × Int)} {entry : Str × Int}
    (above : ∀ other ∈ before, other.1 < entry.1) (tokens : List Token) :
    parse (beforeName (F := F) (flat before)) (pairTokens entry ++ tokens) =
      if entry.2.natAbs ≤ intMax then parse (afterValue (flat (before ++ [entry])) entry.1) tokens
      else .error .exception := by
  have stored := storeScalar_flat (F := F) above
  obtain ⟨name, value⟩ := entry
  unfold pairTokens valueTokens
  by_cases negative : value < 0
  · have magnitude : -(value.natAbs : Int) = value := by omega
    simp only [if_pos negative, List.cons_append, List.nil_append, parse, step, stepScalar, beforeName,
      Bool.false_eq_true, if_false, if_true, pure, Except.pure, ok_bind, tokenScalar_digits, magnitude]
    split_ifs with small
    · simp only [ok_bind, stored, afterValue]
    · rfl
  · have magnitude : (value.natAbs : Int) = value := by omega
    simp only [if_neg negative, List.cons_append, List.nil_append, parse, step, stepScalar, beforeName,
      Bool.false_eq_true, if_false, if_true, pure, Except.pure, ok_bind, tokenScalar_digits, magnitude]
    split_ifs with small
    · simp only [ok_bind, stored, afterValue]
    · rfl

private theorem parse_tail (before : List (Str × Int)) (entries : List (Str × Int)) (name : Str)
    (sorted : SortedEntries.Sorted (before ++ entries)) :
    parse (afterValue (F := F) (flat before) name) (tailTokens entries) =
      if ∀ entry ∈ entries, entry.2.natAbs ≤ intMax then .ok (flat (before ++ entries)) else .error .exception := by
  induction entries generalizing before name with
  | nil => simp [tailTokens, endTokens, parse, step, afterValue]
  | cons entry entries ih =>
    have above : ∀ other ∈ before, other.1 < entry.1 := by
      intro other member
      have order := List.pairwise_append.mp (by simpa [SortedEntries.Sorted] using sorted)
      exact order.2.2 other.1 (List.mem_map_of_mem member) entry.1 (by simp)
    have tokens : tailTokens (entry :: entries) =
        ⟨[44], .seperator, []⟩ :: (pairTokens entry ++ tailTokens entries) := by simp [tailTokens]
    have comma : parse (afterValue (F := F) (flat before) name)
        (⟨[44], .seperator, []⟩ :: (pairTokens entry ++ tailTokens entries)) =
        parse (beforeName (flat before)) (pairTokens entry ++ tailTokens entries) := by
      simp [parse, step, afterValue, beforeName]
    have later := ih (before ++ [entry]) entry.1 (by simpa using sorted)
    rw [tokens, comma, parse_pair above, later]
    simp only [List.append_assoc, List.cons_append, List.nil_append, List.forall_mem_cons]
    by_cases small : entry.2.natAbs ≤ intMax
    · simp only [small, true_and, if_true]
    · simp only [small, false_and, if_false]

/-- A flat object with plain names is read back as it was, unless a value is no `int`. -/
theorem unserialize_serialize_of_plain (entries : List (Str × Int)) (sorted : SortedEntries.Sorted entries)
    (plain : ∀ entry ∈ entries, PlainName entry.1) :
    unserialize (F := F) (serialize (F := F) 0 (flat entries)) =
      if ∀ entry ∈ entries, entry.2.natAbs ≤ intMax then .ok (flat entries) else .error .exception := by
  cases entries with
  | nil =>
    rw [unserialize, lex_nil (F := F)]
    simp [parse, step, endTokens, flat, JSON.empty, SortedEntries.mapValues]
  | cons entry entries =>
    have opened : parse ({} : Parser F) (⟨[123], .compound_l, []⟩ :: (pairTokens entry ++ tailTokens entries)) =
        parse (beforeName (F := F) (flat [])) (pairTokens entry ++ tailTokens entries) := by
      simp [parse, step, beforeName, flat, JSON.empty, SortedEntries.mapValues]
    rw [unserialize, lex_cons (F := F) entry entries plain, opened, parse_pair (by simp),
      parse_tail _ _ _ (by simpa using sorted)]
    simp only [List.nil_append, List.cons_append, List.forall_mem_cons]
    by_cases small : entry.2.natAbs ≤ intMax
    · simp only [small, true_and, if_true]
    · simp only [small, false_and, if_false]

end Parser

end CloudCryptFS.Script.Flat
