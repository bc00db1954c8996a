import CloudCryptFS.Script.Flat

/-! Documents: objects of integers, strings, lists of these, and further objects. Their
texts, compact or with one entry a line, have the same tokens. -/

namespace CloudCryptFS.Script.Documents
open Util Lexer Json Flat

mutual
/-- An object, entry by entry. A list of one integer or string is the value itself. -/
inductive Doc where
  | nil
  | cons (name : Str) (value : Value) (rest : Doc)
inductive Value where
  | ints (stor : List Int)
  | strs (stor : List Str)
  | obj (doc : Doc)
  | objs (docs : Docs)
inductive Docs where
  | nil
  | cons (doc : Doc) (rest : Docs)
end

mutual
def Doc.values (F : Type) : Doc → List (Str × ListVariant F)
  | .nil => []
  | .cons name value rest => (name, value.variant F) :: rest.values F

def Value.variant (F : Type) : Value → ListVariant F
  | .ints stor => .int stor
  | .strs stor => .str stor
  | .obj doc => .obj [some (.mk (doc.values F) [])]
  | .objs docs => .obj (docs.objects F)

def Docs.objects (F : Type) : Docs → List (Option (JSON F))
  | .nil => []
  | .cons doc rest => some (.mk (doc.values F) []) :: rest.objects F
end

def Doc.json (F : Type) (doc : Doc) : JSON F := .mk (doc.values F) []

/-- A printable character of ASCII other than the quote and the backslash. -/
def Printable (c : Byte) : Prop := 32 ≤ c ∧ c ≤ 126 ∧ c ≠ quote ∧ c ≠ backslash

instance (c : Byte) : Decidable (Printable c) := inferInstanceAs (Decidable (_ ∧ _))

def Docs.length : Docs → Nat
  | .nil => 0
  | .cons _ rest => rest.length + 1

def Doc.keys : Doc → List Str
  | .nil => []
  | .cons name _ rest => name :: rest.keys

mutual
/-- Printable names in order, printable strings, 32-bit integers, and lists of objects
with at least two. -/
def Doc.Valid : Doc → Prop
  | .nil => True
  | .cons name value rest => (∀ c ∈ name, Printable c) ∧ (∀ other ∈ rest.keys, name < other) ∧ value.Valid ∧ rest.Valid

def Value.Valid : Value → Prop
  | .ints stor => stor ≠ [] ∧ ∀ i ∈ stor, -2 ^ 31 ≤ i ∧ i < 2 ^ 31
  | .strs stor => stor ≠ [] ∧ ∀ text ∈ stor, ∀ c ∈ text, Printable c
  | .obj doc => doc.Valid
  | .objs docs => 2 ≤ docs.length ∧ docs.Valid

def Docs.Valid : Docs → Prop
  | .nil => True
  | .cons doc rest => doc.Valid ∧ rest.Valid
end

section Texts

def newline (pretty : Nat) : Str := if pretty = 0 then [] else [10]

def deeper (pretty : Nat) : Nat := if pretty = 0 then 0 else pretty + 1

/-- The line of the closing brace. -/
def closing (pretty : Nat) : Str := (if pretty = 0 then [] else 10 :: if pretty > 1 then tabs (pretty - 1) else []) ++ [125]

def braces (pretty : Nat) (body : Str) : Str :=
  if body = [] then 123 :: closing pretty else 123 :: newline pretty ++ body ++ closing pretty

/-- A name as it stands before its value. -/
def nameText (pretty : Nat) (name : Str) : Str :=
  (if pretty = 0 then [] else tabs pretty) ++ [quote] ++ name ++ [quote, 58]

mutual
/-- What stands between the braces. -/
def Doc.body (pretty : Nat) : Doc → Str
  | .nil => []
  | .cons name value .nil => nameText pretty name ++ value.text pretty
  | .cons name value (.cons other next rest) =>
    nameText pretty name ++ value.text pretty ++ (44 :: newline pretty ++ Doc.body pretty (.cons other next rest))

def Value.text (pretty : Nat) : Value → Str
  | .ints stor => bracketed (stor.map intToString)
  | .strs stor => bracketed (stor.map quotestring)
  | .obj doc => braces (deeper pretty) (doc.body (deeper pretty))
  | .objs docs => [91] ++ docs.text (deeper pretty) ++ [93]

def Docs.text (pretty : Nat) : Docs → Str
  | .nil => []
  | .cons doc .nil => braces pretty (doc.body pretty)
  | .cons doc (.cons next rest) => braces pretty (doc.body pretty) ++ 44 :: Docs.text pretty (.cons next rest)
end

variable {F : Type} [FloatLib F]

theorem body_ne_nil (pretty : Nat) (name : Str) (value : Value) (rest : Doc) : (Doc.cons name value rest).body pretty ≠ [] := by
  cases rest <;> simp [Doc.body, nameText]

/-- A text does not end with a separator. -/
def EndsWell (text : Str) : Prop := ∃ front last, text = front ++ [last] ∧ last ≠ 44 ∧ last ≠ 10

theorem EndsWell.append {text : Str} (ends : EndsWell text) (front : Str) : EndsWell (front ++ text) := by
  obtain ⟨rest, last, shaped, noComma, noNewline⟩ := ends
  exact ⟨front ++ rest, last, by rw [shaped, List.append_assoc], noComma, noNewline⟩

theorem EndsWell.ne_nil {text : Str} (ends : EndsWell text) : text ≠ [] := by
  obtain ⟨front, last, shaped, _⟩ := ends
  rw [shaped]
  exact List.append_ne_nil_of_right_ne_nil front (List.cons_ne_nil last [])

theorem endsWell_intToString (i : Int) : EndsWell (intToString i) := by
  have digits : EndsWell (digitsOf i.natAbs) := by
    have last := List.dropLast_concat_getLast (digitsOf_ne_nil i.natAbs)
    have digit := digitsOf_isdigit i.natAbs _ (List.getLast_mem (digitsOf_ne_nil i.natAbs))
    exact ⟨_, _, last.symm, ne_of_isdigit digit (by decide), ne_of_isdigit digit (by decide)⟩
  unfold intToString
  split
  · exact digits.append [45]
  · exact digits

theorem endsWell_quotestring (text : Str) : EndsWell (quotestring text) := by
  unfold quotestring
  split
  · exact ⟨quote :: text, quote, rfl, by decide, by decide⟩
  · exact ⟨_, quote, rfl, by decide, by decide⟩

theorem endsWell_bracketed {texts : List Str} (filled : texts ≠ []) (each : ∀ text ∈ texts, EndsWell text) :
    EndsWell (bracketed texts) := by
  match texts with
  | [] => exact absurd rfl filled
  | [text] => exact each text List.mem_cons_self
  | first :: second :: rest => exact ⟨_, 93, rfl, by decide, by decide⟩

theorem endsWell_braces (pretty : Nat) (body : Str) : EndsWell (braces pretty body) := by
  have closed : EndsWell (closing pretty) := ⟨_, 125, rfl, by decide, by decide⟩
  unfold braces
  split
  · exact closed.append [123]
  · exact closed.append _

theorem endsWell_text {value : Value} (valid : value.Valid) (pretty : Nat) : EndsWell (value.text pretty) := by
  cases value with
  | ints stor =>
    refine endsWell_bracketed (by simpa using valid.1) (fun text member => ?_)
    obtain ⟨i, _, rfl⟩ := List.mem_map.mp member
    exact endsWell_intToString i
  | strs stor =>
    refine endsWell_bracketed (by simpa using valid.1) (fun text member => ?_)
    obtain ⟨inner, _, rfl⟩ := List.mem_map.mp member
    exact endsWell_quotestring inner
  | obj doc => exact endsWell_braces _ _
  | objs docs => exact ⟨_, 93, rfl, by decide, by decide⟩

theorem endsWell_body {doc : Doc} (valid : doc.Valid) (filled : doc ≠ .nil) (pretty : Nat) : EndsWell (doc.body pretty) := by
  match doc with
  | .nil => exact absurd rfl filled
  | .cons name value .nil => exact (endsWell_text valid.2.2.1 pretty).append _
  | .cons name value (.cons other next rest) =>
    have later : EndsWell (Doc.body pretty (.cons other next rest)) := endsWell_body valid.2.2.2 (fun empty => nomatch empty) pretty
    unfold Doc.body
    exact (later.append (44 :: newline pretty)).append _

theorem dropTrailing_separators {text : Str} (ends : EndsWell text) : dropTrailing (text ++ [44, 10]) = text := by
  obtain ⟨front, last, rfl, noComma, noNewline⟩ := ends
  simp [dropTrailing, noComma, noNewline]

/-- The printer drops what it has put behind the last entry. -/
theorem serialize_eq (pretty : Nat) {entries : List (Str × ListVariant F)} {body : Str} (ends : body ≠ [] → EndsWell body)
    (written : serializeValues pretty [] entries = if body = [] then [] else body ++ 44 :: newline pretty) :
    serialize pretty (.mk entries []) = braces pretty body := by
  rw [serialize, written]
  by_cases compact : pretty = 0
  · subst compact
    by_cases empty : body = []
    · simp [braces, closing, empty]
    · have last : (123 :: (body ++ [44])).getLast? = some 44 := by rw [← List.cons_append, List.getLast?_concat]
      have dropped : (123 :: (body ++ [44])).dropLast = 123 :: body := by rw [← List.cons_append, List.dropLast_concat]
      simp [braces, closing, newline, empty, last, dropped]
  · by_cases empty : body = []
    · simp [braces, closing, compact, empty, dropTrailing]
    · have kept := dropTrailing_separators ((ends empty).append [123, 10])
      simp only [braces, closing, newline, if_neg compact, if_neg empty, List.append_assoc, List.cons_append, List.nil_append] at kept ⊢
      rw [kept]
      simp

mutual
theorem serializeValues_eq (F : Type) [FloatLib F] (pretty : Nat) : ∀ doc : Doc, doc.Valid →
    serializeValues pretty [] (doc.values F) = if doc.body pretty = [] then [] else doc.body pretty ++ 44 :: newline pretty
  | .nil, _ => rfl
  | .cons name value .nil, valid => by
    have written := serializeVariant_eq F pretty value valid.2.2.1
    have filled := (endsWell_text valid.2.2.1 pretty).ne_nil
    rw [if_neg (body_ne_nil pretty name value .nil)]
    simp [Doc.values, Doc.body, serializeValues, SortedEntries.find?, written, filled, nameText, newline]
  | .cons name value (.cons other next rest), valid => by
    have written := serializeVariant_eq F pretty value valid.2.2.1
    have filled := (endsWell_text valid.2.2.1 pretty).ne_nil
    have later := serializeValues_eq F pretty (.cons other next rest) valid.2.2.2
    rw [if_neg (body_ne_nil pretty other next rest)] at later
    rw [if_neg (body_ne_nil pretty name value _), Doc.values, serializeValues, later]
    simp [Doc.body, SortedEntries.find?, written, filled, nameText, newline]

theorem serializeVariant_eq (F : Type) [FloatLib F] (pretty : Nat) : ∀ value : Value, value.Valid →
    serializeVariant pretty (value.variant F) = value.text pretty
  | .ints stor, _ => rfl
  | .strs stor, _ => rfl
  | .obj doc, valid =>
    serialize_eq (deeper pretty) (fun filled => endsWell_body valid (fun empty => filled (by rw [empty]; rfl)) _)
      (serializeValues_eq F (deeper pretty) doc valid)
  | .objs (.cons first (.cons second rest)), valid => by
    have written := serializeObjs_eq F pretty (.cons first (.cons second rest)) valid.2
    unfold Value.text Value.variant
    rw [← written]
    rfl
  | .objs .nil, valid => absurd valid.1 (by decide)
  | .objs (.cons first .nil), valid => absurd valid.1 (by unfold Docs.length Docs.length; decide)

theorem serializeObjs_eq (F : Type) [FloatLib F] (pretty : Nat) : ∀ docs : Docs, docs.Valid →
    serializeObjs pretty (docs.objects F) = docs.text (deeper pretty)
  | .nil, _ => rfl
  | .cons doc .nil, valid =>
    serialize_eq (deeper pretty) (fun filled => endsWell_body valid.1 (fun empty => filled (by rw [empty]; rfl)) _)
      (serializeValues_eq F (deeper pretty) doc valid.1)
  | .cons doc (.cons next rest), valid => by
    have first := serialize_eq (deeper pretty) (fun filled => endsWell_body valid.1 (fun empty => filled (by rw [empty]; rfl)) _)
      (serializeValues_eq F (deeper pretty) doc valid.1)
    have later := serializeObjs_eq F pretty (.cons next rest) valid.2
    unfold Docs.text Docs.objects
    rw [← later, ← first]
    simp [serializeObjs, Docs.objects, deeper]
end

/-- The text of a document. -/
theorem serialize_doc (F : Type) [FloatLib F] (pretty : Nat) {doc : Doc} (valid : doc.Valid) :
    serialize pretty (doc.json F) = braces pretty (doc.body pretty) :=
  serialize_eq pretty (fun filled => endsWell_body valid (fun empty => filled (by rw [empty]; rfl)) pretty)
    (serializeValues_eq F pretty doc valid)

end Texts

section Tokens

def openBrace : Token := ⟨[123], .compound_l, []⟩
def closeBrace : Token := ⟨[125], .compound_r, []⟩
def openBracket : Token := ⟨[91], .subscr_l, []⟩
def closeBracket : Token := ⟨[93], .subscr_r, []⟩
def comma : Token := ⟨[44], .seperator, []⟩
def colon : Token := ⟨[58], .jsonassign, []⟩
def literal (text : Str) : Token := ⟨text, .string, []⟩

/-- The tokens of a list: no brackets around a single element. -/
def listTokens : List (List Token) → List Token
  | [tokens] => tokens
  | lists => openBracket :: [comma].intercalate lists ++ [closeBracket]

mutual
/-- The tokens between the braces. -/
def Doc.tokens : Doc → List Token
  | .nil => []
  | .cons name value .nil => literal name :: colon :: value.tokens
  | .cons name value (.cons other next rest) =>
    literal name :: colon :: value.tokens ++ comma :: Doc.tokens (.cons other next rest)

def Value.tokens : Value → List Token
  | .ints stor => listTokens (stor.map valueTokens)
  | .strs stor => listTokens (stor.map (fun text => [literal text]))
  | .obj doc => openBrace :: doc.tokens ++ [closeBrace]
  | .objs docs => openBracket :: docs.tokens ++ [closeBracket]

def Docs.tokens : Docs → List Token
  | .nil => []
  | .cons doc .nil => openBrace :: doc.tokens ++ [closeBrace]
  | .cons doc (.cons next rest) => openBrace :: doc.tokens ++ closeBrace :: comma :: Docs.tokens (.cons next rest)
end

end Tokens

section Lexing

/-- The lexer reads a text as tokens and goes on with what follows, if that is fit to. -/
structure Lexes (fits : Str → Prop) (text : Str) (tokens : List Token) : Prop where
  short : tokens.length ≤ text.length
  reads : ∀ fuel rest, fits rest → lexLoop false (fuel + tokens.length) (nextC (text ++ rest)).1 (nextC (text ++ rest)).2 [] =
    tokens ++ lexLoop false fuel (nextC rest).1 (nextC rest).2 []

def Anything (_ : Str) : Prop := True

variable {fits : Str → Prop} {text more : Str} {tokens later : List Token}

theorem Lexes.append {fits' : Str → Prop} (first : Lexes fits text tokens) (second : Lexes fits' more later)
    (follows : ∀ rest, fits' rest → fits (more ++ rest)) : Lexes fits' (text ++ more) (tokens ++ later) where
  short := by
    rw [List.length_append, List.length_append]
    exact Nat.add_le_add first.short second.short
  reads fuel rest fit := by
    have amount : fuel + (tokens ++ later).length = fuel + later.length + tokens.length := by
      rw [List.length_append]
      omega
    rw [amount, List.append_assoc, first.reads _ _ (follows rest fit), second.reads fuel rest fit, List.append_assoc]

/-- What may be followed by anything. -/
theorem Lexes.then (first : Lexes Anything text tokens) (second : Lexes fits more later) : Lexes fits (text ++ more) (tokens ++ later) :=
  first.append second (fun _ _ => trivial)

theorem Lexes.mono (lexes : Lexes Anything text tokens) : Lexes fits text tokens := ⟨lexes.short, fun fuel rest _ => lexes.reads fuel rest trivial⟩

theorem lexes_nil : Lexes Anything [] [] := ⟨Nat.le_refl 0, fun _ _ _ => rfl⟩

theorem lexes_blank {c : Byte} (blank : isspace c = true) : Lexes Anything [c] [] where
  short := Nat.zero_le 1
  reads fuel rest _ := by
    have real : c ≠ eofByte := fun same => absurd (same ▸ blank) (by decide)
    simp only [List.cons_append, List.nil_append, List.length_nil, Nat.add_zero, nextC, if_neg real]
    exact lexLoop_blank false fuel blank rest []

theorem lexes_tabs (n : Nat) : Lexes Anything (tabs n) [] := by
  induction n with
  | zero => exact lexes_nil
  | succ n ih => exact (lexes_blank (by decide : isspace 9 = true)).then ih

theorem lexes_newline (pretty : Nat) : Lexes Anything (newline pretty) [] := by
  unfold newline
  split
  · exact lexes_nil
  · exact lexes_blank (by decide)

/-- The marks of the text begin no operator of two bytes. -/
theorem lexes_mark {c : Byte} {type : TokenType} (mark : Punctuation c) (real : c ≠ eofByte)
    (alone : ∀ d, find operators [c, d] = none) (found : find operators [c] = some ([c], type)) :
    Lexes Anything [c] [⟨[c], type, []⟩] where
  short := Nat.le_refl 1
  reads fuel rest _ := by
    simp only [List.cons_append, List.nil_append, List.length_cons, List.length_nil, nextC, if_neg real]
    exact lexLoop_operator false fuel rest [] mark (alone _) found

theorem lexes_openBrace : Lexes Anything [123] [openBrace] :=
  lexes_mark (by decide) (by decide) (fun d => by simp [find, operators, lit]) (by decide)

theorem lexes_closeBrace : Lexes Anything [125] [closeBrace] :=
  lexes_mark (by decide) (by decide) (fun d => by simp [find, operators, lit]) (by decide)

theorem lexes_openBracket : Lexes Anything [91] [openBracket] :=
  lexes_mark (by decide) (by decide) (fun d => by simp [find, operators, lit]) (by decide)

theorem lexes_closeBracket : Lexes Anything [93] [closeBracket] :=
  lexes_mark (by decide) (by decide) (fun d => by simp [find, operators, lit]) (by decide)

theorem lexes_comma : Lexes Anything [44] [comma] :=
  lexes_mark (by decide) (by decide) (fun d => by simp [find, operators, lit]) (by decide)

theorem lexes_colon : Lexes Anything [58] [colon] :=
  lexes_mark (by decide) (by decide) (fun d => by simp [find, operators, lit]) (by decide)

theorem lexes_literal {text : Str} (plain : PlainName text) : Lexes Anything (quote :: text ++ [quote]) [literal text] where
  short := by simp
  reads fuel rest _ := by
    have shape : quote :: text ++ [quote] ++ rest = quote :: (text ++ quote :: rest) := by simp
    rw [shape]
    simp only [nextC, if_neg (by decide : ¬quote = eofByte)]
    exact lexLoop_string false fuel plain rest []

theorem lexes_int (i : Int) : Lexes Stops (intToString i) (valueTokens i) :=
  ⟨valueTokens_length_le i, fun fuel _ stops => lexLoop_value fuel i stops⟩

theorem Stops.cons {c : Byte} (mark : isdigit c = false ∧ c ≠ 46 ∧ c ≠ eofByte) (after : Str) : Stops (c :: after) :=
  ⟨c, after, rfl, mark.1, mark.2.1, mark.2.2⟩

theorem printable_plain {c : Byte} (printable : Printable c) : PlainByte c :=
  ⟨printable.2.2.1, printable.2.2.2, fun same => absurd (same ▸ printable.2.1 : eofByte ≤ 126) (by decide)⟩

theorem plainName_of_printable {text : Str} (printable : ∀ c ∈ text, Printable c) : PlainName text :=
  fun c member => printable_plain (printable c member)

theorem quotestring_printable {text : Str} (printable : ∀ c ∈ text, Printable c) : quotestring text = quote :: text ++ [quote] := by
  have clean : ¬[backslash, quote] <:+: text := fun inside =>
    (printable backslash (inside.subset List.mem_cons_self)).2.2.2 rfl
  have control : ∀ {c d : Byte}, Printable c → d < 32 → c ≠ d := by
    intro c d own low same
    exact absurd (same ▸ own.1) (not_le.mpr low)
  unfold quotestring
  rw [if_neg clean]
  congr 1
  congr 1
  calc text.flatMap _ = text.flatMap (fun c => [c]) := by
        refine List.flatMap_congr (fun c member => ?_)
        have own := printable c member
        rw [if_neg own.2.2.1, if_neg own.2.2.2, if_neg (control own (by decide)), if_neg (control own (by decide)),
          if_neg (control own (by decide)), if_neg (control own (by decide)), if_neg (control own (by decide))]
    _ = text := List.flatMap_singleton' text

theorem lexes_name (pretty : Nat) {name : Str} (printable : ∀ c ∈ name, Printable c) :
    Lexes Anything (nameText pretty name) [literal name, colon] := by
  have indent : Lexes Anything (if pretty = 0 then [] else tabs pretty) [] := by
    split
    · exact lexes_nil
    · exact lexes_tabs pretty
  have shape : nameText pretty name = (if pretty = 0 then [] else tabs pretty) ++ ((quote :: name ++ [quote]) ++ [58]) := by
    simp [nameText]
  rw [shape]
  exact indent.then ((lexes_literal (plainName_of_printable printable)).then lexes_colon)

/-- The separators of a list end its numbers. -/
theorem lexes_intercalate {α : Type} {text : α → Str} {tokens : α → List Token} {stor : List α} (filled : stor ≠ [])
    (each : ∀ x ∈ stor, Lexes Stops (text x) (tokens x)) :
    Lexes Stops ((lit ",").intercalate (stor.map text)) ([comma].intercalate (stor.map tokens)) := by
  induction stor with
  | nil => exact absurd rfl filled
  | cons first stor ih =>
    have own := each first List.mem_cons_self
    cases stor with
    | nil =>
      simp only [List.map_cons, List.map_nil, List.intercalate_singleton]
      exact own
    | cons second stor =>
      have later := ih (List.cons_ne_nil _ _) (fun x member => each x (List.mem_cons_of_mem first member))
      simp only [List.map_cons, List.intercalate_cons_cons, List.append_assoc] at later ⊢
      exact own.append (lexes_comma.then later) (fun rest _ => Stops.cons (by decide) _)

theorem lexes_list {α : Type} {text : α → Str} {tokens : α → List Token} {stor : List α} (filled : stor ≠ [])
    (each : ∀ x ∈ stor, Lexes Stops (text x) (tokens x)) :
    Lexes Stops (bracketed (stor.map text)) (listTokens (stor.map tokens)) := by
  match stor with
  | [] => exact absurd rfl filled
  | [x] => exact each x List.mem_cons_self
  | first :: second :: rest =>
    have inside := lexes_intercalate filled each
    exact lexes_openBracket.then (inside.append lexes_closeBracket.mono (fun rest _ => Stops.cons (by decide) _))

theorem lexes_closing (pretty : Nat) : Lexes Anything (closing pretty) [closeBrace] ∧ ∀ rest, Stops (closing pretty ++ rest) := by
  unfold closing
  split
  · exact ⟨lexes_closeBrace, fun rest => Stops.cons (by decide) _⟩
  · refine ⟨?_, fun rest => Stops.cons (by decide) _⟩
    have indent : Lexes Anything (if pretty > 1 then tabs (pretty - 1) else []) [] := by
      split
      · exact lexes_tabs _
      · exact lexes_nil
    exact ((lexes_blank (by decide : isspace 10 = true)).then indent).then lexes_closeBrace

theorem lexes_braces (pretty : Nat) {body : Str} {tokens : List Token} (inside : Lexes Stops body tokens)
    (empty : body = [] → tokens = []) : Lexes Anything (braces pretty body) (openBrace :: tokens ++ [closeBrace]) := by
  obtain ⟨close, follows⟩ := lexes_closing pretty
  unfold braces
  split
  · rename_i isEmpty
    rw [empty isEmpty]
    exact lexes_openBrace.then close
  · have whole := (lexes_openBrace.then (lexes_newline pretty)).then (inside.append close (fun rest _ => follows rest))
    simpa using whole

theorem body_eq_nil {pretty : Nat} {doc : Doc} (empty : doc.body pretty = []) : doc.tokens = [] := by
  cases doc with
  | nil => rfl
  | cons name value rest => exact absurd empty (body_ne_nil pretty name value rest)

mutual
theorem lexes_body (pretty : Nat) : ∀ doc : Doc, doc.Valid → Lexes Stops (doc.body pretty) doc.tokens
  | .nil, _ => lexes_nil.mono
  | .cons name value .nil, valid => (lexes_name pretty valid.1).then (lexes_value pretty value valid.2.2.1)
  | .cons name value (.cons other next rest), valid => by
    have later := lexes_body pretty (.cons other next rest) valid.2.2.2
    have entry := (lexes_name pretty valid.1).then (lexes_value pretty value valid.2.2.1)
    have separated : Lexes Stops (44 :: newline pretty ++ Doc.body pretty (.cons other next rest))
        (comma :: Doc.tokens (.cons other next rest)) := (lexes_comma.then (lexes_newline pretty)).then later
    unfold Doc.body Doc.tokens
    exact entry.append separated (fun rest _ => Stops.cons (by decide) _)

theorem lexes_value (pretty : Nat) : ∀ value : Value, value.Valid → Lexes Stops (value.text pretty) value.tokens
  | .ints stor, valid => lexes_list valid.1 (fun i _ => lexes_int i)
  | .strs stor, valid => by
    refine lexes_list valid.1 (fun text member => ?_)
    rw [quotestring_printable (valid.2 text member)]
    exact (lexes_literal (plainName_of_printable (valid.2 text member))).mono
  | .obj doc, valid => (lexes_braces (deeper pretty) (lexes_body (deeper pretty) doc valid) body_eq_nil).mono
  | .objs docs, valid =>
    ((lexes_openBracket.then (lexes_docs (deeper pretty) docs valid.2)).then lexes_closeBracket).mono

theorem lexes_docs (pretty : Nat) : ∀ docs : Docs, docs.Valid → Lexes Anything (docs.text pretty) docs.tokens
  | .nil, _ => lexes_nil
  | .cons doc .nil, valid => lexes_braces pretty (lexes_body pretty doc valid.1) body_eq_nil
  | .cons doc (.cons next rest), valid => by
    have first := lexes_braces pretty (lexes_body pretty doc valid.1) body_eq_nil
    have later := lexes_docs pretty (.cons next rest) valid.2
    have both := first.then (lexes_comma.then later)
    unfold Docs.text Docs.tokens
    simpa using both
end

/-- The tokens of a document, however it is printed. -/
theorem lex_serialize (F : Type) [FloatLib F] (pretty : Nat) {doc : Doc} (valid : doc.Valid) :
    lex (serialize pretty (doc.json F)) = openBrace :: doc.tokens ++ [closeBrace, ⟨[], .eof, []⟩] := by
  have whole := lexes_braces pretty (lexes_body pretty doc valid) body_eq_nil
  rw [serialize_doc F pretty valid]
  generalize braces pretty (doc.body pretty) = text at whole
  obtain ⟨spare, enough⟩ : ∃ spare, text.length + 2 = spare + 1 + (openBrace :: doc.tokens ++ [closeBrace]).length :=
    ⟨text.length + 1 - (openBrace :: doc.tokens ++ [closeBrace]).length, by have := whole.short; omega⟩
  have read := whole.reads (spare + 1) [] trivial
  rw [List.append_nil] at read
  unfold lex
  rw [lexLoop_blank false _ (by decide), enough, read]
  simp [nextC, lexLoop, spanC]

end Lexing

end CloudCryptFS.Script.Documents
