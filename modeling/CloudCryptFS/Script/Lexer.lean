import CloudCryptFS.Util.SortedEntries
import Mathlib.Algebra.BigOperators.Group.List.Basic
import Mathlib.Algebra.Order.BigOperators.Group.List

/-! The lexer of the script module, which also reads the JSON text of directories
and configurations. The source keeps the last character as an `int` sign-extended
from `char`, so that byte 0xFF is the same value as `EOF`: here the last character
is an `Option`, `none` for both. -/

namespace CloudCryptFS.Script.Lexer

abbrev Byte := UInt8
abbrev Str := List Byte

/-- The bytes of a literal of the source. -/
def lit (text : String) : Str := text.toList.map (fun c => UInt8.ofNat c.toNat)

abbrev quote : Byte := 34
abbrev apostrophe : Byte := 39
abbrev backslash : Byte := 92
abbrev eofByte : Byte := 255

inductive TokenType where
  | unknown | eof | eos | compound_l | compound_r | par_l | par_r | subscr_l | subscr_r
  | include | function | _return | _if | _elseif | _else | catchevent | _foreach | _while | as
  | index | resourcedef | timer | event | warning | _for | extractor | inline_event | _break | _typen
  | _defined | expect
  | identifier | number | string | defvar
  | _class | extends | seperator | jsonassign | assign | deref | construct | _private | _public
  | _final | _null | _template | _operator | _brq | _attrib
  | op_incr | op_decr
  | op_add | op_sub | op_div | op_mul | op_mod | op_and | op_or | op_xor
  | cop_add | cop_sub | cop_mul | cop_div | cop_mod | cop_and | cop_or | cop_xor
  | lop_l | lop_g | lop_le | lop_ge | lop_ne | lop_e
  | lop_and | lop_or | lop_not
  | comment
  deriving DecidableEq

structure Token where
  content : Str
  type : TokenType
  comment : Str := []
  deriving DecidableEq

def wordToTokenType : List (Str × TokenType) :=
  [(lit "#uctexture", .resourcedef), (lit "#texture", .resourcedef), (lit "#sound", .resourcedef),
   (lit "#htmlfile", .resourcedef), (lit "#htmlelement", .resourcedef), (lit "#model", .resourcedef),
   (lit "#modelanim", .resourcedef), (lit "#warning", .warning), (lit "#event", .event),
   (lit "#timer", .timer), (lit "#include", .include),
   (lit "for", ._for), (lit "foreach", ._foreach), (lit "as", .as), (lit "return", ._return),
   (lit "index", .index), (lit "while", ._while), (lit "catchevent", .catchevent),
   (lit "catchallevents", .catchevent), (lit "operator", ._operator), (lit "function", .function),
   (lit "if", ._if), (lit "elseif", ._elseif), (lit "else", ._else), (lit "class", ._class),
   (lit "template", ._template), (lit "extends", .extends), (lit "_event", .inline_event),
   (lit "break", ._break), (lit "typename", ._typen), (lit "deref", .deref),
   (lit "construct", .construct), (lit "private:", ._private), (lit "null", ._null),
   (lit "public:", ._public), (lit "_brq", ._brq), (lit "final", ._final),
   (lit "__attribute__", ._attrib), (lit "defined", ._defined), (lit "expect", .expect),
   (lit "playerglobal", .defvar), (lit "moveglobal", .defvar), (lit "global", .defvar),
   (lit "string", .defvar), (lit "resource", .defvar), (lit "int", .defvar), (lit "float", .defvar),
   (lit "vec4", .defvar), (lit "vec3", .defvar), (lit "var", .defvar), (lit "object", .defvar),
   (lit "ref", .defvar), (lit "__ptr__", .defvar), (lit "auto", .defvar)]

def operators : List (Str × TokenType) :=
  [(lit "->", .extractor), (lit "<=", .lop_le), (lit ">=", .lop_ge), (lit "!=", .lop_ne),
   (lit "==", .lop_e), (lit "&&", .lop_and), (lit "||", .lop_or), (lit "++", .op_incr),
   (lit "--", .op_decr), (lit "+=", .cop_add), (lit "-=", .cop_sub), (lit "/=", .cop_div),
   (lit "*=", .cop_mul), (lit "%=", .cop_mod), (lit "&=", .cop_and), (lit "|=", .cop_or),
   (lit "^=", .cop_xor), (lit ",", .seperator), (lit "=", .assign), (lit ":", .jsonassign),
   ([123], .compound_l), ([125], .compound_r), (lit "(", .par_l), (lit ")", .par_r),
   (lit "[", .subscr_l), (lit "]", .subscr_r), (lit "<", .lop_l), (lit ">", .lop_g),
   (lit "!", .lop_not), (lit "+", .op_add), (lit "-", .op_sub), (lit "/", .op_div),
   (lit "*", .op_mul), (lit "%", .op_mod), (lit "&", .op_and), (lit "|", .op_or),
   (lit "^", .op_xor), (lit ";", .eos)]

def isspace (c : Byte) : Bool := c == 32 || (9 ≤ c && c ≤ 13)
def isdigit (c : Byte) : Bool := 48 ≤ c && c ≤ 57
def isalpha (c : Byte) : Bool := (65 ≤ c && c ≤ 90) || (97 ≤ c && c ≤ 122)
def isalnum (c : Byte) : Bool := isalpha c || isdigit c
def tolower (c : Byte) : Byte := if 65 ≤ c && c ≤ 90 then c + 32 else c

/-- The byte that an `int` character becomes when it is appended to a string. -/
def toByte (last : Option Byte) : Byte := last.getD eofByte

/-- `NextC`: byte 0xFF is consumed and reads as `EOF`. -/
def nextC : Str → Option Byte × Str
  | [] => (none, [])
  | c :: rest => (if c = eofByte then none else some c, rest)

/-- The bytes that replace a backslash followed by `c`; note the two backslashes. -/
def unescape (c : Byte) : Str :=
  if c = 110 then [10] else if c = backslash then [backslash, backslash]
  else if c = 116 then [9] else if c = 114 then [13] else if c = 98 then [8]
  else if c = 102 then [12] else if c = 118 then [11] else [c]

/-- The loop of a string literal: `this` is `ThisChar`, `last` the character at hand.
It ends at the closing mark or at `EOF`, and returns what is left after that. -/
def scanString (mark : Byte) : Str → (st : Str) → (this last : Byte) → Str × Str
  | rest, st, this, last =>
    if this ≠ backslash ∧ last = mark then (st, rest)
    else
      let st := if this = backslash then st.dropLast ++ unescape last else st ++ [last]
      match rest with
      | [] => (st, [])
      | c :: rest => if c = eofByte then (st, rest) else scanString mark rest st last c

/-- A run of characters that satisfy `p`, and the character that ends it. -/
def spanC (p : Byte → Bool) : Option Byte → Str → Str × Option Byte × Str
  | none, rest => ([], none, rest)
  | some c, [] => if p c then ([c], none, []) else ([], some c, [])
  | some c, d :: rest =>
      if p c then
        let (run, after) := spanC p (if d = eofByte then none else some d) rest
        (c :: run, after)
      else ([], some c, d :: rest)

def lineComment : Str → Str × Str
  | [] => ([eofByte], [])
  | c :: rest =>
      if c = eofByte ∨ c = 10 ∨ c = 13 then ([c], rest)
      else
        let (text, after) := lineComment rest
        (c :: text, after)

def blockComment : (this : Byte) → Str → Str × Str
  | _, [] => ([eofByte], [])
  | this, c :: rest =>
      if c = eofByte ∨ (this = 42 ∧ c = 47) then ([c], rest)
      else
        let (text, after) := blockComment c rest
        (c :: text, after)

def find (table : List (Str × TokenType)) (key : Str) : Option (Str × TokenType) :=
  table.find? (fun entry => entry.1 = key)

/-- The branch for identifiers and keywords; `first` has been read as `LastChar`. -/
def lexWord (first : Byte) (rest : Str) : Str × Option TokenType × Option Byte × Str :=
  let skipKeyWords := first = 36
  let (tail, last, rest) := spanC (fun c => isalnum c || c == 95) (nextC rest).1 (nextC rest).2
  let word := if skipKeyWords then tail else first :: tail
  if skipKeyWords then (word, none, last, rest)
  else
    let label := last = some 58 ∧ (word = lit "public" ∨ word = lit "private")
    let word := if label then word ++ [58] else word
    let (last, rest) := if label then nextC rest else (last, rest)
    match find wordToTokenType (word.map tolower) with
    | some entry => (entry.1, some entry.2, last, rest)
    | none => (word, none, last, rest)

/-- One turn of the constructor's loop per unit of fuel; `last` is `LastChar`. -/
def lexLoop (tokenizeComment : Bool) : Nat → (last : Option Byte) → (rest comment : Str) → List Token
  | 0, _, _, _ => []
  | fuel + 1, last, rest, comment =>
    let (_, last, rest) := spanC isspace last rest
    match last with
    | none => [⟨[], .eof, []⟩]
    | some c =>
      if c = quote ∨ c = apostrophe then
        let (st, rest) := match nextC rest with
          | (none, rest) => ([], rest)
          | (some first, rest) => scanString c rest [] 0 first
        ⟨st, .string, comment⟩ :: lexLoop tokenizeComment fuel (nextC rest).1 (nextC rest).2 []
      else if c = 35 ∨ c = 36 ∨ c = 95 ∨ isalpha c then
        match lexWord c rest with
        | (word, some type, last, rest) => ⟨word, type, []⟩ :: lexLoop tokenizeComment fuel last rest comment
        | (word, none, last, rest) => ⟨word, .identifier, comment⟩ :: lexLoop tokenizeComment fuel last rest []
      else if isdigit c ∨ c = 46 then
        let (run, last, rest) := spanC (fun c => isdigit c || c == 46) (some c) rest
        ⟨run, .number, []⟩ :: lexLoop tokenizeComment fuel last rest comment
      else
        let (last, rest) := nextC rest
        if c = 47 ∧ last = some 47 then
          let (text, rest) := lineComment rest
          let text := lit "//" ++ text
          if tokenizeComment then
            ⟨text, .comment, []⟩ :: lexLoop tokenizeComment fuel (nextC rest).1 (nextC rest).2 comment
          else lexLoop tokenizeComment fuel (nextC rest).1 (nextC rest).2 text
        else if c = 47 ∧ last = some 42 then
          let (text, rest) := blockComment 42 rest
          let text := lit "/*" ++ text
          if tokenizeComment then
            ⟨text, .comment, []⟩ :: lexLoop tokenizeComment fuel (nextC rest).1 (nextC rest).2 comment
          else lexLoop tokenizeComment fuel (nextC rest).1 (nextC rest).2 text
        else
          match find operators [c, toByte last] with
          | some entry =>
              ⟨entry.1, entry.2, []⟩ :: lexLoop tokenizeComment fuel (nextC rest).1 (nextC rest).2 comment
          | none =>
            match find operators [c] with
            | some entry => ⟨entry.1, entry.2, []⟩ :: lexLoop tokenizeComment fuel last rest comment
            | none => ⟨[c], .unknown, []⟩ :: lexLoop tokenizeComment fuel last rest comment

/-- The token list of a text. Each turn consumes a byte or ends the loop, so the
fuel is enough for every text. -/
def lex (content : Str) (tokenizeComment : Bool := false) : List Token :=
  lexLoop tokenizeComment (content.length + 2) (some 32) content []

example : lex ([123] ++ lit "\"a\":12" ++ [125]) =
    [⟨[123], .compound_l, []⟩, ⟨lit "a", .string, []⟩, ⟨lit ":", .jsonassign, []⟩,
     ⟨lit "12", .number, []⟩, ⟨[125], .compound_r, []⟩, ⟨[], .eof, []⟩] := by decide +kernel

end CloudCryptFS.Script.Lexer
