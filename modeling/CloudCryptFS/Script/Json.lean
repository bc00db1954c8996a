import CloudCryptFS.Script.Lexer
import Mathlib.Data.List.Infix

/-! JSON values of the script module: a value is a list of objects, integers, floats
or strings of one type, converted as a whole when it is used at another type. -/

namespace CloudCryptFS.Script.Json
open Util Lexer

/-- `std::map<str, ..>` orders its keys byte by byte. -/
instance : LinearOrder Byte := LinearOrder.lift' UInt8.toNat (fun _ _ same => UInt8.toNat_inj.mp same)

/-- What the standard library does with floats; `stof` fails where `std::stof` throws. -/
class FloatLib (F : Type) where
  zero : F
  neg : F → F
  ofInt : Int → F
  toInt : F → Int
  toString : F → Str
  stof : Str → Option F

/-- How a run of the parser ends without a value. `undefined` stands for a `back()`
of an empty vector. -/
inductive Fault where
  | exception | abort | undefined
  deriving DecidableEq

@[simp]
theorem ok_bind {α β : Type} (value : α) (next : α → Except Fault β) : (Except.ok value >>= next) = next value := rfl

@[simp]
theorem error_bind {α β : Type} (fault : Fault) (next : α → Except Fault β) :
    (Except.error fault >>= next) = Except.error fault := rfl

mutual
inductive JSON (F : Type) where
  | mk (values : List (Str × ListVariant F)) (comments : List (Str × Str))
inductive ListVariant (F : Type) where
  | undef
  | obj (stor : List (Option (JSON F)))
  | str (stor : List Str)
  | int (stor : List Int)
  | flt (stor : List F)
end

namespace JSON
variable {F : Type}

def values : JSON F → List (Str × ListVariant F)
  | .mk values _ => values

def comments : JSON F → List (Str × Str)
  | .mk _ comments => comments

def empty : JSON F := .mk [] []

def hasProperty (json : JSON F) (name : Str) : Bool := (SortedEntries.find? name json.values).isSome

def clearProperty (json : JSON F) (name : Str) : JSON F := .mk (SortedEntries.erase name json.values) json.comments

/-- `_values[name]`, which creates an undefined value. -/
def value (json : JSON F) (name : Str) : ListVariant F :=
  (SortedEntries.find? name json.values).getD .undef

def setValue (json : JSON F) (name : Str) (value : ListVariant F) : JSON F :=
  .mk (SortedEntries.set name value json.values) json.comments

def addComment (json : JSON F) (name comment : Str) : JSON F :=
  .mk json.values (SortedEntries.set name comment json.comments)

end JSON

section Conversions
variable {F : Type} [FloatLib F]

def digitsOf (n : Nat) : Str := (Nat.toDigits 10 n).map (fun c => UInt8.ofNat c.toNat)

def intToString (n : Int) : Str := if n < 0 then 45 :: digitsOf n.natAbs else digitsOf n.natAbs

def digitsValue (digits : Str) : Nat := digits.foldl (fun value c => 10 * value + (c.toNat - 48)) 0

def intMax : Nat := 2147483647

/-- An optional sign, as whether it is a minus and what follows it. -/
def sign : Str → Bool × Str
  | [] => (false, [])
  | c :: rest => if c = 45 then (true, rest) else if c = 43 then (false, rest) else (false, c :: rest)

/-- `std::stoi`: blanks, a sign, a run of digits, and a value that fits in 32 bits. -/
def stoi (text : Str) : Option Int :=
  let (negative, text) := sign (text.dropWhile isspace)
  let digits := text.takeWhile isdigit
  if digits = [] then none
  else
    let n := digitsValue digits
    if negative then (if n ≤ intMax + 1 then some (-(n : Int)) else none)
    else (if n ≤ intMax then some (n : Int) else none)

def orThrow {α : Type} : Option α → Except Fault α
  | some value => .ok value
  | none => .error .exception

/-- `_GET<_intStor>`. -/
def toInts : ListVariant F → Except Fault (List Int)
  | .undef => .ok []
  | .obj _ => .error .exception
  | .str stor => stor.mapM (fun text => orThrow (stoi text))
  | .int stor => .ok stor
  | .flt stor => .ok (stor.map FloatLib.toInt)

def toStrs : ListVariant F → Except Fault (List Str)
  | .undef => .ok []
  | .obj _ => .error .exception
  | .str stor => .ok stor
  | .int stor => .ok (stor.map intToString)
  | .flt stor => .ok (stor.map FloatLib.toString)

def toFlts : ListVariant F → Except Fault (List F)
  | .undef => .ok []
  | .obj _ => .error .exception
  | .str stor => stor.mapM (fun text => orThrow (FloatLib.stof text))
  | .int stor => .ok (stor.map FloatLib.ofInt)
  | .flt stor => .ok stor

def toObjs : ListVariant F → Except Fault (List (Option (JSON F)))
  | .undef => .ok []
  | .obj stor => .ok stor
  | _ => .error .exception

/-- The element at `offset` after the list has been extended to hold it. -/
def putAt {α : Type} (default : α) (stor : List α) (offset : Nat) (value : α) : List α :=
  (stor ++ List.replicate (offset + 1 - stor.length) default).set offset value

end Conversions

section Serialize
variable {F : Type} [FloatLib F]

/-- The first test takes a name that holds a quoted quote for a name that is quoted. -/
def quotestring (text : Str) : Str :=
  if [backslash, quote] <:+: text then quote :: text ++ [quote]
  else
    quote :: text.flatMap (fun c =>
      if c = quote then [backslash, quote] else if c = backslash then [backslash, backslash]
      else if c = 8 then [backslash, 98] else if c = 13 then [backslash, 114]
      else if c = 12 then [backslash, 102] else if c = 10 then [backslash, 110]
      else if c = 9 then [backslash, 116] else [c]) ++ [quote]

/-- `[a,b,c]`, and no brackets around a single element. -/
def bracketed : List Str → Str
  | [text] => text
  | texts => [91] ++ (lit ",").intercalate texts ++ [93]

/-- Drops the separators that the pretty printer leaves at the end. -/
def dropTrailing (text : Str) : Str := (text.reverse.dropWhile (fun c => c == 44 || c == 10)).reverse

def tabs (n : Nat) : Str := List.replicate n 9

mutual
/-- `JSON::serialize`; names go out as they are. -/
def serialize (pretty : Nat) : JSON F → Str
  | .mk values comments =>
    let out := [123] ++ (if pretty = 0 then [] else [10]) ++ serializeValues pretty comments values
    if pretty = 0 then (if out.getLast? = some 44 then out.dropLast else out) ++ [125]
    else dropTrailing out ++ [10] ++ (if pretty > 1 then tabs (pretty - 1) else []) ++ [125]

def serializeValues (pretty : Nat) (comments : List (Str × Str)) : List (Str × ListVariant F) → Str
  | [] => []
  | (name, value) :: rest =>
    let text := serializeVariant pretty value
    let head :=
      if text = [] then []
      else
        let comment := match SortedEntries.find? name comments with
          | some comment => tabs pretty ++ comment ++ (if comment.getLast? = some 10 then [] else [10])
          | none => []
        (if pretty = 0 then [] else comment ++ tabs pretty) ++
          [quote] ++ name ++ [quote, 58] ++ text ++ [44] ++ (if pretty = 0 then [] else [10])
    head ++ serializeValues pretty comments rest

def serializeVariant (pretty : Nat) : ListVariant F → Str
  | .undef => []
  | .obj [some json] => serialize (if pretty = 0 then 0 else pretty + 1) json
  | .obj stor => [91] ++ serializeObjs pretty stor ++ [93]
  | .str stor => bracketed (stor.map quotestring)
  | .int stor => bracketed (stor.map intToString)
  | .flt stor => bracketed (stor.map FloatLib.toString)

def serializeObjs (pretty : Nat) : List (Option (JSON F)) → Str
  | [] => []
  | [none] => lit "null"
  | [some json] => serialize (if pretty = 0 then 0 else pretty + 1) json
  | none :: rest => lit "null," ++ serializeObjs pretty rest
  | some json :: rest =>
      serialize (if pretty = 0 then 0 else pretty + 1) json ++ [44] ++ serializeObjs pretty rest
end

end Serialize

section Unserialize
variable {F : Type} [FloatLib F]

structure Name where
  content : Str
  idx : Nat
  isArray : Bool
  deriving DecidableEq

/-- An object on `objStack`, with its place in the object below it. -/
structure Frame (F : Type) where
  json : JSON F
  name : Str
  idx : Nat

/-- The locals of `unserialize`; both stacks have their `back()` first. -/
structure Parser (F : Type) where
  tokenIsValue : Bool := false
  objStack : List (Frame F) := []
  nameStack : List Name := []
  negate : Bool := false
  didCloseObj : Bool := false

inductive Scalar (F : Type) where
  | str (value : Str)
  | flt (value : F)
  | int (value : Int)

/-- The value of a string or number token. -/
def tokenScalar (negate : Bool) (token : Token) : Except Fault (Scalar F) :=
  if token.type = .string then .ok (.str token.content)
  else if 46 ∈ token.content then do
    let v ← orThrow (FloatLib.stof token.content)
    return .flt (if negate then FloatLib.neg v else v)
  else do
    let v ← orThrow (stoi token.content)
    return .int (if negate then -v else v)

/-- Stores a value under a name, converting what is there to the type of the value. -/
def storeScalar (scalar : Scalar F) (name : Name) (json : JSON F) : Except Fault (JSON F) :=
  match scalar with
  | .str v => do
    let stor ← toStrs (json.value name.content)
    return json.setValue name.content (.str (putAt [] stor name.idx v))
  | .flt v => do
    let stor ← toFlts (json.value name.content)
    return json.setValue name.content (.flt (putAt FloatLib.zero stor name.idx v))
  | .int v => do
    let stor ← toInts (json.value name.content)
    return json.setValue name.content (.int (putAt 0 stor name.idx v))

/-- `get<P>(name, idx)`: the object at a place, created when it is not there. -/
def openObject (name : Name) (json : JSON F) : Except Fault (JSON F) := do
  let stor ← toObjs (json.value name.content)
  return (stor.getD name.idx none).getD .empty

/-- Puts a finished object back where `openObject` took it from. -/
def closeObject (child : Frame F) (json : JSON F) : Except Fault (JSON F) := do
  let stor ← toObjs (json.value child.name)
  return json.setValue child.name (.obj (putAt none stor child.idx (some child.json)))

/-- A string or number token: a value or a name. -/
def stepScalar (p : Parser F) (token : Token) : Except Fault (Parser F) :=
  if p.tokenIsValue then do
    let scalar ← tokenScalar p.negate token
    match p.objStack, p.nameStack with
    | top :: below, name :: _ =>
      let json ← storeScalar scalar name top.json
      return { p with objStack := { top with json := json } :: below, negate := false }
    | _, _ => throw .undefined
  else
    let named := { p with nameStack := ⟨token.content, 0, false⟩ :: p.nameStack, negate := false }
    if token.comment = [] then .ok named
    else match p.objStack with
      | [] => .error .undefined
      | top :: below =>
        .ok { named with objStack := { top with json := top.json.addComment token.content token.comment } :: below }

/-- One token of `unserialize`: `.inr` is the return, with the finished object. -/
def step (p : Parser F) (token : Token) : Except Fault (Parser F ⊕ JSON F) :=
  match token.type with
  | .compound_l =>
    match p.objStack, p.nameStack with
    | [], _ => .ok (.inl { p with objStack := [⟨.empty, [], 0⟩], tokenIsValue := false })
    | _ :: _, [] => .error .abort
    | top :: below, name :: _ => do
      let child ← openObject name top.json
      let top' ← closeObject ⟨child, name.content, name.idx⟩ top.json
      return .inl { p with
        objStack := ⟨child, name.content, name.idx⟩ :: { top with json := top' } :: below,
        tokenIsValue := false }
  | .compound_r =>
    match p.objStack with
    | [] => .error .abort
    | [root] => .ok (.inr root.json)
    | child :: top :: below => do
      let top' ← closeObject child top.json
      match p.nameStack with
      | [] => .error .abort
      | name :: names =>
        if name.isArray then return .inl { p with objStack := { top with json := top' } :: below }
        else return .inl { p with
          objStack := { top with json := top' } :: below,
          nameStack := names, tokenIsValue := false, didCloseObj := true }
  | .op_sub => .ok (.inl { p with negate := true })
  | .string | .number => do
    let next ← stepScalar p token
    return .inl next
  | .jsonassign => .ok (.inl { p with tokenIsValue := true })
  | .seperator =>
    match p.nameStack with
    | [] => .error .abort
    | name :: names =>
      if name.isArray then
        .ok (.inl { p with nameStack := { name with idx := name.idx + 1 } :: names, didCloseObj := false })
      else .ok (.inl { p with
        nameStack := if p.didCloseObj then name :: names else names,
        tokenIsValue := false, didCloseObj := false })
  | .subscr_l =>
    match p.nameStack with
    | [] => .error .abort
    | name :: names => .ok (.inl { p with nameStack := { name with isArray := true } :: names })
  | .subscr_r =>
    match p.nameStack with
    | [] => .error .abort
    | name :: names => .ok (.inl { p with nameStack := { name with isArray := false } :: names })
  | ._null => .ok (.inl p)
  | _ => .error .exception

def parse : Parser F → List Token → Except Fault (JSON F)
  | _, [] => .error .abort
  | p, token :: tokens =>
    match step p token with
    | .error fault => .error fault
    | .ok (.inr json) => .ok json
    | .ok (.inl next) => parse next tokens

/-- `unserialize` into a new object. -/
def unserialize (content : Str) : Except Fault (JSON F) := parse {} (lex content)

end Unserialize

end CloudCryptFS.Script.Json
