import CloudCryptFS.Script.Counting
import CloudCryptFS.Util.Schedule

/-! Texts that are no objects. The parser throws for some of them; for others it looks
at the top of a stack that is empty. Which tokens do so depends on the heights of the
stacks and on the flags, and these are counted along the tokens without their contents. -/

namespace CloudCryptFS.Script.Malformed
open Util Lexer Json Counting

section Ends

theorem spanC_later {p : Byte → Bool} {c : Byte} (inside : p c = true) (rest : Str) :
    remaining (spanC p (some c) rest).2.1 (spanC p (some c) rest).2.2 <:+ rest := by
  cases rest with
  | nil => simp [spanC, inside, remaining]
  | cons d rest =>
    simp only [spanC, inside, if_true]
    exact (spanC_suffix p _ rest).trans (nextC_suffix (d :: rest))

/-- Each turn of the lexer reads a byte, so that the last one finds the end of the text. -/
theorem lexLoop_ends (tokenizeComment : Bool) (fuel : Nat) (last : Option Byte) (rest comment : Str)
    (enough : (remaining last rest).length < fuel) :
    ∃ tokens, lexLoop tokenizeComment fuel last rest comment = tokens ++ [⟨[], .eof, []⟩] := by
  induction fuel generalizing last rest comment with
  | zero => exact absurd enough (Nat.not_lt_zero _)
  | succ fuel ih =>
    have blanks := (spanC_suffix isspace last rest).length_le
    rw [lexLoop]
    generalize spanC isspace last rest = start at blanks ⊢
    obtain ⟨run, last, rest⟩ := start
    cases last with
    | none => exact ⟨[], rfl⟩
    | some c =>
      have shorter : rest.length + 1 ≤ fuel := (by simpa [remaining] using blanks : rest.length + 1 ≤ _).trans (Nat.le_of_lt_succ enough)
      have later : ∀ last' rest' comment', remaining last' rest' <:+ rest →
          ∃ tokens, lexLoop tokenizeComment fuel last' rest' comment' = tokens ++ [⟨[], .eof, []⟩] :=
        fun last' rest' comment' inside => ih last' rest' comment' (lt_of_le_of_lt inside.length_le shorter)
      have told : ∀ token last' rest' comment', remaining last' rest' <:+ rest →
          ∃ tokens, token :: lexLoop tokenizeComment fuel last' rest' comment' = tokens ++ [⟨[], .eof, []⟩] := by
        intro token last' rest' comment' inside
        obtain ⟨tokens, ended⟩ := later last' rest' comment' inside
        exact ⟨token :: tokens, by rw [ended, List.cons_append]⟩
      have skip : ∀ text : Str, text <:+ (nextC rest).2 → remaining (nextC text).1 (nextC text).2 <:+ rest :=
        fun text inside => (nextC_suffix text).trans ((inside.trans (List.suffix_append _ _)).trans (nextC_suffix rest))
      dsimp only
      split
      · refine told _ _ _ _ (skip _ ?_)
        split
        · rename_i rest' found
          rw [found]
        · rename_i first rest' found
          rw [found]
          exact scanString_suffix c rest' [] 0 first
      · split
        · have word := lexWord_suffix c rest
          split
          · rename_i found
            rw [found] at word
            exact told _ _ _ _ word
          · rename_i found
            rw [found] at word
            exact told _ _ _ _ word
        · split
          · rename_i number
            have inside : (isdigit c || c == 46) = true := by simpa using number
            exact told _ _ _ _ (spanC_later (p := fun c => isdigit c || c == 46) inside rest)
          · split
            · split
              · exact told _ _ _ _ (skip _ (lineComment_suffix _))
              · exact later _ _ _ (skip _ (lineComment_suffix _))
            · split
              · split
                · exact told _ _ _ _ (skip _ (blockComment_suffix _ _))
                · exact later _ _ _ (skip _ (blockComment_suffix _ _))
              · split
                · exact told _ _ _ _ (skip _ (List.suffix_refl _))
                · split
                  · exact told _ _ _ _ (nextC_suffix rest)
                  · exact told _ _ _ _ (nextC_suffix rest)

theorem lex_ends (content : Str) (tokenizeComment : Bool) :
    ∃ tokens, lex content tokenizeComment = tokens ++ [⟨[], .eof, []⟩] :=
  lexLoop_ends tokenizeComment (content.length + 2) (some 32) content [] (by simp [remaining])

end Ends

/-- The stacks of the parser without their contents: how many objects are open, and which
names are lists at the moment. -/
structure Shape where
  tokenIsValue : Bool := false
  depth : Nat := 0
  arrays : List Bool := []
  didCloseObj : Bool := false

variable {F : Type}

/-- A number that the standard library does not take throws. -/
def Unreadable (F : Type) [FloatLib F] (token : Token) : Prop := tokenScalar (F := F) false token = .error .exception

namespace Shape

/-- What a token needs to find on the stacks. -/
def Allows (F : Type) [FloatLib F] (shape : Shape) (token : Token) : Prop :=
  match token.type with
  | .compound_l => 0 < shape.depth → shape.arrays ≠ []
  | .compound_r => 0 < shape.depth ∧ (1 < shape.depth → shape.arrays ≠ [])
  | .string | .number =>
    if shape.tokenIsValue then Unreadable F token ∨ (0 < shape.depth ∧ shape.arrays ≠ [])
    else token.comment ≠ [] → 0 < shape.depth
  | .seperator | .subscr_l | .subscr_r => shape.arrays ≠ []
  | _ => True

/-- What a token that is allowed leaves on the stacks. -/
def next (shape : Shape) (token : Token) : Shape :=
  match token.type with
  | .compound_l => { shape with depth := shape.depth + 1, tokenIsValue := false }
  | .compound_r =>
    if shape.arrays.head? = some true then { shape with depth := shape.depth - 1 }
    else { tokenIsValue := false, depth := shape.depth - 1, arrays := shape.arrays.tail, didCloseObj := true }
  | .string | .number => if shape.tokenIsValue then shape else { shape with arrays := false :: shape.arrays }
  | .jsonassign => { shape with tokenIsValue := true }
  | .seperator =>
    if shape.arrays.head? = some true then { shape with didCloseObj := false }
    else { shape with
      tokenIsValue := false, arrays := if shape.didCloseObj then shape.arrays else shape.arrays.tail, didCloseObj := false }
  | .subscr_l => { shape with arrays := true :: shape.arrays.tail }
  | .subscr_r => { shape with arrays := false :: shape.arrays.tail }
  | _ => shape

end Shape

def shape (p : Parser F) : Shape where
  tokenIsValue := p.tokenIsValue
  depth := p.objStack.length
  arrays := p.nameStack.map Name.isArray
  didCloseObj := p.didCloseObj

/-- Each open object has its place in the one below it. -/
def Placed : List (Frame F) → Prop
  | child :: top :: below => (∃ stor, toObjs (top.json.value child.name) = .ok stor) ∧ Placed (top :: below)
  | _ => True

section Frames

theorem Placed.replaceTop {top : Frame F} {below : List (Frame F)} (placed : Placed (top :: below)) (json : JSON F) :
    Placed ({ top with json := json } :: below) := by
  cases below with
  | nil => trivial
  | cons next below => exact placed

theorem Placed.tail {top : Frame F} {below : List (Frame F)} (placed : Placed (top :: below)) : Placed below := by
  cases below with
  | nil => trivial
  | cons next below => exact placed.2

theorem value_setValue (json : JSON F) (name : Str) (value : ListVariant F) : (json.setValue name value).value name = value := by
  unfold JSON.value JSON.setValue JSON.values
  rw [SortedEntries.find?_set_self, Option.getD_some]

/-- An object that was put in its place can be put there again. -/
theorem toObjs_closeObject {child : Frame F} {json result : JSON F} (closed : closeObject child json = .ok result) :
    ∃ stor, toObjs (result.value child.name) = .ok stor := by
  obtain ⟨stor, _, stored⟩ := bind_eq_ok closed
  cases stored
  rw [value_setValue]
  exact ⟨_, rfl⟩

theorem closeObject_placed {child top : Frame F} {below : List (Frame F)} (placed : Placed (child :: top :: below)) :
    ∃ result, closeObject child top.json = .ok result := by
  obtain ⟨stor, held⟩ := placed.1
  unfold closeObject
  rw [held]
  exact ⟨_, rfl⟩

theorem head_isArray {names : List Name} {name : Name} {rest : List Name} (shaped : names = name :: rest) :
    (names.map Name.isArray).head? = some true ↔ name.isArray = true := by
  rw [shaped, List.map_cons, List.head?_cons, Option.some_inj]

theorem depth_cons {p : Parser F} {top : Frame F} {below : List (Frame F)} (stack : p.objStack = top :: below) : 0 < (shape p).depth := by
  rw [shape, stack]
  exact Nat.succ_pos _

theorem arrays_cons {p : Parser F} {name : Name} {names : List Name} (shaped : p.nameStack = name :: names) : (shape p).arrays ≠ [] := by
  rw [shape, shaped]
  exact List.cons_ne_nil _ _

theorem arrays_nil {p : Parser F} (shaped : p.nameStack = []) : (shape p).arrays = [] := by
  rw [shape, shaped]
  rfl

theorem depth_nil {p : Parser F} (stack : p.objStack = []) : (shape p).depth = 0 := by
  rw [shape, stack]
  rfl

end Frames

section Steps
variable [FloatLib F] {p q : Parser F} {token : Token}

/-- Where a token is taken, the shape is as foretold, and the open objects keep their places. -/
def Foretold (p : Parser F) (token : Token) (q : Parser F) : Prop := shape q = (shape p).next token ∧ Placed q.objStack

theorem stepScalar_next (type : token.type = .string ∨ token.type = .number) (placed : Placed p.objStack)
    (done : stepScalar p token = .ok q) : Foretold p token q := by
  have next : (shape p).next token =
      if p.tokenIsValue then shape p else { shape p with arrays := false :: p.nameStack.map Name.isArray } := by
    unfold Shape.next
    obtain isString | isNumber := type
    · rw [isString]
      rfl
    · rw [isNumber]
      rfl
  unfold Foretold
  rw [next]
  unfold stepScalar at done
  split at done
  · rename_i value
    rw [if_pos value]
    obtain ⟨scalar, _, done⟩ := bind_eq_ok done
    split at done
    · rename_i top below name names stack shaped
      obtain ⟨json, _, done⟩ := bind_eq_ok done
      cases done
      rw [stack] at placed
      refine ⟨?_, placed.replaceTop json⟩
      simp only [shape, stack, List.length_cons]
    · cases done
  · rename_i value
    rw [if_neg value]
    dsimp only at done
    split at done
    · cases done
      exact ⟨rfl, placed⟩
    · split at done
      · cases done
      · rename_i top below stack
        cases done
        rw [stack] at placed
        refine ⟨?_, placed.replaceTop _⟩
        simp only [shape, stack, List.length_cons, List.map_cons]

theorem next_compound_l (type : token.type = .compound_l) (placed : Placed p.objStack) (done : step p token = .ok (.inl q)) :
    Foretold p token q := by
  have next : (shape p).next token = { shape p with depth := p.objStack.length + 1, tokenIsValue := false } := by
    unfold Shape.next
    rw [type]
    rfl
  unfold Foretold
  rw [next]
  simp only [step, type] at done
  split at done
  · rename_i stack
    cases done
    refine ⟨?_, trivial⟩
    simp only [shape, stack, List.length_cons, List.length_nil]
  · cases done
  · rename_i top below name names stack shaped
    obtain ⟨child, _, done⟩ := bind_eq_ok done
    obtain ⟨top', closed, done⟩ := bind_eq_ok done
    cases done
    rw [stack] at placed
    refine ⟨?_, toObjs_closeObject closed, placed.replaceTop top'⟩
    simp only [shape, stack, List.length_cons]

theorem next_compound_r (type : token.type = .compound_r) (placed : Placed p.objStack) (done : step p token = .ok (.inl q)) :
    Foretold p token q := by
  have next : (shape p).next token =
      if (p.nameStack.map Name.isArray).head? = some true then { shape p with depth := p.objStack.length - 1 }
      else ⟨false, p.objStack.length - 1, (p.nameStack.map Name.isArray).tail, true⟩ := by
    unfold Shape.next
    rw [type]
    rfl
  unfold Foretold
  rw [next]
  simp only [step, type] at done
  split at done
  · cases done
  · cases done
  · rename_i child top below stack
    obtain ⟨top', closed, done⟩ := bind_eq_ok done
    rw [stack] at placed
    split at done
    · cases done
    · rename_i name names shaped
      split at done
      · rename_i isArray
        cases done
        rw [if_pos ((head_isArray shaped).mpr isArray)]
        refine ⟨?_, placed.tail.replaceTop top'⟩
        simp only [shape, stack, List.length_cons, Nat.add_sub_cancel]
      · rename_i isArray
        cases done
        rw [if_neg (fun first => isArray ((head_isArray shaped).mp first))]
        refine ⟨?_, placed.tail.replaceTop top'⟩
        simp only [shape, stack, shaped, List.length_cons, Nat.add_sub_cancel, List.map_cons, List.tail_cons]

theorem next_seperator (type : token.type = .seperator) (placed : Placed p.objStack) (done : step p token = .ok (.inl q)) :
    Foretold p token q := by
  have next : (shape p).next token =
      if (p.nameStack.map Name.isArray).head? = some true then { shape p with didCloseObj := false }
      else ⟨false, p.objStack.length,
        if p.didCloseObj then p.nameStack.map Name.isArray else (p.nameStack.map Name.isArray).tail, false⟩ := by
    unfold Shape.next
    rw [type]
    rfl
  unfold Foretold
  rw [next]
  simp only [step, type] at done
  split at done
  · cases done
  · rename_i name names shaped
    split at done
    · rename_i isArray
      cases done
      rw [if_pos ((head_isArray shaped).mpr isArray)]
      refine ⟨?_, placed⟩
      simp only [shape, shaped, List.map_cons]
    · rename_i isArray
      cases done
      rw [if_neg (fun first => isArray ((head_isArray shaped).mp first))]
      refine ⟨?_, placed⟩
      simp only [shape, shaped, List.map_cons, List.tail_cons]
      split_ifs <;> rfl

theorem next_subscr (type : token.type = .subscr_l ∨ token.type = .subscr_r) (placed : Placed p.objStack)
    (done : step p token = .ok (.inl q)) : Foretold p token q := by
  obtain type | type := type <;>
  · simp only [step, type] at done
    split at done
    · cases done
    · rename_i name names shaped
      cases done
      refine ⟨?_, placed⟩
      simp only [Shape.next, type, shape, shaped, List.map_cons, List.tail_cons]

/-- The stacks change as the shape says. -/
theorem step_next (placed : Placed p.objStack) (done : step p token = .ok (.inl q)) : Foretold p token q := by
  cases type : token.type with
  | compound_l => exact next_compound_l type placed done
  | compound_r => exact next_compound_r type placed done
  | seperator => exact next_seperator type placed done
  | subscr_l => exact next_subscr (Or.inl type) placed done
  | subscr_r => exact next_subscr (Or.inr type) placed done
  | string =>
    simp only [step, type] at done
    obtain ⟨next, ran, done⟩ := bind_eq_ok done
    cases done
    exact stepScalar_next (Or.inl type) placed ran
  | number =>
    simp only [step, type] at done
    obtain ⟨next, ran, done⟩ := bind_eq_ok done
    cases done
    exact stepScalar_next (Or.inr type) placed ran
  | op_sub | jsonassign | _null =>
    simp only [step, type] at done
    cases done
    exact ⟨by simp only [Shape.next, type, shape], placed⟩
  | _ =>
    simp only [step, type] at done
    cases done

end Steps

/-- A run ends with a value or an exception. -/
def OnlyThrows {α : Type} (run : Except Fault α) : Prop := ∀ fault, run = .error fault → fault = .exception

section Throws

theorem onlyThrows_ok {α : Type} (value : α) : OnlyThrows (.ok value) := nofun

theorem onlyThrows_exception {α : Type} : OnlyThrows (.error .exception : Except Fault α) := fun _ thrown => (Except.error.inj thrown).symm

theorem not_onlyThrows {α : Type} {fault : Fault} (other : fault ≠ .exception) : ¬OnlyThrows (.error fault : Except Fault α) :=
  fun only => other (only fault rfl)

theorem OnlyThrows.bind {α β : Type} {run : Except Fault α} {next : α → Except Fault β} (first : OnlyThrows run)
    (later : ∀ value, run = .ok value → OnlyThrows (next value)) : OnlyThrows (run >>= next) := by
  cases run with
  | error fault =>
    intro thrown same
    cases same
    exact first fault rfl
  | ok value => exact later value rfl

theorem OnlyThrows.map {α β : Type} {run : Except Fault α} (first : OnlyThrows run) (f : α → β) :
    OnlyThrows (run >>= fun value => pure (f value)) := first.bind (fun value _ => onlyThrows_ok (f value))

theorem onlyThrows_orThrow {α : Type} (value : Option α) : OnlyThrows (orThrow value) := by
  cases value with
  | none => exact onlyThrows_exception
  | some value => exact onlyThrows_ok value

theorem onlyThrows_mapM {α β : Type} {f : α → Except Fault β} (each : ∀ value, OnlyThrows (f value)) (values : List α) :
    OnlyThrows (values.mapM f) := by
  induction values with
  | nil => exact onlyThrows_ok []
  | cons value values ih =>
    rw [List.mapM_cons]
    exact (each value).bind (fun first _ => ih.map (first :: ·))

theorem onlyThrows_toObjs (value : ListVariant F) : OnlyThrows (toObjs value) := by
  cases value with
  | undef => exact onlyThrows_ok _
  | obj stor => exact onlyThrows_ok stor
  | str stor | int stor | flt stor => exact onlyThrows_exception

variable [FloatLib F]

theorem onlyThrows_tokenScalar (negate : Bool) (token : Token) : OnlyThrows (tokenScalar (F := F) negate token) := by
  unfold tokenScalar
  by_cases isString : token.type = .string
  · rw [if_pos isString]
    exact onlyThrows_ok _
  · rw [if_neg isString]
    split
    · exact (onlyThrows_orThrow _).map _
    · exact (onlyThrows_orThrow _).map _

/-- A sign makes no number readable. -/
theorem tokenScalar_unreadable (negate : Bool) (token : Token) :
    (∃ scalar, tokenScalar (F := F) negate token = .ok scalar) ↔ ¬Unreadable F token := by
  unfold Unreadable tokenScalar
  by_cases isString : token.type = .string
  · rw [if_pos isString, if_pos isString]
    exact iff_of_true ⟨_, rfl⟩ nofun
  · rw [if_neg isString, if_neg isString]
    by_cases dot : 46 ∈ token.content
    · simp only [if_pos dot]
      cases FloatLib.stof (F := F) token.content with
      | none => exact iff_of_false (fun read => nomatch read.choose_spec) (fun readable => readable rfl)
      | some v => exact iff_of_true ⟨_, rfl⟩ (fun thrown => nomatch thrown)
    · simp only [if_neg dot]
      cases stoi token.content with
      | none => exact iff_of_false (fun read => nomatch read.choose_spec) (fun readable => readable rfl)
      | some v => exact iff_of_true ⟨_, rfl⟩ (fun thrown => nomatch thrown)

theorem onlyThrows_storeScalar (scalar : Scalar F) (name : Name) (json : JSON F) : OnlyThrows (storeScalar scalar name json) := by
  cases scalar with
  | str v =>
    refine OnlyThrows.map ?_ _
    cases json.value name.content with
    | undef | str stor | int stor | flt stor => exact onlyThrows_ok _
    | obj stor => exact onlyThrows_exception
  | flt v =>
    refine OnlyThrows.map ?_ _
    cases json.value name.content with
    | undef | int stor | flt stor => exact onlyThrows_ok _
    | str stor => exact onlyThrows_mapM (fun text => onlyThrows_orThrow _) stor
    | obj stor => exact onlyThrows_exception
  | int v =>
    refine OnlyThrows.map ?_ _
    cases json.value name.content with
    | undef | int stor | flt stor => exact onlyThrows_ok _
    | str stor => exact onlyThrows_mapM (fun text => onlyThrows_orThrow _) stor
    | obj stor => exact onlyThrows_exception

end Throws

section Allowed
variable [FloatLib F] {p : Parser F} {token : Token}

theorem allows_compound_l (type : token.type = .compound_l) : OnlyThrows (step p token) ↔ (shape p).Allows F token := by
  have allows : (shape p).Allows F token ↔ (0 < (shape p).depth → (shape p).arrays ≠ []) := by
    unfold Shape.Allows
    rw [type]
  rw [allows]
  simp only [step, type]
  split
  · rename_i stack
    rw [depth_nil stack]
    exact iff_of_true (onlyThrows_ok _) (fun none => absurd none (Nat.lt_irrefl 0))
  · rename_i stack shaped
    exact iff_of_false (not_onlyThrows (by decide)) (fun needs => needs (depth_cons stack) (arrays_nil shaped))
  · rename_i top below name names stack shaped
    refine iff_of_true ?_ (fun _ => arrays_cons shaped)
    exact ((onlyThrows_toObjs _).map _).bind (fun child _ => ((onlyThrows_toObjs _).map _).map _)

theorem allows_compound_r (type : token.type = .compound_r) (placed : Placed p.objStack) :
    OnlyThrows (step p token) ↔ (shape p).Allows F token := by
  have allows : (shape p).Allows F token ↔ 0 < (shape p).depth ∧ (1 < (shape p).depth → (shape p).arrays ≠ []) := by
    unfold Shape.Allows
    rw [type]
  rw [allows]
  simp only [step, type]
  split
  · rename_i stack
    rw [depth_nil stack]
    exact iff_of_false (not_onlyThrows (by decide)) (fun needs => Nat.lt_irrefl 0 needs.1)
  · rename_i root stack
    refine iff_of_true (onlyThrows_ok _) ⟨depth_cons stack, fun deeper => ?_⟩
    rw [shape, stack] at deeper
    exact absurd deeper (Nat.lt_irrefl 1)
  · rename_i child top below stack
    have deep : 1 < (shape p).depth := by
      rw [shape, stack]
      exact Nat.succ_lt_succ (Nat.succ_pos _)
    rw [stack] at placed
    obtain ⟨top', closed⟩ := closeObject_placed placed
    rw [closed, ok_bind]
    split
    · rename_i shaped
      exact iff_of_false (not_onlyThrows (by decide)) (fun needs => needs.2 deep (arrays_nil shaped))
    · rename_i name names shaped
      refine iff_of_true ?_ ⟨depth_cons stack, fun _ => arrays_cons shaped⟩
      split <;> exact onlyThrows_ok _

theorem allows_scalar (type : token.type = .string ∨ token.type = .number) :
    OnlyThrows (step p token) ↔ (shape p).Allows F token := by
  have allows : (shape p).Allows F token ↔
      if p.tokenIsValue then Unreadable F token ∨ (0 < (shape p).depth ∧ (shape p).arrays ≠ [])
      else token.comment ≠ [] → 0 < (shape p).depth := by
    unfold Shape.Allows
    obtain type | type := type <;>
    · rw [type]
      rfl
  have ran : OnlyThrows (step p token) ↔ OnlyThrows (stepScalar p token) := by
    have same : step p token = (stepScalar p token >>= fun next => pure (.inl next)) := by
      obtain type | type := type <;> simp only [step, type]
    rw [same]
    cases stepScalar p token with
    | error fault => exact ⟨fun only thrown same => only thrown (by cases same; rfl), fun only => only.map _⟩
    | ok next => exact iff_of_true (onlyThrows_ok _) (onlyThrows_ok next)
  rw [ran, allows]
  unfold stepScalar
  split_ifs with value comment
  · cases read : tokenScalar (F := F) p.negate token with
    | error fault =>
      have unreadable : Unreadable F token := by
        by_contra readable
        obtain ⟨scalar, other⟩ := (tokenScalar_unreadable p.negate token).mpr readable
        cases read.symm.trans other
      rw [onlyThrows_tokenScalar p.negate token fault read]
      exact iff_of_true onlyThrows_exception (Or.inl unreadable)
    | ok scalar =>
      have readable : ¬Unreadable F token := (tokenScalar_unreadable p.negate token).mp ⟨scalar, read⟩
      rw [ok_bind, or_iff_right readable]
      split
      · rename_i top below name names stack shaped
        exact iff_of_true ((onlyThrows_storeScalar _ _ _).map _) ⟨depth_cons stack, arrays_cons shaped⟩
      · rename_i lacking
        refine iff_of_false (not_onlyThrows (by decide)) (fun needs => ?_)
        obtain ⟨top, below, stack⟩ := List.exists_cons_of_ne_nil (fun empty => absurd needs.1 (by rw [depth_nil empty]; exact Nat.lt_irrefl 0))
        obtain ⟨name, names, shaped⟩ := List.exists_cons_of_ne_nil (fun empty => needs.2 (arrays_nil empty))
        exact lacking top below name names stack shaped
  · exact iff_of_true (onlyThrows_ok _) (fun commented => absurd comment commented)
  · split
    · rename_i stack
      rw [depth_nil stack]
      exact iff_of_false (not_onlyThrows (by decide)) (fun needs => Nat.lt_irrefl 0 (needs comment))
    · rename_i top below stack
      exact iff_of_true (onlyThrows_ok _) (fun _ => depth_cons stack)

theorem allows_names (type : token.type = .seperator ∨ token.type = .subscr_l ∨ token.type = .subscr_r) :
    OnlyThrows (step p token) ↔ (shape p).Allows F token := by
  have allows : (shape p).Allows F token ↔ (shape p).arrays ≠ [] := by
    unfold Shape.Allows
    obtain type | type | type := type <;> rw [type]
  rw [allows]
  cases shaped : p.nameStack with
  | nil =>
    refine iff_of_false ?_ (fun some => some (arrays_nil shaped))
    obtain type | type | type := type <;>
    · simp only [step, type, shaped]
      exact not_onlyThrows (by decide)
  | cons name names =>
    refine iff_of_true ?_ (arrays_cons shaped)
    obtain type | type | type := type
    · simp only [step, type, shaped]
      split <;> exact onlyThrows_ok _
    · simp only [step, type, shaped]
      exact onlyThrows_ok _
    · simp only [step, type, shaped]
      exact onlyThrows_ok _

/-- A token throws at most, just when it finds what it needs. -/
theorem allows_iff (placed : Placed p.objStack) : OnlyThrows (step p token) ↔ (shape p).Allows F token := by
  cases type : token.type with
  | compound_l => exact allows_compound_l type
  | compound_r => exact allows_compound_r type placed
  | string => exact allows_scalar (Or.inl type)
  | number => exact allows_scalar (Or.inr type)
  | seperator => exact allows_names (Or.inl type)
  | subscr_l => exact allows_names (Or.inr (Or.inl type))
  | subscr_r => exact allows_names (Or.inr (Or.inr type))
  | op_sub | jsonassign | _null =>
    simp only [step, type, Shape.Allows]
    exact iff_of_true (onlyThrows_ok _) trivial
  | _ =>
    simp only [step, type, Shape.Allows]
    exact iff_of_true onlyThrows_exception trivial

end Allowed

section Runs
variable [FloatLib F]

/-- The parser goes on after a token. -/
def advance (token : Token) (p : Parser F) : Option (Parser F) :=
  match step p token with
  | .ok (.inl q) => some q
  | _ => none

/-- The parser has neither returned nor thrown at the end of these tokens. -/
def Reads (F : Type) [FloatLib F] (tokens : List Token) : Prop :=
  ∃ p, Schedule.run (advance (F := F)) tokens {} = some p

theorem advance_eq_some {p q : Parser F} {token : Token} : advance token p = some q ↔ step p token = .ok (.inl q) := by
  unfold advance
  split
  · rename_i next done
    rw [done, Option.some_inj, Except.ok.injEq, Sum.inl.injEq]
  · rename_i other
    exact iff_of_false nofun (fun done => other q done)

/-- The parser goes on from where the first tokens leave it. -/
theorem parse_append {front : List Token} {p q : Parser F} (ran : Schedule.run advance front p = some q) (later : List Token) :
    parse p (front ++ later) = parse q later := by
  induction front generalizing p with
  | nil =>
    cases ran
    rfl
  | cons token front ih =>
    obtain ⟨mid, advanced, ran⟩ := Option.bind_eq_some_iff.mp ran
    rw [List.cons_append, parse, advance_eq_some.mp advanced]
    exact ih ran

/-- The shape at the end of a run is counted along its tokens. -/
theorem shape_run {tokens : List Token} {p q : Parser F} (placed : Placed p.objStack)
    (ran : Schedule.run advance tokens p = some q) : shape q = tokens.foldl Shape.next (shape p) ∧ Placed q.objStack := by
  induction tokens generalizing p with
  | nil =>
    cases ran
    exact ⟨rfl, placed⟩
  | cons token tokens ih =>
    obtain ⟨mid, advanced, ran⟩ := Option.bind_eq_some_iff.mp ran
    obtain ⟨next, placed⟩ := step_next placed (advance_eq_some.mp advanced)
    rw [List.foldl_cons, ← next]
    exact ih placed ran

/-- The parser throws at most, just when each token that it comes to is allowed. -/
theorem parse_onlyThrows {tokens : List Token} {p : Parser F} (placed : Placed p.objStack)
    (ends : ∃ front, tokens = front ++ [⟨[], .eof, []⟩]) :
    OnlyThrows (parse p tokens) ↔ Schedule.OrderedRun advance (fun p token => (shape p).Allows F token) tokens p := by
  induction tokens generalizing p with
  | nil =>
    obtain ⟨front, shaped⟩ := ends
    exact absurd shaped (by simp)
  | cons token tokens ih =>
    have allowed : OnlyThrows (step p token) ↔ (shape p).Allows F token := allows_iff placed
    unfold Schedule.OrderedRun parse advance
    cases done : step p token with
    | error fault =>
      rw [done] at allowed
      simp only [and_true]
      refine Iff.trans ?_ allowed
      exact ⟨fun only thrown same => only thrown (by cases same; rfl), fun only thrown same => only thrown (by cases same; rfl)⟩
    | ok result =>
      rw [done] at allowed
      have now := allowed.mp (onlyThrows_ok result)
      cases result with
      | inr json =>
        simp only [and_true]
        exact iff_of_true (onlyThrows_ok json) now
      | inl next =>
        have rest : ∃ front, tokens = front ++ [⟨[], .eof, []⟩] := by
          obtain ⟨front, shaped⟩ := ends
          cases front with
          | nil =>
            cases shaped
            cases done
          | cons first front => exact ⟨front, (List.cons.inj shaped).2⟩
        simp only [now, true_and]
        exact ih (step_next placed done).2 rest

/-- A text is read or thrown out, just when each token that the parser comes to finds what
it needs: an open object, a name. -/
theorem unserialize_onlyThrows (content : Str) :
    OnlyThrows (unserialize (F := F) content) ↔ ∀ front token later, lex content = front ++ token :: later → Reads F front →
      (front.foldl Shape.next {}).Allows F token := by
  have start : Placed ({} : Parser F).objStack := trivial
  rw [unserialize, parse_onlyThrows start (lex_ends content false), Schedule.orderedRun_iff]
  constructor
  · intro allowed front token later shaped reads
    obtain ⟨p, ran⟩ := reads
    have counted := (shape_run start ran).1
    have allows := allowed front token later shaped p ran
    rw [counted] at allows
    exact allows
  · intro allowed front token later shaped p ran
    rw [(shape_run start ran).1]
    exact allowed front token later shaped ⟨p, ran⟩

/-- A closing brace ends the process. -/
theorem unserialize_brace : ¬∃ (F : Type) (_ : FloatLib F), ∀ content, OnlyThrows (unserialize (F := F) content) := by
  intro only
  obtain ⟨F, lib, only⟩ := only
  have tokens : lex [125] = [⟨[125], .compound_r, []⟩, ⟨[], .eof, []⟩] := by decide +kernel
  have aborts : unserialize (F := F) [125] = .error .abort := by
    rw [unserialize, tokens]
    rfl
  exact not_onlyThrows (by decide) (aborts ▸ only [125])

end Runs

end CloudCryptFS.Script.Malformed
