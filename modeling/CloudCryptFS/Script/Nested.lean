import CloudCryptFS.Script.Documents
import CloudCryptFS.Script.Malformed

/-! Reading documents back. The parser takes names off its stack at commas and at braces,
not always those that were put there last: which of them are left is followed through the
document, and a document is read back if no element of a list meets another's name. -/

namespace CloudCryptFS.Script.Documents
open Util Lexer Json Flat Malformed

section Names

/-- The names after a comma. -/
def separated : List Name × Bool → Option (List Name)
  | ([], _) => none
  | (top :: names, didCloseObj) =>
    some (if top.isArray then { top with idx := top.idx + 1 } :: names else if didCloseObj then top :: names else names)

/-- The names after the closing brace of an object within another, and the flag that it
leaves. -/
def braced : List Name × Bool → Option (List Name × Bool)
  | ([], _) => none
  | (top :: names, didCloseObj) => some (if top.isArray then (top :: names, didCloseObj) else (names, true))

/-- The names after the closing bracket of a list. -/
def unbracketed : List Name × Bool → Option (List Name × Bool)
  | ([], _) => none
  | (top :: names, didCloseObj) => some ({ top with isArray := false } :: names, didCloseObj)

/-- The name on top, with its index. -/
def onTop (names : List Name) : Option (Str × Nat) := names.head?.map (fun top => (top.content, top.idx))

mutual
/-- The names that the parser holds at the end of a document, and the flag: none where it
finds no name, where a number is too large for it, or where an element of a list is not
under the name of the list and its own index. -/
def Doc.read : Doc → List Name → Option (List Name × Bool)
  | .nil, names => some (names, false)
  | .cons name value .nil, names => value.read name names
  | .cons name value (.cons other next rest), names =>
    (value.read name names).bind (fun after => (separated after).bind (Doc.read (.cons other next rest)))

def Value.read (name : Str) : Value → List Name → Option (List Name × Bool)
  | .ints stor, names => if ∀ i ∈ stor, i.natAbs ≤ intMax then some (⟨name, stor.length - 1, false⟩ :: names, false) else none
  | .strs stor, names => some (⟨name, stor.length - 1, false⟩ :: names, false)
  | .obj doc, names => (doc.read (⟨name, 0, false⟩ :: names)).bind braced
  | .objs docs, names => (docs.read name 0 (⟨name, 0, true⟩ :: names)).bind unbracketed

def Docs.read (name : Str) : Docs → Nat → List Name → Option (List Name × Bool)
  | .nil, _, _ => none
  | .cons doc .nil, idx, names => if onTop names = some (name, idx) then (doc.read names).bind braced else none
  | .cons doc (.cons next rest), idx, names =>
    if onTop names = some (name, idx) then
      ((doc.read names).bind braced).bind (fun after =>
        (separated after).bind (Docs.read name (.cons next rest) (idx + 1)))
    else none
end

end Names

section Held
variable {F : Type} {α : Type} (mk : List α → ListVariant F) (before : List (Str × ListVariant F)) (name : Str)

/-- An object that has so much of the value of its last name. -/
def held : List α → JSON F
  | [] => .mk before []
  | x :: stor => .mk (before ++ [(name, mk (x :: stor))]) []

variable {mk before name}

theorem held_ne_nil {stor : List α} (filled : stor ≠ []) : held mk before name stor = .mk (before ++ [(name, mk stor)]) [] := by
  cases stor with
  | nil => exact absurd rfl filled
  | cons x stor => rfl

theorem find?_above (above : ∀ entry ∈ before, entry.1 < name) : SortedEntries.find? name before = none :=
  (SortedEntries.find?_eq_none_iff before name).mpr (fun entry member => ne_of_lt (above entry member))

theorem find?_last (above : ∀ entry ∈ before, entry.1 < name) (value : ListVariant F) :
    SortedEntries.find? name (before ++ [(name, value)]) = some value := by
  rw [← SortedEntries.set_append_of_lt value above, SortedEntries.find?_set_self]

theorem set_last (above : ∀ entry ∈ before, entry.1 < name) (value next : ListVariant F) :
    SortedEntries.set name next (before ++ [(name, value)]) = before ++ [(name, next)] := by
  induction before with
  | nil => simp [SortedEntries.set]
  | cons entry before ih =>
    have own := above entry List.mem_cons_self
    have later := ih (fun other member => above other (List.mem_cons_of_mem entry member))
    rw [List.cons_append, SortedEntries.set, if_neg (not_lt_of_gt own), if_neg (ne_of_lt own), later, List.cons_append]

theorem value_held (above : ∀ entry ∈ before, entry.1 < name) (stor : List α) :
    (held mk before name stor).value name = if stor = [] then .undef else mk stor := by
  cases stor with
  | nil => simp [held, JSON.value, JSON.values, find?_above above]
  | cons x stor => simp [held, JSON.value, JSON.values, find?_last above]

theorem setValue_held (above : ∀ entry ∈ before, entry.1 < name) (stor : List α) {next : List α} (filled : next ≠ []) :
    (held mk before name stor).setValue name (mk next) = held mk before name next := by
  rw [held_ne_nil filled]
  cases stor with
  | nil => simp [held, JSON.setValue, JSON.values, JSON.comments, SortedEntries.set_append_of_lt _ above]
  | cons x stor => simp [held, JSON.setValue, JSON.values, JSON.comments, set_last above]

theorem putAt_end (blank value : α) (stor : List α) : putAt blank stor stor.length value = stor ++ [value] := by
  simp [putAt]

theorem putAt_last (blank old value : α) (stor : List α) : putAt blank (stor ++ [old]) stor.length value = stor ++ [value] := by
  simp [putAt]

theorem toObjs_held {stor : List (Option (JSON F))} (above : ∀ entry ∈ before, entry.1 < name) : toObjs ((held .obj before name stor).value name) = .ok stor := by
  rw [value_held above]
  by_cases empty : stor = [] <;> simp [empty, toObjs]

/-- Every entry comes after those that are there. -/
theorem above_append {value : ListVariant F} {keys : List Str} (above : ∀ entry ∈ before, ∀ key ∈ keys, entry.1 < key)
    (next : ∀ key ∈ keys, name < key) : ∀ entry ∈ before ++ [(name, value)], ∀ key ∈ keys, entry.1 < key := by
  intro entry member key inside
  obtain old | new := List.mem_append.mp member
  · exact above entry old key inside
  · cases List.mem_singleton.mp new
    exact next key inside

end Held

section Steps
variable {F : Type} [FloatLib F]

/-- The parser within an object. -/
def within (value : Bool) (frame : Frame F) (below : List (Frame F)) (names : List Name) (didCloseObj : Bool) : Parser F where
  tokenIsValue := value
  objStack := frame :: below
  nameStack := names
  didCloseObj := didCloseObj

/-- Where a value may follow, the name on top is that of the last value. -/
def Settled (value : Bool) (names : List Name) : Prop := value = true → ∃ top ∈ names.head?, top.isArray = false

variable {value didCloseObj : Bool} {frame : Frame F} {below : List (Frame F)} {names names' : List Name}

theorem advance_literal (text : Str) : advance (literal text) (within false frame below names didCloseObj) =
    some (within false frame below (⟨text, 0, false⟩ :: names) didCloseObj) := rfl

theorem advance_colon : advance colon (within value frame below names didCloseObj) =
    some (within true frame below names didCloseObj) := rfl

theorem advance_comma (settled : Settled value names) (ends : separated (names, didCloseObj) = some names') :
    advance comma (within value frame below names didCloseObj) = some (within false frame below names' false) := by
  cases names with
  | nil => cases ends
  | cons top names =>
    cases isArray : top.isArray with
    | true =>
      have noValue : value = false := by
        cases value with
        | false => rfl
        | true =>
          obtain ⟨_, same, other⟩ := settled rfl
          cases same
          rw [isArray] at other
          cases other
      simp only [separated, isArray, if_true, Option.some.injEq] at ends
      subst ends
      simp [advance, step, comma, within, isArray, noValue]
    | false =>
      simp only [separated, isArray, Bool.false_eq_true, if_false, Option.some.injEq] at ends
      subst ends
      cases didCloseObj <;> simp [advance, step, comma, within, isArray]

/-- Between the elements of a list of numbers or strings. -/
theorem advance_comma_list (name : Str) (idx : Nat) :
    advance comma (within true frame below (⟨name, idx, true⟩ :: names) didCloseObj) =
      some (within true frame below (⟨name, idx + 1, true⟩ :: names) false) := rfl

theorem advance_openBracket (name : Str) (idx : Nat) :
    advance openBracket (within value frame below (⟨name, idx, false⟩ :: names) didCloseObj) =
      some (within value frame below (⟨name, idx, true⟩ :: names) didCloseObj) := rfl

theorem advance_closeBracket {didCloseObj' : Bool} (ends : unbracketed (names, didCloseObj) = some (names', didCloseObj')) :
    advance closeBracket (within value frame below names didCloseObj) = some (within value frame below names' didCloseObj') := by
  cases names with
  | nil => cases ends
  | cons top names =>
    cases ends
    rfl

theorem advance_openBrace {top : Name} {child json : JSON F} (opened : openObject top frame.json = .ok child)
    (closed : closeObject ⟨child, top.content, top.idx⟩ frame.json = .ok json) :
    advance openBrace (within value frame below (top :: names) didCloseObj) =
      some (within false ⟨child, top.content, top.idx⟩ ({ frame with json := json } :: below) (top :: names) didCloseObj) := by
  simp [advance, step, openBrace, within, opened, closed]

theorem advance_closeBrace {child : Frame F} {json : JSON F} {didCloseObj' : Bool} (settled : Settled value names)
    (closed : closeObject child frame.json = .ok json) (ends : braced (names, didCloseObj) = some (names', didCloseObj')) :
    advance closeBrace (within value child (frame :: below) names didCloseObj) =
      some (within false { frame with json := json } below names' didCloseObj') := by
  cases names with
  | nil => cases ends
  | cons top names =>
    cases isArray : top.isArray with
    | true =>
      have noValue : value = false := by
        cases value with
        | false => rfl
        | true =>
          obtain ⟨_, same, other⟩ := settled rfl
          cases same
          rw [isArray] at other
          cases other
      simp only [braced, isArray, if_true, Option.some.injEq, Prod.mk.injEq] at ends
      obtain ⟨rfl, rfl⟩ := ends
      simp [advance, step, closeBrace, within, closed, isArray, noValue]
    | false =>
      simp only [braced, isArray, Bool.false_eq_true, if_false, Option.some.injEq, Prod.mk.injEq] at ends
      obtain ⟨rfl, rfl⟩ := ends
      simp [advance, step, closeBrace, within, closed, isArray]

end Steps

section Scalars
variable {F : Type} [FloatLib F]

/-- The tokens of an element put it behind those that are there. -/
def Stores {α : Type} (mk : List α → ListVariant F) (tokens : α → List Token) (x : α) : Prop :=
  ∀ (before : List (Str × ListVariant F)) (name n : Str) (i : Nat) (below : List (Frame F)) (names : List Name) (stor : List α)
    (array : Bool), (∀ entry ∈ before, entry.1 < name) →
    Schedule.run advance (tokens x) (within true ⟨held mk before name stor, n, i⟩ below (⟨name, stor.length, array⟩ :: names) false) =
      some (within true ⟨held mk before name (stor ++ [x]), n, i⟩ below (⟨name, stor.length, array⟩ :: names) false)

theorem stores_str (text : Str) : Stores (F := F) .str (fun text => [literal text]) text := by
  intro before name n i below names stor array above
  have taken : toStrs (if stor = [] then ListVariant.undef else .str stor : ListVariant F) = .ok stor := by
    by_cases empty : stor = [] <;> simp [empty, toStrs]
  have stored : storeScalar (.str text) ⟨name, stor.length, array⟩ (held (F := F) .str before name stor) =
      .ok (held .str before name (stor ++ [text])) := by
    simp only [storeScalar, value_held above, taken, ok_bind, putAt_end, setValue_held above stor (List.append_ne_nil_of_right_ne_nil stor (List.cons_ne_nil text []))]
    rfl
  refine (Schedule.run_cons (t := within true ⟨held .str before name (stor ++ [text]), n, i⟩ below _ false) ?_).trans rfl
  simp [advance, step, stepScalar, tokenScalar, literal, within, stored]

theorem stores_int {v : Int} (small : v.natAbs ≤ intMax) : Stores (F := F) .int valueTokens v := by
  intro before name n i below names stor array above
  have taken : toInts (if stor = [] then ListVariant.undef else .int stor : ListVariant F) = .ok stor := by
    by_cases empty : stor = [] <;> simp [empty, toInts]
  have stored : storeScalar (.int v) ⟨name, stor.length, array⟩ (held (F := F) .int before name stor) =
      .ok (held .int before name (stor ++ [v])) := by
    simp only [storeScalar, value_held above, taken, ok_bind, putAt_end, setValue_held above stor (List.append_ne_nil_of_right_ne_nil stor (List.cons_ne_nil v []))]
    rfl
  have digits : ∀ negate, (if negate then -(v.natAbs : Int) else v.natAbs) = v →
      advance ⟨digitsOf v.natAbs, .number, []⟩ { within true ⟨held .int before name stor, n, i⟩ below
        (⟨name, stor.length, array⟩ :: names) false with negate := negate } =
        some (within true ⟨held (F := F) .int before name (stor ++ [v]), n, i⟩ below (⟨name, stor.length, array⟩ :: names) false) := by
    intro negate value
    have read : tokenScalar (F := F) negate ⟨digitsOf v.natAbs, .number, []⟩ = .ok (.int v) := by
      rw [tokenScalar_digits, if_pos small, value]
    simp [advance, step, stepScalar, within, read, stored]
  unfold valueTokens
  split
  · have minus : advance ⟨[45], .op_sub, []⟩ (within true ⟨held .int before name stor, n, i⟩ below
        (⟨name, stor.length, array⟩ :: names) false) = some { within true ⟨held (F := F) .int before name stor, n, i⟩ below
        (⟨name, stor.length, array⟩ :: names) false with negate := true } := rfl
    rw [Schedule.run_cons minus, Schedule.run_cons (digits true (by rw [if_pos rfl]; omega))]
    rfl
  · exact (Schedule.run_cons (digits false (by rw [if_neg Bool.false_ne_true]; omega))).trans rfl

/-- The elements of a list, from the first one on. -/
theorem run_elements {α : Type} {mk : List α → ListVariant F} {tokens : α → List Token} {xs : List α} (filled : xs ≠ [])
    (each : ∀ x ∈ xs, Stores mk tokens x) (before : List (Str × ListVariant F)) (name n : Str) (i : Nat) (below : List (Frame F))
    (names : List Name) (stor : List α) (above : ∀ entry ∈ before, entry.1 < name) :
    Schedule.run advance ([comma].intercalate (xs.map tokens))
        (within true ⟨held mk before name stor, n, i⟩ below (⟨name, stor.length, true⟩ :: names) false) =
      some (within true ⟨held mk before name (stor ++ xs), n, i⟩ below (⟨name, stor.length + xs.length - 1, true⟩ :: names) false) := by
  induction xs generalizing stor with
  | nil => exact absurd rfl filled
  | cons x xs ih =>
    have own := each x List.mem_cons_self before name n i below names stor true above
    cases xs with
    | nil =>
      rw [List.map_cons, List.map_nil, List.intercalate_singleton, own]
      rfl
    | cons next xs =>
      have later := ih (List.cons_ne_nil _ _) (fun y member => each y (List.mem_cons_of_mem x member)) (stor ++ [x])
      rw [List.length_append, List.length_singleton] at later
      rw [List.map_cons, List.map_cons, List.intercalate_cons_cons, List.append_assoc, Schedule.run_append own, List.singleton_append,
        Schedule.run_cons (advance_comma_list name stor.length), ← List.map_cons, later, List.append_assoc, List.singleton_append]
      have amount : stor.length + 1 + (next :: xs).length - 1 = stor.length + (x :: next :: xs).length - 1 := by
        simp only [List.length_cons]
        omega
      rw [amount]

theorem run_list {α : Type} {mk : List α → ListVariant F} {tokens : α → List Token} {xs : List α} (filled : xs ≠ [])
    (each : ∀ x ∈ xs, Stores mk tokens x) {before : List (Str × ListVariant F)} {name : Str} (n : Str) (i : Nat)
    (below : List (Frame F)) (names : List Name) (above : ∀ entry ∈ before, entry.1 < name) :
    Schedule.run advance (listTokens (xs.map tokens)) (within true ⟨.mk before [], n, i⟩ below (⟨name, 0, false⟩ :: names) false) =
      some (within true ⟨.mk (before ++ [(name, mk xs)]) [], n, i⟩ below (⟨name, xs.length - 1, false⟩ :: names) false) := by
  have start : (.mk before [] : JSON F) = held mk before name [] := rfl
  rw [start, ← held_ne_nil filled]
  match xs with
  | [] => exact absurd rfl filled
  | [x] => exact each x List.mem_cons_self before name n i below names [] false above
  | first :: second :: rest =>
    have inside := run_elements filled each before name n i below names [] above
    rw [List.length_nil, Nat.zero_add, List.nil_append] at inside
    have ends : unbracketed (⟨name, (first :: second :: rest).length - 1, true⟩ :: names, false) =
        some (⟨name, (first :: second :: rest).length - 1, false⟩ :: names, false) := rfl
    have listed : listTokens ((first :: second :: rest).map tokens) =
        openBracket :: ([comma].intercalate ((first :: second :: rest).map tokens) ++ [closeBracket]) := rfl
    rw [listed, Schedule.run_cons (advance_openBracket name 0), Schedule.run_append inside, Schedule.run_cons (advance_closeBracket ends)]
    rfl

end Scalars

section Objects
variable {F : Type}

/-- The tokens of a document put its entries behind those that are there, and leave the
names that were foretold. -/
def DocRuns (F : Type) [FloatLib F] (doc : Doc) : Prop :=
  ∀ (names names' : List Name) (didCloseObj : Bool), doc.read names = some (names', didCloseObj) →
    ∀ (before : List (Str × ListVariant F)) (n : Str) (i : Nat) (below : List (Frame F)),
      (∀ entry ∈ before, ∀ key ∈ doc.keys, entry.1 < key) → ∃ value, Settled value names' ∧
        Schedule.run advance doc.tokens (within false ⟨.mk before [], n, i⟩ below names false) =
          some (within value ⟨.mk (before ++ doc.values F) [], n, i⟩ below names' didCloseObj)

theorem settled_false (names : List Name) : Settled false names := nofun

variable {before : List (Str × ListVariant F)} {name n : Str} {i : Nat} {below : List (Frame F)} {names names' : List Name}
  {didCloseObj : Bool} {stor : List (Option (JSON F))}

/-- The next object of a list is opened as an empty one. -/
theorem openObject_held (above : ∀ entry ∈ before, entry.1 < name) (array : Bool) :
    openObject ⟨name, stor.length, array⟩ (held .obj before name stor) = .ok .empty := by
  simp [openObject, toObjs_held above, pure, Except.pure]

theorem closeObject_held (above : ∀ entry ∈ before, entry.1 < name) (child : JSON F) :
    closeObject ⟨child, name, stor.length⟩ (held .obj before name stor) = .ok (held .obj before name (stor ++ [some child])) := by
  have filled : stor ++ [some child] ≠ [] := List.append_ne_nil_of_right_ne_nil stor (List.cons_ne_nil _ [])
  simp only [closeObject, toObjs_held above, ok_bind, putAt_end, setValue_held above stor filled]
  rfl

theorem closeObject_held_again (above : ∀ entry ∈ before, entry.1 < name) (old child : JSON F) :
    closeObject ⟨child, name, stor.length⟩ (held .obj before name (stor ++ [some old])) =
      .ok (held .obj before name (stor ++ [some child])) := by
  have filled : stor ++ [some child] ≠ [] := List.append_ne_nil_of_right_ne_nil stor (List.cons_ne_nil _ [])
  simp only [closeObject, toObjs_held above, ok_bind, putAt_last, setValue_held above _ filled]
  rfl

variable [FloatLib F]

/-- An object goes to the place of the name on top. -/
theorem run_object {doc : Doc} (runs : DocRuns F doc) (read : (doc.read names).bind braced = some (names', didCloseObj))
    (top : onTop names = some (name, stor.length)) (above : ∀ entry ∈ before, entry.1 < name) (value : Bool) :
    Schedule.run advance (openBrace :: doc.tokens ++ [closeBrace]) (within value ⟨held .obj before name stor, n, i⟩ below names false) =
      some (within false ⟨held .obj before name (stor ++ [some (doc.json F)]), n, i⟩ below names' didCloseObj) := by
  obtain ⟨⟨inner, closed⟩, own, ends⟩ := Option.bind_eq_some_iff.mp read
  cases names with
  | nil => cases top
  | cons first names =>
    obtain ⟨content, idx, array⟩ := first
    simp only [onTop, List.head?_cons, Option.map_some, Option.some.injEq, Prod.mk.injEq] at top
    obtain ⟨rfl, rfl⟩ := top
    have opened : advance openBrace (within value ⟨held .obj before content stor, n, i⟩ below (⟨content, stor.length, array⟩ :: names)
        false) = some (within false ⟨.empty, content, stor.length⟩
          (⟨held .obj before content (stor ++ [some .empty]), n, i⟩ :: below) (⟨content, stor.length, array⟩ :: names) false) :=
      advance_openBrace (openObject_held above array) (closeObject_held above .empty)
    obtain ⟨inside, settled, ran⟩ := runs _ inner closed own [] content stor.length
      (⟨held .obj before content (stor ++ [some .empty]), n, i⟩ :: below) nofun
    have closes : advance closeBrace (within inside ⟨doc.json F, content, stor.length⟩
        (⟨held .obj before content (stor ++ [some .empty]), n, i⟩ :: below) inner closed) =
          some (within false ⟨held .obj before content (stor ++ [some (doc.json F)]), n, i⟩ below names' didCloseObj) :=
      advance_closeBrace settled (closeObject_held_again above .empty (doc.json F)) ends
    exact (Schedule.run_cons opened).trans ((Schedule.run_append ran).trans ((Schedule.run_cons closes).trans rfl))

mutual
theorem run_doc (F : Type) [FloatLib F] : ∀ doc : Doc, doc.Valid → DocRuns F doc
  | .nil, _ => by
    intro names names' closed read before n i below above
    cases read
    exact ⟨false, settled_false _, by rw [Doc.values, List.append_nil]; rfl⟩
  | .cons name value .nil, valid => by
    intro names names' closed read before n i below above
    obtain ⟨settled, own, ran⟩ := run_value F name value valid.2.2.1 names names' closed read before n i below
      (fun entry member => above entry member name List.mem_cons_self)
    exact ⟨settled, own, (Schedule.run_cons (advance_literal name)).trans ((Schedule.run_cons advance_colon).trans ran)⟩
  | .cons name value (.cons other next rest), valid => by
    intro names names' closed read before n i below above
    obtain ⟨⟨inner, flag⟩, own, read⟩ := Option.bind_eq_some_iff.mp read
    obtain ⟨names₁, ends, read⟩ := Option.bind_eq_some_iff.mp read
    obtain ⟨settled, keeps, ran⟩ := run_value F name value valid.2.2.1 names inner flag own before n i below
      (fun entry member => above entry member name List.mem_cons_self)
    have separates : advance comma (within settled ⟨.mk (before ++ [(name, value.variant F)]) [], n, i⟩ below inner flag) =
        some (within false ⟨.mk (before ++ [(name, value.variant F)]) [], n, i⟩ below names₁ false) := advance_comma keeps ends
    obtain ⟨settled', keeps', ran'⟩ := run_doc F (.cons other next rest) valid.2.2.2 names₁ names' closed read
      (before ++ [(name, value.variant F)]) n i below
      (above_append (fun entry member key inside => above entry member key (List.mem_cons_of_mem name inside)) valid.2.1)
    refine ⟨settled', keeps', ?_⟩
    have shape : before ++ (Doc.cons name value (.cons other next rest)).values F =
        before ++ [(name, value.variant F)] ++ (Doc.cons other next rest).values F := by
      simp [Doc.values]
    rw [Doc.tokens, shape, ← ran', ← Schedule.run_cons separates, ← Schedule.run_append ran, ← Schedule.run_cons advance_colon,
      ← Schedule.run_cons (advance_literal name)]
    rfl

theorem run_value (F : Type) [FloatLib F] (name : Str) : ∀ value : Value, value.Valid → ∀ (names names' : List Name) (didCloseObj : Bool),
    value.read name names = some (names', didCloseObj) → ∀ (before : List (Str × ListVariant F)) (n : Str) (i : Nat)
      (below : List (Frame F)), (∀ entry ∈ before, entry.1 < name) → ∃ settled, Settled settled names' ∧
        Schedule.run advance value.tokens (within true ⟨.mk before [], n, i⟩ below (⟨name, 0, false⟩ :: names) false) =
          some (within settled ⟨.mk (before ++ [(name, value.variant F)]) [], n, i⟩ below names' didCloseObj)
  | .ints stor, valid => by
    intro names names' closed read before n i below above
    unfold Value.read at read
    split at read
    · rename_i small
      cases read
      exact ⟨true, fun _ => ⟨_, rfl, rfl⟩, run_list valid.1 (fun v member => stores_int (small v member)) n i below names above⟩
    · cases read
  | .strs stor, valid => by
    intro names names' closed read before n i below above
    cases read
    exact ⟨true, fun _ => ⟨_, rfl, rfl⟩, run_list valid.1 (fun text _ => stores_str text) n i below names above⟩
  | .obj doc, valid => by
    intro names names' closed read before n i below above
    have ran : Schedule.run advance (openBrace :: doc.tokens ++ [closeBrace])
        (within true ⟨held .obj before name [], n, i⟩ below (⟨name, 0, false⟩ :: names) false) =
          some (within false ⟨held .obj before name ([] ++ [some (doc.json F)]), n, i⟩ below names' closed) :=
      run_object (run_doc F doc valid) read rfl above true
    exact ⟨false, settled_false _, ran⟩
  | .objs docs, valid => by
    intro names names' closed read before n i below above
    obtain ⟨⟨inner, flag⟩, own, ends⟩ := Option.bind_eq_some_iff.mp read
    have ran := run_docs F name docs valid.2 0 (⟨name, 0, true⟩ :: names) inner flag own before n i below [] above rfl true
    have filled : docs.objects F ≠ [] := by
      cases docs with
      | nil => exact absurd valid.1 (by decide)
      | cons doc rest => exact List.cons_ne_nil _ _
    rw [List.nil_append, held_ne_nil filled] at ran
    refine ⟨false, settled_false _, ?_⟩
    rw [Value.tokens, List.cons_append, Schedule.run_cons (advance_openBracket name 0)]
    exact (Schedule.run_append ran).trans ((Schedule.run_cons (advance_closeBracket ends)).trans rfl)

theorem run_docs (F : Type) [FloatLib F] (name : Str) : ∀ docs : Docs, docs.Valid → ∀ (idx : Nat) (names names' : List Name)
    (didCloseObj : Bool), docs.read name idx names = some (names', didCloseObj) → ∀ (before : List (Str × ListVariant F)) (n : Str)
      (i : Nat) (below : List (Frame F)) (stor : List (Option (JSON F))), (∀ entry ∈ before, entry.1 < name) → stor.length = idx →
        ∀ value, Schedule.run advance docs.tokens (within value ⟨held .obj before name stor, n, i⟩ below names false) =
          some (within false ⟨held .obj before name (stor ++ docs.objects F), n, i⟩ below names' didCloseObj)
  | .nil, _ => by
    intro idx names names' closed read
    cases read
  | .cons doc .nil, valid => by
    intro idx names names' closed read before n i below stor above amount value
    subst amount
    unfold Docs.read at read
    split at read
    · rename_i top
      exact run_object (run_doc F doc valid.1) read top above value
    · cases read
  | .cons doc (.cons next rest), valid => by
    intro idx names names' closed read before n i below stor above amount value
    subst amount
    unfold Docs.read at read
    split at read
    · rename_i top
      obtain ⟨⟨inner, flag⟩, own, read⟩ := Option.bind_eq_some_iff.mp read
      obtain ⟨names₁, ends, read⟩ := Option.bind_eq_some_iff.mp read
      have first : Schedule.run advance (openBrace :: doc.tokens ++ [closeBrace])
          (within value ⟨held .obj before name stor, n, i⟩ below names false) =
            some (within false ⟨held .obj before name (stor ++ [some (doc.json F)]), n, i⟩ below inner flag) :=
        run_object (run_doc F doc valid.1) own top above value
      have separates : advance comma (within false ⟨held .obj before name (stor ++ [some (doc.json F)]), n, i⟩ below inner flag) =
          some (within false ⟨held .obj before name (stor ++ [some (doc.json F)]), n, i⟩ below names₁ false) :=
        advance_comma (settled_false inner) ends
      have later := run_docs F name (.cons next rest) valid.2 (stor.length + 1) names₁ names' closed read before n i below
        (stor ++ [some (doc.json F)]) above (by simp) false
      have shape : stor ++ (Docs.cons doc (.cons next rest)).objects F =
          stor ++ [some (doc.json F)] ++ (Docs.cons next rest).objects F := by
        simp [Docs.objects, Doc.json]
      have listed : (Docs.cons doc (.cons next rest)).tokens =
          (openBrace :: doc.tokens ++ [closeBrace]) ++ comma :: (Docs.cons next rest).tokens := by
        simp [Docs.tokens]
      rw [listed, shape, Schedule.run_append first, Schedule.run_cons separates, later]
    · cases read
end

end Objects

section RoundTrip

/-- A document is read back as it was, when each element of a list of objects is met under the
name and the index that it had, each comma and brace finds a name, and no number is too large
to be read without its sign. -/
theorem unserialize_serialize_doc (F : Type) [FloatLib F] {doc : Doc} (valid : doc.Valid) (read : (doc.read []).isSome) (pretty : Nat) :
    unserialize (F := F) (serialize pretty (doc.json F)) = .ok (doc.json F) := by
  obtain ⟨⟨names, didCloseObj⟩, read⟩ := Option.isSome_iff_exists.mp read
  obtain ⟨value, _, ran⟩ := run_doc F doc valid [] names didCloseObj read [] [] 0 [] nofun
  have opened : advance openBrace ({} : Parser F) = some (within false ⟨.mk [] [], [], 0⟩ [] [] false) := rfl
  have front : Schedule.run advance (openBrace :: doc.tokens) ({} : Parser F) =
      some (within value ⟨doc.json F, [], 0⟩ [] names didCloseObj) := (Schedule.run_cons opened).trans ran
  rw [unserialize, lex_serialize F pretty valid, parse_append front]
  rfl

/-- An object and a list of objects below the names `a` and `b`, and a string. -/
def someDoc : Doc :=
  .cons [97] (.obj (.cons [120] (.ints [1]) (.cons [121] (.ints [2, -3]) .nil)))
    (.cons [98] (.objs (.cons .nil (.cons (.cons [122] (.strs [[104, 105], []]) .nil) .nil))) (.cons [99] (.strs [[33]]) .nil))

theorem valid_someDoc : someDoc.Valid := by
  refine ⟨by decide +kernel, by decide +kernel, ?_, by decide +kernel, by decide +kernel, ⟨by decide +kernel, ?_⟩, by decide +kernel, by decide +kernel, ⟨by decide +kernel, by decide +kernel⟩, trivial⟩
  · exact ⟨by decide +kernel, by decide +kernel, ⟨by decide +kernel, by decide +kernel⟩, by decide +kernel, by decide +kernel, ⟨by decide +kernel, by decide +kernel⟩, trivial⟩
  · exact ⟨trivial, ⟨by decide +kernel, by decide +kernel, ⟨by decide +kernel, by decide +kernel⟩, trivial⟩, trivial⟩

theorem unserialize_serialize_someDoc : ∃ (F : Type) (_ : FloatLib F),
    unserialize (F := F) (serialize 1 (someDoc.json F)) = .ok (someDoc.json F) := by
  let lib : FloatLib Int := ⟨0, fun x => -x, fun i => i, fun x => x, fun _ => [], fun _ => none⟩
  exact ⟨Int, lib, unserialize_serialize_doc Int valid_someDoc (by decide) 1⟩

/-- An empty object before another entry. -/
def emptyFirst : Doc := .cons [97] (.obj .nil) (.cons [98] (.ints [1]) .nil)

theorem valid_emptyFirst : emptyFirst.Valid := by
  refine ⟨by decide +kernel, by decide +kernel, trivial, by decide +kernel, nofun, ⟨by decide +kernel, by decide +kernel⟩, trivial⟩

/-- The separator finds no name: the first one went with its object. -/
theorem unserialize_emptyFirst : ¬∃ (F : Type) (_ : FloatLib F), ∀ doc : Doc, doc.Valid → ∀ pretty ≤ 1,
    unserialize (F := F) (serialize pretty (doc.json F)) = .ok (doc.json F) := by
  intro reads
  obtain ⟨F, lib, reads⟩ := reads
  have read := reads emptyFirst valid_emptyFirst 0 (Nat.zero_le 1)
  rw [unserialize, lex_serialize F 0 valid_emptyFirst] at read
  have aborts : parse ({} : Parser F) (openBrace :: emptyFirst.tokens ++ [closeBrace, ⟨[], .eof, []⟩]) = .error .abort := rfl
  cases aborts.symm.trans read

end RoundTrip

end CloudCryptFS.Script.Documents
