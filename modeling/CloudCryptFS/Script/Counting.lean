import CloudCryptFS.Script.Flat
import Mathlib.Data.List.Count
import Mathlib.Data.List.Nodup
import Mathlib.Data.List.Perm.Subperm

/-! What a text that is read without an error can say about names: the names of the
object are contents of literals, and a literal holds no more of a byte than the text
it was read from. A name that the writer put out raw and that comes back unchanged
therefore has no byte that the lexer takes away. -/

namespace CloudCryptFS.Script.Counting
open Util Lexer Json Flat

section Consumption

/-- The text that is still to be read. -/
def remaining (last : Option Byte) (rest : Str) : Str := last.toList ++ rest

theorem nextC_suffix (rest : Str) : remaining (nextC rest).1 (nextC rest).2 <:+ rest := by
  cases rest with
  | nil => simp [nextC, remaining]
  | cons c rest =>
    by_cases marker : c = eofByte
    · simp [nextC, remaining, marker]
    · simp [nextC, remaining, marker]

theorem spanC_suffix (p : Byte → Bool) (last : Option Byte) (rest : Str) :
    remaining (spanC p last rest).2.1 (spanC p last rest).2.2 <:+ remaining last rest := by
  induction rest generalizing last with
  | nil =>
    cases last with
    | none => simp [spanC]
    | some c => by_cases inside : p c = true <;> simp [spanC, inside, remaining]
  | cons d rest ih =>
    cases last with
    | none => simp [spanC]
    | some c =>
      by_cases inside : p c = true
      · have step := ih (if d = eofByte then none else some d)
        have next : remaining (if d = eofByte then none else some d) rest <:+ d :: rest := nextC_suffix (d :: rest)
        simp only [spanC, inside, if_true]
        exact step.trans (next.trans (List.suffix_cons c (d :: rest)))
      · simp [spanC, inside]

theorem spanC_inside (p : Byte → Bool) (last : Option Byte) (rest : Str) :
    ∀ c ∈ (spanC p last rest).1, p c = true := by
  induction rest generalizing last with
  | nil =>
    cases last with
    | none => simp [spanC]
    | some c => by_cases inside : p c = true <;> simp [spanC, inside]
  | cons d rest ih =>
    cases last with
    | none => simp [spanC]
    | some c =>
      by_cases inside : p c = true
      · simp only [spanC, inside, if_true, List.mem_cons]
        rintro other (rfl | later)
        · exact inside
        · exact ih _ other later
      · simp [spanC, inside]

theorem scanString_suffix (mark : Byte) (rest st : Str) (this last : Byte) :
    (scanString mark rest st this last).2 <:+ rest := by
  induction rest generalizing st this last with
  | nil => unfold scanString; split <;> simp
  | cons c rest ih =>
    unfold scanString
    split
    · exact List.suffix_refl _
    · dsimp only
      split
      · exact List.suffix_cons c rest
      · exact (ih _ _ _).trans (List.suffix_cons c rest)

theorem lineComment_suffix (rest : Str) : (lineComment rest).2 <:+ rest := by
  induction rest with
  | nil => simp [lineComment]
  | cons c rest ih =>
    unfold lineComment
    split
    · exact List.suffix_cons c rest
    · exact ih.trans (List.suffix_cons c rest)

theorem blockComment_suffix (this : Byte) (rest : Str) : (blockComment this rest).2 <:+ rest := by
  induction rest generalizing this with
  | nil => simp [blockComment]
  | cons c rest ih =>
    unfold blockComment
    split
    · exact List.suffix_cons c rest
    · exact (ih c).trans (List.suffix_cons c rest)

theorem lexWord_suffix (first : Byte) (rest : Str) :
    remaining (lexWord first rest).2.2.1 (lexWord first rest).2.2.2 <:+ rest := by
  have run := (spanC_suffix (fun c => isalnum c || c == 95) (nextC rest).1 (nextC rest).2).trans (nextC_suffix rest)
  unfold lexWord
  dsimp only
  split
  · exact run
  · rename_i words
    -- a label takes one byte more
    have label : ∀ taken : Prop, ∀ _ : Decidable taken,
        remaining (if taken then nextC (spanC (fun c => isalnum c || c == 95) (nextC rest).1 (nextC rest).2).2.2
            else (spanC (fun c => isalnum c || c == 95) (nextC rest).1 (nextC rest).2).2).1
          (if taken then nextC (spanC (fun c => isalnum c || c == 95) (nextC rest).1 (nextC rest).2).2.2
            else (spanC (fun c => isalnum c || c == 95) (nextC rest).1 (nextC rest).2).2).2 <:+ rest := by
      intro taken decided
      by_cases holds : taken
      · simp only [if_pos holds]
        exact (nextC_suffix _).trans ((List.suffix_append _ _).trans run)
      · simp only [if_neg holds]
        exact run
    split
    · exact label _ _
    · exact label _ _

end Consumption

section Turns

/-- What one turn of the lexer puts out, and where it goes on. -/
inductive Turn (go : Option Byte → Str → Str → List Token) (last : Option Byte) (rest comment : Str) :
    List Token → Prop
  | eof : Turn go last rest comment [⟨[], .eof, []⟩]
  | noLiteral (tail : Str) (inside : tail <:+ remaining last rest) (ended : (nextC tail).1 = none) :
      Turn go last rest comment
        (⟨[], .string, comment⟩ :: go (nextC (nextC tail).2).1 (nextC (nextC tail).2).2 [])
  | literal (mark first : Byte) (tail : Str) (isMark : mark = quote ∨ mark = apostrophe)
      (inside : mark :: tail <:+ remaining last rest) (begun : (nextC tail).1 = some first) :
      Turn go last rest comment
        (⟨(scanString mark (nextC tail).2 [] 0 first).1, .string, comment⟩ ::
          go (nextC (scanString mark (nextC tail).2 [] 0 first).2).1
            (nextC (scanString mark (nextC tail).2 [] 0 first).2).2 [])
  | other (token : Token) (last' : Option Byte) (rest' comment' : Str)
      (kind : token.type ≠ .string ∧ token.type ≠ .eof)
      (digits : token.type = .number → ∀ c ∈ token.content, isdigit c = true ∨ c = 46)
      (later : remaining last' rest' <:+ remaining last rest) :
      Turn go last rest comment (token :: go last' rest' comment')
  | blank (last' : Option Byte) (rest' comment' : Str) (later : remaining last' rest' <:+ remaining last rest) :
      Turn go last rest comment (go last' rest' comment')

/-- Keywords and operators are no literals, numbers or ends. -/
private def PlainKind (type : TokenType) : Bool := type != .string && type != .eof && type != .number

private theorem find_kind {table : List (Str × TokenType)} (kinds : table.all (fun entry => PlainKind entry.2) = true)
    {key : Str} {entry : Str × TokenType} (found : find table key = some entry) : PlainKind entry.2 = true :=
  List.all_eq_true.mp kinds entry (List.mem_of_find?_eq_some found)

private theorem lexWord_kind {first : Byte} {rest word after : Str} {type : TokenType} {last : Option Byte}
    (result : lexWord first rest = (word, some type, last, after)) : PlainKind type = true := by
  unfold lexWord at result
  dsimp only at result
  split at result
  · cases result
  · split at result
    · rename_i entry found
      cases result
      exact find_kind (by decide) found
    · cases result

private theorem Turn.plain {go : Option Byte → Str → Str → List Token} {last : Option Byte} {rest comment : Str}
    {token : Token} (kind : PlainKind token.type = true) {last' : Option Byte} {rest' comment' : Str}
    (later : remaining last' rest' <:+ remaining last rest) :
    Turn go last rest comment (token :: go last' rest' comment') := by
  simp only [PlainKind, Bool.and_eq_true, bne_iff_ne] at kind
  exact .other token last' rest' comment' kind.1 (fun number => absurd number kind.2) later

theorem lexLoop_turn (tokenizeComment : Bool) (fuel : Nat) (last : Option Byte) (rest comment : Str) :
    Turn (lexLoop tokenizeComment fuel) last rest comment (lexLoop tokenizeComment (fuel + 1) last rest comment) := by
  have blanks := spanC_suffix isspace last rest
  rw [lexLoop]
  generalize spanC isspace last rest = start at blanks ⊢
  obtain ⟨run, last, rest⟩ := start
  cases last with
  | none => exact .eof
  | some c =>
    have onward : rest <:+ remaining _ _ := (List.suffix_cons c rest).trans blanks
    dsimp only
    split
    · rename_i isMark
      cases begun : (nextC rest).1 with
      | none =>
        have shape : nextC rest = (none, (nextC rest).2) := Prod.ext begun rfl
        rw [shape]
        exact .noLiteral rest onward begun
      | some first =>
        have shape : nextC rest = (some first, (nextC rest).2) := Prod.ext begun rfl
        rw [shape]
        exact .literal c first rest isMark blanks begun
    · split
      · have word := (lexWord_suffix c rest).trans onward
        split
        · rename_i text type next after result
          rw [result] at word
          exact .plain (lexWord_kind result) word
        · rename_i text next after result
          rw [result] at word
          exact .plain rfl word
      · split
        · have number := (spanC_suffix (fun c => isdigit c || c == 46) (some c) rest).trans blanks
          refine .other _ _ _ _ ⟨by simp, by simp⟩ (fun _ => ?_) number
          intro d member
          simpa using spanC_inside _ _ _ d member
        · have next := (nextC_suffix rest).trans onward
          have skip : ∀ text : Str, text <:+ (nextC rest).2 → remaining (nextC text).1 (nextC text).2 <:+ remaining _ _ :=
            fun text inside => (nextC_suffix text).trans
              ((inside.trans (List.suffix_append _ _)).trans next)
          split
          · split
            · exact .plain rfl (skip _ (lineComment_suffix _))
            · exact .blank _ _ _ (skip _ (lineComment_suffix _))
          · split
            · split
              · exact .plain rfl (skip _ (blockComment_suffix _ _))
              · exact .blank _ _ _ (skip _ (blockComment_suffix _ _))
            · split
              · rename_i entry found
                exact .plain (find_kind (by decide) found) (skip _ (List.suffix_refl _))
              · split
                · rename_i entry found
                  exact .plain (find_kind (by decide) found) next
                · exact .plain rfl next

end Turns

section Weights

def total (v : Byte → Nat) (text : Str) : Nat := (text.map v).sum

@[simp]
theorem total_nil (v : Byte → Nat) : total v [] = 0 := rfl

@[simp]
theorem total_cons (v : Byte → Nat) (c : Byte) (text : Str) : total v (c :: text) = v c + total v text := by
  simp [total]

@[simp]
theorem total_append (v : Byte → Nat) (text more : Str) : total v (text ++ more) = total v text + total v more := by
  simp [total]

/-- Where a sum of counts does not grow, nothing was added to any of them. -/
theorem nothing_more {α : Type} {base : α → Nat} {more : α → Prop} [DecidablePred more] {k : Nat} (positive : 0 < k)
    (entries : List α)
    (bound : (entries.map (fun entry => base entry + if more entry then k else 0)).sum ≤ (entries.map base).sum) :
    ∀ entry ∈ entries, ¬more entry := by
  induction entries with
  | nil => simp
  | cons entry entries ih =>
    have tail : (entries.map base).sum ≤ (entries.map (fun entry => base entry + if more entry then k else 0)).sum :=
      List.sum_le_sum (fun other _ => Nat.le_add_right _ _)
    simp only [List.map_cons, List.sum_cons] at bound
    have head : ¬more entry := by
      intro holds
      rw [if_pos holds] at bound
      omega
    rw [if_neg head] at bound
    simp only [List.forall_mem_cons]
    exact ⟨head, ih (by omega)⟩

theorem total_le_of_suffix {v : Byte → Nat} {part whole : Str} (inside : part <:+ whole) :
    total v part ≤ total v whole := by
  obtain ⟨front, rfl⟩ := inside
  rw [total_append]
  omega

/-- The tokens that a name can come from. -/
def NameToken (token : Token) : Prop := token.type = .string ∨ token.type = .number

instance (token : Token) : Decidable (NameToken token) := inferInstanceAs (Decidable (_ ∨ _))

/-- The weight of the names among the tokens. -/
def nameWeight (w : Str → Nat) (tokens : List Token) : Nat :=
  ((tokens.filter (fun token => NameToken token)).map (fun token => w token.content)).sum

private theorem nameWeight_cons (w : Str → Nat) (token : Token) (tokens : List Token) :
    nameWeight w (token :: tokens) = (if NameToken token then w token.content else 0) + nameWeight w tokens := by
  unfold nameWeight
  by_cases name : NameToken token <;> simp [name]

variable {v : Byte → Nat} {w : Str → Nat} {clean : Byte → Prop}

/-- What is needed of a pair of weights: literals do not gain, and digits weigh nothing. -/
structure Weighing (v : Byte → Nat) (w : Str → Nat) (clean : Byte → Prop) : Prop where
  noMarker : ∀ c, clean c → c ≠ eofByte
  empty : w [] = 0
  digits : ∀ text : Str, (∀ c ∈ text, isdigit c = true ∨ c = 46) → w text = 0
  literal : ∀ mark rest first, mark = quote ∨ mark = apostrophe → (∀ c ∈ mark :: first :: rest, clean c) →
    (scanString mark rest [] 0 first).2 = [] ∨
      w (scanString mark rest [] 0 first).1 + total v (scanString mark rest [] 0 first).2 ≤
        total v (mark :: first :: rest)

private theorem lexLoop_end {tokenizeComment : Bool} {fuel : Nat} {comment : Str} {pre post : List Token} {token : Token}
    (split : lexLoop tokenizeComment fuel none [] comment = pre ++ token :: post) : token.type = .eof := by
  cases fuel with
  | zero =>
    rw [lexLoop] at split
    simp at split
  | succ fuel =>
    simp only [lexLoop, spanC] at split
    cases pre with
    | nil =>
      rw [List.nil_append] at split
      exact (List.cons.inj split).1 ▸ rfl
    | cons first pre =>
      have rest := (List.cons.inj split).2
      simp at rest

/-- The names that are followed by a further token weigh no more than the text. -/
theorem nameWeight_le (weighing : Weighing v w clean) (tokenizeComment : Bool) (fuel : Nat) (last : Option Byte)
    (rest comment : Str) (allClean : ∀ c ∈ remaining last rest, clean c) {pre post : List Token} {token : Token}
    (split : lexLoop tokenizeComment fuel last rest comment = pre ++ token :: post) (more : token.type ≠ .eof) :
    nameWeight w pre ≤ total v (remaining last rest) := by
  induction fuel generalizing last rest comment pre with
  | zero =>
    rw [lexLoop] at split
    simp at split
  | succ fuel ih =>
    have onward : ∀ (last' : Option Byte) (rest' comment' : Str) (pre : List Token),
        remaining last' rest' <:+ remaining last rest →
        lexLoop tokenizeComment fuel last' rest' comment' = pre ++ token :: post →
        nameWeight w pre ≤ total v (remaining last' rest') := by
      intro last' rest' comment' pre inside split
      exact ih last' rest' comment' (fun c member => allClean c (inside.subset member)) split
    have turn := lexLoop_turn tokenizeComment fuel last rest comment
    rw [split] at turn
    generalize whole : pre ++ token :: post = tokens at turn
    cases turn with
    | eof =>
      cases pre with
      | nil => exact absurd ((List.cons.inj whole).1 ▸ rfl) more
      | cons first pre =>
        have rest := (List.cons.inj whole).2
        simp at rest
    | noLiteral tail inside ended =>
      cases pre with
      | nil => simp [nameWeight]
      | cons first pre =>
        obtain ⟨rfl, later⟩ := List.cons.inj whole
        -- the text is at its end, as it holds no marker
        have tailNil : tail = [] := by
          cases tail with
          | nil => rfl
          | cons c tail =>
            have real := weighing.noMarker c (allClean c (inside.subset List.mem_cons_self))
            simp [nextC, real] at ended
        subst tailNil
        exact absurd (lexLoop_end later.symm) more
    | literal mark first tail isMark inside begun =>
      cases pre with
      | nil => simp [nameWeight]
      | cons token pre =>
        obtain ⟨rfl, later⟩ := List.cons.inj whole
        obtain ⟨rest', rfl⟩ : ∃ rest', tail = first :: rest' := by
          cases tail with
          | nil => simp [nextC] at begun
          | cons c tail =>
            by_cases marker : c = eofByte
            · simp [nextC, marker] at begun
            · simp only [nextC, if_neg marker, Option.some.injEq] at begun
              exact ⟨tail, by rw [begun]⟩
        have real := weighing.noMarker first (allClean first (inside.subset (by simp)))
        simp only [nextC, if_neg real] at later ⊢
        rcases weighing.literal mark rest' first isMark (fun c member => allClean c (inside.subset member)) with
          ended | bound
        · rw [ended] at later
          exact absurd (lexLoop_end later.symm) more
        · have skip : remaining (nextC (scanString mark rest' [] 0 first).2).1
              (nextC (scanString mark rest' [] 0 first).2).2 <:+ (scanString mark rest' [] 0 first).2 := nextC_suffix _
          have inner : (scanString mark rest' [] 0 first).2 <:+ remaining last rest :=
            (scanString_suffix mark rest' [] 0 first).trans
              (((List.suffix_cons first rest').trans (List.suffix_cons mark _)).trans inside)
          have tail := onward _ _ _ pre (skip.trans inner) later.symm
          have held := total_le_of_suffix (v := v) skip
          have source := total_le_of_suffix (v := v) inside
          rw [nameWeight_cons, if_pos (show NameToken _ from Or.inl rfl)]
          dsimp only
          omega
    | other first last' rest' comment' kind digits inside =>
      cases pre with
      | nil => simp [nameWeight]
      | cons token pre =>
        obtain ⟨rfl, later⟩ := List.cons.inj whole
        have tail := onward _ _ _ pre inside later.symm
        have held := total_le_of_suffix (v := v) inside
        have light : (if NameToken token then w token.content else 0) = 0 := by
          split
          · rename_i name
            rcases name with string | number
            · exact absurd string kind.1
            · exact weighing.digits _ (digits number)
          · rfl
        rw [nameWeight_cons, light]
        omega
    | blank last' rest' comment' inside =>
      exact (onward last' rest' comment' pre inside whole.symm).trans (total_le_of_suffix inside)

end Weights

section Literals

private theorem unescape_ne_marker {c : Byte} (real : c ≠ eofByte) : eofByte ∉ unescape c := by
  unfold unescape
  split_ifs <;> simp_all [eq_comm] <;> decide

private theorem scanString_marker (mark : Byte) (rest st : Str) (this last : Byte) (real : last ≠ eofByte)
    (before : eofByte ∉ st) : eofByte ∉ (scanString mark rest st this last).1 := by
  induction rest generalizing st this last with
  | nil =>
    unfold scanString
    split
    · exact before
    · dsimp only
      split
      · exact fun member => (List.mem_append.mp member).elim
          (fun old => before (List.dropLast_subset _ old)) (unescape_ne_marker real)
      · simpa [before] using Ne.symm real
  | cons c rest ih =>
    have appended : eofByte ∉ (if this = backslash then st.dropLast ++ unescape last else st ++ [last]) := by
      split
      · exact fun member => (List.mem_append.mp member).elim
          (fun old => before (List.dropLast_subset _ old)) (unescape_ne_marker real)
      · simpa [before] using Ne.symm real
    unfold scanString
    split
    · exact before
    · dsimp only
      split
      · exact appended
      · rename_i realNext
        exact ih _ _ _ realNext appended

/-- No name holds the marker: it ends every literal. -/
theorem names_have_no_marker (tokenizeComment : Bool) (fuel : Nat) (last : Option Byte) (rest comment : Str) :
    ∀ token ∈ lexLoop tokenizeComment fuel last rest comment, NameToken token → eofByte ∉ token.content := by
  induction fuel generalizing last rest comment with
  | zero => simp [lexLoop]
  | succ fuel ih =>
    have turn := lexLoop_turn tokenizeComment fuel last rest comment
    generalize lexLoop tokenizeComment (fuel + 1) last rest comment = tokens at turn
    cases turn with
    | eof =>
      intro token member name
      simp only [List.mem_singleton] at member
      subst member
      simp
    | noLiteral tail inside ended =>
      intro token member name
      rcases List.mem_cons.mp member with rfl | later
      · simp
      · exact ih _ _ _ token later name
    | literal mark first tail isMark inside begun =>
      intro token member name
      rcases List.mem_cons.mp member with rfl | later
      · have real : first ≠ eofByte := by
          cases tail with
          | nil => simp [nextC] at begun
          | cons c tail =>
            by_cases marker : c = eofByte
            · simp [nextC, marker] at begun
            · simp only [nextC, if_neg marker, Option.some.injEq] at begun
              exact begun ▸ marker
        exact scanString_marker mark _ [] 0 first real (by simp)
      · exact ih _ _ _ token later name
    | other token last' rest' comment' kind digits inside =>
      intro other member name
      rcases List.mem_cons.mp member with rfl | later
      · rcases name with string | number
        · exact absurd string kind.1
        · intro inText
          exact absurd (digits number eofByte inText) (by decide)
      · exact ih _ _ _ other later name
    | blank last' rest' comment' inside => exact ih _ _ _

private theorem digits_free {text : Str} (digits : ∀ c ∈ text, isdigit c = true ∨ c = 46) {c : Byte}
    (other : ¬(isdigit c = true ∨ c = 46)) : c ∉ text := fun member => other (digits c member)

def isByte (c : Byte) (d : Byte) : Nat := if d = c then 1 else 0

private theorem total_isByte (c : Byte) (text : Str) : total (isByte c) text = text.count c := by
  induction text with
  | nil => rfl
  | cons d text ih =>
    rw [total_cons, ih, List.count_cons, isByte, Nat.add_comm]
    by_cases same : d = c <;> simp [same]

/-- A backslash takes the one before it or itself away. -/
def backslashes (text : Str) : Nat := text.count backslash + if backslash ∈ text then 1 else 0

private theorem unescape_plain {c : Byte} (other : c ≠ backslash) : backslash ∉ unescape c := by
  unfold unescape
  split_ifs <;> simp_all [eq_comm] <;> decide

/-- What the literal holds so far; an escape that is open has lost nothing yet. -/
private def held (st : Str) (this : Byte) : Nat :=
  st.count backslash + if this ≠ backslash ∧ backslash ∈ st then 1 else 0

private theorem held_escape (st : Str) (last : Byte) :
    held (if last = backslash then st ++ [backslash, backslash] else st ++ unescape last) last ≤
      held (st ++ [backslash]) backslash + isByte backslash last := by
  by_cases double : last = backslash
  · simp [held, double, isByte, List.count_append]
  · have plain := unescape_plain double
    simp only [held, double, if_false, List.count_append, List.count_eq_zero_of_not_mem plain, List.mem_append, plain,
      or_false, not_true_eq_false, false_and, List.count_singleton_self, isByte, ne_eq, not_false_eq_true, true_and]
    split <;> omega

private theorem scanString_backslashes (mark : Byte) (rest st : Str) (this last : Byte)
    (real : ∀ c ∈ rest, c ≠ eofByte) (opened : this = backslash → ∃ front, st = front ++ [backslash]) :
    (scanString mark rest st this last).2 = [] ∨
      backslashes (scanString mark rest st this last).1 + total (isByte backslash) (scanString mark rest st this last).2 ≤
        held st this + total (isByte backslash) (last :: rest) := by
  induction rest generalizing st this last with
  | nil =>
    left
    unfold scanString
    split <;> rfl
  | cons c rest ih =>
    have realRest : ∀ d ∈ rest, d ≠ eofByte := fun d member => real d (List.mem_cons_of_mem _ member)
    unfold scanString
    by_cases closing : this ≠ backslash ∧ last = mark
    · right
      rw [if_pos closing]
      simp only [backslashes, held, closing.1, ne_eq, not_false_eq_true, true_and, total_cons]
      omega
    · simp only [if_neg closing, if_neg (real c List.mem_cons_self)]
      by_cases escape : this = backslash
      · obtain ⟨front, rfl⟩ := opened escape
        subst escape
        have text : (front ++ [backslash]).dropLast ++ unescape last =
            if last = backslash then front ++ [backslash, backslash] else front ++ unescape last := by
          by_cases double : last = backslash
          · rw [double]
            simp [unescape, show ¬backslash = 110 by decide]
          · simp [double]
        simp only [if_true, text]
        have step := held_escape front last
        rcases ih (if last = backslash then front ++ [backslash, backslash] else front ++ unescape last) last c realRest
            (fun double => ⟨front ++ [backslash], by simp [double]⟩) with ended | bound
        · exact Or.inl ended
        · refine Or.inr (bound.trans ?_)
          simp only [total_cons] at bound ⊢
          omega
      · simp only [if_neg escape]
        have step : held (st ++ [last]) last ≤ held st this + isByte backslash last := by
          by_cases double : last = backslash
          · simp only [held, isByte, double, List.count_append, List.count_singleton_self, not_true_eq_false, ne_eq,
              false_and, if_false, if_true]
            omega
          · have other : ¬backslash = last := fun same => double same.symm
            simp [held, isByte, double, other, escape, List.count_append]
        rcases ih (st ++ [last]) last c realRest (fun double => ⟨st, by rw [double]⟩) with ended | bound
        · exact Or.inl ended
        · refine Or.inr (bound.trans ?_)
          simp only [total_cons]
          omega

theorem weighing_backslashes : Weighing (isByte backslash) backslashes (fun c => c ≠ eofByte) where
  noMarker := fun _ clean => clean
  empty := rfl
  digits := fun text digits => by
    have free : backslash ∉ text := digits_free digits (by decide)
    simp [backslashes, free, List.count_eq_zero_of_not_mem free]
  literal := fun mark rest first _ clean => by
    have scan := scanString_backslashes mark rest [] 0 first
      (fun c member => clean c (by simp [member])) (fun escape => absurd escape (by decide))
    refine scan.imp_right (fun bound => bound.trans ?_)
    simp only [held, List.count_nil, List.not_mem_nil, and_false, if_false, total_cons]
    omega

/-- A quote in a name takes a literal between apostrophes, and both of these. -/
def apostrophes (text : Str) : Nat := text.count apostrophe + if quote ∈ text then 2 else 0

/-- Without a backslash a literal is the text up to its mark. -/
private theorem scanString_raw (mark : Byte) (rest st : Str) (this last : Byte) (fresh : this ≠ backslash)
    (clean : ∀ c ∈ last :: rest, c ≠ eofByte ∧ c ≠ backslash) :
    (scanString mark rest st this last).2 = [] ∨
      ∃ body, last :: rest = body ++ mark :: (scanString mark rest st this last).2 ∧
        (scanString mark rest st this last).1 = st ++ body ∧ mark ∉ body := by
  induction rest generalizing st this last with
  | nil =>
    left
    unfold scanString
    split <;> rfl
  | cons c rest ih =>
    unfold scanString
    by_cases closing : last = mark
    · right
      rw [if_pos ⟨fresh, closing⟩]
      exact ⟨[], by simp [closing], by simp, by simp⟩
    · have next := clean c (by simp)
      simp only [if_neg (fun both => closing (And.right both) : ¬(this ≠ backslash ∧ last = mark)), if_neg fresh,
        if_neg next.1]
      rcases ih (st ++ [last]) last c (clean last List.mem_cons_self).2
          (fun d member => clean d (List.mem_cons_of_mem _ member)) with ended | ⟨body, shape, text, free⟩
      · exact Or.inl ended
      · refine Or.inr ⟨last :: body, ?_, ?_, ?_⟩
        · rw [List.cons_append, ← shape]
        · rw [text]
          simp
        · simp only [List.mem_cons, not_or]
          exact ⟨fun same => closing same.symm, free⟩

theorem weighing_apostrophes :
    Weighing (isByte apostrophe) apostrophes (fun c => c ≠ eofByte ∧ c ≠ backslash) where
  noMarker := fun _ clean => clean.1
  empty := rfl
  digits := fun text digits => by
    have noQuote : quote ∉ text := digits_free digits (by decide)
    have noApostrophe : apostrophe ∉ text := digits_free digits (by decide)
    simp [apostrophes, noQuote, List.count_eq_zero_of_not_mem noApostrophe]
  literal := fun mark rest first isMark clean => by
    refine (scanString_raw mark rest [] 0 first (by decide) (fun c member => clean c (by simp_all))).imp_right ?_
    rintro ⟨body, shape, text, free⟩
    rw [text, List.nil_append, total_cons, shape]
    simp only [total_append, total_cons, total_isByte]
    rcases isMark with rfl | rfl
    · simp only [apostrophes, free, if_false]
      omega
    · have none := List.count_eq_zero_of_not_mem free
      have two : isByte apostrophe apostrophe = 1 := rfl
      simp only [apostrophes]
      split <;> omega

end Literals

section Names
variable {F : Type}

def keys (json : JSON F) : List Str := json.values.map Prod.fst

/-- Every name that the parser holds is known. -/
structure Known (known : Str → Prop) (p : Parser F) : Prop where
  empty : known []
  frames : ∀ frame ∈ p.objStack, known frame.name
  names : ∀ name ∈ p.nameStack, known name.content
  root : ∀ frame, p.objStack.getLast? = some frame → ∀ key ∈ keys frame.json, known key

theorem keys_setValue {known : Str → Prop} {json : JSON F} {name : Str} {value : ListVariant F}
    (before : ∀ key ∈ keys json, known key) (here : known name) : ∀ key ∈ keys (json.setValue name value), known key := by
  intro key member
  obtain ⟨entry, inside, rfl⟩ := List.mem_map.mp member
  rcases SortedEntries.mem_set inside with rfl | old
  · exact here
  · exact before entry.1 (List.mem_map_of_mem old)

theorem bind_eq_ok {α β : Type} {run : Except Fault α} {next : α → Except Fault β} {result : β}
    (done : (run >>= next) = .ok result) : ∃ value, run = .ok value ∧ next value = .ok result := by
  cases run with
  | error fault => simp at done
  | ok value => exact ⟨value, rfl, done⟩

private theorem keys_closeObject [FloatLib F] {known : Str → Prop} {child : Frame F} {json result : JSON F}
    (done : closeObject child json = .ok result) (before : ∀ key ∈ keys json, known key) (here : known child.name) :
    ∀ key ∈ keys result, known key := by
  obtain ⟨stor, _, stored⟩ := bind_eq_ok done
  cases stored
  exact keys_setValue before here

private theorem keys_storeScalar [FloatLib F] {known : Str → Prop} {scalar : Scalar F} {name : Name}
    {json result : JSON F}
    (done : storeScalar scalar name json = .ok result) (before : ∀ key ∈ keys json, known key)
    (here : known name.content) : ∀ key ∈ keys result, known key := by
  cases scalar <;>
  · obtain ⟨stor, _, stored⟩ := bind_eq_ok done
    cases stored
    exact keys_setValue before here

/-- A change to the object on top of the stack. -/
private theorem Known.replaceTop {known : Str → Prop} {p : Parser F} (holds : Known known p) {top : Frame F}
    {below : List (Frame F)} (stack : p.objStack = top :: below) {json : JSON F}
    (fresh : (∀ key ∈ keys top.json, known key) → ∀ key ∈ keys json, known key) {q : Parser F}
    (names : ∀ name ∈ q.nameStack, known name.content)
    (stack' : q.objStack = { top with json := json } :: below) : Known known q where
  empty := holds.empty
  frames := by
    intro frame member
    rw [stack'] at member
    rcases List.mem_cons.mp member with rfl | later
    · exact holds.frames top (stack ▸ List.mem_cons_self)
    · exact holds.frames frame (stack ▸ List.mem_cons_of_mem _ later)
  names := names
  root := by
    intro frame last
    rw [stack'] at last
    have root := holds.root
    rw [stack] at root
    cases below with
    | nil =>
      simp only [List.getLast?_singleton, Option.some.injEq] at last root
      subst last
      exact fresh (root top rfl)
    | cons next below =>
      rw [List.getLast?_cons_cons] at last root
      exact root frame last

private theorem Known.push {known : Str → Prop} {p : Parser F} (holds : Known known p) {frame : Frame F}
    (here : known frame.name) (nonempty : p.objStack ≠ []) {q : Parser F}
    (names : ∀ name ∈ q.nameStack, known name.content) (stack : q.objStack = frame :: p.objStack) : Known known q where
  empty := holds.empty
  frames := by
    intro other member
    rw [stack] at member
    rcases List.mem_cons.mp member with rfl | later
    · exact here
    · exact holds.frames other later
  names := names
  root := by
    intro other last
    rw [stack, List.getLast?_cons_of_ne_nil nonempty] at last
    exact holds.root other last

private theorem Known.pop {known : Str → Prop} {p : Parser F} (holds : Known known p) {child : Frame F}
    {below : List (Frame F)} (stack : p.objStack = child :: below) (nonempty : below ≠ []) :
    Known known { p with objStack := below } where
  empty := holds.empty
  frames := fun frame member => holds.frames frame (stack ▸ List.mem_cons_of_mem _ member)
  names := holds.names
  root := fun frame last => holds.root frame (by rw [stack, List.getLast?_cons_of_ne_nil nonempty]; exact last)

private theorem Known.sameStack {known : Str → Prop} {p q : Parser F} (holds : Known known p)
    (stack : q.objStack = p.objStack) (names : ∀ name ∈ q.nameStack, known name.content) : Known known q where
  empty := holds.empty
  frames := stack ▸ holds.frames
  names := names
  root := stack ▸ holds.root

private theorem names_renamed {known : Str → Prop} {names : List Name} {first : Name} {rest : List Name}
    (holds : ∀ name ∈ names, known name.content) (shape : names = first :: rest) {other : Name}
    (same : other.content = first.content) : ∀ name ∈ other :: rest, known name.content := by
  intro name member
  rcases List.mem_cons.mp member with rfl | later
  · exact same ▸ holds first (shape ▸ List.mem_cons_self)
  · exact holds name (shape ▸ List.mem_cons_of_mem _ later)

variable [FloatLib F]

private theorem stepScalar_known {known : Str → Prop} {p q : Parser F} {token : Token} (holds : Known known p)
    (own : known token.content) (done : stepScalar p token = .ok q) : Known known q := by
  have pushed : ∀ name ∈ (⟨token.content, 0, false⟩ : Name) :: p.nameStack, known name.content := by
    intro name member
    rcases List.mem_cons.mp member with rfl | later
    · exact own
    · exact holds.names name later
  unfold stepScalar at done
  split at done
  · obtain ⟨scalar, _, done⟩ := bind_eq_ok done
    split at done
    · rename_i top below name names stack shape
      obtain ⟨json, stored, done⟩ := bind_eq_ok done
      cases done
      have here : known name.content := holds.names name (shape ▸ List.mem_cons_self)
      exact holds.replaceTop stack (fun before => keys_storeScalar stored before here) holds.names rfl
    · cases done
  · dsimp only at done
    split at done
    · cases done
      exact holds.sameStack rfl pushed
    · split at done
      · cases done
      · rename_i top below stack
        cases done
        have same : (∀ key ∈ keys top.json, known key) →
            ∀ key ∈ keys (top.json.addComment token.content token.comment), known key := fun before => before
        exact holds.replaceTop stack same pushed rfl

/-- One token brings in no name but its own. -/
theorem step_known {known : Str → Prop} {p q : Parser F} {token : Token} (holds : Known known p)
    (own : NameToken token → known token.content) (done : step p token = .ok (.inl q)) : Known known q := by
  unfold step at done
  split at done
  · split at done
    · cases done
      exact ⟨holds.empty, by simpa using holds.empty, holds.names, by simp [keys, JSON.empty, JSON.values]⟩
    · cases done
    · rename_i top below name rest stack names
      obtain ⟨child, _, done⟩ := bind_eq_ok done
      obtain ⟨top', closed, done⟩ := bind_eq_ok done
      cases done
      have here : known name.content := holds.names name (names ▸ List.mem_cons_self)
      have replaced : Known known { p with objStack := { top with json := top' } :: below } :=
        holds.replaceTop stack (fun before => keys_closeObject closed before here) holds.names rfl
      exact replaced.push here (by simp) holds.names rfl
  · split at done
    · cases done
    · cases done
    · rename_i child top below stack
      obtain ⟨top', closed, done⟩ := bind_eq_ok done
      have here : known child.name := holds.frames child (stack ▸ List.mem_cons_self)
      have popped := holds.pop stack (by simp)
      split at done
      · cases done
      · rename_i name names shape
        have tail : ∀ other ∈ names, known other.content :=
          fun other member => holds.names other (shape ▸ List.mem_cons_of_mem _ member)
        split at done
        · cases done
          exact popped.replaceTop rfl (fun before => keys_closeObject closed before here) holds.names rfl
        · cases done
          exact popped.replaceTop rfl (fun before => keys_closeObject closed before here) tail rfl
  · cases done
    exact holds.sameStack rfl holds.names
  · obtain ⟨next, ran, done⟩ := bind_eq_ok done
    cases done
    exact stepScalar_known holds (own (Or.inl ‹_›)) ran
  · obtain ⟨next, ran, done⟩ := bind_eq_ok done
    cases done
    exact stepScalar_known holds (own (Or.inr ‹_›)) ran
  · cases done
    exact holds.sameStack rfl holds.names
  · split at done
    · cases done
    · rename_i name names shape
      split at done
      · cases done
        exact holds.sameStack rfl (names_renamed holds.names shape rfl)
      · cases done
        refine holds.sameStack rfl ?_
        dsimp only
        split
        · exact shape ▸ holds.names
        · exact fun other member => holds.names other (shape ▸ List.mem_cons_of_mem _ member)
  · split at done
    · cases done
    · rename_i name names shape
      cases done
      exact holds.sameStack rfl (names_renamed holds.names shape rfl)
  · split at done
    · cases done
    · rename_i name names shape
      cases done
      exact holds.sameStack rfl (names_renamed holds.names shape rfl)
  · cases done
    exact holds
  · cases done

/-- The object is finished by a closing brace. -/
theorem step_finished {known : Str → Prop} {p : Parser F} {token : Token} {json : JSON F} (holds : Known known p)
    (done : step p token = .ok (.inr json)) : token.type = .compound_r ∧ ∀ key ∈ keys json, known key := by
  unfold step at done
  split at done
  · split at done
    · cases done
    · cases done
    · obtain ⟨child, _, done⟩ := bind_eq_ok done
      obtain ⟨top', _, done⟩ := bind_eq_ok done
      cases done
  · rename_i type
    split at done
    · cases done
    · rename_i root stack
      cases done
      exact ⟨type, holds.root root (by rw [stack]; rfl)⟩
    · obtain ⟨top', _, done⟩ := bind_eq_ok done
      split at done
      · cases done
      · split at done <;> cases done
  · cases done
  · obtain ⟨next, _, done⟩ := bind_eq_ok done
    cases done
  · obtain ⟨next, _, done⟩ := bind_eq_ok done
    cases done
  · cases done
  · split at done
    · cases done
    · split at done <;> cases done
  · split at done <;> cases done
  · split at done <;> cases done
  · cases done
  · cases done

/-- The names of the object come from the tokens before its closing brace. -/
theorem parse_names {known : Str → Prop} {p : Parser F} {tokens : List Token} {json : JSON F} (holds : Known known p)
    (done : parse p tokens = .ok json) : ∃ pre token post, tokens = pre ++ token :: post ∧ token.type = .compound_r ∧
      ∀ key ∈ keys json, known key ∨ ∃ other ∈ pre, NameToken other ∧ other.content = key := by
  induction tokens generalizing p known with
  | nil => cases done
  | cons token tokens ih =>
    unfold parse at done
    split at done
    · cases done
    · rename_i result ran
      cases done
      have finished := step_finished holds ran
      exact ⟨[], token, tokens, rfl, finished.1, fun key member => Or.inl (finished.2 key member)⟩
    · rename_i next ran
      have wider : Known (fun name => known name ∨ NameToken token ∧ token.content = name) p :=
        ⟨Or.inl holds.empty, fun frame member => Or.inl (holds.frames frame member),
          fun name member => Or.inl (holds.names name member),
          fun frame last key member => Or.inl (holds.root frame last key member)⟩
      obtain ⟨pre, last, post, shape, closing, names⟩ :=
        ih (step_known wider (fun name => Or.inr ⟨name, rfl⟩) ran) done
      refine ⟨token :: pre, last, post, by rw [shape, List.cons_append], closing, ?_⟩
      intro key member
      rcases names key member with (old | ⟨name, same⟩) | ⟨other, later, name, same⟩
      · exact Or.inl old
      · exact Or.inr ⟨token, List.mem_cons_self, name, same⟩
      · exact Or.inr ⟨other, List.mem_cons_of_mem _ later, name, same⟩

theorem unserialize_names {text : Str} {json : JSON F} (done : unserialize text = .ok json) :
    ∃ pre token post, lex text = pre ++ token :: post ∧ token.type = .compound_r ∧
      ∀ key ∈ keys json, key = [] ∨ ∃ other ∈ pre, NameToken other ∧ other.content = key := by
  have start : Known (fun name => name = []) ({} : Parser F) := ⟨rfl, by simp, by simp, by simp⟩
  exact parse_names start done

end Names

section RoundTrip
variable {F : Type}

theorem keys_flat (entries : List (Str × Int)) : keys (flat (F := F) entries) = entries.map Prod.fst := by
  simp [keys, flat, JSON.values, SortedEntries.mapValues]

variable [FloatLib F]

/-- A byte that the writer does not use itself. -/
def Foreign (c : Byte) : Prop := isdigit c = false ∧ c ∉ ([123, 125, quote, 58, 44, 45] : Str)

private theorem count_intToString {c : Byte} (foreign : Foreign c) (i : Int) : (intToString i).count c = 0 := by
  rw [List.count_eq_zero]
  have noDigit : c ∉ digitsOf i.natAbs := by
    intro member
    have digit := digitsOf_isdigit _ c member
    rw [foreign.1] at digit
    cases digit
  have noMinus : c ≠ 45 := by
    rintro rfl
    exact foreign.2 (by simp)
  unfold intToString
  split
  · simp [noDigit, noMinus]
  · exact noDigit

private theorem count_pairText {c : Byte} (foreign : Foreign c) (entry : Str × Int) :
    (pairText entry).count c = entry.1.count c := by
  have noQuote : ¬quote = c := by
    rintro rfl
    exact foreign.2 (by simp)
  have noColon : ¬(58 : Byte) = c := by
    rintro rfl
    exact foreign.2 (by simp)
  simp [pairText, List.count_append, count_intToString foreign, noQuote, noColon]

/-- What the writer adds to the names it adds of its own bytes only. -/
theorem count_serialize {c : Byte} (foreign : Foreign c) (entries : List (Str × Int)) :
    (serialize (F := F) 0 (flat entries)).count c = (entries.map (fun entry => entry.1.count c)).sum := by
  have noOpen : ¬(123 : Byte) = c := by
    rintro rfl
    exact foreign.2 (by simp)
  have noClose : ¬(125 : Byte) = c := by
    rintro rfl
    exact foreign.2 (by simp)
  have noComma : ¬(44 : Byte) = c := by
    rintro rfl
    exact foreign.2 (by simp)
  have tail : ∀ entries : List (Str × Int),
      (tailText entries).count c = (entries.map (fun entry => entry.1.count c)).sum := by
    intro entries
    induction entries with
    | nil => simp [tailText, noClose]
    | cons entry entries ih =>
      simp only [tailText, List.flatMap_cons, List.count_append, List.count_cons, List.cons_append, List.append_assoc,
        List.map_cons, List.sum_cons, count_pairText foreign] at ih ⊢
      rw [← ih]
      simp only [noComma, noClose, beq_iff_eq, if_false]
      omega
  cases entries with
  | nil => simp [serialize_nil, noOpen, noClose]
  | cons entry entries =>
    rw [serialize_cons, List.count_append, List.count_cons, tail, count_pairText foreign]
    simp [noOpen]

/-- Distinct names weigh no more than the tokens that they come from. -/
private theorem names_weight_le {w : Str → Nat} (empty : w [] = 0) {names : List Str} (distinct : names.Nodup)
    {tokens : List Token} (come : ∀ name ∈ names, name = [] ∨ ∃ token ∈ tokens, NameToken token ∧ token.content = name) :
    (names.map w).sum ≤ nameWeight w tokens := by
  have inside : names ⊆ [] :: (tokens.filter (fun token => NameToken token)).map Token.content := by
    intro name member
    rcases come name member with rfl | ⟨token, later, kind, rfl⟩
    · exact List.mem_cons_self
    · refine List.mem_cons_of_mem _ (List.mem_map_of_mem (List.mem_filter.mpr ⟨later, ?_⟩))
      simpa using kind
  obtain ⟨part, same, sub⟩ := List.subperm_of_subset distinct inside
  calc (names.map w).sum = (part.map w).sum := (same.map w).sum_eq.symm
    _ ≤ (([] :: (tokens.filter (fun token => NameToken token)).map Token.content).map w).sum :=
        (sub.map w).sum_le_sum (fun _ _ => Nat.zero_le _)
    _ = nameWeight w tokens := by simp [empty, nameWeight, List.map_map, Function.comp_def]

/-- A flat object whose names come back has names that weigh no more than their text. -/
private theorem names_weight_le_text {v : Byte → Nat} {w : Str → Nat} {clean : Byte → Prop}
    (weighing : Weighing v w clean) {entries : List (Str × Int)} (sorted : SortedEntries.Sorted entries)
    (blank : clean 32) (allClean : ∀ c ∈ serialize (F := F) 0 (flat entries), clean c)
    (back : unserialize (F := F) (serialize (F := F) 0 (flat entries)) = .ok (flat entries)) :
    (entries.map (fun entry => w entry.1)).sum ≤ v 32 + total v (serialize (F := F) 0 (flat entries)) := by
  obtain ⟨pre, token, post, split, closing, come⟩ := unserialize_names back
  rw [keys_flat] at come
  have upper := nameWeight_le weighing false _ (some 32) _ [] (by simpa [remaining, blank] using allClean) split
    (by rw [closing]; decide)
  have lower := names_weight_le weighing.empty (SortedEntries.keys_nodup sorted) come
  rw [List.map_map] at lower
  exact lower.trans upper

/-- Names that come back as they were are plain. -/
theorem plain_of_unserialize_serialize {entries : List (Str × Int)} (sorted : SortedEntries.Sorted entries)
    (back : unserialize (F := F) (serialize (F := F) 0 (flat entries)) = .ok (flat entries)) :
    ∀ entry ∈ entries, PlainName entry.1 := by
  have absent : ∀ {c : Byte}, Foreign c → (∀ entry ∈ entries, c ∉ entry.1) →
      c ∉ serialize (F := F) 0 (flat entries) := by
    intro c foreign free
    rw [← List.count_eq_zero, count_serialize foreign, List.sum_eq_zero]
    intro n member
    obtain ⟨entry, inside, rfl⟩ := List.mem_map.mp member
    exact List.count_eq_zero_of_not_mem (free entry inside)
  -- the marker ends every literal, so no name that comes back holds it
  have noMarker : ∀ entry ∈ entries, eofByte ∉ entry.1 := by
    intro entry member inside
    obtain ⟨pre, token, post, split, _, come⟩ := unserialize_names back
    rw [keys_flat] at come
    rcases come entry.1 (List.mem_map_of_mem member) with empty | ⟨other, later, kind, same⟩
    · simp [empty] at inside
    · have token : other ∈ lex (serialize (F := F) 0 (flat entries)) := split ▸ List.mem_append_left _ later
      exact names_have_no_marker false _ _ _ _ other token kind (same ▸ inside)
  have markerFree := absent (c := eofByte) ⟨by decide, by decide⟩ noMarker
  have noBackslash : ∀ entry ∈ entries, backslash ∉ entry.1 := by
    have bound := names_weight_le_text weighing_backslashes sorted (by decide)
      (fun c member same => markerFree (same ▸ member)) back
    rw [total_isByte, count_serialize ⟨by decide, by decide⟩] at bound
    exact nothing_more (by decide : 0 < 1) entries (bound.trans (Nat.zero_add _).le)
  have backslashFree := absent (c := backslash) ⟨by decide, by decide⟩ noBackslash
  have noQuote : ∀ entry ∈ entries, quote ∉ entry.1 := by
    have bound := names_weight_le_text weighing_apostrophes sorted (by decide)
      (fun c member => ⟨fun same => markerFree (same ▸ member), fun same => backslashFree (same ▸ member)⟩) back
    rw [total_isByte, count_serialize ⟨by decide, by decide⟩] at bound
    exact nothing_more (by decide : 0 < 2) entries (bound.trans (Nat.zero_add _).le)
  intro entry member c inside
  exact ⟨fun same => noQuote entry member (same ▸ inside), fun same => noBackslash entry member (same ▸ inside),
    fun same => noMarker entry member (same ▸ inside)⟩

/-- The exact condition on a flat object for it to survive a round trip. -/
theorem unserialize_serialize_iff {entries : List (Str × Int)} (sorted : SortedEntries.Sorted entries) :
    unserialize (F := F) (serialize (F := F) 0 (flat entries)) = .ok (flat entries) ↔
      ∀ entry ∈ entries, PlainName entry.1 ∧ entry.2.natAbs ≤ intMax := by
  constructor
  · intro back
    have plain := plain_of_unserialize_serialize sorted back
    rw [unserialize_serialize_of_plain entries sorted plain] at back
    split at back
    · rename_i small
      exact fun entry member => ⟨plain entry member, small entry member⟩
    · cases back
  · intro good
    rw [unserialize_serialize_of_plain entries sorted (fun entry member => (good entry member).1),
      if_pos (fun entry member => (good entry member).2)]

end RoundTrip

end CloudCryptFS.Script.Counting
