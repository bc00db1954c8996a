import Mathlib.Data.List.Basic

/-! A text with a piece of it replaced by another of the same length. -/

namespace CloudCryptFS.Util
variable {α : Type*}

/-- The input in place of what the text has from the offset on. -/
def splice (text : List α) (offset : Nat) (input : List α) : List α :=
  text.take offset ++ input ++ text.drop (offset + input.length)

@[simp]
theorem splice_nil (text : List α) (offset : Nat) : splice text offset [] = text := by
  rw [splice, List.append_nil, List.length_nil, Nat.add_zero, List.take_append_drop]

theorem length_splice {text input : List α} {offset : Nat} (inside : offset ≤ text.length) :
    (splice text offset input).length = max text.length (offset + input.length) := by
  rw [splice, List.length_append, List.length_append, List.length_take, List.length_drop]
  omega

/-- What stands before the offset stays. -/
theorem splice_append_right {text : List α} (rest input : List α) {offset : Nat} (after : text.length ≤ offset) :
    splice (text ++ rest) offset input = text ++ splice rest (offset - text.length) input := by
  have later : offset + input.length - text.length = offset - text.length + input.length := by omega
  simp only [splice, List.take_append, List.drop_append, List.take_of_length_le after,
    List.drop_eq_nil_of_le (Nat.le_add_right_of_le after), later, List.nil_append, List.append_assoc]

/-- A first part takes what fits, and the rest goes to the beginning of the second part. -/
theorem splice_append {text : List α} (rest input : List α) {offset : Nat} (inside : offset ≤ text.length) :
    splice (text ++ rest) offset input = splice text offset (input.take (min input.length (text.length - offset))) ++
      splice rest 0 (input.drop (min input.length (text.length - offset))) := by
  have head : (text ++ rest).take offset = text.take offset := List.take_append_of_le_length inside
  by_cases short : input.length ≤ text.length - offset
  · have none : rest.drop (offset + input.length - text.length) = rest := by
      rw [Nat.sub_eq_zero_of_le (by omega), List.drop_zero]
    rw [Nat.min_eq_left short, List.take_length, List.drop_length, splice_nil, splice, splice, head, List.drop_append, none]
    simp only [List.append_assoc]
  · have long : text.length - offset ≤ input.length := by omega
    have gone : text.drop (offset + (text.length - offset)) = [] := List.drop_eq_nil_of_le (by omega)
    have all : text.drop (offset + input.length) = [] := List.drop_eq_nil_of_le (by omega)
    have amount : 0 + (input.length - (text.length - offset)) = offset + input.length - text.length := by omega
    have pieces := List.take_append_drop (text.length - offset) input
    rw [Nat.min_eq_right long, splice, splice, splice, head, List.length_take, Nat.min_eq_left long, gone, List.append_nil, List.take_zero,
      List.nil_append, List.length_drop, amount, List.drop_append, all, List.nil_append]
    calc text.take offset ++ input ++ rest.drop (offset + input.length - text.length)
        = text.take offset ++ (input.take (text.length - offset) ++ input.drop (text.length - offset)) ++
            rest.drop (offset + input.length - text.length) := by rw [pieces]
      _ = _ := by simp only [List.append_assoc]

theorem splice_append_left {text : List α} (rest : List α) {input : List α} {offset : Nat} (inside : offset + input.length ≤ text.length) :
    splice (text ++ rest) offset input = splice text offset input ++ rest := by
  have amount : min input.length (text.length - offset) = input.length := by omega
  rw [splice_append rest input (by omega), amount, List.take_length, List.drop_length, splice_nil]

/-- One piece after the other is one piece. -/
theorem splice_splice {text first : List α} (later : List α) {offset : Nat} (inside : offset ≤ text.length) :
    splice (splice text offset first) (offset + first.length) later = splice text offset (first ++ later) := by
  have long : (text.take offset ++ first).length = offset + first.length := by
    rw [List.length_append, List.length_take, Nat.min_eq_left inside]
  have head : (splice text offset first).take (offset + first.length) = text.take offset ++ first := List.take_left' long
  have tail : (splice text offset first).drop (offset + first.length + later.length) = text.drop (offset + (first ++ later).length) := by
    rw [splice, ← List.drop_drop, List.drop_left' long, List.drop_drop, List.length_append, Nat.add_assoc]
  rw [splice, head, tail, splice, List.append_assoc (text.take offset)]

/-- Past the end, only what is missing up to the offset matters. -/
theorem splice_fill (text input : List α) (a : α) {offset n : Nat} (reaches : offset ≤ text.length + n)
    (ends : text.length + n ≤ max text.length (offset + input.length)) :
    splice (text ++ List.replicate n a) offset input = splice (text ++ List.replicate (offset - text.length) a) offset input := by
  have amount : min (offset - text.length) n = offset - text.length := by omega
  have none : n - (offset + input.length - text.length) = 0 := by omega
  have none' : offset - text.length - (offset + input.length - text.length) = 0 := by omega
  simp only [splice, List.take_append, List.drop_append, List.take_replicate, List.drop_replicate, amount, none, none', Nat.min_self]

/-- The part up to a place that is at or after the input. -/
theorem take_splice {text input : List α} {offset n : Nat} (inside : offset ≤ text.length) (after : offset + input.length ≤ n) :
    (splice text offset input).take n = splice (text.take n) offset input := by
  have fits : (text.take offset ++ input).length ≤ n := by
    rw [List.length_append, List.length_take, Nat.min_eq_left inside]
    exact after
  have amount : n - (text.take offset ++ input).length = n - (offset + input.length) := by
    rw [List.length_append, List.length_take, Nat.min_eq_left inside]
  rw [splice, List.take_append, List.take_of_length_le fits, amount, splice, List.take_take, Nat.min_eq_left (by omega), List.drop_take]

theorem drop_splice {text input : List α} {offset n : Nat} (inside : offset ≤ text.length) (after : offset + input.length ≤ n) :
    (splice text offset input).drop n = text.drop n := by
  have fits : (text.take offset ++ input).length ≤ n := by
    rw [List.length_append, List.length_take, Nat.min_eq_left inside]
    exact after
  have amount : offset + input.length + (n - (text.take offset ++ input).length) = n := by
    rw [List.length_append, List.length_take, Nat.min_eq_left inside]
    omega
  rw [splice, List.drop_append, List.drop_eq_nil_of_le fits, List.nil_append, List.drop_drop, amount]

end CloudCryptFS.Util
