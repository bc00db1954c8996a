import CloudCryptFS.Util.Splice

/-! A text as what stands at each place, without an end: an input lies over what was there. -/

namespace CloudCryptFS.Util
variable {α : Type*}

/-- The input from the offset on, and everywhere else what was there. -/
def overlay (offset : Nat) (input : List α) (f : Nat → α) : Nat → α := fun p =>
  if offset ≤ p then (input[p - offset]?).getD (f p) else f p

theorem overlay_of_lt {offset p : Nat} (before : p < offset) (input : List α) (f : Nat → α) : overlay offset input f p = f p :=
  if_neg (Nat.not_le.mpr before)

theorem overlay_add (offset p : Nat) (input : List α) (f : Nat → α) :
    overlay offset input f (offset + p) = (input[p]?).getD (f (offset + p)) := by
  rw [overlay, if_pos (Nat.le_add_right _ _), Nat.add_sub_cancel_left]

/-- What stands in a text, and behind its end a filler. -/
def filled (filler : α) (text : List α) : Nat → α := fun p => (text[p]?).getD filler

theorem filled_append_of_lt {filler : α} {text rest : List α} {p : Nat} (before : p < text.length) :
    filled filler (text ++ rest) p = filled filler text p := by
  rw [filled, filled, List.getElem?_append_left before]

theorem filled_append_add (filler : α) (text rest : List α) (p : Nat) : filled filler (text ++ rest) (text.length + p) = filled filler rest p := by
  rw [filled, filled, List.getElem?_append_right (Nat.le_add_right _ _), Nat.add_sub_cancel_left]

/-- More of the filler makes no difference. -/
theorem filled_append_replicate (filler : α) (text : List α) (n : Nat) : filled filler (text ++ List.replicate n filler) = filled filler text := by
  funext p
  by_cases before : p < text.length
  · exact filled_append_of_lt before
  · obtain ⟨q, rfl⟩ := Nat.exists_eq_add_of_le (Nat.not_lt.mp before)
    rw [filled_append_add, filled, filled, List.getElem?_eq_none (Nat.le_add_right text.length q), List.getElem?_replicate]
    split <;> rfl

/-- The first part of a text has the filler behind it. -/
theorem filled_take (filler : α) (text : List α) (n p : Nat) :
    filled filler (text.take n) p = if p < n then filled filler text p else filler := by
  by_cases before : p < n
  · rw [if_pos before, filled, filled, List.getElem?_take_of_lt before]
  · rw [if_neg before, filled, List.getElem?_take_eq_none (Nat.not_lt.mp before)]
    rfl

/-- What stands at some places, one after the other. -/
def window (f : Nat → α) (offset n : Nat) : List α := (List.range n).map (fun p => f (offset + p))

theorem window_filled (filler : α) {text : List α} {offset n : Nat} (inside : offset + n ≤ text.length) :
    (text.drop offset).take n = window (filled filler text) offset n := by
  have length : ((text.drop offset).take n).length = n := by
    rw [List.length_take, List.length_drop]
    omega
  apply List.ext_getElem
  · rw [length, window, List.length_map, List.length_range]
  · intro p here there
    rw [length] at here
    have place : offset + p < text.length := by omega
    simp only [window, List.getElem_map, List.getElem_range, List.getElem_take, List.getElem_drop, filled]
    rw [List.getElem?_eq_getElem place]
    rfl

/-- A splice lies over the text. -/
theorem filled_splice (filler : α) {text : List α} {offset : Nat} (inside : offset ≤ text.length) (input : List α) :
    filled filler (splice text offset input) = overlay offset input (filled filler text) := by
  have head : (text.take offset).length = offset := List.length_take_of_le inside
  funext p
  rw [splice, List.append_assoc]
  by_cases before : p < offset
  · rw [filled_append_of_lt (by rwa [head]), overlay_of_lt before, filled, filled, List.getElem?_take_of_lt before]
  · obtain ⟨q, rfl⟩ := Nat.exists_eq_add_of_le (Nat.not_lt.mp before)
    have moved := filled_append_add filler (text.take offset) (input ++ text.drop (offset + input.length)) q
    rw [head] at moved
    rw [moved, overlay_add]
    by_cases here : q < input.length
    · rw [filled_append_of_lt here, filled, List.getElem?_eq_getElem here]
      rfl
    · obtain ⟨r, rfl⟩ := Nat.exists_eq_add_of_le (Nat.not_lt.mp here)
      rw [filled_append_add, List.getElem?_eq_none (Nat.le_add_right input.length r), filled, filled, List.getElem?_drop, Nat.add_assoc]
      rfl

/-- Two texts of one length are told apart by what stands in them. -/
theorem eq_of_filled {filler : α} {first second : List α} (length : first.length = second.length) (same : filled filler first = filled filler second) :
    first = second := by
  apply List.ext_getElem length
  intro p inFirst inSecond
  have here := congrFun same p
  rwa [filled, filled, List.getElem?_eq_getElem inFirst, List.getElem?_eq_getElem inSecond] at here

end CloudCryptFS.Util
