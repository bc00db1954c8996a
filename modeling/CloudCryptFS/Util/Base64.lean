import Mathlib.Data.List.Basic

/-! Base 64 with padding: three bytes become four digits of six bits each. -/

namespace CloudCryptFS.Util.Base64

/-- `A` to `Z`, `a` to `z`, `0` to `9`, `+` and `/`. -/
def digit (n : Nat) : UInt8 :=
  UInt8.ofNat (if n < 26 then n + 65 else if n < 52 then n + 71 else if n < 62 then n - 4 else if n = 62 then 43 else 47)

def value (c : UInt8) : Option Nat :=
  let n := c.toNat
  if 65 ≤ n ∧ n ≤ 90 then some (n - 65)
  else if 97 ≤ n ∧ n ≤ 122 then some (n - 71)
  else if 48 ≤ n ∧ n ≤ 57 then some (n + 4)
  else if n = 43 then some 62
  else if n = 47 then some 63
  else none

def pad : UInt8 := 61

theorem value_digit {n : Nat} (small : n < 64) : value (digit n) = some n := by
  have all : ∀ n : Fin 64, value (digit n) = some n.val := by decide
  exact all ⟨n, small⟩

theorem digit_ne_pad {n : Nat} (small : n < 64) : digit n ≠ pad := by
  intro same
  have read := value_digit small
  rw [same] at read
  cases read

/-- The characters of a text. -/
def Character (c : UInt8) : Prop := (value c).isSome ∨ c = pad

theorem character_digit {n : Nat} (small : n < 64) : Character (digit n) := Or.inl (by rw [value_digit small]; rfl)

theorem character_pad : Character pad := Or.inr rfl

def encode : List UInt8 → List UInt8
  | [] => []
  | [a] => [digit (a.toNat / 4), digit (a.toNat % 4 * 16), pad, pad]
  | [a, b] => [digit (a.toNat / 4), digit (a.toNat % 4 * 16 + b.toNat / 16), digit (b.toNat % 16 * 4), pad]
  | a :: b :: c :: rest =>
    digit (a.toNat / 4) :: digit (a.toNat % 4 * 16 + b.toNat / 16) :: digit (b.toNat % 16 * 4 + c.toNat / 64) ::
      digit (c.toNat % 64) :: encode rest

def first (w x : Nat) : UInt8 := UInt8.ofNat (w * 4 + x / 16)

def second (x y : Nat) : UInt8 := UInt8.ofNat (x % 16 * 16 + y / 4)

def third (y z : Nat) : UInt8 := UInt8.ofNat (y % 4 * 64 + z)

/-- Padding is taken at the end only. -/
def decode : List UInt8 → Option (List UInt8)
  | [] => some []
  | w :: x :: y :: z :: rest => do
    let w ← value w
    let x ← value x
    if rest = [] ∧ z = pad then
      if y = pad then pure [first w x]
      else do
        let y ← value y
        pure [first w x, second x y]
    else do
      let y ← value y
      let z ← value z
      let later ← decode rest
      pure (first w x :: second x y :: third y z :: later)
  | _ => none

theorem first_eq (a : UInt8) {x : Nat} (small : x < 16) : first (a.toNat / 4) (a.toNat % 4 * 16 + x) = a := by
  have whole : a.toNat / 4 * 4 + (a.toNat % 4 * 16 + x) / 16 = a.toNat := by omega
  rw [first, whole, UInt8.ofNat_toNat]

theorem second_eq (b : UInt8) (x : Nat) {y : Nat} (small : y < 4) :
    second (x * 16 + b.toNat / 16) (b.toNat % 16 * 4 + y) = b := by
  have bound := b.toNat_lt
  have whole : (x * 16 + b.toNat / 16) % 16 * 16 + (b.toNat % 16 * 4 + y) / 4 = b.toNat := by omega
  rw [second, whole, UInt8.ofNat_toNat]

theorem third_eq (c : UInt8) (y : Nat) : third (y * 4 + c.toNat / 64) (c.toNat % 64) = c := by
  have bound := c.toNat_lt
  have whole : (y * 4 + c.toNat / 64) % 4 * 64 + c.toNat % 64 = c.toNat := by omega
  rw [third, whole, UInt8.ofNat_toNat]

theorem decode_encode : ∀ bytes : List UInt8, decode (encode bytes) = some bytes
  | [] => rfl
  | [a] => by
    have bound := a.toNat_lt
    have one := first_eq a (show 0 < 16 by decide)
    rw [Nat.add_zero] at one
    rw [encode, decode, value_digit (by omega), value_digit (by omega)]
    simp only [Option.bind_eq_bind, Option.bind_some, true_and, if_true, one]
    rfl
  | [a, b] => by
    have bound := a.toNat_lt
    have bound' := b.toNat_lt
    have one := first_eq a (show b.toNat / 16 < 16 by omega)
    have two := second_eq b (a.toNat % 4) (show 0 < 4 by decide)
    rw [Nat.add_zero] at two
    rw [encode, decode, value_digit (by omega), value_digit (by omega)]
    simp only [Option.bind_eq_bind, Option.bind_some, true_and, if_true, one]
    rw [if_neg (digit_ne_pad (by omega)), value_digit (by omega), Option.bind_some, two]
    rfl
  | a :: b :: c :: rest => by
    have bound := a.toNat_lt
    have bound' := b.toNat_lt
    have bound'' := c.toNat_lt
    have one := first_eq a (show b.toNat / 16 < 16 by omega)
    have two := second_eq b (a.toNat % 4) (show c.toNat / 64 < 4 by omega)
    have three := third_eq c (b.toNat % 16)
    have small : digit (c.toNat % 64) ≠ pad := digit_ne_pad (by omega)
    rw [encode, decode, value_digit (by omega), value_digit (by omega)]
    simp only [Option.bind_eq_bind, Option.bind_some]
    rw [if_neg (fun last => small last.2), value_digit (by omega), value_digit (by omega), decode_encode rest]
    simp only [Option.bind_some, one, two, three]
    rfl

theorem character_encode : ∀ bytes : List UInt8, ∀ c ∈ encode bytes, Character c
  | [] => fun _ member => absurd member List.not_mem_nil
  | [a] => by
    have bound := a.toNat_lt
    simp only [encode, List.forall_mem_cons]
    exact ⟨character_digit (by omega), character_digit (by omega), character_pad, character_pad, fun _ member => absurd member List.not_mem_nil⟩
  | [a, b] => by
    have bound := a.toNat_lt
    have bound' := b.toNat_lt
    simp only [encode, List.forall_mem_cons]
    exact ⟨character_digit (by omega), character_digit (by omega), character_digit (by omega), character_pad,
      fun _ member => absurd member List.not_mem_nil⟩
  | a :: b :: c :: rest => by
    have bound := a.toNat_lt
    have bound' := b.toNat_lt
    have bound'' := c.toNat_lt
    simp only [encode, List.forall_mem_cons]
    exact ⟨character_digit (by omega), character_digit (by omega), character_digit (by omega), character_digit (by omega), character_encode rest⟩

end CloudCryptFS.Util.Base64
