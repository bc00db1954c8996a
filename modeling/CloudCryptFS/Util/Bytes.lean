import Mathlib.Data.List.OfFn
import Mathlib.Algebra.GroupWithZero.Nat
import Mathlib.Data.Nat.Log

/-! Numbers and records as bytes: little-endian words of a fixed width, and arrays of
records of one width that are written one after the other. -/

namespace CloudCryptFS.Util.Bytes

section Words

/-- The lowest bytes of a number, least significant first. -/
def littleEndian : (width : Nat) → Nat → List UInt8
  | 0, _ => []
  | width + 1, n => UInt8.ofNat n :: littleEndian width (n / 256)

def fromLittleEndian : List UInt8 → Nat
  | [] => 0
  | byte :: bytes => byte.toNat + 256 * fromLittleEndian bytes

@[simp]
theorem length_littleEndian (width n : Nat) : (littleEndian width n).length = width := by
  induction width generalizing n with
  | zero => rfl
  | succ width ih => rw [littleEndian, List.length_cons, ih]

theorem fromLittleEndian_littleEndian {width n : Nat} (fits : n < 256 ^ width) :
    fromLittleEndian (littleEndian width n) = n := by
  induction width generalizing n with
  | zero =>
    have zero : n = 0 := by simpa using fits
    rw [zero, littleEndian, fromLittleEndian]
  | succ width ih =>
    have smaller : n / 256 < 256 ^ width := by
      rw [Nat.pow_succ] at fits
      omega
    have byte : (UInt8.ofNat n).toNat = n % 256 := UInt8.toNat_ofNat'
    rw [littleEndian, fromLittleEndian, ih smaller, byte]
    omega

/-- A record of words, each with its width. -/
def words : List (Nat × Nat) → List UInt8
  | [] => []
  | (width, n) :: rest => littleEndian width n ++ words rest

def readWords : List Nat → List UInt8 → List Nat
  | [], _ => []
  | width :: widths, text => fromLittleEndian (text.take width) :: readWords widths (text.drop width)

theorem length_words (fields : List (Nat × Nat)) : (words fields).length = (fields.map Prod.fst).sum := by
  induction fields with
  | nil => rfl
  | cons field rest ih =>
    rw [words, List.length_append, length_littleEndian, ih, List.map_cons, List.sum_cons]

/-- Only the words themselves are read. -/
theorem readWords_words_append (fields : List (Nat × Nat)) (text : List UInt8) :
    readWords (fields.map Prod.fst) (words fields ++ text) = readWords (fields.map Prod.fst) (words fields) := by
  induction fields with
  | nil => rfl
  | cons field rest ih =>
    have long := length_littleEndian field.1 field.2
    rw [words, List.map_cons, readWords, readWords, List.append_assoc, List.take_left' long, List.drop_left' long, List.take_left' long,
      List.drop_left' long, ih]

theorem readWords_words {fields : List (Nat × Nat)} (fits : ∀ field ∈ fields, field.2 < 256 ^ field.1) :
    readWords (fields.map Prod.fst) (words fields) = fields.map Prod.snd := by
  induction fields with
  | nil => rfl
  | cons field rest ih =>
    have long := length_littleEndian field.1 field.2
    have here := fits field List.mem_cons_self
    have later := ih (fun other member => fits other (List.mem_cons_of_mem _ member))
    rw [words, List.map_cons, List.map_cons, readWords, List.take_left' long, List.drop_left' long,
      fromLittleEndian_littleEndian here, later]

end Words

section Records
variable {α β : Type*} {n width : Nat}

/-- The record at an index of an array that is written record by record. -/
def block (width : Nat) (text : List α) (i : Nat) : List α := (text.drop (i * width)).take width

theorem length_records {write : β → List α} (fixed : ∀ b, (write b).length = width) (list : List β) :
    (list.flatMap write).length = list.length * width := by
  induction list with
  | nil => simp
  | cons b list ih =>
    rw [List.flatMap_cons, List.length_append, fixed, ih, List.length_cons, Nat.succ_mul, Nat.add_comm]

theorem block_records {write : β → List α} (fixed : ∀ b, (write b).length = width) {list : List β} {i : Nat} (inside : i < list.length) :
    block width (list.flatMap write) i = write list[i] := by
  unfold block
  induction list generalizing i with
  | nil => exact absurd inside (Nat.not_lt_zero i)
  | cons b list ih =>
    rw [List.flatMap_cons]
    cases i with
    | zero =>
      rw [Nat.zero_mul, List.drop_zero, List.take_left' (fixed b)]
      rfl
    | succ i =>
      have later : (i + 1) * width = (write b).length + i * width := by
        rw [fixed, Nat.succ_mul, Nat.add_comm]
      rw [later, List.drop_length_add_append]
      exact ih (Nat.lt_of_succ_lt_succ inside)

/-- An array as bytes. -/
def array (write : β → List α) (records : Fin n → β) : List α := (List.ofFn records).flatMap write

theorem length_array {write : β → List α} (fixed : ∀ b, (write b).length = width) (records : Fin n → β) :
    (array write records).length = n * width := by
  rw [array, length_records fixed, List.length_ofFn]

theorem block_array {write : β → List α} (fixed : ∀ b, (write b).length = width) (records : Fin n → β) (i : Fin n) :
    block width (array write records) i = write (records i) := by
  have inside : i.val < (List.ofFn records).length := by
    rw [List.length_ofFn]
    exact i.isLt
  rw [array, block_records fixed inside, List.getElem_ofFn]

end Records

end CloudCryptFS.Util.Bytes
