import Mathlib.Tactic

/-! # Byte strings

Little-endian values and bounded slices of byte strings.
-/

namespace Bytes

open List Int

/-- The little-endian value of a byte string. -/
def leValue : List UInt8 → ℕ
  | [] => 0
  | byte :: rest => byte.toNat + 256 * leValue rest

/-- The bytes `[offset, offset + count)` of a string, when they all exist. -/
def slice? (data : List UInt8) (offset count : ℕ) : Option (List UInt8) :=
  if offset + count ≤ data.length then some ((data.drop offset).take count) else none

/-- The `count` little-endian bytes of a value; higher bytes are dropped. -/
def leBytes : ℕ → ℕ → List UInt8
  | 0, _ => []
  | count + 1, value => UInt8.ofNat value :: leBytes count (value / 256)

@[simp] theorem leBytes_length (count value : ℕ) : (leBytes count value).length = count := by
  induction count generalizing value with
  | zero => rfl
  | succ count ih => simp [leBytes, ih]

theorem leValue_lt (bytes : List UInt8) : leValue bytes < 256 ^ bytes.length := by
  induction bytes with
  | nil => simp [leValue]
  | cons byte rest ih =>
    have := byte.toNat_lt
    simp only [leValue, length_cons, Nat.pow_succ]
    omega

theorem slice?_of_le {data : List UInt8} {offset count : ℕ} (bound : offset + count ≤ data.length) :
    slice? data offset count = some ((data.drop offset).take count) := if_pos bound

theorem slice?_length {data bytes : List UInt8} {offset count : ℕ}
    (found : slice? data offset count = some bytes) : bytes.length = count := by
  unfold slice? at found
  split at found
  · next bound =>
    cases found
    simp only [length_take, length_drop]
    omega
  · cases found

theorem leValue_leBytes (count value : ℕ) : leValue (leBytes count value) = value % 256 ^ count := by
  induction count generalizing value with
  | zero => simp [leBytes, leValue, Nat.mod_one]
  | succ count ih =>
    have byte : (UInt8.ofNat value).toNat = value % 256 := UInt8.toNat_ofNat'
    rw [leBytes, leValue, ih, byte, Nat.pow_succ, Nat.mul_comm (256 ^ count) 256, Nat.mod_mul]

/-! ## Overwriting -/

/-- The string with `bytes` written over it from `offset` on. -/
def overwrite (data : List UInt8) (offset : ℕ) (bytes : List UInt8) : List UInt8 :=
  data.take offset ++ bytes ++ data.drop (offset + bytes.length)

section Overwrite

variable {data bytes : List UInt8} {offset : ℕ} (fits : offset + bytes.length ≤ data.length)

include fits

theorem overwrite_length : (overwrite data offset bytes).length = data.length := by
  simp only [overwrite, length_append, length_take, length_drop]
  omega

theorem getElem?_overwrite_inside {index : ℕ} (inside : index < bytes.length) :
    (overwrite data offset bytes)[offset + index]? = bytes[index]? := by
  have front : (data.take offset).length = offset := by rw [length_take]; omega
  rw [overwrite, append_assoc, getElem?_append_right (by omega), front, Nat.add_sub_cancel_left, getElem?_append_left inside]

theorem getElem?_overwrite_outside {index : ℕ} (outside : index < offset ∨ offset + bytes.length ≤ index) :
    (overwrite data offset bytes)[index]? = data[index]? := by
  have front : (data.take offset).length = offset := by rw [length_take]; omega
  rcases outside with before | behind
  · rw [overwrite, append_assoc, getElem?_append_left (by omega), getElem?_take_of_lt before]
  · rw [overwrite, getElem?_append_right (by rw [length_append, front]; exact behind),
      getElem?_drop, length_append, front]
    congr 1
    omega

end Overwrite

/-! ## Two's complement -/

/-- The signed number a `bits`-wide field stands for. -/
def toSigned (bits value : ℕ) : ℤ := if value < 2 ^ (bits - 1) then value else value - 2 ^ bits

/-- The `bits`-wide field of a signed number. -/
def ofSigned (bits : ℕ) (number : ℤ) : ℕ := (number % 2 ^ bits).toNat

/-- The numbers a `bits`-wide signed field can hold. -/
def FitsSigned (bits : ℕ) (number : ℤ) : Prop := -2 ^ (bits - 1) ≤ number ∧ number < 2 ^ (bits - 1)

instance (bits : ℕ) (number : ℤ) : Decidable (FitsSigned bits number) := instDecidableAnd

theorem ofSigned_lt (bits : ℕ) (number : ℤ) : ofSigned bits number < 2 ^ bits := by
  have positive : (0 : ℤ) < 2 ^ bits := by positivity
  have bound := emod_lt_of_pos number positive
  have nonneg := emod_nonneg number positive.ne'
  rw [ofSigned, ← ofNat_lt, toNat_of_nonneg nonneg]
  exact_mod_cast bound

theorem toSigned_ofSigned {bits : ℕ} (wide : 0 < bits) {number : ℤ} (fits : FitsSigned bits number) :
    toSigned bits (ofSigned bits number) = number := by
  obtain ⟨low, high⟩ := fits
  obtain ⟨half, rfl⟩ : ∃ half, bits = half + 1 := ⟨bits - 1, by omega⟩
  have double : (2 : ℤ) ^ (half + 1) = 2 * 2 ^ half := by ring
  have positive : (0 : ℤ) < 2 ^ half := by positivity
  simp only [Nat.add_sub_cancel] at low high
  unfold toSigned ofSigned
  simp only [Nat.add_sub_cancel]
  rcases lt_or_ge number 0 with negative | nonneg
  · have residue : number % 2 ^ (half + 1) = number + 2 ^ (half + 1) := by
      rw [← add_emod_right, emod_eq_of_lt] <;> omega
    have cast : ((number + 2 ^ (half + 1)).toNat : ℤ) = number + 2 ^ (half + 1) :=
      toNat_of_nonneg (by omega)
    rw [residue, if_neg, cast]
    · omega
    · rw [← ofNat_lt, cast]
      push_cast
      omega
  · have residue : number % 2 ^ (half + 1) = number := emod_eq_of_lt nonneg (by omega)
    rw [residue, if_pos, toNat_of_nonneg nonneg]
    rw [← ofNat_lt, toNat_of_nonneg nonneg]
    exact_mod_cast high

end Bytes
