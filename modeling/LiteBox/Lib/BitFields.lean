import LiteBox.Lib.Bytes

/-! # Fields of a word

Words as natural numbers whose bits are grouped into fields. Setting disjoint fields with a bitwise
or is adding them, and masking a field out is taking a remainder, so questions about encodings
become questions about division and remainder by powers of two.
-/

namespace BitFields

/-- The `width` bits of a word from bit `low` on. -/
def field (word low width : ℕ) : ℕ := word / 2 ^ low % 2 ^ width

theorem field_lt (word low width : ℕ) : field word low width < 2 ^ width :=
  Nat.mod_lt _ (Nat.two_pow_pos width)

/-- A low field beside a high one. -/
theorem or_eq_add (width : ℕ) {high low : ℕ} (aligned : 2 ^ width ∣ high) (small : low < 2 ^ width) :
    high ||| low = high + low := by
  obtain ⟨value, rfl⟩ := aligned
  rw [Nat.mul_comm, ← Nat.shiftLeft_eq, Nat.shiftLeft_add_eq_or_of_lt small]

theorem and_mask (word width : ℕ) : word &&& (2 ^ width - 1) = word % 2 ^ width :=
  Nat.and_two_pow_sub_one_eq_mod word width

/-- Masking all bits but the low ones. -/
theorem and_high {word low width : ℕ} (small : word < 2 ^ (low + width)) :
    word &&& (2 ^ width - 1) <<< low = word / 2 ^ low * 2 ^ low := by
  have high : word / 2 ^ low < 2 ^ width := by
    rw [Nat.pow_add] at small
    exact Nat.div_lt_of_lt_mul small
  apply Nat.eq_of_testBit_eq
  intro bit
  rw [Nat.testBit_and, Nat.testBit_shiftLeft, ← Nat.shiftLeft_eq, Nat.testBit_shiftLeft,
    ← Nat.shiftRight_eq_div_pow, Nat.testBit_shiftRight, Nat.testBit_two_pow_sub_one]
  by_cases above : low ≤ bit
  · rw [Nat.add_sub_cancel' above]
    by_cases inside : bit - low < width
    · simp [above, inside]
    · have zero : word.testBit bit = false := by
        refine Nat.testBit_lt_two_pow (small.trans_le (Nat.pow_le_pow_right (by decide) ?_))
        omega
      simp [zero]
  · simp [above]

end BitFields

namespace Bytes

/-- The low bits of a signed field are the narrower field. -/
theorem ofSigned_mod {narrow wide : ℕ} (le : narrow ≤ wide) (number : ℤ) :
    ofSigned wide number % 2 ^ narrow = ofSigned narrow number := by
  have positive (bits : ℕ) : (0 : ℤ) < 2 ^ bits := by positivity
  have nonneg := Int.emod_nonneg number (positive wide).ne'
  have divides : (2 : ℤ) ^ narrow ∣ 2 ^ wide := pow_dvd_pow 2 le
  rw [← Int.ofNat_inj]
  push_cast
  rw [ofSigned, ofSigned, Int.toNat_of_nonneg nonneg, Int.toNat_of_nonneg (Int.emod_nonneg number (positive narrow).ne'),
    Int.emod_emod_of_dvd number divides]

end Bytes
