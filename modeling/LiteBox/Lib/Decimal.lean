import Mathlib.Tactic

/-! # Decimal numbers in text

Numbers are written as their digits, and read back with an upper bound.
-/

namespace Decimal

open Nat

variable {n max : ℕ} {c : Char}

/-- Digits, perhaps after a plus sign, of a number that is at most `max`. -/
def parse (max : ℕ) (word : List Char) : Option ℕ :=
  let digits := match word with
    | '+' :: digits => digits
    | digits => digits
  if digits ≠ [] ∧ digits.all Char.isDigit ∧ ofDigitChars 10 digits 0 ≤ max then some (ofDigitChars 10 digits 0) else none

theorem isDigit_of_mem (digit : c ∈ toDigits 10 n) : c.isDigit := isDigit_of_mem_toDigits (by decide) (by decide) digit

theorem parse_toDigits (fits : n ≤ max) : parse max (toDigits 10 n) = some n := by
  have back : ofDigitChars 10 (toDigits 10 n) 0 = n := ofDigitChars_ten_toDigits
  have plain : (match toDigits 10 n with | '+' :: digits => digits | digits => digits) = toDigits 10 n := by
    split
    · next digits eq => cases isDigit_of_mem (eq ▸ List.mem_cons_self : '+' ∈ toDigits 10 n)
    · rfl
  have accepted : toDigits 10 n ≠ [] ∧ (toDigits 10 n).all Char.isDigit ∧ ofDigitChars 10 (toDigits 10 n) 0 ≤ max :=
    ⟨toDigits_ne_nil, List.all_eq_true.mpr fun _ => isDigit_of_mem, back.symm ▸ fits⟩
  unfold parse
  rw [plain]
  exact (if_pos accepted).trans (congrArg some back)

end Decimal
