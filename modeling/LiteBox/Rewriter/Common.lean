import LiteBox.Lib.Outcome
import LiteBox.Lib.Bytes

/-! # What both architectures share

The errors of the rewriter, its checked arithmetic, and the executable sections it works on.
Arithmetic that overflows in the source is a `panic` here.
-/

namespace LiteBox.Rewriter

/-- The errors of the crate, and the panics of the code that can raise them. -/
inductive Error where
  | parseError (message : String)
  | unsupportedExecutable (message : String)
  | disassemblyFailure (message : String)
  | addressOverflow (message : String)
  | unpatchableSyscalls (message : String)
  | panic (what : String)
deriving DecidableEq, Repr

/-- `{:#x}`. -/
def hex (value : ℕ) : String := "0x" ++ String.ofList (Nat.toDigits 16 value)

/-- `u64` addition that panics on overflow. -/
def addU64 (a b : ℕ) (what : String) : Except Error ℕ :=
  if a + b < 2 ^ 64 then .ok (a + b) else .error (.panic what)

def checkedAddU64 (base addend : ℕ) (context : String) : Except Error ℕ :=
  if base + addend < 2 ^ 64 then .ok (base + addend)
  else .error (.addressOverflow (context ++ " address overflow"))

/-- `u64` subtraction that panics on underflow. -/
def subU64 (a b : ℕ) : Except Error ℕ :=
  if b ≤ a then .ok (a - b) else .error (.panic "attempt to subtract with overflow")

/-- An executable section: where it is mapped and which bytes of the file it has. -/
structure TextSectionInfo where
  (vaddr fileOffset size : ℕ)
deriving DecidableEq, Repr

theorem subU64_eq_ok {a b difference : ℕ} : subU64 a b = .ok difference ↔ b ≤ a ∧ difference = a - b :=
  Outcome.ite_eq_ok

variable {context : String}

theorem checkedAddU64_eq_ok {a b sum : ℕ} :
    checkedAddU64 a b context = .ok sum ↔ a + b < 2 ^ 64 ∧ sum = a + b := Outcome.ite_eq_ok

theorem addU64_eq_ok {a b sum : ℕ} : addU64 a b context = .ok sum ↔ a + b < 2 ^ 64 ∧ sum = a + b :=
  Outcome.ite_eq_ok

end LiteBox.Rewriter
