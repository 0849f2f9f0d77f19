import Mathlib.Tactic

/-! # Linux error numbers

The error numbers the modelled system calls answer.
-/

namespace LiteBox

inductive Errno where
  | EACCES
  | EFAULT
  | EINVAL
  | ENOMEM
  | ENOSYS
  | EPERM
deriving DecidableEq, Repr

end LiteBox
