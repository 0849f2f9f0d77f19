import Mathlib.Tactic

/-! # Signals and signal sets

Signal numbers with their default dispositions, the 64-bit signal set of the Linux ABI, and the
records a signal carries: its `siginfo`, the installed action and the alternate stack.
-/

namespace LiteBox.Signals

open List BitVec

/-- A Linux signal number, in the range 1 to 64. -/
structure Signal where
  number : ℕ
  range : 1 ≤ number ∧ number ≤ 64
deriving DecidableEq

namespace Signal

@[ext] theorem ext_number {s t : Signal} (same : s.number = t.number) : s = t := by
  cases s; cases t; cases same; rfl

def SIGILL : Signal := ⟨4, by decide⟩
def SIGQUIT : Signal := ⟨3, by decide⟩
def SIGTRAP : Signal := ⟨5, by decide⟩
def SIGABRT : Signal := ⟨6, by decide⟩
def SIGBUS : Signal := ⟨7, by decide⟩
def SIGFPE : Signal := ⟨8, by decide⟩
def SIGKILL : Signal := ⟨9, by decide⟩
def SIGUSR1 : Signal := ⟨10, by decide⟩
def SIGSEGV : Signal := ⟨11, by decide⟩
def SIGCHLD : Signal := ⟨17, by decide⟩
def SIGCONT : Signal := ⟨18, by decide⟩
def SIGSTOP : Signal := ⟨19, by decide⟩
def SIGTSTP : Signal := ⟨20, by decide⟩
def SIGTTIN : Signal := ⟨21, by decide⟩
def SIGTTOU : Signal := ⟨22, by decide⟩
def SIGURG : Signal := ⟨23, by decide⟩
def SIGXCPU : Signal := ⟨24, by decide⟩
def SIGXFSZ : Signal := ⟨25, by decide⟩
def SIGWINCH : Signal := ⟨28, by decide⟩
def SIGSYS : Signal := ⟨31, by decide⟩

def asI32 (s : Signal) : ℤ := s.number

theorem asI32_inj {s t : Signal} : s.asI32 = t.asI32 ↔ s = t :=
  ⟨fun same => ext_number (by simpa [asI32] using same), fun same => same ▸ rfl⟩

def sigrtmin : ℕ := 32

def isRtSignal (s : Signal) : Bool := sigrtmin ≤ s.number

inductive Disposition where
  | terminate
  | ignore
  | core
  | stop
  | continue_
deriving DecidableEq, Repr

def defaultDisposition (s : Signal) : Disposition :=
  if s ∈ [SIGABRT, SIGBUS, SIGFPE, SIGILL, SIGQUIT, SIGSEGV, SIGSYS, SIGTRAP, SIGXCPU, SIGXFSZ] then .core
  else if s ∈ [SIGCHLD, SIGURG, SIGWINCH] then .ignore
  else if s = SIGCONT then .continue_
  else if s ∈ [SIGSTOP, SIGTSTP, SIGTTIN, SIGTTOU] then .stop
  else .terminate

def ofBit (i : Fin 64) : Signal := ⟨i + 1, by omega, by omega⟩

def all : List Signal := (List.finRange 64).map ofBit

theorem mem_all (s : Signal) : s ∈ all := by
  have bound : s.number - 1 < 64 := by have := s.range; omega
  refine mem_map.mpr ⟨⟨s.number - 1, bound⟩, mem_finRange _, ?_⟩
  have := s.range
  exact ext_number (by simp only [ofBit]; omega)

theorem sorted_all : all.Pairwise fun s t => s.number < t.number := by
  refine pairwise_map.mpr ((pairwise_lt_finRange 64).imp ?_)
  intro i j less
  have : i.val < j.val := less
  simp only [ofBit]
  omega

end Signal

/-! ## Signal sets -/

/-- Signal `n` is bit `n - 1`. -/
structure SigSet where
  bits : BitVec 64
deriving DecidableEq

namespace SigSet

def empty : SigSet := ⟨0⟩

def bit (s : Signal) : BitVec 64 := 1#64 <<< (s.number - 1)

variable (set : SigSet)

def isEmpty : Bool := set.bits == 0

def add (s : Signal) : SigSet := ⟨set.bits ||| bit s⟩

def remove (s : Signal) : SigSet := ⟨set.bits &&& ~~~bit s⟩

def contains (s : Signal) : Bool := (set.bits &&& bit s) != 0

instance : AndOp SigSet := ⟨fun a b => ⟨a.bits &&& b.bits⟩⟩
instance : OrOp SigSet := ⟨fun a b => ⟨a.bits ||| b.bits⟩⟩
instance : Complement SigSet := ⟨fun a => ⟨~~~a.bits⟩⟩

/-- The signal of the lowest set bit. -/
def lowestSet : Option Signal := Signal.all.find? set.contains

theorem bit_eq_twoPow (s : Signal) : bit s = twoPow 64 (s.number - 1) := rfl

theorem contains_eq_getLsbD (s : Signal) : set.contains s = set.bits.getLsbD (s.number - 1) := by
  have inside : s.number - 1 < 64 := by have := s.range; omega
  have nonzero : twoPow 64 (s.number - 1) ≠ 0#64 := by
    intro zero
    have lit : (twoPow 64 (s.number - 1)).getLsbD (s.number - 1) = true := by
      simp [inside]
    simp [zero] at lit
  rw [contains, bit_eq_twoPow, and_twoPow]
  cases set.bits.getLsbD (s.number - 1) with
  | true => simpa using nonzero
  | false => rfl

theorem getLsbD_bit (s t : Signal) : (bit s).getLsbD (t.number - 1) = decide (t = s) := by
  have hs := s.range
  have ht := t.range
  rw [bit_eq_twoPow, getLsbD_twoPow]
  by_cases same : t = s
  · subst same
    simp only [decide_true, Bool.and_true, decide_eq_true_eq]
    omega
  · have apart : s.number - 1 ≠ t.number - 1 := fun eq => same (Signal.ext_number (by omega))
    simp [same, apart]

@[simp] theorem contains_empty (s : Signal) : empty.contains s = false := by
  simp [contains_eq_getLsbD, empty]

@[simp] theorem contains_add (s t : Signal) : (set.add s).contains t = (set.contains t || decide (t = s)) := by
  simp [contains_eq_getLsbD, add, getLsbD_bit]

@[simp] theorem contains_remove (s t : Signal) :
    (set.remove s).contains t = (set.contains t && !decide (t = s)) := by
  have inside : t.number - 1 < 64 := by have := t.range; omega
  rw [contains_eq_getLsbD, contains_eq_getLsbD, remove, getLsbD_and, getLsbD_not, getLsbD_bit]
  simp [inside]

@[simp] theorem contains_and (a b : SigSet) (s : Signal) : (a &&& b).contains s = (a.contains s && b.contains s) := by
  simp only [contains_eq_getLsbD]
  exact getLsbD_and

@[simp] theorem contains_or (a b : SigSet) (s : Signal) : (a ||| b).contains s = (a.contains s || b.contains s) := by
  simp only [contains_eq_getLsbD]
  exact getLsbD_or

@[simp] theorem contains_not (a : SigSet) (s : Signal) : (~~~a).contains s = !a.contains s := by
  have inside : s.number - 1 < 64 := by have := s.range; omega
  have flip : (~~~a.bits).getLsbD (s.number - 1) = !a.bits.getLsbD (s.number - 1) := by simp [inside]
  simp only [contains_eq_getLsbD]
  exact flip

theorem lowestSet_eq_none {set : SigSet} : set.lowestSet = none ↔ ∀ s, set.contains s = false := by
  simp only [lowestSet, find?_eq_none, Bool.not_eq_true]
  exact ⟨fun clear s => clear s (Signal.mem_all s), fun clear s _ => clear s⟩

theorem lowestSet_eq_some {set : SigSet} {s : Signal} (lowest : set.lowestSet = some s) :
    set.contains s = true ∧ ∀ t, set.contains t = true → s.number ≤ t.number := by
  obtain ⟨held, before, after, split, earlier⟩ := find?_eq_some_iff_append.mp lowest
  refine ⟨held, fun t member => ?_⟩
  have sorted := Signal.sorted_all
  rw [split, pairwise_append] at sorted
  obtain ⟨-, sorted, -⟩ := sorted
  have position := split ▸ Signal.mem_all t
  obtain early | rfl | late := by simpa using position
  · exact absurd member (by simpa using earlier t early)
  · exact le_rfl
  · exact ((pairwise_cons.mp sorted).1 t late).le

end SigSet

/-! ## What a signal carries -/

/-- The payload of a `siginfo`, as 32-bit words. -/
structure SiginfoData where
  pad : List (BitVec 32)
deriving DecidableEq

namespace SiginfoData

def words (used : List (BitVec 32)) : SiginfoData := ⟨used ++ List.replicate (28 - used.length) 0⟩

def newZeroed : SiginfoData := words []

def newAddr (addr : BitVec 64) : SiginfoData := words [addr.setWidth 32, (addr >>> 32).setWidth 32]

def newSigsys (callAddr : BitVec 64) (syscall : ℤ) (arch : BitVec 32) : SiginfoData :=
  words [callAddr.setWidth 32, (callAddr >>> 32).setWidth 32, BitVec.ofInt 32 syscall, arch]

end SiginfoData

structure Siginfo where
  (signo errno code : ℤ)
  data : SiginfoData
deriving DecidableEq

def siUser : ℤ := 0
def siKernel : ℤ := 0x80
def sysSeccomp : ℤ := 1

def siginfoKill (s : Signal) : Siginfo := ⟨s.asI32, 0, siUser, .newZeroed⟩

def siginfoException (s : Signal) (faultAddress : BitVec 64) : Siginfo :=
  ⟨s.asI32, 0, siKernel, .newAddr faultAddress⟩

/-- `flags` of a bit field, as `bitflags` tests them. -/
def holdsFlag (flags flag : BitVec 32) : Bool := (flags &&& flag) == flag

def saRestorer : BitVec 32 := 0x04000000
def saOnstack : BitVec 32 := 0x08000000
def saNodefer : BitVec 32 := 0x40000000

structure SigAction where
  sigaction : BitVec 64
  flags : BitVec 32
  restorer : BitVec 64
  mask : SigSet
deriving DecidableEq

def sigDfl : BitVec 64 := 0
def sigIgn : BitVec 64 := 1

def SigAction.default : SigAction := ⟨sigDfl, 0, 0, .empty⟩

def ssOnstack : BitVec 32 := 1
def ssDisable : BitVec 32 := 2
def ssAutodisarm : BitVec 32 := 0x80000000

structure SigAltStack where
  sp : BitVec 64
  flags : BitVec 32
  size : BitVec 64
deriving DecidableEq

def SigAltStack.disabled : SigAltStack := ⟨0, ssDisable, 0⟩

/-- Whether `sp` is within the given signal stack. -/
def isOnStack (stack : SigAltStack) (sp : BitVec 64) : Bool :=
  !holdsFlag stack.flags ssDisable && decide (stack.sp.toNat ≤ sp.toNat ∧ sp.toNat < stack.sp.toNat + stack.size.toNat)

end LiteBox.Signals
