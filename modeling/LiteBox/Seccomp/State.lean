import LiteBox.Lib.Run
import LiteBox.Seccomp.Bpf

/-! # The seccomp state of a thread group

The mode, `no_new_privs` and the filter stack of a process, the verdict `evaluate` reaches from
them for one system call, and the calls that change them: `seccomp(2)`, `prctl(PR_SET_SECCOMP)`,
`prctl(PR_SET_NO_NEW_PRIVS)` and the inheritance of a cloned child. Every call first passes the
gate of `do_syscall`, which evaluates the state the call would change.
-/

namespace LiteBox.Seccomp

open Bytes

inductive Arch where
  | x86_64
  | aarch64
deriving DecidableEq, Repr

def auditArch : Arch → UInt32
  | .x86_64 => 0xc000003e
  | .aarch64 => 0xc00000b7

/-- The numbers of `read`, `write`, `exit`, `exit_group` and `rt_sigreturn`. -/
def strictNumbers : Arch → List ℕ
  | .x86_64 => [0, 1, 60, 231, 15]
  | .aarch64 => [63, 64, 93, 94, 139]

def seccompStrictAllows (arch : Arch) (number : ℕ) : Bool := number ∈ strictNumbers arch

def seccompModeDisabled : UInt8 := 0
def seccompModeStrict : UInt8 := 1
def seccompModeFilter : UInt8 := 2

def seccompSetModeStrict : UInt32 := 0
def seccompSetModeFilter : UInt32 := 1
def seccompGetActionAvail : UInt32 := 2

def seccompFilterFlagTsync : UInt32 := 1
def seccompFilterFlagLog : UInt32 := 2
def seccompFilterFlagSpecAllow : UInt32 := 4

def seccompRetKillProcess : UInt32 := 0x80000000
def seccompRetKillThread : UInt32 := 0x00000000
def seccompRetTrap : UInt32 := 0x00030000
def seccompRetErrno : UInt32 := 0x00050000
def seccompRetUserNotif : UInt32 := 0x7fc00000
def seccompRetTrace : UInt32 := 0x7ff00000
def seccompRetLog : UInt32 := 0x7fd00000
def seccompRetAllow : UInt32 := 0x7fff0000
def seccompRetActionFull : UInt32 := 0xffff0000
def seccompRetData : UInt32 := 0x0000ffff

inductive Verdict where
  | allow
  | log
  | trace
  | errno (data : UInt16)
  | trap (data : UInt16)
  | killThread
  | killProcess
deriving DecidableEq, Repr

def Verdict.fromRet (ret : UInt32) : Verdict :=
  let action := ret &&& seccompRetActionFull
  let data := (ret &&& seccompRetData).toUInt16
  if action = seccompRetAllow then .allow
  else if action = seccompRetLog then .log
  else if action = seccompRetTrace then .trace
  else if action = seccompRetErrno then .errno data
  else if action = seccompRetTrap then .trap data
  else if action = seccompRetKillProcess then .killProcess
  else .killThread

def Verdict.severity : Verdict → ℕ
  | .allow => 0
  | .log => 1
  | .trace => 2
  | .errno _ => 3
  | .trap _ => 4
  | .killThread => 5
  | .killProcess => 6

/-- One system call as the evaluation sees it. -/
structure Query where
  nr : Int32
  ip : UInt64
  args : Vector UInt64 6
deriving DecidableEq, Repr

/-- `struct seccomp_data`: the number, the architecture, the instruction pointer and the arguments,
each little-endian and side by side. -/
def seccompData (arch : Arch) (query : Query) : SeccompData where
  bytes :=
    leBytes 4 query.nr.toUInt32.toNat ++ leBytes 4 (auditArch arch).toNat ++
      leBytes 8 query.ip.toNat ++ query.args.toList.flatMap (fun arg => leBytes 8 arg.toNat)
  length_eq := by simp [List.length_flatMap, seccompDataLen]

structure SeccompState where
  mode : UInt8
  noNewPrivs : Bool
  filters : List (List SockFilter)
deriving DecidableEq, Repr

namespace SeccompState

def new : SeccompState := ⟨seccompModeDisabled, false, []⟩

def setNoNewPrivs (state : SeccompState) : SeccompState := { state with noNewPrivs := true }

def installStrict (state : SeccompState) : SeccompState := { state with mode := seccompModeStrict }

def addFilter (state : SeccompState) (prog : List SockFilter) : SeccompState :=
  { state with mode := seccompModeFilter, filters := prog :: state.filters }

/-- The child's own fields are all overwritten by the parent's. -/
def inheritFrom (child parent : SeccompState) : SeccompState :=
  { child with mode := parent.mode, noNewPrivs := parent.noNewPrivs, filters := parent.filters }

end SeccompState

/-- One turn of the loop over the filter stack, keeping the first most severe verdict. -/
def worse (worst : Option Verdict) (verdict : Verdict) : Option Verdict :=
  match worst with
  | none => some verdict
  | some current => if current.severity < verdict.severity then some verdict else some current

/-- `usize::try_from(nr).unwrap_or(usize::MAX)`. -/
def usizeOrMax (nr : Int32) : ℕ := if 0 ≤ nr then nr.toNatClampNeg else 2 ^ 64 - 1

def evaluate (arch : Arch) (state : SeccompState) (query : Query) : Option Verdict :=
  if state.mode = seccompModeDisabled then none
  else if state.mode = seccompModeStrict then
    some (if seccompStrictAllows arch (usizeOrMax query.nr) then .allow else .killThread)
  else
    state.filters.foldl (fun worst prog => worse worst (.fromRet (runFilter prog (seccompData arch query)))) none

/-- How severe an evaluation is; nothing installed lets the call through like `Allow`. -/
def severity (verdict : Option Verdict) : ℕ := (verdict.map Verdict.severity).getD 0

theorem severity_worse (worst : Option Verdict) (verdict : Verdict) :
    severity (worse worst verdict) = max (severity worst) verdict.severity := by
  cases worst with
  | none => simp [severity, worse]
  | some current =>
    simp only [worse]
    split_ifs with lower <;> simp only [severity, Option.map_some, Option.getD_some] <;> omega

/-- A more severe start stays more severe through any filter stack. -/
theorem severity_foldl_worse_mono {β : Type*} (judge : β → Verdict) (stack : List β)
    {low high : Option Verdict} (le : severity low ≤ severity high) :
    severity (stack.foldl (fun worst prog => worse worst (judge prog)) low) ≤
      severity (stack.foldl (fun worst prog => worse worst (judge prog)) high) := by
  induction stack generalizing low high with
  | nil => exact le
  | cons prog rest ih =>
    refine ih ?_
    rw [severity_worse, severity_worse]
    omega

variable {arch : Arch} {state : SeccompState}

theorem evaluate_disabled (mode : state.mode = seccompModeDisabled) (query : Query) :
    evaluate arch state query = none := if_pos mode

theorem evaluate_strict (mode : state.mode = seccompModeStrict) (query : Query) :
    evaluate arch state query = some (if seccompStrictAllows arch (usizeOrMax query.nr) then .allow else .killThread) := by
  rw [evaluate, mode, if_neg (by decide), if_pos rfl]

theorem addFilter_mode (prog : List SockFilter) : (state.addFilter prog).mode = seccompModeFilter := rfl

/-- A filter on top of the stack never softens the verdict of what lies below it. -/
theorem severity_addFilter (unstrict : state.mode ≠ seccompModeStrict) (prog : List SockFilter) (query : Query) :
    severity (evaluate arch state query) ≤ severity (evaluate arch (state.addFilter prog) query) := by
  by_cases disabled : state.mode = seccompModeDisabled
  · rw [evaluate_disabled disabled]
    exact Nat.zero_le _
  · rw [evaluate, if_neg disabled, if_neg unstrict, evaluate, addFilter_mode,
      if_neg (by decide), if_neg (by decide)]
    exact severity_foldl_worse_mono _ state.filters (Nat.zero_le _)

end LiteBox.Seccomp
