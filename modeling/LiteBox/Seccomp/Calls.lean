import LiteBox.Seccomp.State
import LiteBox.Seccomp.BpfReference

/-! # Seccomp policy along a thread's life

The calls that install a policy, as a guest reaches them through `do_syscall`, and inheritance by a
cloned child. A call that adds a filter can only make `evaluate` more severe; a call that switches
a filtered thread to strict mode forgets the filters, so the policy tightens exactly along runs
that never ask for strict mode while filters are in force.
-/

namespace LiteBox.Seccomp

open SeccompState

/-! ## The calls -/

structure SockFprog where
  len : UInt16
  filter : UInt64
deriving DecidableEq, Repr

/-- What a call reads besides the seccomp state: the caller's effective capabilities and the guest
memory behind its pointers, `none` where a read faults. -/
structure Caller where
  capEff : UInt64
  readFprog : UInt64 → Option SockFprog
  readFilters : UInt64 → ℕ → Option (List SockFilter)
  readU32 : UInt64 → Option UInt32

def capSysAdmin : UInt64 := 0x200000

/-- The thread group's state and what `/proc/self/status` last published of it. -/
structure Process where
  seccomp : SeccompState
  published : UInt8 × Bool
deriving DecidableEq, Repr

def Process.new : Process := ⟨.new, (seccompModeDisabled, false)⟩

/-- `publish_proc_seccomp` after an update of the state. -/
def Process.publish (process : Process) (seccomp : SeccompState) : Process :=
  { process with seccomp := seccomp, published := (seccomp.mode, seccomp.noNewPrivs) }

variable (caller : Caller)

def checkCanInstall (process : Process) : Except Errno Unit :=
  if process.seccomp.noNewPrivs then .ok ()
  else if caller.capEff &&& capSysAdmin ≠ 0 then .ok ()
  else .error .EACCES

def readFprog (args : UInt64) : Except Errno (List SockFilter) := do
  let some fprog := caller.readFprog args | .error .EFAULT
  let len := fprog.len.toNat
  if len = 0 ∨ maxInsns < len then .error .EINVAL
  let some prog := caller.readFilters fprog.filter len | .error .EFAULT
  validate prog
  return prog

/-- The install of strict mode both entry points share. -/
def setStrict (process : Process) : Except Errno (ℕ × Process) := do
  checkCanInstall caller process
  return (0, process.publish process.seccomp.installStrict)

/-- The install of a filter both entry points share; the program is read before the privilege is
checked. -/
def setFilter (process : Process) (args : UInt64) : Except Errno (ℕ × Process) := do
  let prog ← readFprog caller args
  checkCanInstall caller process
  return (0, process.publish (process.seccomp.addFilter prog))

def knownActions : List UInt32 :=
  [seccompRetKillProcess, seccompRetKillThread, seccompRetTrap, seccompRetErrno,
    seccompRetUserNotif, seccompRetTrace, seccompRetLog, seccompRetAllow]

def sysSeccomp (process : Process) (operation flags : UInt32) (args : UInt64) : Except Errno (ℕ × Process) :=
  if operation = seccompSetModeStrict then
    if flags ≠ 0 ∨ args ≠ 0 then .error .EINVAL else setStrict caller process
  else if operation = seccompSetModeFilter then
    if flags &&& ~~~(seccompFilterFlagTsync ||| seccompFilterFlagLog ||| seccompFilterFlagSpecAllow)
        ≠ 0 then .error .EINVAL
    else setFilter caller process args
  else if operation = seccompGetActionAvail then
    if flags ≠ 0 then .error .EINVAL
    else
      match caller.readU32 args with
      | none => .error .EFAULT
      | some action =>
        if action ∈ knownActions then .ok (action.toNat, process) else .error .EINVAL
  else .error .EINVAL

def doPrctlSetSeccomp (process : Process) (mode : UInt32) (prog : UInt64) : Except Errno (ℕ × Process) :=
  if mode = seccompModeStrict.toUInt32 then setStrict caller process
  else if mode = seccompModeFilter.toUInt32 then setFilter caller process prog
  else .error .EINVAL

def prctlSetNoNewPrivs (process : Process) (value : UInt64) : Except Errno (ℕ × Process) :=
  if value ≠ 1 then .error .EINVAL else .ok (0, process.publish process.seccomp.setNoNewPrivs)

inductive Call where
  | seccomp
  | prctl
deriving DecidableEq, Repr

def Call.number : Arch → Call → Int32
  | .x86_64, .seccomp => 317
  | .x86_64, .prctl => 157
  | .aarch64, .seccomp => 277
  | .aarch64, .prctl => 167

def prSetSeccomp : UInt32 := 22
def prSetNoNewPrivs : UInt32 := 38

/-- A system call that reaches its handler: the raw registers are decoded as `try_from_raw` does.
The other `prctl` options do not touch the seccomp state and have no result here. -/
def dispatch (process : Process) (call : Call) (args : Vector UInt64 6) : Option (Except Errno (ℕ × Process)) :=
  match call with
  | .seccomp => some (sysSeccomp caller process args[0].toUInt32 args[1].toUInt32 args[2])
  | .prctl =>
    if args[0].toUInt32 = prSetSeccomp then
      some (doPrctlSetSeccomp caller process args[1].toUInt32 args[2])
    else if args[0].toUInt32 = prSetNoNewPrivs then some (prctlSetNoNewPrivs process args[1])
    else none

/-- The gate of `do_syscall`: only these evaluations let the call reach its handler. -/
def passes : Option Verdict → Bool
  | none | some .allow | some .log => true
  | _ => false

inductive Event where
  | syscall (call : Call) (caller : Caller) (ip : UInt64) (args : Vector UInt64 6)
  /-- The thread continues as a child that `clone` gave a fresh, inheriting process. -/
  | clone

/-- The call `event` makes, when the gate lets it through and it succeeds. -/
def installed (arch : Arch) (process : Process) : Event → Option Process
  | .clone => some ⟨new.inheritFrom process.seccomp, process.published⟩
  | .syscall call caller ip args =>
    if passes (evaluate arch process.seccomp ⟨call.number arch, ip, args⟩) then
      match dispatch caller process call args with
      | some (.ok (_, next)) => some next
      | _ => none
    else none

/-- A call that fails or is refused leaves the process as it was. -/
def stepEvent (arch : Arch) (process : Process) (event : Event) : Process :=
  (installed arch process event).getD process

/-! ## What a call can do -/

/-- A request for strict mode, through either entry point. -/
def asksStrict : Event → Prop
  | .syscall .seccomp _ _ args => args[0].toUInt32 = seccompSetModeStrict
  | .syscall .prctl _ _ args =>
    args[0].toUInt32 = prSetSeccomp ∧ args[1].toUInt32 = seccompModeStrict.toUInt32
  | .clone => False

/-- The four effects a successful call can have on the seccomp state. -/
inductive Effect (strict : Prop) (state : SeccompState) : SeccompState → Prop
  | keep : Effect strict state state
  | noNewPrivs : Effect strict state state.setNoNewPrivs
  | installStrict (asked : strict) : Effect strict state state.installStrict
  | addFilter (prog : List SockFilter) (accepted : validate prog = .ok ()) :
      Effect strict state (state.addFilter prog)

variable {arch : Arch} {caller : Caller} {process next : Process} {value : ℕ} {strict : Prop}

theorem setStrict_effect (asked : strict) (done : setStrict caller process = .ok (value, next)) :
    Effect strict process.seccomp next.seccomp := by
  simp only [setStrict, bind, Except.bind] at done
  split at done
  · cases done
  · cases done
    exact .installStrict asked

variable {args : UInt64}

theorem readFprog_valid {prog : List SockFilter}
    (read : readFprog caller args = .ok prog) : validate prog = .ok () := by
  simp only [readFprog, bind, Except.bind] at read
  split at read
  · split_ifs at read
    split at read
    · split at read
      · cases read
      · next accepted =>
        cases read
        exact accepted
    · cases read
  · cases read

theorem setFilter_effect (done : setFilter caller process args = .ok (value, next)) :
    Effect strict process.seccomp next.seccomp := by
  simp only [setFilter, bind, Except.bind] at done
  split at done
  · cases done
  · next prog read =>
    split at done
    · cases done
    · cases done
      exact .addFilter prog (readFprog_valid read)

theorem sysSeccomp_effect {operation flags : UInt32}
    (done : sysSeccomp caller process operation flags args = .ok (value, next)) :
    Effect (operation = seccompSetModeStrict) process.seccomp next.seccomp := by
  unfold sysSeccomp at done
  split_ifs at done with asked
  · exact setStrict_effect asked done
  · exact setFilter_effect done
  · split at done
    · cases done
    · split_ifs at done
      cases done
      exact .keep

theorem doPrctlSetSeccomp_effect {mode : UInt32} {prog : UInt64}
    (done : doPrctlSetSeccomp caller process mode prog = .ok (value, next)) :
    Effect (mode = seccompModeStrict.toUInt32) process.seccomp next.seccomp := by
  unfold doPrctlSetSeccomp at done
  split_ifs at done with asked
  · exact setStrict_effect asked done
  · exact setFilter_effect done

theorem dispatch_effect {call : Call} {ip : UInt64} {args : Vector UInt64 6}
    (done : dispatch caller process call args = some (.ok (value, next))) :
    Effect (asksStrict (.syscall call caller ip args)) process.seccomp next.seccomp := by
  cases call with
  | seccomp => exact sysSeccomp_effect (Option.some.inj done)
  | prctl =>
    simp only [dispatch] at done
    split_ifs at done with set privs
    · have effect := doPrctlSetSeccomp_effect (Option.some.inj done)
      simpa only [asksStrict, set, true_and] using effect
    · simp only [prctlSetNoNewPrivs, Option.some.injEq] at done
      split_ifs at done
      cases done
      exact .noNewPrivs

variable {event : Event}

/-- A successful event has one of the four effects, and a system call has passed the gate. -/
theorem installed_effect (done : installed arch process event = some next) :
    Effect (asksStrict event) process.seccomp next.seccomp ∧
      ∀ call caller ip args, event = .syscall call caller ip args →
        passes (evaluate arch process.seccomp ⟨call.number arch, ip, args⟩) = true := by
  cases event with
  | clone =>
    cases done
    exact ⟨.keep, nofun⟩
  | syscall call caller ip args =>
    simp only [installed] at done
    split_ifs at done with gate
    split at done
    · next handled =>
      cases done
      refine ⟨dispatch_effect handled, fun _ _ _ _ same => ?_⟩
      cases same
      exact gate
    · cases done

/-! ## The policy tightens -/

/-- Every system call is judged at least as severely in `after` as in `before`. -/
def Tightens (arch : Arch) (before after : Process) : Prop :=
  ∀ query, severity (evaluate arch before.seccomp query) ≤ severity (evaluate arch after.seccomp query)

theorem Tightens.refl (process : Process) : Tightens arch process process := fun _ => Nat.le_refl _

theorem Tightens.trans {first middle last : Process} (left : Tightens arch first middle)
    (right : Tightens arch middle last) : Tightens arch first last :=
  fun query => Nat.le_trans (left query) (right query)

/-- Strict mode is only asked for while no filter is in force. -/
def KeepsFilters (process : Process) (event : Event) : Prop :=
  asksStrict event → process.seccomp.mode = seccompModeDisabled ∨ process.seccomp.mode = seccompModeStrict

/-- Strict mode kills both calls that could replace it. -/
theorem strict_refuses (mode : process.seccomp.mode = seccompModeStrict) (call : Call) (ip : UInt64) (args : Vector UInt64 6) :
    passes (evaluate arch process.seccomp ⟨call.number arch, ip, args⟩) = false := by
  have refused : seccompStrictAllows arch (usizeOrMax (call.number arch)) = false := by
    cases arch <;> cases call <;> decide
  rw [evaluate_strict mode, refused]
  rfl

theorem installed_tightens (keeps : KeepsFilters process event)
    (done : installed arch process event = some next) : Tightens arch process next := by
  obtain ⟨effect, gate⟩ := installed_effect done
  intro query
  generalize after_eq : next.seccomp = after at effect
  cases effect with
  | keep | noNewPrivs => exact Nat.le_refl _
  | installStrict asked =>
    rcases keeps asked with mode | mode
    · rw [evaluate_disabled mode]
      exact Nat.zero_le _
    · exact Nat.le_of_eq (by rw [evaluate_strict mode, evaluate_strict rfl])
  | addFilter prog _ =>
    refine severity_addFilter (fun mode => ?_) prog query
    cases event with
    | clone =>
      cases done
      have longer := congrArg (fun state => state.filters.length) after_eq
      simp [inheritFrom, addFilter] at longer
    | syscall call caller ip args =>
      have passed := gate call caller ip args rfl
      rw [strict_refuses mode] at passed
      cases passed

/-- Along every run that asks for strict mode only while no filter is in force, each event leaves
every verdict at least as severe as it found it, and so does the run as a whole. -/
theorem policy_tightens (arch : Arch) (process : Process) (events : List Event)
    (keeps : Run.Always (stepEvent arch) KeepsFilters process events) : Run.Always (stepEvent arch)
        (fun before event => Tightens arch before (stepEvent arch before event)) process events ∧
      Tightens arch process (Run.run (stepEvent arch) process events) := by
  have one (before : Process) (event : Event) (keeps : KeepsFilters before event) :
      Tightens arch before (stepEvent arch before event) := by
    unfold stepEvent
    cases done : installed arch before event with
    | none => exact .refl before
    | some next => exact installed_tightens keeps done
  have each := keeps.imp (fun _ => True) trivial (fun _ _ _ _ => trivial) (fun before event _ keeps => one before event keeps)
  exact ⟨each, each.rel Tightens.refl Tightens.trans⟩

/-- A privileged caller whose memory holds `killZero` at `0x1000`. -/
def rootCaller : Caller where
  capEff := capSysAdmin
  readFprog := fun pointer => if pointer = 0x1000 then some ⟨4, 0x2000⟩ else none
  readFilters := fun pointer len => if pointer = 0x2000 ∧ len = 4 then some killZero else none
  readU32 := fun _ => none

def filterCall : Event := .syscall .seccomp rootCaller 0 #v[1, 0, 0x1000, 0, 0, 0]

def strictCall : Event := .syscall .seccomp rootCaller 0 #v[0, 0, 0, 0, 0, 0]

/-- `read` with all arguments zero. -/
def readQuery : Query := ⟨0, 0, #v[0, 0, 0, 0, 0, 0]⟩

theorem policy_tightens_filter_clone :
    severity (evaluate .x86_64 Process.new.seccomp readQuery) = 0 ∧
    severity (evaluate .x86_64
      (Run.run (stepEvent .x86_64) .new [filterCall, .clone, filterCall]).seccomp readQuery) = 6 ∧
    Tightens .x86_64 .new (Run.run (stepEvent .x86_64) .new [filterCall, .clone, filterCall]) := by
  refine ⟨by decide, by decide, (policy_tightens .x86_64 .new _ ?_).2⟩
  refine ⟨fun asked => ?_, nofun, fun asked => ?_, trivial⟩
  · exact absurd asked (by unfold filterCall asksStrict; decide)
  · exact absurd asked (by unfold filterCall asksStrict; decide)

/-- `read` was killed by the filter and is allowed once strict mode has replaced it. -/
theorem strict_forgets_filters :
    (∃ next, installed .x86_64 (stepEvent .x86_64 .new filterCall) strictCall = some next ∧
      severity (evaluate .x86_64 (stepEvent .x86_64 .new filterCall).seccomp readQuery) = 6 ∧
      severity (evaluate .x86_64 next.seccomp readQuery) = 0) ∧
    ¬ Run.Always (stepEvent .x86_64)
      (fun before event => Tightens .x86_64 before (stepEvent .x86_64 before event)) .new [filterCall, strictCall] := by
  refine ⟨⟨⟨⟨1, false, [killZero]⟩, (1, false)⟩, by decide, by decide, by decide⟩, fun always => ?_⟩
  exact absurd (always.2.1 readQuery) (by decide)

end LiteBox.Seccomp
