import LiteBox.Errno
import LiteBox.Signals.Forced

/-! # The calls that change a task's signal state

The system calls on masks, actions and the alternate stack, the return from a handler, the sending
of signals to the task, and what `clone` and `execve` do to the signal state. A guest pointer is
given by what reading it answers, or by whether writing it succeeds; `none` is a null pointer.
-/

namespace LiteBox.Signals

open SigSet

/-- The state after a call, and the error it answered. -/
structure Reply where
  task : Task
  errno : Option Errno

inductive SigmaskHow where
  | SIG_BLOCK
  | SIG_UNBLOCK
  | SIG_SETMASK
deriving DecidableEq

def sigsetSize : ℕ := 8

namespace Task

def changeMask (blocked : SigSet) (how : SigmaskHow) (set : SigSet) : SigSet :=
  match how with
  | .SIG_BLOCK => blocked ||| set
  | .SIG_UNBLOCK => blocked &&& ~~~set
  | .SIG_SETMASK => set

variable (t : Task)

def sysRtSigprocmask (how : SigmaskHow) (setPtr : Option (Option SigSet)) (oldsetPtr : Option Bool)
    (size : ℕ) : Reply :=
  if size ≠ sigsetSize then ⟨t, some .EINVAL⟩
  else if setPtr = some none then ⟨t, some .EFAULT⟩
  else if oldsetPtr = some false then ⟨t, some .EFAULT⟩
  else
    match setPtr.join with
    | some set => ⟨t.setSignalMask (changeMask t.blocked how set), none⟩
    | none => ⟨t, none⟩

/-- The mask `rt_sigsuspend` waits under. -/
def suspendMask (maskPtr : Option (Option SigSet)) (size : ℕ) : Except Errno SigSet :=
  if size ≠ sigsetSize then .error .EINVAL
  else
    match maskPtr with
    | some (some mask) => .ok mask
    | _ => .error .EFAULT

def minsigstksz : ℕ := 2048

def clearSigaltstack : Task := { t with altstack := .disabled }

def setSigaltstack (ss : SigAltStack) : Reply :=
  if ss.flags &&& ~~~(ssDisable ||| ssOnstack ||| ssAutodisarm) ≠ 0 then ⟨t, some .EINVAL⟩
  else if holdsFlag ss.flags ssDisable then ⟨t.clearSigaltstack, none⟩
  else if 2 ^ 64 ≤ ss.sp.toNat + ss.size.toNat then ⟨t, some .EINVAL⟩
  else if ss.size.toNat < minsigstksz then ⟨t, some .ENOMEM⟩
  else ⟨{ t with altstack := ⟨ss.sp, ss.flags &&& ssAutodisarm, ss.size⟩ }, none⟩

def sysSigaltstack (ssPtr : Option (Option SigAltStack)) (oldSsPtr : Option Bool) : Reply :=
  if oldSsPtr = some false then ⟨t, some .EFAULT⟩
  else
    match ssPtr with
    | none => ⟨t, none⟩
    | some ss =>
      if isOnStack t.altstack t.regs.rsp then ⟨t, some .EPERM⟩
      else
        match ss with
        | none => ⟨t, some .EFAULT⟩
        | some ss => t.setSigaltstack ss

/-- `uctx` is what the guest left where its stack pointer is. -/
def sysRtSigreturn (uctx : Option Ucontext) : Except Panic Reply :=
  match uctx with
  | none => (t.forceSignal .SIGSEGV false).map fun t => ⟨t, some .EFAULT⟩
  | some uctx =>
    -- errors in restoring the alternate stack are ignored
    let t := (t.setSigaltstack uctx.stack).task
    if uctx.mcontext.rip = 0 ∨ uctx.mcontext.rsp = 0 then
      (t.forceSignal .SIGSEGV false).map fun t => ⟨t, some .EFAULT⟩
    else
      let t := t.setSignalMask uctx.sigmask
      .ok ⟨{ t with regs := restoreSigcontext t.regs uctx.mcontext }, none⟩

/-- The old action is written last, so a faulting write leaves the new one installed. -/
def sysRtSigaction (s : Signal) (actPtr : Option (Option SigAction)) (oldactPtr : Option Bool) (size : ℕ) : Reply :=
  if s = .SIGKILL ∨ s = .SIGSTOP then ⟨t, some .EINVAL⟩
  else if size ≠ sigsetSize then ⟨t, some .EINVAL⟩
  else if actPtr = some none then ⟨t, some .EFAULT⟩
  else if (t.handlers s).immutable then ⟨t, some .EINVAL⟩
  else
    let t :=
      match actPtr.join with
      | some act => { t with handlers := Function.update t.handlers s { t.handlers s with action := act } }
      | none => t
    if oldactPtr = some false then ⟨t, some .EFAULT⟩ else ⟨t, none⟩

/-- Blocked signals are never ignored, since their handler may change. -/
def isSignalIgnored (s : Signal) : Bool :=
  if s = .SIGKILL ∨ s = .SIGSTOP then false
  else if t.blocked.contains s then false
  else if (t.handlers s).action.sigaction = sigIgn then true
  else if (t.handlers s).action.sigaction = sigDfl then s.defaultDisposition = .ignore
  else false

def sendSignal (s : Signal) (info : Siginfo) : Except Panic Task :=
  if t.isSignalIgnored s then .ok t
  else (t.pending.push t.sigpendingLimit s info).map fun q => { t with pending := q }

def sendSharedSignal (s : Signal) (info : Siginfo) : Except Panic Task :=
  if t.isSignalIgnored s then .ok t
  else (t.sharedPending.push t.sigpendingLimit s info).map fun q => { t with sharedPending := q }

/-- One round of `has_pending_signals`: whether a signal can be delivered, once ignored ones are gone. -/
def pendingOnce : Loop.Next (Task × Bool) :=
  let threadPending := t.pending.pending &&& ~~~t.blocked
  let sharedPending := t.sharedPending.pending &&& ~~~t.blocked
  match (threadPending ||| sharedPending).lowestSet with
  | none => .leave (t, false)
  | some s =>
    if t.isSignalIgnored s then
      .again ({ t with
        pending := if threadPending.contains s then t.pending.discard s else t.pending
        sharedPending := if sharedPending.contains s then t.sharedPending.discard s else t.sharedPending }, false)
    else .leave (t, true)

def hasPendingSignals (arrived : List Signal) (fuel : ℕ) (t : Task) : Option (Except Panic (Task × Bool)) :=
  match t.xprocDrainOwn arrived with
  | .error panic => some (.error panic)
  | .ok t => Loop.run (fun _ state => .ok (pendingOnce state.1)) fuel 0 (t, false)

/-- Ignored signals stay ignored, all others get their default action. -/
def resetHandlersToDefault : Task :=
  { t with
    handlers := fun s =>
      { t.handlers s with
        action := ⟨if (t.handlers s).action.sigaction = sigIgn then sigIgn else sigDfl, 0, 0, .empty⟩ } }

def resetForExec : Task :=
  ({ t with sigreturnTrampoline := 0 } : Task).resetHandlersToDefault.clearSigaltstack

/-- The child of a `clone`: a thread shares the process's pending signals, a process starts without. -/
def cloneForNewTask (newProcess : Bool) : Task :=
  { t with
    pending := .new
    sharedPending := if newProcess then .new else t.sharedPending
    altstack := .disabled }

/-! ## The removal of ignored signals ends -/

def queued (state : Task × Bool) : ℕ := state.1.pending.queue.length + state.1.sharedPending.queue.length

theorem length_discard_lt {p : PendingSignals} {s : Signal} (held : p.pending.contains s = true) :
    (p.discard s).queue.length < p.queue.length := by
  obtain ⟨info, member, signo⟩ := (p.agree s).mp held
  have less : (p.queue.filter fun info => info.signo != s.asI32).length < p.queue.length := by
    refine List.length_filter_lt_length_iff_exists.mpr ⟨info, member, ?_⟩
    simp [signo]
  exact less

/-- What a round keeps: everything but the queues. -/
structure SameSignals (t t' : Task) : Prop where
  blocked : t'.blocked = t.blocked
  handlers : t'.handlers = t.handlers
  isExiting : t'.isExiting = t.isExiting
  groupExit : t'.groupExit = t.groupExit

theorem SameSignals.refl : SameSignals t t := ⟨rfl, rfl, rfl, rfl⟩

theorem SameSignals.trans {t t' t'' : Task} (first : SameSignals t t') (second : SameSignals t' t'') : SameSignals t t'' :=
  ⟨second.blocked.trans first.blocked, second.handlers.trans first.handlers,
    second.isExiting.trans first.isExiting, second.groupExit.trans first.groupExit⟩

theorem pendingOnce_descends :
    Loop.Descends (ε := Panic) (fun _ state => .ok (pendingOnce state.1)) (fun state => SameSignals t state.1)
      (fun state => SameSignals t state.1) queued := by
  rintro _ ⟨now, found⟩ same
  simp only [pendingOnce]
  split
  · exact .inr ⟨_, rfl, same⟩
  · next s lowest =>
    split
    · refine .inl ⟨_, rfl, same.trans ⟨rfl, rfl, rfl, rfl⟩, ?_⟩
      have member := (lowestSet_eq_some lowest).1
      simp only [contains_or, Bool.or_eq_true] at member
      simp only [queued]
      by_cases own : (now.pending.pending &&& ~~~now.blocked).contains s = true
      · have less : (now.pending.discard s).queue.length < now.pending.queue.length :=
          length_discard_lt (by simp only [contains_and, Bool.and_eq_true] at own; exact own.1)
        rw [if_pos own]
        split
        · have : (now.sharedPending.discard s).queue.length ≤ now.sharedPending.queue.length := List.length_filter_le _ _
          omega
        · omega
      · have shared := member.resolve_left own
        have less : (now.sharedPending.discard s).queue.length < now.sharedPending.queue.length :=
          length_discard_lt (by simp only [contains_and, Bool.and_eq_true] at shared; exact shared.1)
        rw [if_neg own, if_pos shared]
        omega
    · exact .inr ⟨_, rfl, same⟩

end Task

end LiteBox.Signals
