import LiteBox.Lib.Loop
import LiteBox.Lib.Outcome
import LiteBox.Signals.Frame
import LiteBox.Signals.Pending

/-! # Delivering signals to a task

The signal state of a task: its own and its process's pending signals, the blocked set, the handler
table and the alternate stack, with the registers it returns to the guest with and the frames that
were written to guest memory. `processSignals` is the loop that runs before each return to the guest.
-/

namespace LiteBox.Signals

open PendingSignals Signal Task

structure Handler where
  action : SigAction
  immutable : Bool
deriving DecidableEq

inductive ExitStatus where
  | exit (code : ℤ)
  | signal (s : Signal)
deriving DecidableEq

structure Task where
  (pending sharedPending : PendingSignals)
  blocked : SigSet
  handlers : Signal → Handler
  altstack : SigAltStack
  lastException : ExceptionInfo
  sigreturnTrampoline : BitVec 64
  sigpendingLimit : ℕ
  regs : PtRegs
  written : List (BitVec 64 × SignalFrame)
  isExiting : Bool
  groupExit : Option ExitStatus

namespace Task

def newHandlers (s : Signal) : Handler := ⟨.default, s = .SIGKILL || s = .SIGSTOP⟩

/-- A process's first task, with `regs` at its entry point. -/
def newProcess (sigpendingLimit : ℕ) (regs : PtRegs) : Task where
  pending := .new
  sharedPending := .new
  blocked := .empty
  handlers := newHandlers
  altstack := .disabled
  lastException := ⟨0, 0, 0⟩
  sigreturnTrampoline := 0
  sigpendingLimit
  regs
  written := []
  isExiting := false
  groupExit := none

def setSignalMask (t : Task) (mask : SigSet) : Task := { t with blocked := mask }

/-- Records the first group exit of the process and marks this thread exiting. -/
def exitGroup (t : Task) (status : ExitStatus) : Task :=
  if t.isExiting then t else { t with isExiting := true, groupExit := t.groupExit.or (some status) }

/-- The trampoline's address: the one allocated before, or a fresh page; 0 if there is none. -/
def trampolineIn (t : Task) (guest : Guest) : BitVec 64 :=
  if t.sigreturnTrampoline ≠ 0 then t.sigreturnTrampoline else guest.trampolinePage.getD 0

def ensureSigreturnTrampoline (t : Task) (guest : Guest) : Task :=
  { t with sigreturnTrampoline := t.trampolineIn guest }

@[simp] theorem ensureSigreturnTrampoline_sharedPending (t : Task) (guest : Guest) :
    (t.ensureSigreturnTrampoline guest).sharedPending = t.sharedPending := rfl

@[simp] theorem ensureSigreturnTrampoline_handlers (t : Task) (guest : Guest) :
    (t.ensureSigreturnTrampoline guest).handlers = t.handlers := rfl

@[simp] theorem ensureSigreturnTrampoline_blocked (t : Task) (guest : Guest) :
    (t.ensureSigreturnTrampoline guest).blocked = t.blocked := rfl

/-- The stack a handler runs on: the alternate one when the action asks for it and it is free. -/
def switchStacks (t : Task) (action : SigAction) : Bool :=
  holdsFlag action.flags saOnstack && !isOnStack t.altstack t.regs.rsp && !holdsFlag t.altstack.flags ssDisable

def frameAddr (t : Task) (action : SigAction) : BitVec 64 :=
  getSignalFrame (if t.switchStacks action then t.altstack.sp + t.altstack.size else t.regs.rsp)

def offStack (t : Task) (action : SigAction) : Bool :=
  (t.switchStacks action || isOnStack t.altstack t.regs.rsp) && !isOnStack t.altstack (t.frameAddr action)

/-- `SIG_DFL`, `SIG_IGN` and `SIG_ERR` are no handler addresses. -/
def notAHandler (address : BitVec 64) : Bool := address = 0 || address = 1 || address = BitVec.allOnes 64

/-- The mask a handler of `s` runs under. -/
def handlerMask (blocked : SigSet) (s : Signal) (action : SigAction) : SigSet :=
  let mask := blocked ||| action.mask
  if holdsFlag action.flags saNodefer then mask else mask.add s

/-- `none` is a delivery fault. -/
def deliverSignal (t : Task) (guest : Guest) (s : Signal) (info : Siginfo) (action : SigAction) : Option Task :=
  if t.offStack action then none
  else if notAHandler action.sigaction then none
  else
    (writeSignalFrame guest t.lastException t.blocked t.altstack (t.frameAddr action) info action
      t.sigreturnTrampoline t.regs).map fun framed =>
        { t with
          written := t.written ++ [(t.frameAddr action, framed.1)]
          regs := framed.2
          blocked := handlerMask t.blocked s action
          altstack := if holdsFlag t.altstack.flags ssAutodisarm then .disabled else t.altstack }

def forcible : List Signal := [.SIGKILL, .SIGSEGV, .SIGFPE, .SIGTRAP, .SIGILL, .SIGSYS]

/-- Forced signals that would not be seen get their default action for good. -/
def forceSignalWithInfo (t : Task) (s : Signal) (forceExit : Bool) (info : Siginfo) : Except Panic Task :=
  if s ∈ forcible then do
    let pending ← t.pending.push t.sigpendingLimit s info
    let t := { t with pending }
    if forceExit || t.blocked.contains s || (t.handlers s).action.sigaction == sigIgn then
      pure { t with
        blocked := t.blocked.remove s
        handlers := Function.update t.handlers s ⟨.default, true⟩ }
    else pure t
  else .error .notForcible

def forceSignal (t : Task) (s : Signal) (forceExit : Bool) : Except Panic Task :=
  t.forceSignalWithInfo s forceExit ⟨s.asI32, 0, siKernel, .newZeroed⟩

/-- The next unblocked signal: the task's own before the process's. -/
def takeNext (t : Task) : Except Panic (Option (Signal × Siginfo × Task)) :=
  match t.pending.next t.blocked with
  | some s =>
    match t.pending.remove s with
    | some (info, rest) => .ok (some (s, info, { t with pending := rest }))
    | none => .error .removingNonPending
  | none =>
    match t.sharedPending.next t.blocked with
    | some s =>
      match t.sharedPending.remove s with
      | some (info, rest) => .ok (some (s, info, { t with sharedPending := rest }))
      | none => .error .removingNonPending
    | none => .ok none

/-- Stopping is not supported and terminates; continuing does nothing. -/
def fatal (s : Signal) : Bool :=
  match s.defaultDisposition with
  | .terminate | .core | .stop => true
  | .ignore | .continue_ => false

def dispatch (t : Task) (guest : Guest) (s : Signal) (info : Siginfo) : Except Panic Task :=
  let action := (t.handlers s).action
  if action.sigaction = sigDfl then .ok (if fatal s then t.exitGroup (.signal s) else t)
  else if action.sigaction = sigIgn then .ok t
  else
    let t := t.ensureSigreturnTrampoline guest
    match t.deliverSignal guest s info action with
    | some t => .ok t
    | none => t.forceSignal .SIGSEGV (s = .SIGSEGV)

/-- One iteration of the loop of `process_signals`. -/
def processOnce (guest : Guest) (t : Task) : Except Panic (Loop.Next Task) := do
  match ← t.takeNext with
  | none => pure (.leave t)
  | some (s, info, t) => if t.isExiting then pure (.leave t) else .again <$> t.dispatch guest s info

def pushShared (t : Task) (s : Signal) : Except Panic Task :=
  (t.sharedPending.push t.sigpendingLimit s (siginfoKill s)).map fun q => { t with sharedPending := q }

/-- The signals other processes left in the task's mailbox move to its process's queue. -/
def xprocDrainOwn (t : Task) (arrived : List Signal) : Except Panic Task := arrived.foldlM pushShared t

/-- The guest may answer differently from iteration to iteration. -/
def processSignals (guest : ℕ → Guest) (arrived : List Signal) (fuel : ℕ) (t : Task) : Option (Except Panic Task) :=
  match t.xprocDrainOwn arrived with
  | .error panic => some (.error panic)
  | .ok t => Loop.run (fun i => processOnce (guest i)) fuel 0 t

/-! ## What one iteration can do -/

/-- The installed action is a handler of the guest. -/
def Handles (t : Task) (s : Signal) : Prop :=
  (t.handlers s).action.sigaction ≠ sigDfl ∧ (t.handlers s).action.sigaction ≠ sigIgn

/-- `s` is pending for the task itself and not blocked. -/
def Ready (t : Task) (s : Signal) : Prop := t.pending.pending.contains s = true ∧ t.blocked.contains s = false

/-- `s` with `info` left a queue, all that remains of it being `rest`. -/
structure Leaves (p : PendingSignals) (s : Signal) (info : Siginfo) (rest : PendingSignals) : Prop where
  held : p.pending.contains s = true
  signo : info.signo = s.asI32
  perm : p.queue.Perm (info :: rest.queue)
  others : ∀ r, r ≠ s → rest.pending.contains r = p.pending.contains r
  gone : s.isRtSignal = false → rest.pending.contains s = false

inductive Took (t : Task) (s : Signal) (info : Siginfo) : Task → Prop where
  | own (rest : PendingSignals) (leaves : Leaves t.pending s info rest) (free : t.blocked.contains s = false)
      (first : ∀ r, t.Ready r → rank s ≤ rank r) :
      Took t s info { t with pending := rest }
  | shared (rest : PendingSignals) (leaves : Leaves t.sharedPending s info rest)
      (free : t.blocked.contains s = false) (quiet : ∀ r, ¬t.Ready r) :
      Took t s info { t with sharedPending := rest }

variable {p : PendingSignals} {s : Signal} {info : Siginfo} {t t' : Task} {guest : Guest}

theorem leaves_of_remove (held : p.pending.contains s = true) :
    ∃ info rest, p.remove s = some (info, rest) ∧ Leaves p s info rest := by
  obtain ⟨info, rest, removed, signo, perm, others, gone⟩ := remove_of_contains held
  exact ⟨info, rest, removed, held, signo, perm, others, gone⟩

/-- No removal fails: the loop finds every signal it decides on. -/
theorem takeNext_cases (t : Task) :
    (t.takeNext = .ok none ∧ (∀ r, ¬t.Ready r) ∧
        ∀ r, t.sharedPending.pending.contains r = true → t.blocked.contains r = true) ∨
      ∃ s info t', t.takeNext = .ok (some (s, info, t')) ∧ Took t s info t' := by
  cases own : t.pending.next t.blocked with
  | some s =>
    obtain ⟨held, free, first⟩ := next_eq_some own
    obtain ⟨info, rest, removed, leaves⟩ := leaves_of_remove held
    exact .inr ⟨s, info, _, by simp only [takeNext, own, removed], .own rest leaves free fun r ready => first r ready.1 ready.2⟩
  | none =>
    have quiet : ∀ r, ¬t.Ready r := fun r ready => by
      simpa [ready.2] using next_eq_none own r ready.1
    cases shared : t.sharedPending.next t.blocked with
    | some s =>
      obtain ⟨held, free, -⟩ := next_eq_some shared
      obtain ⟨info, rest, removed, leaves⟩ := leaves_of_remove held
      exact .inr ⟨s, info, _, by simp only [takeNext, own, shared, removed], .shared rest leaves free quiet⟩
    | none => exact .inl ⟨by simp only [takeNext, own, shared], quiet, next_eq_none shared⟩

/-- A handler of `s` was entered: a frame with `info` was written, under the handler's mask. -/
structure Delivered (t : Task) (s : Signal) (info : Siginfo) (t' : Task) : Prop where
  pending : t'.pending = t.pending
  sharedPending : t'.sharedPending = t.sharedPending
  handlers : t'.handlers = t.handlers
  isExiting : t'.isExiting = t.isExiting
  groupExit : t'.groupExit = t.groupExit
  blocked : t'.blocked = handlerMask t.blocked s (t.handlers s).action
  framed : ∃ address frame, t'.written = t.written ++ [(address, frame)] ∧ frame.siginfo = info

/-- `s` was forced: it was pushed, and made visible when it was not. -/
structure Forced (t : Task) (s : Signal) (forceExit : Bool) (info : Siginfo) (t' : Task) : Prop where
  pending : t.pending.push t.sigpendingLimit s info = .ok t'.pending
  sharedPending : t'.sharedPending = t.sharedPending
  isExiting : t'.isExiting = t.isExiting
  groupExit : t'.groupExit = t.groupExit
  written : t'.written = t.written
  regs : t'.regs = t.regs
  altstack : t'.altstack = t.altstack
  sigreturnTrampoline : t'.sigreturnTrampoline = t.sigreturnTrampoline
  made : (t'.blocked = t.blocked.remove s ∧ t'.handlers = Function.update t.handlers s ⟨.default, true⟩) ∨
    (forceExit = false ∧ t.blocked.contains s = false ∧ (t.handlers s).action.sigaction ≠ sigIgn ∧
      t'.blocked = t.blocked ∧ t'.handlers = t.handlers)

theorem forceSignalWithInfo_of_signo (t : Task) (forceExit : Bool) (mem : s ∈ forcible) (signo : info.signo = s.asI32) :
    ∃ t', t.forceSignalWithInfo s forceExit info = .ok t' ∧ Forced t s forceExit info t' := by
  obtain ⟨pending, pushed⟩ := t.pending.push_of_signo t.sigpendingLimit signo
  simp only [forceSignalWithInfo, if_pos mem, pushed, bind, Except.bind]
  split
  · exact ⟨_, rfl, pushed, rfl, rfl, rfl, rfl, rfl, rfl, rfl, .inl ⟨rfl, rfl⟩⟩
  · next seen =>
    simp only [Bool.or_eq_true, not_or, Bool.not_eq_true, beq_eq_false_iff_ne] at seen
    exact ⟨_, rfl, pushed, rfl, rfl, rfl, rfl, rfl, rfl, rfl, .inr ⟨seen.1.1, seen.1.2, seen.2, rfl, rfl⟩⟩

theorem forceSignal_segv (t : Task) (forceExit : Bool) :
    ∃ t', t.forceSignal .SIGSEGV forceExit = .ok t' ∧ Forced t .SIGSEGV forceExit ⟨asI32 .SIGSEGV, 0, siKernel, .newZeroed⟩ t' :=
  t.forceSignalWithInfo_of_signo forceExit (by decide) rfl

theorem delivered_of_deliverSignal
    (delivered : t.deliverSignal guest s info (t.handlers s).action = some t') : Delivered t s info t' := by
  unfold deliverSignal at delivered
  split at delivered
  · cases delivered
  split at delivered
  · cases delivered
  obtain ⟨⟨frame, regs⟩, written, rfl⟩ := Option.map_eq_some_iff.mp delivered
  exact ⟨rfl, rfl, rfl, rfl, rfl, rfl, _, frame, rfl, writeSignalFrame_siginfo written⟩

/-- What dispatching `s` does, by the installed action. -/
inductive Dispatched (t : Task) (guest : Guest) (s : Signal) (info : Siginfo) : Task → Prop where
  | killed (default : (t.handlers s).action.sigaction = sigDfl) (deadly : fatal s = true) :
      Dispatched t guest s info (t.exitGroup (.signal s))
  | dropped (harmless : ¬t.Handles s) (survived : (t.handlers s).action.sigaction = sigDfl → fatal s = false) :
      Dispatched t guest s info t
  | entered {t' : Task} (handles : t.Handles s) (delivered : Delivered t s info t') :
      Dispatched t guest s info t'
  | faulted {t' : Task} (handles : t.Handles s)
      (fault : (t.ensureSigreturnTrampoline guest).deliverSignal guest s info (t.handlers s).action = none)
      (forced : Forced (t.ensureSigreturnTrampoline guest) .SIGSEGV (s = .SIGSEGV) ⟨asI32 .SIGSEGV, 0, siKernel, .newZeroed⟩ t') :
      Dispatched t guest s info t'

theorem dispatch_cases (t : Task) (guest : Guest) (s : Signal) (info : Siginfo) :
    ∃ t', t.dispatch guest s info = .ok t' ∧ Dispatched t guest s info t' := by
  by_cases default : (t.handlers s).action.sigaction = sigDfl
  · cases deadly : fatal s with
    | true => exact ⟨_, by simp [dispatch, default, deadly], .killed default deadly⟩
    | false =>
      exact ⟨t, by simp [dispatch, default, deadly], .dropped (fun handles => handles.1 default) fun _ => deadly⟩
  by_cases ignored : (t.handlers s).action.sigaction = sigIgn
  · exact ⟨t, by rw [dispatch, if_neg default, if_pos ignored],
      .dropped (fun handles => handles.2 ignored) fun same => absurd same default⟩
  cases delivery : (t.ensureSigreturnTrampoline guest).deliverSignal guest s info (t.handlers s).action with
  | some t' =>
    refine ⟨t', by simp only [dispatch, default, ignored, if_false, delivery], .entered ⟨default, ignored⟩ ?_⟩
    obtain ⟨pending, shared, handlers, exiting, status, blocked, framed⟩ := delivered_of_deliverSignal delivery
    exact ⟨pending, shared, handlers, exiting, status, blocked, framed⟩
  | none =>
    obtain ⟨t', forcing, forced⟩ := forceSignal_segv (t.ensureSigreturnTrampoline guest) (s = .SIGSEGV)
    exact ⟨t', by simp only [dispatch, default, ignored, if_false, delivery]; exact forcing,
      .faulted ⟨default, ignored⟩ delivery forced⟩

/-- What one iteration does. -/
inductive Iterates (guest : Guest) (t : Task) : Loop.Next Task → Prop where
  | idle (quiet : ∀ r, ¬t.Ready r)
      (sharedQuiet : ∀ r, t.sharedPending.pending.contains r = true → t.blocked.contains r = true) :
      Iterates guest t (.leave t)
  | stopped {s : Signal} {info : Siginfo} {t' : Task} (took : Took t s info t') (exiting : t.isExiting = true) :
      Iterates guest t (.leave t')
  | handled {s : Signal} {info : Siginfo} {mid t' : Task} (took : Took t s info mid)
      (running : t.isExiting = false) (dispatched : Dispatched mid guest s info t') :
      Iterates guest t (.again t')

theorem Took.isExiting (took : Took t s info t') : t'.isExiting = t.isExiting := by
  cases took <;> rfl

theorem processOnce_cases (guest : Guest) (t : Task) : ∃ next, processOnce guest t = .ok next ∧ Iterates guest t next := by
  obtain ⟨taken, quiet, sharedQuiet⟩ | ⟨s, info, mid, taken, took⟩ := t.takeNext_cases
  · exact ⟨.leave t, by simp only [processOnce, taken]; rfl, .idle quiet sharedQuiet⟩
  · cases exiting : t.isExiting with
    | true =>
      refine ⟨.leave mid, ?_, .stopped took exiting⟩
      simp only [processOnce, taken, bind, Except.bind, took.isExiting, exiting, if_true]
      rfl
    | false =>
      obtain ⟨t', result, dispatched⟩ := mid.dispatch_cases guest s info
      refine ⟨.again t', ?_, .handled took exiting dispatched⟩
      simp only [processOnce, taken, bind, Except.bind, took.isExiting, exiting, result]
      rfl

/-! ## The loop ends -/

/-- A queued record counts twice unless it is a `SIGSEGV`, which a faulting delivery may add. -/
def weight (info : Siginfo) : ℕ := if info.signo = asI32 .SIGSEGV then 1 else 2

def load (p : PendingSignals) : ℕ := (p.queue.map weight).sum

/-- A bound on the iterations: the queued records, and one for a handled `SIGSEGV` that can fault. -/
def work (t : Task) : ℕ :=
  load t.pending + load t.sharedPending +
    if (t.handlers .SIGSEGV).action.sigaction = sigDfl ∨ (t.handlers .SIGSEGV).action.sigaction = sigIgn then 0
    else 1

theorem Leaves.load {rest : PendingSignals} (leaves : Leaves p s info rest) : load p = weight info + load rest := by
  simp [Task.load, (leaves.perm.map weight).sum_eq]

theorem load_push {q : PendingSignals} {limit : ℕ} (pushed : p.push limit s info = .ok q) : load q ≤ load p + weight info := by
  obtain ⟨rfl, -⟩ | ⟨-, queue, -⟩ := push_eq_ok pushed
  · exact Nat.le_add_right _ _
  · simp [load, queue]

theorem exitGroup_eq (t : Task) (status : ExitStatus) :
    ∃ exiting code, t.exitGroup status = { t with isExiting := exiting, groupExit := code } := by
  unfold exitGroup
  split
  · exact ⟨t.isExiting, t.groupExit, rfl⟩
  · exact ⟨_, _, rfl⟩

theorem Took.work {mid : Task} (took : Took t s info mid) : t.work = mid.work + weight info := by
  cases took with
  | own _ leaves | shared _ leaves => simp only [Task.work, leaves.load]; omega

theorem weight_pos (info : Siginfo) : 0 < weight info := by
  unfold weight
  split <;> omega

theorem Took.signo {mid : Task} (took : Took t s info mid) : info.signo = s.asI32 := by
  cases took with
  | own _ leaves | shared _ leaves => exact leaves.signo

/-- A forced `SIGSEGV` adds one record at most, and none when a handler of it just faulted. -/
theorem Dispatched.work (signo : info.signo = s.asI32) (dispatched : Dispatched t guest s info t') :
    t'.work < t.work + weight info := by
  have pos := weight_pos info
  cases dispatched with
  | killed =>
    obtain ⟨exiting, code, eq⟩ := t.exitGroup_eq (.signal s)
    rw [eq]
    exact Nat.lt_add_of_pos_right pos
  | dropped => exact Nat.lt_add_of_pos_right pos
  | entered _ delivered =>
    simp only [Task.work, delivered.pending, delivered.sharedPending, delivered.handlers]
    exact Nat.lt_add_of_pos_right pos
  | faulted handles _ forced =>
    have pushed := load_push forced.pending
    have one : weight ⟨asI32 .SIGSEGV, 0, siKernel, .newZeroed⟩ = 1 := rfl
    rw [one] at pushed
    have pushed : load t'.pending ≤ load t.pending + 1 := pushed
    simp only [Task.work, forced.sharedPending, ensureSigreturnTrampoline_sharedPending]
    by_cases segv : s = .SIGSEGV
    · -- the handler that faulted is gone
      subst segv
      have reset : (t'.handlers .SIGSEGV).action.sigaction = sigDfl := by
        obtain ⟨-, handlers⟩ | ⟨never, -⟩ := forced.made
        · simp [handlers, SigAction.default]
        · simp at never
      rw [if_pos (.inl reset), if_neg (not_or.mpr handles)]
      omega
    · have two : weight info = 2 := by
        rw [weight, if_neg]
        rwa [signo, asI32_inj]
      obtain ⟨-, handlers⟩ | ⟨-, -, -, -, handlers⟩ := forced.made
      · rw [if_pos (.inl (by simp [handlers, SigAction.default]))]
        omega
      · simp only [handlers, ensureSigreturnTrampoline_handlers]
        omega

theorem Iterates.work (iterates : Iterates guest t (.again t')) : t'.work < t.work := by
  cases iterates with
  | handled took _ dispatched =>
    have less := dispatched.work took.signo
    rw [took.work]
    exact less

/-- The rule for `process_signals`: an invariant of the iterations that gives `post` wherever the
loop can leave. -/
theorem loop_reaches (guest : ℕ → Guest) (inv post : Task → Prop) {fuel : ℕ} (init : inv t)
    (again : ∀ i t t', inv t → Iterates (guest i) t (.again t') → inv t')
    (leave : ∀ i t t', inv t → Iterates (guest i) t (.leave t') → post t') (enough : t.work < fuel) :
    Loop.Reaches (fun i => processOnce (guest i)) fuel t post := by
  have descends : Loop.Descends (fun i => processOnce (guest i)) inv post work := by
    intro i s holds
    obtain ⟨next, result, iterates⟩ := processOnce_cases (guest i) s
    cases next with
    | again s' => exact .inl ⟨s', result, again i s s' holds iterates, iterates.work⟩
    | leave s' => exact .inr ⟨s', result, leave i s s' holds iterates⟩
  exact descends.reaches init enough

/-- No task makes the loop fail or go on forever. -/
theorem loop_returns (guest : ℕ → Guest) {fuel : ℕ} (enough : t.work < fuel) :
    Loop.Reaches (fun i => processOnce (guest i)) fuel t fun _ => True :=
  loop_reaches guest (fun _ => True) (fun _ => True) trivial (fun _ _ _ _ _ => trivial) (fun _ _ _ _ _ => trivial) enough

end Task

end LiteBox.Signals
