import LiteBox.Seccomp.State
import LiteBox.Signals.Task

/-! # Forced signals

A CPU exception, or a seccomp verdict that the system call must not survive, forces a signal on the
task. When the push is not dropped, no handler that runs first masks the signal, and a delivery that
faults cannot be caught, the next `process_signals` enters a handler of the signal or ends the process.
-/

namespace LiteBox.Signals

open PendingSignals List Function SigAction

namespace Task

/-- `trapId` becomes `si_errno`. -/
def sigsysInfo (nr : ℤ) (ip : BitVec 64) (trapId : UInt16) : Siginfo :=
  ⟨Signal.asI32 .SIGSYS, trapId.toNat, sysSeccomp, .newSigsys ip nr (Seccomp.auditArch .x86_64).toBitVec⟩

def deliverSigsys (t : Task) (forceExit : Bool) (nr : ℤ) (ip : BitVec 64) (trapId : UInt16) : Except Panic Task :=
  t.forceSignalWithInfo .SIGSYS forceExit (sigsysInfo nr ip trapId)

inductive Answer where
  | value (n : ℕ)
  | errno (data : UInt16)
  | enosys
deriving DecidableEq

/-- A trap answers the system call number, as a rolled back call does. -/
def applySeccompVerdict (t : Task) (verdict : Seccomp.Verdict) (nr : ℤ) (ip : BitVec 64) : Except Panic (Answer × Task) :=
  match verdict with
  | .errno data => .ok (.errno data, t)
  | .trap data => (t.deliverSigsys false nr ip data).map (.value nr.toNat, ·)
  | .trace | .killThread | .killProcess => (t.deliverSigsys true nr ip 0).map (.enosys, ·)
  | .allow | .log => .ok (.value 0, t)

def exceptionSignal (exception : BitVec 8) : Signal :=
  if exception = 0 then .SIGFPE
  else if exception = 3 then .SIGTRAP
  else if exception = 6 then .SIGILL
  else .SIGSEGV

def pageFault : BitVec 8 := 14

def faultAddress (info : ExceptionInfo) : BitVec 64 := if info.exception = pageFault then info.cr2 else 0

def handleExceptionRequest (t : Task) (info : ExceptionInfo) : Except Panic Task :=
  let signal := exceptionSignal info.exception
  { t with lastException := info }.forceSignalWithInfo signal false (siginfoException signal (faultAddress info))

/-! ## Readiness along the loop -/

/-- `r` is about to be delivered to a handler. -/
def Runs (t : Task) (r : Signal) : Prop := t.Ready r ∧ t.Handles r

/-- A handler that the loop can enter before it comes to `x`: one that is ready ahead of it, or that
of `SIGSEGV` when a delivery ahead of it can fault. -/
def Ahead (t : Task) (x r : Signal) : Prop :=
  rank r < rank x ∧ (t.Runs r ∨ r = .SIGSEGV ∧ t.Handles r ∧ ∃ q, rank q < rank x ∧ t.Runs q)

/-- No handler that runs before `x` masks it. -/
def Unmasked (t : Task) (x : Signal) : Prop := ∀ r, t.Ahead x r → (t.handlers r).action.mask.contains x = false

variable {s x : Signal} {action : SigAction} {blocked : SigSet}

theorem contains_handlerMask (other : x ≠ s)
    (free : blocked.contains x = false) (unmasked : action.mask.contains x = false) :
    (handlerMask blocked s action).contains x = false := by
  unfold handlerMask
  split <;> simp [free, unmasked, other]

theorem contains_of_handlerMask
    (free : (handlerMask blocked s action).contains x = false) : blocked.contains x = false := by
  unfold handlerMask at free
  split at free <;> simp_all

variable {info : Siginfo} {guest : Guest}

theorem Dispatched.handlers {t t' : Task}
    (dispatched : Dispatched t guest s info t') (r : Signal) :
    t'.handlers r = t.handlers r ∨ (r = .SIGSEGV ∧ t'.handlers r = ⟨.default, true⟩) := by
  cases dispatched with
  | killed =>
    obtain ⟨exiting, code, eq⟩ := t.exitGroup_eq (.signal s)
    exact .inl (by rw [eq])
  | dropped => exact .inl rfl
  | entered _ delivered => exact .inl (by rw [delivered.handlers])
  | faulted _ _ forced =>
    obtain ⟨-, handlers⟩ | ⟨-, -, -, -, handlers⟩ := forced.made
    · by_cases segv : r = .SIGSEGV
      · exact .inr ⟨segv, by rw [handlers, segv, update_self]⟩
      · exact .inl (by rw [handlers, update_of_ne segv, ensureSigreturnTrampoline_handlers])
    · exact .inl (by rw [handlers, ensureSigreturnTrampoline_handlers])

variable {r : Signal} {before i : ℕ} {guests : ℕ → Guest} {forceExit : Bool}

theorem Dispatched.handles {t t' : Task}
    (dispatched : Dispatched t guest s info t') (handles : t'.Handles r) : t'.handlers r = t.handlers r := by
  obtain same | ⟨-, reset⟩ := dispatched.handlers r
  · exact same
  · exact absurd (by rw [reset]; rfl) handles.1

/-- Nothing becomes ready except a `SIGSEGV` that a faulting delivery forces. -/
theorem Dispatched.ready {t t' : Task}
    (dispatched : Dispatched t guest s info t') (ready : t'.Ready r) : t.Ready r ∨ (r = .SIGSEGV ∧ t.Handles s) := by
  obtain ⟨queued, free⟩ := ready
  cases dispatched with
  | killed =>
    obtain ⟨exiting, code, eq⟩ := t.exitGroup_eq (.signal s)
    rw [eq] at queued free
    exact .inl ⟨queued, free⟩
  | dropped => exact .inl ⟨queued, free⟩
  | entered _ delivered =>
    rw [delivered.pending] at queued
    rw [delivered.blocked] at free
    exact .inl ⟨queued, contains_of_handlerMask free⟩
  | faulted handles _ forced =>
    obtain held | segv := contains_of_push forced.pending queued
    · by_cases segv : r = .SIGSEGV
      · exact .inr ⟨segv, handles⟩
      · refine .inl ⟨held, ?_⟩
        obtain ⟨blocked, -⟩ | ⟨-, -, -, blocked, -⟩ := forced.made
        · simpa [blocked, segv] using free
        · simpa [blocked] using free
    · exact .inr ⟨segv, handles⟩

/-- A ready signal stays ready while others that do not mask it are dispatched. -/
theorem Dispatched.keeps {t t' : Task}
    (dispatched : Dispatched t guest s info t') (ready : t.Ready x) (other : x ≠ s)
    (unmasked : t.Handles s → (t.handlers s).action.mask.contains x = false) : t'.Ready x := by
  obtain ⟨queued, free⟩ := ready
  cases dispatched with
  | killed =>
    obtain ⟨exiting, code, eq⟩ := t.exitGroup_eq (.signal s)
    rw [eq]
    exact ⟨queued, free⟩
  | dropped => exact ⟨queued, free⟩
  | entered handles delivered =>
    refine ⟨by rwa [delivered.pending], ?_⟩
    rw [delivered.blocked]
    exact contains_handlerMask other free (unmasked handles)
  | faulted _ _ forced =>
    refine ⟨contains_push forced.pending queued, ?_⟩
    obtain ⟨blocked, -⟩ | ⟨-, -, -, blocked, -⟩ := forced.made
    · simpa [blocked] using fun held => absurd held (by simp [free])
    · simpa [blocked] using free

/-- The loop was in `t`, took `s` from the task's own queue and dispatched it. -/
structure Acts (guest : Guest) (t : Task) (s : Signal) (info : Siginfo) (mid t' : Task) : Prop where
  rest : ∃ rest, mid = { t with pending := rest } ∧ Leaves t.pending s info rest
  free : t.blocked.contains s = false
  first : ∀ r, t.Ready r → rank s ≤ rank r
  dispatched : Dispatched mid guest s info t'

variable {guest : Guest} {t t' mid : Task} {s x : Signal} {info : Siginfo}

/-- While some signal of the task is ready, each iteration takes one of the task's own. -/
theorem Iterates.acts (iterates : Iterates guest t (.again t')) (ready : t.Ready x) :
    ∃ s info mid, t.isExiting = false ∧ Acts guest t s info mid t' := by
  cases iterates with
  | handled took running dispatched =>
    cases took with
    | own rest leaves free first => exact ⟨_, _, _, running, ⟨rest, rfl, leaves⟩, free, first, dispatched⟩
    | shared rest leaves free quiet => exact absurd ready (quiet x)

section

variable (acts : Acts guest t s info mid t')

include acts

theorem Acts.handlers : mid.handlers = t.handlers := by
  obtain ⟨rest, rfl, -⟩ := acts.rest
  rfl

theorem Acts.handles_mid : mid.Handles r ↔ t.Handles r := by
  rw [Handles, Handles, acts.handlers]

theorem Acts.ready_self : t.Ready s := by
  obtain ⟨rest, -, leaves⟩ := acts.rest
  exact ⟨leaves.held, acts.free⟩

theorem Acts.ready_of_mid (ready : mid.Ready r) : t.Ready r := by
  by_cases same : r = s
  · exact same ▸ acts.ready_self
  · obtain ⟨rest, rfl, leaves⟩ := acts.rest
    exact ⟨leaves.others r same ▸ ready.1, ready.2⟩

theorem Acts.ready_mid (ready : t.Ready r) (other : r ≠ s) : mid.Ready r := by
  obtain ⟨rest, rfl, leaves⟩ := acts.rest
  exact ⟨(leaves.others r other).trans ready.1, ready.2⟩

theorem Acts.handles (handles : t'.Handles r) :
    t.Handles r ∧ t'.handlers r = t.handlers r := by
  have same := acts.dispatched.handles handles
  rw [acts.handlers] at same
  exact ⟨by rwa [Handles, ← same], same⟩

/-- What runs next ran before, or is a forced `SIGSEGV` after a faulting handler. -/
theorem Acts.runs (runs : t'.Runs r) :
    t.Runs r ∨ (r = .SIGSEGV ∧ t.Handles r ∧ t.Runs s) := by
  have handles := (acts.handles runs.2).1
  obtain ready | ⟨segv, faulting⟩ := acts.dispatched.ready runs.1
  · exact .inl ⟨acts.ready_of_mid ready, handles⟩
  · exact .inr ⟨segv, handles, acts.ready_self, acts.handles_mid.mp faulting⟩

theorem Acts.rank_lt (ready : t.Ready x) (other : s ≠ x) : rank s < rank x :=
  lt_of_le_of_ne (acts.first x ready) fun same => other (rank_inj same)

theorem Acts.ahead (before : rank s < rank x) (ahead : t'.Ahead x r) : t.Ahead x r := by
  obtain ⟨lower, runs | ⟨segv, handles, q, qLower, runs⟩⟩ := ahead
  · obtain runs | ⟨segv, handles, faulting⟩ := acts.runs runs
    · exact ⟨lower, .inl runs⟩
    · exact ⟨lower, .inr ⟨segv, handles, s, before, faulting⟩⟩
  · refine ⟨lower, .inr ⟨segv, (acts.handles handles).1, ?_⟩⟩
    obtain runs | ⟨-, -, faulting⟩ := acts.runs runs
    · exact ⟨q, qLower, runs⟩
    · exact ⟨s, before, faulting⟩

/-- An unmasked ready signal stays so while the loop serves what is ahead of it. -/
theorem Acts.unmasked (ready : t.Ready x) (other : s ≠ x)
    (unmasked : t.Unmasked x) : t'.Ready x ∧ t'.Unmasked x := by
  have before := acts.rank_lt ready other
  constructor
  · refine acts.dispatched.keeps (acts.ready_mid ready other.symm) other.symm fun handles => ?_
    rw [acts.handlers]
    exact unmasked s ⟨before, .inl ⟨acts.ready_self, acts.handles_mid.mp handles⟩⟩
  · intro r ahead
    have handles : t'.Handles r := by
      obtain ⟨-, runs | ⟨-, handles, -⟩⟩ := ahead
      · exact runs.2
      · exact handles
    rw [(acts.handles handles).2]
    exact unmasked r (acts.ahead before ahead)

end

/-! ## Termination of the process -/

/-- A task that is exiting belongs to a process that is. -/
def ExitsTogether (t : Task) : Prop := t.isExiting = true → t.groupExit.isSome = true

def Terminated (t : Task) : Prop := t.isExiting = true ∧ t.groupExit.isSome = true

theorem terminated_exitGroup (t : Task) (status : ExitStatus) (together : t.ExitsTogether) : (t.exitGroup status).Terminated := by
  unfold exitGroup
  split
  · next exiting => exact ⟨exiting, together exiting⟩
  · exact ⟨rfl, by cases t.groupExit <;> rfl⟩

theorem Dispatched.exiting (dispatched : Dispatched t guest s info t') (running : t.isExiting = false) :
    t'.Terminated ∨ (t'.isExiting = false ∧ t'.groupExit = t.groupExit) := by
  cases dispatched with
  | killed => exact .inl (t.terminated_exitGroup _ fun exiting => by rw [running] at exiting; cases exiting)
  | dropped => exact .inr ⟨running, rfl⟩
  | entered _ delivered => exact .inr ⟨delivered.isExiting.trans running, delivered.groupExit⟩
  | faulted _ _ forced => exact .inr ⟨forced.isExiting.trans running, forced.groupExit⟩

theorem Iterates.terminated (iterates : Iterates guest t (.again t')) (terminated : t.Terminated) : False := by
  cases iterates with
  | handled _ running => rw [terminated.1] at running; cases running

theorem Took.exit {t mid : Task} (took : Took t s info mid) :
    mid.isExiting = t.isExiting ∧ mid.groupExit = t.groupExit ∧ mid.written = t.written := by
  cases took <;> exact ⟨rfl, rfl, rfl⟩

theorem Iterates.exitsTogether (iterates : Iterates guest t (.again t')) : t'.ExitsTogether := by
  cases iterates with
  | handled took running dispatched =>
    obtain terminated | ⟨still, -⟩ := dispatched.exiting (took.isExiting.trans running)
    · exact fun _ => terminated.2
    · exact fun exiting => by rw [still] at exiting; cases exiting

theorem Iterates.leave_of_ready (iterates : Iterates guest t (.leave t')) (ready : t.Ready x)
    (together : t.ExitsTogether) : t'.Terminated := by
  cases iterates with
  | idle quiet => exact absurd ready (quiet x)
  | stopped took exiting =>
    obtain ⟨flag, status, -⟩ := took.exit
    exact ⟨flag.trans exiting, by rw [status]; exact together exiting⟩

theorem Iterates.leave_terminated (iterates : Iterates guest t (.leave t')) (terminated : t.Terminated) : t'.Terminated := by
  cases iterates with
  | idle => exact terminated
  | stopped took _ =>
    obtain ⟨flag, status, -⟩ := took.exit
    exact ⟨flag.trans terminated.1, by rw [status]; exact terminated.2⟩

/-- A ready signal whose default action is fatal, and that nothing ahead of it masks. -/
structure Doomed (t : Task) (x : Signal) : Prop where
  ready : t.Ready x
  default : (t.handlers x).action.sigaction = sigDfl
  deadly : fatal x = true
  unmasked : t.Unmasked x

theorem Doomed.step (doomed : t.Doomed x) (iterates : Iterates guest t (.again t')) : t'.Terminated ∨ t'.Doomed x := by
  obtain ⟨s, info, mid, running, acts⟩ := iterates.acts doomed.ready
  by_cases same : s = x
  · subst same
    have default : (mid.handlers s).action.sigaction = sigDfl := by rw [acts.handlers]; exact doomed.default
    cases acts.dispatched with
    | killed =>
      obtain ⟨rest, rfl, -⟩ := acts.rest
      exact .inl (terminated_exitGroup _ _ fun exiting => by rw [running] at exiting; cases exiting)
    | dropped _ survived => exact absurd (survived default) (by simp [doomed.deadly])
    | entered handles | faulted handles => exact absurd default handles.1
  · obtain ⟨ready, unmasked⟩ := acts.unmasked doomed.ready same doomed.unmasked
    refine .inr ⟨ready, ?_, doomed.deadly, unmasked⟩
    obtain same | ⟨-, reset⟩ := acts.dispatched.handlers x
    · rw [same, acts.handlers]
      exact doomed.default
    · rw [reset]
      rfl

/-! ## Frames -/

/-- A handler frame for `s` was written after the first `before` frames. -/
def FramedSince (t : Task) (before : ℕ) (s : Signal) : Prop :=
  ∃ written ∈ t.written.drop before, written.2.siginfo.signo = s.asI32

theorem Dispatched.written (dispatched : Dispatched t guest s info t') : t.written <+: t'.written := by
  cases dispatched with
  | killed =>
    obtain ⟨exiting, code, eq⟩ := t.exitGroup_eq (.signal s)
    rw [eq]
  | dropped => exact prefix_rfl
  | entered _ delivered =>
    obtain ⟨address, frame, written, -⟩ := delivered.framed
    exact written ▸ prefix_append _ _
  | faulted _ _ forced => exact forced.written ▸ prefix_rfl

theorem FramedSince.of_prefix (framed : t.FramedSince before x) (grows : t.written <+: t'.written) : t'.FramedSince before x := by
  obtain ⟨frame, member, signo⟩ := framed
  obtain ⟨more, eq⟩ := grows
  refine ⟨frame, ?_, signo⟩
  rw [← eq, drop_append]
  exact mem_append_left _ member

theorem Iterates.written (iterates : Iterates guest t (.again t')) : t.written <+: t'.written := by
  cases iterates with
  | handled took _ dispatched =>
    obtain ⟨-, -, same⟩ := took.exit
    exact same ▸ dispatched.written

theorem Iterates.leave_written (iterates : Iterates guest t (.leave t')) : t'.written = t.written := by
  cases iterates with
  | idle => rfl
  | stopped took _ => exact took.exit.2.2

theorem Delivered.framedSince (delivered : Delivered t s info t') (signo : info.signo = s.asI32)
    (bound : before ≤ t.written.length) : t'.FramedSince before s := by
  obtain ⟨address, frame, written, same⟩ := delivered.framed
  refine ⟨(address, frame), ?_, by rw [same, signo]⟩
  rw [written, drop_append_of_le_length bound]
  exact mem_append_right _ (mem_singleton_self _)

/-- A frame of a handler of `s` can be written from here. -/
structure Fits (guest : Guest) (t : Task) (s : Signal) : Prop where
  onStack : t.offStack (t.handlers s).action = false
  proper : notAHandler (t.handlers s).action.sigaction = false
  returns : (restorer (t.handlers s).action (t.trampolineIn guest)).isSome = true
  writable : guest.writable (t.frameAddr (t.handlers s).action) = true

theorem Fits.delivers (fits : Fits guest t s) (info : Siginfo) :
    (t.ensureSigreturnTrampoline guest).deliverSignal guest s info (t.handlers s).action ≠ none := by
  have onStack : ¬(t.ensureSigreturnTrampoline guest).offStack (t.handlers s).action = true := by
    have := fits.onStack
    simpa [offStack, frameAddr, switchStacks, ensureSigreturnTrampoline] using this
  rw [deliverSignal, if_neg onStack, if_neg (by simp [fits.proper])]
  rw [ne_eq, Option.map_eq_none_iff, ← ne_eq, Option.ne_none_iff_isSome]
  exact writeSignalFrame_isSome fits.returns fits.writable

/-- The queues and the mask play no part in writing a frame. -/
theorem Fits.congr (fits : Fits guest t s) (altstack : t'.altstack = t.altstack) (regs : t'.regs = t.regs)
    (handlers : t'.handlers = t.handlers) (trampoline : t'.sigreturnTrampoline = t.sigreturnTrampoline) : Fits guest t' s := by
  obtain ⟨onStack, proper, returns, writable⟩ := fits
  cases t
  cases t'
  cases altstack
  cases regs
  cases handlers
  cases trampoline
  exact ⟨onStack, proper, returns, writable⟩

/-! ## The forced signal -/

/-- A faulting delivery of `s` ends the process, or cannot happen. -/
inductive Caught (guest : ℕ → Guest) (t : Task) (s : Signal) : Prop where
  | segv (same : s = .SIGSEGV)
  | fatal (uncaught : ¬t.Handles .SIGSEGV ∨ t.blocked.contains .SIGSEGV = true)
      (open_ : ∀ r, rank s < rank r → rank r < rank .SIGSEGV → t.Runs r → (t.handlers r).action.mask.contains .SIGSEGV = false)
  | fits (alone : ∀ r, rank r < rank s → ¬t.Runs r) (room : ∀ i, Fits (guest i) t s)

/-- The signal `s` is ready for its handler, and the loop will come to it. -/
structure Awaited (guest : ℕ → Guest) (t : Task) (s : Signal) : Prop where
  standard : s.isRtSignal = false
  ready : t.Ready s
  handles : t.Handles s
  unmasked : t.Unmasked s
  caught : Caught guest t s

/-- A dropped signal leaves registers, stack and handlers alone. -/
theorem Dispatched.eq_of_not_handles (dispatched : Dispatched t guest s info t') (harmless : ¬t.Handles s) :
    t' = t ∨ t' = t.exitGroup (.signal s) := by
  cases dispatched with
  | killed => exact .inr rfl
  | dropped => exact .inl rfl
  | entered handles | faulted handles => exact absurd handles harmless

theorem Caught.step (caught : Caught guests t x) (acts : Acts guest t s info mid t')
    (before : rank s < rank x) (exitFree : t'.isExiting = false) : Caught guests t' x := by
  cases caught with
  | segv same => exact .segv same
  | fatal uncaught open_ =>
    refine .fatal ?_ ?_
    · by_cases handles : t'.Handles .SIGSEGV
      · obtain ⟨handled, same⟩ := acts.handles handles
        have held : t.blocked.contains .SIGSEGV = true := uncaught.resolve_left (not_not.mpr handled)
        refine .inr ?_
        by_contra free
        have free : t'.blocked.contains .SIGSEGV = false := by simpa using free
        obtain ⟨rest, rfl, -⟩ := acts.rest
        cases acts.dispatched with
        | killed =>
          obtain ⟨exiting, code, eq⟩ := exitGroup_eq { t with pending := rest } (.signal s)
          rw [eq] at free
          simp [held] at free
        | dropped => simp [held] at free
        | entered _ delivered =>
          rw [delivered.blocked] at free
          have := contains_of_handlerMask free
          simp [held] at this
        | faulted _ _ forced =>
          obtain ⟨-, reset⟩ | ⟨-, notHeld, -⟩ := forced.made
          · exact absurd (by simp [reset, SigAction.default]) handles.1
          · simp [held] at notHeld
      · exact .inl handles
    · intro r above below runs
      rw [(acts.handles runs.2).2]
      obtain runs | ⟨rfl, -, -⟩ := acts.runs runs
      · exact open_ r above below runs
      · exact absurd below (lt_irrefl _)
  | fits alone room =>
    have harmless : ¬mid.Handles s := fun handles =>
      alone s before ⟨acts.ready_self, acts.handles_mid.mp handles⟩
    obtain ⟨rest, rfl, leaves⟩ := acts.rest
    have same : t' = { t with pending := rest } := by
      obtain same | rfl := acts.dispatched.eq_of_not_handles harmless
      · exact same
      · unfold exitGroup at exitFree ⊢
        split at exitFree
        · next exiting => rw [if_pos exiting]
        · cases exitFree
    refine .fits (fun r lower runs => ?_) ?_
    · obtain runs | ⟨-, -, faulting⟩ := acts.runs runs
      · exact alone r lower runs
      · exact alone s before faulting
    · exact fun i => same ▸ (room i).congr rfl rfl rfl rfl

/-- A faulting delivery of the awaited signal dooms the process. -/
theorem Awaited.doomed (awaited : Awaited guests t s) (acts : Acts (guests i) t s info mid t')
    (fault : (mid.ensureSigreturnTrampoline (guests i)).deliverSignal (guests i) s info (mid.handlers s).action = none)
    (forced : Forced (mid.ensureSigreturnTrampoline (guests i)) .SIGSEGV (s = .SIGSEGV)
      ⟨Signal.asI32 .SIGSEGV, 0, siKernel, .newZeroed⟩ t') : t'.Doomed .SIGSEGV := by
  have queued : t'.pending.pending.contains .SIGSEGV = true :=
    contains_push_self forced.pending (.inl ⟨rfl, .inr (.inr rfl)⟩)
  obtain ⟨rest, rfl, leaves⟩ := acts.rest
  have caught : s = .SIGSEGV ∨ (¬t.Handles .SIGSEGV ∨ t.blocked.contains .SIGSEGV = true) ∧
      ∀ r, rank s < rank r → rank r < rank .SIGSEGV → t.Runs r → (t.handlers r).action.mask.contains .SIGSEGV = false := by
    cases awaited.caught with
    | segv same => exact .inl same
    | fatal uncaught open_ => exact .inr ⟨uncaught, open_⟩
    | fits alone room =>
      have fits : Fits (guests i) { t with pending := rest } s := (room i).congr rfl rfl rfl rfl
      exact absurd fault (fits.delivers info)
  have visible : t'.blocked.contains .SIGSEGV = false ∧ (t'.handlers .SIGSEGV).action.sigaction = sigDfl := by
    obtain ⟨blocked, handlers⟩ | ⟨notForced, free, seen, blocked, handlers⟩ := forced.made
    · exact ⟨by simp [blocked], by simp [handlers, SigAction.default]⟩
    · refine ⟨by rw [blocked]; exact free, ?_⟩
      obtain same | ⟨unhandled | held, -⟩ := caught
      · simp [same] at notForced
      · rw [handlers]
        by_contra default
        exact unhandled ⟨default, seen⟩
      · exact absurd held (by rw [show t.blocked.contains .SIGSEGV = false from free]; simp)
  have apart : s ≠ .SIGSEGV → ¬t'.Ready s := by
    intro other ready
    obtain ⟨held, -⟩ | ⟨segv, -⟩ := acts.dispatched.ready ready
    · rw [show rest.pending.contains s = false from leaves.gone awaited.standard] at held
      cases held
    · exact other segv
  refine ⟨⟨queued, visible.1⟩, visible.2, rfl, ?_⟩
  rintro r ⟨below, runs | ⟨rfl, -, -⟩⟩
  · obtain runs' | ⟨rfl, -, -⟩ := acts.runs runs
    · rw [(acts.handles runs.2).2]
      have above := acts.first r runs'.1
      obtain rfl | ⟨-, open_⟩ := caught
      · omega
      · have other : rank s ≠ rank r := by
          intro same
          obtain rfl := rank_inj same
          exact apart (by rintro rfl; exact lt_irrefl _ below) runs.1
        exact open_ r (by omega) below runs'
    · exact absurd below (lt_irrefl _)
  · exact absurd below (lt_irrefl _)

theorem Awaited.step (awaited : Awaited guests t x)
    (bound : before ≤ t.written.length) (iterates : Iterates (guests i) t (.again t')) :
    t'.Terminated ∨ t'.FramedSince before x ∨ Awaited guests t' x ∨ t'.Doomed .SIGSEGV := by
  obtain ⟨s, info, mid, running, acts⟩ := iterates.acts awaited.ready
  obtain ⟨rest, midEq, leaves⟩ := acts.rest
  by_cases same : s = x
  · subst same
    have handles : mid.Handles s := acts.handles_mid.mpr awaited.handles
    cases acts.dispatched with
    | killed default => exact absurd default handles.1
    | dropped harmless => exact absurd handles harmless
    | entered _ delivered =>
      exact .inr (.inl (delivered.framedSince leaves.signo (by rw [midEq]; exact bound)))
    | faulted _ fault forced => exact .inr (.inr (.inr (awaited.doomed acts fault forced)))
  · have stillRunning : mid.isExiting = false := by rw [midEq]; exact running
    obtain terminated | ⟨exitFree, -⟩ := acts.dispatched.exiting stillRunning
    · exact .inl terminated
    · obtain ⟨ready, unmasked⟩ := acts.unmasked awaited.ready same awaited.unmasked
      obtain kept | ⟨rfl, reset⟩ := acts.dispatched.handlers x
      · have handles : t'.Handles x := by
          rw [Handles, kept, acts.handlers]
          exact awaited.handles
        exact .inr (.inr (.inl ⟨awaited.standard, ready, handles, unmasked,
          awaited.caught.step acts (acts.rank_lt awaited.ready same) exitFree⟩))
      · exact .inr (.inr (.inr ⟨ready, by rw [reset]; rfl, rfl, unmasked⟩))

/-! ## The theorem -/

inductive Cause where
  | verdict (refusal : Seccomp.Verdict) (nr : ℤ) (ip : BitVec 64)
  | exception (info : ExceptionInfo)

def Cause.apply (t : Task) : Cause → Except Panic Task
  | verdict refusal nr ip => (t.applySeccompVerdict refusal nr ip).map (·.2)
  | exception info => t.handleExceptionRequest info

/-- What a cause passes to `force_signal_with_info`, when it calls it. -/
def Cause.request : Cause → Option (Signal × Bool × Siginfo)
  | verdict (.trap data) nr ip => some (.SIGSYS, false, sigsysInfo nr ip data)
  | verdict .trace nr ip | verdict .killThread nr ip | verdict .killProcess nr ip =>
    some (.SIGSYS, true, sigsysInfo nr ip 0)
  | verdict .allow _ _ | verdict .log _ _ | verdict (.errno _) _ _ => none
  | exception info =>
    some (exceptionSignal info.exception, false, siginfoException (exceptionSignal info.exception) (faultAddress info))

/-- The state in which a forced signal is sure to take effect: its push is not dropped, nothing that
runs before it masks it, and a faulting delivery of it cannot be caught. -/
structure TakesEffect (guest : ℕ → Guest) (t : Task) (s : Signal) (forceExit : Bool) (info : Siginfo) : Prop where
  kept : t.pending.Kept t.sigpendingLimit s info
  unmasked : t.Unmasked s
  caught : forceExit = false → t.blocked.contains s = false → t.Handles s → Caught guest t s

/-- Ended the process, or entered a handler of `s` unless the signal was to end it. -/
def Effective (t : Task) (before : ℕ) (s : Signal) (forceExit : Bool) : Prop :=
  t.Terminated ∨ (forceExit = false ∧ t.FramedSince before s)

/-- The signals that are forced: all of them standard and fatal by default. -/
structure Forcing (cause : Cause) (t : Task) (s : Signal) (forceExit : Bool) (info : Siginfo) (t' : Task) : Prop where
  applied : cause.apply t = .ok t'
  forced : Forced t s forceExit info t'
  standard : s.isRtSignal = false
  deadly : fatal s = true

theorem Cause.forcing {cause : Cause} (forces : cause.request = some (s, forceExit, info))
    (t : Task) : ∃ t', Forcing cause t s forceExit info t' := by
  cases cause with
  | verdict refusal nr ip =>
    have sigsys : ∀ forceExit trapId, ∃ t', t.deliverSigsys forceExit nr ip trapId = .ok t' ∧
        Forced t .SIGSYS forceExit (sigsysInfo nr ip trapId) t' :=
      fun forceExit trapId => t.forceSignalWithInfo_of_signo forceExit (by decide) rfl
    cases refusal with
    | trap data =>
      cases forces
      obtain ⟨t', delivered, forced⟩ := sigsys false data
      exact ⟨t', by rw [apply, applySeccompVerdict, delivered]; rfl, forced, rfl, rfl⟩
    | trace | killThread | killProcess =>
      cases forces
      obtain ⟨t', delivered, forced⟩ := sigsys true 0
      exact ⟨t', by rw [apply, applySeccompVerdict, delivered]; rfl, forced, rfl, rfl⟩
    | allow | log | errno => cases forces
  | exception exception =>
    cases forces
    have mem : exceptionSignal exception.exception ∈ forcible ∧
        (exceptionSignal exception.exception).isRtSignal = false ∧ fatal (exceptionSignal exception.exception) = true := by
      unfold exceptionSignal
      split
      · decide
      split
      · decide
      split <;> decide
    have signo : (siginfoException (exceptionSignal exception.exception) (faultAddress exception)).signo =
        (exceptionSignal exception.exception).asI32 := rfl
    obtain ⟨t', applied, forced⟩ :=
      { t with lastException := exception }.forceSignalWithInfo_of_signo false mem.1 signo
    exact ⟨t', applied, ⟨forced.pending, forced.sharedPending, forced.isExiting, forced.groupExit, forced.written,
      forced.regs, forced.altstack, forced.sigreturnTrampoline, forced.made⟩, mem.2.1, mem.2.2⟩

/-- Forcing `s` changes nothing about the other signals. -/
theorem Forced.runs (forced : Forced t s forceExit info t') (other : r ≠ s) :
    (t'.Runs r ↔ t.Runs r) ∧ t'.handlers r = t.handlers r := by
  have handlers : t'.handlers r = t.handlers r := by
    obtain ⟨-, handlers⟩ | ⟨-, -, -, -, handlers⟩ := forced.made
    · rw [handlers, update_of_ne other]
    · rw [handlers]
  have blocked : t'.blocked.contains r = t.blocked.contains r := by
    obtain ⟨blocked, -⟩ | ⟨-, -, -, blocked, -⟩ := forced.made
    · simp [blocked, other]
    · rw [blocked]
  have queued : t'.pending.pending.contains r = true ↔ t.pending.pending.contains r = true :=
    ⟨fun held => (contains_of_push forced.pending held).resolve_right other, contains_push forced.pending⟩
  exact ⟨by rw [Runs, Runs, Ready, Ready, Handles, Handles, queued, blocked, handlers], handlers⟩

theorem Forced.unmasked (forced : Forced t s forceExit info t') (unmasked : t.Unmasked s) : t'.Unmasked s := by
  have apart : ∀ r, rank r < rank s → r ≠ s := by
    rintro r below rfl
    exact lt_irrefl _ below
  intro r ahead
  have same := (forced.runs (apart r ahead.1)).2
  rw [same]
  refine unmasked r ⟨ahead.1, ?_⟩
  obtain runs | ⟨segv, handles, q, below, runs⟩ := ahead.2
  · exact .inl ((forced.runs (apart r ahead.1)).1.mp runs)
  · exact .inr ⟨segv, by rwa [Handles, same] at handles, q, below, (forced.runs (apart q below)).1.mp runs⟩

theorem Forced.caught (forced : Forced t s forceExit info t')
    (blocked : t'.blocked = t.blocked) (handlers : t'.handlers = t.handlers) (caught : Caught guests t s) :
    Caught guests t' s := by
  cases caught with
  | segv same => exact .segv same
  | fatal uncaught open_ =>
    refine .fatal (by rwa [Handles, handlers, blocked]) fun r above below runs => ?_
    rw [handlers]
    exact open_ r above below ((forced.runs (by rintro rfl; exact lt_irrefl _ above)).1.mp runs)
  | fits alone room =>
    refine .fits (fun r below runs => ?_) fun i => ?_
    · exact alone r below ((forced.runs (by rintro rfl; exact lt_irrefl _ below)).1.mp runs)
    · exact (room i).congr forced.altstack forced.regs handlers forced.sigreturnTrampoline

/-- Where the loop stands: the signal has taken effect or is bound to. -/
structure Pursues (guest : ℕ → Guest) (before : ℕ) (s : Signal) (forceExit : Bool) (t : Task) : Prop where
  together : t.ExitsTogether
  bound : before ≤ t.written.length
  progress : t.Effective before s forceExit ∨ t.Doomed s ∨ (forceExit = false ∧ (Awaited guest t s ∨ t.Doomed .SIGSEGV))

theorem Pursues.step (pursues : Pursues guests before x forceExit t) (iterates : Iterates (guests i) t (.again t')) :
    Pursues guests before x forceExit t' := by
  refine ⟨iterates.exitsTogether, pursues.bound.trans iterates.written.length_le, ?_⟩
  obtain (terminated | ⟨optional, framed⟩) | doomed | ⟨optional, awaited | doomed⟩ := pursues.progress
  · exact (iterates.terminated terminated).elim
  · exact .inl (.inr ⟨optional, framed.of_prefix iterates.written⟩)
  · obtain terminated | doomed := doomed.step iterates
    · exact .inl (.inl terminated)
    · exact .inr (.inl doomed)
  · obtain terminated | framed | awaited | doomed := awaited.step pursues.bound iterates
    · exact .inl (.inl terminated)
    · exact .inl (.inr ⟨optional, framed⟩)
    · exact .inr (.inr ⟨optional, .inl awaited⟩)
    · exact .inr (.inr ⟨optional, .inr doomed⟩)
  · obtain terminated | doomed := doomed.step iterates
    · exact .inl (.inl terminated)
    · exact .inr (.inr ⟨optional, .inr doomed⟩)

theorem Pursues.leave (pursues : Pursues guests before x forceExit t) (iterates : Iterates (guests i) t (.leave t')) :
    t'.Effective before x forceExit := by
  obtain (terminated | ⟨optional, framed⟩) | doomed | ⟨optional, awaited | doomed⟩ := pursues.progress
  · exact .inl (iterates.leave_terminated terminated)
  · exact .inr ⟨optional, framed.of_prefix (iterates.leave_written ▸ prefix_rfl)⟩
  · exact .inl (iterates.leave_of_ready doomed.ready pursues.together)
  · exact .inl (iterates.leave_of_ready awaited.ready pursues.together)
  · exact .inl (iterates.leave_of_ready doomed.ready pursues.together)

/-- Forcing a signal under the condition starts the pursuit. -/
theorem TakesEffect.pursues (condition : TakesEffect guests t s forceExit info)
    (together : t.ExitsTogether) (forced : Forced t s forceExit info t') (standard : s.isRtSignal = false)
    (deadly : fatal s = true) : Pursues guests t.written.length s forceExit t' := by
  have queued := contains_push_self forced.pending condition.kept
  have unmasked := forced.unmasked condition.unmasked
  refine ⟨?_, by rw [forced.written], ?_⟩
  · rw [ExitsTogether, forced.isExiting, forced.groupExit]
    exact together
  · obtain ⟨blocked, handlers⟩ | ⟨optional, free, seen, blocked, handlers⟩ := forced.made
    · exact .inr (.inl ⟨⟨queued, by simp [blocked]⟩, by simp [handlers, SigAction.default], deadly, unmasked⟩)
    · have ready : t'.Ready s := ⟨queued, by rw [blocked]; exact free⟩
      by_cases default : (t.handlers s).action.sigaction = sigDfl
      · exact .inr (.inl ⟨ready, by rw [handlers]; exact default, deadly, unmasked⟩)
      · have handles : t.Handles s := ⟨default, seen⟩
        refine .inr (.inr ⟨optional, .inl ⟨standard, ready, by rw [Handles, handlers]; exact handles, unmasked, ?_⟩⟩)
        exact forced.caught blocked handlers (condition.caught optional free handles)

/-- Mail only reaches the queue of the process. -/
theorem xprocDrainOwn_eq (arrived : List Signal) (t : Task) :
    ∃ q, t.xprocDrainOwn arrived = .ok { t with sharedPending := q } ∧
      ∀ r, t.sharedPending.pending.contains r = true → q.pending.contains r = true := by
  induction arrived generalizing t with
  | nil => exact ⟨t.sharedPending, rfl, fun _ => id⟩
  | cons s arrived ih =>
    obtain ⟨q, pushed⟩ := t.sharedPending.push_of_signo t.sigpendingLimit (show (siginfoKill s).signo = s.asI32 from rfl)
    obtain ⟨q', drained, grows⟩ := ih { t with sharedPending := q }
    refine ⟨q', ?_, fun r held => grows r (contains_push pushed held)⟩
    simp only [xprocDrainOwn, foldlM_cons, pushShared, pushed, Except.map, bind, Except.bind] at drained ⊢
    exact drained

theorem Pursues.of_shared (pursues : Pursues guests before x forceExit t) (q : PendingSignals) :
    Pursues guests before x forceExit { t with sharedPending := q } := by
  have doomed : ∀ s, t.Doomed s → Doomed { t with sharedPending := q } s :=
    fun s doomed => ⟨doomed.ready, doomed.default, doomed.deadly, doomed.unmasked⟩
  refine ⟨pursues.together, pursues.bound, pursues.progress.imp id (.imp (doomed x) (.imp id (.imp ?_ (doomed _))))⟩
  intro awaited
  refine ⟨awaited.standard, awaited.ready, awaited.handles, awaited.unmasked, ?_⟩
  cases awaited.caught with
  | segv same => exact .segv same
  | fatal uncaught open_ => exact .fatal uncaught open_
  | fits alone room => exact .fits alone fun i => (room i).congr rfl rfl rfl rfl

/-- A guest whose memory takes every frame. -/
def roomy : Guest := ⟨some 0x7000, none, fun _ => true⟩

/-- `SIGUSR1` is pending, and its handler masks every signal. -/
def maskedTask : Task :=
  { newProcess 62719 .zeroed with
    pending := PendingSignals.new.enqueue .SIGUSR1 (siginfoKill .SIGUSR1) rfl fun _ => rfl
    handlers := update newHandlers .SIGUSR1 ⟨⟨0x400000, 0, 0, ⟨BitVec.allOnes 64⟩⟩, false⟩ }

end Task

end LiteBox.Signals
