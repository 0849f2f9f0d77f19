import LiteBox.Lib.Run
import LiteBox.Signals.Calls

/-! # Blocking `SIGKILL` and `SIGSTOP`

A thread's signal state over any sequence of calls, deliveries and arriving signals. The masks the
guest supplies are stored as they come, so a thread can block `SIGKILL`; while no supplied mask names
`SIGKILL` or `SIGSTOP`, neither is ever blocked and a pending `SIGKILL` ends the process.
-/

namespace LiteBox.Signals

open PendingSignals Function Option

/-- A thread: its task, and the masks that the calls it waits in will restore. -/
structure Thread where
  task : Task
  saved : List SigSet

inductive Event where
  | sigprocmask (how : SigmaskHow) (setPtr : Option (Option SigSet)) (oldsetPtr : Option Bool) (size : ℕ)
  | enterSigsuspend (maskPtr : Option (Option SigSet)) (size : ℕ)
  | leaveSigsuspend (guest : ℕ → Guest) (arrived : List Signal)
  /-- `ppoll`, `pselect` and `epoll_pwait` with a mask. -/
  | enterTemporaryMask (mask : SigSet)
  | leaveTemporaryMask
  | processSignals (guest : ℕ → Guest) (arrived : List Signal)
  | hasPendingSignals (arrived : List Signal)
  | sigreturn (uctx : Option Ucontext)
  | sigaction (s : Signal) (actPtr : Option (Option SigAction)) (oldactPtr : Option Bool) (size : ℕ)
  | sigaltstack (ssPtr : Option (Option SigAltStack)) (oldSsPtr : Option Bool)
  | send (s : Signal)
  | sendShared (s : Signal)
  | forced (cause : Task.Cause)
  | setSigpendingLimit (limit : ℕ)
  | clone (newProcess : Bool)
  | exec

namespace Task

/-- The task after a computation that does not fail. -/
def after (t : Task) (result : Except Panic Task) : Task := result.toOption.getD t

/-- `process_signals` with as many iterations as it needs. -/
def processed (guest : ℕ → Guest) (arrived : List Signal) (t : Task) : Task :=
  let fuel := ((t.xprocDrainOwn arrived).toOption.map work).getD 0 + 1
  t.after ((processSignals guest arrived fuel t).getD (.ok t))

def polled (arrived : List Signal) (t : Task) : Task :=
  let fuel := ((t.xprocDrainOwn arrived).toOption.map fun t => queued (t, false)).getD 0 + 1
  ((hasPendingSignals arrived fuel t).bind Except.toOption).elim t (·.1)

end Task

open Task

/-- The mask in place is saved and replaced. -/
def Thread.enter (thread : Thread) (mask : SigSet) : Thread :=
  ⟨thread.task.setSignalMask mask, thread.task.blocked :: thread.saved⟩

/-- The mask saved last is restored. -/
def Thread.restore (thread : Thread) : Thread :=
  match thread.saved with
  | [] => thread
  | mask :: saved => ⟨thread.task.setSignalMask mask, saved⟩

def Thread.withTask (thread : Thread) (task : Task) : Thread := { thread with task }

def stepEvent (thread : Thread) : Event → Thread
  | .sigprocmask how setPtr oldsetPtr size =>
    thread.withTask (thread.task.sysRtSigprocmask how setPtr oldsetPtr size).task
  | .enterSigsuspend maskPtr size =>
    match suspendMask maskPtr size with
    | .ok mask => thread.enter mask
    | .error _ => thread
  | .leaveSigsuspend guest arrived => (thread.withTask (thread.task.processed guest arrived)).restore
  | .enterTemporaryMask mask => thread.enter mask
  | .leaveTemporaryMask => thread.restore
  | .processSignals guest arrived => thread.withTask (thread.task.processed guest arrived)
  | .hasPendingSignals arrived => thread.withTask (thread.task.polled arrived)
  | .sigreturn uctx => thread.withTask (thread.task.after ((thread.task.sysRtSigreturn uctx).map Reply.task))
  | .sigaction s actPtr oldactPtr size =>
    thread.withTask (thread.task.sysRtSigaction s actPtr oldactPtr size).task
  | .sigaltstack ssPtr oldSsPtr => thread.withTask (thread.task.sysSigaltstack ssPtr oldSsPtr).task
  | .send s => thread.withTask (thread.task.after (thread.task.sendSignal s (siginfoKill s)))
  | .sendShared s => thread.withTask (thread.task.after (thread.task.sendSharedSignal s (siginfoKill s)))
  | .forced cause => thread.withTask (thread.task.after (cause.apply thread.task))
  | .setSigpendingLimit limit => thread.withTask { thread.task with sigpendingLimit := limit }
  | .clone newProcess => thread.withTask (thread.task.cloneForNewTask newProcess)
  | .exec => thread.withTask thread.task.resetForExec

def Thread.start (limit : ℕ) (regs : PtRegs) : Thread := ⟨newProcess limit regs, []⟩

/-! ## The condition and the property -/

/-- A set without the two signals that may not be blocked. -/
def SigSet.Open (set : SigSet) : Prop := set.contains .SIGKILL = false ∧ set.contains .SIGSTOP = false

/-- The guest does not ask to block `SIGKILL` or `SIGSTOP`. -/
def AsksOpen : Event → Prop
  | .sigprocmask how setPtr _ _ => how ≠ .SIG_UNBLOCK → ∀ set, setPtr = some (some set) → set.Open
  | .enterSigsuspend maskPtr _ => ∀ mask, maskPtr = some (some mask) → mask.Open
  | .enterTemporaryMask mask => mask.Open
  | .sigreturn uctx => ∀ context, uctx = some context → context.sigmask.Open
  | .sigaction _ actPtr _ _ => ∀ act, actPtr = some (some act) → act.mask.Open
  | _ => True

def KillPending (t : Task) : Prop :=
  t.pending.pending.contains .SIGKILL = true ∨ t.sharedPending.pending.contains .SIGKILL = true

/-- The pending `SIGKILL` of `t` is gone in `t'`: the task's own, or else the process's. -/
def KillTaken (t t' : Task) : Prop :=
  (t.pending.pending.contains .SIGKILL = true → t'.pending.pending.contains .SIGKILL = false) ∧
    (t.pending.pending.contains .SIGKILL = false → t'.sharedPending.pending.contains .SIGKILL = false)

/-- Neither signal is blocked, and with `SIGKILL` pending the next `process_signals` ends the process:
the `SIGKILL` leaves its queue, unless another signal ended the process before it. -/
structure Unblockable (t : Task) : Prop where
  unblocked : t.blocked.Open
  killed : KillPending t → ∀ (guest : ℕ → Guest) (arrived : List Signal), ∃ bound, ∀ fuel, bound ≤ fuel →
    ∃ t', processSignals guest arrived fuel t = some (.ok t') ∧ t'.Terminated ∧
      (t.isExiting = false → t'.groupExit = some (.signal .SIGKILL) → KillTaken t t')

/-! ## The invariant -/

structure Sound (t : Task) : Prop where
  blocked : t.blocked.Open
  masks : ∀ r, (t.handlers r).action.mask.Open
  kill : (t.handlers .SIGKILL).action.sigaction = sigDfl
  stop : (t.handlers .SIGSTOP).action.sigaction = sigDfl
  together : t.isExiting = t.groupExit.isSome

structure SoundThread (thread : Thread) : Prop where
  task : Sound thread.task
  saved : ∀ mask ∈ thread.saved, mask.Open

namespace SigSet.Open

theorem empty : SigSet.empty.Open := ⟨rfl, rfl⟩

variable {a : SigSet}

theorem or {b : SigSet} (left : a.Open) (right : b.Open) : (a ||| b).Open := by
  simp [SigSet.Open, left.1, left.2, right.1, right.2]

theorem and (left : a.Open) (b : SigSet) : (a &&& b).Open := by
  simp [SigSet.Open, left.1, left.2]

theorem remove (left : a.Open) (s : Signal) : (a.remove s).Open := by
  simp [SigSet.Open, left.1, left.2]

theorem handlerMask {s : Signal} {action : SigAction} (left : a.Open) (mask : action.mask.Open)
    (notKill : s ≠ .SIGKILL) (notStop : s ≠ .SIGSTOP) : (handlerMask a s action).Open :=
  ⟨contains_handlerMask notKill.symm left.1 mask.1, contains_handlerMask notStop.symm left.2 mask.2⟩

end SigSet.Open

variable {t t' : Task} {s : Signal} {info : Siginfo} {guest : Guest} {thread : Thread}

section

variable (sound : Sound t)

include sound

theorem Sound.congr (same : SameSignals t t') : Sound t' where
  blocked := same.blocked ▸ sound.blocked
  masks := same.handlers ▸ sound.masks
  kill := same.handlers ▸ sound.kill
  stop := same.handlers ▸ sound.stop
  together := by rw [same.isExiting, same.groupExit]; exact sound.together

theorem Sound.exitsTogether : t.ExitsTogether :=
  fun exiting => sound.together ▸ exiting

theorem Sound.exitGroup (status : ExitStatus) : Sound (t.exitGroup status) := by
  unfold Task.exitGroup
  split
  · exact sound
  · exact ⟨sound.blocked, sound.masks, sound.kill, sound.stop, by cases t.groupExit <;> rfl⟩

theorem Sound.forced {forceExit : Bool} (forced : Forced t s forceExit info t') : Sound t' := by
  have together : t'.isExiting = t'.groupExit.isSome := by
    rw [forced.isExiting, forced.groupExit]
    exact sound.together
  obtain ⟨blocked, handlers⟩ | ⟨-, -, -, blocked, handlers⟩ := forced.made
  · have keep : ∀ r, t'.handlers r = t.handlers r ∨ t'.handlers r = ⟨.default, true⟩ := by
      intro r
      by_cases same : r = s
      · exact .inr (by rw [handlers, same, update_self])
      · exact .inl (by rw [handlers, update_of_ne same])
    refine ⟨blocked ▸ sound.blocked.remove s, fun r => ?_, ?_, ?_, together⟩
    · obtain same | reset := keep r
      · exact same ▸ sound.masks r
      · exact reset ▸ SigSet.Open.empty
    · obtain same | reset := keep .SIGKILL
      · exact same ▸ sound.kill
      · exact reset ▸ rfl
    · obtain same | reset := keep .SIGSTOP
      · exact same ▸ sound.stop
      · exact reset ▸ rfl
  · exact ⟨blocked ▸ sound.blocked, handlers ▸ sound.masks, handlers ▸ sound.kill, handlers ▸ sound.stop, together⟩

theorem Sound.took {mid : Task} (took : Took t s info mid) : Sound mid := by
  cases took <;> exact ⟨sound.blocked, sound.masks, sound.kill, sound.stop, sound.together⟩

theorem Sound.dispatched (dispatched : Dispatched t guest s info t') : Sound t' := by
  cases dispatched with
  | killed => exact sound.exitGroup _
  | dropped => exact sound
  | entered handles delivered =>
    have notKill : s ≠ .SIGKILL := by rintro rfl; exact handles.1 sound.kill
    have notStop : s ≠ .SIGSTOP := by rintro rfl; exact handles.1 sound.stop
    refine ⟨?_, delivered.handlers ▸ sound.masks, delivered.handlers ▸ sound.kill, delivered.handlers ▸ sound.stop, ?_⟩
    · rw [delivered.blocked]
      exact sound.blocked.handlerMask (sound.masks s) notKill notStop
    · rw [delivered.isExiting, delivered.groupExit]
      exact sound.together
  | faulted _ _ forced =>
    have ensured : Sound (t.ensureSigreturnTrampoline guest) := sound.congr ⟨rfl, rfl, rfl, rfl⟩
    exact ensured.forced forced

theorem Sound.again (iterates : Iterates guest t (.again t')) : Sound t' := by
  cases iterates with
  | handled took _ dispatched => exact (sound.took took).dispatched dispatched

theorem Sound.leave (iterates : Iterates guest t (.leave t')) : Sound t' := by
  cases iterates with
  | idle => exact sound
  | stopped took _ => exact sound.took took

end

/-! ## A pending `SIGKILL` under the invariant -/

section Loop

variable {guest : Guest} {t mid t' : Task} {s r : Signal} {info : Siginfo}

theorem Task.Took.others (took : Took t s info mid) (other : r ≠ s) :
    mid.pending.pending.contains r = t.pending.pending.contains r ∧
      mid.sharedPending.pending.contains r = t.sharedPending.pending.contains r := by
  cases took with
  | own rest leaves => exact ⟨leaves.others r other, rfl⟩
  | shared rest leaves => exact ⟨rfl, leaves.others r other⟩

theorem Task.Dispatched.queues (dispatched : Dispatched t guest s info t') (other : r ≠ .SIGSEGV) :
    t'.pending.pending.contains r = t.pending.pending.contains r ∧ t'.sharedPending = t.sharedPending := by
  cases dispatched with
  | killed =>
    obtain ⟨exiting, code, eq⟩ := t.exitGroup_eq (.signal s)
    exact ⟨by rw [eq], by rw [eq]⟩
  | dropped => exact ⟨rfl, rfl⟩
  | entered _ delivered => exact ⟨by rw [delivered.pending], delivered.sharedPending⟩
  | faulted _ _ forced =>
    have back : t'.pending.pending.contains r = true → t.pending.pending.contains r = true :=
      fun held => (contains_of_push forced.pending held).resolve_right other
    have forth : t.pending.pending.contains r = true → t'.pending.pending.contains r = true :=
      fun held => contains_push forced.pending held
    exact ⟨Bool.eq_iff_iff.mpr ⟨back, forth⟩, forced.sharedPending⟩

/-- A task of a process that has not been told to exit, with `SIGKILL` where it was at the start. -/
structure Waits (start t : Task) : Prop where
  running : t.isExiting = false
  own : t.pending.pending.contains .SIGKILL = start.pending.pending.contains .SIGKILL
  shared : start.pending.pending.contains .SIGKILL = false → t.sharedPending.pending.contains .SIGKILL = true

/-- The process has ended, by `SIGKILL` only if that was taken. -/
structure Ended (start t : Task) : Prop where
  terminated : t.Terminated
  taken : t.groupExit = some (.signal .SIGKILL) → KillTaken start t

theorem Sound.running_groupExit (sound : Sound t) (running : t.isExiting = false) : t.groupExit = none := by
  have same := sound.together
  rw [running] at same
  exact isSome_eq_false_iff.mp same.symm |> isNone_iff_eq_none.mp

variable {start : Task}

/-- Taking `SIGKILL` ends the process; taking another signal leaves `SIGKILL` or ends it too. -/
theorem Waits.step (waits : Waits start t) (sound : Sound t)
    (iterates : Iterates guest t (.again t')) : Waits start t' ∨ Ended start t' := by
  cases iterates with
  | @handled s info mid _ took running dispatched =>
    have still : mid.isExiting = false := took.isExiting.trans running
    have none : mid.groupExit = none := (sound.took took).running_groupExit still
    obtain ⟨own, shared⟩ := dispatched.queues (show Signal.SIGKILL ≠ .SIGSEGV by decide)
    by_cases kill : s = .SIGKILL
    · subst kill
      have default := (sound.took took).kill
      cases dispatched with
      | killed =>
        have dead : (mid.exitGroup (.signal .SIGKILL)).Terminated :=
          mid.terminated_exitGroup _ (sound.took took).exitsTogether
        refine .inr ⟨dead, fun _ => ?_⟩
        rw [KillTaken, own, shared]
        cases took with
        | own rest leaves =>
          refine ⟨fun _ => leaves.gone rfl, fun absent => ?_⟩
          have held := leaves.held
          rw [waits.own, absent] at held
          cases held
        | shared rest leaves free quiet =>
          refine ⟨fun held => ?_, fun _ => leaves.gone rfl⟩
          exact absurd ⟨waits.own.trans held, free⟩ (quiet .SIGKILL)
      | dropped _ survived => exact absurd (survived default) (by decide)
      | entered handles | faulted handles => exact absurd default handles.1
    · obtain ⟨midOwn, midShared⟩ := took.others (show Signal.SIGKILL ≠ s from fun same => kill same.symm)
      obtain dead | ⟨alive, -⟩ := dispatched.exiting still
      · refine .inr ⟨dead, fun byKill => ?_⟩
        cases dispatched with
        | killed =>
          simp only [exitGroup, still, none, Bool.false_eq_true, if_false, none_or, some.injEq, ExitStatus.signal.injEq] at byKill
          exact absurd byKill kill
        | dropped => rw [none] at byKill; cases byKill
        | entered _ delivered => rw [delivered.groupExit, none] at byKill; cases byKill
        | faulted _ _ forced => rw [forced.groupExit] at byKill; rw [show mid.groupExit = _ from byKill] at none; cases none
      · refine .inl ⟨alive, own.trans (midOwn.trans waits.own), fun absent => ?_⟩
        rw [shared, midShared]
        exact waits.shared absent

theorem Waits.leave (waits : Waits start t) (sound : Sound t) (iterates : Iterates guest t (.leave t')) : False := by
  cases iterates with
  | idle quiet sharedQuiet =>
    cases own : start.pending.pending.contains .SIGKILL with
    | true => exact quiet .SIGKILL ⟨waits.own.trans own, sound.blocked.1⟩
    | false =>
      have held := sharedQuiet .SIGKILL (waits.shared own)
      rw [sound.blocked.1] at held
      cases held
  | stopped _ exiting => rw [waits.running] at exiting; cases exiting

theorem Task.Leaves.contains {p rest : PendingSignals} (leaves : Leaves p s info rest)
    (absent : p.pending.contains r = false) : rest.pending.contains r = false := by
  have other : r ≠ s := by
    rintro rfl
    rw [leaves.held] at absent
    cases absent
  exact (leaves.others r other).trans absent

theorem Ended.leave (ended : Ended start t) (iterates : Iterates guest t (.leave t')) : Ended start t' := by
  refine ⟨iterates.leave_terminated ended.terminated, fun byKill => ?_⟩
  cases iterates with
  | idle => exact ended.taken byKill
  | stopped took _ =>
    obtain ⟨-, status, -⟩ := took.exit
    obtain ⟨own, shared⟩ := ended.taken (status ▸ byKill)
    cases took with
    | own rest leaves => exact ⟨fun held => leaves.contains (own held), shared⟩
    | shared rest leaves => exact ⟨own, fun absent => leaves.contains (shared absent)⟩

end Loop

theorem Sound.unblockable (sound : Sound t) : Unblockable t := by
  refine ⟨sound.blocked, fun pending guest arrived => ?_⟩
  obtain ⟨q, drained, grows⟩ := xprocDrainOwn_eq arrived t
  have begun : Sound { t with sharedPending := q } := sound.congr ⟨rfl, rfl, rfl, rfl⟩
  refine ⟨work { t with sharedPending := q } + 1, fun fuel enough => ?_⟩
  simp only [processSignals, drained]
  by_cases exiting : t.isExiting = true
  · have dead : Terminated { t with sharedPending := q } := ⟨exiting, sound.exitsTogether exiting⟩
    obtain ⟨t', result, terminated⟩ := loop_reaches guest Terminated Terminated dead
      (fun _ _ _ dead iterates => (iterates.terminated dead).elim)
      (fun _ _ _ dead iterates => iterates.leave_terminated dead) enough
    exact ⟨t', result, terminated, fun running => by rw [running] at exiting; cases exiting⟩
  · have start : Waits t { t with sharedPending := q } := by
      refine ⟨by simpa using exiting, rfl, fun absent => ?_⟩
      exact grows .SIGKILL (pending.resolve_left (by rw [absent]; simp))
    obtain ⟨t', result, ended⟩ := loop_reaches guest (fun now => Sound now ∧ (Waits t now ∨ Ended t now)) (Ended t)
      ⟨begun, .inl start⟩
      (fun _ _ _ inv iterates => ⟨inv.1.again iterates, inv.2.elim (fun waits => waits.step inv.1 iterates)
        fun ended => (iterates.terminated ended.terminated).elim⟩)
      (fun _ _ _ inv iterates => inv.2.elim (fun waits => (waits.leave inv.1 iterates).elim)
        fun ended => ended.leave iterates) enough
    exact ⟨t', result, ended.terminated, fun _ => ended.taken⟩

/-! ## Every event keeps the invariant -/

theorem Sound.processed (sound : Sound t) (guest : ℕ → Guest) (arrived : List Signal) : Sound (t.processed guest arrived) := by
  obtain ⟨q, drained, -⟩ := xprocDrainOwn_eq arrived t
  have begun : Sound { t with sharedPending := q } := sound.congr ⟨rfl, rfl, rfl, rfl⟩
  obtain ⟨t', result, kept⟩ := loop_reaches guest Sound Sound begun (fun _ _ _ inv => inv.again)
    (fun _ _ _ inv => inv.leave) (Nat.lt_succ_self _)
  simp only [Task.processed, processSignals, drained, Except.toOption, Option.map_some, Option.getD_some, result, after]
  exact kept

theorem Sound.polled (sound : Sound t) (arrived : List Signal) : Sound (t.polled arrived) := by
  obtain ⟨q, drained, -⟩ := xprocDrainOwn_eq arrived t
  have begun : Sound { t with sharedPending := q } := sound.congr ⟨rfl, rfl, rfl, rfl⟩
  obtain ⟨⟨t', found⟩, result, same⟩ := (pendingOnce_descends { t with sharedPending := q }).reaches
    (show SameSignals _ ({ t with sharedPending := q }, false).1 from .refl _) (Nat.lt_succ_self _)
  simp only [Task.polled, hasPendingSignals, drained, Except.toOption, Option.map_some, Option.getD_some, result,
    bind_some, elim_some]
  exact begun.congr same

theorem Sound.changeMask {set : SigSet} (sound : Sound t) (how : SigmaskHow)
    (asked : how ≠ .SIG_UNBLOCK → set.Open) : (changeMask t.blocked how set).Open := by
  cases how with
  | SIG_BLOCK => exact sound.blocked.or (asked (by decide))
  | SIG_UNBLOCK => exact sound.blocked.and _
  | SIG_SETMASK => exact asked (by decide)

variable {mask : SigSet}

theorem Sound.setSignalMask (sound : Sound t) (allowed : mask.Open) : Sound (t.setSignalMask mask) :=
  ⟨allowed, sound.masks, sound.kill, sound.stop, sound.together⟩

variable {size : ℕ}

theorem Sound.sysRtSigprocmask {setPtr : Option (Option SigSet)} {oldsetPtr : Option Bool}
    (sound : Sound t) (how : SigmaskHow) (asked : how ≠ .SIG_UNBLOCK → ∀ set, setPtr = some (some set) → set.Open) :
    Sound (t.sysRtSigprocmask how setPtr oldsetPtr size).task := by
  unfold Task.sysRtSigprocmask
  split
  · exact sound
  split
  · exact sound
  split
  · exact sound
  split
  · next set joined =>
    exact sound.setSignalMask (sound.changeMask how fun adds => asked adds set (join_eq_some_iff.mp joined))
  · exact sound

theorem sameSignals_setSigaltstack (t : Task) (ss : SigAltStack) : SameSignals t (t.setSigaltstack ss).task := by
  unfold setSigaltstack
  split
  · exact .refl t
  split
  · exact ⟨rfl, rfl, rfl, rfl⟩
  split
  · exact .refl t
  split
  · exact .refl t
  · exact ⟨rfl, rfl, rfl, rfl⟩

theorem sameSignals_sysSigaltstack (t : Task) (ssPtr : Option (Option SigAltStack)) (oldSsPtr : Option Bool) :
    SameSignals t (t.sysSigaltstack ssPtr oldSsPtr).task := by
  unfold sysSigaltstack
  split
  · exact .refl t
  split
  · exact .refl t
  split
  · exact .refl t
  split
  · exact .refl t
  · exact sameSignals_setSigaltstack t _

theorem Sound.sysRtSigreturn {uctx : Option Ucontext} (sound : Sound t)
    (asked : ∀ context, uctx = some context → context.sigmask.Open) :
    Sound (t.after ((t.sysRtSigreturn uctx).map Reply.task)) := by
  cases uctx with
  | none =>
    obtain ⟨t', forcing, forced⟩ := t.forceSignal_segv false
    simp only [Task.sysRtSigreturn, forcing, after]
    exact sound.forced forced
  | some context =>
    have stacked := sound.congr (sameSignals_setSigaltstack t context.stack)
    simp only [Task.sysRtSigreturn]
    split
    · obtain ⟨t', forcing, forced⟩ := (t.setSigaltstack context.stack).task.forceSignal_segv false
      simp only [forcing, after]
      exact stacked.forced forced
    · exact ⟨asked context rfl, stacked.masks, stacked.kill, stacked.stop, stacked.together⟩

theorem Sound.install {act : SigAction} (sound : Sound t) (notKill : s ≠ .SIGKILL)
    (notStop : s ≠ .SIGSTOP) (allowed : act.mask.Open) :
    Sound { t with handlers := update t.handlers s { t.handlers s with action := act } } := by
  refine ⟨sound.blocked, fun r => ?_, ?_, ?_, sound.together⟩
  · by_cases same : r = s
    · simpa [same] using allowed
    · simpa [update_of_ne same] using sound.masks r
  · simpa [update_of_ne notKill.symm] using sound.kill
  · simpa [update_of_ne notStop.symm] using sound.stop

theorem Sound.sysRtSigaction {actPtr : Option (Option SigAction)} {oldactPtr : Option Bool} (sound : Sound t)
    (asked : ∀ act, actPtr = some (some act) → act.mask.Open) :
    Sound (t.sysRtSigaction s actPtr oldactPtr size).task := by
  unfold Task.sysRtSigaction
  split
  · exact sound
  next handled =>
  split
  · exact sound
  split
  · exact sound
  split
  · exact sound
  simp only
  cases joined : actPtr.join with
  | none => split <;> exact sound
  | some act =>
    have installed := sound.install (fun kill => handled (.inl kill)) (fun stop => handled (.inr stop))
      (asked act (join_eq_some_iff.mp joined))
    split <;> exact installed

theorem sameSignals_sendSignal (t : Task) (s : Signal) : SameSignals t (t.after (t.sendSignal s (siginfoKill s))) := by
  unfold sendSignal
  split
  · exact .refl t
  · obtain ⟨q, pushed⟩ := t.pending.push_of_signo t.sigpendingLimit (show (siginfoKill s).signo = s.asI32 from rfl)
    rw [pushed]
    exact ⟨rfl, rfl, rfl, rfl⟩

theorem sameSignals_sendSharedSignal (t : Task) (s : Signal) :
    SameSignals t (t.after (t.sendSharedSignal s (siginfoKill s))) := by
  unfold sendSharedSignal
  split
  · exact .refl t
  · obtain ⟨q, pushed⟩ :=
      t.sharedPending.push_of_signo t.sigpendingLimit (show (siginfoKill s).signo = s.asI32 from rfl)
    rw [pushed]
    exact ⟨rfl, rfl, rfl, rfl⟩

theorem Sound.cause (sound : Sound t) (cause : Cause) : Sound (t.after (cause.apply t)) := by
  cases request : cause.request with
  | some call =>
    obtain ⟨s, forceExit, info⟩ := call
    obtain ⟨t', applied, forced, -, -⟩ := Cause.forcing request t
    rw [applied]
    exact sound.forced forced
  | none =>
    cases cause with
    | exception info => cases request
    | verdict refusal nr ip =>
      cases refusal with
      | allow | log | errno => exact sound
      | trap | trace | killThread | killProcess => cases request

theorem Sound.resetForExec (sound : Sound t) : Sound t.resetForExec := by
  have default : ∀ r, (t.handlers r).action.sigaction = sigDfl →
      (t.resetForExec.handlers r).action.sigaction = sigDfl := by
    intro r same
    have notIgnored : sigDfl ≠ sigIgn := by decide
    simp [Task.resetForExec, resetHandlersToDefault, clearSigaltstack, same, notIgnored]
  exact ⟨sound.blocked, fun r => SigSet.Open.empty, default _ sound.kill, default _ sound.stop, sound.together⟩

theorem SoundThread.withTask (sound : SoundThread thread) (task : Sound t) : SoundThread (thread.withTask t) :=
  ⟨task, sound.saved⟩

theorem SoundThread.enter (sound : SoundThread thread) (allowed : mask.Open) :
    SoundThread (thread.enter mask) := by
  refine ⟨sound.task.setSignalMask allowed, fun saved member => ?_⟩
  obtain rfl | member := List.mem_cons.mp member
  · exact sound.task.blocked
  · exact sound.saved saved member

theorem SoundThread.restore (sound : SoundThread thread) : SoundThread thread.restore := by
  unfold Thread.restore
  split
  · exact sound
  · next mask saved eq =>
    have allowed := sound.saved
    rw [eq] at allowed
    exact ⟨sound.task.setSignalMask (allowed mask List.mem_cons_self), fun m member =>
      allowed m (List.mem_cons_of_mem _ member)⟩

theorem SoundThread.step {event : Event} (sound : SoundThread thread) (asked : AsksOpen event) :
    SoundThread (stepEvent thread event) := by
  cases event with
  | sigprocmask how setPtr oldsetPtr size => exact sound.withTask (sound.task.sysRtSigprocmask how asked)
  | enterSigsuspend maskPtr size =>
    simp only [stepEvent, suspendMask]
    split
    · next mask result =>
      split at result
      · cases result
      split at result
      · cases result
        exact sound.enter (asked mask rfl)
      · cases result
    · exact sound
  | leaveSigsuspend guest arrived => exact (sound.withTask (sound.task.processed guest arrived)).restore
  | enterTemporaryMask mask => exact sound.enter asked
  | leaveTemporaryMask => exact sound.restore
  | processSignals guest arrived => exact sound.withTask (sound.task.processed guest arrived)
  | hasPendingSignals arrived => exact sound.withTask (sound.task.polled arrived)
  | sigreturn uctx => exact sound.withTask (sound.task.sysRtSigreturn asked)
  | sigaction s actPtr oldactPtr size => exact sound.withTask (sound.task.sysRtSigaction asked)
  | sigaltstack ssPtr oldSsPtr =>
    exact sound.withTask (sound.task.congr (sameSignals_sysSigaltstack thread.task ssPtr oldSsPtr))
  | send s => exact sound.withTask (sound.task.congr (sameSignals_sendSignal thread.task s))
  | sendShared s => exact sound.withTask (sound.task.congr (sameSignals_sendSharedSignal thread.task s))
  | forced cause => exact sound.withTask (sound.task.cause cause)
  | setSigpendingLimit | clone => exact sound.withTask (sound.task.congr ⟨rfl, rfl, rfl, rfl⟩)
  | exec => exact sound.withTask sound.task.resetForExec

/-- While the guest never supplies a mask with `SIGKILL` or `SIGSTOP`, no run blocks either, and a
pending `SIGKILL` ends the process. -/
theorem sigkill_unblockable_of_asks_open (limit : ℕ) (regs : PtRegs) (events : List Event)
    (asked : Run.Always stepEvent (fun _ event => AsksOpen event) (Thread.start limit regs) events) :
    Unblockable (Run.run stepEvent (Thread.start limit regs) events).task := by
  have sound := asked.invariant SoundThread ⟨⟨SigSet.Open.empty, fun _ => SigSet.Open.empty, rfl, rfl, rfl⟩, nofun⟩ fun _ _ sound => sound.step
  exact sound.task.unblockable

/-- A run that blocks `SIGUSR1`, waits under an empty mask and is sent `SIGKILL`. -/
def openRun : List Event :=
  [.sigprocmask .SIG_BLOCK (some (some (SigSet.empty.add .SIGUSR1))) none 8, .enterTemporaryMask .empty,
    .sendShared .SIGKILL, .leaveTemporaryMask]

theorem sigkill_unblockable_of_asks_open_openRun : Unblockable (Run.run stepEvent (Thread.start 62719 .zeroed) openRun).task := by
  refine sigkill_unblockable_of_asks_open 62719 .zeroed openRun ⟨?_, SigSet.Open.empty, trivial, trivial, trivial⟩
  rintro - set same
  cases same
  exact ⟨by decide, by decide⟩

/-- A guest whose `rt_sigprocmask` sets every bit blocks `SIGKILL` and `SIGSTOP`; a `SIGKILL` sent to it
then stays pending while `process_signals` returns. -/
theorem sigkill_blocked_survives :
    let blockedAll := Run.run stepEvent (Thread.start 62719 .zeroed)
      [.sigprocmask .SIG_SETMASK (some (some ⟨BitVec.allOnes 64⟩)) none 8, .sendShared .SIGKILL]
    blockedAll.task.blocked.contains .SIGKILL = true ∧ blockedAll.task.blocked.contains .SIGSTOP = true ∧
      KillPending blockedAll.task ∧
        ∃ t, processSignals (fun _ => roomy) [] 4 blockedAll.task = some (.ok t) ∧ t.isExiting = false ∧ KillPending t := by
  refine ⟨rfl, rfl, .inr rfl, _, rfl, rfl, .inr rfl⟩

end LiteBox.Signals
