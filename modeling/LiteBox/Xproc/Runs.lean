import LiteBox.Xproc.Delivery
import LiteBox.Lib.Run

/-! # Signals over every interleaving

What the shared process table promises to its callers, at every point of every interleaving whose claims
are careful, and interleavings that break it.
-/

namespace LiteBox.Xproc

open Signals Threads List Processes Place World Run FillStage

/-- The condition on a step: a free slot is claimed only when no caller is engaged at it, and only for a
pid that has no slot and for which no other caller fills one. -/
def Careful (w : Processes) : Event → Prop
  | .advance t _ => ∀ a again i, w.threads t = .claim a again i →
      ∀ slot : ProcessSlot, w.shared.slots[i]? = some slot → slot.pid = slotFree →
        (∀ u, (w.threads u).engagedAt ≠ some i) ∧ (∀ u b j stage, w.threads u = .fill b j stage → b.pid ≠ a.pid) ∧
          Absent w.shared a.pid
  | _ => True

/-- A store of `unregister` or of a sweep goes to the slot of the pid it is for, or to a free one. -/
def Harmless (w : Processes) : Event → Prop
  | .advance t _ =>
    match w.threads t with
    | .sweepClear _ i _ pid _ | .unregisterClear pid i _ =>
      ∀ slot : ProcessSlot, w.shared.slots[i]? = some slot → slot.pid = pid ∨ slot.pid = slotFree
    | _ => True
  | _ => True

structure Safe (w : Processes) : Prop where
  unique : ∀ (i j : ℕ) (a b : ProcessSlot), w.shared.slots[i]? = some a → w.shared.slots[j]? = some b → 0 < a.pid →
    a.pid = b.pid → i = j
  taken : ∀ t pid bits, w.threads t = .returned (.taken pid bits) → Within bits (w.shared.ledger.posted pid)
  /-- The signals that a registered pid is owed are in its slot, and `take_pending` returns them. -/
  kept : ∀ (i : ℕ) (slot : ProcessSlot), w.shared.slots[i]? = some slot → 0 < slot.pid →
    Within (w.shared.ledger.owed slot.pid) slot.pending
  delivered : ∀ t i pid (slot : ProcessSlot) ghost, w.threads t = .takeSwap i pid → w.shared.slots[i]? = some slot →
    slot.pid = pid → 0 < pid → ∃ bits, (w.advance t ghost).threads t = .returned (.taken pid bits) ∧
      Within (w.shared.ledger.owed pid) bits

variable {w : Processes}

theorem Inv.safe (inv : Inv w) : Safe w where
  unique := inv.shared.unique
  taken := by
    intro t pid bits eq
    have holds := inv.each t
    rwa [eq] at holds
  kept := fun i slot present positive => (inv.shared.slots i slot present).owed positive
  delivered := by
    intro t i pid slot ghost eq present held positive
    refine ⟨slot.pending, ?_, held ▸ (inv.shared.slots i slot present).owed (held ▸ positive)⟩
    simp only [advance, eq, index, present, move_threads_self]
    rfl

theorem Inv.harmless (inv : Inv w) (event : Event) : Harmless w event := by
  cases event with
  | advance t ghost =>
    have holds := inv.each t
    have engaged : ∀ i pid, Engaged w.shared i pid → ∀ slot : ProcessSlot, w.shared.slots[i]? = some slot →
        slot.pid = pid ∨ slot.pid = slotFree := by
      rintro i pid ⟨-, -, found, there, held⟩ slot present
      rw [present] at there
      cases there
      exact held
    simp only [Harmless]
    split
    · next sweep i count pid stage eq =>
      rw [eq] at holds
      cases sweep with
      | alone => exact engaged i pid holds.1
      | retry a => exact engaged i pid holds.2.1
    · next pid i stage eq =>
      rw [eq] at holds
      exact engaged i pid holds.1
    · trivial
  | _ => trivial

theorem Inv.new : Inv new := by
  have fresh : ∀ (i : ℕ) (slot : ProcessSlot), Processes.new.shared.slots[i]? = some slot → slot = .new := by
    intro i slot present
    exact eq_of_mem_replicate (mem_of_getElem? present)
  refine ⟨⟨?_, ?_⟩, fun _ => trivial, fun _ _ _ => trivial⟩
  · intro i slot present
    cases fresh i slot present
    exact ⟨.inl rfl, fun above => absurd above (by decide), fun _ => empty_within _, fun _ => empty_within _,
      fun _ _ => empty_within _⟩
  · intro i j a b first second above _
    cases fresh i a first
    exact absurd above (by decide)

theorem Inv.advance (inv : Inv w) {t : ℕ} {ghost : Bool} (careful : Careful w (.advance t ghost)) : Inv (w.advance t ghost) := by
  have holds := inv.each t
  simp only [Processes.advance]
  split
  · next outside =>
    obtain ⟨own, other⟩ := beyond_spec holds outside
    exact inv.move t inv.shared own (fun u _ => inv.each u) fun u _ => apart_of_ne_fill other _
  · next slot present =>
    have absent : ∀ a again j, w.threads t = .claim a again j → slot.pid = slotFree → Absent w.shared a.pid := by
      intro a again j eq free
      rw [eq] at present
      exact (careful a again j eq slot present free).2.2
    obtain ⟨change, own⟩ := act_spec ghost inv.shared holds present absent
    refine inv.move t (change.shared present inv.shared) own (fun u other => ?_) fun u other => ?_
    · refine change.assertion present inv.shared (inv.each u) ?_ ?_
      · intro claimed free
        obtain ⟨a, again, j, eq⟩ := claims_of_act holds free claimed
        rw [eq] at present ⊢
        exact (careful a again j eq slot present free).1 u
      · intro b j stage eq claimed
        obtain ⟨a, stage', place⟩ | same := act_of_claiming ghost holds present claimed
        · refine .inr ?_
          have apart := inv.pairs t u other.symm
          have filling := inv.each u
          rw [eq] at filling
          rw [place, eq] at apart
          refine ⟨apart.1.symm, ?_⟩
          rw [place]
          obtain published | kept := fill_apply_pid a stage' slot
          · exact fun same => apart.2 (published.symm.trans same)
          · exact fun same => absurd (claimed.symm.trans (kept.symm.trans same) ▸ filling.positive) (by decide)
        · exact .inl same
    · by_cases fills : ∃ a j stage, ((w.threads t).act ghost slot).2 = .fill a j stage
      · obtain ⟨a, j, stage, eq⟩ := fills
        rw [eq]
        have apart : ∀ b k stage', w.threads u = .fill b k stage' → j ≠ k ∧ a.pid ≠ b.pid := by
          intro b k stage' place
          obtain ⟨again, claims, free⟩ | ⟨before, fills⟩ := fill_of_act eq
          · rw [claims] at present
            obtain ⟨-, others, -⟩ := careful a again j claims slot present free
            refine ⟨?_, (others u b k stage' place).symm⟩
            rintro rfl
            have filling := inv.each u
            rw [place] at filling
            obtain ⟨found, there, claimed, -⟩ := filling.slot
            rw [show w.shared.slots[j]? = some slot from present] at there
            cases there
            exact absurd (free.symm.trans claimed) (by decide)
          · have pair := inv.pairs t u other.symm
            rwa [fills, place] at pair
        cases place : w.threads u with
        | fill b k stage' =>
          obtain ⟨slots, pids⟩ := apart b k stage' place
          exact ⟨⟨slots, pids⟩, slots.symm, pids.symm⟩
        | _ => exact ⟨trivial, trivial⟩
      · exact apart_of_ne_fill (fun a j stage eq => fills ⟨a, j, stage, eq⟩) _

theorem entry_spec (call : Call) : Assertion s call.entry ∧ ∀ a j stage, call.entry ≠ .fill a j stage := by
  cases call with
  | register a =>
    simp only [Call.entry]
    split
    · exact ⟨trivial, nofun⟩
    · next positive => exact ⟨⟨not_le.mp positive, not_le.mp positive⟩, nofun⟩
  | unregister | lookup =>
    simp only [Call.entry]
    split
    · exact ⟨trivial, nofun⟩
    · next positive => exact ⟨not_le.mp positive, nofun⟩
  | _ => exact ⟨trivial, nofun⟩

theorem Inv.step (inv : Inv w) {event : Event} (careful : Careful w event) : Inv (w.step event) := by
  cases event with
  | start t call =>
    simp only [Processes.step]
    split
    · obtain ⟨own, other⟩ := entry_spec (s := w.shared) call
      exact inv.move t inv.shared own (fun u _ => inv.each u) fun u _ => apart_of_ne_fill other _
    · exact inv
  | advance t ghost => exact inv.advance careful
  | publishIdentity i pid comm cmdline =>
    simp only [Processes.step]
    split
    · exact inv
    next slot present =>
    split
    · next held =>
      have change : Change w.shared i slot { slot with identity := ⟨pid, comm, cmdline⟩ } w.shared.ledger := .quiet rfl rfl
      refine inv.share (change.shared present inv.shared) fun t => change.assertion present inv.shared (inv.each t) ?_ ?_
      · intro claimed free
        exact absurd (free.symm.trans claimed) (by decide)
      · exact fun _ _ _ _ _ => .inl ⟨rfl, rfl⟩
    · exact inv

/-! ## Calls that no one interrupts -/

/-- `n` steps of one caller, for whom no host is dead. -/
def advances (t n : ℕ) : List Event := List.replicate n (.advance t false)

theorem careful_at {t : ℕ} {ghost : Bool} (place : Place) (start : w.threads t = place)
    (other : ∀ a again i, place ≠ .claim a again i) : Careful w (.advance t ghost) := by
  intro a again i eq
  exact absurd (start.symm.trans eq) (other a again i)

/-- A search for a pid that no slot has. -/
theorem run_find {t i : ℕ} {goal : Goal} {pid : ℤ} (n : ℕ) (start : w.threads t = .find goal pid i)
    (absent : w.shared.slots.all (·.pid != pid) = true) (length : i + n = w.shared.slots.length) :
    run step w (advances t (n + 1)) = w.move t w.shared (missed goal) ∧ Run.Always step Careful w (advances t (n + 1)) := by
  have careful : Careful w (.advance t false) := careful_at _ start (by simp)
  induction n generalizing w i with
  | zero =>
    have outside : w.shared.slots[i]? = none := getElem?_eq_none (by omega)
    have step : w.step (.advance t false) = w.move t w.shared (missed goal) := by
      simp [step, advance, start, index, outside, beyond]
    exact ⟨step, careful, trivial⟩
  | succ n ih =>
    obtain ⟨slot, present⟩ : ∃ slot, w.shared.slots[i]? = some slot := ⟨_, getElem?_eq_getElem (by omega)⟩
    have other : slot.pid ≠ pid := by simpa using all_eq_true.mp absent slot (mem_of_getElem? present)
    have same : w.shared.slots.set i slot = w.shared.slots := by
      rw [← (List.getElem?_eq_some_iff.mp present).2, set_getElem_self]
    have note : w.shared.ledger.note slot (.find goal pid i) = w.shared.ledger := by
      cases goal <;> simp [Ledger.note, other]
    have step : w.step (.advance t false) = w.move t w.shared (.find goal pid (i + 1)) := by
      simp [step, advance, start, index, present, act, if_neg other, same, note]
    have next : (w.move t w.shared (.find goal pid (i + 1))).threads t = .find goal pid (i + 1) :=
      move_threads_self _ _ _ _
    obtain ⟨run, always⟩ := ih next absent (by simp only [move_shared]; omega) (careful_at _ next (by simp))
    rw [move_move, move_shared, ← step] at run
    refine ⟨run, careful, ?_⟩
    rw [step]
    exact always

def filled (a : Args) : ProcessSlot := ⟨a.pid, a.hostPid, a.pgid, .empty, a.ownsHost, ⟨0, [], []⟩⟩

section Claim

variable {t : ℕ} {a : Args} {slot : ProcessSlot} {rest : List ProcessSlot}

/-- A claim of the first slot, and the stores that fill it. -/
theorem run_claim (start : w.threads t = .claim a false 0) (slots : w.shared.slots = slot :: rest)
    (free : slot.pid = slotFree) : Run.run Processes.step w (advances t 9) =
      w.move t ⟨filled a :: rest, w.shared.ledger.publish a.pid 0⟩ (.returned (.registered (some 0))) := by
  simp [advances, List.replicate, Run.run, Processes.step, Processes.advance, start, slots, free, Place.index, Place.act,
    FillStage.apply, FillStage.next, ClearStage.apply, Ledger.note, filled]

theorem careful_claim (start : w.threads t = .claim a false 0) (slots : w.shared.slots = slot :: rest)
    (free : slot.pid = slotFree) (careful : Careful w (.advance t false)) :
    Run.Always Processes.step Careful w (advances t 9) := by
  refine ⟨careful, ?_⟩
  have claimed : w.step (.advance t false) =
      w.move t ⟨{ slot with pid := slotClaiming } :: rest, w.shared.ledger⟩ (.fill a 0 .comm) := by
    simp [step, advance, start, slots, free, index, act, Ledger.note]
  rw [claimed]
  simp [Run.Always, Careful, Processes.step, Processes.advance, Place.index, Place.act, FillStage.next]

end Claim

/-- A registration into the first slot. -/
def registers (t : ℕ) (a : Args) : List Event := .start t (.register a) :: advances t 513 ++ advances t 9

section Registers

variable {t : ℕ} {a : Args} {result : Result} (length : w.shared.slots.length = 512) (positive : 0 < a.pid)
  (absent : w.shared.slots.all (·.pid != a.pid) = true)

include length positive absent

theorem run_searches (idle : w.threads t = .returned result) :
    run step w (.start t (.register a) :: advances t 513) = w.move t w.shared (.claim a false 0) ∧
      Run.Always step Careful w (.start t (.register a) :: advances t 513) := by
  have entered : w.step (.start t (.register a)) = w.move t w.shared (.find (.register a) a.pid 0) := by
    simp [step, idle, Call.entry, if_neg (not_le.mpr positive)]
  obtain ⟨searched, careful⟩ := run_find (w := w.move t w.shared (.find (.register a) a.pid 0)) 512
    (move_threads_self _ _ _ _) absent (by simpa using length.symm)
  rw [move_move] at searched
  refine ⟨?_, trivial, ?_⟩
  · rw [run_cons, entered, searched]
    rfl
  · rw [entered]
    exact careful

variable (slot : ProcessSlot) (rest : List ProcessSlot) (slots : w.shared.slots = slot :: rest) (free : slot.pid = slotFree)

include slots free

theorem run_registers (idle : w.threads t = .returned result) : run step w (registers t a) =
      w.move t ⟨filled a :: rest, w.shared.ledger.publish a.pid 0⟩ (.returned (.registered (some 0))) := by
  have claimed := run_claim (w := w.move t w.shared (.claim a false 0)) (move_threads_self _ _ _ _) slots free
  rw [move_move] at claimed
  rw [registers, run_append, (run_searches length positive absent idle).1]
  exact claimed

/-- It is careful when no one else is in a call. -/
theorem careful_registers (idle : ∀ u, ∃ result, w.threads u = .returned result) :
    Run.Always step Careful w (registers t a) := by
  obtain ⟨result, own⟩ := idle t
  obtain ⟨searched, careful⟩ := run_searches length positive absent own
  refine always_append.mpr ⟨careful, ?_⟩
  rw [searched]
  have start : (w.move t w.shared (.claim a false 0)).threads t = .claim a false 0 := move_threads_self _ _ _ _
  have places : ∀ u, (∃ result, (w.move t w.shared (.claim a false 0)).threads u = .returned result) ∨
      (w.move t w.shared (.claim a false 0)).threads u = .claim a false 0 := by
    intro u
    by_cases same : u = t
    · exact .inr (same ▸ start)
    · rw [w.move_threads_of_ne _ _ same]
      exact .inl (idle u)
  refine careful_claim start slots free ?_
  intro b again i eq slot present free
  cases start.symm.trans eq
  refine ⟨fun u => ?_, fun u b j stage fills => ?_, fun j slot present => ?_⟩
  · obtain ⟨result, place⟩ | place := places u <;> rw [place] <;> exact nofun
  · obtain ⟨result, place⟩ | place := places u <;> rw [place] at fills <;> cases fills
  · simpa using all_eq_true.mp absent slot (mem_of_getElem? present)

end Registers

def ten : Args := ⟨10, 1, 1, true⟩
def twenty : Args := ⟨20, 1, 1, true⟩

def unused : List ProcessSlot := List.replicate 511 .new

theorem run_registers_ten : run step new (registers 0 ten) =
    new.move 0 ⟨filled ten :: unused, new.shared.ledger.publish 10 0⟩ (.returned (.registered (some 0))) :=
  run_registers (by decide +kernel) (by decide) (by decide +kernel) .new unused rfl rfl rfl

/-- In every interleaving whose claims are careful, the table is safe at every point and no store of
`unregister` or of a sweep hits another pid. -/
theorem signals_safe_of_careful (events : List Event) (careful : Run.Always step Careful new events) :
    Safe (run step new events) ∧ Run.Always step Harmless new events :=
  ⟨(careful.invariant Inv Inv.new fun _ _ inv careful => inv.step careful).safe,
    careful.imp Inv Inv.new (fun _ _ inv careful => inv.step careful) fun _ event inv _ => inv.harmless event⟩

/-- A registration, a post and a `take_pending`, one after the other. -/
theorem signals_safe_of_careful_delivered : Safe (run step new (registers 0 ten ++
    [.start 1 (.post 0 10 .SIGUSR1), .advance 1 false, .advance 1 false, .start 0 (.takePending 0 10), .advance 0 false])) := by
  refine (signals_safe_of_careful _ (always_append.mpr ⟨?_, ?_⟩)).1
  · exact careful_registers (by decide +kernel) (by decide) (by decide +kernel) .new unused rfl rfl fun _ => ⟨_, rfl⟩
  · rw [run_registers_ten]
    exact ⟨trivial, careful_at (.postCheck 0 10 .SIGUSR1) rfl nofun, careful_at (.postOr 0 10 .SIGUSR1) rfl nofun, trivial,
      careful_at (.takeCheck 0 10) rfl nofun, trivial⟩

/-! ## Races -/

/-- Two callers register process 10, and neither finds the other's slot. -/
def twoRegistrations : List Event :=
  (.start 0 (.register ten) :: advances 0 513) ++ (.start 1 (.register ten) :: advances 1 513) ++ (advances 0 9 ++ advances 1 10)

theorem twoRegistrations_break : ¬Safe (run step new twoRegistrations) := by
  intro safe
  have first := (run_searches (w := new) (t := 0) (a := ten) (by decide +kernel) (by decide) (by decide +kernel) rfl).1
  have second := (run_searches (w := new.move 0 new.shared (.claim ten false 0)) (t := 1) (a := ten) (by decide +kernel)
    (by decide) (by decide +kernel) rfl).1
  rw [twoRegistrations, run_append, run_append, run_append, first, second] at safe
  have same := safe.unique 0 1 (filled ten) (filled ten) (by decide +kernel) (by decide +kernel) (by decide) rfl
  exact absurd same (by decide)

/-- Process 10 registers, a signal for it passes its check and then waits, process 10 leaves, process 20
registers, and the signal arrives in its slot. -/
def overtakenPost : List Event :=
  registers 0 ten ++ (.start 1 (.post 0 10 .SIGUSR1) :: .advance 1 false :: .start 2 (.unregister 10) :: advances 2 6) ++
    registers 3 twenty ++ [.advance 1 false, .start 4 (.takePending 0 20), .advance 4 false, .advance 4 false]

theorem overtakenPost_breaks : ¬Safe (run step new overtakenPost) := by
  intro safe
  rw [overtakenPost, run_append, run_append, run_append, run_registers_ten, run_registers (by decide +kernel) (by decide)
    (by decide +kernel) { filled ten with pid := slotFree } unused rfl rfl rfl] at safe
  have taken := safe.taken 4 20 (SigSet.empty.add .SIGUSR1) (by decide +kernel) .SIGUSR1 (by decide)
  exact absurd taken (by decide +kernel)

/-- A sweep frees the slot of process 10, process 20 registers and gets a signal, and the sweep goes on to
empty the slot. -/
def overtakenSweep : List Event :=
  registers 0 ten ++ [.start 1 .reclaimWhere, .advance 1 false, .advance 1 true, .advance 1 false] ++ registers 2 twenty ++
    [.start 3 (.post 0 20 .SIGUSR1), .advance 3 false, .advance 3 false, .advance 1 false]

theorem overtakenSweep_breaks : ¬Safe (run step new overtakenSweep) := by
  intro safe
  rw [overtakenSweep, run_append, run_append, run_append, run_registers_ten, run_registers (by decide +kernel) (by decide)
    (by decide +kernel) { filled ten with pid := slotFree } unused rfl rfl rfl] at safe
  have kept := safe.kept 0 (filled twenty) (by decide +kernel) (by decide) .SIGUSR1 (by decide +kernel)
  exact absurd kept (by decide)

/-- A pid in two slots, a signal for one process that another takes, and a signal that a sweep clears. -/
theorem races_misdeliver : ¬Safe (run step new twoRegistrations) ∧
    ¬Safe (run step new overtakenPost) ∧ ¬Safe (run step new overtakenSweep) :=
  ⟨twoRegistrations_break, overtakenPost_breaks, overtakenSweep_breaks⟩

end LiteBox.Xproc
