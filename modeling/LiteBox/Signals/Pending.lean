import LiteBox.Signals.Basic

/-! # Pending signals

The queue of pending `siginfo` records together with the set that summarises it. The two agree by
construction, so that a signal the set shows can always be taken from the queue.
-/

namespace LiteBox.Signals

open List SigSet Bool Signal

/-- The failed assertions and expectations of the signal code. -/
inductive Panic where
  | signoMismatch
  | removingNonPending
  | notForcible
deriving DecidableEq, Repr

def carries (s : Signal) (info : Siginfo) : Bool := info.signo == s.asI32

structure PendingSignals where
  pending : SigSet
  queue : List Siginfo
  agree : ∀ s, pending.contains s = true ↔ ∃ info ∈ queue, info.signo = s.asI32
  once : ∀ s, s.isRtSignal = false → queue.countP (carries s) ≤ 1

namespace PendingSignals

def new : PendingSignals := ⟨.empty, [], by simp, by simp⟩

def exceptionSignals : SigSet :=
  ((((empty.add .SIGSEGV).add .SIGBUS).add .SIGFPE).add .SIGILL).add .SIGTRAP

variable (p : PendingSignals)

/-- Exception signals come first, since they must see the user context of the exception. -/
def next (blocked : SigSet) : Option Signal :=
  let pending := p.pending &&& ~~~blocked
  (pending &&& exceptionSignals).lowestSet.or pending.lowestSet

def discard (s : Signal) : PendingSignals where
  pending := p.pending.remove s
  queue := p.queue.filter fun info => info.signo != s.asI32
  agree t := by
    simp only [contains_remove, and_eq_true, p.agree t, mem_filter, bne_iff_ne, not_eq_true', decide_eq_false_iff_not]
    constructor
    · rintro ⟨⟨info, member, signo⟩, other⟩
      exact ⟨info, ⟨member, by rwa [signo, ne_eq, asI32_inj]⟩, signo⟩
    · rintro ⟨info, ⟨member, other⟩, signo⟩
      exact ⟨⟨info, member, signo⟩, by rwa [signo, ne_eq, asI32_inj] at other⟩
  once t standard := (filter_sublist.countP_le).trans (p.once t standard)

variable {s t : Signal} {p q : PendingSignals} {limit : ℕ} {info : Siginfo}

theorem split_at_first {queue : List Siginfo} {pos : ℕ} (found : queue.findIdx? (carries s) = some pos) :
    ∃ before info after, queue = before ++ info :: after ∧ before.length = pos ∧
      info.signo = s.asI32 ∧ ∀ early ∈ before, early.signo ≠ s.asI32 := by
  obtain ⟨inside, here, earlier⟩ := findIdx?_eq_some_iff_getElem.mp found
  refine ⟨queue.take pos, queue[pos], queue.drop (pos + 1), by simp, ?_, by simpa [carries] using here, ?_⟩
  · simp only [length_take]
    omega
  · intro early member
    obtain ⟨i, bound, rfl⟩ := mem_iff_getElem.mp member
    simp only [length_take] at bound
    simpa [carries] using earlier i (by omega)

/-- The pending signals without the queue entry at `pos`. -/
def removeAt (s : Signal) (pos : ℕ) (found : p.queue.findIdx? (carries s) = some pos) : PendingSignals where
  pending := if (p.queue.drop (pos + 1)).any (carries s) then p.pending else p.pending.remove s
  queue := p.queue.eraseIdx pos
  agree t := by
    obtain ⟨before, info, after, split, rfl, signo, earlier⟩ := split_at_first found
    have rest : p.queue.drop (before.length + 1) = after := by simp [split]
    have erased : p.queue.eraseIdx before.length = before ++ after := by
      simp [split, eraseIdx_append_of_length_le]
    rw [rest, erased]
    by_cases same : t = s
    · subst same
      have later : (∃ entry ∈ before ++ after, entry.signo = t.asI32) ↔ after.any (carries t) = true := by
        simp only [mem_append, any_eq_true, carries, beq_iff_eq]
        constructor
        · rintro ⟨entry, early | late, same⟩
          · exact absurd same (earlier entry early)
          · exact ⟨entry, late, same⟩
        · rintro ⟨entry, late, same⟩
          exact ⟨entry, .inr late, same⟩
      rw [later]
      split
      · next more =>
        simp only [more, iff_true]
        exact (p.agree t).mpr ⟨info, by simp [split], signo⟩
      · next none => simp [none]
    · have other : info.signo ≠ t.asI32 := by
        rw [signo, ne_eq, asI32_inj]
        exact fun eq => same eq.symm
      have kept : (∃ entry ∈ before ++ after, entry.signo = t.asI32) ↔ ∃ entry ∈ p.queue, entry.signo = t.asI32 := by
        simp only [split, mem_append, mem_cons]
        constructor
        · rintro ⟨entry, early | late, eq⟩
          · exact ⟨entry, .inl early, eq⟩
          · exact ⟨entry, .inr (.inr late), eq⟩
        · rintro ⟨entry, early | rfl | late, eq⟩
          · exact ⟨entry, .inl early, eq⟩
          · exact absurd eq other
          · exact ⟨entry, .inr late, eq⟩
      rw [kept, ← p.agree t]
      split <;> simp [same]
  once t standard := ((eraseIdx_sublist _ _).countP_le).trans (p.once t standard)

/-- The first queued record of `s`; `none` is the failed expectation. -/
def remove (s : Signal) : Option (Siginfo × PendingSignals) :=
  match found : p.queue.findIdx? (carries s) with
  | none => none
  | some pos => p.queue[pos]?.map fun info => (info, p.removeAt s pos found)

theorem countP_eq_zero (absent : p.pending.contains s = false) : p.queue.countP (carries s) = 0 := by
  refine List.countP_eq_zero.mpr fun info member carried => ?_
  have held := (p.agree s).mpr ⟨info, member, by simpa [carries] using carried⟩
  simp [absent] at held

def enqueue (s : Signal) (info : Siginfo) (signo : info.signo = s.asI32)
    (fresh : s.isRtSignal = false → p.pending.contains s = false) : PendingSignals where
  pending := p.pending.add s
  queue := p.queue ++ [info]
  agree t := by
    simp only [contains_add, or_eq_true, p.agree t, decide_eq_true_eq, mem_append, mem_singleton]
    constructor
    · rintro (⟨entry, member, same⟩ | rfl)
      · exact ⟨entry, .inl member, same⟩
      · exact ⟨info, .inr rfl, signo⟩
    · rintro ⟨entry, member | rfl, same⟩
      · exact .inl ⟨entry, member, same⟩
      · exact .inr (asI32_inj.mp (same.symm.trans signo))
  once t standard := by
    rw [countP_append]
    by_cases same : t = s
    · rw [same, p.countP_eq_zero (fresh (same ▸ standard))]
      exact (Nat.zero_add _).le.trans countP_le_length
    · have other : carries t info = false := by
        simp only [carries, signo, beq_eq_false_iff_ne, ne_eq, asI32_inj]
        exact fun eq => same eq.symm
      simpa [other] using p.once t standard

/-- `limit` is the soft `RLIMIT_SIGPENDING`. -/
def push (limit : ℕ) (s : Signal) (info : Siginfo) : Except Panic PendingSignals :=
  if signo : info.signo = s.asI32 then
    .ok <|
      -- standard signals do not queue twice
      if twice : (!s.isRtSignal && p.pending.contains s) = true then p
      else if (s.isRtSignal || (info.code != siUser && info.code != siKernel)) && decide (limit ≤ p.queue.length)
      then p
      else p.enqueue s info signo fun standard => by simpa [standard] using twice
  else .error .signoMismatch

/-! ## What the operations do -/

/-- The position of a signal in the order of delivery: exception signals first, then by number. -/
def rank (s : Signal) : ℕ := if exceptionSignals.contains s then s.number else 64 + s.number

theorem rank_inj (same : rank s = rank t) : s = t := by
  have hs := s.range
  have ht := t.range
  simp only [rank] at same
  refine ext_number ?_
  split at same <;> split at same <;> omega

variable {blocked : SigSet}

theorem next_eq_none (idle : p.next blocked = none) (s : Signal)
    (queued : p.pending.contains s = true) : blocked.contains s = true := by
  obtain ⟨-, empty⟩ := Option.or_eq_none_iff.mp idle
  simpa [queued] using lowestSet_eq_none.mp empty s

theorem next_eq_some (chosen : p.next blocked = some s) :
    p.pending.contains s = true ∧ blocked.contains s = false ∧
      ∀ t, p.pending.contains t = true → blocked.contains t = false → rank s ≤ rank t := by
  obtain first | ⟨noException, first⟩ := Option.or_eq_some_iff.mp chosen
  · obtain ⟨member, lowest⟩ := lowestSet_eq_some first
    simp only [contains_and, contains_not, and_eq_true, not_eq_true'] at member lowest
    refine ⟨member.1.1, member.1.2, fun t queued free => ?_⟩
    by_cases exception : exceptionSignals.contains t = true
    · simpa only [rank, member.2, exception, if_true] using lowest t ⟨⟨queued, free⟩, exception⟩
    · have := s.range
      simp only [rank, member.2, exception, false_eq_true, if_true, if_false]
      omega
  · obtain ⟨member, lowest⟩ := lowestSet_eq_some first
    have calm : ∀ t, p.pending.contains t = true → blocked.contains t = false → exceptionSignals.contains t = false := by
      intro t queued free
      have none := lowestSet_eq_none.mp noException t
      simpa only [SigSet.contains_and, SigSet.contains_not, queued, free, Bool.not_false, Bool.true_and] using none
    simp only [contains_and, contains_not, and_eq_true, not_eq_true'] at member lowest
    refine ⟨member.1, member.2, fun t queued free => ?_⟩
    simp only [rank, calm s member.1 member.2, calm t queued free, false_eq_true, if_false]
    exact Nat.add_le_add_left (lowest t ⟨queued, free⟩) 64

theorem contains_removeAt_of_ne {pos : ℕ} (found : p.queue.findIdx? (carries s) = some pos) (other : t ≠ s) :
    (p.removeAt s pos found).pending.contains t = p.pending.contains t := by
  simp only [removeAt]
  split <;> simp [other]

/-- What is pending can be removed: one record of that signal leaves the queue. -/
theorem remove_of_contains (queued : p.pending.contains s = true) :
    ∃ info q, p.remove s = some (info, q) ∧ info.signo = s.asI32 ∧ p.queue.Perm (info :: q.queue) ∧
      (∀ t, t ≠ s → q.pending.contains t = p.pending.contains t) ∧ (s.isRtSignal = false → q.pending.contains s = false) := by
  obtain ⟨entry, member, signo⟩ := (p.agree s).mp queued
  cases found : p.queue.findIdx? (carries s) with
  | none =>
    have := findIdx?_eq_none_iff.mp found entry member
    simp [carries, signo] at this
  | some pos =>
    obtain ⟨before, info, after, split, rfl, signo, -⟩ := split_at_first found
    have here : p.queue[before.length]? = some info := by simp [split]
    have erased : (p.removeAt s before.length found).queue = before ++ after := by
      simp [removeAt, split, eraseIdx_append_of_length_le]
    have perm : p.queue.Perm (info :: (p.removeAt s before.length found).queue) := by
      rw [erased, split]
      exact perm_middle
    refine ⟨info, p.removeAt s before.length found, ?_, signo, perm, fun t => contains_removeAt_of_ne found, ?_⟩
    · unfold remove
      split
      · next none => rw [found] at none; cases none
      · next pos other =>
        obtain rfl : before.length = pos := Option.some.inj (found.symm.trans other)
        rw [here]
        rfl
    · intro standard
      have one := p.once s standard
      have carried : carries s info = true := by simpa [carries] using signo
      rw [perm.countP_eq, countP_cons_of_pos carried] at one
      by_contra held
      obtain ⟨other, member, again⟩ :=
        ((p.removeAt s before.length found).agree s).mp (by simpa using held)
      have some : 0 < (p.removeAt s before.length found).queue.countP (carries s) :=
        countP_pos_iff.mpr ⟨other, member, by simpa [carries] using again⟩
      omega

/-- The push of `info` for `s` does not drop the signal. -/
def Kept (limit : ℕ) (s : Signal) (info : Siginfo) : Prop :=
  (s.isRtSignal = false ∧ (p.pending.contains s = true ∨ info.code = siUser ∨ info.code = siKernel)) ∨ p.queue.length < limit

variable (pushed : p.push limit s info = .ok q)

include pushed

/-- A push leaves the queue as it is or appends the record. -/
theorem push_eq_ok :
    (q = p ∧ (p.Kept limit s info → p.pending.contains s = true)) ∨
      (q.pending = p.pending.add s ∧ q.queue = p.queue ++ [info] ∧ info.signo = s.asI32) := by
  unfold push at pushed
  split at pushed
  · next signo =>
    have pushed := Except.ok.inj pushed
    split at pushed
    · next twice =>
      simp only [and_eq_true, not_eq_true'] at twice
      exact .inl ⟨pushed.symm, fun _ => twice.2⟩
    · next fresh =>
      split at pushed
      · next full =>
        refine .inl ⟨pushed.symm, ?_⟩
        simp only [and_eq_true, or_eq_true, bne_iff_ne, decide_eq_true_eq] at full
        rintro (⟨standard, held | user | kernel⟩ | room)
        · exact held
        · simp [standard, user] at full
        · simp [standard, kernel] at full
        · omega
      · exact .inr (by subst pushed; exact ⟨rfl, rfl, signo⟩)
  · cases pushed

omit pushed in
theorem push_of_signo (limit : ℕ) (signo : info.signo = s.asI32) : ∃ q, p.push limit s info = .ok q := by
  simp [push, signo]

theorem contains_push (held : p.pending.contains t = true) :
    q.pending.contains t = true := by
  obtain ⟨rfl, -⟩ | ⟨set, -, -⟩ := push_eq_ok pushed
  · exact held
  · simp [set, held]

theorem contains_of_push (held : q.pending.contains t = true) :
    p.pending.contains t = true ∨ t = s := by
  obtain ⟨rfl, -⟩ | ⟨set, -, -⟩ := push_eq_ok pushed
  · exact .inl held
  · simpa [set] using held

theorem contains_push_self (kept : p.Kept limit s info) : q.pending.contains s = true := by
  obtain ⟨rfl, held⟩ | ⟨set, -, -⟩ := push_eq_ok pushed
  · exact held kept
  · simp [set]

end PendingSignals

end LiteBox.Signals
