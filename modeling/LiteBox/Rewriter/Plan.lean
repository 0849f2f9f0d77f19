import LiteBox.Rewriter.Hook
import LiteBox.Rewriter.Layout

/-! # What a decision promises

The shapes a successful decision can have. A backward plan borrows a run of instructions that ends
at the `syscall` and falls through; a forward plan borrows the run behind it, all but whose last
instruction fall through. In both cases the copies are the re-encoding of exactly that run at the
stub's address.
-/

namespace LiteBox.Rewriter

open Outcome List

variable {iced : Iced} {targets : ControlTransferTargets}

/-- Copies of a run are the copy of its first instruction, of the same length, and those of the
rest. -/
theorem reencodeFrom_cons_eq_some {baseAddr done : ℕ} {inst : iced.Inst} {rest : List iced.Inst}
    {bytes : List UInt8} (encoded : reencodeFrom baseAddr done (inst :: rest) = .ok (some bytes)) :
    ∃ first later, iced.encode inst (baseAddr + done) = some first ∧ first.length = iced.len inst ∧
      reencodeFrom baseAddr (done + first.length) rest = .ok (some later) ∧ bytes = first ++ later := by
  obtain ⟨trampIp, ip_eq, encoded⟩ := bind_eq_ok.mp encoded
  obtain ⟨-, rfl⟩ := addU64_eq_ok.mp ip_eq
  cases first_eq : iced.encode inst (baseAddr + done) with
  | none => simp [first_eq, pure_eq_ok] at encoded
  | some first =>
    simp only [first_eq] at encoded
    split_ifs at encoded with length
    · cases encoded
    · obtain ⟨tail, tail_eq, encoded⟩ := bind_eq_ok.mp encoded
      obtain ⟨later, rfl, rfl⟩ := Option.map_eq_some_iff.mp (pure_eq_ok.mp encoded)
      exact ⟨first, later, rfl, not_ne_iff.mp length, tail_eq, rfl⟩

/-- A backward scan that succeeds stops at an instruction that falls through, like all the nearer
ones, and from which five bytes lead to the end of the `syscall`. -/
theorem backScan_eq_some {replaceEnd start position : ℕ} {before : List iced.Inst}
    (found : backScan targets replaceEnd before.zipIdx.reverse = .ok (some (start, position))) :
    ∃ front first run, before = front ++ first :: run ∧ position = front.length ∧ start = iced.ip first ∧
      start + 5 ≤ replaceEnd ∧ ∀ inst ∈ first :: run, iced.flowsNext inst = true := by
  induction before using reverseRecOn with
  | nil => cases found
  | append_singleton before prev ih =>
    rw [zipIdx_append, reverse_append] at found
    simp only [zipIdx_cons, zipIdx_nil, reverse_cons, reverse_nil, nil_append,
      cons_append, backScan, Nat.zero_add, Bool.not_eq_true'] at found
    cases falls : iced.flowsNext prev with
    | false => rw [if_pos falls] at found; cases found
    | true =>
      rw [if_neg (by simp [falls])] at found
      obtain ⟨span, span_eq, found⟩ := bind_eq_ok.mp found
      obtain ⟨le, rfl⟩ := subU64_eq_ok.mp span_eq
      split_ifs at found with enough target
      · cases found
        exact ⟨before, prev, [], rfl, rfl, rfl, by omega, by simpa using falls⟩
      · cases found
      · obtain ⟨front, first, run, rfl, position_eq, start_eq, span_le, run_falls⟩ := ih found
        refine ⟨front, first, run ++ [prev], by simp, position_eq, start_eq, span_le, ?_⟩
        intro inst member
        rw [← cons_append, mem_append, mem_singleton] at member
        rcases member with member | rfl
        · exact run_falls inst member
        · exact falls

/-- A forward scan that succeeds stops at the first instruction that reaches five bytes past the
`syscall`'s start; all nearer ones fall through. -/
theorem forwardScan_eq_some {syscallIp stop position offset : ℕ} {behind : List iced.Inst}
    (found : forwardScan targets syscallIp (behind.zipIdx offset) = .ok (some (stop, position))) :
    ∃ run last rest, behind = run ++ last :: rest ∧ position = offset + run.length + 1 ∧
      stop = iced.nextIp last ∧ syscallIp + 5 ≤ stop ∧ ∀ inst ∈ run, iced.flowsNext inst = true := by
  induction behind generalizing offset with
  | nil => cases found
  | cons next behind ih =>
    simp only [zipIdx_cons, forwardScan, Bool.not_eq_true'] at found
    cases target : targets.contains (iced.ip next) with
    | true => rw [if_pos target] at found; cases found
    | false =>
      rw [if_neg (by simp [target])] at found
      obtain ⟨span, span_eq, found⟩ := bind_eq_ok.mp found
      obtain ⟨le, rfl⟩ := subU64_eq_ok.mp span_eq
      split_ifs at found with enough stuck
      · cases found
        exact ⟨[], next, behind, rfl, rfl, rfl, by omega, nofun⟩
      · cases found
      · obtain ⟨run, last, rest, rfl, position_eq, stop_eq, span_le, run_falls⟩ := ih found
        refine ⟨next :: run, last, rest, rfl, by rw [position_eq, length_cons]; omega, stop_eq, span_le, ?_⟩
        intro inst member
        rcases mem_cons.mp member with rfl | member
        · exact Bool.eq_true_of_not_eq_false stuck
        · exact run_falls inst member

/-! ## Inverting a decision -/

section Decisions

variable {trampolineBase trampolineLen : ℕ} {window : List iced.Inst} {index : ℕ} {inst : iced.Inst} {plan : Plan}

/-- A decision without a backward borrow. -/
theorem planForward_eq_ok (planned : planForward targets trampolineBase trampolineLen window index inst = .ok plan) :
    ∃ found, forwardScan targets (iced.ip inst) (window.zipIdx.drop (index + 1)) = .ok found ∧
      ((found = none ∧ plan = .trap) ∨
        ∃ stop stopIdx, found = some (stop, stopIdx) ∧
          ((¬ iced.nextIp inst < stop ∧ plan = .forward stop []) ∨
            (iced.nextIp inst < stop ∧ ∃ copies, reencodeInstructions ((window.take stopIdx).drop (index + 1))
                (trampolineBase + trampolineLen + preambleLen) = .ok copies ∧
              plan = copies.elim .trap (.forward stop)))) := by
  obtain ⟨found, scanned, planned⟩ := bind_eq_ok.mp planned
  refine ⟨found, scanned, ?_⟩
  cases found with
  | none => cases planned; exact .inl ⟨rfl, rfl⟩
  | some found =>
    obtain ⟨stop, stopIdx⟩ := found
    obtain ⟨targetAddr, target_eq, planned⟩ := bind_eq_ok.mp planned
    obtain ⟨-, rfl⟩ := checkedAddU64_eq_ok.mp target_eq
    refine .inr ⟨stop, stopIdx, rfl, ?_⟩
    split_ifs at planned with reaches
    · obtain ⟨postTarget, post_eq, planned⟩ := bind_eq_ok.mp planned
      obtain ⟨-, rfl⟩ := addU64_eq_ok.mp post_eq
      obtain ⟨copies, encoded, planned⟩ := bind_eq_ok.mp planned
      refine .inr ⟨reaches, copies, encoded, ?_⟩
      cases copies <;> cases planned <;> rfl
    · cases planned
      exact .inl ⟨reaches, rfl⟩

theorem planForward_ne_back {start : ℕ} {pre : List UInt8} :
    planForward targets trampolineBase trampolineLen window index inst ≠ .ok (.back start pre) := by
  intro planned
  obtain ⟨_, -, ⟨-, other⟩ | ⟨_, _, -, ⟨-, other⟩ | ⟨-, copies, -, other⟩⟩⟩ := planForward_eq_ok planned
  · cases other
  · cases other
  · cases copies <;> cases other

/-- A decision: a backward borrow, or what is decided without one. -/
theorem planSite_eq_ok (planned : planSite targets trampolineBase trampolineLen window index inst = .ok plan) :
    (searchBack targets window index inst = .ok none ∧
      planForward targets trampolineBase trampolineLen window index inst = .ok plan) ∨
    ∃ start startIdx, searchBack targets window index inst = .ok (some (start, startIdx)) ∧
      ((¬ start < iced.ip inst ∧ plan = .back start []) ∨
        (start < iced.ip inst ∧ ∃ copies,
          reencodeInstructions ((window.take index).drop startIdx) (trampolineBase + trampolineLen) =
            .ok copies ∧
          ((∃ pre, copies = some pre ∧ plan = .back start pre) ∨
            (copies = none ∧ planForward targets trampolineBase trampolineLen window index inst = .ok plan)))) := by
  obtain ⟨found, scanned, planned⟩ := bind_eq_ok.mp planned
  cases found with
  | none => exact .inl ⟨scanned, planned⟩
  | some found =>
    obtain ⟨start, startIdx⟩ := found
    obtain ⟨targetAddr, target_eq, planned⟩ := bind_eq_ok.mp planned
    obtain ⟨-, rfl⟩ := checkedAddU64_eq_ok.mp target_eq
    refine .inr ⟨start, startIdx, scanned, ?_⟩
    split_ifs at planned with reaches
    · obtain ⟨copies, encoded, planned⟩ := bind_eq_ok.mp planned
      refine .inr ⟨reaches, copies, encoded, ?_⟩
      cases copies with
      | none => exact .inr ⟨rfl, planned⟩
      | some pre => cases planned; exact .inl ⟨pre, rfl, rfl⟩
    · cases planned
      exact .inl ⟨reaches, rfl⟩

end Decisions

/-! ## One site -/

/-- What a decision for the `syscall` between `before` and `behind` promises: the run it borrows,
and that the copies are the run's re-encoding where the stub will hold them. -/
def Plan.Chosen (trampolineBase trampolineLen : ℕ) (before : List iced.Inst) (inst : iced.Inst)
    (behind : List iced.Inst) : Plan → Prop
  | .back start pre => ∃ front first run, before = front ++ first :: run ∧ start = iced.ip first ∧
      start + 5 ≤ iced.nextIp inst ∧ (∀ borrowed ∈ first :: run, iced.flowsNext borrowed = true) ∧
      reencodeInstructions (first :: run) (trampolineBase + trampolineLen) = .ok (some pre)
  | .forward stop post => ∃ run last rest, behind = run ++ last :: rest ∧ stop = iced.nextIp last ∧
      iced.ip inst + 5 ≤ stop ∧ (∀ borrowed ∈ run, iced.flowsNext borrowed = true) ∧
      reencodeInstructions (run ++ [last]) (trampolineBase + trampolineLen + preambleLen) = .ok (some post)
  | .trap => True

variable {trampolineBase trampolineLen : ℕ} {before behind : List iced.Inst} {inst : iced.Inst} {plan : Plan}

theorem Plan.Chosen.widen (chosen : plan.Chosen trampolineBase trampolineLen before inst behind) (front back : List iced.Inst) :
    plan.Chosen trampolineBase trampolineLen (front ++ before) inst (behind ++ back) := by
  cases plan with
  | back start pre =>
    obtain ⟨near, first, run, rfl, rest⟩ := chosen
    exact ⟨front ++ near, first, run, (append_assoc _ _ _).symm, rest⟩
  | forward stop post =>
    obtain ⟨run, last, far, rfl, rest⟩ := chosen
    exact ⟨run, last, far ++ back, by simp, rest⟩
  | trap => trivial

theorem zipIdx_split {α : Type*} (before behind : List α) (inst : α) :
    (before ++ inst :: behind).zipIdx.take before.length = before.zipIdx ∧
      (before ++ inst :: behind).zipIdx.drop (before.length + 1) = behind.zipIdx (before.length + 1) := by
  have split : (before ++ inst :: behind).zipIdx =
      before.zipIdx ++ [(inst, before.length)] ++ behind.zipIdx (before.length + 1) := by
    rw [zipIdx_append, zipIdx_cons, Nat.zero_add, append_assoc]
    rfl
  constructor
  · rw [split, append_assoc, take_left' length_zipIdx]
  · rw [split, drop_left' (by rw [length_append, length_zipIdx, length_singleton])]

/-- What the forward scan's positions cut out of a window. -/
theorem borrowed_behind {α : Type*} (before run rest : List α) (inst last : α) :
    ((before ++ inst :: (run ++ last :: rest)).take (before.length + 1 + run.length + 1)).drop
      (before.length + 1) = run ++ [last] := by
  have shape : before ++ inst :: (run ++ last :: rest) = ((before ++ [inst]) ++ (run ++ [last])) ++ rest := by
    simp
  have inner : ((before ++ [inst]) ++ (run ++ [last])).length = before.length + 1 + run.length + 1 := by
    simp only [length_append, length_singleton]
    omega
  rw [shape, take_left' inner, drop_left' (by simp)]

theorem searchBack_split (targets : ControlTransferTargets) (before behind : List iced.Inst) (inst : iced.Inst) :
    searchBack targets (before ++ inst :: behind) before.length inst =
      if targets.contains (iced.ip inst) then .ok none
      else backScan targets (iced.nextIp inst) before.zipIdx.reverse := by
  rw [searchBack, (zipIdx_split before behind inst).1]

theorem searchBack_eq_some {start position : ℕ}
    (found : searchBack targets (before ++ inst :: behind) before.length inst = .ok (some (start, position))) :
    ∃ front first run, before = front ++ first :: run ∧ position = front.length ∧ start = iced.ip first ∧
      start + 5 ≤ iced.nextIp inst ∧ ∀ borrowed ∈ first :: run, iced.flowsNext borrowed = true := by
  rw [searchBack_split] at found
  split_ifs at found
  · cases found
  · exact backScan_eq_some found

section Sited

variable {start stop : ℕ} (laid : LaidOut iced start (before ++ inst :: behind) stop) (small : stop < 2 ^ 64)

include laid small

theorem planForward_chosen
    (planned : planForward targets trampolineBase trampolineLen (before ++ inst :: behind) before.length inst = .ok plan) :
    plan.Chosen trampolineBase trampolineLen before inst behind := by
  obtain ⟨found, scanned, ⟨-, rfl⟩ | ⟨stop, stopIdx, rfl, outcome⟩⟩ := planForward_eq_ok planned
  · trivial
  rw [(zipIdx_split before behind inst).2] at scanned
  obtain ⟨run, last, rest, rfl, rfl, rfl, span, falls⟩ := forwardScan_eq_some scanned
  have behind_inst := laid.split.2.2.bounds (mem_append_right run mem_cons_self)
  have next_last := laid.nextIp_eq small (mem_append_right before (mem_cons_of_mem inst (mem_append_right run mem_cons_self)))
  have next_inst := laid.nextIp_eq small (mem_append_right before mem_cons_self)
  obtain ⟨short, -⟩ | ⟨-, copies, encoded, rfl⟩ := outcome
  · omega
  rw [borrowed_behind before run rest inst last] at encoded
  cases copies with
  | none => trivial
  | some post => exact ⟨run, last, rest, rfl, rfl, span, falls, encoded⟩

theorem planSite_chosen
    (planned : planSite targets trampolineBase trampolineLen (before ++ inst :: behind) before.length inst = .ok plan) :
    plan.Chosen trampolineBase trampolineLen before inst behind := by
  obtain ⟨-, planned⟩ | ⟨start, startIdx, found, outcome⟩ := planSite_eq_ok planned
  · exact planForward_chosen laid small planned
  obtain ⟨front, first, run, rfl, rfl, rfl, span, falls⟩ := searchBack_eq_some found
  have before_inst := laid.split.1.bounds (mem_append_right front mem_cons_self)
  obtain ⟨short, -⟩ | ⟨-, copies, encoded, ⟨pre, rfl, rfl⟩ | ⟨-, planned⟩⟩ := outcome
  · omega
  · rw [take_left, drop_left] at encoded
    exact ⟨front, first, run, rfl, rfl, span, falls, encoded⟩
  · exact planForward_chosen laid small planned

end Sited

end LiteBox.Rewriter
