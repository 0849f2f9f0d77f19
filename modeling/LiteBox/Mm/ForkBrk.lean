import LiteBox.Mm.BrkRuns
import LiteBox.Mm.ForkPrivate

/-! # The program break after a fork

The child's break is found by asking which copied mapping contains the parent's. The break is the end of
the heap, so a break at a page boundary lies outside the heap, in the next mapping or in none.
-/

namespace LiteBox.Mm

open Vmem List PageManager RangeMap

variable {H : Type}

/-! ## The heap of a run -/

/-- An address space with the start of its heap. -/
structure Heap (H : Type) where
  vm : Vmem H
  start : ℕ

inductive BrkCall
  | setInitialBrk (brk : ℕ)
  | brk (request : ℕ)

/-- The heap starts at the initial break, or at the lowest break since. -/
def BrkCall.step [DecidableEq H] (platform : Platform H) (s : Heap H) : BrkCall → Heap H
  | .setInitialBrk initial =>
    let w := (PageManager.setInitialBrk initial s.vm).2
    ⟨w, if s.vm.brk = 0 then roundUp w.brk else s.start⟩
  | .brk request =>
    let w := (PageManager.brk platform request s.vm).2
    ⟨w, min s.start (roundUp w.brk)⟩

/-- The heap is mapped up to the break. -/
structure Heap.Mapped (s : Heap H) : Prop where
  aligned : pageSize ∣ s.start
  areas : ∀ a, s.start ≤ a → a < roundUp s.vm.brk → s.vm.vmas.get a = some heapArea

section Runs

variable [DecidableEq H] {platform : Platform H} {s : Heap H}

theorem setInitialBrk_snd (brk : ℕ) (v : Vmem H) : (setInitialBrk brk v).2 = if v.brk = 0 then { v with brk } else v := by
  by_cases unset : v.brk = 0 <;>
    simp [setInitialBrk, Prog.bind_apply, Prog.when, unset, Prog.modify, Prog.fail]

theorem setInitialBrk_keeps (mapped : s.Mapped) (brk : ℕ) : (BrkCall.step platform s (.setInitialBrk brk)).Mapped := by
  simp only [BrkCall.step, setInitialBrk_snd]
  by_cases unset : s.vm.brk = 0
  · simp only [unset, if_true]
    exact ⟨dvd_roundUp brk, fun a low high => absurd low (not_le.mpr high)⟩
  · simp only [unset, if_false]
    exact mapped

theorem brk_keeps_mapped (honours : platform.HonoursReplace) (mapped : s.Mapped) (request : ℕ) :
    (BrkCall.step platform s (.brk request)).Mapped := by
  refine ⟨?_, fun a low high => ?_⟩
  · show pageSize ∣ min s.start _
    obtain least | least := min_choice s.start (roundUp (PageManager.brk platform request s.vm).2.brk)
    · rw [least]
      exact mapped.aligned
    · rw [least]
      exact dvd_roundUp _
  · have low : s.start ≤ a := by
      change min s.start (roundUp (PageManager.brk platform request s.vm).2.brk) ≤ a at low
      change a < roundUp (brk platform request s.vm).2.brk at high
      omega
    change a < roundUp (PageManager.brk platform request s.vm).2.brk at high
    show (brk platform request s.vm).2.vmas.get a = some heapArea
    cases brk_step platform s.vm request with
    | unchanged vmas brk =>
      rw [brk] at high
      rw [vmas, mapped.areas a low high]
    | within page vmas brk =>
      rw [brk, page] at high
      rw [vmas, mapped.areas a low high]
    | shrunk range start stop vmas brk =>
      have nonempty := range.nonempty
      rw [brk] at high
      rw [vmas, get_remove, if_neg (by rw [Span.mem_iff]; omega), mapped.areas a low (by omega)]
    | grown range start stop free vmas brk =>
      rw [brk] at high
      rw [vmas, get_insert_of_fresh fun other => VmArea.same_of_private rfl other]
      split
      · rfl
      · next outside =>
        rw [Span.mem_iff] at outside
        exact mapped.areas a low (by omega)
    | strayed range start stop base answer elsewhere brk undone =>
      exact absurd (honours _ _ _ _ _ _ answer) elsewhere

theorem heap_mapped (honours : platform.HonoursReplace) {v : Vmem H} (unset : v.brk = 0) (calls : List BrkCall) :
    (Run.run (BrkCall.step platform) ⟨v, 0⟩ calls).Mapped := by
  have start : Heap.Mapped ⟨v, 0⟩ := by
    refine ⟨dvd_zero _, fun a _ high => ?_⟩
    simp [unset, roundUp, pageSize] at high
  generalize (⟨v, 0⟩ : Heap H) = s at start
  induction calls generalizing s with
  | nil => exact start
  | cons call rest ih =>
    refine ih _ ?_
    cases call with
    | setInitialBrk brk => exact setInitialBrk_keeps start brk
    | brk request => exact brk_keeps_mapped honours start request

end Runs

/-! ## The child's break -/

/-- The break moves with the only mapping that contains it. -/
theorem relocatedBrk_eq {brk : ℕ} (set : brk ≠ 0) {relocations : List DuplicatedRange} {relocation : DuplicatedRange}
    (listed : relocation ∈ relocations) (inside : brk ∈ relocation.source)
    (only : ∀ other ∈ relocations, brk ∈ other.source → other = relocation) :
    relocatedBrk brk relocations = relocation.destBase + (brk - relocation.source.start) := by
  obtain ⟨found, some⟩ : ∃ found, relocations.reverse.find? (fun one => decide (brk ∈ one.source)) = some found := by
    rw [← Option.isSome_iff_exists]
    exact find?_isSome.mpr ⟨relocation, mem_reverse.mpr listed, by simpa using inside⟩
  have member : found ∈ relocations := mem_reverse.mp (mem_of_find?_eq_some some)
  have contains : brk ∈ found.source := by simpa using find?_some some
  simp [relocatedBrk, set, some, only found member contains]

/-- Private mappings without a gap between them belong to one group. -/
theorem sameGroup_of_contiguous {v : Vmem H} {low high : ℕ} (le : low ≤ high)
    (tracked : ∀ a, low ≤ a → a ≤ high → ∃ region, v.IsPrivate region ∧ a ∈ region.1) {first second : Span × VmArea H}
    (isPrivate : v.IsPrivate first) (inFirst : low ∈ first.1) (isPrivate' : v.IsPrivate second) (inSecond : high ∈ second.1) :
    v.SameGroup first second := by
  have sameRegion : ∀ {a} {region other : Span × VmArea H}, v.IsPrivate region → v.IsPrivate other → a ∈ region.1 → a ∈ other.1 →
      region = other := fun one two inOne inTwo =>
    disjoint (mem_filter.mp one.1).1 (mem_filter.mp two.1).1 inOne inTwo
  induction high, le using Nat.le_induction generalizing second with
  | base =>
    obtain rfl := sameRegion isPrivate isPrivate' inFirst inSecond
    exact .refl
  | succ high le ih =>
    obtain ⟨between, known, inside⟩ := tracked high le (Nat.le_succ high)
    have reached := ih (fun a low high => tracked a low (high.trans (Nat.le_succ _))) known inside
    by_cases same : high + 1 ∈ between.1
    · obtain rfl := sameRegion known isPrivate' same inSecond
      exact reached
    · refine reached.tail ⟨known, isPrivate', ?_⟩
      obtain ⟨lowBetween, highBetween⟩ := inside
      obtain ⟨lowSecond, highSecond⟩ := inSecond
      have ends : between.1.stop = high + 1 := by
        rw [Span.mem_iff] at same
        omega
      have stop : between.1.stop ≤ (reservedExtent between).stop := le_saturatingAdd _ _
      have stop' : second.1.stop ≤ (reservedExtent second).stop := le_saturatingAdd _ _
      have start : (reservedExtent between).start = between.1.start := rfl
      have start' : (reservedExtent second).start = second.1.start := rfl
      have reach := le_saturatingAdd (reservedExtent between).stop maxIntraGroupGap
      have reach' := le_saturatingAdd (reservedExtent second).stop maxIntraGroupGap
      exact ⟨by omega, by omega⟩

variable [DecidableEq H]

/-- The break is inside a page of the heap, or a private mapping that is copied contains it. -/
def Vmem.BreakCopied (v : Vmem H) : Prop :=
  ¬pageSize ∣ v.brk ∨ ∃ region ∈ v.forked, region.2.sharedHandle = none ∧ v.brk ∈ region.1

instance (v : Vmem H) : Decidable v.BreakCopied := inferInstanceAs (Decidable (_ ∨ ∃ _ ∈ _, _))

theorem forked_of_heapArea {v : Vmem H} {a : ℕ} (found : v.vmas.get a = some heapArea) :
    ∃ region ∈ v.forked, region.2.sharedHandle = none ∧ a ∈ region.1 := by
  obtain ⟨range, member, inside⟩ := get_eq_some.mp found
  refine ⟨(range, heapArea), mem_forked.mpr ⟨member, ?_, ?_, ?_⟩, rfl, inside⟩
  · show heapFlags.isEmpty = false
    decide
  · show heapFlags.contains .vmForeignLiveNeverReplace = false
    decide
  · show heapFlags.contains .vmDontFork = false
    decide

/-- After any calls of `brk`, a fork moves the break together with the start of the heap if the break lies
inside a page or a copied private mapping follows the heap. -/
theorem fork_moves_brk (platform : Platform H) (lawful : platform.Separates) (honours : platform.HonoursReplace) (v₀ : Vmem H)
    (unset : v₀.brk = 0) (calls : List BrkCall) (s : Heap H) (reached : Run.run (BrkCall.step platform) ⟨v₀, 0⟩ calls = s)
    (nonempty : s.start < roundUp s.vm.brk) (copied : s.vm.BreakCopied) (v w : Vmem H) (outcome : DuplicateOutcome)
    (ran : duplicate platform s.vm v = (.ok outcome, w)) (relocation : DuplicatedRange)
    (listed : relocation ∈ outcome.relocations) (moved : s.start ∈ relocation.source) :
    w.brk = relocation.destBase + (s.start - relocation.source.start) + (s.vm.brk - s.start) := by
  have mapped : s.Mapped := reached ▸ heap_mapped honours unset calls
  obtain ⟨groupBases, -, names, -, copies, -, brk⟩ := duplicate_ok lawful ran
  have below : s.start < s.vm.brk := by
    obtain ⟨k, start⟩ := mapped.aligned
    simp only [roundUp, pageSize] at nonempty start
    omega
  -- The break lies in a private mapping that is copied.
  obtain ⟨second, inherited', isPrivate', inSecond⟩ : ∃ region ∈ s.vm.forked, region.2.sharedHandle = none ∧ s.vm.brk ∈ region.1 := by
    obtain unaligned | inCopied := copied
    · have high : s.vm.brk < roundUp s.vm.brk := by
        refine lt_of_le_of_ne (le_roundUp _) fun same => unaligned ?_
        rw [same]
        exact dvd_roundUp _
      exact forked_of_heapArea (mapped.areas _ below.le high)
    · exact inCopied
  obtain ⟨first, inherited, base, rfl, -, inGroup⟩ := exists_of_mem_right copies listed
  have isPrivate : first.2.sharedHandle = none := by
    obtain ⟨region, member, isPrivate, inside⟩ := forked_of_heapArea (mapped.areas _ le_rfl nonempty)
    have same : first = region := disjoint (mem_forked.mp inherited).1 (mem_forked.mp member).1 moved inside
    rw [same, isPrivate]
  obtain ⟨_, listed', base', rfl, -, inGroup'⟩ := exists_of_mem_left copies inherited'
  -- Everything from the start of the heap to the break is private and without gaps.
  have same : s.vm.SameGroup first second := by
    refine sameGroup_of_contiguous below.le (fun a low high => ?_) (isPrivate_of_forked inherited isPrivate) moved
      (isPrivate_of_forked inherited' isPrivate') inSecond
    obtain before | rfl := high.lt_or_eq
    · obtain ⟨region, member, isPrivate, inside⟩ := forked_of_heapArea (mapped.areas a low (before.trans_le (le_roundUp _)))
      exact ⟨region, isPrivate_of_forked member isPrivate, inside⟩
    · exact ⟨second, isPrivate_of_forked inherited' isPrivate', inSecond⟩
  have offset := (inGroup isPrivate honours).offset names (isPrivate_of_forked inherited isPrivate)
    (isPrivate_of_forked inherited' isPrivate') same (inGroup' isPrivate' honours)
  have only : ∀ other ∈ outcome.relocations, s.vm.brk ∈ other.source → other = relocation second.1 second.2 base' := by
    intro other known inside
    have distinct : (outcome.relocations.map (·.source)).Nodup := sources_eq copies ▸ s.vm.forked_nodup
    obtain ⟨region, member, _, rfl, -⟩ := exists_of_mem_right copies known
    have same : region = second := disjoint (mem_forked.mp member).1 (mem_forked.mp inherited').1 inside inSecond
    exact inj_on_of_nodup_map distinct known listed' (congrArg Prod.fst same)
  rw [brk, relocatedBrk_eq (by omega) listed' inSecond only]
  have low := moved.1
  have low' := inSecond.1
  show base' + (s.vm.brk - second.1.start) = base + (s.start - first.1.start) + (s.vm.brk - s.start)
  change first.1.start ≤ s.start at low
  omega

/-! ## A break at a page boundary -/

/-- The heap after the calls, on an address space with nothing mapped. -/
def heapAfter (calls : List BrkCall) : Heap ℕ := Run.run (BrkCall.step .bumping) ⟨.new [], 0⟩ calls

theorem fork_moves_brk_unaligned : ∃ outcome w,
    duplicate .bumping (heapAfter [.setInitialBrk 0x11000, .brk 0x12000, .brk 0x13800]).vm
      (heapAfter [.setInitialBrk 0x11000, .brk 0x12000, .brk 0x13800]).vm.childOf = (.ok outcome, w) ∧
      ∃ relocation ∈ outcome.relocations, 0x11000 ∈ relocation.source ∧
        w.brk = relocation.destBase + (0x11000 - relocation.source.start) + 0x2800 := by
  obtain ⟨outcome, w, ran, relocation, listed, inside⟩ := duplicate_runs .bumping
    (heapAfter [.setInitialBrk 0x11000, .brk 0x12000, .brk 0x13800]).vm
    (fun outcome _ => ∃ relocation ∈ outcome.relocations, 0x11000 ∈ relocation.source) (by decide +kernel)
  have start : (heapAfter [.setInitialBrk 0x11000, .brk 0x12000, .brk 0x13800]).start = 0x11000 := by decide +kernel
  have brk : (heapAfter [.setInitialBrk 0x11000, .brk 0x12000, .brk 0x13800]).vm.brk = 0x13800 := by decide +kernel
  refine ⟨outcome, w, ran, relocation, listed, inside, ?_⟩
  have moved := fork_moves_brk .bumping Platform.bumping_separates Platform.bumping_honoursReplace (.new []) rfl _
    (heapAfter _) rfl (by decide +kernel) (by decide +kernel) _ w outcome ran relocation listed (start ▸ inside)
  rw [start, brk] at moved
  exact moved

/-- The heap moves from `0x11000` to `0x40000000`, but the break at its end stays where it was. -/
theorem aligned_brk_stays : ∃ outcome w,
    duplicate .bumping (heapAfter [.setInitialBrk 0x11000, .brk 0x13000]).vm
      (heapAfter [.setInitialBrk 0x11000, .brk 0x13000]).vm.childOf = (.ok outcome, w) ∧ w.brk = 0x13000 ∧
      ∃ relocation ∈ outcome.relocations, 0x11000 ∈ relocation.source ∧
        relocation.destBase + (0x11000 - relocation.source.start) = 0x40000000 := by
  exact duplicate_runs .bumping (heapAfter [.setInitialBrk 0x11000, .brk 0x13000]).vm
    (fun outcome w => w.brk = 0x13000 ∧ ∃ relocation ∈ outcome.relocations, 0x11000 ∈ relocation.source ∧
      relocation.destBase + (0x11000 - relocation.source.start) = 0x40000000) (by decide +kernel)

end LiteBox.Mm
