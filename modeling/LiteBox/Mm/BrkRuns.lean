import LiteBox.Lib.Run
import LiteBox.Mm.Brk

/-! # The heap over runs

What one call of `brk` does to the tracked mappings, and who owns the addresses between the initial and
the current break when other operations happen in between.
-/

namespace LiteBox.Mm

open Prog PageManager Vmem PageRange RangeMap

variable {H : Type} [DecidableEq H]

/-! ## One call -/

/-- Everything a call of `brk` can do to the break and the map. -/
inductive BrkStep (platform : Platform H) (v : Vmem H) (request : ℕ) (w : Vmem H) : Prop
  | unchanged (vmas : w.vmas = v.vmas) (brk : w.brk = v.brk)
  | within (page : roundUp request = roundUp v.brk) (vmas : w.vmas = v.vmas) (brk : w.brk = request)
  | shrunk (range : PageRange) (start : range.start = roundUp request) (stop : range.stop = roundUp v.brk)
      (vmas : w.vmas = v.vmas.remove range.toSpan) (brk : w.brk = request)
  | grown (range : PageRange) (start : range.start = roundUp v.brk) (stop : range.stop = roundUp request)
      (free : v.vmas.overlaps range.start range.stop = false)
      (vmas : w.vmas = v.vmas.insert VmArea.same range.toSpan heapArea) (brk : w.brk = request)
  | strayed (range : PageRange) (start : range.start = roundUp v.brk) (stop : range.stop = roundUp request) (base : ℕ)
      (answer : heapRequest platform v range.toSpan = .ok base) (elsewhere : base ≠ range.start) (brk : w.brk = v.brk)
      (undone : RelocationUndone platform v range.toSpan → ∀ a, w.vmas.get a = v.vmas.get a)

section Step

variable {platform : Platform H} {v : Vmem H} {request : ℕ} {range : PageRange}

theorem shrink_step (start : range.start = roundUp request) (stop : range.stop = roundUp v.brk) :
    BrkStep platform v request (shrink platform range request v).2 := by
  obtain ⟨w, ran, vmas, -⟩ | ⟨failure, w, ran, vmas, brk⟩ := removeMapping_cases platform range.toSpan v
  · simp only [shrink, caught, bind_apply, ran]
    exact .shrunk range start stop vmas rfl
  · simp only [shrink, caught, bind_apply, ran]
    exact .unchanged vmas brk

theorem undo_step {misplaced : PageRange} {base : ℕ} (place : misplaced.toSpan = range.at_ base)
    (elsewhere : base ≠ range.start)
    (start : range.start = roundUp v.brk) (stop : range.stop = roundUp request)
    (answer : heapRequest platform v range.toSpan = .ok base) :
    BrkStep platform v request ((do
      let _ ← caught (removeMapping platform misplaced.toSpan)
      currentBrk) ((heapRequested platform v range.toSpan).insertVma (range.at_ base) heapArea)).2 := by
  set u := (heapRequested platform v range.toSpan).insertVma (range.at_ base) heapArea
  have brk : ∀ w, (do
      let _ ← caught (removeMapping platform misplaced.toSpan)
      currentBrk) u = w → w.2.brk = v.brk := by
    rintro w rfl
    obtain ⟨w, ran, -, brk⟩ | ⟨failure, w, ran, -, brk⟩ := removeMapping_cases platform misplaced.toSpan u
    · simp only [bind_apply, caught, ran]
      exact brk
    · simp only [bind_apply, caught, ran]
      exact brk
  refine .strayed range start stop base answer elsewhere (brk _ rfl) fun undone => ?_
  obtain ⟨b, w, ran, same, -, kept⟩ := (@undo_answers_iff _ _ _ _ _ request _ _ place).mpr (undone base answer elsewhere).2
  have old := brk _ ran
  rw [ran]
  exact kept (same.symm.trans old)

theorem grow_step (nonzero : range.start ≠ 0) (fits : range.stop ≤ usizeMax)
    (free : v.vmas.overlaps range.start range.stop = false) (start : range.start = roundUp v.brk) (stop : range.stop = roundUp request) :
    BrkStep platform v request (grow platform range request v).2 := by
  have address : NonZeroAddress.new range.start = some ⟨range.start, nonzero, range.alignedStart⟩ :=
    dif_pos ⟨nonzero, range.alignedStart⟩
  have pages := createPages_heap platform (show (⟨range.start, nonzero, range.alignedStart⟩ : NonZeroAddress).address = _ from rfl) fits free
  simp only [grow, address, ofOption, bind_apply, pure_apply, caught, pages]
  by_cases high : range.stop ≤ platform.taskAddrMax
  · rw [if_pos high]
    by_cases low : range.start < platform.taskAddrMin
    · rw [if_pos low]
      exact .unchanged rfl rfl
    · rw [if_neg low]
      cases answer : heapRequest platform v range.toSpan with
      | error failure => cases failure <;> exact .unchanged rfl rfl
      | ok base =>
        by_cases there : base = range.start
        · simp only [there, if_true]
          refine .grown range start stop free ?_ rfl
          show v.vmas.insert VmArea.same (range.at_ range.start) heapArea = _
          rw [Span.at_start]
        · simp only [there, if_false]
          by_cases aligned : pageSize ∣ base
          · obtain ⟨misplaced, made, place⟩ := moved range aligned
            rw [made]
            exact undo_step place there start stop answer
          · have none : new base (base + range.length) = none := new_eq_none.mpr fun valid => aligned valid.1
            rw [none]
            exact .strayed range start stop base answer there rfl fun undone => absurd (undone base answer there).1 aligned
  · rw [if_neg high]
    exact .unchanged rfl rfl

theorem brk_step (platform : Platform H) (v : Vmem H) (request : ℕ) : BrkStep platform v request (brk platform request v).2 := by
  simp only [PageManager.brk, bind_apply, get_apply, when]
  by_cases unset : v.brk = 0
  · rw [if_pos unset]
    exact .unchanged rfl rfl
  rw [if_neg unset]
  by_cases query : request = 0
  · simp only [query, if_true, pure_apply]
    exact .unchanged rfl rfl
  simp only [query, if_false, nextMultipleOf, when, bind_apply, pure_apply]
  by_cases fitsOld : roundUp v.brk > usizeMax
  · rw [if_pos fitsOld]
    exact .unchanged rfl rfl
  rw [if_neg fitsOld]
  by_cases fitsNew : roundUp request > usizeMax
  · rw [if_pos fitsNew]
    exact .unchanged rfl rfl
  rw [if_neg fitsNew]
  simp only [pure_apply]
  by_cases down : request ≤ v.brk
  · simp only [down, if_true]
    cases made : new (roundUp request) (roundUp v.brk) with
    | none => exact .unchanged rfl rfl
    | some range =>
      obtain ⟨start, stop⟩ := new_eq_some.mp made
      exact shrink_step start stop
  · simp only [down, if_false]
    by_cases overlaps : v.vmas.overlaps (roundUp v.brk) (roundUp request) = true
    · rw [if_pos overlaps]
      exact .unchanged rfl rfl
    · rw [if_neg overlaps]
      cases made : new (roundUp v.brk) (roundUp request) with
      | none =>
        have up := roundUp_mono (not_le.mp down).le
        refine .within ?_ rfl rfl
        by_contra differ
        exact new_eq_none.mp made ⟨dvd_roundUp _, dvd_roundUp _, by omega⟩
      | some range =>
        obtain ⟨start, stop⟩ := new_eq_some.mp made
        have positive := le_roundUp v.brk
        exact grow_step (by omega) (by omega) (by rw [start, stop]; exact Bool.eq_false_of_not_eq_true overlaps) start stop

end Step

/-! ## Runs -/

/-- Any operation but `brk`, with the addresses at which it creates, replaces or removes a mapping. Changing a
mapping in its place, as `mprotect` does, is not one of these. -/
structure MappingOperation (H : Type) where
  apply : Vmem H → Vmem H
  touches : Vmem H → Set ℕ
  frame : ∀ v, ∀ a ∉ touches v, ((apply v).vmas.get a).isSome = (v.vmas.get a).isSome
  brk : ∀ v, (apply v).brk = v.brk

/-- An address space, and the addresses whose mappings are the work of `brk`. -/
structure HeapState (H : Type) where
  vm : Vmem H
  mine : Set ℕ

inductive HeapOp (H : Type)
  | brk (request : ℕ)
  | other (operation : MappingOperation H)

/-- A mapping is the work of `brk` from the call that made it to the operation that replaces or removes it. -/
def HeapOp.step (platform : Platform H) (s : HeapState H) : HeapOp H → HeapState H
  | .brk request =>
    let w := (PageManager.brk platform request s.vm).2
    ⟨w, {a | (w.vmas.get a).isSome ∧ (w.vmas.get a = s.vm.vmas.get a → a ∈ s.mine)}⟩
  | .other operation => ⟨operation.apply s.vm, s.mine \ operation.touches s.vm⟩

/-- The addresses of the heap. -/
def InHeap (initial : ℕ) (v : Vmem H) (a : ℕ) : Prop := roundUp initial ≤ a ∧ a < roundUp v.brk

/-- `brk` stays above the initial break, and others stay out of the heap. -/
def HeapOp.Spares (platform : Platform H) (initial : ℕ) (s : HeapState H) : HeapOp H → Prop
  | .brk request => request = 0 ∨ roundUp initial ≤ roundUp request ∧
      ∀ range : PageRange, range.start = roundUp s.vm.brk → range.stop = roundUp request → RelocationUndone platform s.vm range.toSpan
  | .other operation => ∀ a ∈ operation.touches s.vm, ¬InHeap initial s.vm a

/-- A call of `brk` changes addresses behind the initial break only, and only such as were free or its own. -/
def HeapOp.Confined (platform : Platform H) (initial : ℕ) (s : HeapState H) : HeapOp H → Prop
  | .brk request => ∀ a, ((HeapOp.brk request).step platform s).vm.vmas.get a ≠ s.vm.vmas.get a →
      roundUp initial ≤ a ∧ (s.vm.vmas.get a = none ∨ a ∈ s.mine)
  | .other _ => True

/-- The heap is what lies between the initial and the current break, all of it tracked. -/
def HeapExact (initial : ℕ) (s : HeapState H) : Prop :=
  (∀ a, a ∈ s.mine ↔ InHeap initial s.vm a) ∧ ∀ a ∈ s.mine, (s.vm.vmas.get a).isSome

section Runs

variable {platform : Platform H} {initial request : ℕ} {s : HeapState H}

theorem brk_zero (platform : Platform H) (v : Vmem H) : (brk platform 0 v).2 = v := by
  simp only [PageManager.brk, bind_apply, get_apply, when]
  by_cases unset : v.brk = 0
  · rw [if_pos unset]
    rfl
  · rw [if_neg unset]
    rfl

/-- What a step of a run keeps: the heap is exact, and the break is not below the initial one. -/
structure HeapKept (initial : ℕ) (s : HeapState H) : Prop where
  exact : HeapExact initial s
  floor : roundUp initial ≤ roundUp s.vm.brk

variable (kept : HeapKept initial s)

include kept

/-- A call that leaves the map as it was leaves the ownership as it was. -/
theorem brk_keeps_of_same (same : ∀ a, (brk platform request s.vm).2.vmas.get a = s.vm.vmas.get a)
    (page : roundUp (brk platform request s.vm).2.brk = roundUp s.vm.brk) :
    HeapOp.Confined platform initial s (.brk request) ∧ HeapKept initial ((HeapOp.brk request).step platform s) := by
  have mine : ∀ a, a ∈ ((HeapOp.brk request).step platform s).mine ↔ a ∈ s.mine := by
    intro a
    simp only [HeapOp.step, Set.mem_ofPred_eq, same, true_implies, and_iff_right_iff_imp]
    exact kept.exact.2 a
  refine ⟨fun a changed => absurd (same a) changed, ⟨fun a => ?_, fun a member => member.1⟩, ?_⟩
  · rw [mine, kept.exact.1]
    simp [InHeap, HeapOp.step, page]
  · exact kept.floor.trans_eq page.symm

/-- A call that only changes a range of free or own addresses, which it takes or gives back. -/
theorem brk_keeps_of_range {range : Span} (floor : roundUp initial ≤ range.start) {area : Option (VmArea H)}
    (areas : ∀ a, (PageManager.brk platform request s.vm).2.vmas.get a = if a ∈ range then area else s.vm.vmas.get a)
    (differs : ∀ a ∈ range, s.vm.vmas.get a ≠ area) (own : ∀ a ∈ range, s.vm.vmas.get a = none ∨ a ∈ s.mine)
    (above : roundUp initial ≤ roundUp (PageManager.brk platform request s.vm).2.brk)
    (bounds : ∀ a, InHeap initial (PageManager.brk platform request s.vm).2 a ↔
      if a ∈ range then area.isSome = true else InHeap initial s.vm a) :
    HeapOp.Confined platform initial s (.brk request) ∧ HeapKept initial ((HeapOp.brk request).step platform s) := by
  refine ⟨fun a changed => ?_, ⟨fun a => ?_, fun a member => member.1⟩, above⟩
  · by_cases inside : a ∈ range
    · exact ⟨floor.trans inside.1, own a inside⟩
    · exact absurd ((areas a).trans (if_neg inside)) changed
  · show _ ↔ InHeap initial (PageManager.brk platform request s.vm).2 a
    simp only [HeapOp.step, Set.mem_ofPred_eq, bounds, areas]
    by_cases inside : a ∈ range
    · simp [inside, (differs a inside).symm, false_implies]
    · simp only [inside, if_false, true_implies, ← kept.exact.1, and_iff_right_iff_imp]
      exact kept.exact.2 a

theorem brk_keeps (spares : HeapOp.Spares platform initial s (.brk request)) :
    HeapOp.Confined platform initial s (.brk request) ∧ HeapKept initial ((HeapOp.brk request).step platform s) := by
  obtain rfl | ⟨floor, handled⟩ := spares
  · exact brk_keeps_of_same kept (fun a => by rw [brk_zero]) (by rw [brk_zero])
  have low := kept.floor
  cases brk_step platform s.vm request with
  | unchanged vmas brk => exact brk_keeps_of_same kept (fun a => by rw [vmas]) (by rw [brk])
  | within page vmas brk => exact brk_keeps_of_same kept (fun a => by rw [vmas]) (by rw [brk, page])
  | strayed range start stop base answer elsewhere brk undone =>
    exact brk_keeps_of_same kept (undone (handled range start stop)) (by rw [brk])
  | shrunk range start stop vmas brk =>
    have nonempty := range.nonempty
    have own : ∀ a ∈ range.toSpan, a ∈ s.mine := by
      intro a inside
      exact (kept.exact.1 a).mpr ⟨(floor.trans_eq start.symm).trans inside.1, inside.2.trans_eq stop⟩
    refine brk_keeps_of_range kept (floor.trans_eq start.symm) (fun a => by rw [vmas, get_remove])
      (fun a inside untracked => ?_) (fun a inside => .inr (own a inside)) (floor.trans_eq (by rw [brk])) fun a => ?_
    · simpa [untracked] using kept.exact.2 a (own a inside)
    · simp only [InHeap, brk, Span.mem_iff, start, stop]
      by_cases inside : roundUp request ≤ a ∧ a < roundUp s.vm.brk
      · rw [if_pos inside]
        exact iff_of_false (by omega) nofun
      · rw [if_neg inside]
        omega
  | grown range start stop free vmas brk =>
    have untracked : ∀ a ∈ range.toSpan, s.vm.vmas.get a = none := fun a inside => overlaps_eq_false free a inside.1 inside.2
    have nonempty := range.nonempty
    refine brk_keeps_of_range kept (low.trans_eq start.symm)
      (fun a => by rw [vmas, get_insert_of_fresh fun other => VmArea.same_of_private rfl other])
      (fun a inside tracked => ?_) (fun a inside => .inl (untracked a inside)) (floor.trans_eq (by rw [brk])) fun a => ?_
    · rw [untracked a inside] at tracked
      cases tracked
    · simp only [InHeap, brk, Span.mem_iff, start, stop]
      by_cases inside : roundUp s.vm.brk ≤ a ∧ a < roundUp request
      · rw [if_pos inside]
        exact iff_of_true (by omega) rfl
      · rw [if_neg inside]
        omega

theorem other_keeps {operation : MappingOperation H}
    (spares : HeapOp.Spares platform initial s (.other operation)) : HeapKept initial ((HeapOp.other operation).step platform s) := by
  have untouched : ∀ a ∈ s.mine, a ∉ operation.touches s.vm := fun a own touched => spares a touched ((kept.exact.1 a).mp own)
  refine ⟨⟨fun a => ?_, fun a member => ?_⟩, ?_⟩
  · show a ∈ s.mine \ operation.touches s.vm ↔ _
    rw [Set.mem_sdiff, and_iff_left_of_imp (untouched a), kept.exact.1]
    simp [InHeap, HeapOp.step, operation.brk]
  · exact (operation.frame s.vm a member.2).trans (kept.exact.2 a member.1)
  · show roundUp initial ≤ roundUp (operation.apply s.vm).brk
    rw [operation.brk]
    exact kept.floor

end Runs

/-- The heap of a process that has just been given its break. -/
def HeapState.started (initial : ℕ) (v : Vmem H) : HeapState H := ⟨(setInitialBrk initial v).2, ∅⟩

/-- Over every run from the initial break on in which `brk` stays above it and nothing else touches the heap,
`brk` changes only its own memory, and the heap lies between the two breaks. -/
theorem heap_exact_always (platform : Platform H) (initial : ℕ) (v : Vmem H) (unset : v.brk = 0) (ops : List (HeapOp H))
    (spares : Run.Always (HeapOp.step platform) (HeapOp.Spares platform initial) (.started initial v) ops) :
    Run.Always (HeapOp.step platform) (HeapOp.Confined platform initial) (.started initial v) ops ∧
      HeapExact initial (Run.run (HeapOp.step platform) (.started initial v) ops) := by
  have start : HeapKept initial (HeapState.started initial v) := by
    have brk : (HeapState.started initial v).vm.brk = initial := by
      simp [HeapState.started, setInitialBrk, bind_apply, when, unset, Prog.modify]
    refine ⟨⟨fun a => ?_, by rintro _ ⟨⟩⟩, by rw [brk]⟩
    simp only [InHeap, brk]
    exact iff_of_false (Set.notMem_empty a) fun both => absurd both.1 (not_le.mpr both.2)
  have keep : ∀ s op, HeapKept initial s → HeapOp.Spares platform initial s op → HeapKept initial (HeapOp.step platform s op) := by
    rintro s (request | operation) kept spares
    · exact (brk_keeps kept spares).2
    · exact other_keeps kept spares
  refine ⟨spares.imp (HeapKept initial) start keep ?_, (spares.invariant (HeapKept initial) start keep).exact⟩
  rintro s (request | operation) kept spares
  · exact (brk_keeps kept spares).1
  · trivial

/-! ## Breaks below the initial one, and guests in the heap -/

/-- `munmap`, which touches the range it removes. -/
def MappingOperation.unmap (platform : Platform H) (range : Span) : MappingOperation H where
  apply v := (removeMapping platform range v).2
  touches _ := {a | a ∈ range}
  frame v a outside := by
    obtain ⟨w, ran, vmas, -⟩ | ⟨failure, w, ran, vmas, -⟩ := removeMapping_cases platform range v
    · rw [ran, vmas, get_remove, if_neg (show a ∉ range from outside)]
    · rw [ran, vmas]
  brk v := by
    obtain ⟨w, ran, -, brk⟩ | ⟨failure, w, ran, -, brk⟩ := removeMapping_cases platform range v
    · rw [ran, brk]
    · rw [ran, brk]

/-- A process with one page of data right below the break it is about to be given. -/
def dataBelow : Vmem ℕ :=
  (createPages .obliging (some ⟨0x10000, by decide, by decide⟩) onePage { fixedAddr := true } readWrite (.new [])).2

theorem heap_exact_always_growth : HeapExact 0x11000 (Run.run (HeapOp.step .obliging) (.started 0x11000 dataBelow)
    [.brk 0x14800, .other (.unmap .obliging ⟨0x10000, 0x11000, by decide⟩), .brk 0x12000]) := by
  have lawful : ∀ (v : Vmem ℕ) (range : PageRange), RelocationUndone .obliging v range.toSpan := by
    intro v range base answer elsewhere
    cases answer
    exact absurd rfl elsewhere
  refine (heap_exact_always .obliging 0x11000 dataBelow (by decide +kernel) _ ?_).2
  refine ⟨.inr ⟨by decide, fun range _ _ => lawful _ range⟩, ?_, .inr ⟨by decide, fun range _ _ => lawful _ range⟩, trivial⟩
  rintro a inside ⟨low, -⟩
  exact absurd inside.2 (not_lt.mpr low)

/-- A heap of one page. -/
def oneHeapPage : Vmem ℕ :=
  ((do
    setInitialBrk 0x11000
    brk .obliging 0x12000 : Prog (Vmem ℕ) (Halt MappingError) ℕ) dataBelow).2

/-- The page of the heap, unmapped and mapped again by the guest. -/
def guestInHeap : Vmem ℕ :=
  (createPages .obliging (some ⟨0x11000, by decide, by decide⟩) onePage { fixedAddr := true } .read
    (removeMapping .obliging ⟨0x11000, 0x12000, by decide⟩ oneHeapPage).2).2

/-- A request below the initial break unmaps the data there, unmapping a part of the heap leaves a hole in it,
and a mapping of the guest's own in the hole is unmapped by the next smaller break. -/
theorem heap_not_confined :
    (dataBelow.vmas.get 0x10000).isSome ∧ (brk .obliging 0x10000 oneHeapPage).2.vmas.get 0x10000 = none ∧
      (removeMapping .obliging ⟨0x11000, 0x12000, by decide⟩ oneHeapPage).2.vmas.get 0x11000 = none ∧
      guestInHeap.brk = 0x12000 ∧ guestInHeap.vmas.get 0x11000 = some (.new (.vmRead ||| .vmMayAccessFlags) false) ∧
      (brk .obliging 0x11000 guestInHeap).2.vmas.get 0x11000 = none := by
  refine ⟨?_, ?_, ?_, ?_, ?_, ?_⟩ <;> decide +kernel

end LiteBox.Mm
