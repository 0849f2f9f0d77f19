import LiteBox.Mm.Insert

/-! # The program break

`brk` rounds the old and the new break to pages and unmaps or maps the pages between them. It is meant to
answer with an address on every path: the requested break, or the old one with nothing changed.
-/

namespace LiteBox.Mm

open Prog PageRange Vmem

variable {H : Type} [DecidableEq H]

/-! ## Rounding -/

def roundUp (a : ℕ) : ℕ := (a + (pageSize - 1)) / pageSize * pageSize

theorem dvd_roundUp (a : ℕ) : pageSize ∣ roundUp a := Dvd.intro_left _ rfl

theorem le_roundUp (a : ℕ) : a ≤ roundUp a := by
  simp only [roundUp, pageSize]
  omega

theorem roundUp_mono {a b : ℕ} (le : a ≤ b) : roundUp a ≤ roundUp b := by
  simp only [roundUp, pageSize]
  omega

/-- `next_multiple_of`, which overflows behind the last page. -/
def nextMultipleOf {ε : Type} (a : ℕ) : Prog (Vmem H) (Halt ε) ℕ := do
  when (roundUp a > usizeMax) (fail (.panic "attempt to add with overflow"))
  pure (roundUp a)

/-! ## The calls -/

/-- Turns an error into `none`; a panic goes on. -/
def caught {ε ε' α : Type} (program : Prog (Vmem H) (Halt ε) α) : Prog (Vmem H) (Halt ε') (Option α) := fun v =>
  match program v with
  | (.ok value, w) => (.ok (some value), w)
  | (.error (.error _), w) => (.ok none, w)
  | (.error (.panic what), w) => (.error (.panic what), w)

def PageRange.size (range : PageRange) : NonZeroPageSize :=
  ⟨range.length, range.length_pos, Nat.dvd_sub range.alignedStop range.alignedStart⟩

/-- The same pages at another page address. -/
theorem PageRange.moved (range : PageRange) {base : ℕ} (aligned : pageSize ∣ base) :
    ∃ there, new base (base + range.length) = some there ∧ there.toSpan = range.at_ base := by
  have stop : pageSize ∣ base + range.length := aligned.add (Nat.dvd_sub range.alignedStop range.alignedStart)
  exact ⟨⟨range.at_ base, aligned, stop⟩, new_eq_some.mpr ⟨rfl, rfl⟩, rfl⟩

def NonZeroAddress.new (address : ℕ) : Option NonZeroAddress :=
  if valid : address ≠ 0 ∧ pageSize ∣ address then some ⟨address, valid.1, valid.2⟩ else none

namespace PageManager

def setInitialBrk (brk : ℕ) : Prog (Vmem H) (Halt MappingError) Unit := do
  let v ← get
  when (v.brk ≠ 0) (fail (.panic "initial brk is already set"))
  modify ({ · with brk })

def setBrk (brk : ℕ) : Prog (Vmem H) (Halt MappingError) ℕ := do
  modify ({ · with brk })
  pure brk

def currentBrk : Prog (Vmem H) (Halt MappingError) ℕ := do
  let v ← get
  pure v.brk

def shrink (platform : Platform H) (range : PageRange) (brk : ℕ) : Prog (Vmem H) (Halt MappingError) ℕ := do
  match ← caught (removeMapping platform range.toSpan) with
  | some () => setBrk brk
  | none => currentBrk

def grow (platform : Platform H) (range : PageRange) (brk : ℕ) : Prog (Vmem H) (Halt MappingError) ℕ := do
  let address ← ofOption (.panic "called `Option::unwrap()` on a `None` value") (NonZeroAddress.new range.start)
  match ← caught (createPages platform (some address) range.size { fixedAddr := true, populatePagesImmediately := true }
    (.read ||| .write)) with
  | none => currentBrk
  | some placed =>
    if placed = range.start then setBrk brk
    else do
      -- The platform may answer a fixed request with another place, which is no use for a heap.
      let misplaced ← ofOption (.error .unAligned) (new placed (placed + range.length))
      let _ ← caught (removeMapping platform misplaced.toSpan)
      currentBrk

def brk (platform : Platform H) (request : ℕ) : Prog (Vmem H) (Halt MappingError) ℕ := do
  let v ← get
  when (v.brk = 0) (fail (.panic "initial brk is not set yet"))
  if request = 0 then pure v.brk
  else do
    let oldBrk ← nextMultipleOf v.brk
    let newBrk ← nextMultipleOf request
    if request ≤ v.brk then do
      let range ← ofOption (.error .unAligned) (new newBrk oldBrk)
      shrink platform range request
    else if v.vmas.overlaps oldBrk newBrk then pure v.brk
    else
      match new oldBrk newBrk with
      | none => setBrk request
      | some range => grow platform range request

end PageManager

/-! ## Removing -/

variable {range : PageRange}

section

variable (platform : Platform H)

include platform

theorem removeMapping_raises (range : Span) :
    Prog.Raises (fun failure => ∃ error, failure = .error error) (removeMapping platform range) := by
  refine .bind .get fun v => .bind (.forM fun overlap => ?_) fun _ => .bind (.when (.mapError _ fun failure => ⟨_, rfl⟩)) fun _ =>
    .bind (.modify _) fun _ => .modify _
  refine .bind .get fun v => ?_
  split
  · exact .mapError _ fun failure => by cases failure <;> exact ⟨_, rfl⟩
  · split
    · exact .bind (.attempt _) fun _ => .pure _
    · exact .pure _

/-- A removal ends with the range gone from the map, or with an error and the map as it was. -/
theorem removeMapping_cases (range : Span) (v : Vmem H) :
    (∃ w, removeMapping platform range v = (.ok (), w) ∧ w.vmas = v.vmas.remove range ∧ w.brk = v.brk) ∨
      ∃ failure w, removeMapping platform range v = (.error (.error failure), w) ∧ w.vmas = v.vmas ∧ w.brk = v.brk := by
  rcases ran : removeMapping platform range v with ⟨failure | ⟨⟩, w⟩
  · obtain ⟨error, rfl⟩ : ∃ error, failure = .error error := by
      refine removeMapping_raises platform range v failure ?_
      rw [ran]
    refine .inr ⟨error, w, rfl, ?_⟩
    have same : Asked (fun _ => True) v w := by
      have views := Prog.Keeps.forM (fun overlap (_ : overlap ∈ v.sharedOverlaps range) =>
        removeShared_asks (fun _ => True) (fun _ _ => trivial) (fun _ _ _ => trivial) platform range overlap v) v (.refl v)
      obtain ended | ⟨_, _, got, ran⟩ := bind_eq_error.mp ran
      · cases ended
      cases got
      obtain ended | ⟨_, u, loop, ran⟩ := bind_eq_error.mp ran
      · rwa [ended] at views
      rw [loop] at views
      obtain ended | ⟨_, _, _, ran⟩ := bind_eq_error.mp ran
      · have given : Prog.Keeps (Asked (fun _ => True) v) (when (v.sharedOverlaps range = [])
            ((platform.deallocate range).mapError fun failure => Halt.error (VmemUnmapError.unmapError failure))) :=
          .when (.mapError (.ask fun _ => trivial))
        have after := given u views
        rwa [ended] at after
      · obtain ended | ⟨_, _, _, ended⟩ := bind_eq_error.mp ran <;> cases ended
    exact ⟨same.1, same.2.1⟩
  · obtain ⟨vmas, brk, -⟩ := removeMapping_ok ran
    exact .inl ⟨w, rfl, vmas, brk⟩

/-! ## Growing -/

def heapFlags : VmFlags := .vmRead ||| .vmWrite ||| .vmMayAccessFlags

/-- The area of new heap pages. -/
def heapArea : VmArea H := .new heapFlags false

/-- The request for new heap pages, with the platform's answer. -/
def heapRequest (platform : Platform H) (v : Vmem H) (range : Span) : Except AllocationError ℕ :=
  platform.allocatePages v.calls range (.read ||| .write) false true .replace

def heapRequested (platform : Platform H) (v : Vmem H) (range : Span) : Vmem H :=
  { v with calls := v.calls ++ [.allocatePages range (.read ||| .write) false true .replace (heapRequest platform v range)] }

theorem getUnmmapedArea_fixed_eq (vmas : RangeMap (VmArea H)) (address : NonZeroAddress) (size : ℕ)
    (isGrowsdown : Bool) : getUnmmapedArea platform vmas (some address) size true isGrowsdown =
      if address.address + size ≤ platform.taskAddrMax then some address.address else none := by
  simp only [getUnmmapedArea, true_or, if_true]
  split_ifs <;> first | rfl | omega

variable {address : NonZeroAddress}

/-- A fixed private mapping, spelled out. -/
theorem createMapping_fixed (same : address.address = range.start)
    (fits : range.stop ≤ usizeMax) {vma : VmArea H} (bare : vma.reservedExtra = 0) {flags : Vmem.CreatePagesFlags}
    (fixed : flags.fixedAddr = true) (tight : flags.ensureSpaceAfter = false) (v : Vmem H) :
    createMapping platform (some address) range.size vma flags v =
      if range.stop ≤ platform.taskAddrMax then
        insertMapping platform range vma flags.populatePagesImmediately flags.behavior v
      else (.error (.error .outOfMemory), v) := by
  have stop : range.start + range.length = range.stop := range.start_add_length
  have whole : new range.start (range.start + range.size.size) = some range :=
    new_eq_some.mpr ⟨rfl, stop.symm⟩
  have area : { vma with reservedExtra := 0 } = vma := by rw [← bare]
  have small : ¬range.size.size > usizeMax := by
    simp only [size]
    omega
  simp only [createMapping, tight, fixed, Bool.false_eq_true, if_false, Bool.not_true, Bool.false_and, area, when,
    getUnmmapedArea_fixed_eq, same, Nat.add_zero, small]
  simp only [bind_apply, pure_apply, get_apply]
  by_cases inside : range.start + range.size.size ≤ platform.taskAddrMax
  · rw [if_pos inside, if_pos (by simpa only [size, stop] using inside)]
    simp only [ofOption, pure_apply, whole]
  · rw [if_neg inside, if_neg (by simpa only [size, stop] using inside)]
    rfl

/-- New heap pages: refused when they are out of bounds, and up to the platform otherwise. -/
theorem createPages_heap (same : address.address = range.start)
    (fits : range.stop ≤ usizeMax) {v : Vmem H} (free : v.vmas.overlaps range.start range.stop = false) :
    createPages platform (some address) range.size { fixedAddr := true, populatePagesImmediately := true }
        (.read ||| .write) v =
      if range.stop ≤ platform.taskAddrMax then
        if range.start < platform.taskAddrMin then (.error (.error (.mapError .belowMinAddress)), v)
        else
          match heapRequest platform v range.toSpan with
          | .error failure => (.error (liftMapping (allocateFailure failure)), heapRequested platform v range.toSpan)
          | .ok base => (.ok base, (heapRequested platform v range.toSpan).insertVma (range.at_ base) heapArea)
      else (.error (.error (.mapError .outOfMemory)), v) := by
  have access : VmFlags.ofPermissions? (MemoryRegionPermissions.read ||| .write) = some (.vmRead ||| .vmWrite) := by decide
  have flags : VmFlags.vmRead ||| .vmWrite ||| .mayFlagsForMapping false false ||| 0 = heapFlags := by decide
  have area : VmArea.new heapFlags false = (heapArea : VmArea H) := rfl
  have areaFlags : (heapArea : VmArea H).flags = heapFlags := rfl
  have permissions : accessPermissions heapFlags = .read ||| .write := by decide
  have upwards : heapFlags.contains .vmGrowsDown = false := by decide
  have unrefused : v.checkFixed range.toSpan .replace = none := by simp [checkFixed, free]
  simp only [createPages, access, ofOption, newArea, Bool.false_and, Bool.false_eq_true, if_false, flags,
    bind_apply, pure_apply, mapError]
  rw [createMapping_fixed platform same fits rfl rfl rfl]
  by_cases high : range.stop ≤ platform.taskAddrMax
  · rw [if_pos high, if_pos high, insertMapping_private rfl]
    simp only [Vmem.CreatePagesFlags.behavior, if_true, Bool.false_eq_true, if_false, slide_replace, unrefused]
    by_cases low : range.start < platform.taskAddrMin
    · rw [if_pos low, if_pos low]
      rfl
    · rw [if_neg low, if_neg low, if_neg (not_lt.mpr high), area, areaFlags, permissions, upwards]
      simp only [heapRequest, heapRequested]
      cases platform.allocatePages v.calls range.toSpan (.read ||| .write) false true .replace <;> rfl
  · rw [if_neg high, if_neg high]
    rfl

end

/-! ## What `brk` answers -/

/-- The call answers with the break after it, which is the requested one, or the old one with the map unchanged. -/
def BrkAnswers (v : Vmem H) (request : ℕ) (result : Except (Halt MappingError) ℕ × Vmem H) : Prop :=
  ∃ b w, result = (.ok b, w) ∧ w.brk = b ∧ (b = request ∨ b = v.brk) ∧ (b = v.brk → ∀ a, w.vmas.get a = v.vmas.get a)

/-- If the platform answers the request for new heap pages with another place, the place is page aligned and
what is tracked there in the end was tracked there before: nothing, if the pages can be given back. -/
def RelocationUndone (platform : Platform H) (v : Vmem H) (range : Span) : Prop :=
  ∀ base, heapRequest platform v range = .ok base → base ≠ range.start → pageSize ∣ base ∧
    ∀ a ∈ range.at_ base, v.vmas.get a =
      match platform.deallocatePages (heapRequested platform v range).calls (range.at_ base) with
      | .ok () => none
      | .error _ => some heapArea

/-- The requests that `brk` handles. -/
def BrkHandles (platform : Platform H) (v : Vmem H) (request : ℕ) : Prop :=
  request = 0 ∨ roundUp v.brk ≤ usizeMax ∧ roundUp request ≤ usizeMax ∧
    (request ≤ v.brk → roundUp request < roundUp v.brk) ∧
    (v.brk < request → ∀ range : PageRange, range.start = roundUp v.brk → range.stop = roundUp request →
      v.vmas.overlaps range.start range.stop = false → platform.taskAddrMin ≤ range.start → range.stop ≤ platform.taskAddrMax →
        RelocationUndone platform v range.toSpan)

section Answers

variable {platform : Platform H} {v : Vmem H} {request : ℕ}

theorem brkAnswers_old (w : Vmem H) (brk : w.brk = v.brk) (same : ∀ a, w.vmas.get a = v.vmas.get a) :
    BrkAnswers v request (.ok v.brk, w) := ⟨v.brk, w, rfl, brk, .inr rfl, fun _ => same⟩

theorem brkAnswers_new {w : Vmem H} (moved : request ≠ v.brk) : BrkAnswers v request (.ok request, { w with brk := request }) :=
  ⟨request, _, rfl, rfl, .inl rfl, fun same => absurd same moved⟩

theorem not_brkAnswers_error (failure : Halt MappingError) (w : Vmem H) : ¬BrkAnswers v request (.error failure, w) :=
  fun ⟨_, _, eq, _⟩ => by cases eq

theorem shrink_answers (range : PageRange) (moved : request ≠ v.brk) : BrkAnswers v request
    (PageManager.shrink platform range request v) := by
  obtain ⟨w, ran, -⟩ | ⟨failure, w, ran, vmas, brk⟩ := removeMapping_cases platform range.toSpan v
  · simp only [PageManager.shrink, caught, bind_apply, ran]
    exact brkAnswers_new moved
  · simp only [PageManager.shrink, caught, bind_apply, ran]
    show BrkAnswers v request (.ok w.brk, w)
    rw [brk]
    exact brkAnswers_old w brk fun a => by rw [vmas]

/-- A relocated growth: the misplaced pages are tracked, and removed again if they can be given back. -/
theorem undo_answers_iff {misplaced : PageRange} {base : ℕ} (place : misplaced.toSpan = range.at_ base) :
    BrkAnswers v request ((do
        let _ ← caught (removeMapping platform misplaced.toSpan)
        PageManager.currentBrk) ((heapRequested platform v range.toSpan).insertVma (range.at_ base) heapArea)) ↔
      ∀ a ∈ range.at_ base, v.vmas.get a =
        match platform.deallocatePages (heapRequested platform v range.toSpan).calls (range.at_ base) with
        | .ok () => none
        | .error _ => some heapArea := by
  set u := (heapRequested platform v range.toSpan).insertVma (range.at_ base) heapArea
  have tracked : ∀ a, u.vmas.get a = if a ∈ range.at_ base then some heapArea else v.vmas.get a := by
    intro a
    exact RangeMap.get_insert_of_fresh fun other => VmArea.same_of_private rfl other
  have noViews : u.sharedOverlaps misplaced.toSpan = [] := by
    refine sharedOverlaps_eq_nil.mpr fun a inside vma found => ?_
    rw [tracked, ← place, if_pos inside] at found
    cases found
    exact VmArea.viewExtent_of_private rfl
  have answers : ∀ (w : Vmem H) (left : Option (VmArea H)), w.brk = v.brk →
      (∀ a, w.vmas.get a = if a ∈ range.at_ base then left else v.vmas.get a) →
        (BrkAnswers v request (.ok w.brk, w) ↔ ∀ a ∈ range.at_ base, v.vmas.get a = left) := by
    intro w left brk vmas
    rw [brk]
    constructor
    · rintro ⟨_, _, ⟨⟩, -, -, same⟩ a inside
      rw [← same rfl a, vmas, if_pos inside]
    · intro same
      refine brkAnswers_old w brk fun a => ?_
      rw [vmas]
      split
      · next inside => exact (same a inside).symm
      · rfl
  have removal := @removeMapping_private _ _ _ _ platform noViews
  rw [place] at removal ⊢
  simp only [bind_apply, caught, removal]
  have calls : u.calls = (heapRequested platform v range.toSpan).calls := rfl
  rw [calls]
  cases platform.deallocatePages (heapRequested platform v range.toSpan).calls (range.at_ base) with
  | error failure => exact answers _ (some heapArea) rfl tracked
  | ok _ =>
    refine answers _ none rfl fun a => ?_
    simp only [removeVma, RangeMap.get_remove, tracked]
    split <;> rfl

theorem grow_answers_iff (moved : request ≠ v.brk) (nonzero : range.start ≠ 0) (fits : range.stop ≤ usizeMax)
    (free : v.vmas.overlaps range.start range.stop = false) :
    BrkAnswers v request (PageManager.grow platform range request v) ↔
      (platform.taskAddrMin ≤ range.start → range.stop ≤ platform.taskAddrMax → RelocationUndone platform v range.toSpan) := by
  have address : NonZeroAddress.new range.start = some ⟨range.start, nonzero, range.alignedStart⟩ :=
    dif_pos ⟨nonzero, range.alignedStart⟩
  have pages := createPages_heap platform (show (⟨range.start, nonzero, range.alignedStart⟩ : NonZeroAddress).address = _ from rfl) fits free
  simp only [PageManager.grow, address, ofOption, bind_apply, pure_apply, caught, pages]
  have old : ∀ w : Vmem H, w.brk = v.brk → (∀ a, w.vmas.get a = v.vmas.get a) → BrkAnswers v request (PageManager.currentBrk w) := by
    intro w brk same
    show BrkAnswers v request (.ok w.brk, w)
    rw [brk]
    exact brkAnswers_old w brk same
  by_cases high : range.stop ≤ platform.taskAddrMax
  · rw [if_pos high]
    by_cases low : range.start < platform.taskAddrMin
    · rw [if_pos low]
      exact ⟨fun _ above => absurd above (not_le.mpr low), fun _ => old v rfl fun _ => rfl⟩
    · rw [if_neg low]
      simp only [not_lt.mp low, high, forall_const]
      cases answer : heapRequest platform v range.toSpan with
      | error failure =>
        have refused : ∃ reason, liftMapping (allocateFailure failure) = .error reason := by
          cases failure <;> exact ⟨_, rfl⟩
        obtain ⟨reason, eq⟩ := refused
        simp only [eq]
        refine ⟨fun _ base given => ?_, fun _ => old _ rfl fun _ => rfl⟩
        rw [answer] at given
        cases given
      | ok base =>
        by_cases there : base = range.start
        · simp only [there, if_true]
          refine ⟨fun _ other given elsewhere => ?_, fun _ => brkAnswers_new moved⟩
          rw [answer] at given
          cases given
          exact absurd there elsewhere
        · simp only [there, if_false]
          have undone : RelocationUndone platform v range.toSpan ↔ pageSize ∣ base ∧ ∀ a ∈ range.at_ base, v.vmas.get a =
              match platform.deallocatePages (heapRequested platform v range.toSpan).calls (range.at_ base) with
              | .ok () => none
              | .error _ => some heapArea := by
            constructor
            · exact fun undone => undone base answer there
            · intro undone other given _
              rw [answer] at given
              cases given
              exact undone
          rw [undone]
          by_cases aligned : pageSize ∣ base
          · obtain ⟨misplaced, made, place⟩ := PageRange.moved range aligned
            rw [and_iff_right aligned, made]
            exact undo_answers_iff place
          · have none : new base (base + range.length) = none := new_eq_none.mpr fun valid => aligned valid.1
            rw [none]
            exact ⟨fun answers => absurd answers (not_brkAnswers_error _ _), fun both => absurd both.1 aligned⟩
  · rw [if_neg high]
    exact ⟨fun _ _ below => absurd below high, fun _ => old v rfl fun _ => rfl⟩

end Answers

/-- With a break set, `brk` answers as documented exactly for the requests that it handles. -/
theorem brk_answers_iff (platform : Platform H) (v : Vmem H) (set : v.brk ≠ 0) (request : ℕ) :
    BrkAnswers v request (PageManager.brk platform request v) ↔ BrkHandles platform v request := by
  simp only [PageManager.brk, bind_apply, get_apply, when, set, if_false, pure_apply]
  by_cases query : request = 0
  · rw [if_pos query]
    exact ⟨fun _ => .inl query, fun _ => brkAnswers_old v rfl fun _ => rfl⟩
  simp only [query, if_false, nextMultipleOf, when, bind_apply, BrkHandles, false_or]
  by_cases fitsOld : roundUp v.brk > usizeMax
  · rw [if_pos fitsOld]
    exact ⟨fun answers => absurd answers (not_brkAnswers_error _ _), fun handles => absurd handles.1 (not_le.mpr fitsOld)⟩
  rw [if_neg fitsOld]
  by_cases fitsNew : roundUp request > usizeMax
  · rw [if_pos fitsNew]
    exact ⟨fun answers => absurd answers (not_brkAnswers_error _ _), fun handles => absurd handles.2.1 (not_le.mpr fitsNew)⟩
  rw [if_neg fitsNew]
  simp only [pure_apply, not_lt.mp fitsOld, not_lt.mp fitsNew, true_and]
  by_cases down : request ≤ v.brk
  · simp only [down, if_true, not_lt.mpr down, false_implies, and_true, forall_const]
    by_cases pages : roundUp request < roundUp v.brk
    · have range : new (roundUp request) (roundUp v.brk) = some _ :=
        dif_pos ⟨dvd_roundUp request, dvd_roundUp v.brk, pages⟩
      rw [range]
      refine iff_of_true (shrink_answers _ ?_) pages
      rintro rfl
      exact lt_irrefl _ pages
    · have empty : new (roundUp request) (roundUp v.brk) = none := new_eq_none.mpr fun valid => pages valid.2.2
      rw [empty]
      exact iff_of_false (not_brkAnswers_error _ _) pages
  · have up : v.brk < request := not_le.mp down
    simp only [down, if_false, false_implies, true_and, up, forall_const]
    by_cases overlaps : v.vmas.overlaps (roundUp v.brk) (roundUp request) = true
    · rw [if_pos overlaps]
      refine iff_of_true (brkAnswers_old v rfl fun _ => rfl) fun range start stop free => ?_
      rw [start, stop, overlaps] at free
      cases free
    · rw [if_neg overlaps]
      have free : v.vmas.overlaps (roundUp v.brk) (roundUp request) = false := Bool.eq_false_of_not_eq_true overlaps
      cases made : new (roundUp v.brk) (roundUp request) with
      | none =>
        refine iff_of_true (brkAnswers_new up.ne') fun range start stop => ?_
        rw [new_eq_some.mpr ⟨start, stop⟩] at made
        cases made
      | some range =>
        obtain ⟨start, stop⟩ := new_eq_some.mp made
        have nonzero : range.start ≠ 0 := by
          have positive := le_roundUp v.brk
          omega
        refine (grow_answers_iff up.ne' nonzero (by omega) (by rwa [start, stop])).trans ?_
        constructor
        · rintro undone other startOther stopOther -
          rw [new_eq_some.mpr ⟨startOther, stopOther⟩] at made
          cases made
          exact undone
        · intro undone
          exact undone range start stop (by rwa [start, stop])

/-! ## Requests within a page -/

/-- A break in the middle of a page, with nothing mapped. -/
def midPage : Vmem ℕ := { new [] with brk := 0x10800 }

theorem brk_answers_iff_growth : BrkAnswers midPage 0x13000 (PageManager.brk .obliging 0x13000 midPage) := by
  refine (brk_answers_iff .obliging midPage (by decide) 0x13000).mpr (.inr ⟨by decide, by decide, by decide, ?_⟩)
  rintro - range - - - - - base answer elsewhere
  cases answer
  exact absurd rfl elsewhere

/-- A platform that moves new pages out of the way and does not take them back. -/
def Platform.stubborn : Platform ℕ := { Platform.obliging with
  allocatePages _ _ _ _ _ _ := .ok 0x100000
  deallocatePages _ _ := .error .alreadyUnallocated }

/-- The current break and a smaller one in the same page are refused with an error, a break in the last page
panics, and pages that cannot be given back stay behind. -/
theorem brk_misanswers :
    (PageManager.brk .obliging 0x10800 midPage).1 = .error (.error .unAligned) ∧
      (PageManager.brk .obliging 0x10400 midPage).1 = .error (.error .unAligned) ∧
      (PageManager.brk .obliging usizeMax midPage).1 = .error (.panic "attempt to add with overflow") ∧
      (PageManager.brk .stubborn 0x13000 midPage).1 = .ok midPage.brk ∧
      (PageManager.brk .stubborn 0x13000 midPage).2.vmas.get 0x100000 ≠ midPage.vmas.get 0x100000 := by
  refine ⟨?_, ?_, ?_, ?_, ?_⟩ <;> decide +kernel

end LiteBox.Mm
