import LiteBox.Mm.Insert

/-! # Where a new mapping is placed

The address that `get_unmmaped_area` finds when the caller does not insist on one: whether it lies in the
task's address space and is free, how far it stays from its neighbours, and whether a hint can do harm.
-/

namespace LiteBox.Mm

open Vmem List Prog RangeMap Nat Platform PageRange

variable {H : Type} {platform : Platform H} {vmas : RangeMap (VmArea H)} {size a : ℕ} {isGrowsdown : Bool}

/-- The bounds of the address space and the tracked ranges consist of whole pages. -/
structure WholePages (platform : Platform H) (vmas : RangeMap (VmArea H)) : Prop where
  low : pageSize ∣ platform.taskAddrMin
  high : pageSize ∣ platform.taskAddrMax
  tracked : ∀ entry ∈ vmas.entries, pageSize ∣ entry.1.start ∧ pageSize ∣ entry.1.stop

/-- A place for `size` bytes: page-aligned, in the task's address space, and free. -/
structure Sound (platform : Platform H) (vmas : RangeMap (VmArea H)) (size a : ℕ) : Prop where
  aligned : pageSize ∣ a
  low : platform.taskAddrMin ≤ a
  high : a + size ≤ platform.taskAddrMax
  free : ∀ entry ∈ vmas.entries, entry.1.stop ≤ a ∨ a + size ≤ entry.1.start

theorem dvd_mappingGuardGap : pageSize ∣ mappingGuardGap platform := by
  simp only [mappingGuardGap]
  split <;> decide

/-- The probe moves down in whole pages, and what it accepts is free and not below the limit. -/
theorem probeDown_sound (pages : WholePages platform vmas) (whole : pageSize ∣ size) (probe : ℕ) (list : List (Span × VmArea H))
    (tracked : ∀ entry ∈ list, entry ∈ vmas.entries) (aligned : pageSize ∣ probe) (high : probe + size ≤ platform.taskAddrMax)
    (found : probeDown vmas size platform.taskAddrMin isGrowsdown probe list = some a) : Sound platform vmas size a := by
  induction list generalizing probe with
  | nil => cases found
  | cons entry rest ih =>
    obtain ⟨r, vma⟩ := entry
    have later := fun entry member => tracked entry (mem_cons_of_mem _ member)
    simp only [probeDown] at found
    generalize gapIs : (if vma.flags.contains .vmGrowsDown then 2 * stackGuardGap
      else if isGrowsdown then stackGuardGap else 0) = gap at found
    split at found
    · exact ih probe later aligned high found
    split at found
    next free =>
      cases found
      exact ⟨aligned, free.1, high, overlaps_eq_false_iff.mp free.2⟩
    split at found
    · cases found
    · have wholeGap : pageSize ∣ gap := by
        rw [← gapIs]
        split_ifs <;> decide
      have start : pageSize ∣ r.start := (pages.tracked _ (tracked _ mem_cons_self)).1
      exact ih _ later (dvd_sub start (dvd_add whole wholeGap)) (by omega) found

theorem gapBelow_sound (pages : WholePages platform vmas) (whole : pageSize ∣ size) (fits : size ≤ platform.taskAddrMax)
    (list : List (Span × VmArea H)) (tracked : ∀ entry ∈ list, entry ∈ vmas.entries)
    (found : gapBelow platform vmas size isGrowsdown list = some a) : Sound platform vmas size a := by
  induction list with
  | nil => cases found
  | cons entry rest ih =>
    obtain ⟨r, vma⟩ := entry
    simp only [gapBelow] at found
    generalize gapIs : max (if vma.flags.contains .vmGrowsDown then 2 * stackGuardGap else 0)
      (if isGrowsdown then stackGuardGap else mappingGuardGap platform) = gap at found
    split at found
    next accepted =>
      cases found
      obtain ⟨_, low, high, free⟩ := accepted
      have wholeGap : pageSize ∣ gap := by
        rw [← gapIs]
        have guard : pageSize ∣ mappingGuardGap platform := dvd_mappingGuardGap
        rcases max_choice (if vma.flags.contains .vmGrowsDown then 2 * stackGuardGap else 0)
          (if isGrowsdown then stackGuardGap else mappingGuardGap platform) with eq | eq <;> rw [eq] <;> split_ifs
        exacts [by decide, by decide, by decide, guard]
      have start : pageSize ∣ r.start := (pages.tracked _ (tracked _ mem_cons_self)).1
      exact ⟨dvd_sub start (dvd_add whole wholeGap), low, by omega, overlaps_eq_false_iff.mp free⟩
    · exact ih (fun entry member => tracked entry (mem_cons_of_mem _ member)) found

/-- Where the ranges all end below the task's address space, the top of it must hold the new range and its gap. -/
def Roomy (platform : Platform H) (vmas : RangeMap (VmArea H)) (size : ℕ) : Prop :=
  ∀ last ∈ vmas.lastRangeValue, last.1.stop < platform.taskAddrMin → last.1.stop + size ≤ platform.taskAddrMax →
    platform.taskAddrMin + size + mappingGuardGap platform ≤ platform.taskAddrMax

/-- The end of the last range, from which the search starts. -/
def lastEnd (platform : Platform H) (vmas : RangeMap (VmArea H)) : ℕ :=
  (vmas.lastRangeValue.map fun entry => entry.1.stop).getD platform.taskAddrMin

theorem lastEnd_eq : (vmas.lastRangeValue.map fun entry => entry.1.stop).getD platform.taskAddrMin = lastEnd platform vmas := rfl

variable (platform) in
theorem stop_le_lastEnd : ∀ entry ∈ vmas.entries, entry.1.stop ≤ lastEnd platform vmas := by
  intro entry member
  have ordered := vmas.ordered
  cases isLast : vmas.lastRangeValue with
  | none =>
    rw [getLast?_eq_none_iff.mp isLast] at member
    cases member
  | some last =>
    rw [lastEnd, isLast]
    obtain ⟨front, eq⟩ := getLast?_eq_some_iff.mp isLast
    rw [eq] at member ordered
    rcases mem_append.mp member with early | same
    · have before := (pairwise_append.mp ordered).2.2 entry early last mem_cons_self
      exact before.trans last.1.nonempty.le
    · rw [mem_singleton.mp same]
      exact le_rfl

theorem dvd_lastEnd (pages : WholePages platform vmas) : pageSize ∣ lastEnd platform vmas := by
  cases isLast : vmas.lastRangeValue with
  | none => simpa [lastEnd, isLast] using pages.low
  | some last => simpa [lastEnd, isLast] using (pages.tracked last (mem_of_getLast? isLast)).2

/-- The place at the top of the address space, a guard gap below its end if there is room for one. -/
theorem searchTopDown_top (reaches : lastEnd platform vmas + size ≤ platform.taskAddrMax)
    (plain : ¬(isGrowsdown ∧ lastEnd platform vmas > platform.taskAddrMin)) :
    searchTopDown platform vmas size isGrowsdown =
      some (platform.taskAddrMax - size -
        if lastEnd platform vmas ≤ platform.taskAddrMax - size - mappingGuardGap platform then
          mappingGuardGap platform else 0) := by
  have behind : lastEnd platform vmas ≤ platform.taskAddrMax - size := by omega
  rw [searchTopDown]
  dsimp only
  rw [lastEnd_eq, if_pos behind, if_neg plain]
  split_ifs with room fits fits
  · rfl
  · rw [room.resolve_right fits]
  · exact absurd (.inr fits) room
  · rfl

/-- Behind the last range the search takes a place there, and otherwise what it finds is a place. -/
theorem searchTopDown_cases (pages : WholePages platform vmas) (whole : pageSize ∣ size) (fits : size ≤ platform.taskAddrMax)
    (found : searchTopDown platform vmas size isGrowsdown = some a) :
    Sound platform vmas size a ∨ ¬(isGrowsdown ∧ lastEnd platform vmas > platform.taskAddrMin) ∧
      lastEnd platform vmas + size ≤ platform.taskAddrMax := by
  have tracked : ∀ entry ∈ vmas.entries.reverse, entry ∈ vmas.entries := fun _ => mem_reverse.mp
  have top : pageSize ∣ platform.taskAddrMax - size := dvd_sub pages.high whole
  have behind : ∀ entry ∈ vmas.entries, entry.1.stop ≤ lastEnd platform vmas := stop_le_lastEnd platform
  rw [searchTopDown] at found
  dsimp only at found
  rw [lastEnd_eq] at found
  split at found
  next reaches =>
    split at found
    next stack =>
      split at found
      · cases found
      split at found
      next room =>
        obtain rfl := Option.some.inj found
        refine .inl ⟨Nat.dvd_sub top (by decide), by omega, by omega, fun entry member => .inl ?_⟩
        exact (behind entry member).trans room
      · exact .inl (gapBelow_sound pages whole fits _ tracked found)
    next plain => exact .inr ⟨plain, by omega⟩
  · rcases Option.or_eq_some_iff.mp found with probed | ⟨_, scanned⟩
    · exact .inl (probeDown_sound pages whole _ _ tracked top (by omega) probed)
    · exact .inl (gapBelow_sound pages whole fits _ tracked scanned)

variable (isGrowsdown) in
theorem searchTopDown_sound_iff (pages : WholePages platform vmas) (whole : pageSize ∣ size) (fits : size ≤ platform.taskAddrMax) :
    (∀ a, searchTopDown platform vmas size isGrowsdown = some a → Sound platform vmas size a) ↔ Roomy platform vmas size := by
  constructor
  · intro sound last isLast below room
    have bound : lastEnd platform vmas = last.1.stop := by rw [lastEnd, Option.mem_def.mp isLast]; rfl
    have found : searchTopDown platform vmas size isGrowsdown = _ := searchTopDown_top (bound ▸ room) (by omega)
    have low := (sound _ found).low
    split at low
    · omega
    next full =>
      -- Both bounds are whole pages, so the last range ends where the new one would start.
      obtain ⟨k, top⟩ : pageSize ∣ platform.taskAddrMax - size := dvd_sub pages.high whole
      obtain ⟨l, stop⟩ := dvd_lastEnd pages
      have small : mappingGuardGap platform ≤ 4096 := by simp only [mappingGuardGap]; split <;> decide
      simp only [pageSize] at top stop
      omega
  · intro roomy a found
    rcases searchTopDown_cases pages whole fits found with sound | ⟨plain, reaches⟩
    · exact sound
    rw [searchTopDown_top reaches plain] at found
    obtain rfl := Option.some.inj found
    have behind : ∀ entry ∈ vmas.entries, entry.1.stop ≤ lastEnd platform vmas := stop_le_lastEnd platform
    have top : pageSize ∣ platform.taskAddrMax - size := dvd_sub pages.high whole
    have after : ∀ gap, lastEnd platform vmas ≤ platform.taskAddrMax - size - gap → pageSize ∣ gap →
        platform.taskAddrMin ≤ platform.taskAddrMax - size - gap → Sound platform vmas size (platform.taskAddrMax - size - gap) :=
      fun gap room wholeGap low => ⟨dvd_sub top wholeGap, low, by omega, fun entry member => .inl ((behind entry member).trans room)⟩
    have low : platform.taskAddrMin ≤ lastEnd platform vmas ∨
        platform.taskAddrMin + size + mappingGuardGap platform ≤ platform.taskAddrMax := by
      cases isLast : vmas.lastRangeValue with
      | none => simp [lastEnd, isLast]
      | some last =>
        have bound : lastEnd platform vmas = last.1.stop := by rw [lastEnd, isLast]; rfl
        rcases le_or_gt platform.taskAddrMin last.1.stop with inside | below
        · exact .inl (bound ▸ inside)
        · exact .inr (roomy last isLast below (bound ▸ reaches))
    split
    · exact after _ ‹_› dvd_mappingGuardGap (by omega)
    · exact after 0 (by omega) (dvd_zero _) (by omega)

theorem getUnmmapedArea_none :
    getUnmmapedArea platform vmas none size false isGrowsdown =
      if size > platform.taskAddrMax then none else searchTopDown platform vmas size isGrowsdown := by
  simp [getUnmmapedArea]

/-- A hint that is out of range ends the search, one that is taken changes nothing, and a free one is the answer. -/
theorem getUnmmapedArea_hint (hint : NonZeroAddress) :
    getUnmmapedArea platform vmas (some hint) size false isGrowsdown =
      if platform.taskAddrMax < hint.address + size then none
      else if vmas.overlaps hint.address (hint.address + size) = true then
        getUnmmapedArea platform vmas none size false isGrowsdown
      else some hint.address := by
  rw [getUnmmapedArea_none]
  simp only [getUnmmapedArea, Bool.false_eq_true, false_or]
  by_cases outside : platform.taskAddrMax < hint.address + size
  · rw [if_pos outside, ite_eq_left_iff]
    exact fun _ => if_pos (by omega)
  · have fits : ¬size > platform.taskAddrMax := by omega
    rw [if_neg outside, if_neg fits, if_neg fits, if_neg (by omega)]
    cases vmas.overlaps hint.address (hint.address + size) <;> rfl

/-- A hint leaves the choice to the search if it is in range but taken. -/
def Reached (platform : Platform H) (vmas : RangeMap (VmArea H)) (size : ℕ) (suggested : Option NonZeroAddress) : Prop :=
  ∀ hint ∈ suggested, hint.address + size ≤ platform.taskAddrMax ∧ vmas.overlaps hint.address (hint.address + size) = true

/-- An address that is found without being insisted on is a place for the mapping, exactly if a free hint is not
below the task's address space, and neither is the room behind the last range. -/
theorem getUnmmapedArea_sound_iff (pages : WholePages platform vmas) (suggested : Option NonZeroAddress) (length : NonZeroPageSize) :
    (∀ a, getUnmmapedArea platform vmas suggested length.size false isGrowsdown = some a →
        Sound platform vmas length.size a) ↔
      (∀ hint ∈ suggested, hint.address + length.size ≤ platform.taskAddrMax →
        vmas.overlaps hint.address (hint.address + length.size) = false → platform.taskAddrMin ≤ hint.address) ∧
      (Reached platform vmas length.size suggested → Roomy platform vmas length.size) := by
  have unhinted : (∀ a, getUnmmapedArea platform vmas none length.size false isGrowsdown = some a →
      Sound platform vmas length.size a) ↔ Roomy platform vmas length.size := by
    rw [getUnmmapedArea_none]
    split
    · exact iff_of_true nofun fun last _ _ room => by omega
    · exact searchTopDown_sound_iff isGrowsdown pages length.aligned (by omega)
  cases suggested with
  | none => simpa [Reached] using unhinted
  | some hint =>
    simp only [getUnmmapedArea_hint, Reached, Option.mem_def, Option.some.injEq, forall_eq']
    split_ifs with outside taken
    · simp [outside]
    · simp [taken, not_lt.mp outside, unhinted]
    · simp only [not_lt.mp outside, taken, Option.some.injEq, forall_eq', true_imp_iff, Bool.false_eq_true, and_false, false_imp_iff, and_true]
      exact ⟨Sound.low, fun low => ⟨hint.aligned, low, not_lt.mp outside, overlaps_eq_false_iff.mp (by simpa using taken)⟩⟩

/-- A platform whose address space starts higher up. -/
def highPlatform : Platform ℕ := { obliging with taskAddrMin := 0x10000 }

theorem neighbours_pages : WholePages highPlatform neighbours.vmas := ⟨by decide, by decide +kernel, by decide +kernel⟩

theorem getUnmmapedArea_sound_iff_neighbours : Sound highPlatform neighbours.vmas pageSize 0x7fffffffd000 := by
  have found : getUnmmapedArea highPlatform neighbours.vmas none onePage.size false false = some 0x7fffffffd000 := by
    decide +kernel
  refine (getUnmmapedArea_sound_iff neighbours_pages none onePage).mpr ⟨nofun, fun _ last isLast below => ?_⟩ _ found
  have bound : ∀ last ∈ neighbours.vmas.lastRangeValue, highPlatform.taskAddrMin ≤ last.1.stop := by decide +kernel
  exact absurd (bound last isLast) (not_le.mpr below)

/-- A free hint below the address space is taken as it is. -/
theorem low_hint_is_taken :
    getUnmmapedArea highPlatform neighbours.vmas (some ⟨0x8000, by decide, by decide⟩) onePage.size false false = some 0x8000 ∧
      0x8000 < highPlatform.taskAddrMin := by
  decide +kernel

/-! ## Guard gaps -/

/-- The range at `a` stays a guard gap away from every tracked range. -/
def Guarded (platform : Platform H) (vmas : RangeMap (VmArea H)) (size a : ℕ) : Prop :=
  ∀ entry ∈ vmas.entries, entry.1.stop + mappingGuardGap platform ≤ a ∨ a + size + mappingGuardGap platform ≤ entry.1.start

/-- What the search leaves free at the top of the address space. -/
def topGap (platform : Platform H) (vmas : RangeMap (VmArea H)) (isGrowsdown : Bool) : ℕ :=
  if isGrowsdown ∧ lastEnd platform vmas > platform.taskAddrMin then stackGuardGap else mappingGuardGap platform

theorem searchTopDown_behind (room : lastEnd platform vmas + size + topGap platform vmas isGrowsdown ≤ platform.taskAddrMax) :
    searchTopDown platform vmas size isGrowsdown = some (platform.taskAddrMax - size - topGap platform vmas isGrowsdown) := by
  by_cases stack : isGrowsdown ∧ lastEnd platform vmas > platform.taskAddrMin
  · rw [topGap, if_pos stack] at room ⊢
    rw [searchTopDown]
    dsimp only
    rw [lastEnd_eq, if_pos (show lastEnd platform vmas ≤ platform.taskAddrMax - size by omega), if_pos stack,
      if_neg (show ¬platform.taskAddrMax - size < stackGuardGap by omega),
      if_pos (show lastEnd platform vmas ≤ platform.taskAddrMax - size - stackGuardGap by omega)]
  · rw [topGap, if_neg stack] at room ⊢
    rw [searchTopDown_top (by omega) stack, if_pos (by omega)]

/-- Behind the last range the new one is guarded if the room is larger by one more gap. -/
theorem guarded_behind_iff (last : Span × VmArea H) (isLast : vmas.lastRangeValue = some last)
    (room : last.1.stop + size + topGap platform vmas isGrowsdown ≤ platform.taskAddrMax) :
    (∀ a, getUnmmapedArea platform vmas none size false isGrowsdown = some a → Guarded platform vmas size a) ↔
      last.1.stop + size + topGap platform vmas isGrowsdown + mappingGuardGap platform ≤ platform.taskAddrMax := by
  have bound : lastEnd platform vmas = last.1.stop := by rw [lastEnd, isLast]; rfl
  have found : getUnmmapedArea platform vmas none size false isGrowsdown =
      some (platform.taskAddrMax - size - topGap platform vmas isGrowsdown) := by
    rw [getUnmmapedArea_none, if_neg (by omega)]
    exact searchTopDown_behind (bound ▸ room)
  rw [found]
  simp only [Option.some.injEq, forall_eq', Guarded]
  constructor
  · intro guarded
    have nonempty := last.1.nonempty
    rcases guarded last (mem_of_getLast? isLast) with below | above <;> omega
  · intro enough entry member
    have behind := stop_le_lastEnd platform entry member
    exact .inl (by omega)

/-- One page mapped just below the last page of the address space. -/
def nearTop : RangeMap (VmArea ℕ) := ⟨[(⟨0x7fffffffd000, 0x7fffffffe000, by decide⟩, .new 0x73 false)], pairwise_singleton _ _⟩

/-- The range is in the task's address space, and nothing in it is tracked. -/
def Free (platform : Platform H) (v : Vmem H) (range : Span) : Prop :=
  platform.taskAddrMin ≤ range.start ∧ range.stop ≤ platform.taskAddrMax ∧ v.vmas.overlaps range.start range.stop = false

/-- The platform places a free range in its address space where it is asked to, and can narrow a fresh view. -/
structure Honours (platform : Platform H) (v : Vmem H) : Prop where
  fits : platform.taskAddrMax + windowsAllocationGranularity ≤ usizeMax
  allocates : ∀ range permissions canGrowDown populate, Free platform v range →
    platform.allocatePages v.calls range permissions canGrowDown populate .hint = .ok range.start
  maps : ∀ handle range permissions, Free platform v range →
    platform.mapSharedMemory v.calls handle range permissions .hint = .ok range.start
  narrows : ∀ handle (range : Span) permissions actual, platform.updatePermissions
    (v.calls ++ [.mapSharedMemory handle range permissions .hint (.ok range.start)]) range actual = .ok ()

theorem place_honoured {v : Vmem H} (honours : Honours platform v) (range : Span) (free : Free platform v range) (vma : VmArea H)
    (populate : Bool) : ∃ base w, place platform range vma populate .hint v = (.ok base, w) := by
  cases shared : vma.sharedHandle with
  | none =>
    simp only [place, shared, placePrivate, mapError, allocate, ask, honours.allocates _ _ _ _ free]
    exact ⟨_, _, rfl⟩
  | some handle =>
    simp only [place, shared, placeShared]
    generalize MemoryRegionPermissions.read ||| .write ||| .exec ||| vma.flags.writeQualifier = widest
    have mapped : (platform.mapShared handle range widest .hint).mapError mapFailure v =
        (.ok range.start, { v with calls := v.calls ++ [.mapSharedMemory handle range widest .hint (.ok range.start)] }) := by
      simp [mapShared, ask, mapError, honours.maps handle range widest free]
    rw [bind_of_ok mapped, range.at_start]
    by_cases narrow : accessPermissions vma.flags ||| vma.flags.writeQualifier ≠ widest
    · rw [when, if_pos narrow]
      simp only [bind_apply, protect, ask, mapError, honours.narrows]
      exact ⟨_, _, rfl⟩
    · rw [when, if_neg narrow]
      exact ⟨_, _, rfl⟩

variable [DecidableEq H]

/-- A range that ends in the address space is placed exactly if it does not start below it. -/
theorem insertMapping_hint_iff {v : Vmem H} (honours : Honours platform v) (range : PageRange)
    (high : range.stop ≤ platform.taskAddrMax) (free : v.vmas.overlaps range.start range.stop = false) (vma : VmArea H) (populate : Bool) :
    (∃ base w, insertMapping platform range vma populate .hint v = (.ok base, w)) ↔ platform.taskAddrMin ≤ range.start := by
  have slid : slide platform range .hint = range := if_neg fun outside => absurd outside.1 (not_lt.mpr high)
  simp only [insertMapping]
  rw [slid]
  by_cases low : range.start < platform.taskAddrMin
  · rw [when, if_pos low]
    exact iff_of_false (by rintro ⟨_, _, ⟨⟩⟩) (not_le.mpr low)
  · refine iff_of_true ?_ (not_lt.mp low)
    obtain ⟨base, w, placed⟩ := place_honoured honours range.toSpan ⟨not_lt.mp low, high, free⟩ vma populate
    rw [when, if_neg low, when, if_neg (not_lt.mpr high)]
    simp only [bind_apply, pure_apply, get_apply, checkFixed, Option.map_none, Prog.failOn, placed]
    exact ⟨_, _, rfl⟩

/-- The length that is searched for: a shared view needs a granule more, to be aligned in. -/
def sought (shared : Bool) (total : ℕ) : ℕ := if shared then total + windowsAllocationGranularity else total

/-- Where a free hint is taken: a shared view is moved up to the granularity. -/
def spot (shared : Bool) (hint : ℕ) : ℕ :=
  if shared then (hint + (windowsAllocationGranularity - 1)) / windowsAllocationGranularity *
    windowsAllocationGranularity else hint

theorem spot_spec (shared : Bool) (hint : NonZeroAddress) (total : ℕ) : pageSize ∣ spot shared hint.address ∧
    hint.address ≤ spot shared hint.address ∧ spot shared hint.address + total ≤ hint.address + sought shared total := by
  cases shared with
  | false => exact ⟨hint.aligned, le_rfl, le_rfl⟩
  | true =>
    refine ⟨Dvd.dvd.mul_left (by decide) _, ?_⟩
    simp only [spot, sought, if_true, windowsAllocationGranularity]
    omega

/-- The address at which a mapping is created that is not fixed. -/
def chosen (platform : Platform H) (vmas : RangeMap (VmArea H)) (suggested : Option NonZeroAddress) (total : ℕ) (vma : VmArea H) :
    Option ℕ :=
  if vma.sharedHandle.isSome then sharedViewBase platform vmas suggested total (vma.flags.contains .vmGrowsDown)
  else getUnmmapedArea platform vmas suggested total false (vma.flags.contains .vmGrowsDown)

def totalLength (length : NonZeroPageSize) (flags : Vmem.CreatePagesFlags) : ℕ :=
  length.size + if flags.ensureSpaceAfter then defaultReservedSpaceSize else 0

theorem createMapping_eq_ok (suggested : Option NonZeroAddress) (length : NonZeroPageSize) (vma : VmArea H)
    (flags : Vmem.CreatePagesFlags) (v : Vmem H) (floating : flags.fixedAddr = false) :
    (∃ base w, createMapping platform suggested length vma flags v = (.ok base, w)) ↔
      totalLength length flags ≤ usizeMax ∧ ∃ address range, chosen platform v.vmas suggested (totalLength length flags) vma = some address ∧
        new address (address + length.size) = some range ∧
        ∃ base w, insertMapping platform range
          { vma with reservedExtra := if flags.ensureSpaceAfter then defaultReservedSpaceSize else 0 }
          flags.populatePagesImmediately .hint v = (.ok base, w) := by
  simp only [createMapping, bind_eq_ok, ofOption_eq_ok, floating, Vmem.CreatePagesFlags.behavior,
    get_apply, Bool.not_false, Bool.true_and, Bool.false_eq_true, if_false]
  constructor
  · rintro ⟨base, w, ⟨⟩, _, checked, _, _, got, address, _, ⟨found, rfl⟩, range, _, ⟨made, rfl⟩, ran⟩
    obtain ⟨fits, rfl⟩ := when_fail_eq_ok.mp checked
    cases got
    exact ⟨not_lt.mp fits, address, range, found, made, base, w, ran⟩
  · rintro ⟨fits, address, range, found, made, base, w, ran⟩
    exact ⟨base, w, (), v, when_fail_eq_ok.mpr ⟨not_lt.mpr fits, rfl⟩, v, v, rfl, address, v, ⟨found, rfl⟩, range, v, ⟨made, rfl⟩, ran⟩

omit [DecidableEq H] in
theorem chosen_hint (fits : platform.taskAddrMax + windowsAllocationGranularity ≤ usizeMax) (hint : NonZeroAddress) (vma : VmArea H)
    {total : ℕ} (found : chosen platform vmas none total vma = some a) :
    chosen platform vmas (some hint) total vma =
      if platform.taskAddrMax < hint.address + sought vma.sharedHandle.isSome total then none
      else if vmas.overlaps hint.address (hint.address + sought vma.sharedHandle.isSome total) = true then
        chosen platform vmas none total vma
      else if vma.sharedHandle.isSome ∧ spot true hint.address < platform.taskAddrMin then none
      else some (spot vma.sharedHandle.isSome hint.address) := by
  cases shared : vma.sharedHandle with
  | none => simp [chosen, shared, sought, spot, getUnmmapedArea_hint]
  | some handle =>
    simp only [chosen, shared, Option.isSome_some, if_true, sharedViewBase, sought, spot, true_and, getUnmmapedArea_hint] at found ⊢
    have widened : total + windowsAllocationGranularity ≤ usizeMax := by
      by_contra large
      rw [if_neg large, getUnmmapedArea_none] at found
      split at found
      · cases found
      · omega
    rw [if_pos widened] at found ⊢
    split_ifs with outside taken low
    · rfl
    · rfl
    · exact if_neg fun inside => absurd inside.1 (not_le.mpr low)
    · refine if_pos ⟨not_lt.mp low, ?_⟩
      simp only [windowsAllocationGranularity] at outside ⊢
      omega

/-- A hint keeps a placement possible exactly if the search window fits above it and, where the window is free,
the address it leads to is not below the task's address space. -/
theorem hint_harmless_iff {v : Vmem H} (honours : Honours platform v) (hint : NonZeroAddress) (length : NonZeroPageSize) (vma : VmArea H)
    (flags : Vmem.CreatePagesFlags) (floating : flags.fixedAddr = false)
    (unhinted : ∃ base w, createMapping platform none length vma flags v = (.ok base, w)) :
    (∃ base w, createMapping platform (some hint) length vma flags v = (.ok base, w)) ↔
      hint.address + sought vma.sharedHandle.isSome (totalLength length flags) ≤ platform.taskAddrMax ∧
        (v.vmas.overlaps hint.address (hint.address + sought vma.sharedHandle.isSome (totalLength length flags)) = true ∨
          platform.taskAddrMin ≤ spot vma.sharedHandle.isSome hint.address) := by
  rw [createMapping_eq_ok _ _ _ _ _ floating] at unhinted ⊢
  obtain ⟨small, address, range, found, made, ran⟩ := unhinted
  rw [chosen_hint honours.fits hint vma found]
  generalize ({ vma with reservedExtra := if flags.ensureSpaceAfter then defaultReservedSpaceSize else 0 } : VmArea H) = area
    at ran ⊢
  obtain ⟨aligned, above, within⟩ := spot_spec vma.sharedHandle.isSome hint (totalLength length flags)
  split_ifs with outside taken low
  · exact iff_of_false (by simp) fun inside => absurd inside.1 (not_le.mpr outside)
  · exact iff_of_true ⟨small, address, range, found, made, ran⟩ ⟨not_lt.mp outside, .inl taken⟩
  · refine iff_of_false (by simp) fun inside => ?_
    rcases inside.2 with overlap | high
    · exact taken overlap
    · exact absurd low.2 (not_lt.mpr (low.1 ▸ high))
  · set start := spot vma.sharedHandle.isSome hint.address
    have part : length.size ≤ totalLength length flags := Nat.le_add_right ..
    have positive := length.positive
    let placed : PageRange := ⟨⟨start, start + length.size, by omega⟩, aligned, dvd_add aligned length.aligned⟩
    have free : v.vmas.overlaps start (start + length.size) = false := by
      refine overlaps_eq_false_iff.mpr fun entry member => ?_
      have apart := overlaps_eq_false_iff.mp (by simpa using taken) entry member
      omega
    have inserted := insertMapping_hint_iff honours placed (show start + length.size ≤ _ by omega) free area
      flags.populatePagesImmediately
    constructor
    · rintro ⟨_, _, range', ⟨⟩, made', ran'⟩
      obtain rfl : range' = placed := Option.some.inj (made'.symm.trans (new_eq_some.mpr ⟨rfl, rfl⟩))
      exact ⟨not_lt.mp outside, .inr (inserted.mp ran')⟩
    · rintro ⟨_, taken' | low'⟩
      · exact absurd taken' taken
      · exact ⟨small, start, placed, rfl, new_eq_some.mpr ⟨rfl, rfl⟩, inserted.mpr low'⟩

theorem neighbours_honoured : Honours highPlatform neighbours :=
  ⟨by decide, fun _ _ _ _ _ => rfl, fun _ _ _ _ => rfl, fun _ _ _ _ => rfl⟩

theorem hint_harmless_iff_free : ∃ base w, createMapping highPlatform (some ⟨0x30000, by decide, by decide⟩) onePage
    (.new 0x73 false) { } neighbours = (.ok base, w) :=
  (hint_harmless_iff neighbours_honoured _ onePage _ { } rfl ⟨0x7fffffffd000, _, rfl⟩).mpr
    ⟨by decide +kernel, .inr (by decide +kernel)⟩

/-- With the hint the mapping is refused as too low, and another one as too high; without, there is room. -/
theorem hint_refused :
    Honours highPlatform neighbours ∧
      (createMapping highPlatform none onePage (.new 0x73 false) { } neighbours).1 = .ok 0x7fffffffd000 ∧
      (createMapping highPlatform (some ⟨0x8000, by decide, by decide⟩) onePage (.new 0x73 false) { } neighbours).1 =
        .error (.error .belowMinAddress) ∧
      (createMapping highPlatform (some ⟨0x7ffffffff000, by decide, by decide⟩) onePage (.new 0x73 false) { } neighbours).1 =
        .error (.error .outOfMemory) :=
  ⟨neighbours_honoured, by decide +kernel, by decide +kernel, by decide +kernel⟩

end LiteBox.Mm
