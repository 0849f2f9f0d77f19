import LiteBox.Mm.Duplicate
import LiteBox.Mm.Insert

/-! # Where a duplicate puts the mappings

The platform's log of calls says which addresses it has handed out. A platform that hands out only free
addresses, unless it is told which ones to replace, keeps the mappings of a duplicate apart from each
other, so each of them is still there when the duplicate is complete.
-/

namespace LiteBox.Mm

open Vmem List Prog Call RangeMap VmArea PageRange Span VmFlags MemoryRegionPermissions Bool

variable {H : Type}

/-! ## Held addresses -/

/-- What a call does to an address. -/
def Call.onHeld (a : ℕ) (held : Prop) : Call H → Prop
  | .allocatePages range _ _ _ _ (.ok base) => held ∨ a ∈ range.at_ base
  | .mapSharedMemory _ range _ _ (.ok base) => held ∨ a ∈ range.at_ base
  | .deallocatePages range (.ok ()) => held ∧ a ∉ range
  | .unmapSharedMemory range (.ok ()) => held ∧ a ∉ range
  | _ => held

/-- The platform has handed out the address and not taken it back. -/
def Held (calls : List (Call H)) (a : ℕ) : Prop := calls.foldl (onHeld a) False

/-- The platform hands out addresses that are free, or those that it was told to. -/
structure Platform.Separates (platform : Platform H) : Prop where
  allocate : ∀ {calls range permissions canGrowDown populate behavior base},
    platform.allocatePages calls range permissions canGrowDown populate behavior = .ok base →
      (behavior ≠ .hint ∧ base = range.start) ∨ ∀ a ∈ range.at_ base, ¬Held calls a
  map : ∀ {calls handle range permissions behavior base},
    platform.mapSharedMemory calls handle range permissions behavior = .ok base →
      (behavior ≠ .hint ∧ base = range.start) ∨ ∀ a ∈ range.at_ base, ¬Held calls a

theorem held_append (calls made : List (Call H)) (a : ℕ) : Held (calls ++ made) a = made.foldl (onHeld a) (Held calls a) :=
  foldl_append

theorem onHeld_of_quiet {made : List (Call H)} (quiet : ∀ call ∈ made, call.quiet) (a : ℕ) (held : Prop) :
    made.foldl (onHeld a) held = held := by
  induction made with
  | nil => rfl
  | cons call rest ih =>
    have still : call.onHeld a held = held := by
      have one := quiet call mem_cons_self
      rcases call with ⟨_, _, _, _, _, _ | _⟩ | ⟨_, _ | _⟩ | _ | _ | _ | ⟨_, _, _, _, _ | _⟩ | _ <;> first | rfl | exact one.elim
    rw [foldl_cons, still]
    exact ih fun later member => quiet later (mem_cons_of_mem _ member)

variable {behavior : FixedAddressBehavior} {base : ℕ} {populate : Bool}

theorem PlacedBy.held {platform : Platform H} {calls made : List (Call H)} {range : Span} {vma : VmArea H}
    (placedBy : PlacedBy platform calls range vma populate behavior base made) (a : ℕ) :
    Held (calls ++ made) a ↔ Held calls a ∨ a ∈ range.at_ base := by
  rw [held_append]
  cases placedBy with
  | allocated => exact Iff.rfl
  | mapped handle permissions narrowed shared answer quiet =>
    rw [foldl_cons, onHeld_of_quiet quiet]
    exact Iff.rfl

theorem PlacedBy.separate {platform : Platform H} {calls made : List (Call H)} {range : Span} {vma : VmArea H}
    (placedBy : PlacedBy platform calls range vma populate behavior base made)
    (lawful : platform.Separates) : (behavior ≠ .hint ∧ base = range.start) ∨ ∀ a ∈ range.at_ base, ¬Held calls a := by
  cases placedBy with
  | allocated isPrivate answer => exact lawful.allocate answer
  | mapped handle permissions narrowed shared answer quiet => exact lawful.map answer

/-! ## What stays of an area -/

/-- An area that has at most been joined with others of the same view. -/
structure VmArea.Kept (before after : VmArea H) : Prop where
  flags : after.flags = before.flags
  isFileBacked : after.isFileBacked = before.isFileBacked
  sharedHandle : after.sharedHandle = before.sharedHandle
  viewBase : after.viewBase = before.viewBase
  isPrivate : before.sharedHandle = none → after = before

theorem VmArea.Kept.refl (vma : VmArea H) : vma.Kept vma := ⟨rfl, rfl, rfl, rfl, fun _ => rfl⟩

theorem VmArea.Kept.trans {first second third : VmArea H} (one : first.Kept second) (two : second.Kept third) :
    first.Kept third where
  flags := two.flags.trans one.flags
  isFileBacked := two.isFileBacked.trans one.isFileBacked
  sharedHandle := two.sharedHandle.trans one.sharedHandle
  viewBase := two.viewBase.trans one.viewBase
  isPrivate isPrivate := (two.isPrivate (one.sharedHandle.trans isPrivate)).trans (one.isPrivate isPrivate)

/-- From `v` to `w`, an area was placed in `target`, and everything else is as it was. -/
structure PlacedIn (v w : Vmem H) (target : Span) (area : VmArea H) : Prop where
  inside : ∀ a ∈ target, w.vmas.get a = some area
  outside : ∀ a ∉ target, ∀ vma, v.vmas.get a = some vma → ∃ after, w.vmas.get a = some after ∧ vma.Kept after
  held : ∀ a, Held w.calls a ↔ Held v.calls a ∨ a ∈ target

variable [DecidableEq H] {a : ℕ}

theorem Vmem.kept_insertVma {v : Vmem H} {r : Span} {area : VmArea H} (outside : a ∉ r) {vma : VmArea H}
    (found : v.vmas.get a = some vma) : ∃ after, (v.insertVma r area).vmas.get a = some after ∧ vma.Kept after := by
  simp only [insertVma, get_insert]
  split
  · next joined =>
    obtain inside | ⟨other, had, alike⟩ := mem_joined joined
    · exact absurd inside outside
    · rw [found] at had
      cases had
      obtain ⟨flags, file, handle, base, -⟩ := eq_of_same alike
      refine ⟨area, rfl, flags.symm, file.symm, handle.symm, base.symm, fun isPrivate => ?_⟩
      rw [same_of_private (handle.symm.trans isPrivate)] at alike
      cases alike
  · exact ⟨vma, found, .refl vma⟩

theorem Vmem.get_insertVma_private {area : VmArea H} (isPrivate : area.sharedHandle = none) (v : Vmem H) (r : Span) (a : ℕ) :
    (v.insertVma r area).vmas.get a = if a ∈ r then some area else v.vmas.get a :=
  get_insert_of_fresh fun other => same_of_private isPrivate other

omit [DecidableEq H] in
theorem Vmem.placedArea_private {vma : VmArea H} (isPrivate : vma.sharedHandle = none) (range : Span) :
    placedArea vma range = vma := by
  simp [placedArea, isPrivate]

theorem slide_at (platform : Platform H) (range : PageRange) (behavior : FixedAddressBehavior) (base : ℕ) :
    (slide platform range behavior).at_ base = range.at_ base := by
  have length : (slide platform range behavior).length = range.length := by
    simp only [slide]
    split
    · split
      · cases made : new ((platform.taskAddrMax - range.length) / pageSize * pageSize)
          ((platform.taskAddrMax - range.length) / pageSize * pageSize + range.length) with
        | none => rfl
        | some moved =>
          obtain ⟨start, stop⟩ := new_eq_some.mp made
          simp [Span.length, start, stop]
      · rfl
    · rfl
  simp [Span.at_, length]

variable {range : PageRange}

/-- A successful insertion: where it went, and what it left. -/
theorem insertMapping_placed {platform : Platform H} (lawful : platform.Separates) {vma : VmArea H} {v w : Vmem H}
    (ran : insertMapping platform range vma populate behavior v = (.ok base, w)) :
    PlacedIn v w (range.at_ base) (placedArea vma (range.at_ base)) ∧
      ((behavior ≠ .hint ∧ base = (slide platform range behavior).start) ∨ ∀ a ∈ range.at_ base, ¬Held v.calls a) ∧
      (vma.sharedHandle = none → (range.at_ base, vma) ∈ w.vmas.entries) := by
  have spec := insertMapping_spec platform range vma populate behavior v
  rw [ran] at spec
  cases spec with
  | placed _ made low high free placedBy =>
    have separate := placedBy.separate lawful
    have held := placedBy.held
    rw [slide_at] at separate held ⊢
    refine ⟨⟨fun a inside => get_insert_self inside, fun a outside vma found => ?_, held⟩, separate, fun isPrivate => ?_⟩
    · exact kept_insertVma (v := { v with calls := v.calls ++ made }) outside found
    · rw [placedArea_private isPrivate]
      exact mem_insert_of_fresh fun other => same_of_private isPrivate other

/-- The platform puts a replacement where it was asked to. -/
def Platform.HonoursReplace (platform : Platform H) : Prop :=
  ∀ calls range permissions canGrowDown populate base,
    platform.allocatePages calls range permissions canGrowDown populate .replace = .ok base → base = range.start

theorem insertMapping_honoured {platform : Platform H} (honours : platform.HonoursReplace) {vma : VmArea H}
    (isPrivate : vma.sharedHandle = none) {v w : Vmem H}
    (ran : insertMapping platform range vma populate .replace v = (.ok base, w)) : base = range.start := by
  have spec := insertMapping_spec platform range vma populate .replace v
  rw [ran, slide_replace] at spec
  cases spec with
  | placed _ made low high free placedBy =>
    cases placedBy with
    | allocated _ answer => exact honours _ _ _ _ _ _ answer
    | mapped handle permissions narrowed shared =>
      rw [isPrivate] at shared
      cases shared

/-! ## Narrowing a copy -/

theorem span_inter_self (r : Span) : r.inter? r = some r := make?_eq_some.mpr ⟨(max_self _).symm, (min_self _).symm⟩

theorem Vmem.splitVma_whole (v : Vmem H) (whole : Span) (vma changed : VmArea H) :
    v.splitVma whole whole vma changed = v.insertVma whole changed := by
  have none : ∀ a, make? a a = none := fun a => make?_eq_none.mpr le_rfl
  simp [splitVma, none, withHeadroom]

/-- Protecting exactly one tracked private area replaces its access flags. -/
theorem protectMapping_whole {platform : Platform H} {target : Span} {area : VmArea H} {permissions : MemoryRegionPermissions}
    {v w : Vmem H} (entry : (target, area) ∈ v.vmas.entries) (isPrivate : area.sharedHandle = none)
    (differs : area.flags &&& vmAccessFlags ≠ permissions.setWidth 32 &&& vmAccessFlags)
    (ran : protectMapping platform target permissions v = (.ok (), w)) :
    (∀ a, w.vmas.get a = if a ∈ target then
        some { area with flags := (area.flags &&& ~~~vmAccessFlags) ||| (permissions.setWidth 32 &&& vmAccessFlags) }
      else v.vmas.get a) ∧ ∀ a, Held w.calls a = Held v.calls a := by
  obtain ⟨_, _, got, ran⟩ := bind_eq_ok.mp ran
  cases got
  have single := overlapping_of_mem entry
  simp only at single
  rw [single] at ran
  obtain ⟨_, _, checked, ran⟩ := bind_eq_ok.mp ran
  obtain ⟨-, rfl⟩ := when_fail_eq_ok.mp checked
  obtain ⟨_, _, ran, done⟩ := bind_eq_ok.mp ran
  cases done
  simp only [protectOne, differs, if_false, span_inter_self] at ran
  split at ran
  · cases ran
  obtain ⟨_, _, removed, ran⟩ := bind_eq_ok.mp ran
  cases removed
  obtain ⟨answer, _, asked, ran⟩ := bind_eq_ok.mp ran
  cases asked
  cases answer : (platform.protect target (permissions ||| area.flags.writeQualifier) (v.removeVma target)).1 with
  | error failure =>
    rw [answer] at ran
    obtain ⟨_, _, _, ended⟩ := bind_eq_ok.mp ran
    cases ended
  | ok _ =>
    rw [answer] at ran
    cases ran
    simp only [splitVma_whole]
    refine ⟨fun a => ?_, fun a => ?_⟩
    · rw [get_insertVma_private]
      · split
        · rfl
        · next outside =>
          show (v.vmas.remove target).get a = _
          rw [get_remove, if_neg outside]
      · exact isPrivate
    · exact held_append v.calls [_] a

/-! ## The copy of one mapping -/

/-- The area of a mapping's copy at its place. -/
def VmArea.childArea (vma : VmArea H) (target : Span) : VmArea H :=
  match vma.sharedHandle with
  | some handle => { newShared vma.flags vma.isFileBacked handle with viewBase := target.start, viewLen := target.length }
  | none =>
    { new vma.flags vma.isFileBacked with
      reservedExtra := if vma.flags &&& vmAccessFlags = 0 then 0 else vma.reservedExtra }

theorem VmFlags.writableCopy_access (flags : VmFlags) :
    (flags &&& ~~~vmAccessFlags ||| .vmRead ||| .vmWrite) &&& ~~~vmAccessFlags = flags &&& ~~~vmAccessFlags := by
  have access : (vmRead ||| .vmWrite) &&& ~~~vmAccessFlags = 0 := by decide
  rw [BitVec.or_assoc, BitVec.and_or_distrib_right, access, BitVec.and_assoc, BitVec.and_self]
  simp

theorem VmFlags.access_split (flags : VmFlags) : flags &&& ~~~vmAccessFlags ||| (flags &&& vmAccessFlags) = flags := by
  have all : ~~~vmAccessFlags ||| vmAccessFlags = BitVec.allOnes 32 := by decide
  rw [← BitVec.and_or_distrib_left, all, BitVec.and_allOnes]

theorem MemoryRegionPermissions.ofFlags_access (flags : VmFlags) :
    (ofFlags flags).setWidth 32 &&& vmAccessFlags = flags &&& vmAccessFlags := by
  have low : ∀ i : Fin 32, vmAccessFlags.getLsbD i = true → i.val < 8 ∧ (15#32).getLsbD i = true := by decide
  refine BitVec.eq_of_getLsbD_eq fun i inside => ?_
  cases bit : vmAccessFlags.getLsbD i with
  | false => simp [BitVec.getLsbD_and, bit]
  | true =>
    obtain ⟨small, kept⟩ := low ⟨i, inside⟩ bit
    simp only [ofFlags, BitVec.getLsbD_and, BitVec.getLsbD_setWidth, bit, Bool.and_true, decide_eq_true inside,
      decide_eq_true small, Bool.true_and]
    exact (congrArg _ kept).trans (Bool.and_true _)

theorem VmArea.childArea_private {vma : VmArea H} (isPrivate : vma.sharedHandle = none) (target : Span) :
    vma.childArea target = { new vma.flags vma.isFileBacked with
      reservedExtra := if vma.flags &&& vmAccessFlags = 0 then 0 else vma.reservedExtra } := by
  simp [childArea, isPrivate]

/-- Changing a placed private area in its place keeps the rest as it was. -/
theorem PlacedIn.changed {v u w : Vmem H} {target : Span} {area changed : VmArea H} (placed : PlacedIn v u target area)
    (areas : ∀ a, w.vmas.get a = if a ∈ target then some changed else u.vmas.get a) (held : ∀ a, Held w.calls a = Held u.calls a) :
    PlacedIn v w target changed where
  inside a inside := by rw [areas, if_pos inside]
  outside a outside vma found := by
    rw [areas, if_neg outside]
    exact placed.outside a outside vma found
  held a := by rw [held, placed.held]

theorem narrowCopy_placed {platform : Platform H} {vma : VmArea H} (isPrivate : vma.sharedHandle = none)
    (accessible : vma.flags &&& vmAccessFlags ≠ 0) {v u w : Vmem H} {target : Span}
    (placed : PlacedIn v u target vma.writableCopy) (entry : (target, vma.writableCopy) ∈ u.vmas.entries)
    (ran : narrowCopy platform vma target.start target.length u = (.ok (), w)) : PlacedIn v w target (vma.childArea target) := by
  have child : vma.childArea target = { vma.writableCopy with flags := vma.flags } := by
    rw [childArea_private isPrivate, if_neg accessible]
    rfl
  by_cases same : vma.flags &&& .vmAccessFlags = vma.writableCopy.flags &&& .vmAccessFlags
  · rw [narrowCopy, when, if_neg (not_not.mpr same)] at ran
    cases ran
    have flags : vma.writableCopy.flags = vma.flags := by
      rw [← access_split vma.writableCopy.flags, ← same]
      exact (congrArg (· ||| _) (writableCopy_access vma.flags)).trans (access_split vma.flags)
    have area : vma.childArea target = vma.writableCopy := by rw [child, ← flags]
    rwa [area]
  · rw [narrowCopy, when, if_pos same] at ran
    obtain ⟨range, _, formed, ran⟩ := bind_eq_ok.mp ran
    obtain ⟨made, rfl⟩ := ofOption_eq_ok.mp formed
    obtain ⟨start, stop⟩ := new_eq_some.mp made
    have whole : range.toSpan = target := Span.ext start (stop.trans target.start_add_length)
    rw [whole] at ran
    have differs : vma.writableCopy.flags &&& vmAccessFlags ≠
        (ofFlags vma.flags).setWidth 32 &&& vmAccessFlags := by
      rw [ofFlags_access]
      exact Ne.symm same
    obtain ⟨areas, held⟩ := protectMapping_whole entry rfl differs (mapError_eq_ok.mp ran)
    have flags : vma.writableCopy.flags &&& ~~~vmAccessFlags |||
        (ofFlags vma.flags).setWidth 32 &&& vmAccessFlags = vma.flags := by
      rw [ofFlags_access]
      exact (congrArg (· ||| _) (writableCopy_access vma.flags)).trans (access_split vma.flags)
    rw [flags, ← child] at areas
    exact placed.changed areas held

/-- The address of a private mapping's copy, by its place in its group. -/
def InGroup (groupBases : List (Span × ℕ)) (range : Span) (base : ℕ) : Prop :=
  ∃ found, groupBases.find? (fun entry => decide (entry.1.Covers range)) = some found ∧
    base = found.2 + (range.start - found.1.start)

variable {groupBases : List (Span × ℕ)}

theorem forcedRange_ok {forced : PageRange} {v w : Vmem H}
    (ran : forcedRange groupBases range v = (.ok forced, w)) :
    w = v ∧ InGroup groupBases range.toSpan forced.start ∧ forced.length = range.length := by
  obtain ⟨found, _, looked, ran⟩ := bind_eq_ok.mp ran
  obtain ⟨found, rfl⟩ := ofOption_eq_ok.mp looked
  obtain ⟨made, rfl⟩ := ofOption_eq_ok.mp ran
  obtain ⟨start, stop⟩ := new_eq_some.mp made
  refine ⟨rfl, ⟨_, found, start⟩, ?_⟩
  simp [Span.length, start, stop]

theorem span_at_of_length {r s : Span} (same : r.length = s.length) (base : ℕ) : r.at_ base = s.at_ base := by
  simp [at_, same]

theorem duplicatePrivate_ok {platform : Platform H} (lawful : platform.Separates)
    {vma : VmArea H} (isPrivate : vma.sharedHandle = none) {v w : Vmem H}
    (ran : duplicatePrivate platform groupBases range vma v = (.ok base, w)) :
    PlacedIn v w (range.at_ base) (vma.childArea (range.at_ base)) ∧
      (InGroup groupBases range.toSpan base ∨ ∀ a ∈ range.at_ base, ¬Held v.calls a) ∧
      (platform.HonoursReplace → InGroup groupBases range.toSpan base) := by
  obtain ⟨forced, u, located, placing⟩ := bind_eq_ok.mp ran
  obtain ⟨unchanged, inGroup, length⟩ := forcedRange_ok located
  rw [unchanged] at placing
  rw [← span_at_of_length length]
  split at placing
  · next inaccessible =>
    have ran := mapError_eq_ok.mp placing
    obtain ⟨placed, separate, -⟩ := insertMapping_placed lawful ran
    have child : placedArea (.new vma.flags vma.isFileBacked) (forced.at_ base) = vma.childArea (forced.at_ base) := by
      rw [childArea_private isPrivate, if_pos inaccessible]
      rfl
    rw [child] at placed
    rw [slide_replace] at separate
    refine ⟨placed, separate.imp_left fun told => ?_, fun honours => ?_⟩
    · rwa [told.2]
    · rwa [insertMapping_honoured honours rfl ran]
  · next accessible =>
    obtain ⟨_, _, got, ran⟩ := bind_eq_ok.mp placing
    cases got
    obtain ⟨_, _, readable, ran⟩ := bind_eq_ok.mp ran
    obtain ⟨-, rfl⟩ := when_fail_eq_ok.mp readable
    obtain ⟨_, u, inserted, ran⟩ := bind_eq_ok.mp ran
    obtain ⟨_, _, got, ran⟩ := bind_eq_ok.mp ran
    cases got
    obtain ⟨_, _, writable, ran⟩ := bind_eq_ok.mp ran
    obtain ⟨-, rfl⟩ := when_fail_eq_ok.mp writable
    obtain ⟨_, _, narrowed, done⟩ := bind_eq_ok.mp ran
    cases done
    have inserted := mapError_eq_ok.mp inserted
    obtain ⟨placed, separate, entry⟩ := insertMapping_placed lawful inserted
    rw [placedArea_private rfl] at placed
    rw [slide_replace] at separate
    have narrowing : narrowCopy platform vma (forced.at_ base).start (forced.at_ base).length u = (.ok (), w) := by
      rw [Span.start_at, Span.length_at, length]
      exact narrowed
    refine ⟨narrowCopy_placed isPrivate accessible placed (entry rfl) narrowing, separate.imp_left fun told => ?_, fun honours => ?_⟩
    · rwa [told.2]
    · rwa [insertMapping_honoured honours rfl inserted]

/-- Where the copy of a mapping goes: into its group, or to addresses that were free. -/
theorem duplicateArea_ok {platform : Platform H} (lawful : platform.Separates)
    {vma : VmArea H} {v w : Vmem H} (ran : duplicateArea platform groupBases range vma v = (.ok base, w)) :
    PlacedIn v w (range.at_ base) (vma.childArea (range.at_ base)) ∧
      (InGroup groupBases range.toSpan base ∨ ∀ a ∈ range.at_ base, ¬Held v.calls a) ∧
      (vma.sharedHandle = none → platform.HonoursReplace → InGroup groupBases range.toSpan base) := by
  cases shared : vma.sharedHandle with
  | none =>
    simp only [duplicateArea, shared] at ran
    obtain ⟨placed, separate, honoured⟩ := duplicatePrivate_ok lawful shared ran
    exact ⟨placed, separate, fun _ => honoured⟩
  | some handle =>
    simp only [duplicateArea, shared] at ran
    obtain ⟨placed, separate, -⟩ := insertMapping_placed lawful (mapError_eq_ok.mp ran)
    have child : placedArea (.newShared vma.flags vma.isFileBacked handle) (range.at_ base) = vma.childArea (range.at_ base) := by
      simp [childArea, shared, placedArea, newShared]
    rw [child] at placed
    refine ⟨placed, .inr (separate.resolve_left fun told => told.1 rfl), fun isPrivate => ?_⟩
    cases isPrivate

/-! ## The reservations -/

/-- The places of the groups: held by the platform and apart from each other. -/
structure Reserved (groupBases : List (Span × ℕ)) (calls : List (Call H)) : Prop where
  held : ∀ entry ∈ groupBases, ∀ a ∈ entry.1.at_ entry.2, Held calls a
  apart : groupBases.Pairwise fun first second => ∀ a ∈ first.1.at_ first.2, a ∉ second.1.at_ second.2

theorem placeGroups_ok {platform : Platform H} (lawful : platform.Separates) {groups : List Span}
    {v w : Vmem H} (ran : placeGroups platform groups v = (.ok groupBases, w)) :
    groupBases.map Prod.fst = groups ∧ Reserved groupBases w.calls ∧ (∀ a, Held v.calls a → Held w.calls a) ∧
      ∀ entry ∈ groupBases, ∀ a ∈ entry.1.at_ entry.2, ¬Held v.calls a := by
  induction groups generalizing v groupBases with
  | nil =>
    cases ran
    exact ⟨rfl, ⟨nofun, .nil⟩, fun _ held => held, nofun⟩
  | cons group rest ih =>
    obtain ⟨span, _, formed, ran⟩ := bind_eq_ok.mp ran
    obtain ⟨made, rfl⟩ := ofOption_eq_ok.mp formed
    obtain ⟨start, stop⟩ := new_eq_some.mp made
    have whole : span.toSpan = group := Span.ext start stop
    obtain ⟨base, u, inserted, ran⟩ := bind_eq_ok.mp ran
    obtain ⟨others, _, placing, done⟩ := bind_eq_ok.mp ran
    cases done
    obtain ⟨placed, separate, -⟩ := insertMapping_placed lawful (mapError_eq_ok.mp inserted)
    have free := separate.resolve_left fun told => told.1 rfl
    rw [whole] at placed free
    obtain ⟨names, reserved, grows, later⟩ := ih placing
    have here : ∀ a ∈ group.at_ base, Held u.calls a := fun a inside => (placed.held a).mpr (.inr inside)
    refine ⟨by rw [map_cons, names], ⟨?_, ?_⟩, fun a held => grows a ((placed.held a).mpr (.inl held)), ?_⟩
    · intro entry member a inside
      obtain rfl | member := mem_cons.mp member
      · exact grows a (here a inside)
      · exact reserved.held entry member a inside
    · refine pairwise_cons.mpr ⟨fun entry member a inside inOther => ?_, reserved.apart⟩
      exact later entry member a inOther (here a inside)
    · intro entry member a inside
      obtain rfl | member := mem_cons.mp member
      · exact free a inside
      · exact fun held => later entry member a inside ((placed.held a).mpr (.inl held))

/-! ## All mappings -/

/-- A copy that is complete: its area is at its place. -/
def Present (w : Vmem H) (region : Span × VmArea H) (base : ℕ) : Prop :=
  ∀ a ∈ region.1.at_ base, ∃ after, w.vmas.get a = some after ∧ (region.2.childArea (region.1.at_ base)).Kept after

/-- A place that is the mapping's part of its group, or outside all groups. -/
def WellPlaced (groupBases : List (Span × ℕ)) (region : Span × VmArea H) (base : ℕ) : Prop :=
  InGroup groupBases region.1 base ∨ ∀ entry ∈ groupBases, ∀ a ∈ entry.1.at_ entry.2, a ∉ region.1.at_ base

/-- The address that moved to `a` with its group lies in the mapping. -/
theorem mem_moved {group range : Span} (covers : group.Covers range)
    (inside : a ∈ range.at_ (base + (range.start - group.start))) :
    a ∈ group.at_ base ∧ a - base + group.start ∈ range := by
  obtain ⟨left, right⟩ := covers
  obtain ⟨low, high⟩ := inside
  have whole := group.start_add_length
  have part := range.start_add_length
  simp only [start_at, stop_at] at low high
  exact ⟨⟨by simp only [start_at]; omega, by simp only [stop_at]; omega⟩, by omega, by omega⟩

theorem InGroup.covered {range : Span} (inGroup : InGroup groupBases range base)
    (inside : a ∈ range.at_ base) : ∃ entry ∈ groupBases, a ∈ entry.1.at_ entry.2 := by
  obtain ⟨entry, found, rfl⟩ := inGroup
  have covers : entry.1.Covers range := by simpa using find?_some found
  exact ⟨entry, mem_of_find?_eq_some found, (mem_moved covers inside).1⟩

theorem Reserved.unique {calls : List (Call H)} (reserved : Reserved groupBases calls)
    {first second : Span × ℕ} (member : first ∈ groupBases) (member' : second ∈ groupBases) (inFirst : a ∈ first.1.at_ first.2)
    (inSecond : a ∈ second.1.at_ second.2) : first = second := by
  obtain ⟨i, inside, rfl⟩ := getElem_of_mem member
  obtain ⟨j, inside', rfl⟩ := getElem_of_mem member'
  have apart := pairwise_iff_getElem.mp reserved.apart
  obtain before | rfl | after := lt_trichotomy i j
  · exact absurd inSecond (apart i j inside inside' before a inFirst)
  · rfl
  · exact absurd inFirst (apart j i inside' inside after a inSecond)

variable {base' : ℕ}

/-- Two mappings that do not overlap have their places in the groups apart. -/
theorem InGroup.apart {calls : List (Call H)} (reserved : Reserved groupBases calls)
    {first second : Span} (inGroup : InGroup groupBases first base) (inGroup' : InGroup groupBases second base')
    (disjoint : ¬first.Overlaps second) (inFirst : a ∈ first.at_ base) : a ∉ second.at_ base' := by
  intro inSecond
  obtain ⟨entry, found, rfl⟩ := inGroup
  obtain ⟨entry', found', rfl⟩ := inGroup'
  have covers : entry.1.Covers first := by simpa using find?_some found
  have covers' : entry'.1.Covers second := by simpa using find?_some found'
  obtain ⟨inEntry, source⟩ := mem_moved covers inFirst
  obtain ⟨inEntry', source'⟩ := mem_moved covers' inSecond
  obtain rfl := reserved.unique (mem_of_find?_eq_some found) (mem_of_find?_eq_some found') inEntry inEntry'
  exact disjoint (overlaps_iff.mpr ⟨_, source, source'⟩)

variable {region : Span × VmArea H}

/-- What is well placed does not meet a copy that is put somewhere else later. -/
theorem apart_of_wellPlaced {calls : List (Call H)} (reserved : Reserved groupBases calls) {range : Span}
    (wellPlaced : WellPlaced groupBases region base)
    (held : ∀ a ∈ region.1.at_ base, Held calls a) (disjoint : ¬region.1.Overlaps range)
    (placing : InGroup groupBases range base' ∨ ∀ a ∈ range.at_ base', ¬Held calls a) (inside : a ∈ region.1.at_ base) :
    a ∉ range.at_ base' := by
  intro inOther
  obtain inGroup' | free := placing
  · obtain inGroup | outside := wellPlaced
    · exact inGroup.apart reserved inGroup' disjoint inside inOther
    · obtain ⟨entry, member, inEntry⟩ := inGroup'.covered inOther
      exact outside entry member a inEntry inside
  · exact free a inOther (held a inside)

theorem wellPlaced_of_placing {calls : List (Call H)} (reserved : Reserved groupBases calls)
    (placing : InGroup groupBases region.1 base ∨ ∀ a ∈ region.1.at_ base, ¬Held calls a) :
    WellPlaced groupBases region base :=
  placing.imp_right fun free entry member a inEntry inside => free a inside (reserved.held entry member a inEntry)

theorem PlacedIn.reserved {v w : Vmem H} {target : Span} {area : VmArea H} (placed : PlacedIn v w target area)
    (reserved : Reserved groupBases v.calls) : Reserved groupBases w.calls :=
  ⟨fun entry member a inside => (placed.held a).mpr (.inl (reserved.held entry member a inside)), reserved.apart⟩

/-- One mapping of the loop: withheld, or copied. -/
theorem duplicateRegion_ok {platform : Platform H} (lawful : platform.Separates) {result : Option DuplicatedRange} {v w : Vmem H}
    (ran : duplicateRegion platform groupBases region v = (.ok result, w)) :
    (region.2.flags.contains .vmDontFork = true ∧ result = none ∧ w = v) ∨
      region.2.flags.contains .vmDontFork = false ∧ ∃ base, result = some (relocation region.1 region.2 base) ∧
        PlacedIn v w (region.1.at_ base) (region.2.childArea (region.1.at_ base)) ∧
        (InGroup groupBases region.1 base ∨ ∀ a ∈ region.1.at_ base, ¬Held v.calls a) ∧
        (region.2.sharedHandle = none → platform.HonoursReplace → InGroup groupBases region.1 base) := by
  simp only [duplicateRegion] at ran
  split at ran
  · next withheld =>
    cases ran
    exact .inl ⟨withheld, rfl, rfl⟩
  · next forked =>
    obtain ⟨range, _, formed, ran⟩ := bind_eq_ok.mp ran
    obtain ⟨made, rfl⟩ := ofOption_eq_ok.mp formed
    obtain ⟨start, stop⟩ := new_eq_some.mp made
    have whole : range.toSpan = region.1 := Span.ext start stop
    obtain ⟨base, _, copied, done⟩ := bind_eq_ok.mp ran
    cases done
    have copy := duplicateArea_ok lawful copied
    rw [whole] at copy
    exact .inr ⟨eq_false_of_not_eq_true forked, base, rfl, copy⟩

/-- The loop over the mappings from `v` to `w`, mapping by mapping. -/
inductive Copied (platform : Platform H) (groupBases : List (Span × ℕ)) :
    List (Span × VmArea H) → List DuplicatedRange → Vmem H → Vmem H → Prop
  | nil {v : Vmem H} : Copied platform groupBases [] [] v v
  | withheld {region rest relocations} {v w : Vmem H} (withheld : region.2.flags.contains .vmDontFork = true)
      (later : Copied platform groupBases rest relocations v w) : Copied platform groupBases (region :: rest) relocations v w
  | copied {region rest relocations} {v u w : Vmem H} {base : ℕ} (forked : region.2.flags.contains .vmDontFork = false)
      (placed : PlacedIn v u (region.1.at_ base) (region.2.childArea (region.1.at_ base)))
      (placing : InGroup groupBases region.1 base ∨ ∀ a ∈ region.1.at_ base, ¬Held v.calls a)
      (honoured : region.2.sharedHandle = none → platform.HonoursReplace → InGroup groupBases region.1 base)
      (later : Copied platform groupBases rest relocations u w) :
      Copied platform groupBases (region :: rest) (relocation region.1 region.2 base :: relocations) v w

section Loop

variable {platform : Platform H} {groupBases : List (Span × ℕ)} {regions : List (Span × VmArea H)} {relocations : List DuplicatedRange}
variable {v w : Vmem H} {copy : Span × VmArea H} {base : ℕ}

theorem duplicateRegions_copied (lawful : platform.Separates)
    (ran : duplicateRegions platform groupBases regions v = (.ok relocations, w)) : Copied platform groupBases regions relocations v w := by
  induction regions generalizing v relocations with
  | nil =>
    cases ran
    exact .nil
  | cons region rest ih =>
    obtain ⟨one, u, first, ran⟩ := bind_eq_ok.mp ran
    obtain ⟨others, _, later, done⟩ := bind_eq_ok.mp ran
    cases done
    obtain ⟨withheld, rfl, rfl⟩ | ⟨forked, base, rfl, placed, placing, honoured⟩ := duplicateRegion_ok lawful first
    · exact .withheld withheld (ih later)
    · exact .copied forked placed placing honoured (ih later)

variable (loop : Copied platform groupBases regions relocations v w) (reserved : Reserved groupBases v.calls)

include loop reserved

/-- A copy is still there after the rest of the loop. -/
theorem Copied.keeps
    (present : Present v copy base) (held : ∀ a ∈ copy.1.at_ base, Held v.calls a) (wellPlaced : WellPlaced groupBases copy base)
    (disjoint : ∀ region ∈ regions, ¬copy.1.Overlaps region.1) : Present w copy base := by
  induction loop with
  | nil => exact present
  | withheld _ _ ih => exact ih reserved present held (forall_mem_cons.mp disjoint).2
  | copied _ placed placing _ _ ih =>
    obtain ⟨here, disjoint⟩ := forall_mem_cons.mp disjoint
    refine ih (placed.reserved reserved) (fun a inside => ?_) (fun a inside => (placed.held a).mpr (.inl (held a inside))) disjoint
    obtain ⟨before, found, kept⟩ := present a inside
    obtain ⟨after, foundAfter, keptAfter⟩ :=
      placed.outside a (apart_of_wellPlaced reserved wellPlaced held here placing inside) before found
    exact ⟨after, foundAfter, kept.trans keptAfter⟩

/-- What the relocation list says of a mapping that is copied. -/
def Relocated (platform : Platform H) (groupBases : List (Span × ℕ)) (w : Vmem H) (region : Span × VmArea H)
    (relocation : DuplicatedRange) : Prop :=
  ∃ base, relocation = Vmem.relocation region.1 region.2 base ∧ Present w region base ∧
    (region.2.sharedHandle = none → platform.HonoursReplace → InGroup groupBases region.1 base)

theorem Copied.relocated
    (disjoint : regions.Pairwise fun first second => ¬first.1.Overlaps second.1) :
    List.Forall₂ (Relocated platform groupBases w) (regions.filter fun region => !region.2.flags.contains .vmDontFork) relocations := by
  induction loop with
  | nil => exact .nil
  | withheld withheld _ ih =>
    rw [filter_cons_of_neg (by simp [withheld])]
    exact ih reserved disjoint.tail
  | copied forked placed placing honoured later ih =>
    rw [filter_cons_of_pos (by simp [forked])]
    have reservedAfter := placed.reserved reserved
    refine .cons ⟨_, rfl, later.keeps reservedAfter ?_ ?_ (wellPlaced_of_placing reserved placing) (pairwise_cons.mp disjoint).1,
      honoured⟩ (ih reservedAfter disjoint.tail)
    · exact fun a inside => ⟨_, placed.inside a inside, .refl _⟩
    · exact fun a inside => (placed.held a).mpr (.inr inside)

/-- Where a copy is put. -/
def DuplicatedRange.target (relocation : DuplicatedRange) : Span := relocation.source.at_ relocation.destBase

/-- No later copy is put over one that is already there. -/
theorem Copied.spares
    (held : ∀ a ∈ copy.1.at_ base, Held v.calls a) (wellPlaced : WellPlaced groupBases copy base)
    (disjoint : ∀ region ∈ regions, ¬copy.1.Overlaps region.1) :
    ∀ relocation ∈ relocations, ∀ a ∈ copy.1.at_ base, a ∉ relocation.target := by
  induction loop with
  | nil => exact nofun
  | withheld _ _ ih => exact ih reserved held (forall_mem_cons.mp disjoint).2
  | copied _ placed placing _ _ ih =>
    obtain ⟨here, disjoint⟩ := forall_mem_cons.mp disjoint
    refine forall_mem_cons.mpr ⟨fun a => apart_of_wellPlaced reserved wellPlaced held here placing, ?_⟩
    exact ih (placed.reserved reserved) (fun a inside => (placed.held a).mpr (.inl (held a inside))) disjoint

theorem Copied.apart
    (disjoint : regions.Pairwise fun first second => ¬first.1.Overlaps second.1) :
    relocations.Pairwise fun first second => ∀ a ∈ first.target, a ∉ second.target := by
  induction loop with
  | nil => exact .nil
  | withheld _ _ ih => exact ih reserved disjoint.tail
  | copied _ placed placing _ later ih =>
    have reservedAfter := placed.reserved reserved
    refine .cons (later.spares reservedAfter (fun a inside => (placed.held a).mpr (.inr inside)) ?_ ?_) (ih reservedAfter disjoint.tail)
    · exact wellPlaced_of_placing reserved placing
    · exact (pairwise_cons.mp disjoint).1

end Loop

namespace Vmem

/-- The mappings that a child inherits. -/
def forked (v : Vmem H) : List (Span × VmArea H) := v.regions.filter fun region => !region.2.flags.contains .vmDontFork

theorem mem_forked {v : Vmem H} : region ∈ v.forked ↔ region ∈ v.vmas.entries ∧
    region.2.flags.isEmpty = false ∧ region.2.flags.contains .vmForeignLiveNeverReplace = false ∧
    region.2.flags.contains .vmDontFork = false := by
  simp only [forked, regions, mem_filter, and_eq_true, not_eq_true']
  tauto

theorem regions_disjoint (v : Vmem H) : v.regions.Pairwise fun first second => ¬first.1.Overlaps second.1 :=
  (v.vmas.ordered.sublist filter_sublist).imp fun apart overlaps => absurd overlaps.2 (not_lt.mpr apart)

end Vmem

section Listed

variable {α β : Type} {rel : α → β → Prop} {first : List α} {second : List β}

theorem exists_of_mem_left (related : List.Forall₂ rel first second) {x : α} (member : x ∈ first) : ∃ y ∈ second, rel x y := by
  obtain ⟨i, inside, rfl⟩ := getElem_of_mem member
  exact ⟨_, getElem_mem (related.length_eq ▸ inside), related.get inside _⟩

theorem exists_of_mem_right (related : List.Forall₂ rel first second) {y : β} (member : y ∈ second) : ∃ x ∈ first, rel x y :=
  exists_of_mem_left related.flip member

end Listed

/-- A successful duplicate, mapping by mapping. -/
theorem duplicate_ok {platform : Platform H} (lawful : platform.Separates) {source v w : Vmem H} {outcome : DuplicateOutcome}
    (ran : duplicate platform source v = (.ok outcome, w)) :
    ∃ groupBases, ∃ calls : List (Call H), groupBases.map Prod.fst = groups source.regions ∧
      Reserved groupBases calls ∧
      List.Forall₂ (Relocated platform groupBases w) source.forked outcome.relocations ∧
      (outcome.relocations.Pairwise fun first second => ∀ a ∈ first.target, a ∉ second.target) ∧
      w.brk = relocatedBrk source.brk outcome.relocations := by
  obtain ⟨groupBases, u, grouped, ran⟩ := bind_eq_ok.mp ran
  obtain ⟨_, _, checked, ran⟩ := bind_eq_ok.mp ran
  obtain ⟨-, rfl⟩ := when_fail_eq_ok.mp checked
  obtain ⟨relocations, t, copied, ran⟩ := bind_eq_ok.mp ran
  obtain ⟨_, _, moved, done⟩ := bind_eq_ok.mp ran
  cases moved
  cases done
  obtain ⟨names, reserved, -⟩ := placeGroups_ok lawful grouped
  have loop := duplicateRegions_copied lawful copied
  exact ⟨groupBases, u.calls, names, reserved, loop.relocated reserved source.regions_disjoint,
    loop.apart reserved source.regions_disjoint, rfl⟩

/-! ## A platform that hands out ever higher addresses -/

/-- The end of what a call has handed out. -/
def Call.top : Call ℕ → ℕ
  | .allocatePages range _ _ _ _ (.ok base) => base + range.length
  | .mapSharedMemory _ range _ _ (.ok base) => base + range.length
  | _ => 0

def callsTop (calls : List (Call ℕ)) : ℕ := calls.foldl (fun top call => max top call.top) 0x40000000

theorem lt_callsTop {calls : List (Call ℕ)} (held : Held calls a) : a < callsTop calls := by
  have grows : ∀ (known : Prop) (top : ℕ), (known → a < top) → calls.foldl (onHeld a) known →
      a < calls.foldl (fun top call => max top call.top) top := by
    clear held
    induction calls with
    | nil => exact fun known top below => below
    | cons call rest ih =>
      intro known top below
      refine ih _ _ fun held => ?_
      have top_le := le_max_left top call.top
      have call_le := le_max_right top call.top
      rcases call with ⟨range, _, _, _, _, _ | base⟩ | ⟨range, _ | _⟩ | _ | _ | _ | ⟨_, range, _, _, _ | base⟩ | ⟨range, _ | _⟩
      all_goals simp only [onHeld] at held
      all_goals first
        | exact (below held).trans_le top_le
        | exact (below held.1).trans_le top_le
        | exact held.elim (fun known => (below known).trans_le top_le) fun inside => inside.2.trans_le call_le
  exact grows False _ False.elim held

/-- Hints are answered with fresh addresses, and everything else as asked. -/
def Platform.bumping : Platform ℕ := { Platform.obliging with
  allocatePages calls range _ _ _ behavior := .ok (if behavior = .hint then callsTop calls else range.start)
  mapSharedMemory calls _ range _ behavior := .ok (if behavior = .hint then callsTop calls else range.start) }

theorem Platform.bumping_separates : Platform.bumping.Separates := by
  have place : ∀ {ε : Type} {calls : List (Call ℕ)} {range : Span} {behavior : FixedAddressBehavior} {base : ℕ},
      (.ok (if behavior = .hint then callsTop calls else range.start) : Except ε ℕ) = .ok base →
        (behavior ≠ .hint ∧ base = range.start) ∨ ∀ a ∈ range.at_ base, ¬Held calls a := by
    rintro ε calls range behavior _ ⟨⟩
    split
    · exact .inr fun a inside held => absurd (lt_callsTop held) (not_lt.mpr inside.1)
    · next told => exact .inl ⟨told, rfl⟩
  exact ⟨place, place⟩

/-- A fresh manager on the same platform. -/
def Vmem.childOf (v : Vmem ℕ) : Vmem ℕ := { Vmem.new [] with calls := v.calls }

/-- A fork that can be run ends with what can be looked for. -/
theorem duplicate_runs (platform : Platform ℕ) (source : Vmem ℕ) (holds : DuplicateOutcome → Vmem ℕ → Prop)
    [∀ outcome w, Decidable (holds outcome w)] (checked : (match duplicate platform source source.childOf with
      | (.ok outcome, w) => decide (holds outcome w)
      | _ => false) = true) : ∃ outcome w, duplicate platform source source.childOf = (.ok outcome, w) ∧ holds outcome w := by
  revert checked
  rcases duplicate platform source source.childOf with ⟨failure | outcome, w⟩
  · exact nofun
  · exact fun checked => ⟨outcome, w, rfl, of_decide_eq_true checked⟩

end LiteBox.Mm
