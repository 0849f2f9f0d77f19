import LiteBox.Mm.Vmem

/-! # What an unmap gives back

`remove_mapping` forgets exactly the addresses of its range. The private pages of the range go back to
the platform only when no shared view reaches into it.
-/

namespace LiteBox.Mm

open Vmem List Prog Platform RangeMap

variable {H : Type} [DecidableEq H]

/-! ## Frames of the platform calls -/

/-- From `v` to `w` only calls of a kind were made. -/
def Asked (kind : Call H → Prop) (v w : Vmem H) : Prop :=
  w.vmas = v.vmas ∧ w.brk = v.brk ∧ ∃ made, w.calls = v.calls ++ made ∧ ∀ call ∈ made, kind call

variable {kind : Call H → Prop}

theorem Asked.refl (v : Vmem H) : Asked kind v v := ⟨rfl, rfl, [], (append_nil _).symm, nofun⟩

variable {v : Vmem H}

theorem Asked.ask {ε α : Type} {answer : List (Call H) → Except ε α} {record : Except ε α → Call H}
    (each : ∀ answer, kind (record answer)) : Prog.Keeps (Asked kind v) (ask answer record) := by
  rintro w ⟨vmas, brk, made, calls, quiet⟩
  refine ⟨vmas, brk, made ++ [record (answer w.calls)], ?_, ?_⟩
  · show w.calls ++ _ = _
    rw [calls, append_assoc]
  · exact forall_mem_append.mpr ⟨quiet, forall_mem_singleton.mpr (each _)⟩

/-! ## Removing -/

/-- A call that gives pages back. -/
def Call.gives (a : ℕ) : Call H → Prop
  | .deallocatePages range _ => a ∈ range
  | _ => False

theorem removeShared_asks (kind : Call H → Prop) (unmap : ∀ range answer, kind (.unmapSharedMemory range answer))
    (revoke : ∀ range permissions answer, kind (.updatePermissions range permissions answer))
    (platform : Platform H) (range : Span) (overlap : Span × Span) (v : Vmem H) :
    Prog.Keeps (Asked kind v) (removeShared platform range overlap) := by
  refine .bind .get fun v => ?_
  split
  · exact .mapError (.ask (unmap _))
  · split
    · exact .bind (.attempt (.ask (revoke _ _))) fun _ => .pure _
    · exact .pure _

variable {range : Span}

/-- A removal from a range that no shared view reaches into, spelled out. -/
theorem removeMapping_private {platform : Platform H} (empty : v.sharedOverlaps range = []) :
    removeMapping platform range v =
      match platform.deallocatePages v.calls range with
      | .error failure =>
        (.error (.error (.unmapError failure)), { v with calls := v.calls ++ [.deallocatePages range (.error failure)] })
      | .ok () =>
        (.ok (), { v.removeVma range with calls := v.calls ++ [.deallocatePages range (.ok ()), .releaseMappingClaim range] }) := by
  simp only [removeMapping, bind_apply, get_apply, empty, when, if_true, forM_eq_forM, forM_nil,
    pure_apply, deallocate, ask, mapError]
  cases platform.deallocatePages v.calls range with
  | error failure => rfl
  | ok _ => simp [releaseMappingClaim, Prog.modify, removeVma]

/-- A successful removal: the calls for the shared views, the deallocation when there are none, and the
range is gone from the map. -/
theorem removeMapping_ok {platform : Platform H} {w : Vmem H}
    (ran : removeMapping platform range v = (.ok (), w)) :
    w.vmas = v.vmas.remove range ∧ w.brk = v.brk ∧ ∃ views back, w.calls = v.calls ++ views ++ back ∧
      (∀ call ∈ views, ∀ a, ¬call.gives a) ∧
      back = if v.sharedOverlaps range = [] then [.deallocatePages range (.ok ()), .releaseMappingClaim range]
        else [.releaseMappingClaim range] := by
  obtain ⟨_, _, got, ran⟩ := bind_eq_ok.mp ran
  cases got
  obtain ⟨_, u, loop, ran⟩ := bind_eq_ok.mp ran
  have frame : Asked (fun call => ∀ a, ¬call.gives a) v u := by
    have frame := Prog.Keeps.forM (fun overlap (_ : overlap ∈ v.sharedOverlaps range) =>
      removeShared_asks (fun call => ∀ a, ¬call.gives a) (fun _ _ _ => not_false) (fun _ _ _ _ => not_false) platform range overlap v) v (Asked.refl v)
    rw [loop] at frame
    exact frame
  obtain ⟨vmas, brk, views, calls, quiet⟩ := frame
  obtain ⟨_, t, back, ran⟩ := bind_eq_ok.mp ran
  obtain ⟨_, _, claimed, ran⟩ := bind_eq_ok.mp ran
  cases claimed
  cases ran
  by_cases none : v.sharedOverlaps range = []
  · rw [when, if_pos none] at back
    have answer := mapError_eq_ok.mp back
    simp only [deallocate, ask, Prod.mk.injEq] at answer
    obtain ⟨ok, rfl⟩ := answer
    refine ⟨congrArg (·.remove range) vmas, brk, views, _, ?_, quiet, rfl⟩
    rw [if_pos none, ← calls]
    show u.calls ++ [.deallocatePages range (platform.deallocatePages u.calls range)] ++ [.releaseMappingClaim range] = _
    rw [ok, append_assoc]
    rfl
  · rw [when, if_neg none] at back
    cases back
    refine ⟨congrArg (·.remove range) vmas, brk, views, _, ?_, quiet, rfl⟩
    rw [if_neg none, ← calls]
    rfl

namespace Vmem

/-- The address belongs to a private area. -/
def PrivateAt (v : Vmem H) (a : ℕ) : Prop := ∃ vma, v.vmas.get a = some vma ∧ vma.sharedHandle = none

/-- Since `v`, the address was handed to `deallocate_pages`. -/
def GivenBackSince (v w : Vmem H) (a : ℕ) : Prop := ∃ call ∈ w.calls.drop v.calls.length, call.gives a

/-- No shared view reaches into the range, or no private area does. -/
def Unmixed (v : Vmem H) (range : Span) : Prop :=
  (∀ a ∈ range, ∀ vma, v.vmas.get a = some vma → vma.viewExtent = none) ∨ ∀ a ∈ range, ¬v.PrivateAt a

omit [DecidableEq H] in
theorem sharedOverlaps_eq_nil :
    v.sharedOverlaps range = [] ↔ ∀ a ∈ range, ∀ vma, v.vmas.get a = some vma → vma.viewExtent = none := by
  simp only [sharedOverlaps, filterMap_eq_nil_iff, mem_overlapping, Option.map_eq_none_iff]
  constructor
  · intro none a inside vma found
    obtain ⟨r, member, low, high⟩ := get_eq_some.mp found
    exact none (r, vma) ⟨member, lt_of_le_of_lt low inside.2, lt_of_le_of_lt inside.1 high⟩
  · rintro none entry ⟨member, left, right⟩
    obtain ⟨a, inEntry, inside⟩ := Span.overlaps_iff.mp (show entry.1.Overlaps range from ⟨left, right⟩)
    exact none a inside entry.2 (get_of_mem member inEntry)

end Vmem

/-- An unmap that succeeds restricts the map to the addresses outside its range, and it hands every private
address of the range to the platform exactly when the range does not mix private areas with shared views. -/
theorem removeMapping_complete_iff (platform : Platform H) (range : PageRange) (v w : Vmem H)
    (ran : removeMapping platform range.toSpan v = (.ok (), w)) :
    ((∀ a, w.vmas.get a = if a ∈ range.toSpan then none else v.vmas.get a) ∧
      ∀ a ∈ range.toSpan, v.PrivateAt a → v.GivenBackSince w a) ↔ v.Unmixed range.toSpan := by
  obtain ⟨vmas, -, views, back, calls, quiet, rfl⟩ := removeMapping_ok ran
  have restricted : ∀ a, w.vmas.get a = if a ∈ range.toSpan then none else v.vmas.get a := by
    intro a
    rw [vmas, get_remove]
  have given : ∀ a, v.GivenBackSince w a ↔ ∃ call ∈ (if v.sharedOverlaps range.toSpan = [] then
      [.deallocatePages range.toSpan (.ok ()), .releaseMappingClaim range.toSpan]
      else [.releaseMappingClaim range.toSpan] : List (Call H)), call.gives a := by
    intro a
    rw [Vmem.GivenBackSince, calls, append_assoc, drop_left]
    constructor
    · rintro ⟨call, member, gives⟩
      obtain view | member := mem_append.mp member
      · exact absurd gives (quiet call view a)
      · exact ⟨call, member, gives⟩
    · rintro ⟨call, member, gives⟩
      exact ⟨call, mem_append_right _ member, gives⟩
  rw [and_iff_right restricted]
  simp only [given]
  by_cases none : v.sharedOverlaps range.toSpan = []
  · rw [if_pos none]
    refine ⟨fun _ => .inl (sharedOverlaps_eq_nil.mp none), fun _ a inside _ => ?_⟩
    exact ⟨_, mem_cons_self, inside⟩
  · rw [if_neg none]
    constructor
    · intro all
      refine .inr fun a inside isPrivate => ?_
      obtain ⟨call, member, gives⟩ := all a inside isPrivate
      rw [mem_singleton.mp member] at gives
      exact gives
    · rintro (quiet | noPrivate) a inside isPrivate
      · exact absurd (sharedOverlaps_eq_nil.mpr quiet) none
      · exact absurd isPrivate (noPrivate a inside)

/-! ## A page next to a shared view -/

/-- A platform that does what it is asked. -/
def Platform.obliging : Platform ℕ where
  taskAddrMin := 0x1000
  taskAddrMax := 0x7ffffffff000
  guardGapDisabled := false
  allocatePages _ range _ _ _ _ := .ok range.start
  deallocatePages _ _ := .ok ()
  updatePermissions _ _ _ := .ok ()
  createSharedMemory calls _ := .ok calls.length
  mapSharedMemory _ _ range _ _ := .ok range.start
  unmapSharedMemory _ _ := .ok ()
  readable _ _ := true
  writable _ _ := true

def readWrite : MemoryRegionPermissions := .read ||| .write

def onePage : NonZeroPageSize := ⟨pageSize, by decide, dvd_rfl⟩

/-- A private page at `0x1f000` and the view of a shared object right behind it. -/
def neighbours : Vmem ℕ :=
  let first := (createPages .obliging (some ⟨0x1f000, by decide, by decide⟩) onePage { fixedAddr := true } readWrite (.new [])).2
  (createPages .obliging (some ⟨0x20000, by decide, by decide⟩) onePage { fixedAddr := true, shared := true } readWrite first).2

def privatePage : PageRange := ⟨⟨0x1f000, 0x20000, by decide⟩, by decide, by decide⟩
def bothPages : PageRange := ⟨⟨0x1f000, 0x21000, by decide⟩, by decide, by decide⟩
def firstPage : PageRange := ⟨⟨0x20000, 0x21000, by decide⟩, by decide, by decide⟩
def viewAddress : NonZeroAddress := ⟨0x20000, by decide, by decide⟩
def twoPages : NonZeroPageSize := ⟨2 * pageSize, by decide, by decide⟩

theorem neighbours_private : neighbours.PrivateAt 0x1f000 := ⟨.new 0x73 false, by decide +kernel, rfl⟩

theorem removeMapping_complete_iff_privatePage :
    neighbours.GivenBackSince (removeMapping .obliging privatePage.toSpan neighbours).2 0x1f000 := by
  refine ((removeMapping_complete_iff .obliging privatePage neighbours _ rfl).mpr (.inl ?_)).2 0x1f000 (by decide)
    neighbours_private
  rw [← sharedOverlaps_eq_nil]
  decide +kernel

/-- Unmapped together with the view, the private page is forgotten and stays with the platform. -/
theorem private_page_leaks :
    (removeMapping .obliging bothPages.toSpan neighbours).1 = .ok () ∧ neighbours.PrivateAt 0x1f000 ∧
      (removeMapping .obliging bothPages.toSpan neighbours).2.vmas.get 0x1f000 = none ∧
      ¬neighbours.GivenBackSince (removeMapping .obliging bothPages.toSpan neighbours).2 0x1f000 := by
  refine ⟨by decide +kernel, neighbours_private, by decide +kernel, ?_⟩
  rintro ⟨call, member, gives⟩
  have calls : (removeMapping .obliging bothPages.toSpan neighbours).2.calls.drop neighbours.calls.length =
      [.unmapSharedMemory ⟨0x20000, 0x21000, by decide⟩ (.ok ()), .releaseMappingClaim bothPages.toSpan] := rfl
  rw [calls] at member
  obtain rfl | member := mem_cons.mp member
  · exact gives
  · rw [mem_singleton.mp member] at gives
    exact gives

end LiteBox.Mm
