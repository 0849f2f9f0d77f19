import LiteBox.Mm.Views

/-! # A view is mapped as long as it is tracked

Over whole runs of the manager. A removal looks for another fragment of the view in the map as it was
before the removal, so a view whose last fragments go together is never unmapped; a fixed placement over
the last fragment does not unmap it either. Without these two, the mapped views are the tracked ones.
-/

namespace LiteBox.Mm

open Prog Vmem Span Platform

variable {H : Type}

/-- A platform that does not place anything over a mapped view unless it is told where, and that unmaps a
view when asked. -/
structure Platform.RespectsViews (platform : Platform H) : Prop where
  allocate : ∀ {calls range permissions canGrowDown populate behavior base},
    platform.allocatePages calls range permissions canGrowDown populate behavior = .ok base →
      (behavior ≠ .hint ∧ base = range.start) ∨ ∀ view ∈ mappedViews calls, ¬(range.at_ base).Overlaps view
  map : ∀ {calls handle range permissions behavior base},
    platform.mapSharedMemory calls handle range permissions behavior = .ok base →
      (behavior ≠ .hint ∧ base = range.start) ∨ ∀ view ∈ mappedViews calls, ¬(range.at_ base).Overlaps view
  unmap : ∀ {calls view}, view ∈ mappedViews calls → platform.unmapSharedMemory calls view = .ok ()

namespace Vmem

/-- Each mapped view is mapped once, and the mapped views are the tracked ones. -/
def ViewsExact (v : Vmem H) : Prop := (mappedViews v.calls).Nodup ∧ ∀ view, view ∈ mappedViews v.calls ↔ v.Tracked view

/-- The invariant: moreover a fragment lies inside its view. -/
structure Views (v : Vmem H) : Prop where
  exact : v.ViewsExact
  inside : ∀ a view, v.extentAt a = some view → a ∈ view

/-- A placement over the range leaves a fragment to every view. -/
def Spares (v : Vmem H) (range : Span) : Prop :=
  ∀ entry ∈ v.vmas.entries, entry.2.viewExtent.isSome →
    ∃ other ∈ v.vmas.entries, other.2.viewExtent = entry.2.viewExtent ∧ ¬range.Covers other.1

/-- A view that loses all its fragments with the range has only one. -/
def LosesSingly (v : Vmem H) (range : Span) : Prop :=
  ∀ first ∈ v.vmas.entries, ∀ second ∈ v.vmas.entries, first.2.viewExtent.isSome → first.2.viewExtent = second.2.viewExtent →
    (∀ entry ∈ v.vmas.entries, entry.2.viewExtent = first.2.viewExtent → range.Covers entry.1) → first.1 = second.1

instance (v : Vmem H) (range : Span) : Decidable (v.Spares range) := inferInstanceAs (Decidable (∀ _ ∈ _, _))

instance (v : Vmem H) (range : Span) : Decidable (v.LosesSingly range) := inferInstanceAs (Decidable (∀ _ ∈ _, _))

end Vmem

/-- From `v` to `w` just the views that lose their last fragment are unmapped, once each, and in a removal. -/
def UnmapsLost (removal : Bool) (v w : Vmem H) : Prop :=
  ∃ made, w.calls = v.calls ++ made ∧ (unmaps made).Nodup ∧ (∀ view, view ∈ unmaps made ↔ v.Tracked view ∧ ¬w.Tracked view) ∧
    (removal = false → unmaps made = [])

variable {platform : Platform H} {v w : Vmem H} {range : Span}

/-! ## Steps that leave the views alone -/

theorem Steady.tracked (steady : Steady v w) (view : Span) : w.Tracked view ↔ v.Tracked view := by
  simp [tracked_iff, steady.1]

theorem Steady.mapped (steady : Steady v w) : mappedViews w.calls = mappedViews v.calls := by
  obtain ⟨-, made, calls, quiet⟩ := steady
  rw [calls, mappedViews_append, onViews_of_quiet quiet]

theorem Steady.views (steady : Steady v w) (views : v.Views) : w.Views := by
  refine ⟨⟨?_, fun view => ?_⟩, fun a view extent => ?_⟩
  · rw [steady.mapped]
    exact views.exact.1
  · rw [steady.mapped, steady.tracked]
    exact views.exact.2 view
  · rw [steady.1] at extent
    exact views.inside a view extent

theorem Steady.unmapsLost (steady : Steady v w) (removal : Bool) : UnmapsLost removal v w := by
  obtain ⟨made, calls, quiet⟩ := steady.2
  refine ⟨made, calls, ?_, fun view => ?_, fun _ => unmaps_of_quiet quiet⟩ <;> rw [unmaps_of_quiet quiet]
  · exact List.nodup_nil
  · simp [steady.tracked]

/-! ## Creating -/

theorem viewExtent_placedArea (vma : VmArea H) (range : Span) :
    (placedArea vma range).viewExtent = if vma.sharedHandle.isSome then some range else none := by
  simp only [placedArea]
  split
  · next shared =>
    simp only [VmArea.viewExtent, shared, if_true]
    exact make?_eq_some.mpr ⟨rfl, range.start_add_length.symm⟩
  · next isPrivate => simp [VmArea.viewExtent, isPrivate]

variable {vma : VmArea H} {populate : Bool} {behavior : FixedAddressBehavior} {base : ℕ} {calls made : List (Call H)}

section

variable (placedBy : PlacedBy platform calls range vma populate behavior base made)

include placedBy

/-- A placement hits no view, or it was asked to go where it went. -/
theorem PlacedBy.respects (lawful : platform.RespectsViews) :
    (behavior ≠ .hint ∧ range.at_ base = range) ∨ ∀ view ∈ mappedViews calls, ¬(range.at_ base).Overlaps view := by
  have place : (behavior ≠ .hint ∧ base = range.start) ∨ ∀ view ∈ mappedViews calls, ¬(range.at_ base).Overlaps view := by
    cases placedBy with
    | allocated _ answer => exact lawful.allocate answer
    | mapped _ _ _ _ answer => exact lawful.map answer
  refine place.imp_left fun ⟨told, same⟩ => ⟨told, ?_⟩
  rw [same, at_start]

theorem PlacedBy.mappedViews :
    mappedViews (calls ++ made) =
      if vma.sharedHandle.isSome then range.at_ base :: LiteBox.Mm.mappedViews calls else LiteBox.Mm.mappedViews calls := by
  rw [mappedViews_append]
  cases placedBy with
  | allocated isPrivate => simp [isPrivate, Call.onViews]
  | mapped handle permissions narrowed shared answer quiet =>
    simp only [shared, Option.isSome_some, if_true, List.foldl_cons, Call.onViews]
    exact onViews_of_quiet quiet _

theorem PlacedBy.unmaps : unmaps made = [] := by
  cases placedBy with
  | allocated => rfl
  | mapped handle permissions narrowed shared answer quiet =>
    rw [← List.singleton_append, unmaps_append, unmaps_of_quiet quiet]
    rfl

end

/-- A placement that is not refused leaves a fragment to every view. -/
theorem kept_by_placement (views : v.Views) (free : v.checkFixed range behavior = none)
    (spares : behavior = .replace → v.Spares range)
    (place : (behavior ≠ .hint ∧ range.at_ base = range) ∨ ∀ view ∈ mappedViews v.calls, ¬(range.at_ base).Overlaps view)
    {view : Span} (tracked : v.Tracked view) : ∃ a ∉ range.at_ base, v.extentAt a = some view := by
  obtain ⟨a, extent⟩ := tracked_iff.mp tracked
  obtain ⟨told, same⟩ | apart := place
  · rw [same]
    cases behavior with
    | hint => exact absurd rfl told
    | noReplace =>
      refine ⟨a, fun inside => ?_, extent⟩
      simp only [checkFixed, ite_eq_right_iff, reduceCtorEq, imp_false, Bool.not_eq_true] at free
      have none := RangeMap.overlaps_eq_false free a inside.1 inside.2
      simp [extentAt, none] at extent
    | replace =>
      obtain ⟨known, memberKnown, extentKnown⟩ := tracked
      obtain ⟨entry, member, extent, sticksOut⟩ := spares rfl known memberKnown (by simp [extentKnown])
      rw [extentKnown] at extent
      obtain ⟨b, inside, outside⟩ : ∃ b ∈ entry.1, b ∉ range := by
        by_contra all
        refine sticksOut (covers_of_mem fun b inside => ?_)
        by_contra outside
        exact all ⟨b, inside, outside⟩
      exact ⟨b, outside, extentAt_eq_some.mpr ⟨entry, member, inside, extent⟩⟩
  · refine ⟨a, fun inside => ?_, extent⟩
    exact apart view ((views.exact.2 view).mpr tracked) (overlaps_iff.mpr ⟨a, inside, views.inside a view extent⟩)

variable [DecidableEq H]

theorem placement_spec (lawful : platform.RespectsViews) (views : v.Views) (free : v.checkFixed range behavior = none)
    (spares : behavior = .replace → v.Spares range) (placedBy : PlacedBy platform v.calls range vma populate behavior base made)
    (placed : w = ({ v with calls := v.calls ++ made } : Vmem H).insertVma (range.at_ base) (placedArea vma (range.at_ base))) :
    w.Views ∧ ∀ view, v.Tracked view → w.Tracked view := by
  set new := range.at_ base
  have kept {view : Span} (had : v.Tracked view) := kept_by_placement views free spares (placedBy.respects lawful) had
  have extents : ∀ a view, w.extentAt a = some view ↔
      (a ∈ new ∧ vma.sharedHandle.isSome ∧ view = new) ∨ (a ∉ new ∧ v.extentAt a = some view) := by
    intro a view
    have extent : w.extentAt a = if a ∈ new then if vma.sharedHandle.isSome then some new else none else v.extentAt a := by
      rw [placed, extentAt_insertVma, viewExtent_placedArea]
      rfl
    rw [extent]
    by_cases inside : a ∈ new <;> by_cases shared : vma.sharedHandle.isSome <;> simp [inside, shared, eq_comm]
  have mapped : mappedViews w.calls = if vma.sharedHandle.isSome then new :: mappedViews v.calls else mappedViews v.calls := by
    rw [placed]
    exact placedBy.mappedViews
  have tracked : ∀ view, v.Tracked view → w.Tracked view := by
    intro view had
    obtain ⟨a, outside, extent⟩ := kept had
    exact tracked_iff.mpr ⟨a, (extents a view).mpr (.inr ⟨outside, extent⟩)⟩
  have fresh : new ∉ mappedViews v.calls := by
    intro known
    obtain ⟨a, outside, extent⟩ := kept ((views.exact.2 _).mp known)
    exact outside (views.inside a _ extent)
  refine ⟨⟨⟨?_, fun view => ⟨fun known => ?_, fun known => ?_⟩⟩, fun a view extent => ?_⟩, tracked⟩
  · rw [mapped]
    split
    · exact List.nodup_cons.mpr ⟨fresh, views.exact.1⟩
    · exact views.exact.1
  · have either : (vma.sharedHandle.isSome ∧ view = new) ∨ view ∈ mappedViews v.calls := by
      rw [mapped] at known
      by_cases shared : vma.sharedHandle.isSome <;> simpa [shared] using known
    obtain ⟨shared, rfl⟩ | known := either
    · exact tracked_iff.mpr ⟨new.start, (extents _ _).mpr (.inl ⟨new.start_mem, shared, rfl⟩)⟩
    · exact tracked view ((views.exact.2 view).mp known)
  · obtain ⟨a, extent⟩ := tracked_iff.mp known
    obtain ⟨-, shared, rfl⟩ | ⟨-, extent⟩ := (extents a view).mp extent
    · rw [mapped, if_pos shared]
      exact List.mem_cons_self
    · have had := (views.exact.2 view).mpr (tracked_iff.mpr ⟨a, extent⟩)
      rw [mapped]
      split
      · exact List.mem_cons_of_mem _ had
      · exact had
  · obtain ⟨inside, -, rfl⟩ | ⟨-, extent⟩ := (extents a view).mp extent
    · exact inside
    · exact views.inside a view extent

theorem Created.spec {target : Option Span} (created : Created platform target v w) (lawful : platform.RespectsViews)
    (views : v.Views) (spares : ∀ range, target = some range → v.Spares range) : w.Views ∧ UnmapsLost false v w := by
  cases created with
  | refused w asked => exact ⟨(Steady.of_asked asked).views views, (Steady.of_asked asked).unmapsLost false⟩
  | placed u range' vma populate behavior base made asked fixed free placedBy =>
    have steady := Steady.of_asked asked
    have spared : behavior = .replace → u.Spares range' := by
      intro replace
      rw [Vmem.Spares, asked.1]
      exact spares range' (fixed replace)
    obtain ⟨viewsAfter, tracked⟩ := placement_spec lawful (steady.views views) free spared placedBy rfl
    refine ⟨viewsAfter, ?_⟩
    obtain ⟨quietCalls, calls, quiet⟩ := steady.2
    have none : unmaps (quietCalls ++ made) = [] := by
      rw [unmaps_append, unmaps_of_quiet quiet, placedBy.unmaps, List.append_nil]
    refine ⟨quietCalls ++ made, ?_, ?_, fun view => ?_, fun _ => none⟩
    · show u.calls ++ made = _
      rw [calls, List.append_assoc]
    · rw [none]
      exact List.nodup_nil
    · rw [none]
      refine ⟨nofun, fun ⟨had, lost⟩ => absurd (tracked view ((steady.tracked view).mpr had)) lost⟩

/-! ## Removing -/

namespace Vmem

/-- The views that a removal unmaps. -/
def unmapped (v : Vmem H) (range : Span) (overlaps : List (Span × Span)) : List Span :=
  (overlaps.filter fun overlap => v.emptiesView range overlap.1 overlap.2).map Prod.snd

variable {fragment view : Span}

theorem mem_sharedOverlaps : (fragment, view) ∈ v.sharedOverlaps range ↔
    ∃ vma, (fragment, vma) ∈ v.vmas.entries ∧ fragment.Overlaps range ∧ vma.viewExtent = some view := by
  simp only [sharedOverlaps, List.mem_filterMap, RangeMap.mem_overlapping, Option.map_eq_some_iff, Prod.mk.injEq]
  constructor
  · rintro ⟨⟨fragment, vma⟩, ⟨member, overlaps⟩, view, extent, rfl, rfl⟩
    exact ⟨vma, member, overlaps, extent⟩
  · rintro ⟨vma, member, overlaps, extent⟩
    exact ⟨(fragment, vma), ⟨member, overlaps⟩, view, extent, rfl, rfl⟩

theorem emptiesView_iff : v.emptiesView range fragment view = true ↔
    range.Covers fragment ∧ ∀ entry ∈ v.vmas.entries, entry.2.viewExtent = some view → entry.1 = fragment := by
  simp only [emptiesView, Bool.and_eq_true, decide_eq_true_eq, Bool.not_eq_true', List.any_eq_false, not_and, ne_eq]
  refine and_congr_right fun _ => forall₂_congr fun entry _ => ?_
  constructor
  · intro other extent
    by_contra different
    exact other different extent
  · intro only different extent
    exact different (only extent)

/-- Each view is unmapped through its only fragment, so not twice. -/
theorem nodup_unmapped (v : Vmem H) (range : Span) : (v.unmapped range (v.sharedOverlaps range)).Nodup := by
  have fragments : (v.sharedOverlaps range).Pairwise fun first second => first.1.stop ≤ second.1.start := by
    refine List.pairwise_filterMap.mpr ((v.vmas.ordered.sublist List.filter_sublist).imp ?_)
    intro first second apart overlap made other made'
    obtain ⟨_, _, rfl⟩ := Option.map_eq_some_iff.mp made
    obtain ⟨_, _, rfl⟩ := Option.map_eq_some_iff.mp made'
    exact apart
  refine List.pairwise_map.mpr (List.Pairwise.imp_of_mem ?_ (fragments.sublist List.filter_sublist))
  rintro ⟨fragment, view⟩ ⟨other, _⟩ member member' apart rfl
  obtain ⟨overlap, empties⟩ := List.mem_filter.mp member
  obtain ⟨overlap', -⟩ := List.mem_filter.mp member'
  obtain ⟨vma, known, -, extent⟩ := mem_sharedOverlaps.mp overlap'
  have same : other = fragment := (emptiesView_iff.mp empties).2 (other, vma) known extent
  have nonempty := fragment.nonempty
  simp only [same] at apart
  omega

/-- The unmapped views are those that lose their last fragment. -/
theorem mem_unmapped (singly : v.LosesSingly range) :
    view ∈ v.unmapped range (v.sharedOverlaps range) ↔ v.Tracked view ∧ ¬(v.removeVma range).Tracked view := by
  simp only [unmapped, List.mem_map, List.mem_filter, Prod.exists, exists_eq_right]
  constructor
  · rintro ⟨fragment, overlap, empties⟩
    obtain ⟨vma, member, -, extent⟩ := mem_sharedOverlaps.mp overlap
    obtain ⟨covers, only⟩ := emptiesView_iff.mp empties
    refine ⟨⟨_, member, extent⟩, fun still => ?_⟩
    obtain ⟨a, extent⟩ := tracked_iff.mp still
    rw [extentAt_removeVma] at extent
    split at extent
    · cases extent
    · next outside =>
      obtain ⟨entry, known, inside, extent⟩ := extentAt_eq_some.mp extent
      rw [only entry known extent] at inside
      exact outside (covers.mem inside)
  · rintro ⟨⟨⟨fragment, vma⟩, member, extent⟩, gone⟩
    have covers : ∀ entry ∈ v.vmas.entries, entry.2.viewExtent = some view → range.Covers entry.1 := by
      intro entry known extent
      refine covers_of_mem fun a inside => ?_
      by_contra outside
      refine gone (tracked_iff.mpr ⟨a, ?_⟩)
      rw [extentAt_removeVma, if_neg outside, extentAt_of_mem known inside, extent]
    have covered := covers _ member extent
    refine ⟨fragment, mem_sharedOverlaps.mpr ⟨vma, member, ?_, extent⟩, emptiesView_iff.mpr ⟨covered, ?_⟩⟩
    · exact overlaps_iff.mpr ⟨fragment.start, fragment.start_mem, covered.mem fragment.start_mem⟩
    · intro entry known extent'
      refine singly entry known _ member (by simp [extent']) (extent'.trans extent.symm) fun other knownOther extentOther => ?_
      exact covers other knownOther (extentOther.trans extent')

end Vmem

section

variable (lawful : platform.RespectsViews)

include lawful

theorem removeShared_run {overlap : Span × Span}
    (mapped : v.emptiesView range overlap.1 overlap.2 = true → overlap.2 ∈ mappedViews v.calls) :
    ∃ made, removeShared platform range overlap v = (.ok (), { v with calls := v.calls ++ made }) ∧
      ((v.emptiesView range overlap.1 overlap.2 = true ∧ made = [.unmapSharedMemory overlap.2 (.ok ())]) ∨
        (v.emptiesView range overlap.1 overlap.2 = false ∧ ∀ call ∈ made, call.quiet)) := by
  cases empties : v.emptiesView range overlap.1 overlap.2 with
  | true =>
    refine ⟨_, ?_, .inl ⟨rfl, rfl⟩⟩
    simp [removeShared, bind_apply, get_apply, empties, mapError, unmapShared, ask, lawful.unmap (mapped empties)]
  | false =>
    simp only [removeShared, bind_apply, get_apply, empties, Bool.false_eq_true, if_false]
    cases range.inter? overlap.1 with
    | none => exact ⟨[], by simp, .inr ⟨trivial, by simp⟩⟩
    | some revoked => exact ⟨[.updatePermissions revoked 0 _], rfl, .inr ⟨trivial, by simp [Call.quiet]⟩⟩

/-- The loop over the overlaps: it succeeds, and unmaps what it is to unmap. -/
theorem removeShared_loop (overlaps : List (Span × Span))
    (nodup : (v.unmapped range overlaps).Nodup) (mapped : ∀ view ∈ v.unmapped range overlaps, view ∈ mappedViews v.calls) :
    ∃ made, overlaps.forM (removeShared platform range) v = (.ok (), { v with calls := v.calls ++ made }) ∧
      unmaps made = v.unmapped range overlaps ∧
      mappedViews (v.calls ++ made) = (mappedViews v.calls).diff (v.unmapped range overlaps) := by
  induction overlaps generalizing v with
  | nil => exact ⟨[], by simp, rfl, by simp [unmapped]⟩
  | cons overlap rest ih =>
    have head : v.emptiesView range overlap.1 overlap.2 = true → overlap.2 ∈ mappedViews v.calls := by
      intro empties
      refine mapped _ ?_
      simp [unmapped, empties]
    obtain ⟨made, ran, step⟩ := removeShared_run lawful head
    set u : Vmem H := { v with calls := v.calls ++ made }
    have same : u.unmapped range rest = v.unmapped range rest := rfl
    obtain ⟨empties, rfl⟩ | ⟨keeps, quiet⟩ := step
    · have all : v.unmapped range (overlap :: rest) = overlap.2 :: v.unmapped range rest := by
        simp [unmapped, empties]
      have views : mappedViews u.calls = (mappedViews v.calls).erase overlap.2 := mappedViews_append ..
      rw [all] at nodup mapped ⊢
      obtain ⟨fresh, nodup⟩ := List.nodup_cons.mp nodup
      obtain ⟨more, ranRest, unmapped, left⟩ := ih (v := u) nodup (by
        intro view member
        rw [views]
        refine (List.mem_erase_of_ne ?_).mpr (mapped view (List.mem_cons_of_mem _ member))
        rintro rfl
        exact fresh member)
      refine ⟨[.unmapSharedMemory overlap.2 (.ok ())] ++ more, ?_, ?_, ?_⟩
      · rw [forM_cons_of_ok ran, ranRest]
        simp [u]
      · rw [unmaps_append, unmapped, same]
        rfl
      · rw [← List.append_assoc, left, views, same, List.diff_cons]
    · have all : v.unmapped range (overlap :: rest) = v.unmapped range rest := by
        simp [unmapped, keeps]
      have views : mappedViews u.calls = mappedViews v.calls := by
        rw [mappedViews_append, onViews_of_quiet quiet]
      rw [all] at nodup mapped ⊢
      obtain ⟨more, ranRest, unmapped, left⟩ := ih (v := u) nodup (by rwa [views])
      refine ⟨made ++ more, ?_, ?_, ?_⟩
      · rw [forM_cons_of_ok ran, ranRest]
        simp [u]
      · rw [unmaps_append, unmaps_of_quiet quiet, unmapped, same, List.nil_append]
      · rw [← List.append_assoc, left, views, same]

/-- A removal ends with the map as it was, when the pages of a range without shared views cannot be given
back, or with the range gone. -/
theorem removeMapping_run (views : v.Views) (singly : v.LosesSingly range) :
    Steady v (removeMapping platform range v).2 ∨
      ∃ made, (removeMapping platform range v).2 = { v.removeVma range with calls := v.calls ++ made } ∧
        unmaps made = v.unmapped range (v.sharedOverlaps range) ∧
        mappedViews (v.calls ++ made) = (mappedViews v.calls).diff (v.unmapped range (v.sharedOverlaps range)) := by
  by_cases empty : v.sharedOverlaps range = []
  · rw [removeMapping_private empty, empty]
    cases platform.deallocatePages v.calls range with
    | error failure => exact .inl ⟨fun _ => rfl, _, rfl, by simp [Call.quiet]⟩
    | ok _ =>
      refine .inr ⟨[.deallocatePages range (.ok ()), .releaseMappingClaim range], rfl, rfl, ?_⟩
      rw [mappedViews_append]
      exact (List.diff_nil _).symm
  · have mapped : ∀ view ∈ v.unmapped range (v.sharedOverlaps range), view ∈ mappedViews v.calls := by
      intro view member
      exact (views.exact.2 view).mpr ((mem_unmapped singly).mp member).1
    obtain ⟨made, ran, unmapped, left⟩ := removeShared_loop lawful _ (v.nodup_unmapped range) mapped
    refine .inr ⟨made ++ [.releaseMappingClaim range], ?_, ?_, ?_⟩
    · simp only [removeMapping, bind_apply, get_apply, ran, when, empty, if_false]
      simp [releaseMappingClaim, Prog.modify, removeVma]
    · rw [unmaps_append, unmapped]
      exact List.append_nil _
    · rw [← List.append_assoc, mappedViews_append, left]
      rfl

theorem removeMapping_spec (views : v.Views) (singly : v.LosesSingly range) :
    (removeMapping platform range v).2.Views ∧ UnmapsLost true v (removeMapping platform range v).2 := by
  obtain steady | ⟨made, ran, unmapped, left⟩ := removeMapping_run lawful views singly
  · exact ⟨steady.views views, steady.unmapsLost true⟩
  rw [ran]
  set w : Vmem H := { v.removeVma range with calls := v.calls ++ made }
  have extents : ∀ a view, w.extentAt a = some view → v.extentAt a = some view := by
    intro a view extent
    have removed : w.extentAt a = if a ∈ range then none else v.extentAt a := extentAt_removeVma v range a
    rw [removed] at extent
    split at extent
    · cases extent
    · exact extent
  have lost : ∀ view, view ∈ v.unmapped range (v.sharedOverlaps range) ↔ v.Tracked view ∧ ¬w.Tracked view :=
    fun view => mem_unmapped singly
  refine ⟨⟨⟨?_, fun view => ?_⟩, fun a view extent => views.inside a view (extents a view extent)⟩, made, rfl, ?_, ?_, nofun⟩
  · show (mappedViews (v.calls ++ made)).Nodup
    rw [left]
    exact views.exact.1.diff
  · show view ∈ mappedViews (v.calls ++ made) ↔ _
    rw [left, views.exact.1.mem_sdiff_iff, lost, views.exact.2]
    constructor
    · rintro ⟨had, kept⟩
      by_contra gone
      exact kept ⟨had, gone⟩
    · intro still
      refine ⟨?_, fun gone => gone.2 still⟩
      obtain ⟨a, extent⟩ := tracked_iff.mp still
      exact tracked_iff.mpr ⟨a, extents a view extent⟩
  · rw [unmapped]
    exact v.nodup_unmapped range
  · rw [unmapped]
    exact lost

/-! ## Runs -/

/-- The operations that create, split and remove mappings. -/
inductive MapOp (H : Type) where
  | createMapping (suggested : Option NonZeroAddress) (length : NonZeroPageSize) (vma : VmArea H) (flags : Vmem.CreatePagesFlags)
  | createPages (suggested : Option NonZeroAddress) (length : NonZeroPageSize) (flags : Vmem.CreatePagesFlags)
      (permissions : MemoryRegionPermissions)
  | protectMapping (range : PageRange) (permissions : MemoryRegionPermissions)
  | updateRangeFlags (range : PageRange) (set clear : VmFlags)
  | removeMapping (range : PageRange)

/-- The state after an operation, successful or not; there is none after a panic. -/
def MapOp.apply (platform : Platform H) (v : Vmem H) : MapOp H → Option (Vmem H)
  | .createMapping suggested length vma flags => survivor (Vmem.createMapping platform suggested length vma flags v)
  | .createPages suggested length flags permissions => survivor (Vmem.createPages platform suggested length flags permissions v)
  | .protectMapping range permissions => survivor (Vmem.protectMapping platform range.toSpan permissions v)
  | .updateRangeFlags range set clear => survivor (Vmem.updateRangeFlags range.toSpan set clear v)
  | .removeMapping range => survivor (Vmem.removeMapping platform range.toSpan v)

/-- A fixed placement leaves a fragment to every view, and no view loses several last fragments at once. -/
def MapOp.Sparing (v : Vmem H) : MapOp H → Prop
  | .createMapping suggested length _ flags => ∀ range ∈ flags.replaces suggested length, v.Spares range
  | .createPages suggested length flags _ => ∀ range ∈ flags.replaces suggested length, v.Spares range
  | .removeMapping range => v.LosesSingly range.toSpan
  | _ => True

instance (v : Vmem H) : (op : MapOp H) → Decidable (op.Sparing v)
  | .createMapping suggested length _ flags => inferInstanceAs (Decidable (∀ range ∈ flags.replaces suggested length, v.Spares range))
  | .createPages suggested length flags _ => inferInstanceAs (Decidable (∀ range ∈ flags.replaces suggested length, v.Spares range))
  | .removeMapping range => inferInstanceAs (Decidable (v.LosesSingly range.toSpan))
  | .protectMapping .. => inferInstanceAs (Decidable True)
  | .updateRangeFlags .. => inferInstanceAs (Decidable True)

def MapOp.isRemoval : MapOp H → Bool
  | .removeMapping _ => true
  | _ => false

def MapOp.step (platform : Platform H) (state : Option (Vmem H)) (op : MapOp H) : Option (Vmem H) :=
  state.bind fun v => op.apply platform v

omit lawful in
theorem survivor_eq {ε α : Type} {result : Except (Halt ε) α × Vmem H} (survived : survivor result = some w) : w = result.2 := by
  rcases result with ⟨(_ | _) | _, _⟩ <;> cases survived <;> rfl

theorem MapOp.spec (views : v.Views) {op : MapOp H} (sparing : op.Sparing v)
    (applied : op.apply platform v = some w) : w.Views ∧ UnmapsLost op.isRemoval v w := by
  cases op with
  | createMapping suggested length vma flags => exact (createMapping_created (.refl v) applied).spec lawful views sparing
  | createPages suggested length flags permissions => exact (createPages_created applied).spec lawful views sparing
  | protectMapping range permissions =>
    have steady := protectMapping_steady platform range.toSpan permissions v
    rw [survivor_eq applied]
    exact ⟨steady.views views, steady.unmapsLost false⟩
  | updateRangeFlags range set clear =>
    have steady := updateRangeFlags_steady range.toSpan set clear v
    rw [survivor_eq applied]
    exact ⟨steady.views views, steady.unmapsLost false⟩
  | removeMapping range =>
    rw [survivor_eq applied]
    exact removeMapping_spec lawful views sparing

end

theorem Vmem.views_new (reserved : List Span) : (new reserved : Vmem H).Views := by
  have blank : ∀ (v : Vmem H), (∀ a, v.extentAt a = none) → v.calls = [] →
      (∀ a, (reserved.foldl (fun v range => v.insertVma range (.new 0 false)) v).extentAt a = none) ∧
        (reserved.foldl (fun v range => v.insertVma range (.new 0 false)) v).calls = [] := by
    induction reserved with
    | nil => exact fun v extents calls => ⟨extents, calls⟩
    | cons range rest ih =>
      intro v extents calls
      refine ih (v.insertVma range (.new 0 false)) (fun a => ?_) calls
      rw [extentAt_insertVma, extents, VmArea.viewExtent_of_private rfl, ite_self]
  obtain ⟨extents, calls⟩ := blank ⟨0, .empty, []⟩ (fun _ => rfl) rfl
  refine ⟨⟨?_, fun view => ?_⟩, fun a view extent => ?_⟩
  · rw [new, calls]
    exact List.nodup_nil
  · rw [new, calls, tracked_iff]
    refine ⟨nofun, fun ⟨a, extent⟩ => ?_⟩
    rw [extents] at extent
    cases extent
  · rw [new, extents] at extent
    cases extent

/-- A platform that places everything where it is asked to, and refuses a hint that hits a view. -/
def Platform.cautious : Platform ℕ := { obliging with
  allocatePages calls range _ _ _ behavior :=
    if behavior = .hint ∧ ∃ view ∈ mappedViews calls, range.Overlaps view then .error .outOfMemory else .ok range.start
  mapSharedMemory calls _ range _ behavior :=
    if behavior = .hint ∧ ∃ view ∈ mappedViews calls, range.Overlaps view then .error .outOfMemory else .ok range.start }

theorem Platform.cautious_respectsViews : cautious.RespectsViews := by
  have place : ∀ {ε : Type} {failure : ε} {calls : List (Call ℕ)} {range : Span} {behavior : FixedAddressBehavior} {base : ℕ},
      (if behavior = .hint ∧ ∃ view ∈ mappedViews calls, range.Overlaps view then Except.error failure else .ok range.start) =
        .ok base →
      (behavior ≠ .hint ∧ base = range.start) ∨ ∀ view ∈ mappedViews calls, ¬(range.at_ base).Overlaps view := by
    intro ε failure calls range behavior base answer
    split at answer
    · cases answer
    · next clear =>
      cases answer
      rw [at_start]
      by_cases hint : behavior = .hint
      · exact .inr fun view mapped overlaps => clear ⟨hint, view, mapped, overlaps⟩
      · exact .inl ⟨hint, rfl⟩
  exact ⟨place, place, fun _ => rfl⟩

def secondPage : PageRange := ⟨⟨0x21000, 0x22000, by decide⟩, by decide, by decide⟩
def wholeView : PageRange := ⟨⟨0x20000, 0x22000, by decide⟩, by decide, by decide⟩

/-- A shared mapping of two pages with the first page write-protected. -/
def splitView : List (MapOp ℕ) :=
  [.createPages (some viewAddress) twoPages { fixedAddr := true, shared := true } readWrite,
    .protectMapping firstPage .read]

end LiteBox.Mm
