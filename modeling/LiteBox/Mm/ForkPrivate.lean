import LiteBox.Mm.Fork

/-! # Private memory after a fork

Private mappings that lie close together form a group, and the mappings of a group keep their distances
in the child. An inaccessible mapping loses the headroom that was reserved behind it.
-/

namespace LiteBox.Mm

open Vmem List Clusters Span Platform

variable {H : Type}

/-! ## Groups -/

namespace Vmem

/-- A private mapping of the guest's own. -/
def IsPrivate (v : Vmem H) (region : Span × VmArea H) : Prop := region ∈ v.regions ∧ region.2.sharedHandle = none

/-- The gap between the reserved extents is at most the largest gap inside a group. -/
def Near (first second : Span × VmArea H) : Prop :=
  (reservedExtent second).start ≤ saturatingAdd (reservedExtent first).stop maxIntraGroupGap ∧
    (reservedExtent first).start ≤ saturatingAdd (reservedExtent second).stop maxIntraGroupGap

instance (first second : Span × VmArea H) : Decidable (Near first second) := inferInstanceAs (Decidable (_ ∧ _))

/-- Private mappings that are connected by small gaps. -/
def SameGroup (v : Vmem H) : Span × VmArea H → Span × VmArea H → Prop :=
  Relation.ReflTransGen fun first second => v.IsPrivate first ∧ v.IsPrivate second ∧ Near first second

end Vmem

theorem le_saturatingAdd (a b : ℕ) : a ≤ saturatingAdd a b := le_max_left _ _

theorem saturatingAdd_mono (b : ℕ) : Monotone (saturatingAdd · b) := by
  intro a a' le
  simp only [saturatingAdd]
  omega

theorem groups_apart (regions : List (Span × VmArea H)) :
    (groups regions).Pairwise (Clusters.Apart (saturatingAdd · maxIntraGroupGap)) :=
  pairwise_reverse.mpr (fold_apart (fun a => le_saturatingAdd a _) .nil)

variable {v : Vmem H} {regions : List (Span × VmArea H)} {first second : Span × VmArea H} {region : Span × VmArea H}

theorem group_covers (isPrivate : v.IsPrivate region) :
    ∃ group ∈ groups v.regions, group.Covers (reservedExtent region) := by
  have sorted : (sortedNonShared v.regions).Pairwise fun r s => r.start ≤ s.start := pairwise_insertionSort _ _
  refine ofSorted_covers sorted _ ?_
  refine (mem_insertionSort _).mpr (mem_map.mpr ⟨region, mem_filter.mpr ⟨isPrivate.1, ?_⟩, rfl⟩)
  simp [isPrivate.2]

/-- Two groups with a common address are the same. -/
theorem group_unique {first second : Span} (member : first ∈ groups regions)
    (member' : second ∈ groups regions) {a : ℕ} (inFirst : a ∈ first) (inSecond : a ∈ second) : first = second := by
  have reach := le_saturatingAdd (a + 1) maxIntraGroupGap
  exact eq_of_reach (saturatingAdd_mono _) (groups_apart regions) member member' inFirst inSecond (by omega) (by omega)

/-- Near mappings belong to one group. -/
theorem group_of_near (near : Vmem.Near first second)
    {group group' : Span} (member : group ∈ groups regions) (member' : group' ∈ groups regions)
    (covers : group.Covers (reservedExtent first)) (covers' : group'.Covers (reservedExtent second)) : group = group' := by
  set r := reservedExtent first
  set s := reservedExtent second
  have nonempty := r.nonempty
  have nonempty' := s.nonempty
  -- The end of the one and the start of the other are within reach, unless the two overlap.
  by_cases before : r.stop ≤ s.start
  · refine eq_of_reach (saturatingAdd_mono _) (groups_apart regions) member member'
      (covers.mem (show r.stop - 1 ∈ r from ⟨by omega, by omega⟩)) (covers'.mem s.start_mem) ?_ ?_
    · rw [Nat.sub_add_cancel (by omega)]
      exact near.1
    · exact (show r.stop - 1 ≤ s.start + 1 by omega).trans (le_saturatingAdd _ _)
  by_cases after : s.stop ≤ r.start
  · refine eq_of_reach (saturatingAdd_mono _) (groups_apart regions) member member' (covers.mem r.start_mem)
      (covers'.mem (show s.stop - 1 ∈ s from ⟨by omega, by omega⟩)) ?_ ?_
    · exact (show s.stop - 1 ≤ r.start + 1 by omega).trans (le_saturatingAdd _ _)
    · rw [Nat.sub_add_cancel (by omega)]
      exact near.2
  · obtain ⟨a, inFirst, inSecond⟩ := Span.overlaps_iff.mp (show r.Overlaps s from ⟨by omega, by omega⟩)
    exact group_unique member member' (covers.mem inFirst) (covers'.mem inSecond)

theorem group_of_sameGroup (same : v.SameGroup first second)
    {group group' : Span} (member : group ∈ groups v.regions) (member' : group' ∈ groups v.regions)
    (covers : group.Covers (reservedExtent first)) (covers' : group'.Covers (reservedExtent second)) : group = group' := by
  induction same generalizing group' with
  | refl => exact group_unique member member' (covers.mem (Span.start_mem _)) (covers'.mem (Span.start_mem _))
  | tail _ step ih =>
    obtain ⟨between, known, coversBetween⟩ := group_covers step.1
    obtain rfl := ih known coversBetween
    exact group_of_near step.2.2 known member' coversBetween covers'

/-! ## Destinations -/

variable {groupBases : List (Span × ℕ)}

/-- Mappings of one group keep their distance. -/
theorem InGroup.offset (names : groupBases.map Prod.fst = groups v.regions)
    (isPrivate : v.IsPrivate first) (isPrivate' : v.IsPrivate second)
    (same : v.SameGroup first second) {base base' : ℕ} (inGroup : InGroup groupBases first.1 base)
    (inGroup' : InGroup groupBases second.1 base') : (base : ℤ) - base' = first.1.start - second.1.start := by
  obtain ⟨entry, found, rfl⟩ := inGroup
  obtain ⟨entry', found', rfl⟩ := inGroup'
  have member := mem_of_find?_eq_some found
  have member' := mem_of_find?_eq_some found'
  have isGroup : entry.1 ∈ groups v.regions := names ▸ mem_map_of_mem member
  have isGroup' : entry'.1 ∈ groups v.regions := names ▸ mem_map_of_mem member'
  have covers : entry.1.Covers first.1 := by simpa using find?_some found
  have covers' : entry'.1.Covers second.1 := by simpa using find?_some found'
  obtain ⟨group, known, whole⟩ := group_covers isPrivate
  obtain ⟨group', known', whole'⟩ := group_covers isPrivate'
  obtain rfl := group_of_sameGroup same known known' whole whole'
  have isEntry : group = entry.1 := group_unique known isGroup (whole.mem (Span.start_mem _)) (covers.mem first.1.start_mem)
  have isEntry' : group = entry'.1 := group_unique known isGroup' (whole'.mem (Span.start_mem _)) (covers'.mem second.1.start_mem)
  have distinct : (groupBases.map Prod.fst).Nodup := by
    rw [names]
    refine (groups_apart v.regions).imp ?_
    rintro group _ apart rfl
    exact not_apart_self (fun a => le_saturatingAdd a _) group apart
  obtain rfl := inj_on_of_nodup_map distinct member member' (isEntry.symm.trans isEntry')
  have low := covers.1
  have low' := covers'.1
  push_cast [Nat.cast_sub low, Nat.cast_sub low']
  ring

theorem Vmem.isPrivate_of_forked (inherited : region ∈ v.forked)
    (isPrivate : region.2.sharedHandle = none) : v.IsPrivate region :=
  ⟨(mem_filter.mp inherited).1, isPrivate⟩

/-- The private mappings of the source are in the child as they were, in the places the list says. -/
structure CopiesPrivate (source child : Vmem H) (relocations : List DuplicatedRange) : Prop where
  once : ∀ region ∈ source.forked, region.2.sharedHandle = none → (relocations.map (·.source)).count region.1 = 1
  offset : ∀ first ∈ source.forked, first.2.sharedHandle = none → ∀ second ∈ source.forked, second.2.sharedHandle = none →
    source.SameGroup first second → ∀ one ∈ relocations, one.source = first.1 → ∀ two ∈ relocations, two.source = second.1 →
      (one.destBase : ℤ) - two.destBase = first.1.start - second.1.start
  apart : relocations.Pairwise fun one two => ∀ a ∈ one.target, a ∉ two.target
  areas : ∀ region ∈ source.forked, region.2.sharedHandle = none → ∀ one ∈ relocations, one.source = region.1 →
    ∀ a ∈ one.target, ∃ vma, child.vmas.get a = some vma ∧ vma.flags = region.2.flags ∧
      vma.isFileBacked = region.2.isFileBacked ∧ vma.reservedExtra = region.2.reservedExtra

/-- No inherited private mapping without access permissions has headroom. -/
def Vmem.HeadroomAccessible (v : Vmem H) : Prop :=
  ∀ region ∈ v.forked, region.2.sharedHandle = none → region.2.flags &&& VmFlags.vmAccessFlags = 0 → region.2.reservedExtra = 0

instance (v : Vmem H) : Decidable v.HeadroomAccessible := inferInstanceAs (Decidable (∀ _ ∈ _, _))

variable [DecidableEq H] {relocations : List DuplicatedRange}

theorem sources_eq {platform : Platform H} {w : Vmem H}
    (copies : List.Forall₂ (Relocated platform groupBases w) regions relocations) :
    relocations.map (·.source) = regions.map Prod.fst := by
  induction copies with
  | nil => rfl
  | cons here _ ih =>
    obtain ⟨base, rfl, -⟩ := here
    exact congrArg (_ :: ·) ih

theorem Vmem.forked_nodup (v : Vmem H) : (v.forked.map Prod.fst).Nodup := by
  refine pairwise_map.mpr ((v.regions_disjoint.sublist filter_sublist).imp fun disjoint same => disjoint ?_)
  exact Span.overlaps_iff.mpr ⟨_, Span.start_mem _, same ▸ Span.start_mem _⟩

omit [DecidableEq H] in
theorem CopiesPrivate.headroom {source child : Vmem H}
    (copied : CopiesPrivate source child relocations) : ∀ region ∈ source.forked, region.2.sharedHandle = none →
      ∀ one ∈ relocations, one.source = region.1 →
        (child.vmas.get one.destBase).map (·.reservedExtra) = some region.2.reservedExtra := by
  intro region inherited isPrivate one listed isSource
  obtain ⟨vma, found, -, -, kept⟩ := copied.areas region inherited isPrivate one listed isSource _ (Span.start_mem _)
  have there : child.vmas.get one.destBase = some vma := found
  rw [there, ← kept]
  rfl

/-- A fork keeps private memory together exactly when inaccessible mappings have no headroom. -/
theorem fork_copiesPrivate_iff (platform : Platform H) (lawful : platform.Separates) (honours : platform.HonoursReplace)
    (source v w : Vmem H) (outcome : DuplicateOutcome) (ran : duplicate platform source v = (.ok outcome, w)) :
    CopiesPrivate source w outcome.relocations ↔ source.HeadroomAccessible := by
  obtain ⟨groupBases, calls, names, reserved, copies, apart, -⟩ := duplicate_ok lawful ran
  have copyOf : ∀ region ∈ source.forked, ∀ one ∈ outcome.relocations, one.source = region.1 →
      Relocated platform groupBases w region one := by
    intro region inherited one listed isSource
    obtain ⟨region', inherited', relocated⟩ := exists_of_mem_right copies listed
    obtain ⟨base, rfl, -⟩ := id relocated
    obtain rfl := inj_on_of_nodup_map source.forked_nodup inherited' inherited isSource
    exact relocated
  constructor
  · intro copied region inherited isPrivate inaccessible
    obtain ⟨_, listed, base, rfl, present, -⟩ := exists_of_mem_left copies inherited
    have kept := copied.headroom region inherited isPrivate _ listed rfl
    obtain ⟨after, found, same⟩ := present _ (Span.start_mem _)
    have there : w.vmas.get base = some after := found
    rw [VmArea.childArea_private isPrivate] at same
    rw [relocation, there, same.isPrivate rfl] at kept
    exact (Option.some.inj kept).symm.trans (if_pos inaccessible)
  · intro accessible
    refine ⟨?_, ?_, apart, ?_⟩
    · intro region inherited isPrivate
      rw [sources_eq copies]
      exact count_eq_one_of_mem source.forked_nodup (mem_map_of_mem inherited)
    · intro first inherited isPrivate second inherited' isPrivate' same one listed isSource two listed' isSource'
      obtain ⟨base, rfl, -, inGroup⟩ := copyOf first inherited one listed isSource
      obtain ⟨base', rfl, -, inGroup'⟩ := copyOf second inherited' two listed' isSource'
      exact (inGroup isPrivate honours).offset names (isPrivate_of_forked inherited isPrivate)
        (isPrivate_of_forked inherited' isPrivate') same
        (inGroup' isPrivate' honours)
    · intro region inherited isPrivate one listed isSource a inside
      obtain ⟨base, rfl, present, -⟩ := copyOf region inherited one listed isSource
      obtain ⟨after, found, same⟩ := present a inside
      refine ⟨after, found, ?_⟩
      rw [VmArea.childArea_private isPrivate] at same
      rw [same.isPrivate rfl]
      refine ⟨rfl, rfl, ?_⟩
      show (if _ then 0 else region.2.reservedExtra) = region.2.reservedExtra
      split
      · next inaccessible => exact (accessible region inherited isPrivate inaccessible).symm
      · rfl

/-! ## Headroom behind an inaccessible mapping -/

/-- A process with a private file mapping that has headroom behind it, and a mapping without further below. -/
def loaded : Vmem ℕ :=
  ((do
    let _ ← createPages .bumping none onePage { mapFile := true, ensureSpaceAfter := true } readWrite
    createPages .bumping (some ⟨0x3fff0000, by decide, by decide⟩) onePage { fixedAddr := true } readWrite :
    Prog (Vmem ℕ) (Halt MappingError) ℕ) (.new [])).2

/-- The same process after `mprotect` of the file mapping to no access. -/
def shutOff : Vmem ℕ := (protectMapping .bumping ⟨0x40000000, 0x40001000, by decide⟩ 0 loaded).2

/-- A platform that puts replacements elsewhere, too. -/
def Platform.straying : Platform ℕ := { bumping with
  allocatePages calls _ _ _ _ _ := .ok (callsTop calls) }

theorem Platform.bumping_honoursReplace : bumping.HonoursReplace := by
  rintro calls range permissions canGrowDown populate base ⟨⟩
  rfl

theorem fork_copiesPrivate_iff_loaded : ∃ outcome w, duplicate .bumping loaded loaded.childOf = (.ok outcome, w) ∧
    CopiesPrivate loaded w outcome.relocations := by
  obtain ⟨outcome, w, ran, -⟩ := duplicate_runs .bumping loaded (fun _ _ => True) (by decide +kernel)
  refine ⟨outcome, w, ran, ?_⟩
  exact (fork_copiesPrivate_iff .bumping bumping_separates bumping_honoursReplace loaded loaded.childOf w outcome
    ran).mpr (by decide +kernel)

/-- The inaccessible mapping's headroom is gone in the child; and where the platform puts a replacement elsewhere,
the distances inside a group are lost without an error. -/
theorem inaccessible_headroom_lost :
    (∃ outcome w, duplicate .bumping shutOff shutOff.childOf = (.ok outcome, w) ∧ ¬CopiesPrivate shutOff w outcome.relocations) ∧
      ∃ outcome w, duplicate .straying loaded loaded.childOf = (.ok outcome, w) ∧ ¬CopiesPrivate loaded w outcome.relocations := by
  constructor
  · obtain ⟨outcome, w, ran, region, inherited, isPrivate, one, listed, isSource, lost⟩ := duplicate_runs .bumping shutOff
      (fun outcome w => ∃ region ∈ shutOff.forked, region.2.sharedHandle = none ∧ ∃ one ∈ outcome.relocations,
        one.source = region.1 ∧ (w.vmas.get one.destBase).map (·.reservedExtra) ≠ some region.2.reservedExtra) (by decide +kernel)
    exact ⟨outcome, w, ran, fun copied => lost (copied.headroom region inherited isPrivate one listed isSource)⟩
  · obtain ⟨outcome, w, ran, first, inherited, isPrivate, second, inherited', isPrivate', near, one, listed, isSource, two, listed',
        isSource', moved⟩ := duplicate_runs .straying loaded
      (fun outcome _ => ∃ first ∈ loaded.forked, first.2.sharedHandle = none ∧ ∃ second ∈ loaded.forked,
        second.2.sharedHandle = none ∧ Vmem.Near first second ∧ ∃ one ∈ outcome.relocations, one.source = first.1 ∧
          ∃ two ∈ outcome.relocations, two.source = second.1 ∧
            (one.destBase : ℤ) - two.destBase ≠ first.1.start - second.1.start) (by decide +kernel)
    refine ⟨outcome, w, ran, fun copied => moved ?_⟩
    exact copied.offset first inherited isPrivate second inherited' isPrivate'
      (.single ⟨isPrivate_of_forked inherited isPrivate, isPrivate_of_forked inherited' isPrivate', near⟩)
      one listed isSource two listed' isSource'

end LiteBox.Mm
