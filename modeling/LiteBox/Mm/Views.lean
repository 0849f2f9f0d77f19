import LiteBox.Lib.Run
import LiteBox.Mm.Insert

/-! # Shared views and their fragments

A shared mapping is one view on the platform, which `protect_mapping`, `update_range_flags` and partial
unmaps cut into fragments. The fragments all carry the extent of their view. The platform has a view
mapped from the call that maps it to the call that unmaps it, and what is to be shown is that these are
the views with a tracked fragment.
-/

namespace LiteBox.Mm

open Vmem List Prog Call VmArea RangeMap Span

variable {H : Type} [DecidableEq H]

/-! ## The views of a call log -/

/-- What a call does to the mapped views. -/
def Call.onViews (views : List Span) : Call H → List Span
  | .mapSharedMemory _ range _ _ (.ok base) => range.at_ base :: views
  | .unmapSharedMemory range (.ok ()) => views.erase range
  | _ => views

def mappedViews (calls : List (Call H)) : List Span := calls.foldl onViews []

/-- The extents handed to `unmap_shared_memory`. -/
def unmaps (calls : List (Call H)) : List Span := calls.filterMap fun
  | .unmapSharedMemory range _ => some range
  | _ => none

omit [DecidableEq H] in
theorem mappedViews_append (calls made : List (Call H)) :
    mappedViews (calls ++ made) = made.foldl onViews (mappedViews calls) := foldl_append

variable {made : List (Call H)}

omit [DecidableEq H] in
theorem onViews_of_quiet (quiet : ∀ call ∈ made, call.quiet) (views : List Span) :
    made.foldl onViews views = views := by
  induction made with
  | nil => rfl
  | cons call rest ih =>
    have still : call.onViews views = views := by
      have one := quiet call mem_cons_self
      rcases call with ⟨_, _, _, _, _, _ | _⟩ | _ | _ | _ | _ | ⟨_, _, _, _, _ | _⟩ | _ | _ | _ <;> first | rfl | exact one.elim
    rw [foldl_cons, still]
    exact ih fun later member => quiet later (mem_cons_of_mem _ member)

omit [DecidableEq H] in
theorem unmaps_of_quiet (quiet : ∀ call ∈ made, call.quiet) : unmaps made = [] := by
  refine filterMap_eq_nil_iff.mpr fun call member => ?_
  have one := quiet call member
  cases call <;> first | rfl | exact one.elim

omit [DecidableEq H] in
theorem unmaps_append (calls made : List (Call H)) : unmaps (calls ++ made) = unmaps calls ++ unmaps made := filterMap_append

variable {entry : Span × VmArea H} {changed vma : VmArea H}

namespace Vmem

/-- The view at an address. -/
def extentAt (v : Vmem H) (a : ℕ) : Option Span := ((v.vmas.get a).map viewExtent).join

/-- Some tracked area is a fragment of the view. -/
def Tracked (v : Vmem H) (view : Span) : Prop := ∃ entry ∈ v.vmas.entries, entry.2.viewExtent = some view

variable {v w : Vmem H} {a : ℕ} {r view : Span}

omit [DecidableEq H] in
theorem extentAt_of_mem (member : entry ∈ v.vmas.entries) (inside : a ∈ entry.1) :
    v.extentAt a = entry.2.viewExtent := by
  rw [extentAt, get_of_mem member inside]
  rfl

omit [DecidableEq H] in
theorem extentAt_eq_some : v.extentAt a = some view ↔ ∃ entry ∈ v.vmas.entries, a ∈ entry.1 ∧ entry.2.viewExtent = some view := by
  constructor
  · intro extent
    cases found : v.vmas.get a with
    | none => simp [extentAt, found] at extent
    | some vma =>
      obtain ⟨range, member, inside⟩ := get_eq_some.mp found
      exact ⟨(range, vma), member, inside, by simpa [extentAt, found] using extent⟩
  · rintro ⟨entry, member, inside, extent⟩
    rw [extentAt_of_mem member inside, extent]

omit [DecidableEq H] in
theorem tracked_iff : v.Tracked view ↔ ∃ a, v.extentAt a = some view := by
  constructor
  · rintro ⟨entry, member, extent⟩
    exact ⟨entry.1.start, extentAt_eq_some.mpr ⟨entry, member, entry.1.start_mem, extent⟩⟩
  · rintro ⟨a, extent⟩
    obtain ⟨entry, member, -, extent⟩ := extentAt_eq_some.mp extent
    exact ⟨entry, member, extent⟩

theorem extentAt_insertVma (v : Vmem H) (r : Span) (vma : VmArea H) (a : ℕ) :
    (v.insertVma r vma).extentAt a = if a ∈ r then vma.viewExtent else v.extentAt a := by
  simp only [extentAt, insertVma, map_get_insert viewExtent fun u => viewExtent_of_same]
  split <;> rfl

omit [DecidableEq H] in
theorem extentAt_removeVma (v : Vmem H) (r : Span) (a : ℕ) :
    (v.removeVma r).extentAt a = if a ∈ r then none else v.extentAt a := by
  simp only [extentAt, removeVma, get_remove]
  split <;> rfl

/-- Cutting an area and changing a part of it leaves the views as they are. -/
theorem extentAt_splitVma {whole inner : Span} (covers : whole.Covers inner)
    (alike : changed.viewExtent = vma.viewExtent) (v : Vmem H) (a : ℕ) :
    (v.splitVma whole inner vma changed).extentAt a = if a ∈ whole then vma.viewExtent else v.extentAt a := by
  have insertSide : ∀ (v : Vmem H) start stop headroom, ((make? start stop).elim v fun side =>
      v.insertVma side (vma.withHeadroom headroom side.stop)).extentAt a =
        if start ≤ a ∧ a < stop then vma.viewExtent else v.extentAt a := by
    intro v start stop headroom
    cases made : make? start stop with
    | none =>
      have empty := make?_eq_none.mp made
      rw [if_neg (by omega)]
      rfl
    | some side =>
      obtain ⟨rfl, rfl⟩ := make?_eq_some.mp made
      simp only [Option.elim_some, extentAt_insertVma, viewExtent_withHeadroom]
      rfl
  simp only [splitVma, insertSide, extentAt_insertVma, viewExtent_withHeadroom, alike, mem_iff]
  have nonempty := inner.nonempty
  obtain ⟨left, right⟩ := covers
  split_ifs <;> first | rfl | omega

end Vmem

/-! ## Steps that leave the views alone -/

/-- From `v` to `w` no address changes its view, and nothing was mapped or unmapped. -/
def Steady (v w : Vmem H) : Prop :=
  (∀ a, w.extentAt a = v.extentAt a) ∧ ∃ made, w.calls = v.calls ++ made ∧ ∀ call ∈ made, call.quiet

namespace Steady

variable {v w : Vmem H}

omit [DecidableEq H] in
theorem refl (v : Vmem H) : Steady v v := ⟨fun _ => rfl, [], (append_nil _).symm, nofun⟩

omit [DecidableEq H] in
theorem of_asked (asked : Asked quiet v w) : Steady v w := by
  obtain ⟨vmas, -, made, calls, quiet⟩ := asked
  exact ⟨fun a => by rw [extentAt, extentAt, vmas], made, calls, quiet⟩

omit [DecidableEq H] in
theorem of_extents {t : Vmem H} (steady : Steady v w) (made : List (Call H)) (extents : ∀ a, t.extentAt a = v.extentAt a)
    (calls : t.calls = w.calls ++ made) (quiet : ∀ call ∈ made, call.quiet) : Steady v t := by
  obtain ⟨-, before, callsBefore, quietBefore⟩ := steady
  refine ⟨extents, before ++ made, ?_, ?_⟩
  · rw [calls, callsBefore, append_assoc]
  · exact forall_mem_append.mpr ⟨quietBefore, quiet⟩

variable {entry : Span × VmArea H} {u : Vmem H}

/-- Outside an entry of the first map that was taken out, nothing has changed, and inside it the view is known. -/
theorem extentAt_of_taken (steady : Steady v w) (member : entry ∈ v.vmas.entries) (taken : u.vmas = w.vmas.remove entry.1) (a : ℕ) :
    (if a ∈ entry.1 then entry.2.viewExtent else u.extentAt a) = v.extentAt a := by
  split
  · next inside => rw [extentAt_of_mem member inside]
  · next outside =>
    have removed := extentAt_removeVma w entry.1 a
    rw [if_neg outside] at removed
    rw [← steady.1 a, ← removed, extentAt, taken]
    rfl

theorem extentAt_insert (steady : Steady v w) (member : entry ∈ v.vmas.entries) (taken : u.vmas = w.vmas.remove entry.1)
    (alike : changed.viewExtent = entry.2.viewExtent) (a : ℕ) :
    (u.insertVma entry.1 changed).extentAt a = v.extentAt a := by
  rw [extentAt_insertVma, alike, steady.extentAt_of_taken member taken]

theorem extentAt_split (steady : Steady v w) (member : entry ∈ v.vmas.entries) (taken : u.vmas = w.vmas.remove entry.1)
    {range inner : Span} (cut : range.inter? entry.1 = some inner)
    (alike : changed.viewExtent = entry.2.viewExtent) (a : ℕ) :
    (u.splitVma entry.1 inner entry.2 changed).extentAt a = v.extentAt a := by
  have covers : entry.1.Covers inner := covers_of_mem fun a inside => ((mem_inter cut).mp inside).2
  rw [extentAt_splitVma covers alike, steady.extentAt_of_taken member taken]

end Steady

theorem protectOne_steady (platform : Platform H) (range : Span) (permissions : MemoryRegionPermissions) {v : Vmem H}
    (member : entry ∈ v.vmas.entries) :
    Prog.Keeps (Steady v) (protectOne platform range permissions entry) := by
  intro w steady
  simp only [protectOne]
  split
  · exact steady
  split
  · exact steady
  cases cut : range.inter? entry.1 with
  | none => exact steady
  | some inner =>
    simp only [bind_apply, modify_apply, Platform.protect, Platform.ask, attempt_apply]
    cases platform.updatePermissions (w.removeVma entry.1).calls inner (permissions ||| entry.2.flags.writeQualifier) with
    | error failure => exact steady.of_extents _ (steady.extentAt_insert member rfl rfl) rfl (by simp [quiet])
    | ok _ =>
      exact steady.of_extents _ (steady.extentAt_split member rfl cut rfl) (calls_splitVma ..) (by simp [quiet])

theorem protectMapping_steady (platform : Platform H) (range : Span) (permissions : MemoryRegionPermissions) (v : Vmem H) :
    Steady v (protectMapping platform range permissions v).2 := by
  refine (Prog.Keeps.when (.fail _)).bind (fun _ => .forM fun entry member => ?_) v (.refl v)
  exact protectOne_steady platform range permissions (mem_overlapping.mp member).1

theorem updateOne_steady (range : Span) (set clear : VmFlags) {v : Vmem H}
    (member : entry ∈ v.vmas.entries) : Prog.Keeps (Steady v) (updateOne range set clear entry) := by
  intro w steady
  simp only [updateOne]
  split
  · exact steady.of_extents [] (steady.extentAt_insert member rfl rfl) (append_nil _).symm nofun
  cases cut : range.inter? entry.1 with
  | none => exact steady
  | some inner =>
    simp only [modify_apply]
    refine steady.of_extents [] (steady.extentAt_split member rfl cut rfl) ?_ nofun
    rw [calls_splitVma, append_nil]
    rfl

theorem updateRangeFlags_steady (range : Span) (set clear : VmFlags) (v : Vmem H) :
    Steady v (updateRangeFlags range set clear v).2 := by
  refine (Prog.Keeps.when (.fail _)).bind (fun _ => .forM fun entry member => ?_) v (.refl v)
  exact updateOne_steady range set clear (mem_overlapping.mp member).1

/-! ## Creating -/

/-- The range whose contents a creation replaces. -/
def Vmem.CreatePagesFlags.replaces (flags : Vmem.CreatePagesFlags) (suggested : Option NonZeroAddress) (length : NonZeroPageSize) :
    Option Span :=
  if flags.behavior = .replace then some (.ofLength (suggested.elim 0 (·.address)) length.size length.positive) else none

/-- What a creation that does not panic leaves: nothing but quiet calls, or an area placed where it was asked
for or where the platform moved it. -/
inductive Created (platform : Platform H) (target : Option Span) (v : Vmem H) : Vmem H → Prop where
  | refused (w : Vmem H) (asked : Asked quiet v w) : Created platform target v w
  | placed (u : Vmem H) (range : Span) (vma : VmArea H) (populate : Bool) (behavior : FixedAddressBehavior) (base : ℕ)
      (made : List (Call H)) (asked : Asked quiet v u) (fixed : behavior = .replace → target = some range)
      (free : u.checkFixed range behavior = none) (placedBy : PlacedBy platform u.calls range vma populate behavior base made) :
      Created platform target v
        (({ u with calls := u.calls ++ made } : Vmem H).insertVma (range.at_ base) (placedArea vma (range.at_ base)))

/-- The state after a program, unless it has panicked. -/
def survivor {ε α : Type} : Except (Halt ε) α × Vmem H → Option (Vmem H)
  | (.error (.panic _), _) => none
  | (_, v) => some v

omit [DecidableEq H] in
/-- A sequence that has not panicked ended in its first part, or its second part has not panicked. -/
theorem survivor_bind {ε α β : Type} {first : Prog (Vmem H) (Halt ε) α} {next : α → Prog (Vmem H) (Halt ε) β} {v w : Vmem H}
    (survived : survivor ((first >>= next) v) = some w) :
    (∃ failure, first v = (.error (.error failure), w)) ∨
      ∃ value u, first v = (.ok value, u) ∧ survivor (next value u) = some w := by
  rw [bind_apply] at survived
  rcases ran : first v with ⟨(failure | what) | value, u⟩ <;> rw [ran] at survived
  · cases survived
    exact .inl ⟨failure, rfl⟩
  · cases survived
  · exact .inr ⟨value, u, rfl, survived⟩

omit [DecidableEq H] in
theorem Asked.trans {kind : Call H → Prop} {u v w : Vmem H} (first : Asked kind u v) (second : Asked kind v w) : Asked kind u w := by
  obtain ⟨vmas, brk, made, calls, all⟩ := first
  obtain ⟨vmas', brk', made', calls', all'⟩ := second
  refine ⟨vmas'.trans vmas, brk'.trans brk, made ++ made', ?_, ?_⟩
  · rw [calls', calls, append_assoc]
  · exact forall_mem_append.mpr ⟨all, all'⟩

variable {platform : Platform H}

theorem insertMapping_created {suggested : PageRange} {populate : Bool}
    {behavior : FixedAddressBehavior} {target : Option Span} {v u w : Vmem H} (asked : Asked quiet v u)
    (fixed : behavior = .replace → target = some suggested.toSpan)
    (survived : survivor (insertMapping platform suggested vma populate behavior u) = some w) : Created platform target v w := by
  have unmoved : behavior = .replace → target = some (slide platform suggested behavior).toSpan := by
    intro replace
    rw [slide, if_neg (by simp [replace])]
    exact fixed replace
  have spec := insertMapping_spec platform suggested vma populate behavior u
  generalize insertMapping platform suggested vma populate behavior u = result at spec survived
  cases spec with
  | refused failure t more =>
    cases survived
    exact .refused _ (asked.trans more)
  | panicked what t => cases survived
  | placed base made low high free placedBy =>
    cases survived
    exact .placed u _ vma populate behavior base made asked unmoved free placedBy

variable {suggested : Option NonZeroAddress}

omit [DecidableEq H] in
theorem getUnmmapedArea_fixed {vmas : RangeMap (VmArea H)} {size : ℕ}
    {isGrowsdown : Bool} {address : ℕ} (found : getUnmmapedArea platform vmas suggested size true isGrowsdown = some address) :
    address = suggested.elim 0 (·.address) := by
  simp only [getUnmmapedArea] at found
  split at found
  · cases found
  cases suggested with
  | none => simpa using found.symm
  | some hint =>
    simp only [true_or, if_true] at found
    split at found
    · cases found
    · simpa using found.symm

variable {flags : Vmem.CreatePagesFlags}

theorem CreatePagesFlags.fixedAddr_of_replace (replace : flags.behavior = .replace) :
    flags.fixedAddr = true := by
  by_contra free
  simp [Vmem.CreatePagesFlags.behavior, free] at replace

variable {length : NonZeroPageSize}

theorem createMapping_created {v u w : Vmem H} (asked : Asked Call.quiet v u)
    (survived : survivor (createMapping platform suggested length vma flags u) = some w) :
    Created platform (flags.replaces suggested length) v w := by
  obtain ⟨_, ended⟩ | ⟨_, _, ran, survived⟩ := survivor_bind survived
  · obtain ⟨-, panicked, -⟩ := when_fail_eq_error.mp ended
    cases panicked
  obtain ⟨-, rfl⟩ := when_fail_eq_ok.mp ran
  obtain ⟨_, ended⟩ | ⟨_, _, ran, survived⟩ := survivor_bind survived
  · cases ended
  cases ran
  obtain ⟨_, ended⟩ | ⟨address, _, ran, survived⟩ := survivor_bind survived
  · obtain ⟨-, -, rfl⟩ := ofOption_eq_error.mp ended
    exact .refused _ asked
  obtain ⟨chosen, rfl⟩ := ofOption_eq_ok.mp ran
  obtain ⟨_, ended⟩ | ⟨range, _, ran, survived⟩ := survivor_bind survived
  · obtain ⟨-, -, rfl⟩ := ofOption_eq_error.mp ended
    exact .refused _ asked
  obtain ⟨made, rfl⟩ := ofOption_eq_ok.mp ran
  refine insertMapping_created asked (fun replace => ?_) survived
  have fixed := CreatePagesFlags.fixedAddr_of_replace replace
  simp only [fixed, Bool.not_true, Bool.false_and, Bool.false_eq_true, if_false] at chosen
  obtain ⟨start, stop⟩ := PageRange.new_eq_some.mp made
  rw [Vmem.CreatePagesFlags.replaces, if_pos replace, ← getUnmmapedArea_fixed chosen, ← at_start range.toSpan]
  simp [Span.at_, start, Span.length, stop]

theorem newArea_asks (platform : Platform H) (size : ℕ) (flags : Vmem.CreatePagesFlags) (vmFlags : VmFlags) (v : Vmem H) :
    Prog.Keeps (Asked quiet v) (newArea platform size flags vmFlags) := by
  simp only [newArea]
  split
  · exact .bind (.mapError (.ask fun _ => trivial)) fun _ => .pure _
  · exact .pure _

theorem createPages_created {permissions : MemoryRegionPermissions} {v w : Vmem H}
    (survived : survivor (createPages platform suggested length flags permissions v) = some w) :
    Created platform (flags.replaces suggested length) v w := by
  have mapped : ∀ vma u, Asked quiet v u →
      survivor ((createMapping platform suggested length vma flags).mapError liftMapping u) = some w →
        Created platform (flags.replaces suggested length) v w := by
    intro vma u asked survived
    suffices same : survivor (createMapping platform suggested length vma flags u) = some w from
      createMapping_created asked same
    rw [← survived]
    simp only [mapError]
    rcases createMapping platform suggested length vma flags u with ⟨(_ | _) | _, _⟩ <;> rfl
  obtain ⟨_, ended⟩ | ⟨access, _, ran, survived⟩ := survivor_bind survived
  · obtain ⟨-, panicked, -⟩ := ofOption_eq_error.mp ended
    cases panicked
  obtain ⟨-, rfl⟩ := ofOption_eq_ok.mp ran
  have asked := newArea_asks platform length.size flags (access ||| VmFlags.mayFlagsForMapping flags.shared flags.mapFile |||
    (if flags.isStack then VmFlags.vmGrowsDown else 0)) v v (.refl v)
  obtain ⟨failure, ended⟩ | ⟨vma, u, ran, survived⟩ := survivor_bind survived
  · rw [ended] at asked
    exact .refused w asked
  · rw [ran] at asked
    exact mapped vma u asked survived

end LiteBox.Mm
