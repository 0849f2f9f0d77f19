import LiteBox.Mm.Fork

/-! # What shared addresses denote after a fork

An address of a shared mapping denotes an offset of an object. `map_shared_memory` takes no offset and
maps an object from its beginning, so the copy of a fragment shows the beginning of the object.
-/

namespace LiteBox.Mm

open Vmem Option

variable {H : Type} [DecidableEq H]

/-- The object and the offset in it that a shared address denotes. -/
def Vmem.denotes (v : Vmem H) (a : ℕ) : Option (H × ℤ) :=
  (v.vmas.get a).bind fun vma => vma.sharedHandle.map fun handle => (handle, (a : ℤ) - vma.viewBase)

/-- Every shared address of the source is related to a child address that denotes the same. -/
def SharesAlike (source child : Vmem H) (relocations : List DuplicatedRange) : Prop :=
  ∀ a object, source.denotes a = some object → ∃ relocation ∈ relocations, a ∈ relocation.source ∧
    child.denotes (relocation.destBase + (a - relocation.source.start)) = some object

/-- Every shared mapping is inherited and starts at the beginning of its view. -/
def Vmem.SharesFromStart (v : Vmem H) : Prop :=
  ∀ entry ∈ v.vmas.entries, entry.2.sharedHandle.isSome → entry ∈ v.forked ∧ entry.1.start = entry.2.viewBase

instance (v : Vmem H) : Decidable v.SharesFromStart := inferInstanceAs (Decidable (∀ _ ∈ _, _))

theorem Vmem.denotes_of_get {v : Vmem H} {a : ℕ} {vma : VmArea H} {handle : H} (found : v.vmas.get a = some vma)
    (shared : vma.sharedHandle = some handle) : v.denotes a = some (handle, (a : ℤ) - vma.viewBase) := by
  simp [denotes, found, shared]

/-- The copy of a shared mapping shows its object from the beginning. -/
theorem Present.denotes {w : Vmem H} {region : Span × VmArea H} {base a : ℕ} {handle : H} (present : Present w region base)
    (shared : region.2.sharedHandle = some handle) (inside : a ∈ region.1) :
    w.denotes (base + (a - region.1.start)) = some (handle, (a : ℤ) - region.1.start) := by
  obtain ⟨low, high⟩ := inside
  have whole := region.1.start_add_length
  have there : base + (a - region.1.start) ∈ region.1.at_ base :=
    ⟨Nat.le_add_right _ _, by simp only [Span.stop_at]; omega⟩
  obtain ⟨after, found, kept⟩ := present _ there
  have handleAfter : after.sharedHandle = some handle := by
    rw [kept.sharedHandle, VmArea.childArea, shared]
    rfl
  have baseAfter : after.viewBase = base := by
    rw [kept.viewBase, VmArea.childArea, shared]
    rfl
  rw [denotes_of_get found handleAfter, baseAfter]
  congr 2
  omega

/-- A fork preserves what shared addresses denote exactly when every shared mapping is inherited and starts
where its view starts. -/
theorem fork_sharesAlike_iff (platform : Platform H) (lawful : platform.Separates) (source v w : Vmem H) (outcome : DuplicateOutcome)
    (ran : duplicate platform source v = (.ok outcome, w)) :
    SharesAlike source w outcome.relocations ↔ source.SharesFromStart := by
  obtain ⟨groupBases, -, -, -, copies, -, -⟩ := duplicate_ok lawful ran
  constructor
  · rintro alike ⟨range, vma⟩ member shared
    obtain ⟨handle, shared⟩ := isSome_iff_exists.mp shared
    obtain ⟨relocation, listed, inside, same⟩ :=
      alike range.start _ (denotes_of_get (RangeMap.get_of_mem member range.start_mem) shared)
    obtain ⟨region, inherited, base, rfl, present, -⟩ := exists_of_mem_right copies listed
    obtain rfl : region = (range, vma) :=
      RangeMap.disjoint (mem_forked.mp inherited).1 member inside range.start_mem
    refine ⟨inherited, ?_⟩
    have copy := present.denotes shared range.start_mem
    have offsets : (range.start : ℤ) - range.start = range.start - vma.viewBase :=
      (Prod.mk.inj (some.inj (copy.symm.trans same))).2
    show range.start = vma.viewBase
    omega
  · intro fromStart a object denoted
    obtain ⟨vma, found, denoted⟩ := bind_eq_some_iff.mp denoted
    obtain ⟨handle, shared, rfl⟩ := map_eq_some_iff.mp denoted
    obtain ⟨range, member, inside⟩ := RangeMap.get_eq_some.mp found
    obtain ⟨inherited, start⟩ := fromStart (range, vma) member (by simp [shared])
    obtain ⟨relocation, listed, base, rfl, present, -⟩ := exists_of_mem_left copies inherited
    refine ⟨_, listed, inside, ?_⟩
    rw [← start]
    exact present.denotes shared inside

/-! ## A fragment that starts inside its view -/

/-- A process with a shared mapping of two pages. -/
def sharing : Vmem ℕ :=
  (createPages .bumping (some viewAddress) twoPages { fixedAddr := true, shared := true } readWrite (.new [])).2

/-- The same process after `mprotect` of the first page. -/
def splitSharing : Vmem ℕ := (protectMapping .bumping firstPage.toSpan .read sharing).2

theorem fork_sharesAlike_iff_whole : ∃ outcome w, duplicate .bumping sharing sharing.childOf = (.ok outcome, w) ∧
    SharesAlike sharing w outcome.relocations := by
  obtain ⟨outcome, w, ran, -⟩ := duplicate_runs .bumping sharing (fun _ _ => True) (by decide +kernel)
  exact ⟨outcome, w, ran,
    (fork_sharesAlike_iff .bumping Platform.bumping_separates sharing sharing.childOf w outcome ran).mpr (by decide +kernel)⟩

/-- The second page denotes offset `0x1000` of its object, and its copy in the child denotes offset 0. -/
theorem second_fragment_moves : splitSharing.denotes 0x21000 = some (0, 0x1000) ∧
    ∃ outcome w, duplicate .bumping splitSharing splitSharing.childOf = (.ok outcome, w) ∧
      (∀ relocation ∈ outcome.relocations, 0x21000 ∈ relocation.source →
        w.denotes (relocation.destBase + (0x21000 - relocation.source.start)) = some (0, 0)) ∧
      ¬SharesAlike splitSharing w outcome.relocations := by
  have denoted : splitSharing.denotes 0x21000 = some (0, 0x1000) := by decide +kernel
  obtain ⟨outcome, w, ran, moved⟩ := duplicate_runs .bumping splitSharing (fun outcome w => ∀ relocation ∈ outcome.relocations,
    0x21000 ∈ relocation.source → w.denotes (relocation.destBase + (0x21000 - relocation.source.start)) = some (0, 0)) (by decide +kernel)
  refine ⟨denoted, outcome, w, ran, moved, fun alike => ?_⟩
  obtain ⟨relocation, listed, inside, same⟩ := alike 0x21000 _ denoted
  rw [moved relocation listed inside] at same
  cases same

end LiteBox.Mm
