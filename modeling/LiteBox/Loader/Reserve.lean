import Mathlib
import LiteBox.Loader.LoadSpec

/-! # Trimming a reservation

`compute_reserved_regions` picks the aligned part of an over-sized reservation that an image keeps, and the slices
before and after it that are given back.
-/

namespace LiteBox.Loader

open Nat Set

structure ReservedRegions where
  alignedPtr : ℕ
  (headUnmap tailUnmap : Option (ℕ × ℕ))

variable (page mappingPtr mappingLen len align minHeadRoom : ℕ)

def computeReservedRegions : ReservedRegions :=
  let alignedPtr := alignUp align (mappingPtr + minHeadRoom)
  let mappingEndAligned := alignUp page (mappingPtr + mappingLen)
  let headRoomStart := alignDown page (alignedPtr - minHeadRoom)
  let tailStart := alignUp page (alignedPtr + len)
  { alignedPtr
    headUnmap := if headRoomStart ≤ mappingPtr then none else some (mappingPtr, headRoomStart - mappingPtr)
    tailUnmap := if tailStart < mappingEndAligned then some (tailStart, mappingEndAligned - tailStart) else none }

/-- The addresses of a slice. -/
def sliceOf (slice : ℕ × ℕ) : Set ℕ := Ico slice.1 (slice.1 + slice.2)

/-- What is kept is aligned and inside the reservation, the slices are the whole pages of the reservation around it. -/
structure TrimmedExactly (regions : ReservedRegions) : Prop where
  aligned : align ∣ regions.alignedPtr
  above : mappingPtr + minHeadRoom ≤ regions.alignedPtr
  below : regions.alignedPtr + len ≤ alignUp page (mappingPtr + mappingLen)
  slices : ∀ slice, regions.headUnmap = some slice ∨ regions.tailUnmap = some slice →
    page ∣ slice.1 ∧ page ∣ slice.2 ∧ sliceOf slice ⊆ Ico mappingPtr (alignUp page (mappingPtr + mappingLen)) ∧
      Disjoint (sliceOf slice) (Ico (regions.alignedPtr - minHeadRoom) (regions.alignedPtr + len))
  kept : ∀ a ∈ Ico mappingPtr (alignUp page (mappingPtr + mappingLen)),
    (∀ slice, regions.headUnmap = some slice ∨ regions.tailUnmap = some slice → a ∉ sliceOf slice) →
      a ∈ Ico (alignDown page (regions.alignedPtr - minHeadRoom)) (alignUp page (regions.alignedPtr + len))

variable {page mappingPtr mappingLen len align minHeadRoom}

theorem alignUp_lt (positive : 0 < page) (a : ℕ) : alignUp page a < a + page := by
  have := div_mul_le_self (a + (page - 1)) page
  simp only [alignUp]
  omega

section Trim

variable (positive : 0 < page) (paged : page ∣ align) (nonzero : 0 < align) (start : page ∣ mappingPtr)
include positive start

/-- Whatever its size, a reservation that holds the kept range is trimmed to its pages. -/
theorem trimmedExactly_of_below (nonzero : 0 < align)
    (below : alignUp align (mappingPtr + minHeadRoom) + len ≤ alignUp page (mappingPtr + mappingLen)) :
    TrimmedExactly page mappingPtr mappingLen len align minHeadRoom
      (computeReservedRegions page mappingPtr mappingLen len align minHeadRoom) := by
  have above := le_alignUp nonzero (mappingPtr + minHeadRoom)
  have head := alignDown_le page (alignUp align (mappingPtr + minHeadRoom) - minHeadRoom)
  have tail := le_alignUp positive (alignUp align (mappingPtr + minHeadRoom) + len)
  refine ⟨dvd_alignUp _ _, above, below, ?_, ?_⟩
  · rintro ⟨first, size⟩ found
    simp only [computeReservedRegions, Option.ite_none_left_eq_some, Option.ite_none_right_eq_some, Option.some.injEq,
      Prod.mk.injEq] at found
    rcases found with ⟨room, rfl, rfl⟩ | ⟨room, rfl, rfl⟩
    · refine ⟨start, Nat.dvd_sub (dvd_alignDown _ _) start, ?_, ?_⟩
      · exact Ico_subset_Ico_right (by simp only; omega)
      · exact Ico_disjoint_Ico.mpr (by simp only [computeReservedRegions]; omega)
    · refine ⟨dvd_alignUp _ _, Nat.dvd_sub (dvd_alignUp _ _) (dvd_alignUp _ _), ?_, ?_⟩
      · exact Ico_subset_Ico (by simp only; omega) (by simp only; omega)
      · exact Ico_disjoint_Ico.mpr (by simp only [computeReservedRegions]; omega)
  · intro a ⟨first, last⟩ outside
    simp only [computeReservedRegions, Option.ite_none_left_eq_some, Option.ite_none_right_eq_some, Option.some.injEq,
      sliceOf, mem_Ico] at outside ⊢
    have afterHead := fun room => outside _ (.inl ⟨room, rfl⟩)
    have beforeTail := fun room => outside _ (.inr ⟨room, rfl⟩)
    simp only at afterHead beforeTail
    omega

include paged nonzero

/-- The furthest that the aligned address can be from the start of the reservation. -/
theorem alignedPtr_le (minHeadRoom : ℕ) :
    alignUp align (mappingPtr + minHeadRoom) ≤ mappingPtr + alignUp page minHeadRoom + (align - page) := by
  have bound := alignUp_lt nonzero (mappingPtr + minHeadRoom)
  have room := le_alignUp positive minHeadRoom
  have := le_of_dvd nonzero paged
  have multiple : page ∣ mappingPtr + alignUp page minHeadRoom + (align - page) :=
    (start.add (dvd_alignUp _ _)).add (Nat.dvd_sub paged dvd_rfl)
  exact le_of_lt_add_of_dvd (by omega) (paged.trans (dvd_alignUp _ _)) multiple

end Trim

/-- Every reservation of a size is trimmed exactly if and only if the size has room for the head room in whole pages. -/
theorem trimmedExactly_iff (positive : 0 < page) (paged : page ∣ align) (nonzero : 0 < align) :
    (∀ mappingPtr, page ∣ mappingPtr → TrimmedExactly page mappingPtr mappingLen len align minHeadRoom
      (computeReservedRegions page mappingPtr mappingLen len align minHeadRoom)) ↔
    len + (align - page) + alignUp page minHeadRoom ≤ alignUp page mappingLen := by
  have narrow := le_of_dvd nonzero paged
  refine ⟨fun exact => ?_, fun room mappingPtr start => ?_⟩
  · -- The head room ends in the page after a multiple of the alignment.
    have wide : alignUp page minHeadRoom ≤ align * alignUp page minHeadRoom := Nat.le_mul_of_pos_left _ nonzero
    have start : page ∣ align * alignUp page minHeadRoom + page - alignUp page minHeadRoom :=
      Nat.dvd_sub ((paged.mul_right _).add dvd_rfl) (dvd_alignUp _ _)
    have below := (exact _ start).below
    rw [alignUp_add positive start] at below
    have past := le_alignUp nonzero (align * alignUp page minHeadRoom + page - alignUp page minHeadRoom + minHeadRoom)
    have short := alignUp_lt positive minHeadRoom
    have next : align * alignUp page minHeadRoom + align ≤
        alignUp align (align * alignUp page minHeadRoom + page - alignUp page minHeadRoom + minHeadRoom) :=
      le_of_lt_add_of_dvd (by omega) ((dvd_mul_right _ _).add dvd_rfl) (dvd_alignUp _ _)
    simp only [computeReservedRegions] at below
    omega
  · have furthest := alignedPtr_le positive paged nonzero start minHeadRoom
    refine trimmedExactly_of_below positive start nonzero ?_
    rw [alignUp_add positive start]
    omega

theorem trimmedExactly_pages : TrimmedExactly 4096 0x10000 8193 4097 4096 4000
    (computeReservedRegions 4096 0x10000 8193 4097 4096 4000) :=
  (trimmedExactly_iff (by decide) (by decide) (by decide)).mpr (by decide) 0x10000 (by decide)

/-- Neither the length nor the head room is a whole number of pages: the image ends past the reservation. -/
theorem trimmed_past_reservation : 4096 ∣ 0x10000 ∧ 8097 ≥ 4097 + (4096 - 4096) + 4000 ∧
    ¬TrimmedExactly 4096 0x10000 8097 4097 4096 4000 (computeReservedRegions 4096 0x10000 8097 4097 4096 4000) :=
  ⟨by decide, by decide, fun exact => absurd exact.below (by decide)⟩

end LiteBox.Loader
