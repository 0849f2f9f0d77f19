import LiteBox.Lib.Bytes

/-! # Edits of a byte string

A sequence of overwrites of one byte string. Whatever the edits are, a byte outside all of them is
unchanged; when they do not overlap, every one of them is still readable in the result.
-/

namespace Bytes

open List

/-- Bytes to be written at an offset. -/
structure Edit where
  offset : ℕ
  bytes : List UInt8
deriving DecidableEq, Repr

namespace Edit

def stop (edit : Edit) : ℕ := edit.offset + edit.bytes.length

/-- Two edits that touch different bytes. -/
def Disjoint (first second : Edit) : Prop := first.stop ≤ second.offset ∨ second.stop ≤ first.offset

/-- An offset that an edit does not touch. -/
def Misses (edit : Edit) (index : ℕ) : Prop := index < edit.offset ∨ edit.stop ≤ index

def apply (data : List UInt8) (edit : Edit) : List UInt8 := overwrite data edit.offset edit.bytes

variable {data : List UInt8} {edits : List Edit} (fit : ∀ edit ∈ edits, edit.stop ≤ data.length)

include fit

theorem foldl_apply_length : (edits.foldl apply data).length = data.length := by
  induction edits generalizing data with
  | nil => rfl
  | cons edit edits ih =>
    have length : (apply data edit).length = data.length := overwrite_length (fit edit mem_cons_self)
    rw [foldl_cons, ih, length]
    intro later member
    rw [length]
    exact fit later (mem_cons_of_mem _ member)

/-- A byte that no edit touches is unchanged. -/
theorem foldl_apply_outside {index : ℕ}
    (misses : ∀ edit ∈ edits, edit.Misses index) : (edits.foldl apply data)[index]? = data[index]? := by
  induction edits generalizing data with
  | nil => rfl
  | cons edit edits ih =>
    have fits := fit edit mem_cons_self
    have length : (apply data edit).length = data.length := overwrite_length fits
    rw [foldl_cons, ih ?_ (fun later member => misses later (mem_cons_of_mem _ member))]
    · exact getElem?_overwrite_outside fits (misses edit mem_cons_self)
    · intro later member
      rw [length]
      exact fit later (mem_cons_of_mem _ member)

variable {edit : Edit}

/-- When no two edits overlap, each of them stands in the result. -/
theorem foldl_apply_inside (apart : edits.Pairwise Disjoint) (member : edit ∈ edits) {index : ℕ}
    (inside : index < edit.bytes.length) :
    (edits.foldl apply data)[edit.offset + index]? = edit.bytes[index]? := by
  induction edits generalizing data with
  | nil => cases member
  | cons first edits ih =>
    obtain ⟨apart_first, apart_rest⟩ := pairwise_cons.mp apart
    have fits := fit first mem_cons_self
    have length : (apply data first).length = data.length := overwrite_length fits
    have fit_rest : ∀ later ∈ edits, later.stop ≤ (apply data first).length := by
      intro later found
      rw [length]
      exact fit later (mem_cons_of_mem _ found)
    rcases mem_cons.mp member with rfl | member
    · rw [foldl_cons, foldl_apply_outside fit_rest]
      · exact getElem?_overwrite_inside fits inside
      · intro later found
        have := apart_first later found
        simp only [Disjoint, Misses, stop] at this ⊢
        omega
    · exact ih fit_rest apart_rest member

/-- The result reads as an edit at that edit's place. -/
theorem slice_foldl_apply (apart : edits.Pairwise Disjoint) (member : edit ∈ edits) : edit.bytes <+:
    (edits.foldl apply data).drop edit.offset := by
  rw [prefix_iff_getElem?]
  intro index inside
  rw [getElem?_drop, foldl_apply_inside fit apart member inside]
  exact getElem?_eq_getElem inside

end Edit

end Bytes
