import Mathlib

/-! # Arrays with holes

An array of some length, with a cell at every index. What was never written is a hole, and reads as zero.
-/

/-- An array whose cells past its length are zero. -/
@[ext]
structure Sparse (α : Type*) [Zero α] where
  length : ℕ
  cell : ℕ → α
  hole : ∀ i, length ≤ i → cell i = 0

namespace Sparse

open List

variable {α : Type*} [Zero α] (items : List α)

def ofList : Sparse α where
  length := items.length
  cell i := items.getD i 0
  hole i past := by simp [past]

/-- At most `count` items from `start`, as many as there are. -/
def read (array : Sparse α) (start count : ℕ) : List α :=
  (range (min count (array.length - start))).map fun i => array.cell (start + i)

theorem write_hole (array : Sparse α) (start : ℕ) (first : α) (rest : List α) (i : ℕ)
    (past : max array.length (start + (first :: rest).length) ≤ i) :
    (if start ≤ i ∧ i < start + (first :: rest).length then (first :: rest).getD (i - start) 0 else array.cell i) = 0 := by
  rw [if_neg (by omega), array.hole i (by omega)]

/-- Puts the items at `start`. The array grows if they reach past its end; no items change nothing. -/
def write (array : Sparse α) (start : ℕ) : List α → Sparse α
  | [] => array
  | first :: rest =>
    { length := max array.length (start + (first :: rest).length)
      cell := fun i => if start ≤ i ∧ i < start + (first :: rest).length then (first :: rest).getD (i - start) 0 else array.cell i
      hole := write_hole array start first rest }

/-- Cuts or extends the array to a length. -/
def resize (array : Sparse α) (length : ℕ) : Sparse α where
  length := length
  cell i := if i < length then array.cell i else 0
  hole i past := if_neg (by omega)

@[simp] theorem length_ofList : (ofList items).length = items.length := rfl

@[simp] theorem cell_ofList (i : ℕ) : (ofList items).cell i = items.getD i 0 := rfl

/-- What can be read is the list. -/
theorem read_ofList (start count : ℕ) : (ofList items).read start count = (items.drop start).take count := by
  refine ext_getElem (by simp [read]) fun i before after => ?_
  have inside : start + i < items.length := by
    simp only [read, length_ofList, length_map, length_range] at before
    omega
  simp [read, getElem?_eq_getElem inside]

end Sparse
