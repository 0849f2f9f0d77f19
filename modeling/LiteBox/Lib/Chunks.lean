import Mathlib.Tactic

/-! # Chunks of a list

A list is cut at the multiples of a size; the last chunk may be shorter.
-/

namespace Chunks

open List Nat

variable {α : Type*} {size : ℕ} {data other : List α} {i j : ℕ}

/-- The chunk with the given index. -/
def chunk (size : ℕ) (data : List α) (i : ℕ) : List α := (data.drop (i * size)).take size

/-- The chunks of a list, in order. -/
def chunks (size : ℕ) (data : List α) : List (List α) := (range ((data.length + size - 1) / size)).map (chunk size data)

@[simp] theorem length_chunk : (chunk size data i).length = min size (data.length - i * size) := by
  simp [chunk]

theorem getElem?_chunk (inside : j < size) : (chunk size data i)[j]? = data[i * size + j]? := by
  rw [chunk, getElem?_take_of_lt inside, getElem?_drop]

variable (proper : 0 < size)

include proper

theorem lt_count_iff : i < (data.length + size - 1) / size ↔ i * size < data.length := by
  rw [lt_iff_add_one_le, le_div_iff_mul_le proper, add_mul, one_mul]
  omega

theorem getElem?_chunks :
    (chunks size data)[i]? = if i * size < data.length then some (chunk size data i) else none := by
  rw [chunks, getElem?_map]
  split_ifs with inside
  · rw [getElem?_range ((lt_count_iff proper).mpr inside)]
    rfl
  · rw [getElem?_eq_none]
    · rfl
    · rw [length_range]
      exact not_lt.mp fun less => inside ((lt_count_iff proper).mp less)

omit proper in
theorem chunk_ext (same : ∀ j < size, data[i * size + j]? = other[i * size + j]?) : chunk size data i = chunk size other i := by
  refine ext_getElem? fun j => ?_
  by_cases inside : j < size
  · rw [getElem?_chunk inside, getElem?_chunk inside, same j inside]
  · rw [getElem?_eq_none (by simp; omega), getElem?_eq_none (by simp; omega)]

/-- Two lists agree where their chunks are the same. -/
theorem getElem?_of_chunk (same : chunk size data (j / size) = chunk size other (j / size)) : data[j]? = other[j]? := by
  have split : j / size * size + j % size = j := div_add_mod' j size
  rw [← split, ← getElem?_chunk (mod_lt j proper), same, getElem?_chunk (mod_lt j proper)]

/-- Two lists with the same chunks are one. -/
theorem eq_of_chunk (same : ∀ i, chunk size data i = chunk size other i) : data = other :=
  ext_getElem? fun _ => getElem?_of_chunk proper (same _)

/-- A longer list has a longer chunk where the shorter one ends. -/
theorem length_chunk_at_end (longer : data.length < other.length) :
    (chunk size data (data.length / size)).length < (chunk size other (data.length / size)).length := by
  have starts := div_mul_le_self data.length size
  have ends := (div_lt_iff_lt_mul proper).mp (lt_succ_self (data.length / size))
  rw [succ_mul] at ends
  simp only [length_chunk]
  omega

/-- A shorter list has a shorter chunk where the last item of the longer one stands. -/
theorem length_chunk_at_last (shorter : data.length < other.length) :
    (chunk size data ((other.length - 1) / size)).length < (chunk size other ((other.length - 1) / size)).length := by
  have starts := div_mul_le_self (other.length - 1) size
  have ends := (div_lt_iff_lt_mul proper).mp (lt_succ_self ((other.length - 1) / size))
  rw [succ_mul] at ends
  simp only [length_chunk]
  omega

theorem length_eq_of_length_chunk (same : ∀ i, (chunk size data i).length = (chunk size other i).length) :
    data.length = other.length := by
  rcases lt_trichotomy data.length other.length with less | equal | more
  · exact absurd (same _) (length_chunk_at_end proper less).ne
  · exact equal
  · exact absurd (same _) (length_chunk_at_end proper more).ne'

end Chunks
