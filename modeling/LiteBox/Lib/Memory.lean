import Mathlib.Tactic

/-! # Byte memory

A memory gives every address a byte. `store` writes consecutive bytes and `load` reads them.
-/

abbrev Memory := ℕ → UInt8

namespace Memory

open List

def store (m : Memory) (address : ℕ) (bytes : List UInt8) : Memory := fun a =>
  if address ≤ a then bytes[a - address]?.getD (m a) else m a

def load (m : Memory) (address count : ℕ) : List UInt8 := (range count).map fun offset => m (address + offset)

variable {m : Memory} {address a : ℕ} {bytes : List UInt8}

theorem store_outside (outside : a < address ∨ address + bytes.length ≤ a) : m.store address bytes a = m a := by
  simp only [store]
  split
  · rw [getElem?_eq_none (by omega)]
    rfl
  · rfl

theorem store_inside {offset : ℕ} (inside : offset < bytes.length) : m.store address bytes (address + offset) = bytes[offset] := by
  simp [store, getElem?_eq_getElem inside]

@[simp] theorem load_length (m : Memory) (address count : ℕ) : (m.load address count).length = count := by simp [load]

theorem load_store (m : Memory) (address : ℕ) (bytes : List UInt8) : (m.store address bytes).load address bytes.length = bytes := by
  apply ext_getElem
  · simp
  · intro offset _ inside
    simpa [load] using store_inside inside

theorem load_add (m : Memory) (address first second : ℕ) :
    m.load address (first + second) = m.load address first ++ m.load (address + first) second := by
  simp only [load, range_add, map_append, map_map]
  congr 2
  funext offset
  simp [Nat.add_assoc]

/-- Memories that agree on the addresses have the same bytes there. -/
theorem load_congr {m n : Memory} {address count : ℕ} (agree : ∀ a, address ≤ a → a < address + count → m a = n a) :
    m.load address count = n.load address count := by
  apply map_congr_left
  intro offset member
  have := mem_range.mp member
  exact agree _ (by omega) (by omega)

end Memory
