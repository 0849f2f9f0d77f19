import LiteBox.Lib.Run

/-! # Descriptor tables

`Descriptors` numbers the open descriptors of one process, of all subsystems together. A slot
refers to its entry through an `Arc`; the reference count of an entry is the number of slots that
name it and of the handles that were taken on it.
-/

namespace LiteBox.Fd

open List Option

variable {S : Type*}

/-- A slot's reference to an entry, and the subsystem the entry belongs to. -/
structure EntryRef (S : Type*) where
  ptr : ℕ
  subsystem : S
deriving DecidableEq, Repr

/-- A process's table; `handles` counts the `EntryHandle`s on an entry, and `nextPtr` is where the
allocator puts the next entry. -/
structure Descriptors (S : Type*) where
  entries : List (Option (EntryRef S))
  handles : ℕ → ℕ
  nextPtr : ℕ

namespace Descriptors

def new : Descriptors S := ⟨[], fun _ => 0, 0⟩

variable (table : Descriptors S)

/-- `self.entries.get(idx)`, with an empty slot like one that does not exist. -/
def lookup (idx : ℕ) : Option (EntryRef S) := (table.entries[idx]?).join

def names (ptr : ℕ) (slot : Option (EntryRef S)) : Bool := slot.any fun entry => entry.ptr = ptr

/-- `Arc::strong_count`. -/
def strongCount (ptr : ℕ) : ℕ := table.entries.countP (names ptr) + table.handles ptr

def setSlot (idx : ℕ) (slot : Option (EntryRef S)) : Descriptors S :=
  { table with entries := table.entries.set idx slot }

/-- The first empty slot, or a new one at the end. -/
def claimIndex : Descriptors S × ℕ :=
  let idx := table.entries.findIdx (·.isNone)
  if idx < table.entries.length then (table, idx)
  else ({ table with entries := table.entries ++ [none] }, table.entries.length)

/-- A new entry and the descriptor for it. -/
def insert (subsystem : S) : Descriptors S × ℕ :=
  let claim := table.claimIndex
  ({ claim.1.setSlot claim.2 (some ⟨table.nextPtr, subsystem⟩) with nextPtr := table.nextPtr + 1 }, claim.2)

/-- A second descriptor for an entry; `none` stands for the panic on a slot that is empty. -/
def duplicate (fd : ℕ) : Option (Descriptors S × ℕ) :=
  let claim := table.claimIndex
  (claim.1.lookup fd).map fun entry => (claim.1.setSlot claim.2 (some entry), claim.2)

/-- What closing a descriptor came to. -/
inductive CloseResult where
  /-- The last reference: the entry is gone. -/
  | closed
  /-- Others refer to the entry, so the descriptor is to be queued. -/
  | duplicated
  /-- The last reference, but the entry cannot be closed yet. -/
  | deferred
deriving DecidableEq, Repr

/-- `none` when there is nothing to close; `canCloseImmediately` is the caller's closure on the entry. -/
def closeAndDuplicateIfShared (fd : ℕ) (canCloseImmediately : Bool) :
    Option (Descriptors S × CloseResult) :=
  match table.lookup fd with
  | none => none
  | some entry =>
    if table.strongCount entry.ptr = 1 then
      if canCloseImmediately then some (table.setSlot fd none, .closed)
      else some (table, .deferred)
    else some (table, .duplicated)

/-! ## Looking up -/

variable {table : Descriptors S} {idx other : ℕ} {entry : EntryRef S}

theorem lookup_eq_some : table.lookup idx = some entry ↔ table.entries[idx]? = some (some entry) := by
  rw [lookup, join_eq_some_iff]

variable {slot : Option (EntryRef S)}

theorem lookup_setSlot_self (inside : idx < table.entries.length) :
    (table.setSlot idx slot).lookup idx = slot := by
  rw [lookup, setSlot, getElem?_set_self inside, join_some]

theorem lookup_setSlot_ne (ne : other ≠ idx) :
    (table.setSlot idx slot).lookup other = table.lookup other := by
  rw [lookup, lookup, setSlot, getElem?_set_ne (Ne.symm ne)]

theorem lt_of_lookup (found : table.lookup idx = some entry) : idx < table.entries.length :=
  (List.getElem?_eq_some_iff.mp (lookup_eq_some.mp found)).1

/-- Claiming a slot changes no entry, and the slot is empty. -/
theorem claimIndex_spec :
    (∀ other, table.claimIndex.1.lookup other = table.lookup other) ∧ table.lookup table.claimIndex.2 = none ∧
      table.claimIndex.2 < table.claimIndex.1.entries.length := by
  simp only [claimIndex]
  split_ifs with inside
  · have empty := findIdx_getElem (w := inside)
    refine ⟨fun _ => rfl, ?_, inside⟩
    rw [lookup, getElem?_eq_getElem inside, join_some]
    exact isNone_iff_eq_none.mp empty
  · refine ⟨fun other => ?_, ?_, by simp⟩
    · rcases lt_trichotomy other table.entries.length with lt | rfl | gt
      · simp [lookup, getElem?_append_left lt]
      · simp [lookup]
      · rw [lookup, lookup, getElem?_eq_none (by simp; omega), getElem?_eq_none (by omega)]
    · rw [lookup, getElem?_eq_none (Nat.le_refl _)]
      rfl

/-- A descriptor that is created gets an empty slot and leaves the other slots alone. -/
structure Adds (table next : Descriptors S) (idx : ℕ) : Prop where
  was_empty : table.lookup idx = none
  now_live : next.lookup idx ≠ none
  others : ∀ other ≠ idx, next.lookup other = table.lookup other

theorem insert_adds (subsystem : S) :
    Adds table (table.insert subsystem).1 (table.insert subsystem).2 := by
  obtain ⟨same, empty, inside⟩ := table.claimIndex_spec
  refine ⟨empty, ?_, ?_⟩
  · exact fun gone => some_ne_none _ ((lookup_setSlot_self inside).symm.trans gone)
  · intro other ne
    exact (lookup_setSlot_ne ne).trans (same other)

theorem duplicate_adds {next : Descriptors S} {fd : ℕ} (made : table.duplicate fd = some (next, idx)) : Adds table next idx := by
  obtain ⟨same, empty, inside⟩ := table.claimIndex_spec
  simp only [duplicate] at made
  obtain ⟨entry, -, pair⟩ := map_eq_some_iff.mp made
  cases pair
  refine ⟨empty, ?_, ?_⟩
  · rw [lookup_setSlot_self inside]
    exact some_ne_none _
  · intro other ne
    rw [lookup_setSlot_ne ne, same]

end Descriptors

end LiteBox.Fd
