import Mathlib.Tactic

/-! # Tables of slots

A fixed table whose slots are vacant or held. An entry goes into the first vacant slot, and entries are
removed by emptying the slots that hold them. What such a table means is the list of its held entries.
-/

namespace SlotTable

variable {α : Type*} (vacant : α → Bool)

/-- The entries in use. -/
def held (table : List α) : List α := table.filter fun entry => !vacant entry

/-- Put an entry into the first vacant slot. -/
def fill (entry : α) : List α → Option (List α)
  | [] => none
  | slot :: rest => if vacant slot then some (entry :: rest) else (fill entry rest).map (slot :: ·)

/-- Empty the held slots that match. -/
def wipe (empty : α) (matching : α → Bool) (table : List α) : List α :=
  table.map fun slot => if !vacant slot && matching slot then empty else slot

variable {vacant} {table : List α} {entry : α}

theorem mem_held : entry ∈ held vacant table ↔ entry ∈ table ∧ vacant entry = false := by
  simp [held]

variable {after : List α}

theorem held_fill (filled : fill vacant entry table = some after)
    (kept : vacant entry = false) : (held vacant after).Perm (entry :: held vacant table) := by
  induction table generalizing after with
  | nil => cases filled
  | cons slot rest ih =>
    rw [fill] at filled
    split at filled
    · next free =>
      cases filled
      simp [held, kept, free]
    · next busy =>
      obtain ⟨tail, found, rfl⟩ := Option.map_eq_some_iff.mp filled
      have busy : vacant slot = false := by simpa using busy
      simp only [held, List.filter_cons, busy, Bool.not_false, if_true]
      exact ((ih found).cons slot).trans (List.Perm.swap _ _ _)

theorem countP_fill (filled : fill vacant entry table = some after)
    (kept : vacant entry = false) : after.countP vacant + 1 = table.countP vacant := by
  induction table generalizing after with
  | nil => cases filled
  | cons slot rest ih =>
    rw [fill] at filled
    split at filled
    · next free =>
      cases filled
      simp [kept, free]
    · next busy =>
      obtain ⟨tail, found, rfl⟩ := Option.map_eq_some_iff.mp filled
      have step := ih found
      simp [busy, step]

theorem fill_isSome (room : 0 < table.countP vacant) :
    ∃ after, fill vacant entry table = some after := by
  induction table with
  | nil => simp at room
  | cons slot rest ih =>
    rw [fill]
    split
    · exact ⟨_, rfl⟩
    · next busy =>
      obtain ⟨after, found⟩ := ih (by simpa [busy] using room)
      exact ⟨slot :: after, by rw [found, Option.map_some]⟩

theorem held_cons (slot : α) (rest : List α) :
    held vacant (slot :: rest) = if vacant slot then held vacant rest else slot :: held vacant rest := by
  cases free : vacant slot <;> simp [held, free]

theorem held_wipe {empty : α} (blank : vacant empty = true) (matching : α → Bool) (table : List α) :
    held vacant (wipe vacant empty matching table) = (held vacant table).filter fun entry => !matching entry := by
  induction table with
  | nil => rfl
  | cons slot rest ih =>
    rw [wipe, List.map_cons, held_cons, held_cons, ← wipe, ih]
    cases free : vacant slot <;> cases hit : matching slot <;>
      simp [free, hit, blank]

end SlotTable
