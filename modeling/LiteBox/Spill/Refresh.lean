import Mathlib.Tactic

/-! # Refreshing a file from the shared store

Files that several host processes write live in a shared store. Each process has a private copy and the
generation of the store that it has seen; `refresh_from_spill` replaces a copy that is behind.
-/

namespace LiteBox.Spill

open List Function

/-! ## The store -/

def pathCapacity : ℕ := 192
def transferChunk : ℕ := 256 * 1024

inductive SlotState
  | empty | live | deleted
deriving DecidableEq

/-- A row of the store, with the bytes that the platform keeps for it. After a failed write these may be more or
fewer than the row's length. -/
structure Slot where
  state : SlotState
  path : List UInt8
  (generation length : ℕ)
  content : List UInt8
deriving DecidableEq

def Slot.holds (slot : Slot) (path : List UInt8) : Bool := decide (slot.state ≠ .empty) && decide (slot.path = path)

structure SpillView where
  (slot generation length : ℕ)
  deleted : Bool
deriving DecidableEq

structure SharedFileSpill where
  slots : List Slot

variable (store : SharedFileSpill)

namespace SharedFileSpill

def find (path : List UInt8) : Option ℕ := store.slots.findIdx? (·.holds path)

def view (path : List UInt8) : Option SpillView := do
  if path.length > pathCapacity then none
  else
    let index ← store.find path
    let slot ← store.slots[index]?
    pure ⟨index, slot.generation, slot.length, decide (slot.state = .deleted)⟩

/-- The bytes of a row. -/
def content (index : ℕ) : List UInt8 := (store.slots[index]?.map (·.content)).getD []

end SharedFileSpill

/-! ## The refresh -/

/-- How the platform and the local file system answer. A write may accept fewer bytes than it is given. -/
structure Answers where
  spillEnabledFor : List UInt8 → Bool
  spillReadAt : (slot offset wanted : ℕ) → ℕ
  spillReadAt_le : ∀ slot offset wanted, spillReadAt slot offset wanted ≤ wanted
  openTruncating : Bool
  write : (offset : ℕ) → List UInt8 → Option ℕ
  write_le : ∀ offset bytes accepted, write offset bytes = some accepted → accepted ≤ bytes.length
  unlink : Bool

/-- The private copy of a file, if there is one, and the generations seen by this process. -/
structure LocalCopy where
  file : Option (List UInt8)
  seen : ℕ → ℕ

/-- The state of the copying loop. -/
structure Copying where
  offset : ℕ
  opened : Bool
  file : Option (List UInt8)

section Install

variable (answers : Answers) (slot : ℕ) (content : List UInt8) (length : ℕ)

def wanted (offset : ℕ) : ℕ := min transferChunk (length - offset)

/-- The bytes that a read at an offset yields. -/
def chunk (offset : ℕ) : List UInt8 := (content.drop offset).take (answers.spillReadAt slot offset (wanted length offset))

/-- The loop of `install_spilled_content`. The local file is opened, and truncated, after the first bytes have
arrived. -/
def installLoop (s : Copying) : Copying :=
  if _h : s.offset < length then
    let bytes := chunk answers slot content length s.offset
    if _h' : bytes = [] then s
    else if !s.opened && !answers.openTruncating then s
    else
      let file := if s.opened then s.file else some []
      match answers.write s.offset bytes with
      | none => { s with opened := true, file }
      | some accepted => installLoop ⟨s.offset + bytes.length, true, file.map (· ++ bytes.take accepted)⟩
  else s
termination_by length - s.offset
decreasing_by
  have := length_pos_iff.mpr _h'
  simp only [bytes] at this ⊢
  omega

def installSpilledContent (file : Option (List UInt8)) : Copying := installLoop answers slot content length ⟨0, false, file⟩

end Install

def refreshFromSpill (answers : Answers) (store : SharedFileSpill) (path : List UInt8) (s : LocalCopy) : LocalCopy :=
  if !answers.spillEnabledFor path then s
  else
    match store.view path with
    | none => s
    | some view =>
      if s.seen view.slot = view.generation then s
      else
        { file := if view.deleted then if answers.unlink then none else s.file
            else (installSpilledContent answers view.slot (store.content view.slot) view.length s.file).file
          seen := update s.seen view.slot view.generation }

/-! ## The copying loop -/

section Loop

variable {answers : Answers} {slot : ℕ} {content : List UInt8} {length : ℕ}

/-- From an offset on, no read comes back empty and every write takes all it is given. -/
inductive Answered (answers : Answers) (slot : ℕ) (content : List UInt8) (length : ℕ) : ℕ → Prop
  | done {offset : ℕ} (all : length ≤ offset) : Answered answers slot content length offset
  | step {offset : ℕ} (more : offset < length) (read : chunk answers slot content length offset ≠ [])
      (written : answers.write offset (chunk answers slot content length offset) = some (chunk answers slot content length offset).length)
      (rest : Answered answers slot content length (offset + (chunk answers slot content length offset).length)) :
      Answered answers slot content length offset

theorem chunk_length_le (offset : ℕ) : (chunk answers slot content length offset).length ≤ length - offset :=
  (length_take_le _ _).trans ((answers.spillReadAt_le _ _ _).trans (min_le_right _ _))

theorem take_add_chunk (offset : ℕ) : content.take (offset + (chunk answers slot content length offset).length) =
    content.take offset ++ chunk answers slot content length offset := by
  rw [take_add, chunk, length_take, ← take_take, take_length]

variable {offset : ℕ}

theorem not_answered_of_read (more : offset < length) (none : chunk answers slot content length offset = []) :
    ¬Answered answers slot content length offset := by
  rintro (all | ⟨-, read, -, -⟩)
  · omega
  · exact read none

variable {bytes : List UInt8}

/-- One write, seen from the end: the rest is copied in order behind it exactly when all of it was. -/
theorem answered_iff_of_write {accepted : ℕ} (more : offset < length)
    (read : chunk answers slot content length offset ≠ [])
    (written : answers.write offset (chunk answers slot content length offset) = some accepted) (short : bytes.length ≤ offset) :
    (bytes ++ (chunk answers slot content length offset).take accepted =
          content.take (offset + (chunk answers slot content length offset).length) ∧
        Answered answers slot content length (offset + (chunk answers slot content length offset).length)) ↔
      bytes = content.take offset ∧ Answered answers slot content length offset := by
  have accepts := answers.write_le _ _ _ written
  rw [take_add_chunk]
  constructor
  · rintro ⟨same, rest⟩
    have inside : offset < content.length := by
      by_contra beyond
      exact read (by simp [chunk, drop_eq_nil_of_le (not_lt.mp beyond)])
    have lengths := congrArg List.length same
    simp only [length_append, length_take] at lengths
    obtain ⟨front, -⟩ := append_inj same (by rw [length_take]; omega)
    refine ⟨front, .step more read ?_ rest⟩
    rw [written]
    congr 1
    omega
  · rintro ⟨rfl, all | ⟨-, -, full, rest⟩⟩
    · omega
    · obtain rfl : accepted = (chunk answers slot content length offset).length := Option.some.inj (written.symm.trans full)
      exact ⟨by rw [take_length], rest⟩

/-- Once the file is open, everything is copied exactly when the file has what lies before the offset and the
rest is answered. -/
theorem installLoop_iff (short : bytes.length ≤ offset) (inside : offset ≤ length) :
    (installLoop answers slot content length ⟨offset, true, some bytes⟩).offset = length ∧
        (installLoop answers slot content length ⟨offset, true, some bytes⟩).file = some (content.take length) ↔
      bytes = content.take offset ∧ Answered answers slot content length offset := by
  induction remaining : length - offset using Nat.strong_induction_on generalizing offset bytes with
  | _ remaining ih =>
    subst remaining
    rw [installLoop]
    by_cases more : offset < length
    · simp only [more, dif_pos]
      by_cases none : chunk answers slot content length offset = []
      · simp only [none, dif_pos]
        exact iff_of_false (fun both => more.ne both.1) fun both => not_answered_of_read more none both.2
      · simp only [none, dif_neg, not_false_eq_true, Bool.not_true, Bool.false_and, Bool.false_eq_true, if_false, if_true]
        have fits := @chunk_length_le answers slot content length offset
        have some := length_pos_iff.mpr none
        cases written : answers.write offset (chunk answers slot content length offset) with
        | none =>
          refine iff_of_false (fun both => more.ne both.1) ?_
          rintro ⟨-, all | ⟨-, -, full, -⟩⟩
          · omega
          · rw [written] at full
            cases full
        | some accepted =>
          rw [← answered_iff_of_write more none written short]
          refine ih _ (by omega) ?_ (by omega) rfl
          simp only [length_append, length_take]
          omega
    · obtain rfl : offset = length := by omega
      simp only [more, dif_neg, not_false_eq_true, true_and, Option.some.injEq]
      exact ⟨fun same => ⟨same, .done le_rfl⟩, fun both => both.1⟩

/-- A copy from the beginning: of nothing, it leaves the file alone. -/
theorem installSpilledContent_iff (file : Option (List UInt8)) :
    (installSpilledContent answers slot content length file).offset = length ∧
        (installSpilledContent answers slot content length file).file = some (content.take length) ↔
      if length = 0 then file = some [] else answers.openTruncating = true ∧ Answered answers slot content length 0 := by
  by_cases nothing : length = 0
  · subst nothing
    rw [installSpilledContent, installLoop]
    simp
  · have more : 0 < length := Nat.pos_of_ne_zero nothing
    rw [if_neg nothing, installSpilledContent]
    by_cases opens : answers.openTruncating = true
    · -- The first round opens the file; from then on it is as if it had been open and empty.
      have opened : (installLoop answers slot content length ⟨0, false, file⟩).offset = length ∧
            (installLoop answers slot content length ⟨0, false, file⟩).file = some (content.take length) ↔
          (installLoop answers slot content length ⟨0, true, some []⟩).offset = length ∧
            (installLoop answers slot content length ⟨0, true, some []⟩).file = some (content.take length) := by
        rw [installLoop, installLoop]
        simp only [more, dif_pos, opens, Bool.not_true, Bool.and_false, Bool.false_eq_true, if_false, if_true]
        split
        · exact iff_of_false (fun both => more.ne both.1) fun both => more.ne both.1
        · rfl
      rw [opened, installLoop_iff (Nat.zero_le 0) more.le]
      simp [opens]
    · rw [installLoop]
      have refused : answers.openTruncating = false := Bool.eq_false_of_not_eq_true opens
      simp only [more, dif_pos, refused, Bool.not_false, Bool.and_self, if_true, dite_eq_ite, ite_self]
      exact iff_of_false (fun both => more.ne both.1) fun both => by cases both.1

end Loop

/-! ## What a refresh leaves -/

/-- The file as the store has it: deleted, or with the bytes of its row. -/
def SharedFileSpill.current (view : SpillView) : Option (List UInt8) :=
  if view.deleted then none else some ((store.content view.slot).take view.length)

/-- A copy that is marked as current is the store's file, and one that was not copied to the end is not marked. -/
structure Refreshed (answers : Answers) (store : SharedFileSpill) (view : SpillView) (before after : LocalCopy) : Prop where
  equal : after.seen view.slot = view.generation → after.file = store.current view
  incomplete : before.seen view.slot ≠ view.generation → view.deleted = false →
    (installSpilledContent answers view.slot (store.content view.slot) view.length before.file).offset ≠ view.length →
      after.seen view.slot ≠ view.generation

/-- A copy that is marked is current; a deleted file can be unlinked; an empty one is empty already; and others can
be opened, and are read and written to their end. -/
def Handles (answers : Answers) (store : SharedFileSpill) (view : SpillView) (s : LocalCopy) : Prop :=
  if s.seen view.slot = view.generation then s.file = store.current view
  else if view.deleted then answers.unlink = true ∨ s.file = none
  else if view.length = 0 then s.file = some []
  else answers.openTruncating = true ∧ Answered answers view.slot (store.content view.slot) view.length 0

/-- A refresh leaves the store's file, or the mark alone, exactly in these cases. -/
theorem refreshFromSpill_iff (answers : Answers) (store : SharedFileSpill) (path : List UInt8)
    (enabled : answers.spillEnabledFor path = true) (view : SpillView) (found : store.view path = some view) (s : LocalCopy) :
    Refreshed answers store view s (refreshFromSpill answers store path s) ↔ Handles answers store view s := by
  simp only [refreshFromSpill, enabled, Bool.not_true, Bool.false_eq_true, if_false, found, Handles]
  by_cases marked : s.seen view.slot = view.generation
  · simp only [marked, if_true]
    exact ⟨fun refreshed => refreshed.equal marked, fun same => ⟨fun _ => same, fun unmarked => absurd marked unmarked⟩⟩
  simp only [marked, if_false]
  by_cases deleted : view.deleted = true
  · simp only [deleted, if_true]
    have gone : (if answers.unlink = true then none else s.file) = none ↔ answers.unlink = true ∨ s.file = none := by
      by_cases unlinks : answers.unlink = true <;> simp [unlinks]
    rw [← gone]
    constructor
    · intro refreshed
      simpa [SharedFileSpill.current, deleted] using refreshed.equal (update_self _ _ _)
    · intro same
      refine ⟨fun _ => ?_, fun _ live => absurd deleted (by simp [live])⟩
      simpa [SharedFileSpill.current, deleted] using same
  · have live : view.deleted = false := Bool.eq_false_of_not_eq_true deleted
    simp only [live, Bool.false_eq_true, if_false]
    rw [← installSpilledContent_iff s.file]
    constructor
    · intro refreshed
      have equal := refreshed.equal (update_self _ _ _)
      simp only [SharedFileSpill.current, live, Bool.false_eq_true, if_false] at equal
      refine ⟨?_, equal⟩
      by_contra incomplete
      exact refreshed.incomplete marked live incomplete (update_self _ _ _)
    · rintro ⟨complete, equal⟩
      refine ⟨fun _ => ?_, fun _ _ incomplete => absurd complete incomplete⟩
      simpa [SharedFileSpill.current, live] using equal

/-! ## An emptied file and a short read -/

/-- A store with one live file. -/
def oneFile (generation : ℕ) (content : List UInt8) : SharedFileSpill :=
  ⟨[⟨.live, [47, 97], generation, content.length, content⟩]⟩

/-- Everything succeeds, and reads yield at most two bytes. -/
def shortReads : Answers where
  spillEnabledFor _ := true
  spillReadAt _ _ wanted := min 2 wanted
  spillReadAt_le _ _ wanted := min_le_right _ _
  openTruncating := true
  write _ bytes := some bytes.length
  write_le _ _ _ written := (Option.some.inj written).ge
  unlink := true

/-- The same, but nothing can be read behind the first two bytes. -/
def failingReads : Answers := { shortReads with
  spillReadAt _ offset wanted := if offset = 0 then min 2 wanted else 0
  spillReadAt_le _ _ wanted := by split; exacts [min_le_right _ _, Nat.zero_le _] }

theorem refreshFromSpill_iff_shortReads :
    Refreshed shortReads (oneFile 2 [1, 2, 3]) ⟨0, 2, 3, false⟩ ⟨some [9], fun _ => 1⟩
      (refreshFromSpill shortReads (oneFile 2 [1, 2, 3]) [47, 97] ⟨some [9], fun _ => 1⟩) := by
  refine (refreshFromSpill_iff shortReads _ [47, 97] rfl ⟨0, 2, 3, false⟩ (by decide +kernel) _).mpr ?_
  exact ⟨rfl, .step (by decide) (by decide) rfl (.step (by decide) (by decide) rfl (.done (by decide)))⟩

/-- After the file was emptied, the old bytes are taken for the current ones; and so is a part of the file when the
store cannot be read to the end. -/
theorem stale_file_marked :
    (refreshFromSpill shortReads (oneFile 2 []) [47, 97] ⟨some [9], fun _ => 1⟩).seen 0 = 2 ∧
      (refreshFromSpill shortReads (oneFile 2 []) [47, 97] ⟨some [9], fun _ => 1⟩).file = some [9] ∧
      (refreshFromSpill failingReads (oneFile 2 [1, 2, 3]) [47, 97] ⟨some [9], fun _ => 1⟩).seen 0 = 2 ∧
      (refreshFromSpill failingReads (oneFile 2 [1, 2, 3]) [47, 97] ⟨some [9], fun _ => 1⟩).file = some [1, 2] := by
  refine ⟨?_, ?_, ?_, ?_⟩ <;> decide +kernel

end LiteBox.Spill
