import LiteBox.Lib.Run
import LiteBox.Spill.Publish

/-! # Renames of shared files

Several processes share one store. A rename moves the row of the file to its new path, so that nothing in the
store says that the old path is gone. Only a file that was never published is renamed by a deletion and a
publication.
-/

namespace LiteBox.Spill

open SharedFileSpill Function List Option Prod Nat Run Answers

/-! ## Moving a row -/

namespace SharedFileSpill

/-- The store without a row for the path, unless that row is the one at `index`. -/
def dropVictim (store : SharedFileSpill) (index : ℕ) (target : List UInt8) : SharedFileSpill :=
  match store.find target with
  | some victim => if victim ≠ index then store.modify victim fun slot => { slot with path := [], length := 0, state := .deleted } else store
  | none => store

def moveSlot (store : SharedFileSpill) (source target : List UInt8) : Option (AppliedEdit × SharedFileSpill) :=
  if source.length > pathCapacity ∨ target.length > pathCapacity then none
  else (store.find source).map fun index =>
    let store := store.dropVictim index target
    let row := store.slot index
    (⟨index, row.generation, row.generation + 1, false⟩,
      store.modify index fun slot => { slot with path := target, generation := row.generation + 1, state := .live })

end SharedFileSpill

/-! ## Processes -/

/-- The private files of a process, and the generations it has seen. -/
structure Process where
  files : List UInt8 → Option (List UInt8)
  seen : ℕ → ℕ

namespace Process

def refresh (answers : Answers) (store : SharedFileSpill) (path : List UInt8) (process : Process) : Process :=
  let copy := refreshFromSpill answers store path ⟨process.files path, process.seen⟩
  ⟨update process.files path copy.file, copy.seen⟩

/-- The process has seen an edit of its own, if it had seen what was before. -/
def sees (process : Process) (applied : AppliedEdit) : Process :=
  if process.seen applied.slot = applied.previousGeneration ∧ applied.localDiverged = false then
    { process with seen := update process.seen applied.slot applied.newGeneration }
  else process

end Process

section Publish

variable (enabled : List UInt8 → Bool)

def publishSpilled (answers : StoreAnswers) (path : List UInt8) (edit : SpillEdit) (store : SharedFileSpill) (process : Process) :
    SharedFileSpill × Process :=
  if enabled path then
    match store.apply answers path edit (process.files path) with
    | (none, store) => (store, process)
    | (some applied, store) => (store, process.sees applied)
  else (store, process)

def publishSpilledRename (answers answers' : StoreAnswers) (source target : List UInt8) (store : SharedFileSpill) (process : Process) :
    SharedFileSpill × Process :=
  if enabled source || enabled target then
    match store.moveSlot source target with
    | some (applied, store) => (store, process.sees applied)
    | none =>
      let (store, process) := publishSpilled enabled answers source .remove store process
      publishSpilled enabled answers' target .replace store process
  else (store, process)

/-- The store has taken the rename: the row was moved, or both edits were applied. -/
def RenameTaken (answers answers' : StoreAnswers) (source target : List UInt8) (store : SharedFileSpill) (process : Process) : Prop :=
  (enabled source || enabled target) = true ∧ (store.moveSlot source target).isSome = true ∨
    enabled source = true ∧ enabled target = true ∧ (store.moveSlot source target).isSome = false ∧
      (store.apply answers source .remove (process.files source)).1.isSome = true ∧
      ((store.apply answers source .remove (process.files source)).2.apply answers' target .replace (process.files target)).1.isSome = true

end Publish

/-! ## Runs -/

structure World where
  store : SharedFileSpill
  processes : ℕ → Process

inductive SpillOp
  | publish (process : ℕ) (path : List UInt8) (file : Option (List UInt8)) (edit : SpillEdit) (answers : StoreAnswers)
  | rename (process : ℕ) (source target : List UInt8) (answers answers' : StoreAnswers)
  | refresh (process : ℕ) (path : List UInt8) (answers : Answers)
  | change (process : ℕ) (path : List UInt8) (file : Option (List UInt8))
  | fork (parent child : ℕ)

variable (enabled : List UInt8 → Bool)

namespace World

def new : World := ⟨.new, fun _ => ⟨fun _ => none, fun _ => 0⟩⟩

def withProcess (w : World) (name : ℕ) (process : Process) : World := { w with processes := update w.processes name process }

/-- A process renames its own copy of a file. -/
def renamed (process : Process) (source target : List UInt8) : Process :=
  if source = target then process
  else { process with files := update (update process.files target (process.files source)) source none }

/-- A process changes or renames its own copy of a file and then publishes that. -/
def step (w : World) : SpillOp → World
  | .publish name path file edit answers =>
    let changed := { w.processes name with files := update (w.processes name).files path file }
    let (store, process) := publishSpilled enabled answers path edit w.store changed
    ⟨store, update w.processes name process⟩
  | .rename name source target answers answers' =>
    if (w.processes name).files source = none then w
    else
      let (store, process) := publishSpilledRename enabled answers answers' source target w.store (renamed (w.processes name) source target)
      ⟨store, update w.processes name process⟩
  | .refresh name path answers => w.withProcess name ((w.processes name).refresh answers w.store path)
  | .change name path file => w.withProcess name { w.processes name with files := update (w.processes name).files path file }
  | .fork parent child => w.withProcess child (w.processes parent)

end World

/-! ## Rows and paths -/

variable {content : List UInt8} {file : Option (List UInt8)} {applied : AppliedEdit} {length : ℕ}

namespace SharedFileSpill

variable {store after : SharedFileSpill} {path : List UInt8} {i : ℕ}

theorem slot_modify (store : SharedFileSpill) (i : ℕ) (change : Slot → Slot) (j : ℕ) :
    (store.modify i change).slot j = if j = i ∧ i < store.slots.length then change (store.slot i) else store.slot j := by
  simp only [slot, modify, getElem?_modify]
  by_cases here : j = i
  · subst here
    by_cases inside : j < store.slots.length <;> simp [inside]
  · simp [here, Ne.symm here]

theorem slot_modify_self {change : Slot → Slot} (inside : i < store.slots.length) : (store.modify i change).slot i = change (store.slot i) := by
  rw [slot_modify, if_pos ⟨rfl, inside⟩]

variable {j : ℕ} {taken : SharedFileSpill} {edit : SpillEdit} {target : List UInt8}

theorem slot_modify_of_ne {change : Slot → Slot} (other : j ≠ i) : (store.modify i change).slot j = store.slot j := by
  rw [slot_modify, if_neg fun same => other same.1]

theorem length_modify (store : SharedFileSpill) (i : ℕ) (change : Slot → Slot) :
    (store.modify i change).slots.length = store.slots.length := List.length_modify ..

theorem lt_of_holds (holds : (store.slot i).holds path = true) : i < store.slots.length := by
  by_contra outside
  rw [slot, getElem?_eq_none (not_lt.mp outside)] at holds
  cases holds

theorem find_eq_none_iff : store.find path = none ↔ ∀ i, (store.slot i).holds path = false := by
  rw [find, findIdx?_eq_none_iff]
  constructor
  · intro absent i
    by_contra holds
    have inside := lt_of_holds (Bool.eq_true_of_not_eq_false holds)
    rw [slot, getElem?_eq_getElem inside] at holds
    exact holds (absent _ (getElem_mem inside))
  · intro absent slot member
    obtain ⟨i, inside, rfl⟩ := getElem_of_mem member
    have here := absent i
    rwa [slot, getElem?_eq_getElem inside] at here

theorem holds_of_find (found : store.find path = some i) : (store.slot i).holds path = true := by
  obtain ⟨inside, holds, -⟩ := findIdx?_eq_some_iff_getElem.mp found
  rwa [slot, getElem?_eq_getElem inside]

theorem holds_iff {row : Slot} : row.holds path = true ↔ row.state ≠ .empty ∧ row.path = path := by
  simp [Slot.holds]

/-- No two rows are for the same path. The rows of overwritten files have no path. -/
def OneRowEach (store : SharedFileSpill) : Prop :=
  ∀ path ≠ [], ∀ i j, (store.slot i).holds path = true → (store.slot j).holds path = true → i = j

theorem find_of_holds (unique : store.OneRowEach) (nonempty : path ≠ []) (holds : (store.slot i).holds path = true) :
    store.find path = some i := by
  cases found : store.find path with
  | none =>
    rw [find_eq_none_iff.mp found i] at holds
    cases holds
  | some j => rw [unique path nonempty i j holds (holds_of_find found)]

/-- One row has changed: the path it is for now, if another, is for no other row. -/
theorem OneRowEach.change (unique : store.OneRowEach) (others : ∀ j ≠ i, after.slot j = store.slot j)
    (own : ∀ path ≠ [], (after.slot i).holds path = true → (store.slot i).holds path = true ∨ ∀ j ≠ i, (store.slot j).holds path = false) :
    after.OneRowEach := by
  have lone : ∀ path ≠ [], (after.slot i).holds path = true → ∀ j ≠ i, (after.slot j).holds path = false := by
    intro path nonempty holds j other
    rw [others j other]
    obtain before | absent := own path nonempty holds
    · by_contra also
      exact other (unique path nonempty j i (Bool.eq_true_of_not_eq_false also) before)
    · exact absent j other
  intro path nonempty j k first second
  by_cases isJ : j = i <;> by_cases isK : k = i
  · rw [isJ, isK]
  · subst isJ
    rw [lone path nonempty first k isK] at second
    cases second
  · subst isK
    rw [lone path nonempty second j isJ] at first
    cases first
  · rw [others j isJ] at first
    rw [others k isK] at second
    exact unique path nonempty j k first second

/-- What a claim does: it takes a row for the path, which no other row is for. -/
structure Claimed (store : SharedFileSpill) (path : List UInt8) (i : ℕ) (taken : SharedFileSpill) : Prop where
  inside : i < store.slots.length
  size : taken.slots.length = store.slots.length
  holds : (taken.slot i).holds path = true
  generation : (taken.slot i).generation = (store.slot i).generation
  others : ∀ j ≠ i, taken.slot j = store.slot j
  fresh : (store.slot i).holds path = true ∨ ∀ j ≠ i, (store.slot j).holds path = false

theorem claim_claimed (claimed : store.claim path = some (i, taken)) : store.Claimed path i taken := by
  cases found : store.find path with
  | some index =>
    rw [claim_of_find found] at claimed
    cases claimed
    have holds := holds_of_find found
    exact ⟨lt_of_holds holds, rfl, holds, rfl, fun _ _ => rfl, .inl holds⟩
  | none =>
    rw [claim, found] at claimed
    obtain ⟨index, reused, same⟩ := map_eq_some_iff.mp claimed
    cases same
    have inside : i < store.slots.length := by
      rcases or_eq_some_iff.mp reused with reused | ⟨-, reused⟩ <;>
        exact (findIdx?_eq_some_iff_getElem.mp reused).1
    refine ⟨inside, length_modify .., ?_, ?_, fun j other => slot_modify_of_ne other, .inr fun j _ => find_eq_none_iff.mp found j⟩
    · rw [slot_modify_self inside]
      simp [Slot.holds]
    · rw [slot_modify_self inside]

/-- A row that was claimed anew counts as deleted. -/
theorem claim_state (absent : store.find path = none) (claimed : store.claim path = some (i, taken)) :
    (taken.slot i).state = .deleted := by
  have inside := (claim_claimed claimed).inside
  rw [claim, absent] at claimed
  obtain ⟨index, -, same⟩ := map_eq_some_iff.mp claimed
  cases same
  rw [slot_modify_self inside]

theorem Claimed.oneRowEach (claimed : store.Claimed path i taken) (unique : store.OneRowEach)
    (others : ∀ j ≠ i, after.slot j = taken.slot j) (own : (after.slot i).path = path) : after.OneRowEach := by
  refine unique.change (i := i) (fun j other => (others j other).trans (claimed.others j other)) fun other nonempty holds => ?_
  obtain rfl : path = other := own.symm.trans (holds_iff.mp holds).2
  exact claimed.fresh

/-! ### Edits that were applied -/

/-- What an edit does when it is applied. -/
structure Edited (store : SharedFileSpill) (path : List UInt8) (edit : SpillEdit) (i length : ℕ) (content : List UInt8)
    (after : SharedFileSpill) : Prop where
  claimed : ∃ taken, store.claim path = some (i, taken)
  short : path.length ≤ pathCapacity
  size : after.slots.length = store.slots.length
  others : ∀ j ≠ i, after.slot j = store.slot j
  own : after.slot i = ⟨if edit = .remove then .deleted else .live, path, (store.slot i).generation + 1, length, content⟩

theorem apply_some {answers : StoreAnswers}
    (ran : store.apply answers path edit file = (some applied, after)) :
    ∃ (taken : SharedFileSpill) (length : ℕ) (content : List UInt8), edit.attempt answers applied.slot (taken.slot applied.slot) file = (some length, content) ∧
      store.Edited path edit applied.slot length content after ∧
      applied.previousGeneration = (store.slot applied.slot).generation ∧
      applied.newGeneration = (after.slot applied.slot).generation := by
  simp only [apply] at ran
  split at ran
  · cases ran
  next short =>
  cases claimed : store.claim path with
  | none =>
    rw [claimed] at ran
    cases ran
  | some claim =>
    obtain ⟨i, taken⟩ := claim
    have spec := claim_claimed claimed
    simp only [claimed] at ran
    rcases attempted : edit.attempt answers i (taken.slot i) file with ⟨_ | length, content⟩
    · simp [attempted] at ran
    · simp only [attempted, mk.injEq, some.injEq] at ran
      obtain ⟨rfl, rfl⟩ := ran
      have inside : i < taken.slots.length := spec.size ▸ spec.inside
      have path' := (holds_iff.mp spec.holds).2
      refine ⟨taken, length, content, attempted, ⟨⟨taken, claimed⟩, not_lt.mp short, ?_, fun j other => ?_, ?_⟩, spec.generation, ?_⟩
      · rw [length_modify, spec.size]
      · rw [slot_modify_of_ne other, spec.others j other]
      · rw [slot_modify_self inside, path', spec.generation]
      · rw [slot_modify_self inside]

/-- An edit that is not applied moves no generation. -/
theorem apply_none {answers : StoreAnswers}
    (ran : store.apply answers path edit file = (none, after)) (unique : store.OneRowEach) :
    after.OneRowEach ∧ ∀ i, (after.slot i).generation = (store.slot i).generation := by
  simp only [apply] at ran
  split at ran
  · cases ran
    exact ⟨unique, fun _ => rfl⟩
  cases claimed : store.claim path with
  | none =>
    rw [claimed] at ran
    cases ran
    exact ⟨unique, fun _ => rfl⟩
  | some claim =>
    obtain ⟨i, taken⟩ := claim
    have spec := claim_claimed claimed
    simp only [claimed] at ran
    rcases attempted : edit.attempt answers i (taken.slot i) file with ⟨_ | length, content⟩
    · simp only [attempted, Prod.mk.injEq, true_and] at ran
      subst ran
      have inside : i < taken.slots.length := spec.size ▸ spec.inside
      refine ⟨spec.oneRowEach unique (fun j other => slot_modify_of_ne other) ?_, fun j => ?_⟩
      · rw [withContent, slot_modify_self inside]
        exact (holds_iff.mp spec.holds).2
      · by_cases here : j = i
        · subst here
          rw [withContent, slot_modify_self inside]
          exact spec.generation
        · rw [withContent, slot_modify_of_ne here, spec.others j here]
    · simp [attempted] at ran

theorem Edited.oneRowEach (edited : store.Edited path edit i length content after)
    (unique : store.OneRowEach) : after.OneRowEach := by
  obtain ⟨taken, claimed⟩ := edited.claimed
  have spec := claim_claimed claimed
  refine spec.oneRowEach unique (fun j other => (edited.others j other).trans (spec.others j other).symm) ?_
  rw [edited.own]

theorem dropVictim_others (spared : (store.slot j).holds target = false ∨ j = i) :
    (store.dropVictim i target).slot j = store.slot j := by
  rw [dropVictim]
  cases found : store.find target with
  | none => rfl
  | some victim =>
    simp only
    split
    · next other =>
      refine slot_modify_of_ne ?_
      rintro rfl
      obtain absent | here := spared
      · rw [holds_of_find found] at absent
        cases absent
      · exact other here
    · rfl

theorem dropVictim_generation (store : SharedFileSpill) (i : ℕ) (target : List UInt8) (j : ℕ) :
    ((store.dropVictim i target).slot j).generation = (store.slot j).generation := by
  rw [dropVictim]
  cases store.find target with
  | none => rfl
  | some victim =>
    simp only
    split
    · rw [slot_modify]
      split
      · next here => rw [here.1]
      · rfl
    · rfl

theorem length_dropVictim (store : SharedFileSpill) (i : ℕ) (target : List UInt8) :
    (store.dropVictim i target).slots.length = store.slots.length := by
  rw [dropVictim]
  cases store.find target with
  | none => rfl
  | some victim =>
    simp only
    split
    · exact length_modify ..
    · rfl

/-- Once the victim is gone, only the moved row can still be for the target. -/
theorem dropVictim_holds (unique : store.OneRowEach) (nonempty : target ≠ []) (other : j ≠ i) :
    ((store.dropVictim i target).slot j).holds target = false := by
  by_cases holds : (store.slot j).holds target = true
  · have found := find_of_holds unique nonempty holds
    rw [dropVictim, found]
    simp only [ne_eq, other, not_false_eq_true, if_true]
    rw [slot_modify_self (lt_of_holds holds)]
    simp [Slot.holds, Ne.symm nonempty]
  · rw [dropVictim_others (.inl (Bool.eq_false_of_not_eq_true holds))]
    exact Bool.eq_false_of_not_eq_true holds

theorem dropVictim_oneRowEach (unique : store.OneRowEach) : (store.dropVictim i target).OneRowEach := by
  rw [dropVictim]
  cases store.find target with
  | none => exact unique
  | some victim =>
    simp only
    split
    · refine unique.change (i := victim) (fun j other => slot_modify_of_ne other) fun path nonempty holds => ?_
      rw [slot_modify] at holds
      split at holds
      · exact absurd (holds_iff.mp holds).2 (Ne.symm nonempty)
      · exact .inl holds
    · exact unique

/-- What a move does: the row for the source is for the target, and no other row is. -/
structure Moved (store : SharedFileSpill) (source target : List UInt8) (applied : AppliedEdit) (after : SharedFileSpill) : Prop where
  found : store.find source = some applied.slot
  unique : after.OneRowEach
  previous : applied.previousGeneration = (store.slot applied.slot).generation
  new : applied.newGeneration = (after.slot applied.slot).generation
  later : ∀ j, (store.slot j).generation ≤ (after.slot j).generation
  gone : source ≠ [] → source ≠ target → ∀ j, (after.slot j).holds source = false

theorem moveSlot_moved {source : List UInt8} (unique : store.OneRowEach)
    (ran : store.moveSlot source target = some (applied, after)) : store.Moved source target applied after := by
  rw [moveSlot] at ran
  split at ran
  · cases ran
  obtain ⟨i, found, same⟩ := map_eq_some_iff.mp ran
  cases same
  have holds := holds_of_find found
  have inside : i < (store.dropVictim i target).slots.length := length_dropVictim store i target ▸ lt_of_holds holds
  refine ⟨found, ?_, dropVictim_generation .., ?_, fun j => ?_, fun some different j => ?_⟩
  · refine (dropVictim_oneRowEach unique).change (i := i) (fun j other => slot_modify_of_ne other) fun path nonempty holds => .inr ?_
    rw [slot_modify_self inside] at holds
    obtain rfl : target = path := (holds_iff.mp holds).2
    exact fun j other => dropVictim_holds unique nonempty other
  · rw [slot_modify_self inside]
  · by_cases here : j = i
    · subst here
      rw [slot_modify_self inside]
      simp only [dropVictim_generation]
      omega
    · rw [slot_modify_of_ne here, dropVictim_generation]
  · by_cases here : j = i
    · subst here
      rw [slot_modify_self inside]
      simp [Slot.holds, Ne.symm different]
    · rw [slot_modify_of_ne here]
      by_contra also
      rw [← @dropVictim_others store i i target (.inr rfl)] at holds
      exact here (dropVictim_oneRowEach unique source some j i (Bool.eq_true_of_not_eq_false also) holds)

/-- Which row is claimed depends on the states and paths of the rows only. -/
theorem claim_congr (size : after.slots.length = store.slots.length)
    (alike : ∀ i, (after.slot i).state = (store.slot i).state ∧ (after.slot i).path = (store.slot i).path) (path : List UInt8) :
    (after.claim path).map fst = (store.claim path).map fst := by
  have same : after.slots.map (fun slot => (slot.state, slot.path)) = store.slots.map (fun slot => (slot.state, slot.path)) := by
    refine ext_getElem (by simp [size]) fun i inside inside' => ?_
    rw [length_map] at inside inside'
    have here := alike i
    rw [slot, slot, getElem?_eq_getElem inside, getElem?_eq_getElem inside'] at here
    simpa using here
  have scan (test : SlotState × List UInt8 → Bool) : after.slots.findIdx? (fun slot => test (slot.state, slot.path)) =
      store.slots.findIdx? (fun slot => test (slot.state, slot.path)) := by
    have mapped := congrArg (findIdx? test) same
    rwa [findIdx?_map, findIdx?_map] at mapped
  have finds : after.find path = store.find path := scan fun row => decide (row.1 ≠ .empty) && decide (row.2 = path)
  have reuses (wanted : SlotState) : after.reusable wanted = store.reusable wanted := scan fun row => decide (row.1 = wanted)
  simp only [claim, finds, reuses]
  cases store.find path with
  | some index => rfl
  | none => simp [comp_def]

end SharedFileSpill

/-! ## What every run keeps -/

/-- Every row has its own path, and no process has seen more than there is. -/
structure World.Sound (w : World) : Prop where
  unique : w.store.OneRowEach
  behind : ∀ name i, (w.processes name).seen i ≤ (w.store.slot i).generation

/-- What a change of the store by one process must keep for the others and for itself. -/
structure Advances (store : SharedFileSpill) (process : Process) (after : SharedFileSpill × Process) : Prop where
  unique : after.1.OneRowEach
  later : ∀ i, (store.slot i).generation ≤ (after.1.slot i).generation
  behind : (∀ i, process.seen i ≤ (store.slot i).generation) → ∀ i, after.2.seen i ≤ (after.1.slot i).generation

namespace Advances

variable {store after : SharedFileSpill} {process : Process}

theorem refl (unique : store.OneRowEach) : Advances store process (store, process) := ⟨unique, fun _ => le_rfl, id⟩

theorem trans {middle : SharedFileSpill × Process} {last : SharedFileSpill × Process} (first : Advances store process middle)
    (second : Advances middle.1 middle.2 last) : Advances store process last :=
  ⟨second.unique, fun i => (first.later i).trans (second.later i), fun behind => second.behind (first.behind behind)⟩

theorem sees (unique : after.OneRowEach) (later : ∀ i, (store.slot i).generation ≤ (after.slot i).generation)
    (new : applied.newGeneration = (after.slot applied.slot).generation) : Advances store process (after, process.sees applied) := by
  refine ⟨unique, later, fun behind i => ?_⟩
  simp only [Process.sees]
  split
  · simp only [update_apply]
    split
    · next here => rw [here, new]
    · exact (behind i).trans (later i)
  · exact (behind i).trans (later i)

theorem publishSpilled (answers : StoreAnswers) (path : List UInt8) (edit : SpillEdit) (process : Process)
    (unique : store.OneRowEach) : Advances store process (publishSpilled enabled answers path edit store process) := by
  rw [Spill.publishSpilled]
  split
  · rcases ran : store.apply answers path edit (process.files path) with ⟨_ | applied, after⟩
    · obtain ⟨unique, same⟩ := apply_none ran unique
      exact ⟨unique, fun i => (same i).ge, fun behind i => (behind i).trans (same i).ge⟩
    · obtain ⟨_, _, _, _, edited, _, new⟩ := apply_some ran
      refine .sees (edited.oneRowEach unique) (fun i => ?_) new
      by_cases here : i = applied.slot
      · rw [here, edited.own]
        exact le_succ _
      · rw [edited.others i here]
  · exact .refl unique

theorem publishSpilledRename (answers answers' : StoreAnswers) (source target : List UInt8)
    (process : Process) (unique : store.OneRowEach) :
    Advances store process (publishSpilledRename enabled answers answers' source target store process) := by
  rw [Spill.publishSpilledRename]
  split
  · cases ran : store.moveSlot source target with
    | some moved =>
      have spec := moveSlot_moved unique ran
      exact .sees spec.unique spec.later spec.new
    | none =>
      have first := Advances.publishSpilled enabled answers source .remove process unique
      exact first.trans (.publishSpilled enabled answers' target .replace _ first.unique)
  · exact .refl unique

end Advances

variable {w : World} {process : Process} {store : SharedFileSpill}

theorem World.Sound.advance (sound : w.Sound) {name : ℕ} {after : SharedFileSpill × Process}
    (same : process.seen = (w.processes name).seen) (advances : Advances w.store process after) :
    World.Sound ⟨after.1, update w.processes name after.2⟩ := by
  refine ⟨advances.unique, fun other i => ?_⟩
  simp only [update_apply]
  split
  · exact advances.behind (fun i => same ▸ sound.behind name i) i
  · exact (sound.behind other i).trans (advances.later i)

theorem refresh_behind (answers : Answers) (path : List UInt8)
    (behind : ∀ i, process.seen i ≤ (store.slot i).generation) (i : ℕ) :
    (process.refresh answers store path).seen i ≤ (store.slot i).generation := by
  simp only [Process.refresh, refreshFromSpill]
  split
  · exact behind i
  cases seen : store.view path with
  | none => exact behind i
  | some view =>
    obtain ⟨row, -, -, there, eq⟩ := view_eq_some seen
    have generation : view.generation = (store.slot view.slot).generation := by
      rw [slot_eq there, eq]
    simp only
    split
    · exact behind i
    · simp only [update_apply]
      split
      · next here => rw [here, generation]
      · exact behind i

theorem World.Sound.withProcess (sound : w.Sound) (name : ℕ)
    (behind : ∀ i, process.seen i ≤ (w.store.slot i).generation) : (w.withProcess name process).Sound := by
  refine ⟨sound.unique, fun other i => ?_⟩
  simp only [World.withProcess, update_apply]
  split
  · exact behind i
  · exact sound.behind other i

theorem World.Sound.step (sound : w.Sound) (enabled : List UInt8 → Bool) (op : SpillOp) : (w.step enabled op).Sound := by
  cases op with
  | publish name path file edit answers =>
    let changed : Process := { w.processes name with files := update (w.processes name).files path file }
    have same : changed.seen = (w.processes name).seen := rfl
    exact sound.advance same (.publishSpilled enabled answers path edit changed sound.unique)
  | rename name source target answers answers' =>
    simp only [World.step]
    split
    · exact sound
    · refine sound.advance ?_ (.publishSpilledRename enabled answers answers' source target _ sound.unique)
      rw [World.renamed]
      split <;> rfl
  | refresh name path answers => exact sound.withProcess name (refresh_behind answers path (sound.behind name))
  | change name path file => exact sound.withProcess name (sound.behind name)
  | fork parent child => exact sound.withProcess child (sound.behind parent)

theorem World.sound_new : World.new.Sound := by
  have blank (i : ℕ) : SharedFileSpill.new.slot i = .new := by
    simp only [SharedFileSpill.slot, SharedFileSpill.new, getElem?_replicate]
    split <;> rfl
  refine ⟨fun path _ i j holds => ?_, fun _ _ => zero_le _⟩
  have empty : (SharedFileSpill.new.slot i).holds path = true := holds
  rw [blank] at empty
  cases empty

theorem World.sound_run (ops : List SpillOp) : (run (World.step enabled) .new ops).Sound := by
  suffices every : ∀ w : World, w.Sound → (run (World.step enabled) w ops).Sound from every _ World.sound_new
  induction ops with
  | nil => exact fun w sound => sound
  | cons op rest ih => exact fun w sound => ih _ (sound.step enabled op)

/-! ## What another process sees -/

/-- Everything that a refresh asks for succeeds, if in pieces. -/
structure Answers.Complete (answers : Answers) : Prop where
  opens : answers.openTruncating = true
  unlinks : answers.unlink = true
  writes : ∀ offset bytes, answers.write offset bytes = some bytes.length
  reads : ∀ slot offset wanted, 0 < wanted → 0 < answers.spillReadAt slot offset wanted

theorem Answers.Complete.answered {answers : Answers} (complete : answers.Complete) {slot : ℕ}
    (long : length ≤ content.length) (offset : ℕ) : Answered answers slot content length offset := by
  induction remaining : length - offset using Nat.strong_induction_on generalizing offset with
  | _ remaining ih =>
    subst remaining
    by_cases more : offset < length
    · have wants : 0 < wanted length offset := by
        simp only [wanted, transferChunk]
        omega
      have reads := complete.reads slot offset _ wants
      have some : chunk answers slot content length offset ≠ [] := by
        intro none
        have size := congrArg List.length none
        simp only [chunk, length_take, length_drop, length_nil] at size
        omega
      have fits := length_pos_iff.mpr some
      exact .step more some (complete.writes ..) (ih _ (by omega) _ rfl)
    · exact .done (not_lt.mp more)

section Reader

variable {answers : Answers} {store : SharedFileSpill} {process : Process} {path : List UInt8} {i : ℕ}

theorem refresh_other {other : List UInt8} (different : other ≠ path) : (process.refresh answers store path).files other = process.files other :=
  update_of_ne different _ _

/-- Without a row for the path, or if the path is not shared, nothing happens. -/
theorem refresh_absent (absent : answers.spillEnabledFor path = true → store.find path = none) :
    (process.refresh answers store path).files path = process.files path := by
  simp only [Process.refresh, update_self, refreshFromSpill]
  split
  · rfl
  · next enabled =>
    have none := absent (by simpa using enabled)
    have unseen : store.view path = .none := by simp [view, none]
    rw [unseen]

theorem view_of_slot {row : Slot} (short : path.length ≤ pathCapacity) (found : store.find path = some i) (own : store.slot i = row) :
    store.view path = some ⟨i, row.generation, row.length, decide (row.state = .deleted)⟩ := by
  obtain ⟨row', there⟩ := exists_of_find found
  rw [view_of_find short found there, ← own, slot_eq there]

variable {generation : ℕ}

theorem refresh_deleted (complete : answers.Complete)
    (enabled : answers.spillEnabledFor path = true) (short : path.length ≤ pathCapacity) (found : store.find path = some i)
    (own : store.slot i = ⟨.deleted, path, generation, length, content⟩) (behind : process.seen i < generation) :
    (process.refresh answers store path).files path = none ∧
      (process.refresh answers store path).seen = update process.seen i generation := by
  simp [Process.refresh, refreshFromSpill, enabled, view_of_slot short found own, behind.ne, complete.unlinks]

theorem refresh_live (complete : answers.Complete)
    (enabled : answers.spillEnabledFor path = true) (short : path.length ≤ pathCapacity) (found : store.find path = some i)
    (own : store.slot i = ⟨.live, path, generation, content.length, content⟩) (behind : process.seen i < generation) :
    (process.refresh answers store path).files path = some content ↔ content ≠ [] ∨ process.files path = some [] := by
  have bytes : store.content i = content := by
    obtain ⟨row, there⟩ := exists_of_find found
    rw [slot_eq there] at own
    simp [SharedFileSpill.content, there, own]
  simp only [Process.refresh, update_self, refreshFromSpill, enabled, Bool.not_true, Bool.false_eq_true, if_false,
    view_of_slot short found own, behind.ne, bytes, reduceCtorEq, decide_false]
  have installs := @installSpilledContent_iff answers i content content.length (process.files path)
  by_cases empty : content = []
  · subst empty
    simp [installSpilledContent, installLoop]
  · have nonzero : content.length ≠ 0 := fun zero => empty (length_eq_zero_iff.mp zero)
    rw [if_neg nonzero, take_length] at installs
    simp [empty, (installs.mpr ⟨complete.opens, complete.answered le_rfl 0⟩).2]

end Reader

variable {offset : ℕ}

theorem overwrite_end {file bytes : List UInt8} (inside : offset ≤ file.length) :
    overwrite (file.take offset) offset bytes = file.take offset ++ bytes := by
  rw [overwrite]
  split
  · next empty => rw [empty, append_nil]
  · have size : (file.take offset).length = offset := by simp [inside]
    have behind : (file.take offset).drop (offset + bytes.length) = [] := drop_eq_nil_of_le (by omega)
    rw [size, Nat.sub_self, replicate_zero, append_nil, behind, append_nil, take_take, min_self]

/-- A copy that is complete is the whole file, if reads come back empty only at its end. -/
theorem copyLoop_complete {answers : StoreAnswers} (reads : ∀ offset, answers.read offset ≠ some 0) {slot : ℕ}
    {file : List UInt8} (inside : offset ≤ file.length)
    (ran : copyLoop answers slot file offset (file.take offset) = (some length, content)) : length = file.length ∧ content = file := by
  induction remaining : file.length - offset using Nat.strong_induction_on generalizing offset with
  | _ remaining ih =>
    subst remaining
    rw [copyLoop] at ran
    cases limit : answers.read offset with
    | none => simp [limit] at ran
    | some most =>
      have some : most ≠ 0 := fun zero => reads offset (zero ▸ limit)
      simp only [limit] at ran
      split at ran
      · next empty =>
        obtain ⟨rfl, rfl⟩ : offset = length ∧ file.take offset = content := by simpa using ran
        have done : file.length ≤ offset := by
          have size := congrArg length empty
          simp only [transferChunk, length_take, length_drop, length_nil] at size
          omega
        exact ⟨by omega, take_of_length_le done⟩
      · next nonempty =>
        cases answer : answers.spillWrite slot offset with
        | error written => simp [answer] at ran
        | ok _ =>
          simp only [answer] at ran
          have size := length_pos_iff.mpr nonempty
          simp only [length_take, length_drop] at size
          rw [overwrite_end inside, ← take_add, length_take, length_drop] at ran
          have front : file.take (offset + min most transferChunk) = file.take (offset + min (min most transferChunk) (file.length - offset)) :=
            take_eq_take_iff.mpr (by omega)
          rw [front] at ran
          exact ih _ (by omega) (by omega) ran rfl

theorem moveSlot_absent {source target : List UInt8} (absent : store.find source = none) :
    store.moveSlot source target = none := by
  simp [moveSlot, absent]

theorem apply_isSome_short {answers : StoreAnswers} {path : List UInt8} {edit : SpillEdit}
    (applied : (store.apply answers path edit file).1.isSome = true) : path.length ≤ pathCapacity := by
  by_contra long
  simp [apply, not_le.mp long] at applied

/-- The row that is claimed for the deleted name is not taken again for the new one. -/
def SharedFileSpill.RoomForBoth (store : SharedFileSpill) (source target : List UInt8) : Prop :=
  ∀ i taken, store.claim source = some (i, taken) → (taken.claim target).map fst ≠ some i

/-- The content of the file in one shared file system: what the store has, or the copy of the process if the file was
never published. -/
def SharedFileSpill.fileContent (store : SharedFileSpill) (path own : List UInt8) : List UInt8 :=
  match store.find path with
  | some i => (store.slot i).content.take (store.slot i).length
  | none => own

section Rename

variable {enabled : List UInt8 → Bool} {w : World} {source target content : List UInt8} {answers answers' : StoreAnswers} {process : Process}

/-- A rename of a file that was published leaves no row for the old name. -/
theorem rename_forgets (sound : w.Sound) (different : source ≠ target) (nonempty : source ≠ []) {i : ℕ}
    (found : w.store.find source = some i) (taken : RenameTaken enabled answers answers' source target w.store process) :
    (publishSpilledRename enabled answers answers' source target w.store process).1.find source = none := by
  obtain ⟨either, moves⟩ | ⟨-, -, stays, removed, replaced⟩ := taken
  · obtain ⟨⟨applied, after⟩, ran⟩ := isSome_iff_exists.mp moves
    rw [publishSpilledRename, if_pos either, ran]
    exact find_eq_none_iff.mpr ((moveSlot_moved sound.unique ran).gone nonempty different)
  · have shortSource := apply_isSome_short removed
    have shortTarget := apply_isSome_short replaced
    simp [moveSlot, not_lt.mpr shortSource, not_lt.mpr shortTarget, found] at stays

/-- A rename of a file that was never published: a row for the deletion, and a row for the new file. -/
theorem rename_publishes (absent : w.store.find source = none) (own : process.files target = some content)
    (reads : ∀ offset, answers'.read offset ≠ some 0)
    (taken : RenameTaken enabled answers answers' source target w.store process) :
    enabled source = true ∧ enabled target = true ∧ ∃ i j length bytes middle,
      w.store.Edited source .remove i length bytes middle ∧
      middle.Edited target .replace j content.length content (publishSpilledRename enabled answers answers' source target w.store process).1 := by
  obtain ⟨-, moves⟩ | ⟨forSource, forTarget, -, removed, replaced⟩ := taken
  · rw [moveSlot_absent absent] at moves
    cases moves
  refine ⟨forSource, forTarget, ?_⟩
  rcases first : w.store.apply answers source .remove (process.files source) with ⟨_ | applied, middle⟩
  · rw [first] at removed
    cases removed
  rw [first] at replaced
  rcases second : middle.apply answers' target .replace (process.files target) with ⟨_ | applied', after⟩
  · rw [second] at replaced
    cases replaced
  have stored : (publishSpilledRename enabled answers answers' source target w.store process).1 = after := by
    have files : (process.sees applied).files = process.files := by
      rw [Process.sees]
      split <;> rfl
    simp [publishSpilledRename, forSource, moveSlot_absent absent, publishSpilled, first, forTarget, files, second]
  rw [stored]
  obtain ⟨_, length, bytes, _, edited, _, _⟩ := apply_some first
  obtain ⟨row, length', content', attempted, edited', _, _⟩ := apply_some second
  refine ⟨applied.slot, applied'.slot, length, bytes, middle, edited, ?_⟩
  rw [own] at attempted
  simp only [SpillEdit.attempt, SpillEdit.needsLocalCopy, if_true, copyLocalFile] at attempted
  split at attempted
  · cases attempted
  split at attempted
  · cases attempted
  · have copied := copyLoop_complete reads (zero_le _) (by simpa using attempted)
    rw [copied.1, copied.2] at edited'
    exact edited'

end Rename

/-- After any run: a rename that the store has taken reaches another process with a copy of the file exactly if the file
was never published, there is room for both rows, and the file is not empty (or an empty file is there already). -/
theorem rename_reaches_iff (blank : enabled [] = false) (ops : List SpillOp) (renamer reader : ℕ)
    (others : reader ≠ renamer) (source target : List UInt8) (different : source ≠ target) (answers answers' : StoreAnswers)
    (reads : ∀ offset, answers'.read offset ≠ some 0) (first second : Answers) (shared : first.spillEnabledFor = enabled)
    (shared' : second.spillEnabledFor = enabled) (complete : first.Complete) (complete' : second.Complete) (w : World)
    (reached : w = run (World.step enabled) .new ops) (content : List UInt8)
    (own : (w.processes renamer).files source = some content) (had : (w.processes reader).files source ≠ none)
    (taken : RenameTaken enabled answers answers' source target w.store (World.renamed (w.processes renamer) source target)) (w' : World)
    (ran : w' = run (World.step enabled) w
      [.rename renamer source target answers answers', .refresh reader source first, .refresh reader target second]) :
    (w'.processes reader).files source = none ∧ (w'.processes reader).files target = some (w.store.fileContent source content) ↔
      w.store.find source = none ∧ w.store.RoomForBoth source target ∧
        (content ≠ [] ∨ (w.processes reader).files target = some []) := by
  have sound : w.Sound := reached ▸ World.sound_run enabled ops
  set process := World.renamed (w.processes renamer) source target with isProcess
  set after := (publishSpilledRename enabled answers answers' source target w.store process).1 with isAfter
  -- The rename does not touch the reader, and its refreshes do not touch the store.
  have final : w'.processes reader = ((w.processes reader).refresh first after source).refresh second after target := by
    simp only [ran, run_cons, run_nil, World.step, own, reduceCtorEq, if_false, World.withProcess, update_self,
      update_of_ne others]
    rfl
  rw [final]
  have kept : after.find source = none → (((w.processes reader).refresh first after source).refresh second after target).files source ≠ none := by
    intro forgotten
    rw [refresh_other different, refresh_absent fun _ => forgotten]
    exact had
  have moved : process.files target = some content := by
    rw [isProcess, World.renamed, if_neg different]
    simp [update_of_ne (Ne.symm different), own]
  have named : ∀ path, enabled path = true → path ≠ [] := by
    rintro _ isEnabled rfl
    rw [blank] at isEnabled
    cases isEnabled
  cases found : w.store.find source with
  | some i =>
    refine iff_of_false (fun reaches => ?_) fun never => by cases never.1
    by_cases forSource : enabled source = true
    · exact kept (rename_forgets sound different (named source forSource) found taken) reaches.1
    · rw [refresh_other different, refresh_absent fun isEnabled => absurd (shared ▸ isEnabled) forSource] at reaches
      exact had reaches.1
  | none =>
    obtain ⟨forSource, forTarget, i, j, length, bytes, middle, removed, replaced⟩ := rename_publishes found moved reads taken
    have unique := replaced.oneRowEach (removed.oneRowEach sound.unique)
    obtain ⟨claimed, claims⟩ := removed.claimed
    obtain ⟨claimed', claims'⟩ := replaced.claimed
    have spec := claim_claimed claims
    have ownMiddle : middle.slot i = ⟨.deleted, source, (w.store.slot i).generation + 1, length, bytes⟩ := removed.own
    have claimsSame : (claimed.claim target).map fst = some j := by
      have alike : ∀ k, (middle.slot k).state = (claimed.slot k).state ∧ (middle.slot k).path = (claimed.slot k).path := by
        intro k
        by_cases here : k = i
        · subst here
          rw [ownMiddle, claim_state found claims, (holds_iff.mp spec.holds).2]
          exact ⟨rfl, rfl⟩
        · rw [removed.others k here, spec.others k here]
          exact ⟨rfl, rfl⟩
      rw [← claim_congr (removed.size.trans spec.size.symm) alike target, claims']
      rfl
    have room : w.store.RoomForBoth source target ↔ j ≠ i := by
      constructor
      · intro both same
        exact both i claimed claims (same ▸ claimsSame)
      · intro apart k taken claims'' same
        rw [claims] at claims''
        cases claims''
        rw [claimsSame] at same
        exact apart (some.inj same)
    simp only [room, true_and, fileContent, found]
    by_cases same : j = i
    · refine iff_of_false (fun reaches => ?_) fun both => both.1 same
      subst same
      refine kept (find_eq_none_iff.mpr fun k => ?_) reaches.1
      by_cases here : k = j
      · subst here
        rw [replaced.own]
        simp [Slot.holds, Ne.symm different]
      · rw [replaced.others k here, removed.others k here]
        exact find_eq_none_iff.mp found k
    · have ownSource : after.slot i = ⟨.deleted, source, (w.store.slot i).generation + 1, length, bytes⟩ := by
        rw [replaced.others i (Ne.symm same), ownMiddle]
      have ownTarget : after.slot j = ⟨.live, target, (w.store.slot j).generation + 1, content.length, content⟩ := by
        rw [replaced.own, removed.others j same]
        rfl
      have foundSource : after.find source = some i :=
        find_of_holds unique (named source forSource) (by rw [ownSource]; simp [Slot.holds])
      have foundTarget : after.find target = some j :=
        find_of_holds unique (named target forTarget) (by rw [ownTarget]; simp [Slot.holds])
      obtain ⟨gone, seen⟩ := refresh_deleted complete (by rw [shared]; exact forSource) removed.short foundSource ownSource
        (lt_succ_of_le (sound.behind reader i))
      have behind : ((w.processes reader).refresh first after source).seen j < (w.store.slot j).generation + 1 := by
        rw [seen, update_of_ne same]
        exact lt_succ_of_le (sound.behind reader j)
      have arrives := refresh_live complete' (by rw [shared']; exact forTarget) replaced.short foundTarget ownTarget behind
      rw [refresh_other (Ne.symm different)] at arrives
      rw [refresh_other different, gone, arrives]
      simp [same]

/-! ## A file that was published -/

/-- Every call succeeds. -/
def StoreAnswers.succeeding : StoreAnswers where
  openReading := true
  read _ := some transferChunk
  spillWrite _ _ := .ok ()
  spillSetLen _ _ := true

def sharedPaths (path : List UInt8) : Bool := decide (path ≠ [])

/-- Everything but the empty path is shared. -/
def Answers.sharing : Answers := { perfect with spillEnabledFor := sharedPaths }

theorem Answers.sharing_complete : sharing.Complete := ⟨rfl, rfl, fun _ _ => rfl, fun _ _ _ some => some⟩

/-- Two processes with a copy of a file that neither has published. -/
def bothHave : List SpillOp := [.change 0 [47, 97] (some [1]), .change 1 [47, 97] (some [1])]

/-- A file that one process has published and the other has refreshed. -/
def bothShare : List SpillOp := [.publish 0 [47, 97] (some [1]) .replace .succeeding, .refresh 1 [47, 97] .sharing]

/-- A rename by the first process, and refreshes of both names by the second. -/
def renameAndRefresh : List SpillOp :=
  [.rename 0 [47, 97] [47, 98] .succeeding .succeeding, .refresh 1 [47, 97] .sharing, .refresh 1 [47, 98] .sharing]

theorem rename_reaches_iff_unpublished :
    ((run (World.step sharedPaths) .new (bothHave ++ renameAndRefresh)).processes 1).files [47, 97] = none ∧
      ((run (World.step sharedPaths) .new (bothHave ++ renameAndRefresh)).processes 1).files [47, 98] = some [1] := by
  have reads : ∀ offset, StoreAnswers.succeeding.read offset ≠ some 0 := fun _ => by simp [StoreAnswers.succeeding, transferChunk]
  have same : (run (World.step sharedPaths) .new bothHave).store.fileContent [47, 97] [1] = [1] := by decide +kernel
  have room : ((run (World.step sharedPaths) .new bothHave).store.claim [47, 97]).all fun claim =>
      decide ((claim.2.claim [47, 98]).map fst ≠ some claim.1) := by decide +kernel
  rw [run_append]
  have iff := rename_reaches_iff sharedPaths rfl bothHave 0 1 (by decide) [47, 97] [47, 98] (by decide) .succeeding .succeeding reads
    .sharing .sharing rfl rfl sharing_complete sharing_complete (run (World.step sharedPaths) .new bothHave) rfl [1]
    (by decide +kernel) (by decide +kernel) (.inr ⟨rfl, rfl, by decide +kernel, by decide +kernel, by decide +kernel⟩) _ rfl
  rw [same] at iff
  refine iff.mpr ⟨by decide +kernel, fun i taken claims taken' => ?_, .inl (by decide)⟩
  rw [claims] at room
  exact of_decide_eq_true room taken'

/-- A file that was published keeps its old name in the process that had a copy of it. -/
theorem renamed_file_stays :
    ((run (World.step sharedPaths) .new (bothShare ++ renameAndRefresh)).processes 1).files [47, 97] = some [1] ∧
      ((run (World.step sharedPaths) .new (bothShare ++ renameAndRefresh)).processes 1).files [47, 98] = some [1] := by
  refine ⟨?_, ?_⟩ <;> decide +kernel

end LiteBox.Spill
