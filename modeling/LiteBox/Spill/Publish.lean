import LiteBox.Spill.Refresh

/-! # Publishing a change to the shared store

`apply` claims a row for the path, changes the bytes that the platform keeps for the row, and then makes the
new length and generation visible. A row that was claimed is not given back when the bytes cannot be written.
-/

namespace LiteBox.Spill

open SharedFileSpill List

/-! ## Bytes of a row -/

/-- A write at an offset. Bytes that were skipped are zero. -/
def overwrite (content : List UInt8) (offset : ℕ) (bytes : List UInt8) : List UInt8 :=
  if bytes = [] then content
  else content.take offset ++ replicate (offset - content.length) 0 ++ bytes ++ content.drop (offset + bytes.length)

def setLength (content : List UInt8) (length : ℕ) : List UInt8 :=
  content.take length ++ replicate (length - content.length) 0

/-! ## Edits -/

inductive SpillEdit
  | write (start : ℕ) (bytes : List UInt8)
  | append (bytes : List UInt8) (localStart : ℕ)
  | truncate (length : ℕ)
  | reset
  | replace
  | remove
deriving DecidableEq

def SpillEdit.needsLocalCopy (slotWasLive : Bool) : SpillEdit → Bool
  | .replace => true
  | .remove => false
  | _ => !slotWasLive

structure AppliedEdit where
  (slot previousGeneration newGeneration : ℕ)
  localDiverged : Bool
deriving DecidableEq

/-- How the platform and the local file system answer. A write to the store succeeds, or fails after a number of
bytes; a read of the local file fails or is of at most a number of bytes. -/
structure StoreAnswers where
  openReading : Bool
  read : (offset : ℕ) → Option ℕ
  spillWrite : (slot offset : ℕ) → Except ℕ Unit
  spillSetLen : (slot length : ℕ) → Bool

section Copy

variable (answers : StoreAnswers) (slot : ℕ)

/-- The loop of `copier_of_local_file`: the length of the copy, if it is complete, and what the store has then. -/
def copyLoop (file : List UInt8) (offset : ℕ) (content : List UInt8) : Option ℕ × List UInt8 :=
  match answers.read offset with
  | none => (none, content)
  | some limit =>
    let bytes := (file.drop offset).take (min limit transferChunk)
    if _h : bytes = [] then (some offset, content)
    else
      match answers.spillWrite slot offset with
      | .error written => (none, overwrite content offset (bytes.take written))
      | .ok () => copyLoop file (offset + bytes.length) (overwrite content offset bytes)
termination_by file.length - offset
decreasing_by
  have some := length_pos_iff.mpr _h
  simp only [bytes, length_take, length_drop] at some ⊢
  omega

def copyLocalFile (file : Option (List UInt8)) (content : List UInt8) : Option ℕ × List UInt8 :=
  match file with
  | none => (none, content)
  | some file =>
    if !answers.openReading then (none, content)
    else if !answers.spillSetLen slot 0 then (none, content)
    else copyLoop answers slot file 0 []

/-- A write of the edit's bytes: the new length, if it succeeds, and what the store has then. -/
def writeRow (row : Slot) (offset : ℕ) (bytes : List UInt8) (length : ℕ) : Option ℕ × List UInt8 :=
  match answers.spillWrite slot offset with
  | .ok () => (some length, overwrite row.content offset bytes)
  | .error written => (none, overwrite row.content offset (bytes.take written))

def resizeRow (row : Slot) (length : ℕ) : Option ℕ × List UInt8 :=
  if answers.spillSetLen slot length then (some length, setLength row.content length) else (none, row.content)

/-- An edit of a row in place. -/
def SpillEdit.perform (row : Slot) : SpillEdit → Option ℕ × List UInt8
  | .write start bytes => writeRow answers slot row start bytes (max row.length (start + bytes.length))
  | .append bytes _ => writeRow answers slot row row.length bytes (row.length + bytes.length)
  | .truncate length => resizeRow answers slot row length
  | .reset | .remove | .replace => resizeRow answers slot row 0

/-- The change of the bytes: the new length of the row, if it succeeds, and what the store has then. -/
def SpillEdit.attempt (edit : SpillEdit) (row : Slot) (file : Option (List UInt8)) : Option ℕ × List UInt8 :=
  if edit.needsLocalCopy (decide (row.state = .live)) then copyLocalFile answers slot file row.content
  else edit.perform answers slot row

end Copy

/-- An append that the store has put somewhere else than the local file. -/
def SpillEdit.diverges (row : Slot) : SpillEdit → Bool
  | .append _ localStart => decide (row.state = .live) && decide (localStart ≠ row.length)
  | _ => false

def Slot.new : Slot := ⟨.empty, [], 0, 0, []⟩

def slotCount : ℕ := 1024

variable (store : SharedFileSpill)

namespace SharedFileSpill

def new : SharedFileSpill := ⟨replicate slotCount .new⟩

def slot (index : ℕ) : Slot := (store.slots[index]?).getD .new

def modify (index : ℕ) (change : Slot → Slot) : SharedFileSpill := ⟨store.slots.modify index change⟩

/-- What the rows have stays as it is, except for the bytes of one. -/
def withContent (index : ℕ) (content : List UInt8) : SharedFileSpill :=
  store.modify index fun slot => { slot with content }

def reusable (wanted : SlotState) : Option ℕ := store.slots.findIdx? fun slot => decide (slot.state = wanted)

/-- The row for a path, and the store once it is claimed. -/
def claim (path : List UInt8) : Option (ℕ × SharedFileSpill) :=
  match store.find path with
  | some index => some (index, store)
  | none => ((store.reusable .empty).or (store.reusable .deleted)).map fun index =>
      (index, store.modify index fun slot => { slot with state := .deleted, path, length := 0 })

def apply (answers : StoreAnswers) (store : SharedFileSpill) (path : List UInt8) (edit : SpillEdit) (file : Option (List UInt8)) :
    Option AppliedEdit × SharedFileSpill :=
  if path.length > pathCapacity then (none, store)
  else
    match store.claim path with
    | none => (none, store)
    | some (index, store) =>
      let row := store.slot index
      let (done, content) := edit.attempt answers index row file
      match done with
      | none => (none, store.withContent index content)
      | some length =>
        (some ⟨index, row.generation, row.generation + 1, edit.diverges row⟩, store.modify index fun slot =>
          { slot with
            length
            generation := row.generation + 1
            state := if edit = .remove then .deleted else .live
            content })

end SharedFileSpill

/-! ## What a failed change leaves -/

/-- No process gets another view of any path, nor is there another outcome of any refresh. -/
def Unseen (before after : SharedFileSpill) : Prop :=
  ∀ path, after.view path = before.view path ∧
    ∀ answers s, refreshFromSpill answers after path s = refreshFromSpill answers before path s

/-- However the bytes of a live row come to be written in part, those that can be seen are as they were. -/
def SpillEdit.Spares (row : Slot) (file : Option (List UInt8)) : SpillEdit → Prop
  | .write start bytes => (overwrite row.content start bytes).take row.length = row.content.take row.length
  | .append bytes _ => (overwrite row.content row.length bytes).take row.length = row.content.take row.length
  | .replace => file = none ∨ row.length = 0 ∨ (row.content = [] ∧ file = some [])
  | .truncate _ | .reset | .remove => True

/-- The path is too long, or there is no row for it and none can be claimed, or its row is deleted or spared. -/
def SharedFileSpill.Undisturbed (path : List UInt8) (edit : SpillEdit) (file : Option (List UInt8)) : Prop :=
  path.length > pathCapacity ∨
    match store.find path with
    | none => ∀ slot ∈ store.slots, slot.state = .live
    | some index => (store.slot index).state = .deleted ∨ edit.Spares (store.slot index) file

/-! ### Bytes -/

variable {content bytes : List UInt8} {offset : ℕ}

theorem getElem?_overwrite (some : bytes ≠ []) (i : ℕ) :
    (overwrite content offset bytes)[i]? =
      if i < offset then if i < content.length then content[i]? else Option.some 0
      else if i < offset + bytes.length then bytes[i - offset]? else content[i]? := by
  rw [overwrite, if_neg some]
  simp only [getElem?_append, length_append, length_take, length_replicate, getElem?_take, getElem?_replicate, getElem?_drop]
  have filled : min offset content.length + (offset - content.length) = offset := by omega
  rw [filled]
  by_cases before : i < offset
  · have front : i < offset + bytes.length := by omega
    rw [if_pos front, if_pos before, if_pos before]
    by_cases inside : i < content.length
    · rw [if_pos (by omega), if_pos inside]
      simp [before]
    · rw [if_neg (by omega), if_neg inside, if_pos (by omega), if_pos before]
  · by_cases inBytes : i < offset + bytes.length
    · rw [if_pos inBytes, if_neg before, if_neg before, if_pos inBytes]
    · rw [if_neg inBytes, if_neg before, if_neg inBytes]
      congr 1
      omega

variable {length : ℕ}

/-- If writing all the bytes cannot be seen, neither can writing a part of them. -/
theorem take_overwrite_of_prefix
    (unseen : (overwrite content offset bytes).take length = content.take length) (written : ℕ) :
    (overwrite content offset (bytes.take written)).take length = content.take length := by
  by_cases nothing : bytes.take written = []
  · rw [overwrite, if_pos nothing]
  have some : bytes ≠ [] := by
    rintro rfl
    exact nothing take_nil
  refine ext_getElem? fun i => ?_
  have here := congrArg (·[i]?) unseen
  simp only [getElem?_take] at here ⊢
  by_cases visible : i < length
  · rw [if_pos visible, if_pos visible] at here ⊢
    rw [getElem?_overwrite some] at here
    rw [getElem?_overwrite nothing, length_take]
    by_cases before : i < offset
    · rw [if_pos before] at here ⊢
      exact here
    · rw [if_neg before] at here ⊢
      by_cases inPart : i < offset + min written bytes.length
      · rw [if_pos (by omega)] at here
        rw [if_pos inPart, getElem?_take, if_pos (by omega)]
        exact here
      · rw [if_neg inPart]
  · rw [if_neg visible, if_neg visible]

/-- Only the visible bytes are installed. -/
theorem chunk_take (answers : Answers) (slot : ℕ) (content : List UInt8) (length offset : ℕ) :
    chunk answers slot (content.take length) length offset = chunk answers slot content length offset := by
  have few := (answers.spillReadAt_le slot offset (wanted length offset)).trans (min_le_right _ _)
  rw [chunk, chunk, drop_take, take_take, min_eq_left few]

theorem installLoop_take (answers : Answers) (slot : ℕ) (content : List UInt8) (length : ℕ) (s : Copying) :
    installLoop answers slot (content.take length) length s = installLoop answers slot content length s := by
  fun_induction installLoop answers slot content length s with
  | case1 s more bytes none => rw [installLoop, dif_pos more, dif_pos (by rw [chunk_take]; exact none)]
  | case2 s more bytes some refused => rw [installLoop, dif_pos more, dif_neg (by rw [chunk_take]; exact some), if_pos refused]
  | case3 s more bytes some opened file failed =>
    rw [installLoop, dif_pos more, dif_neg (by rw [chunk_take]; exact some), if_neg opened]
    simp only [chunk_take]
    rw [failed]
    rfl
  | case4 s more bytes some opened file accepted written ih =>
    rw [installLoop, dif_pos more, dif_neg (by rw [chunk_take]; exact some), if_neg opened]
    simp only [chunk_take]
    rw [written]
    exact ih
  | case5 s done => rw [installLoop, dif_neg done]

/-- Everything succeeds, and reads and writes are as long as they can be. -/
def Answers.perfect : Answers := { shortReads with
  spillReadAt _ _ wanted := wanted
  spillReadAt_le _ _ _ := le_rfl }

theorem perfect_write (offset : ℕ) (bytes : List UInt8) : Answers.perfect.write offset bytes = some bytes.length := rfl

theorem perfect_openTruncating : Answers.perfect.openTruncating = true := rfl

/-- A read comes back empty only at the end. -/
theorem length_le_of_chunk_perfect {slot : ℕ} (more : offset < length)
    (none : chunk .perfect slot content length offset = []) : content.length ≤ offset := by
  have size := congrArg List.length none
  simp only [chunk, Answers.perfect, wanted, transferChunk, length_take, length_drop, length_nil] at size
  omega

theorem installLoop_perfect (slot : ℕ) (content : List UInt8) (length offset : ℕ) :
    (installLoop .perfect slot content length ⟨offset, true, some (content.take offset)⟩).file = some (content.take (max offset length)) := by
  induction remaining : length - offset using Nat.strong_induction_on generalizing offset with
  | _ remaining ih =>
    subst remaining
    rw [installLoop]
    by_cases more : offset < length
    · simp only [more, dif_pos]
      by_cases none : chunk .perfect slot content length offset = []
      · have short := length_le_of_chunk_perfect more none
        simp only [none, dif_pos]
        rw [take_of_length_le short, take_of_length_le (short.trans (le_max_left _ _))]
      · have some := length_pos_iff.mpr none
        simp only [none, dif_neg, not_false_eq_true, Bool.not_true, Bool.false_and, Bool.false_eq_true, if_false, if_true,
          perfect_write, Option.map_some, take_length]
        have fits := @chunk_length_le .perfect slot content length offset
        rw [← take_add_chunk, ih _ (by omega) _ rfl]
        congr 2
        omega
    · rw [dif_neg more, max_eq_left (not_lt.mp more)]

theorem installSpilledContent_perfect (slot : ℕ) (content : List UInt8) (length : ℕ) :
    (installSpilledContent .perfect slot content length none).file =
      if content.take length = [] then none else some (content.take length) := by
  rw [installSpilledContent, installLoop]
  by_cases more : 0 < length
  · simp only [more, dif_pos]
    by_cases none : chunk .perfect slot content length 0 = []
    · have empty : content = [] := length_eq_zero_iff.mp (Nat.le_zero.mp (length_le_of_chunk_perfect more none))
      subst empty
      simp [none]
    · have some := length_pos_iff.mpr none
      have fits := @chunk_length_le .perfect slot content length 0
      have front := @take_add_chunk .perfect slot content length 0
      rw [Nat.zero_add, take_zero, nil_append] at front
      have nonempty : content.take length ≠ [] := by
        rintro empty
        rw [← chunk_take, empty] at none
        exact none (by simp [chunk])
      simp only [none, dif_neg, not_false_eq_true, perfect_openTruncating, Bool.not_true, Bool.and_false, Bool.false_eq_true, if_false,
        perfect_write, Option.map_some, take_length, Nat.zero_add, nil_append, nonempty]
      have rest := installLoop_perfect slot content length (chunk .perfect slot content length 0).length
      rw [front, max_eq_right (by omega)] at rest
      exact rest
  · simp [Nat.eq_zero_of_not_pos more]

/-! ### Rows -/

theorem findIdx?_modify {α : Type} {test : α → Bool} {change : α → α} {items : List α} {i : ℕ}
    (same : ∀ x, items[i]? = some x → test (change x) = test x) : (items.modify i change).findIdx? test = items.findIdx? test := by
  induction items generalizing i with
  | nil => cases i <;> rfl
  | cons first rest ih =>
    cases i with
    | zero => simp [List.modify, List.findIdx?_cons, same first rfl]
    | succ i => simp [findIdx?_cons, @ih i same]

namespace SharedFileSpill

variable {store : SharedFileSpill} {path : List UInt8} {index : ℕ}

theorem find_withContent (index : ℕ) (content path : List UInt8) :
    (store.withContent index content).find path = store.find path := by
  simp only [find, withContent, modify]
  exact findIdx?_modify fun slot _ => rfl

theorem view_withContent (index : ℕ) (content path : List UInt8) :
    (store.withContent index content).view path = store.view path := by
  rw [view, view, find_withContent]
  split
  · rfl
  cases store.find path with
  | none => rfl
  | some found =>
    simp only [Option.bind_eq_bind, Option.bind_some, withContent, modify, getElem?_modify]
    cases store.slots[found]? with
    | none => rfl
    | some row =>
      simp only [Option.map_eq_map, Option.map_some, Option.bind_some]
      split <;> rfl

/-- A row that was found is not empty and has the path. -/
theorem find_eq_some {row : Slot} (found : store.find path = some index) (there : store.slots[index]? = some row) :
    row.state ≠ .empty ∧ row.path = path := by
  obtain ⟨inside, holds, -⟩ := findIdx?_eq_some_iff_getElem.mp found
  obtain ⟨_, rfl⟩ := List.getElem?_eq_some_iff.mp there
  simpa [Slot.holds] using holds

theorem exists_of_find (found : store.find path = some index) : ∃ row, store.slots[index]? = some row := by
  obtain ⟨inside, -, -⟩ := findIdx?_eq_some_iff_getElem.mp found
  exact ⟨_, getElem?_eq_getElem inside⟩

theorem view_of_find {row : Slot} (short : path.length ≤ pathCapacity) (found : store.find path = some index)
    (there : store.slots[index]? = some row) :
    store.view path = some ⟨index, row.generation, row.length, decide (row.state = .deleted)⟩ := by
  simp [view, not_lt.mpr short, found, there]

theorem view_eq_some {view : SpillView} (seen : store.view path = some view) :
    ∃ row, path.length ≤ pathCapacity ∧ store.find path = some view.slot ∧ store.slots[view.slot]? = some row ∧
      view = ⟨view.slot, row.generation, row.length, decide (row.state = .deleted)⟩ := by
  simp only [SharedFileSpill.view] at seen
  split at seen
  · cases seen
  · next short =>
    obtain ⟨index, found, seen⟩ := Option.bind_eq_some_iff.mp seen
    obtain ⟨row, there, seen⟩ := Option.bind_eq_some_iff.mp seen
    cases seen
    exact ⟨row, not_lt.mp short, found, there, rfl⟩

theorem content_withContent {row : Slot} (there : store.slots[index]? = some row) (content : List UInt8) (j : ℕ) :
    (store.withContent index content).content j = if j = index then content else store.content j := by
  simp only [SharedFileSpill.content, withContent, modify, getElem?_modify]
  by_cases here : j = index
  · subst here
    simp [there]
  · simp [here, Ne.symm here]

/-- Changing the bytes of a row cannot be seen just when the row is deleted or the visible ones stay. -/
theorem unseen_withContent_iff {row : Slot} (short : path.length ≤ pathCapacity) (found : store.find path = some index)
    (there : store.slots[index]? = some row) (content : List UInt8) :
    Unseen store (store.withContent index content) ↔ row.state = .deleted ∨ content.take row.length = row.content.take row.length := by
  have before : store.content index = row.content := by simp [SharedFileSpill.content, there]
  constructor
  · intro unseen
    refine or_iff_not_imp_left.mpr fun live => ?_
    have same := congrArg LocalCopy.file ((unseen path).2 .perfect ⟨none, fun _ => row.generation + 1⟩)
    have behind : row.generation + 1 ≠ row.generation := by omega
    have enabled : Answers.perfect.spillEnabledFor path = true := rfl
    simp only [refreshFromSpill, enabled, Bool.not_true, Bool.false_eq_true, if_false, view_withContent,
      view_of_find short found there, behind, live, decide_false, content_withContent there, if_true, before,
      installSpilledContent_perfect] at same
    split at same <;> split at same
    · next empty nothing => rw [empty, nothing]
    · cases same
    · cases same
    · exact Option.some.inj same
  · intro spared other
    refine ⟨view_withContent .., fun answers s => ?_⟩
    simp only [refreshFromSpill, view_withContent]
    cases seen : store.view other with
    | none => rfl
    | some view =>
      obtain ⟨row', -, -, there', eq⟩ := view_eq_some seen
      simp only [content_withContent there]
      by_cases here : view.slot = index
      · rw [here, there] at there'
        cases there'
        rw [eq]
        simp only [here, if_true, before]
        obtain deleted | same := spared
        · simp [deleted]
        · have installs : installSpilledContent answers index content row.length s.file =
              installSpilledContent answers index row.content row.length s.file := by
            rw [installSpilledContent, installSpilledContent, ← installLoop_take, same, installLoop_take]
          rw [installs]
      · simp [here]

theorem claim_of_find (found : store.find path = some index) : store.claim path = some (index, store) := by
  rw [claim, found]

theorem slot_eq {row : Slot} (there : store.slots[index]? = some row) : store.slot index = row := by
  rw [slot, there, Option.getD_some]

/-- A change of a row that fails leaves other bytes at most. -/
theorem apply_of_find {answers : StoreAnswers} {edit : SpillEdit} {file : Option (List UInt8)} {row : Slot}
    (short : path.length ≤ pathCapacity) (found : store.find path = some index) (there : store.slots[index]? = some row) :
    ((apply answers store path edit file).1 = none ↔ (edit.attempt answers index row file).1 = none) ∧
      ((edit.attempt answers index row file).1 = none →
        (apply answers store path edit file).2 = store.withContent index (edit.attempt answers index row file).2) := by
  simp only [apply, not_lt.mpr short, if_false, claim_of_find found, slot_eq there]
  rcases edit.attempt answers index row file with ⟨_ | length, content⟩ <;> simp

/-! ### Claiming -/

theorem reusable_eq_none : (store.reusable .empty).or
    (store.reusable .deleted) = none ↔ ∀ slot ∈ store.slots, slot.state = .live := by
  simp only [reusable, Option.or_eq_none_iff, findIdx?_eq_none_iff, decide_eq_false_iff_not]
  constructor
  · rintro ⟨filled, kept⟩ slot member
    cases state : slot.state with
    | empty => exact absurd state (filled slot member)
    | live => rfl
    | deleted => exact absurd state (kept slot member)
  · intro live
    refine ⟨fun slot member => ?_, fun slot member => ?_⟩ <;> simp [live slot member]

/-- A row that was claimed for a path can be found under it. -/
theorem view_of_claim {claimed : SharedFileSpill} (short : path.length ≤ pathCapacity) (absent : store.find path = none)
    (claim : store.claim path = some (index, claimed)) (content : List UInt8) : (claimed.withContent index content).view path ≠ none := by
  rw [view_withContent]
  rw [SharedFileSpill.claim, absent] at claim
  obtain ⟨found, reused, same⟩ := Option.map_eq_some_iff.mp claim
  cases same
  have inside : index < store.slots.length := by
    rcases Option.or_eq_some_iff.mp reused with reused | ⟨-, reused⟩ <;>
      exact (findIdx?_eq_some_iff_getElem.mp reused).1
  have some : ((store.modify index fun slot => { slot with state := .deleted, path, length := 0 }).find path).isSome = true := by
    rw [find, findIdx?_isSome, any_eq_true]
    refine ⟨{ store.slots[index] with state := .deleted, path, length := 0 }, ?_, by simp [Slot.holds]⟩
    refine mem_of_getElem? (i := index) ?_
    rw [modify, getElem?_modify_eq, getElem?_eq_getElem inside]
    rfl
  obtain ⟨found, holds⟩ := Option.isSome_iff_exists.mp some
  obtain ⟨row, there⟩ := exists_of_find holds
  rw [view_of_find short holds there]
  exact nofun

end SharedFileSpill

/-! ### Failing -/

/-- Nothing succeeds, and nothing is written. -/
def StoreAnswers.refusing : StoreAnswers where
  openReading := false
  read _ := none
  spillWrite _ _ := .error 0
  spillSetLen _ _ := false

theorem attempt_refusing (edit : SpillEdit) (slot : ℕ) (row : Slot) (file : Option (List UInt8)) :
    (edit.attempt .refusing slot row file).1 = none := by
  rw [SpillEdit.attempt]
  split
  · cases file <;> rfl
  · cases edit <;> rfl

/-- The store's writes fail after a number of bytes. -/
def StoreAnswers.failing (readable : Bool) (written : ℕ) : StoreAnswers where
  openReading := true
  read _ := if readable then some transferChunk else none
  spillWrite _ _ := .error written
  spillSetLen _ _ := true

theorem copyLoop_nil (answers : StoreAnswers) (slot offset : ℕ) (content : List UInt8) :
    (copyLoop answers slot [] offset content).2 = content := by
  rw [copyLoop]
  cases answers.read offset <;> simp

theorem overwrite_nil (bytes : List UInt8) : overwrite [] 0 bytes = bytes := by
  rw [overwrite]
  split
  · next empty => rw [empty]
  · simp

section Live

variable {row : Slot} {index : ℕ}

theorem writeRow_spares_iff :
    (∀ answers, (writeRow answers index row offset bytes length).1 = none →
        (writeRow answers index row offset bytes length).2.take row.length = row.content.take row.length) ↔
      (overwrite row.content offset bytes).take row.length = row.content.take row.length := by
  constructor
  · intro spared
    have whole := spared (.failing true bytes.length) rfl
    simp only [writeRow, StoreAnswers.failing, take_length] at whole
    exact whole
  · intro unseen answers failed
    simp only [writeRow] at failed ⊢
    cases answer : answers.spillWrite index offset with
    | ok _ =>
      rw [answer] at failed
      cases failed
    | error written => exact take_overwrite_of_prefix unseen written

theorem copyLocalFile_spares_iff {file : Option (List UInt8)} :
    (∀ answers, (copyLocalFile answers index file row.content).1 = none →
        (copyLocalFile answers index file row.content).2.take row.length = row.content.take row.length) ↔
      file = none ∨ row.length = 0 ∨ (row.content = [] ∧ file = some []) := by
  cases file with
  | none => simp [copyLocalFile]
  | some file =>
    simp only [reduceCtorEq, false_or, Option.some.injEq]
    constructor
    · intro spared
      -- The copy can fail right after the row was emptied, and behind its first bytes.
      have emptied := spared (.failing false 0) (by simp [copyLocalFile, StoreAnswers.failing, copyLoop])
      have begun := spared (.failing true file.length)
      simp only [copyLocalFile, StoreAnswers.failing, Bool.not_true, Bool.false_eq_true, if_false, if_true] at emptied begun
      rw [copyLoop] at emptied begun
      simp only [take_nil] at emptied
      obtain none | empty := take_eq_nil_iff.mp emptied.symm
      · exact .inl none
      refine or_iff_not_imp_left.mpr fun some => ⟨empty, ?_⟩
      by_contra nonempty
      have first : file.take transferChunk ≠ [] := fun nothing =>
        (take_eq_nil_iff.mp nothing).elim (by simp [transferChunk]) nonempty
      simp only [drop_zero, min_self, first, dif_neg, not_false_eq_true, overwrite_nil, empty, take_nil,
        forall_const, take_take] at begun
      obtain none | nothing := take_eq_nil_iff.mp begun
      · have size := length_pos_iff.mpr nonempty
        simp only [transferChunk] at none
        omega
      · exact nonempty nothing
    · rintro (none | ⟨empty, rfl⟩) answers failed
      · simp [none]
      · simp only [copyLocalFile]
        split
        · rfl
        split
        · rfl
        · rw [copyLoop_nil, empty]

theorem attempt_spares_iff (live : row.state = .live) (edit : SpillEdit) (file : Option (List UInt8)) :
    (∀ answers, (edit.attempt answers index row file).1 = none →
        (edit.attempt answers index row file).2.take row.length = row.content.take row.length) ↔ edit.Spares row file := by
  have resized : ∀ length answers, (resizeRow answers index row length).1 = none →
      (resizeRow answers index row length).2.take row.length = row.content.take row.length := by
    intro length answers failed
    simp only [resizeRow] at failed ⊢
    split at failed
    · cases failed
    · next refused => rw [if_neg refused]
  cases edit with
  | write | append => simpa [SpillEdit.attempt, SpillEdit.needsLocalCopy, live, SpillEdit.perform, SpillEdit.Spares] using writeRow_spares_iff
  | truncate length => simpa [SpillEdit.attempt, SpillEdit.needsLocalCopy, live, SpillEdit.perform, SpillEdit.Spares] using resized length
  | reset => simpa [SpillEdit.attempt, SpillEdit.needsLocalCopy, live, SpillEdit.perform, SpillEdit.Spares] using resized 0
  | replace => simpa [SpillEdit.attempt, SpillEdit.needsLocalCopy, SpillEdit.Spares] using copyLocalFile_spares_iff
  | remove => simpa [SpillEdit.attempt, SpillEdit.needsLocalCopy, SpillEdit.perform, SpillEdit.Spares] using resized 0

end Live

/-- However the platform answers, a failed publish changes nothing that a process can see: exactly if no row has to be
claimed for it, and the visible bytes of a live row cannot be changed by a part of it. -/
theorem failed_publish_unseen_iff (path : List UInt8) (edit : SpillEdit) (file : Option (List UInt8)) :
    (∀ answers, (store.apply answers path edit file).1 = none → Unseen store (store.apply answers path edit file).2) ↔
      store.Undisturbed path edit file := by
  have same : Unseen store store := fun _ => ⟨rfl, fun _ _ => rfl⟩
  rw [SharedFileSpill.Undisturbed]
  by_cases long : path.length > pathCapacity
  · simp [apply, long, same]
  have short : path.length ≤ pathCapacity := not_lt.mp long
  simp only [long, false_or]
  cases found : store.find path with
  | some index =>
    obtain ⟨row, there⟩ := exists_of_find found
    have state := (find_eq_some found there).1
    have each (answers : StoreAnswers) := @apply_of_find store path index answers edit file row short found there
    simp only [slot_eq there]
    have reduced : (∀ answers, (store.apply answers path edit file).1 = none → Unseen store (store.apply answers path edit file).2) ↔
        ∀ answers, (edit.attempt answers index row file).1 = none →
          row.state = .deleted ∨ (edit.attempt answers index row file).2.take row.length = row.content.take row.length := by
      refine forall_congr' fun answers => ?_
      rw [(each answers).1]
      refine imp_congr_right fun failed => ?_
      rw [(each answers).2 failed, unseen_withContent_iff short found there]
    rw [reduced]
    by_cases deleted : row.state = .deleted
    · simp [deleted]
    · have live : row.state = .live := by
        cases isState : row.state with
        | empty => exact absurd isState state
        | live => rfl
        | deleted => exact absurd isState deleted
      simp only [deleted, false_or]
      exact attempt_spares_iff live edit file
  | none =>
    simp only
    rw [← reusable_eq_none]
    cases claimed : store.claim path with
    | none =>
      have full : (store.reusable .empty).or (store.reusable .deleted) = none := by
        simpa [claim, found] using claimed
      simp [apply, long, claimed, full, same]
    | some claim =>
      obtain ⟨index, taken⟩ := claim
      refine iff_of_false (fun unseen => ?_) fun full => ?_
      · have ended : store.apply .refusing path edit file =
            (none, taken.withContent index (edit.attempt .refusing index (taken.slot index) file).2) := by
          have refused := attempt_refusing edit index (taken.slot index) file
          simp only [apply, long, if_false, claimed]
          rcases ran : edit.attempt .refusing index (taken.slot index) file with ⟨done, content⟩
          rw [ran] at refused
          subst refused
          rfl
        have seen := (unseen .refusing (by rw [ended]) path).1
        rw [ended] at seen
        refine view_of_claim short found claimed _ (seen.trans ?_)
        simp [view, found]
      · simp [claim, found, full] at claimed

/-! ## Failures that are seen -/

/-- A store with one file. -/
def published (content : List UInt8) : SharedFileSpill :=
  ⟨⟨.live, [47, 97], 1, content.length, content⟩ :: replicate (slotCount - 1) .new⟩

/-- After a failed publish of a new file the store says that it was deleted; and after a failed replacement another
process installs the bytes that were copied before the failure. -/
theorem failed_publish_seen :
    (new.view [47, 97] = none ∧
      (new.apply .refusing [47, 97] .reset (some [1])).1 = none ∧
      (new.apply .refusing [47, 97] .reset (some [1])).2.view [47, 97] = some ⟨0, 0, 0, true⟩) ∧
      ((published [1, 2, 3]).apply (.failing true 2) [47, 97] .replace (some [7, 8, 9])).1 = none ∧
      (refreshFromSpill .perfect (published [1, 2, 3]) [47, 97] ⟨some [1], fun _ => 0⟩).file = some [1, 2, 3] ∧
      (refreshFromSpill .perfect ((published [1, 2, 3]).apply (.failing true 2) [47, 97] .replace (some [7, 8, 9])).2 [47, 97]
        ⟨some [1], fun _ => 0⟩).file = some [7, 8] := by
  refine ⟨⟨?_, ?_, ?_⟩, ?_, ?_, ?_⟩ <;> decide +kernel

end LiteBox.Spill
