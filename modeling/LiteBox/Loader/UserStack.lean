import LiteBox.Lib.Bytes
import LiteBox.Lib.Memory

/-! # The initial stack of a process

The stack is filled downwards, from the end of its memory. `push_aux` writes the auxiliary vector onto it
and returns a serialization of the same vector for `/proc/[pid]/auxv`.
-/

namespace LiteBox.Loader

open List Bytes Memory Option

/-! ## The auxiliary vector -/

inductive AuxKey
  | atNull | atIgnore | atExecfd | atPhdr | atPhent | atPhnum | atPagesz | atBase | atFlags | atEntry | atNotelf
  | atUid | atEuid | atGid | atEgid | atPlatform | atHwcap | atClktck | atSecure | atBasePlatform | atRandom
  | atHwcap2 | atExecfn | atSysinfo | atSysinfoEhdr
deriving DecidableEq

namespace AuxKey

def number : AuxKey → ℕ
  | atNull => 0
  | atIgnore => 1
  | atExecfd => 2
  | atPhdr => 3
  | atPhent => 4
  | atPhnum => 5
  | atPagesz => 6
  | atBase => 7
  | atFlags => 8
  | atEntry => 9
  | atNotelf => 10
  | atUid => 11
  | atEuid => 12
  | atGid => 13
  | atEgid => 14
  | atPlatform => 15
  | atHwcap => 16
  | atClktck => 17
  | atSecure => 23
  | atBasePlatform => 24
  | atRandom => 25
  | atHwcap2 => 26
  | atExecfn => 31
  | atSysinfo => 32
  | atSysinfoEhdr => 33

theorem number_lt (key : AuxKey) : key.number < 2 ^ 64 := by cases key <;> decide

end AuxKey

/-- The entries of a map, in the order of their keys. -/
structure AuxVec where
  entries : List (AuxKey × UInt64)
  ordered : entries.Pairwise fun first second => first.1.number < second.1.number

/-! ## The stack -/

def isizeMax : ℕ := 2 ^ 63 - 1

/-- A stack whose memory lies in the address space. -/
structure UserStack where
  (stackTop len pos : ℕ)
  inside : pos ≤ len
  fits : stackTop + len ≤ 2 ^ 64

/-- The stack and the memory it is in. -/
structure StackState where
  stack : UserStack
  memory : Memory

variable (writable : ℕ → ℕ → Bool)

namespace UserStack

def stackAlignment : ℕ := 16

def new (stackTop len : ℕ) (fits : stackTop + len ≤ 2 ^ 64) : Option UserStack :=
  if ¬stackAlignment ∣ stackTop then none
  else if ¬stackAlignment ∣ len then none
  else some ⟨stackTop, len, len, le_rfl, fits⟩

def getCurStackTop (stack : UserStack) : ℕ := stack.stackTop + stack.pos

/-- Moves the position down, if there is room. -/
def lower (stack : UserStack) (count : ℕ) : Option UserStack :=
  if count ≤ stack.pos then some { stack with pos := stack.pos - count, inside := (Nat.sub_le _ _).trans stack.inside } else none

/-- Writes bytes to memory, if it is accessible there. -/
def copyFromSlice (memory : Memory) (address : ℕ) (bytes : List UInt8) : Option Memory :=
  if bytes = [] ∨ writable address bytes.length then some (memory.store address bytes) else none

def pushBytes (bytes : List UInt8) (s : StackState) : Option StackState := do
  if s.stack.pos > isizeMax then none
  else
    let stack ← s.stack.lower bytes.length
    let memory ← copyFromSlice writable s.memory stack.getCurStackTop bytes
    pure ⟨stack, memory⟩

def pushUsize (value : ℕ) (s : StackState) : Option StackState :=
  pushBytes writable (leBytes 8 value) s

/-- The bytes of one entry, the key below the value. -/
def auxBytes (entry : AuxKey × UInt64) : List UInt8 := leBytes 8 entry.1.number ++ leBytes 8 entry.2.toNat

def auxNull : AuxKey × UInt64 := (.atNull, 0)

def pushAuxEntry (s : StackState) (entry : AuxKey × UInt64) : Option StackState := do
  let s ← pushUsize writable entry.2.toNat s
  pushUsize writable entry.1.number s

/-- Puts the vector on the stack, and returns it as the contents of a file. -/
def pushAux (aux : AuxVec) (s : StackState) : Option (List UInt8 × StackState) := do
  let serialized := aux.entries.flatMap auxBytes ++ auxBytes auxNull
  let s ← pushAuxEntry writable s auxNull
  let s ← aux.entries.foldlM (pushAuxEntry writable) s
  pure (serialized, s)

end UserStack

/-! ## What a push leaves on the stack -/

/-- From `s` to `t`, `bytes` were put on the stack, and nothing above was changed. -/
structure Pushed (s t : StackState) (bytes : List UInt8) : Prop where
  top : t.stack.stackTop = s.stack.stackTop
  pos : t.stack.pos + bytes.length = s.stack.pos
  loaded : t.memory.load t.stack.getCurStackTop bytes.length = bytes
  above : ∀ a, s.stack.getCurStackTop ≤ a → t.memory a = s.memory a

namespace Pushed

variable {s t u : StackState} {bytes more : List UInt8} {writable : ℕ → ℕ → Bool}

theorem refl (s : StackState) : Pushed s s [] := ⟨rfl, rfl, rfl, fun _ _ => rfl⟩

/-- What is pushed later lies below what was pushed before. -/
theorem trans (first : Pushed s t bytes) (second : Pushed t u more) : Pushed s u (more ++ bytes) := by
  have firstPos := first.pos
  have secondPos := second.pos
  have between : u.stack.getCurStackTop + more.length = t.stack.getCurStackTop := by
    simp only [UserStack.getCurStackTop, second.top]
    omega
  have below : t.stack.getCurStackTop ≤ s.stack.getCurStackTop := by
    simp only [UserStack.getCurStackTop, first.top]
    omega
  refine ⟨second.top.trans first.top, by rw [length_append]; omega, ?_, fun a high => ?_⟩
  · rw [length_append, load_add, second.loaded, between]
    congr 1
    exact (load_congr fun a low _ => second.above a low).trans first.loaded
  · rw [second.above a (below.trans high), first.above a high]

theorem of_pushBytes (ran : UserStack.pushBytes writable bytes s = some t) : Pushed s t bytes := by
  simp only [UserStack.pushBytes] at ran
  split at ran
  · cases ran
  obtain ⟨stack, lowered, ran⟩ := bind_eq_some_iff.mp ran
  obtain ⟨memory, copied, done⟩ := bind_eq_some_iff.mp ran
  cases done
  simp only [UserStack.lower] at lowered
  split at lowered
  · next room =>
    cases lowered
    simp only [UserStack.copyFromSlice] at copied
    split at copied
    · cases copied
      refine ⟨rfl, Nat.sub_add_cancel room, load_store _ _ _, fun a high => store_outside (.inr ?_)⟩
      simp only [UserStack.getCurStackTop] at high ⊢
      omega
    · cases copied
  · cases lowered

theorem of_pushAuxEntry {entry : AuxKey × UInt64} (ran : UserStack.pushAuxEntry writable s entry = some t) :
    Pushed s t (UserStack.auxBytes entry) := by
  obtain ⟨between, value, key⟩ := bind_eq_some_iff.mp ran
  exact (of_pushBytes value).trans (of_pushBytes key)

/-- The entries lie on the stack in the reverse of the order in which they were pushed. -/
theorem of_entries {entries : List (AuxKey × UInt64)} (ran : entries.foldlM (UserStack.pushAuxEntry writable) s = some t) :
    Pushed s t (entries.reverse.flatMap UserStack.auxBytes) := by
  induction entries generalizing s with
  | nil =>
    cases ran
    exact refl _
  | cons entry rest ih =>
    obtain ⟨between, first, later⟩ := bind_eq_some_iff.mp ran
    have both := (of_pushAuxEntry first).trans (ih later)
    rwa [reverse_cons, flatMap_append, flatMap_singleton]

end Pushed

/-! ## The serialization -/

theorem auxBytes_length (entry : AuxKey × UInt64) : (UserStack.auxBytes entry).length = 16 := by
  simp [UserStack.auxBytes]

theorem key_of_auxBytes {first second : AuxKey × UInt64} (same : UserStack.auxBytes first = UserStack.auxBytes second) :
    first.1.number = second.1.number := by
  have keys : leBytes 8 first.1.number = leBytes 8 second.1.number :=
    (append_inj same (by rw [leBytes_length, leBytes_length])).1
  have values := congrArg leValue keys
  rw [leValue_leBytes, leValue_leBytes] at values
  have small := first.1.number_lt
  have small' := second.1.number_lt
  omega

/-- A vector and its reverse are the same bytes only if there is at most one entry. -/
theorem flatMap_auxBytes_reverse_iff (aux : AuxVec) :
    aux.entries.flatMap UserStack.auxBytes = aux.entries.reverse.flatMap UserStack.auxBytes ↔ aux.entries.length ≤ 1 := by
  rcases aux with ⟨entries, ordered⟩
  constructor
  · intro same
    match entries with
    | [] => exact Nat.zero_le 1
    | [_] => exact le_rfl
    | first :: second :: rest =>
      -- The first entry would have to be the last one, which has a greater key.
      obtain ⟨last, others, reversed⟩ : ∃ last others, (first :: second :: rest).reverse = last :: others :=
        exists_cons_of_ne_nil (by simp)
      rw [reversed, flatMap_cons, flatMap_cons] at same
      have keys := key_of_auxBytes (append_inj same (by rw [auxBytes_length, auxBytes_length])).1
      have member : last ∈ second :: rest := by
        have isLast : (first :: second :: rest).getLast? = some last := by
          rw [← head?_reverse, reversed]
          rfl
        rw [getLast?_cons_cons] at isLast
        exact mem_of_getLast? isLast
      have less := (pairwise_cons.mp ordered).1 last member
      omega
  · intro short
    match entries with
    | [] => rfl
    | [_] => rfl

/-- The file has the bytes of the stack exactly when there is at most one entry. -/
theorem pushAux_serialized_iff (aux : AuxVec) (s t : StackState) (serialized : List UInt8)
    (ran : UserStack.pushAux writable aux s = some (serialized, t)) :
    serialized = t.memory.load t.stack.getCurStackTop (16 * (aux.entries.length + 1)) ↔ aux.entries.length ≤ 1 := by
  obtain ⟨between, terminator, ran⟩ := bind_eq_some_iff.mp ran
  obtain ⟨_, entries, done⟩ := bind_eq_some_iff.mp ran
  cases done
  have pushed := (Pushed.of_pushAuxEntry terminator).trans (Pushed.of_entries entries)
  have length : (aux.entries.reverse.flatMap UserStack.auxBytes ++ UserStack.auxBytes UserStack.auxNull).length =
      16 * (aux.entries.length + 1) := by
    simp [length_flatMap, auxBytes_length]
    ring
  rw [← length, pushed.loaded, append_left_inj]
  exact flatMap_auxBytes_reverse_iff aux

/-! ## Two entries -/

/-- An empty stack of one page. -/
def emptyStack : StackState := ⟨⟨0x7000, 0x1000, 0x1000, le_rfl, by decide⟩, fun _ => 0⟩

def pageSizeOnly : AuxVec := ⟨[(.atPagesz, 4096)], by decide⟩

theorem pushAux_serialized_iff_pageSizeOnly : ∃ serialized t,
    UserStack.pushAux (fun _ _ => true) pageSizeOnly emptyStack = some (serialized, t) ∧
      serialized = t.memory.load t.stack.getCurStackTop 32 := by
  obtain ⟨⟨serialized, t⟩, ran⟩ : ∃ result, UserStack.pushAux (fun _ _ => true) pageSizeOnly emptyStack = some result :=
    isSome_iff_exists.mp (by decide +kernel)
  exact ⟨serialized, t, ran, (pushAux_serialized_iff _ pageSizeOnly emptyStack t serialized ran).mpr (by decide)⟩

def pageSizeAndUid : AuxVec := ⟨[(.atPagesz, 4096), (.atUid, 1000)], by decide⟩

/-- The file starts with `AT_PAGESZ`, and the stack with `AT_UID`. -/
theorem auxv_file_differs : ∃ serialized t,
    UserStack.pushAux (fun _ _ => true) pageSizeAndUid emptyStack = some (serialized, t) ∧
      serialized.take 8 = [6, 0, 0, 0, 0, 0, 0, 0] ∧ t.memory.load t.stack.getCurStackTop 8 = [11, 0, 0, 0, 0, 0, 0, 0] := by
  have checked : (UserStack.pushAux (fun _ _ => true) pageSizeAndUid emptyStack).any (fun result =>
      decide (result.1.take 8 = [6, 0, 0, 0, 0, 0, 0, 0]) &&
        decide (result.2.memory.load result.2.stack.getCurStackTop 8 = [11, 0, 0, 0, 0, 0, 0, 0])) = true := by decide +kernel
  obtain ⟨⟨serialized, t⟩, ran, both⟩ := (any_eq_true _ _).mp checked
  rw [Bool.and_eq_true] at both
  exact ⟨serialized, t, ran, of_decide_eq_true both.1, of_decide_eq_true both.2⟩

end LiteBox.Loader
