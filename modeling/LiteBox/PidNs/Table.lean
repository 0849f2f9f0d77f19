import LiteBox.Lib.SlotTable

/-! # The table of PID namespaces

The shared table that gives tasks their pids in every namespace above them: 256 namespace slots and
2048 rows of a pid in a namespace and the internal pid it stands for. A namespace's id is the number of
its slot, counted from 1; the initial namespace is 0 and has no slot.
-/

namespace LiteBox.PidNs

open SlotTable List

def initialNs : ℕ := 0
def maxNamespaces : ℕ := 256
def maxMembers : ℕ := 2048
def freePid : ℤ := 0

structure NamespaceSlot where
  inUse : Bool
  parent : ℕ
  nextPid : ℤ
  /-- A row has been placed in this namespace since it was claimed. -/
  isSealed : Bool
deriving DecidableEq, Repr

def NamespaceSlot.new : NamespaceSlot := ⟨false, initialNs, 1, false⟩

structure MemberSlot where
  nsPid : ℤ
  ns : ℕ
  internalPid : ℤ
deriving DecidableEq, Repr

def MemberSlot.new : MemberSlot := ⟨freePid, initialNs, freePid⟩

def MemberSlot.isFree (row : MemberSlot) : Bool := row.nsPid == freePid

/-- An `AtomicI32` after `fetch_add(1)`. -/
def incrI32 (value : ℤ) : ℤ := if value = 2 ^ 31 - 1 then -2 ^ 31 else value + 1

structure PidNamespaceTable where
  namespaces : List NamespaceSlot
  members : List MemberSlot

namespace PidNamespaceTable

def new : PidNamespaceTable :=
  ⟨List.replicate maxNamespaces .new, List.replicate maxMembers .new⟩

variable (table : PidNamespaceTable)

/-- The slot of a namespace; the initial one has none. -/
def slot (ns : ℕ) : Option NamespaceSlot :=
  if ns = initialNs then none else table.namespaces[ns - 1]?

def setSlot (ns : ℕ) (slot : NamespaceSlot) : PidNamespaceTable :=
  { table with namespaces := table.namespaces.set (ns - 1) slot }

/-- The rows in use. -/
def rows : List MemberSlot := held MemberSlot.isFree table.members

def freeRows : ℕ := table.members.countP MemberSlot.isFree

def isReferenced (ns : ℕ) : Bool :=
  table.members.any fun row => !row.isFree && row.ns == ns

def claim (parent : ℕ) (skipReferenced : Bool) : Option (PidNamespaceTable × ℕ) :=
  let free := fun id => (table.slot id).any (!·.inUse) && !(skipReferenced && table.isReferenced id)
  ((range' 1 table.namespaces.length).find? free).map fun id => (table.setSlot id ⟨true, parent, 1, false⟩, id)

/-- Free the rows that match. -/
def dropRows (matching : MemberSlot → Bool) : PidNamespaceTable :=
  { table with members := wipe MemberSlot.isFree .new matching table.members }

/-- Free a namespace: its rows, then its slot. -/
def vacate (ns : ℕ) : PidNamespaceTable := (table.dropRows (·.ns == ns)).setSlot ns .new

/-- A row of the namespace names a process that still exists. -/
def anyLive (alive : ℤ → Bool) (ns : ℕ) : Bool :=
  table.members.any fun row => !row.isFree && row.ns == ns && decide (0 < row.internalPid) && alive row.internalPid

/-- One round of `reclaim_dead`, with the count of freed slots. -/
def reclaimSlot (alive : ℤ → Bool) : PidNamespaceTable × ℕ → ℕ → PidNamespaceTable × ℕ
  | (table, freed), ns =>
    if (table.slot ns).any (fun slot => slot.inUse && slot.isSealed) && !table.anyLive alive ns then
      (table.vacate ns, freed + 1)
    else (table, freed)

def reclaimDead (alive : ℤ → Bool) : PidNamespaceTable × ℕ :=
  (range' 1 table.namespaces.length).foldl (reclaimSlot alive) (table, 0)

/-- `seen` is how many namespaces this host process asked for before. -/
def create (parent : ℕ) (alive : ℤ → Bool) (reclaim : Bool) (seen : ℕ) :
    PidNamespaceTable × Option ℕ :=
  let swept := if reclaim && seen % 64 == 0 then (table.reclaimDead alive).1 else table
  match (swept.claim parent true).or (swept.claim parent false) with
  | some (claimed, id) => (claimed, some id)
  | none =>
    if reclaim then
      let (again, reclaimed) := swept.reclaimDead alive
      if 0 < reclaimed then
        match again.claim parent false with
        | some (claimed, id) => (claimed, some id)
        | none => (again, none)
      else (again, none)
    else (swept, none)

/-- The namespace's init has exited. -/
def initExited (ns : ℕ) : PidNamespaceTable :=
  let dropped := table.dropRows (·.ns == ns)
  if dropped.isReferenced ns then dropped
  else if (dropped.slot ns).isSome then dropped.setSlot ns .new
  else dropped

def register (nsPid : ℤ) (ns : ℕ) (internalPid : ℤ) : Option PidNamespaceTable :=
  (fill MemberSlot.isFree ⟨nsPid, ns, internalPid⟩ table.members).map fun members => { table with members }

/-- The loop of `allocate` up the chain of namespaces from `current`. Each turn but the last takes a
free row, so `freeRows + 1` turns are enough whatever the chain is. -/
def allocateFrom (internalPid : ℤ) :
    ℕ → PidNamespaceTable → ℕ → Option ℤ → PidNamespaceTable × Option ℤ
  | 0, table, _, _ => (table, none)
  | turns + 1, table, current, own =>
    match table.slot current with
    | none => (table, some (own.getD internalPid))
    | some slot =>
      let counted := table.setSlot current { slot with nextPid := incrI32 slot.nextPid }
      if slot.nextPid ≤ 0 then (counted, none)
      else
        match counted.register slot.nextPid current internalPid with
        | none => (counted, none)
        | some registered =>
          let after := registered.setSlot current { slot with nextPid := incrI32 slot.nextPid, isSealed := true }
          allocateFrom internalPid turns after slot.parent (some (own.getD slot.nextPid))

def allocate (ns : ℕ) (internalPid : ℤ) : PidNamespaceTable × Option ℤ :=
  if internalPid ≤ 0 then (table, none)
  else allocateFrom internalPid (table.freeRows + 1) table ns none

def release (internalPid : ℤ) : PidNamespaceTable :=
  table.dropRows (·.internalPid == internalPid)

def pidIn (internalPid : ℤ) (ns : ℕ) : Option ℤ :=
  if ns = initialNs then some internalPid
  else (table.members.find? fun row => !row.isFree && row.ns == ns && row.internalPid == internalPid).map (·.nsPid)

def translate (nsPid : ℤ) (ns : ℕ) : Option ℤ :=
  if nsPid ≤ 0 then none
  else if ns = initialNs then some nsPid
  else (table.members.find? fun row => row.nsPid == nsPid && row.ns == ns).map (·.internalPid)

/-! ## Slots and rows after an update -/

variable {table : PidNamespaceTable} {ns id : ℕ}

theorem slot_ne_initial {slot : NamespaceSlot} (present : table.slot ns = some slot) : ns ≠ initialNs := by
  rintro rfl
  cases present

variable {old : NamespaceSlot}

theorem slot_setSlot (present : table.slot ns = some old) (slot : NamespaceSlot) (id : ℕ) :
    (table.setSlot ns slot).slot id = if id = ns then some slot else table.slot id := by
  have nonzero := slot_ne_initial present
  simp only [PidNamespaceTable.slot, setSlot] at present ⊢
  rw [if_neg nonzero] at present
  obtain ⟨inside, -⟩ := List.getElem?_eq_some_iff.mp present
  by_cases same : id = ns
  · subst same
    rw [if_neg nonzero, if_pos rfl, getElem?_set_self inside]
  · rw [if_neg same]
    by_cases zero : id = initialNs
    · rw [if_pos zero, if_pos zero]
    · have initial : initialNs = 0 := rfl
      rw [if_neg zero, if_neg zero, getElem?_set_ne (by omega)]

@[simp] theorem rows_setSlot (slot : NamespaceSlot) : (table.setSlot ns slot).rows = table.rows := rfl

@[simp] theorem slot_dropRows (matching : MemberSlot → Bool) : (table.dropRows matching).slot id = table.slot id := rfl

theorem rows_dropRows (matching : MemberSlot → Bool) :
    (table.dropRows matching).rows = table.rows.filter fun row => !matching row :=
  held_wipe rfl matching table.members

theorem slot_vacate (present : table.slot ns = some old) (id : ℕ) :
    (table.vacate ns).slot id = if id = ns then some .new else table.slot id := by
  rw [← slot_dropRows (·.ns == ns)] at present
  exact slot_setSlot present .new id

variable {row a b : MemberSlot} {nsPid internalPid : ℤ} {rows : List MemberSlot}

theorem mem_rows_vacate : row ∈ (table.vacate ns).rows ↔ row ∈ table.rows ∧ row.ns ≠ ns := by
  rw [vacate, rows_setSlot, rows_dropRows, mem_filter]
  simp

theorem rows_vacate_sublist : (table.vacate ns).rows.Sublist table.rows := by
  rw [vacate, rows_setSlot, rows_dropRows]
  exact filter_sublist

theorem mem_rows : row ∈ table.rows ↔ row ∈ table.members ∧ row.nsPid ≠ freePid := by
  simp [rows, mem_held, MemberSlot.isFree]

theorem anyLive_iff {alive : ℤ → Bool} :
    table.anyLive alive ns = true ↔ ∃ row ∈ table.rows, row.ns = ns ∧ 0 < row.internalPid ∧ alive row.internalPid = true := by
  simp only [anyLive, any_eq_true, Bool.and_eq_true, Bool.not_eq_true', beq_iff_eq, decide_eq_true_eq, rows, mem_held]
  constructor
  · rintro ⟨row, member, ⟨⟨held, here⟩, positive⟩, live⟩
    exact ⟨row, ⟨member, held⟩, here, positive, live⟩
  · rintro ⟨row, ⟨member, held⟩, here, positive, live⟩
    exact ⟨row, member, ⟨⟨held, here⟩, positive⟩, live⟩

theorem isReferenced_iff : table.isReferenced ns = true ↔ ∃ row ∈ table.rows, row.ns = ns := by
  simp [isReferenced, any_eq_true, Bool.and_eq_true, Bool.not_eq_true', beq_iff_eq, rows, mem_held, and_assoc]

theorem claim_eq_some {parent : ℕ} {skip : Bool} {claimed : PidNamespaceTable}
    (found : table.claim parent skip = some (claimed, id)) :
    ∃ old, table.slot id = some old ∧ old.inUse = false ∧ claimed = table.setSlot id ⟨true, parent, 1, false⟩ := by
  obtain ⟨id, first, same⟩ := Option.map_eq_some_iff.mp found
  cases same
  have free := find?_some first
  simp only [Bool.and_eq_true, Option.any_eq_true, Bool.not_eq_true'] at free
  obtain ⟨⟨old, present, unused⟩, -⟩ := free
  exact ⟨old, present, unused, rfl⟩

theorem register_eq_some {after : PidNamespaceTable}
    (done : table.register nsPid ns internalPid = some after) (positive : 0 < nsPid) :
    after.rows.Perm (⟨nsPid, ns, internalPid⟩ :: table.rows) ∧ after.freeRows + 1 = table.freeRows ∧
      after.namespaces = table.namespaces := by
  obtain ⟨members, filled, rfl⟩ := Option.map_eq_some_iff.mp done
  have busy : MemberSlot.isFree ⟨nsPid, ns, internalPid⟩ = false := by
    simp only [MemberSlot.isFree, freePid, beq_eq_false_iff_ne]
    omega
  exact ⟨held_fill filled busy, countP_fill filled busy, rfl⟩

theorem slot_congr {other : PidNamespaceTable} (same : other.namespaces = table.namespaces) (ns : ℕ) :
    other.slot ns = table.slot ns := by
  simp [PidNamespaceTable.slot, same]

/-! ## The loop of `allocate` -/

/-- `allocate` only adds rows, and only for its process. -/
theorem allocateFrom_rows (internalPid : ℤ) (turns : ℕ) (table : PidNamespaceTable) (current : ℕ) (own : Option ℤ) :
    ∃ added, (allocateFrom internalPid turns table current own).1.rows.Perm (added ++ table.rows) ∧
      ∀ row ∈ added, row.internalPid = internalPid := by
  induction turns generalizing table current own with
  | zero => exact ⟨[], List.Perm.refl _, nofun⟩
  | succ turns ih =>
    simp only [allocateFrom]
    split
    · exact ⟨[], List.Perm.refl _, nofun⟩
    next slot present =>
    split
    · exact ⟨[], List.Perm.refl _, nofun⟩
    next positive =>
    split
    · exact ⟨[], List.Perm.refl _, nofun⟩
    next registered done =>
    obtain ⟨added, perm, own⟩ := ih (registered.setSlot current
      { slot with nextPid := incrI32 slot.nextPid, isSealed := true }) slot.parent (some (own.getD slot.nextPid))
    have first := (register_eq_some done (by omega)).1
    rw [rows_setSlot] at perm first
    refine ⟨added ++ [⟨slot.nextPid, current, internalPid⟩], ?_, ?_⟩
    · rw [append_assoc]
      exact perm.trans (first.append_left added)
    · simpa [or_imp, forall_and] using own

/-! ## Both directions of the lookup -/

/-- Two rows of one namespace differ in both of their pids. -/
def Apart (a b : MemberSlot) : Prop := a.ns = b.ns → a.nsPid ≠ b.nsPid ∧ a.internalPid ≠ b.internalPid

theorem Apart.symm (apart : Apart a b) : Apart b a :=
  fun same => ⟨(apart same.symm).1.symm, (apart same.symm).2.symm⟩

instance : Std.Symm Apart := ⟨fun _ _ apart => apart.symm⟩

/-- No pid is given twice in a namespace, and no process has two pids in one. -/
def UniqueRows (rows : List MemberSlot) : Prop := rows.Pairwise Apart

theorem UniqueRows.eq_of_nsPid (unique : UniqueRows rows) (left : a ∈ rows)
    (right : b ∈ rows) (ns : a.ns = b.ns) (pid : a.nsPid = b.nsPid) : a = b := by
  by_contra different
  exact (List.Pairwise.forall unique left right different ns).1 pid

theorem UniqueRows.eq_of_internalPid (unique : UniqueRows rows)
    (left : a ∈ rows) (right : b ∈ rows) (ns : a.ns = b.ns) (pid : a.internalPid = b.internalPid) : a = b := by
  by_contra different
  exact (List.Pairwise.forall unique left right different ns).2 pid

theorem UniqueRows.perm {more : List MemberSlot} (unique : UniqueRows rows) (perm : more.Perm rows) : UniqueRows more :=
  (perm.pairwise_iff Apart.symm).mpr unique

theorem mem_of_translate (nonzero : ns ≠ initialNs)
    (found : table.translate nsPid ns = some internalPid) : (⟨nsPid, ns, internalPid⟩ : MemberSlot) ∈ table.rows := by
  unfold translate at found
  split at found
  · cases found
  next positive =>
  obtain ⟨row, first, rfl⟩ := Option.map_eq_some_iff.mp found
  have matched := find?_some first
  simp only [Bool.and_eq_true, beq_iff_eq] at matched
  obtain ⟨rfl, rfl⟩ := matched
  exact mem_rows.mpr ⟨mem_of_find?_eq_some first, fun free => positive (by rw [free]; rfl)⟩

theorem mem_of_pidIn (nonzero : ns ≠ initialNs)
    (found : table.pidIn internalPid ns = some nsPid) : (⟨nsPid, ns, internalPid⟩ : MemberSlot) ∈ table.rows := by
  unfold pidIn at found
  rw [if_neg nonzero] at found
  obtain ⟨row, first, rfl⟩ := Option.map_eq_some_iff.mp found
  have matched := find?_some first
  simp only [Bool.and_eq_true, beq_iff_eq, Bool.not_eq_true'] at matched
  obtain ⟨⟨held, rfl⟩, rfl⟩ := matched
  exact mem_held.mpr ⟨mem_of_find?_eq_some first, held⟩

theorem translate_isSome (member : row ∈ table.rows) (positive : 0 < row.nsPid)
    (nonzero : row.ns ≠ initialNs) : ∃ internalPid, table.translate row.nsPid row.ns = some internalPid := by
  have found : (table.members.find? fun r => r.nsPid == row.nsPid && r.ns == row.ns).isSome := by
    rw [find?_isSome]
    exact ⟨row, (mem_rows.mp member).1, by simp⟩
  obtain ⟨first, eq⟩ := Option.isSome_iff_exists.mp found
  exact ⟨first.internalPid, by rw [translate, if_neg (by omega), if_neg nonzero, eq, Option.map_some]⟩

theorem pidIn_isSome (member : row ∈ table.rows) (nonzero : row.ns ≠ initialNs) :
    ∃ nsPid, table.pidIn row.internalPid row.ns = some nsPid := by
  have found : (table.members.find? fun r =>
      !r.isFree && r.ns == row.ns && r.internalPid == row.internalPid).isSome := by
    rw [find?_isSome]
    exact ⟨row, (mem_rows.mp member).1, by simpa using (mem_held.mp member).2⟩
  obtain ⟨first, eq⟩ := Option.isSome_iff_exists.mp found
  exact ⟨first.nsPid, by rw [pidIn, if_neg nonzero, eq, Option.map_some]⟩

/-- With unique rows and positive pids the two lookups are inverse to each other. -/
theorem pidIn_eq_some_iff (unique : UniqueRows table.rows) (positive : ∀ row ∈ table.rows, 0 < row.nsPid)
    (nonzero : ns ≠ initialNs) (nsPid internalPid : ℤ) :
    table.pidIn internalPid ns = some nsPid ↔ table.translate nsPid ns = some internalPid := by
  constructor
  · intro found
    have member := mem_of_pidIn nonzero found
    obtain ⟨other, back⟩ := translate_isSome member (positive _ member) nonzero
    have same := unique.eq_of_nsPid member (mem_of_translate nonzero back) rfl rfl
    cases same
    exact back
  · intro found
    have member := mem_of_translate nonzero found
    obtain ⟨other, back⟩ := pidIn_isSome member nonzero
    have same := unique.eq_of_internalPid member (mem_of_pidIn nonzero back) rfl rfl
    cases same
    exact back

end PidNamespaceTable

end LiteBox.PidNs
