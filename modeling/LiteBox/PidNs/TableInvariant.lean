import LiteBox.PidNs.World

/-! # The namespace table and the namespaces it stands for

What the rows and slots of the table say about the namespaces that were created, and how the calls of
the table keep it: the sweep, the claim of a slot for a new namespace, and the registration of a task in
every namespace above it.
-/

namespace LiteBox.PidNs

open PidNamespaceTable List Option World

/-! ## The invariant of the table -/

/-- The id `ns` stands for that namespace. -/
def Current (h : History) (table : PidNamespaceTable) (ns namespace_ : ℕ) : Prop :=
  ns = initialNs ∧ namespace_ = 0 ∨ (∃ slot, table.slot ns = some slot ∧ slot.inUse = true) ∧ h.holder ns = namespace_

structure SlotInv (h : History) (table : PidNamespaceTable) (id : ℕ) (slot : NamespaceSlot) : Prop where
  numbered : 0 < h.holder id
  counting : 0 < slot.nextPid
  nested : ∃ outer, h.enclosing[h.holder id]? = some outer ∧ Current h table slot.parent outer

structure RowInv (h : History) (table : PidNamespaceTable) (row : MemberSlot) : Prop where
  positive : 0 < row.nsPid
  placed : ∃ slot, table.slot row.ns = some slot ∧ slot.inUse = true ∧ row.nsPid < slot.nextPid
  nested : h.Nested (h.home row.internalPid) (h.holder row.ns)

structure TableInv (h : History) (table : PidNamespaceTable) : Prop where
  rows : ∀ row ∈ table.rows, RowInv h table row
  unique : UniqueRows table.rows
  slots : ∀ id slot, table.slot id = some slot → slot.inUse = true → SlotInv h table id slot

/-- A namespace that is in use is nested in the one with this id. -/
def IsParent (table : PidNamespaceTable) (ns : ℕ) : Prop :=
  ∃ id slot, table.slot id = some slot ∧ slot.inUse = true ∧ slot.parent = ns

variable {h : History} {table : PidNamespaceTable} {ns id : ℕ}
variable {namespace_ : ℕ} {old : NamespaceSlot} {ids : List ℕ} {alive : ℤ → Bool} {after : PidNamespaceTable}

/-- Slots that differ in their counters only. -/
theorem Current.of_slots (current : Current h table ns namespace_)
    (slots : ∀ slot, table.slot ns = some slot → slot.inUse = true → ∃ slot, after.slot ns = some slot ∧ slot.inUse = true) :
    Current h after ns namespace_ := by
  obtain initial | ⟨⟨slot, present, used⟩, holder⟩ := current
  · exact .inl initial
  · exact .inr ⟨slots slot present used, holder⟩

/-- Rows may go at any time. -/
theorem TableInv.dropRows (inv : TableInv h table) (matching : MemberSlot → Bool) : TableInv h (table.dropRows matching) := by
  have sublist : (table.dropRows matching).rows.Sublist table.rows := by
    rw [rows_dropRows]
    exact filter_sublist
  constructor
  · intro row member
    obtain ⟨positive, placed, nested⟩ := inv.rows row (sublist.subset member)
    exact ⟨positive, placed, nested⟩
  · exact List.Pairwise.sublist sublist inv.unique
  · intro id slot present used
    obtain ⟨numbered, counting, nested⟩ := inv.slots id slot present used
    exact ⟨numbered, counting, nested⟩

variable {slot : NamespaceSlot}

theorem slot_of_vacate {id' : ℕ} (present : table.slot id = some old)
    (found : (table.vacate id).slot id' = some slot) (used : slot.inUse = true) : id' ≠ id ∧ table.slot id' = some slot := by
  rw [slot_vacate present] at found
  split at found
  · cases found
    cases used
  · next other => exact ⟨other, found⟩

theorem Current.vacate (present : table.slot id = some old)
    (current : Current h table ns namespace_) (other : ns ≠ id) : Current h (table.vacate id) ns namespace_ := by
  apply current.of_slots
  intro slot found used
  exact ⟨slot, by rwa [slot_vacate present, if_neg other], used⟩

/-- A namespace that no other is nested in can be freed. -/
theorem TableInv.vacate (inv : TableInv h table) (present : table.slot id = some old)
    (leaf : ¬IsParent table id) : TableInv h (table.vacate id) := by
  constructor
  · intro row member
    obtain ⟨member, other⟩ := mem_rows_vacate.mp member
    obtain ⟨positive, ⟨slot, found, used, counted⟩, nested⟩ := inv.rows row member
    exact ⟨positive, ⟨slot, by rwa [slot_vacate present, if_neg other], used, counted⟩, nested⟩
  · exact List.Pairwise.sublist rows_vacate_sublist inv.unique
  · intro id' slot found used
    have before := (slot_of_vacate present found used).2
    obtain ⟨numbered, counting, outer, encloses, current⟩ := inv.slots id' slot before used
    refine ⟨numbered, counting, outer, encloses, current.vacate present ?_⟩
    exact fun parent => leaf ⟨id', slot, before, used, parent⟩

/-! ## The sweep -/

/-- For every sealed namespace that one of `ids` names or that another namespace is nested in, a row
names a process that is reported alive. -/
def Vouched (alive : ℤ → Bool) (ids : List ℕ) (table : PidNamespaceTable) : Prop :=
  ∀ id slot, table.slot id = some slot → slot.inUse = true → slot.isSealed = true → id ∈ ids ∨ IsParent table id →
    table.anyLive alive id = true

/-- What a sweep leaves as it was. -/
structure Swept (h : History) (ids : List ℕ) (before after : PidNamespaceTable) : Prop where
  rows : after.rows.Sublist before.rows
  slots : ∀ id slot, after.slot id = some slot → slot.inUse = true → before.slot id = some slot
  current : ∀ ns ∈ ids, ∀ namespace_, Current h before ns namespace_ → Current h after ns namespace_

theorem Swept.refl (h : History) (ids : List ℕ) (table : PidNamespaceTable) : Swept h ids table table :=
  ⟨List.Sublist.refl _, fun _ _ present _ => present, fun _ _ _ current => current⟩

theorem Swept.trans {a b c : PidNamespaceTable} (first : Swept h ids a b) (second : Swept h ids b c) : Swept h ids a c :=
  ⟨second.rows.trans first.rows,
    fun id slot present used => first.slots id slot (second.slots id slot present used) used,
    fun ns member namespace_ current => second.current ns member namespace_ (first.current ns member namespace_ current)⟩

theorem reclaimSlot_keeps (freed : ℕ) (inv : TableInv h table) (vouched : Vouched alive ids table) (id : ℕ) :
    TableInv h (reclaimSlot alive (table, freed) id).1 ∧ Vouched alive ids (reclaimSlot alive (table, freed) id).1 ∧
      Swept h ids table (reclaimSlot alive (table, freed) id).1 := by
  simp only [reclaimSlot]
  split
  · next dead =>
    simp only [Bool.and_eq_true, Option.any_eq_true, Bool.not_eq_true'] at dead
    obtain ⟨⟨slot, present, used, isSealed⟩, noneLive⟩ := dead
    have unnamed : id ∉ ids ∧ ¬IsParent table id := by
      rw [← not_or]
      intro named
      rw [vouched id slot present used isSealed named] at noneLive
      cases noneLive
    refine ⟨inv.vacate present unnamed.2, ?_, rows_vacate_sublist,
      fun id' slot' found used' => (slot_of_vacate present found used').2, ?_⟩
    · intro id' slot' found used' isSealed' named
      obtain ⟨other, found⟩ := slot_of_vacate present found used'
      obtain ⟨row, member, here, positive, live⟩ := anyLive_iff.mp (vouched id' slot' found used' isSealed' (by
        obtain carried | ⟨inner, innerSlot, innerFound, innerUsed, parent⟩ := named
        · exact .inl carried
        · exact .inr ⟨inner, innerSlot, (slot_of_vacate present innerFound innerUsed).2, innerUsed, parent⟩))
      exact anyLive_iff.mpr ⟨row, mem_rows_vacate.mpr ⟨member, here ▸ other⟩, here, positive, live⟩
    · intro ns member namespace_ current
      exact current.vacate present fun same => unnamed.1 (same ▸ member)
  · exact ⟨inv, vouched, Swept.refl h ids table⟩

theorem foldl_reclaimSlot_keeps (order : List ℕ) (freed : ℕ) (inv : TableInv h table) (vouched : Vouched alive ids table) :
    TableInv h (order.foldl (reclaimSlot alive) (table, freed)).1 ∧
      Vouched alive ids (order.foldl (reclaimSlot alive) (table, freed)).1 ∧
      Swept h ids table (order.foldl (reclaimSlot alive) (table, freed)).1 := by
  induction order generalizing table freed with
  | nil => exact ⟨inv, vouched, Swept.refl h ids table⟩
  | cons id rest ih =>
    rw [foldl_cons]
    obtain ⟨inv₁, vouched₁, swept₁⟩ := reclaimSlot_keeps freed inv vouched id
    obtain ⟨inv₂, vouched₂, swept₂⟩ := ih (reclaimSlot alive (table, freed) id).2 inv₁ vouched₁
    exact ⟨inv₂, vouched₂, swept₁.trans swept₂⟩

/-- `create` sweeps, and then claims a slot that is not in use. -/
theorem create_spec {reclaim : Bool} (parent seen : ℕ) (inv : TableInv h table)
    (vouched : reclaim = true → Vouched alive ids table) :
    ∃ swept, TableInv h swept ∧ Swept h ids table swept ∧
      ((table.create parent alive reclaim seen) = (swept, none) ∨
        ∃ id old, swept.slot id = some old ∧ old.inUse = false ∧
          table.create parent alive reclaim seen = (swept.setSlot id ⟨true, parent, 1, false⟩, some id)) := by
  obtain ⟨first, firstEq, inv₁, vouched₁, swept₁⟩ : ∃ first,
      first = (if reclaim && seen % 64 == 0 then (table.reclaimDead alive).1 else table) ∧ TableInv h first ∧
        (reclaim = true → Vouched alive ids first) ∧ Swept h ids table first := by
    refine ⟨_, rfl, ?_⟩
    split
    · next due =>
      obtain ⟨inv, vouched, swept⟩ := foldl_reclaimSlot_keeps _ 0 inv (vouched (Bool.and_eq_true_iff.mp due).1)
      exact ⟨inv, fun _ => vouched, swept⟩
    · exact ⟨inv, vouched, Swept.refl h ids table⟩
  unfold create
  simp only [← firstEq]
  split
  · next claimed id found =>
    obtain found | ⟨-, found⟩ := or_eq_some_iff.mp found
    all_goals
      obtain ⟨old, present, unused, rfl⟩ := claim_eq_some found
      exact ⟨first, inv₁, swept₁, .inr ⟨id, old, present, unused, rfl⟩⟩
  split
  · next isReclaim =>
    obtain ⟨inv₂, -, swept₂⟩ := foldl_reclaimSlot_keeps _ 0 inv₁ (vouched₁ isReclaim)
    have swept := swept₁.trans swept₂
    split
    · split
      · next claimed id found =>
        obtain ⟨old, present, unused, rfl⟩ := claim_eq_some found
        exact ⟨_, inv₂, swept, .inr ⟨id, old, present, unused, rfl⟩⟩
      · exact ⟨_, inv₂, swept, .inl rfl⟩
    · exact ⟨_, inv₂, swept, .inl rfl⟩
  · exact ⟨first, inv₁, swept₁, .inl rfl⟩

/-! ## A new namespace -/

theorem encloses_append {enclosing : List ℕ} {inner outer : ℕ} (encloses : enclosing[inner]? = some outer) (more : List ℕ) :
    (enclosing ++ more)[inner]? = some outer := by
  obtain ⟨inside, -⟩ := List.getElem?_eq_some_iff.mp encloses
  rwa [getElem?_append_left inside]

theorem History.Nested.append {inner outer : ℕ} (nested : h.Nested inner outer) (more : List ℕ) (holder : ℕ → ℕ)
    (home : ℤ → ℕ) : History.Nested ⟨h.enclosing ++ more, holder, home⟩ inner outer :=
  nested.lift id fun _ _ encloses => encloses_append encloses more

section Claim

variable {old : NamespaceSlot} {parent outer : ℕ} {tid : ℤ}

theorem Current.claim (current : Current h table ns namespace_) (present : table.slot id = some old)
    (unused : old.inUse = false) :
    Current (recordNamespace h id outer tid) (table.setSlot id ⟨true, parent, 1, false⟩) ns namespace_ := by
  obtain initial | ⟨⟨slot, found, used⟩, holder⟩ := current
  · exact .inl initial
  · have other : ns ≠ id := by
      rintro rfl
      rw [present] at found
      cases found
      rw [unused] at used
      cases used
    refine .inr ⟨⟨slot, by rwa [slot_setSlot present, if_neg other], used⟩, ?_⟩
    rw [holder_recordNamespace other, holder]

theorem TableInv.claim (inv : TableInv h table) (rooted : 0 < h.enclosing.length) (present : table.slot id = some old)
    (unused : old.inUse = false) (parentCurrent : Current h table parent outer)
    (fresh : ∀ row ∈ table.rows, row.internalPid ≠ tid) :
    TableInv (recordNamespace h id outer tid) (table.setSlot id ⟨true, parent, 1, false⟩) := by
  have other : ∀ id' slot, table.slot id' = some slot → slot.inUse = true → id' ≠ id := by
    rintro id' slot found used rfl
    rw [present] at found
    cases found
    rw [unused] at used
    cases used
  constructor
  · intro row member
    rw [rows_setSlot] at member
    obtain ⟨positive, ⟨slot, found, used, counted⟩, nested⟩ := inv.rows row member
    refine ⟨positive, ⟨slot, by rwa [slot_setSlot present, if_neg (other _ _ found used)], used, counted⟩, ?_⟩
    rw [holder_recordNamespace (other _ _ found used), home_recordNamespace (fresh row member)]
    exact nested.append _ _ _
  · exact inv.unique
  · intro id' slot found used
    rw [slot_setSlot present] at found
    split at found
    · next same =>
      cases found
      subst same
      refine ⟨?_, one_pos, outer, ?_, parentCurrent.claim present unused⟩
      · simpa [recordNamespace] using rooted
      · simp [recordNamespace]
    · next different =>
      obtain ⟨numbered, counting, outer', encloses, current⟩ := inv.slots id' slot found used
      refine ⟨?_, counting, outer', ?_, current.claim present unused⟩
      · rwa [holder_recordNamespace different]
      · rw [holder_recordNamespace different]
        exact encloses_append encloses _

end Claim

theorem TableInv.recordTask {tid : ℤ} {home : ℕ} (inv : TableInv h table)
    (fresh : ∀ row ∈ table.rows, row.internalPid ≠ tid) : TableInv (recordTask h tid home) table := by
  constructor
  · intro row member
    obtain ⟨positive, placed, nested⟩ := inv.rows row member
    refine ⟨positive, placed, ?_⟩
    rw [home_recordTask (fresh row member)]
    exact nested
  · exact inv.unique
  · intro id slot present used
    obtain ⟨numbered, counting, nested⟩ := inv.slots id slot present used
    exact ⟨numbered, counting, nested⟩

/-! ## Registering a task up the chain -/

/-- There are `n` namespaces from `ns` up to the initial one. -/
inductive Chain (table : PidNamespaceTable) : ℕ → ℕ → Prop where
  | initial {ns : ℕ} (absent : table.slot ns = none) : Chain table ns 0
  | nested {ns n : ℕ} {slot : NamespaceSlot} (present : table.slot ns = some slot) (rest : Chain table slot.parent n) :
      Chain table ns (n + 1)

theorem Chain.congr {n : ℕ} (chain : Chain table ns n)
    (parents : ∀ id, (after.slot id).map (·.parent) = (table.slot id).map (·.parent)) : Chain after ns n := by
  induction chain with
  | initial absent =>
    apply Chain.initial
    rw [← map_eq_none_iff, parents, absent, map_none]
  | nested present rest ih =>
    obtain ⟨slot, found, same⟩ := map_eq_some_iff.mp ((parents _).trans (congrArg _ present))
    exact .nested found (same ▸ ih)

/-- Namespaces are created inside older ones. -/
def Nesting (h : History) : Prop := ∀ inner outer, h.enclosing[inner]? = some outer → inner ≠ 0 → outer < inner

section AddRow

variable {current : ℕ} {slot : NamespaceSlot} {internalPid : ℤ}

/-- The slot after a row has been added to its namespace. -/
def counted (slot : NamespaceSlot) : NamespaceSlot := { slot with nextPid := slot.nextPid + 1, isSealed := true }

/-- One row of `current` more, for `internalPid`. -/
structure Added (before after : PidNamespaceTable) (current : ℕ) (slot : NamespaceSlot) (internalPid : ℤ) : Prop where
  present : before.slot current = some slot
  slots : ∀ id, after.slot id = if id = current then some (counted slot) else before.slot id
  rows : after.rows.Perm (⟨slot.nextPid, current, internalPid⟩ :: before.rows)
  free : after.freeRows + 1 = before.freeRows

variable {after : PidNamespaceTable} (added : Added table after current slot internalPid)

include added

/-- Every slot is found again, with its counter as it was or one higher. -/
theorem Added.slot_found {found : NamespaceSlot}
    (present : table.slot id = some found) :
    ∃ slot', after.slot id = some slot' ∧ slot'.inUse = found.inUse ∧ slot'.parent = found.parent ∧
      found.nextPid ≤ slot'.nextPid := by
  rw [added.slots]
  by_cases here : id = current
  · subst here
    rw [added.present] at present
    cases present
    exact ⟨counted slot, if_pos rfl, rfl, rfl, by simp only [counted]; omega⟩
  · exact ⟨found, by rw [if_neg here, present], rfl, rfl, le_rfl⟩

theorem Added.current_of
    (holds : Current h table ns namespace_) : Current h after ns namespace_ := by
  apply holds.of_slots
  intro found present used
  obtain ⟨slot', present', sameUse, -⟩ := added.slot_found present
  exact ⟨slot', present', sameUse.trans used⟩

theorem Added.parents (id : ℕ) :
    (after.slot id).map (·.parent) = (table.slot id).map (·.parent) := by
  rw [added.slots]
  split
  · next here =>
    rw [here, added.present]
    rfl
  · rfl

theorem Added.keeps (inv : TableInv h table)
    (used : slot.inUse = true) (nested : h.Nested (h.home internalPid) (h.holder current))
    (absent : ∀ row ∈ table.rows, row.ns = current → row.internalPid ≠ internalPid) : TableInv h after := by
  have counting := (inv.slots current slot added.present used).counting
  constructor
  · intro row member
    obtain rfl | member := mem_cons.mp (added.rows.mem_iff.mp member)
    · refine ⟨counting, ⟨counted slot, by rw [added.slots, if_pos rfl], used, ?_⟩, nested⟩
      simp only [counted]
      omega
    · obtain ⟨positive, ⟨found, present, used, below⟩, nested⟩ := inv.rows row member
      obtain ⟨slot', present', sameUse, -, grown⟩ := added.slot_found present
      exact ⟨positive, ⟨slot', present', sameUse.trans used, by omega⟩, nested⟩
  · apply UniqueRows.perm _ added.rows
    refine List.Pairwise.cons ?_ inv.unique
    intro row member here
    obtain ⟨-, ⟨found, present, -, below⟩, -⟩ := inv.rows row member
    simp only at here
    rw [← here, added.present] at present
    cases present
    exact ⟨by simp only; omega, (absent row member here.symm).symm⟩
  · intro id found present used
    rw [added.slots] at present
    split at present
    · next here =>
      cases present
      subst here
      obtain ⟨numbered, counting, outer, encloses, parent⟩ := inv.slots id slot added.present used
      exact ⟨numbered, by simp only [counted]; omega, outer, encloses, added.current_of parent⟩
    · obtain ⟨numbered, counting, outer, encloses, parent⟩ := inv.slots id found present used
      exact ⟨numbered, counting, outer, encloses, added.current_of parent⟩

end AddRow

/-- One turn of the loop, with a row to spare and a counter that does not overflow. -/
theorem allocateFrom_succ {current : ℕ} (turns : ℕ) (internalPid : ℤ) (own : Option ℤ)
    (present : table.slot current = some slot) (positive : 0 < slot.nextPid) (small : slot.nextPid < 2 ^ 31 - 1)
    (room : 0 < table.freeRows) :
    ∃ after, Added table after current slot internalPid ∧
      allocateFrom internalPid (turns + 1) table current own =
        allocateFrom internalPid turns after slot.parent (some (own.getD slot.nextPid)) := by
  have incr : incrI32 slot.nextPid = slot.nextPid + 1 := if_neg (by omega)
  obtain ⟨members, filled⟩ : ∃ members, SlotTable.fill MemberSlot.isFree ⟨slot.nextPid, current, internalPid⟩ table.members =
      some members := SlotTable.fill_isSome room
  obtain ⟨registered, done⟩ : ∃ registered,
      (table.setSlot current { slot with nextPid := slot.nextPid + 1 }).register slot.nextPid current internalPid =
        some registered := ⟨_, by rw [register, setSlot, filled]; rfl⟩
  obtain ⟨rows, free, namespaces⟩ := register_eq_some done positive
  have slots : ∀ id, registered.slot id = _ := fun id => (slot_congr namespaces id).trans (slot_setSlot present _ id)
  refine ⟨registered.setSlot current (counted slot), ⟨present, ?_, rows, free⟩, ?_⟩
  · intro id
    rw [slot_setSlot ((slots current).trans (if_pos rfl)), slots id]
    split <;> rfl
  · rw [allocateFrom, present]
    simp only [incr, if_neg (not_le.mpr positive), done]
    rfl

/-- `allocate` registers the task in each namespace of its chain. -/
theorem allocateFrom_keeps {current n : ℕ} {internalPid : ℤ} (bound : ℤ) (turns : ℕ) (own : Option ℤ)
    (chain : Chain table current n) (nesting : Nesting h) (inv : TableInv h table)
    (holds : Current h table current namespace_) (nested : h.Nested (h.home internalPid) namespace_)
    (earlier : ∀ row ∈ table.rows, row.internalPid = internalPid → namespace_ < h.holder row.ns)
    (counters : ∀ id slot, table.slot id = some slot → slot.inUse = true → slot.nextPid ≤ bound + 1)
    (later : ∀ id slot, table.slot id = some slot → slot.inUse = true → h.holder id ≤ namespace_ → slot.nextPid ≤ bound)
    (small : bound < 2 ^ 31 - 1) (room : n ≤ table.freeRows) (enough : n < turns) :
    ∃ after own', allocateFrom internalPid turns table current own = (after, some own') ∧ TableInv h after ∧
      (∀ ns namespace_, Current h table ns namespace_ → Current h after ns namespace_) ∧
      ∀ id slot, after.slot id = some slot → slot.inUse = true → slot.nextPid ≤ bound + 1 := by
  obtain ⟨turns, rfl⟩ : ∃ m, turns = m + 1 := ⟨turns - 1, by omega⟩
  induction n generalizing table current namespace_ own turns with
  | zero =>
    cases chain with
    | initial absent =>
      refine ⟨table, _, by rw [allocateFrom, absent], inv, fun _ _ holds => holds, counters⟩
  | succ n ih =>
    cases chain with
    | nested present rest =>
      rename_i slot
      obtain ⟨initial, -⟩ | ⟨⟨slot', present', used⟩, rfl⟩ := holds
      · exact absurd initial (slot_ne_initial present)
      rw [present] at present'
      cases present'
      obtain ⟨numbered, counting, outer, encloses, parentCurrent⟩ := inv.slots current slot present used
      have below : outer < h.holder current := nesting _ _ encloses (by omega)
      have countedBound := later current slot present used le_rfl
      obtain ⟨after, added, eq⟩ := allocateFrom_succ turns internalPid own present counting (by omega) (by omega)
      have free := added.free
      obtain ⟨turns, rfl⟩ : ∃ m, turns = m + 1 := ⟨turns - 1, by omega⟩
      rw [eq]
      obtain ⟨final, own', done, inv', keeps, counters'⟩ := ih _ (rest.congr added.parents)
        (added.keeps inv used nested fun row member here same =>
          absurd (earlier row member same) (by rw [here]; omega))
        (added.current_of parentCurrent) (nested.tail encloses)
        (by
          intro row member same
          obtain rfl | member := mem_cons.mp (added.rows.mem_iff.mp member)
          · exact below
          · exact below.trans (earlier row member same))
        (by
          intro id found presentAfter usedAfter
          rw [added.slots] at presentAfter
          split at presentAfter
          · cases presentAfter
            simp only [counted]
            omega
          · exact counters id found presentAfter usedAfter)
        (by
          intro id found presentAfter usedAfter lower
          rw [added.slots] at presentAfter
          split at presentAfter
          · next here =>
            rw [here] at lower
            omega
          · exact later id found presentAfter usedAfter (by omega))
        (by omega) turns (by omega)
      exact ⟨final, own', done, inv', fun ns namespace_ holds => keeps ns namespace_ (added.current_of holds), counters'⟩

end LiteBox.PidNs
