import LiteBox.Lib.Run
import LiteBox.PidNs.TableInvariant

/-! # Isolation of PID namespaces

Isolation over whole histories. An id names one namespace as long as the sweep is told of every process
that lives in it, the init of a namespace leaves last, and no clone fails once it has registered its
child. Each of the three can be violated, and then ids, rows and slots outlive or outrun their
namespace.
-/

namespace LiteBox.PidNs

open PidNamespaceTable List World

/-! ## The invariant of the world -/

/-- Clones that have a pid and have not called `allocate` yet. -/
def unallocated (clones : List Clone) : ℕ := clones.countP (·.nsTid.isNone)

structure Inv (w : World) : Prop where
  table : TableInv w.history w.table
  rooted : 0 < w.history.enclosing.length
  nesting : Nesting w.history
  carriers : ∀ c ∈ w.carriers, Current w.history w.table c.2 (w.history.home c.1) ∧ c.1 ∈ w.issued
  issued : w.issued.Nodup ∧ ∀ pid ∈ w.issued, 0 < pid ∧ pid < 2 ^ 31
  rows : ∀ row ∈ w.table.rows, row.internalPid ∈ w.issued
  distinct : (w.carriers.map (·.1)).Nodup
  newpid : ∀ c ∈ w.clones, c.newpid = true → c.ns ≠ initialNs
  unregistered : ∀ c ∈ w.clones, c.nsTid = none ∨ c.ns = initialNs → ∀ row ∈ w.table.rows, row.internalPid ≠ c.tid
  failed : ∀ f ∈ w.failed, f.tid ∈ w.issued ∧ f.claimed = none ∧ (∀ row ∈ w.table.rows, row.internalPid ≠ f.tid) ∧
    ∀ c ∈ w.clones, c.tid ≠ f.tid
  /-- A namespace has given out no more pids than there are internal ones, those under way apart. -/
  counters : ∀ id slot, w.table.slot id = some slot → slot.inUse = true → slot.nextPid + unallocated w.clones ≤ w.issued.length
  spare : unallocated w.clones < w.issued.length

/-- The condition under which a step keeps namespaces apart. -/
def Careful (reclaim : Bool) (w : World) : Event → Prop
  -- a pid of its own, and a sweep that knows of every namespace in use
  | .startClone _ tid newpid _ _ alive =>
    tid ∉ w.issued ∧ 0 < tid ∧ tid < 2 ^ 31 ∧ (newpid = true → reclaim = true → Vouched alive (w.carriers.map (·.2)) w.table)
  -- a row for each namespace of the chain
  | .allocate tid => ∀ c ∈ w.clones, c.tid = tid → c.nsTid = none → ∃ n, Chain w.table c.ns n ∧ n ≤ w.table.freeRows
  -- no error once the child is registered in a namespace
  | .finishClone tid spawned => spawned = true ∨ ∀ c ∈ w.clones, c.tid = tid → c.ns = initialNs
  -- the init leaves last
  | .exit tid => ∀ t ∈ w.tasks, t.tid = tid → w.endsNamespace reclaim t = true →
      (∀ c ∈ w.carriers, c.1 ≠ tid → c.2 ≠ t.ns) ∧ ¬IsParent w.table t.ns
  | .reap _ => True

/-- Distinct positive `i32`s are fewer than `2 ^ 31`. -/
theorem length_lt_of_range {pids : List ℤ} (nodup : pids.Nodup) (range : ∀ pid ∈ pids, 0 < pid ∧ pid < 2 ^ 31) :
    pids.length < 2 ^ 31 := by
  rw [← toFinset_card_of_nodup nodup]
  have within : pids.toFinset ⊆ Finset.Ioo 0 (2 ^ 31) := by
    intro pid member
    exact Finset.mem_Ioo.mpr (range pid (mem_toFinset.mp member))
  have card := Finset.card_le_card within
  rw [Int.card_Ioo] at card
  omega

variable {w : World} {reclaim : Bool} {table : PidNamespaceTable} {ns id : ℕ}

theorem inv_boot {pid : ℤ} (positive : 0 < pid) (small : pid < 2 ^ 31) : Inv (boot pid) := by
  have noRows : (boot pid).table.rows = [] := by
    simp [boot, PidNamespaceTable.new, PidNamespaceTable.rows, SlotTable.held, MemberSlot.new, MemberSlot.isFree]
  have unused : ∀ id slot, (boot pid).table.slot id = some slot → slot.inUse = true → False := by
    intro id slot present used
    simp only [boot, PidNamespaceTable.new, PidNamespaceTable.slot] at present
    split at present
    · cases present
    · rw [eq_of_mem_replicate (mem_of_getElem? present)] at used
      cases used
  constructor
  case table =>
    refine ⟨?_, ?_, fun id slot present used => (unused id slot present used).elim⟩
    · simp [noRows]
    · rw [noRows]
      exact List.Pairwise.nil
  case rooted => exact one_pos
  case nesting =>
    intro inner outer encloses nonzero
    simp [boot, nonzero] at encloses
  case carriers =>
    intro c member
    obtain rfl := mem_singleton.mp (show c ∈ [(pid, initialNs)] from member)
    exact ⟨.inl ⟨rfl, rfl⟩, mem_singleton_self pid⟩
  case issued => exact ⟨nodup_singleton pid, fun p member => mem_singleton.mp member ▸ ⟨positive, small⟩⟩
  case rows => simp [noRows]
  case distinct => exact nodup_singleton pid
  case newpid => simp [boot]
  case unregistered => simp [boot]
  case failed => simp [boot]
  case counters => exact fun id slot present used => (unused id slot present used).elim
  case spare => exact one_pos

theorem Inv.isolated (inv : Inv w) : Isolated w := by
  constructor
  case inverse =>
    intro ns nonzero nsPid internalPid
    exact pidIn_eq_some_iff inv.table.unique (fun row member => (inv.table.rows row member).positive) nonzero _ _
  case kept =>
    intro t member nonzero
    have carrier : (t.tid, t.ns) ∈ w.carriers := mem_append_left _ (mem_map_of_mem member)
    obtain ⟨initial, -⟩ | ⟨-, holder⟩ := (inv.carriers _ carrier).1
    · exact absurd initial nonzero
    · exact holder
  case sees =>
    intro t member nonzero nsPid internalPid found
    have carrier : (t.tid, t.ns) ∈ w.carriers := mem_append_left _ (mem_map_of_mem member)
    obtain ⟨initial, -⟩ | ⟨-, holder⟩ := (inv.carriers _ carrier).1
    · exact absurd initial nonzero
    · exact holder ▸ (inv.table.rows _ (mem_of_translate nonzero found)).nested
  case keptNested =>
    intro id slot present used nonzero
    obtain ⟨-, -, outer, encloses, current⟩ := inv.table.slots id slot present used
    obtain ⟨initial, -⟩ | ⟨-, holder⟩ := current
    · exact absurd initial nonzero
    · rw [encloses, holder]
  case noneLeft =>
    intro f member
    obtain ⟨-, unclaimed, noRow, -⟩ := inv.failed f member
    refine ⟨noRow, fun claimed eq => ?_⟩
    rw [unclaimed] at eq
    cases eq

/-! ## The steps -/

theorem carriers_sublist {tasks : List Task} (fewer : tasks.Sublist w.tasks) :
    (carriers { w with tasks }).Sublist w.carriers := (fewer.map _).append (List.Sublist.refl _)

variable {c : Clone} {tid : ℤ} {slot : NamespaceSlot} {alive : ℤ → Bool} {seen : ℕ}

section

variable (inv : Inv w)

include inv

theorem Inv.clone_ne_task {t : Task} (task : t ∈ w.tasks) (clone : c ∈ w.clones) : c.tid ≠ t.tid := by
  have distinct := inv.distinct
  rw [World.carriers, map_append, nodup_append] at distinct
  refine (distinct.2.2 t.tid ?_ c.tid ?_).symm
  · exact mem_map.mpr ⟨_, mem_map_of_mem task, rfl⟩
  · exact mem_map.mpr ⟨_, mem_map_of_mem clone, rfl⟩

/-- Tasks, rows and namespaces may go, as long as the ids of those that stay are left alone. -/
theorem Inv.shrink (tasks : List Task) (zombies : List ℤ)
    (tableInv : TableInv w.history table) (rows : ∀ row ∈ table.rows, row ∈ w.table.rows)
    (slots : ∀ id slot, table.slot id = some slot → slot.inUse = true → w.table.slot id = some slot)
    (fewer : tasks.Sublist w.tasks)
    (current : ∀ c ∈ World.carriers { w with tasks }, ∀ namespace_,
      Current w.history w.table c.2 namespace_ → Current w.history table c.2 namespace_) :
    Inv { w with table, tasks, zombies } := { inv with
  table := tableInv
  carriers := fun c member =>
    have before := inv.carriers c ((carriers_sublist fewer).subset member)
    ⟨current c member _ before.1, before.2⟩
  rows := fun row member => inv.rows row (rows row member)
  distinct := inv.distinct.sublist ((carriers_sublist fewer).map _)
  unregistered := fun c member early row found => inv.unregistered c member early row (rows row found)
  failed := fun f member =>
    have ⟨issued, unclaimed, noRow, apart⟩ := inv.failed f member
    ⟨issued, unclaimed, fun row found => noRow row (rows row found), apart⟩
  counters := fun id slot present used => inv.counters id slot (slots id slot present used) used }

theorem Inv.release (tasks : List Task) (zombies : List ℤ) (fewer : tasks.Sublist w.tasks) (pid : ℤ) :
    Inv { w with table := w.table.release pid, tasks, zombies } := by
  apply inv.shrink tasks zombies (inv.table.dropRows _) _ (fun _ _ present _ => present) fewer (fun _ _ _ current => current)
  intro row member
  rw [rows_dropRows] at member
  exact (mem_filter.mp member).1

omit inv in
theorem initExited_eq_vacate (present : table.slot ns = some slot) :
    table.initExited ns = table.vacate ns := by
  have unreferenced : (table.dropRows (·.ns == ns)).isReferenced ns = false := by
    rw [← Bool.not_eq_true, isReferenced_iff, rows_dropRows]
    rintro ⟨row, member, here⟩
    simp [here] at member
  simp only [initExited, unreferenced, slot_dropRows, present, Option.isSome_some, if_true, Bool.false_eq_true, if_false]
  rfl

theorem Inv.exit {t : Task} (member : t ∈ w.tasks)
    (last : w.endsNamespace reclaim t = true →
      (∀ c ∈ w.carriers, c.1 ≠ t.tid → c.2 ≠ t.ns) ∧ ¬IsParent w.table t.ns) : Inv (w.exit reclaim t) := by
  have fewer : (w.tasks.filter (·.tid != t.tid)).Sublist w.tasks := filter_sublist
  unfold World.exit
  split
  · exact inv.release _ _ fewer t.tid
  split
  · next ends =>
    obtain ⟨alone, leaf⟩ := last ends
    have nonzero : t.ns ≠ initialNs := by
      simp only [endsNamespace, Bool.and_eq_true, bne_iff_ne] at ends
      exact ends.1.1.2
    have carrier : (t.tid, t.ns) ∈ w.carriers := mem_append_left _ (mem_map_of_mem member)
    obtain ⟨initial, -⟩ | ⟨⟨slot, present, -⟩, -⟩ := (inv.carriers _ carrier).1
    · exact absurd initial nonzero
    rw [initExited_eq_vacate present]
    refine inv.shrink _ _ (inv.table.vacate present leaf) (fun row found => (mem_rows_vacate.mp found).1)
      (fun id slot found used => (slot_of_vacate present found used).2) fewer fun c found namespace_ current => ?_
    apply current.vacate present
    obtain task | clone := mem_append.mp found
    · obtain ⟨other, left, rfl⟩ := mem_map.mp task
      obtain ⟨left, different⟩ := mem_filter.mp left
      exact alone _ (mem_append_left _ (mem_map_of_mem left)) (by simpa using different)
    · obtain ⟨other, left, rfl⟩ := mem_map.mp clone
      exact alone _ (mem_append_right _ clone) (inv.clone_ne_task member left)
  · exact inv.shrink _ _ inv.table (fun _ found => found) (fun _ _ present _ => present) fewer fun _ _ _ current => current

/-- The number of a namespace that an id stands for. -/
theorem Inv.lt_length {namespace_ : ℕ} (current : Current w.history w.table ns namespace_) :
    namespace_ < w.history.enclosing.length := by
  obtain ⟨-, rfl⟩ | ⟨⟨slot, present, used⟩, rfl⟩ := current
  · exact inv.rooted
  · obtain ⟨outer, encloses, -⟩ := (inv.table.slots ns slot present used).nested
    exact (List.getElem?_eq_some_iff.mp encloses).1

/-- A pid that goes to no task. -/
theorem Inv.failStart (fresh : tid ∉ w.issued) (positive : 0 < tid) (small : tid < 2 ^ 31) :
    Inv { w with issued := tid :: w.issued, failed := ⟨tid, none⟩ :: w.failed } := { inv with
  carriers := fun c member => ⟨(inv.carriers c member).1, mem_cons_of_mem _ (inv.carriers c member).2⟩
  issued := ⟨nodup_cons.mpr ⟨fresh, inv.issued.1⟩, forall_mem_cons.mpr ⟨⟨positive, small⟩, inv.issued.2⟩⟩
  rows := fun row member => mem_cons_of_mem _ (inv.rows row member)
  failed := by
    refine forall_mem_cons.mpr ⟨⟨mem_cons_self, rfl, ?_, ?_⟩, ?_⟩
    · rintro row member rfl
      exact fresh (inv.rows row member)
    · rintro c member rfl
      exact fresh (inv.carriers _ (mem_append_right _ (mem_map_of_mem member))).2
    · intro f member
      obtain ⟨issued, rest⟩ := inv.failed f member
      exact ⟨mem_cons_of_mem _ issued, rest⟩
  counters := by
    intro id slot present used
    have := inv.counters id slot present used
    simp only [length_cons]
    push_cast
    omega
  spare := by
    have := inv.spare
    simp only [length_cons]
    omega }

/-- A clone starts with a fresh pid, in a namespace it joins or makes. -/
theorem Inv.addClone {h : History} (fresh : c.tid ∉ w.issued)
    (range : 0 < c.tid ∧ c.tid < 2 ^ 31) (pending : c.nsTid = none) (newpid : c.newpid = true → c.ns ≠ initialNs)
    (tableInv : TableInv h table) (nesting : Nesting h) (rooted : 0 < h.enclosing.length)
    (rows : table.rows = w.table.rows) (homes : ∀ pid ≠ c.tid, h.home pid = w.history.home pid)
    (keeps : ∀ ns namespace_, Current w.history w.table ns namespace_ → Current h table ns namespace_)
    (current : Current h table c.ns (h.home c.tid))
    (slots : ∀ id slot, table.slot id = some slot → slot.inUse = true → slot.nextPid = 1 ∨ w.table.slot id = some slot) :
    Inv { w with table, issued := c.tid :: w.issued, clones := c :: w.clones, history := h } := by
  have carrier : ∀ other ∈ World.carriers { w with clones := c :: w.clones }, other = (c.tid, c.ns) ∨ other ∈ w.carriers := by
    intro other member
    obtain task | clone := mem_append.mp member
    · exact .inr (mem_append_left _ task)
    · rw [map_cons, mem_cons] at clone
      exact clone.imp_right (mem_append_right _)
  have grown : unallocated (c :: w.clones) = unallocated w.clones + 1 := by
    rw [unallocated, countP_cons_of_pos (by simp [pending])]
    rfl
  constructor
  case table => exact tableInv
  case rooted => exact rooted
  case nesting => exact nesting
  case carriers =>
    intro other member
    obtain rfl | before := carrier other member
    · exact ⟨current, mem_cons_self⟩
    · obtain ⟨holds, issued⟩ := inv.carriers other before
      have different : other.1 ≠ c.tid := fun same => fresh (same ▸ issued)
      exact ⟨homes _ different ▸ keeps _ _ holds, mem_cons_of_mem _ issued⟩
  case issued => exact ⟨nodup_cons.mpr ⟨fresh, inv.issued.1⟩, forall_mem_cons.mpr ⟨range, inv.issued.2⟩⟩
  case rows => exact fun row member => mem_cons_of_mem _ (inv.rows row (rows ▸ member))
  case distinct =>
    have perm : (World.carriers { w with clones := c :: w.clones }).Perm ((c.tid, c.ns) :: w.carriers) :=
      perm_middle
    apply (perm.map (·.1)).nodup_iff.mpr
    refine nodup_cons.mpr ⟨?_, inv.distinct⟩
    intro taken
    obtain ⟨other, member, same⟩ := mem_map.mp taken
    exact fresh ((show other.1 = c.tid from same) ▸ (inv.carriers other member).2)
  case newpid => exact forall_mem_cons.mpr ⟨newpid, inv.newpid⟩
  case unregistered =>
    refine forall_mem_cons.mpr ⟨?_, ?_⟩
    · rintro - row member same
      exact fresh (same ▸ inv.rows row (rows ▸ member))
    · exact fun other member early row found => inv.unregistered other member early row (rows ▸ found)
  case failed =>
    intro f member
    obtain ⟨issued, unclaimed, noRow, apart⟩ := inv.failed f member
    refine ⟨mem_cons_of_mem _ issued, unclaimed, fun row found => noRow row (rows ▸ found), ?_⟩
    exact forall_mem_cons.mpr ⟨fun same => fresh (same ▸ issued), apart⟩
  case counters =>
    intro id slot present used
    have spare := inv.spare
    simp only [grown, length_cons]
    obtain first | before := slots id slot present used
    · push_cast
      omega
    · have := inv.counters id slot before used
      push_cast
      omega
  case spare =>
    have spare := inv.spare
    simp only [grown, length_cons]
    omega

theorem Inv.startClone {caller : Task} (member : caller ∈ w.tasks) {newpid thread : Bool} (fresh : tid ∉ w.issued)
    (positive : 0 < tid) (small : tid < 2 ^ 31)
    (vouched : newpid = true → reclaim = true → Vouched alive (w.carriers.map (·.2)) w.table) :
    Inv (w.startClone reclaim caller tid newpid thread seen alive) := by
  have carrier : (caller.tid, caller.ns) ∈ w.carriers := mem_append_left _ (mem_map_of_mem member)
  have callerCurrent := (inv.carriers _ carrier).1
  have unseen : ∀ row ∈ w.table.rows, row.internalPid ≠ tid := fun row found same => fresh (same ▸ inv.rows row found)
  unfold World.startClone
  split
  · next isNew =>
    obtain ⟨swept, sweptInv, keeps, outcome⟩ := create_spec caller.ns seen inv.table (vouched isNew)
    -- the sweep alone keeps the invariant
    have inv := inv.shrink w.tasks w.zombies sweptInv (fun row found => keeps.rows.subset found) keeps.slots
      (List.Sublist.refl _) fun c found namespace_ current =>
        keeps.current c.2 (mem_map_of_mem found) namespace_ current
    obtain none | ⟨id, old, present, unused, some⟩ := outcome
    · rw [none]
      exact inv.failStart fresh positive small
    · rw [some]
      have parentCurrent := keeps.current _ (mem_map_of_mem carrier) _ callerCurrent
      refine inv.addClone (c := ⟨tid, tid, id, true, none, none⟩) fresh ⟨positive, small⟩ rfl
        (fun _ => slot_ne_initial present)
        (sweptInv.claim inv.rooted present unused parentCurrent fun row found => unseen row (keeps.rows.subset found))
        ?_ ?_ rfl (fun pid other => home_recordNamespace other)
        (fun ns namespace_ current => current.claim present unused) ?_ ?_
      · intro inner outer encloses nonzero
        simp only [recordNamespace, getElem?_append] at encloses
        split at encloses
        · exact inv.nesting inner outer encloses nonzero
        · next outside =>
          obtain rfl : outer = w.history.home caller.tid := by
            rw [getElem?_singleton] at encloses
            split at encloses
            · exact (Option.some.inj encloses).symm
            · cases encloses
          have := inv.lt_length parentCurrent
          simp only at this outside
          omega
      · simp [recordNamespace]
      · refine .inr ⟨⟨_, by rw [slot_setSlot present, if_pos rfl], rfl⟩, ?_⟩
        simp [recordNamespace]
      · intro id' slot found used
        rw [slot_setSlot present] at found
        split at found
        · cases found
          exact .inl rfl
        · exact .inr found
  · have joins : ∀ c : Clone, c.tid = tid → c.ns = caller.ns → c.newpid = false → c.nsTid = none →
        Inv { w with
          issued := c.tid :: w.issued, clones := c :: w.clones
          history := recordTask w.history c.tid (w.history.home caller.tid) } := by
      rintro c rfl ns old pending
      refine inv.addClone fresh ⟨positive, small⟩ pending (by simp [old]) (inv.table.recordTask unseen) inv.nesting
        inv.rooted rfl (fun pid other => home_recordTask other) (fun ns namespace_ current => current) ?_
        fun id slot present used => .inr present
      rw [ns]
      simp only [recordTask, Function.update_self]
      exact callerCurrent
    split
    · exact joins _ rfl rfl rfl rfl
    · exact joins _ rfl rfl rfl rfl

omit inv in
/-- A list with distinct keys is one of its members and the others. -/
theorem perm_cons_filter {α : Type*} (key : α → ℤ) {items : List α} (distinct : (items.map key).Nodup) {item : α}
    (member : item ∈ items) : items.Perm (item :: items.filter (key · != key item)) := by
  induction items with
  | nil => cases member
  | cons first rest ih =>
    rw [map_cons, nodup_cons] at distinct
    obtain rfl | member := mem_cons.mp member
    · have others : rest.filter (key · != key item) = rest := by
        rw [filter_eq_self]
        intro other found
        have different : key other ≠ key item := fun same => distinct.1 (same ▸ mem_map_of_mem found)
        simpa using different
      rw [filter_cons_of_neg (by simp), others]
    · have different : key first ≠ key item := fun same => distinct.1 (same ▸ mem_map_of_mem member)
      rw [filter_cons_of_pos (by simpa using different)]
      exact ((ih distinct.2 member).cons first).trans (List.Perm.swap _ _ _)

section

variable (member : c ∈ w.clones)

include member

theorem Inv.clones_perm : w.clones.Perm (c :: w.withoutClone c.tid) := by
  have distinct := inv.distinct
  rw [World.carriers, map_append, nodup_append, map_map, map_map] at distinct
  exact perm_cons_filter (·.tid) distinct.2.1 member

/-- The clone at hand becomes another one, or a task, or is gone. -/
theorem Inv.carriers_perm :
    w.carriers.Perm ((c.tid, c.ns) :: World.carriers { w with clones := w.withoutClone c.tid }) :=
  (((inv.clones_perm member).map _).append_left _).trans perm_middle

theorem Inv.allocate (pending : c.nsTid = none)
    (room : ∃ n, Chain w.table c.ns n ∧ n ≤ w.table.freeRows) : Inv (w.allocate c) := by
  obtain ⟨n, chain, room⟩ := room
  have carrier : (c.tid, c.ns) ∈ w.carriers := mem_append_right _ (mem_map_of_mem member)
  obtain ⟨current, issued⟩ := inv.carriers _ carrier
  obtain ⟨positive, -⟩ := inv.issued.2 _ issued
  have clones := inv.clones_perm member
  have fewer : unallocated w.clones = unallocated (w.withoutClone c.tid) + 1 := by
    rw [unallocated, clones.countP_eq, countP_cons_of_pos (by simp [pending])]
    rfl
  have bound := length_lt_of_range inv.issued.1 inv.issued.2
  obtain ⟨after, nsTid, done, tableInv, keeps, counters⟩ :=
    allocateFrom_keeps (w.issued.length - unallocated w.clones) (w.table.freeRows + 1) none
      chain inv.nesting inv.table current Relation.ReflTransGen.refl
      (fun row found same => absurd same (inv.unregistered c member (.inl pending) row found))
      (fun id slot present used => by have := inv.counters id slot present used; omega)
      (fun id slot present used _ => by have := inv.counters id slot present used; omega)
      (by omega) room (by omega)
  have rows : ∀ row ∈ after.rows, row ∈ w.table.rows ∨ row.internalPid = c.tid := by
    intro row found
    obtain ⟨added, perm, own⟩ := allocateFrom_rows c.tid (w.table.freeRows + 1) w.table c.ns none
    rw [done] at perm
    obtain new | before := mem_append.mp (perm.mem_iff.mp found)
    · exact .inr (own row new)
    · exact .inl before
  have joined : c.ns = initialNs → after = w.table := by
    intro initial
    have absent : w.table.slot c.ns = none := by rw [initial]; rfl
    simp only [allocateFrom, absent] at done
    exact (congrArg Prod.fst done).symm
  have eq : w.table.allocate c.ns c.tid = (after, some nsTid) := by
    rw [PidNamespaceTable.allocate, if_neg (by simp only at positive; omega), done]
  unfold World.allocate
  rw [eq]
  have perm := inv.carriers_perm member
  have same : (World.carriers { w with clones := { c with nsTid := some nsTid } :: w.withoutClone c.tid }).Perm w.carriers :=
    perm_middle.trans perm.symm
  have grown : unallocated ({ c with nsTid := some nsTid } :: w.withoutClone c.tid) = unallocated (w.withoutClone c.tid) :=
    countP_cons_of_neg (by simp)
  refine { inv with
    table := tableInv
    carriers := ?carriers
    rows := ?rows
    distinct := (same.map _).nodup_iff.mpr inv.distinct
    newpid := ?newpid
    unregistered := ?unregistered
    failed := ?failed
    counters := ?counters
    spare := ?spare }
  case carriers =>
    intro other found
    obtain ⟨holds, issued⟩ := inv.carriers other (same.mem_iff.mp found)
    exact ⟨keeps _ _ holds, issued⟩
  case rows =>
    intro row found
    obtain before | new := rows row found
    · exact inv.rows row before
    · exact new ▸ issued
  case newpid =>
    refine forall_mem_cons.mpr ⟨inv.newpid c member, fun other found => ?_⟩
    exact inv.newpid other (mem_filter.mp found).1
  case unregistered =>
    refine forall_mem_cons.mpr ⟨?_, ?_⟩
    · rintro (allocated | initial) row found
      · cases allocated
      · exact inv.unregistered c member (.inl pending) row (joined initial ▸ found)
    · intro other found early row present
      obtain ⟨found, different⟩ := mem_filter.mp found
      obtain before | new := rows row present
      · exact inv.unregistered other found early row before
      · rw [new]
        exact fun same => by simp [same] at different
  case failed =>
    intro f found
    obtain ⟨issued, unclaimed, noRow, apart⟩ := inv.failed f found
    refine ⟨issued, unclaimed, fun row present => ?_, ?_⟩
    · obtain before | new := rows row present
      · exact noRow row before
      · exact new ▸ apart c member
    · exact forall_mem_cons.mpr ⟨apart c member, fun other found => apart other (mem_filter.mp found).1⟩
  case counters =>
    intro id slot present used
    have := counters id slot present used
    simp only [grown]
    omega
  case spare =>
    have := inv.spare
    simp only [grown]
    omega

/-- A clone that has its pids is dropped. -/
theorem Inv.dropClone (allocated : c.nsTid.isSome) :
    Inv { w with clones := w.withoutClone c.tid } := by
  have perm := inv.carriers_perm member
  have fewer : ∀ other ∈ w.withoutClone c.tid, other ∈ w.clones := fun other found => (mem_filter.mp found).1
  have same : unallocated (w.withoutClone c.tid) = unallocated w.clones := by
    rw [unallocated, unallocated, (inv.clones_perm member).countP_eq,
      countP_cons_of_neg (by simpa [Option.isSome_iff_ne_none] using allocated)]
  exact { inv with
    carriers := fun other found => inv.carriers other (perm.mem_iff.mpr (mem_cons_of_mem _ found))
    distinct := ((perm.map _).nodup_iff.mp inv.distinct).sublist ((sublist_cons_self _ _).map _)
    newpid := fun other found => inv.newpid other (fewer other found)
    unregistered := fun other found => inv.unregistered other (fewer other found)
    failed := fun f found =>
      have ⟨issued, unclaimed, noRow, apart⟩ := inv.failed f found
      ⟨issued, unclaimed, noRow, fun other found => apart other (fewer other found)⟩
    counters := by simpa only [same] using inv.counters
    spare := by simpa only [same] using inv.spare }

theorem Inv.finishClone (allocated : c.nsTid.isSome) {nsTid : ℤ}
    {spawned : Bool} (succeeds : spawned = true ∨ c.ns = initialNs) : Inv (w.finishClone c nsTid spawned) := by
  have perm := inv.carriers_perm member
  have dropped := inv.dropClone member allocated
  unfold World.finishClone
  split
  · exact { dropped with
      carriers := fun other found => inv.carriers other (perm.mem_iff.mpr found)
      distinct := (perm.map _).nodup_iff.mp inv.distinct }
  · next failed =>
    obtain succeeded | initial := succeeds
    · exact absurd succeeded failed
    have old : c.newpid = false := by
      cases new : c.newpid with
      | false => rfl
      | true => exact absurd initial (inv.newpid c member new)
    have issued : c.tid ∈ w.issued := (inv.carriers (c.tid, c.ns) (perm.mem_iff.mpr mem_cons_self)).2
    refine { dropped with failed := forall_mem_cons.mpr ⟨⟨issued, ?_, ?_, ?_⟩, dropped.failed⟩ }
    · simp [old]
    · exact inv.unregistered c member (.inr initial)
    · intro other found
      simpa using (mem_filter.mp found).2

end

theorem Inv.step {event : Event} (careful : Careful reclaim w event) : Inv (w.step reclaim event) := by
  cases event with
  | startClone caller tid newpid thread seen alive =>
    obtain ⟨fresh, positive, small, vouched⟩ := careful
    simp only [World.step]
    split
    · exact inv
    next task found =>
    split
    · exact inv
    · exact inv.startClone (mem_of_find?_eq_some found) fresh positive small vouched
  | allocate tid =>
    simp only [World.step]
    split
    · exact inv
    next c found =>
    have member := mem_of_find?_eq_some found
    have matched := find?_some found
    simp only [Bool.and_eq_true, beq_iff_eq, Option.isNone_iff_eq_none] at matched
    exact inv.allocate member matched.2 (careful c member matched.1 matched.2)
  | finishClone tid spawned =>
    simp only [World.step]
    split
    · exact inv
    next c found =>
    have member := mem_of_find?_eq_some found
    have matched := find?_some found
    simp only [Bool.and_eq_true, beq_iff_eq] at matched
    exact inv.finishClone member matched.2 (careful.imp_right fun initial => initial c member matched.1)
  | exit tid =>
    simp only [World.step]
    split
    · exact inv
    next t found =>
    have member := mem_of_find?_eq_some found
    have matched : t.tid = tid := by simpa using find?_some found
    subst matched
    exact inv.exit member (careful t member rfl)
  | reap pid =>
    simp only [World.step]
    split
    · exact inv.release _ _ (List.Sublist.refl _) pid
    · exact inv

end

/-- A whole clone that succeeds, with every process reported alive. -/
def cloned (caller tid : ℤ) (newpid : Bool) : List Event :=
  [.startClone caller tid newpid false 1 fun _ => true, .allocate tid, .finishClone tid true]

/-- The world after some events, in a session whose first process is 1. -/
def worldAfter (events : List Event) : World := Run.run (step true) (boot 1) events

theorem slot_all {holds : NamespaceSlot → Bool} (all : table.namespaces.all holds = true)
    (present : table.slot id = some slot) : holds slot = true := by
  unfold PidNamespaceTable.slot at present
  split at present
  · cases present
  · exact all_eq_true.mp all slot (mem_of_getElem? present)

theorem careful_first {caller : ℤ} (fresh : tid ∉ w.issued)
    (positive : 0 < tid) (small : tid < 2 ^ 31) (unused : w.table.namespaces.all (!·.inUse) = true) :
    Careful reclaim w (.startClone caller tid true false seen alive) := by
  refine ⟨fresh, positive, small, fun _ _ id slot present used => ?_⟩
  have free := slot_all unused present
  simp [used] at free

theorem careful_allocate (c : Clone) (slot : NamespaceSlot) (clones : w.clones = [c])
    (present : w.table.slot c.ns = some slot) (outermost : slot.parent = initialNs) (room : 0 < w.table.freeRows) :
    Careful reclaim w (.allocate c.tid) := by
  intro other member _ _
  rw [clones, mem_singleton] at member
  subst member
  exact ⟨1, .nested present (.initial (by rw [outermost]; rfl)), room⟩

theorem careful_exit (t other : Task) (tasks : w.tasks = [t, other]) (clones : w.clones = [])
    (apart : t.tid ≠ other.tid ∧ other.ns ≠ t.ns)
    (outermost : w.table.namespaces.all (·.parent != t.ns) = true) : Careful reclaim w (.exit t.tid) := by
  intro found member same _
  rw [tasks, mem_cons, mem_singleton] at member
  obtain rfl | rfl := member
  · constructor
    · intro c carrier different
      simp only [carriers, tasks, clones, map_cons, map_nil, append_nil, mem_cons, not_mem_nil, or_false] at carrier
      obtain rfl | rfl := carrier
      · exact absurd rfl different
      · exact apart.2
    · rintro ⟨id, slot, present, -, parent⟩
      have other := slot_all outermost present
      simp [parent] at other
  · exact absurd same.symm apart.1

/-- The first process makes a namespace, whose init forks and exits before its child. -/
def orphaned : List Event := cloned 1 2 true ++ cloned 2 3 false ++ [.exit 2]

theorem step_allocate (tid : ℤ) : (w.step reclaim (.allocate tid)).tasks = w.tasks ∧ (w.step reclaim (.allocate tid)).history = w.history := by
  simp only [step]
  split
  · exact ⟨rfl, rfl⟩
  · unfold World.allocate
    split <;> exact ⟨rfl, rfl⟩

theorem worldAfter_concat (events : List Event) (event : Event) :
    worldAfter (events ++ [event]) = (worldAfter events).step true event := by
  rw [worldAfter, Run.run, foldl_append]
  rfl

end LiteBox.PidNs
