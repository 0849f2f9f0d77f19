import LiteBox.Fd.Descriptors

/-! # Deferred closes of several processes

Every process of a fork family has its own descriptor table, and all of them share one array of
descriptors that wait to be closed. A queued descriptor is a bare index: the process that drains
the array looks it up in its own table. The model keeps beside each index the process that queued
it, which no operation looks at.
-/

namespace LiteBox.Fd

open Descriptors List Function

/-- A slot of `queued_for_closure`; `owner` is not part of the source's slot. -/
structure Queued (P : Type*) where
  raw : ℕ
  owner : P
deriving DecidableEq, Repr

/-- One process: its table, and its open descriptors. -/
structure Process (S : Type*) where
  table : Descriptors S
  opened : List ℕ

structure Family (P S : Type*) where
  process : P → Process S
  queue : List (Option (Queued P))

variable {P S : Type*}

/-! ## Draining -/

section Drain

variable [DecidableEq S] (subsystem : S)

/-- The entry a queued index resolves to: a live one of the subsystem whose lock can be taken. -/
def resolve (locked : ℕ → Bool) (table : Descriptors S) (queued : Queued P) : Option ℕ :=
  (table.lookup queued.raw).bind fun entry =>
    if locked entry.ptr then none else if entry.subsystem = subsystem then some entry.ptr else none

/-- The entries of the queued indices, each as often as it is queued. -/
def queuedEntries (locked : ℕ → Bool) (table : Descriptors S) (queue : List (Option (Queued P))) : List ℕ :=
  queue.filterMap fun slot => slot.bind (resolve subsystem locked table)

/-- Entries whose references are all queued, as far as the counts say. -/
def removableEntries (locked : ℕ → Bool) (table : Descriptors S) (queue : List (Option (Queued P))) : List ℕ :=
  (queuedEntries subsystem locked table queue).filter fun ptr =>
    table.strongCount ptr = (queuedEntries subsystem locked table queue).count ptr

/-- The second pass: remove the slots of the removable entries, and their queue slots. -/
def drainSlots (locked : ℕ → Bool) (removable : List ℕ) :
    Descriptors S → List (Option (Queued P)) → Descriptors S × List (Option (Queued P))
  | table, [] => (table, [])
  | table, slot :: rest =>
    match slot with
    | none =>
      let drained := drainSlots locked removable table rest
      (drained.1, none :: drained.2)
    | some queued =>
      match resolve subsystem locked table queued with
      | some ptr =>
        if ptr ∈ removable then
          let drained := drainSlots locked removable (table.setSlot queued.raw none) rest
          (drained.1, none :: drained.2)
        else
          let drained := drainSlots locked removable table rest
          (drained.1, some queued :: drained.2)
      | none =>
        let drained := drainSlots locked removable table rest
        (drained.1, some queued :: drained.2)

/-- `drain_entries_full_covered_by_nowait`. The two passes can find different locks taken; with none
taken, it is `drain_entries_full_covered_by`. -/
def drainEntriesFullCoveredByNowait (locked lockedLater : ℕ → Bool) (table : Descriptors S)
    (queue : List (Option (Queued P))) : Descriptors S × List (Option (Queued P)) :=
  drainSlots subsystem lockedLater (removableEntries subsystem locked table queue) table queue

end Drain

/-! ## The family -/

/-- What a process can do. A lock that is taken keeps a drain from an entry; a handle keeps the entry
referenced. -/
inductive Event (P S : Type*) where
  | insert (p : P) (subsystem : S)
  | duplicate (p : P) (fd : ℕ)
  | close (p : P) (fd : ℕ) (canCloseImmediately : Bool)
  | hold (p : P) (fd : ℕ)
  | release (p : P) (ptr : ℕ)
  | drain (p : P) (locked lockedLater : ℕ → Bool)

/-- Put a descriptor in the first free slot; when there is none, it is dropped. -/
def enqueue (queue : List (Option (Queued P))) (queued : Queued P) : List (Option (Queued P)) :=
  match queue with
  | [] => []
  | none :: rest => some queued :: rest
  | some other :: rest => some other :: enqueue rest queued

section Step

variable [DecidableEq P] [DecidableEq S] (subsystem : S)

def Family.set (family : Family P S) (p : P) (process : Process S) : Family P S :=
  { family with process := update family.process p process }

/-- One step; a call on a descriptor that the process does not have open changes nothing. -/
def stepFamily (family : Family P S) : Event P S → Family P S
  | .insert p kind =>
    let made := (family.process p).table.insert kind
    family.set p ⟨made.1, made.2 :: (family.process p).opened⟩
  | .duplicate p fd =>
    if fd ∈ (family.process p).opened then
      match (family.process p).table.duplicate fd with
      | some made => family.set p ⟨made.1, made.2 :: (family.process p).opened⟩
      | none => family
    else family
  | .close p fd canCloseImmediately =>
    if fd ∈ (family.process p).opened then
      match (family.process p).table.closeAndDuplicateIfShared fd canCloseImmediately with
      | some (table, .closed) => family.set p ⟨table, (family.process p).opened.erase fd⟩
      | some (table, .duplicated) =>
        { family.set p ⟨table, (family.process p).opened.erase fd⟩ with queue := enqueue family.queue ⟨fd, p⟩ }
      | some (table, .deferred) => family.set p ⟨table, (family.process p).opened⟩
      | none => family
    else family
  | .hold p fd =>
    match (family.process p).table.lookup fd with
    | some entry =>
      let table := (family.process p).table
      family.set p ⟨{ table with handles := update table.handles entry.ptr (table.handles entry.ptr + 1) },
        (family.process p).opened⟩
    | none => family
  | .release p ptr =>
    let table := (family.process p).table
    family.set p ⟨{ table with handles := update table.handles ptr (table.handles ptr - 1) }, (family.process p).opened⟩
  | .drain p locked lockedLater =>
    let drained := drainEntriesFullCoveredByNowait subsystem locked lockedLater (family.process p).table family.queue
    { family.set p ⟨drained.1, (family.process p).opened⟩ with queue := drained.2 }

end Step

/-- A family before any descriptor exists, with room for `capacity` queued ones. -/
def Family.start (P S : Type*) (capacity : ℕ) : Family P S := ⟨fun _ => ⟨.new, []⟩, List.replicate capacity none⟩

/-- A process has queued an index. -/
def QueuedBy (family : Family P S) (p : P) (raw : ℕ) : Prop := some ⟨raw, p⟩ ∈ family.queue

/-- What a step of a process may do to its table: a slot that it empties without being asked to named
an entry all of whose descriptors the process had queued itself, and none was open. -/
def RemovesOwn (before after : Family P S) (p : P) : Prop :=
  ∀ raw entry, (before.process p).table.lookup raw = some entry → (after.process p).table.lookup raw = none →
    ∀ other named, (before.process p).table.lookup other = some named → named.ptr = entry.ptr →
      QueuedBy before p other ∧ other ∉ (before.process p).opened

/-! ## What a drain removes -/

/-- Two queue slots that do not hold the same index of the same process. -/
def SlotsApart (first second : Option (Queued P)) : Prop :=
  ∀ x ∈ first, ∀ y ∈ second, x.owner = y.owner → x.raw ≠ y.raw

/-- No index that another process has queued names an entry of the subsystem in a process's table. -/
def OwnIndices (subsystem : S) (p : P) (table : Descriptors S) (queue : List (Option (Queued P))) : Prop :=
  ∀ queued, some queued ∈ queue → queued.owner ≠ p → ∀ entry, table.lookup queued.raw = some entry → entry.subsystem ≠ subsystem

section DrainSpec

variable [DecidableEq S] {subsystem : S} {locked : ℕ → Bool} {table : Descriptors S} {removable : List ℕ}
  {queue : List (Option (Queued P))} {p : P}

variable {queued : Queued P} {ptr raw : ℕ}

theorem resolve_eq_some (found : resolve subsystem locked table queued = some ptr) :
    ∃ entry, table.lookup queued.raw = some entry ∧ entry.subsystem = subsystem ∧ entry.ptr = ptr := by
  obtain ⟨entry, live, result⟩ := Option.bind_eq_some_iff.mp found
  split_ifs at result with busy matches_
  exact ⟨entry, live, matches_, Option.some.inj result⟩

/-- A slot that a drain may empty: it is queued and its entry is removable. -/
def MayEmpty (subsystem : S) (removable : List ℕ) (table : Descriptors S) (queue : List (Option (Queued P))) (raw : ℕ) : Prop :=
  (∃ queued, some queued ∈ queue ∧ queued.raw = raw) ∧
    ∃ entry, table.lookup raw = some entry ∧ entry.subsystem = subsystem ∧ entry.ptr ∈ removable

theorem MayEmpty.cons (may : MayEmpty subsystem removable table queue raw) (slot : Option (Queued P)) :
    MayEmpty subsystem removable table (slot :: queue) raw := by
  obtain ⟨⟨queued, member, raw_eq⟩, entry⟩ := may
  exact ⟨⟨queued, mem_cons_of_mem _ member, raw_eq⟩, entry⟩

theorem drainSlots_lookup (table : Descriptors S) (queue : List (Option (Queued P))) (raw : ℕ) :
    (drainSlots subsystem locked removable table queue).1.lookup raw = table.lookup raw ∨
      ((drainSlots subsystem locked removable table queue).1.lookup raw = none ∧
        MayEmpty subsystem removable table queue raw) := by
  induction queue generalizing table with
  | nil => exact .inl rfl
  | cons slot rest ih =>
    have later := (ih table).imp_right fun ⟨gone, may⟩ => And.intro gone (may.cons slot)
    unfold drainSlots
    split
    · exact later
    · next queued =>
      split
      · next ptr found =>
        split_ifs with is_removable
        · obtain ⟨entry, live, matches_, rfl⟩ := resolve_eq_some found
          have rest_done := ih (table.setSlot queued.raw none)
          by_cases same : raw = queued.raw
          · subst same
            rw [lookup_setSlot_self (lt_of_lookup live)] at rest_done
            refine .inr ⟨rest_done.elim id And.left, ⟨queued, mem_cons_self, rfl⟩, entry, live, matches_, is_removable⟩
          · rw [MayEmpty, lookup_setSlot_ne same] at rest_done
            exact rest_done.imp_right fun ⟨gone, may⟩ => ⟨gone, MayEmpty.cons may (some queued)⟩
        · exact later
      · exact later

/-- A drain only clears queue slots. -/
theorem drainSlots_queue (table : Descriptors S) (queue : List (Option (Queued P))) :
    List.Forall₂ (fun new old => new = old ∨ new = none) (drainSlots subsystem locked removable table queue).2 queue := by
  induction queue generalizing table with
  | nil => exact .nil
  | cons slot rest ih =>
    unfold drainSlots
    split
    · exact .cons (.inl rfl) (ih _)
    · split
      · split_ifs
        · exact .cons (.inr rfl) (ih _)
        · exact .cons (.inl rfl) (ih _)
      · exact .cons (.inl rfl) (ih _)

theorem mem_of_cleared {new old : List (Option (Queued P))}
    (cleared : List.Forall₂ (fun new old => new = old ∨ new = none) new old)
    (member : some queued ∈ new) : some queued ∈ old := by
  induction cleared with
  | nil => cases member
  | cons head _ ih =>
    rcases mem_cons.mp member with rfl | member
    · rcases head with rfl | gone
      · exact mem_cons_self
      · cases gone
    · exact mem_cons_of_mem _ (ih member)

theorem apart_of_cleared {new old : List (Option (Queued P))}
    (cleared : List.Forall₂ (fun new old => new = old ∨ new = none) new old) (apart : old.Pairwise SlotsApart) :
    new.Pairwise SlotsApart := by
  induction cleared with
  | nil => exact .nil
  | cons head rest ih =>
    obtain ⟨first, others⟩ := pairwise_cons.mp apart
    refine .cons (fun slot member => ?_) (ih others)
    intro x x_mem y y_mem same
    obtain rfl := Option.mem_def.mp y_mem
    rcases head with rfl | rfl
    · exact first _ (mem_of_cleared rest member) x x_mem y rfl same
    · cases x_mem

/-- An index that stays queued keeps its slot when every index that resolves is the drainer's own. -/
theorem drainSlots_live (table : Descriptors S) (queue : List (Option (Queued P))) (apart : queue.Pairwise SlotsApart)
    (own : OwnIndices subsystem p table queue)
    (stays : some ⟨raw, p⟩ ∈ (drainSlots subsystem locked removable table queue).2) (live : table.lookup raw ≠ none) :
    (drainSlots subsystem locked removable table queue).1.lookup raw ≠ none := by
  induction queue generalizing table with
  | nil => cases stays
  | cons slot rest ih =>
    obtain ⟨first, rest_apart⟩ := pairwise_cons.mp apart
    have own_rest : OwnIndices subsystem p table rest := fun queued member => own queued (mem_cons_of_mem _ member)
    -- a queued index that stays at the head is emptied by nobody behind it
    have keeps_head (queued : Queued P) (slot_eq : slot = some queued) (head : queued = ⟨raw, p⟩) :
        (drainSlots subsystem locked removable table rest).1.lookup raw ≠ none := by
      subst head slot_eq
      rcases drainSlots_lookup table rest raw with kept | ⟨-, ⟨other, member, raw_eq⟩, entry, found, matches_, -⟩
      · rwa [kept]
      · subst raw_eq
        by_cases owner : other.owner = p
        · exact absurd rfl (first (some other) member ⟨other.raw, p⟩ rfl other rfl owner.symm)
        · exact absurd matches_ (own_rest _ member owner entry found)
    have tail (queued : Queued P) (slot_eq : slot = some queued)
        (stays : some ⟨raw, p⟩ ∈ some queued :: (drainSlots subsystem locked removable table rest).2) :
        (drainSlots subsystem locked removable table rest).1.lookup raw ≠ none := by
      rcases mem_cons.mp stays with head | stays
      · exact keeps_head queued slot_eq (Option.some.inj head).symm
      · exact ih table rest_apart own_rest stays live
    unfold drainSlots at stays ⊢
    split at stays
    · exact ih table rest_apart own_rest ((mem_cons.mp stays).resolve_left (by simp)) live
    · next queued =>
      split at stays
      · next ptr found =>
        split_ifs at stays ⊢ with is_removable
        · obtain ⟨entry, head_live, matches_, -⟩ := resolve_eq_some found
          have stays := (mem_cons.mp stays).resolve_left (by simp)
          have owner : queued.owner = p := by
            by_contra foreign
            exact own queued mem_cons_self foreign entry head_live matches_
          have ne : raw ≠ queued.raw :=
            (first _ (mem_of_cleared (drainSlots_queue _ _) stays) _ rfl _ rfl owner).symm
          refine ih _ rest_apart ?_ stays (by rwa [lookup_setSlot_ne ne])
          intro other member foreign entry found
          by_cases same : other.raw = queued.raw
          · rw [same, lookup_setSlot_self (lt_of_lookup head_live)] at found
            cases found
          · rw [lookup_setSlot_ne same] at found
            exact own_rest other member foreign entry found
        · exact tail queued rfl stays
      · exact tail queued rfl stays

/-- The queued indices that resolve to an entry. -/
def resolvingTo (subsystem : S) (locked : ℕ → Bool) (table : Descriptors S) (queue : List (Option (Queued P)))
    (ptr : ℕ) : List ℕ :=
  queue.filterMap fun slot => slot.bind fun queued =>
    if resolve subsystem locked table queued = some ptr then some queued.raw else none

/-- The indices of the slots that name an entry. -/
def naming (table : Descriptors S) (ptr : ℕ) : List ℕ := (table.entries.zipIdx.filter fun slot => names ptr slot.1).map Prod.snd

theorem length_naming (table : Descriptors S) (ptr : ℕ) : (naming table ptr).length = table.entries.countP (names ptr) := by
  conv_rhs => rw [← zipIdx_map_fst 0 table.entries, countP_map, countP_eq_length_filter]
  rw [naming, length_map]
  rfl

theorem mem_naming : raw ∈ naming table ptr ↔ ∃ entry, table.lookup raw = some entry ∧ entry.ptr = ptr := by
  simp only [naming, mem_map, mem_filter, mem_zipIdx_iff_getElem?, lookup_eq_some, Prod.exists,
    exists_and_right, exists_eq_right, names, Option.any_eq_true, decide_eq_true_eq]
  constructor
  · rintro ⟨slot, found, entry, rfl, same⟩
    exact ⟨entry, found, same⟩
  · rintro ⟨entry, found, same⟩
    exact ⟨_, found, entry, rfl, same⟩

theorem mem_resolvingTo : raw ∈ resolvingTo subsystem locked table queue ptr ↔
    ∃ queued, some queued ∈ queue ∧ resolve subsystem locked table queued = some ptr ∧ queued.raw = raw := by
  simp only [resolvingTo, mem_filterMap, Option.bind_eq_some_iff, Option.ite_none_right_eq_some, Option.some.injEq]
  constructor
  · rintro ⟨slot, member, queued, rfl, found, same⟩
    exact ⟨queued, member, found, same⟩
  · rintro ⟨queued, member, found, same⟩
    exact ⟨_, member, queued, rfl, found, same⟩

theorem length_resolvingTo (ptr : ℕ) :
    (resolvingTo subsystem locked table queue ptr).length = (queuedEntries subsystem locked table queue).count ptr := by
  rw [resolvingTo, length_filterMap_eq_countP, queuedEntries, count_filterMap]
  refine countP_congr fun slot _ => ?_
  cases slot with
  | none => simp
  | some queued => simp only [Option.bind_some, beq_iff_eq]; split_ifs with same <;> simp [same]

theorem owner_of_resolve (own : OwnIndices subsystem p table queue)
    (member : some queued ∈ queue) (found : resolve subsystem locked table queued = some ptr) : queued.owner = p := by
  by_contra foreign
  obtain ⟨entry, live, matches_, -⟩ := resolve_eq_some found
  exact own queued member foreign entry live matches_

theorem nodup_resolvingTo (apart : queue.Pairwise SlotsApart) (own : OwnIndices subsystem p table queue) (ptr : ℕ) :
    (resolvingTo subsystem locked table queue ptr).Nodup := by
  rw [resolvingTo, List.Nodup, pairwise_filterMap]
  refine (pairwise_iff_forall_sublist.mpr fun {first second} both => ?_)
  have clear := pairwise_iff_forall_sublist.mp apart both
  intro raw first_eq other second_eq
  simp only [Option.bind_eq_some_iff, Option.ite_none_right_eq_some, Option.some.injEq] at first_eq second_eq
  obtain ⟨x, rfl, x_found, rfl⟩ := first_eq
  obtain ⟨y, rfl, y_found, rfl⟩ := second_eq
  refine clear x rfl y rfl ?_
  rw [owner_of_resolve own (both.subset mem_cons_self) x_found,
    owner_of_resolve own (both.subset (mem_cons_of_mem _ mem_cons_self)) y_found]

/-- When every index that resolves is the process's own, a removable entry has all its descriptors queued: there
are as many queued indices as references, and no two queued indices are the same. -/
theorem queued_of_removable (apart : queue.Pairwise SlotsApart) (own : OwnIndices subsystem p table queue)
    (removable : ptr ∈ removableEntries subsystem locked table queue) {entry : EntryRef S}
    (found : table.lookup raw = some entry) (named : entry.ptr = ptr) : some ⟨raw, p⟩ ∈ queue := by
  have counts : table.strongCount ptr = (queuedEntries subsystem locked table queue).count ptr := by
    simpa using (mem_filter.mp removable).2
  have subset : resolvingTo subsystem locked table queue ptr ⊆ naming table ptr := by
    intro raw member
    obtain ⟨queued, -, found, rfl⟩ := mem_resolvingTo.mp member
    obtain ⟨entry, live, -, same⟩ := resolve_eq_some found
    exact mem_naming.mpr ⟨entry, live, same⟩
  have perm := (subperm_of_subset (nodup_resolvingTo apart own ptr) subset).perm_of_length_le (by
    rw [length_naming, length_resolvingTo, ← counts, strongCount]
    omega)
  obtain ⟨queued, member, resolved, rfl⟩ := mem_resolvingTo.mp (perm.mem_iff.mpr (mem_naming.mpr ⟨entry, found, named⟩))
  rwa [← owner_of_resolve own member resolved]

end DrainSpec

/-! ## Runs -/

/-- What holds between the tables and the queue as long as every drain meets only its own indices. -/
structure InOrder (family : Family P S) : Prop where
  opened_nodup : ∀ p, (family.process p).opened.Nodup
  apart : family.queue.Pairwise SlotsApart
  opened_live : ∀ p, ∀ raw ∈ (family.process p).opened, (family.process p).table.lookup raw ≠ none
  queued_live : ∀ p raw, QueuedBy family p raw → (family.process p).table.lookup raw ≠ none
  unqueued : ∀ p, ∀ raw ∈ (family.process p).opened, ¬QueuedBy family p raw

theorem InOrder.start (P S : Type*) (capacity : ℕ) : InOrder (Family.start P S capacity) where
  opened_nodup _ := nodup_nil
  apart := pairwise_replicate.mpr (.inr fun _ x_mem => by cases x_mem)
  opened_live _ _ member := by cases member
  queued_live _ _ queued := by cases (mem_replicate.mp queued).2
  unqueued _ _ member := by cases member

variable {queue : List (Option (Queued P))}

theorem mem_enqueue {queued other : Queued P}
    (member : some other ∈ enqueue queue queued) : some other ∈ queue ∨ other = queued := by
  induction queue with
  | nil => cases member
  | cons slot rest ih =>
    cases slot with
    | none =>
      rcases mem_cons.mp member with same | member
      · exact .inr (Option.some.inj same)
      · exact .inl (mem_cons_of_mem _ member)
    | some head =>
      rcases mem_cons.mp member with same | member
      · exact .inl (mem_cons.mpr (.inl same))
      · exact (ih member).imp_left (mem_cons_of_mem _)

theorem SlotsApart.symm {first second : Option (Queued P)} (clear : SlotsApart first second) : SlotsApart second first :=
  fun x x_mem y y_mem owner => (clear y y_mem x x_mem owner.symm).symm

theorem apart_enqueue {queued : Queued P} (apart : queue.Pairwise SlotsApart)
    (fresh : some queued ∉ queue) : (enqueue queue queued).Pairwise SlotsApart := by
  have clear {slot : Option (Queued P)} {rest : List (Option (Queued P))} (member : slot ∈ rest)
      (fresh : some queued ∉ rest) : SlotsApart slot (some queued) := by
    intro x x_mem y y_mem owner raw
    obtain rfl := Option.some.inj y_mem
    obtain rfl := Option.mem_def.mp x_mem
    obtain rfl : x = queued := by
      cases x
      cases queued
      simp_all
    exact fresh member
  induction queue with
  | nil => exact .nil
  | cons slot rest ih =>
    obtain ⟨first, rest_apart⟩ := pairwise_cons.mp apart
    have fresh_rest : some queued ∉ rest := fun member => fresh (mem_cons_of_mem _ member)
    cases slot with
    | none => exact .cons (fun other member => (clear member fresh_rest).symm) rest_apart
    | some head =>
      refine .cons (fun other member => ?_) (ih rest_apart fresh_rest)
      cases other with
      | none => exact fun _ _ y y_mem => by cases y_mem
      | some other =>
        rcases mem_enqueue member with member | rfl
        · exact first _ member
        · exact clear mem_cons_self fresh

section Update

variable [DecidableEq P] {family : Family P S} {p : P}

@[simp] theorem Family.set_self (family : Family P S) (p : P) (process : Process S) :
    (family.set p process).process p = process := update_self ..

theorem Family.set_ne (family : Family P S) {p q : P} (process : Process S) (ne : q ≠ p) :
    (family.set p process).process q = family.process q := update_of_ne ne ..

/-- Changing one process keeps the order when that process is still in order with the new queue, and
the queue has gained nothing of other processes. -/
theorem InOrder.update (order : InOrder family) {process : Process S}
    (nodup : process.opened.Nodup) (apart : queue.Pairwise SlotsApart)
    (opened_live : ∀ raw ∈ process.opened, process.table.lookup raw ≠ none)
    (queued_live : ∀ raw, some ⟨raw, p⟩ ∈ queue → process.table.lookup raw ≠ none)
    (unqueued : ∀ raw ∈ process.opened, some ⟨raw, p⟩ ∉ queue)
    (others : ∀ q raw, q ≠ p → some ⟨raw, q⟩ ∈ queue → QueuedBy family q raw) :
    InOrder { family.set p process with queue := queue } where
  opened_nodup q := by
    by_cases same : q = p
    · subst same
      simpa using nodup
    · simpa [Family.set_ne family process same] using order.opened_nodup q
  apart := apart
  opened_live q := by
    by_cases same : q = p
    · subst same
      simpa using opened_live
    · simpa [Family.set_ne family process same] using order.opened_live q
  queued_live q raw queued := by
    by_cases same : q = p
    · subst same
      simpa using queued_live raw queued
    · simpa [Family.set_ne family process same] using order.queued_live q raw (others q raw same queued)
  unqueued q raw member queued := by
    by_cases same : q = p
    · subst same
      exact unqueued raw (by simpa using member) queued
    · rw [Family.set_ne family process same] at member
      exact order.unqueued q raw member (others q raw same queued)

theorem InOrder.add (order : InOrder family) {next : Descriptors S} {idx : ℕ} (adds : Adds (family.process p).table next idx) :
    InOrder (family.set p ⟨next, idx :: (family.process p).opened⟩) := by
  have not_opened : idx ∉ (family.process p).opened := fun member => order.opened_live p idx member adds.was_empty
  have not_queued : ¬QueuedBy family p idx := fun queued => order.queued_live p idx queued adds.was_empty
  refine order.update (nodup_cons.mpr ⟨not_opened, order.opened_nodup p⟩) order.apart ?_ ?_ ?_ fun _ _ _ => id
  · intro raw member
    by_cases same : raw = idx
    · exact same ▸ adds.now_live
    · rw [adds.others raw same]
      exact order.opened_live p raw ((mem_cons.mp member).resolve_left same)
  · intro raw queued
    rw [adds.others raw fun same => not_queued (same ▸ queued)]
    exact order.queued_live p raw queued
  · intro raw member queued
    rcases mem_cons.mp member with rfl | member
    · exact not_queued queued
    · exact order.unqueued p raw member queued

end Update

section Steps

variable [DecidableEq P] [DecidableEq S] {subsystem : S} {family : Family P S} {p : P}

/-- The condition on a step: a drain meets no index that another process has queued and that names an
entry of the subsystem in the drainer's own table. -/
def MeetsOwnIndices (subsystem : S) (family : Family P S) : Event P S → Prop
  | .drain p _ _ => OwnIndices subsystem p (family.process p).table family.queue
  | _ => True

/-- What is promised of a step: a drain removes only what its own process has fully queued. -/
def DrainsOwn (subsystem : S) (family : Family P S) (event : Event P S) : Prop :=
  match event with
  | .drain p _ _ => RemovesOwn family (stepFamily subsystem family event) p
  | _ => True

theorem drainsOwn_of_meetsOwn (order : InOrder family) {event : Event P S}
    (meets : MeetsOwnIndices subsystem family event) : DrainsOwn subsystem family event := by
  cases event with
  | drain p locked lockedLater =>
    intro raw entry found gone other named other_found same
    rcases drainSlots_lookup (family.process p).table family.queue raw with kept | ⟨-, -, entry', found', -, removable⟩
    · refine absurd (kept.symm.trans ?_) (by rw [found]; exact Option.some_ne_none _)
      simpa [stepFamily, drainEntriesFullCoveredByNowait] using gone
    · cases found.symm.trans found'
      have queued := queued_of_removable order.apart meets removable other_found same
      exact ⟨queued, fun member => order.unqueued p other member queued⟩
  | _ => trivial

theorem inOrder_step (order : InOrder family) (event : Event P S) (meets : MeetsOwnIndices subsystem family event) :
    InOrder (stepFamily subsystem family event) := by
  cases event with
  | insert p kind => exact order.add (insert_adds _)
  | duplicate p fd =>
    simp only [stepFamily]
    split_ifs with is_open
    · split
      · next made made_eq => exact order.add (duplicate_adds made_eq)
      · exact order
    · exact order
  | close p fd canCloseImmediately =>
    simp only [stepFamily]
    split_ifs with is_open
    · -- the descriptor leaves the open ones, by being closed or by being queued
      have nodup := (order.opened_nodup p).erase fd
      have was_open {raw : ℕ} (member : raw ∈ (family.process p).opened.erase fd) :
          raw ≠ fd ∧ raw ∈ (family.process p).opened := (order.opened_nodup p).mem_erase_iff.mp member
      have unqueued := order.unqueued p fd is_open
      unfold closeAndDuplicateIfShared
      cases found : (family.process p).table.lookup fd with
      | none => exact order
      | some entry =>
        by_cases last : (family.process p).table.strongCount entry.ptr = 1
        · cases canCloseImmediately with
          | true =>
            simp only [last, if_true]
            refine order.update nodup order.apart ?_ ?_ ?_ fun _ _ _ => id
            · intro raw member
              rw [lookup_setSlot_ne (was_open member).1]
              exact order.opened_live p raw (was_open member).2
            · intro raw queued
              have ne : raw ≠ fd := by
                rintro rfl
                exact unqueued queued
              rw [lookup_setSlot_ne ne]
              exact order.queued_live p raw queued
            · exact fun raw member => order.unqueued p raw (was_open member).2
          | false =>
            simp only [last, if_true]
            exact order.update (order.opened_nodup p) order.apart (order.opened_live p) (order.queued_live p)
              (order.unqueued p) fun _ _ _ => id
        · simp only [last, if_false]
          refine order.update nodup (apart_enqueue order.apart unqueued) ?_ ?_ ?_ ?_
          · exact fun raw member => order.opened_live p raw (was_open member).2
          · intro raw queued
            rcases mem_enqueue queued with queued | same
            · exact order.queued_live p raw queued
            · cases same
              exact order.opened_live p fd is_open
          · intro raw member queued
            rcases mem_enqueue queued with queued | same
            · exact order.unqueued p raw (was_open member).2 queued
            · exact (was_open member).1 (congrArg Queued.raw same)
          · intro q raw ne queued
            rcases mem_enqueue queued with queued | same
            · exact queued
            · exact absurd (congrArg Queued.owner same) ne
    · exact order
  | hold p fd =>
    simp only [stepFamily]
    split
    · exact order.update (order.opened_nodup p) order.apart (order.opened_live p) (order.queued_live p)
        (order.unqueued p) fun _ _ _ => id
    · exact order
  | release p ptr =>
    exact order.update (order.opened_nodup p) order.apart (order.opened_live p) (order.queued_live p)
      (order.unqueued p) fun _ _ _ => id
  | drain p locked lockedLater =>
    have own : OwnIndices subsystem p (family.process p).table family.queue := meets
    refine order.update (order.opened_nodup p) (apart_of_cleared (drainSlots_queue _ _) order.apart) ?_ ?_ ?_ ?_
    · intro raw member
      rcases drainSlots_lookup (family.process p).table family.queue raw with kept | ⟨-, ⟨queued, queued_mem, raw_eq⟩, entry,
          found, matches_, -⟩
      · exact kept ▸ order.opened_live p raw member
      · -- the index that emptied an open slot would be the process's own
        have owner : queued.owner = p := by
          by_contra foreign
          exact own queued queued_mem foreign entry (raw_eq ▸ found) matches_
        subst raw_eq owner
        exact absurd queued_mem (order.unqueued _ _ member)
    · intro raw queued
      exact drainSlots_live _ _ order.apart own queued (order.queued_live p raw (mem_of_cleared (drainSlots_queue _ _) queued))
    · exact fun raw member queued => order.unqueued p raw member (mem_of_cleared (drainSlots_queue _ _) queued)
    · exact fun q raw _ queued => mem_of_cleared (drainSlots_queue _ _) queued

/-- In every run in which no drain meets a foreign index that names an entry of the drainer, each drain
removes only entries whose descriptors its own process had all queued, none of them open. -/
theorem drains_own_of_own_indices (subsystem : S) (capacity : ℕ) (events : List (Event P S))
    (meets : Run.Always (stepFamily subsystem) (MeetsOwnIndices subsystem) (Family.start P S capacity) events) :
    Run.Always (stepFamily subsystem) (DrainsOwn subsystem) (Family.start P S capacity) events :=
  meets.imp InOrder (InOrder.start P S capacity) (fun _ event order meets => inOrder_step order event meets)
    fun _ _ order meets => drainsOwn_of_meetsOwn order meets

end Steps

/-- Process 0 closes both of its descriptors for a socket and drains. -/
def ownClose : List (Event (Fin 2) Bool) :=
  [.insert 0 true, .duplicate 0 0, .close 0 0 true, .close 0 1 true, .drain 0 (fun _ => false) (fun _ => false)]

theorem drains_own_of_own_indices_ownClose :
    Run.Always (stepFamily true) (DrainsOwn true) (Family.start (Fin 2) Bool 4) ownClose := by
  refine drains_own_of_own_indices true 4 ownClose ⟨trivial, trivial, trivial, trivial, ?_, trivial⟩
  intro queued member foreign
  have owner : queued.owner = 0 := by
    revert member
    have queue_eq : (Run.run (stepFamily true) (Family.start (Fin 2) Bool 4) (ownClose.take 4)).queue =
        [some ⟨0, 0⟩, some ⟨1, 0⟩, none, none] := by decide
    change some queued ∈ (Run.run (stepFamily true) (Family.start (Fin 2) Bool 4) (ownClose.take 4)).queue → _
    rw [queue_eq]
    intro member
    simp at member
    rcases member with rfl | rfl
    all_goals rfl
  exact absurd owner foreign

/-- Both processes have a socket as descriptor 0. Process 1 duplicates and closes its own, and process 0
then drains: its open socket is gone. -/
def foreignClose : List (Event (Fin 2) Bool) :=
  [.insert 0 true, .insert 1 true, .duplicate 1 0, .close 1 0 true]

theorem foreign_index_closes_open_socket :
    let family := Run.run (stepFamily true) (Family.start (Fin 2) Bool 4) foreignClose
    (family.process 0).opened = [0] ∧ ¬DrainsOwn true family (.drain 0 (fun _ => false) (fun _ => false)) := by
  refine ⟨by decide, fun drains => ?_⟩
  exact absurd mem_cons_self (drains 0 ⟨0, true⟩ (by decide) (by decide) 0 ⟨0, true⟩ (by decide) rfl).2

end LiteBox.Fd
