import LiteBox.Lib.Run
import LiteBox.Xproc.ProcessTable

/-! # Signals reach their process

What holds of the shared process table in every interleaving in which no free slot is claimed while
another caller is still at work on it, and no pid is claimed twice: a pid has one slot, a signal that was
posted stays in it until it is taken, and it is taken by nobody else. A caller checks the pid of a slot
and then writes to the slot; when the slot changes hands in between, each of these fails.
-/

namespace LiteBox.Xproc

open Signals Threads Function SigSet Shared List Ledger Place

def Within (a b : SigSet) : Prop := ∀ s, a.contains s = true → b.contains s = true

theorem Within.trans {a b c : SigSet} (first : Within a b) (second : Within b c) : Within a c :=
  fun s member => second s (first s member)

theorem empty_within (a : SigSet) : Within .empty a := by
  intro s member
  simp at member

theorem within_add (a : SigSet) (s : Signal) : Within a (a.add s) := by
  intro t member
  simp [member]

theorem Within.add {a b : SigSet} (within : Within a b) (s : Signal) : Within (a.add s) (b.add s) := by
  intro t member
  simp only [contains_add, Bool.or_eq_true] at member ⊢
  exact member.imp_left (within t)

/-! ## The invariant -/

structure SlotInv (ledger : Ledger) (i : ℕ) (slot : ProcessSlot) : Prop where
  range : slot.pid = slotFree ∨ slot.pid = slotClaiming ∨ 0 < slot.pid
  owner : 0 < slot.pid → ledger.owner i = slot.pid
  posted : slot.pid ≠ slotClaiming → Within slot.pending (ledger.posted (ledger.owner i))
  owed : 0 < slot.pid → Within (ledger.owed slot.pid) slot.pending
  leaving : 0 < slot.pid → ledger.leaving i = true → Within (ledger.owed slot.pid) .empty

structure SharedInv (s : Shared) : Prop where
  slots : ∀ (i : ℕ) (slot : ProcessSlot), s.slots[i]? = some slot → SlotInv s.ledger i slot
  unique : ∀ (i j : ℕ) (a b : ProcessSlot), s.slots[i]? = some a → s.slots[j]? = some b → 0 < a.pid → a.pid = b.pid → i = j

/-- A caller has checked that the slot is the one of `pid`, and the slot has not changed hands since. -/
structure Engaged (s : Shared) (i : ℕ) (pid : ℤ) : Prop where
  positive : 0 < pid
  owner : s.ledger.owner i = pid
  slot : ∃ slot, s.slots[i]? = some slot ∧ (slot.pid = pid ∨ slot.pid = slotFree)

variable {i : ℕ}

/-- Nobody is engaged at a slot that is being filled. -/
theorem Engaged.pid_ne {s : Shared} {pid : ℤ} {slot : ProcessSlot} (engaged : Engaged s i pid)
    (present : s.slots[i]? = some slot) : slot.pid ≠ slotClaiming := by
  obtain ⟨positive, -, found, there, held⟩ := engaged
  cases present.symm.trans there
  intro claimed
  obtain same | free := held
  · exact absurd (claimed.symm.trans same ▸ positive) (by decide)
  · exact absurd (claimed.symm.trans free) (by decide)

/-- The store of the pending signals is behind. -/
def FillStage.emptied : FillStage → Bool
  | .owns | .publish => true
  | _ => false

/-- No slot has this pid. -/
def Absent (s : Shared) (pid : ℤ) : Prop := ∀ (j : ℕ) (slot : ProcessSlot), s.slots[j]? = some slot → slot.pid ≠ pid

structure Filling (s : Shared) (a : Args) (i : ℕ) (stage : FillStage) : Prop where
  positive : 0 < a.pid
  slot : ∃ slot, s.slots[i]? = some slot ∧ slot.pid = slotClaiming ∧ (stage.emptied = true → slot.pending = .empty)
  absent : Absent s a.pid

/-- What is known of a caller at each place. -/
def Assertion (s : Shared) : Place → Prop
  | .find (.register a) pid _ => 0 < pid ∧ 0 < a.pid
  | .find _ pid _ => 0 < pid
  | .claim a _ _ | .sweepPid (.retry a) _ _ => 0 < a.pid
  | .sweepHost (.retry a) _ _ pid | .sweepFree (.retry a) _ _ pid => 0 < a.pid ∧ 0 < pid
  | .sweepHost .alone _ _ pid | .sweepFree .alone _ _ pid => 0 < pid
  | .sweepClear (.retry a) i _ pid _ => 0 < a.pid ∧ Engaged s i pid ∧ s.ledger.leaving i = true
  | .sweepClear .alone i _ pid _ => Engaged s i pid ∧ s.ledger.leaving i = true
  | .fill a i stage => Filling s a i stage
  | .unregisterClear pid i _ | .unregisterFree pid i => Engaged s i pid ∧ s.ledger.leaving i = true
  | .postOr i pid _ | .takeSwap i pid => Engaged s i pid
  | .returned (.taken pid bits) => Within bits (s.ledger.posted pid)
  | _ => True

/-- Two callers do not fill one slot, nor slots for one pid. -/
def Apart : Place → Place → Prop
  | .fill a i _, .fill b j _ => i ≠ j ∧ a.pid ≠ b.pid
  | _, _ => True

abbrev Inv (w : Processes) : Prop := Holds SharedInv Assertion Apart w

/-! ## What a step can do -/

/-- The effects a step may have on the pid and the pending signals of its slot, and on the ledger. -/
inductive Change (s : Shared) (i : ℕ) (slot : ProcessSlot) : ProcessSlot → Ledger → Prop where
  | quiet {slot' : ProcessSlot} (pid : slot'.pid = slot.pid) (pending : slot'.pending = slot.pending) :
      Change s i slot slot' s.ledger
  | leave {pid : ℤ} (positive : 0 < pid) (held : slot.pid = pid) : Change s i slot slot (s.ledger.leave pid i)
  | claim (free : slot.pid = slotFree) : Change s i slot { slot with pid := slotClaiming } s.ledger
  | reset (claimed : slot.pid = slotClaiming) : Change s i slot { slot with pending := .empty } s.ledger
  | publish {pid : ℤ} (positive : 0 < pid) (claimed : slot.pid = slotClaiming) (emptied : slot.pending = .empty)
      (absent : Absent s pid) : Change s i slot { slot with pid } (s.ledger.publish pid i)
  | free {pid : ℤ} (positive : 0 < pid) (held : slot.pid = pid) (ledger : Ledger)
      (left : ledger = s.ledger ∨ ledger = s.ledger.leave pid i) :
      Change s i slot { slot with pid := slotFree } ledger
  | empty {pid : ℤ} (engaged : Engaged s i pid) (released : slot.pid = pid → Within (s.ledger.owed pid) .empty) :
      Change s i slot { slot with pending := .empty } s.ledger
  | post {pid : ℤ} (engaged : Engaged s i pid) (signal : Signal) :
      Change s i slot { slot with pending := slot.pending.add signal } (s.ledger.post slot.pid pid i signal)
  | take {pid : ℤ} (engaged : Engaged s i pid) :
      Change s i slot { slot with pending := .empty } (s.ledger.take pid slot.pending)

/-- The table after a step on slot `i`. -/
def Shared.put (s : Shared) (i : ℕ) (slot : ProcessSlot) (ledger : Ledger) : Shared := ⟨s.slots.set i slot, ledger⟩

variable {ledger : Ledger} {j : ℕ}

theorem Shared.slots_put {s : Shared} {slot slot' found : ProcessSlot}
    (present : s.slots[i]? = some slot) (after : (s.put i slot' ledger).slots[j]? = some found) :
    j = i ∧ found = slot' ∨ j ≠ i ∧ s.slots[j]? = some found := by
  simp only [put] at after
  by_cases same : j = i
  · subst same
    rw [List.getElem?_set_self (List.getElem?_eq_some_iff.mp present).1] at after
    exact .inl ⟨rfl, (Option.some.inj after).symm⟩
  · rw [getElem?_set_ne (Ne.symm same)] at after
    exact .inr ⟨same, after⟩

theorem Shared.slots_put_self {s : Shared} {slot slot' : ProcessSlot}
    (present : s.slots[i]? = some slot) : (s.put i slot' ledger).slots[i]? = some slot' := by
  simp only [put]
  rw [List.getElem?_set_self (List.getElem?_eq_some_iff.mp present).1]

theorem Shared.slots_put_of_ne {s : Shared} {slot' : ProcessSlot} (other : j ≠ i) :
    (s.put i slot' ledger).slots[j]? = s.slots[j]? := by
  simp only [put]
  rw [getElem?_set_ne (Ne.symm other)]

variable {s : Shared} {i : ℕ} {slot slot' : ProcessSlot} {ledger : Ledger} {stage : FillStage} {a : Args}

section

variable (change : Change s i slot slot' ledger)

include change

/-- The pid of the slot stays, or it is freed, claimed, or published for a pid that no slot has. -/
theorem Change.pid :
    slot'.pid = slot.pid ∨ slot'.pid = slotFree ∨ slot'.pid = slotClaiming ∨
      slot.pid = slotClaiming ∧ 0 < slot'.pid ∧ Absent s slot'.pid := by
  cases change with
  | quiet pid pending => exact .inl pid
  | leave positive held => exact .inl rfl
  | claim free => exact .inr (.inr (.inl rfl))
  | reset claimed => exact .inl rfl
  | publish positive claimed emptied absent => exact .inr (.inr (.inr ⟨claimed, positive, absent⟩))
  | free positive held ledger left => exact .inr (.inl rfl)
  | empty | post | take => exact .inl rfl

/-- What a step on slot `i` leaves of the ledger for the other slots. -/
structure LeavesAlone (s : Shared) (i : ℕ) (ledger : Ledger) : Prop where
  posted : ∀ pid, Within (s.ledger.posted pid) (ledger.posted pid)
  places : ∀ j ≠ i, ledger.owner j = s.ledger.owner j ∧ ledger.leaving j = s.ledger.leaving j
  owed : ∀ (j : ℕ) (found : ProcessSlot), j ≠ i → s.slots[j]? = some found → 0 < found.pid →
    Within (ledger.owed found.pid) (s.ledger.owed found.pid)

theorem Change.ledger_elsewhere (inv : SharedInv s) (present : s.slots[i]? = some slot) :
    LeavesAlone s i ledger := by
  have elsewhere : ∀ (j : ℕ) (found : ProcessSlot), j ≠ i → s.slots[j]? = some found → 0 < found.pid →
      found.pid ≠ slot.pid := by
    intro j found other there positive same
    exact other (inv.unique j i found slot there present positive same)
  have unchanged : LeavesAlone s i s.ledger :=
    ⟨fun _ _ member => member, fun _ _ => ⟨rfl, rfl⟩, fun _ _ _ _ _ _ member => member⟩
  have leaves : ∀ pid, slot.pid = pid → LeavesAlone s i (s.ledger.leave pid i) := by
    intro pid held
    refine ⟨unchanged.posted, fun j other => ⟨rfl, update_of_ne other _ _⟩, ?_⟩
    intro j found other there above
    simp only [Ledger.leave, update_of_ne (held ▸ elsewhere j found other there above)]
    exact unchanged.owed j found other there above
  cases change with
  | quiet | claim | reset | empty => exact unchanged
  | leave positive held => exact leaves _ held
  | publish positive claimed emptied absent =>
    refine ⟨unchanged.posted, fun j other => ⟨update_of_ne other _ _, update_of_ne other _ _⟩, ?_⟩
    intro j found other there above
    simp only [Ledger.publish, update_of_ne (absent j found there)]
    exact unchanged.owed j found other there above
  | free positive held ledger left =>
    obtain rfl | rfl := left
    · exact unchanged
    · exact leaves _ held
  | @post pid engaged signal =>
    refine ⟨fun other => ?_, unchanged.places, ?_⟩
    · by_cases same : other = pid
      · subst same
        simp only [Ledger.post, update_self]
        exact within_add _ _
      · simp only [Ledger.post, update_of_ne same]
        exact unchanged.posted other
    · intro j found other there above
      simp only [Ledger.post]
      split
      · next held =>
        rw [update_of_ne (held.1 ▸ elsewhere j found other there above)]
        exact unchanged.owed j found other there above
      · exact unchanged.owed j found other there above
  | @take pid engaged =>
    refine ⟨unchanged.posted, unchanged.places, ?_⟩
    intro j found other there above sig member
    simp only [Ledger.take] at member
    by_cases same : found.pid = pid
    · rw [same, update_self, contains_and, Bool.and_eq_true] at member
      exact same ▸ member.1
    · rwa [update_of_ne same] at member

/-- The slot of a step is in order afterwards. -/
theorem Change.slot_keeps (inv : SlotInv s.ledger i slot) : SlotInv ledger i slot' := by
  obtain ⟨range, owner, posted, owed, leaving⟩ := inv
  have claiming : ¬0 < slotClaiming := by decide
  have free : ¬0 < slotFree := by decide
  have different : slotFree ≠ slotClaiming := by decide
  cases change with
  | quiet pid pending =>
    rw [← pid] at range owner posted owed leaving
    rw [← pending] at posted owed
    exact ⟨range, owner, posted, owed, leaving⟩
  | leave positive held =>
    subst held
    refine ⟨range, owner, posted, ?_, ?_⟩
    · intro _
      simp only [Ledger.leave, update_self]
      exact empty_within _
    · intro _ _
      simp only [Ledger.leave, update_self]
      exact empty_within _
  | claim isFree =>
    exact ⟨.inr (.inl rfl), fun above => absurd above claiming, fun other => absurd rfl other,
      fun above => absurd above claiming, fun above => absurd above claiming⟩
  | reset claimed =>
    refine ⟨range, owner, fun _ => empty_within _, ?_, leaving⟩
    intro above
    exact absurd above (claimed ▸ claiming)
  | publish positive claimed emptied absent =>
    refine ⟨.inr (.inr positive), fun _ => update_self _ _ _, ?_, ?_, ?_⟩
    · intro _
      simp only [emptied]
      exact empty_within _
    · intro _
      simp only [Ledger.publish, update_self]
      exact empty_within _
    · intro _ left
      simp [Ledger.publish] at left
  | free positive held ledger left =>
    refine ⟨.inl rfl, fun above => absurd above free, ?_, fun above => absurd above free, fun above => absurd above free⟩
    intro _
    have published : slot.pid ≠ slotClaiming := fun negative => claiming (negative ▸ held ▸ positive)
    obtain rfl | rfl := left
    · exact posted published
    · exact posted published
  | @empty pid engaged released =>
    refine ⟨range, owner, fun _ => empty_within _, ?_, leaving⟩
    intro above
    have same : slot.pid = pid := (owner above).symm.trans engaged.owner
    simp only
    rw [same]
    exact released same
  | @post pid engaged signal =>
    have same : 0 < slot.pid → slot.pid = pid := fun above => (owner above).symm.trans engaged.owner
    refine ⟨range, owner, ?_, ?_, ?_⟩
    · intro published
      simp only [Ledger.post, engaged.owner, update_self]
      have before := posted published
      rw [engaged.owner] at before
      exact before.add signal
    · intro above
      simp only [Ledger.post]
      split
      · rw [same above, update_self]
        have before := owed above
        rw [same above] at before
        exact before.add signal
      · exact (owed above).trans (within_add _ _)
    · intro above left
      have staying : ¬(slot.pid = pid ∧ s.ledger.leaving i = false) := by
        simp only [Ledger.post] at left
        simp [left]
      simp only [Ledger.post, if_neg staying]
      exact leaving above left
  | @take pid engaged =>
    have same : 0 < slot.pid → slot.pid = pid := fun above => (owner above).symm.trans engaged.owner
    have nothing : 0 < slot.pid → Within (s.ledger.owed pid &&& ~~~slot.pending) .empty := by
      intro above sig member
      rw [SigSet.contains_and, SigSet.contains_not, Bool.and_eq_true] at member
      have held := owed above sig (same above ▸ member.1)
      simp [held] at member
    refine ⟨range, owner, fun _ => empty_within _, ?_, ?_⟩
    · intro above
      simp only [Ledger.take, same above, update_self]
      exact nothing above
    · intro above _
      simp only [Ledger.take, same above, update_self]
      exact nothing above

variable (present : s.slots[i]? = some slot)

include present

theorem Change.shared (inv : SharedInv s) : SharedInv (s.put i slot' ledger) := by
  obtain ⟨posted, places, owed⟩ := change.ledger_elsewhere inv present
  constructor
  · intro j found after
    obtain ⟨rfl, rfl⟩ | ⟨other, there⟩ := Shared.slots_put present after
    · exact change.slot_keeps (inv.slots j slot present)
    · obtain ⟨range, owner, wasPosted, wasOwed, leaving⟩ := inv.slots j found there
      obtain ⟨sameOwner, sameLeaving⟩ := places j other
      refine ⟨range, ?_, ?_, ?_, ?_⟩
      · exact fun above => sameOwner.trans (owner above)
      · intro published
        simp only [put, sameOwner]
        exact (wasPosted published).trans (posted _)
      · exact fun above => (owed j found other there above).trans (wasOwed above)
      · intro above left
        simp only [put, sameLeaving] at left
        exact (owed j found other there above).trans (leaving above left)
  · intro j k a b first second above same
    have fresh : ∀ (m : ℕ) (found : ProcessSlot), m ≠ i → s.slots[m]? = some found → 0 < slot'.pid →
        found.pid ≠ slot'.pid := by
      intro m found other there above same
      obtain kept | isFree | isClaiming | ⟨-, -, absent⟩ := change.pid
      · exact other (inv.unique i m slot found present there (kept ▸ above) (kept ▸ same.symm)).symm
      · rw [isFree] at above
        exact absurd above (by decide)
      · rw [isClaiming] at above
        exact absurd above (by decide)
      · exact absent m found there same
    obtain ⟨rfl, rfl⟩ | ⟨otherJ, thereJ⟩ := slots_put present first
    · obtain ⟨rfl, rfl⟩ | ⟨otherK, thereK⟩ := slots_put present second
      · rfl
      · exact absurd same.symm (fresh k b otherK thereK above)
    · obtain ⟨rfl, rfl⟩ | ⟨otherK, thereK⟩ := slots_put present second
      · exact absurd same (fresh j a otherJ thereJ (same ▸ above))
      · exact inv.unique j k a b thereJ thereK above same

/-! ## Interference -/

/-- The slot a caller is engaged at, if any. -/
def Place.engagedAt : Place → Option ℕ
  | .sweepClear _ i _ _ _ | .unregisterClear _ i _ | .unregisterFree _ i | .postOr i _ _ | .takeSwap i _ => some i
  | _ => none

/-- A step leaves alone a caller who is engaged, unless it claims the slot. -/
theorem Change.engaged {pid : ℤ} (engaged : Engaged s j pid)
    (unclaimed : slot'.pid = slotClaiming → slot.pid = slotFree → j ≠ i) :
    Engaged (s.put i slot' ledger) j pid ∧ (s.ledger.leaving j = true → ledger.leaving j = true) := by
  have nonClaiming : j = i → slot.pid ≠ slotClaiming := fun here => (here ▸ engaged).pid_ne present
  obtain ⟨positive, owner, found, there, held⟩ := engaged
  -- the slot keeps its pid or loses it
  have stays : ∃ slot, (s.put i slot' ledger).slots[j]? = some slot ∧ (slot.pid = pid ∨ slot.pid = slotFree) := by
    by_cases here : j = i
    · subst here
      rw [present] at there
      cases there
      refine ⟨slot', slots_put_self present, ?_⟩
      obtain kept | free | claiming | ⟨claimed, -⟩ := change.pid
      · rwa [kept]
      · exact .inr free
      · obtain same | free := held
        · have kept : slot'.pid = slot.pid := by
            cases change with
            | quiet pid pending => exact pid
            | claim free => exact absurd (free.symm.trans same) (by have : slotFree = 0 := rfl; omega)
            | publish above claimed emptied absent => exact absurd claimed (nonClaiming rfl)
            | free above held ledger left => exact absurd (show slotFree = slotClaiming from claiming) (by decide)
            | leave | reset | empty | post | take => rfl
          exact .inl (kept.trans same)
        · exact absurd rfl (unclaimed claiming free)
      · exact absurd claimed (nonClaiming rfl)
    · exact ⟨found, by rw [slots_put_of_ne here, there], held⟩
  have leaves : ∀ pid, s.ledger.leaving j = true → (s.ledger.leave pid i).leaving j = true := by
    intro pid left
    by_cases here : j = i
    · rw [here]
      exact update_self _ _ _
    · exact (update_of_ne here _ _).trans left
  have places : ledger.owner j = s.ledger.owner j ∧ (s.ledger.leaving j = true → ledger.leaving j = true) := by
    cases change with
    | publish above claimed emptied absent =>
      have other : j ≠ i := fun here => nonClaiming here claimed
      exact ⟨update_of_ne other _ _, fun left => (update_of_ne other _ _).trans left⟩
    | leave above held => exact ⟨rfl, leaves _⟩
    | free above held ledger left =>
      obtain rfl | rfl := left
      · exact ⟨rfl, id⟩
      · exact ⟨rfl, leaves _⟩
    | quiet | claim | reset | empty | post | take => exact ⟨rfl, id⟩
  exact ⟨⟨positive, places.1.trans owner, stays⟩, places.2⟩

/-- A step leaves alone a caller who fills a slot, unless it fills the same slot or for the same pid. -/
theorem Change.filling (filling : Filling s a j stage)
    (apart : slot.pid = slotClaiming → slot'.pid = slot.pid ∧ slot'.pending = slot.pending ∨ j ≠ i ∧ slot'.pid ≠ a.pid) :
    Filling (s.put i slot' ledger) a j stage := by
  obtain ⟨positive, ⟨found, there, claimed, emptied⟩, absent⟩ := filling
  have fresh : slot'.pid ≠ a.pid := by
    obtain kept | free | claiming | ⟨claimed, -⟩ := change.pid
    · exact kept ▸ absent i slot present
    · exact fun same => absurd (free ▸ same ▸ positive) (by decide)
    · exact fun same => absurd (claiming ▸ same ▸ positive) (by decide)
    · obtain ⟨kept, -⟩ | ⟨-, other⟩ := apart claimed
      · exact kept ▸ absent i slot present
      · exact other
  refine ⟨positive, ?_, ?_⟩
  · by_cases here : j = i
    · subst here
      rw [present] at there
      cases there
      obtain ⟨samePid, samePending⟩ | ⟨other, -⟩ := apart claimed
      · exact ⟨slot', slots_put_self present, samePid.trans claimed, fun behind => samePending.trans (emptied behind)⟩
      · exact absurd rfl other
    · exact ⟨found, by rw [slots_put_of_ne here, there], claimed, emptied⟩
  · intro k other after
    obtain ⟨-, rfl⟩ | ⟨-, there⟩ := slots_put present after
    · exact fresh
    · exact absent k other there

/-- What another caller may do to the assertion of a caller. -/
theorem Change.assertion (inv : SharedInv s) {place : Place} (holds : Assertion s place)
    (unclaimed : slot'.pid = slotClaiming → slot.pid = slotFree → place.engagedAt ≠ some i)
    (apart : ∀ a j stage, place = .fill a j stage → slot.pid = slotClaiming →
      slot'.pid = slot.pid ∧ slot'.pending = slot.pending ∨ j ≠ i ∧ slot'.pid ≠ a.pid) :
    Assertion (s.put i slot' ledger) place := by
  have engaged : ∀ j pid, Engaged s j pid → place.engagedAt = some j → Engaged (s.put i slot' ledger) j pid ∧
      (s.ledger.leaving j = true → ledger.leaving j = true) := by
    intro j pid engaged at_
    refine change.engaged present engaged fun claiming free here => unclaimed claiming free ?_
    rw [at_, here]
  cases place with
  | returned result =>
    cases result with
    | taken pid bits => exact holds.trans ((change.ledger_elsewhere inv present).1 pid)
    | _ => trivial
  | find goal pid j => cases goal <;> exact holds
  | claim a again j => exact holds
  | fill a j stage => exact change.filling present holds (apart a j stage rfl)
  | sweepPid sweep | sweepHost sweep | sweepFree sweep => cases sweep <;> exact holds
  | sweepClear sweep j count pid stage =>
    cases sweep with
    | alone =>
      obtain ⟨kept, left⟩ := engaged j pid holds.1 rfl
      exact ⟨kept, left holds.2⟩
    | retry a =>
      obtain ⟨kept, left⟩ := engaged j pid holds.2.1 rfl
      exact ⟨holds.1, kept, left holds.2.2⟩
  | unregisterClear pid j | unregisterFree pid j =>
    obtain ⟨kept, left⟩ := engaged j pid holds.1 rfl
    exact ⟨kept, left holds.2⟩
  | postOr j pid | takeSwap j pid => exact (engaged j pid holds rfl).1
  | _ => trivial

/-! ## The steps -/

omit change present in
theorem clear_apply_pid (stage : ClearStage) (slot : ProcessSlot) : (stage.apply slot).pid = slot.pid := by
  cases stage <;> rfl

omit change present in
/-- A store of `unregister` or of a sweep in the slot of the pid it is for. -/
theorem Change.clear {pid : ℤ} (engaged : Engaged s i pid) (inv : SlotInv s.ledger i slot)
    (left : s.ledger.leaving i = true) (stage : ClearStage) : Change s i slot (stage.apply slot) s.ledger := by
  have released : slot.pid = pid → Within (s.ledger.owed pid) .empty := by
    intro held
    have owed := inv.leaving (held ▸ engaged.positive) left
    rwa [held] at owed
  cases stage with
  | pending => exact .empty engaged released
  | comm | cmdline | identity => exact .quiet rfl rfl

/-- A caller that is engaged stays so through its own step. -/
theorem Change.engaged_self {pid : ℤ} (engaged : Engaged s i pid) (kept : slot'.pid = slot.pid) :
    Engaged (s.put i slot' ledger) i pid := by
  refine (change.engaged present engaged fun claiming free => ?_).1
  exact absurd (free.symm.trans (kept.symm.trans claiming)) (by decide)

end

theorem fill_spec (filling : Filling s a i stage) (present : s.slots[i]? = some slot) :
    Change s i slot (stage.apply a slot) (s.ledger.note slot (.fill a i stage)) ∧
      ∀ next, stage.next = some next →
        Filling (s.put i (stage.apply a slot) (s.ledger.note slot (.fill a i stage))) a i next := by
  obtain ⟨positive, ⟨found, there, claimed, emptied⟩, absent⟩ := filling
  rw [present] at there
  cases there
  -- every stage but the last keeps the slot claimed
  have continues : ∀ (after : ProcessSlot) (ledger : Ledger) (next : FillStage), after.pid = slot.pid →
      (next.emptied = true → after.pending = .empty) → Filling (s.put i after ledger) a i next := by
    intro after ledger next pid behind
    refine ⟨positive, ⟨after, slots_put_self present, pid.trans claimed, behind⟩, ?_⟩
    intro j other there
    obtain ⟨-, rfl⟩ | ⟨-, there⟩ := slots_put present there
    · exact pid ▸ absent i slot present
    · exact absent j other there
  cases stage with
  | publish => exact ⟨.publish positive claimed (emptied rfl) absent, nofun⟩
  | pending =>
    refine ⟨.reset claimed, fun next eq => ?_⟩
    cases eq
    exact continues _ _ _ rfl fun _ => rfl
  | owns =>
    refine ⟨.quiet rfl rfl, fun next eq => ?_⟩
    cases eq
    exact continues _ _ _ rfl fun _ => emptied rfl
  | _ =>
    refine ⟨.quiet rfl rfl, fun next eq => ?_⟩
    cases eq
    exact continues _ _ _ rfl nofun

/-- Every step is one of the changes, and establishes what is to be known at the next place. -/
theorem act_spec {place : Place} (ghost : Bool) (inv : SharedInv s) (holds : Assertion s place)
    (present : s.slots[place.index]? = some slot)
    (absent : ∀ a again j, place = .claim a again j → slot.pid = slotFree → Absent s a.pid) :
    Change s place.index slot (place.act ghost slot).1 (s.ledger.note slot place) ∧
      Assertion (s.put place.index (place.act ghost slot).1 (s.ledger.note slot place)) (place.act ghost slot).2 := by
  have same : Change s place.index slot slot s.ledger := .quiet rfl rfl
  have slotInv := inv.slots _ slot present
  have owns : ∀ pid, 0 < pid → slot.pid = pid → Engaged s place.index pid := fun pid positive held =>
    ⟨positive, (slotInv.owner (held ▸ positive)).trans held, slot, present, .inl held⟩
  cases place with
  | returned result =>
    refine ⟨same, ?_⟩
    cases result with
    | taken pid bits => exact holds
    | _ => trivial
  | find goal pid j =>
    simp only [act]
    split
    · next held =>
      cases goal with
      | register | lookup => exact ⟨same, trivial⟩
      | unregister =>
        simp only [note, if_pos held]
        have change : Change s j slot slot (s.ledger.leave pid j) := .leave holds held
        exact ⟨change, change.engaged_self present (owns pid holds held) rfl, update_self _ _ _⟩
    · next other =>
      cases goal with
      | register | lookup => exact ⟨same, holds⟩
      | unregister =>
        simp only [note, if_neg other]
        exact ⟨same, holds⟩
  | existingHost | existingOwns => exact ⟨.quiet rfl rfl, trivial⟩
  | claim a again j =>
    simp only [act]
    split
    · next free =>
      have change : Change s j slot { slot with pid := slotClaiming } s.ledger := .claim free
      refine ⟨change, holds, ⟨_, slots_put_self present, rfl, nofun⟩, ?_⟩
      intro k other after
      obtain ⟨-, rfl⟩ | ⟨-, there⟩ := slots_put present after
      · intro (negative : slotClaiming = a.pid)
        exact absurd (negative ▸ holds : 0 < slotClaiming) (by decide)
      · exact absent a again j rfl free k other there
    · exact ⟨same, holds⟩
  | fill a j stage =>
    obtain ⟨change, continues⟩ := fill_spec holds present
    refine ⟨change, ?_⟩
    simp only [act]
    cases next : stage.next with
    | none => trivial
    | some next' => exact continues next' next
  | sweepPid sweep j count =>
    refine ⟨same, ?_⟩
    simp only [act]
    split
    · cases sweep <;> exact holds
    · next held =>
      cases sweep with
      | alone => exact not_le.mp held
      | retry a => exact ⟨holds, not_le.mp held⟩
  | sweepHost sweep j count pid =>
    refine ⟨same, ?_⟩
    simp only [act]
    split
    · cases sweep <;> exact holds
    · cases sweep with
      | alone => trivial
      | retry a => exact holds.1
  | sweepFree sweep j count pid =>
    have positive : 0 < pid := by
      cases sweep with
      | alone => exact holds
      | retry a => exact holds.2
    simp only [act, note]
    split
    · next held =>
      have change : Change s j slot { slot with pid := slotFree } (s.ledger.leave pid j) :=
        .free positive held _ (.inr rfl)
      have engaged := (change.engaged present (owns pid positive held) fun claiming => absurd
        (show slotFree = slotClaiming from claiming) (by decide)).1
      have left : (s.ledger.leave pid j).leaving j = true := update_self _ _ _
      refine ⟨change, ?_⟩
      cases sweep with
      | alone => exact ⟨engaged, left⟩
      | retry a => exact ⟨holds.1, engaged, left⟩
    · refine ⟨same, ?_⟩
      cases sweep with
      | alone => trivial
      | retry a => exact holds.1
  | sweepClear sweep j count pid stage =>
    obtain ⟨engaged, left⟩ : Engaged s j pid ∧ s.ledger.leaving j = true := by
      cases sweep with
      | alone => exact holds
      | retry a => exact holds.2
    have change := Change.clear engaged slotInv left stage
    have engaged' := change.engaged_self present engaged (clear_apply_pid stage slot)
    refine ⟨change, ?_⟩
    simp only [act]
    cases stage.next with
    | none =>
      cases sweep with
      | alone => trivial
      | retry a => exact holds.1
    | some next =>
      cases sweep with
      | alone => exact ⟨engaged', left⟩
      | retry a => exact ⟨holds.1, engaged', left⟩
  | unregisterClear pid j stage =>
    obtain ⟨engaged, left⟩ := holds
    have change := Change.clear engaged slotInv left stage
    have engaged' := change.engaged_self present engaged (clear_apply_pid stage slot)
    refine ⟨change, ?_⟩
    simp only [act]
    cases stage.next with
    | none | some => exact ⟨engaged', left⟩
  | unregisterFree pid j =>
    refine ⟨?_, trivial⟩
    simp only [act]
    split
    · next held => exact .free holds.1.positive held _ (.inl rfl)
    · exact same
  | viewPid j =>
    refine ⟨same, ?_⟩
    simp only [act]
    split <;> trivial
  | viewHost | viewPgid | viewOwns => exact ⟨same, trivial⟩
  | postCheck j pid signal =>
    refine ⟨same, ?_⟩
    simp only [act]
    split
    · next checked => exact same.engaged_self present (owns pid checked.1 checked.2) rfl
    · trivial
  | postOr j pid signal => exact ⟨.post holds signal, trivial⟩
  | takeCheck j pid =>
    refine ⟨same, ?_⟩
    simp only [act]
    split
    · next checked => exact same.engaged_self present (owns pid checked.1 checked.2) rfl
    · exact empty_within _
  | takeSwap j pid =>
    refine ⟨.take holds, ?_⟩
    have posted : Within slot.pending (s.ledger.posted (s.ledger.owner j)) := slotInv.posted (holds.pid_ne present)
    rw [holds.owner] at posted
    exact posted

variable {ghost : Bool}

/-- Only a claim takes a free slot. -/
theorem claims_of_act {place : Place} (holds : Assertion s place) (free : slot.pid = slotFree)
    (claimed : (place.act ghost slot).1.pid = slotClaiming) : ∃ a again j, place = .claim a again j := by
  have different : slot.pid ≠ slotClaiming := fun same => absurd (free.symm.trans same) (by decide)
  cases place with
  | claim a again j => exact ⟨a, again, j, rfl⟩
  | fill a j stage =>
    cases stage with
    | publish => exact absurd (claimed ▸ holds.positive : 0 < slotClaiming) (by decide)
    | _ => exact absurd claimed different
  | sweepFree sweep j count pid =>
    simp only [act] at claimed
    split at claimed
    · exact absurd (show slotFree = slotClaiming from claimed) (by decide)
    · exact absurd claimed different
  | sweepClear _ _ _ _ stage | unregisterClear _ _ stage => exact absurd ((clear_apply_pid stage slot).symm.trans claimed) different
  | unregisterFree pid j =>
    simp only [act] at claimed
    split at claimed
    · exact absurd (show slotFree = slotClaiming from claimed) (by decide)
    · exact absurd claimed different
  | _ => exact absurd claimed different

/-- A slot that is being filled is written by its filler only. -/
theorem act_of_claiming {place : Place} (ghost : Bool) (holds : Assertion s place)
    (present : s.slots[place.index]? = some slot) (claimed : slot.pid = slotClaiming) :
    (∃ a stage, place = .fill a place.index stage) ∨
      (place.act ghost slot).1.pid = slot.pid ∧ (place.act ghost slot).1.pending = slot.pending := by
  have disengaged : ∀ pid, ¬Engaged s place.index pid := fun pid engaged => engaged.pid_ne present claimed
  cases place with
  | fill a j stage => exact .inl ⟨a, stage, rfl⟩
  | claim a again j =>
    refine .inr ?_
    simp only [act]
    rw [if_neg (by rw [claimed]; decide)]
    exact ⟨rfl, rfl⟩
  | sweepFree sweep j count pid =>
    have positive : 0 < pid := by
      cases sweep with
      | alone => exact holds
      | retry a => exact holds.2
    refine .inr ?_
    simp only [act]
    have other : slot.pid ≠ pid := fun held => absurd (claimed.symm.trans held ▸ positive) (by decide)
    rw [if_neg other]
    exact ⟨rfl, rfl⟩
  | sweepClear sweep j count pid stage =>
    cases sweep with
    | alone => exact absurd holds.1 (disengaged pid)
    | retry a => exact absurd holds.2.1 (disengaged pid)
  | unregisterClear pid | unregisterFree pid => exact absurd holds.1 (disengaged pid)
  | postOr _ pid | takeSwap _ pid => exact absurd holds (disengaged pid)
  | _ => exact .inr ⟨rfl, rfl⟩

/-- A caller begins to fill a slot by a claim. -/
theorem fill_of_act {place : Place}
    (eq : (place.act ghost slot).2 = .fill a j stage) :
    (∃ again, place = .claim a again j ∧ slot.pid = slotFree) ∨ ∃ stage, place = .fill a j stage := by
  cases place with
  | claim b again k =>
    simp only [act] at eq
    split at eq
    · next free =>
      cases eq
      exact .inl ⟨again, rfl, free⟩
    · cases eq
  | fill b k stage' =>
    simp only [act] at eq
    cases next : stage'.next with
    | none =>
      rw [next] at eq
      cases eq
    | some next' =>
      rw [next] at eq
      cases eq
      exact .inr ⟨stage', rfl⟩
  | find goal pid k =>
    simp only [act] at eq
    split at eq
    · cases goal <;> cases eq
    · cases eq
  | sweepClear _ _ _ _ stage' | unregisterClear _ _ stage' =>
    simp only [act] at eq
    cases next : stage'.next <;> rw [next] at eq <;> cases eq
  | _ =>
    first
    | cases eq
    | simp only [act] at eq
      split at eq <;> cases eq

theorem fill_apply_pid (a : Args) (stage : FillStage) (slot : ProcessSlot) :
    (stage.apply a slot).pid = a.pid ∨ (stage.apply a slot).pid = slot.pid := by
  cases stage with
  | publish => exact .inl rfl
  | _ => exact .inr rfl

theorem beyond_spec {place : Place} (holds : Assertion s place) (outside : s.slots[place.index]? = none) :
    Assertion s place.beyond ∧ (∀ a j stage, place.beyond ≠ .fill a j stage) := by
  cases place with
  | find goal pid j =>
    cases goal with
    | register a => exact ⟨holds.2, nofun⟩
    | _ => exact ⟨trivial, nofun⟩
  | claim a again j =>
    cases again with
    | true => exact ⟨trivial, nofun⟩
    | false => exact ⟨holds, nofun⟩
  | sweepPid sweep j count =>
    cases sweep with
    | alone => exact ⟨trivial, nofun⟩
    | retry a => exact ⟨holds, nofun⟩
  | takeCheck j pid => exact ⟨empty_within _, nofun⟩
  | fill a j stage =>
    obtain ⟨found, there, -⟩ := holds.slot
    exact absurd (outside.symm.trans there) nofun
  | returned | sweepHost | sweepFree | sweepClear | unregisterClear | unregisterFree | postOr | takeSwap => exact ⟨holds, nofun⟩
  | _ => exact ⟨trivial, nofun⟩

theorem apart_of_ne_fill {place : Place} (other : ∀ a j stage, place ≠ .fill a j stage) (place' : Place) :
    Apart place place' ∧ Apart place' place := by
  cases place with
  | fill a j stage => exact absurd rfl (other a j stage)
  | _ => cases place' <;> exact ⟨trivial, trivial⟩

end LiteBox.Xproc
