import LiteBox.Lib.Run
import LiteBox.Lib.Threads

/-! # Pipes

A ring buffer with a write end and a read end. A write that is not longer than the atomic size goes in whole or not
at all. The second part runs writers and readers against each other, with every lock region, flag test and drop as
one step.
-/

namespace LiteBox.Pipes

open Threads

/-- The ring buffer and the flags of the two ends; a dropped end is shut down. -/
structure Pipe (α : Type) where
  capacity : ℕ
  atomicSliceGuaranteeSize : ℕ
  ring : List α
  writeShutdown : Bool
  readShutdown : Bool
  fits : ring.length ≤ capacity

inductive PipeError where
  | thisEndShutdown
  | peerShutdown
  | wouldBlock
deriving DecidableEq

structure Events where
  input : Bool := false
  output : Bool := false
  error : Bool := false
  hangup : Bool := false

variable {α : Type} (p : Pipe α)

namespace Pipe

def newPipe (capacity atomicSliceGuaranteeSize : ℕ) : Pipe α := ⟨capacity, atomicSliceGuaranteeSize, [], false, false, Nat.zero_le _⟩

def vacantLen : ℕ := p.capacity - p.ring.length

def pushSlice (buf : List α) : List α × Pipe α :=
  (buf.take p.vacantLen, { p with
    ring := p.ring ++ buf.take p.vacantLen
    fits := by
      have := p.fits
      simp only [List.length_append, List.length_take, vacantLen]
      omega })

def popSlice (len : ℕ) : List α × Pipe α :=
  (p.ring.take len, { p with ring := p.ring.drop len, fits := (p.ring.length_drop ▸ Nat.sub_le _ _).trans p.fits })

/-- The lock region of a write: what has gone into the ring. -/
def lockedWrite (buf : List α) : List α × Pipe α :=
  if p.vacantLen < buf.length ∧ buf.length ≤ p.atomicSliceGuaranteeSize then ([], p) else p.pushSlice buf

def tryWrite (buf : List α) : Except PipeError ℕ × Pipe α :=
  if p.writeShutdown then (.error .thisEndShutdown, p)
  else if p.readShutdown then (.error .peerShutdown, p)
  else if buf.isEmpty then (.ok 0, p)
  else
    let (written, p) := p.lockedWrite buf
    (if 0 < written.length then .ok written.length else .error .wouldBlock, p)

def tryRead (len : ℕ) : Except PipeError (List α) × Pipe α :=
  if p.readShutdown then (.error .thisEndShutdown, p)
  else if len = 0 then (.ok [], p)
  else
    let (data, p) := p.popSlice len
    if 0 < data.length then (.ok data, p)
    else if p.writeShutdown then (.ok (p.popSlice len).1, (p.popSlice len).2)
    else (.error .wouldBlock, p)

/-- `WriteEnd::check_io_events`. -/
def writeEvents : Events where
  error := p.readShutdown
  output := !p.writeShutdown && decide (p.ring.length ≠ p.capacity)

/-- `ReadEnd::check_io_events`. -/
def readEvents : Events where
  hangup := p.writeShutdown
  input := !p.readShutdown && (!p.ring.isEmpty || p.writeShutdown)

/-- A write end that is reported writable takes every short write, and one on which a write would end is reported. -/
def WriteAgrees : Prop :=
  (p.writeEvents.output = true → p.writeEvents.error = false →
    ∀ buf, buf ≠ [] → buf.length ≤ p.atomicSliceGuaranteeSize → ∃ n, (p.tryWrite buf).1 = .ok n) ∧
  ∀ buf, buf ≠ [] → (∀ n, (p.tryWrite buf).1 = .ok n → p.writeEvents.output = true) ∧
    ((p.tryWrite buf).1 = .error .peerShutdown → p.writeEvents.error = true)

def ReadAgrees : Prop :=
  (p.readEvents.input = false → ∀ len > 0, (p.tryRead len).1 = .error .wouldBlock) ∧
  ∀ len > 0, ∀ data, (p.tryRead len).1 = .ok data → p.readEvents.input = true

variable {p : Pipe α} {buf : List α} {len : ℕ}

theorem tryWrite_open (writing : p.writeShutdown = false) (reading : p.readShutdown = false) (some : buf ≠ []) :
    (p.tryWrite buf).1 = if p.vacantLen = 0 ∨ p.vacantLen < buf.length ∧ buf.length ≤ p.atomicSliceGuaranteeSize then .error .wouldBlock
      else .ok (min p.vacantLen buf.length) := by
  have positive := List.length_pos_iff.mpr some
  simp only [tryWrite, writing, reading, Bool.false_eq_true, if_false, List.isEmpty_iff, some, lockedWrite]
  by_cases short : p.vacantLen < buf.length ∧ buf.length ≤ p.atomicSliceGuaranteeSize
  · simp [short]
  · by_cases full : p.vacantLen = 0 <;> simp [short, full, pushSlice, positive, Nat.pos_of_ne_zero]

variable (p : Pipe α)

theorem output_iff : p.writeEvents.output = true ↔ p.writeShutdown = false ∧ p.vacantLen ≠ 0 := by
  have := p.fits
  have full : p.vacantLen = 0 ↔ p.ring.length = p.capacity := by
    unfold vacantLen
    omega
  simp [writeEvents, full]

theorem writeAgrees_iff [Inhabited α] : p.WriteAgrees ↔ p.writeShutdown = true ∨ p.readShutdown = true ∨
    p.vacantLen = 0 ∨ p.atomicSliceGuaranteeSize ≤ p.vacantLen := by
  constructor
  · intro ⟨takes, _⟩
    by_contra! tight
    obtain ⟨writing, reading, room, short⟩ := tight
    rw [ne_eq, Bool.not_eq_true] at writing reading
    obtain ⟨n, ok⟩ := takes ((output_iff p).mpr ⟨writing, room⟩) reading (.replicate p.atomicSliceGuaranteeSize default)
      (by simp; omega) (by simp)
    rw [tryWrite_open writing reading (by simp; omega), List.length_replicate, if_pos (.inr ⟨short, le_rfl⟩)] at ok
    cases ok
  · intro roomy
    refine ⟨fun output noError buf some short => ?_, fun buf some => ⟨fun n ok => ?_, fun failed => ?_⟩⟩
    · obtain ⟨writing, room⟩ := (output_iff p).mp output
      have reading : p.readShutdown = false := noError
      refine ⟨_, (tryWrite_open writing reading some).trans (if_neg ?_)⟩
      simp only [writing, reading, Bool.false_eq_true, false_or] at roomy
      omega
    · rw [output_iff]
      cases writing : p.writeShutdown with
      | true => simp [tryWrite, writing] at ok
      | false =>
        cases reading : p.readShutdown with
        | true => simp [tryWrite, writing, reading] at ok
        | false =>
          refine ⟨rfl, fun full => ?_⟩
          rw [tryWrite_open writing reading some, if_pos (.inl full)] at ok
          cases ok
    · by_contra reading
      simp only [writeEvents, Bool.not_eq_true] at reading
      cases writing : p.writeShutdown with
      | true => simp [tryWrite, writing] at failed
      | false =>
        rw [tryWrite_open writing reading some] at failed
        split at failed <;> cases failed

theorem readAgrees_iff : p.ReadAgrees ↔ p.readShutdown = false := by
  constructor
  · intro ⟨blocks, _⟩
    by_contra shut
    rw [Bool.not_eq_false] at shut
    have blocked := blocks (by simp [readEvents, shut]) 1 one_pos
    simp [tryRead, shut] at blocked
  · intro reading
    have run : ∀ len > 0, (p.tryRead len).1 =
        if p.ring = [] ∧ p.writeShutdown = false then .error .wouldBlock else .ok (p.ring.take len) := by
      intro len positive
      cases ring : p.ring <;> cases writing : p.writeShutdown <;> simp [tryRead, reading, positive.ne', popSlice, ring, writing, positive]
    have input : p.readEvents.input = true ↔ ¬(p.ring = [] ∧ p.writeShutdown = false) := by
      cases ring : p.ring <;> cases writing : p.writeShutdown <;> simp [readEvents, reading, ring, writing]
    refine ⟨fun none len positive => ?_, fun len positive data ok => ?_⟩
    · rw [run len positive, if_pos]
      by_contra ready
      rw [input.mpr ready] at none
      cases none
    · rw [input]
      intro idle
      rw [run len positive, if_pos idle] at ok
      cases ok

/-- At every fill level and with any of the ends shut down, when the readiness of an end agrees with its operation. -/
theorem poll_agrees_iff [Inhabited α] (p : Pipe α) :
    (p.WriteAgrees ↔ p.writeShutdown = true ∨ p.readShutdown = true ∨ p.vacantLen = 0 ∨ p.atomicSliceGuaranteeSize ≤ p.vacantLen) ∧
      (p.ReadAgrees ↔ p.readShutdown = false) :=
  ⟨writeAgrees_iff p, readAgrees_iff p⟩

/-- One free place is reported writable, but two bytes do not go in. -/
theorem writable_would_block :
    let p : Pipe ℕ := ((newPipe 4 4).tryWrite [1, 2, 3]).2
    p.writeEvents.output = true ∧ p.writeEvents.error = false ∧ (p.tryWrite [4, 5]).1 = .error .wouldBlock := by
  decide

end Pipe

/-! ## Writers and readers at once -/

/-- The pipe, and in their order what the lock regions of writes have taken of which buffer, and what those of reads
have returned. -/
structure Traffic (α : Type) where
  pipe : Pipe α
  writes : List (List α × List α) := []
  reads : List (List α) := []

variable (s : Traffic α)

namespace Traffic

def accepted : List α := (s.writes.map Prod.snd).flatten

def returned : List α := s.reads.flatten

def push (buf : List α) : Traffic α :=
  { s with pipe := (s.pipe.lockedWrite buf).2, writes := s.writes ++ [(buf, (s.pipe.lockedWrite buf).1)] }

def pop (len : ℕ) : Traffic α :=
  { s with pipe := (s.pipe.popSlice len).2, reads := s.reads ++ [(s.pipe.popSlice len).1] }

end Traffic

/-- Where a thread stands in `try_write` or `try_read`. -/
inductive Place (α : Type) where
  | write (buf : List α)
  | peer (buf : List α)
  | push (buf : List α)
  | wrote (result : Except PipeError ℕ)
  | read (len : ℕ)
  | pop (len : ℕ)
  | empty (len : ℕ)
  | popAgain (len : ℕ)
  | got (len : ℕ) (result : Except PipeError (List α))

namespace Place

/-- The thread holds a reference to the write end. -/
def writing : Place α → Bool
  | .write _ | .peer _ | .push _ => true
  | _ => false

def reading : Place α → Bool
  | .read _ | .pop _ | .empty _ | .popAgain _ => true
  | _ => false

/-- The next flag test or lock region of a thread. -/
def act : Place α → Traffic α × Place α
  | .write buf => (s, if s.pipe.writeShutdown then .wrote (.error .thisEndShutdown) else .peer buf)
  | .peer buf =>
    (s, if s.pipe.readShutdown then .wrote (.error .peerShutdown) else if buf.isEmpty then .wrote (.ok 0) else .push buf)
  | .push buf =>
    let written := (s.pipe.lockedWrite buf).1
    (s.push buf, .wrote (if 0 < written.length then .ok written.length else .error .wouldBlock))
  | .read len =>
    (s, if s.pipe.readShutdown then .got len (.error .thisEndShutdown) else if len = 0 then .got len (.ok []) else .pop len)
  | .pop len =>
    let data := (s.pipe.popSlice len).1
    (s.pop len, if 0 < data.length then .got len (.ok data) else .empty len)
  | .empty len => (s, if s.pipe.writeShutdown then .popAgain len else .got len (.error .wouldBlock))
  | .popAgain len => (s.pop len, .got len (.ok (s.pipe.popSlice len).1))
  | place => (s, place)

end Place

/-- Undisturbed, a thread does what `try_write` does. -/
theorem act_tryWrite (buf : List α) : ∃ t : Traffic α, (fun (s, p) => Place.act s p)^[3] (s, .write buf) =
    (t, .wrote (s.pipe.tryWrite buf).1) ∧ t.pipe = (s.pipe.tryWrite buf).2 := by
  simp only [Function.iterate_succ_apply, Function.iterate_zero_apply, Place.act, Pipe.tryWrite]
  by_cases writing : s.pipe.writeShutdown
  · simp [writing]
  by_cases reading : s.pipe.readShutdown
  · simp [writing, reading]
  by_cases none : buf.isEmpty <;> simp [writing, reading, none, Traffic.push]

theorem act_tryRead (len : ℕ) : ∃ t : Traffic α, (fun (s, p) => Place.act s p)^[4] (s, .read len) =
    (t, .got len (s.pipe.tryRead len).1) ∧ t.pipe = (s.pipe.tryRead len).2 := by
  simp only [Function.iterate_succ_apply, Function.iterate_zero_apply, Place.act, Pipe.tryRead]
  by_cases reading : s.pipe.readShutdown
  · simp [reading]
  by_cases none : len = 0
  · simp [reading, none]
  by_cases some : 0 < (s.pipe.popSlice len).1.length
  · simp [reading, none, some, Traffic.pop]
  by_cases writing : (s.pipe.popSlice len).2.writeShutdown <;> simp [reading, none, some, writing, Traffic.pop]

abbrev Users (α : Type) := World (Traffic α) (Place α)

inductive Event (α : Type) where
  | tryWrite (t : ℕ) (buf : List α)
  | tryRead (t len : ℕ)
  | advance (t : ℕ)
  | dropWrite
  | dropRead

namespace Users

def new (capacity atomicSize : ℕ) : Users α := ⟨⟨.newPipe capacity atomicSize, [], []⟩, fun _ => .wrote (.ok 0)⟩

def step (w : Users α) : Event α → Users α
  | .tryWrite t buf => w.move t w.shared (.write buf)
  | .tryRead t len => w.move t w.shared (.read len)
  | .advance t => w.move t ((w.threads t).act w.shared).1 ((w.threads t).act w.shared).2
  | .dropWrite => { w with shared := { w.shared with pipe := { w.shared.pipe with writeShutdown := true } } }
  | .dropRead => { w with shared := { w.shared with pipe := { w.shared.pipe with readShutdown := true } } }

/-- Ownership: a thread begins one operation after the other on an end that is there, and an end is dropped when no
operation is using it. -/
def Owned (w : Users α) : Event α → Prop
  | .tryWrite t _ => (w.threads t).writing = false ∧ (w.threads t).reading = false ∧ w.shared.pipe.writeShutdown = false
  | .tryRead t _ => (w.threads t).writing = false ∧ (w.threads t).reading = false ∧ w.shared.pipe.readShutdown = false
  | .advance _ => True
  | .dropWrite => ∀ t, (w.threads t).writing = false
  | .dropRead => ∀ t, (w.threads t).reading = false

/-- The reads return what the writes have put in, short writes in one piece, and end only with all of it. -/
structure Intact (w : Users α) : Prop where
  inOrder : w.shared.returned <+: w.shared.accepted
  atomic : ∀ write ∈ w.shared.writes, write.1.length ≤ w.shared.pipe.atomicSliceGuaranteeSize → write.2 = write.1 ∨ write.2 = []
  ended : ∀ t len, w.threads t = .got len (.ok []) → 0 < len →
    w.shared.pipe.writeShutdown = true ∧ w.shared.returned = w.shared.accepted

end Users

/-- What has been read and what is in the ring is what was written. -/
structure TrafficInv (s : Traffic α) : Prop where
  kept : s.returned ++ s.pipe.ring = s.accepted
  atomic : ∀ write ∈ s.writes, write.1.length ≤ s.pipe.atomicSliceGuaranteeSize → write.2 = write.1 ∨ write.2 = []

def Assertion : Place α → Prop
  | .write _ | .peer _ | .push _ => s.pipe.writeShutdown = false
  | .popAgain _ => s.pipe.writeShutdown = true
  | .got len (.ok []) => 0 < len → s.pipe.writeShutdown = true ∧ s.pipe.ring = []
  | _ => True

variable {s t : Traffic α} {place : Place α} {w : Users α}

theorem Assertion.stable (holds : Assertion s place) (flag : t.pipe.writeShutdown = s.pipe.writeShutdown)
    (drained : s.pipe.writeShutdown = true → s.pipe.ring = [] → t.pipe.ring = []) : Assertion t place := by
  cases place with
  | write | peer | push | popAgain => exact flag.trans holds
  | got len result =>
    cases result with
    | error => trivial
    | ok data =>
      cases data with
      | nil => exact fun some => ⟨flag.trans (holds some).1, drained (holds some).1 (holds some).2⟩
      | cons => trivial
  | _ => trivial

theorem lockedWrite_spec (buf : List α) : (p.lockedWrite buf).2.ring = p.ring ++ (p.lockedWrite buf).1 ∧
    (buf.length ≤ p.atomicSliceGuaranteeSize → (p.lockedWrite buf).1 = buf ∨ (p.lockedWrite buf).1 = []) ∧
    (p.lockedWrite buf).2.writeShutdown = p.writeShutdown ∧
    (p.lockedWrite buf).2.atomicSliceGuaranteeSize = p.atomicSliceGuaranteeSize := by
  unfold Pipe.lockedWrite
  split
  · simp
  · next fits =>
    refine ⟨rfl, fun short => .inl (List.take_of_length_le ?_), rfl, rfl⟩
    omega

theorem TrafficInv.push (inv : TrafficInv s) (buf : List α) : TrafficInv (s.push buf) := by
  obtain ⟨ring, short, -, size⟩ := lockedWrite_spec s.pipe buf
  have kept := inv.kept
  constructor
  · simp only [Traffic.returned, Traffic.accepted] at kept
    simp [Traffic.returned, Traffic.accepted, Traffic.push, ring, ← kept]
  · simp only [Traffic.push, size]
    exact List.forall_mem_append.mpr ⟨inv.atomic, List.forall_mem_singleton.mpr short⟩

theorem TrafficInv.pop (inv : TrafficInv s) (len : ℕ) : TrafficInv (s.pop len) := by
  refine ⟨?_, inv.atomic⟩
  have kept := inv.kept
  simp only [Traffic.returned, Traffic.accepted] at kept
  simp [Traffic.returned, Traffic.accepted, Traffic.pop, Pipe.popSlice, ← kept]

theorem act_spec (inv : TrafficInv s) (holds : Assertion s place) : TrafficInv (place.act s).1 ∧ Assertion (place.act s).1 (place.act s).2 ∧
    (place.act s).1.pipe.writeShutdown = s.pipe.writeShutdown ∧
    (s.pipe.writeShutdown = true → s.pipe.ring = [] → (place.act s).1.pipe.ring = []) := by
  have idle (next : Place α) (known : Assertion s next) : TrafficInv s ∧ Assertion s next ∧
      s.pipe.writeShutdown = s.pipe.writeShutdown ∧ (s.pipe.writeShutdown = true → s.pipe.ring = [] → s.pipe.ring = []) :=
    ⟨inv, known, rfl, fun _ empty => empty⟩
  cases place with
  | write buf | peer buf | read len | empty len =>
    apply idle
    simp only [Place.act]
    split_ifs <;> simp_all [Assertion]
  | push buf =>
    obtain ⟨-, -, flag, -⟩ := lockedWrite_spec s.pipe buf
    exact ⟨inv.push buf, trivial, flag, fun shut => absurd shut (holds ▸ Bool.false_ne_true)⟩
  | pop len =>
    refine ⟨inv.pop len, ?_, rfl, fun _ empty => by simp [Place.act, Traffic.pop, Pipe.popSlice, empty]⟩
    simp only [Place.act]
    split
    · next some =>
      cases data : (s.pipe.popSlice len).1 with
      | nil => simp [data] at some
      | cons => trivial
    · trivial
  | popAgain len =>
    refine ⟨inv.pop len, ?_, rfl, fun _ empty => by simp [Place.act, Traffic.pop, Pipe.popSlice, empty]⟩
    simp only [Place.act]
    cases data : (s.pipe.popSlice len).1 with
    | nil =>
      refine fun some => ⟨holds, ?_⟩
      have none : s.pipe.ring = [] := (List.take_eq_nil_iff.mp data).resolve_left some.ne'
      simp [Traffic.pop, Pipe.popSlice, none]
    | cons => trivial
  | wrote | got => exact idle _ holds

abbrev Inv (w : Users α) : Prop := Holds TrafficInv Assertion (fun _ _ => True) w

theorem Inv.step (inv : Inv w) {event : Event α} (owned : w.Owned event) : Inv (w.step event) := by
  cases event with
  | tryWrite t buf => exact inv.move t inv.shared owned.2.2 (fun u _ => inv.each u) fun _ _ => ⟨trivial, trivial⟩
  | tryRead t len => exact inv.move t inv.shared trivial (fun u _ => inv.each u) fun _ _ => ⟨trivial, trivial⟩
  | advance t =>
    obtain ⟨shared, own, flag, drained⟩ := act_spec inv.shared (inv.each t)
    exact inv.move t shared own (fun u _ => (inv.each u).stable flag drained) fun _ _ => ⟨trivial, trivial⟩
  | dropWrite =>
    refine inv.share ⟨inv.shared.kept, inv.shared.atomic⟩ fun t => ?_
    have holds := inv.each t
    have unused := owned t
    cases place : w.threads t with
    | write | peer | push =>
      rw [place] at unused
      cases unused
    | got len result =>
      rw [place] at holds
      cases result with
      | error => trivial
      | ok data =>
        cases data with
        | nil => exact fun some => ⟨rfl, (holds some).2⟩
        | cons => trivial
    | popAgain => rfl
    | _ => trivial
  | dropRead => exact inv.share ⟨inv.shared.kept, inv.shared.atomic⟩ fun t => (inv.each t).stable rfl fun _ empty => empty

theorem Inv.intact (inv : Inv w) : w.Intact where
  inOrder := ⟨_, inv.shared.kept⟩
  atomic := inv.shared.atomic
  ended := by
    intro t len eq some
    have holds := inv.each t
    rw [eq] at holds
    obtain ⟨shut, empty⟩ := holds some
    refine ⟨shut, ?_⟩
    rw [← inv.shared.kept, empty, List.append_nil]

/-- In every interleaving of writers, readers and drops. -/
theorem stream_intact (capacity atomicSize : ℕ) (events : List (Event α))
    (owned : Run.Always Users.step Users.Owned (.new capacity atomicSize) events) :
    (Run.run Users.step (.new capacity atomicSize) events).Intact := by
  refine (owned.invariant Inv ⟨⟨rfl, nofun⟩, fun _ => trivial, fun _ _ _ => trivial⟩ ?_).intact
  exact fun w event inv owned => inv.step owned

/-- A reader finds the ring empty, then a byte is written and the write end dropped, and the reader gets the byte. -/
theorem stream_intact_overtaken :
    let events : List (Event ℕ) := [.tryRead 0 2, .advance 0, .advance 0, .tryWrite 1 [7], .advance 1, .advance 1, .advance 1,
      .dropWrite, .advance 0, .advance 0]
    (Run.run Users.step (.new 4 4) events).Intact ∧ (Run.run Users.step (.new 4 4) events).shared.reads = [[], [7]] := by
  refine ⟨stream_intact 4 4 _ ⟨⟨rfl, rfl, rfl⟩, trivial, trivial, ⟨rfl, rfl, rfl⟩, trivial, trivial, trivial, fun t => ?_,
    trivial, trivial, trivial⟩, by decide⟩
  by_cases writer : t = 1
  · rw [writer]
    rfl
  by_cases reader : t = 0
  · rw [reader]
    rfl
  · simp [Users.step, World.move, writer, reader, Users.new, Place.writing]

end LiteBox.Pipes
