import LiteBox.Lib.Threads
import LiteBox.Signals.Basic

/-! # The shared process table

The table through which host processes post signals to each other: 512 slots with a guest pid, the host
process that runs it, and the signals posted to it. Every call is a sequence of atomic steps on single
slots, and the steps of any number of callers interleave. A ledger beside the table records what was
posted to whom; no step reads it.
-/

namespace LiteBox.Xproc

open Signals Threads Function

def sharedProcessCapacity : ℕ := 512
def slotFree : ℤ := 0
def slotClaiming : ℤ := -1

/-- The `/proc` identity of a slot. -/
structure ProcIdentity where
  pid : ℤ
  comm : List UInt8
  cmdline : List UInt8
deriving DecidableEq

structure ProcessSlot where
  pid : ℤ
  hostPid : ℕ
  pgid : ℤ
  pending : SigSet
  ownsHost : Bool
  identity : ProcIdentity
deriving DecidableEq

def ProcessSlot.new : ProcessSlot := ⟨slotFree, 0, 0, .empty, false, ⟨0, [], []⟩⟩

structure SlotView where
  index : ℕ
  pid : ℤ
  hostPid : ℕ
  pgid : ℤ
  ownsHost : Bool
deriving DecidableEq

/-- The arguments of `register`. -/
structure Args where
  pid : ℤ
  hostPid : ℕ
  pgid : ℤ
  ownsHost : Bool
deriving DecidableEq

inductive Result where
  | registered (index : Option ℕ)
  | unregistered
  | reclaimed (count : ℕ)
  | view (found : Option SlotView)
  | posted (done : Bool)
  | taken (pid : ℤ) (bits : SigSet)
deriving DecidableEq

/-- The stores that empty a slot, in their order. -/
inductive ClearStage where
  | pending
  | comm
  | cmdline
  | identity
deriving DecidableEq

def ClearStage.apply (slot : ProcessSlot) : ClearStage → ProcessSlot
  | .pending => { slot with pending := .empty }
  | .comm => { slot with identity := { slot.identity with comm := [] } }
  | .cmdline => { slot with identity := { slot.identity with cmdline := [] } }
  | .identity => { slot with identity := { slot.identity with pid := 0 } }

def ClearStage.next : ClearStage → Option ClearStage
  | .pending => some .comm
  | .comm => some .cmdline
  | .cmdline => some .identity
  | .identity => none

/-- The stores that fill a claimed slot, in their order. -/
inductive FillStage where
  | comm
  | cmdline
  | identity
  | host
  | pgid
  | pending
  | owns
  | publish
deriving DecidableEq

def FillStage.apply (a : Args) (slot : ProcessSlot) : FillStage → ProcessSlot
  | .comm => ClearStage.apply slot .comm
  | .cmdline => ClearStage.apply slot .cmdline
  | .identity => ClearStage.apply slot .identity
  | .host => { slot with hostPid := a.hostPid }
  | .pgid => { slot with pgid := a.pgid }
  | .pending => { slot with pending := .empty }
  | .owns => { slot with ownsHost := a.ownsHost }
  | .publish => { slot with pid := a.pid }

def FillStage.next : FillStage → Option FillStage
  | .comm => some .cmdline
  | .cmdline => some .identity
  | .identity => some .host
  | .host => some .pgid
  | .pgid => some .pending
  | .pending => some .owns
  | .owns => some .publish
  | .publish => none

/-- What a search for a pid is for. -/
inductive Goal where
  | register (a : Args)
  | unregister
  | lookup
deriving DecidableEq

/-- What a sweep is for. -/
inductive Sweep where
  | alone
  | retry (a : Args)
deriving DecidableEq

/-- Where a caller stands, with its local variables. -/
inductive Place where
  | returned (result : Result)
  | find (goal : Goal) (pid : ℤ) (i : ℕ)
  | existingHost (a : Args) (i : ℕ)
  | existingOwns (a : Args) (i : ℕ)
  | claim (a : Args) (again : Bool) (i : ℕ)
  | fill (a : Args) (i : ℕ) (stage : FillStage)
  | sweepPid (sweep : Sweep) (i count : ℕ)
  | sweepHost (sweep : Sweep) (i count : ℕ) (pid : ℤ)
  | sweepFree (sweep : Sweep) (i count : ℕ) (pid : ℤ)
  | sweepClear (sweep : Sweep) (i count : ℕ) (pid : ℤ) (stage : ClearStage)
  | unregisterClear (pid : ℤ) (i : ℕ) (stage : ClearStage)
  | unregisterFree (pid : ℤ) (i : ℕ)
  | viewPid (i : ℕ)
  | viewHost (i : ℕ) (pid : ℤ)
  | viewPgid (i : ℕ) (pid : ℤ) (hostPid : ℕ)
  | viewOwns (i : ℕ) (pid : ℤ) (hostPid : ℕ) (pgid : ℤ)
  | postCheck (i : ℕ) (pid : ℤ) (s : Signal)
  | postOr (i : ℕ) (pid : ℤ) (s : Signal)
  | takeCheck (i : ℕ) (pid : ℤ)
  | takeSwap (i : ℕ) (pid : ℤ)
deriving DecidableEq

namespace Place

/-- The slot that the next step is on. -/
def index : Place → ℕ
  | returned _ => 0
  | find _ _ i | existingHost _ i | existingOwns _ i | claim _ _ i | fill _ i _ | sweepPid _ i _ | sweepHost _ i _ _
  | sweepFree _ i _ _ | sweepClear _ i _ _ _ | unregisterClear _ i _ | unregisterFree _ i | viewPid i | viewHost i _
  | viewPgid i _ _ | viewOwns i _ _ _ | postCheck i _ _ | postOr i _ _ | takeCheck i _ | takeSwap i _ => i

def found (pid : ℤ) (i : ℕ) : Goal → Place
  | .register a => existingHost a i
  | .unregister => unregisterClear pid i .pending
  | .lookup => viewPid i

def missed : Goal → Place
  | .register a => claim a false 0
  | .unregister => returned .unregistered
  | .lookup => returned (.view none)

def swept (count : ℕ) : Sweep → Place
  | .alone => returned (.reclaimed count)
  | .retry a => claim a true 0

/-- The loops end behind the last slot, and an index that is no slot is refused. -/
def beyond : Place → Place
  | find goal _ _ => missed goal
  | claim a again _ => if again then returned (.registered none) else sweepPid (.retry a) 0 0
  | sweepPid sweep _ count => swept count sweep
  | postCheck _ _ _ => returned (.posted false)
  | takeCheck _ pid => returned (.taken pid .empty)
  | place => place

/-- One atomic step on a slot. `ghost` is what `is_ghost` answers for the slot's host, when asked. -/
def act (ghost : Bool) (slot : ProcessSlot) : Place → ProcessSlot × Place
  | returned result => (slot, returned result)
  | find goal pid i => (slot, if slot.pid = pid then found pid i goal else find goal pid (i + 1))
  | existingHost a i => ({ slot with hostPid := a.hostPid }, existingOwns a i)
  | existingOwns a i => ({ slot with ownsHost := a.ownsHost }, returned (.registered (some i)))
  | claim a again i =>
    if slot.pid = slotFree then ({ slot with pid := slotClaiming }, fill a i .comm) else (slot, claim a again (i + 1))
  | fill a i stage => (stage.apply a slot, (stage.next).elim (returned (.registered (some i))) (fill a i))
  | sweepPid sweep i count =>
    (slot, if slot.pid ≤ 0 then sweepPid sweep (i + 1) count else sweepHost sweep i count slot.pid)
  | sweepHost sweep i count pid =>
    (slot, if ghost then sweepFree sweep i count pid else sweepPid sweep (i + 1) count)
  | sweepFree sweep i count pid =>
    if slot.pid = pid then ({ slot with pid := slotFree }, sweepClear sweep i count pid .pending)
    else (slot, sweepPid sweep (i + 1) count)
  | sweepClear sweep i count pid stage =>
    (stage.apply slot, (stage.next).elim (sweepPid sweep (i + 1) (count + 1)) (sweepClear sweep i count pid))
  | unregisterClear pid i stage =>
    (stage.apply slot, (stage.next).elim (unregisterFree pid i) (unregisterClear pid i))
  | unregisterFree pid _ =>
    (if slot.pid = pid then { slot with pid := slotFree } else slot, returned .unregistered)
  | viewPid i => (slot, if 0 < slot.pid then viewHost i slot.pid else returned (.view none))
  | viewHost i pid => (slot, viewPgid i pid slot.hostPid)
  | viewPgid i pid hostPid => (slot, viewOwns i pid hostPid slot.pgid)
  | viewOwns i pid hostPid pgid => (slot, returned (.view (some ⟨i, pid, hostPid, pgid, slot.ownsHost⟩)))
  | postCheck i pid s => (slot, if 0 < pid ∧ slot.pid = pid then postOr i pid s else returned (.posted false))
  | postOr _ _ s => ({ slot with pending := slot.pending.add s }, returned (.posted true))
  | takeCheck i pid => (slot, if 0 < pid ∧ slot.pid = pid then takeSwap i pid else returned (.taken pid .empty))
  | takeSwap _ pid => ({ slot with pending := .empty }, returned (.taken pid slot.pending))

end Place

/-- A call of the table. -/
inductive Call where
  | register (a : Args)
  | unregister (pid : ℤ)
  | reclaimWhere
  | lookup (pid : ℤ)
  | post (i : ℕ) (pid : ℤ) (s : Signal)
  | takePending (i : ℕ) (pid : ℤ)

/-- Where a call begins. -/
def Call.entry : Call → Place
  | register a => if a.pid ≤ 0 then .returned (.registered none) else .find (.register a) a.pid 0
  | unregister pid => if pid ≤ 0 then .returned .unregistered else .find .unregister pid 0
  | reclaimWhere => .sweepPid .alone 0 0
  | lookup pid => if pid ≤ 0 then .returned (.view none) else .find .lookup pid 0
  | post i pid s => .postCheck i pid s
  | takePending i pid => .takeCheck i pid

/-- What happened so far. -/
structure Ledger where
  /-- The signals that calls of `post` for a pid have posted. -/
  posted : ℤ → SigSet
  /-- Those posted while the pid was registered and to stay so, and not returned by `take_pending` yet. -/
  owed : ℤ → SigSet
  /-- The pid last published in a slot. -/
  owner : ℕ → ℤ
  /-- The pid last published in the slot is on its way out of the table. -/
  leaving : ℕ → Bool

namespace Ledger

variable (ledger : Ledger)

/-- An `unregister` has found `pid` in slot `i`, or a sweep has freed its slot. -/
def leave (pid : ℤ) (i : ℕ) : Ledger :=
  { ledger with owed := update ledger.owed pid .empty, leaving := update ledger.leaving i true }

def publish (pid : ℤ) (i : ℕ) : Ledger :=
  { ledger with
    owed := update ledger.owed pid .empty
    owner := update ledger.owner i pid
    leaving := update ledger.leaving i false }

/-- A signal for `pid` has gone into slot `i`, which belongs to `holder`. -/
def post (holder pid : ℤ) (i : ℕ) (s : Signal) : Ledger :=
  { ledger with
    posted := update ledger.posted pid ((ledger.posted pid).add s)
    owed :=
      if holder = pid ∧ ledger.leaving i = false then update ledger.owed pid ((ledger.owed pid).add s)
      else ledger.owed }

def take (pid : ℤ) (bits : SigSet) : Ledger :=
  { ledger with owed := update ledger.owed pid (ledger.owed pid &&& ~~~bits) }

/-- The entry for a step on a slot. -/
def note (slot : ProcessSlot) : Place → Ledger
  | .find .unregister pid i => if slot.pid = pid then ledger.leave pid i else ledger
  | .sweepFree _ i _ pid => if slot.pid = pid then ledger.leave pid i else ledger
  | .fill a i .publish => ledger.publish a.pid i
  | .postOr i pid s => ledger.post slot.pid pid i s
  | .takeSwap _ pid => ledger.take pid slot.pending
  | _ => ledger

end Ledger

structure Shared where
  slots : List ProcessSlot
  ledger : Ledger

abbrev Processes := World Shared Place

/-- An empty table and callers that have not called yet. -/
def Processes.new : Processes where
  shared := ⟨List.replicate sharedProcessCapacity .new, fun _ => .empty, fun _ => .empty, fun _ => 0, fun _ => false⟩
  threads _ := .returned .unregistered

inductive Event where
  | start (t : ℕ) (call : Call)
  | advance (t : ℕ) (ghost : Bool)
  /-- `publish_identity`, taken as one step. -/
  | publishIdentity (i : ℕ) (pid : ℤ) (comm cmdline : List UInt8)

namespace Processes

/-- The next step of one caller. -/
def advance (w : Processes) (t : ℕ) (ghost : Bool) : Processes :=
  let place := w.threads t
  match w.shared.slots[place.index]? with
  | none => w.move t w.shared place.beyond
  | some slot =>
    let (slot', place') := place.act ghost slot
    w.move t ⟨w.shared.slots.set place.index slot', w.shared.ledger.note slot place⟩ place'

def step (w : Processes) : Event → Processes
  | .start t call =>
    match w.threads t with
    | .returned _ => w.move t w.shared call.entry
    | _ => w
  | .advance t ghost => w.advance t ghost
  | .publishIdentity i pid comm cmdline =>
    match w.shared.slots[i]? with
    | none => w
    | some slot =>
      if 0 < pid ∧ slot.pid = pid then
        { w with shared := { w.shared with slots := w.shared.slots.set i { slot with identity := ⟨pid, comm, cmdline⟩ } } }
      else w

end Processes

end LiteBox.Xproc
