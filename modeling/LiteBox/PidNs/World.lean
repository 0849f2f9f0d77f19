import LiteBox.PidNs.Table

/-! # Tasks and their namespaces

The tasks of a session over any history of clones, exits and reaps. A clone takes several steps, with
one call of the namespace table in each, and other tasks may run between them. The world also records
what the table cannot tell any more: which namespace an id stood for when it was handed out.
-/

namespace LiteBox.PidNs

open Function

/-- A live task. All tasks with the same `pid` are the threads of one process. -/
structure Task where
  tid : ℤ
  pid : ℤ
  ns : ℕ
  /-- The pid of its process in `ns`. -/
  nsPid : ℤ
deriving DecidableEq, Repr

/-- A clone between its namespace step and its end. -/
structure Clone where
  tid : ℤ
  pid : ℤ
  ns : ℕ
  newpid : Bool
  /-- For a thread, the pid of its process in `ns`. -/
  groupPid : Option ℤ
  /-- What `allocate` returned. -/
  nsTid : Option ℤ
deriving DecidableEq, Repr

/-- A clone that returned an error, with the namespace it had claimed. -/
structure FailedClone where
  tid : ℤ
  claimed : Option ℕ
deriving DecidableEq, Repr

/-- The namespaces in the order of their creation, numbered from 0, the initial one. -/
structure History where
  /-- The namespace that each one was created in. -/
  enclosing : List ℕ
  /-- The namespace that an id was last handed out to. -/
  holder : ℕ → ℕ
  /-- The namespace that a task was created in. -/
  home : ℤ → ℕ

structure World where
  table : PidNamespaceTable
  tasks : List Task
  clones : List Clone
  /-- Processes that have exited and have not been reaped. -/
  zombies : List ℤ
  failed : List FailedClone
  /-- The internal pids given out so far. -/
  issued : List ℤ
  history : History

/-- A session with its first process, in the initial namespace. -/
def World.boot (pid : ℤ) : World where
  table := .new
  tasks := [⟨pid, pid, initialNs, pid⟩]
  clones := []
  zombies := []
  failed := []
  issued := [pid]
  history := ⟨[0], fun _ => 0, fun _ => 0⟩

inductive Event where
  /-- A clone by `caller` up to `create`. `tid` is the next value of the thread counter, `alive` what the
  process table and the host say of a pid. -/
  | startClone (caller tid : ℤ) (newpid thread : Bool) (seen : ℕ) (alive : ℤ → Bool)
  | allocate (tid : ℤ)
  /-- The rest of the clone, with a child or with an error. -/
  | finishClone (tid : ℤ) (spawned : Bool)
  | exit (tid : ℤ)
  | reap (pid : ℤ)

namespace World

/-- The ids that live tasks and clones under way have. -/
def carriers (w : World) : List (ℤ × ℕ) := w.tasks.map (fun t => (t.tid, t.ns)) ++ w.clones.map fun c => (c.tid, c.ns)

/-- A new namespace in `outer`, whose id is `id` and whose first task is `tid`. -/
def recordNamespace (h : History) (id outer : ℕ) (tid : ℤ) : History where
  enclosing := h.enclosing ++ [outer]
  holder := update h.holder id h.enclosing.length
  home := update h.home tid h.enclosing.length

def recordTask (h : History) (tid : ℤ) (home : ℕ) : History := { h with home := update h.home tid home }

theorem holder_recordNamespace {h : History} {id outer ns : ℕ} {tid : ℤ} (other : ns ≠ id) :
    (recordNamespace h id outer tid).holder ns = h.holder ns := update_of_ne other _ _

theorem home_recordNamespace {h : History} {id outer : ℕ} {tid pid : ℤ} (other : pid ≠ tid) :
    (recordNamespace h id outer tid).home pid = h.home pid := update_of_ne other _ _

theorem home_recordTask {h : History} {home : ℕ} {tid pid : ℤ} (other : pid ≠ tid) :
    (recordTask h tid home).home pid = h.home pid := update_of_ne other _ _

def startClone (reclaim : Bool) (w : World) (caller : Task) (tid : ℤ) (newpid thread : Bool) (seen : ℕ)
    (alive : ℤ → Bool) : World :=
  if newpid then
    match w.table.create caller.ns alive reclaim seen with
    | (table, none) => { w with table, issued := tid :: w.issued, failed := ⟨tid, none⟩ :: w.failed }
    | (table, some id) =>
      { w with
        table, issued := tid :: w.issued, clones := ⟨tid, tid, id, true, none, none⟩ :: w.clones
        history := recordNamespace w.history id (w.history.home caller.tid) tid }
  else
    let child : Clone :=
      if thread then ⟨tid, caller.pid, caller.ns, false, some caller.nsPid, none⟩
      else ⟨tid, tid, caller.ns, false, none, none⟩
    { w with
      issued := tid :: w.issued, clones := child :: w.clones
      history := recordTask w.history tid (w.history.home caller.tid) }

def withoutClone (w : World) (tid : ℤ) : List Clone := w.clones.filter (·.tid != tid)

/-- The clone returns an error. Nothing that it took from the table is given back. -/
def failClone (w : World) (c : Clone) : World :=
  { w with
    clones := w.withoutClone c.tid
    failed := ⟨c.tid, if c.newpid then some (w.history.home c.tid) else none⟩ :: w.failed }

def allocate (w : World) (c : Clone) : World :=
  match w.table.allocate c.ns c.tid with
  | (table, none) => failClone { w with table } c
  | (table, some nsTid) => { w with table, clones := { c with nsTid := some nsTid } :: w.withoutClone c.tid }

def finishClone (w : World) (c : Clone) (nsTid : ℤ) (spawned : Bool) : World :=
  if spawned then
    { w with
      clones := w.withoutClone c.tid
      tasks := ⟨c.tid, c.pid, c.ns, c.groupPid.getD nsTid⟩ :: w.tasks }
  else w.failClone c

/-- Another task of the same process is left. -/
def hasSibling (w : World) (t : Task) : Bool := w.tasks.any fun other => other.pid == t.pid && other.tid != t.tid

/-- The exit of `t` ends its process, and with it a namespace. -/
def endsNamespace (reclaim : Bool) (w : World) (t : Task) : Bool :=
  !w.hasSibling t && t.ns != initialNs && t.nsPid == 1 && reclaim

def exit (reclaim : Bool) (w : World) (t : Task) : World :=
  let tasks := w.tasks.filter (·.tid != t.tid)
  if w.hasSibling t then { w with tasks, table := w.table.release t.tid }
  else
    { w with
      tasks, zombies := t.pid :: w.zombies
      table := if w.endsNamespace reclaim t then w.table.initExited t.ns else w.table }

/-- One step. An event that is not possible in the world leaves it as it is. -/
def step (reclaim : Bool) (w : World) : Event → World
  | .startClone caller tid newpid thread seen alive =>
    match w.tasks.find? (·.tid == caller) with
    | none => w
    | some task =>
      -- `CLONE_NEWPID` for a thread is refused before the namespace step
      if newpid && thread then w else w.startClone reclaim task tid newpid thread seen alive
  | .allocate tid =>
    match w.clones.find? fun c => c.tid == tid && c.nsTid.isNone with
    | none => w
    | some c => w.allocate c
  | .finishClone tid spawned =>
    match w.clones.find? fun c => c.tid == tid && c.nsTid.isSome with
    | none => w
    | some c => w.finishClone c (c.nsTid.getD 0) spawned
  | .exit tid =>
    match w.tasks.find? (·.tid == tid) with
    | none => w
    | some t => w.exit reclaim t
  | .reap pid =>
    if pid ∈ w.zombies then { w with zombies := w.zombies.erase pid, table := w.table.release pid } else w

end World

/-! ## Isolation -/

/-- The namespace `inner` is `outer` or was created somewhere inside it. -/
def History.Nested (h : History) : ℕ → ℕ → Prop :=
  Relation.ReflTransGen fun inner outer => h.enclosing[inner]? = some outer

/-- What the namespaces promise in a world. -/
structure Isolated (w : World) : Prop where
  inverse : ∀ ns, ns ≠ initialNs → ∀ nsPid internalPid,
    w.table.pidIn internalPid ns = some nsPid ↔ w.table.translate nsPid ns = some internalPid
  sees : ∀ t ∈ w.tasks, t.ns ≠ initialNs → ∀ nsPid internalPid,
    w.table.translate nsPid t.ns = some internalPid → w.history.Nested (w.history.home internalPid) (w.history.home t.tid)
  /-- The id of a live task, and the one of a namespace that others are nested in, was not handed on. -/
  kept : ∀ t ∈ w.tasks, t.ns ≠ initialNs → w.history.holder t.ns = w.history.home t.tid
  keptNested : ∀ id slot, w.table.slot id = some slot → slot.inUse = true → slot.parent ≠ initialNs →
    w.history.enclosing[w.history.holder id]? = some (w.history.holder slot.parent)
  noneLeft : ∀ f ∈ w.failed, (∀ row ∈ w.table.rows, row.internalPid ≠ f.tid) ∧ ∀ claimed, f.claimed = some claimed →
    ∀ id slot, w.table.slot id = some slot → slot.inUse = true → w.history.holder id ≠ claimed

end LiteBox.PidNs
