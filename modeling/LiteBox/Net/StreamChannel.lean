import LiteBox.Lib.Run

/-! # Stream channels

The receiving half of `StreamSocketChannel`: a ring that the network worker fills, and the flags around it. A read, a
peek and a poll each compute their outcome from their own choice of them.
-/

namespace LiteBox.Net

inductive SocketState where
  | initial | connecting | connected | listening | error | closed
deriving DecidableEq

inductive ChannelReadError where
  | readShutdown | notConnected | connectionClosed
deriving DecidableEq

structure ReceiveFlags where
  peek : Bool := false
  discard : Bool := false
  trunc : Bool := false

structure StreamSocketChannel where
  rxCapacity : ℕ
  rx : List UInt8 := []
  state : SocketState := .initial
  readShutdown : Bool := false
  peerClosed : Bool := false
  rxAvailable : ℕ := 0
  smoltcpRxPending : Bool := false
deriving DecidableEq

/-- What the receiving half reports; `OUT` belongs to the sending one. -/
structure Events where
  (input hangup error : Bool)

namespace StreamSocketChannel

def newWithCapacity (rxCapacity : ℕ) : StreamSocketChannel := { rxCapacity }

variable (c : StreamSocketChannel)

/-- What a read returns that has not found a byte: `Ok(0)` is for would-block. -/
def nothing : Except ChannelReadError (ℕ × List UInt8) :=
  match c.state with
  | .connected => .ok (0, [])
  | .closed | .error => .error .connectionClosed
  | _ => .error .notConnected

/-- The count that is returned, and what is written to a buffer of `len` bytes. -/
def tryRead (len : ℕ) (flags : ReceiveFlags) :
    Except ChannelReadError (ℕ × List UInt8) × StreamSocketChannel :=
  if c.readShutdown then (.error .readShutdown, c)
  else
    let data := if flags.discard && !flags.peek then [] else c.rx.take len
    if flags.peek then (if 0 < data.length then .ok (data.length, data) else c.nothing, c)
    else
      let n := if flags.discard || flags.trunc then c.rx.length else data.length
      (if 0 < n then .ok (n, data) else if c.peerClosed then .error .readShutdown else c.nothing,
        { c with rx := c.rx.drop n, rxAvailable := (c.rxAvailable + 2 ^ 64 - n) % 2 ^ 64 })

def isReadable : Bool := decide (0 < c.rxAvailable) || c.peerClosed || c.smoltcpRxPending

def checkIoEvents : Events :=
  ⟨c.isReadable, c.state = .initial || c.state = .closed, c.state = .error⟩

inductive Op where
  | tryRead (len : ℕ) (flags : ReceiveFlags)
  | pushRxData (data : List UInt8)
  | setState (state : SocketState)
  | shutdownRead
  | markPeerClosed
  | setSmoltcpRxPending (pending : Bool)
  | setReadable (readable : Bool)

def step : Op → StreamSocketChannel
  | .tryRead len flags => (c.tryRead len flags).2
  | .pushRxData data =>
    let pushed := data.take (c.rxCapacity - c.rx.length)
    { c with rx := c.rx ++ pushed, rxAvailable := (c.rxAvailable + pushed.length) % 2 ^ 64 }
  | .setState state => { c with state }
  | .shutdownRead => { c with readShutdown := true }
  | .markPeerClosed => { c with peerClosed := true }
  | .setSmoltcpRxPending pending => { c with smoltcpRxPending := pending }
  | .setReadable readable => { c with rxAvailable := if readable then 1 else 0 }

/-- A peek has the outcome of the read it stands for, and no effect. -/
def PeekAgrees (len : ℕ) : Prop := c.tryRead len { peek := true } = ((c.tryRead len {}).1, c)

/-- A read that would not block is announced. -/
def PollAgrees : Prop :=
  ∀ len > 0, (c.tryRead len {}).1 ≠ .ok (0, []) →
    c.checkIoEvents.input = true ∨ c.checkIoEvents.hangup = true ∨ c.checkIoEvents.error = true

theorem nothing_ne_readShutdown : c.nothing ≠ .error .readShutdown := by
  unfold nothing
  split <;> nofun

theorem peekAgrees_iff (len : ℕ) :
    c.PeekAgrees len ↔ c.readShutdown = true ∨ c.peerClosed = false ∨ 0 < len ∧ c.rx ≠ [] := by
  unfold PeekAgrees tryRead
  cases c.readShutdown with
  | true => simp
  | false =>
    by_cases found : 0 < len ∧ c.rx ≠ []
    · have positive : 0 < c.rx.length := List.length_pos_iff.mpr found.2
      simp [found, positive]
    · have none : c.rx.take len = [] := by simpa [Nat.pos_iff_ne_zero, imp_iff_not_or] using found
      cases c.peerClosed <;> simp [none, found, c.nothing_ne_readShutdown]

theorem pollAgrees_iff : c.PollAgrees ↔ c.isReadable = true ∨
    c.state ∈ [.initial, .closed, .error] ∨ c.state = .connected ∧ c.readShutdown = false ∧ c.rx = [] := by
  have announced : c.checkIoEvents.input = true ∨ c.checkIoEvents.hangup = true ∨ c.checkIoEvents.error = true ↔
      c.isReadable = true ∨ c.state ∈ [.initial, .closed, .error] := by
    simp [checkIoEvents, or_assoc]
  by_cases ready : c.isReadable = true ∨ c.state ∈ [.initial, .closed, .error]
  · exact ⟨fun _ => or_assoc.mp (.inl ready), fun _ _ _ _ => announced.mpr ready⟩
  · have unclosed : c.peerClosed = false := by
      by_contra closed
      exact ready (.inl (by simp_all [isReadable]))
    have blocks : ∀ len > 0, (c.tryRead len {}).1 = .ok (0, []) ↔ c.state = .connected ∧ c.readShutdown = false ∧ c.rx = [] := by
      intro len positive
      cases shut : c.readShutdown <;> cases ring : c.rx <;> cases state : c.state <;>
        simp [tryRead, nothing, shut, ring, state, unclosed, positive.ne', positive]
    rw [← or_assoc, or_iff_right ready, ← blocks 1 one_pos]
    refine ⟨fun agrees => ?_, fun blocked len positive other => ?_⟩
    · by_contra other
      exact ready (announced.mp (agrees 1 one_pos other))
    · exact absurd ((blocks len positive).mpr ((blocks 1 one_pos).mp blocked)) other

/-- In every state, when a peek agrees with the read and when a poll does. -/
theorem peek_and_poll_agree_iff :
    (∀ len, c.PeekAgrees len ↔ c.readShutdown = true ∨ c.peerClosed = false ∨ 0 < len ∧ c.rx ≠ []) ∧
      (c.PollAgrees ↔ c.isReadable = true ∨ c.state ∈ [.initial, .closed, .error] ∨
        c.state = .connected ∧ c.readShutdown = false ∧ c.rx = []) :=
  ⟨c.peekAgrees_iff, c.pollAgrees_iff⟩

/-- After the peer has closed, a peek would block where a read ends; after `shutdown_read`, a read ends and a poll does not
say so. -/
theorem peek_and_poll_disagree :
    ¬(Run.run step (newWithCapacity 4) [.setState .connected, .markPeerClosed]).PeekAgrees 1 ∧
      ¬(Run.run step (newWithCapacity 4) [.setState .connected, .shutdownRead]).PollAgrees := by
  constructor
  · unfold PeekAgrees
    decide
  · intro agrees
    exact absurd (agrees 1 one_pos (by decide)) (by decide)

end StreamSocketChannel

end LiteBox.Net
