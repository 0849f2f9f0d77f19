import LiteBox.Lib.Bytes
import LiteBox.Lib.Prog

/-! # The 9P client

Messages are cut out of the server's byte stream by their size fields. A call writes its request under a tag
of its own and reads messages until one carries that tag.
-/

namespace LiteBox.NineP

open Bytes

inductive Error where
  | io
  | invalidResponse
  | invalidPathname
  | remote (errno : ℕ)
deriving DecidableEq

/-- The messages the connection itself looks at; every other one is an `F`. -/
inductive Fcall (F : Type) where
  | rlerror (ecode : ℕ)
  | rversion (msize : ℕ) (version : List UInt8)
  | other (message : F)
deriving DecidableEq

structure TaggedFcall (F : Type) where
  tag : ℕ
  fcall : Fcall F
deriving DecidableEq

def notag : ℕ := 0xFFFF

variable {F : Type} (others : UInt8 → List UInt8 → Option F)

def decodeStr : List UInt8 → Option (List UInt8)
  | low :: high :: buf => slice? buf 0 (leValue [low, high])
  | _ => none

/-- The payload of a message of a type; `others` reads the payloads that are no `Rlerror` or `Rversion`. -/
def decodePayload (type : UInt8) (buf : List UInt8) : Option (Fcall F) :=
  if type = 7 then (slice? buf 0 4).map fun ecode => .rlerror (leValue ecode)
  else if type = 101 then do
    let msize ← slice? buf 0 4
    let version ← decodeStr (buf.drop 4)
    some (.rversion (leValue msize) version)
  else (others type buf).map .other

def decodeMessage : List UInt8 → Option (TaggedFcall F)
  | type :: low :: high :: buf => (decodePayload others type buf).map (⟨leValue [low, high], ·⟩)
  | _ => none

def decode (buf : List UInt8) : Option (TaggedFcall F) :=
  if buf.length < 7 then none
  else if leValue (buf.take 4) ≠ buf.length then none
  else decodeMessage others (buf.drop 4)

/-! ## Reading messages

A program over the stream keeps how many of its bytes were taken. -/

/-- What the transport does for one call: whether it writes the request out, and up to which byte of the stream
its reads deliver before one of them fails. -/
structure Attempt where
  written : Bool
  arrived : ℕ

variable (sent : List UInt8)

def readExact (arrived count : ℕ) : Prog ℕ Error (List UInt8) := fun taken =>
  let delivered := (sent.take arrived).drop taken
  if count ≤ delivered.length then (.ok (delivered.take count), taken + count)
  else (.error .io, taken + delivered.length)

def readToBuf (arrived maxSize : ℕ) : Prog ℕ Error (List UInt8) := do
  let size ← readExact sent arrived 4
  if leValue size < 7 then Prog.fail .invalidResponse
  else if maxSize < leValue size then Prog.fail .invalidResponse
  else do
    let rest ← readExact sent arrived (leValue size - 4)
    pure (size ++ rest)

def readMessage (arrived maxSize : ℕ) : Prog ℕ Error (TaggedFcall F) := do
  let buf ← readToBuf sent arrived maxSize
  Prog.ofOption .invalidResponse (decode others buf)

/-! ## Calls -/

structure Client where
  msize : ℕ
  nextTag : ℕ
  transportFailed : Bool
  /-- The bytes of the stream that were read. -/
  taken : ℕ
deriving DecidableEq

def minMsize : ℕ := 4096 + 24

/-- `9P2000.L`. -/
def protocolVersion : List UInt8 := [57, 80, 50, 48, 48, 48, 46, 76]

def Client.new (maxMsize : ℕ) (attempt : Attempt) : Except Error Client :=
  let bufsize := max maxMsize minMsize
  if !attempt.written then .error .io
  else
    match readMessage others sent attempt.arrived bufsize 0 with
    | (.error failure, _) => .error failure
    | (.ok ⟨tag, .rversion msize version⟩, taken) =>
      if tag ≠ notag then .error .invalidResponse
      else if version ≠ protocolVersion then .error .invalidResponse
      else .ok { msize := min msize bufsize, nextTag := 1, transportFailed := false, taken }
    | (.ok ⟨_, .rlerror ecode⟩, _) => .error (.remote ecode)
    | (.ok _, _) => .error .invalidResponse

/-- An accepted response, with the place in the stream where it begins. -/
structure Reply (F : Type) where
  start : ℕ
  fcall : Fcall F
deriving DecidableEq

/-- One round of the loop that waits for a tag; `again` is the rest of the loop. -/
def awaitRound (attempt : Attempt) (tag : ℕ) (again : Prog Client Error (Reply F)) : Prog Client Error (Reply F) := fun client =>
  match readMessage others sent attempt.arrived client.msize client.taken with
  | (.ok response, taken) =>
    if response.tag = tag then (.ok ⟨client.taken, response.fcall⟩, { client with taken }) else again { client with taken }
  | (.error .io, taken) => (.error .io, { client with taken, transportFailed := true })
  | (.error failure, taken) => (.error failure, { client with taken })

/-- The loop; every round takes bytes of the stream, and the read fails when none is left. -/
def awaitResponse (attempt : Attempt) (tag : ℕ) : ℕ → Prog Client Error (Reply F)
  | 0 => fun client => (.error .io, { client with transportFailed := true })
  | fuel + 1 => awaitRound others sent attempt tag (awaitResponse attempt tag fuel)

def advanceTag (current : ℕ) : ℕ := if current = notag - 1 then 1 else current + 1

def Client.fcall (attempt : Attempt) : Prog Client Error (Reply F) := fun client =>
  if client.transportFailed then (.error .io, client)
  else
    let called := { client with nextTag := advanceTag client.nextTag }
    if !attempt.written then (.error .io, { called with transportFailed := true })
    else awaitResponse others sent attempt client.nextTag (sent.length + 1) called

/-- A call as it went: the client before it, what it returned and the client after it. -/
structure Report (F : Type) where
  before : Client
  result : Except Error (Reply F)
  after : Client

def Client.run : Client → List Attempt → List (Report F)
  | _, [] => []
  | client, attempt :: rest =>
    let ran := Client.fcall others sent attempt client
    ⟨client, ran.1, ran.2⟩ :: Client.run ran.2 rest

end LiteBox.NineP
