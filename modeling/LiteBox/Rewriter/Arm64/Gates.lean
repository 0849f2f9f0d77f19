import LiteBox.Rewriter.Arm64.Insn

/-! # Gates

The position-tracking assembler and the three kinds of gates. A gate is what a patched instruction
branches to; it ends in a branch back to the next instruction or to the shared handler. Distances
saturate like the source's, so that a target out of reach is always refused by the encoder.
-/

namespace LiteBox.Rewriter.Arm64

open Bytes Outcome

/-- `i64::saturating_sub`. -/
def saturatingSub (a b : ℤ) : ℤ := max (-2 ^ 63) (min (a - b) (2 ^ 63 - 1))

/-- One fragment of the trampoline: the words emitted so far, and where the first of them lies. -/
structure Asm where
  baseVaddr : ℕ
  words : List ℕ

namespace Asm

def new (baseVaddr : ℕ) : Asm := ⟨baseVaddr, []⟩

def here (asm : Asm) : Except Error ℕ :=
  checkedAddU64 asm.baseVaddr (4 * asm.words.length) "trampoline gate next-instruction"

def pushWord (asm : Asm) (word : ℕ) : Asm := { asm with words := asm.words ++ [word] }

def emit (asm : Asm) (insn : Insn) : Except Error Asm :=
  match insn.encode with
  | some word => .ok (asm.pushWord word)
  | none => .error (.panic "statically valid instruction")

/-- Consecutive `emit`s. -/
def emitAll (asm : Asm) : List Insn → Except Error Asm
  | [] => .ok asm
  | insn :: rest => do
    let asm ← asm.emit insn
    asm.emitAll rest

def deltaTo (asm : Asm) (targetVaddr : ℕ) : Except Error ℤ := do
  let here ← asm.here
  return saturatingSub (toSigned 64 targetVaddr) (toSigned 64 here)

/-- `none` when the target is out of reach. -/
def branchTo (asm : Asm) (targetVaddr : ℕ) : Except Error (Option Asm) := do
  let offset ← asm.deltaTo targetVaddr
  return (Insn.b offset).encode.map asm.pushWord

def ldrLiteral (asm : Asm) (rt : Reg) (targetVaddr : ℕ) : Except Error Asm := do
  let offset ← asm.deltaTo targetVaddr
  match (Insn.ldrLiteral rt offset).encode with
  | some word => return asm.pushWord word
  | none => .error (.addressOverflow
      ("LDR literal offset " ++ hex (ofSigned 64 offset) ++ " out of ±1MB range"))

/-- The first byte of an address's page, `& !0xFFF`. -/
def page (addr : ℕ) : ℕ := addr / 4096 * 4096

/-- `none` when the target's page is out of reach. -/
def adrp (asm : Asm) (rd : Reg) (targetVaddr : ℕ) : Except Error (Option Asm) := do
  let here ← asm.here
  let pageOff := saturatingSub (toSigned 64 (page targetVaddr)) (toSigned 64 (page here)) / 4096
  return (Insn.adrp rd pageOff).encode.map asm.pushWord

/-- The emitted bytes. -/
def finish (asm : Asm) : List UInt8 := asm.words.flatMap (leBytes 4)

end Asm

/-! ## The gates -/

inductive Host where
  | linux
deriving DecidableEq, Repr

def Host.anchorRead (host : Host) (rd : Reg) : Insn :=
  match host with
  | .linux => .mrsTpidrEl0 rd

inductive PatchKind where
  | svc
  | msrTpidr (rt : Reg)
  | mrsTpidr (rd : Reg)
deriving DecidableEq, Repr

/-- A located instruction to rewrite. -/
structure PatchSite where
  fileOffset : ℕ
  vaddr : ℕ
  kind : PatchKind
deriving DecidableEq, Repr

def guestTpidrOffset : ℕ := 16
def svcFrameBytes : ℕ := 16
def svcFrameOffX16 : ℕ := 0
def svcFrameOffRetaddr : ℕ := 8
def msrFrameBytes : ℕ := 32
def msrFrameOffX16 : ℕ := 0
def msrFrameOffValue : ℕ := 16
def headerCallbackOffset : ℕ := 0
def sharedSvcHandlerOffset : ℕ := headerCallbackOffset + 8

variable (gateOffset trampolineBaseAddr : ℕ)

/-- The bytes of a gate, or `none` when it cannot be placed within reach. -/
def emitSvcGate (site : PatchSite) : Except Error (Option (List UInt8)) := do
  let gateVaddr ← checkedAddU64 trampolineBaseAddr gateOffset "SVC gate"
  let asm ← (Asm.new gateVaddr).emitAll [.subSp svcFrameBytes, .strUimm x16 sp svcFrameOffX16]
  let returnAddr ← checkedAddU64 site.vaddr 4 "SVC return"
  match ← asm.adrp x16 returnAddr with
  | none => return none
  | some asm =>
    let asm ← asm.emitAll [.addImm x16 x16 (returnAddr % 4096), .strUimm x16 sp svcFrameOffRetaddr]
    let handlerVaddr ← checkedAddU64 trampolineBaseAddr sharedSvcHandlerOffset "SVC handler"
    return (← asm.branchTo handlerVaddr).map Asm.finish

def emitMsrGate (site : PatchSite) (rt : Reg) (host : Host) :
    Except Error (Option (List UInt8)) := do
  let gateVaddr ← checkedAddU64 trampolineBaseAddr gateOffset "MSR gate"
  let asm ← (Asm.new gateVaddr).emitAll
    [.subSp msrFrameBytes, .stp x16 x17 sp msrFrameOffX16, .strUimm rt sp msrFrameOffValue,
      host.anchorRead x16, .ldrUimm x17 sp msrFrameOffValue, .strUimm x17 x16 guestTpidrOffset,
      .ldp x16 x17 sp msrFrameOffX16, .addSp msrFrameBytes]
  let returnAddr ← checkedAddU64 site.vaddr 4 "MSR return"
  return (← asm.branchTo returnAddr).map Asm.finish

def emitMrsGate (site : PatchSite) (rd : Reg) (host : Host) :
    Except Error (Option (List UInt8)) := do
  let gateVaddr ← checkedAddU64 trampolineBaseAddr gateOffset "MRS gate"
  let asm ← (Asm.new gateVaddr).emitAll [host.anchorRead rd, .ldrUimm rd rd guestTpidrOffset]
  let returnAddr ← checkedAddU64 site.vaddr 4 "MRS return"
  return (← asm.branchTo returnAddr).map Asm.finish

def emitGate (site : PatchSite) (host : Host) : Except Error (Option (List UInt8)) :=
  match site.kind with
  | .svc => emitSvcGate gateOffset trampolineBaseAddr site
  | .msrTpidr rt => emitMsrGate gateOffset trampolineBaseAddr site rt host
  | .mrsTpidr rd => emitMrsGate gateOffset trampolineBaseAddr site rd host

def emitSharedSvcHandler (handlerOffset trampolineBaseAddr : ℕ) : Except Error (List UInt8) := do
  let handlerVaddr ← checkedAddU64 trampolineBaseAddr handlerOffset "SVC handler"
  let callbackVaddr ← checkedAddU64 trampolineBaseAddr headerCallbackOffset "callback slot"
  let asm ← (Asm.new handlerVaddr).ldrLiteral x16 callbackVaddr
  let asm ← asm.emit (.br x16)
  return asm.finish

def emitSharedPrologue (trampolineBaseAddr callback : ℕ) : Except Error (List UInt8) := do
  let handler ← emitSharedSvcHandler sharedSvcHandlerOffset trampolineBaseAddr
  return leBytes 8 callback ++ handler

end LiteBox.Rewriter.Arm64
