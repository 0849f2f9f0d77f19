import LiteBox.Lib.Sweep

/-! # The x86 decoder and encoder

The rewriter leaves decoding and encoding x86 to the `iced-x86` crate. `Iced` collects what it uses
of that crate; the structures of laws below state the crate's documented behaviour, grouped by what
the different parts of the rewriter rely on.
-/

namespace LiteBox.Rewriter

/-- The longest x86 instruction. -/
def maxX86InstructionLen : ℕ := 15

/-- Instructions of a decoder, as far as the rewriter looks at them. -/
structure Iced where
  Inst : Type
  /-- Decode the first instruction of the bytes left, at an instruction pointer. -/
  decode : List UInt8 → ℕ → Inst
  (ip len : Inst → ℕ)
  setIp : Inst → ℕ → Inst
  /-- `code() == Code::Syscall`. -/
  isSyscall : Inst → Bool
  /-- `flow_control() == FlowControl::Next`. -/
  flowsNext : Inst → Bool
  /-- Zero when the instruction is no near branch. -/
  nearBranchTarget : Inst → ℕ
  /-- The absolute address of a RIP-relative operand or a near branch, which a decoded instruction
  stores. -/
  storedTarget : Inst → Option ℕ
  encode : Inst → ℕ → Option (List UInt8)

namespace Iced

/-- `next_ip()` wraps around the address space. -/
def nextIp (iced : Iced) (inst : iced.Inst) : ℕ := (iced.ip inst + iced.len inst) % 2 ^ 64

/-- What the decoder consumes: at least one of the bytes left, at most the longest instruction, and
nothing that depends on bytes beyond it. -/
structure DecodeLaws (iced : Iced) : Prop where
  len_pos : ∀ bytes ip, bytes ≠ [] → 0 < iced.len (iced.decode bytes ip)
  len_le : ∀ bytes ip, iced.len (iced.decode bytes ip) ≤ bytes.length
  ip_eq : ∀ bytes ip, iced.ip (iced.decode bytes ip) = ip
  reads_max : ∀ bytes ip, iced.decode (bytes.take maxX86InstructionLen) ip = iced.decode bytes ip

/-- Encoding looks at the stored target and not at the instruction's own address, and what it
writes decodes to the same operation on the same target. -/
structure EncodeLaws (iced : Iced) : Prop where
  encode_setIp : ∀ inst old ip, iced.encode (iced.setIp inst old) ip = iced.encode inst ip
  len_decode : ∀ inst ip bytes rest, iced.encode inst ip = some bytes → bytes.length = iced.len inst →
    iced.len (iced.decode (bytes ++ rest) ip) = iced.len inst
  isSyscall_decode : ∀ inst ip bytes rest, iced.encode inst ip = some bytes →
    bytes.length = iced.len inst → iced.isSyscall (iced.decode (bytes ++ rest) ip) = iced.isSyscall inst
  flowsNext_decode : ∀ inst ip bytes rest, iced.encode inst ip = some bytes →
    bytes.length = iced.len inst → iced.flowsNext (iced.decode (bytes ++ rest) ip) = iced.flowsNext inst
  storedTarget_decode : ∀ inst ip bytes rest, iced.encode inst ip = some bytes →
    bytes.length = iced.len inst → iced.storedTarget (iced.decode (bytes ++ rest) ip) = iced.storedTarget inst

/-- What the decoder makes of `syscall` and of the instructions the rewriter writes itself:
`LEA RCX, [RIP + 6]`, `JMP [RIP + disp32]` and `JMP rel32`. -/
structure X86Laws (iced : Iced) : Prop where
  syscall_flow : ∀ inst, iced.isSyscall inst = true → iced.flowsNext inst = false
  syscall_len : ∀ bytes ip, iced.isSyscall (iced.decode bytes ip) = true → 2 ≤ iced.len (iced.decode bytes ip)
  lea : ∀ rest ip, iced.len (iced.decode ([0x48, 0x8D, 0x0D, 0x06, 0x00, 0x00, 0x00] ++ rest) ip) = 7 ∧
    iced.isSyscall (iced.decode ([0x48, 0x8D, 0x0D, 0x06, 0x00, 0x00, 0x00] ++ rest) ip) = false ∧
    iced.flowsNext (iced.decode ([0x48, 0x8D, 0x0D, 0x06, 0x00, 0x00, 0x00] ++ rest) ip) = true
  jmpMem : ∀ disp : List UInt8, disp.length = 4 → ∀ rest ip,
    iced.len (iced.decode ([0xFF, 0x25] ++ disp ++ rest) ip) = 6 ∧
    iced.isSyscall (iced.decode ([0xFF, 0x25] ++ disp ++ rest) ip) = false ∧
    iced.flowsNext (iced.decode ([0xFF, 0x25] ++ disp ++ rest) ip) = false
  jmpRel : ∀ disp : List UInt8, disp.length = 4 → ∀ rest ip,
    iced.len (iced.decode ([0xE9] ++ disp ++ rest) ip) = 5 ∧ iced.isSyscall (iced.decode ([0xE9] ++ disp ++ rest) ip) = false ∧
    iced.flowsNext (iced.decode ([0xE9] ++ disp ++ rest) ip) = false

/-- What depends on the address an instruction is decoded at: only its own address and its stored
target, which moves along with it. `set_ip` changes the address alone. -/
structure RelocationLaws (iced : Iced) : Prop where
  setIp_ip : ∀ inst ip, iced.ip (iced.setIp inst ip) = ip
  setIp_len : ∀ inst ip, iced.len (iced.setIp inst ip) = iced.len inst
  setIp_flowsNext : ∀ inst ip, iced.flowsNext (iced.setIp inst ip) = iced.flowsNext inst
  setIp_storedTarget : ∀ inst ip, iced.storedTarget (iced.setIp inst ip) = iced.storedTarget inst
  decode_len : ∀ bytes ip ip', iced.len (iced.decode bytes ip) = iced.len (iced.decode bytes ip')
  decode_isSyscall : ∀ bytes ip ip', iced.isSyscall (iced.decode bytes ip) = iced.isSyscall (iced.decode bytes ip')
  decode_flowsNext : ∀ bytes ip ip', iced.flowsNext (iced.decode bytes ip) = iced.flowsNext (iced.decode bytes ip')
  decode_storedTarget : ∀ bytes ip delta, iced.storedTarget (iced.decode bytes (ip + delta)) =
    (iced.storedTarget (iced.decode bytes ip)).map fun target => (target + delta) % 2 ^ 64
  decode_setIp : ∀ bytes ip ip', iced.storedTarget (iced.decode bytes ip) = none →
    iced.setIp (iced.decode bytes ip) ip' = iced.decode bytes ip'
  nearBranch : ∀ bytes, (∀ ip, iced.nearBranchTarget (iced.decode bytes ip) = 0) ∨
    ∀ ip, iced.storedTarget (iced.decode bytes ip) = some (iced.nearBranchTarget (iced.decode bytes ip))
  storedTarget_lt : ∀ bytes ip target, iced.storedTarget (iced.decode bytes ip) = some target → target < 2 ^ 64

end Iced

end LiteBox.Rewriter
