import LiteBox.Lib.Bytes
import LiteBox.Errno

/-! # The seccomp filter interpreter

`run_filter`, the classic-BPF interpreter every guest system call passes through, and `validate`,
the static check an installed program has passed. The interpreter's loop is a step function over
the registers; every early `return 0` of the source is an `Exit` of its own, so that what a
program can and cannot run into stays visible.
-/

namespace LiteBox.Seccomp

open Bytes

def seccompDataLen : ℕ := 64
def maxInsns : ℕ := 4096

def bpfClass : UInt16 := 0x07
def bpfLd : UInt16 := 0x00
def bpfLdx : UInt16 := 0x01
def bpfSt : UInt16 := 0x02
def bpfStx : UInt16 := 0x03
def bpfAlu : UInt16 := 0x04
def bpfJmp : UInt16 := 0x05
def bpfRet : UInt16 := 0x06
def bpfMisc : UInt16 := 0x07

def bpfSize : UInt16 := 0x18
def bpfW : UInt16 := 0x00
def bpfH : UInt16 := 0x08
def bpfB : UInt16 := 0x10

def bpfMode : UInt16 := 0xe0
def bpfImm : UInt16 := 0x00
def bpfAbs : UInt16 := 0x20
def bpfMem : UInt16 := 0x60
def bpfLen : UInt16 := 0x80

def bpfX : UInt16 := 0x08

def bpfOp : UInt16 := 0xf0
def bpfAdd : UInt16 := 0x00
def bpfSub : UInt16 := 0x10
def bpfMul : UInt16 := 0x20
def bpfDiv : UInt16 := 0x30
def bpfOr : UInt16 := 0x40
def bpfAnd : UInt16 := 0x50
def bpfLsh : UInt16 := 0x60
def bpfRsh : UInt16 := 0x70
def bpfNeg : UInt16 := 0x80
def bpfMod : UInt16 := 0x90
def bpfXor : UInt16 := 0xa0

def bpfJa : UInt16 := 0x00
def bpfJeq : UInt16 := 0x10
def bpfJgt : UInt16 := 0x20
def bpfJge : UInt16 := 0x30
def bpfJset : UInt16 := 0x40

def bpfTax : UInt16 := bpfMisc
def bpfTxa : UInt16 := bpfMisc ||| 0x80
def bpfRetA : UInt16 := bpfRet ||| bpfB
def bpfRetK : UInt16 := bpfRet

/-- One classic-BPF instruction, `struct sock_filter`. -/
structure SockFilter where
  code : UInt16
  (jt jf : UInt8)
  k : UInt32
deriving DecidableEq, Repr

/-- The 64 bytes of `struct seccomp_data`. -/
structure SeccompData where
  bytes : List UInt8
  length_eq : bytes.length = seccompDataLen

/-- `usize` addition on a 64-bit target. -/
def checkedAdd (a b : ℕ) : Option ℕ := if a + b < 2 ^ 64 then some (a + b) else none

def memSlot (k : UInt32) : Option (Fin 16) := if h : k.toNat < 16 then some ⟨k.toNat, h⟩ else none

variable (data : SeccompData)

/-- `data.get(start..start.checked_add(width)?)`, read as a little-endian value. -/
def getLe (start width : ℕ) : Option UInt32 := do
  let _ ← checkedAdd start width
  let bytes ← slice? data.bytes start width
  return UInt32.ofNat (leValue bytes)

def loadAbs (code : UInt16) (k : UInt32) : Option UInt32 :=
  let size := code &&& bpfSize
  if size = bpfW then getLe data k.toNat 4
  else if size = bpfH then getLe data k.toNat 2
  else if size = bpfB then getLe data k.toNat 1
  else none

/-- Lean's shifts on `UInt32` already take the count modulo 32, as `wrapping_shl` does. -/
def alu (op : UInt16) (a y : UInt32) : Option UInt32 :=
  if op = bpfAdd then some (a + y)
  else if op = bpfSub then some (a - y)
  else if op = bpfMul then some (a * y)
  else if op = bpfDiv then if y = 0 then none else some (a / y)
  else if op = bpfMod then if y = 0 then none else some (a % y)
  else if op = bpfAnd then some (a &&& y)
  else if op = bpfOr then some (a ||| y)
  else if op = bpfXor then some (a ^^^ y)
  else if op = bpfLsh then some (a <<< y)
  else if op = bpfRsh then some (a >>> y)
  else if op = bpfNeg then some (-a)
  else none

/-- The interpreter's locals. -/
structure Machine where
  (a x : UInt32)
  m : Vector UInt32 16
  pc : ℕ
deriving DecidableEq, Repr

def Machine.init : Machine := ⟨0, 0, Vector.replicate 16 0, 0⟩

/-- Where the interpreter leaves its loop. All exits but `ret` answer zero. -/
inductive Exit where
  | ret (value : UInt32)
  /-- An instruction form the interpreter does not know. -/
  | malformed
  /-- A scratch slot outside the sixteen cells. -/
  | slot (k : UInt32)
  /-- A load outside `seccomp_data`. -/
  | data (k : UInt32)
  /-- The ALU has no result for this operation and operand. -/
  | alu (op : UInt16) (y : UInt32)
  /-- A jump target that overflows, goes backwards or lies past the end. -/
  | jump
  /-- No instruction at the program counter. -/
  | offEnd
deriving DecidableEq, Repr

def Exit.value : Exit → UInt32
  | .ret value => value
  | _ => 0

variable (insn : SockFilter) (s : Machine)

/-- The second operand of an ALU or jump instruction. -/
def operand : UInt32 :=
  if insn.code &&& bpfX = bpfX then s.x else insn.k

/-- The value a load instruction brings in. -/
def loadValue (insn : SockFilter) (s : Machine) : Except Exit UInt32 :=
  let mode := insn.code &&& bpfMode
  if mode = bpfImm then .ok insn.k
  else if mode = bpfMem then
    match memSlot insn.k with
    | some i => .ok s.m[i]
    | none => .error (.slot insn.k)
  else if mode = bpfAbs then
    match loadAbs data insn.code insn.k with
    | some v => .ok v
    | none => .error (.data insn.k)
  else if mode = bpfLen then .ok (UInt32.ofNat seccompDataLen)
  else .error .malformed

/-- How many instructions past the next one a jump goes. -/
def jumpOffset : Option ℕ :=
  let y := operand insn s
  let op := insn.code &&& bpfOp
  if op = bpfJa then some insn.k.toNat
  else if op = bpfJeq then some (if s.a = y then insn.jt else insn.jf).toNat
  else if op = bpfJgt then some (if y < s.a then insn.jt else insn.jf).toNat
  else if op = bpfJge then some (if y ≤ s.a then insn.jt else insn.jf).toNat
  else if op = bpfJset then some (if s.a &&& y ≠ 0 then insn.jt else insn.jf).toNat
  else none

def retStep : Except Exit Machine :=
  if insn.code = bpfRetA then .error (.ret s.a)
  else if insn.code = bpfRetK then .error (.ret insn.k)
  else .error .malformed

def miscStep : Except Exit Machine :=
  if insn.code = bpfTax then .ok { s with x := s.a, pc := s.pc + 1 }
  else if insn.code = bpfTxa then .ok { s with a := s.x, pc := s.pc + 1 }
  else .error .malformed

def storeStep : Except Exit Machine :=
  match memSlot insn.k with
  | some i =>
    let value := if insn.code &&& bpfClass = bpfSt then s.a else s.x
    .ok { s with m := s.m.set i value, pc := s.pc + 1 }
  | none => .error (.slot insn.k)

def loadStep (insn : SockFilter) (s : Machine) : Except Exit Machine :=
  match loadValue data insn s with
  | .ok value =>
    if insn.code &&& bpfClass = bpfLd then .ok { s with a := value, pc := s.pc + 1 }
    else .ok { s with x := value, pc := s.pc + 1 }
  | .error exit => .error exit

def aluStep : Except Exit Machine :=
  let op := insn.code &&& bpfOp
  match alu op s.a (operand insn s) with
  | some v => .ok { s with a := v, pc := s.pc + 1 }
  | none => .error (.alu op (operand insn s))

def jmpStep (len : ℕ) (insn : SockFilter) (s : Machine) : Except Exit Machine :=
  match jumpOffset insn s with
  | none => .error .malformed
  | some offset =>
    match (checkedAdd s.pc 1).bind (checkedAdd · offset) with
    | none => .error .jump
    | some next => if next ≤ s.pc ∨ len < next then .error .jump else .ok { s with pc := next }

/-- One turn of the interpreter's loop at an instruction of a program of `len` instructions. -/
def step (len : ℕ) (data : SeccompData) (insn : SockFilter) (s : Machine) : Except Exit Machine :=
  let cls := insn.code &&& bpfClass
  if cls = bpfRet then retStep insn s
  else if cls = bpfMisc then miscStep insn s
  else if cls = bpfSt ∨ cls = bpfStx then storeStep insn s
  else if cls = bpfLd ∨ cls = bpfLdx then loadStep data insn s
  else if cls = bpfAlu then aluStep insn s
  else if cls = bpfJmp then jmpStep len insn s
  else .error .malformed

/-- The interpreter's loop, for at most `fuel` instructions; `none` when they do not suffice. -/
def exec (prog : List SockFilter) (data : SeccompData) : ℕ → Machine → Option Exit
  | 0, s => if prog[s.pc]?.isSome then none else some .offEnd
  | fuel + 1, s =>
    match prog[s.pc]? with
    | none => some .offEnd
    | some insn =>
      match step prog.length data insn s with
      | .error exit => some exit
      | .ok next => exec prog data fuel next

/-- The value of a program. The program counter only grows, so `prog.length` turns are enough
for every program, accepted or not (`exec_terminates`). -/
def runFilter (prog : List SockFilter) (data : SeccompData) : UInt32 :=
  match exec prog data prog.length .init with
  | some exit => exit.value
  | none => 0

/-- The width of an absolute load, none for the size bits no load has. -/
def loadWidth (code : UInt16) : Option ℕ :=
  let size := code &&& bpfSize
  if size = bpfW then some 4
  else if size = bpfH then some 2
  else if size = bpfB then some 1
  else none

def aluOps : List UInt16 :=
  [bpfAdd, bpfSub, bpfMul, bpfDiv, bpfOr, bpfAnd, bpfLsh, bpfRsh, bpfNeg, bpfMod, bpfXor]

def condOps : List UInt16 := [bpfJeq, bpfJgt, bpfJge, bpfJset]

/-- The body of the validation loop: whether the instruction at `pc` of `len` is accepted. -/
def validInsn (len pc : ℕ) (insn : SockFilter) : Bool :=
  let code := insn.code
  let cls := code &&& bpfClass
  if cls = bpfLd ∨ cls = bpfLdx then
    let mode := code &&& bpfMode
    if mode = bpfImm ∨ mode = bpfLen then true
    else if mode = bpfMem then insn.k.toNat < 16
    else if mode = bpfAbs then
      match loadWidth code with
      | none => false
      | some width =>
        match checkedAdd insn.k.toNat width with
        | none => false
        | some stop => stop ≤ seccompDataLen
    else false
  else if cls = bpfSt ∨ cls = bpfStx then insn.k.toNat < 16
  else if cls = bpfAlu then code &&& bpfOp ∈ aluOps
  else if cls = bpfJmp then
    let limit := len - 1 - pc
    let op := code &&& bpfOp
    if op = bpfJa then insn.k.toNat ≤ limit
    else op ∈ condOps ∧ insn.jt.toNat ≤ limit ∧ insn.jf.toNat ≤ limit
  else if cls = bpfRet then code = bpfRetK ∨ code = bpfRetA
  else if cls = bpfMisc then code = bpfTax ∨ code = bpfTxa
  else false

def validate (prog : List SockFilter) : Except Errno Unit :=
  match prog.getLast? with
  | none => .error .EINVAL
  | some last =>
    if maxInsns < prog.length then .error .EINVAL
    else if last.code &&& bpfClass ≠ bpfRet then .error .EINVAL
    else if prog.zipIdx.all (fun (insn, pc) => validInsn prog.length pc insn) then .ok ()
    else .error .EINVAL

/-- What acceptance says, instruction by instruction. -/
theorem validate_ok_iff (prog : List SockFilter) :
    validate prog = .ok () ↔
      prog.length ≤ maxInsns ∧
      (∃ last, prog.getLast? = some last ∧ last.code &&& bpfClass = bpfRet) ∧
      ∀ pc insn, prog[pc]? = some insn → validInsn prog.length pc insn = true := by
  unfold validate
  cases last : prog.getLast? with
  | none => simp
  | some insn =>
    have indexed : (prog.zipIdx.all fun (insn, pc) => validInsn prog.length pc insn) = true ↔
        ∀ pc insn, prog[pc]? = some insn → validInsn prog.length pc insn = true := by
      simp only [List.all_eq_true, Prod.forall, List.mem_zipIdx_iff_getElem?]
      exact ⟨fun all pc insn read => all insn pc read, fun all insn pc read => all pc insn read⟩
    simp only [← indexed, Option.some.injEq, exists_eq_left']
    split_ifs with long unreturned valid
    · simp [Nat.not_le.mpr long]
    · simp [unreturned]
    · simp [valid, Nat.not_lt.mp long, not_not.mp unreturned]
    · simp [valid]

end LiteBox.Seccomp
