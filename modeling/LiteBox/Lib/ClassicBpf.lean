import LiteBox.Lib.Bytes

/-! # Classic BPF

Reference semantics of classic BPF over a read-only little-endian data record: an accumulator, an
index register and a scratch memory, all of 32 bits and all given by natural-number arithmetic
modulo `2 ^ 32`. Programs only jump forward, so evaluation is a relation without fuel. A division
or modulus by zero and a load outside the record end the program with value zero, and so does
control that leaves the program.
-/

namespace ClassicBpf

open Bytes

/-- All registers, scratch cells and immediates live below this bound. -/
def modulus : ℕ := 2 ^ 32

inductive Width where
  | word | half | byte
deriving DecidableEq, Repr

def Width.bytes : Width → ℕ
  | .word => 4
  | .half => 2
  | .byte => 1

inductive Reg where
  | a | x
deriving DecidableEq, Repr

inductive Operand where
  | imm (k : ℕ)
  | index
deriving DecidableEq, Repr

inductive Source where
  | imm (k : ℕ)
  | mem (slot : ℕ)
  | data (width : Width) (offset : ℕ)
  | len
deriving DecidableEq, Repr

inductive AluOp where
  | add | sub | mul | div | mod | and | or | xor | lsh | rsh
deriving DecidableEq, Repr

inductive Cond where
  | eq | gt | ge | set
deriving DecidableEq, Repr

inductive Insn where
  | load (dst : Reg) (source : Source)
  | store (src : Reg) (slot : ℕ)
  | alu (op : AluOp) (operand : Operand)
  | neg
  | jump (offset : ℕ)
  | branch (cond : Cond) (operand : Operand) (jt jf : ℕ)
  | tax
  | txa
  | retA
  | retK (k : ℕ)
deriving DecidableEq, Repr

structure Regs where
  a : ℕ
  x : ℕ
  mem : ℕ → ℕ

/-- A fresh activation starts with every cell zero. -/
def Regs.zero : Regs := ⟨0, 0, fun _ => 0⟩

def Regs.read (regs : Regs) : Reg → ℕ
  | .a => regs.a
  | .x => regs.x

def Regs.write (regs : Regs) (dst : Reg) (value : ℕ) : Regs :=
  match dst with
  | .a => { regs with a := value }
  | .x => { regs with x := value }

def Regs.operand (regs : Regs) : Operand → ℕ
  | .imm k => k
  | .index => regs.x

def Source.eval (data : List UInt8) (regs : Regs) : Source → Option ℕ
  | .imm k => some k
  | .mem slot => some (regs.mem slot)
  | .data width offset => (slice? data offset width.bytes).map leValue
  | .len => some data.length

/-- Shift counts are taken modulo the register width; a zero divisor has no value. -/
def AluOp.eval (op : AluOp) (a y : ℕ) : Option ℕ :=
  match op with
  | .add => some ((a + y) % modulus)
  | .sub => some ((a + (modulus - y)) % modulus)
  | .mul => some (a * y % modulus)
  | .div => if y = 0 then none else some (a / y)
  | .mod => if y = 0 then none else some (a % y)
  | .and => some (a &&& y)
  | .or => some (a ||| y)
  | .xor => some (a ^^^ y)
  | .lsh => some (a * 2 ^ (y % 32) % modulus)
  | .rsh => some (a / 2 ^ (y % 32))

def Cond.holds (cond : Cond) (a y : ℕ) : Bool :=
  match cond with
  | .eq => a == y
  | .gt => y < a
  | .ge => y ≤ a
  | .set => a &&& y != 0

/-- What one instruction does: skip `offset` instructions past the next one, or end the program. -/
inductive Outcome where
  | next (offset : ℕ) (regs : Regs)
  | stop (value : ℕ)

/-- Continue with the next instruction, or end with zero when a value is missing. -/
def Outcome.continue (value : Option ℕ) (update : ℕ → Regs) : Outcome :=
  match value with
  | some value => .next 0 (update value)
  | none => .stop 0

def Insn.exec (data : List UInt8) (regs : Regs) : Insn → Outcome
  | .load dst source => .continue (source.eval data regs) (regs.write dst)
  | .store src slot =>
      .next 0 { regs with mem := fun cell => if cell = slot then regs.read src else regs.mem cell }
  | .alu op operand => .continue (op.eval regs.a (regs.operand operand)) (regs.write .a)
  | .neg => .next 0 (regs.write .a ((modulus - regs.a) % modulus))
  | .jump offset => .next offset regs
  | .branch cond operand jt jf =>
      .next (if cond.holds regs.a (regs.operand operand) then jt else jf) regs
  | .tax => .next 0 (regs.write .x regs.a)
  | .txa => .next 0 (regs.write .a regs.x)
  | .retA => .stop regs.a
  | .retK k => .stop k

/-- `Eval prog data pc regs value`: control at `pc` ends with `value`. -/
inductive Eval (prog : List Insn) (data : List UInt8) : ℕ → Regs → ℕ → Prop
  | next {pc offset value : ℕ} {regs after : Regs} {insn : Insn} (read : prog[pc]? = some insn)
      (exec : insn.exec data regs = .next offset after)
      (rest : Eval prog data (pc + 1 + offset) after value) : Eval prog data pc regs value
  | stop {pc value : ℕ} {regs : Regs} {insn : Insn} (read : prog[pc]? = some insn)
      (exec : insn.exec data regs = .stop value) : Eval prog data pc regs value
  | outside {pc : ℕ} {regs : Regs} (read : prog[pc]? = none) : Eval prog data pc regs 0

variable {prog : List Insn} {data : List UInt8} {pc : ℕ} {regs : Regs}

/-- Evaluation is deterministic, so a value found is the value. -/
theorem Eval.unique {first second : ℕ} (left : Eval prog data pc regs first)
    (right : Eval prog data pc regs second) : first = second := by
  induction left with
  | next read exec _ ih =>
    cases right with
    | next read' exec' rest' =>
      cases read.symm.trans read'
      cases exec.symm.trans exec'
      exact ih rest'
    | stop read' exec' =>
      cases read.symm.trans read'
      cases exec.symm.trans exec'
    | outside read' => cases read.symm.trans read'
  | stop read exec =>
    cases right with
    | next read' exec' rest' =>
      cases read.symm.trans read'
      cases exec.symm.trans exec'
    | stop read' exec' =>
      cases read.symm.trans read'
      cases exec.symm.trans exec'
      rfl
    | outside read' => cases read.symm.trans read'
  | outside read =>
    cases right with
    | next read' | stop read' => cases read.symm.trans read'
    | outside _ => rfl

end ClassicBpf
