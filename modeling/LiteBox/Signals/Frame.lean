import LiteBox.Signals.Basic

/-! # Signal frames on x86_64

The registers of a guest thread, the frame a handler is entered with, and the restoring of registers
from a frame the guest hands back. Guest memory appears through what a write to it answers.
-/

namespace LiteBox.Signals

structure PtRegs where
  (r15 r14 r13 r12 rbp rbx r11 r10 r9 r8 rax rcx rdx rsi rdi rip cs eflags rsp ss : BitVec 64)
deriving DecidableEq

def PtRegs.zeroed : PtRegs := ⟨0, 0, 0, 0, 0, 0, 0, 0, 0, 0, 0, 0, 0, 0, 0, 0, 0, 0, 0, 0⟩

structure ExceptionInfo where
  exception : BitVec 8
  errorCode : BitVec 32
  cr2 : BitVec 64
deriving DecidableEq

structure Sigcontext where
  (r8 r9 r10 r11 r12 r13 r14 r15 rdi rsi rbp rbx rdx rax rcx rsp rip rflags : BitVec 64)
  (cs ss : BitVec 16)
  (err trapno oldmask cr2 fpstate : BitVec 64)
deriving DecidableEq

structure Ucontext where
  stack : SigAltStack
  mcontext : Sigcontext
  sigmask : SigSet
deriving DecidableEq

/-- The part of the floating-point area that is not zero: reset values and the live registers. -/
structure FpState where
  (cwd swd twd : BitVec 16)
  mxcsr : BitVec 32
  xmmSpace : List (BitVec 32)
deriving DecidableEq

structure SignalFrame where
  returnAddress : BitVec 64
  ucontext : Ucontext
  siginfo : Siginfo
  fpregs : FpState
deriving DecidableEq

/-- `return_address`, then `ucontext` (304 bytes), `siginfo` (128 bytes) and `fpregs` (512 bytes). -/
def signalFrameSize : BitVec 64 := 952

def ucontextOffset : BitVec 64 := 8
def siginfoOffset : BitVec 64 := 312
def fpregsOffset : BitVec 64 := 440

def eflagsDf : BitVec 64 := 1024

/-- The address of a frame pushed below `sp`: past the red zone, aligned for the return address. -/
def getSignalFrame (sp : BitVec 64) : BitVec 64 :=
  ((sp - 128 - signalFrameSize) &&& ~~~15) - 8

/-- What the guest's address space answers during one delivery: the page a sigreturn trampoline gets
(if it can be mapped and written), the floating-point registers (if the platform has them), and
whether a frame can be written at an address. -/
structure Guest where
  trampolinePage : Option (BitVec 64)
  fpState : Option (List (BitVec 32))
  writable : BitVec 64 → Bool

/-- The address a handler returns to. -/
def restorer (action : SigAction) (sigreturnTrampoline : BitVec 64) : Option (BitVec 64) :=
  let chosen :=
    if sigreturnTrampoline ≠ 0 then some sigreturnTrampoline
    else if holdsFlag action.flags saRestorer then some action.restorer
    else none
  chosen.filter (· ≠ 0)

def frameContext (guest : Guest) (last : ExceptionInfo) (blocked : SigSet) (altstack : SigAltStack)
    (frameAddr : BitVec 64) (ctx : PtRegs) : Ucontext where
  stack := altstack
  mcontext :=
    { r8 := ctx.r8, r9 := ctx.r9, r10 := ctx.r10, r11 := ctx.r11, r12 := ctx.r12, r13 := ctx.r13
      r14 := ctx.r14, r15 := ctx.r15, rdi := ctx.rdi, rsi := ctx.rsi, rbp := ctx.rbp, rbx := ctx.rbx
      rdx := ctx.rdx, rax := ctx.rax, rcx := ctx.rcx, rsp := ctx.rsp, rip := ctx.rip
      rflags := ctx.eflags, cs := ctx.cs.setWidth 16, ss := ctx.ss.setWidth 16
      err := last.errorCode.setWidth 64, trapno := last.exception.setWidth 64, oldmask := blocked.bits
      cr2 := last.cr2, fpstate := if guest.fpState.isSome then frameAddr + fpregsOffset else 0 }
  sigmask := blocked

/-- The registers a handler starts with. -/
def handlerRegs (frameAddr : BitVec 64) (info : Siginfo) (action : SigAction) (ctx : PtRegs) : PtRegs :=
  { ctx with
    rsp := frameAddr
    rip := action.sigaction
    rdi := (BitVec.ofInt 32 info.signo).setWidth 64
    rsi := frameAddr + siginfoOffset
    rdx := frameAddr + ucontextOffset
    rax := 0
    eflags := ctx.eflags &&& ~~~eflagsDf }

/-- The frame and the registers of the handler; `none` is a delivery fault. -/
def writeSignalFrame (guest : Guest) (last : ExceptionInfo) (blocked : SigSet) (altstack : SigAltStack)
    (frameAddr : BitVec 64) (info : Siginfo) (action : SigAction) (sigreturnTrampoline : BitVec 64)
    (ctx : PtRegs) : Option (SignalFrame × PtRegs) :=
  (restorer action sigreturnTrampoline).bind fun returnAddress =>
    if guest.writable frameAddr then
      some (⟨returnAddress, frameContext guest last blocked altstack frameAddr ctx, info,
        ⟨0xffff, 0xffff, 0xffff, 0x1f80, guest.fpState.getD (List.replicate 64 0)⟩⟩, handlerRegs frameAddr info action ctx)
    else none

def restoreSigcontext (ctx : PtRegs) (sigctx : Sigcontext) : PtRegs :=
  { ctx with
    r8 := sigctx.r8, r9 := sigctx.r9, r10 := sigctx.r10, r11 := sigctx.r11, r12 := sigctx.r12
    r13 := sigctx.r13, r14 := sigctx.r14, r15 := sigctx.r15, rdi := sigctx.rdi, rsi := sigctx.rsi
    rbp := sigctx.rbp, rbx := sigctx.rbx, rdx := sigctx.rdx, rax := sigctx.rax, rcx := sigctx.rcx
    rsp := sigctx.rsp, rip := sigctx.rip, eflags := sigctx.rflags }

variable {altstack : SigAltStack} {last : ExceptionInfo} {action : SigAction} {blocked : SigSet}
variable {info : Siginfo} {guest : Guest}

theorem writeSignalFrame_siginfo {frameAddr trampoline : BitVec 64}
    {ctx regs : PtRegs} {frame : SignalFrame}
    (written : writeSignalFrame guest last blocked altstack frameAddr info action trampoline ctx =
      some (frame, regs)) : frame.siginfo = info := by
  obtain ⟨returnAddress, -, rest⟩ := Option.bind_eq_some_iff.mp written
  split at rest
  · cases rest; rfl
  · cases rest

theorem writeSignalFrame_isSome {frameAddr trampoline : BitVec 64}
    {ctx : PtRegs} (returns : (restorer action trampoline).isSome) (writable : guest.writable frameAddr = true) :
    (writeSignalFrame guest last blocked altstack frameAddr info action trampoline ctx).isSome := by
  obtain ⟨returnAddress, chosen⟩ := Option.isSome_iff_exists.mp returns
  simp [writeSignalFrame, chosen, writable]

end LiteBox.Signals
