import LiteBox.Rewriter.Scan

/-! # Hooking the system calls of a section

`hook_syscalls_in_section` walks over the scanned sites one after the other. For each it first
decides how to make room for a five-byte jump: backwards over the instructions before the
`syscall`, else forwards over those behind it, else not at all (`planSite`). Then it appends a stub
to the trampoline and writes the jump, or writes a trap (`applyPlan`).
-/

namespace LiteBox.Rewriter

open Bytes

/-- Control flow inside the crate; only the error that `external` wraps leaves it. -/
inductive InternalError where
  | external (error : Error)
  | noTextSectionFound
  | noSyscallInstructionsFound
deriving DecidableEq, Repr

/-- The source searches a sorted list; membership is what that answers. -/
structure ControlTransferTargets where
  offsets : List ℕ
  base : ℕ

def ControlTransferTargets.contains (targets : ControlTransferTargets) (addr : ℕ) : Bool :=
  targets.base ≤ addr ∧ addr - targets.base ∈ targets.offsets

def rel32Bytes (target base : ℕ) (context : String) : Except Error (List UInt8) :=
  let disp : ℤ := (target : ℤ) - base
  if FitsSigned 32 disp then .ok (leBytes 4 (ofSigned 32 disp))
  else .error (.addressOverflow (context ++ " displacement out of range: target " ++ hex target ++ ", base " ++ hex base))

/-- A write into the section; an index past its end panics. -/
def writeSection (data : List UInt8) (offset : ℕ) (bytes : List UInt8) : Except Error (List UInt8) :=
  if offset + bytes.length ≤ data.length then .ok (overwrite data offset bytes)
  else .error (.panic "index out of bounds")

variable {iced : Iced}

/-- `reencode_instructions`, after `done` bytes have been written. -/
def reencodeFrom (baseAddr : ℕ) : ℕ → List iced.Inst → Except Error (Option (List UInt8))
  | _, [] => .ok (some [])
  | done, inst :: rest => do
    let trampIp ← addU64 baseAddr done "attempt to add with overflow"
    match iced.encode inst trampIp with
    | none => return none
    | some bytes =>
      if bytes.length ≠ iced.len inst then return none
      else
        let tail ← reencodeFrom baseAddr (done + bytes.length) rest
        return tail.map (bytes ++ ·)

def reencodeInstructions (insts : List iced.Inst) (baseAddr : ℕ) : Except Error (Option (List UInt8)) :=
  reencodeFrom baseAddr 0 insts

/-! ## Deciding -/

/-- What a site gets: a jump over the instructions from `start` on, whose copies precede the call in
the stub; a jump over those up to `stop`, whose copies follow it; or a trap. -/
inductive Plan where
  | back (start : ℕ) (pre : List UInt8)
  | forward (stop : ℕ) (post : List UInt8)
  | trap
deriving DecidableEq, Repr

/-- The backward scan, over the instructions before the `syscall` with their positions, nearest
first. -/
def backScan (targets : ControlTransferTargets) (replaceEnd : ℕ) : List (iced.Inst × ℕ) → Except Error (Option (ℕ × ℕ))
  | [] => .ok none
  | (prev, position) :: rest =>
    if !iced.flowsNext prev then .ok none
    else do
      let span ← subU64 replaceEnd (iced.ip prev)
      if 5 ≤ span then return some (iced.ip prev, position)
      else if targets.contains (iced.ip prev) then return none
      else backScan targets replaceEnd rest

/-- The forward scan, over the instructions behind the `syscall` with their positions. -/
def forwardScan (targets : ControlTransferTargets) (syscallIp : ℕ) : List (iced.Inst × ℕ) → Except Error (Option (ℕ × ℕ))
  | [] => .ok none
  | (next, position) :: rest =>
    if targets.contains (iced.ip next) then .ok none
    else do
      let span ← subU64 (iced.nextIp next) syscallIp
      if 5 ≤ span then return some (iced.nextIp next, position + 1)
      else if !iced.flowsNext next then return none
      else forwardScan targets syscallIp rest

/-- The length of the `LEA` and the indirect `JMP` of a stub. -/
def preambleLen : ℕ := 13

/-- `hook_syscall_and_after` up to its first write; a site without room gets the trap its caller
writes. -/
def planForward (targets : ControlTransferTargets) (trampolineBase trampolineLen : ℕ)
    (window : List iced.Inst) (index : ℕ) (inst : iced.Inst) : Except Error Plan := do
  match ← forwardScan targets (iced.ip inst) (window.zipIdx.drop (index + 1)) with
  | none => return .trap
  | some (replaceEnd, replaceEndIdx) =>
    let targetAddr ← checkedAddU64 trampolineBase trampolineLen "syscall trampoline target"
    if iced.nextIp inst < replaceEnd then
      let postsyscallTarget ← addU64 targetAddr preambleLen "attempt to add with overflow"
      match ← reencodeInstructions ((window.take replaceEndIdx).drop (index + 1)) postsyscallTarget with
      | some post => return .forward replaceEnd post
      | none => return .trap
    else return .forward replaceEnd []

/-- The backward search; a `syscall` that is itself a target may not move behind other
instructions. -/
def searchBack (targets : ControlTransferTargets) (window : List iced.Inst) (index : ℕ) (inst : iced.Inst) :
    Except Error (Option (ℕ × ℕ)) :=
  if targets.contains (iced.ip inst) then .ok none
  else backScan targets (iced.nextIp inst) (window.zipIdx.take index).reverse

/-- What `hook_syscalls_in_section` decides for one site. -/
def planSite (targets : ControlTransferTargets) (trampolineBase trampolineLen : ℕ)
    (window : List iced.Inst) (index : ℕ) (inst : iced.Inst) : Except Error Plan := do
  match ← searchBack targets window index inst with
  | none => planForward targets trampolineBase trampolineLen window index inst
  | some (replaceStart, replaceStartIdx) =>
    let targetAddr ← checkedAddU64 trampolineBase trampolineLen "syscall trampoline target"
    if replaceStart < iced.ip inst then
      match ← reencodeInstructions ((window.take index).drop replaceStartIdx) targetAddr with
      | some pre => return .back replaceStart pre
      | none => planForward targets trampolineBase trampolineLen window index inst
    else return .back replaceStart []

/-! ## Writing -/

structure HookState where
  data : List UInt8
  trampoline : List UInt8
  skipped : List ℕ
deriving DecidableEq, Repr

/-- `LEA RCX, [RIP + 6]`, which makes RCX point behind the indirect jump that follows. -/
def leaRcx : List UInt8 := [0x48, 0x8D, 0x0D, 0x06, 0x00, 0x00, 0x00]

/-- Append a stub: the copies before the call, the call through the entry slot, the copies behind
it and the jump back. -/
def emitStub (trampolineBase entryAddr returnAddr : ℕ) (label : String) (pre post : List UInt8)
    (trampoline : List UInt8) : Except Error (List UInt8) := do
  let trampoline := trampoline ++ pre ++ leaRcx ++ [0xFF, 0x25]
  let entryBase ← checkedAddU64 trampolineBase (trampoline.length + 4) "x86_64 trampoline entry base"
  let entryDisp ← rel32Bytes entryAddr entryBase "x86_64 trampoline entry"
  let trampoline := trampoline ++ entryDisp ++ post
  let jmpBackBase ← checkedAddU64 trampolineBase (trampoline.length + 5) (label ++ " jump-back base")
  let backDisp ← rel32Bytes returnAddr jmpBackBase (label ++ " jump-back")
  return trampoline ++ [0xE9] ++ backDisp

/-- Write the jump to a stub over `[start, stop)` and fill up with `NOP`s. -/
def patchJump (sectionBase start stop targetAddr : ℕ) (data : List UInt8) : Except Error (List UInt8) := do
  let replaceLen ← subU64 stop start
  let replaceOffset ← subU64 start sectionBase
  let patchBase ← checkedAddU64 start 5 "syscall patch jump base"
  let disp ← rel32Bytes targetAddr patchBase "syscall patch jump"
  writeSection data replaceOffset ([0xE9] ++ disp ++ List.replicate (replaceLen - 5) 0x90)

/-- `ICEBP; HLT` over the `syscall`. -/
def replaceWithTrap (sectionBase : ℕ) (inst : iced.Inst) (data : List UInt8) : Except Error (List UInt8) := do
  let offset ← subU64 (iced.ip inst) sectionBase
  let filler ← subU64 (iced.len inst) 2
  writeSection data offset ([0xF1, 0xF4] ++ List.replicate filler 0x90)

def applyPlan (sectionBase trampolineBase entryAddr : ℕ) (inst : iced.Inst) (state : HookState) :
    Plan → Except Error HookState
  | .back start pre => do
    let targetAddr ← checkedAddU64 trampolineBase state.trampoline.length "syscall trampoline target"
    let trampoline ← emitStub trampolineBase entryAddr (iced.nextIp inst) "x86_64 trampoline" pre []
      state.trampoline
    let data ← patchJump sectionBase start (iced.nextIp inst) targetAddr state.data
    return { state with data := data, trampoline := trampoline }
  | .forward stop post => do
    let targetAddr ← checkedAddU64 trampolineBase state.trampoline.length "syscall trampoline target"
    let trampoline ← emitStub trampolineBase entryAddr stop "trampoline" [] post state.trampoline
    let data ← patchJump sectionBase (iced.ip inst) stop targetAddr state.data
    return { state with data := data, trampoline := trampoline }
  | .trap => do
    let data ← replaceWithTrap sectionBase inst state.data
    return { state with data := data, skipped := state.skipped ++ [iced.ip inst] }

def hookSite (targets : ControlTransferTargets) (sectionBase trampolineBase entryAddr : ℕ)
    (state : HookState) (site : SyscallSite iced) : Except Error HookState :=
  match site.window[site.idx]? with
  | none => .error (.panic "index out of bounds")
  | some inst => do
    let plan ← planSite targets trampolineBase state.trampoline.length site.window site.idx inst
    applyPlan sectionBase trampolineBase entryAddr inst state plan

/-- The section and the trampoline after all sites, and the addresses that were trapped. -/
def hookSyscallsInSection (targets : ControlTransferTargets) (sectionBase : ℕ) (data : List UInt8)
    (trampolineBase entryAddr : ℕ) (trampoline : List UInt8) (sites : List (SyscallSite iced)) : Except InternalError HookState :=
  if sites.isEmpty then .error .noSyscallInstructionsFound
  else
    (sites.foldlM (hookSite targets sectionBase trampolineBase entryAddr) ⟨data, trampoline, []⟩).mapError .external

end LiteBox.Rewriter
