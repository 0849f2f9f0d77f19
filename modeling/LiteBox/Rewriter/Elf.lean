import LiteBox.Rewriter.Arm64.Hook
import LiteBox.Rewriter.ElfImage
import LiteBox.Rewriter.Hook

/-! # Rewriting an ELF file

`hook_syscalls_in_elf`: the checks that return a file unchanged, the two architectures, and the
footer behind the rewritten image.
-/

namespace LiteBox.Rewriter

open Bytes Outcome

/-- `b"\n---- Bun! ----\n"`. -/
def bunFooterMarker : List UInt8 :=
  [0x0A, 0x2D, 0x2D, 0x2D, 0x2D, 0x20, 0x42, 0x75, 0x6E, 0x21, 0x20, 0x2D, 0x2D, 0x2D, 0x2D, 0x0A]

/-- `e_type == ET_REL`, read in the byte order that `EI_DATA` names. -/
def isRelocatable (inputBinary : List UInt8) : Bool :=
  18 ≤ inputBinary.length ∧
    (if inputBinary[5]? = some 2 then (inputBinary.drop 16).take 2 = [0, 1] else (inputBinary.drop 16).take 2 = [1, 0])

inductive Arch where
  | x86_64
  | aarch64
deriving DecidableEq, Repr

/-- The architectures that are rewritten; other files are returned as they are. -/
def archOf (file : ObjectFile) : Option Arch :=
  if file.elf64 then
    match file.architecture with
    | .x86_64 => some .x86_64
    | .aarch64 => some .aarch64
    | .other => none
  else none

/-- An image that has to be rewritten: its bytes with the program headers aligned, its executable
sections, and where its trampoline will be mapped. -/
structure Work where
  arch : Arch
  buf : List UInt8
  textSections : List TextSectionInfo
  trampolineBaseAddr : ℕ
deriving DecidableEq, Repr

/-- The first part of `hook_syscalls_in_elf_impl`; `none` when the file is returned unchanged. -/
def prepare (object : Object) (inputBinary : List UInt8) : Except Error (Option Work) :=
  if bunFooterMarker.isSuffixOf inputBinary then .error (.unsupportedExecutable "Bun-packaged executable")
  else if isRelocatable inputBinary then .ok none
  else do
    let buf ← fixupPhdrAlignment inputBinary
    let file ← (object.parse buf).mapError .parseError
    match archOf file with
    | none => return none
    | some arch =>
      if textSections file = [] then return none
      else if isAlreadyHooked buf then return none
      else
        let trampolineBaseAddr ← findAddrForTrampolineCode file
        return some ⟨arch, buf, textSections file, trampolineBaseAddr⟩

/-! ## Rewriting the sections -/

/-- What rewriting the sections of an image yields. -/
structure Rewritten where
  (image trampoline : List UInt8)
  trapped : List ℕ
deriving DecidableEq, Repr

def sectionSlice (buf : List UInt8) (text : TextSectionInfo) : Except Error (List UInt8) :=
  if text.fileOffset + text.size ≤ buf.length then .ok ((buf.drop text.fileOffset).take text.size)
  else .error (.parseError "section extends beyond file")

section X86

variable (iced : Iced) (chunk : ChunkLen) (memory : ℕ → Host)

/-- The first loop over the sections; `memory` says where the host keeps an offset of the image. -/
def scanSections (buf : List UInt8) : List TextSectionInfo → Except Error (List (TextSectionInfo × SegmentScanTemplate iced))
  | [] => .ok []
  | text :: rest => do
    let data ← sectionSlice buf text
    let scan ← scanSection iced chunk (memory text.fileOffset) data (UInt64.ofNat text.vaddr)
    let later ← scanSections buf rest
    return (text, scan) :: later

variable {iced}

/-- The image while the sections are hooked, and whether any had a `syscall`. -/
structure SectionsState where
  (image trampoline : List UInt8)
  skippedAddrs : List ℕ
  syscallInsnsFound : Bool

/-- One round of the second loop. -/
def hookSection (targets : ControlTransferTargets) (trampolineBaseAddr : ℕ) (state : SectionsState)
    (entry : TextSectionInfo × SegmentScanTemplate iced) : Except Error SectionsState := do
  let data ← sectionSlice state.image entry.1
  match hookSyscallsInSection targets entry.1.vaddr data trampolineBaseAddr trampolineBaseAddr state.trampoline
      entry.2.sites with
  | .ok out => return ⟨overwrite state.image entry.1.fileOffset out.data, out.trampoline,
      state.skippedAddrs ++ out.skipped, true⟩
  | .error .noSyscallInstructionsFound => return state
  | .error (.external failure) => .error failure
  | .error .noTextSectionFound => .error (.panic "unexpected internal error")

variable (iced)

/-- The targets of all sections are combined before any section is hooked. -/
def hookX86 (work : Work) (trampoline : ℕ) : Except Error (Option Rewritten) := do
  let scans ← scanSections iced chunk memory work.buf work.textSections
  let targets : ControlTransferTargets := ⟨sortedDeduped (scans.flatMap fun entry => entry.2.targetOffsets), 0⟩
  let final ← scans.foldlM (hookSection targets work.trampolineBaseAddr) ⟨work.buf, leBytes 8 trampoline, [], false⟩
  return if final.syscallInsnsFound then some ⟨final.image, final.trampoline, final.skippedAddrs⟩ else none

/-- The AArch64 strategy, with the Linux host's gates. -/
def hookArm64 (work : Work) (callback : ℕ) : Except Error (Option Rewritten) := do
  let (image, outcome) ← Arm64.hookSyscallsAarch64 work.buf work.textSections work.trampolineBaseAddr callback .linux
  return outcome.map fun outcome => ⟨image, outcome.trampoline, outcome.trappedSites⟩

/-- `none` when there is nothing to rewrite. -/
def rewriteSections (work : Work) (trampoline : Option ℕ) : Except Error (Option Rewritten) :=
  match work.arch with
  | .aarch64 => hookArm64 work (trampoline.getD 0)
  | .x86_64 => hookX86 iced chunk memory work (trampoline.getD 0)

/-! ## The output -/

inductive HookResult where
  | output (out : List UInt8)
  | trappedSites (out : List UInt8) (skippedAddrs : List ℕ)
deriving DecidableEq, Repr

/-- `{:?}` of addresses. -/
def debugAddrs (addrs : List ℕ) : String := "[" ++ String.intercalate ", " (addrs.map toString) ++ "]"

/-- The end of both strategies: a sentinel header, or the rewritten image with its footer, which is
withheld when a site was trapped and that is not tolerated. -/
def finishImage (inputBinary : List UInt8) (trampolineBaseAddr : ℕ) (what : String) (tolerateTrapped : Bool) :
    Option Rewritten → Except Error HookResult
  | none => do
    let out ← extend inputBinary sentinelHeader.asBytes
    return .output out
  | some rewritten => do
    let out ← appendTrampolineFooter rewritten.image rewritten.trampoline trampolineBaseAddr
    if rewritten.trapped = [] then return .output out
    else if tolerateTrapped then return .trappedSites out rewritten.trapped
    else .error (.unpatchableSyscalls (toString rewritten.trapped.length ++ " unpatchable " ++ what ++ " at " ++
      debugAddrs rewritten.trapped))

/-- How the sites of an architecture are called; its trapped sites are tolerated only on x86-64. -/
def Arch.sites : Arch → String
  | .x86_64 => "syscall instruction(s)"
  | .aarch64 => "instruction(s) (SVC / MSR / MRS TPIDR_EL0)"

variable (object : Object)

def hookSyscallsInElfImpl (inputBinary : List UInt8) (trampoline : Option ℕ) (tolerateTrapped : Bool) :
    Except Error HookResult := do
  match ← prepare object inputBinary with
  | none => return .output inputBinary
  | some work =>
    let rewritten ← rewriteSections iced chunk memory work trampoline
    finishImage inputBinary work.trampolineBaseAddr work.arch.sites (tolerateTrapped && work.arch = .x86_64) rewritten

def hookSyscallsInElf (inputBinary : List UInt8) (trampoline : Option ℕ) : Except Error (List UInt8) := do
  match ← hookSyscallsInElfImpl iced chunk memory object inputBinary trampoline false with
  | .output out => return out
  | .trappedSites _ _ => .error (.panic "tolerate_trapped=false never returns TrappedSites")

end X86

end LiteBox.Rewriter
