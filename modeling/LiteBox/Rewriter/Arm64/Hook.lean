import LiteBox.Rewriter.Arm64.Gates

/-! # Rewriting an AArch64 image

The scan for the words to rewrite, and the loop that redirects each of them to a gate or, when a
branch cannot reach, replaces it by a trap. `arm64.rs`, `find_patch_sites` and
`hook_syscalls_aarch64`; the buffer that the source changes in place is part of the result.
-/

namespace LiteBox.Rewriter.Arm64

open Bytes Outcome

/-! ## Scanning -/

def svcOpcodeMask : ℕ := 0xFFE0001F
def svcOpcodeBits : ℕ := 0xD4000001
def msrTpidrEl0Mask : ℕ := 0xFFFFFFE0
def msrTpidrEl0Bits : ℕ := 0xD51BD040
def mrsTpidrEl0Mask : ℕ := 0xFFFFFFE0
def mrsTpidrEl0Bits : ℕ := 0xD53BD040

/-- What has to be rewritten about a word; a read into `xzr` is left alone. -/
def patchKind (word : ℕ) : Option PatchKind :=
  if word &&& svcOpcodeMask = svcOpcodeBits then some .svc
  else if word &&& msrTpidrEl0Mask = msrTpidrEl0Bits then some (.msrTpidr (lowReg word))
  else if word &&& mrsTpidrEl0Mask = mrsTpidrEl0Bits then
    if lowReg word = xzr then none else some (.mrsTpidr (lowReg word))
  else none

/-- `u32::from_le_bytes` of the four bytes at an offset. -/
def wordAt (buf : List UInt8) (offset : ℕ) : ℕ := leValue ((buf.drop offset).take 4)

/-- The sites among the words of a section with the given numbers. -/
def sitesAt (buf : List UInt8) (text : TextSectionInfo) : List ℕ → Except Error (List PatchSite)
  | [] => .ok []
  | index :: rest =>
    match patchKind (wordAt buf (text.fileOffset + 4 * index)) with
    | none => sitesAt buf text rest
    | some kind => do
      let vaddr ← checkedAddU64 text.vaddr (4 * index) "patch site"
      let later ← sitesAt buf text rest
      return ⟨text.fileOffset + 4 * index, vaddr, kind⟩ :: later

/-- The whole words of a section are stepped through; up to three bytes behind them are not. -/
def sectionSites (buf : List UInt8) (text : TextSectionInfo) : Except Error (List PatchSite) :=
  if text.fileOffset + text.size ≤ buf.length then
    sitesAt buf text (List.range (text.size / 4))
  else .error (.parseError "section extends beyond file")

def findPatchSites : List TextSectionInfo → List UInt8 → Except Error (List PatchSite)
  | [], _ => .ok []
  | text :: sections, buf => do
    let first ← sectionSites buf text
    let later ← findPatchSites sections buf
    return first ++ later

/-! ## Hooking -/

def trapBrkImm : ℕ := 0xB10B

/-- `BRK #0xB10B`, the sentinel in the place of a site that cannot be redirected. -/
def trapWord : ℕ := 0xD4362160

/-- The image, the trampoline and the trapped sites while the sites are worked through. -/
structure HookState where
  image : List UInt8
  trampoline : List UInt8
  trappedSites : List ℕ
deriving DecidableEq, Repr

/-- The branch that redirects a site, with the gate behind it; `none` when either cannot reach. -/
def redirect (trampolineBaseAddr : ℕ) (host : Host) (gateOffset gateVaddr : ℕ) (site : PatchSite) :
    Except Error (Option (ℕ × List UInt8)) :=
  match (Insn.b (saturatingSub (toSigned 64 gateVaddr) (toSigned 64 site.vaddr))).encode with
  | none => .ok none
  | some branch => do
    let gate ← emitGate gateOffset trampolineBaseAddr site host
    return gate.map fun code => (branch, code)

/-- One round of the loop over the sites. -/
def hookSite (trampolineBaseAddr : ℕ) (host : Host) (state : HookState) (site : PatchSite) :
    Except Error HookState := do
  let gateOffset := state.trampoline.length
  let gateVaddr ← checkedAddU64 trampolineBaseAddr gateOffset "trampoline gate"
  match ← redirect trampolineBaseAddr host gateOffset gateVaddr site with
  | some (branch, code) =>
    return { state with
      image := overwrite state.image site.fileOffset (leBytes 4 branch)
      trampoline := state.trampoline ++ code }
  | none =>
    match (Insn.brk trapBrkImm).encode with
    | none => .error (.panic "BRK always encodes")
    | some brk =>
      return { state with
        image := overwrite state.image site.fileOffset (leBytes 4 brk)
        trappedSites := state.trappedSites ++ [site.vaddr] }

def hookSites (trampolineBaseAddr : ℕ) (host : Host) : HookState → List PatchSite → Except Error HookState
  | state, [] => .ok state
  | state, site :: rest => do
    let next ← hookSite trampolineBaseAddr host state site
    hookSites trampolineBaseAddr host next rest

structure HookOutcome where
  trampoline : List UInt8
  trappedSites : List ℕ
deriving DecidableEq, Repr

/-- The rewritten image, and the outcome when there was anything to rewrite. -/
def hookSyscallsAarch64 (buf : List UInt8) (textSections : List TextSectionInfo)
    (trampolineBaseAddr callback : ℕ) (host : Host) : Except Error (List UInt8 × Option HookOutcome) := do
  let sites ← findPatchSites textSections buf
  if sites = [] then
    return (buf, none)
  else
    let prologue ← emitSharedPrologue trampolineBaseAddr callback
    let final ← hookSites trampolineBaseAddr host ⟨buf, prologue, []⟩ sites
    return (final.image, some ⟨final.trampoline, final.trappedSites⟩)

end LiteBox.Rewriter.Arm64
