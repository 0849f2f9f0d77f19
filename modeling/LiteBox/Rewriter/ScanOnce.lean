import LiteBox.Rewriter.RebaseRun

/-! # When scanning once is enough

The two scans of a segment, at address zero and in place, stop at the same offsets and find the
same `syscall`s and the same targets, but for a branch to the segment's very first byte. So
patching from a rebased scan is patching in place exactly when the copies agree.
-/

namespace LiteBox.Rewriter

open Bytes Outcome Sweep List Nat Stretch ControlTransferTargets Subset

variable {iced : Iced}

/-- Both scans can copy what the sites borrow: the segment is not moved at all, or no borrowed run
that can be copied stores a target. -/
def ScansAgree (iced : Iced) (chunk : ChunkLen) (host : Host) (code : List UInt8) (codeVaddr : UInt64)
    (trampolineWriteVaddr : ℕ) : Prop :=
  codeVaddr = 0 ∨ (codeVaddr.toNat + code.length < 2 ^ 64 ∧
    ∀ template, scanCodeSegment iced chunk host code = .ok template →
      TargetsKept ⟨template.targetOffsets, codeVaddr.toNat⟩ trampolineWriteVaddr code codeVaddr.toNat 0
        (rebasedSites template.sites codeVaddr.toNat))

/-! ## The two scans -/

/-- The offsets at which a scan decodes an instruction. -/
def scanOffsets (iced : Iced) (chunk : ChunkLen) (host : Host) (code : List UInt8) : List ℕ :=
  pieces (instLen iced code 0) (chunkWidth chunk host code.length) code.length 0

section Scan

variable (relocation : iced.RelocationLaws) (decodeLaws : iced.DecodeLaws) {chunk : ChunkLen} {host : Host}
  {code : List UInt8}

theorem instLen_eq_zero (relocation : iced.RelocationLaws) (code : List UInt8) (base : ℕ) :
    instLen iced code base = instLen iced code 0 := by
  funext offset
  unfold instLen
  split_ifs
  · exact relocation.decode_len _ _ _
  · rfl

include relocation decodeLaws

variable {base : UInt64}

theorem scanSection_eq (fits : base.toNat + code.length < 2 ^ 64) :
    scanSection iced chunk host code base =
      .ok (templateOf ((scanOffsets iced chunk host code).map (instAt iced code base.toNat))) := by
  rw [scanSection, forEachDecodedInstruction, decodeChunks_eq decodeLaws fits (sub_le _ _),
    instLen_eq_zero relocation, scanOffsets]
  rfl

omit relocation in
theorem fits_of_scanSection {template : SegmentScanTemplate iced}
    (scanned : scanSection iced chunk host code base = .ok template) : base.toNat + code.length < 2 ^ 64 := by
  by_contra overflow
  have nonempty : 0 < code.length := by
    have := base.toNat_lt
    omega
  obtain ⟨error, failed⟩ : ∃ error, decodeChunks iced chunk host code base.toNat code.length 0 = .error error :=
    decodeChunks_overflow decodeLaws (not_lt.mp overflow) nonempty (sub_le _ _)
  rw [scanSection, forEachDecodedInstruction, failed] at scanned
  cases scanned

omit relocation in
theorem scanOffsets_lt {offset : ℕ} (member : offset ∈ scanOffsets iced chunk host code) : offset < code.length :=
  pieces_lt (chunkWidth_pos code.length) (instLen_pos decodeLaws) (fun _ => chunkWidth_le) member

end Scan

/-! ## Windows of offsets -/

/-- The stretch of offsets that the window at a position comes from. -/
def stretchAt (offsets : List ℕ) (k : ℕ) : Stretch :=
  ⟨(offsets.take k).drop (k - 8), offsets[k]?.getD 0, (offsets.drop (k + 1)).take 8⟩

variable {offsets : List ℕ} {k : ℕ}

theorem siteAt_map (view : ℕ → iced.Inst) (inside : k < offsets.length) :
    siteAt (offsets.map view) k = (stretchAt offsets k).site view := by
  have parts : offsets = offsets.take k ++ offsets[k] :: offsets.drop (k + 1) := by
    rw [getElem_cons_drop, take_append_drop]
  have length : ((offsets.take k).map view).length = k := by
    rw [length_map, length_take]
    omega
  have split := siteAt_split ((offsets.take k).map view) ((offsets.drop (k + 1)).map view) (view offsets[k])
  rw [← map_cons, ← map_append, ← parts, length, ← map_drop, ← map_take, ← map_cons, ← map_append, length_map] at split
  rw [split, site, stretchAt, getElem?_eq_getElem inside]
  rfl

theorem stretchAt_sublist (inside : k < offsets.length) :
    ((stretchAt offsets k).before ++ (stretchAt offsets k).offset :: (stretchAt offsets k).behind).Sublist offsets := by
  have parts : offsets = offsets.take k ++ offsets[k] :: offsets.drop (k + 1) := by
    rw [getElem_cons_drop, take_append_drop]
  conv_rhs => rw [parts]
  rw [stretchAt, getElem?_eq_getElem inside]
  exact (drop_sublist _ _).append ((take_sublist _ _).cons_cons _)

theorem stretchAt_offset (inside : k < offsets.length) :
    (stretchAt offsets k).offset = offsets[k] := by
  rw [stretchAt, getElem?_eq_getElem inside]
  rfl

section Sites

variable (relocation : iced.RelocationLaws) (decodeLaws : iced.DecodeLaws) {code : List UInt8} {base : ℕ}
  {offsets : List ℕ}

/-- The stretches around the `syscall`s of a segment. -/
def stretches (iced : Iced) (code : List UInt8) (offsets : List ℕ) : List Stretch :=
  (syscallPositions (offsets.map (instAt iced code 0))).map (stretchAt offsets)

variable {view : ℕ → iced.Inst}

theorem stretches_inside (member : k ∈ syscallPositions (offsets.map view)) :
    k < offsets.length := by
  simpa using lt_of_mem_syscallPositions member

theorem sitesOf_map
    (same : syscallPositions (offsets.map view) = syscallPositions (offsets.map (instAt iced code 0))) :
    sitesOf (offsets.map view) = (stretches iced code offsets).map (site view) := by
  rw [sitesOf, same, stretches, map_map]
  exact map_congr_left fun k member => siteAt_map view (stretches_inside member)

include relocation

theorem syscallPositions_instAt :
    syscallPositions (offsets.map (instAt iced code base)) = syscallPositions (offsets.map (instAt iced code 0)) := by
  unfold syscallPositions
  rw [length_map, length_map]
  refine filter_congr fun k _ => ?_
  rw [getElem?_map, getElem?_map]
  cases offsets[k]? with
  | none => rfl
  | some offset => exact relocation.decode_isSyscall _ _ _

omit relocation in
theorem rebasedSites_sitesOf (moved : base ≠ 0) :
    rebasedSites (sitesOf (offsets.map (instAt iced code 0))) base =
      (stretches iced code offsets).map (site (movedInst iced code base)) := by
  rw [rebasedSites, if_neg moved, sitesOf_map rfl, map_map]
  refine map_congr_left fun stretch _ => ?_
  simp only [Function.comp_apply, site, map_map]
  rfl

/-- A near branch of the segment names a place of it in both scans or in neither. -/
theorem nearBranchTarget_iff {offset place : ℕ} (positive : 0 < place) (small : base + place < 2 ^ 64) :
    iced.nearBranchTarget (instAt iced code base offset) = base + place ↔
      iced.nearBranchTarget (instAt iced code 0 offset) = place := by
  rw [instAt, instAt, zero_add]
  rcases relocation.nearBranch (code.drop offset) with never | stored
  · rw [never, never]
    omega
  · have shifted := relocation.decode_storedTarget (code.drop offset) offset base
    have lt := relocation.storedTarget_lt _ _ _ (stored offset)
    rw [add_comm offset, stored, stored, Option.map_some, Option.some.injEq] at shifted
    omega

theorem contains_agree {place : ℕ} (positive : 0 < place) (small : base + place < 2 ^ 64) :
    contains
        ⟨(templateOf (offsets.map (instAt iced code base))).targetOffsets, 0⟩ (base + place) =
      contains ⟨(templateOf (offsets.map (instAt iced code 0))).targetOffsets, base⟩ (base + place) := by
  refine decide_eq_decide.mpr ?_
  simp only [Nat.zero_le, true_and, Nat.sub_zero, Nat.le_add_right, Nat.add_sub_cancel_left,
    mem_templateOf_targets, mem_map, exists_exists_and_eq_and, nearBranchTarget_iff relocation positive small]
  exact and_congr_left fun _ => ⟨fun _ => by omega, fun _ => by omega⟩

omit relocation in
theorem stretches_sorted (sorted : offsets.Pairwise (· < ·)) :
    (stretches iced code offsets).Pairwise fun first second => first.offset < second.offset := by
  rw [stretches, pairwise_map]
  refine (syscallPositions_sorted _).imp_of_mem fun {j k} first second less => ?_
  rw [stretchAt_offset (stretches_inside first), stretchAt_offset (stretches_inside second)]
  exact pairwise_iff_getElem.mp sorted j k _ _ less

/-- Every stretch of a scanned segment is a window on which both scans agree about the targets. -/
theorem stretches_window (sorted : offsets.Pairwise (· < ·)) (small : ∀ place ∈ offsets, base + place < 2 ^ 64)
    (stretch : Stretch) (member : stretch ∈ stretches iced code offsets) :
    MovedWindow ⟨(templateOf (offsets.map (instAt iced code 0))).targetOffsets, base⟩
      ⟨(templateOf (offsets.map (instAt iced code base))).targetOffsets, 0⟩ base stretch.before stretch.offset
      stretch.behind := by
  obtain ⟨k, found, rfl⟩ := mem_map.mp member
  have part := stretchAt_sublist (stretches_inside found)
  exact ⟨sorted.sublist part, fun place inside => small place (part.subset inside),
    fun place inside positive => contains_agree relocation positive (small place (part.subset inside))⟩

end Sites

/-! ## Both ways of patching -/

theorem reportPatched_hook (targets : ControlTransferTargets) (base : ℕ) (code : List UInt8)
    (trampolineBase entryAddr : ℕ) (sites : List (SyscallSite iced)) :
    reportPatched code (hookSyscallsInSection targets base code trampolineBase entryAddr [] sites) =
      sites.foldlM (hookSite targets base trampolineBase entryAddr) ⟨code, [], []⟩ := by
  unfold hookSyscallsInSection
  split_ifs with empty
  · rw [isEmpty_iff.mp empty]
    rfl
  · cases sites.foldlM (hookSite targets base trampolineBase entryAddr) ⟨code, [], []⟩ <;> rfl

section Patching

variable (relocation : iced.RelocationLaws) (decodeLaws : iced.DecodeLaws) {chunk : ChunkLen} {host : Host}
  {code : List UInt8} {codeVaddr : UInt64} {trampolineWriteVaddr syscallEntryAddr : ℕ}

include relocation decodeLaws

theorem patchInPlace_eq (fits : codeVaddr.toNat + code.length < 2 ^ 64) :
    patchInPlace iced chunk host code codeVaddr trampolineWriteVaddr syscallEntryAddr =
      ((stretches iced code (scanOffsets iced chunk host code)).map
          (site (instAt iced code codeVaddr.toNat))).foldlM
        (hookSite ⟨(templateOf ((scanOffsets iced chunk host code).map
          (instAt iced code codeVaddr.toNat))).targetOffsets, 0⟩ codeVaddr.toNat trampolineWriteVaddr
          syscallEntryAddr) ⟨code, [], []⟩ := by
  rw [patchInPlace, scanSection_eq relocation decodeLaws fits,
    ← sitesOf_map (syscallPositions_instAt relocation), ← templateOf_sites, ← reportPatched_hook]
  rfl

theorem scanCodeSegment_eq (small : code.length < 2 ^ 64) :
    scanCodeSegment iced chunk host code = .ok (templateOf ((scanOffsets iced chunk host code).map (instAt iced code 0))) :=
  scanSection_eq relocation decodeLaws (by simpa using small)

theorem patchRebased_eq (small : code.length < 2 ^ 64) (moved : codeVaddr.toNat ≠ 0) :
    patchRebased iced chunk host code codeVaddr trampolineWriteVaddr syscallEntryAddr =
      ((stretches iced code (scanOffsets iced chunk host code)).map
          (site (movedInst iced code codeVaddr.toNat))).foldlM
        (hookSite ⟨(templateOf ((scanOffsets iced chunk host code).map (instAt iced code 0))).targetOffsets,
          codeVaddr.toNat⟩ codeVaddr.toNat trampolineWriteVaddr syscallEntryAddr) ⟨code, [], []⟩ := by
  rw [patchRebased, scanCodeSegment_eq relocation decodeLaws small, ← rebasedSites_sitesOf moved,
    ← templateOf_sites, ← reportPatched_hook]
  rfl

end Patching

/-- Patching from a rebased scan is patching in place wherever both scans can copy what the sites
borrow, and runs of the two that succeed with the same result are such. -/
theorem patchRebased_eq_patchInPlace_iff (iced : Iced) (decodeLaws : iced.DecodeLaws)
    (encodeLaws : iced.EncodeLaws) (x86Laws : iced.X86Laws) (relocation : iced.RelocationLaws)
    (chunk : ChunkLen) (host : Host) (code : List UInt8) (codeVaddr : UInt64) (trampolineWriteVaddr syscallEntryAddr : ℕ) :
    (ScansAgree iced chunk host code codeVaddr trampolineWriteVaddr →
      patchRebased iced chunk host code codeVaddr trampolineWriteVaddr syscallEntryAddr =
        patchInPlace iced chunk host code codeVaddr trampolineWriteVaddr syscallEntryAddr) ∧
    ∀ out, patchInPlace iced chunk host code codeVaddr trampolineWriteVaddr syscallEntryAddr = .ok out →
      patchRebased iced chunk host code codeVaddr trampolineWriteVaddr syscallEntryAddr = .ok out →
      ScansAgree iced chunk host code codeVaddr trampolineWriteVaddr := by
  rcases eq_or_ne codeVaddr 0 with rfl | moved
  · exact ⟨fun _ => rfl, fun _ _ _ => .inl rfl⟩
  have nonzero : codeVaddr.toNat ≠ 0 := fun zero => moved (UInt64.toNat_inj.mp zero)
  have sorted : (scanOffsets iced chunk host code).Pairwise (· < ·) := (pieces_sorted (chunkWidth_pos code.length) (instLen_pos decodeLaws) 0).1
  have small (fits : codeVaddr.toNat + code.length < 2 ^ 64) :
      ∀ place ∈ scanOffsets iced chunk host code, codeVaddr.toNat + place < 2 ^ 64 := by
    intro place member
    have := scanOffsets_lt decodeLaws member
    omega
  constructor
  · rintro (zero | ⟨fits, kept⟩)
    · exact (moved zero).elim
    have kept := kept _ (scanCodeSegment_eq relocation decodeLaws (by omega))
    rw [templateOf_sites, rebasedSites_sitesOf nonzero] at kept
    rw [patchRebased_eq relocation decodeLaws (by omega) nonzero, patchInPlace_eq relocation decodeLaws fits]
    exact (foldlM_hookSite_congr relocation decodeLaws (stretches_window relocation sorted (small fits)) kept).symm
  · intro out placed rebased
    obtain ⟨template, scanned, -⟩ := bind_eq_ok.mp placed
    have fits := fits_of_scanSection decodeLaws scanned
    rw [patchRebased_eq relocation decodeLaws (by omega) nonzero] at rebased
    rw [patchInPlace_eq relocation decodeLaws fits] at placed
    refine .inr ⟨fits, fun template scanned => ?_⟩
    obtain rfl := Except.ok.inj ((scanCodeSegment_eq relocation decodeLaws (by omega)).symm.trans scanned)
    rw [templateOf_sites, rebasedSites_sitesOf nonzero]
    exact targetsKept_of_eq relocation decodeLaws encodeLaws x86Laws (pos_of_ne_zero nonzero)
      codeVaddr.toNat_lt (stretches_window relocation sorted (small fits)) (stretches_sorted sorted)
      (fun _ member => by cases member) placed rebased

/-- A segment far from any 4 GiB boundary of the host. -/
def insideBoundary : Host := ⟨0x7000, fun _ => 0⟩

/-- `mov eax, 1; syscall`. -/
def plainBorrow : List UInt8 := [0xB8, 0x01, 0x00, 0x00, 0x00, 0x0F, 0x05]

def plainBorrowOut : HookState where
  data := [0xE9, 0xFB, 0x0F, 0x00, 0x00, 0x90, 0x90]
  trampoline := [0xB8, 0x01, 0x00, 0x00, 0x00] ++ leaRcx ++ [0xFF, 0x25, 0xEE, 0x0F, 0x00, 0x00] ++ [0xE9, 0xF0, 0xEF, 0xFF, 0xFF]
  skipped := []

theorem patchRebased_eq_patchInPlace_plainBorrow :
    ScansAgree Subset.iced targetDecodeChunkLen insideBoundary plainBorrow 0x1000 0x2000 ∧
      patchRebased Subset.iced targetDecodeChunkLen insideBoundary plainBorrow 0x1000 0x2000 0x3000 =
        patchInPlace Subset.iced targetDecodeChunkLen insideBoundary plainBorrow 0x1000 0x2000 0x3000 := by
  obtain ⟨enough, needed⟩ := patchRebased_eq_patchInPlace_iff Subset.iced Subset.decodeLaws Subset.encodeLaws
    Subset.x86Laws Subset.relocationLaws targetDecodeChunkLen insideBoundary plainBorrow 0x1000 0x2000 0x3000
  have agree := needed plainBorrowOut (by decide +kernel) (by decide +kernel)
  exact ⟨agree, enough agree⟩

/-- `mov eax, [rip + 16]; syscall`. -/
def ripRelativeBorrow : List UInt8 := [0x8B, 0x05, 0x10, 0x00, 0x00, 0x00, 0x0F, 0x05]

/-- In place the copy of the load still reads from `0x1016`; after rebasing it reads from `0x16`,
the address counted from the segment's start. -/
theorem rebased_copy_loses_target :
    (patchInPlace Subset.iced targetDecodeChunkLen insideBoundary ripRelativeBorrow 0x1000 0x2000 0x3000).map
        (fun out => Subset.iced.storedTarget (Subset.iced.decode out.trampoline 0x2000)) = .ok (some 0x1016) ∧
      (patchRebased Subset.iced targetDecodeChunkLen insideBoundary ripRelativeBorrow 0x1000 0x2000 0x3000).map
        (fun out => Subset.iced.storedTarget (Subset.iced.decode out.trampoline 0x2000)) = .ok (some 0x16) := by
  refine ⟨by decide +kernel, by decide +kernel⟩

end LiteBox.Rewriter
