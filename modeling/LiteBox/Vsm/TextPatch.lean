import LiteBox.Lib.Bytes

/-! # Patching VTL0 text

VTL0 asks VTL1 to write a few bytes of kernel text. The request is looked up among the patches that
were registered beforehand, compared with the one found, and written to one or two physical pages.
A physical write is a page, an offset in it and a byte.
-/

namespace LiteBox.Vsm

open Bytes Nat

def pageSize : ℕ := 4096

/-- Physical addresses have 52 bits. -/
def physLimit : ℕ := 2 ^ 52

def alignDown (address : ℕ) : ℕ := address / pageSize * pageSize

def alignUp (address : ℕ) : ℕ := (address + (pageSize - 1)) / pageSize * pageSize

def isAligned (address : ℕ) : Bool := address % pageSize == 0

def pokeMaxOpcodeSize : ℕ := 5

structure HekiPatch where
  (pa0 pa1 size : ℕ)
  code : Vector UInt8 5
deriving DecidableEq

def hekiPatchSize : ℕ := 24

/-- The bytes of an object of `size` bytes at `pa` that its first page holds. -/
def bytesInFirstPage (pa size : ℕ) : ℕ :=
  if isAligned pa then min pageSize size else min (alignUp pa - pa) size

variable (p : HekiPatch)

namespace HekiPatch

def readFromBytes (bytes : List UInt8) : HekiPatch where
  pa0 := leValue (bytes.take 8)
  pa1 := leValue ((bytes.drop 8).take 8)
  size := (bytes.getD 16 0).toNat
  code := Vector.ofFn fun i => bytes.getD (17 + i) 0

def isValid : Bool :=
  if ¬(p.pa0 < physLimit ∧ p.pa0 ≠ 0) then false
  else if ¬(p.pa1 < physLimit ∧ (p.pa1 = 0 ∨ isAligned p.pa1)) then false
  else
    !(p.size = 0 || pokeMaxOpcodeSize < p.size || p.pa0 = p.pa1 ||
      (bytesInFirstPage p.pa0 p.size < p.size && p.pa1 = 0) || (bytesInFirstPage p.pa0 p.size = p.size && p.pa1 ≠ 0))

/-- The bytes that are to be written. -/
def bytes : List UInt8 := p.code.toList.take p.size

end HekiPatch

/-- A registered patch: only valid records enter the map. -/
structure Precomputed extends HekiPatch where
  valid : toHekiPatch.isValid = true

/-- The map from physical addresses to registered patches. -/
abbrev PatchDataMap := ℕ → Option Precomputed

/-- By the address of the request, or by the one before it. -/
def findPrecomputedPatch (table : PatchDataMap) (patchData : HekiPatch) : Option Precomputed :=
  (table patchData.pa0).or (if patchData.pa0 = 0 then none else table (patchData.pa0 - 1))

def x86Nops : List (List UInt8) :=
  [[0x90, 0x00, 0x00, 0x00, 0x00],
    [0x66, 0x90, 0x00, 0x00, 0x00], [0x0f, 0x1f, 0x00, 0x00, 0x00], [0x0f, 0x1f, 0x40, 0x00, 0x00],
    [0x0f, 0x1f, 0x44, 0x00, 0x00]]

def int3InsnOpcode : UInt8 := 0xcc
def jmp8InsnSize : ℕ := 2
def jmp32InsnSize : ℕ := 5

/-- The `count` bytes of `code` from `offset` on. -/
def window (code : List UInt8) (offset count : ℕ) : List UInt8 := (code.drop offset).take count

/-- Steps 2 and 3 carry bytes of the registered code, or of the NOP of its size. -/
def matchesCode (patchData : HekiPatch) (p : HekiPatch) (offset : ℕ) : Bool :=
  patchData.bytes == window p.code.toList offset patchData.size ||
    ((p.size == jmp8InsnSize || p.size == jmp32InsnSize) &&
      patchData.bytes == window (x86Nops.getD (p.size - 1) []) offset patchData.size)

/-- `text_poke_bp_batch` writes a breakpoint over the first byte (step 1), then all bytes but the
first (step 2), then the first byte (step 3). -/
def validateTextPokeBpBatch (patchData : HekiPatch) (p : HekiPatch) : Bool :=
  if patchData.size = 1 ∧ patchData.code[0] = int3InsnOpcode ∧ patchData.pa0 = p.pa0 then true
  else if patchData.size = 1 ∧ patchData.pa0 = p.pa0 then matchesCode patchData p 0
  else if patchData.size = p.size - 1 then
    let second := p.pa0 + 1
    if patchData.pa0 ≠ second ∧ ¬(patchData.pa0 = p.pa1 ∧ isAligned second) then false
    else if ¬isAligned second ∧ patchData.pa1 ≠ p.pa1 then false
    else matchesCode patchData p 1
  else false

structure Write where
  (page offset : ℕ)
  byte : UInt8
deriving DecidableEq

/-- The VTL0 memory as one call meets it: its bytes, which pages can be mapped, and how many bytes a
copy gets through before it faults. -/
structure Vtl0 where
  read : ℕ → ℕ → UInt8
  mappable : List ℕ → Bool
  reach : ℕ

/-- The pages that hold `count` bytes from `pa` on. -/
def contiguousPages (pa count : ℕ) : List ℕ :=
  (List.range ((alignUp (pa + count) - alignDown pa) / pageSize)).map fun i => alignDown pa + i * pageSize

/-- Consecutive bytes over a list of pages, from `offset` in the first one. -/
def spread (pages : List ℕ) (offset : ℕ) (bytes : List UInt8) : List Write :=
  bytes.mapIdx fun j byte => ⟨pages.getD ((offset + j) / pageSize) 0, (offset + j) % pageSize, byte⟩

def readSlice (vtl0 : Vtl0) (pages : List ℕ) (offset count : ℕ) : Option (List UInt8) :=
  if vtl0.mappable pages ∧ count ≤ vtl0.reach then
    some ((List.range count).map fun j => vtl0.read (pages.getD ((offset + j) / pageSize) 0) ((offset + j) % pageSize))
  else none

inductive VsmError where
  | invalidPhysicalAddress
  | invalidInputAddress
  | vtl0CopyFailed
  | precomputedPatchNotFound
  | textPatchSuspicious
deriving DecidableEq, Repr

def copyHekiPatchFromVtl0 (vtl0 : Vtl0) (patchPa0 patchPa1 : ℕ) : Except VsmError HekiPatch :=
  if ¬(patchPa0 < physLimit ∧ patchPa1 < physLimit) then .error .invalidPhysicalAddress
  else if patchPa0 = 0 ∨ patchPa0 = patchPa1 ∨ ¬isAligned patchPa1 then .error .invalidInputAddress
  else
    let first := bytesInFirstPage patchPa0 hekiPatchSize
    if (first < hekiPatchSize ∧ patchPa1 = 0) ∨ (first = hekiPatchSize ∧ patchPa1 ≠ 0) then
      .error .invalidInputAddress
    else
      let pages :=
        if patchPa1 = 0 ∨ alignUp patchPa0 = alignDown patchPa1 then contiguousPages patchPa0 hekiPatchSize
        else [alignDown patchPa0, patchPa1]
      match readSlice vtl0 pages (patchPa0 % pageSize) hekiPatchSize with
      | none => .error .vtl0CopyFailed
      | some bytes =>
        if (HekiPatch.readFromBytes bytes).isValid then .ok (HekiPatch.readFromBytes bytes)
        else .error .invalidInputAddress

/-- The pages a patch is written to. -/
def patchPages (patch : HekiPatch) : List ℕ :=
  if patch.pa1 = 0 ∨ alignUp patch.pa0 = alignDown patch.pa1 then contiguousPages patch.pa0 patch.bytes.length
  else [alignDown patch.pa0, patch.pa1]

/-- The writes that happen; a faulting copy stops in the middle. -/
def applyVtl0TextPatch (vtl0 : Vtl0) (patch : HekiPatch) : List Write × Except VsmError Unit :=
  if patch.bytes = [] then ([], .ok ())
  else if ¬vtl0.mappable (patchPages patch) then ([], .error .vtl0CopyFailed)
  else
    ((spread (patchPages patch) (patch.pa0 % pageSize) patch.bytes).take vtl0.reach,
      if patch.bytes.length ≤ vtl0.reach then .ok () else .error .vtl0CopyFailed)

def mshvVsmPatchText (vtl0 : Vtl0) (table : PatchDataMap) (patchPa0 patchPa1 : ℕ) : List Write × Except VsmError Unit :=
  match copyHekiPatchFromVtl0 vtl0 patchPa0 patchPa1 with
  | .error failure => ([], .error failure)
  | .ok patchData =>
    match findPrecomputedPatch table patchData with
    | none => ([], .error .precomputedPatchNotFound)
    | some p =>
      if validateTextPokeBpBatch patchData p.toHekiPatch then applyVtl0TextPatch vtl0 patchData
      else ([], .error .textPatchSuspicious)

/-! ## Where a patch goes -/

/-- The page and offset of byte `i` of a patch. -/
def HekiPatch.location (i : ℕ) : ℕ × ℕ :=
  if p.pa0 % pageSize + i < pageSize then (alignDown p.pa0, p.pa0 % pageSize + i)
  else (p.pa1, p.pa0 % pageSize + i - pageSize)

/-- A write of byte `i` of `p`: a breakpoint over the first byte, or a byte of its code or NOP. -/
def Confined (write : Write) : Prop :=
  ∃ i, i < p.size ∧ (write.page, write.offset) = p.location i ∧
    ((write.byte = int3InsnOpcode ∧ i = 0) ∨ p.code.toList[i]? = some write.byte ∨
      (x86Nops.getD (p.size - 1) [])[i]? = some write.byte)

/-- The request starts on the page that physically follows that of `p`, although the rest of `p` is on
another page. -/
def NextPage (patchData p : HekiPatch) : Prop :=
  patchData.pa0 = p.pa0 + 1 ∧ isAligned (p.pa0 + 1) = true ∧ p.pa1 ≠ p.pa0 + 1

structure Valid (p : HekiPatch) : Prop where
  some : p.pa0 ≠ 0
  aligned : p.pa1 % pageSize = 0
  pos : 0 < p.size
  small : p.size ≤ 5
  second : p.pa1 ≠ 0 ↔ pageSize < p.pa0 % pageSize + p.size

variable {p patchData : HekiPatch} {j : ℕ}

theorem valid_of_isValid (valid : p.isValid = true) : Valid p := by
  unfold HekiPatch.isValid at valid
  split at valid
  · cases valid
  next first =>
  split at valid
  · cases valid
  next second =>
  simp only [not_and_or, not_or, not_not, not_lt] at first second
  have first : p.pa0 < physLimit ∧ p.pa0 ≠ 0 := by omega
  have aligned : p.pa1 % pageSize = 0 := by
    rcases second.2 with zero | aligned
    · rw [zero]; rfl
    · simpa [isAligned] using aligned
  simp only [Bool.not_eq_true', Bool.or_eq_false_iff, Bool.and_eq_false_iff, decide_eq_false_iff_not,
    decide_not, Bool.not_eq_false', decide_eq_true_eq] at valid
  obtain ⟨⟨⟨⟨nonempty, small⟩, -⟩, short⟩, full⟩ := valid
  refine ⟨first.2, aligned, by omega, by simpa [pokeMaxOpcodeSize] using small, ?_⟩
  simp only [bytesInFirstPage, isAligned, alignUp, pageSize, pokeMaxOpcodeSize, beq_iff_eq] at *
  split at short <;> split at full <;> omega

theorem bytes_length (small : p.size ≤ 5) : p.bytes.length = p.size := by
  simp [HekiPatch.bytes]
  omega

theorem contiguousPages_getD {pa count k : ℕ} (inside : k * pageSize < pa % pageSize + count) :
    (contiguousPages pa count).getD k 0 = alignDown pa + k * pageSize := by
  have bound : k < (alignUp (pa + count) - alignDown pa) / pageSize := by
    simp only [alignUp, alignDown, pageSize] at *
    omega
  simp [contiguousPages, List.getD_eq_getElem?_getD, bound]

theorem adjacent_page {pa0 pa1 : ℕ} (adjacent : alignUp pa0 = alignDown pa1) (aligned : pa1 % pageSize = 0)
    (inside : pa0 % pageSize ≠ 0) : alignDown pa0 + 1 * pageSize = pa1 := by
  have index : (pa0 + (pageSize - 1)) / pageSize = pa1 / pageSize :=
    eq_of_mul_eq_mul_right (by decide) adjacent
  simp only [alignDown, pageSize] at *
  omega

/-- The page list of a valid patch holds each byte on the page where it belongs. -/
theorem patchPages_location (valid : Valid p) (inside : j < p.size) :
    ((patchPages p).getD ((p.pa0 % pageSize + j) / pageSize) 0, (p.pa0 % pageSize + j) % pageSize) = p.location j := by
  have small := valid.small
  have offset : p.pa0 % pageSize < pageSize := mod_lt _ (by decide)
  unfold HekiPatch.location
  split
  · next here =>
    have first : (patchPages p).getD 0 0 = alignDown p.pa0 := by
      unfold patchPages
      split
      · rw [contiguousPages_getD (by rw [bytes_length small]; have := valid.pos; omega)]
        omega
      · rfl
    rw [div_eq_of_lt here, mod_eq_of_lt here, first]
  · next crossing =>
    have one : (p.pa0 % pageSize + j) / pageSize = 1 := by
      simp only [pageSize] at *
      omega
    have rest : (p.pa0 % pageSize + j) % pageSize = p.pa0 % pageSize + j - pageSize := by
      simp only [pageSize] at *
      omega
    have second : (patchPages p).getD 1 0 = p.pa1 := by
      have needed : p.pa1 ≠ 0 := valid.second.mpr (by omega)
      unfold patchPages
      split
      · next contiguous =>
        rw [contiguousPages_getD (by rw [bytes_length small]; omega)]
        refine adjacent_page (contiguous.resolve_left needed) valid.aligned fun zero => crossing ?_
        simp only [pageSize] at *
        omega
      · rfl
    rw [one, rest, second]

variable {write : Write}

/-- Every byte of a valid patch is written where it belongs. -/
theorem mem_spread (valid : Valid p) (member : write ∈ spread (patchPages p) (p.pa0 % pageSize) p.bytes) :
    ∃ j, j < p.size ∧ (write.page, write.offset) = p.location j ∧ p.bytes[j]? = some write.byte := by
  obtain ⟨j, bound, rfl⟩ := List.mem_mapIdx.mp member
  have inside : j < p.size := bytes_length valid.small ▸ bound
  exact ⟨j, inside, patchPages_location valid inside, List.getElem?_eq_getElem bound⟩

/-! ## What an accepted request writes -/

/-- The ways a request can be accepted. -/
inductive Accepted (patchData p : HekiPatch) : Prop where
  | breakpoint (one : patchData.size = 1) (int3 : patchData.code[0] = int3InsnOpcode)
      (here : patchData.pa0 = p.pa0)
  | firstByte (one : patchData.size = 1) (here : patchData.pa0 = p.pa0)
      (code : matchesCode patchData p 0 = true)
  | rest (size : patchData.size = p.size - 1)
      (there : patchData.pa0 = p.pa0 + 1 ∨ (patchData.pa0 = p.pa1 ∧ isAligned (p.pa0 + 1) = true))
      (next : isAligned (p.pa0 + 1) = false → patchData.pa1 = p.pa1)
      (code : matchesCode patchData p 1 = true)

theorem accepted_of_validate (accepted : validateTextPokeBpBatch patchData p = true) : Accepted patchData p := by
  unfold validateTextPokeBpBatch at accepted
  split at accepted
  · next step => exact .breakpoint step.1 step.2.1 step.2.2
  split at accepted
  · next step => exact .firstByte step.1 step.2 accepted
  split at accepted
  · next size =>
    simp only at accepted
    split at accepted
    · cases accepted
    next there =>
    split at accepted
    · cases accepted
    next next =>
    refine .rest size ?_ ?_ accepted
    · by_cases here : patchData.pa0 = p.pa0 + 1
      · exact .inl here
      · exact .inr (not_not.mp fun elsewhere => there ⟨here, elsewhere⟩)
    · intro within
      by_contra other
      exact next ⟨by simp [within], other⟩
  · cases accepted

variable {byte : UInt8}

theorem getElem?_window {code : List UInt8} {offset count : ℕ}
    (read : (window code offset count)[j]? = some byte) : code[offset + j]? = some byte := by
  rw [window, List.getElem?_take] at read
  split at read
  · simpa using read
  · cases read

/-- A byte of a matching request is the one of the code or of the NOP at that place. -/
theorem byte_of_matchesCode {offset : ℕ}
    (code : matchesCode patchData p offset = true) (read : patchData.bytes[j]? = some byte) :
    p.code.toList[offset + j]? = some byte ∨ (x86Nops.getD (p.size - 1) [])[offset + j]? = some byte := by
  simp only [matchesCode, Bool.or_eq_true, Bool.and_eq_true, beq_iff_eq] at code
  obtain same | ⟨-, same⟩ := code
  · exact .inl (getElem?_window (same ▸ read))
  · exact .inr (getElem?_window (same ▸ read))

theorem location_zero : p.location 0 = (alignDown p.pa0, p.pa0 % pageSize) := by
  have offset : p.pa0 % pageSize < pageSize := mod_lt _ (by decide)
  simp [HekiPatch.location, offset]

/-- Byte `j` of step 2 is byte `j + 1` of the registered patch, unless it went to the next page by
address. -/
theorem location_rest (valid : Valid p)
    (there : patchData.pa0 = p.pa0 + 1 ∨ (patchData.pa0 = p.pa1 ∧ isAligned (p.pa0 + 1) = true))
    (next : isAligned (p.pa0 + 1) = false → patchData.pa1 = p.pa1) (right : ¬NextPage patchData p)
    (inside : j < 5) : patchData.location j = p.location (j + 1) := by
  have aligned := valid.aligned
  cases boundary : isAligned (p.pa0 + 1) with
  | false =>
    have here : patchData.pa0 = p.pa0 + 1 := there.resolve_right (by simp [boundary])
    have same := next boundary
    have off : (p.pa0 + 1) % pageSize = p.pa0 % pageSize + 1 := by
      simp only [isAligned, pageSize, beq_eq_false_iff_ne] at *
      omega
    have page : alignDown (p.pa0 + 1) = alignDown p.pa0 := by
      simp only [isAligned, alignDown, pageSize, beq_eq_false_iff_ne] at *
      omega
    simp [HekiPatch.location, here, same, off, page, add_assoc, add_comm 1 j]
  | true =>
    have start : patchData.pa0 = p.pa1 := by
      obtain here | ⟨same, -⟩ := there
      · by_contra other
        exact right ⟨here, boundary, fun same => other (here.trans same.symm)⟩
      · exact same
    have last : p.pa0 % pageSize = pageSize - 1 := by
      simp only [isAligned, pageSize, beq_iff_eq] at *
      omega
    have page : alignDown p.pa1 = p.pa1 := by
      simp only [alignDown, pageSize] at *
      omega
    have within : 0 + j < pageSize := by simp only [pageSize]; omega
    have beyond : ¬pageSize - 1 + (j + 1) < pageSize := by simp only [pageSize]; omega
    simp only [HekiPatch.location, start, aligned, last, page, if_pos within, if_neg beyond]
    simp only [pageSize, Prod.mk.injEq, true_and]
    omega

theorem confined_of_accepted (request : Valid patchData) (valid : Valid p)
    (accepted : Accepted patchData p) (right : ¬NextPage patchData p)
    (member : write ∈ spread (patchPages patchData) (patchData.pa0 % pageSize) patchData.bytes) : Confined p write := by
  obtain ⟨j, inside, place, byte⟩ := mem_spread request member
  have pos := valid.pos
  cases accepted with
  | breakpoint one int3 here =>
    obtain rfl : j = 0 := by omega
    refine ⟨0, pos, by rw [place, location_zero, location_zero, here], .inl ⟨?_, rfl⟩⟩
    have first : patchData.bytes[0]? = some patchData.code[0] := by
      simp [HekiPatch.bytes, one]
    rw [first] at byte
    exact (Option.some.inj byte).symm.trans int3
  | firstByte one here code =>
    obtain rfl : j = 0 := by omega
    exact ⟨0, pos, by rw [place, location_zero, location_zero, here], .inr (byte_of_matchesCode code byte)⟩
  | rest size there next code =>
    have small := valid.small
    refine ⟨j + 1, by omega, ?_, .inr ?_⟩
    · rw [place]
      exact location_rest valid there next right (by omega)
    · rw [add_comm j 1]
      exact byte_of_matchesCode code byte

/-- On the wrong page, not even the first byte belongs to the registered patch. -/
theorem not_confined_of_nextPage (request : Valid patchData) (valid : Valid p) (wrong : NextPage patchData p) :
    ∃ byte, (spread (patchPages patchData) (patchData.pa0 % pageSize) patchData.bytes)[0]? =
      some ⟨p.pa0 + 1, 0, byte⟩ ∧ ¬Confined p ⟨p.pa0 + 1, 0, byte⟩ := by
  obtain ⟨here, boundary, other⟩ := wrong
  have place := patchPages_location request request.pos
  have zero : patchData.pa0 % pageSize = 0 := by simpa [here, isAligned] using boundary
  have page : alignDown patchData.pa0 = p.pa0 + 1 := by
    simp only [isAligned, alignDown, pageSize, beq_iff_eq] at *
    omega
  rw [location_zero, page, zero] at place
  obtain ⟨byte, read⟩ : ∃ byte, patchData.bytes[0]? = some byte := by
    have pos := request.pos
    exact ⟨_, List.getElem?_eq_getElem (by rw [bytes_length request.small]; exact pos)⟩
  refine ⟨byte, ?_, ?_⟩
  · obtain ⟨samePage, sameOffset⟩ := Prod.mk.inj place
    simp only [spread, List.getElem?_mapIdx, read, Option.map_some, zero, samePage, sameOffset]
  · rintro ⟨i, inside, place, -⟩
    have aligned := valid.aligned
    have small := valid.small
    simp only [HekiPatch.location] at place
    split at place
    · simp only [isAligned, alignDown, pageSize, beq_iff_eq, Prod.mk.injEq] at *
      omega
    · simp only [Prod.mk.injEq] at place
      exact other place.1.symm

theorem isValid_of_copy {vtl0 : Vtl0} {patchPa0 patchPa1 : ℕ}
    (copied : copyHekiPatchFromVtl0 vtl0 patchPa0 patchPa1 = .ok patchData) : patchData.isValid = true := by
  unfold copyHekiPatchFromVtl0 at copied
  split at copied
  · cases copied
  split at copied
  · cases copied
  simp only at copied
  split at copied
  · cases copied
  split at copied
  · cases copied
  split at copied
  · next valid => cases copied; exact valid
  · cases copied

theorem applyVtl0TextPatch_writes {vtl0 : Vtl0} {patch : HekiPatch} (writes : (applyVtl0TextPatch vtl0 patch).1 ≠ []) :
    ∃ reach, (applyVtl0TextPatch vtl0 patch).1 = (spread (patchPages patch) (patch.pa0 % pageSize) patch.bytes).take reach := by
  unfold applyVtl0TextPatch at writes ⊢
  split at writes
  · exact absurd rfl writes
  split at writes
  · exact absurd rfl writes
  next some mappable => exact ⟨vtl0.reach, by rw [if_neg some, if_neg mappable]⟩

/-- Text patching is confined to the registered patch that was found, exactly when the request does
not name the physically next page of a patch whose second page is elsewhere. -/
theorem patchText_confined_iff (vtl0 : Vtl0) (table : PatchDataMap) (patchPa0 patchPa1 : ℕ)
    (writes : (mshvVsmPatchText vtl0 table patchPa0 patchPa1).1 ≠ []) :
    ∃ patchData p, copyHekiPatchFromVtl0 vtl0 patchPa0 patchPa1 = .ok patchData ∧
      findPrecomputedPatch table patchData = some p ∧
        ((∀ write ∈ (mshvVsmPatchText vtl0 table patchPa0 patchPa1).1, Confined p.toHekiPatch write) ↔
          ¬NextPage patchData p.toHekiPatch) := by
  unfold mshvVsmPatchText at writes ⊢
  split at writes
  · exact absurd rfl writes
  next patchData copied =>
  split at writes
  · exact absurd rfl writes
  next p found =>
  split at writes
  · next validated =>
    have request := valid_of_isValid (isValid_of_copy copied)
    have valid := valid_of_isValid p.valid
    have accepted := accepted_of_validate validated
    refine ⟨patchData, p, copied, found, ?_⟩
    simp only [validated, if_true]
    obtain ⟨reach, eq⟩ := applyVtl0TextPatch_writes writes
    rw [eq] at writes ⊢
    constructor
    · intro confined wrong
      obtain ⟨byte, first, outside⟩ := not_confined_of_nextPage request valid wrong
      refine outside (confined _ ?_)
      have some : 0 < reach := by
        by_contra none
        simp [show reach = 0 by omega] at writes
      exact List.mem_of_getElem? (by rw [List.getElem?_take_of_lt some]; exact first)
    · exact fun right write member => confined_of_accepted request valid accepted right (List.mem_of_mem_take member)
  · exact absurd rfl writes

/-- A table with one registered jump. -/
def oneJump (pa0 pa1 : ℕ) (valid : (HekiPatch.mk pa0 pa1 5 #v[0xe9, 1, 2, 3, 4]).isValid = true) : PatchDataMap :=
  fun key => if key = pa0 then some ⟨⟨pa0, pa1, 5, #v[0xe9, 1, 2, 3, 4]⟩, valid⟩ else none

/-- VTL0 memory whose first page holds one request. -/
def requesting (bytes : List UInt8) : Vtl0 :=
  ⟨fun page offset => if page = pageSize then bytes.getD offset 0 else 0, fun _ => true, 64⟩

theorem oneJump_eq {pa0 pa1 key : ℕ} {valid : (HekiPatch.mk pa0 pa1 5 #v[0xe9, 1, 2, 3, 4]).isValid = true}
    {p : Precomputed} (found : oneJump pa0 pa1 valid key = some p) : p.toHekiPatch = ⟨pa0, pa1, 5, #v[0xe9, 1, 2, 3, 4]⟩ := by
  unfold oneJump at found
  split at found
  · cases found; rfl
  · cases found

theorem mem_of_find {table : PatchDataMap} {p : Precomputed}
    (found : findPrecomputedPatch table patchData = some p) : ∃ key, table key = some p := by
  obtain here | ⟨-, before⟩ := Option.or_eq_some_iff.mp found
  · exact ⟨_, here⟩
  · split at before
    · cases before
    · exact ⟨_, before⟩

/-- Step 2 of a jump that lies on one page. -/
theorem patchText_confined_iff_onePage :
    (mshvVsmPatchText (requesting (leBytes 8 0x8001 ++ leBytes 8 0 ++ [4, 1, 2, 3, 4, 0, 0, 0]))
        (oneJump 0x8000 0 (by decide)) 0x1000 0).1 ≠ [] ∧
      ∀ write ∈ (mshvVsmPatchText (requesting (leBytes 8 0x8001 ++ leBytes 8 0 ++ [4, 1, 2, 3, 4, 0, 0, 0]))
          (oneJump 0x8000 0 (by decide)) 0x1000 0).1,
        Confined ⟨0x8000, 0, 5, #v[0xe9, 1, 2, 3, 4]⟩ write := by
  have writes : (mshvVsmPatchText (requesting (leBytes 8 0x8001 ++ leBytes 8 0 ++ [4, 1, 2, 3, 4, 0, 0, 0]))
      (oneJump 0x8000 0 (by decide)) 0x1000 0).1 ≠ [] := by decide +kernel
  obtain ⟨patchData, p, -, found, confined⟩ := patchText_confined_iff _ _ _ _ writes
  obtain ⟨key, registered⟩ := mem_of_find found
  rw [oneJump_eq registered] at confined
  refine ⟨writes, confined.mpr ?_⟩
  rintro ⟨-, boundary, -⟩
  exact absurd boundary (by decide)

/-- A jump registered at the end of page 1 with its rest on page 9: a request for page 2, the next one
by address, is accepted, and the four bytes are written there. -/
theorem next_page_by_address_is_patched :
    (mshvVsmPatchText (requesting (leBytes 8 0x2000 ++ leBytes 8 0 ++ [4, 1, 2, 3, 4, 0, 0, 0]))
        (oneJump 0x1fff 0x9000 (by decide)) 0x1000 0).1 =
      [⟨0x2000, 0, 1⟩, ⟨0x2000, 1, 2⟩, ⟨0x2000, 2, 3⟩, ⟨0x2000, 3, 4⟩] ∧
    ∀ key p, oneJump 0x1fff 0x9000 (by decide) key = some p → ¬Confined p.toHekiPatch ⟨0x2000, 0, 1⟩ := by
  refine ⟨by decide +kernel, ?_⟩
  rintro key p registered ⟨i, inside, place, -⟩
  rw [oneJump_eq registered] at inside place
  have all : ∀ i < 5, (0x2000, 0) ≠ (HekiPatch.mk 0x1fff 0x9000 5 #v[0xe9, 1, 2, 3, 4]).location i := by decide
  exact all i inside place

end LiteBox.Vsm
