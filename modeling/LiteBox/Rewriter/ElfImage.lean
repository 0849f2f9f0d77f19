import LiteBox.Rewriter.Footer

/-! # ELF images

What the rewriter does with the headers of an image: moving a misaligned program header table,
picking the executable sections and choosing the trampoline's address. Parsing is left to the
`object` crate, which `Object` stands for.
-/

namespace LiteBox.Rewriter

open Bytes Outcome List

/-! ## Moving the program headers -/

def elfHeaderLen : ℕ := 64

/-- Offsets of fields of `FileHeader64` and `ProgramHeader64`. -/
def ePhoff : ℕ := 32
def ePhentsize : ℕ := 54
def ePhnum : ℕ := 56
def phdrFields : List ℕ := [8, 16, 24]
def ptPhdr : ℕ := 6

/-- A little-endian field of an image. -/
def fieldAt (buf : List UInt8) (offset width : ℕ) : ℕ := leValue ((buf.drop offset).take width)

/-- A 64-bit little-endian ELF file whose program header table is not aligned to eight bytes. -/
def NeedsShift (buf : List UInt8) : Prop :=
  elfHeaderLen ≤ buf.length ∧ buf.take 4 = [0x7F, 0x45, 0x4C, 0x46] ∧ buf[4]? = some 2 ∧ buf[5]? = some 1 ∧
    fieldAt buf ePhoff 8 ≠ 0 ∧ fieldAt buf ePhnum 2 ≠ 0 ∧ fieldAt buf ePhentsize 2 ≠ 0 ∧ fieldAt buf ePhoff 8 % 8 ≠ 0

instance (buf : List UInt8) : Decidable (NeedsShift buf) := by
  unfold NeedsShift
  infer_instance

variable {buf : List UInt8}

/-- Only the file header decides. -/
theorem needsShift_take (long : elfHeaderLen ≤ buf.length) :
    NeedsShift buf ↔ NeedsShift (buf.take elfHeaderLen) := by
  have field (offset width : ℕ) (inside : offset + width ≤ elfHeaderLen) :
      fieldAt (buf.take elfHeaderLen) offset width = fieldAt buf offset width := by
    rw [fieldAt, fieldAt, drop_take, take_take, Nat.min_eq_left (by omega)]
  simp only [NeedsShift, field ePhoff 8 (by decide), field ePhnum 2 (by decide), field ePhentsize 2 (by decide),
    take_take, length_take]
  simp [long, elfHeaderLen, getElem?_take]

/-- Add to the three fields of a `PT_PHDR` entry that follow the table. -/
def shiftFields (padding entryOff : ℕ) : List ℕ → List UInt8 → Except Error (List UInt8)
  | [], buf => .ok buf
  | field :: rest, buf => do
    let newVal ← addU64 (fieldAt buf (entryOff + field) 8) padding "attempt to add with overflow"
    shiftFields padding entryOff rest (overwrite buf (entryOff + field) (leBytes 8 newVal))

/-- The loop over the moved entries, which stops at the first that does not fit the file. -/
def shiftEntries (padding newStart ePhentsize : ℕ) : List ℕ → List UInt8 → Except Error (List UInt8)
  | [], buf => .ok buf
  | index :: rest, buf =>
    let entryOff := newStart + index * ePhentsize
    if buf.length < entryOff + 32 then .ok buf
    else if fieldAt buf entryOff 4 = ptPhdr then do
      let buf ← shiftFields padding entryOff phdrFields buf
      shiftEntries padding newStart ePhentsize rest buf
    else shiftEntries padding newStart ePhentsize rest buf

/-- `fixup_phdr_alignment`: shift a misaligned table to the next multiple of eight when there are
only zeros in the way. The source's checked additions fail only for ends far behind the file. -/
def fixupPhdrAlignment (buf : List UInt8) : Except Error (List UInt8) :=
  if NeedsShift buf then
    let phoff := fieldAt buf ePhoff 8
    let phdrSize := fieldAt buf ePhentsize 2 * fieldAt buf ePhnum 2
    let padding := 8 - phoff % 8
    let newStart := phoff + padding
    if buf.length < newStart + phdrSize then .ok buf
    else if ((buf.drop (phoff + phdrSize)).take padding).any (· ≠ 0) then .ok buf
    else
      let moved := overwrite buf newStart ((buf.drop phoff).take phdrSize)
      let cleared := overwrite moved phoff (List.replicate padding 0)
      let pointed := overwrite cleared ePhoff (leBytes 8 newStart)
      shiftEntries padding newStart (fieldAt buf ePhentsize 2) (List.range (fieldAt buf ePhnum 2)) pointed
  else .ok buf

variable {shifted : List UInt8}

theorem shiftFields_length {padding entryOff : ℕ} {fields : List ℕ}
    (inside : ∀ field ∈ fields, entryOff + field + 8 ≤ buf.length)
    (shift : shiftFields padding entryOff fields buf = .ok shifted) : shifted.length = buf.length := by
  induction fields generalizing buf with
  | nil =>
    cases shift
    rfl
  | cons field rest ih =>
    obtain ⟨newVal, -, shift⟩ := bind_eq_ok.mp shift
    have length : (overwrite buf (entryOff + field) (leBytes 8 newVal)).length = buf.length :=
      overwrite_length (by simpa using inside field mem_cons_self)
    rw [ih ?_ shift, length]
    intro later member
    rw [length]
    exact inside later (mem_cons_of_mem _ member)

theorem shiftEntries_length {padding newStart entsize : ℕ} {entries : List ℕ}
    (shift : shiftEntries padding newStart entsize entries buf = .ok shifted) : shifted.length = buf.length := by
  induction entries generalizing buf with
  | nil =>
    cases shift
    rfl
  | cons index rest ih =>
    simp only [shiftEntries] at shift
    split_ifs at shift with outside is_phdr
    · cases shift
      rfl
    · obtain ⟨middle, fields, shift⟩ := bind_eq_ok.mp shift
      rw [ih shift, shiftFields_length ?_ fields]
      intro field member
      have : field ≤ 24 := by
        simp only [phdrFields, mem_cons, not_mem_nil, or_false] at member
        omega
      omega
    · exact ih shift

/-- The table moves inside the file. -/
theorem fixupPhdrAlignment_length {fixed : List UInt8} (fixup : fixupPhdrAlignment buf = .ok fixed) :
    fixed.length = buf.length := by
  simp only [fixupPhdrAlignment] at fixup
  split_ifs at fixup with needs outside occupied
  · cases fixup
    rfl
  · cases fixup
    rfl
  · have long : elfHeaderLen ≤ buf.length := needs.1
    unfold elfHeaderLen at long
    have moved_len : (overwrite buf (fieldAt buf ePhoff 8 + (8 - fieldAt buf ePhoff 8 % 8))
        ((buf.drop (fieldAt buf ePhoff 8)).take (fieldAt buf ePhentsize 2 * fieldAt buf ePhnum 2))).length = buf.length :=
      overwrite_length (by simp only [length_take]; omega)
    rw [shiftEntries_length fixup, overwrite_length, overwrite_length, moved_len]
    · rw [moved_len, length_replicate]
      omega
    · rw [overwrite_length, moved_len, leBytes_length, ePhoff]
      · omega
      · rw [moved_len, length_replicate]
        omega
  · cases fixup
    rfl

/-! ## Parsed files -/

inductive Architecture where
  | x86_64
  | aarch64
  | other
deriving DecidableEq, Repr

/-- A section as `object` reports it: its ELF flags, whether its kind is `Text`, its address and the
bytes of the file it has. -/
structure ObjectSection where
  shFlags : Option ℕ
  isText : Bool
  address : ℕ
  fileRange : Option (ℕ × ℕ)
deriving DecidableEq, Repr

structure ProgramHeader where
  (pType pVaddr pMemsz : ℕ)
deriving DecidableEq, Repr

/-- What the rewriter asks of a parsed file. -/
structure ObjectFile where
  elf64 : Bool
  architecture : Architecture
  sections : List ObjectSection
  programHeaders : List ProgramHeader
deriving DecidableEq, Repr

/-- The `object` crate. -/
structure Object where
  parse : List UInt8 → Except String ObjectFile
  /-- The offsets of an image that parsing it reads: the file header, the two header tables and what
  these point to. -/
  reads : List UInt8 → ℕ → Prop

/-- What the crate documents: parsing is determined by what it reads, which includes the file header,
and a program header table has to be aligned. -/
structure Object.Laws (object : Object) : Prop where
  parse_congr : ∀ image other file, object.parse image = .ok file → image.length ≤ other.length →
    (∀ offset < image.length, object.reads image offset → other[offset]? = image[offset]?) → object.parse other = .ok file
  reads_header : ∀ image file, object.parse image = .ok file → file.elf64 → elfHeaderLen ≤ image.length ∧
    ∀ offset < elfHeaderLen, object.reads image offset
  aligned : ∀ image file, object.parse image = .ok file → ¬NeedsShift image

def shfAlloc : ℕ := 2
def shfExecinstr : ℕ := 4
def ptLoad : ℕ := 1

/-- The executable part of a section, if it is one to be rewritten. -/
def textSection (section_ : ObjectSection) : Option TextSectionInfo :=
  match section_.shFlags with
  | none => none
  | some shFlags =>
    if !section_.isText then none
    else if shFlags &&& shfAlloc = 0 then none
    else if shFlags &&& shfExecinstr = 0 then none
    else section_.fileRange.map fun range => ⟨section_.address, range.1, range.2⟩

/-- `text_sections`; an empty list is the source's `NoTextSectionFound`. -/
def textSections (file : ObjectFile) : List TextSectionInfo := file.sections.filterMap textSection

/-- The highest end of a `PT_LOAD` segment; an end that overflows does not count. -/
def maxLoadSegmentEnd (file : ObjectFile) : Option ℕ :=
  (file.programHeaders.filterMap fun header =>
    if header.pType = ptLoad ∧ header.pVaddr + header.pMemsz < 2 ^ 64 then some (header.pVaddr + header.pMemsz)
    else none).max?

def findAddrForTrampolineCode (file : ObjectFile) : Except Error ℕ :=
  match maxLoadSegmentEnd file with
  | none => .error (.parseError "no PT_LOAD segments found")
  | some maxVirtualAddr => do
    let addr ← checkedAddU64 maxVirtualAddr 0xFFF "trampoline base"
    return addr / 0x1000 * 0x1000

theorem findAddrForTrampolineCode_eq_ok {file : ObjectFile} {addr : ℕ} :
    findAddrForTrampolineCode file = .ok addr ↔
      ∃ top, maxLoadSegmentEnd file = some top ∧ top + 0xFFF < 2 ^ 64 ∧ addr = pageUp top := by
  unfold findAddrForTrampolineCode
  cases top_eq : maxLoadSegmentEnd file with
  | none => simp
  | some top =>
    simp only [bind_eq_ok, checkedAddU64_eq_ok, Option.some.injEq, exists_eq_left']
    constructor
    · rintro ⟨sum, ⟨small, rfl⟩, addr_eq⟩
      exact ⟨small, (pure_eq_ok.mp addr_eq).symm⟩
    · rintro ⟨small, rfl⟩
      exact ⟨_, ⟨small, rfl⟩, rfl⟩

end LiteBox.Rewriter
