import LiteBox.Lib.Prog
import LiteBox.Loader.ParseTrampoline
import LiteBox.Mm.Basic

/-! # Loading an executable

`ElfParsedFile::load` reserves room for a position-independent image, maps its segments at fixed addresses
and applies relative relocations. The mapper and the memory are a host that answers each call as it likes;
the log of the calls is the state of the program.
-/

namespace LiteBox.Loader

open Prog List

open Mm (usizeMax)
open Bytes (leValue leBytes)

/-! ## The image -/

inductive SegmentType
  | load | dynamic | interp | other (code : ℕ)
deriving DecidableEq

structure ProgramHeader where
  pType : SegmentType
  pFlags : BitVec 32
  (pOffset pVaddr pFilesz pMemsz pAlign : ℕ)
  offset_le : pOffset ≤ usizeMax
  vaddr_le : pVaddr ≤ usizeMax
  filesz_le : pFilesz ≤ usizeMax
  memsz_le : pMemsz ≤ usizeMax

namespace ProgramHeader

def writable (ph : ProgramHeader) : Bool := ph.pFlags &&& 2 != 0
def executable (ph : ProgramHeader) : Bool := ph.pFlags &&& 1 != 0

end ProgramHeader

inductive ElfType
  | exec | dyn
deriving DecidableEq

structure FileHeader where
  eType : ElfType
  (eEntry ePhoff ePhnum : ℕ)

/-- A parsed file. A trampoline that was found is not empty and starts at a page. -/
structure ElfParsedFile (page : ℕ) where
  header : FileHeader
  programHeaders : List ProgramHeader
  trampoline : Option TrampolineInfo
  trampoline_valid : ∀ found ∈ trampoline, 0 < found.size ∧ page ∣ found.vaddr

def ElfParsedFile.ptLoads {page : ℕ} (image : ElfParsedFile page) : List ProgramHeader :=
  image.programHeaders.filter fun ph => decide (ph.pType = .load)

/-! ## The host -/

structure Protection where
  (read write execute : Bool)
deriving DecidableEq

inductive LoadCall
  | reserve (len align cowPaddingHint : ℕ)
  | mapFile (address len offset : ℕ) (prot : Protection)
  | mapZero (address len : ℕ) (prot : Protection)
  | protect (address len : ℕ) (prot : Protection)
  | zero (address len : ℕ)
  | read (address len : ℕ)
  | write (address : ℕ) (bytes : List UInt8)
deriving DecidableEq

/-- How the mapper and the memory answer a call after the calls before it. -/
structure LoadHost (E : Type) where
  reserve : List LoadCall → (len align cowPaddingHint : ℕ) → Except E ℕ
  mapFile : List LoadCall → (address len offset : ℕ) → Protection → Except E Unit
  mapZero : List LoadCall → (address len : ℕ) → Protection → Except E Unit
  protect : List LoadCall → (address len : ℕ) → Protection → Except E Unit
  zero : List LoadCall → (address len : ℕ) → Bool
  read : List LoadCall → (address len : ℕ) → Option (List UInt8)
  write : List LoadCall → (address : ℕ) → List UInt8 → Bool

inductive ElfLoadError (E : Type)
  | map (failure : E)
  | invalidProgramHeader
  | fault

abbrev LoadProg (E α : Type) := Prog (List LoadCall) (Halt (ElfLoadError E)) α

variable {E : Type}

/-- A call is logged, whatever the answer. -/
def ask {α : Type} (call : LoadCall) (answer : List LoadCall → Except (ElfLoadError E) α) : LoadProg E α := fun log =>
  match answer log with
  | .ok value => (.ok value, log ++ [call])
  | .error failure => (.error (.error failure), log ++ [call])

namespace LoadHost

variable (host : LoadHost E)

def reserved (len align cowPaddingHint : ℕ) : LoadProg E ℕ :=
  ask (.reserve len align cowPaddingHint) fun log => (host.reserve log len align cowPaddingHint).mapError .map

def mapsFile (address len offset : ℕ) (prot : Protection) : LoadProg E Unit :=
  ask (.mapFile address len offset prot) fun log => (host.mapFile log address len offset prot).mapError .map

def mapsZero (address len : ℕ) (prot : Protection) : LoadProg E Unit :=
  ask (.mapZero address len prot) fun log => (host.mapZero log address len prot).mapError .map

def protects (address len : ℕ) (prot : Protection) : LoadProg E Unit :=
  ask (.protect address len prot) fun log => (host.protect log address len prot).mapError .map

def zeroes (address len : ℕ) : LoadProg E Unit :=
  ask (.zero address len) fun log => if host.zero log address len then .ok () else .error .fault

def writes (address : ℕ) (bytes : List UInt8) : LoadProg E Unit :=
  ask (.write address bytes) fun log => if host.write log address bytes then .ok () else .error .fault

/-- Fills a buffer of zeros with what could be read. -/
def reads (address len : ℕ) : LoadProg E (List UInt8) :=
  ask (.read address len) fun log =>
    match host.read log address len with
    | some bytes => .ok ((bytes ++ replicate len 0).take len)
    | none => .error .fault

end LoadHost

/-! ## Arithmetic -/

def overflow : Halt (ElfLoadError E) := .panic "attempt to add with overflow"

def add (a b : ℕ) : LoadProg E ℕ := do
  when (a + b > usizeMax) (fail overflow)
  pure (a + b)

def checkedAdd (a b : ℕ) : LoadProg E ℕ := do
  when (a + b > usizeMax) (fail (.error .invalidProgramHeader))
  pure (a + b)

def alignDown (page a : ℕ) : ℕ := a / page * page

def alignUp (page a : ℕ) : ℕ := (a + (page - 1)) / page * page

def pageAlignUp (page a : ℕ) : LoadProg E ℕ := do
  when (alignUp page a > usizeMax) (fail overflow)
  pure (alignUp page a)

/-! ## The reservation -/

structure Bounds where
  (min max align : ℕ)
  firstSegmentOffset : Option ℕ

def isPowerOfTwo (a : ℕ) : Bool := decide (a ≠ 0) && decide (2 ^ a.log2 = a)

def Bounds.addSegment (bounds : Bounds) (ph : ProgramHeader) : Option Bounds :=
  if ph.pVaddr + ph.pMemsz > usizeMax then none
  else some {
    min := Nat.min bounds.min ph.pVaddr
    max := Nat.max bounds.max (ph.pVaddr + ph.pMemsz)
    align := if isPowerOfTwo ph.pAlign then Nat.max bounds.align ph.pAlign else bounds.align
    firstSegmentOffset := if ph.pVaddr ≤ bounds.min then some ph.pOffset else bounds.firstSegmentOffset }

def Bounds.addTrampoline (bounds : Bounds) (trampoline : TrampolineInfo) : Option Bounds :=
  if trampoline.vaddr + trampoline.size > usizeMax then none
  else some { bounds with
    min := Nat.min bounds.min trampoline.vaddr
    max := Nat.max bounds.max (trampoline.vaddr + trampoline.size) }

/-- The pages from the lowest to the highest address of an image. -/
structure Reservation where
  (min max align : ℕ)
  firstSegmentOffset : Option ℕ
deriving DecidableEq

def Reservation.span (r : Reservation) : ℕ := r.max - r.min

def Bounds.rounded (page : ℕ) (bounds : Bounds) : Option Reservation :=
  if alignUp page bounds.max > usizeMax then none
  else if alignUp page bounds.max < alignDown page bounds.min then none
  else some ⟨alignDown page bounds.min, alignUp page bounds.max, bounds.align, bounds.firstSegmentOffset⟩

section Load

variable {page : ℕ} (host : LoadHost E)

/-- What `load` asks the mapper to reserve for a position-independent image. -/
def ElfParsedFile.reservation (image : ElfParsedFile page) : Option Reservation := do
  let bounds ← image.ptLoads.foldlM Bounds.addSegment ⟨usizeMax, 0, page, none⟩
  let bounds ← image.trampoline.elim (some bounds) bounds.addTrampoline
  bounds.rounded page

/-- `none` is a division by zero. -/
def cowPaddingHint (cowAlignment firstSegmentOffset : Option ℕ) : Option ℕ :=
  match cowAlignment, firstSegmentOffset with
  | some alignment, some offset => if alignment = 0 then none else some (offset % alignment)
  | _, _ => some 0

structure LoadOptions where
  reserveTrampoline : Option ℕ
  applyRelocations : Bool
  cowAlignment : Option ℕ

def baseAddr (image : ElfParsedFile page) (options : LoadOptions) : LoadProg E ℕ :=
  match image.header.eType with
  | .dyn => do
    let reservation ← ofOption (.error .invalidProgramHeader) image.reservation
    let hint ← ofOption (.panic "attempt to calculate the remainder with a divisor of zero")
      (cowPaddingHint options.cowAlignment reservation.firstSegmentOffset)
    host.reserved reservation.span reservation.align hint
  | .exec => pure 0

/-! ## Segments -/

def ProgramHeader.valid (ph : ProgramHeader) : Bool :=
  !(decide (ph.pMemsz < ph.pFilesz) || decide (ph.pVaddr + ph.pMemsz > usizeMax) || decide (ph.pOffset + ph.pFilesz > usizeMax))

def ProgramHeader.prot (ph : ProgramHeader) : Protection := ⟨true, ph.writable, ph.executable⟩

/-- The part of a segment that is in the file. The rest of its last page is zeroed for a writable segment with
more memory than file. -/
def mapFilePart (ph : ProgramHeader) (adjusted loadStart fileEnd : ℕ) : LoadProg E Unit := do
  host.mapsFile loadStart (fileEnd - loadStart) ((ph.pOffset + 2 ^ 64 - (adjusted - loadStart)) % 2 ^ 64) ph.prot
  when (ph.pMemsz > ph.pFilesz ∧ ph.writable = true ∧ fileEnd > adjusted + ph.pFilesz)
    (host.zeroes (adjusted + ph.pFilesz) (fileEnd - (adjusted + ph.pFilesz)))

/-- The end of what is mapped so far, and the address of the program headers. -/
structure Progress where
  (brk phdrsAddr : ℕ)

/-- The address of the program headers, if they are in the segment. -/
def phdrsAddrIn (header : FileHeader) (ph : ProgramHeader) (adjusted : ℕ) (before : ℕ) : LoadProg E ℕ :=
  if ph.pOffset ≤ header.ePhoff ∧ header.ePhoff < ph.pOffset + ph.pFilesz then add adjusted (header.ePhoff - ph.pOffset)
  else pure before

def loadSegment (page : ℕ) (header : FileHeader) (base : ℕ) (progress : Progress) (ph : ProgramHeader) : LoadProg E Progress := do
  when (ph.valid = false) (fail (.error .invalidProgramHeader))
  let adjusted ← add base ph.pVaddr
  let loadStart := alignDown page adjusted
  let inFile ← add adjusted ph.pFilesz
  let fileEnd ← pageAlignUp page inFile
  let inMemory ← add adjusted ph.pMemsz
  let loadEnd ← pageAlignUp page inMemory
  when (fileEnd > loadStart) (mapFilePart host ph adjusted loadStart fileEnd)
  when (loadEnd > fileEnd) (host.mapsZero fileEnd (loadEnd - fileEnd) ph.prot)
  let phdrsAddr ← phdrsAddrIn header ph adjusted progress.phdrsAddr
  pure ⟨max progress.brk loadEnd, phdrsAddr⟩

/-! ## Relocations -/

def maxAllocation : ℕ := 2 ^ 63 - 1

/-- Reads a table of the image into a vector of its size. -/
def readTable (base vaddr size : ℕ) : LoadProg E (List UInt8) := do
  when (size > maxAllocation) (fail (.panic "capacity overflow"))
  let address ← add base vaddr
  host.reads address size

/-- The `index`-th 64-bit word of a table. -/
def wordAt (bytes : List UInt8) (index : ℕ) : ℕ := leValue ((bytes.drop (8 * index)).take 8)

def dtRela : ℕ := 7
def dtRelasz : ℕ := 8
def dtRelaent : ℕ := 9
def dtRelrsz : ℕ := 0x23
def dtRelr : ℕ := 0x24
def dtRelrent : ℕ := 0x25

/-- The entries of the dynamic section, tag and value. -/
def dynEntries (bytes : List UInt8) : List (ℕ × ℕ) :=
  (range (bytes.length / 16)).map fun i => (wordAt bytes (2 * i), wordAt bytes (2 * i + 1))

/-- The last entry with a tag counts. -/
def dynValue (entries : List (ℕ × ℕ)) (tag : ℕ) : Option ℕ := (entries.reverse.find? fun entry => decide (entry.1 = tag)).map Prod.snd

structure Rela where
  (rOffset rInfo rAddend : ℕ)

def relaSize : ℕ := 24

def relaEntries (bytes : List UInt8) : List Rela :=
  (range (bytes.length / relaSize)).map fun i => ⟨wordAt bytes (3 * i), wordAt bytes (3 * i + 1), wordAt bytes (3 * i + 2)⟩

def rX8664Relative : ℕ := 8

def applyRela (base : ℕ) (rela : Rela) : LoadProg E PUnit :=
  when (rela.rInfo % 2 ^ 32 = rX8664Relative) do
    let target ← checkedAdd base rela.rOffset
    host.writes target (leBytes 8 ((base + rela.rAddend) % 2 ^ 64))

def applyRelaTable (base vaddr size : ℕ) (entrySize : Option ℕ) : LoadProg E Unit := do
  when (entrySize.any (fun given => decide (given ≠ relaSize)) = true) (fail (.error .invalidProgramHeader))
  let bytes ← readTable host base vaddr size
  (relaEntries bytes).forM (applyRela host base)

/-- Adds the base to the word at an address. -/
def relocateWord (base address : ℕ) : LoadProg E Unit := do
  let target ← checkedAdd base address
  let old ← host.reads target 8
  host.writes target (leBytes 8 ((base + leValue old) % 2 ^ 64))

/-- The slots that the bits of a bitmap mark, from the current address on. -/
def relocateMarked (base current bitmap : ℕ) : LoadProg E PUnit :=
  (range 63).forM fun i => when (bitmap.testBit i = true) do
    let address ← add current (8 * i)
    relocateWord host base address

/-- One word of the compressed relocations; the result is the next address. -/
def applyRelr (base current word : ℕ) : LoadProg E ℕ :=
  if word % 2 = 0 then do
    relocateWord host base word
    add word 8
  else do
    relocateMarked host base current (word / 2)
    add current (63 * 8)

def applyRelrTable (base vaddr size : ℕ) (entrySize : Option ℕ) : LoadProg E Unit := do
  when (entrySize.any (fun given => decide (given ≠ 8)) = true) (fail (.error .invalidProgramHeader))
  when (size % 8 ≠ 0) (fail (.error .invalidProgramHeader))
  let bytes ← readTable host base vaddr size
  let _ ← ((range (size / 8)).map (wordAt bytes)).foldlM (applyRelr host base) 0
  pure ()

/-- Applies a table whose address and size are both given. -/
def applyTable (entries : List (ℕ × ℕ)) (vaddrTag sizeTag entrySizeTag : ℕ)
    (apply : ℕ → ℕ → Option ℕ → LoadProg E Unit) : LoadProg E Unit :=
  match dynValue entries vaddrTag, dynValue entries sizeTag with
  | some vaddr, some size => apply vaddr size (dynValue entries entrySizeTag)
  | _, _ => pure ()

def ElfParsedFile.dynamicHeader (image : ElfParsedFile page) : Option ProgramHeader :=
  image.programHeaders.find? fun ph => decide (ph.pType = .dynamic)

def applyRelocations (image : ElfParsedFile page) (base : ℕ) : LoadProg E Unit :=
  match image.dynamicHeader with
  | none => pure ()
  | some dynamic => do
    let bytes ← readTable host base dynamic.pVaddr dynamic.pMemsz
    applyTable (dynEntries bytes) dtRela dtRelasz dtRelaent (applyRelaTable host base)
    applyTable (dynEntries bytes) dtRelr dtRelrsz dtRelrent (applyRelrTable host base)

/-! ## The trampoline and the whole -/

structure MappingInfo where
  (baseAddr brk entryPoint phdrsAddr numPhdrs : ℕ)

def loadTrampoline (page : ℕ) (trampoline : TrampolineInfo) (info : MappingInfo) : LoadProg E MappingInfo := do
  let start ← add info.baseAddr trampoline.vaddr
  let inMemory ← add start trampoline.size
  let stop ← pageAlignUp page inMemory
  host.mapsFile start (stop - start) trampoline.fileOffset ⟨true, true, false⟩
  host.writes start (leBytes 8 trampoline.syscallEntryPoint)
  host.protects start (stop - start) ⟨true, false, true⟩
  pure { info with brk := max info.brk stop }

/-- Room for a trampoline that is made at run time. -/
def reserveRuntimeTrampoline (page size : ℕ) (info : MappingInfo) : LoadProg E MappingInfo := do
  let stop ← pageAlignUp page info.brk
  let room ← pageAlignUp page size
  let brk ← add stop room
  pure { info with brk }

def finish (page : ℕ) (trampoline : Option TrampolineInfo) (reserveTrampoline : Option ℕ) (info : MappingInfo) :
    LoadProg E MappingInfo :=
  match trampoline, reserveTrampoline with
  | some found, _ => loadTrampoline host page found info
  | none, some size => reserveRuntimeTrampoline page size info
  | none, none => pure info

def load (image : ElfParsedFile page) (options : LoadOptions) : LoadProg E MappingInfo := do
  let base ← baseAddr host image options
  let progress ← image.ptLoads.foldlM (loadSegment host page image.header base) ⟨0, 0⟩
  when (options.applyRelocations = true) (applyRelocations host image base)
  finish host page image.trampoline options.reserveTrampoline
    ⟨base, progress.brk, (base + image.header.eEntry) % 2 ^ 64, progress.phdrsAddr, image.header.ePhnum⟩

end Load

end LiteBox.Loader
