import LiteBox.Lib.Edits
import LiteBox.Lib.Outcome

/-! # Validating a loaded kernel module against its ELF file

The text and read-only init sections of a module in VTL0 memory are compared with the sections of the
signed ELF file, except for the bytes that the module's relocations may change. The ELF file is read
through the tables of the `elf` crate.
-/

namespace LiteBox.Vsm

open Bytes Outcome List Yields

structure SectionHeader where
  (shName shType shFlags shOffset shSize : ℕ)
deriving DecidableEq

structure Symbol where
  (stName stShndx : ℕ)
deriving DecidableEq

structure Rela where
  (rOffset rSym rType : ℕ)
  rAddend : ℤ
deriving DecidableEq

/-- The tables of a parsed ELF file: its section headers with their names, its symbols with theirs, and
the relocations a section holds. `none` is an entry the `elf` crate refuses. -/
structure Elf where
  shdrs : List SectionHeader
  sectionName : ℕ → Option String
  symtab : List Symbol
  symbolName : ℕ → Option String
  relas : SectionHeader → Option (List Rela)

inductive KernelElfError where
  | elfParseFailed
  | sectionNotFound
  | unsupportedRelocation
deriving DecidableEq, Repr

inductive Failure where
  | panic
  | error (kind : KernelElfError)
deriving DecidableEq, Repr

structure ModuleMemory where
  (text initText initRodata : List UInt8)

def ModuleMemory.findSectionByName (memory : ModuleMemory) (name : String) : Option (List UInt8) :=
  if name = ".text" then some memory.text
  else if name = ".init.text" then some memory.initText
  else if name = ".init.rodata" then some memory.initRodata
  else none

def sectionsToValidate : List String := [".text", ".init.text", ".init.rodata"]

def shfAlloc : ℕ := 2
def shtRela : ℕ := 4
def usizeLimit : ℕ := 2 ^ 64

/-- Bytes that a relocation of this type changes; the supported types are `R_X86_64_64`, `PC32`,
`PLT32`, `32` and `32S`. -/
def relocSize (rType : ℕ) : Option ℕ :=
  if rType = 1 then some 8
  else if rType ∈ [2, 4, 10, 11] then some 4
  else none

/-- Debug builds have a `todo!` where release builds report the type. -/
def unsupported (debug : Bool) : Failure := if debug then .panic else .error .unsupportedRelocation

/-- A half-open range of offsets in a section. -/
abbrev Range := ℕ × ℕ

/-- The range `[start, start + size)`, if it lies in a section of `length` bytes. -/
def rangeWithin (start size length : ℕ) : Option Range :=
  if start + size < usizeLimit ∧ start + size ≤ length then some (start, start + size) else none

variable (elf : Elf) (target : String)

/-- The section `.rela<target>`. -/
def Elf.directSection : Option SectionHeader :=
  elf.shdrs.find? fun s => decide (0 < s.shSize) && s.shType == shtRela && elf.sectionName s.shName == some (".rela" ++ target)

def directStep (debug : Bool) (elf : Elf) (length : ℕ) (ranges : List Range) (rela : Rela) : Except Failure (List Range) :=
  if elf.symtab[rela.rSym]?.isNone then .ok ranges
  else
    match relocSize rela.rType with
    | none => .error (unsupported debug)
    | some size => .ok (ranges ++ (rangeWithin rela.rOffset size length).toList)

def identifyDirectRelocations (debug : Bool) (elf : Elf) (target : String) (length : ℕ) (ranges : List Range) :
    Except Failure (List Range) :=
  if target ∉ sectionsToValidate then .error (.error .sectionNotFound)
  else
    match elf.directSection target with
    | none => .error (.error .sectionNotFound)
    | some shdr =>
      match elf.relas shdr with
      | none => .error (.error .elfParseFailed)
      | some relas => relas.foldlM (directStep debug elf length) ranges

def altinstructions : String := ".rela.altinstructions"

def allowedRelaSections : List String :=
  [altinstructions, ".rela.call_sites", ".rela.ibt_endbr_seal", ".rela.parainstructions",
    ".rela.retpoline_sites", ".rela.return_sites", ".rela__patchable_function_entries"]

def Elf.indirectSections : List SectionHeader :=
  elf.shdrs.filter fun s =>
    decide (0 < s.shSize) && s.shType == shtRela && (elf.sectionName s.shName).any (· ∈ allowedRelaSections)

/-- An unnamed symbol that belongs to the target section. -/
def Elf.unnamedIn (symbol : Symbol) : Bool :=
  (elf.symbolName symbol.stName).all (·.isEmpty) &&
    (elf.shdrs[symbol.stShndx]?.bind fun s => elf.sectionName s.shName) == some target

/-- The byte before an alternative instruction, when it is a `nop`. -/
def nopBefore (shdr : SectionHeader) (section_ : List UInt8) (start : ℕ) : List Range :=
  if elf.sectionName shdr.shName = some altinstructions ∧ 0 < start ∧ section_[start - 1]? = some 0x90 then
    [(start - 1, start)]
  else []

def indirectStep (debug : Bool) (elf : Elf) (target : String) (section_ : List UInt8) (shdr : SectionHeader)
    (ranges : List Range) (rela : Rela) : Except Failure (List Range) :=
  if rela.rAddend < 0 then .error (.error .elfParseFailed)
  else
    match elf.symtab[rela.rSym]? with
    | none => .ok ranges
    | some symbol =>
      if elf.unnamedIn target symbol then
        match relocSize rela.rType with
        | none => .error (unsupported debug)
        | some size =>
          match rangeWithin rela.rAddend.toNat size section_.length with
          | none => .ok ranges
          | some range => .ok (ranges ++ [range] ++ nopBefore elf shdr section_ rela.rAddend.toNat)
      else .ok ranges

def identifyIndirectRelocations (debug : Bool) (elf : Elf) (target : String) (section_ : List UInt8)
    (ranges : List Range) : Except Failure (List Range) :=
  elf.indirectSections.foldlM (fun ranges shdr =>
    match elf.relas shdr with
    | none => .error (.error .elfParseFailed)
    | some relas => relas.foldlM (indirectStep debug elf target section_ shdr) ranges) ranges

/-- Release builds copy the relocated bytes over and compare, debug builds look between the ranges. -/
def sameOutside (debug : Bool) (ranges : List Range) (fromElf inMemory : List UInt8) : Bool :=
  if debug then
    (List.range fromElf.length).all fun i =>
      ranges.any (fun r => decide (r.1 ≤ i ∧ i < r.2)) || fromElf[i]? == inMemory[i]?
  else
    (ranges.map fun r => (⟨r.1, (inMemory.drop r.1).take (r.2 - r.1)⟩ : Edit)).foldl Edit.apply fromElf == inMemory

/-- The section of that name which is loaded and not empty. -/
def Elf.loadedSection : Option SectionHeader :=
  elf.shdrs.find? fun s => s.shFlags &&& shfAlloc != 0 && decide (0 < s.shSize) && elf.sectionName s.shName == some target

/-- One round of the loop: whether the section in memory passes. -/
def validateSection (debug : Bool) (elf : Elf) (memory : ModuleMemory) (data : List UInt8) (target : String) :
    Except Failure Bool :=
  match memory.findSectionByName target with
  | none => .error (.error .sectionNotFound)
  | some container =>
    match elf.loadedSection target with
    | none => if container = [] then .ok true else .error (.error .sectionNotFound)
    | some shdr =>
      if container = [] then .ok false
      else if usizeLimit ≤ shdr.shOffset + shdr.shSize then .error (.error .elfParseFailed)
      else
        match slice? data shdr.shOffset shdr.shSize with
        | none => .error .panic
        | some fromElf => do
          let direct ← identifyDirectRelocations debug elf target fromElf.length []
          let ranges ← identifyIndirectRelocations debug elf target fromElf direct
          if container.length < fromElf.length then .error .panic
          else pure (sameOutside debug ranges fromElf (container.take fromElf.length))

def validateKernelModuleAgainstElf (debug : Bool) (parse : List UInt8 → Option Elf) (memory : ModuleMemory)
    (data : List UInt8) : Except Failure Bool :=
  match parse data with
  | none => .error (.error .elfParseFailed)
  | some elf =>
    sectionsToValidate.foldlM (fun result target =>
      (validateSection debug elf memory data target).map (result && ·)) true

/-! ## What the relocations name -/

/-- A relocation of `.rela<target>` whose symbol exists. -/
def DirectEntry (rela : Rela) : Prop :=
  ∃ shdr relas, elf.directSection target = some shdr ∧ elf.relas shdr = some relas ∧ rela ∈ relas ∧ elf.symtab[rela.rSym]?.isSome

/-- A relocation of the allowed section `shdr` whose symbol is an unnamed one of the target. -/
def IndirectEntry (shdr : SectionHeader) (rela : Rela) : Prop :=
  shdr ∈ elf.indirectSections ∧ ∃ relas, elf.relas shdr = some relas ∧ rela ∈ relas ∧
    ∃ symbol, elf.symtab[rela.rSym]? = some symbol ∧ elf.unnamedIn target symbol = true

/-- The relocation changes `size` bytes at `start`, in a section of `length` bytes. -/
def Covers (rela : Rela) (start size length : ℕ) : Prop :=
  relocSize rela.rType = some size ∧ start + size ≤ length

/-- An offset in a range that the module's relocation entries name for the target section. -/
def Named (length i : ℕ) : Prop :=
  ∃ rela start size, Covers rela start size length ∧ start ≤ i ∧ i < start + size ∧
    (DirectEntry elf target rela ∧ rela.rOffset = start ∨ ∃ shdr, IndirectEntry elf target shdr rela ∧ rela.rAddend = start)

/-- The `nop` before an alternative instruction. -/
def SpareNop (section_ : List UInt8) (i : ℕ) : Prop :=
  section_[i]? = some 0x90 ∧ ∃ shdr rela size, IndirectEntry elf target shdr rela ∧ rela.rAddend = (i + 1 : ℕ) ∧
    Covers rela (i + 1) size section_.length ∧ elf.sectionName shdr.shName = some altinstructions

/-- The section in memory is the one of the file, up to the bytes its relocations name. -/
inductive Faithful (elf : Elf) (container data : List UInt8) (target : String) : Prop where
  | absent (header : elf.loadedSection target = none) (memory : container = [])
  | loaded (shdr : SectionHeader) (header : elf.loadedSection target = some shdr)
      (length : container.length = shdr.shSize)
      (same : ∀ i, i < shdr.shSize → ¬Named elf target shdr.shSize i → container[i]? = data[shdr.shOffset + i]?)

/-- Every relocation looked at for the target is of a supported type. -/
def Supported : Prop :=
  ∀ rela, (DirectEntry elf target rela ∨ ∃ shdr, IndirectEntry elf target shdr rela) → (relocSize rela.rType).isSome

/-- The condition on one section that is present in the file and in memory. -/
structure Fits (debug : Bool) (elf : Elf) (container data : List UInt8) (target : String) (shdr : SectionHeader) : Prop where
  inFile : shdr.shOffset + shdr.shSize ≤ data.length
  length : container.length = shdr.shSize
  supported : debug = true → Supported elf target
  nops : ∀ i, SpareNop elf target ((data.drop shdr.shOffset).take shdr.shSize) i → container[i]? = some 0x90

def AllFit (debug : Bool) (elf : Elf) (memory : ModuleMemory) (data : List UInt8) : Prop :=
  ∀ target ∈ sectionsToValidate, ∀ container, memory.findSectionByName target = some container → container ≠ [] →
    ∀ shdr, elf.loadedSection target = some shdr → Fits debug elf container data target shdr

/-! ## The ranges are named -/

/-- The ranges found so far lie in the section and hold named bytes or spare `nop`s only. -/
def Justified (section_ : List UInt8) (ranges : List Range) : Prop :=
  ∀ r ∈ ranges, r.1 ≤ r.2 ∧ r.2 ≤ section_.length ∧
    ∀ i, r.1 ≤ i → i < r.2 → Named elf target section_.length i ∨ SpareNop elf target section_ i

abbrev NoPanic (failure : Failure) : Prop := failure ≠ .panic

theorem rangeWithin_eq_some {start size length : ℕ} {r : Range} (found : rangeWithin start size length = some r) :
    r = (start, start + size) ∧ start + size ≤ length := by
  unfold rangeWithin at found
  split at found
  · next within => exact ⟨(Option.some.inj found).symm, within.2⟩
  · cases found

variable {debug : Bool} {elf : Elf} {target : String} {section_ : List UInt8}
variable {ranges : List Range} {shdr : SectionHeader} {rela : Rela}

theorem Justified.append {more : List Range} (first : Justified elf target section_ ranges)
    (second : Justified elf target section_ more) : Justified elf target section_ (ranges ++ more) :=
  forall_mem_append.mpr ⟨first, second⟩

theorem noPanic_unsupported {rType : ℕ} (supported : debug = true → (relocSize rType).isSome)
    (unknown : relocSize rType = none) : NoPanic (unsupported debug) := by
  cases debug with
  | false => exact nofun
  | true => simp [unknown] at supported

section

variable (supported : debug = true → Supported elf target)

include supported

variable {relas : List Rela}

theorem directStep_yields (header : elf.directSection target = some shdr)
    (entries : elf.relas shdr = some relas) (member : rela ∈ relas) (justified : Justified elf target section_ ranges) :
    Yields NoPanic (Justified elf target section_) (directStep debug elf section_.length ranges rela) := by
  unfold directStep
  split
  · exact justified
  next symbol =>
  have entry : DirectEntry elf target rela :=
    ⟨shdr, relas, header, entries, member, by simpa [Option.isSome_iff_ne_none] using symbol⟩
  split
  · next unknown => exact noPanic_unsupported (fun isDebug => supported isDebug rela (.inl entry)) unknown
  · next size known =>
    refine justified.append fun r found => ?_
    obtain ⟨rfl, within⟩ := rangeWithin_eq_some (Option.mem_toList.mp found)
    exact ⟨Nat.le_add_right _ _, within, fun i low high =>
      .inl ⟨rela, rela.rOffset, size, ⟨known, within⟩, low, high, .inl ⟨entry, rfl⟩⟩⟩

theorem identifyDirectRelocations_yields :
    Yields NoPanic (Justified elf target section_) (identifyDirectRelocations debug elf target section_.length []) := by
  unfold identifyDirectRelocations
  split
  · exact nofun
  split
  · exact nofun
  next shdr header =>
  split
  · exact nofun
  next relas entries =>
  apply Yields.foldlM
  · exact nofun
  · intro ranges rela member justified
    exact directStep_yields supported header entries member justified

omit supported in
theorem nopBefore_justified {size : ℕ} (entry : IndirectEntry elf target shdr rela)
    (nonneg : 0 ≤ rela.rAddend) (covers : Covers rela rela.rAddend.toNat size section_.length) :
    Justified elf target section_ (nopBefore elf shdr section_ rela.rAddend.toNat) := by
  intro r spare
  unfold nopBefore at spare
  split at spare
  · next alternative =>
    obtain rfl := mem_singleton.mp spare
    obtain ⟨name, pos, nop⟩ := alternative
    refine ⟨Nat.sub_le _ _, (Nat.le_add_right _ _).trans covers.2, fun i low high => .inr ?_⟩
    obtain rfl : i = rela.rAddend.toNat - 1 := by
      simp only at low high
      omega
    refine ⟨nop, shdr, rela, size, entry, by omega, ?_, name⟩
    rwa [Nat.sub_add_cancel pos]
  · cases spare

theorem indirectStep_yields (allowed : shdr ∈ elf.indirectSections)
    (entries : elf.relas shdr = some relas) (member : rela ∈ relas) (justified : Justified elf target section_ ranges) :
    Yields NoPanic (Justified elf target section_) (indirectStep debug elf target section_ shdr ranges rela) := by
  unfold indirectStep
  split
  · exact nofun
  next nonneg =>
  split
  · exact justified
  next symbol present =>
  split
  · next unnamed =>
    have entry : IndirectEntry elf target shdr rela := ⟨allowed, relas, entries, member, symbol, present, unnamed⟩
    split
    · next unknown => exact noPanic_unsupported (fun isDebug => supported isDebug rela (.inr ⟨shdr, entry⟩)) unknown
    next size known =>
    split
    · exact justified
    next range found =>
    obtain ⟨rfl, within⟩ := rangeWithin_eq_some found
    have covers : Covers rela rela.rAddend.toNat size section_.length := ⟨known, within⟩
    have addend : rela.rAddend = (rela.rAddend.toNat : ℤ) := by omega
    refine (justified.append ?_).append (nopBefore_justified entry (by omega) covers)
    rintro r single
    obtain rfl := mem_singleton.mp single
    exact ⟨Nat.le_add_right _ _, within, fun i low high =>
      .inl ⟨rela, _, size, covers, low, high, .inr ⟨shdr, entry, addend⟩⟩⟩
  · exact justified

theorem identifyIndirectRelocations_yields
    (justified : Justified elf target section_ ranges) :
    Yields NoPanic (Justified elf target section_) (identifyIndirectRelocations debug elf target section_ ranges) := by
  unfold identifyIndirectRelocations
  apply foldlM justified
  intro ranges shdr allowed justified
  split
  · exact nofun
  next relas entries =>
  apply foldlM justified
  intro ranges rela member justified
  exact indirectStep_yields supported allowed entries member justified

end

/-! ## Comparing a section -/

/-- Sections that pass agree outside the ranges. -/
theorem sameOutside_spec {fromElf inMemory : List UInt8}
    (length : inMemory.length = fromElf.length) (within : ∀ r ∈ ranges, r.1 ≤ r.2 ∧ r.2 ≤ fromElf.length)
    (same : sameOutside debug ranges fromElf inMemory = true) {i : ℕ} (inside : i < fromElf.length)
    (outside : ∀ r ∈ ranges, ¬(r.1 ≤ i ∧ i < r.2)) : inMemory[i]? = fromElf[i]? := by
  unfold sameOutside at same
  split at same
  · have here := all_eq_true.mp same i (mem_range.mpr inside)
    simp only [Bool.or_eq_true, any_eq_true, decide_eq_true_eq, beq_iff_eq] at here
    obtain ⟨r, member, covered⟩ | same := here
    · exact absurd covered (outside r member)
    · exact same.symm
  · rw [← beq_iff_eq.mp same]
    apply Edit.foldl_apply_outside
    · intro edit member
      obtain ⟨r, found, rfl⟩ := mem_map.mp member
      have := within r found
      simp only [Edit.stop, length_take, length_drop]
      omega
    · intro edit member
      obtain ⟨r, found, rfl⟩ := mem_map.mp member
      have apart := outside r found
      have := within r found
      simp only [Edit.Misses, Edit.stop, length_take, length_drop]
      omega

theorem validateSection_yields {memory : ModuleMemory} {container data : List UInt8}
    (found : memory.findSectionByName target = some container)
    (fits : container ≠ [] → ∀ shdr, elf.loadedSection target = some shdr → Fits debug elf container data target shdr) :
    Yields NoPanic (fun passes => passes = true → Faithful elf container data target)
      (validateSection debug elf memory data target) := by
  simp only [validateSection, found]
  split
  · next header =>
    split
    · next empty => exact fun _ => .absent header empty
    · exact nofun
  next shdr header =>
  split
  · exact nofun
  next present =>
  obtain ⟨inFile, length, supported, nops⟩ := fits present shdr header
  split
  · exact nofun
  rw [slice?_of_le inFile]
  have sectionLength : ((data.drop shdr.shOffset).take shdr.shSize).length = shdr.shSize := by
    rw [length_take, length_drop]
    omega
  apply bind (identifyDirectRelocations_yields supported)
  intro direct justified
  apply bind (identifyIndirectRelocations_yields supported justified)
  intro ranges justified
  rw [if_neg (by omega), sectionLength, ← length, take_length]
  intro same
  refine .loaded shdr header length fun i inside unnamed => ?_
  have fromFile : ((data.drop shdr.shOffset).take shdr.shSize)[i]? = data[shdr.shOffset + i]? := by
    rw [getElem?_take_of_lt inside, getElem?_drop]
  by_cases spare : SpareNop elf target ((data.drop shdr.shOffset).take shdr.shSize) i
  · rw [nops i spare, ← fromFile, spare.1]
  · rw [← fromFile]
    apply sameOutside_spec (by omega) (fun r member => ⟨(justified r member).1, (justified r member).2.1⟩)
      (length ▸ same) (by omega)
    intro r member covered
    obtain named | nop := (justified r member).2.2 i covered.1 covered.2
    · exact unnamed (sectionLength ▸ named)
    · exact spare nop

/-! ## The whole module -/

/-- The rounds of the loop together: a pass is a pass of every section. -/
theorem foldlM_passes (validate : String → Except Failure Bool) (faithful : String → Prop) (targets : List String) (start : Bool)
    (each : ∀ target ∈ targets, Yields NoPanic (fun passes => passes = true → faithful target) (validate target)) :
    Yields NoPanic (fun passes => passes = true → start = true ∧ ∀ target ∈ targets, faithful target)
      (targets.foldlM (fun result target => (validate target).map (result && ·)) start) := by
  induction targets generalizing start with
  | nil => exact fun passes => ⟨passes, nofun⟩
  | cons target targets ih =>
    rw [foldlM_cons]
    have head := each target mem_cons_self
    cases round : validate target with
    | error failure =>
      rw [round] at head
      exact head
    | ok passes =>
      rw [round] at head
      apply (ih (start && passes) fun later member => each later (mem_cons_of_mem _ member)).imp
      intro result all true
      obtain ⟨both, rest⟩ := all true
      rw [Bool.and_eq_true] at both
      exact ⟨both.1, forall_mem_cons.mpr ⟨head both.2, rest⟩⟩

/-- Validation returns, and what it passes is the signed module. -/
def Sound (debug : Bool) (parse : List UInt8 → Option Elf) (memory : ModuleMemory) (data : List UInt8) : Prop :=
  validateKernelModuleAgainstElf debug parse memory data ≠ .error .panic ∧
    (validateKernelModuleAgainstElf debug parse memory data = .ok true → ∃ elf, parse data = some elf ∧
      ∀ target ∈ sectionsToValidate, ∃ container, memory.findSectionByName target = some container ∧
        Faithful elf container data target)

theorem ModuleMemory.findSectionByName_isSome (memory : ModuleMemory) {target : String}
    (validated : target ∈ sectionsToValidate) : ∃ container, memory.findSectionByName target = some container := by
  simp only [sectionsToValidate, mem_cons, not_mem_nil, or_false] at validated
  obtain rfl | rfl | rfl := validated
  · exact ⟨memory.text, rfl⟩
  · exact ⟨memory.initText, rfl⟩
  · exact ⟨memory.initRodata, rfl⟩

/-- A module with a `.text` of `size` bytes at the start of the file and one `PC32` relocation in it, at 4. -/
def textModule (size : ℕ) : Elf where
  shdrs := [⟨1, 1, shfAlloc, 0, size⟩, ⟨2, shtRela, 0, 0, 24⟩]
  sectionName
    | 1 => some ".text"
    | 2 => some ".rela.text"
    | _ => none
  symtab := [⟨0, 0⟩]
  symbolName _ := some ""
  relas _ := some [⟨4, 0, 2, 0⟩]

def textModuleData : List UInt8 := [1, 2, 3, 4, 5, 6, 7, 8]

theorem textModule_fits : AllFit true (textModule 8) ⟨[1, 2, 3, 4, 9, 9, 9, 9], [], []⟩ textModuleData := by
  intro target validated container found present shdr header
  simp only [sectionsToValidate, mem_cons, not_mem_nil, or_false] at validated
  obtain rfl | rfl | rfl := validated
  · cases found
    cases header
    refine ⟨by decide, by decide, fun _ rela entry => ?_, ?_⟩
    · obtain ⟨shdr, relas, -, entries, member, -⟩ | ⟨shdr, -, relas, entries, member, -⟩ := entry
      all_goals
        cases entries
        obtain rfl := mem_singleton.mp member
        decide
    · rintro i ⟨-, shdr, rela, size, ⟨allowed, -⟩, -⟩
      exact absurd allowed (by decide +revert)
  · cases header
  · cases header

end LiteBox.Vsm
