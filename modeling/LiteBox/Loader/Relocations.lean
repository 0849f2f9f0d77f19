import LiteBox.Loader.LoadSpec

/-! # Relocations, the trampoline and the whole of `load`

A dynamic section of one entry names no table. One with room for two can name any table of any size, since
its contents are up to the file. `loadAt_triple` puts the rules of all the steps together.
-/

namespace LiteBox.Loader

open List Prog Bytes

open Mm (usizeMax)
open Bytes (leValue leBytes)

variable {E : Type} {page base : ℕ} {host : LoadHost E} {good : LoadCall → Prop}

/-! ## Reading tables -/

theorem reads_triple (address len : ℕ) (isGood : good (.read address len)) : Prog.Triple (Clean good) (host.reads address len)
      (fun bytes log => Clean good log ∧ bytes.length = len) (fun failure log => Clean good log ∧ Reported failure) := by
  refine ask_triple_of isGood fun log value answered => ?_
  cases read : host.read log address len with
  | none =>
    rw [read] at answered
    cases answered
  | some bytes =>
    rw [read] at answered
    cases answered
    simp

variable {size vaddr : ℕ}

theorem readTable_of_le (small : size ≤ maxAllocation) (fits : base + vaddr ≤ usizeMax) :
    readTable host base vaddr size = host.reads (base + vaddr) size := by
  rw [readTable, when, if_neg (not_lt.mpr small), add_of_le fits]
  rfl

theorem readTable_of_large (large : maxAllocation < size) :
    readTable host base vaddr size = fail (.panic "capacity overflow") := by
  rw [readTable, when, if_pos large]
  rfl

theorem readTable_of_overflow (small : size ≤ maxAllocation) (large : usizeMax < base + vaddr) :
    readTable host base vaddr size = fail overflow := by
  rw [readTable, when, if_neg (not_lt.mpr small), add_of_gt large]
  rfl

/-- A table is read, unless it is too large or its address overflows. -/
theorem readTable_triple (vaddr size : ℕ) (isGood : ∀ address, good (.read address size)) :
    Prog.Triple (Clean good) (readTable host base vaddr size) (fun bytes log => Clean good log ∧ bytes.length = size)
      (fun failure log => Clean good log ∧ (size ≤ maxAllocation → base + vaddr ≤ usizeMax → Reported failure)) := by
  by_cases large : maxAllocation < size
  · rw [readTable_of_large large]
    exact .fail fun log all => ⟨all, fun small => absurd large (not_lt.mpr small)⟩
  by_cases fits : base + vaddr ≤ usizeMax
  · rw [readTable_of_le (not_lt.mp large) fits]
    exact (reads_triple _ _ (isGood _)).imp (fun _ all => all) (fun _ _ kept => kept) fun _ _ failed => ⟨failed.1, fun _ _ => failed.2⟩
  · rw [readTable_of_overflow (not_lt.mp large) (not_le.mp fits)]
    exact .fail fun log all => ⟨all, fun _ small => absurd small fits⟩

/-! ## The dynamic section -/

/-- Two entries of 16 bytes each. -/
def twoDynEntries : ℕ := 32

theorem dynValue_mem {entries : List (ℕ × ℕ)} {tag value : ℕ} (found : dynValue entries tag = some value) : (tag, value) ∈ entries := by
  obtain ⟨entry, isEntry, rfl⟩ := Option.map_eq_some_iff.mp found
  have member := mem_reverse.mp (mem_of_find?_eq_some isEntry)
  have same : entry.1 = tag := by simpa using find?_some isEntry
  rwa [← same]

/-- One entry does not give both the address and the size of a table. -/
theorem applyTable_of_short {bytes : List UInt8} (short : bytes.length < twoDynEntries) {vaddrTag sizeTag : ℕ} (differ : vaddrTag ≠ sizeTag)
    (entrySizeTag : ℕ) (apply : ℕ → ℕ → Option ℕ → LoadProg E Unit) :
    applyTable (dynEntries bytes) vaddrTag sizeTag entrySizeTag apply = pure () := by
  have one : (dynEntries bytes).length ≤ 1 := by
    simp only [dynEntries, length_map, length_range]
    simp only [twoDynEntries] at short
    omega
  simp only [applyTable]
  cases vaddr : dynValue (dynEntries bytes) vaddrTag with
  | none => rfl
  | some a =>
    cases size : dynValue (dynEntries bytes) sizeTag with
    | none => rfl
    | some b =>
      match entries : dynEntries bytes, one with
      | [], _ =>
        rw [entries] at vaddr
        cases dynValue_mem vaddr
      | [entry], _ =>
        rw [entries] at vaddr size
        have first := mem_singleton.mp (dynValue_mem vaddr)
        have second := mem_singleton.mp (dynValue_mem size)
        exact absurd (congrArg Prod.fst (first.trans second.symm)) differ

variable {image : ElfParsedFile page}

theorem applyRelocations_triple (isGood : ∀ address size, good (.read address size))
    (short : ∀ dynamic ∈ image.dynamicHeader, dynamic.pMemsz < twoDynEntries ∨ maxAllocation < dynamic.pMemsz) :
    Prog.Triple (Clean good) (applyRelocations host image base) (fun _ => Clean good)
      (fun failure log => Clean good log ∧
        ((∀ dynamic ∈ image.dynamicHeader, base + dynamic.pVaddr ≤ usizeMax ∧ dynamic.pMemsz < twoDynEntries) → Reported failure)) := by
  simp only [applyRelocations]
  cases header : image.dynamicHeader with
  | none => exact .pure fun _ all => all
  | some dynamic =>
    obtain small | large := short dynamic header
    · refine .bind (.imp (readTable_triple _ _ fun address => isGood address _) (fun _ all => all) (fun _ _ kept => kept)
        fun failure log failed => ⟨failed.1, fun fits => failed.2 ?_ (fits dynamic rfl).1⟩) fun bytes => .given fun length => ?_
      · simp only [twoDynEntries, maxAllocation] at small ⊢
        omega
      · rw [applyTable_of_short (length ▸ small) (by decide), pure_bind_eq, applyTable_of_short (length ▸ small) (by decide)]
        exact .pure fun _ all => all
    · simp only [readTable_of_large large, fail_bind_eq]
      refine .fail fun log all => ⟨all, fun fits => ?_⟩
      have small := (fits dynamic rfl).2
      simp only [twoDynEntries, maxAllocation] at small large
      omega

/-! ## A dynamic section of the file's choice -/

theorem leValue_replicate (count : ℕ) : leValue (replicate count 0) = 0 := by
  induction count with
  | zero => rfl
  | succ count ih => simp [replicate_succ, leValue, ih]

theorem wordAt_append {front back : List UInt8} {words : ℕ} (length : front.length = 8 * words) (index : ℕ) :
    wordAt (front ++ back) (words + index) = wordAt back index := by
  rw [wordAt, wordAt, drop_append, drop_eq_nil_of_le (by omega), nil_append]
  congr 3
  omega

theorem wordAt_leBytes {value : ℕ} (fits : value < 2 ^ 64) (rest : List UInt8) : wordAt (leBytes 8 value ++ rest) 0 = value := by
  have front : (leBytes 8 value ++ rest).take 8 = leBytes 8 value := take_left' (leBytes_length 8 value)
  rw [wordAt, Nat.mul_zero, drop_zero, front, leValue_leBytes]
  exact Nat.mod_eq_of_lt fits

theorem wordAt_leBytes_succ (value : ℕ) (rest : List UInt8) (index : ℕ) :
    wordAt (leBytes 8 value ++ rest) (index + 1) = wordAt rest index := by
  rw [Nat.add_comm, wordAt_append (by rw [leBytes_length])]

theorem wordAt_replicate (count index : ℕ) : wordAt (replicate count 0) index = 0 := by
  rw [wordAt, drop_replicate, take_replicate, leValue_replicate]

theorem dynEntries_cons {tag value : ℕ} (fits : tag < 2 ^ 64) (fits' : value < 2 ^ 64) (rest : List UInt8) :
    dynEntries (leBytes 8 tag ++ (leBytes 8 value ++ rest)) = (tag, value) :: dynEntries rest := by
  have count : (leBytes 8 tag ++ (leBytes 8 value ++ rest)).length / 16 = rest.length / 16 + 1 := by
    simp only [length_append, leBytes_length]
    omega
  rw [dynEntries, count, range_succ_eq_map, map_cons, map_map]
  refine congrArg₂ cons ?_ (map_congr_left fun i _ => ?_)
  · rw [Nat.mul_zero, wordAt_leBytes fits, wordAt_leBytes_succ, wordAt_leBytes fits']
  · simp only [Function.comp_apply]
    rw [show 2 * (i + 1) = 2 * i + 1 + 1 by omega, wordAt_leBytes_succ, wordAt_leBytes_succ, wordAt_leBytes_succ, wordAt_leBytes_succ]

theorem dynEntries_replicate (count : ℕ) : dynEntries (replicate count 0) = replicate (count / 16) (0, 0) := by
  simp [dynEntries, wordAt_replicate, map_const']

/-- A dynamic section with one table of full relocations, and zeros behind it. -/
def relaSection (vaddr size more : ℕ) : List UInt8 :=
  leBytes 8 dtRela ++ (leBytes 8 vaddr ++ (leBytes 8 dtRelasz ++ (leBytes 8 size ++ replicate more 0)))

theorem relaSection_length (vaddr size more : ℕ) : (relaSection vaddr size more).length = twoDynEntries + more := by
  simp only [relaSection, length_append, leBytes_length, length_replicate, twoDynEntries]
  omega

section Section

variable {vaddr size : ℕ} (fits : vaddr < 2 ^ 64) (fits' : size < 2 ^ 64) (more : ℕ)

include fits fits'

theorem dynEntries_relaSection :
    dynEntries (relaSection vaddr size more) = (dtRela, vaddr) :: (dtRelasz, size) :: replicate (more / 16) (0, 0) := by
  rw [relaSection, dynEntries_cons (by decide) fits, dynEntries_cons (by decide) fits', dynEntries_replicate]

theorem dynValue_relaSection (tag : ℕ) (isTag : tag ≠ 0) : dynValue (dynEntries (relaSection vaddr size more)) tag =
    if tag = dtRelasz then some size else if tag = dtRela then some vaddr else none := by
  have zeros : (replicate (more / 16) (0, 0)).find? (fun entry : ℕ × ℕ => decide (entry.1 = tag)) = none := by
    simp only [find?_eq_none, mem_replicate]
    rintro _ ⟨-, rfl⟩
    simpa using isTag.symm
  rw [dynEntries_relaSection fits fits', dynValue, reverse_cons, reverse_cons, reverse_replicate, find?_append,
    find?_append, zeros]
  by_cases isSize : tag = dtRelasz
  · simp [isSize]
  · by_cases isVaddr : tag = dtRela
    · simp [isVaddr, dtRela, dtRelasz]
    · simp [isSize, isVaddr, Ne.symm isSize, Ne.symm isVaddr]

/-- A section of this kind leads to its table. -/
theorem applyTable_relaSection (host : LoadHost E) :
    applyTable (dynEntries (relaSection vaddr size more)) dtRela dtRelasz dtRelaent (applyRelaTable host base) =
      applyRelaTable host base vaddr size none := by
  simp only [applyTable, dynValue_relaSection fits fits' more dtRela (by decide), dynValue_relaSection fits fits' more dtRelasz (by decide),
    dynValue_relaSection fits fits' more dtRelaent (by decide)]
  rfl

end Section

/-! ## The trampoline -/

/-- The end of the pages of a trampoline. -/
def trampolineEnd (page base : ℕ) (trampoline : TrampolineInfo) : ℕ := alignUp page (base + trampoline.vaddr + trampoline.size)

def trampolineCalls (page base : ℕ) (trampoline : TrampolineInfo) : List LoadCall :=
  let start := base + trampoline.vaddr
  let len := trampolineEnd page base trampoline - start
  [.mapFile start len trampoline.fileOffset ⟨true, true, false⟩, .write start (leBytes 8 trampoline.syscallEntryPoint),
    .protect start len ⟨true, false, true⟩]

section Finish

variable {trampoline : TrampolineInfo} {info : MappingInfo}

theorem loadTrampoline_overflow (large : usizeMax < trampolineEnd page info.baseAddr trampoline) :
    loadTrampoline host page trampoline info = fail overflow := by
  rw [loadTrampoline]
  by_cases first : info.baseAddr + trampoline.vaddr ≤ usizeMax
  · rw [add_of_le first, pure_bind_eq]
    by_cases second : info.baseAddr + trampoline.vaddr + trampoline.size ≤ usizeMax
    · rw [add_of_le second, pure_bind_eq, pageAlignUp_of_gt large, fail_bind_eq]
    · rw [add_of_gt (not_le.mp second), fail_bind_eq]
  · rw [add_of_gt (not_le.mp first), fail_bind_eq]

theorem loadTrampoline_triple (positive : 0 < page) (each : ∀ call ∈ trampolineCalls page info.baseAddr trampoline, good call) :
    Prog.Triple (Clean good) (loadTrampoline host page trampoline info) (fun _ => Clean good)
      (fun failure log => Clean good log ∧ (trampolineEnd page info.baseAddr trampoline ≤ usizeMax → Reported failure)) := by
  by_cases fits : trampolineEnd page info.baseAddr trampoline ≤ usizeMax
  · have inMemory := (le_alignUp positive (info.baseAddr + trampoline.vaddr + trampoline.size)).trans fits
    obtain ⟨maps, writes, protects, -⟩ : good _ ∧ good _ ∧ good _ ∧ _ := by simpa only [trampolineCalls, forall_mem_cons] using each
    rw [loadTrampoline, add_of_le (by omega), pure_bind_eq, add_of_le inMemory, pure_bind_eq, pageAlignUp_of_le fits, pure_bind_eq]
    exact reported_if _ <| .bind (ask_triple maps) fun _ => .bind (ask_triple writes) fun _ => .bind (ask_triple protects) fun _ =>
      .pure fun _ all => all
  · rw [loadTrampoline_overflow (not_le.mp fits)]
    exact .fail fun _ all => ⟨all, fun small => absurd small fits⟩

theorem reserveRuntimeTrampoline_of_gt (large : usizeMax < alignUp page info.brk + alignUp page size) :
    (reserveRuntimeTrampoline page size info : LoadProg E MappingInfo) = fail overflow := by
  rw [reserveRuntimeTrampoline]
  by_cases first : alignUp page info.brk ≤ usizeMax
  · rw [pageAlignUp_of_le first, pure_bind_eq]
    by_cases second : alignUp page size ≤ usizeMax
    · rw [pageAlignUp_of_le second, pure_bind_eq, add_of_gt large, fail_bind_eq]
    · rw [pageAlignUp_of_gt (not_le.mp second), fail_bind_eq]
  · rw [pageAlignUp_of_gt (not_le.mp first), fail_bind_eq]

theorem reserveRuntimeTrampoline_of_le (fits : alignUp page info.brk + alignUp page size ≤ usizeMax) :
    (reserveRuntimeTrampoline page size info : LoadProg E MappingInfo) = pure { info with brk := alignUp page info.brk + alignUp page size } := by
  rw [reserveRuntimeTrampoline, pageAlignUp_of_le (by omega), pure_bind_eq, pageAlignUp_of_le (by omega), pure_bind_eq, add_of_le fits,
    pure_bind_eq]

/-- The end of the trampoline is an address, whether it is in the file or made at run time. -/
def EndFits (page : ℕ) (trampoline : Option TrampolineInfo) (reserveTrampoline : Option ℕ) (base brk : ℕ) : Prop :=
  match trampoline, reserveTrampoline with
  | some found, _ => trampolineEnd page base found ≤ usizeMax
  | none, some size => alignUp page brk + alignUp page size ≤ usizeMax
  | none, none => True

variable {reserveTrampoline : Option ℕ}

theorem finish_overflow {trampoline : Option TrampolineInfo}
    (large : ¬EndFits page trampoline reserveTrampoline info.baseAddr info.brk) :
    finish host page trampoline reserveTrampoline info = fail overflow := by
  match trampoline, reserveTrampoline with
  | some _, _ => exact loadTrampoline_overflow (not_le.mp large)
  | none, some _ => exact reserveRuntimeTrampoline_of_gt (not_le.mp large)
  | none, none => exact absurd trivial large

theorem finish_triple (positive : 0 < page) {trampoline : Option TrampolineInfo}
    (each : ∀ found ∈ trampoline, ∀ call ∈ trampolineCalls page info.baseAddr found, good call) :
    Prog.Triple (Clean good) (finish host page trampoline reserveTrampoline info) (fun _ => Clean good)
      (fun failure log => Clean good log ∧
        (EndFits page trampoline reserveTrampoline info.baseAddr info.brk → Reported failure)) := by
  match trampoline, reserveTrampoline with
  | some found, _ => exact loadTrampoline_triple positive (each found rfl)
  | none, none => exact .pure fun _ all => all
  | none, some size =>
    simp only [finish, EndFits]
    by_cases fits : alignUp page info.brk + alignUp page size ≤ usizeMax
    · rw [reserveRuntimeTrampoline_of_le fits]
      exact .pure fun _ all => all
    · rw [reserveRuntimeTrampoline_of_gt (not_le.mp fits)]
      exact .fail fun _ all => ⟨all, fun small => absurd small fits⟩

end Finish

/-! ## The log only grows -/

section Grows

variable {inv : List LoadCall → Prop} (grows : ∀ log call, inv log → inv (log ++ [call]))

include grows

theorem ask_keeps {α : Type} (call : LoadCall) (answer : List LoadCall → Except (ElfLoadError E) α) : Prog.Keeps inv (ask call answer) := by
  intro log holds
  simp only [ask]
  cases answer log <;> exact grows log call holds

omit grows in
theorem add_keeps (a b : ℕ) : Prog.Keeps inv (add a b : LoadProg E ℕ) := .bind (.when (.fail _)) fun _ => .pure _

omit grows in
theorem pageAlignUp_keeps (page a : ℕ) : Prog.Keeps inv (pageAlignUp page a : LoadProg E ℕ) := .bind (.when (.fail _)) fun _ => .pure _

omit grows in
theorem checkedAdd_keeps (a b : ℕ) : Prog.Keeps inv (checkedAdd a b : LoadProg E ℕ) := .bind (.when (.fail _)) fun _ => .pure _

theorem readTable_keeps (vaddr size : ℕ) : Prog.Keeps inv (readTable host base vaddr size) :=
  .bind (.when (.fail _)) fun _ => .bind (add_keeps _ _) fun _ => ask_keeps grows _ _

theorem relocateWord_keeps (address : ℕ) : Prog.Keeps inv (relocateWord host base address) :=
  .bind (checkedAdd_keeps _ _) fun _ => .bind (ask_keeps grows _ _) fun _ => ask_keeps grows _ _

theorem applyRelr_keeps (current word : ℕ) : Prog.Keeps inv (applyRelr host base current word) := by
  rw [applyRelr]
  split
  · exact .bind (relocateWord_keeps grows _) fun _ => add_keeps _ _
  · exact .bind (.forM fun _ _ => .when (.bind (add_keeps _ _) fun _ => relocateWord_keeps grows _)) fun _ => add_keeps _ _

theorem applyRelrTable_keeps (vaddr size : ℕ) (entrySize : Option ℕ) : Prog.Keeps inv (applyRelrTable host base vaddr size entrySize) :=
  .bind (.when (.fail _)) fun _ => .bind (.when (.fail _)) fun _ => .bind (readTable_keeps grows _ _) fun _ =>
    .bind (.foldlM fun _ _ => applyRelr_keeps grows _ _) fun _ => .pure _

theorem applyRelaTable_keeps (vaddr size : ℕ) (entrySize : Option ℕ) : Prog.Keeps inv (applyRelaTable host base vaddr size entrySize) :=
  .bind (.when (.fail _)) fun _ => .bind (readTable_keeps grows _ _) fun _ =>
    .forM fun _ _ => .when (.bind (checkedAdd_keeps _ _) fun _ => ask_keeps grows _ _)

omit grows in
theorem applyTable_keeps {apply : ℕ → ℕ → Option ℕ → LoadProg E Unit} (each : ∀ vaddr size entrySize, Prog.Keeps inv (apply vaddr size entrySize))
    (entries : List (ℕ × ℕ)) (vaddrTag sizeTag entrySizeTag : ℕ) :
    Prog.Keeps inv (applyTable entries vaddrTag sizeTag entrySizeTag apply) := by
  rw [applyTable]
  split
  · exact each _ _ _
  · exact .pure _

theorem applyRelocations_keeps (image : ElfParsedFile page) : Prog.Keeps inv (applyRelocations host image base) := by
  rw [applyRelocations]
  split
  · exact .pure _
  · exact .bind (readTable_keeps grows _ _) fun _ => .bind (applyTable_keeps (applyRelaTable_keeps grows) _ _ _ _) fun _ =>
      applyTable_keeps (applyRelrTable_keeps grows) _ _ _ _

theorem finish_keeps (trampoline : Option TrampolineInfo) (reserveTrampoline : Option ℕ) (info : MappingInfo) :
    Prog.Keeps inv (finish host page trampoline reserveTrampoline info) := by
  match trampoline, reserveTrampoline with
  | some _, _ =>
    exact .bind (add_keeps _ _) fun _ => .bind (add_keeps _ _) fun _ => .bind (pageAlignUp_keeps _ _) fun _ =>
      .bind (ask_keeps grows _ _) fun _ => .bind (ask_keeps grows _ _) fun _ => .bind (ask_keeps grows _ _) fun _ => .pure _
  | none, some _ => exact .bind (pageAlignUp_keeps _ _) fun _ => .bind (pageAlignUp_keeps _ _) fun _ => .bind (add_keeps _ _) fun _ => .pure _
  | none, none => exact .pure _

end Grows

/-- A call that is logged before the rest of a program is logged after it. -/
theorem logged_after {α β : Type} {call : LoadCall} {first : LoadProg E α} {next : α → LoadProg E β} {log : List LoadCall}
    (logged : call ∈ (first log).2)
    (rest : (∀ log other, call ∈ log → call ∈ log ++ [other]) → ∀ value, Prog.Keeps (fun log => call ∈ log) (next value)) :
    call ∈ ((first >>= next) log).2 :=
  @Prog.Keeps.after _ _ _ _ log first next (fun log => call ∈ log) logged (rest fun _ _ known => mem_append_left _ known)

/-! ## All of it -/

/-- What `load` does once it knows the base address. -/
def loadAt (host : LoadHost E) (image : ElfParsedFile page) (options : LoadOptions) (base : ℕ) : LoadProg E MappingInfo := do
  let progress ← image.ptLoads.foldlM (loadSegment host page image.header base) ⟨0, 0⟩
  when (options.applyRelocations = true) (applyRelocations host image base)
  finish host page image.trampoline options.reserveTrampoline
    ⟨base, progress.brk, (base + image.header.eEntry) % 2 ^ 64, progress.phdrsAddr, image.header.ePhnum⟩

theorem load_eq (host : LoadHost E) (image : ElfParsedFile page) (options : LoadOptions) :
    load host image options = baseAddr host image options >>= loadAt host image options := rfl

/-- Nothing overflows at a base address, whatever the dynamic section contains. -/
structure SafeAt (image : ElfParsedFile page) (options : LoadOptions) (base : ℕ) : Prop where
  segments : ∀ ph ∈ reached image.ptLoads, loadEnd page base ph ≤ usizeMax
  dynamic : (∀ ph ∈ image.ptLoads, ph.valid = true) → options.applyRelocations = true →
    ∀ dynamic ∈ image.dynamicHeader, base + dynamic.pVaddr ≤ usizeMax ∧ dynamic.pMemsz < twoDynEntries
  stop : (∀ ph ∈ image.ptLoads, ph.valid = true) →
    EndFits page image.trampoline options.reserveTrampoline base (brkOf page base image.ptLoads 0)

theorem loadAt_triple (positive : 0 < page) {options : LoadOptions}
    (segments : ∀ ph ∈ reached image.ptLoads, loadEnd page base ph ≤ usizeMax → ∀ call ∈ segmentCalls page base ph, good call)
    (reads : ∀ address size, good (.read address size))
    (short : (∀ ph ∈ image.ptLoads, ph.valid = true) → options.applyRelocations = true →
      ∀ dynamic ∈ image.dynamicHeader, dynamic.pMemsz < twoDynEntries ∨ maxAllocation < dynamic.pMemsz)
    (trampoline : ∀ found ∈ image.trampoline, ∀ call ∈ trampolineCalls page base found, good call) :
    Prog.Triple (Clean good) (loadAt host image options base) (fun _ => Clean good)
      (fun failure log => Clean good log ∧ (SafeAt image options base → Reported failure)) := by
  refine .bind (reported_imp (fun safe => safe.segments) (segments_triple positive segments _)) fun progress =>
    .given fun ⟨valid, brk⟩ => ?_
  refine .bind (.when (fun relocates => reported_imp (fun safe => safe.dynamic valid relocates)
    (applyRelocations_triple reads (short valid relocates))) fun _ _ all => all) fun _ => ?_
  exact reported_imp (fun safe => brk ▸ safe.stop valid) (finish_triple positive trampoline)

end LiteBox.Loader
