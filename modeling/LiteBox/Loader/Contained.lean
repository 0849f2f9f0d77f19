import LiteBox.Loader.Relocations

/-! # What a position-independent image touches

The reservation is as long as the image from its lowest to its highest address, and the segments are placed
at the base address plus their own. They stay in the reservation if they would do so at base address zero.
A relocation writes wherever its table says.
-/

namespace LiteBox.Loader

open List Prog Nat LoadCall LoadHost

open Mm (usizeMax)
open Bytes (leValue leBytes)

/-- Whether a call maps, protects or changes an address. -/
def LoadCall.touches : LoadCall → ℕ → Prop
  | .mapFile address len _ _, a | .mapZero address len _, a | .protect address len _, a | .zero address len, a =>
    address ≤ a ∧ a < address + len
  | .write address bytes, a => address ≤ a ∧ a < address + bytes.length
  | .reserve .., _ | .read .., _ => False

/-- A mapper reserves pages below a limit. -/
structure LoadHost.Lawful {E : Type} (host : LoadHost E) (page limit : ℕ) : Prop where
  reserved : ∀ log len align hint base, host.reserve log len align hint = .ok base → page ∣ base ∧ base + len ≤ limit

variable {page : ℕ} (image : ElfParsedFile page)

def ElfParsedFile.InTrampoline (base a : ℕ) : Prop :=
  ∃ found ∈ image.trampoline, base + found.vaddr ≤ a ∧ a < trampolineEnd page base found

/-- An address of the reservation or of the trampoline. -/
def ElfParsedFile.Inside (r : Reservation) (base a : ℕ) : Prop :=
  (base ≤ a ∧ a < base + r.span) ∨ image.InTrampoline base a

/-- Every call after a successful reservation stays inside. -/
def Contained {E : Type} (host : LoadHost E) (image : ElfParsedFile page) (options : LoadOptions) : Prop :=
  ∀ r hint base, image.reservation = some r → cowPaddingHint options.cowAlignment r.firstSegmentOffset = some hint →
    host.reserve [] r.span r.align hint = .ok base →
      ∀ call ∈ (load host image options []).2, ∀ a, call.touches a → image.Inside r base a

/-- The pages of a segment, relative to the base address, are below the length of the reservation or in the
trampoline. -/
def ElfParsedFile.SegmentFits (r : Reservation) (ph : ProgramHeader) : Prop :=
  ∀ a, alignDown page ph.pVaddr ≤ a → a < alignUp page (ph.pVaddr + ph.pMemsz) → a < r.span ∨ image.InTrampoline 0 a

/-- The segments fit as far as they are loaded, and the dynamic section has no room for a relocation table. -/
structure ElfParsedFile.Containable (image : ElfParsedFile page) (options : LoadOptions) (r : Reservation) : Prop where
  segments : ∀ ph ∈ reached image.ptLoads, image.SegmentFits r ph
  dynamic : (∀ ph ∈ image.ptLoads, ph.valid = true) → options.applyRelocations = true →
    ∀ dynamic ∈ image.dynamicHeader, dynamic.pMemsz < twoDynEntries ∨ maxAllocation < dynamic.pMemsz

/-! ## The pages of a segment -/

section Pages

variable {base : ℕ} {ph : ProgramHeader} (positive : 0 < page)

include positive

theorem loadStart_eq (aligned : page ∣ base) : loadStart page base ph = base + alignDown page ph.pVaddr := alignDown_add positive aligned _

theorem loadEnd_eq (aligned : page ∣ base) : loadEnd page base ph = base + alignUp page (ph.pVaddr + ph.pMemsz) := by
  rw [loadEnd, add_assoc, alignUp_add positive aligned]

/-- The calls for a segment touch its pages and nothing else. -/
theorem segmentCalls_touch_iff (valid : ph.valid = true) (a : ℕ) :
    (∃ call ∈ segmentCalls page base ph, call.touches a) ↔ loadStart page base ph ≤ a ∧ a < loadEnd page base ph := by
  obtain ⟨smaller, -, -⟩ := ProgramHeader.valid_iff.mp valid
  have start : loadStart page base ph ≤ base + ph.pVaddr := alignDown_le page _
  have inFile : base + ph.pVaddr + ph.pFilesz ≤ fileEnd page base ph := le_alignUp positive _
  have ordered : fileEnd page base ph ≤ loadEnd page base ph := alignUp_mono (by omega)
  have file : (∃ call ∈ fileCalls page base ph, call.touches a) ↔ loadStart page base ph ≤ a ∧ a < fileEnd page base ph := by
    by_cases tail : zeroesTail page base ph
    · rw [fileCalls, if_pos tail]
      simp only [exists_mem_cons_iff, not_mem_nil, false_and, exists_false, or_false, touches]
      omega
    · rw [fileCalls, if_neg tail]
      simp only [exists_mem_cons_iff, not_mem_nil, false_and, exists_false, or_false, touches]
      omega
  have zero : (∃ call ∈ [mapZero (fileEnd page base ph) (loadEnd page base ph - fileEnd page base ph) ph.prot], call.touches a) ↔
      fileEnd page base ph ≤ a ∧ a < loadEnd page base ph := by
    simp only [exists_mem_cons_iff, not_mem_nil, false_and, exists_false, or_false, touches]
    omega
  simp only [segmentCalls, mem_append, or_and_right, exists_or]
  by_cases mapped : fileEnd page base ph > loadStart page base ph <;> by_cases zeroed : loadEnd page base ph > fileEnd page base ph <;>
    simp only [mapped, zeroed, if_true, if_false, file, zero, not_mem_nil, false_and, exists_false, or_false, false_or, false_iff,
      not_and, not_lt]
  all_goals omega

end Pages

/-! ## The trampoline -/

section Trampoline

variable {base : ℕ} {image : ElfParsedFile page} {found : TrampolineInfo} (positive : 0 < page)

include positive

theorem trampolineEnd_eq (aligned : page ∣ base) : trampolineEnd page base found = base + trampolineEnd page 0 found := by
  rw [trampolineEnd, trampolineEnd, add_assoc, alignUp_add positive aligned, zero_add]

theorem inTrampoline_add (aligned : page ∣ base) (a : ℕ) : image.InTrampoline base (base + a) ↔ image.InTrampoline 0 a := by
  refine exists_congr fun found => and_congr_right fun _ => ?_
  rw [trampolineEnd_eq positive aligned]
  omega

/-- The entry point is written into the first page of the trampoline. -/
theorem trampolineCalls_touch (wide : 8 ≤ page) (aligned : page ∣ base) (isFound : found ∈ image.trampoline) :
    ∀ call ∈ trampolineCalls page base found, ∀ a, call.touches a → image.InTrampoline base a := by
  obtain ⟨nonempty, start⟩ := image.trampoline_valid found isFound
  have stop : trampolineEnd page base found = base + found.vaddr + alignUp page found.size :=
    alignUp_add positive (dvd_add aligned start) _
  have room : page ≤ alignUp page found.size :=
    le_of_dvd (nonempty.trans_le (le_alignUp positive _)) (dvd_alignUp page _)
  intro call member a touched
  refine ⟨found, isFound, ?_⟩
  simp only [trampolineCalls, mem_cons, not_mem_nil, or_false] at member
  obtain rfl | rfl | rfl := member <;> simp only [touches, Bytes.leBytes_length] at touched <;> omega

end Trampoline

/-! ## Hosts -/

section Base

variable {E : Type} {host : LoadHost E} {image : ElfParsedFile page} {options : LoadOptions} {r : Reservation} {hint base : ℕ}
  (isDyn : image.header.eType = .dyn) (reservation : image.reservation = some r)
  (hinted : cowPaddingHint options.cowAlignment r.firstSegmentOffset = some hint)

include isDyn reservation hinted

theorem baseAddr_of_dyn : baseAddr host image options = host.reserved r.span r.align hint := by
  rw [baseAddr, isDyn]
  simp [reservation, hinted, ofOption, pure_bind_eq]

theorem load_of_reserved (granted : host.reserve [] r.span r.align hint = .ok base) :
    load host image options [] = loadAt host image options base [.reserve r.span r.align hint] := by
  rw [load_eq, baseAddr_of_dyn isDyn reservation hinted]
  refine bind_of_ok ?_
  simp only [reserved, ask, granted]
  rfl

end Base

theorem LoadHost.granting_lawful {limit base : ℕ} (aligned : page ∣ base) (memory : ℕ → ℕ → List UInt8) :
    (granting limit base memory).Lawful page limit := by
  refine ⟨fun log len align hint other granted => ?_⟩
  simp only [granting] at granted
  split at granted
  · next fits =>
    cases granted
    exact ⟨aligned, fits⟩
  · cases granted

theorem LoadHost.granting_reserves {limit base len : ℕ} (fits : base + len ≤ limit) (memory : ℕ → ℕ → List UInt8)
    (log : List LoadCall) (align hint : ℕ) : (granting limit base memory).reserve log len align hint = .ok base := if_pos fits

/-! ## Containment -/

section Sufficient

variable {E : Type} {host : LoadHost E} {image : ElfParsedFile page} {options : LoadOptions} {r : Reservation} {base limit : ℕ}

theorem loadAt_inside (wide : 8 ≤ page) (aligned : page ∣ base) (containable : image.Containable options r) {log : List LoadCall}
    (before : ∀ call ∈ log, ∀ a, call.touches a → image.Inside r base a) :
    ∀ call ∈ (loadAt host image options base log).2, ∀ a, call.touches a → image.Inside r base a := by
  have positive : 0 < page := by omega
  refine (@loadAt_triple _ _ _ host (fun call => ∀ a, call.touches a → image.Inside r base a) image positive options ?_ ?_
    containable.dynamic ?_).state before (fun _ _ all => all) fun _ _ failed => failed.1
  · intro ph member _ call isCall a touched
    have valid : ph.valid = true := mem_takeWhile_imp member
    obtain ⟨low, high⟩ := (segmentCalls_touch_iff positive valid a).mp ⟨call, isCall, touched⟩
    rw [loadStart_eq positive aligned] at low
    rw [loadEnd_eq positive aligned] at high
    obtain ⟨offset, rfl⟩ := Nat.exists_eq_add_of_le ((Nat.le_add_right _ _).trans low)
    obtain below | trampoline := containable.segments ph member offset (by omega) (by omega)
    · exact .inl ⟨by omega, by omega⟩
    · exact .inr ((inTrampoline_add positive aligned offset).mpr trampoline)
  · exact fun _ _ _ => nofun
  · exact fun found isFound call isCall a touched => .inr (trampolineCalls_touch positive wide aligned isFound call isCall a touched)

end Sufficient

/-! ## Escapes -/

section Granted

variable {image : ElfParsedFile page} {options : LoadOptions} {r : Reservation} {limit : ℕ} {memory : ℕ → ℕ → List UInt8}

/-- At base address zero the whole image fits below the highest address. -/
theorem loadEnd_zero_le (reserved : image.Reserved r) : ∀ ph ∈ reached image.ptLoads, loadEnd page 0 ph ≤ usizeMax := by
  intro ph member
  obtain ⟨-, -, high⟩ := reserved.segments ph (takeWhile_sublist _ |>.mem member)
  rw [loadEnd, zero_add]
  exact high.trans reserved.fits

theorem segment_logged (positive : 0 < page) (reserved : image.Reserved r) {ph : ProgramHeader} (member : ph ∈ reached image.ptLoads)
    {call : LoadCall} (isCall : call ∈ segmentCalls page 0 ph) (log : List LoadCall) :
    call ∈ (loadAt (.granting limit 0 memory) image options 0 log).2 := by
  obtain ⟨result, ran, -⟩ := @segments_granting _ page limit 0 memory image.header ⟨0, 0⟩ positive (loadEnd_zero_le reserved) log
  refine logged_after ?_ fun grows _ => .bind (.when (applyRelocations_keeps grows image)) fun _ => finish_keeps grows _ _ _
  rw [ran]
  exact mem_append_right _ (mem_flatMap.mpr ⟨ph, member, isCall⟩)

/-- A table with one relocation. -/
def oneRela (target : ℕ) : List UInt8 := leBytes 8 target ++ (leBytes 8 rX8664Relative ++ leBytes 8 0)

/-- A file whose dynamic section names the table at its beginning. -/
def relocating (target : ℕ) : ℕ → ℕ → List UInt8 := fun _ len =>
  if len = relaSize then oneRela target else relaSection 0 relaSize (len - twoDynEntries)

variable {target : ℕ}

theorem relaEntries_oneRela (fits : target < 2 ^ 64) : relaEntries (oneRela target) = [⟨target, rX8664Relative, 0⟩] := by
  have length : (oneRela target).length / relaSize = 1 := by simp [oneRela, relaSize]
  have third : wordAt (oneRela target) 2 = 0 := by
    rw [oneRela, wordAt_leBytes_succ, wordAt_leBytes_succ, ← append_nil (leBytes 8 0), wordAt_leBytes (by decide)]
  simp only [relaEntries, length, range_one, map_cons, map_nil, mul_zero, zero_add, third]
  rw [oneRela, wordAt_leBytes fits, wordAt_leBytes_succ, wordAt_leBytes (by decide)]

variable {dynamic : ProgramHeader}

theorem write_logged (fits : target ≤ usizeMax) (isDynamic : dynamic ∈ image.dynamicHeader)
    (long : twoDynEntries ≤ dynamic.pMemsz) (small : dynamic.pMemsz ≤ maxAllocation) (log : List LoadCall) :
    .write target (leBytes 8 0) ∈ (applyRelocations (.granting limit 0 (relocating target)) image 0 log).2 := by
  have bound : (usizeMax : ℕ) < 2 ^ 64 := by decide
  have length : (relaSection 0 relaSize (dynamic.pMemsz - twoDynEntries)).length = dynamic.pMemsz := by
    rw [relaSection_length]
    omega
  have differs : dynamic.pMemsz ≠ relaSize := by
    simp only [twoDynEntries, relaSize] at long ⊢
    omega
  have bytes : (relocating target (0 + dynamic.pVaddr) dynamic.pMemsz ++ List.replicate dynamic.pMemsz 0).take dynamic.pMemsz =
      relaSection 0 relaSize (dynamic.pMemsz - twoDynEntries) := by
    rw [relocating, if_neg differs]
    exact take_left' length
  have table : (relocating target (0 + 0) relaSize ++ List.replicate relaSize 0).take relaSize = oneRela target := by
    rw [relocating, if_pos rfl]
    exact take_left' (by simp [oneRela, relaSize])
  simp only [applyRelocations, Option.mem_def.mp isDynamic]
  rw [readTable_of_le small (by rw [zero_add]; exact dynamic.vaddr_le), bind_of_ok (reads_granting _ _ log), bytes,
    applyTable_relaSection (by decide) (by decide)]
  refine logged_after ?_ fun grows _ => applyTable_keeps (applyRelrTable_keeps grows) _ _ _ _
  rw [applyRelaTable, readTable_of_le (by decide) (by decide)]
  simp only [when, Option.any_none, Bool.false_eq_true, if_false, pure_bind_eq]
  rw [bind_of_ok (reads_granting _ _ _), table, relaEntries_oneRela (by omega)]
  have written (log : List LoadCall) : applyRela (.granting limit 0 (relocating target)) 0 ⟨target, rX8664Relative, 0⟩ log =
      (.ok (), log ++ [.write target (leBytes 8 0)]) := by
    simp [applyRela, checkedAdd, when, rX8664Relative, bind_apply, not_lt.mpr fits]
  rw [forM_cons_of_ok (written _)]
  exact mem_append_right _ (mem_singleton_self _)

/-- A dynamic section with room for a table can have a write past the end of the image. -/
theorem relocation_logged (positive : 0 < page) (reserved : image.Reserved r) (valid : ∀ ph ∈ image.ptLoads, ph.valid = true)
    (relocates : options.applyRelocations = true) (isDynamic : dynamic ∈ image.dynamicHeader)
    (long : twoDynEntries ≤ dynamic.pMemsz) (small : dynamic.pMemsz ≤ maxAllocation) (log : List LoadCall) :
    .write r.max (leBytes 8 0) ∈ (loadAt (.granting limit 0 (relocating r.max)) image options 0 log).2 := by
  obtain ⟨result, ran, succeeds⟩ :=
    @segments_granting _ page limit 0 (relocating r.max) image.header ⟨0, 0⟩ positive (loadEnd_zero_le reserved) log
  obtain ⟨progress, rfl, -⟩ := succeeds valid
  rw [loadAt, bind_of_ok ran, when, if_pos relocates]
  exact logged_after (write_logged reserved.fits isDynamic long small _) fun grows _ => finish_keeps grows _ _ _

/-- The end of the image is outside of it. -/
theorem not_inside_max (reserved : image.Reserved r) : ¬image.Inside r 0 r.max := by
  rintro (⟨-, below⟩ | ⟨found, isFound, -, below⟩)
  · have ordered := reserved.ordered
    simp only [Reservation.span] at below
    omega
  · have high := reserved.trampoline found isFound
    rw [trampolineEnd, zero_add] at below
    omega

end Granted

/-- Where the segments of a position-independent image would fit at base address zero, and no relocation table
can be named, all calls of `load` stay in the reservation and the trampoline. Nowhere else. -/
theorem load_contained_iff {limit : ℕ} (sized : page ∈ pageSizes) (image : ElfParsedFile page) (options : LoadOptions)
    (isDyn : image.header.eType = .dyn) :
    (∀ host : LoadHost Errno, host.Lawful page limit → Contained host image options) ↔
      ∀ r hint, image.reservation = some r → cowPaddingHint options.cowAlignment r.firstSegmentOffset = some hint → r.span ≤ limit →
        image.Containable options r := by
  have wide : 8 ≤ page := by
    simp only [pageSizes, mem_cons, not_mem_nil, or_false] at sized
    omega
  have positive : 0 < page := by omega
  constructor
  · intro contained r hint reservation hinted small
    have reserved := ElfParsedFile.reserved_of_reservation reservation
    have inside (memory : ℕ → ℕ → List UInt8) : ∀ call ∈ (loadAt (.granting limit 0 memory) image options 0 [.reserve r.span r.align hint]).2,
        ∀ a, call.touches a → image.Inside r 0 a := by
      have granted := granting_reserves (show 0 + r.span ≤ limit by omega) memory [] r.align hint
      rw [← load_of_reserved isDyn reservation hinted granted]
      exact contained _ (granting_lawful (dvd_zero page) memory) r hint 0 reservation hinted granted
    refine ⟨fun ph member a low high => ?_, fun valid relocates dynamic isDynamic => ?_⟩
    · have valid : ph.valid = true := mem_takeWhile_imp member
      obtain ⟨call, isCall, touched⟩ := (@segmentCalls_touch_iff page 0 ph positive valid a).mpr (by
        rw [loadStart_eq positive (dvd_zero page), loadEnd_eq positive (dvd_zero page)]
        omega)
      obtain below | trampoline := inside (fun _ _ => []) call (segment_logged positive reserved member isCall _) a touched
      · exact .inl (by omega)
      · exact .inr trampoline
    · by_contra room
      push Not at room
      refine not_inside_max reserved (inside _ _ (relocation_logged positive reserved valid relocates isDynamic room.1 room.2 _) _ ?_)
      simp [touches]
  · intro containable host lawful r hint base reservation hinted granted
    obtain ⟨aligned, fits⟩ := lawful.reserved _ _ _ _ _ granted
    rw [load_of_reserved isDyn reservation hinted granted]
    refine loadAt_inside wide aligned (containable r hint reservation hinted (by omega)) ?_
    intro call member
    rw [mem_singleton.mp member]
    simp [touches]

/-- An image of one page, without relocations. -/
def onePage (vaddr : ℕ) (fits : vaddr ≤ usizeMax) : ElfParsedFile 4096 where
  header := ⟨.dyn, vaddr, 0, 1⟩
  programHeaders := [⟨.load, 5, 0, vaddr, 0x1000, 0x1000, 0x1000, by decide, fits, by decide, by decide⟩]
  trampoline := none
  trampoline_valid := nofun

/-- A segment in the last page of the address space, whose rounded end is not an address. -/
def lastPage : ElfParsedFile 4096 where
  header := ⟨.exec, 0, 0, 1⟩
  programHeaders := [⟨.load, 5, 0, 0xfffffffffffff000, 0x800, 0x800, 0x1000, by decide, by decide, by decide, by decide⟩]
  trampoline := none
  trampoline_valid := nofun

def plainOptions : LoadOptions := ⟨none, false, none⟩

theorem load_contained_iff_onePage : (onePage 0 (by decide)).header.eType = .dyn ∧
    ∀ host : LoadHost Errno, host.Lawful 4096 usizeMax → Contained host (onePage 0 (by decide)) plainOptions := by
  refine ⟨rfl, (load_contained_iff (by decide) _ plainOptions rfl).mpr fun r hint reservation _ _ => ⟨fun ph member a _ high => ?_, ?_⟩⟩
  · have known : (onePage 0 (by decide)).reservation = some ⟨0, 0x1000, 0x1000, some 0⟩ := by decide +kernel
    cases known.symm.trans reservation
    have single := mem_singleton.mp (takeWhile_sublist _ |>.mem member)
    subst single
    exact .inl high
  · exact fun _ relocates => by cases relocates

/-- An image linked at 4 MiB is mapped 4 MiB above its reservation. -/
theorem foreign_mapped : ¬Contained (.granting (2 ^ 47) 0x7f0000000000 fun _ _ => []) (onePage 0x400000 (by decide)) plainOptions := by
  intro contained
  have reservation : (onePage 0x400000 (by decide)).reservation = some ⟨0x400000, 0x401000, 0x1000, some 0⟩ := by decide +kernel
  have mapped : .mapFile 0x7f0000400000 0x1000 0 ⟨true, false, true⟩ ∈
      (load (.granting (2 ^ 47) 0x7f0000000000 fun _ _ => []) (onePage 0x400000 (by decide)) plainOptions []).2 := by decide +kernel
  obtain ⟨-, below⟩ | ⟨found, isFound, -⟩ := contained _ 0 0x7f0000000000 reservation rfl rfl _ mapped 0x7f0000400000 ⟨by decide, by decide⟩
  · exact absurd below (by decide)
  · cases isFound

end LiteBox.Loader
