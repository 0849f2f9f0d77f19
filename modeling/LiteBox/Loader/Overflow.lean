import LiteBox.Loader.Contained
import LiteBox.Loader.Parse

/-! # Overflows of the loader

The headers are checked before the base address is added and before ends are rounded to pages, and the
sizes in the dynamic section are not checked at all.
-/

namespace LiteBox.Loader

open Prog List LoadHost

open Mm (usizeMax)

variable {page : ℕ}

/-- Nothing overflows at any base address the mapper can answer. -/
def ElfParsedFile.NoOverflow (image : ElfParsedFile page) (options : LoadOptions) (limit : ℕ) : Prop :=
  match image.header.eType with
  | .exec => SafeAt image options 0
  | .dyn => ∀ r, image.reservation = some r → cowPaddingHint options.cowAlignment r.firstSegmentOffset ≠ none ∧
      ∀ base, page ∣ base → base + r.span ≤ limit → SafeAt image options base

/-- The program ends with a value or an error, whatever the mapper and the memory answer. -/
def LoadReports (image : ElfParsedFile page) (options : LoadOptions) (limit : ℕ) : Prop :=
  ∀ host : LoadHost Errno, host.Lawful page limit → ∀ failure, (load host image options []).1 = .error failure → Reported failure

theorem not_reported_panic {ε : Type} (what : String) : ¬Reported (.panic what : Halt ε) := nofun

/-! ## What is enough -/

section Sufficient

variable {host : LoadHost Errno} {image : ElfParsedFile page} {options : LoadOptions} {base : ℕ}

theorem loadAt_reports (positive : 0 < page) (safe : SafeAt image options base) (log : List LoadCall) {failure : Halt (ElfLoadError Errno)}
    (failed : (loadAt host image options base log).1 = .error failure) : Reported failure := by
  have triple := @loadAt_triple _ _ base host (fun _ => True) image positive options (fun _ _ _ _ _ => trivial) (fun _ _ => trivial)
    (fun valid relocates dynamic isDynamic => .inl (safe.dynamic valid relocates dynamic isDynamic).2) fun _ _ _ _ => trivial
  exact (triple.of_error (fun _ _ => trivial) (Prod.ext failed rfl)).2 safe

end Sufficient

/-! ## What is needed -/

section Necessary

variable {image : ElfParsedFile page} {options : LoadOptions} {base limit : ℕ} {start : List LoadCall} (positive : 0 < page)
  (reports : ∀ memory failure, (loadAt (.granting limit base memory) image options base start).1 = .error failure → Reported failure)

include positive reports

theorem segments_fit : ∀ ph ∈ reached image.ptLoads, loadEnd page base ph ≤ usizeMax := by
  by_contra large
  obtain ⟨log, ran⟩ := @segments_granting_overflow _ page limit base (fun _ _ => []) image.header ⟨0, 0⟩ positive large start
  refine not_reported_panic _ (reports (fun _ _ => []) overflow ?_)
  rw [loadAt, bind_of_error ran]

/-- The state before the relocations, if no segment is refused. -/
theorem loadAt_relocating (valid : ∀ ph ∈ image.ptLoads, ph.valid = true) (memory : ℕ → ℕ → List UInt8) :
    ∃ (progress : Progress) (log : List LoadCall), progress.brk = brkOf page base image.ptLoads 0 ∧ loadAt (.granting limit base memory) image options base start =
      (when (options.applyRelocations = true) (applyRelocations (.granting limit base memory) image base) >>= fun _ =>
        finish (.granting limit base memory) page image.trampoline options.reserveTrampoline
          ⟨base, progress.brk, (base + image.header.eEntry) % 2 ^ 64, progress.phdrsAddr, image.header.ePhnum⟩) log := by
  obtain ⟨result, ran, succeeds⟩ :=
    @segments_granting _ page limit base memory image.header ⟨0, 0⟩ positive (segments_fit positive reports) start
  obtain ⟨progress, rfl, brk⟩ := succeeds valid
  exact ⟨progress, _, brk, by rw [loadAt, bind_of_ok ran]⟩

theorem dynamic_fits (valid : ∀ ph ∈ image.ptLoads, ph.valid = true) (relocates : options.applyRelocations = true) :
    ∀ dynamic ∈ image.dynamicHeader, base + dynamic.pVaddr ≤ usizeMax ∧ dynamic.pMemsz < twoDynEntries := by
  intro dynamic isDynamic
  -- the table that the section names is larger than any allocation
  let memory : ℕ → ℕ → List UInt8 := fun _ len => relaSection 0 usizeMax (len - twoDynEntries)
  obtain ⟨progress, log, -, ran⟩ := loadAt_relocating positive reports valid memory
  have answers : ∀ failure, (applyRelocations (.granting limit base memory) image base log).1 = .error failure → Reported failure := by
    intro failure failed
    refine reports memory failure ?_
    rw [ran, when, if_pos relocates, bind_of_error (Prod.ext failed rfl)]
  simp only [applyRelocations, Option.mem_def.mp isDynamic] at answers
  by_cases small : dynamic.pMemsz ≤ maxAllocation
  · by_cases fits : base + dynamic.pVaddr ≤ usizeMax
    · refine ⟨fits, ?_⟩
      by_contra long
      have length : (relaSection 0 usizeMax (dynamic.pMemsz - twoDynEntries)).length = dynamic.pMemsz := by
        rw [relaSection_length]
        omega
      have bytes : (memory (base + dynamic.pVaddr) dynamic.pMemsz ++ replicate dynamic.pMemsz 0).take dynamic.pMemsz =
          relaSection 0 usizeMax (dynamic.pMemsz - twoDynEntries) := take_left' length
      rw [readTable_of_le small fits, bind_of_ok (reads_granting _ _ log), bytes, applyTable_relaSection (by decide) (by decide),
        applyRelaTable, readTable_of_large (by decide)] at answers
      exact not_reported_panic _ (answers _ rfl)
    · rw [readTable_of_overflow small (not_le.mp fits), fail_bind_eq] at answers
      exact absurd (answers _ rfl) (not_reported_panic _)
  · rw [readTable_of_large (not_le.mp small), fail_bind_eq] at answers
    exact absurd (answers _ rfl) (not_reported_panic _)

omit positive reports in
/-- A dynamic section without a table. -/
theorem applyRelocations_granting (memory : ℕ → ℕ → List UInt8)
    (short : ∀ dynamic ∈ image.dynamicHeader, base + dynamic.pVaddr ≤ usizeMax ∧ dynamic.pMemsz < twoDynEntries) (log : List LoadCall) :
    ∃ after, applyRelocations (.granting limit base memory) image base log = (.ok (), after) := by
  simp only [applyRelocations]
  cases header : image.dynamicHeader with
  | none => exact ⟨log, rfl⟩
  | some dynamic =>
    obtain ⟨fits, small⟩ := short dynamic header
    have allocated : dynamic.pMemsz ≤ maxAllocation := by
      simp only [twoDynEntries, maxAllocation] at small ⊢
      omega
    simp only [readTable_of_le allocated fits]
    rw [bind_of_ok (reads_granting _ _ log), applyTable_of_short (by simpa using small) (by decide),
      applyTable_of_short (by simpa using small) (by decide)]
    exact ⟨_, rfl⟩

theorem safeAt_of_reports : SafeAt image options base := by
  refine ⟨segments_fit positive reports, dynamic_fits positive reports, fun valid => ?_⟩
  obtain ⟨progress, log, brk, ran⟩ := loadAt_relocating positive reports valid fun _ _ => []
  obtain ⟨after, relocated⟩ : ∃ after, when (options.applyRelocations = true)
      (applyRelocations (.granting limit base fun _ _ => []) image base) log = (.ok (), after) := by
    by_cases relocates : options.applyRelocations = true
    · rw [when, if_pos relocates]
      exact applyRelocations_granting _ (dynamic_fits positive reports valid relocates) log
    · exact ⟨log, by rw [when, if_neg relocates]; rfl⟩
  rw [bind_of_ok relocated] at ran
  have answers := reports fun _ _ => []
  rw [ran] at answers
  rw [← brk]
  by_contra large
  rw [finish_overflow large] at answers
  exact not_reported_panic _ (answers _ rfl)

end Necessary

/-- Parsing never overflows. Loading does not if, at every base address the mapper can answer, the rounded ends of the
segments and of the trampoline and the address of the dynamic section are addresses, and the dynamic section
has no room for a table. -/
theorem loader_reports_iff {P : Type} {limit : ℕ} (sized : page ∈ pageSizes) (library : ElfLibrary P) (machine : UInt16)
    (image : ElfParsedFile page) (options : LoadOptions) :
    ((∀ (F E : Type) (file : ReadAt F E), Prog.Raises Reported (parse library machine file : ParseProg F P E (ElfParsedFile page)) ∧
        Prog.Raises Reported (interp image file : ParseProg F P E (Option (List UInt8)))) ∧ LoadReports image options limit) ↔
      image.NoOverflow options limit := by
  have positive : 0 < page := by
    simp only [pageSizes, mem_cons, not_mem_nil, or_false] at sized
    omega
  have parsed (F E : Type) (file : ReadAt F E) : Prog.Raises Reported (parse library machine file : ParseProg F P E (ElfParsedFile page)) ∧
      Prog.Raises Reported (interp image file : ParseProg F P E (Option (List UInt8))) :=
    ⟨fun _ _ failed => (parse_answers library machine file).of_error trivial (Prod.ext failed rfl),
      fun _ _ failed => (interp_answers file image).of_error trivial (Prod.ext failed rfl)⟩
  rw [and_iff_right parsed]
  rw [ElfParsedFile.NoOverflow, LoadReports]
  cases kind : image.header.eType with
  | exec =>
    have same (host : LoadHost Errno) : load host image options = loadAt host image options 0 := by
      rw [load_eq, baseAddr, kind]
      rfl
    simp only [same]
    refine ⟨fun reports => ?_, fun safe host _ failure failed => loadAt_reports positive safe [] failed⟩
    exact safeAt_of_reports positive fun memory => reports _ (granting_lawful (Nat.dvd_zero page) memory)
  | dyn =>
    constructor
    · intro reports r reservation
      cases hinted : cowPaddingHint options.cowAlignment r.firstSegmentOffset with
      | none =>
        have stops : (load (.granting limit 0 fun _ _ => []) image options []).1 =
            .error (.panic "attempt to calculate the remainder with a divisor of zero") := by
          rw [load_eq, baseAddr, kind]
          simp only [reservation, ofOption, pure_bind_eq, hinted]
          rfl
        exact absurd (reports _ (granting_lawful (Nat.dvd_zero page) _) _ stops) (not_reported_panic _)
      | some hint =>
        refine ⟨by simp, fun base aligned fits => ?_⟩
        have answers (memory failure) := reports _ (granting_lawful aligned memory) failure
        simp only [load_of_reserved kind reservation hinted (granting_reserves fits _ [] r.align hint)] at answers
        exact safeAt_of_reports positive answers
    · intro safe host lawful failure failed
      cases reservation : image.reservation with
      | none =>
        rw [load_eq, baseAddr, kind] at failed
        simp only [reservation] at failed
        cases failed
        exact ⟨_, rfl⟩
      | some r =>
        obtain ⟨hasHint, safe⟩ := safe r reservation
        obtain ⟨hint, hinted⟩ := Option.ne_none_iff_exists'.mp hasHint
        cases granted : host.reserve [] r.span r.align hint with
        | error cause =>
          rw [load_eq, baseAddr_of_dyn kind reservation hinted] at failed
          simp only [reserved, ask, granted, bind_apply, Except.mapError] at failed
          cases failed
          exact ⟨_, rfl⟩
        | ok base =>
          obtain ⟨aligned, fits⟩ := lawful.reserved _ _ _ _ _ granted
          rw [load_of_reserved kind reservation hinted granted] at failed
          exact loadAt_reports positive (safe base aligned fits) _ failed

/-- A library that refuses every header. -/
def refusingLibrary : ElfLibrary Unit := ⟨fun _ => .error (), fun _ => .error (), fun _ => []⟩

theorem loader_reports_iff_onePage : 4096 ∈ pageSizes ∧ LoadReports (onePage 0 (by decide)) plainOptions (2 ^ 47) := by
  have safe : (onePage 0 (by decide)).NoOverflow plainOptions (2 ^ 47) := by
    intro r reservation
    have known : (onePage 0 (by decide)).reservation = some ⟨0, 0x1000, 0x1000, some 0⟩ := by decide +kernel
    cases known.symm.trans reservation
    refine ⟨nofun, fun base aligned fits => ⟨fun ph member => ?_, fun _ relocates => (by cases relocates), fun _ => trivial⟩⟩
    have single := mem_singleton.mp (takeWhile_sublist _ |>.mem member)
    subst single
    have stop : alignUp 4096 (0 + 0x1000) = 0x1000 := by decide
    rw [loadEnd_eq (by decide) aligned, stop]
    simp only [Reservation.span, usizeMax] at fits ⊢
    omega
  exact ⟨by decide, ((loader_reports_iff (by decide) refusingLibrary 62 _ _).mpr safe).2⟩

theorem rounding_overflows : (load (.granting (2 ^ 47) 0 fun _ _ => []) lastPage plainOptions []).1 =
    .error (.panic "attempt to add with overflow") := rfl

end LiteBox.Loader
