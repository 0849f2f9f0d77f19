import Mathlib.Data.List.TakeWhile
import LiteBox.Errno
import LiteBox.Loader.Load

/-! # What the steps of `load` do

A segment is refused, overflows, or issues the calls of its pages. The rules below say so for any host, and
for one that grants everything.
-/

namespace LiteBox.Loader

open List Prog Nat LoadHost

open Mm (usizeMax)

variable {E : Type}

/-! ## Pages -/

section Pages

variable {page : ℕ}

theorem alignDown_le (page a : ℕ) : alignDown page a ≤ a := div_mul_le_self a page

theorem dvd_alignUp (page a : ℕ) : page ∣ alignUp page a := Dvd.intro_left _ rfl

theorem dvd_alignDown (page a : ℕ) : page ∣ alignDown page a := Dvd.intro_left _ rfl

theorem alignUp_mono {a b : ℕ} (le : a ≤ b) : alignUp page a ≤ alignUp page b :=
  Nat.mul_le_mul_right _ (Nat.div_le_div_right (Nat.add_le_add_right le _))

variable (positive : 0 < page)

include positive

theorem le_alignUp (a : ℕ) : a ≤ alignUp page a := by
  have bound := lt_div_mul_add (a := a + (page - 1)) positive
  simp only [alignUp]
  omega

theorem alignUp_add {base : ℕ} (aligned : page ∣ base) (a : ℕ) : alignUp page (base + a) = base + alignUp page a := by
  obtain ⟨k, rfl⟩ := aligned
  simp only [alignUp, add_assoc, mul_add_div positive]
  ring

theorem alignDown_add {base : ℕ} (aligned : page ∣ base) (a : ℕ) : alignDown page (base + a) = base + alignDown page a := by
  obtain ⟨k, rfl⟩ := aligned
  simp only [alignDown, mul_add_div positive]
  ring

end Pages

/-! ## Calls -/

section Ask

variable {α : Type} {call : LoadCall} {answer : List LoadCall → Except (ElfLoadError E) α} {good : LoadCall → Prop}

/-- A failure that is reported, and not an overflow. -/
def Reported {ε : Type} (failure : Halt ε) : Prop := ∃ error, failure = .error error

/-- Every call so far is a good one. -/
abbrev Clean (good : LoadCall → Prop) (log : List LoadCall) : Prop := ∀ call ∈ log, good call

theorem ask_triple_of {holds : α → Prop} (isGood : good call) (values : ∀ log value, answer log = .ok value → holds value) :
    Prog.Triple (Clean good) (ask call answer) (fun value log => Clean good log ∧ holds value)
      (fun failure log => Clean good log ∧ Reported failure) := by
  intro log all
  have more : Clean good (log ++ [call]) := forall_mem_append.mpr ⟨all, forall_mem_singleton.mpr isGood⟩
  simp only [ask]
  cases answered : answer log with
  | ok value => exact ⟨more, values log value answered⟩
  | error failure => exact ⟨more, failure, rfl⟩

theorem ask_triple (isGood : good call) : Prog.Triple (Clean good) (ask call answer) (fun _ => Clean good)
      (fun failure log => Clean good log ∧ Reported failure) :=
  (ask_triple_of isGood fun _ _ _ => trivial).imp (fun _ all => all) (fun _ _ kept => kept.1) fun _ _ failed => failed

variable {post : α → List LoadCall → Prop} {program : LoadProg E α}

/-- A program that only fails with an error does so under any condition. -/
theorem reported_if (condition : Prop)
    (triple : Prog.Triple (Clean good) program post (fun failure log => Clean good log ∧ Reported failure)) :
    Prog.Triple (Clean good) program post (fun failure log => Clean good log ∧ (condition → Reported failure)) :=
  triple.imp (fun _ all => all) (fun _ _ kept => kept) fun _ _ failed => ⟨failed.1, fun _ => failed.2⟩

theorem reported_imp {weaker stronger : Prop} (implied : stronger → weaker)
    (triple : Prog.Triple (Clean good) program post (fun failure log => Clean good log ∧ (weaker → Reported failure))) :
    Prog.Triple (Clean good) program post (fun failure log => Clean good log ∧ (stronger → Reported failure)) :=
  triple.imp (fun _ all => all) (fun _ _ kept => kept) fun _ _ failed => ⟨failed.1, fun holds => failed.2 (implied holds)⟩

end Ask

variable {a page : ℕ} {bounds after : Bounds}

theorem add_of_le {b : ℕ} (fits : a + b ≤ usizeMax) : (add a b : LoadProg E ℕ) = pure (a + b) := by
  funext log
  simp [add, when, not_lt.mpr fits, bind_apply]

theorem add_of_gt {b : ℕ} (large : usizeMax < a + b) : (add a b : LoadProg E ℕ) = fail overflow := by
  funext log
  simp [add, when, large, bind_apply]

theorem pageAlignUp_of_le (fits : alignUp page a ≤ usizeMax) : (pageAlignUp page a : LoadProg E ℕ) = pure (alignUp page a) := by
  funext log
  simp [pageAlignUp, when, not_lt.mpr fits, bind_apply]

theorem pageAlignUp_of_gt (large : usizeMax < alignUp page a) : (pageAlignUp page a : LoadProg E ℕ) = fail overflow := by
  funext log
  simp [pageAlignUp, when, large, bind_apply]

theorem pure_bind_eq {α β : Type} (value : α) (next : α → LoadProg E β) : (pure value >>= next : LoadProg E β) = next value := rfl

theorem fail_bind_eq {α β : Type} (failure : Halt (ElfLoadError E)) (next : α → LoadProg E β) :
    ((fail failure : LoadProg E α) >>= next) = fail failure := rfl

/-! ## One segment -/

section Segment

variable (page base : ℕ) (ph : ProgramHeader)

/-- The end of the pages of a segment. -/
def loadEnd : ℕ := alignUp page (base + ph.pVaddr + ph.pMemsz)

def fileEnd : ℕ := alignUp page (base + ph.pVaddr + ph.pFilesz)

def loadStart : ℕ := alignDown page (base + ph.pVaddr)

/-- Whether the rest of the last page of the file is zeroed. -/
def zeroesTail : Prop := ph.pMemsz > ph.pFilesz ∧ ph.writable = true ∧ fileEnd page base ph > base + ph.pVaddr + ph.pFilesz

instance : Decidable (zeroesTail page base ph) := inferInstanceAs (Decidable (_ ∧ _ ∧ _))

def fileCalls : List LoadCall :=
  .mapFile (loadStart page base ph) (fileEnd page base ph - loadStart page base ph)
      ((ph.pOffset + 2 ^ 64 - (base + ph.pVaddr - loadStart page base ph)) % 2 ^ 64) ph.prot ::
    if zeroesTail page base ph then
      [.zero (base + ph.pVaddr + ph.pFilesz) (fileEnd page base ph - (base + ph.pVaddr + ph.pFilesz))] else []

/-- The calls for the pages of a segment. -/
def segmentCalls : List LoadCall :=
  (if fileEnd page base ph > loadStart page base ph then fileCalls page base ph else []) ++
    if loadEnd page base ph > fileEnd page base ph then
      [.mapZero (fileEnd page base ph) (loadEnd page base ph - fileEnd page base ph) ph.prot] else []

/-- The program headers' address after a segment. -/
def nextPhdrsAddr (header : FileHeader) (before : ℕ) : ℕ :=
  if ph.pOffset ≤ header.ePhoff ∧ header.ePhoff < ph.pOffset + ph.pFilesz then base + ph.pVaddr + (header.ePhoff - ph.pOffset) else before

def nextProgress (header : FileHeader) (progress : Progress) : Progress :=
  ⟨max progress.brk (loadEnd page base ph), nextPhdrsAddr base ph header progress.phdrsAddr⟩

/-- The part of a segment's loading that talks to the host. -/
def segmentBody (host : LoadHost E) (header : FileHeader) (progress : Progress) : LoadProg E Progress := do
  when (fileEnd page base ph > loadStart page base ph)
    (mapFilePart host ph (base + ph.pVaddr) (loadStart page base ph) (fileEnd page base ph))
  when (loadEnd page base ph > fileEnd page base ph)
    (host.mapsZero (fileEnd page base ph) (loadEnd page base ph - fileEnd page base ph) ph.prot)
  pure (nextProgress page base ph header progress)

end Segment

variable {phs : List ProgramHeader} {ph : ProgramHeader}

section Segments

variable {page base : ℕ} {ph : ProgramHeader} {host : LoadHost E} {header : FileHeader} {progress : Progress}

theorem ProgramHeader.valid_iff : ph.valid = true ↔
    ph.pFilesz ≤ ph.pMemsz ∧ ph.pVaddr + ph.pMemsz ≤ usizeMax ∧ ph.pOffset + ph.pFilesz ≤ usizeMax := by
  simp [valid, Bool.not_eq_true', Bool.or_eq_false_iff, decide_eq_false_iff_not, not_lt, gt_iff_lt, and_assoc]

theorem loadSegment_invalid (invalid : ph.valid = false) :
    loadSegment host page header base progress ph = fail (.error .invalidProgramHeader) := by
  simp [loadSegment, invalid, when, fail_bind_eq]

/-- All overflows of a segment are overflows of its end. -/
theorem loadSegment_overflow (positive : 0 < page) (valid : ph.valid = true) (large : usizeMax < loadEnd page base ph) :
    loadSegment host page header base progress ph = fail overflow := by
  obtain ⟨smaller, -, -⟩ := ProgramHeader.valid_iff.mp valid
  simp only [loadSegment, valid, when, Bool.true_eq_false, if_false, pure_bind_eq]
  by_cases first : base + ph.pVaddr ≤ usizeMax
  · rw [add_of_le first, pure_bind_eq]
    by_cases second : base + ph.pVaddr + ph.pFilesz ≤ usizeMax
    · rw [add_of_le second, pure_bind_eq]
      by_cases third : alignUp page (base + ph.pVaddr + ph.pFilesz) ≤ usizeMax
      · rw [pageAlignUp_of_le third, pure_bind_eq]
        by_cases fourth : base + ph.pVaddr + ph.pMemsz ≤ usizeMax
        · rw [add_of_le fourth, pure_bind_eq, pageAlignUp_of_gt large, fail_bind_eq]
        · rw [add_of_gt (not_le.mp fourth), fail_bind_eq]
      · rw [pageAlignUp_of_gt (not_le.mp third), fail_bind_eq]
    · rw [add_of_gt (not_le.mp second), fail_bind_eq]
  · rw [add_of_gt (not_le.mp first), fail_bind_eq]

theorem loadSegment_fits (positive : 0 < page) (valid : ph.valid = true) (fits : loadEnd page base ph ≤ usizeMax) :
    loadSegment host page header base progress ph = segmentBody page base ph host header progress := by
  obtain ⟨smaller, -, -⟩ := ProgramHeader.valid_iff.mp valid
  have inMemory : base + ph.pVaddr + ph.pMemsz ≤ usizeMax := (le_alignUp positive _).trans fits
  have inFile : fileEnd page base ph ≤ usizeMax := (alignUp_mono (by omega)).trans fits
  have phdrs : (phdrsAddrIn header ph (base + ph.pVaddr) progress.phdrsAddr : LoadProg E ℕ) =
      pure (nextPhdrsAddr base ph header progress.phdrsAddr) := by
    simp only [phdrsAddrIn, nextPhdrsAddr]
    split
    · rw [add_of_le (by omega)]
    · rfl
  simp only [loadSegment, valid, when, Bool.true_eq_false, if_false, pure_bind_eq]
  rw [add_of_le (by omega), pure_bind_eq, add_of_le (by omega), pure_bind_eq, pageAlignUp_of_le inFile, pure_bind_eq,
    add_of_le inMemory, pure_bind_eq, pageAlignUp_of_le fits, pure_bind_eq, phdrs]
  rfl

/-! ## Any host -/

variable {good : LoadCall → Prop}

theorem segmentBody_triple (each : ∀ call ∈ segmentCalls page base ph, good call) :
    Prog.Triple (Clean good) (segmentBody page base ph host header progress)
      (fun value log => Clean good log ∧ value = nextProgress page base ph header progress)
      (fun failure log => Clean good log ∧ Reported failure) := by
  refine .bind (.when (fun mapped => ?_) fun _ _ all => all) fun _ =>
    .bind (.when (fun zeroed => ask_triple ?_) fun _ _ all => all) fun _ => .pure fun _ all => ⟨all, rfl⟩
  · have calls : ∀ call ∈ fileCalls page base ph, good call := fun call member =>
      each call (mem_append_left _ (by rw [if_pos mapped]; exact member))
    refine .bind (ask_triple (calls _ mem_cons_self)) fun _ => .when (fun tail => ask_triple (calls _ ?_)) fun _ _ all => all
    have tail : zeroesTail page base ph := tail
    rw [fileCalls, if_pos tail]
    exact mem_cons_of_mem _ mem_cons_self
  · exact each _ (mem_append_right _ (by rw [if_pos zeroed]; exact mem_singleton_self _))

/-- The end of what the segments occupy. -/
def brkOf (page base : ℕ) (phs : List ProgramHeader) (before : ℕ) : ℕ := phs.foldl (fun brk ph => max brk (loadEnd page base ph)) before

/-- The segments up to the first one that is refused. -/
def reached (phs : List ProgramHeader) : List ProgramHeader := phs.takeWhile (·.valid)

theorem reached_cons (valid : ph.valid = true) (rest : List ProgramHeader) :
    reached (ph :: rest) = ph :: reached rest := takeWhile_cons_of_pos valid

theorem segments_triple (positive : 0 < page)
    (each : ∀ ph ∈ reached phs, loadEnd page base ph ≤ usizeMax → ∀ call ∈ segmentCalls page base ph, good call) (progress : Progress) :
    Prog.Triple (Clean good) (phs.foldlM (loadSegment host page header base) progress)
      (fun value log => Clean good log ∧ (∀ ph ∈ phs, ph.valid = true) ∧ value.brk = brkOf page base phs progress.brk)
      (fun failure log => Clean good log ∧ ((∀ ph ∈ reached phs, loadEnd page base ph ≤ usizeMax) → Reported failure)) := by
  induction phs generalizing progress with
  | nil => exact .pure fun log all => ⟨all, nofun, rfl⟩
  | cons ph rest ih =>
    rw [foldlM_cons]
    by_cases valid : ph.valid = true
    · rw [reached_cons valid] at each ⊢
      obtain ⟨here, later⟩ := forall_mem_cons.mp each
      by_cases fits : loadEnd page base ph ≤ usizeMax
      · rw [loadSegment_fits positive valid fits]
        refine .bind (reported_if _ (segmentBody_triple (here fits))) fun value => .given fun same => ?_
        subst same
        refine (ih later _).imp (fun _ all => all) (fun value log kept => ?_) fun failure log failed => ?_
        · exact ⟨kept.1, forall_mem_cons.mpr ⟨valid, kept.2.1⟩, kept.2.2⟩
        · exact ⟨failed.1, fun both => failed.2 (forall_mem_cons.mp both).2⟩
      · rw [loadSegment_overflow positive valid (not_le.mp fits), fail_bind_eq]
        exact .fail fun log all => ⟨all, fun both => absurd (forall_mem_cons.mp both).1 fits⟩
    · rw [loadSegment_invalid (Bool.eq_false_of_not_eq_true valid), fail_bind_eq]
      exact .fail fun log all => ⟨all, fun _ => ⟨_, rfl⟩⟩

end Segments

/-! ## A host that grants everything -/

/-- Reserves at `base` within `limit`, maps what it is asked to, and has the given memory. -/
def LoadHost.granting (limit base : ℕ) (memory : ℕ → ℕ → List UInt8) : LoadHost Errno where
  reserve _ len _ _ := if base + len ≤ limit then .ok base else .error .ENOMEM
  mapFile _ _ _ _ _ := .ok ()
  mapZero _ _ _ _ := .ok ()
  protect _ _ _ _ := .ok ()
  zero _ _ _ := true
  read _ address len := some (memory address len)
  write _ _ _ := true

section Granting

variable {page limit base : ℕ} {memory : ℕ → ℕ → List UInt8} {ph : ProgramHeader} {header : FileHeader} {progress : Progress}

section Calls

variable (address len offset : ℕ) (prot : Protection) (bytes : List UInt8) (log : List LoadCall)

@[simp] theorem mapsFile_granting : (granting limit base memory).mapsFile address len offset prot log =
    (.ok (), log ++ [.mapFile address len offset prot]) := rfl

@[simp] theorem mapsZero_granting : (granting limit base memory).mapsZero address len prot log =
    (.ok (), log ++ [.mapZero address len prot]) := rfl

@[simp] theorem protects_granting : (granting limit base memory).protects address len prot log =
    (.ok (), log ++ [.protect address len prot]) := rfl

@[simp] theorem zeroes_granting : (granting limit base memory).zeroes address len log = (.ok (), log ++ [.zero address len]) := rfl

@[simp] theorem writes_granting : (granting limit base memory).writes address bytes log =
    (.ok (), log ++ [.write address bytes]) := rfl

@[simp] theorem reads_granting : (granting limit base memory).reads address len log =
    (.ok ((memory address len ++ List.replicate len 0).take len), log ++ [.read address len]) := rfl

end Calls

theorem segmentBody_granting (log : List LoadCall) : segmentBody page base ph (.granting limit base memory) header progress log =
    (.ok (nextProgress page base ph header progress), log ++ segmentCalls page base ph) := by
  have file : mapFilePart (.granting limit base memory) ph (base + ph.pVaddr) (loadStart page base ph) (fileEnd page base ph) log =
      (.ok (), log ++ fileCalls page base ph) := by
    by_cases tail : ph.pMemsz > ph.pFilesz ∧ ph.writable = true ∧ fileEnd page base ph > base + ph.pVaddr + ph.pFilesz
    · have zeroed : zeroesTail page base ph := tail
      rw [mapFilePart, bind_of_ok (mapsFile_granting _ _ _ _ log), when, if_pos tail, zeroes_granting, fileCalls, if_pos zeroed,
        append_assoc, singleton_append]
    · have kept : ¬zeroesTail page base ph := tail
      rw [mapFilePart, bind_of_ok (mapsFile_granting _ _ _ _ log), when, if_neg tail, fileCalls, if_neg kept]
      rfl
  simp only [segmentBody, bind_apply, when, segmentCalls]
  by_cases mapped : fileEnd page base ph > loadStart page base ph <;> by_cases zeroed : loadEnd page base ph > fileEnd page base ph <;>
    simp [mapped, zeroed, file]

/-- As long as nothing overflows, all segments up to the first invalid one are mapped. -/
theorem segments_granting (positive : 0 < page) (fits : ∀ ph ∈ reached phs, loadEnd page base ph ≤ usizeMax)
    (log : List LoadCall) : ∃ result, phs.foldlM (loadSegment (.granting limit base memory) page header base) progress log =
        (result, log ++ (reached phs).flatMap (segmentCalls page base)) ∧
      ((∀ ph ∈ phs, ph.valid = true) → ∃ value, result = .ok value ∧ value.brk = brkOf page base phs progress.brk) := by
  induction phs generalizing progress log with
  | nil => exact ⟨.ok progress, by simp [reached, foldlM], fun _ => ⟨progress, rfl, rfl⟩⟩
  | cons ph rest ih =>
    rw [foldlM_cons]
    by_cases valid : ph.valid = true
    · rw [reached_cons valid] at fits ⊢
      obtain ⟨here, later⟩ := forall_mem_cons.mp fits
      rw [loadSegment_fits positive valid here, bind_of_ok (segmentBody_granting log)]
      obtain ⟨result, ran, allValid⟩ := @ih (nextProgress page base ph header progress) later (log ++ segmentCalls page base ph)
      refine ⟨result, by rw [ran, flatMap_cons, append_assoc], fun each => ?_⟩
      exact allValid (forall_mem_cons.mp each).2
    · have none : reached (ph :: rest) = [] := takeWhile_cons_of_neg valid
      rw [loadSegment_invalid (Bool.eq_false_of_not_eq_true valid), fail_bind_eq, none]
      refine ⟨.error (.error .invalidProgramHeader), by simp, fun each => ?_⟩
      exact absurd (each ph mem_cons_self) valid

theorem segments_granting_overflow (positive : 0 < page)
    (large : ¬∀ ph ∈ reached phs, loadEnd page base ph ≤ usizeMax) (log : List LoadCall) :
    ∃ log', phs.foldlM (loadSegment (.granting limit base memory) page header base) progress log = (.error overflow, log') := by
  induction phs generalizing progress log with
  | nil => exact absurd (fun _ => nofun) large
  | cons ph rest ih =>
    rw [foldlM_cons]
    by_cases valid : ph.valid = true
    · rw [reached_cons valid, forall_mem_cons] at large
      by_cases fits : loadEnd page base ph ≤ usizeMax
      · rw [loadSegment_fits positive valid fits, bind_of_ok (segmentBody_granting log)]
        exact ih (fun later => large ⟨fits, later⟩) _
      · rw [loadSegment_overflow positive valid (not_le.mp fits), fail_bind_eq]
        exact ⟨log, rfl⟩
    · have none : reached (ph :: rest) = [] := takeWhile_cons_of_neg valid
      rw [none] at large
      exact absurd (fun _ => nofun) large

end Granting

/-! ## The reservation -/

/-- The bounds contain what has been added. -/
structure Bounds.Contains (bounds : Bounds) (start stop : ℕ) : Prop where
  low : bounds.min ≤ start
  high : stop ≤ bounds.max

theorem Bounds.addSegment_contains (added : bounds.addSegment ph = some after) :
    after.Contains ph.pVaddr (ph.pVaddr + ph.pMemsz) ∧ ph.pVaddr + ph.pMemsz ≤ usizeMax ∧
      ∀ start stop, bounds.Contains start stop → after.Contains start stop := by
  simp only [addSegment] at added
  split at added
  · cases added
  · next fits =>
    cases added
    refine ⟨⟨min_le_right _ _, le_max_right _ _⟩, not_lt.mp fits, fun start stop contained => ?_⟩
    exact ⟨(min_le_left _ _).trans contained.low, contained.high.trans (le_max_left _ _)⟩

theorem Bounds.addTrampoline_contains {trampoline : TrampolineInfo} (added : bounds.addTrampoline trampoline = some after) :
    after.Contains trampoline.vaddr (trampoline.vaddr + trampoline.size) ∧
      ∀ start stop, bounds.Contains start stop → after.Contains start stop := by
  simp only [addTrampoline] at added
  split at added
  · cases added
  · cases added
    refine ⟨⟨min_le_right _ _, le_max_right _ _⟩, fun start stop contained => ?_⟩
    exact ⟨(min_le_left _ _).trans contained.low, contained.high.trans (le_max_left _ _)⟩

theorem Bounds.segments_contained (added : phs.foldlM Bounds.addSegment bounds = some after) :
    (∀ ph ∈ phs, after.Contains ph.pVaddr (ph.pVaddr + ph.pMemsz) ∧ ph.pVaddr + ph.pMemsz ≤ usizeMax) ∧
      ∀ start stop, bounds.Contains start stop → after.Contains start stop := by
  induction phs generalizing bounds with
  | nil =>
    cases added
    exact ⟨nofun, fun _ _ contained => contained⟩
  | cons ph rest ih =>
    obtain ⟨between, first, later⟩ := Option.bind_eq_some_iff.mp added
    obtain ⟨here, fits, kept⟩ := addSegment_contains first
    obtain ⟨each, keptLater⟩ := ih later
    refine ⟨forall_mem_cons.mpr ⟨⟨keptLater _ _ here, fits⟩, each⟩, fun start stop contained => ?_⟩
    exact keptLater _ _ (kept _ _ contained)

/-- The reservation is a range of pages that contains the segments and the trampoline. -/
structure ElfParsedFile.Reserved {page : ℕ} (image : ElfParsedFile page) (r : Reservation) : Prop where
  ordered : r.min ≤ r.max
  fits : r.max ≤ usizeMax
  start_aligned : page ∣ r.min
  stop_aligned : page ∣ r.max
  segments : ∀ ph ∈ image.ptLoads, ph.pVaddr + ph.pMemsz ≤ usizeMax ∧ r.min ≤ alignDown page ph.pVaddr ∧
    alignUp page (ph.pVaddr + ph.pMemsz) ≤ r.max
  trampoline : ∀ found ∈ image.trampoline, alignUp page (found.vaddr + found.size) ≤ r.max

theorem ElfParsedFile.reserved_of_reservation {image : ElfParsedFile page} {r : Reservation}
    (found : image.reservation = some r) : image.Reserved r := by
  obtain ⟨first, segments, found⟩ := Option.bind_eq_some_iff.mp found
  obtain ⟨bounds, both, rounded⟩ := Option.bind_eq_some_iff.mp found
  simp only [Bounds.rounded] at rounded
  split at rounded
  · cases rounded
  next fits =>
  split at rounded
  · cases rounded
  next ordered =>
  cases rounded
  have kept : ∀ start stop, first.Contains start stop → bounds.Contains start stop := by
    cases trampoline : image.trampoline with
    | none =>
      rw [trampoline] at both
      cases both
      exact fun _ _ contained => contained
    | some found =>
      rw [trampoline] at both
      exact (Bounds.addTrampoline_contains both).2
  refine ⟨not_lt.mp ordered, not_lt.mp fits, dvd_alignDown _ _, dvd_alignUp _ _, fun ph member => ?_, fun trampoline isFound => ?_⟩
  · obtain ⟨contained, small⟩ := (Bounds.segments_contained segments).1 ph member
    obtain ⟨low, high⟩ := kept _ _ contained
    exact ⟨small, Nat.mul_le_mul_right _ (Nat.div_le_div_right low), alignUp_mono high⟩
  · rw [Option.mem_def.mp isFound] at both
    exact alignUp_mono (Bounds.addTrampoline_contains both).1.high

end LiteBox.Loader
