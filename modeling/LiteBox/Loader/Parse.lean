import LiteBox.Loader.LoadSpec

/-! # Reading the headers of an executable

`ElfParsedFile::parse` reads the file header and the program headers, `interp` the path of the interpreter.
The file answers reads as it likes, and the decoding of the two kinds of header is a library's.
-/

namespace LiteBox.Loader

open List Prog

inductive Class
  | elf32 | elf64
deriving DecidableEq

/-- The header as the library decodes it. -/
structure RawHeader where
  (eType eMachine ePhentsize ePhnum : UInt16)
  (ePhoff eEntry : UInt64)

/-- The decoders of the `elf` library, with its errors `P`. -/
structure ElfLibrary (P : Type) where
  parseIdent : List UInt8 → Except P Class
  parseTail : List UInt8 → Except P RawHeader
  programHeaders : List UInt8 → List ProgramHeader

inductive ElfHeaderError (P E : Type)
  | elf (cause : P)
  | badFormat
  | io (cause : E)
  | unsupportedType
  | badInterp

/-- A file `F` is read at an offset into a buffer of some length. -/
structure ReadAt (F E : Type) where
  readAt : (offset len : ℕ) → Prog F E (List UInt8)

variable {F P E : Type}

abbrev ParseProg (F P E α : Type) := Prog F (Halt (ElfHeaderError P E)) α

/-- A buffer of zeros. -/
def zeroed (len : ℕ) : ParseProg F P E (List UInt8) := do
  when (len > maxAllocation) (fail (.panic "capacity overflow"))
  pure (List.replicate len 0)

/-- Fills the first bytes of a buffer from the file. -/
def ReadAt.fill (file : ReadAt F E) (offset len : ℕ) (buffer : List UInt8) : ParseProg F P E (List UInt8) := do
  when (len > buffer.length) (fail (.panic "range end index out of range"))
  let bytes ← mapError (fun cause => .error (.io cause)) (file.readAt offset len)
  pure (bytes.take len ++ buffer.drop (min len bytes.length))

def dropFirst (count : ℕ) (buffer : List UInt8) : ParseProg F P E (List UInt8) := do
  when (count > buffer.length) (fail (.panic "range start index out of range"))
  pure (buffer.drop count)

def decoded {α : Type} (result : Except P α) : ParseProg F P E α :=
  match result with
  | .ok value => pure value
  | .error cause => fail (.error (.elf cause))

def ehdrSize : ℕ := 64
def eiNident : ℕ := 16
def phentSize : ℕ := 56
def etExec : UInt16 := 2
def etDyn : UInt16 := 3

/-- The two types that can be loaded. -/
def elfType (eType : UInt16) : Option ElfType :=
  if eType = etExec then some .exec else if eType = etDyn then some .dyn else none

def parse {page : ℕ} (library : ElfLibrary P) (machine : UInt16) (file : ReadAt F E) : ParseProg F P E (ElfParsedFile page) := do
  let buf ← file.fill 0 ehdrSize (List.replicate ehdrSize 0)
  let ident ← decoded (library.parseIdent buf)
  when (ident ≠ .elf64) (fail (.error .badFormat))
  let tail ← dropFirst eiNident buf
  let header ← decoded (library.parseTail tail)
  let eType ← ofOption (.error .unsupportedType) (elfType header.eType)
  when (header.eMachine ≠ machine) (fail (.error .unsupportedType))
  when (header.ePhentsize.toNat ≠ phentSize) (fail (.error .badFormat))
  let phdrSize := header.ePhentsize.toNat * header.ePhnum.toNat
  when (phdrSize ≥ 2 ^ 16) (fail (.error .badFormat))
  let buffer ← zeroed phdrSize
  let phdrs ← file.fill header.ePhoff.toNat phdrSize buffer
  pure {
    header := ⟨eType, header.eEntry.toNat, header.ePhoff.toNat, header.ePhnum.toNat⟩
    programHeaders := library.programHeaders phdrs
    trampoline := none
    trampoline_valid := nofun }

/-- The bytes of a buffer up to the first zero. -/
def fromBytesUntilNul (buffer : List UInt8) : Option (List UInt8) :=
  if 0 ∈ buffer then some (buffer.takeWhile (· ≠ 0)) else none

def ElfParsedFile.interpHeader {page : ℕ} (image : ElfParsedFile page) : Option ProgramHeader :=
  image.programHeaders.find? fun ph => decide (ph.pType = .interp)

/-- The path of the interpreter, from a header that gives one. -/
def interpAt (file : ReadAt F E) (ph : ProgramHeader) : ParseProg F P E (List UInt8) := do
  when (¬(2 ≤ ph.pFilesz ∧ ph.pFilesz < 4096)) (fail (.error .badInterp))
  let buffer ← zeroed (ph.pFilesz + 1)
  let buf ← file.fill ph.pOffset ph.pFilesz buffer
  ofOption (.panic "we null terminated it at allocation time") (fromBytesUntilNul buf)

def interp {page : ℕ} (image : ElfParsedFile page) (file : ReadAt F E) : ParseProg F P E (Option (List UInt8)) :=
  match image.interpHeader with
  | none => pure none
  | some ph => do
    let path ← interpAt file ph
    pure (some path)

/-! ## Neither stops the loader -/

/-- A program that only fails with an error, and what it returns. -/
abbrev Answers {α : Type} (program : ParseProg F P E α) (returns : α → Prop) : Prop :=
  Prog.Triple (fun _ => True) program (fun value _ => returns value) (fun failure _ => Reported failure)

section Answers

variable {α β : Type}

theorem Answers.bind {first : ParseProg F P E α} {next : α → ParseProg F P E β} {between : α → Prop} {returns : β → Prop}
    (one : Answers first between) (two : ∀ value, between value → Answers (next value) returns) : Answers (first >>= next) returns :=
  Prog.Triple.bind one fun value s holds => two value holds s trivial

theorem Answers.pure {value : α} {returns : α → Prop} (holds : returns value) : Answers (Pure.pure value : ParseProg F P E α) returns :=
  Prog.Triple.pure fun _ _ => holds

theorem when_answers (condition : Prop) [Decidable condition] (error : ElfHeaderError P E) :
    Answers (when condition (fail (.error error)) : ParseProg F P E Unit) (fun _ => ¬condition) :=
  .when (fun _ => .fail fun _ _ => ⟨error, rfl⟩) fun skipped _ _ => skipped

/-- A check that cannot fail. -/
theorem passed_answers {condition : Prop} [Decidable condition] (passes : ¬condition) (failure : Halt (ElfHeaderError P E)) :
    Answers (when condition (fail failure) : ParseProg F P E Unit) (fun _ => True) :=
  .when (fun holds => absurd holds passes) fun _ _ _ => trivial

theorem zeroed_answers {len : ℕ} (small : len ≤ maxAllocation) :
    Answers (zeroed len : ParseProg F P E _) (fun buffer => buffer = List.replicate len 0) :=
  .bind (passed_answers (not_lt.mpr small) _) fun _ _ => .pure rfl

theorem fill_answers (file : ReadAt F E) (offset : ℕ) {len : ℕ} {buffer : List UInt8} (fits : len ≤ buffer.length) :
    Answers (file.fill offset len buffer : ParseProg F P E _)
      (fun filled => filled.length = buffer.length ∧ ∀ byte ∈ buffer.drop len, byte ∈ filled) := by
  have read : Answers (mapError (fun cause => .error (.io cause)) (file.readAt offset len) : ParseProg F P E _) (fun _ => True) :=
    .mapError (.any _) fun cause _ _ => ⟨.io cause, rfl⟩
  refine .bind (passed_answers (not_lt.mpr fits) _) fun _ _ => .bind read fun bytes _ => .pure ⟨?_, fun byte member => ?_⟩
  · simp only [length_append, length_take, length_drop]
    omega
  · exact mem_append_right _ ((drop_sublist_drop_left buffer (Nat.min_le_left len bytes.length)).mem member)

theorem decoded_answers (result : Except P α) : Answers (decoded result : ParseProg F P E α) (fun _ => True) := by
  cases result with
  | ok value => exact .pure trivial
  | error cause => exact .fail fun _ _ => ⟨_, rfl⟩

end Answers

section Parse

variable {page : ℕ} (library : ElfLibrary P) (machine : UInt16) (file : ReadAt F E)

/-- A table of program headers is shorter than 64 KiB. -/
theorem parse_answers : Answers (parse library machine file : ParseProg F P E (ElfParsedFile page)) (fun _ => True) := by
  have wide : ehdrSize ≤ (List.replicate ehdrSize (0 : UInt8)).length := by rw [length_replicate]
  refine .bind (fill_answers file 0 wide) fun buf filled => .bind (decoded_answers _) fun ident _ => .bind (when_answers _ _) fun _ _ => ?_
  have longEnough : eiNident ≤ buf.length := by
    rw [filled.1, length_replicate]
    decide
  refine .bind (.bind (passed_answers (not_lt.mpr longEnough) _) fun _ _ => .pure trivial) fun tail (_ : True) => .bind (decoded_answers _) fun header _ => ?_
  have typed : Answers (ofOption (.error .unsupportedType) (elfType header.eType) : ParseProg F P E ElfType) (fun _ => True) :=
    .ofOption (fun _ _ _ _ => trivial) fun _ _ _ => ⟨_, rfl⟩
  refine .bind typed fun eType _ => .bind (when_answers _ _) fun _ _ => .bind (when_answers _ _) fun _ _ => .bind (when_answers _ _) fun _ small => ?_
  have allocated : header.ePhentsize.toNat * header.ePhnum.toNat ≤ maxAllocation := by
    simp only [maxAllocation]
    omega
  refine .bind (zeroed_answers allocated) fun buffer isZero => ?_
  subst isZero
  exact .bind (fill_answers file _ (by rw [length_replicate])) fun _ _ => .pure trivial

/-- The last byte of the buffer is never read into. -/
theorem interp_answers (image : ElfParsedFile page) : Answers (interp image file : ParseProg F P E _) (fun _ => True) := by
  rw [interp]
  cases image.interpHeader with
  | none => exact .pure trivial
  | some ph =>
    have path : Answers (interpAt file ph : ParseProg F P E _) (fun _ => True) := by
      refine .bind (when_answers _ _) fun _ bounds => ?_
      have small : ph.pFilesz + 1 ≤ maxAllocation := by
        simp only [maxAllocation]
        omega
      refine .bind (zeroed_answers small) fun buffer isZero => ?_
      subst isZero
      refine .bind (fill_answers file _ (by rw [length_replicate]; omega)) fun buf filled => ?_
      have terminated : 0 ∈ buf := filled.2 0 (by simp)
      rw [fromBytesUntilNul, if_pos terminated]
      exact .pure trivial
    exact .bind path fun _ _ => .pure trivial

end Parse

end LiteBox.Loader
