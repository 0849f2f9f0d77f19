import LiteBox.Rewriter.Common

/-! # The trampoline footer

The layout at the end of a rewritten file, `[ELF][padding to a page][trampoline code][header]`: how
the rewriter writes it, and how it recognises a file that it has already rewritten. The rewriter's
pages have 4 KiB, whatever the pages of the host that will load the file.
-/

namespace LiteBox.Rewriter

open Bytes Outcome List

/-- `b"LITEBOX0"`. -/
def trampolineMagic : List UInt8 := [0x4C, 0x49, 0x54, 0x45, 0x42, 0x4F, 0x58, 0x30]

/-- The last bytes of a rewritten file. -/
structure TrampolineHeader64 where
  magic : List UInt8
  (fileOffset vaddr trampolineSize : ℕ)
deriving DecidableEq, Repr

namespace TrampolineHeader64

def sizeOf : ℕ := 32

def asBytes (header : TrampolineHeader64) : List UInt8 :=
  header.magic ++ leBytes 8 header.fileOffset ++ leBytes 8 header.vaddr ++ leBytes 8 header.trampolineSize

/-- `read_from_bytes` of 32 bytes, which always succeeds. -/
def readFromBytes (bytes : List UInt8) : TrampolineHeader64 where
  magic := bytes.take 8
  fileOffset := leValue ((bytes.drop 8).take 8)
  vaddr := leValue ((bytes.drop 16).take 8)
  trampolineSize := leValue ((bytes.drop 24).take 8)

/-- A header whose fields have their widths. -/
structure Fits (header : TrampolineHeader64) : Prop where
  magic_length : header.magic.length = 8
  fileOffset_lt : header.fileOffset < 2 ^ 64
  vaddr_lt : header.vaddr < 2 ^ 64
  trampolineSize_lt : header.trampolineSize < 2 ^ 64

variable {header : TrampolineHeader64}

theorem Fits.length_asBytes (fits : header.Fits) : header.asBytes.length = sizeOf := by
  simp [asBytes, fits.magic_length, sizeOf]

theorem leValue_leBytes_of_lt {value : ℕ} (small : value < 2 ^ 64) : leValue (leBytes 8 value) = value := by
  rw [leValue_leBytes]
  exact Nat.mod_eq_of_lt small

/-- A header that was written reads back as itself. -/
theorem Fits.readFromBytes_asBytes (fits : header.Fits) : readFromBytes header.asBytes = header := by
  obtain ⟨magic, fileOffset, vaddr, trampolineSize⟩ := header
  have magic_len : magic.length = 8 := fits.magic_length
  have offset_eq : leValue (leBytes 8 fileOffset) = fileOffset := leValue_leBytes_of_lt fits.fileOffset_lt
  have vaddr_eq : leValue (leBytes 8 vaddr) = vaddr := leValue_leBytes_of_lt fits.vaddr_lt
  have size_eq : leValue (leBytes 8 trampolineSize) = trampolineSize :=
    leValue_leBytes_of_lt fits.trampolineSize_lt
  simp [readFromBytes, asBytes, take_append, drop_append, magic_len, take_of_length_le,
    drop_of_length_le, offset_eq, vaddr_eq, size_eq]

end TrampolineHeader64

/-- `Vec::extend_from_slice`; a vector holds at most `isize::MAX` bytes. -/
def extend (out bytes : List UInt8) : Except Error (List UInt8) :=
  if out.length + bytes.length < 2 ^ 63 then .ok (out ++ bytes) else .error (.panic "capacity overflow")

theorem extend_eq_ok {out bytes extended : List UInt8} :
    extend out bytes = .ok extended ↔ out.length + bytes.length < 2 ^ 63 ∧ extended = out ++ bytes := ite_eq_ok

/-- The zeros that fill up the last page. -/
def padding (length : ℕ) : ℕ := if length % 0x1000 = 0 then 0 else 0x1000 - length % 0x1000

/-- The header that says that a file was looked at and needs no trampoline. -/
def sentinelHeader : TrampolineHeader64 := ⟨trampolineMagic, 0, 0, 0⟩

def appendTrampolineFooter (out trampolineData : List UInt8) (headerVaddr : ℕ) :
    Except Error (List UInt8) := do
  let out ← extend out (replicate (padding out.length) 0)
  let trampolineFileOffset := out.length
  let out ← extend out trampolineData
  extend out (TrampolineHeader64.asBytes ⟨trampolineMagic, trampolineFileOffset, headerVaddr, trampolineData.length⟩)

def isAlreadyHooked (inputBinary : List UInt8) : Bool :=
  if inputBinary.length < TrampolineHeader64.sizeOf then false
  else
    let headerStart := inputBinary.length - TrampolineHeader64.sizeOf
    let header := TrampolineHeader64.readFromBytes (inputBinary.drop headerStart)
    if header.magic ≠ trampolineMagic then false
    else if header.trampolineSize = 0 then true
    else if header.fileOffset % 0x1000 ≠ 0 then false
    else if header.vaddr % 0x1000 ≠ 0 then false
    -- `checked_add`: a sum that overflows is no offset in the file
    else header.fileOffset + header.trampolineSize < 2 ^ 64 ∧ header.fileOffset + header.trampolineSize = headerStart

/-! ## What the footer holds -/

/-- The first multiple of a page at or behind a position. -/
def pageUp (position : ℕ) : ℕ := (position + 0xFFF) / 0x1000 * 0x1000

theorem length_add_padding (length : ℕ) : length + padding length = pageUp length := by
  unfold padding pageUp
  split_ifs with aligned
  · omega
  · omega

/-- A file that ends in trampoline code, from a page boundary of the rewriter on, and the header for it. -/
structure EndsInFooter (file code : List UInt8) (fileOffset vaddr : ℕ) : Prop where
  layout : ∃ elf : List UInt8, elf.length = fileOffset ∧
    file = elf ++ code ++ TrampolineHeader64.asBytes ⟨trampolineMagic, fileOffset, vaddr, code.length⟩
  small : file.length < 2 ^ 63
  vaddr_lt : vaddr < 2 ^ 64

theorem appendTrampolineFooter_eq_ok {image code out : List UInt8} {vaddr : ℕ} (vaddr_lt : vaddr < 2 ^ 64)
    (appended : appendTrampolineFooter image code vaddr = .ok out) :
    image <+: out ∧ EndsInFooter out code (pageUp image.length) vaddr := by
  obtain ⟨padded, padded_eq, appended⟩ := bind_eq_ok.mp appended
  obtain ⟨-, rfl⟩ := extend_eq_ok.mp padded_eq
  obtain ⟨filled, filled_eq, appended⟩ := bind_eq_ok.mp appended
  obtain ⟨-, rfl⟩ := extend_eq_ok.mp filled_eq
  obtain ⟨small, rfl⟩ := extend_eq_ok.mp appended
  have offset_eq : (image ++ replicate (padding image.length) 0).length = pageUp image.length := by
    rw [length_append, length_replicate, length_add_padding]
  rw [offset_eq] at small ⊢
  refine ⟨⟨replicate (padding image.length) 0 ++ code ++ _, by simp only [append_assoc]; rfl⟩, ⟨_, offset_eq, rfl⟩, ?_, vaddr_lt⟩
  rwa [length_append]

namespace EndsInFooter

variable {file code : List UInt8} {fileOffset vaddr : ℕ}

variable (footer : EndsInFooter file code fileOffset vaddr)

include footer

theorem fits :
    TrampolineHeader64.Fits ⟨trampolineMagic, fileOffset, vaddr, code.length⟩ := by
  obtain ⟨⟨elf, rfl, rfl⟩, small, vaddr_lt⟩ := footer
  simp only [length_append] at small
  exact ⟨rfl, by change elf.length < _; omega, vaddr_lt, by change code.length < _; omega⟩

theorem length_eq :
    file.length = fileOffset + code.length + TrampolineHeader64.sizeOf := by
  have header_len := footer.fits.length_asBytes
  obtain ⟨⟨elf, rfl, rfl⟩, -, -⟩ := footer
  rw [length_append, length_append, header_len]

/-- The last bytes are the header. -/
theorem drop_eq :
    file.drop (file.length - TrampolineHeader64.sizeOf) =
      TrampolineHeader64.asBytes ⟨trampolineMagic, fileOffset, vaddr, code.length⟩ := by
  have start : file.length - TrampolineHeader64.sizeOf = fileOffset + code.length := by
    rw [footer.length_eq, Nat.add_sub_cancel]
  rw [start]
  obtain ⟨⟨elf, rfl, rfl⟩, -, -⟩ := footer
  exact drop_left' (length_append ..)

/-- The code stands where the header says. -/
theorem slice_eq : slice? file fileOffset code.length = some code := by
  rw [slice?_of_le (by rw [footer.length_eq]; omega)]
  obtain ⟨⟨elf, rfl, rfl⟩, -, -⟩ := footer
  rw [append_assoc, drop_left, take_left]

/-- The rewriter recognises its own work. -/
theorem isAlreadyHooked (aligned : fileOffset % 0x1000 = 0)
    (vaddr_aligned : vaddr % 0x1000 = 0) : isAlreadyHooked file = true := by
  have length_eq := footer.length_eq
  have small := footer.small
  unfold Rewriter.isAlreadyHooked
  rw [if_neg (by omega)]
  simp only [footer.drop_eq, footer.fits.readFromBytes_asBytes, ne_eq, not_true_eq_false, if_false, aligned, vaddr_aligned]
  split_ifs with empty
  · rfl
  · rw [decide_eq_true_eq]
    omega

end EndsInFooter

end LiteBox.Rewriter
