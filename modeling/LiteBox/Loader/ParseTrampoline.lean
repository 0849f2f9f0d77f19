import LiteBox.Rewriter.Footer

/-! # Finding the trampoline at load time

`ElfParsedFile::parse_trampoline` reads the header at the end of a file that the rewriter has
produced, or that anybody else has. The file is a byte string, and the page size a constant of the
loader's build.
-/

namespace LiteBox.Loader

open Bytes Rewriter TrampolineHeader64

/-- The errors of the parser as far as this function raises them; `panic` is an arithmetic overflow. -/
inductive ElfParseError where
  | badTrampoline
  | badTrampolineVersion
  | unpatchedBinary
  | panic (what : String)
deriving DecidableEq, Repr

structure TrampolineInfo where
  (vaddr fileOffset size syscallEntryPoint : ℕ)
deriving DecidableEq, Repr

/-- `litebox::mm::linux::PAGE_SIZE`: 16 KiB on macOS/aarch64, 4 KiB on every other host. -/
def pageSizes : List ℕ := [4096, 16384]

/-- The trampoline that was found, if any. -/
def parseTrampoline (pageSize syscallEntryPoint : ℕ) (file : List UInt8) : Except ElfParseError (Option TrampolineInfo) :=
  if syscallEntryPoint = 0 then .ok none
  else if file.length < sizeOf then .error .unpatchedBinary
  else
    let headerOffset := file.length - sizeOf
    let headerBuf := file.drop headerOffset
    if leValue (headerBuf.take 8) ≠ leValue trampolineMagic then
      if headerBuf.take 7 = trampolineMagic.take 7 then .error .badTrampolineVersion
      else .error .unpatchedBinary
    else
      let header := readFromBytes headerBuf
      if header.trampolineSize = 0 then .ok none
      else if header.fileOffset % pageSize ≠ 0 then .error .badTrampoline
      else if header.vaddr % pageSize ≠ 0 then .error .badTrampoline
      else if 2 ^ 64 ≤ header.fileOffset + header.trampolineSize then
        .error (.panic "attempt to add with overflow")
      else if header.fileOffset + header.trampolineSize ≠ headerOffset then .error .badTrampoline
      else .ok (some ⟨header.vaddr, header.fileOffset, header.trampolineSize, syscallEntryPoint⟩)

/-- A tail that claims trampoline code reaching past the end of the 64-bit offsets. -/
structure ClaimsTooMuch (pageSize : ℕ) (header : TrampolineHeader64) : Prop where
  magic : leValue header.magic = leValue trampolineMagic
  nonempty : header.trampolineSize ≠ 0
  offset_aligned : header.fileOffset % pageSize = 0
  vaddr_aligned : header.vaddr % pageSize = 0
  overflows : 2 ^ 64 ≤ header.fileOffset + header.trampolineSize

/-- The header that the last bytes of a file spell. -/
def tailHeader (file : List UInt8) : TrampolineHeader64 :=
  readFromBytes (file.drop (file.length - sizeOf))

/-- A result that is not an overflow. -/
def Answered (result : Except ElfParseError (Option TrampolineInfo)) : Prop := ∀ what, result ≠ .error (.panic what)

/-- The one addition that can overflow, and when it does. -/
theorem parseTrampoline_answered_iff (pageSize syscallEntryPoint : ℕ) (file : List UInt8) :
    Answered (parseTrampoline pageSize syscallEntryPoint file) ↔
      ¬(syscallEntryPoint ≠ 0 ∧ sizeOf ≤ file.length ∧ ClaimsTooMuch pageSize (tailHeader file)) := by
  simp only [parseTrampoline]
  split_ifs with no_entry short other_magic older empty offset_off vaddr_off overflow elsewhere
  · simp [Answered, no_entry]
  · refine iff_of_true (fun what => by simp) fun ⟨_, long, _⟩ => ?_
    omega
  · exact iff_of_true (fun what => by simp) fun ⟨_, _, claims⟩ => other_magic claims.magic
  · exact iff_of_true (fun what => by simp) fun ⟨_, _, claims⟩ => other_magic claims.magic
  · exact iff_of_true (fun what => by simp) fun ⟨_, _, claims⟩ => claims.nonempty empty
  · exact iff_of_true (fun what => by simp) fun ⟨_, _, claims⟩ => offset_off claims.offset_aligned
  · exact iff_of_true (fun what => by simp) fun ⟨_, _, claims⟩ => vaddr_off claims.vaddr_aligned
  · refine iff_of_false (fun answered => answered _ rfl) (not_not_intro ⟨no_entry, by omega, ?_⟩)
    exact ⟨not_not.mp other_magic, empty, not_not.mp offset_off, not_not.mp vaddr_off, overflow⟩
  · exact iff_of_true (fun what => by simp) fun ⟨_, _, claims⟩ => overflow claims.overflows
  · exact iff_of_true (fun what => by simp) fun ⟨_, _, claims⟩ => overflow claims.overflows

/-- On a file that ends in a footer, the trampoline is found when the loader has an entry point to
give and its pages divide the two addresses. -/
theorem parseTrampoline_footer_iff {file code : List UInt8} {fileOffset vaddr : ℕ}
    (footer : EndsInFooter file code fileOffset vaddr) (nonempty : code ≠ []) (pageSize syscallEntryPoint : ℕ) :
    parseTrampoline pageSize syscallEntryPoint file =
        .ok (some ⟨vaddr, fileOffset, code.length, syscallEntryPoint⟩) ↔
      syscallEntryPoint ≠ 0 ∧ fileOffset % pageSize = 0 ∧ vaddr % pageSize = 0 := by
  have length_eq := footer.length_eq
  have small := footer.small
  have code_pos := List.length_pos_of_ne_nil nonempty
  simp only [parseTrampoline, footer.drop_eq, footer.fits.readFromBytes_asBytes]
  have magic_eq : (asBytes ⟨trampolineMagic, fileOffset, vaddr, code.length⟩).take 8 = trampolineMagic := rfl
  rw [magic_eq]
  simp only [ne_eq, not_true_eq_false, if_false]
  rw [if_neg (show ¬file.length < sizeOf by omega), if_neg (show ¬code.length = 0 by omega),
    if_neg (show ¬2 ^ 64 ≤ fileOffset + code.length by omega),
    if_neg (show ¬¬fileOffset + code.length = file.length - sizeOf by omega)]
  split_ifs with no_entry offset_off vaddr_off
  all_goals simp_all

end LiteBox.Loader
