import LiteBox.Lib.BitFields
import LiteBox.Rewriter.Common

/-! # AArch64 instructions

The encoders of the instructions that gates are made of, and a decoder for them. Words are natural
numbers below `2 ^ 32`. The decoder reads the fields as the architecture defines them; it is not
part of the rewriter, and says what the words the rewriter writes mean.
-/

namespace LiteBox.Rewriter.Arm64

open Bytes BitFields Option Nat Fin

/-- A register number; 31 is `SP` or `XZR`, depending on its place. -/
abbrev Reg := Fin 32

def x16 : Reg := 16
def x17 : Reg := 17
def sp : Reg := 31
def xzr : Reg := 31

/-- The register in the low five bits of a word. -/
def lowReg (word : ℕ) : Reg := Fin.ofNat 32 (word &&& 0x1F)

inductive Opcode where
  | b
  | ldrLiteral
  | adrp
  | br
  | subImm
  | addImm
  | strUimm
  | ldrUimm
  | stp
  | ldp
  | mrsTpidrEl0
  | brk
deriving DecidableEq, Repr

def Opcode.bits : Opcode → ℕ
  | .b => 0x14000000
  | .ldrLiteral => 0x58000000
  | .adrp => 0x90000000
  | .br => 0xD61F0000
  | .subImm => 0xD1000000
  | .addImm => 0x91000000
  | .strUimm => 0xF9000000
  | .ldrUimm => 0xF9400000
  | .stp => 0xA9000000
  | .ldp => 0xA9400000
  | .mrsTpidrEl0 => 0xD53BD040
  | .brk => 0xD4200000

def imm26Mask : ℕ := 0x03FFFFFF
def imm19Mask : ℕ := 0x0007FFFF

/-- `op | imm26`. The source's conversion to `i32` fails only outside the range it checks next. -/
def branchImm26 (op : Opcode) (offset : ℤ) : Option ℕ :=
  if offset % 4 ≠ 0 then none
  else if FitsSigned 26 (offset / 4) then some (op.bits ||| (ofSigned 32 (offset / 4) &&& imm26Mask))
  else none

/-- `op | imm19 << 5 | low`. -/
def pcrelImm19 (op : Opcode) (offset : ℤ) (low : ℕ) : Option ℕ :=
  if offset % 4 ≠ 0 then none
  else if FitsSigned 19 (offset / 4) then
    some (op.bits ||| (ofSigned 32 (offset / 4) &&& imm19Mask) <<< 5 ||| low)
  else none

def regInRn (op : Opcode) (rn : Reg) : ℕ := op.bits ||| rn.val <<< 5

/-- `op | imm12 << 10 | rn << 5 | rd`. -/
def dataImm12 (op : Opcode) (rd rn : Reg) (imm12 : ℕ) : Option ℕ :=
  if 2 ^ 12 ≤ imm12 then none else some (op.bits ||| imm12 <<< 10 ||| rn.val <<< 5 ||| rd.val)

/-- `op | imm12 << 10 | rn << 5 | rt`, with the offset in units of eight bytes. -/
def ldstUimm12 (op : Opcode) (rt rn : Reg) (immBytes : ℕ) : Option ℕ :=
  if immBytes % 8 ≠ 0 then none
  else if 2 ^ 12 ≤ immBytes / 8 then none
  else some (op.bits ||| (immBytes / 8) <<< 10 ||| rn.val <<< 5 ||| rt.val)

/-- `op | imm7 << 15 | rt2 << 10 | rn << 5 | rt`, with the offset in units of eight bytes. -/
def ldstPair (op : Opcode) (rt rt2 rn : Reg) (immBytes : ℤ) : Option ℕ :=
  if immBytes % 8 ≠ 0 then none
  else if FitsSigned 7 (immBytes / 8) then
    some (op.bits ||| (ofSigned 16 (immBytes / 8) &&& 0x7F) <<< 15 ||| rt2.val <<< 10 ||| rn.val <<< 5 ||| rt.val)
  else none

def sysregMove (base : ℕ) (rt : Reg) : ℕ := base ||| rt.val

inductive Insn where
  | b (offset : ℤ)
  | adrp (rd : Reg) (pageOff : ℤ)
  | ldrLiteral (rt : Reg) (off : ℤ)
  | br (rn : Reg)
  | subSp (imm12 : ℕ)
  | addSp (imm12 : ℕ)
  | addImm (rd rn : Reg) (imm12 : ℕ)
  | strUimm (rt rn : Reg) (immBytes : ℕ)
  | ldrUimm (rt rn : Reg) (immBytes : ℕ)
  | stp (rt rt2 rn : Reg) (immBytes : ℤ)
  | ldp (rt rt2 rn : Reg) (immBytes : ℤ)
  | mrsTpidrEl0 (rt : Reg)
  | brk (imm : ℕ)
deriving DecidableEq, Repr

namespace Insn

def encode : Insn → Option ℕ
  | .b off => branchImm26 .b off
  | .adrp rd pageOff =>
    if FitsSigned 21 pageOff then
      let imm := ofSigned 32 pageOff
      some (Opcode.bits .adrp ||| (imm &&& 3) <<< 29 ||| (imm >>> 2 &&& imm19Mask) <<< 5 ||| rd.val)
    else none
  | .ldrLiteral rt off => pcrelImm19 .ldrLiteral off rt.val
  | .br rn => some (regInRn .br rn)
  | .subSp imm12 => dataImm12 .subImm sp sp imm12
  | .addSp imm12 => dataImm12 .addImm sp sp imm12
  | .addImm rd rn imm12 => dataImm12 .addImm rd rn imm12
  | .strUimm rt rn immBytes => ldstUimm12 .strUimm rt rn immBytes
  | .ldrUimm rt rn immBytes => ldstUimm12 .ldrUimm rt rn immBytes
  | .stp rt rt2 rn immBytes => ldstPair .stp rt rt2 rn immBytes
  | .ldp rt rt2 rn immBytes => ldstPair .ldp rt rt2 rn immBytes
  | .mrsTpidrEl0 rt => some (sysregMove (Opcode.bits .mrsTpidrEl0) rt)
  | .brk imm => some (Opcode.bits .brk ||| imm <<< 5)

/-- The register in a five-bit field. -/
def regField (word low : ℕ) : Reg := ⟨field word low 5, field_lt word low 5⟩

/-- The instructions that the ten high bits tell apart, and those that only more bits do. -/
def decodeClass (word : ℕ) : Option Insn :=
  if field word 22 10 = 0x344 then
    if regField word 0 = sp ∧ regField word 5 = sp then some (.subSp (field word 10 12)) else none
  else if field word 22 10 = 0x244 then
    if regField word 0 = sp ∧ regField word 5 = sp then some (.addSp (field word 10 12))
    else some (.addImm (regField word 0) (regField word 5) (field word 10 12))
  else if field word 22 10 = 0x3E4 then
    some (.strUimm (regField word 0) (regField word 5) (8 * field word 10 12))
  else if field word 22 10 = 0x3E5 then
    some (.ldrUimm (regField word 0) (regField word 5) (8 * field word 10 12))
  else if field word 22 10 = 0x2A4 then
    some (.stp (regField word 0) (regField word 10) (regField word 5) (8 * toSigned 7 (field word 15 7)))
  else if field word 22 10 = 0x2A5 then
    some (.ldp (regField word 0) (regField word 10) (regField word 5) (8 * toSigned 7 (field word 15 7)))
  else if field word 5 27 = 0x6A9DE82 then some (.mrsTpidrEl0 (regField word 0))
  else if field word 21 11 = 0x6A1 ∧ field word 0 5 = 0 then some (.brk (field word 5 16))
  else none

/-- What a word means to the processor, for the instructions above. -/
def decode (word : ℕ) : Option Insn :=
  if field word 26 6 = 0b000101 then some (.b (4 * toSigned 26 (field word 0 26)))
  else if field word 24 8 = 0x58 then
    some (.ldrLiteral (regField word 0) (4 * toSigned 19 (field word 5 19)))
  else if field word 31 1 = 1 ∧ field word 24 5 = 0b10000 then
    some (.adrp (regField word 0) (toSigned 21 (field word 5 19 * 4 + field word 29 2)))
  else if field word 10 22 = 0x3587C0 ∧ field word 0 5 = 0 then some (.br (regField word 5))
  else decodeClass word

/-- The address a PC-relative instruction at `pc` names. -/
def target (pc : ℕ) : Insn → Option ℕ
  | .b offset | .ldrLiteral _ offset => some (((pc + offset) % 2 ^ 64).toNat)
  | .adrp _ pageOff => some ((((pc / 4096 * 4096 : ℕ) + pageOff * 4096) % 2 ^ 64).toNat)
  | _ => none

end Insn

/-! ## The encoders as sums of fields -/

open Insn

variable {op : Opcode} {word imm imm12 : ℕ} {offset : ℤ} {rn rd rt rt2 : Reg}

theorem branchImm26_eq_some (encoded : branchImm26 .b offset = some word) :
    offset % 4 = 0 ∧ FitsSigned 26 (offset / 4) ∧ word = 0x14000000 + ofSigned 26 (offset / 4) := by
  unfold branchImm26 at encoded
  split_ifs at encoded with aligned fits
  refine ⟨not_ne_iff.mp aligned, fits, ?_⟩
  have field_eq : ofSigned 32 (offset / 4) &&& imm26Mask = ofSigned 26 (offset / 4) :=
    (and_mask _ 26).trans (ofSigned_mod (by decide) _)
  have sum : Opcode.bits .b ||| ofSigned 26 (offset / 4) = 0x14000000 + ofSigned 26 (offset / 4) :=
    or_eq_add 26 (by decide) (ofSigned_lt 26 _)
  rw [field_eq, sum] at encoded
  exact (some.inj encoded).symm

theorem pcrelImm19_eq_some {low : ℕ} (small : low < 32) (encoded : pcrelImm19 .ldrLiteral offset low = some word) :
    offset % 4 = 0 ∧ FitsSigned 19 (offset / 4) ∧ word = 0x58000000 + ofSigned 19 (offset / 4) * 2 ^ 5 + low := by
  unfold pcrelImm19 at encoded
  split_ifs at encoded with aligned fits
  refine ⟨not_ne_iff.mp aligned, fits, ?_⟩
  have field_eq : ofSigned 32 (offset / 4) &&& imm19Mask = ofSigned 19 (offset / 4) :=
    (and_mask _ 19).trans (ofSigned_mod (by decide) _)
  have bound := ofSigned_lt 19 (offset / 4)
  have high : Opcode.bits .ldrLiteral ||| ofSigned 19 (offset / 4) * 2 ^ 5 =
      0x58000000 + ofSigned 19 (offset / 4) * 2 ^ 5 :=
    or_eq_add 24 (by decide) (by omega)
  have whole : 0x58000000 + ofSigned 19 (offset / 4) * 2 ^ 5 ||| low =
      0x58000000 + ofSigned 19 (offset / 4) * 2 ^ 5 + low := or_eq_add 5 (by omega) small
  rw [field_eq, shiftLeft_eq, high, whole] at encoded
  exact (some.inj encoded).symm

/-- The fields of a word with twelve bits over two registers. -/
theorem imm12_fields {high : ℕ} (whole : 2 ^ 22 ∣ high ∧ high < 2 ^ 32) (small : imm12 < 2 ^ 12)
    (word_eq : high ||| imm12 <<< 10 ||| rn.val <<< 5 ||| rd.val = word) :
    field word 22 10 = high / 2 ^ 22 ∧ field word 10 12 = imm12 ∧ regField word 5 = rn ∧ regField word 0 = rd ∧ word < 2 ^ 32 := by
  have := rn.isLt
  have := rd.isLt
  have first : high ||| imm12 * 2 ^ 10 = high + imm12 * 2 ^ 10 := or_eq_add 22 whole.1 (by omega)
  have second : high + imm12 * 2 ^ 10 ||| rn.val * 2 ^ 5 = high + imm12 * 2 ^ 10 + rn.val * 2 ^ 5 :=
    or_eq_add 10 (by omega) (by omega)
  have third : high + imm12 * 2 ^ 10 + rn.val * 2 ^ 5 ||| rd.val =
      high + imm12 * 2 ^ 10 + rn.val * 2 ^ 5 + rd.val := or_eq_add 5 (by omega) rd.isLt
  rw [shiftLeft_eq, shiftLeft_eq, first, second, third] at word_eq
  simp only [regField, Fin.ext_iff, field]
  omega

theorem dataImm12_fields (whole : 2 ^ 22 ∣ op.bits ∧ op.bits < 2 ^ 32) (encoded : dataImm12 op rd rn imm12 = some word) :
    field word 22 10 = op.bits / 2 ^ 22 ∧ field word 10 12 = imm12 ∧ regField word 5 = rn ∧ regField word 0 = rd ∧ word < 2 ^ 32 := by
  unfold dataImm12 at encoded
  split_ifs at encoded with large
  exact imm12_fields whole (not_le.mp large) (some.inj encoded)

theorem ldstUimm12_fields (whole : 2 ^ 22 ∣ op.bits ∧ op.bits < 2 ^ 32) {immBytes : ℕ}
    (encoded : ldstUimm12 op rt rn immBytes = some word) :
    field word 22 10 = op.bits / 2 ^ 22 ∧ 8 * field word 10 12 = immBytes ∧ regField word 5 = rn ∧ regField word 0 = rt ∧ word < 2 ^ 32 := by
  unfold ldstUimm12 at encoded
  split_ifs at encoded with units large
  obtain ⟨class_eq, imm_eq, rest⟩ := imm12_fields whole (not_le.mp large) (some.inj encoded)
  exact ⟨class_eq, by omega, rest⟩

/-- The offset of a pair access and its second register share the twelve bits. -/
theorem ldstPair_fields (whole : 2 ^ 22 ∣ op.bits ∧ op.bits < 2 ^ 32) {immBytes : ℤ}
    (encoded : ldstPair op rt rt2 rn immBytes = some word) :
    field word 22 10 = op.bits / 2 ^ 22 ∧ 8 * toSigned 7 (field word 15 7) = immBytes ∧ regField word 10 = rt2 ∧
      regField word 5 = rn ∧ regField word 0 = rt ∧ word < 2 ^ 32 := by
  unfold ldstPair at encoded
  split_ifs at encoded with units fits
  have field_eq : ofSigned 16 (immBytes / 8) &&& 0x7F = ofSigned 7 (immBytes / 8) :=
    (and_mask _ 7).trans (ofSigned_mod (by decide) _)
  have bound := ofSigned_lt 7 (immBytes / 8)
  have := rt2.isLt
  have shared : ofSigned 7 (immBytes / 8) <<< 15 ||| rt2.val <<< 10 = (ofSigned 7 (immBytes / 8) * 2 ^ 5 + rt2.val) <<< 10 := by
    rw [← or_eq_add 5 (dvd_mul_left _ _) rt2.isLt, shiftLeft_or_distrib, ← shiftLeft_eq, ← shiftLeft_add]
  rw [field_eq, Nat.or_assoc op.bits, shared] at encoded
  obtain ⟨class_eq, imm_eq, rest⟩ := imm12_fields whole (by omega) (some.inj encoded)
  have imm7 : field word 15 7 = ofSigned 7 (immBytes / 8) := by
    unfold field at *
    omega
  rw [imm7, toSigned_ofSigned (by decide) fits]
  refine ⟨class_eq, by omega, Fin.ext ?_, rest⟩
  change field word 10 5 = rt2.val
  unfold field at *
  omega

/-- The 21 bits of an `ADRP` are split into two low and nineteen high ones. -/
theorem adrp_eq_some {pageOff : ℤ} (encoded : (Insn.adrp rd pageOff).encode = some word) :
    FitsSigned 21 pageOff ∧ word = 0x90000000 + ofSigned 21 pageOff % 4 * 2 ^ 29 + ofSigned 21 pageOff / 4 * 2 ^ 5 + rd.val := by
  simp only [Insn.encode] at encoded
  split_ifs at encoded with fits
  refine ⟨fits, ?_⟩
  have low_eq : ofSigned 32 pageOff &&& 3 = ofSigned 21 pageOff % 4 := by
    rw [show 3 = 2 ^ 2 - 1 from rfl, and_mask, ← ofSigned_mod (by decide : 21 ≤ 32)]
    omega
  have high_eq : ofSigned 32 pageOff >>> 2 &&& imm19Mask = ofSigned 21 pageOff / 4 := by
    rw [show imm19Mask = 2 ^ 19 - 1 from rfl, and_mask, shiftRight_eq_div_pow, ← ofSigned_mod (by decide : 21 ≤ 32)]
    omega
  have bound := ofSigned_lt 21 pageOff
  rw [low_eq, high_eq] at encoded
  generalize ofSigned 21 pageOff = imm at encoded bound
  have low_lt : imm % 4 < 4 := mod_lt _ (by decide)
  have first : Opcode.bits .adrp ||| imm % 4 * 2 ^ 29 = 0x90000000 + imm % 4 * 2 ^ 29 := by
    generalize imm % 4 = low at low_lt
    interval_cases low <;> rfl
  have second : 0x90000000 + imm % 4 * 2 ^ 29 ||| imm / 4 * 2 ^ 5 =
      0x90000000 + imm % 4 * 2 ^ 29 + imm / 4 * 2 ^ 5 := or_eq_add 24 (by omega) (by omega)
  have third : 0x90000000 + imm % 4 * 2 ^ 29 + imm / 4 * 2 ^ 5 ||| rd.val =
      0x90000000 + imm % 4 * 2 ^ 29 + imm / 4 * 2 ^ 5 + rd.val := or_eq_add 5 (by omega) rd.isLt
  rw [shiftLeft_eq, shiftLeft_eq, first, second, third] at encoded
  exact (some.inj encoded).symm

/-! ## Decoding -/

namespace Insn

theorem decode_b (small : imm < 2 ^ 26) (word_eq : word = 0x14000000 + imm) : decode word = some (.b (4 * toSigned 26 imm)) := by
  have imm_eq : field word 0 26 = imm := by unfold field; omega
  rw [decode, if_pos (by unfold field; omega), imm_eq]

theorem decode_ldrLiteral (small : imm < 2 ^ 19) (rt : Reg) (word_eq : word = 0x58000000 + imm * 2 ^ 5 + rt.val) :
    decode word = some (.ldrLiteral rt (4 * toSigned 19 imm)) := by
  have := rt.isLt
  have imm_eq : field word 5 19 = imm := by unfold field; omega
  have rt_eq : regField word 0 = rt := Fin.ext (by change field word 0 5 = rt.val; unfold field; omega)
  rw [decode, if_neg (by unfold field; omega), if_pos (by unfold field; omega), imm_eq, rt_eq]

theorem decode_adrp (small : imm < 2 ^ 21) (rd : Reg)
    (word_eq : word = 0x90000000 + imm % 4 * 2 ^ 29 + imm / 4 * 2 ^ 5 + rd.val) :
    decode word = some (.adrp rd (toSigned 21 imm)) := by
  obtain ⟨high, low, imm_eq, high_lt, low_lt⟩ : ∃ high low, imm = high * 4 + low ∧ high < 2 ^ 19 ∧ low < 4 :=
    ⟨imm / 4, imm % 4, by omega, by omega, by omega⟩
  have low_eq : imm % 4 = low := by omega
  have high_eq : imm / 4 = high := by omega
  rw [low_eq, high_eq] at word_eq
  have := rd.isLt
  -- the classes are told apart by the bits around the two low ones
  have fields : field word 5 19 = high ∧ field word 29 2 = low ∧ field word 0 5 = rd.val ∧
      field word 26 6 ≠ 0b000101 ∧ field word 24 8 ≠ 0x58 ∧ field word 31 1 = 1 ∧ field word 24 5 = 0b10000 := by
    unfold field
    interval_cases low <;> omega
  obtain ⟨high_field, low_field, rd_field, not_b, not_ldr, top, class_eq⟩ := fields
  have rd_eq : regField word 0 = rd := Fin.ext rd_field
  rw [decode, if_neg not_b, if_neg not_ldr, if_pos ⟨top, class_eq⟩, high_field, low_field, ← imm_eq, rd_eq]

theorem decode_br (rn : Reg) : decode (regInRn .br rn) = some (.br rn) := by
  revert rn
  decide

theorem decode_mrsTpidrEl0 (rt : Reg) : decode (sysregMove (Opcode.bits .mrsTpidrEl0) rt) = some (.mrsTpidrEl0 rt) := by
  revert rt
  decide

theorem decode_eq_decodeClass {class_ : ℕ} (class_eq : field word 22 10 = class_)
    (other : class_ / 16 ≠ 5 ∧ class_ / 4 ≠ 0x58 ∧ class_ / 4 % 32 ≠ 0b10000 ∧ class_ ≠ 0x358) :
    decode word = decodeClass word := by
  obtain ⟨not_b, not_ldr, not_adrp, not_br⟩ := other
  subst class_eq
  rw [decode, if_neg, if_neg, if_neg, if_neg]
  all_goals
    unfold field at *
    omega

theorem decode_brk (small : imm < 2 ^ 16) (encoded : (Insn.brk imm).encode = some word) : decode word = some (.brk imm) := by
  have word_eq : word = 0xD4200000 + imm * 2 ^ 5 := by
    have sum : Opcode.bits .brk ||| imm * 2 ^ 5 = 0xD4200000 + imm * 2 ^ 5 := or_eq_add 21 (by decide) (by omega)
    simp only [encode, shiftLeft_eq, sum, some.injEq] at encoded
    exact encoded.symm
  have class_eq : field word 22 10 = 0x350 := by unfold field; omega
  have not_mrs : field word 5 27 ≠ 0x6A9DE82 := by unfold field; omega
  have brk_eq : field word 21 11 = 0x6A1 ∧ field word 0 5 = 0 := by unfold field; omega
  have imm_eq : field word 5 16 = imm := by unfold field; omega
  rw [decode_eq_decodeClass class_eq (by decide)]
  simp [decodeClass, class_eq, not_mrs, brk_eq, imm_eq]

/-- The instructions that only one form encodes. -/
def Canonical : Insn → Prop
  | .addImm rd rn _ => ¬ (rd = sp ∧ rn = sp)
  | .brk imm => imm < 2 ^ 16
  | _ => True

/-- The processor sees the instruction that was encoded. -/
theorem decode_encode {insn : Insn} (canonical : insn.Canonical) (encoded : insn.encode = some word) :
    decode word = some insn := by
  cases insn with
  | b offset =>
    obtain ⟨aligned, fits, word_eq⟩ := branchImm26_eq_some encoded
    rw [decode_b (ofSigned_lt 26 _) word_eq, toSigned_ofSigned (by decide) fits]
    congr 2
    omega
  | adrp rd pageOff =>
    obtain ⟨fits, word_eq⟩ := adrp_eq_some encoded
    rw [decode_adrp (ofSigned_lt 21 _) rd word_eq, toSigned_ofSigned (by decide) fits]
  | ldrLiteral rt off =>
    obtain ⟨aligned, fits, word_eq⟩ := pcrelImm19_eq_some rt.isLt encoded
    rw [decode_ldrLiteral (ofSigned_lt 19 _) rt word_eq, toSigned_ofSigned (by decide) fits]
    congr 2
    omega
  | br rn =>
    obtain rfl := some.inj encoded
    exact decode_br rn
  | subSp imm12 | addSp imm12 =>
    obtain ⟨class_eq, imm_eq, rn_eq, rd_eq, -⟩ := dataImm12_fields (by decide) encoded
    rw [decode_eq_decodeClass class_eq (by decide)]
    simp [decodeClass, class_eq, imm_eq, rn_eq, rd_eq, Opcode.bits]
  | addImm rd rn imm12 =>
    obtain ⟨class_eq, imm_eq, rn_eq, rd_eq, -⟩ := dataImm12_fields (by decide) encoded
    have other : ¬(rd = sp ∧ rn = sp) := canonical
    rw [decode_eq_decodeClass class_eq (by decide)]
    simp [decodeClass, class_eq, imm_eq, rn_eq, rd_eq, Opcode.bits, other]
  | strUimm rt rn immBytes | ldrUimm rt rn immBytes =>
    obtain ⟨class_eq, imm_eq, rn_eq, rt_eq, -⟩ := ldstUimm12_fields (by decide) encoded
    rw [decode_eq_decodeClass class_eq (by decide)]
    simp [decodeClass, class_eq, imm_eq, rn_eq, rt_eq, Opcode.bits]
  | stp rt rt2 rn immBytes | ldp rt rt2 rn immBytes =>
    obtain ⟨class_eq, imm_eq, rt2_eq, rn_eq, rt_eq, -⟩ := ldstPair_fields (by decide) encoded
    rw [decode_eq_decodeClass class_eq (by decide)]
    simp [decodeClass, class_eq, imm_eq, rt2_eq, rn_eq, rt_eq, Opcode.bits]
  | mrsTpidrEl0 rt =>
    obtain rfl := some.inj encoded
    exact decode_mrsTpidrEl0 rt
  | brk imm => exact decode_brk canonical encoded

/-- Encodings are words. -/
theorem encode_lt {insn : Insn} (canonical : insn.Canonical) (encoded : insn.encode = some word) : word < 2 ^ 32 := by
  cases insn with
  | b offset =>
    obtain ⟨-, -, rfl⟩ := branchImm26_eq_some encoded
    have := ofSigned_lt 26 (offset / 4)
    omega
  | adrp rd pageOff =>
    obtain ⟨-, rfl⟩ := adrp_eq_some encoded
    have := ofSigned_lt 21 pageOff
    have := rd.isLt
    omega
  | ldrLiteral rt off =>
    obtain ⟨-, -, rfl⟩ := pcrelImm19_eq_some rt.isLt encoded
    have := ofSigned_lt 19 (off / 4)
    have := rt.isLt
    omega
  | br rn =>
    obtain rfl := some.inj encoded
    have all : ∀ rn, regInRn .br rn < 2 ^ 32 := by decide
    exact all rn
  | subSp | addSp | addImm => exact (dataImm12_fields (by decide) encoded).2.2.2.2
  | strUimm | ldrUimm => exact (ldstUimm12_fields (by decide) encoded).2.2.2.2
  | stp | ldp => exact (ldstPair_fields (by decide) encoded).2.2.2.2.2
  | mrsTpidrEl0 rt =>
    obtain rfl := some.inj encoded
    have all : ∀ rt, sysregMove (Opcode.bits .mrsTpidrEl0) rt < 2 ^ 32 := by decide
    exact all rt
  | brk imm =>
    have small : imm < 2 ^ 16 := canonical
    have sum : Opcode.bits .brk ||| imm * 2 ^ 5 = 0xD4200000 + imm * 2 ^ 5 := or_eq_add 21 (by decide) (by omega)
    simp only [encode, shiftLeft_eq, sum, some.injEq] at encoded
    omega

end Insn

end LiteBox.Rewriter.Arm64
