import LiteBox.Lib.Bytes
import LiteBox.Rewriter.Iced

/-! # A decoder for a few instructions

An executable decoder and encoder for `syscall`, `nop`, `mov eax, imm32`, `mov eax, [rip + disp32]`
and the jumps and the `lea` the rewriter writes. It satisfies every law asked of `Iced`, and it
decodes the concrete sections below as the x86 manual does; any other byte is an invalid
instruction of its own.
-/

namespace LiteBox.Rewriter.Subset

open Bytes Nat Option

inductive Op where
  | syscall
  | nop
  | movImm (imm : ℕ)
  | movMem (target : ℕ)
  | leaRcx (target : ℕ)
  | jmpRel (target : ℕ)
  | jmpMem (target : ℕ)
  | invalid
deriving DecidableEq, Repr

structure Inst where
  ip : ℕ
  len : ℕ
  op : Op
deriving DecidableEq, Repr

/-- The address a displacement names, counted from the next instruction. -/
def ripTarget (next : ℕ) (disp : List UInt8) : ℕ :=
  (((next : ℤ) + toSigned 32 (leValue disp)) % 2 ^ 64).toNat

/-- The displacement that names a target, when it fits. -/
def ripDisp (next target : ℕ) : Option (List UInt8) :=
  if target < 2 ^ 64 ∧ FitsSigned 32 ((target : ℤ) - next) then
    some (leBytes 4 (ofSigned 32 ((target : ℤ) - next)))
  else none

/-- The length and the operation of the first instruction; none is longer than seven bytes. -/
def decodeSeven (ip : ℕ) : List UInt8 → ℕ × Op
  | 0x0F :: 0x05 :: _ => (2, .syscall)
  | 0x90 :: _ => (1, .nop)
  | 0xB8 :: a :: b :: c :: d :: _ => (5, .movImm (leValue [a, b, c, d]))
  | 0x8B :: 0x05 :: a :: b :: c :: d :: _ => (6, .movMem (ripTarget (ip + 6) [a, b, c, d]))
  | 0x48 :: 0x8D :: 0x0D :: a :: b :: c :: d :: _ => (7, .leaRcx (ripTarget (ip + 7) [a, b, c, d]))
  | 0xE9 :: a :: b :: c :: d :: _ => (5, .jmpRel (ripTarget (ip + 5) [a, b, c, d]))
  | 0xFF :: 0x25 :: a :: b :: c :: d :: _ => (6, .jmpMem (ripTarget (ip + 6) [a, b, c, d]))
  | _ :: _ => (1, .invalid)
  | [] => (0, .invalid)

def decode (bytes : List UInt8) (ip : ℕ) : Inst :=
  ⟨ip, (decodeSeven ip (bytes.take 7)).1, (decodeSeven ip (bytes.take 7)).2⟩

def Op.flowsNext : Op → Bool
  | .nop | .movImm _ | .movMem _ | .leaRcx _ => true
  | .syscall | .jmpRel _ | .jmpMem _ | .invalid => false

def Op.nearBranchTarget : Op → ℕ
  | .jmpRel target => target
  | _ => 0

def Op.storedTarget : Op → Option ℕ
  | .movMem target | .leaRcx target | .jmpRel target | .jmpMem target => some target
  | _ => none

def Op.encode (ip : ℕ) : Op → Option (List UInt8)
  | .syscall => some [0x0F, 0x05]
  | .nop => some [0x90]
  | .movImm imm => some (0xB8 :: leBytes 4 imm)
  | .movMem target => (ripDisp (ip + 6) target).map ([0x8B, 0x05] ++ ·)
  | .leaRcx target => (ripDisp (ip + 7) target).map ([0x48, 0x8D, 0x0D] ++ ·)
  | .jmpRel target => (ripDisp (ip + 5) target).map ([0xE9] ++ ·)
  | .jmpMem target => (ripDisp (ip + 6) target).map ([0xFF, 0x25] ++ ·)
  | .invalid => none

def iced : Iced where
  Inst := Inst
  decode := decode
  ip := Inst.ip
  len := Inst.len
  setIp inst ip := { inst with ip := ip }
  isSyscall inst := inst.op = .syscall
  flowsNext inst := inst.op.flowsNext
  nearBranchTarget inst := inst.op.nearBranchTarget
  storedTarget inst := inst.op.storedTarget
  encode inst ip := inst.op.encode ip

instance : DecidableEq iced.Inst := inferInstanceAs (DecidableEq Inst)

theorem ripTarget_ripDisp {next target : ℕ} {disp : List UInt8} (found : ripDisp next target = some disp) :
    (∃ a b c d, disp = [a, b, c, d]) ∧ ripTarget next disp = target := by
  unfold ripDisp at found
  split_ifs at found with fits
  cases found
  obtain ⟨small, signed⟩ := fits
  refine ⟨⟨_, _, _, _, rfl⟩, ?_⟩
  have field : leValue (leBytes 4 (ofSigned 32 ((target : ℤ) - next))) = ofSigned 32 ((target : ℤ) - next) := by
    rw [leValue_leBytes]
    exact mod_eq_of_lt (ofSigned_lt 32 _)
  rw [ripTarget, field, toSigned_ofSigned (by decide) signed, add_sub_cancel]
  omega

theorem decodeSeven_len (ip : ℕ) (bytes : List UInt8) :
    (decodeSeven ip bytes).1 ≤ bytes.length ∧ (bytes ≠ [] → 0 < (decodeSeven ip bytes).1) := by
  unfold decodeSeven
  split <;> simp

theorem decodeLaws : iced.DecodeLaws where
  len_pos := by
    intro bytes ip nonempty
    exact (decodeSeven_len ip (bytes.take 7)).2 (by simpa using nonempty)
  len_le := by
    intro bytes ip
    have bound := (decodeSeven_len ip (bytes.take 7)).1
    rw [List.length_take] at bound
    exact bound.trans (min_le_right _ _)
  ip_eq := fun _ _ => rfl
  reads_max := by
    intro bytes ip
    simp only [iced, decode, List.take_take]
    rfl

variable {bytes : List UInt8}

/-- Whatever an operation encodes to decodes, with anything behind it, to that operation. -/
theorem decodeSeven_encode {op : Op} {ip : ℕ} (found : op.encode ip = some bytes) (rest : List UInt8) :
    (decodeSeven ip ((bytes ++ rest).take 7)).1 = bytes.length ∧
      ((decodeSeven ip ((bytes ++ rest).take 7)).2 = op ∨
        ∃ imm imm', op = .movImm imm ∧ (decodeSeven ip ((bytes ++ rest).take 7)).2 = .movImm imm') := by
  cases op with
  | syscall | nop => cases found; exact ⟨rfl, .inl rfl⟩
  | movImm imm => cases found; exact ⟨rfl, .inr ⟨imm, _, rfl, rfl⟩⟩
  | movMem target | leaRcx target | jmpRel target | jmpMem target =>
    obtain ⟨disp, fits, rfl⟩ := map_eq_some_iff.mp found
    obtain ⟨⟨a, b, c, d, rfl⟩, back⟩ := ripTarget_ripDisp fits
    exact ⟨rfl, .inl (back ▸ rfl)⟩
  | invalid => cases found

/-- A property of operations that does not look at immediates survives encoding. -/
theorem decode_encode_eq {α : Type} (view : Op → α) (blind : ∀ imm imm', view (.movImm imm) = view (.movImm imm'))
    {op : Op} {ip : ℕ} (found : op.encode ip = some bytes) (rest : List UInt8) :
    view (decode (bytes ++ rest) ip).op = view op := by
  obtain ⟨-, same | ⟨imm, imm', rfl, same⟩⟩ := decodeSeven_encode found rest
  · exact congrArg view same
  · exact (congrArg view same).trans (blind imm' imm)

theorem encodeLaws : iced.EncodeLaws where
  encode_setIp := fun _ _ _ => rfl
  len_decode := by
    intro inst ip bytes rest found length
    exact (decodeSeven_encode found rest).1.trans length
  isSyscall_decode := by
    intro inst ip bytes rest found _
    exact decode_encode_eq (fun op => decide (op = .syscall)) (fun _ _ => rfl) found rest
  flowsNext_decode := by
    intro inst ip bytes rest found _
    exact decode_encode_eq Op.flowsNext (fun _ _ => rfl) found rest
  storedTarget_decode := by
    intro inst ip bytes rest found _
    exact decode_encode_eq Op.storedTarget (fun _ _ => rfl) found rest

theorem x86Laws : iced.X86Laws where
  syscall_flow := by
    intro inst isSyscall
    have same : inst.op = .syscall := of_decide_eq_true isSyscall
    simp [iced, same, Op.flowsNext]
  syscall_len := by
    intro bytes ip isSyscall
    have same : (decodeSeven ip (bytes.take 7)).2 = .syscall := of_decide_eq_true isSyscall
    change 2 ≤ (decodeSeven ip (bytes.take 7)).1
    generalize bytes.take 7 = seven at same
    unfold decodeSeven at same ⊢
    split at same <;> first | exact le_refl _ | cases same
  lea := fun _ _ => ⟨rfl, rfl, rfl⟩
  jmpMem := by
    intro disp length rest ip
    match disp, length with
    | [a, b, c, d], _ => exact ⟨rfl, rfl, rfl⟩
  jmpRel := by
    intro disp length rest ip
    match disp, length with
    | [a, b, c, d], _ => exact ⟨rfl, rfl, rfl⟩

theorem ripTarget_lt (next : ℕ) (disp : List UInt8) : ripTarget next disp < 2 ^ 64 := by
  unfold ripTarget
  omega

theorem ripTarget_add (next delta : ℕ) (disp : List UInt8) :
    ripTarget (next + delta) disp = (ripTarget next disp + delta) % 2 ^ 64 := by
  unfold ripTarget
  push_cast
  omega

def Op.isNearBranch : Op → Bool
  | .jmpRel _ => true
  | _ => false

/-- Everything but the address and the stored target is the same at any address. -/
theorem decodeSeven_alike (ip ip' : ℕ) (bytes : List UInt8) :
    (decodeSeven ip bytes).1 = (decodeSeven ip' bytes).1 ∧
      ((decodeSeven ip bytes).2 = .syscall ↔ (decodeSeven ip' bytes).2 = .syscall) ∧
      (decodeSeven ip bytes).2.flowsNext = (decodeSeven ip' bytes).2.flowsNext ∧
      (decodeSeven ip bytes).2.isNearBranch = (decodeSeven ip' bytes).2.isNearBranch ∧
      ((decodeSeven ip bytes).2.storedTarget = none → (decodeSeven ip bytes).2 = (decodeSeven ip' bytes).2) := by
  unfold decodeSeven
  split <;> simp [Op.flowsNext, Op.isNearBranch, Op.storedTarget]

theorem storedTarget_decodeSeven_lt {ip target : ℕ}
    (stored : (decodeSeven ip bytes).2.storedTarget = some target) : target < 2 ^ 64 := by
  unfold decodeSeven at stored
  split at stored <;> cases stored <;> exact ripTarget_lt _ _

theorem relocationLaws : iced.RelocationLaws where
  setIp_ip := fun _ _ => rfl
  setIp_len := fun _ _ => rfl
  setIp_flowsNext := fun _ _ => rfl
  setIp_storedTarget := fun _ _ => rfl
  decode_len := fun bytes ip ip' => (decodeSeven_alike ip ip' (bytes.take 7)).1
  decode_isSyscall := fun bytes ip ip' => decide_eq_decide.mpr (decodeSeven_alike ip ip' (bytes.take 7)).2.1
  decode_flowsNext := fun bytes ip ip' => (decodeSeven_alike ip ip' (bytes.take 7)).2.2.1
  decode_storedTarget := by
    intro bytes ip delta
    change (decodeSeven (ip + delta) (bytes.take 7)).2.storedTarget = (decodeSeven ip (bytes.take 7)).2.storedTarget.map _
    unfold decodeSeven
    split <;> simp [Op.storedTarget, add_right_comm ip delta, ripTarget_add]
  decode_setIp := by
    intro bytes ip ip' stored
    obtain ⟨len, -, -, -, same⟩ := decodeSeven_alike ip ip' (bytes.take 7)
    exact congrArg₂ (Inst.mk ip') len (same stored)
  nearBranch := by
    intro bytes
    cases near : (decodeSeven 0 (bytes.take 7)).2.isNearBranch with
    | false =>
      refine .inl fun ip => ?_
      have same := (decodeSeven_alike ip 0 (bytes.take 7)).2.2.2.1.trans near
      change (decodeSeven ip (bytes.take 7)).2.nearBranchTarget = 0
      cases op : (decodeSeven ip (bytes.take 7)).2 <;> rw [op] at same <;> first | rfl | cases same
    | true =>
      refine .inr fun ip => ?_
      have same := (decodeSeven_alike ip 0 (bytes.take 7)).2.2.2.1.trans near
      change (decodeSeven ip (bytes.take 7)).2.storedTarget = some (decodeSeven ip (bytes.take 7)).2.nearBranchTarget
      cases op : (decodeSeven ip (bytes.take 7)).2 <;> rw [op] at same <;> first | rfl | cases same
  storedTarget_lt := fun _ _ _ => storedTarget_decodeSeven_lt

end LiteBox.Rewriter.Subset
