import LiteBox.Lib.ClassicBpf
import LiteBox.Seccomp.BpfSafety

/-! # The filter interpreter computes classic BPF

`classic` is the instruction table of classic BPF. On programs made of its instructions every turn
of `run_filter` is the table entry's own step on the machine's registers, so an accepted program
returns what the reference semantics say.
-/

namespace LiteBox.Seccomp

open Machine UInt32 Nat Bytes

open ClassicBpf (Insn Outcome Regs Eval)

/-- Classic BPF by opcode; the addressing modes that need a packet are not part of seccomp. -/
def classic (insn : SockFilter) : Option Insn :=
  let k := insn.k.toNat
  match insn.code.toNat with
  | 0x00 => some (.load .a (.imm k))
  | 0x01 => some (.load .x (.imm k))
  | 0x20 => some (.load .a (.data .word k))
  | 0x28 => some (.load .a (.data .half k))
  | 0x30 => some (.load .a (.data .byte k))
  | 0x60 => some (.load .a (.mem k))
  | 0x61 => some (.load .x (.mem k))
  | 0x80 => some (.load .a .len)
  | 0x81 => some (.load .x .len)
  | 0x02 => some (.store .a k)
  | 0x03 => some (.store .x k)
  | 0x04 => some (.alu .add (.imm k))
  | 0x0c => some (.alu .add .index)
  | 0x14 => some (.alu .sub (.imm k))
  | 0x1c => some (.alu .sub .index)
  | 0x24 => some (.alu .mul (.imm k))
  | 0x2c => some (.alu .mul .index)
  | 0x34 => some (.alu .div (.imm k))
  | 0x3c => some (.alu .div .index)
  | 0x44 => some (.alu .or (.imm k))
  | 0x4c => some (.alu .or .index)
  | 0x54 => some (.alu .and (.imm k))
  | 0x5c => some (.alu .and .index)
  | 0x64 => some (.alu .lsh (.imm k))
  | 0x6c => some (.alu .lsh .index)
  | 0x74 => some (.alu .rsh (.imm k))
  | 0x7c => some (.alu .rsh .index)
  | 0x84 => some .neg
  | 0x94 => some (.alu .mod (.imm k))
  | 0x9c => some (.alu .mod .index)
  | 0xa4 => some (.alu .xor (.imm k))
  | 0xac => some (.alu .xor .index)
  | 0x05 => some (.jump k)
  | 0x15 => some (.branch .eq (.imm k) insn.jt.toNat insn.jf.toNat)
  | 0x1d => some (.branch .eq .index insn.jt.toNat insn.jf.toNat)
  | 0x25 => some (.branch .gt (.imm k) insn.jt.toNat insn.jf.toNat)
  | 0x2d => some (.branch .gt .index insn.jt.toNat insn.jf.toNat)
  | 0x35 => some (.branch .ge (.imm k) insn.jt.toNat insn.jf.toNat)
  | 0x3d => some (.branch .ge .index insn.jt.toNat insn.jf.toNat)
  | 0x45 => some (.branch .set (.imm k) insn.jt.toNat insn.jf.toNat)
  | 0x4d => some (.branch .set .index insn.jt.toNat insn.jf.toNat)
  | 0x06 => some (.retK k)
  | 0x16 => some .retA
  | 0x07 => some .tax
  | 0x87 => some .txa
  | _ => none

/-- The registers of the interpreter as the reference semantics see them. -/
def Machine.regs (s : Machine) : Regs :=
  ⟨s.a.toNat, s.x.toNat, fun slot => if h : slot < 16 then s.m[slot].toNat else 0⟩

theorem Machine.init_regs : init.regs = Regs.zero := by
  simp [regs, init, Regs.zero]

/-- A turn of the interpreter and a step of the reference that do the same. -/
def Agrees (pc : ℕ) : Except Exit Machine → Outcome → Prop
  | .ok next, .next offset regs => next.pc = pc + 1 + offset ∧ next.regs = regs
  | .error exit, .stop value => exit.value.toNat = value
  | _, _ => False

variable {len : ℕ} {data : SeccompData} {insn : SockFilter} {s : Machine}

/-! ## Arithmetic -/

/-- The operation bits of a reference operation. -/
def aluCode : ClassicBpf.AluOp → UInt16
  | .add => bpfAdd
  | .sub => bpfSub
  | .mul => bpfMul
  | .div => bpfDiv
  | .mod => bpfMod
  | .and => bpfAnd
  | .or => bpfOr
  | .xor => bpfXor
  | .lsh => bpfLsh
  | .rsh => bpfRsh

theorem alu_eval (op : ClassicBpf.AluOp) (a y : UInt32) : op.eval a.toNat y.toNat = (alu (aluCode op) a y).map toNat := by
  have zero : y.toNat = 0 ↔ y = 0 := by rw [← UInt32.toNat_inj]; rfl
  cases op with
  | add => exact congrArg some (UInt32.toNat_add a y).symm
  | sub =>
    refine congrArg some (Eq.trans ?_ (UInt32.toNat_sub a y).symm)
    rw [add_comm]
    rfl
  | mul => exact congrArg some (UInt32.toNat_mul a y).symm
  | div =>
    change (if y.toNat = 0 then none else some _) = (if y = 0 then none else some (a / y)).map toNat
    by_cases divisor : y = 0
    · rw [if_pos divisor, if_pos (zero.mpr divisor)]; rfl
    · rw [if_neg divisor, if_neg (fun h => divisor (zero.mp h)), ← UInt32.toNat_div]; rfl
  | mod =>
    change (if y.toNat = 0 then none else some _) = (if y = 0 then none else some (a % y)).map toNat
    by_cases divisor : y = 0
    · rw [if_pos divisor, if_pos (zero.mpr divisor)]; rfl
    · rw [if_neg divisor, if_neg (fun h => divisor (zero.mp h)), ← UInt32.toNat_mod]; rfl
  | and => exact congrArg some (UInt32.toNat_and a y).symm
  | or => exact congrArg some (UInt32.toNat_or a y).symm
  | xor => exact congrArg some (UInt32.toNat_xor a y).symm
  | lsh =>
    refine congrArg some (Eq.trans ?_ (UInt32.toNat_shiftLeft a y).symm)
    rw [shiftLeft_eq]
    rfl
  | rsh =>
    refine congrArg some (Eq.trans ?_ (UInt32.toNat_shiftRight a y).symm)
    rw [shiftRight_eq_div_pow]

/-! ## One turn -/

variable {src : ClassicBpf.Operand} {dst : ClassicBpf.Reg}

theorem agrees_alu {op : ClassicBpf.AluOp} (cls : insn.code &&& bpfClass = bpfAlu) (bits : insn.code &&& bpfOp = aluCode op)
    (second : (operand insn s).toNat = s.regs.operand src) :
    Agrees s.pc (step len data insn s) (Insn.exec data.bytes s.regs (.alu op src)) := by
  have value := alu_eval op s.a (operand insn s)
  rw [second] at value
  rw [step_alu cls]
  simp only [aluStep, bits, Insn.exec]
  change Agrees _ _ (Outcome.continue (op.eval s.a.toNat _) _)
  rw [value]
  cases alu (aluCode op) s.a (operand insn s) with
  | none => exact rfl
  | some v => exact ⟨rfl, rfl⟩

theorem agrees_load {source : ClassicBpf.Source} (value : UInt32)
    (cls : insn.code &&& bpfClass = if dst = .a then bpfLd else bpfLdx) (loaded : loadValue data insn s = .ok value)
    (found : source.eval data.bytes s.regs = some value.toNat) :
    Agrees s.pc (step len data insn s) (Insn.exec data.bytes s.regs (.load dst source)) := by
  simp only [Insn.exec, found]
  cases dst with
  | a =>
    rw [step_load (.inl cls), loadStep, loaded, cls]
    exact ⟨rfl, rfl⟩
  | x =>
    rw [step_load (.inr cls), loadStep, loaded, cls]
    exact ⟨rfl, rfl⟩

theorem agrees_store {src : ClassicBpf.Reg} (cls : insn.code &&& bpfClass = if src = .a then bpfSt else bpfStx)
    (bound : insn.k.toNat < 16) : Agrees s.pc (step len data insn s) (Insn.exec data.bytes s.regs (.store src insn.k.toNat)) := by
  have cell (value : UInt32) :
      regs { s with m := s.m.set insn.k.toNat value, pc := s.pc + 1 } =
        { s.regs with
          mem := fun slot => if slot = insn.k.toNat then value.toNat else s.regs.mem slot } := by
    simp only [regs, Regs.mk.injEq, true_and]
    funext slot
    by_cases same : slot = insn.k.toNat
    · subst same
      simp [bound]
    · simp [same, Ne.symm same]
  cases src with
  | a =>
    rw [step_store (.inl cls), storeStep, memSlot_isSome bound, cls]
    exact ⟨rfl, cell s.a⟩
  | x =>
    rw [step_store (.inr cls), storeStep, memSlot_isSome bound, cls]
    exact ⟨rfl, cell s.x⟩

theorem agrees_jmp {offset : ℕ} (size : len ≤ maxInsns) (inside : s.pc < len)
    (cls : insn.code &&& bpfClass = bpfJmp) (valid : validInsn len s.pc insn = true) (found : jumpOffset insn s = some offset) :
    Agrees s.pc (step len data insn s) (.next offset s.regs) := by
  obtain ⟨target, same, limit⟩ := jumpOffset_valid cls valid
  cases found.symm.trans same
  rw [step_jmp cls, jmpStep_eq size inside found limit]
  exact ⟨rfl, rfl⟩

/-- The operation bits of a reference condition. -/
def condCode : ClassicBpf.Cond → UInt16
  | .eq => bpfJeq
  | .gt => bpfJgt
  | .ge => bpfJge
  | .set => bpfJset

variable {cond : ClassicBpf.Cond}

theorem jumpOffset_branch (bits : insn.code &&& bpfOp = condCode cond)
    (second : (operand insn s).toNat = s.regs.operand src) :
    jumpOffset insn s = some (if cond.holds s.regs.a (s.regs.operand src) then insn.jt.toNat
      else insn.jf.toNat) := by
  have branch (taken : Prop) [Decidable taken] {test : Bool} (same : test = decide taken) :
      some (if taken then insn.jt else insn.jf).toNat = some (if test then insn.jt.toNat else insn.jf.toNat) := by
    rw [same]
    by_cases holds : taken <;> simp [holds]
  simp only [jumpOffset, bits, ← second]
  cases cond with
  | eq =>
    refine branch (s.a = operand insn s) ?_
    simp [ClassicBpf.Cond.holds, regs, UInt32.toNat_inj, beq_eq_decide]
  | gt => exact branch (operand insn s < s.a) rfl
  | ge => exact branch (operand insn s ≤ s.a) rfl
  | set =>
    refine branch (s.a &&& operand insn s ≠ 0) ?_
    rw [ClassicBpf.Cond.holds, regs, ← UInt32.toNat_and, bne, beq_eq_decide, ← decide_not]
    exact decide_eq_decide.mpr (not_congr (UInt32.toNat_inj (b := 0)))

theorem getLe_value {start width : ℕ} {value : UInt32} (narrow : width ≤ 4) (found : getLe data start width = some value) :
    (slice? data.bytes start width).map leValue = some value.toNat := by
  simp only [getLe, bind, Option.bind_eq_some_iff] at found
  obtain ⟨_, -, bytes, slice, value_eq⟩ := found
  cases value_eq
  have small : leValue bytes < 2 ^ 32 :=
    calc leValue bytes < 256 ^ bytes.length := leValue_lt bytes
      _ ≤ 256 ^ 4 := Nat.pow_le_pow_right (by decide) (by rw [slice?_length slice]; exact narrow)
      _ = 2 ^ 32 := by decide
  rw [slice, Option.map_some, toNat_ofNat_of_lt' small]

theorem agrees_data {width : ClassicBpf.Width} (cls : insn.code &&& bpfClass = bpfLd)
    (mode : insn.code &&& bpfMode = bpfAbs) (known : loadWidth insn.code = some width.bytes)
    (valid : validInsn len s.pc insn = true) : Agrees s.pc (step len data insn s)
      (Insn.exec data.bytes s.regs (.load .a (.data width insn.k.toNat))) := by
  obtain ⟨value, loaded⟩ := loadValue_valid data s (.inl cls) valid
  refine agrees_load value cls loaded (getLe_value (by cases width <;> decide) ?_)
  simp only [loadValue, mode] at loaded
  rw [if_neg (by decide), if_neg (by decide), if_pos trivial, loadAbs_eq_getLe known] at loaded
  split at loaded
  · next found => rw [found, Except.ok.inj loaded]
  · cases loaded

section

variable (cls : insn.code &&& bpfClass = if dst = .a then bpfLd else bpfLdx)

include cls

theorem agrees_mem
    (mode : insn.code &&& bpfMode = bpfMem) (valid : validInsn len s.pc insn = true) : Agrees s.pc (step len data insn s)
      (Insn.exec data.bytes s.regs (.load dst (.mem insn.k.toNat))) := by
  have either : insn.code &&& bpfClass = bpfLd ∨ insn.code &&& bpfClass = bpfLdx := by
    cases dst
    · exact .inl cls
    · exact .inr cls
  have bound : insn.k.toNat < 16 := by
    simp only [validInsn, if_pos either, mode] at valid
    rw [if_neg (by decide), if_pos trivial] at valid
    exact of_decide_eq_true valid
  refine agrees_load s.m[insn.k.toNat] cls ?_ ?_
  · simp only [loadValue, mode, memSlot_isSome bound]
    rfl
  · simp [ClassicBpf.Source.eval, regs, bound]

theorem agrees_imm (mode : insn.code &&& bpfMode = bpfImm) :
    Agrees s.pc (step len data insn s) (Insn.exec data.bytes s.regs (.load dst (.imm insn.k.toNat))) := by
  refine agrees_load insn.k cls ?_ rfl
  simp [loadValue, mode]

theorem agrees_len (mode : insn.code &&& bpfMode = bpfLen) :
    Agrees s.pc (step len data insn s) (Insn.exec data.bytes s.regs (.load dst .len)) := by
  refine agrees_load (ofNat seccompDataLen) cls ?_ ?_
  · simp only [loadValue, mode]
    rfl
  · exact congrArg some data.length_eq

end

theorem agrees_neg (cls : insn.code &&& bpfClass = bpfAlu) (bits : insn.code &&& bpfOp = bpfNeg) :
    Agrees s.pc (step len data insn s) (Insn.exec data.bytes s.regs .neg) := by
  rw [step_alu cls, aluStep, bits]
  refine ⟨rfl, ?_⟩
  simp only [regs, Regs.write, toNat_neg]
  rfl

theorem agrees_ret {k : ℕ} (code : insn.code = bpfRetK) (same : insn.k.toNat = k) :
    Agrees s.pc (step len data insn s) (Insn.exec data.bytes s.regs (.retK k)) := by
  rw [step_ret (by rw [code]; decide), retStep, code]
  exact same

theorem agrees_retA (code : insn.code = bpfRetA) : Agrees s.pc (step len data insn s) (Insn.exec data.bytes s.regs .retA) := by
  rw [step_ret (by rw [code]; decide), retStep, code]
  exact rfl

theorem agrees_tax (code : insn.code = bpfTax) : Agrees s.pc (step len data insn s) (Insn.exec data.bytes s.regs .tax) := by
  rw [step_misc (by rw [code]; decide), miscStep, code]
  exact ⟨rfl, rfl⟩

theorem agrees_txa (code : insn.code = bpfTxa) : Agrees s.pc (step len data insn s) (Insn.exec data.bytes s.regs .txa) := by
  rw [step_misc (by rw [code]; decide), miscStep, code]
  exact ⟨rfl, rfl⟩

theorem operand_imm (bit : insn.code &&& bpfX ≠ bpfX) : (operand insn s).toNat = s.regs.operand (.imm insn.k.toNat) := by
  rw [operand, if_neg bit]
  rfl

theorem operand_index (bit : insn.code &&& bpfX = bpfX) : (operand insn s).toNat = s.regs.operand .index := by
  rw [operand, if_pos bit]
  rfl

theorem storeSlot_valid {pc : ℕ} (cls : insn.code &&& bpfClass = bpfSt ∨ insn.code &&& bpfClass = bpfStx)
    (valid : validInsn len pc insn = true) : insn.k.toNat < 16 := by
  simp only [validInsn] at valid
  rcases cls with cls | cls <;> rw [cls, if_neg (by decide), if_pos (by decide)] at valid <;>
    exact of_decide_eq_true valid

private theorem code_eq_ofNat {code : UInt16} {opcode : ℕ} (literal : code.toNat = opcode) : code = UInt16.ofNat opcode := by
  rw [← literal, UInt16.ofNat_toNat]

/-- Every table entry is what the interpreter does with that opcode. -/
theorem step_agrees (data : SeccompData) {ref : Insn} (size : len ≤ maxInsns) (inside : s.pc < len)
    (valid : validInsn len s.pc insn = true) (known : classic insn = some ref) :
    Agrees s.pc (step len data insn s) (ref.exec data.bytes s.regs) := by
  simp only [classic] at known
  split at known
  all_goals
    cases known
  -- the class, mode and operation bits of the literal opcode select the lemma
  all_goals
    next opcode =>
      have code := code_eq_ofNat opcode
      first
      | exact agrees_alu (by rw [code]; decide) (by rw [code]; decide)
          (operand_imm (by rw [code]; decide))
      | exact agrees_alu (by rw [code]; decide) (by rw [code]; decide)
          (operand_index (by rw [code]; decide))
      | exact agrees_jmp size inside (by rw [code]; decide) valid
          (jumpOffset_branch (by rw [code]; decide) (operand_imm (by rw [code]; decide)))
      | exact agrees_jmp size inside (by rw [code]; decide) valid
          (jumpOffset_branch (by rw [code]; decide) (operand_index (by rw [code]; decide)))
      | exact agrees_data (by rw [code]; decide) (by rw [code]; decide) (by rw [code]; decide) valid
      | exact agrees_mem (by rw [code]; decide) (by rw [code]; decide) valid
      | exact agrees_imm (by rw [code]; decide) (by rw [code]; decide)
      | exact agrees_len (by rw [code]; decide) (by rw [code]; decide)
      | exact agrees_store (by rw [code]; decide) (storeSlot_valid (by rw [code]; decide) valid)
      | exact agrees_jmp size inside (by rw [code]; decide) valid
          (by simp only [jumpOffset]; exact if_pos (by rw [code]; decide))
      | exact agrees_neg (by rw [code]; decide) (by rw [code]; decide)
      | exact agrees_ret code rfl
      | exact agrees_retA code
      | exact agrees_tax code
      | exact agrees_txa code

/-! ## Whole programs -/

/-- The program in the reference's own terms, when each of its instructions is a classic one. -/
def classicProg (prog : List SockFilter) : Option (List Insn) := prog.mapM classic

variable {prog : List SockFilter} {ref : List Insn} {fuel : ℕ} {exit : Exit}

/-- Translation goes instruction by instruction and keeps every position. -/
theorem classicProg_forall₂ (known : classicProg prog = some ref) :
    List.Forall₂ (fun insn entry => classic insn = some entry) prog ref := by
  induction prog generalizing ref with
  | nil =>
    cases known
    exact .nil
  | cons insn rest ih =>
    simp only [classicProg, List.mapM_cons, bind, pure, Option.bind_eq_some_iff] at known
    obtain ⟨head, headKnown, tail, tailKnown, equal⟩ := known
    cases equal
    exact .cons headKnown (ih tailKnown)

theorem classicProg_read (known : classicProg prog = some ref) {pc : ℕ}
    (read : prog[pc]? = some insn) : ∃ entry, classic insn = some entry ∧ ref[pc]? = some entry := by
  obtain ⟨length, entries⟩ := List.forall₂_iff_get.mp (classicProg_forall₂ known)
  obtain ⟨inside, rfl⟩ := List.getElem?_eq_some_iff.mp read
  exact ⟨_, entries pc inside (length ▸ inside), List.getElem?_eq_getElem (length ▸ inside)⟩

/-- Where the interpreter ends, the reference evaluates to the same value. -/
theorem exec_eval (accepted : validate prog = .ok ()) (known : classicProg prog = some ref)
    (ended : exec prog data fuel s = some exit) : Eval ref data.bytes s.pc s.regs exit.value.toNat := by
  obtain ⟨size, -, valid⟩ := (validate_ok_iff prog).mp accepted
  have outside {s : Machine} (read : prog[s.pc]? = none) :
      Eval ref data.bytes s.pc s.regs (Exit.value .offEnd).toNat := by
    refine .outside (List.getElem?_eq_none ?_)
    rw [← (classicProg_forall₂ known).length_eq]
    exact List.getElem?_eq_none_iff.mp read
  induction fuel generalizing s with
  | zero =>
    simp only [exec] at ended
    split_ifs at ended with read
    cases ended
    exact outside (by simpa using read)
  | succ fuel ih =>
    cases read : prog[s.pc]? with
    | none =>
      rw [exec_none read] at ended
      cases ended
      exact outside read
    | some insn =>
      have inside := (List.getElem?_eq_some_iff.mp read).1
      obtain ⟨entry, entryKnown, entryRead⟩ := classicProg_read known read
      have agrees := step_agrees data size inside (valid _ _ read) entryKnown
      cases turn : step prog.length data insn s with
      | error failed =>
        rw [exec_error read turn] at ended
        cases ended
        cases outcome : entry.exec data.bytes s.regs with
        | next => simp only [turn, outcome, Agrees] at agrees
        | stop value =>
          rw [turn, outcome] at agrees
          exact .stop entryRead (agrees ▸ outcome)
      | ok next =>
        cases outcome : entry.exec data.bytes s.regs with
        | stop => simp only [turn, outcome, Agrees] at agrees
        | next offset after =>
          rw [turn, outcome] at agrees
          obtain ⟨pc_eq, regs_eq⟩ := agrees
          refine .next entryRead outcome ?_
          rw [← pc_eq, ← regs_eq]
          exact ih ((exec_ok read turn).symm.trans ended)

/-- What acceptance by `validate` guarantees of every run of the interpreter. It ends within as
many turns as the program has instructions, through a return, a zero divisor or the end of the
text; the end is only reached by a jump that names it, which `validate` admits; and a program of
classic instructions has the value of the reference semantics. -/
theorem runFilter_sound (prog : List SockFilter) (data : SeccompData) (accepted : validate prog = .ok ()) :
    (∃ exit, exec prog data prog.length .init = some exit ∧ exit.value = runFilter prog data ∧
      exit.Sound ∧
      ((∀ pc insn, prog[pc]? = some insn → ¬ jumpsToEnd prog.length pc insn) → exit ≠ .offEnd)) ∧
    (∀ s, Reaches prog data s → s.pc ≤ prog.length) ∧
    ∀ ref, classicProg prog = some ref → ∀ value,
      Eval ref data.bytes 0 Regs.zero value ↔ value = (runFilter prog data).toNat := by
  obtain ⟨exit, ended⟩ := exec_terminates prog data prog.length .init (le_add_left _ _)
  have value_eq : exit.value = runFilter prog data := by rw [runFilter, ended]
  obtain ⟨sound, atEnd⟩ := exec_sound accepted .init ended
  refine ⟨⟨exit, ended, value_eq, sound, fun inner offEnd => ?_⟩, fun s => Reaches.pc_le, ?_⟩
  · obtain ⟨last, reached, outside⟩ := atEnd offEnd
    exact absurd outside (Nat.ne_of_lt (reached.pc_lt accepted inner))
  · intro ref known value
    rw [← value_eq, ← init_regs]
    have eval := exec_eval accepted known ended
    exact ⟨fun right => right.unique eval, fun equal => equal ▸ eval⟩

/-- Kills the process on system call zero and allows everything else. -/
def killZero : List SockFilter :=
  [⟨0x20, 0, 0, 0⟩, ⟨0x15, 0, 1, 0⟩, ⟨0x06, 0, 0, 0x80000000⟩, ⟨0x06, 0, 0, 0x7fff0000⟩]

/-- The record of system call zero with every other field zero. -/
def zeroData : SeccompData := ⟨List.replicate 64 0, by decide⟩

theorem runFilter_sound_killZero :
    validate killZero = .ok () ∧ runFilter killZero zeroData = 0x80000000 ∧
    ∀ value, Eval [.load .a (.data .word 0), .branch .eq (.imm 0) 0 1, .retK 0x80000000,
        .retK 0x7fff0000] zeroData.bytes 0 Regs.zero value ↔
      value = (runFilter killZero zeroData).toNat :=
  ⟨by decide, by decide, (runFilter_sound killZero zeroData (by decide)).2.2 _ (by decide)⟩

/-- A conditional jump over the last instruction is accepted and leaves the text. -/
def jumpPastRet : List SockFilter := [⟨0x15, 1, 0, 0⟩, ⟨0x06, 0, 0, 0x7fff0000⟩]

/-- A load of the index register from the record is accepted, though classic BPF has none. -/
def loadIndexAbs : List SockFilter := [⟨0x21, 0, 0, 0⟩, ⟨0x06, 0, 0, 0x7fff0000⟩]

theorem validate_admits_end :
    (validate jumpPastRet = .ok () ∧ exec jumpPastRet zeroData 2 .init = some .offEnd ∧
      ∃ s, Reaches jumpPastRet zeroData s ∧ jumpPastRet[s.pc]? = none) ∧
    (validate loadIndexAbs = .ok () ∧ classicProg loadIndexAbs = none) := by
  refine ⟨⟨by decide, by decide, { init with pc := 2 }, ?_, rfl⟩, by decide, by decide⟩
  exact .turn .init (rfl : jumpPastRet[0]? = some ⟨0x15, 1, 0, 0⟩) rfl

end LiteBox.Seccomp
