import LiteBox.Seccomp.Bpf

/-! # Accepted filter programs run safely

Every program stops within as many turns as it has instructions, because each turn moves the
program counter forward. A program that `validate` accepted also stays inside its own text, its
scratch cells and `seccomp_data`, and leaves the loop only through a return, through a zero divisor
or through the jump to the very end that `validate` leaves open.
-/

namespace LiteBox.Seccomp

open List Option Nat

variable {len : ℕ} {data : SeccompData} {insn : SockFilter} {s next : Machine} {exit : Exit}

/-! ## Dispatch by instruction class -/

theorem step_ret (cls : insn.code &&& bpfClass = bpfRet) : step len data insn s = retStep insn s := by
  rw [step, cls, if_pos rfl]

theorem step_misc (cls : insn.code &&& bpfClass = bpfMisc) : step len data insn s = miscStep insn s := by
  rw [step, cls, if_neg (by decide), if_pos rfl]

theorem step_store (cls : insn.code &&& bpfClass = bpfSt ∨ insn.code &&& bpfClass = bpfStx) :
    step len data insn s = storeStep insn s := by
  rcases cls with cls | cls <;>
    rw [step, cls, if_neg (by decide), if_neg (by decide), if_pos (by decide)]

theorem step_load (cls : insn.code &&& bpfClass = bpfLd ∨ insn.code &&& bpfClass = bpfLdx) :
    step len data insn s = loadStep data insn s := by
  rcases cls with cls | cls <;>
    rw [step, cls, if_neg (by decide), if_neg (by decide), if_neg (by decide), if_pos (by decide)]

theorem step_alu (cls : insn.code &&& bpfClass = bpfAlu) : step len data insn s = aluStep insn s := by
  rw [step, cls, if_neg (by decide), if_neg (by decide), if_neg (by decide), if_neg (by decide), if_pos rfl]

theorem step_jmp (cls : insn.code &&& bpfClass = bpfJmp) : step len data insn s = jmpStep len insn s := by
  rw [step, cls, if_neg (by decide), if_neg (by decide), if_neg (by decide), if_neg (by decide), if_neg (by decide), if_pos rfl]

/-! ## Every turn moves forward -/

theorem miscStep_pc (ok : miscStep insn s = .ok next) : next.pc = s.pc + 1 := by
  unfold miscStep at ok
  split_ifs at ok <;> cases ok <;> rfl

theorem storeStep_pc (ok : storeStep insn s = .ok next) : next.pc = s.pc + 1 := by
  unfold storeStep at ok
  split at ok <;> cases ok
  rfl

theorem loadStep_pc (ok : loadStep data insn s = .ok next) : next.pc = s.pc + 1 := by
  unfold loadStep at ok
  split at ok
  · split_ifs at ok <;> cases ok <;> rfl
  · cases ok

theorem aluStep_pc (ok : aluStep insn s = .ok next) : next.pc = s.pc + 1 := by
  simp only [aluStep] at ok
  split at ok <;> cases ok
  rfl

/-- A jump that is taken keeps the registers and lands past itself, at most at the end. -/
theorem jmpStep_ok (ok : jmpStep len insn s = .ok next) :
    ∃ offset, jumpOffset insn s = some offset ∧ next = { s with pc := s.pc + 1 + offset } ∧ s.pc + 1 + offset ≤ len := by
  unfold jmpStep at ok
  split at ok
  · cases ok
  · next offset found =>
    split at ok
    · cases ok
    · next target sum =>
      split_ifs at ok with outside
      cases ok
      have target_eq : target = s.pc + 1 + offset := by
        simp only [checkedAdd] at sum
        split_ifs at sum with small
        · simp only [bind_some] at sum
          split_ifs at sum
          exact (some.inj sum).symm
        · cases sum
      subst target_eq
      exact ⟨offset, found, rfl, by omega⟩

theorem retStep_error (insn : SockFilter) (s : Machine) : ∃ exit, retStep insn s = .error exit := by
  unfold retStep
  split_ifs <;> exact ⟨_, rfl⟩

theorem step_pc_lt (ok : step len data insn s = .ok next) : s.pc < next.pc := by
  simp only [step] at ok
  split_ifs at ok
  · obtain ⟨exit, failed⟩ := retStep_error insn s
    rw [failed] at ok
    cases ok
  · have := miscStep_pc ok; omega
  · have := storeStep_pc ok; omega
  · have := loadStep_pc ok; omega
  · have := aluStep_pc ok; omega
  · obtain ⟨offset, -, rfl, -⟩ := jmpStep_ok ok
    exact lt_of_lt_of_le (lt_succ_self _) (le_add_right _ _)

variable {prog : List SockFilter} {fuel : ℕ}

theorem exec_none (read : prog[s.pc]? = none) : exec prog data fuel s = some .offEnd := by
  cases fuel <;> simp [exec, read]

theorem exec_error (read : prog[s.pc]? = some insn) (turn : step prog.length data insn s = .error exit) :
    exec prog data (fuel + 1) s = some exit := by
  simp [exec, read, turn]

theorem exec_ok (read : prog[s.pc]? = some insn) (turn : step prog.length data insn s = .ok next) :
    exec prog data (fuel + 1) s = exec prog data fuel next := by
  simp [exec, read, turn]

/-- The turns left never exceed the instructions left. -/
theorem exec_terminates (prog : List SockFilter) (data : SeccompData) (fuel : ℕ) (s : Machine)
    (bound : prog.length ≤ s.pc + fuel) : ∃ exit, exec prog data fuel s = some exit := by
  induction fuel generalizing s with
  | zero => exact ⟨_, exec_none (getElem?_eq_none (by omega))⟩
  | succ fuel ih =>
    cases read : prog[s.pc]? with
    | none => exact ⟨_, exec_none read⟩
    | some insn =>
      cases turn : step prog.length data insn s with
      | error exit => exact ⟨exit, exec_error read turn⟩
      | ok next =>
        have forward := step_pc_lt turn
        obtain ⟨exit, found⟩ := ih next (by omega)
        exact ⟨exit, (exec_ok read turn).trans found⟩

/-! ## What acceptance excludes -/

/-- The exits an accepted program can take: a return, a zero divisor, or the end of the text. -/
def Exit.Sound : Exit → Prop
  | .ret _ => True
  | .alu op y => (op = bpfDiv ∨ op = bpfMod) ∧ y = 0
  | .offEnd => True
  | _ => False

theorem memSlot_isSome {k : UInt32} (bound : k.toNat < 16) : memSlot k = some ⟨k.toNat, bound⟩ :=
  dif_pos bound

theorem getLe_isSome {start width : ℕ} (bound : start + width ≤ seccompDataLen) :
    getLe data start width = some (UInt32.ofNat (Bytes.leValue ((data.bytes.drop start).take width))) := by
  have small : start + width < 2 ^ 64 := lt_of_le_of_lt bound (by decide)
  have inside : start + width ≤ data.bytes.length := by rw [data.length_eq]; exact bound
  simp only [getLe, checkedAdd, if_pos small, Bytes.slice?_of_le inside, bind, bind_some, pure]

theorem loadAbs_eq_getLe {code : UInt16} {k : UInt32} {width : ℕ} (known : loadWidth code = some width) :
    loadAbs data code k = getLe data k.toNat width := by
  simp only [loadWidth] at known
  simp only [loadAbs]
  split_ifs at known ⊢ <;> cases known <;> rfl

/-- The ALU only refuses a zero divisor, once its operation is one `validate` lists. -/
theorem alu_eq_none {op : UInt16} {a y : UInt32} (listed : op ∈ aluOps) (refused : alu op a y = none) :
    (op = bpfDiv ∨ op = bpfMod) ∧ y = 0 := by
  have divides (value : UInt32) (refused : (if y = 0 then none else some value) = none) :
      y = 0 := by
    by_contra nonzero
    rw [if_neg nonzero] at refused
    cases refused
  simp only [aluOps, mem_cons, not_mem_nil, or_false] at listed
  rcases listed with rfl | rfl | rfl | rfl | rfl | rfl | rfl | rfl | rfl | rfl | rfl
  case inr.inr.inr.inl => exact ⟨.inl rfl, divides _ refused⟩
  case inr.inr.inr.inr.inr.inr.inr.inr.inr.inl => exact ⟨.inr rfl, divides _ refused⟩
  all_goals cases refused

theorem loadValue_valid (data : SeccompData) (s : Machine)
    (cls : insn.code &&& bpfClass = bpfLd ∨ insn.code &&& bpfClass = bpfLdx) {pc : ℕ}
    (valid : validInsn len pc insn = true) : ∃ value, loadValue data insn s = .ok value := by
  simp only [validInsn, if_pos cls] at valid
  simp only [loadValue]
  by_cases imm : insn.code &&& bpfMode = bpfImm
  · exact ⟨_, if_pos imm⟩
  rw [if_neg imm]
  by_cases mem : insn.code &&& bpfMode = bpfMem
  · have bound : insn.k.toNat < 16 := by simpa [mem, bpfMem, bpfImm, bpfLen] using valid
    rw [if_pos mem, memSlot_isSome bound]
    exact ⟨_, rfl⟩
  rw [if_neg mem]
  by_cases abs : insn.code &&& bpfMode = bpfAbs
  · rw [abs, if_neg (by decide), if_neg (by decide), if_pos rfl] at valid
    rw [if_pos abs]
    cases known : loadWidth insn.code with
    | none => rw [known] at valid; cases valid
    | some width =>
      have inside : insn.k.toNat + width ≤ seccompDataLen := by
        simp only [known, checkedAdd] at valid
        split at valid
        · cases valid
        · next sum =>
          split_ifs at sum
          exact (some.inj sum) ▸ of_decide_eq_true valid
      rw [loadAbs_eq_getLe known, getLe_isSome inside]
      exact ⟨_, rfl⟩
  rw [if_neg abs]
  by_cases length : insn.code &&& bpfMode = bpfLen
  · exact ⟨_, if_pos length⟩
  · simp [imm, mem, abs, length] at valid

/-- The jump offsets an instruction can take all fit under the limit `validate` checks. -/
theorem jumpOffset_valid (cls : insn.code &&& bpfClass = bpfJmp) (valid : validInsn len s.pc insn = true) :
    ∃ offset, jumpOffset insn s = some offset ∧ offset ≤ len - 1 - s.pc := by
  simp only [validInsn, cls] at valid
  rw [if_neg (by decide), if_neg (by decide), if_neg (by decide), if_pos trivial] at valid
  simp only [jumpOffset]
  by_cases always : insn.code &&& bpfOp = bpfJa
  · rw [if_pos always] at valid ⊢
    exact ⟨_, rfl, of_decide_eq_true valid⟩
  · rw [if_neg always] at valid ⊢
    simp only [decide_eq_true_eq, condOps, mem_cons, not_mem_nil, or_false] at valid
    obtain ⟨listed, jt, jf⟩ := valid
    -- either branch of a conditional jump is within the limit
    have branch (taken : Prop) [Decidable taken] :
        (if taken then insn.jt else insn.jf).toNat ≤ len - 1 - s.pc := by
      split_ifs <;> assumption
    rcases listed with op | op | op | op <;> rw [op] <;> exact ⟨_, rfl, branch _⟩

/-- Within the limit a jump is taken: its target neither overflows nor leaves the text. -/
theorem jmpStep_eq {offset : ℕ} (size : len ≤ maxInsns) (inside : s.pc < len)
    (found : jumpOffset insn s = some offset) (limit : offset ≤ len - 1 - s.pc) :
    jmpStep len insn s = .ok { s with pc := s.pc + 1 + offset } := by
  have size : len ≤ 4096 := size
  have target : (checkedAdd s.pc 1).bind (checkedAdd · offset) = some (s.pc + 1 + offset) := by
    simp only [checkedAdd]
    rw [if_pos (by omega), bind_some, if_pos (by omega)]
  simp only [jmpStep, found, target]
  exact if_neg (by omega)

/-- Every class an accepted instruction can have. -/
theorem validInsn_class {pc : ℕ} (valid : validInsn len pc insn = true) :
    (insn.code &&& bpfClass = bpfLd ∨ insn.code &&& bpfClass = bpfLdx) ∨
    (insn.code &&& bpfClass = bpfSt ∨ insn.code &&& bpfClass = bpfStx) ∧ insn.k.toNat < 16 ∨
    insn.code &&& bpfClass = bpfAlu ∧ insn.code &&& bpfOp ∈ aluOps ∨
    insn.code &&& bpfClass = bpfJmp ∨
    insn.code &&& bpfClass = bpfRet ∧ (insn.code = bpfRetK ∨ insn.code = bpfRetA) ∨
    insn.code &&& bpfClass = bpfMisc ∧ (insn.code = bpfTax ∨ insn.code = bpfTxa) := by
  simp only [validInsn] at valid
  split_ifs at valid with load _ _ _ store alu jmp _ ret misc
  · exact .inl load
  · exact .inl load
  · exact .inl load
  · exact .inr (.inl ⟨store, of_decide_eq_true valid⟩)
  · exact .inr (.inr (.inl ⟨alu, of_decide_eq_true valid⟩))
  · exact .inr (.inr (.inr (.inl jmp)))
  · exact .inr (.inr (.inr (.inl jmp)))
  · exact .inr (.inr (.inr (.inr (.inl ⟨ret, of_decide_eq_true valid⟩))))
  · exact .inr (.inr (.inr (.inr (.inr ⟨misc, of_decide_eq_true valid⟩))))

/-- An accepted instruction leaves the loop only by a return or a zero divisor. -/
theorem step_error_sound (size : len ≤ maxInsns) (inside : s.pc < len)
    (valid : validInsn len s.pc insn = true) (turn : step len data insn s = .error exit) : exit.Sound ∧ exit ≠ .offEnd := by
  rcases validInsn_class valid with cls | ⟨cls, slot⟩ | ⟨cls, listed⟩ | cls | ⟨cls, form⟩ | ⟨cls, form⟩
  · obtain ⟨value, loaded⟩ := loadValue_valid data s cls valid
    rw [step_load cls, loadStep, loaded] at turn
    simp only at turn
    split_ifs at turn
  · rw [step_store cls, storeStep, memSlot_isSome slot] at turn
    cases turn
  · rw [step_alu cls] at turn
    simp only [aluStep] at turn
    split at turn
    · cases turn
    · next refused =>
      cases turn
      exact ⟨alu_eq_none listed refused, nofun⟩
  · obtain ⟨offset, found, limit⟩ := jumpOffset_valid cls valid
    rw [step_jmp cls, jmpStep_eq size inside found limit] at turn
    cases turn
  · rw [step_ret cls, retStep] at turn
    rcases form with form | form <;> rw [form] at turn <;> cases turn <;> exact ⟨trivial, nofun⟩
  · rw [step_misc cls, miscStep] at turn
    rcases form with form | form <;> rw [form] at turn <;> cases turn

/-- A turn that continues goes to the next instruction or is a jump; it never leaves the text. -/
theorem step_ok_pc (inside : s.pc < len) (turn : step len data insn s = .ok next) :
    next.pc ≤ len ∧ (next.pc = s.pc + 1 ∨ insn.code &&& bpfClass = bpfJmp) := by
  simp only [step] at turn
  split_ifs at turn with _ _ _ _ _ jmp
  · obtain ⟨exit, failed⟩ := retStep_error insn s
    rw [failed] at turn
    cases turn
  · have := miscStep_pc turn; omega
  · have := storeStep_pc turn; omega
  · have := loadStep_pc turn; omega
  · have := aluStep_pc turn; omega
  · obtain ⟨offset, -, rfl, bound⟩ := jmpStep_ok turn
    exact ⟨bound, .inr jmp⟩

/-! ## Whole runs -/

/-- The machine states a program passes through at the top of the loop. -/
inductive Reaches (prog : List SockFilter) (data : SeccompData) : Machine → Prop
  | init : Reaches prog data .init
  | turn {s next : Machine} {insn : SockFilter} (before : Reaches prog data s)
      (read : prog[s.pc]? = some insn) (turn : step prog.length data insn s = .ok next) :
      Reaches prog data next

/-- Control never leaves the text by more than the one position past its last instruction. -/
theorem Reaches.pc_le (reached : Reaches prog data s) : s.pc ≤ prog.length := by
  cases reached with
  | init => exact zero_le _
  | turn _ read turn => exact (step_ok_pc (List.getElem?_eq_some_iff.mp read).1 turn).1

/-- A jump, conditional or not, with a branch to the position past the last instruction. -/
def jumpsToEnd (len pc : ℕ) (insn : SockFilter) : Prop :=
  insn.code &&& bpfClass = bpfJmp ∧
    if insn.code &&& bpfOp = bpfJa then pc + 1 + insn.k.toNat = len
    else pc + 1 + insn.jt.toNat = len ∨ pc + 1 + insn.jf.toNat = len

theorem jumpOffset_cases {offset : ℕ} (found : jumpOffset insn s = some offset) :
    if insn.code &&& bpfOp = bpfJa then offset = insn.k.toNat
    else offset = insn.jt.toNat ∨ offset = insn.jf.toNat := by
  simp only [jumpOffset] at found
  split_ifs at found ⊢ <;> cases found <;> tauto

/-- Falling off the end takes a jump straight to it, since the last instruction returns. -/
theorem Reaches.pc_lt (accepted : validate prog = .ok ())
    (inner : ∀ pc insn, prog[pc]? = some insn → ¬ jumpsToEnd prog.length pc insn)
    (reached : Reaches prog data s) : s.pc < prog.length := by
  obtain ⟨-, ⟨last, lastRead, lastRet⟩, -⟩ := (validate_ok_iff prog).mp accepted
  have nonempty : 0 < prog.length := length_pos_of_ne_nil (by rintro rfl; cases lastRead)
  cases reached with
  | init => exact nonempty
  | @turn s next insn before read turn =>
    have inside := (List.getElem?_eq_some_iff.mp read).1
    obtain ⟨bound, advance | jmp⟩ := step_ok_pc inside turn
    · -- the instruction just executed is not the last one, which would have returned
      by_contra atEnd
      have index : s.pc = prog.length - 1 := by omega
      rw [index, ← getLast?_eq_getElem?, lastRead] at read
      cases read
      rw [step_ret lastRet] at turn
      obtain ⟨exit, failed⟩ := retStep_error last s
      rw [failed] at turn
      cases turn
    · have before := inner s.pc insn read
      rw [step_jmp jmp] at turn
      obtain ⟨offset, found, rfl, bound⟩ := jmpStep_ok turn
      refine lt_of_le_of_ne bound fun atEnd => before ⟨jmp, ?_⟩
      have offsets := jumpOffset_cases found
      split_ifs at offsets ⊢
      · rw [← offsets]; exact atEnd
      · rcases offsets with rfl | rfl
        · exact .inl atEnd
        · exact .inr atEnd

/-- Where a run from a reached state ends, it has taken a sound exit there. -/
theorem exec_sound (accepted : validate prog = .ok ()) (reached : Reaches prog data s)
    (ended : exec prog data fuel s = some exit) :
    exit.Sound ∧ (exit = .offEnd → ∃ last, Reaches prog data last ∧ last.pc = prog.length) := by
  obtain ⟨size, -, valid⟩ := (validate_ok_iff prog).mp accepted
  induction fuel generalizing s with
  | zero =>
    simp only [exec] at ended
    split_ifs at ended with read
    cases ended
    have bound := reached.pc_le
    have outside : prog.length ≤ s.pc := by simpa using read
    exact ⟨trivial, fun _ => ⟨s, reached, by omega⟩⟩
  | succ fuel ih =>
    cases read : prog[s.pc]? with
    | none =>
      rw [exec_none read] at ended
      cases ended
      have bound := reached.pc_le
      exact ⟨trivial, fun _ => ⟨s, reached, by have := getElem?_eq_none_iff.mp read; omega⟩⟩
    | some insn =>
      have inside := (List.getElem?_eq_some_iff.mp read).1
      cases turn : step prog.length data insn s with
      | error failed =>
        rw [exec_error read turn] at ended
        cases ended
        obtain ⟨sound, inner⟩ := step_error_sound size inside (valid s.pc insn read) turn
        exact ⟨sound, fun offEnd => absurd offEnd inner⟩
      | ok next => exact ih (.turn reached read turn) ((exec_ok read turn).symm.trans ended)

end LiteBox.Seccomp
