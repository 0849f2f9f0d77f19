import LiteBox.Rewriter.Scan

/-! # Instructions one behind the other

A linear decode of a section lays its instructions out without gaps from the section's first byte
to its last. Everything the hooking does with addresses rests on that.
-/

namespace LiteBox.Rewriter

open Sweep List Nat

variable {iced : Iced}

/-- The instructions lie one directly behind the other from `start` to `stop`. -/
def LaidOut (iced : Iced) : ℕ → List iced.Inst → ℕ → Prop
  | start, [], stop => start = stop
  | start, inst :: rest, stop =>
    iced.ip inst = start ∧ 0 < iced.len inst ∧ LaidOut iced (start + iced.len inst) rest stop

variable {start stop : ℕ} {insts : List iced.Inst} {inst : iced.Inst}

theorem laidOut_append {first second : List iced.Inst} :
    LaidOut iced start (first ++ second) stop ↔ ∃ middle, LaidOut iced start first middle ∧ LaidOut iced middle second stop := by
  induction first generalizing start with
  | nil => simp [LaidOut]
  | cons inst first ih =>
    simp only [cons_append, LaidOut, ih]
    constructor
    · rintro ⟨at_start, pos, middle, left, right⟩
      exact ⟨middle, ⟨at_start, pos, left⟩, right⟩
    · rintro ⟨middle, ⟨at_start, pos, left⟩, right⟩
      exact ⟨at_start, pos, middle, left, right⟩

theorem LaidOut.le (laid : LaidOut iced start insts stop) : start ≤ stop := by
  induction insts generalizing start with
  | nil => exact le_of_eq laid
  | cons inst insts ih =>
    have rest := ih laid.2.2
    omega

/-- Around one instruction: what lies before ends where it starts, what lies behind starts where
it ends. -/
theorem LaidOut.split {before behind : List iced.Inst} (laid : LaidOut iced start (before ++ inst :: behind) stop) :
    LaidOut iced start before (iced.ip inst) ∧ 0 < iced.len inst ∧ LaidOut iced (iced.ip inst + iced.len inst) behind stop := by
  obtain ⟨middle, left, rfl, pos, right⟩ := laidOut_append.mp laid
  exact ⟨left, pos, right⟩

theorem LaidOut.bounds (laid : LaidOut iced start insts stop) (member : inst ∈ insts) :
    start ≤ iced.ip inst ∧ 0 < iced.len inst ∧ iced.ip inst + iced.len inst ≤ stop := by
  obtain ⟨before, behind, rfl⟩ := append_of_mem member
  obtain ⟨left, pos, right⟩ := laid.split
  exact ⟨left.le, pos, right.le⟩

/-- Inside the address space the next instruction pointer does not wrap around. -/
theorem LaidOut.nextIp_eq (laid : LaidOut iced start insts stop) (small : stop < 2 ^ 64) (member : inst ∈ insts) :
    iced.nextIp inst = iced.ip inst + iced.len inst := by
  have bound := (laid.bounds member).2.2
  exact mod_eq_of_lt (by omega)

theorem laidOut_sweep (laws : iced.DecodeLaws) (data : List UInt8) (baseAddr : ℕ) {offset : ℕ} (inside : offset ≤ data.length) :
    LaidOut iced (baseAddr + offset) ((sweep (instLen iced data baseAddr) data.length offset).map (instAt iced data baseAddr))
      (baseAddr + data.length) := by
  have pos : ∀ start, 0 < instLen iced data baseAddr start := instLen_pos laws
  induction offset using sweep_induction pos data.length with
  | done offset outside =>
    rw [sweep_of_le outside]
    exact congrArg _ (le_antisymm inside outside)
  | step offset before ih =>
    have width_eq : iced.len (instAt iced data baseAddr offset) = instLen iced data baseAddr offset :=
      (if_pos before).symm
    rw [sweep_of_lt pos before, map_cons]
    refine ⟨laws.ip_eq _ _, ?_, ?_⟩
    · rw [width_eq]
      exact pos offset
    · rw [width_eq, add_assoc]
      exact ih (instLen_le laws before)

/-! ## Piece by piece -/

/-- A string that starts with the bytes of one instruction decodes to it and then to the rest. -/
theorem linearDecode_append (laws : iced.DecodeLaws) {piece rest : List UInt8} {addr : ℕ} (nonempty : piece ≠ [])
    (width : iced.len (iced.decode (piece ++ rest) addr) = piece.length) :
    linearDecode iced (piece ++ rest) addr =
      iced.decode (piece ++ rest) addr :: linearDecode iced rest (addr + piece.length) := by
  have shifted (offset : ℕ) : instAt iced (piece ++ rest) addr (piece.length + offset) =
      instAt iced rest (addr + piece.length) offset := by
    rw [instAt, instAt, add_assoc, ← drop_drop, drop_left]
  have widths (offset : ℕ) : instLen iced (piece ++ rest) addr (piece.length + offset) =
      instLen iced rest (addr + piece.length) offset := by
    simp [instLen, add_lt_add_iff_left, shifted]
  have inside : 0 < (piece ++ rest).length := by
    rw [length_append]
    exact Nat.add_pos_left (length_pos_iff.mpr nonempty) _
  have tail (offset : ℕ) :
      (sweep (instLen iced (piece ++ rest) addr) (piece.length + rest.length) (piece.length + offset)).map
          (instAt iced (piece ++ rest) addr) =
        (sweep (instLen iced rest (addr + piece.length)) rest.length offset).map (instAt iced rest (addr + piece.length)) := by
    have pos : ∀ start, 0 < instLen iced rest (addr + piece.length) start := instLen_pos laws
    induction offset using sweep_induction pos rest.length with
    | done offset outside => rw [sweep_of_le outside, sweep_of_le (by omega)]; rfl
    | step offset before ih =>
      rw [sweep_of_lt pos before, sweep_of_lt (instLen_pos laws) (by omega), map_cons, map_cons, shifted, widths, add_assoc, ih]
  have first : instLen iced (piece ++ rest) addr 0 = piece.length := by
    rw [instLen, if_pos inside, instAt, drop_zero, add_zero, width]
  rw [linearDecode, linearOffsets, sweep_of_lt (instLen_pos laws) inside, map_cons, first, zero_add, length_append]
  exact congrArg _ (tail 0)

end LiteBox.Rewriter
