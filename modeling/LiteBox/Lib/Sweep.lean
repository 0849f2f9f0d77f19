import Mathlib.Tactic

/-! # Linear sweeps

A linear sweep walks over a line of positions with variable-width tokens: from a position it moves
on by the width of the token that starts there, until it reaches a stopping position. Sweeps over
instructions and sweeps over chunks of a buffer are both of this kind, and cutting a sweep into
pieces is invisible exactly when every piece starts where a token starts.
-/

namespace Sweep

open Nat List

variable {width : ℕ → ℕ}

/-- The token starts a sweep visits, for at most `fuel` tokens. -/
def visits (width : ℕ → ℕ) (stop : ℕ) : ℕ → ℕ → List ℕ
  | 0, _ => []
  | fuel + 1, start => if start < stop then start :: visits width stop fuel (start + width start) else []

/-- The token starts from `start` up to, but not including, `stop`. -/
def sweep (width : ℕ → ℕ) (stop start : ℕ) : List ℕ := visits width stop (stop - start) start

/-- Where a sweep lands: the first token start at or past `stop`. -/
def landing (width : ℕ → ℕ) (stop : ℕ) : ℕ → ℕ → ℕ
  | 0, start => start
  | fuel + 1, start =>
    if start < stop then landing width stop fuel (start + width start) else start

def land (width : ℕ → ℕ) (stop start : ℕ) : ℕ := landing width stop (stop - start) start

variable {position : ℕ}

section Positive

variable (pos : ∀ start, 0 < width start) {stop start : ℕ}

include pos

/-- Fuel for the whole distance is enough for both. -/
theorem sufficient {fuel other : ℕ} (enough : stop - start ≤ fuel) (otherEnough : stop - start ≤ other) :
    visits width stop fuel start = visits width stop other start ∧
      landing width stop fuel start = landing width stop other start := by
  induction fuel generalizing other start with
  | zero =>
    cases other with
    | zero => exact ⟨rfl, rfl⟩
    | succ other => simp only [visits, landing, if_neg (by omega : ¬start < stop), and_self]
  | succ fuel ih =>
    cases other with
    | zero => simp only [visits, landing, if_neg (by omega : ¬start < stop), and_self]
    | succ other =>
      have step := pos start
      rw [visits, visits, landing, landing]
      split_ifs
      · obtain ⟨visited, landed⟩ := @ih (start + width start) other (by omega) (by omega)
        exact ⟨congrArg _ visited, landed⟩
      · exact ⟨rfl, rfl⟩

theorem sweep_of_lt (inside : start < stop) : sweep width stop start = start :: sweep width stop (start + width start) := by
  have step := pos start
  rw [sweep, (sufficient pos (le_refl _) (le_succ _)).1, visits, if_pos inside]
  exact congrArg _ (sufficient pos (by omega) (le_refl _)).1

theorem land_of_lt (inside : start < stop) : land width stop start = land width stop (start + width start) := by
  have step := pos start
  rw [land, (sufficient pos (le_refl _) (le_succ _)).2, landing, if_pos inside]
  exact (sufficient pos (by omega) (Nat.le_refl _)).2

omit pos in
theorem sweep_of_le (outside : stop ≤ start) : sweep width stop start = [] := by
  rw [sweep, Nat.sub_eq_zero_of_le outside]
  rfl

omit pos in
theorem land_of_le (outside : stop ≤ start) : land width stop start = start := by
  rw [land, Nat.sub_eq_zero_of_le outside]
  rfl

/-- Induction along a sweep. -/
theorem sweep_induction (stop : ℕ) {motive : ℕ → Prop} (done : ∀ start, stop ≤ start → motive start)
    (step : ∀ start, start < stop → motive (start + width start) → motive start) (start : ℕ) : motive start := by
  induction left : stop - start using Nat.strong_induction_on generalizing start with
  | h left ih =>
    by_cases inside : start < stop
    · have moved := pos start
      exact step start inside (ih (stop - (start + width start)) (by omega) _ rfl)
    · exact done start (by omega)

theorem le_land (stop start : ℕ) : stop ≤ land width stop start := by
  induction start using sweep_induction pos stop with
  | done start outside => rwa [land_of_le outside]
  | step start inside ih => rwa [land_of_lt pos inside]

theorem mem_sweep_bounds (member : position ∈ sweep width stop start) : start ≤ position ∧ position < stop := by
  induction start using sweep_induction pos stop with
  | done start outside => simp [sweep_of_le outside] at member
  | step start inside ih =>
    rw [sweep_of_lt pos inside, mem_cons] at member
    rcases member with rfl | member
    · exact ⟨le_refl _, inside⟩
    · have bounds := ih member
      omega

theorem sweep_sorted (stop start : ℕ) : (sweep width stop start).Pairwise (· < ·) := by
  induction start using sweep_induction pos stop with
  | done start outside => rw [sweep_of_le outside]; exact .nil
  | step start inside ih =>
    rw [sweep_of_lt pos inside]
    refine pairwise_cons.mpr ⟨fun later member => ?_, ih⟩
    have moved := pos start
    have bounds := mem_sweep_bounds pos member
    omega

variable {middle : ℕ}

/-- A sweep goes on where a shorter one landed. -/
theorem sweep_append (below : middle ≤ stop) (start : ℕ) :
    sweep width stop start = sweep width middle start ++ sweep width stop (land width middle start) := by
  induction start using sweep_induction pos middle with
  | done start outside => rw [sweep_of_le outside, land_of_le outside, nil_append]
  | step start inside ih =>
    rw [sweep_of_lt pos (lt_of_lt_of_le inside below), ih, sweep_of_lt pos inside, land_of_lt pos inside, cons_append]

/-- A position at or past `middle` that the longer sweep visits is visited after the landing. -/
theorem mem_sweep_land (below : middle ≤ stop) (past : middle ≤ position)
    (member : position ∈ sweep width stop start) : position ∈ sweep width stop (land width middle start) := by
  rw [sweep_append pos below, mem_append] at member
  rcases member with early | late
  · have := (mem_sweep_bounds pos early).2
    omega
  · exact late

end Positive

section Cuts

variable {advance : ℕ → ℕ} {total : ℕ}

/-- The same walk, cut into pieces: each piece is swept on its own from its own start. -/
def pieces (width advance : ℕ → ℕ) (total start : ℕ) : List ℕ :=
  (sweep advance total start).flatMap fun cut => sweep width (cut + advance cut) cut

variable (advances : ∀ start, 0 < advance start)

include advances

variable {start : ℕ}

theorem pieces_of_lt (inside : start < total) :
    pieces width advance total start =
      sweep width (start + advance start) start ++ pieces width advance total (start + advance start) := by
  rw [pieces, sweep_of_lt advances inside, flatMap_cons]
  rfl

omit advances in
theorem pieces_of_le (outside : total ≤ start) : pieces width advance total start = [] := by
  rw [pieces, sweep_of_le outside]
  rfl

/-- Even when pieces overlap, every token starts behind the ones before it. -/
theorem pieces_sorted (pos : ∀ start, 0 < width start) (start : ℕ) :
    (pieces width advance total start).Pairwise (· < ·) ∧ ∀ position ∈ pieces width advance total start, start ≤ position := by
  induction start using sweep_induction advances total with
  | done start outside => simp [pieces_of_le outside]
  | step start inside ih =>
    obtain ⟨sorted, later⟩ := ih
    rw [pieces_of_lt advances inside]
    refine ⟨pairwise_append.mpr ⟨sweep_sorted pos _ _, sorted, ?_⟩, ?_⟩
    · intro early found late member
      have := (mem_sweep_bounds pos found).2
      have := later late member
      omega
    · intro position member
      rcases mem_append.mp member with member | member
      · exact (mem_sweep_bounds pos member).1
      · have := later position member
        omega

theorem pieces_lt (pos : ∀ start, 0 < width start)
    (inner : ∀ start, start < total → start + advance start ≤ total)
    (member : position ∈ pieces width advance total start) : position < total := by
  obtain ⟨cut, cut_mem, inside⟩ := mem_flatMap.mp member
  have cut_lt := (mem_sweep_bounds advances cut_mem).2
  have position_lt := (mem_sweep_bounds pos inside).2
  exact lt_of_lt_of_le position_lt (inner cut cut_lt)

/-- Cutting a sweep is invisible exactly when every piece starts at a token start. -/
theorem pieces_eq_sweep_iff (pos : ∀ start, 0 < width start)
    (inner : ∀ start, start < total → start + advance start ≤ total) (start : ℕ) :
    pieces width advance total start = sweep width total start ↔
      ∀ cut ∈ sweep advance total start, cut ∈ sweep width total start := by
  induction start using sweep_induction advances total with
  | done start outside => simp [pieces_of_le outside, sweep_of_le outside]
  | step start inside ih =>
    have below := inner start inside
    have landed := le_land pos (start + advance start) start
    have whole := sweep_append pos below start
    rw [pieces_of_lt advances inside, sweep_of_lt advances inside, whole, append_cancel_left_eq, ← whole]
    by_cases last : start + advance start = total
    · have visited : start ∈ sweep width total start := by
        rw [sweep_of_lt pos inside]
        exact mem_cons_self
      rw [pieces_of_le last.ge, sweep_of_le (by omega), sweep_of_le last.ge]
      simp [visited]
    · -- both sides say that the sweep lands on the next cut
      have more : start + advance start < total := by omega
      constructor
      · intro same cut member
        have lands : land width (start + advance start) start = start + advance start := by
          rw [pieces_of_lt advances more, sweep_of_lt pos (Nat.lt_add_of_pos_right (advances _))] at same
          have first : start + advance start ∈
              sweep width total (land width (start + advance start) start) := by
            rw [← same]
            exact mem_cons_self
          have bounds := mem_sweep_bounds pos first
          omega
        rw [lands] at same
        rcases mem_cons.mp member with rfl | later
        · rw [sweep_of_lt pos inside]
          exact mem_cons_self
        · rw [whole, lands]
          exact mem_append_right _ (ih.mp same cut later)
      · intro visited
        have next := mem_sweep_land pos below (le_refl _)
          (visited (start + advance start) (mem_cons_of_mem _ (by rw [sweep_of_lt advances more]; exact mem_cons_self)))
        have lands : land width (start + advance start) start = start + advance start := by
          have bounds := mem_sweep_bounds pos next
          omega
        rw [lands]
        refine ih.mpr fun cut later => ?_
        have late := (mem_sweep_bounds advances later).1
        have member := mem_sweep_land pos below late (visited cut (mem_cons_of_mem _ later))
        rwa [lands] at member

end Cuts

end Sweep
