import Mathlib.Tactic

/-! # Loops with a decreasing measure

A loop body is given the number of the iteration and a state, and either fails, asks for another
iteration or leaves. `run` bounds the iterations by fuel; the rule below shows that a body which
lowers a measure under an invariant leaves with its postcondition once the fuel exceeds the measure.
-/

namespace Loop

variable {σ ε : Type*}

inductive Next (σ : Type*) where
  | again (s : σ)
  | leave (s : σ)

/-- `none` is fuel that did not suffice. -/
def run (body : ℕ → σ → Except ε (Next σ)) : (fuel iteration : ℕ) → σ → Option (Except ε σ)
  | 0, _, _ => none
  | fuel + 1, iteration, s =>
    match body iteration s with
    | .error failure => some (.error failure)
    | .ok (.leave s) => some (.ok s)
    | .ok (.again s) => run body fuel (iteration + 1) s

/-- The loop leaves in a state with `post`. -/
def Reaches (body : ℕ → σ → Except ε (Next σ)) (fuel : ℕ) (s : σ) (post : σ → Prop) : Prop :=
  ∃ final, run body fuel 0 s = some (.ok final) ∧ post final

/-- One iteration under an invariant: it does not fail, and goes on with a smaller measure or
leaves with the postcondition. -/
def Descends (body : ℕ → σ → Except ε (Next σ)) (inv post : σ → Prop) (measure : σ → ℕ) : Prop :=
  ∀ iteration s, inv s →
    (∃ s', body iteration s = .ok (.again s') ∧ inv s' ∧ measure s' < measure s) ∨
      ∃ s', body iteration s = .ok (.leave s') ∧ post s'

variable {body : ℕ → σ → Except ε (Next σ)} {inv post : σ → Prop} {measure : σ → ℕ}

theorem Descends.run_from (descends : Descends body inv post measure) {fuel : ℕ} (iteration : ℕ) {s : σ}
    (init : inv s) (enough : measure s < fuel) : ∃ final, run body fuel iteration s = some (.ok final) ∧ post final := by
  induction fuel generalizing iteration s with
  | zero => omega
  | succ fuel ih =>
    obtain ⟨s', next, keep, less⟩ | ⟨s', next, done⟩ := descends iteration s init
    · simp only [run, next]
      exact ih (iteration + 1) keep (by omega)
    · exact ⟨s', by simp only [run, next], done⟩

theorem Descends.reaches (descends : Descends body inv post measure) {fuel : ℕ} {s : σ}
    (init : inv s) (enough : measure s < fuel) : Reaches body fuel s post :=
  descends.run_from 0 init enough

end Loop
