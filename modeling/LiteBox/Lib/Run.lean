import Mathlib.Tactic

/-! # Runs of a step function

A system is a step function over events. `run` applies a sequence of events, `Always` says that a
relation between a state and the event about to happen holds all along such a run, and the rules
below carry facts about one step to whole runs.
-/

namespace Run

variable {σ ε : Type*} {step : σ → ε → σ}

def run (step : σ → ε → σ) (s : σ) (events : List ε) : σ := events.foldl step s

@[simp] theorem run_nil (s : σ) : run step s [] = s := rfl

@[simp] theorem run_cons (s : σ) (event : ε) (rest : List ε) :
    run step s (event :: rest) = run step (step s event) rest := rfl

/-- Along the run from `s`, each event meets `holds` in the state it happens in. -/
def Always (step : σ → ε → σ) (holds : σ → ε → Prop) : σ → List ε → Prop
  | _, [] => True
  | s, event :: rest => holds s event ∧ Always step holds (step s event) rest

theorem run_append (s : σ) (events more : List ε) : run step s (events ++ more) = run step (run step s events) more :=
  List.foldl_append

variable {holds after : σ → ε → Prop} {s : σ} {events : List ε}

theorem always_append {more : List ε} :
    Always step holds s (events ++ more) ↔ Always step holds s events ∧ Always step holds (run step s events) more := by
  induction events generalizing s with
  | nil => exact ⟨fun always => ⟨trivial, always⟩, fun always => always.2⟩
  | cons event rest ih =>
    simp [List.cons_append, Always, run_cons, ih, and_assoc]

/-- An invariant that every event keeps under its condition reaches the end of the run. -/
theorem Always.invariant (inv : σ → Prop) (always : Always step holds s events) (init : inv s)
    (keep : ∀ s event, inv s → holds s event → inv (step s event)) : inv (run step s events) := by
  induction events generalizing s with
  | nil => exact init
  | cons event rest ih => exact ih always.2 (keep s event init always.1)

/-- A consequence of one step's condition, possibly under an invariant, holds all along. -/
theorem Always.imp (inv : σ → Prop) (always : Always step holds s events) (init : inv s)
    (keep : ∀ s event, inv s → holds s event → inv (step s event))
    (consequence : ∀ s event, inv s → holds s event → after s event) : Always step after s events := by
  induction events generalizing s with
  | nil => trivial
  | cons event rest ih =>
    exact ⟨consequence s event init always.1, ih always.2 (keep s event init always.1)⟩

/-- A preorder that every step respects relates the two ends of the run. -/
theorem Always.rel {rel : σ → σ → Prop} (refl : ∀ s, rel s s) (trans : ∀ {a b c}, rel a b → rel b c → rel a c)
    (always : Always step (fun s event => rel s (step s event)) s events) : rel s (run step s events) := by
  induction events generalizing s with
  | nil => exact refl s
  | cons event rest ih => exact trans always.1 (ih always.2)

end Run
