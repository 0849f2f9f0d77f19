import Mathlib.Tactic

/-! # Interleaved threads

Threads run a program over a shared state, one atomic step at a time and in any order. A thread is where
it stands in its program. An invariant of the whole is one of the shared state, an assertion for every
place in the program, and a relation between the places of two threads; a step keeps it when it
establishes its own assertion and does not interfere with those of the others.
-/

namespace Threads

variable {σ π : Type*}

structure World (σ π : Type*) where
  shared : σ
  threads : ℕ → π

namespace World

variable (w : World σ π) (t : ℕ) (shared : σ) (place : π)

/-- Thread `t` is at `place` now, and the shared state is `shared`. -/
def move : World σ π := ⟨shared, Function.update w.threads t place⟩

@[simp] theorem move_shared : (w.move t shared place).shared = shared := rfl

@[simp] theorem move_threads_self :
    (w.move t shared place).threads t = place := Function.update_self _ _ _

theorem move_threads_of_ne {t u : ℕ} (other : u ≠ t) :
    (w.move t shared place).threads u = w.threads u := Function.update_of_ne other _ _

@[simp] theorem move_move (first second : σ) (before after : π) :
    (w.move t first before).move t second after = w.move t second after := by
  simp [move]

end World

/-- The shared state, every thread, and every two threads are as they should be. -/
structure Holds (inv : σ → Prop) (assertion : σ → π → Prop) (apart : π → π → Prop) (w : World σ π) : Prop where
  shared : inv w.shared
  each : ∀ t, assertion w.shared (w.threads t)
  pairs : ∀ t u, t ≠ u → apart (w.threads t) (w.threads u)

variable {inv : σ → Prop} {assertion : σ → π → Prop} {apart : π → π → Prop} {w : World σ π}

/-- A step of one thread that does not interfere with the others. -/
theorem Holds.move (holds : Holds inv assertion apart w) (t : ℕ) {shared : σ} {place : π} (state : inv shared)
    (own : assertion shared place) (others : ∀ u ≠ t, assertion shared (w.threads u))
    (pairs : ∀ u ≠ t, apart place (w.threads u) ∧ apart (w.threads u) place) :
    Holds inv assertion apart (w.move t shared place) := by
  constructor
  · exact state
  · intro u
    by_cases same : u = t
    · rw [same, World.move_threads_self]
      exact own
    · rw [w.move_threads_of_ne _ _ same]
      exact others u same
  · intro u v different
    by_cases first : u = t
    · have second : v ≠ t := fun same => different (first.trans same.symm)
      rw [first, World.move_threads_self, w.move_threads_of_ne _ _ second]
      exact (pairs v second).1
    · rw [w.move_threads_of_ne _ _ first]
      by_cases second : v = t
      · rw [second, World.move_threads_self]
        exact (pairs u first).2
      · rw [w.move_threads_of_ne _ _ second]
        exact holds.pairs u v different

/-- A step of the surroundings. -/
theorem Holds.share (holds : Holds inv assertion apart w) {shared : σ} (state : inv shared)
    (each : ∀ t, assertion shared (w.threads t)) : Holds inv assertion apart { w with shared } :=
  ⟨state, each, holds.pairs⟩

end Threads
