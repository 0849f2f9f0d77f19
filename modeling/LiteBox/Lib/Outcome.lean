import Mathlib.Tactic

/-! # Computations that can fail

Inversion of successful computations in `Except`, step by step.
-/

namespace Outcome

universe u

variable {ε : Type*} {α β : Type u} {first : Except ε α} {next : α → Except ε β}

/-- A sequence succeeds exactly when both of its halves do. -/
theorem bind_eq_ok {result : β} :
    (first >>= next) = .ok result ↔ ∃ value, first = .ok value ∧ next value = .ok result := by
  cases first with
  | error failure => exact ⟨nofun, fun ⟨_, success, _⟩ => by cases success⟩
  | ok value => exact ⟨fun success => ⟨value, rfl, success⟩, fun ⟨_, same, success⟩ => by cases same; exact success⟩

/-- Two sequences agree when they continue alike after success. -/
theorem bind_congr_ok {other : α → Except ε β}
    (agree : ∀ value, first = .ok value → next value = other value) : (first >>= next) = (first >>= other) := by
  cases first with
  | error failure => rfl
  | ok value => exact agree value rfl

theorem pure_eq_ok {value result : α} : (pure value : Except ε α) = .ok result ↔ value = result :=
  ⟨Except.ok.inj, congrArg _⟩

theorem ite_eq_ok {condition : Prop} [Decidable condition] {value result : α} {failure : ε} :
    (if condition then .ok value else .error failure) = Except.ok result ↔ condition ∧ result = value := by
  split_ifs with holds <;> simp [holds, eq_comm]

theorem mapError_eq_ok {ε' : Type*} {failed : ε → ε'} {result : α} :
    first.mapError failed = .ok result ↔ first = .ok result := by
  cases first <;> simp [Except.mapError]

/-! ## Postconditions -/

/-- A success meets `post`, and a failure is one of `fails`. -/
def Yields {α : Type*} (fails : ε → Prop) (post : α → Prop) : Except ε α → Prop
  | .ok value => post value
  | .error failure => fails failure

section Yields

variable {fails : ε → Prop}

theorem Yields.imp {α : Type*} {post weaker : α → Prop} {result : Except ε α} (yields : Yields fails post result)
    (imp : ∀ value, post value → weaker value) : Yields fails weaker result := by
  cases result with
  | error failure => exact yields
  | ok value => exact imp value yields

theorem Yields.bind {middle : α → Prop} {post : β → Prop}
    (yields : Yields fails middle first) (continues : ∀ value, middle value → Yields fails post (next value)) :
    Yields fails post (first >>= next) := by
  cases first with
  | error failure => exact yields
  | ok value => exact continues value yields

/-- A fold keeps an invariant that each of its steps keeps. -/
theorem Yields.foldlM {γ : Type*} {inv : α → Prop} {step : α → γ → Except ε α} {items : List γ} {start : α}
    (init : inv start) (each : ∀ state item, item ∈ items → inv state → Yields fails inv (step state item)) :
    Yields fails inv (items.foldlM step start) := by
  induction items generalizing start with
  | nil => exact init
  | cons item items ih =>
    rw [List.foldlM_cons]
    apply Yields.bind (each start item List.mem_cons_self init)
    intro state holds
    exact ih holds fun state later member => each state later (List.mem_cons_of_mem _ member)

end Yields

end Outcome
