import Mathlib.Tactic

/-! # Programs with state and failure

A program takes a state to a result or a failure, and to a next state in both cases. `bind_eq_ok` takes a
successful run apart, `Keeps` carries what single steps keep through whole programs, `Raises` says how they
can fail, and `Triple` is both together with what they return.
-/

def Prog (σ ε α : Type) : Type := σ → Except ε α × σ

/-- A call ends with an error of its own, or the process panics. -/
inductive Halt (ε : Type) where
  | error (failure : ε)
  | panic (what : String)
deriving DecidableEq

namespace Halt

/-- The same end, with the error of another call. -/
def map {ε ε' : Type} (change : ε → ε') : Halt ε → Halt ε'
  | error failure => error (change failure)
  | panic what => panic what

def IsPanic {ε : Type} : Halt ε → Prop
  | error _ => False
  | panic _ => True

instance {ε : Type} : DecidablePred (@IsPanic ε) := fun halt =>
  match halt with
  | error _ => inferInstanceAs (Decidable False)
  | panic _ => inferInstanceAs (Decidable True)

@[simp] theorem isPanic_map {ε ε' : Type} (change : ε → ε') (halt : Halt ε) : (halt.map change).IsPanic ↔ halt.IsPanic := by
  cases halt <;> rfl

end Halt

namespace Prog

variable {σ ε ε' α β : Type}

instance : Monad (Prog σ ε) where
  pure value s := (.ok value, s)
  bind first next s :=
    match first s with
    | (.ok value, t) => next value t
    | (.error failure, t) => (.error failure, t)

def fail (failure : ε) : Prog σ ε α := fun s => (.error failure, s)

def get : Prog σ ε σ := fun s => (.ok s, s)

def modify (change : σ → σ) : Prog σ ε Unit := fun s => (.ok (), change s)

def ofOption (failure : ε) : Option α → Prog σ ε α
  | some value => pure value
  | none => fail failure

def ofExcept : Except ε α → Prog σ ε α
  | .ok value => pure value
  | .error failure => fail failure

/-- Runs the program only if the condition holds. -/
def when (condition : Prop) [Decidable condition] (program : Prog σ ε Unit) : Prog σ ε Unit :=
  if condition then program else pure ()

/-- Fails if there is something to fail with. -/
def failOn : Option ε → Prog σ ε Unit
  | some failure => fail failure
  | none => pure ()

def mapError (change : ε → ε') (program : Prog σ ε α) : Prog σ ε' α := fun s =>
  match program s with
  | (.ok value, t) => (.ok value, t)
  | (.error failure, t) => (.error (change failure), t)

/-- Runs the program and returns its failure as a value. -/
def attempt (program : Prog σ ε α) : Prog σ ε' (Except ε α) := fun s => (.ok (program s).1, (program s).2)

/-- Runs the program and returns its own error as a value; a panic goes on. -/
def tried (program : Prog σ (Halt ε) α) : Prog σ (Halt ε') (Except ε α) := fun s =>
  match program s with
  | (.ok value, t) => (.ok (.ok value), t)
  | (.error (.error failure), t) => (.ok (.error failure), t)
  | (.error (.panic what), t) => (.error (.panic what), t)

variable {s t : σ}

@[simp] theorem pure_apply (value : α) (s : σ) : (pure value : Prog σ ε α) s = (.ok value, s) := rfl

@[simp] theorem fail_apply (failure : ε) (s : σ) : (fail failure : Prog σ ε α) s = (.error failure, s) := rfl

@[simp] theorem get_apply (s : σ) : (get : Prog σ ε σ) s = (.ok s, s) := rfl

@[simp] theorem modify_apply (change : σ → σ) (s : σ) : (modify change : Prog σ ε Unit) s = (.ok (), change s) := rfl

@[simp] theorem attempt_apply (program : Prog σ ε α) (s : σ) :
    (attempt program : Prog σ ε' _) s = (.ok (program s).1, (program s).2) := rfl

theorem bind_apply (first : Prog σ ε α) (next : α → Prog σ ε β) (s : σ) : (first >>= next) s =
    match first s with
    | (.ok value, t) => next value t
    | (.error failure, t) => (.error failure, t) := rfl

variable {first : Prog σ ε α} {next : α → Prog σ ε β} {value : α} {failure : ε} {condition : Prop}

theorem bind_of_ok (ran : first s = (.ok value, t)) : (first >>= next) s = next value t := by
  rw [bind_apply, ran]

theorem bind_of_error (ran : first s = (.error failure, t)) : (first >>= next) s = (.error failure, t) := by
  rw [bind_apply, ran]

theorem when_bind [Decidable condition] {program : Prog σ ε Unit} (fails : ¬condition) {next : Unit → Prog σ ε α} :
    (when condition program >>= next) s = next () s := by
  rw [when, if_neg fails]
  rfl

theorem get_bind {next : σ → Prog σ ε α} : (get >>= next) s = next s s := rfl

theorem tried_of_ok {program : Prog σ (Halt ε) α} (ran : program s = (.ok value, t)) :
    (program.tried : Prog σ (Halt ε') _) s = (.ok (.ok value), t) := by
  rw [tried, ran]

theorem bind_eq_ok {result : β} :
    (first >>= next) s = (.ok result, t) ↔ ∃ value u, first s = (.ok value, u) ∧ next value u = (.ok result, t) := by
  rw [bind_apply]
  rcases first s with ⟨failure | value, u⟩
  · exact ⟨nofun, fun ⟨_, _, ran, _⟩ => by cases ran⟩
  · exact ⟨fun ran => ⟨value, u, rfl, ran⟩, fun ⟨_, _, same, ran⟩ => by cases same; exact ran⟩

theorem bind_eq_error :
    (first >>= next) s = (.error failure, t) ↔ first s = (.error failure, t) ∨
      ∃ value u, first s = (.ok value, u) ∧ next value u = (.error failure, t) := by
  rw [bind_apply]
  rcases first s with ⟨cause | value, u⟩
  · constructor
    · rintro ⟨⟩
      exact .inl rfl
    · rintro (⟨⟨⟩⟩ | ⟨_, _, ⟨⟩, _⟩)
      rfl
  · exact ⟨fun ran => .inr ⟨value, u, rfl, ran⟩, fun ran => ran.elim nofun fun ⟨_, _, same, ran⟩ => by cases same; exact ran⟩

variable {γ : Type}

theorem forM_cons_of_ok {item : γ} {rest : List γ} {body : γ → Prog σ ε PUnit} (ran : body item s = (.ok (), t)) :
    (item :: rest).forM body s = rest.forM body t := bind_of_ok ran

variable {change : ε → ε'}

theorem mapError_eq_ok {program : Prog σ ε α} :
    program.mapError change s = (.ok value, t) ↔ program s = (.ok value, t) := by
  simp only [mapError]
  rcases program s with ⟨failure | other, u⟩ <;> simp

variable {option : Option α}

theorem ofOption_eq_ok :
    (ofOption failure option : Prog σ ε α) s = (.ok value, t) ↔ option = some value ∧ s = t := by
  cases option with
  | none => exact ⟨nofun, fun ⟨same, _⟩ => by cases same⟩
  | some other => simp [ofOption]

theorem ofOption_eq_error {other : ε} :
    (ofOption failure option : Prog σ ε α) s = (.error other, t) ↔ option = none ∧ failure = other ∧ s = t := by
  cases option <;> simp [ofOption]

theorem when_fail_eq_ok [Decidable condition] :
    (when condition (fail failure) : Prog σ ε Unit) s = (.ok (), t) ↔ ¬condition ∧ s = t := by
  by_cases holds : condition <;> simp [when, holds]

theorem when_fail_eq_error [Decidable condition] {other : ε} :
    (when condition (fail failure) : Prog σ ε Unit) s = (.error other, t) ↔ condition ∧ failure = other ∧ s = t := by
  by_cases holds : condition <;> simp [when, holds]

/-! ## What a program keeps -/

/-- Whatever its result, the program keeps the invariant. -/
def Keeps (inv : σ → Prop) (program : Prog σ ε α) : Prop := ∀ s, inv s → inv (program s).2

section Keeps

variable {inv : σ → Prop}

theorem Keeps.pure (value : α) : Keeps inv (Pure.pure value : Prog σ ε α) := fun _ holds => holds

theorem Keeps.fail (failure : ε) : Keeps inv (Prog.fail failure : Prog σ ε α) := fun _ holds => holds

theorem Keeps.get : Keeps inv (Prog.get : Prog σ ε σ) := fun _ holds => holds

theorem Keeps.when [Decidable condition] {program : Prog σ ε Unit} (keeps : Keeps inv program) :
    Keeps inv (Prog.when condition program) := by
  by_cases holds : condition
  · rwa [Prog.when, if_pos holds]
  · rw [Prog.when, if_neg holds]
    exact .pure ()

theorem Keeps.bind (one : Keeps inv first)
    (two : ∀ value, Keeps inv (next value)) : Keeps inv (first >>= next) := by
  intro s holds
  have step := one s holds
  rw [bind_apply]
  rcases ran : first s with ⟨failure | value, t⟩ <;> rw [ran] at step
  · exact step
  · exact two value t step

theorem Keeps.foldlM {items : List γ} {body : α → γ → Prog σ ε α} {start : α} (each : ∀ value item, Keeps inv (body value item)) :
    Keeps inv (items.foldlM body start) := by
  induction items generalizing start with
  | nil => exact .pure _
  | cons item rest ih => exact .bind (each start item) fun _ => ih

/-- What holds after the first part still holds at the end if the rest keeps it. -/
theorem Keeps.after (holds : inv (first s).2) (rest : ∀ value, Keeps inv (next value)) :
    inv ((first >>= next) s).2 := by
  rw [bind_apply]
  rcases ran : first s with ⟨failure | value, t⟩ <;> rw [ran] at holds
  · exact holds
  · exact rest value t holds

theorem Keeps.mapError {program : Prog σ ε α} (keeps : Keeps inv program) :
    Keeps inv (program.mapError change) := by
  intro s holds
  have step := keeps s holds
  simp only [Prog.mapError]
  rcases ran : program s with ⟨failure | value, t⟩ <;> rw [ran] at step <;> exact step

theorem Keeps.attempt {program : Prog σ ε α} (keeps : Keeps inv program) : Keeps inv (program.attempt : Prog σ ε' _) := keeps

theorem Keeps.forM {items : List γ} {body : γ → Prog σ ε PUnit} (each : ∀ item ∈ items, Keeps inv (body item)) :
    Keeps inv (items.forM body) := by
  induction items with
  | nil => exact .pure _
  | cons item rest ih =>
    exact .bind (each item List.mem_cons_self) fun _ => ih fun later member => each later (List.mem_cons_of_mem _ member)

end Keeps

/-! ## How a program fails -/

/-- The program fails only in certain ways. -/
def Raises (only : ε → Prop) (program : Prog σ ε α) : Prop := ∀ s failure, (program s).1 = .error failure → only failure

section Raises

variable {only : ε → Prop}

theorem Raises.pure (value : α) : Raises only (Pure.pure value : Prog σ ε α) := nofun

theorem Raises.get : Raises only (Prog.get : Prog σ ε σ) := nofun

theorem Raises.modify (change : σ → σ) : Raises only (Prog.modify change : Prog σ ε Unit) := nofun

theorem Raises.attempt (program : Prog σ ε' α) : Raises only (program.attempt : Prog σ ε _) := nofun

theorem Raises.mapError {change : ε' → ε} (program : Prog σ ε' α) (each : ∀ failure, only (change failure)) :
    Raises only (program.mapError change) := by
  intro s failure failed
  simp only [Prog.mapError] at failed
  rcases ran : program s with ⟨cause | value, t⟩ <;> rw [ran] at failed <;> cases failed
  exact each cause

theorem Raises.when [Decidable condition] {program : Prog σ ε Unit} (raises : Raises only program) :
    Raises only (Prog.when condition program) := by
  by_cases holds : condition
  · rwa [Prog.when, if_pos holds]
  · rw [Prog.when, if_neg holds]
    exact .pure ()

theorem Raises.bind (one : Raises only first)
    (two : ∀ value, Raises only (next value)) : Raises only (first >>= next) := by
  intro s failure failed
  rw [bind_apply] at failed
  rcases ran : first s with ⟨cause | value, t⟩ <;> rw [ran] at failed
  · cases failed
    exact one s failure (by rw [ran])
  · exact two value t failure failed

theorem Raises.forM {items : List γ} {body : γ → Prog σ ε PUnit} (each : ∀ item, Raises only (body item)) :
    Raises only (items.forM body) := by
  induction items with
  | nil => exact .pure _
  | cons item rest ih => exact .bind (each item) fun _ => ih

end Raises

/-! ## Pre- and postconditions -/

/-- From a state with `pre` the program ends with `post` of its value, or with `fails` of its failure. -/
def Triple (pre : σ → Prop) (program : Prog σ ε α) (post : α → σ → Prop) (fails : ε → σ → Prop) : Prop :=
  ∀ s, pre s → match program s with
    | (.ok value, t) => post value t
    | (.error failure, t) => fails failure t

namespace Triple

variable {pre : σ → Prop} {post : α → σ → Prop} {fails : ε → σ → Prop}

theorem pure (holds : ∀ s, pre s → post value s) : Triple pre (Pure.pure value) post fails := holds

variable {failure : ε} {program : Prog σ ε α}

theorem fail (holds : ∀ s, pre s → fails failure s) : Triple pre (Prog.fail failure) post fails := holds

theorem bind {between : α → σ → Prop} {post : β → σ → Prop}
    (one : Triple pre first between fails) (two : ∀ value, Triple (between value) (next value) post fails) :
    Triple pre (first >>= next) post fails := by
  intro s holds
  have step := one s holds
  rw [bind_apply]
  rcases ran : first s with ⟨failure | value, t⟩ <;> rw [ran] at step
  · exact step
  · exact two value t step

/-- A program that starts by reading the state. -/
theorem read {next : σ → Prog σ ε α} (each : ∀ s, pre s → Triple (· = s) (next s) post fails) :
    Triple pre (Prog.get >>= next) post fails := fun s holds => each s holds s rfl

theorem imp {pre' : σ → Prop} {post' : α → σ → Prop} {fails' : ε → σ → Prop}
    (triple : Triple pre program post fails) (before : ∀ s, pre' s → pre s) (after : ∀ value s, post value s → post' value s)
    (failed : ∀ failure s, fails failure s → fails' failure s) : Triple pre' program post' fails' := by
  intro s holds
  have step := triple s (before s holds)
  rcases ran : program s with ⟨failure | value, t⟩ <;> rw [ran] at step
  · exact failed failure t step
  · exact after value t step

theorem mapError {fails' : ε' → σ → Prop} (triple : Triple pre program post fails)
    (failed : ∀ failure s, fails failure s → fails' (change failure) s) : Triple pre (program.mapError change) post fails' := by
  intro s holds
  have step := triple s holds
  simp only [Prog.mapError]
  rcases ran : program s with ⟨failure | value, t⟩ <;> rw [ran] at step
  · exact failed failure t step
  · exact step

/-- Nothing is known of a program. -/
theorem any (program : Prog σ ε α) : Triple pre program (fun _ _ => True) (fun _ _ => True) := by
  intro s _
  split <;> trivial

/-- A program whose run from the only state is known. -/
theorem ran (run : program s = (.ok value, t)) (holds : post value t) :
    Triple (· = s) program post fails := by
  rintro s rfl
  rwa [run]

/-- A program from one of the states it is known for. -/
theorem at_state (triple : Triple pre program post fails) (holds : pre s) : Triple (· = s) program post fails := by
  rintro s rfl
  exact triple s holds

/-- A fact of the precondition that is not about the state. -/
theorem given {fact : Prop} (each : fact → Triple pre program post fails) :
    Triple (fun s => pre s ∧ fact) program post fails := fun s both => each both.2 s both.1

theorem when [Decidable condition] {program : Prog σ ε Unit} {post : Unit → σ → Prop}
    (does : condition → Triple pre program post fails) (skips : ¬condition → ∀ s, pre s → post () s) :
    Triple pre (Prog.when condition program) post fails := by
  by_cases holds : condition
  · rw [Prog.when, if_pos holds]
    exact does holds
  · rw [Prog.when, if_neg holds]
    exact .pure (skips holds)

theorem ofOption (some : ∀ value, option = some value → ∀ s, pre s → post value s)
    (none : option = none → ∀ s, pre s → fails failure s) : Triple pre (Prog.ofOption failure option) post fails := by
  cases option with
  | none => exact none rfl
  | some value => exact some value rfl

theorem ofExcept {result : Except ε α} (ok : ∀ value, result = .ok value → ∀ s, pre s → post value s)
    (error : ∀ failure, result = .error failure → ∀ s, pre s → fails failure s) : Triple pre (Prog.ofExcept result) post fails := by
  cases result with
  | error failure => exact error failure rfl
  | ok value => exact ok value rfl

theorem of_error (triple : Triple pre program post fails) (holds : pre s)
    (ran : program s = (.error failure, t)) : fails failure t := by
  have step := triple s holds
  rwa [ran] at step

theorem state {inv : σ → Prop} (triple : Triple pre program post fails) (holds : pre s)
    (ended : ∀ value t, post value t → inv t) (failed : ∀ failure t, fails failure t → inv t) : inv (program s).2 := by
  have step := triple s holds
  rcases ran : program s with ⟨failure | value, t⟩ <;> rw [ran] at step
  · exact failed failure t step
  · exact ended value t step

end Triple

end Prog
