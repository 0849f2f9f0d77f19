import LiteBox.Fs.InMemWalk

/-! # Normalized paths are canonical

`normalized` goes through a path from its end and counts the `..` that still cancel a name. The reference goes
through it from its start with a stack of names. They agree on the names that are left; they differ for an
absolute path that climbs above the root, where the reference stays at the root and `normalized` keeps the `..`.
-/

namespace LiteBox.Fs.Path

open List

/-- Where a walk over components has got to: how far above its start, and the names below that, the last one first. -/
structure Place where
  ups : ℕ
  names : List String
deriving DecidableEq

/-- One component of the reference. A `..` at the root of an absolute path stays there. -/
def Place.step (absolute : Bool) (place : Place) (component : String) : Place :=
  if component = "" ∨ component = "." then place
  else if component = ".." then
    match place.names with
    | _ :: names => ⟨place.ups, names⟩
    | [] => if absolute then place else ⟨place.ups + 1, []⟩
  else ⟨place.ups, component :: place.names⟩

def place (absolute : Bool) (path : Path) : Place := path.foldl (Place.step absolute) ⟨0, []⟩

variable (path : Path)

/-- The stack evaluation of a path. -/
def evaluate : Place := place path.isAbsolute path

/-- How often a path climbs above where it starts. -/
def climbs : ℕ := (place false path).ups

variable {p q : Path} {names : List String}

theorem place_concat (absolute : Bool) (path : Path) (component : String) :
    place absolute (path ++ [component]) = (place absolute path).step absolute component := by
  simp [place, foldl_append]

/-- The three kinds of components. -/
theorem component_kinds (component : String) : (component = "" ∨ component = ".") ∨ component = ".." ∨ IsName component := by
  unfold IsName
  tauto

variable {absolute : Bool} {component : String}

theorem Place.step_skip {place : Place} (dot : component = "" ∨ component = ".") :
    place.step absolute component = place := if_pos dot

theorem Place.step_name {place : Place} (name : IsName component) :
    place.step absolute component = ⟨place.ups, component :: place.names⟩ := by
  rw [step, if_neg (not_or.mpr ⟨name.1, name.2.1⟩), if_neg name.2.2]

variable {ups : ℕ}

theorem Place.step_up_below {last : String} {names : List String} :
    step absolute ⟨ups, last :: names⟩ ".." = ⟨ups, names⟩ := rfl

theorem Place.step_up_above : step false ⟨ups, []⟩ ".." = ⟨ups + 1, []⟩ := rfl

theorem Place.step_up_root : step true ⟨ups, []⟩ ".." = ⟨ups, []⟩ := rfl

/-- On an absolute path the surplus is dropped and the names are the same. -/
theorem place_absolute : place true path = ⟨0, (place false path).names⟩ := by
  induction path using reverseRecOn with
  | nil => rfl
  | append_singleton path component ih =>
    rw [place_concat, place_concat, ih]
    obtain dot | rfl | name := component_kinds component
    · rw [Place.step_skip dot, Place.step_skip dot]
    · obtain ⟨ups, _ | ⟨last, names⟩⟩ := place false path
      · rw [Place.step_up_above, Place.step_up_root]
      · rw [Place.step_up_below, Place.step_up_below]
    · rw [Place.step_name name, Place.step_name name]

theorem evaluate_names : path.evaluate.names = (place false path).names := by
  unfold evaluate
  cases path.isAbsolute with
  | false => rfl
  | true => rw [place_absolute]

theorem evaluate_ups (relative : p.isAbsolute = false) : p.evaluate.ups = p.climbs := by
  rw [evaluate, relative, climbs]

/-- The scan from the end, with `parents` names still to cancel, against the stack of the whole path. -/
theorem normalizedRev_reverse (parents : ℕ) : normalizedRev parents path.reverse =
    ((place false path).names.drop parents, path.climbs + (parents - (place false path).names.length)) := by
  unfold climbs
  induction path using reverseRecOn generalizing parents with
  | nil => simp [normalizedRev, place]
  | append_singleton path component ih =>
    rw [place_concat, reverse_append, reverse_singleton, singleton_append, normalizedRev]
    obtain dot | rfl | name := component_kinds component
    · rw [if_pos dot, ih, Place.step_skip dot]
    · rw [if_neg (by decide), if_pos rfl, ih]
      obtain ⟨ups, _ | ⟨last, names⟩⟩ := place false path
      · simp [Place.step_up_above]
        omega
      · simp [Place.step_up_below]
    · rw [if_neg (not_or.mpr ⟨name.1, name.2.1⟩), if_neg name.2.2, Place.step_name name]
      cases parents with
      | zero | succ => simp [ih]

/-- A normalized path in terms of the stack. -/
theorem normalizedComponents_stack : path.normalizedComponents =
    (if path.isAbsolute then [""] else []) ++ replicate path.climbs ".." ++ path.evaluate.names.reverse := by
  rw [normalizedComponents, normalizedRev_reverse, evaluate_names]
  cases path.isAbsolute <;> simp

theorem place_isName (absolute : Bool) (path : Path) : ∀ name ∈ (place absolute path).names, IsName name := by
  induction path using reverseRecOn with
  | nil => simp [place]
  | append_singleton path component ih =>
    rw [place_concat]
    revert ih
    obtain ⟨ups, names⟩ := place absolute path
    intro ih
    obtain dot | rfl | name := component_kinds component
    · rw [Place.step_skip dot]
      exact ih
    · rcases names with _ | ⟨last, names⟩
      · cases absolute <;> exact ih
      · exact fun name mem => ih name (mem_cons_of_mem _ mem)
    · rw [Place.step_name name]
      exact forall_mem_cons.mpr ⟨name, ih⟩

/-! ## Normal forms -/

theorem place_replicate (count : ℕ) : place false (replicate count "..") = ⟨count, []⟩ := by
  induction count with
  | zero => rfl
  | succ count ih => rw [replicate_succ', place_concat, ih]; rfl

theorem place_names (all : ∀ name ∈ names, IsName name) (path : Path) :
    place false (path ++ names) = ⟨path.climbs, names.reverse ++ (place false path).names⟩ := by
  induction names using reverseRecOn with
  | nil => rw [append_nil]; rfl
  | append_singleton names last ih =>
    rw [← append_assoc, place_concat, ih fun name mem => all name (by simp [mem]), Place.step_name (all last (by simp))]
    simp

theorem place_cons_empty : place false ("" :: path) = place false path := rfl

/-- Surplus `..` and names are their own evaluation. -/
theorem place_normal (all : ∀ name ∈ names, IsName name) (count : ℕ) :
    place false (replicate count ".." ++ names) = ⟨count, names.reverse⟩ := by
  rw [place_names all, climbs, place_replicate, append_nil]

theorem normalized_eq (some : path.normalizedComponents ≠ []) : path.normalized = path.normalizedComponents := by
  rw [normalized]
  split
  · next none => exact absurd none some
  · rfl

theorem normalized_empty (none : p.normalizedComponents = []) : p.normalized = [""] := by
  rw [normalized, none]

theorem isAbsolute_cons {first : String} {rest : List String} (some : rest ≠ []) : isAbsolute (first :: rest) = decide (first = "") := by
  cases rest with
  | nil => exact absurd rfl some
  | cons second rest =>
    by_cases empty : first = ""
    · subst empty
      rfl
    · rw [isAbsolute, decide_eq_false empty]
      simpa using empty

theorem isAbsolute_normal (all : ∀ name ∈ names, IsName name) (count : ℕ) : isAbsolute (replicate count ".." ++ names) = false := by
  cases eq : replicate count ".." ++ names with
  | nil => rfl
  | cons first rest =>
    cases rest with
    | nil => simp [isAbsolute]
    | cons second rest =>
      rw [isAbsolute_cons (by simp), decide_eq_false]
      rintro rfl
      have mem : "" ∈ replicate count ".." ++ names := eq ▸ mem_cons_self
      rcases mem_append.mp mem with mem | mem
      · simpa using eq_of_mem_replicate mem
      · exact (all "" mem).1 rfl

theorem normalized_idempotent : path.normalized.normalized = path.normalized := by
  have all : ∀ name ∈ path.evaluate.names.reverse, IsName name := by
    intro name mem
    exact place_isName path.isAbsolute path name (mem_reverse.mp mem)
  have stack := normalizedComponents_stack path
  set names := path.evaluate.names.reverse
  cases kind : path.isAbsolute with
  | false =>
    rw [kind, if_neg (by simp), nil_append] at stack
    by_cases none : path.normalizedComponents = []
    · rw [normalized_empty none]
      rfl
    · have again : normalizedComponents path.normalizedComponents = path.normalizedComponents := by
        rw [stack, normalizedComponents_stack, isAbsolute_normal all, climbs, evaluate_names, place_normal all]
        simp
      rw [normalized_eq _ none, normalized_eq _ (by rwa [again]), again]
  | true =>
    rw [kind, if_pos rfl, append_assoc, singleton_append] at stack
    have some : path.normalizedComponents ≠ [] := by simp [stack]
    rw [normalized_eq _ some, stack]
    by_cases rest : replicate path.climbs ".." ++ names = []
    · rw [rest]
      rfl
    · have absolute : isAbsolute ("" :: (replicate path.climbs ".." ++ names)) = true := by
        rw [isAbsolute_cons rest, decide_eq_true rfl]
      have again : normalizedComponents ("" :: (replicate path.climbs ".." ++ names)) =
          "" :: (replicate path.climbs ".." ++ names) := by
        rw [normalizedComponents_stack, absolute, climbs, evaluate_names, place_cons_empty, place_normal all]
        simp
      rw [normalized_eq _ (by simp [again]), again]

/-! ## Two spellings -/

theorem normalized_of_components (same : p.normalizedComponents = q.normalizedComponents) : p.normalized = q.normalized := by
  rw [normalized, normalized, same]

/-- Two spellings of one place, both absolute or both relative, have one normal form exactly if, when they are absolute,
they climb above the root equally often. -/
theorem normalized_canonical_iff (kind : p.isAbsolute = q.isAbsolute) (same : p.evaluate = q.evaluate) :
    (p.normalized = q.normalized ↔ (p.isAbsolute = true → p.climbs = q.climbs)) ∧
      ∀ path : Path, path.normalized.normalized = path.normalized := by
  refine ⟨?_, normalized_idempotent⟩
  constructor
  · intro equal absolute
    have componentsOf {path : Path} (absolute : path.isAbsolute = true) : path.normalized =
        "" :: (replicate path.climbs ".." ++ path.evaluate.names.reverse) := by
      have stack := normalizedComponents_stack path
      rw [absolute, if_pos rfl, append_assoc, singleton_append] at stack
      rw [normalized_eq _ (by simp [stack]), stack]
    rw [componentsOf absolute, componentsOf (kind ▸ absolute), same] at equal
    simpa using congrArg length equal
  · intro climbing
    have climb : p.climbs = q.climbs := by
      cases absolute : p.isAbsolute with
      | true => exact climbing absolute
      | false => rw [← evaluate_ups absolute, ← evaluate_ups (kind ▸ absolute), same]
    refine normalized_of_components ?_
    rw [normalizedComponents_stack, normalizedComponents_stack, kind, climb, same]

theorem normalized_canonical_spelled : isAbsolute ["", "a", "..", "b"] = isAbsolute ["", "", ".", "b"] ∧
    normalized ["", "a", "..", "b"] = normalized ["", "", ".", "b"] := by
  refine ⟨rfl, ?_⟩
  have canonical := normalized_canonical_iff (p := ["", "a", "..", "b"]) (q := ["", "", ".", "b"]) rfl (by decide +kernel)
  exact canonical.1.mpr fun _ => by decide +kernel

/-- `/../a` and `/a` are one place, and have different normal forms. -/
theorem surplus_parent_kept : isAbsolute ["", "..", "a"] = isAbsolute ["", "a"] ∧ evaluate ["", "..", "a"] = evaluate ["", "a"] ∧
    normalized ["", "..", "a"] = ["", "..", "a"] ∧ normalized ["", "a"] = ["", "a"] := by
  decide +kernel

end LiteBox.Fs.Path

namespace LiteBox.Fs.InMem

variable {s : InMem} {user : UserInfo} {p q : Path}

/-- A walk of the in-memory file system ignores what climbs above the root, so it finds the same for all spellings. -/
theorem walk_spelling (same : p.evaluate.names = q.evaluate.names) (hops : ℕ) : s.walk user hops p = s.walk user hops q := by
  have found (path : Path) : s.walkComponents user [""] none false path.normalizedComponents =
      s.walkComponents user [""] none false path.evaluate.names.reverse := by
    rw [Path.normalizedComponents_stack]
    refine walkComponents_lead ?_ _ _ _
    intro component mem
    rcases List.mem_append.mp mem with mem | mem
    · split_ifs at mem
      · exact .inl (List.mem_singleton.mp mem)
      · cases mem
    · exact .inr (List.eq_of_mem_replicate mem)
  rw [walk, walk, found, found, same]

theorem walk_spelling_climb : (new epoch).walk .root 1 ["", "..", "a"] = (new epoch).walk .root 1 ["", "a"] :=
  walk_spelling rfl 1

end LiteBox.Fs.InMem
