import LiteBox.Fs.Resolver
import Mathlib.Logic.Relation

/-! # A resolver that goes component by component

The reference takes one component at a time. It knows the directory that it is in, so a relative link is taken
from there and `..` leads to the parent. Over trees whose links never go up, opening through the resolver reaches
what the reference reaches.
-/

namespace LiteBox.Fs.Resolver

open List Option OFlags

open Relation (ReflTransGen)

variable {W D F : Type}

/-! ## The reference -/

/-- The components of a text that count. -/
def names (path : Path) : List String := path.filter fun component => component ≠ "" ∧ component ≠ "."

/-- One component, from a directory with components to go. There is no step when they are used up, or from a name
that is missing, is a file, or is a directory that the user may not search. -/
def advance (tree : FileTree) (user : UserInfo) : List String × List String → Option (List String × List String)
  | (_, []) => none
  | (dir, name :: rest) =>
    if name = ".." then some (dir.dropLast, rest)
    else match tree.node (dir ++ [name]) with
      | none => none
      | some (.dir node) => if searchable user node.permissions then some (dir ++ [name], rest) else none
      | some (.leaf leaf) => leaf.target.map fun target => (if target.isAbsolute then [] else dir, names target ++ rest)

/-- The reference comes from one place to another. -/
def Reaches (tree : FileTree) (user : UserInfo) : List String × List String → List String × List String → Prop :=
  ReflTransGen fun source next => advance tree user source = some next

variable {tree : FileTree} {user : UserInfo}

section Reaches

variable {dir dir' rest rest' more : List String} {a b c : List String × List String}

theorem advance_frame (more : List String) (step : advance tree user (dir, rest) = some (dir', rest')) :
    advance tree user (dir, rest ++ more) = some (dir', rest' ++ more) := by
  cases rest with
  | nil => cases step
  | cons name rest =>
    rw [advance] at step
    rw [cons_append, advance]
    split_ifs at step ⊢ with up
    · obtain ⟨rfl, rfl⟩ := Prod.mk.inj (some.inj step)
      rfl
    · revert step
      rcases tree.node (dir ++ [name]) with _ | (node | leaf)
      · exact fun step => nomatch step
      · dsimp only
        split_ifs
        · intro step
          obtain ⟨rfl, rfl⟩ := Prod.mk.inj (some.inj step)
          rfl
        · exact fun step => nomatch step
      · intro step
        obtain ⟨target, isTarget, step⟩ := map_eq_some_iff.mp step
        obtain ⟨rfl, rfl⟩ := Prod.mk.inj step
        simp [isTarget, append_assoc]

/-- What comes later in a path does not matter until it is reached. -/
theorem Reaches.frame (reaches : Reaches tree user (dir, rest) (dir', rest')) (more : List String) :
    Reaches tree user (dir, rest ++ more) (dir', rest' ++ more) := by
  let framed (place : List String × List String) : List String × List String := (place.1, place.2 ++ more)
  suffices all : ∀ {a b}, Reaches tree user a b → Reaches tree user (framed a) (framed b) from all reaches
  intro a b reaches
  induction reaches with
  | refl => exact .refl
  | tail _ step ih => exact .tail ih (advance_frame more step)

/-- Where the reference stops is passed on from any place on the way. -/
theorem Reaches.further (toC : Reaches tree user a c) (toB : Reaches tree user a b) (final : advance tree user c = none) :
    Reaches tree user b c := by
  have unique : Relator.RightUnique fun source next => advance tree user source = some next :=
    fun _ _ _ step step' => some.inj (step.symm.trans step')
  rcases ReflTransGen.total_of_right_unique unique toB toC with reaches | reaches
  · exact reaches
  · rcases ReflTransGen.cases_head reaches with rfl | ⟨next, step, -⟩
    · exact .refl
    · rw [final] at step
      cases step

/-- The reference stops at one place only. -/
theorem Reaches.final_unique (toB : Reaches tree user a b) (toC : Reaches tree user a c) (finalB : advance tree user b = none)
    (finalC : advance tree user c = none) : b = c := by
  rcases ReflTransGen.cases_head (toC.further toB finalC) with rfl | ⟨next, step, -⟩
  · rfl
  · rw [finalB] at step
    cases step

end Reaches

/-! ## Walks of a backend -/

section Walks

variable {dir last components rest : List String} {walked : List PermissionCheck}

/-- The reference is stopped at a directory that the user may not search. -/
def Barred (tree : FileTree) (user : UserInfo) (dir components : List String) : Prop :=
  ∃ at_dir name rest node, Reaches tree user (dir, components) (at_dir, name :: rest) ∧ name ≠ ".." ∧
    tree.node (at_dir ++ [name]) = some (.dir node) ∧ searchable user node.permissions = false

theorem Barred.frame (barred : Barred tree user dir components) (more : List String) : Barred tree user dir (components ++ more) := by
  obtain ⟨at_dir, name, rest, node, reaches, down, isDir, closed⟩ := barred
  exact ⟨at_dir, name, rest ++ more, node, reaches.frame more, down, isDir, closed⟩

/-- A walk over directories is what the reference does, up to the first directory that is closed to the user. -/
theorem reaches_of_walk (walk : tree.Walk dir components walked last rest) (down : ".." ∉ components) :
    if walked.all (searchable user) then Reaches tree user (dir, components) (last, rest) else Barred tree user dir components := by
  induction walk with
  | stop => exact .refl
  | @step dir components walked last rest name node isDir further ih =>
    obtain ⟨notUp, down⟩ := not_or.mp (mt mem_cons.mpr down)
    replace notUp : name ≠ ".." := fun same => notUp same.symm
    rw [all_cons]
    cases open_ : searchable user node.permissions with
    | false => exact ⟨dir, name, components, node, .refl, notUp, isDir, open_⟩
    | true =>
      have step : advance tree user (dir, name :: components) = some (dir ++ [name], components) := by
        simp [advance, if_neg notUp, isDir, open_]
      rw [Bool.true_and]
      specialize ih down
      split_ifs at ih ⊢
      · exact .head step ih
      · obtain ⟨at_dir, name', rest', node', reaches, rest⟩ := ih
        exact ⟨at_dir, name', rest', node', .head step reaches, rest⟩

end Walks

/-! ## Links that do not go up -/

/-- Every link names something, and none goes up. -/
def Tame (tree : FileTree) : Prop := ∀ path leaf target, tree.node path = some (.leaf leaf) → leaf.target = some target →
  ".." ∉ target ∧ names target ≠ []

theorem foldl_pushComponent {path : Path} (down : ".." ∉ path) (base : List String) : path.foldl pushComponent base = base ++ names path := by
  induction path generalizing base with
  | nil => simp [names]
  | cons component path ih =>
    obtain ⟨notUp, down⟩ := not_or.mp (mt mem_cons.mpr down)
    rw [foldl_cons, ih down, pushComponent, names, names, filter_cons]
    by_cases skipped : component = "" ∨ component = "."
    · rw [if_pos skipped, if_neg (by simpa [← not_or] using skipped)]
    · rw [if_neg skipped, if_neg (fun same => notUp same.symm), if_pos (by simpa [← not_or] using skipped)]
      simp

theorem targetComponents_eq {target : Path} (down : ".." ∉ target) (base : List String) :
    targetComponents base target = (if target.isAbsolute then [] else base) ++ names target := by
  rw [targetComponents]
  split_ifs
  · rfl
  · exact foldl_pushComponent down base

/-! ## One round -/

section Rounds

variable {backend : Backend W D F} {walking : W → List String → Prop} {owned : D → List String → Prop}
  (realizes : backend.Realizes tree walking owned)
  (whole : ∀ w components outcome, backend.walkDirectories w components = .ok outcome → outcome.stopReason ≠ .continued)

/-- The reference walks a path of directories to its end. -/
def Walkable (tree : FileTree) (user : UserInfo) (path : List String) : Prop := Reaches tree user ([], path) (path, [])

variable {last rest dir components components' parent : List String} {name : String}

/-- A walk from the root has walked to the path of its directory. -/
theorem walkable_of_walk {current : List String} {walked : List PermissionCheck} (walk : tree.Walk [] current walked last rest)
    (down : ".." ∉ current) : current = last ++ rest ∧ if walked.all (searchable user) then Walkable tree user last else Barred tree user [] last := by
  obtain ⟨-, last_eq, rest_eq⟩ := walk.eq
  rw [nil_append] at last_eq
  have current_eq : current = last ++ rest := by rw [last_eq, rest_eq, take_append_drop]
  refine ⟨current_eq, reaches_of_walk ?_ fun up => down (current_eq ▸ mem_append_left _ up)⟩
  have behind := walk.behind
  rwa [← last_eq] at behind

include realizes in
theorem linkTarget_eq {ε : Type} {w : W} (name : String) (at_dir : walking w dir) :
    (linkTarget backend w name : Except (Halt ε) (Option Path)) =
      .ok (match tree.node (dir ++ [name]) with | some (.leaf leaf) => leaf.target | _ => none) := by
  rw [linkTarget, realizes.readLink name at_dir]
  rcases tree.node (dir ++ [name]) with _ | (node | leaf) <;> rfl

/-- What one round of `walk_path_following_symlinks` does. -/
inductive Round (tree : FileTree) (walking : W → List String → Prop) (user : UserInfo) (follow : FollowFinal) (originalLen : ℕ)
    (current : List String) (next : List String → Except (Halt WalkError) (WalkOutcome W × ℕ)) :
    Except (Halt WalkError) (WalkOutcome W × ℕ) → Prop
  | barred (barred : Barred tree user [] current) : Round tree walking user follow originalLen current next (.error (.error (.pathError .noSearchPerms)))
  | complete {outcome : WalkOutcome W} (stop : outcome.stopReason = .completeDirectory) (here : Walkable tree user current)
      (at_end : walking outcome.last current) : Round tree walking user follow originalLen current next (.ok (outcome, originalLen))
  | stopped {outcome : WalkOutcome W} {last rest : List String} {name : String} {leaf : Leaf} (stop : outcome.stopReason = .stoppedAtNonDirectory)
      (current_eq : current = last ++ name :: rest) (here : Walkable tree user last) (at_last : walking outcome.last last)
      (isLeaf : tree.node (last ++ [name]) = some (.leaf leaf)) : Round tree walking user follow originalLen current next
        (if rest = [] ∧ follow = .no then .ok (outcome, originalLen - 1) else match leaf.target with
          | none => .error (.error (.pathError .componentNotADirectory))
          | some target => next (targetComponents last target ++ rest))
  | missing {last rest : List String} {name : String} (current_eq : current = last ++ name :: rest)
      (here : Walkable tree user last ∨ Barred tree user [] last) (absent : tree.node (last ++ [name]) = none) :
      Round tree walking user follow originalLen current next (.error (.error (.pathError .noSuchFileOrDirectory)))

include realizes whole in
theorem followLoop_round (follow : FollowFinal) (originalLen hops : ℕ) {current : List String} (down : ".." ∉ current) (nonempty : current ≠ []) :
    Round tree walking user follow originalLen current (followLoop backend user follow originalLen hops)
      (followLoop backend user follow originalLen (hops + 1) current) := by
  have answer := realizes.walk current realizes.root nonempty
  have total := whole backend.root current
  rw [followLoop]
  revert answer total
  rcases backend.walkDirectories backend.root current with halt | ⟨components, last, reason⟩
  · intro answer _
    obtain ⟨rfl, walked, last, name, rest, walk, absent⟩ := FileTree.Walked.error answer
    obtain ⟨current_eq, here⟩ := @walkable_of_walk _ user _ _ _ _ walk down
    refine .missing current_eq ?_ absent
    split_ifs at here
    · exact .inl here
    · exact .inr here
  · rintro ⟨dir, rest, walk, at_last, stop⟩ total
    obtain ⟨current_eq, here⟩ := @walkable_of_walk _ user _ _ _ _ walk down
    have length_eq : dir.length = components.length := by
      obtain ⟨short, dir_eq, -⟩ := walk.eq
      rw [dir_eq, nil_append, length_take, Nat.min_eq_left short]
    show Round tree walking user follow originalLen current _ ((checkWalkPermissions user ⟨components, last, reason⟩).bind fun _ =>
      followRound backend follow originalLen (followLoop backend user follow originalLen hops) current ⟨components, last, reason⟩)
    by_cases allowed : components.all (searchable user) = true
    · have checked : checkWalkPermissions user ⟨components, last, reason⟩ = .ok () := if_pos allowed
      replace here : Walkable tree user dir := by rwa [if_pos allowed] at here
      rw [checked, Except.bind, followRound]
      cases reason with
      | continued => exact absurd rfl (total _ rfl)
      | completeDirectory =>
        obtain rfl : rest = [] := stop
        rw [append_nil] at current_eq
        subst current_eq
        rw [if_pos rfl]
        exact .complete rfl here at_last
      | stoppedAtNonDirectory =>
        obtain ⟨name, rest, leaf, rfl, isLeaf⟩ := stop
        refine Eq.subst (motive := Round tree walking user follow originalLen current _) ?_ (Round.stopped rfl current_eq here at_last isLeaf)
        have final : components.length + 1 = current.length ↔ rest = [] := by
          rw [current_eq, ← length_eq, length_append, length_cons, ← length_eq_zero_iff]
          omega
        have target : (linkTarget backend last name : Except (Halt WalkError) (Option Path)) = .ok leaf.target := by
          rw [linkTarget_eq realizes name at_last, isLeaf]
        have there : current[components.length]? = some name := by rw [current_eq, ← length_eq]; simp
        have behind : current.take components.length = dir := by rw [current_eq, ← length_eq]; simp
        have ahead : current.drop (components.length + 1) = rest := by rw [current_eq, ← length_eq, ← drop_drop]; simp
        simp only [final, reduceCtorEq, if_false, true_and, there, behind, ahead, target]
        rfl
    · have checked : checkWalkPermissions user ⟨components, last, reason⟩ = .error (.error (.pathError .noSearchPerms)) := if_neg allowed
      replace here : Barred tree user [] dir := by rwa [if_neg allowed] at here
      rw [checked]
      exact .barred (current_eq ▸ here.frame rest)

/-! ## Whole walks -/

/-- The reference stops before it has used up the components. -/
def Stuck (tree : FileTree) (user : UserInfo) (components : List String) : Prop :=
  ∃ dir name rest, Reaches tree user ([], components) (dir, name :: rest) ∧ advance tree user (dir, name :: rest) = none

/-- The reference stops at what is neither the end of the path nor a file or a free name at its end. -/
def Fails (tree : FileTree) (user : UserInfo) (components : List String) : Prop :=
  ∃ dir name rest, Reaches tree user ([], components) (dir, name :: rest) ∧ advance tree user (dir, name :: rest) = none ∧
    ((∃ node, tree.node (dir ++ [name]) = some (.dir node)) ∨ rest ≠ [])

/-- Where the reference stops from the second path, it stops from the first one. -/
def Leads (tree : FileTree) (user : UserInfo) (components components' : List String) : Prop :=
  ∀ more place, advance tree user place = none → Reaches tree user ([], components' ++ more) place → Reaches tree user ([], components ++ more) place

theorem Barred.advance_none {node : DirNode} (notUp : name ≠ "..")
    (isDir : tree.node (dir ++ [name]) = some (.dir node)) (closed : searchable user node.permissions = false) :
    advance tree user (dir, name :: rest) = none := by
  simp [advance, notUp, isDir, closed]

theorem Barred.stuck (barred : Barred tree user [] components) : Stuck tree user components := by
  obtain ⟨dir, name, rest, node, reaches, notUp, isDir, closed⟩ := barred
  exact ⟨dir, name, rest, reaches, Barred.advance_none notUp isDir closed⟩

theorem Barred.fails (barred : Barred tree user [] components) : Fails tree user components := by
  obtain ⟨dir, name, rest, node, reaches, notUp, isDir, closed⟩ := barred
  exact ⟨dir, name, rest, reaches, Barred.advance_none notUp isDir closed, .inl ⟨node, isDir⟩⟩

theorem advance_none_iff {rest' : List String} (final : advance tree user (dir, name :: rest) = none) :
    advance tree user (dir, name :: rest') = none := by
  rw [advance] at final ⊢
  split_ifs at final ⊢
  revert final
  rcases tree.node (dir ++ [name]) with _ | (node | leaf)
  · exact id
  · dsimp only
    split_ifs
    · exact fun wrong => nomatch wrong
    · exact id
  · intro final
    rw [map_eq_none_iff] at final ⊢
    exact final

theorem Stuck.fails (stuck : Stuck tree user components) (name : String) : Fails tree user (components ++ [name]) := by
  obtain ⟨dir, first, rest, reaches, final⟩ := stuck
  exact ⟨dir, first, rest ++ [name], reaches.frame [name], advance_none_iff final, .inr (by simp)⟩

theorem Leads.stuck (leads : Leads tree user components components') (stuck : Stuck tree user components') :
    Stuck tree user components := by
  obtain ⟨dir, first, rest, reaches, final⟩ := stuck
  exact ⟨dir, first, rest, by simpa using leads [] _ final (by simpa using reaches), final⟩

theorem Leads.fails (leads : Leads tree user components components')
    (fails : Fails tree user (components' ++ [name])) : Fails tree user (components ++ [name]) := by
  obtain ⟨dir, first, rest, reaches, final, how⟩ := fails
  exact ⟨dir, first, rest, leads [name] _ final reaches, final, how⟩

/-- A link is followed by putting its target in its place. -/
theorem leads_of_link {leaf : Leaf} {target : Path} (here : Reaches tree user ([], parent) (dir, []))
    (notUp : name ≠ "..") (isLeaf : tree.node (dir ++ [name]) = some (.leaf leaf)) (isTarget : leaf.target = some target) :
    Leads tree user (parent ++ name :: rest) ((if target.isAbsolute then [] else parent) ++ names target ++ rest) := by
  intro more place final reaches
  have toLink := here.frame (name :: rest ++ more)
  have step : advance tree user (dir, name :: rest ++ more) = some (if target.isAbsolute then [] else dir, names target ++ (rest ++ more)) := by
    simp [advance, notUp, isLeaf, isTarget]
  have toTarget : Reaches tree user ([], (if target.isAbsolute then [] else parent) ++ names target ++ rest ++ more)
      (if target.isAbsolute then [] else dir, names target ++ (rest ++ more)) := by
    split_ifs
    · simpa using .refl
    · simpa using here.frame (names target ++ (rest ++ more))
  have rest_reaches := reaches.further toTarget final
  rw [append_assoc]
  exact toLink.trans (.head step rest_reaches)

/-- What a walk to the last component, without following it, may answer. -/
def FoundLast (tree : FileTree) (walking : W → List String → Prop) (user : UserInfo) (originalLen : ℕ) (parent : List String) (name : String) :
    Except (Halt WalkError) (WalkOutcome W × ℕ) → Prop
  | .ok (outcome, consumed) =>
    match outcome.stopReason with
    | .completeDirectory => ∃ dir, Reaches tree user ([], parent ++ [name]) (dir, []) ∧ walking outcome.last dir
    | .stoppedAtNonDirectory => consumed = originalLen - 1 ∧
        ∃ dir leaf, Reaches tree user ([], parent) (dir, []) ∧ walking outcome.last dir ∧ tree.node (dir ++ [name]) = some (.leaf leaf)
    | .continued => False
  | .error (.error (.pathError .tooManySymlinkHops)) => True
  | .error (.error (.pathError .noSuchFileOrDirectory)) =>
    (∃ dir, Reaches tree user ([], parent) (dir, []) ∧ tree.node (dir ++ [name]) = none) ∨ Stuck tree user parent
  | .error (.error _) => Fails tree user (parent ++ [name])
  | .error (.panic _) => False

/-- How a walk to a directory may fail. -/
def Lost (tree : FileTree) (user : UserInfo) (components : List String) : Halt WalkError → Prop
  | .error (.pathError .tooManySymlinkHops) => True
  | .error _ => Stuck tree user components
  | .panic _ => False

/-- What a walk to a directory may answer. -/
def FoundDirectory (tree : FileTree) (walking : W → List String → Prop) (user : UserInfo) (originalLen : ℕ) (components : List String) :
    Except (Halt WalkError) (WalkOutcome W × ℕ) → Prop
  | .ok (outcome, consumed) => outcome.stopReason = .completeDirectory ∧ consumed = originalLen ∧
      ∃ dir, Reaches tree user ([], components) (dir, []) ∧ walking outcome.last dir
  | .error halt => Lost tree user components halt

variable {result : Except (Halt WalkError) (WalkOutcome W × ℕ)} {originalLen : ℕ}

theorem Leads.foundLast {parent' : List String} (leads : Leads tree user parent parent')
    (found : FoundLast tree walking user originalLen parent' name result) :
    FoundLast tree walking user originalLen parent name result := by
  have same {dir : List String} (reaches : Reaches tree user ([], parent') (dir, [])) : Reaches tree user ([], parent) (dir, []) := by
    simpa using leads [] _ rfl (by simpa using reaches)
  unfold FoundLast at found ⊢
  split at found
  · next outcome consumed =>
    revert found
    rcases outcome.stopReason
    · exact fun ⟨dir, reaches, at_dir⟩ => ⟨dir, leads [name] _ rfl reaches, at_dir⟩
    · exact fun ⟨kept, dir, leaf, reaches, rest⟩ => ⟨kept, dir, leaf, same reaches, rest⟩
    · exact id
  · trivial
  · exact found.imp (fun ⟨dir, reaches, absent⟩ => ⟨dir, same reaches, absent⟩) leads.stuck
  · exact leads.fails found
  · exact found

variable {halt : Halt WalkError}

theorem Lost.cases (lost : Lost tree user components halt) :
    halt = .error (.pathError .tooManySymlinkHops) ∨ Stuck tree user components ∧ ∃ error, halt = .error error := by
  unfold Lost at lost
  split at lost
  · exact .inl rfl
  · exact .inr ⟨lost, _, rfl⟩
  · exact lost.elim

theorem Leads.lost (leads : Leads tree user components components')
    (lost : Lost tree user components' halt) : Lost tree user components halt := by
  unfold Lost at lost ⊢
  split at lost
  · trivial
  · exact leads.stuck lost
  · exact lost

theorem Leads.foundDirectory (leads : Leads tree user components components')
    (found : FoundDirectory tree walking user originalLen components' result) :
    FoundDirectory tree walking user originalLen components result := by
  rcases result with halt | ⟨outcome, consumed⟩
  · exact leads.lost found
  · obtain ⟨stop, kept, dir, reaches, at_dir⟩ := found
    exact ⟨stop, kept, dir, by simpa using leads [] _ rfl (by simpa using reaches), at_dir⟩

/-- The components before the last one, when a walk stopped at one of them. -/
theorem stop_cases {first : String} (current_eq : parent ++ [name] = last ++ first :: rest) :
    (rest = [] ∧ parent = last ∧ name = first) ∨ ∃ between, rest = between ++ [name] ∧ parent = last ++ first :: between := by
  rcases eq_nil_or_concat rest with rfl | ⟨between, z, rfl⟩
  · exact .inl ⟨rfl, append_singleton_inj.mp current_eq⟩
  · have current_eq' : parent ++ [name] = (last ++ first :: between) ++ [z] := by simpa using current_eq
    obtain ⟨same, same'⟩ := append_singleton_inj.mp current_eq'
    exact .inr ⟨between, by rw [same', concat_eq_append], same⟩

/-- Components that do not go up, after a link. -/
theorem down_of_target {target : Path} (downLast : ".." ∉ last) (downTarget : ".." ∉ target) (downRest : ".." ∉ rest) :
    ".." ∉ (if target.isAbsolute then [] else last) ++ names target ++ rest := by
  have downNames : ".." ∉ names target := fun mem => downTarget (mem_of_mem_filter mem)
  split_ifs <;> simp [downLast, downNames, downRest]

theorem advance_missing (notUp : name ≠ "..") (absent : tree.node (dir ++ [name]) = none) :
    advance tree user (dir, name :: rest) = none := by
  simp [advance, notUp, absent]

theorem advance_file {leaf : Leaf} (notUp : name ≠ "..") (isLeaf : tree.node (dir ++ [name]) = some (.leaf leaf))
    (noTarget : leaf.target = none) : advance tree user (dir, name :: rest) = none := by
  simp [advance, notUp, isLeaf, noTarget]

section Loops

variable (tame : Tame tree)
include realizes whole tame

theorem followLoop_last (originalLen hops : ℕ) {parent : List String} {name : String} (down : ".." ∉ parent ++ [name]) :
    FoundLast tree walking user originalLen parent name (followLoop backend user .no originalLen hops (parent ++ [name])) := by
  induction hops generalizing parent with
  | zero => trivial
  | succ hops ih =>
    have round := @followLoop_round _ _ _ _ user _ _ _ realizes whole .no originalLen hops _ down (by simp)
    generalize followLoop backend user .no originalLen (hops + 1) (parent ++ [name]) = result at round
    cases round with
    | barred barred => exact barred.fails
    | @complete outcome stop here at_end =>
      rw [FoundLast, stop]
      exact ⟨_, here, at_end⟩
    | @stopped outcome last rest first leaf stop current_eq here at_last isLeaf =>
      have notUp : first ≠ ".." := fun same => down (by simp [current_eq, same])
      obtain ⟨rfl, rfl, rfl⟩ | ⟨between, rfl, rfl⟩ := stop_cases current_eq
      · rw [if_pos ⟨rfl, rfl⟩, FoundLast, stop]
        exact ⟨rfl, _, leaf, here, at_last, isLeaf⟩
      · rw [if_neg (by simp)]
        cases isTarget : leaf.target with
        | none =>
          have stuck : Stuck tree user (last ++ first :: between) := ⟨last, first, between, here.frame _, advance_file notUp isLeaf isTarget⟩
          exact stuck.fails name
        | some target =>
          obtain ⟨targetDown, -⟩ := tame _ leaf target isLeaf isTarget
          have next_eq : targetComponents last target ++ (between ++ [name]) =
              (if target.isAbsolute then [] else last) ++ names target ++ between ++ [name] := by
            rw [targetComponents_eq targetDown, append_assoc _ between]
          dsimp only
          rw [next_eq]
          refine (leads_of_link here notUp isLeaf isTarget).foundLast (ih ?_)
          simp only [mem_append, mem_cons, not_or] at down
          rw [append_assoc _ between]
          exact down_of_target down.1.1 targetDown (by simp [down.1.2.2, down.2])
    | @missing last rest first current_eq here absent =>
      have notUp : first ≠ ".." := fun same => down (by simp [current_eq, same])
      obtain ⟨rfl, rfl, rfl⟩ | ⟨between, rfl, rfl⟩ := stop_cases current_eq
      · exact here.imp (fun here => ⟨_, here, absent⟩) Barred.stuck
      · exact .inr (here.elim (fun here => ⟨last, first, between, here.frame _, advance_missing notUp absent⟩) fun barred => (barred.frame _).stuck)

theorem followLoop_directory (originalLen hops : ℕ) {components : List String} (down : ".." ∉ components) (nonempty : components ≠ []) :
    FoundDirectory tree walking user originalLen components (followLoop backend user .yes originalLen hops components) := by
  induction hops generalizing components with
  | zero => trivial
  | succ hops ih =>
    have round := @followLoop_round _ _ _ _ user _ _ _ realizes whole .yes originalLen hops _ down nonempty
    generalize followLoop backend user .yes originalLen (hops + 1) components = result at round
    cases round with
    | barred barred => exact barred.stuck
    | complete stop here at_end => exact ⟨stop, rfl, _, here, at_end⟩
    | @stopped outcome last rest first leaf stop current_eq here at_last isLeaf =>
      subst current_eq
      simp only [mem_append, mem_cons, not_or] at down
      have notUp : first ≠ ".." := fun same => down.2.1 same.symm
      rw [if_neg (by simp)]
      cases isTarget : leaf.target with
      | none => exact ⟨last, first, rest, here.frame _, advance_file notUp isLeaf isTarget⟩
      | some target =>
        obtain ⟨targetDown, named⟩ := tame _ leaf target isLeaf isTarget
        dsimp only
        rw [targetComponents_eq targetDown]
        refine (leads_of_link here notUp isLeaf isTarget).foundDirectory (ih (down_of_target down.1 targetDown down.2.2) ?_)
        simp [named]
    | @missing last rest first current_eq here absent =>
      subst current_eq
      have notUp : first ≠ ".." := fun same => down (by simp [same])
      exact here.elim (fun here => ⟨last, first, rest, here.frame _, advance_missing notUp absent⟩) fun barred => (barred.frame _).stuck

theorem walkToDirectory_found {components : List String} (down : ".." ∉ components) : match walkToDirectory backend user components with
    | .ok w => ∃ dir, Reaches tree user ([], components) (dir, []) ∧ walking w dir
    | .error halt => Lost tree user components halt := by
  rw [walkToDirectory]
  split_ifs with empty
  · subst empty
    exact ⟨[], .refl, realizes.root⟩
  · have found := @followLoop_directory _ _ _ _ user _ _ _ realizes whole tame components.length maxSymlinkHops _ down empty
    rw [walkPathFollowingSymlinks]
    revert found
    rcases followLoop backend user .yes components.length maxSymlinkHops components with halt | ⟨outcome, consumed⟩
    · exact id
    · rintro ⟨stop, rfl, found⟩
      obtain ⟨walked, last, reason⟩ := outcome
      obtain rfl : reason = .completeDirectory := stop
      show match (if components.length = components.length then .ok last else .error _ : Except (Halt WalkError) W) with
        | .ok w => _
        | .error halt => _
      rw [if_pos rfl]
      exact found

end Loops

end Rounds

/-! ## Opening -/

/-- What `open` may answer where the reference stopped. -/
def Opened (backend : Backend W D F) (tree : FileTree) (walking : W → List String → Prop) (user : UserInfo) (flags : OFlags) (mode : Mode)
    (result : Except (Halt OpenError) (Entry D F)) : List String × List String → Prop
  | (dir, []) => ∃ w, walking w dir ∧ result = openDirectory backend flags w
  | (dir, [name]) =>
    match tree.node (dir ++ [name]) with
    | some (.leaf _) => ∃ w, walking w dir ∧ result = openFile backend user flags w name
    | some (.dir _) => ∃ error, result = .error (.error error)
    | none =>
      if contains flags creat then ∃ w, walking w dir ∧ result = createFile backend flags mode w name
      else result = .error (.error (.pathError .noSuchFileOrDirectory))
  | (_, _ :: _ :: _) => ∃ error, result = .error (.error error)

/-- `open` reaches what the reference reaches, or gives up because of too many links. -/
def Agrees (backend : Backend W D F) (tree : FileTree) (walking : W → List String → Prop) (user : UserInfo) (flags : OFlags) (mode : Mode)
    (components : List String) (result : Except (Halt OpenError) (Entry D F)) : Prop :=
  result = .error (.error (.pathError .tooManySymlinkHops)) ∨
  ∃ place, Reaches tree user ([], components) place ∧ advance tree user place = none ∧ Opened backend tree walking user flags mode result place

section Open

variable {backend : Backend W D F} {walking : W → List String → Prop} {owned : D → List String → Prop} {flags : OFlags} {mode : Mode}
  {parent : List String} {name : String} {result : Except (Halt OpenError) (Entry D F)}

variable {components : List String}

theorem Leads.agrees {components' : List String} (leads : Leads tree user components components')
    (agrees : Agrees backend tree walking user flags mode components' result) : Agrees backend tree walking user flags mode components result := by
  refine agrees.imp_right ?_
  rintro ⟨place, reaches, final, opened⟩
  exact ⟨place, by simpa using leads [] place final (by simpa using reaches), final, opened⟩

theorem Fails.agrees (fails : Fails tree user components) {error : OpenError} :
    Agrees backend tree walking user flags mode components (.error (.error error)) := by
  obtain ⟨dir, name, rest, reaches, final, how⟩ := fails
  refine .inr ⟨_, reaches, final, ?_⟩
  cases rest with
  | nil =>
    obtain ⟨node, isDir⟩ := how.resolve_right (fun nonempty => nonempty rfl)
    rw [Opened, isDir]
    exact ⟨error, rfl⟩
  | cons => exact ⟨error, rfl⟩

variable {dir : List String}

/-- The reference does not both end at a directory and stop before it. -/
theorem Stuck.not_reaches (stuck : Stuck tree user components) : ¬Reaches tree user ([], components) (dir, []) := by
  intro reaches
  obtain ⟨dir', name, rest, reaches', final⟩ := stuck
  cases reaches.final_unique reaches' rfl final

variable (realizes : backend.Realizes tree walking owned)
  (whole : ∀ w components outcome, backend.walkDirectories w components = .ok outcome → outcome.stopReason ≠ .continued)
  (tame : Tame tree)
include realizes whole tame

/-- A name that is free at the end of the path is created in the directory that the reference is in. -/
theorem openMissing_agrees (down : ".." ∉ parent ++ [name])
    (free : (∃ dir, Reaches tree user ([], parent) (dir, []) ∧ tree.node (dir ++ [name]) = none) ∨ Stuck tree user parent) :
    Agrees backend tree walking user flags mode (parent ++ [name]) (openMissing backend user flags mode (parent ++ [name])) := by
  simp only [mem_append, mem_singleton, not_or] at down
  have notUp : name ≠ ".." := fun same => down.2 same.symm
  rw [openMissing]
  split_ifs with creates
  · rw [getLast?_concat, dropLast_concat]
    have found := @walkToDirectory_found _ _ _ _ user _ _ _ realizes whole tame _ down.1
    revert found
    rcases walkToDirectory backend user parent with halt | w
    · intro lost
      obtain rfl | ⟨stuck, error, rfl⟩ := Lost.cases lost
      · exact .inl rfl
      · exact (stuck.fails name).agrees
    · rintro ⟨dir, reaches, at_dir⟩
      obtain ⟨dir', reaches', absent⟩ := free.resolve_right fun stuck => stuck.not_reaches reaches
      cases reaches.final_unique reaches' rfl rfl
      refine .inr ⟨(dir, [name]), reaches.frame [name], advance_missing notUp absent, ?_⟩
      rw [Opened, absent]
      simp only [creates, if_true]
      exact ⟨w, at_dir, rfl⟩
  · rcases free with ⟨dir, reaches, absent⟩ | stuck
    · refine .inr ⟨(dir, [name]), reaches.frame [name], advance_missing notUp absent, ?_⟩
      rw [Opened, absent]
      dsimp only
      rw [if_neg creates]
    · exact (stuck.fails name).agrees

omit whole in
/-- A link at the end of the path is followed from the directory that holds it, and a file is opened there. -/
theorem openStopped_agrees (follows : contains flags nofollow = false) (down : ".." ∉ parent ++ [name]) {outcome : WalkOutcome W}
    {leaf : Leaf} {consumed : ℕ} (answer : walkPath backend user (parent ++ [name]) = .ok (outcome, consumed))
    (last : consumed = (parent ++ [name]).length - 1) (reaches : Reaches tree user ([], parent) (dir, [])) (at_dir : walking outcome.last dir)
    (isLeaf : tree.node (dir ++ [name]) = some (.leaf leaf)) {next : List String → Except (Halt OpenError) (Entry D F)}
    (agrees : ∀ components, ".." ∉ components → components ≠ [] → Agrees backend tree walking user flags mode components (next components)) :
    Agrees backend tree walking user flags mode (parent ++ [name]) (openStopped backend user flags next (parent ++ [name]) outcome consumed) := by
  have length_eq : consumed = parent.length := by simpa using last
  simp only [mem_append, mem_singleton, not_or] at down
  have notUp : name ≠ ".." := fun same => down.2 same.symm
  have target : (linkTarget backend outcome.last name : Except (Halt OpenError) (Option Path)) = .ok leaf.target := by
    rw [linkTarget_eq realizes name at_dir, isLeaf]
  have there : (parent ++ [name])[consumed]? = some name := by rw [length_eq]; simp
  have behind : (parent ++ [name]).take consumed = parent := by rw [length_eq]; simp
  have ahead : (parent ++ [name]).drop (consumed + 1) = [] := by rw [length_eq]; simp
  rw [openStopped, there]
  simp only [follows, Bool.false_eq_true, if_false, target, behind, ahead, append_nil]
  cases isTarget : leaf.target with
  | none =>
    refine .inr ⟨(dir, [name]), reaches.frame [name], advance_file notUp isLeaf isTarget, ?_⟩
    rw [Opened, isLeaf, answer]
    exact ⟨outcome.last, at_dir, rfl⟩
  | some target =>
    obtain ⟨targetDown, named⟩ := tame _ leaf target isLeaf isTarget
    have leads := @leads_of_link _ _ [] _ _ _ _ _ reaches notUp isLeaf isTarget
    have down' := @down_of_target parent [] target down.1 targetDown not_mem_nil
    rw [append_nil] at leads down'
    refine leads.agrees ?_
    rw [← targetComponents_eq targetDown] at down' ⊢
    exact agrees _ down' (by rw [targetComponents_eq targetDown]; simp [named])

theorem openLoop_agrees (follows : contains flags nofollow = false) (hops : ℕ) (down : ".." ∉ components)
    (nonempty : components ≠ []) :
    Agrees backend tree walking user flags mode components (openLoop backend user flags mode hops components) := by
  induction hops generalizing components with
  | zero => exact .inl rfl
  | succ hops ih =>
    obtain ⟨parent, name, rfl⟩ : ∃ parent name, components = parent ++ [name] :=
      ⟨components.dropLast, components.getLast nonempty, (dropLast_append_getLast nonempty).symm⟩
    have found := @followLoop_last _ _ _ _ user _ _ _ realizes whole tame (parent ++ [name]).length maxSymlinkHops _ _ down
    have walk : walkPath backend user (parent ++ [name]) = followLoop backend user .no (parent ++ [name]).length maxSymlinkHops (parent ++ [name]) :=
      if_neg nonempty
    rw [← walk] at found
    rw [openLoop]
    cases answer : walkPath backend user (parent ++ [name]) with
    | error halt =>
      rw [answer] at found
      match halt, found with
      | .error (.pathError .tooManySymlinkHops), _ => exact .inl rfl
      | .error (.pathError .noSuchFileOrDirectory), free => exact openMissing_agrees realizes whole tame down free
      | .error .io, fails | .error (.pathError .noSearchPerms), fails | .error (.pathError .invalidPathname), fails
      | .error (.pathError .missingComponent), fails | .error (.pathError .componentNotADirectory), fails => exact Fails.agrees fails
    | ok pair =>
      obtain ⟨⟨components, last, reason⟩, consumed⟩ := pair
      rw [answer] at found
      cases reason with
      | continued => exact found.elim
      | completeDirectory =>
        obtain ⟨dir, reaches, at_dir⟩ := found
        exact .inr ⟨(dir, []), reaches, rfl, last, at_dir, rfl⟩
      | stoppedAtNonDirectory =>
        obtain ⟨kept, dir, leaf, reaches, at_dir, isLeaf⟩ := found
        exact openStopped_agrees realizes tame follows down answer kept reaches at_dir isLeaf fun _ => ih

end Open

/-! ## A file and a link -/

/-- The file `/f`, and the link `/l` with a target. -/
def fileAndLink (target : Path) : FileTree :=
  .ofLeaves ⟨.byBackend, fun _ => .ok (), .ok 0⟩ fun name =>
    if name = "f" then some ⟨none, fun _ => .ok (.byBackend, fun _ _ => .ok [])⟩
    else if name = "l" then some ⟨some target, fun _ => .error .accessNotAllowed⟩
    else none

theorem fileAndLink_tame : Tame (fileAndLink ["f"]) := by
  intro path leaf target isLeaf isTarget
  match path, isLeaf with
  | [name], isLeaf =>
    obtain ⟨leaf', found, same⟩ := map_eq_some_iff.mp isLeaf
    obtain rfl := TreeNode.leaf.inj same
    dsimp only at found
    split_ifs at found
    · cases found
      cases isTarget
    · cases found
      cases isTarget
      decide

end LiteBox.Fs.Resolver
