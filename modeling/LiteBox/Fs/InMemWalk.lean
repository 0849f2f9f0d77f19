import LiteBox.Fs.Tree

/-! # Walks in the in-memory file system

In a tree, a walk ends at the entry of its last name in a real directory, or in an error. The path that
`resolved_path` answers is the key of that entry.
-/

namespace LiteBox.Fs

open List Path

namespace Path

/-- Names at the end of a path stay when it is normalized. -/
theorem normalizedComponents_append {names : List String} (all : ∀ name ∈ names, IsName name) (path : Path) :
    ∃ lead, normalizedComponents (path ++ names) = lead ++ names := by
  refine ⟨((normalizedRev 0 path.reverse).1 ++ List.replicate (normalizedRev 0 path.reverse).2 ".." ++
    if isAbsolute (path ++ names) then [""] else []).reverse, ?_⟩
  have kept := @normalizedRev_names names.reverse (by simpa using all) path.reverse
  simp [normalizedComponents, kept]

theorem filter_names {names : List String} (all : ∀ name ∈ names, IsName name) :
    (names.filter fun c => c ≠ "" ∧ c ≠ "..") = names := by
  rw [filter_eq_self]
  intro name mem
  simpa using ⟨(all name mem).1, (all name mem).2.2⟩

end Path

namespace InMem

/-- The entry under a path. -/
def look (s : InMem) (key : Path) : Option Entry := s.entries.lookup key

/-- What a directory lists under a name. -/
def kids (s : InMem) (dir : ℕ) (name : String) : Option FileType := (s.dirs dir).children.lookup name

variable {s : InMem} {user : UserInfo}

theorem finalName_append {names : List String} (all : ∀ name ∈ names, Path.IsName name) (some : names ≠ []) (path : Path) :
    finalName (path ++ names) = names.getLast? := by
  obtain ⟨lead, eq⟩ := normalizedComponents_append all path
  rw [finalName, eq, filter_append, filter_names all, getLast?_append_of_ne_nil _ some]

/-- One pass over names. -/
theorem walkComponents_names {names : List String} (all : ∀ name ∈ names, Path.IsName name) (collected : Path)
    (parent : Option (Path × ℕ)) (seen : Bool) :
    match s.walkComponents user collected parent seen names with
    | .error halt => ¬halt.IsPanic
    | .ok (.found parent' entry) => (names = [] ∧ parent' = parent ∧ entry = s.look collected) ∨
        ∃ above name dir, names.getLast? = some name ∧ parent' = some (above, dir) ∧ s.look above = some (.dir dir) ∧
          entry = s.look (above ++ [name])
    | .ok (.spliced path) => finalName path = names.getLast? ∧ names ≠ [] := by
  induction names generalizing collected parent seen with
  | nil => exact .inl ⟨rfl, rfl, rfl⟩
  | cons p rest ih =>
    have named := all p mem_cons_self
    unfold walkComponents
    rw [if_neg (by simp [named.1, named.2.2])]
    cases there : s.entries.lookup collected with
    | none => exact id
    | some entry =>
      cases entry with
      | file => exact id
      | symlink link =>
        refine ⟨?_, by simp⟩
        exact finalName_append all (by simp) _
      | dir dir =>
        dsimp only
        by_cases searchable : (s.dirs dir).perms.canExecuteBy user
        · rw [if_pos searchable]
          have rest' := ih (fun name mem => all name (mem_cons_of_mem _ mem)) (collected ++ [p]) (some (collected, dir)) true
          revert rest'
          rcases s.walkComponents user (collected ++ [p]) (some (collected, dir)) true rest with halt | ⟨parent', entry⟩ | path
          · exact id
          · rintro (⟨rfl, rfl, rfl⟩ | ⟨above, name, dir', last, rest'⟩)
            · exact .inr ⟨collected, p, dir, rfl, rfl, there, rfl⟩
            · exact .inr ⟨above, name, dir', by rw [getLast?_cons, last]; rfl, rest'⟩
          · rintro ⟨final, some⟩
            obtain ⟨first, rest, rfl⟩ := exists_cons_of_ne_nil some
            exact ⟨final, by simp⟩
        · rw [if_neg searchable]
          exact id

/-- The pass skips what stands before the names. -/
theorem walkComponents_lead {lead : List String} (skipped : ∀ component ∈ lead, component = "" ∨ component = "..") (names : List String)
    (collected : Path) (parent : Option (Path × ℕ)) :
    s.walkComponents user collected parent false (lead ++ names) = s.walkComponents user collected parent false names := by
  induction lead with
  | nil => rfl
  | cons first rest ih =>
    obtain ⟨first, rest⟩ := forall_mem_cons.mp skipped
    rw [cons_append, walkComponents, if_pos first]
    exact ih rest

/-- Where a walk ends. -/
def Reached (s : InMem) (path : Path) (parent : Option (Path × ℕ)) (entry : Option Entry) : Prop :=
  (finalName path = none ∧ parent = none ∧ entry = s.look [""]) ∨
    ∃ above name dir, finalName path = some name ∧ Path.IsName name ∧ parent = some (above, dir) ∧ s.look above = some (.dir dir) ∧
      entry = s.look (above ++ [name])

/-- One pass over a path. -/
theorem walkComponents_path (path : Path) : match s.walkComponents user [""] none false path.normalizedComponents with
    | .error halt => ¬halt.IsPanic
    | .ok (.found parent entry) => s.Reached path parent entry
    | .ok (.spliced spliced) => finalName spliced = finalName path := by
  obtain ⟨lead, names, eq, skipped, all⟩ := path.normalizedComponents_eq
  have final : finalName path = names.getLast? := by
    rw [finalName, eq, filter_append, filter_names all, filter_eq_nil_iff.mpr]
    · simp
    · intro component mem
      rcases skipped component mem with rfl | rfl <;> simp
  have pass := @walkComponents_names s user names all [""] none false
  rw [← walkComponents_lead skipped, ← eq] at pass
  revert pass
  rcases s.walkComponents user [""] none false path.normalizedComponents with halt | ⟨parent, entry⟩ | spliced
  · exact id
  · rintro (⟨rfl, rfl, rfl⟩ | ⟨above, name, dir, last, rest⟩)
    · exact .inl ⟨final, rfl, rfl⟩
    · exact .inr ⟨above, name, dir, final.trans last, all name (mem_of_getLast? last), rest⟩
  · exact fun pass => pass.1.trans final.symm

theorem walk_spec (hops : ℕ) (path : Path) : match s.walk user hops path with
    | .error halt => ¬halt.IsPanic
    | .ok (parent, entry) => s.Reached path parent entry := by
  induction hops generalizing path with
  | zero =>
    have pass := @walkComponents_path s user path
    unfold walk
    revert pass
    rcases s.walkComponents user [""] none false path.normalizedComponents with halt | ⟨parent, entry⟩ | spliced
    · exact id
    · exact id
    · exact fun _ => id
  | succ hops ih =>
    have pass := @walkComponents_path s user path
    unfold walk
    revert pass
    rcases s.walkComponents user [""] none false path.normalizedComponents with halt | ⟨parent, entry⟩ | spliced
    · exact id
    · exact id
    · intro final
      have walked := ih spliced
      unfold Reached at walked ⊢
      rwa [final] at walked

/-- A walk to a key of the tree takes no link. -/
theorem walkComponents_key (tree : Tree s.look s.kids) {names : List String} {name : String} {dir : ℕ} (all : ∀ name ∈ names, Path.IsName name)
    (named : Path.IsName name) (collected : Path) (proper : collected ≠ []) (parent : Option (Path × ℕ)) (seen : Bool)
    (isDir : s.look (collected ++ names) = some (.dir dir)) :
    s.walkComponents user collected parent seen (names ++ [name]) = .error (.error .noSearchPerms) ∨
      s.walkComponents user collected parent seen (names ++ [name]) =
        .ok (.found (some (collected ++ names, dir)) (s.look (collected ++ names ++ [name]))) := by
  induction names generalizing collected parent seen with
  | nil =>
    rw [append_nil] at isDir
    rw [nil_append, walkComponents, if_neg (by simp [named.1, named.2.2]), show s.entries.lookup collected = _ from isDir]
    dsimp only
    split_ifs
    · rw [append_nil, walkComponents]
      exact .inr rfl
    · exact .inl rfl
  | cons p rest ih =>
    have first := all p mem_cons_self
    obtain ⟨dir', there⟩ := tree.ancestor isDir (by simp) proper
    rw [cons_append, walkComponents, if_neg (by simp [first.1, first.2.2]), show s.entries.lookup collected = _ from there]
    dsimp only
    split_ifs
    · have rest' := ih (fun name mem => all name (mem_cons_of_mem _ mem)) (collected ++ [p]) (by simp) (some (collected, dir')) true
        (by simpa using isDir)
      simpa using rest'
    · exact .inl rfl

theorem parentAndEntry_key (tree : Tree s.look s.kids) {above : Path} {name : String} {dir : ℕ} (isDir : s.look above = some (.dir dir))
    (named : Path.IsName name) :
    s.parentAndEntry user (above ++ [name]) = .error (.error .noSearchPerms) ∨
      s.parentAndEntry user (above ++ [name]) = .ok (some (above, dir), s.look (above ++ [name])) := by
  obtain ⟨names, rfl, all⟩ := tree.names isDir
  have normal : normalizedComponents ("" :: names ++ [name]) = [""] ++ (names ++ [name]) := by
    rw [cons_append, normalizedComponents_names (by simpa [or_imp, forall_and] using ⟨all, named⟩) (by simp)]
    rfl
  have pass := @walkComponents_key s user tree names name dir all named [""] (by simp) none false isDir
  rw [← walkComponents_lead (fun component mem => .inl (mem_singleton.mp mem)), ← normal] at pass
  unfold parentAndEntry walk
  rcases pass with pass | pass <;> rw [pass]
  · exact .inl rfl
  · exact .inr rfl

/-- The key that `resolved_path` answers. -/
theorem resolvedPath_spec (path : Path) : match s.resolvedPath user path with
    | .error halt => ¬halt.IsPanic
    | .ok key => (finalName path = none ∧ key = path) ∨
        ∃ above name dir, key = above ++ [name] ∧ Path.IsName name ∧ s.look above = some (.dir dir) := by
  have walked := @walk_spec s user maxIntermediateHops path
  unfold resolvedPath parentAndEntry
  revert walked
  rcases s.walk user maxIntermediateHops path with halt | ⟨parent, entry⟩
  · exact id
  · rintro (⟨final, rfl, -⟩ | ⟨above, name, dir, final, named, rfl, isDir, -⟩)
    · exact .inl ⟨final, rfl⟩
    · dsimp only
      rw [final]
      exact .inr ⟨above, name, dir, rfl, named, isDir⟩

end InMem

end LiteBox.Fs
