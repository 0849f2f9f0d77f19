import LiteBox.Fs.Namespace

/-! # The composer acts as the tree of its mounts

The composer asks the backend around a name above a mount point what it has there. Where that is a directory or
nothing the walk agrees with the tree; where it is anything else the walk stops at it.
-/

namespace LiteBox.Fs

open Namespace List

variable {W D F : Type}

namespace MountRelation

variable {mounts : List (Mount W D F)} {path : List String}

theorem of_eq_unrelated : of mounts path = .unrelated ↔ ∀ mount ∈ mounts, mount.path ≠ path ∧ ¬mount.Below path := by
  induction mounts with
  | nil => simp [of]
  | cons mount mounts ih =>
    rw [of, forall_mem_cons]
    split_ifs with exact below
    · simp [exact]
    · simp [below]
    · rw [ih]
      exact (and_iff_right ⟨exact, below⟩).symm

theorem exists_of_exact (exact : of mounts path = .exact) : ∃ mount ∈ mounts, mount.path = path := by
  induction mounts with
  | nil => cases exact
  | cons mount mounts ih =>
    rw [of] at exact
    split_ifs at exact with at_mount
    · exact ⟨mount, mem_cons_self, at_mount⟩
    · obtain ⟨mount, mem, at_mount⟩ := ih exact
      exact ⟨mount, mem_cons_of_mem _ mem, at_mount⟩

theorem of_eq_ancestor (free : ∀ mount ∈ mounts, mount.path ≠ path) :
    of mounts path = .ancestorOfMount ↔ ∃ mount ∈ mounts, mount.Below path := by
  induction mounts with
  | nil => simp [of]
  | cons mount mounts ih =>
    obtain ⟨other, free⟩ := forall_mem_cons.mp free
    rw [of, if_neg other, exists_mem_cons_iff]
    split_ifs with below
    · simp [below]
    · rw [ih free]
      exact (or_iff_right below).symm

end MountRelation

namespace Composer

/-- The composer that was built from these volumes. -/
structure Of (c : Composer W D F) (ns : Namespace W D F) : Prop where
  mounts : c.mounts = ns.volumes.map (·.toMount)
  virtual : ∀ path, ns.IsAbove path → ¬ns.IsMountPoint path → path ∈ c.virtualDirs.map (·.path)

variable {c : Composer W D F} {ns : Namespace W D F} {path : List String} {name : String} {rest : List String} {v : Volume W D F}
  {index : ℕ}

section Of

variable (of : c.Of ns)
include of

theorem Of.getElem? (found : ns.volumes[index]? = some v) : c.mounts[index]? = some v.toMount := by
  rw [of.mounts, getElem?_map, found]
  rfl

theorem Of.backendAt {ε : Type} (found : ns.volumes[index]? = some v) :
    (c.backendAt index : Except (Halt ε) (Backend W D F)) = .ok v.backend := by
  rw [Composer.backendAt, of.getElem? found]

theorem Of.unrelated : c.mountRelation path = .unrelated ↔ ¬ns.IsMountPoint path ∧ ¬ns.IsAbove path := by
  rw [mountRelation, MountRelation.of_eq_unrelated, of.mounts]
  simp only [forall_mem_map]
  constructor
  · intro apart
    exact ⟨fun ⟨v, mem, at_v⟩ => (apart v mem).1 at_v, fun ⟨v, mem, below⟩ => (apart v mem).2 below⟩
  · rintro ⟨free, outside⟩ v mem
    exact ⟨fun at_v => free ⟨v, mem, at_v⟩, fun below => outside ⟨v, mem, below⟩⟩

theorem Of.ancestor (free : ¬ns.IsMountPoint path) : c.mountRelation path = .ancestorOfMount ↔ ns.IsAbove path := by
  have others : ∀ mount ∈ c.mounts, mount.path ≠ path := by
    rw [of.mounts, forall_mem_map]
    exact fun v mem at_v => free ⟨v, mem, at_v⟩
  rw [mountRelation, MountRelation.of_eq_ancestor others, of.mounts]
  constructor
  · rintro ⟨mount, mem, below⟩
    obtain ⟨v, listed, rfl⟩ := mem_map.mp mem
    exact ⟨v, listed, below⟩
  · rintro ⟨v, mem, below⟩
    exact ⟨v.toMount, mem_map_of_mem mem, below⟩

theorem Of.exactMountRoot_none (free : ¬ns.IsMountPoint path) : c.exactMountRoot path = none := by
  rw [exactMountRoot, Option.map_eq_none_iff, find?_eq_none]
  rintro ⟨mount, index⟩ mem at_mount
  have found := mem_zipIdx_iff_getElem?.mp mem
  rw [of.mounts, getElem?_map, Option.map_eq_some_iff] at found
  obtain ⟨v, found, rfl⟩ := found
  exact free ⟨v, mem_of_getElem? found, by simpa using at_mount⟩

theorem Of.exactMountRoot_some (mountPoint : ns.IsMountPoint path) :
    ∃ index v, ns.volumes[index]? = some v ∧ v.path = path ∧ c.exactMountRoot path = some (index, v.backend.root) := by
  rw [exactMountRoot]
  cases found : c.mounts.zipIdx.find? _ with
  | none =>
    obtain ⟨v, mem, at_v⟩ := mountPoint
    obtain ⟨index, found'⟩ := mem_iff_getElem?.mp mem
    have unfound := find?_eq_none.mp found (v.toMount, index) (mem_zipIdx_iff_getElem?.mpr (of.getElem? found'))
    exact absurd at_v (by simpa using unfound)
  | some pair =>
    obtain ⟨mount, index⟩ := pair
    have there := mem_zipIdx_iff_getElem?.mp (mem_of_find?_eq_some found)
    rw [of.mounts, getElem?_map, Option.map_eq_some_iff] at there
    obtain ⟨v, there, rfl⟩ := there
    exact ⟨index, v, there, by simpa using find?_some found, rfl⟩

theorem Of.prefixLen_unrelated (free : ¬ns.IsMountPoint (path ++ [name])) (outside : ¬ns.IsAbove (path ++ [name])) :
    c.mountedWalkPrefixLen path (name :: rest) = (name :: rest).length := by
  induction rest generalizing path name with
  | nil => rw [mountedWalkPrefixLen, if_pos (of.unrelated.mpr ⟨free, outside⟩)]; rfl
  | cons next rest ih =>
    have apart := not_or.mp fun related : ns.Related (path ++ [name] ++ [next]) => outside (.of_child related)
    rw [mountedWalkPrefixLen, if_pos (of.unrelated.mpr ⟨free, outside⟩), ih apart.1 apart.2, length_cons, length_cons, length_cons, Nat.add_comm]

end Of

/-! ## Handles -/

/-- The path that a handle of a walk stands for. -/
def Walking (ns : Namespace W D F) : WalkingDirHandle W → List String → Prop
  | .virtual path, path' => path = path' ∧ ns.IsAbove path ∧ ¬ns.IsMountPoint path ∧ ns.ownedNode path = none
  | .mounted path index handle, path' => path = path' ∧
      ∃ v, ns.volumes[index]? = some v ∧ ns.owner path = some v ∧ v.walking handle (path.drop v.path.length)

/-- The path that an open directory stands for. -/
def Owned (ns : Namespace W D F) : DirHandle D → List String → Prop
  | .virtual path, path' => path = path' ∧ ns.IsAbove path ∧ ¬ns.IsMountPoint path ∧ ns.ownedNode path = none
  | .mounted path index handle, path' => path = path' ∧
      ∃ v, ns.volumes[index]? = some v ∧ ns.owner path = some v ∧ v.owned handle (path.drop v.path.length)

theorem walking_mountPoint (found : ns.volumes[index]? = some v) : Walking ns (.mounted v.path index v.backend.root) v.path := by
  refine ⟨rfl, v, found, owner_mountPoint (mem_of_getElem? found), ?_⟩
  rw [drop_length]
  exact v.realizes.root

theorem walking_ownedDir {current : WalkingDirHandle W} (at_path : Walking ns current path) :
    ns.ownedNode path = none ∨ ∃ dir, ns.ownedNode path = some (.dir dir) := by
  cases current with
  | virtual path' =>
    obtain ⟨rfl, -, -, absent⟩ := at_path
    exact .inl absent
  | mounted path' index handle =>
    obtain ⟨rfl, v, -, owns, walking⟩ := at_path
    rw [ownedNode, owns]
    exact .inr (v.realizes.dir walking)

/-- No handle stands for something hidden. -/
theorem walking_clear {current : WalkingDirHandle W} (at_path : Walking ns current path) : ¬ns.Hides path := by
  rintro ⟨-, -, leaf, isLeaf⟩
  rcases walking_ownedDir at_path with absent | ⟨dir, isDir⟩
  · simp [isLeaf] at absent
  · simp [isLeaf] at isDir

/-! ## One round -/

/-- Outside the mount boundaries, a walk of the owner is a walk of the tree. -/
theorem walk_outside {components walked : List _} {suffix last : List String} (walk : v.tree.Walk suffix components walked last rest)
    (path : List String) (suffix_eq : suffix = path.drop v.path.length) (owns : ns.owner path = some v)
    (outside : ∀ name ∈ components.head?, ¬ns.Related (path ++ [name])) :
    ∃ last', last = last'.drop v.path.length ∧ ns.owner last' = some v ∧ ns.tree.Walk path components walked last' rest ∧
      ∀ name ∈ rest.head?, ¬ns.Related (last' ++ [name]) := by
  induction walk generalizing path with
  | stop => exact ⟨path, suffix_eq, owns, .stop _ _, outside⟩
  | @step suffix components walked last rest name dir isDir further ih =>
    obtain ⟨free, apart⟩ := not_or.mp (outside name rfl)
    have owns' : ns.owner (path ++ [name]) = some v := (owner_child free).trans owns
    obtain ⟨last', rfl, ownsLast, walk, outside'⟩ := ih (path ++ [name]) (by rw [suffix_eq, drop_concat owns]) owns'
      fun next _ related => apart (.of_child related)
    have there : ns.node (path ++ [name]) = some (.dir dir) := by
      rw [node_outside free apart, ownedNode_child free owns, ← suffix_eq, isDir]
    exact ⟨last', rfl, ownsLast, .step there walk, outside'⟩

/-- What is at the end of such a walk. -/
theorem node_at_end {last : List String} (owns : ns.owner last = some v)
    (outside : ¬ns.Related (last ++ [name])) :
    ns.node (last ++ [name]) = v.tree.node (last.drop v.path.length ++ [name]) := by
  obtain ⟨free, apart⟩ := not_or.mp outside
  rw [node_outside free apart, ownedNode_child free owns]

/-- Below a virtual directory there are only the ways to mount points. -/
theorem node_below_virtual (absent : ns.ownedNode path = none) (outside : ¬ns.Related (path ++ [name])) :
    ns.node (path ++ [name]) = none := by
  obtain ⟨free, apart⟩ := not_or.mp outside
  rw [node_outside free apart]
  by_contra found
  obtain ⟨dir, isDir⟩ := ownedNode_closed free found
  rw [absent] at isDir
  cases isDir

section Rounds

variable (of : c.Of ns) {current : WalkingDirHandle W}
include of

variable (rest : List String)

/-- The round enters the directory of that name, or stops where a mount hides something else. -/
def Enters (c : Composer W D F) (ns : Namespace W D F) (path : List String) (name : String) (rest : List String)
    (current : WalkingDirHandle W) : Prop :=
  (∃ dir current', ns.node (path ++ [name]) = some (.dir dir) ∧ c.walkRound name rest current = .ok (.next [dir.permissions] current') ∧
    Walking ns current' (path ++ [name])) ∨
  (ns.Hides (path ++ [name]) ∧
    ∃ outcome, c.walkRound name rest current = .ok (.done outcome) ∧ outcome.stopReason = .stoppedAtNonDirectory)

/-- At a mount point the walk enters the volume. -/
theorem Of.round_mountPoint (mountPoint : ns.IsMountPoint (path ++ [name])) (at_path : Walking ns current path) :
    Enters c ns path name rest current := by
  obtain ⟨index, v, found, at_v, root⟩ := of.exactMountRoot_some mountPoint
  obtain ⟨dir, isDir⟩ := v.tree.root_dir
  have there : ns.ownedNode (path ++ [name]) = some (.dir dir) := by
    rw [← at_v, ownedNode_mountPoint (mem_of_getElem? found), isDir]
  refine .inl ⟨⟨.byBackend, dir.accepts, dir.entries.map (ns.merged (path ++ [name]))⟩,
    .mounted (path ++ [name]) index v.backend.root, ?_, ?_, ?_⟩
  · rw [node, there]
    simp [if_pos mountPoint]
  · cases current with
    | virtual | mounted =>
      obtain rfl := at_path.1
      rw [walkRound, root]
  · rw [← at_v]
    exact walking_mountPoint found

/-- At a name above a mount point the walk enters what the backend has there, or a virtual directory. -/
theorem Of.round_above (free : ¬ns.IsMountPoint (path ++ [name])) (above : ns.IsAbove (path ++ [name]))
    (at_path : Walking ns current path) : Enters c ns path name rest current := by
  have ancestor := (of.ancestor free).mpr above
  have noRoot := of.exactMountRoot_none free
  unfold Enters
  cases current with
  | virtual path' =>
    obtain ⟨rfl, -, -, absent⟩ := at_path
    have absent' : ns.ownedNode (path' ++ [name]) = none := by
      by_contra found
      obtain ⟨dir, isDir⟩ := ownedNode_closed free found
      rw [absent] at isDir
      cases isDir
    refine .inl ⟨_, .virtual (path' ++ [name]), node_virtual above absent', ?_, rfl, above, free, absent'⟩
    rw [walkRound, noRoot]
    exact if_pos ancestor
  | mounted path' index handle =>
    obtain ⟨rfl, v, found, owns, walking⟩ := at_path
    have answer := v.realizes.walk [name] walking (cons_ne_nil _ _)
    have child := ownedNode_child free owns
    simp only [walkRound, noRoot, of.backendAt found, ancestor, if_true, bind, Except.bind]
    revert answer
    rcases v.backend.walkDirectories handle [name] with halt | ⟨components, last, reason⟩
    · intro answer
      obtain ⟨rfl, walked, last, name', rest', walk, absent⟩ := FileTree.Walked.error answer
      have absent' : ns.ownedNode (path' ++ [name]) = none := by
        cases walk with
        | stop => exact child.trans absent
        | step _ further => cases further
      exact .inl ⟨_, _, node_virtual above absent', rfl, rfl, above, free, absent'⟩
    · rintro ⟨at_last, rest', walk, lastWalking, stopped⟩
      cases walk with
      | stop =>
        cases reason with
        | completeDirectory => cases stopped
        | continued => exact absurd rfl stopped.1
        | stoppedAtNonDirectory =>
          obtain ⟨_, _, leaf, ⟨rfl, rfl⟩, isLeaf⟩ := stopped
          exact .inr ⟨⟨above, free, leaf, child.trans isLeaf⟩, _, rfl, rfl⟩
      | step isDir further =>
        cases further
        cases reason with
        | continued => exact absurd rfl stopped.2
        | stoppedAtNonDirectory =>
          obtain ⟨_, _, _, impossible, _⟩ := stopped
          cases impossible
        | completeDirectory =>
          refine .inl ⟨_, _, node_ownedDir free (child.trans isDir), rfl, rfl, v, found, (owner_child free).trans owns, ?_⟩
          show v.walking last ((path' ++ [name]).drop v.path.length)
          rw [drop_concat owns]
          exact lastWalking

/-- Outside the mount boundaries the owner walks all that remains. -/
theorem Of.round_outside (outside : ¬ns.Related (path ++ [name])) (at_path : Walking ns current path) :
    match c.walkRound name rest current with
    | .ok (.next walked current') => ∃ last, ns.tree.Walk path (name :: rest) walked last [] ∧ Walking ns current' last
    | .ok (.done outcome) => ns.tree.Walked (Walking ns) path (name :: rest) (.ok outcome)
    | .error halt => ns.tree.Walked (Walking ns) path (name :: rest) (.error halt) := by
  obtain ⟨free, apart⟩ := not_or.mp outside
  have unrelated := of.unrelated.mpr ⟨free, apart⟩
  have noRoot := of.exactMountRoot_none free
  cases current with
  | virtual path' =>
    obtain ⟨rfl, -, -, absent⟩ := at_path
    rw [walkRound, noRoot]
    simp only [unrelated]
    exact ⟨[], path', name, rest, .stop _ _, node_below_virtual absent outside⟩
  | mounted path' index handle =>
    obtain ⟨rfl, v, found, owns, walking⟩ := at_path
    have answer := v.realizes.walk (name :: rest) walking (cons_ne_nil _ _)
    have round : c.walkRound name rest (.mounted path' index handle) = (v.backend.walkDirectories handle (name :: rest)).bind fun outcome =>
        (mountedOutcome path' index (name :: rest) (name :: rest).length outcome).map .ofOutcome := by
      rw [walkRound, noRoot]
      simp only [of.backendAt found, unrelated, of.prefixLen_unrelated free apart, take_length]
      rfl
    rw [round]
    revert answer
    rcases v.backend.walkDirectories handle (name :: rest) with halt | ⟨components, last, reason⟩
    · intro answer
      obtain ⟨rfl, walked, last, name', rest', walk, absent⟩ := FileTree.Walked.error answer
      obtain ⟨last', rfl, ownsLast, walk', outside'⟩ := walk_outside walk path' rfl owns fun _ first => Option.some.inj first ▸ outside
      exact ⟨walked, last', name', rest', walk', (node_at_end ownsLast (outside' name' rfl)).trans absent⟩
    · rintro ⟨at_last, rest', walk, lastWalking, stopped⟩
      obtain ⟨last', rfl, ownsLast, walk', outside'⟩ := walk_outside walk path' rfl owns fun _ first => Option.some.inj first ▸ outside
      have there : Walking ns (.mounted last' index last) last' := ⟨rfl, v, found, ownsLast, lastWalking⟩
      obtain ⟨short, last_eq, rest_eq⟩ := walk'.eq
      have outcome : mountedOutcome path' index (name :: rest) (name :: rest).length ⟨components, last, reason⟩ =
          .ok ⟨components, .mounted last' index last, reason⟩ := by
        have fits : ¬((name :: rest).length < components.length ∨ (reason = .completeDirectory ∧ components.length ≠ (name :: rest).length)) := by
          rintro (long | ⟨rfl, other⟩)
          · exact absurd long (not_lt.mpr short)
          · have all : (name :: rest).drop components.length = [] := rest_eq.symm.trans stopped
            exact other (le_antisymm short (drop_eq_nil_iff.mp all))
        rw [mountedOutcome]
        simp only [if_neg fits, last_eq]
      rw [Except.bind, outcome, Except.map]
      cases reason with
      | completeDirectory =>
        obtain rfl : rest' = [] := stopped
        exact ⟨last', walk', there⟩
      | continued => exact ⟨last', rest', walk', there, stopped⟩
      | stoppedAtNonDirectory =>
        obtain ⟨name', rest'', leaf, rfl, isLeaf⟩ := stopped
        exact ⟨last', _, walk', there, name', rest'', leaf, rfl, (node_at_end ownsLast (outside' name' rfl)).trans isLeaf⟩

/-- At a mount point or above one. -/
theorem Of.round_related (related : ns.Related (path ++ [name])) (at_path : Walking ns current path) :
    Enters c ns path name rest current := by
  by_cases mountPoint : ns.IsMountPoint (path ++ [name])
  · exact of.round_mountPoint rest mountPoint at_path
  · exact of.round_above rest mountPoint (related.resolve_left mountPoint) at_path

/-! ## Whole walks -/

theorem Of.walkLoop_walked (clear : ∀ path, ¬ns.Hides path) {start components : List String} (rounds : ℕ) (walked : List PermissionCheck)
    (remaining : List String) (enough : remaining.length ≤ rounds) (walk : ns.tree.Walk start components walked path remaining)
    (at_path : Walking ns current path) : ns.tree.Walked (Walking ns) start components (c.walkLoop rounds current walked remaining) := by
  induction rounds generalizing current walked path remaining with
  | zero =>
    obtain rfl := eq_nil_of_length_eq_zero (Nat.le_zero.mp enough)
    rw [walkLoop]
    exact ⟨path, [], walk, at_path, rfl⟩
  | succ rounds ih =>
    cases remaining with
    | nil =>
      rw [walkLoop]
      exact ⟨path, [], walk, at_path, rfl⟩
    | cons name rest =>
      rw [length_cons] at enough
      rw [walkLoop]
      by_cases related : ns.Related (path ++ [name])
      · obtain ⟨dir, current', isDir, round, at_next⟩ | ⟨hides, -⟩ := of.round_related rest related at_path
        · rw [round]
          exact ih _ rest (by omega) (walk.trans (.step isDir (.stop _ _))) at_next
        · exact absurd hides (clear _)
      · have round := of.round_outside rest related at_path
        revert round
        rcases c.walkRound name rest current with halt | ⟨walked', current'⟩ | outcome
        · exact walk.walked_error
        · rintro ⟨last, further, at_last⟩
          have all := further.eq.2.2
          exact ih _ _ (by simp [← all]) (all ▸ walk.trans further) at_last
        · exact walk.walked_ok

/-- Where something is hidden the walk to it does not end at a directory. -/
theorem Of.walkLoop_stuck (rounds : ℕ) (walked : List PermissionCheck) (remaining : List String) (enough : remaining.length ≤ rounds)
    (some : remaining ≠ []) (hides : ns.Hides (path ++ remaining)) (at_path : Walking ns current path) :
    ∃ outcome, c.walkLoop rounds current walked remaining = .ok outcome ∧ outcome.stopReason = .stoppedAtNonDirectory := by
  induction remaining generalizing current walked path rounds with
  | nil => exact absurd rfl some
  | cons name rest ih =>
    obtain ⟨rounds, rfl⟩ : ∃ rounds', rounds = rounds' + 1 := Nat.exists_eq_succ_of_ne_zero (by rintro rfl; simp at enough)
    have path_eq : path ++ name :: rest = path ++ [name] ++ rest := by simp
    rw [path_eq] at hides
    rw [walkLoop]
    obtain ⟨dir, current', isDir, round, at_next⟩ | ⟨-, outcome, round, stopped⟩ :=
      of.round_related rest (.inr hides.1.of_append) at_path
    · rw [round]
      cases rest with
      | nil => exact absurd hides (by simpa using walking_clear at_next)
      | cons next rest => exact ih _ _ (by simpa using enough) (cons_ne_nil _ _) hides at_next
    · rw [round]
      exact ⟨_, rfl, stopped⟩

/-- The way to a mount point is walked to its end. -/
theorem Of.walkLoop_above (clear : ∀ path, ¬ns.Hides path) (rounds : ℕ) (walked : List PermissionCheck) (remaining : List String)
    (enough : remaining.length ≤ rounds) (above : ns.IsAbove (path ++ remaining)) (at_path : Walking ns current path) :
    ∃ walked' current', c.walkLoop rounds current walked remaining = .ok ⟨walked', current', .completeDirectory⟩ ∧
      Walking ns current' (path ++ remaining) := by
  induction remaining generalizing current walked path rounds with
  | nil =>
    rw [walkLoop, append_nil]
    exact ⟨walked, current, rfl, at_path⟩
  | cons name rest ih =>
    obtain ⟨rounds, rfl⟩ : ∃ rounds', rounds = rounds' + 1 := Nat.exists_eq_succ_of_ne_zero (by rintro rfl; simp at enough)
    have path_eq : path ++ name :: rest = path ++ [name] ++ rest := by simp
    rw [path_eq] at above ⊢
    rw [walkLoop]
    obtain ⟨dir, current', isDir, round, at_next⟩ | ⟨hides, -⟩ := of.round_related rest (.inr above.of_append) at_path
    · rw [round]
      exact ih _ _ (by simpa using enough) above at_next
    · exact absurd hides (clear _)

end Rounds

end Composer

end LiteBox.Fs
