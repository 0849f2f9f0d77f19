import LiteBox.Fs.Basic
import LiteBox.Lib.Prog

/-! # Backends

What a backend answers to the resolver while nothing changes it, and what it means that its answers are those of
one tree. Handles are opaque: a backend is asked with the handles that it gave out.
-/

namespace LiteBox.Fs

/-- Who checks the permissions of an item. -/
inductive PermissionCheck where
  | byBackend
  | byResolver (mode : Mode) (owner : UserInfo)
deriving DecidableEq, Repr

/-- Why a walk stopped; `continued` is `WalkStopReason::Continue`. -/
inductive WalkStopReason where
  | completeDirectory
  | stoppedAtNonDirectory
  | continued
deriving DecidableEq, Repr

inductive WalkError where
  | io
  | pathError (error : PathError)
deriving DecidableEq, Repr

inductive SeekBehavior where
  | nonSeekable
  | zeroPosition
  | positionBased
deriving DecidableEq, Repr

/-- A walk that got somewhere, with the permissions of each component that it walked. -/
structure WalkOutcome (W : Type) where
  components : List PermissionCheck
  last : W
  stopReason : WalkStopReason
deriving DecidableEq, Repr

structure Permissioned (H : Type) where
  item : H
  permissions : PermissionCheck
deriving DecidableEq, Repr

/-- `dyn Backend`, with the handles `W` of walks, `D` of directories and `F` of files. -/
structure Backend (W D F : Type) where
  root : W
  walkDirectories : W → List String → Except (Halt WalkError) (WalkOutcome W)
  ownedDirAt : W → OFlags → Except (Halt OpenError) D
  walkingDirAt : D → Option W
  openFileAt : W → String → OFlags → Except (Halt OpenError) (Permissioned F)
  readLinkAt : W → String → Except (Halt OpenError) (Option Path)
  listDirAt : D → Except (Halt ReadDirError) (List DirEntry)
  read : F → ℕ → ℕ → Except (Halt ReadError) (List UInt8)
  seekBehavior : F → SeekBehavior
  dirStatus : D → Except (Halt FileStatusError) FileStatus
  createFileAt : D → String → Mode → Except (Halt OpenError) F

/-! ## Trees -/

/-- A directory as its backend describes it. -/
structure DirNode where
  permissions : PermissionCheck
  accepts : OFlags → Except OpenError Unit
  entries : Except ReadDirError (Multiset DirEntry)

/-- What reading a file gives, for a length and an offset. -/
abbrev Content := ℕ → ℕ → Except (Halt ReadError) (List UInt8)

/-- Anything but a directory: where it leads if it is a link, and what opening it gives. -/
structure Leaf where
  target : Option Path
  opens : OFlags → Except OpenError (PermissionCheck × Content)

inductive TreeNode where
  | dir (node : DirNode)
  | leaf (node : Leaf)

/-- A tree of named nodes: its root is a directory, and so is all that has something below it. -/
@[ext]
structure FileTree where
  node : List String → Option TreeNode
  root_dir : ∃ dir, node [] = some (.dir dir)
  closed : ∀ path name, node (path ++ [name]) ≠ none → ∃ dir, node path = some (.dir dir)

namespace FileTree

/-- From one directory over the first components to another, with the rest still to walk. -/
inductive Walk (tree : FileTree) : List String → List String → List PermissionCheck → List String → List String → Prop
  | stop (path components : List String) : Walk tree path components [] path components
  | step {path components walked last rest : _} {name : String} {dir : DirNode} (isDir : tree.node (path ++ [name]) = some (.dir dir))
      (further : Walk tree (path ++ [name]) components walked last rest) :
      Walk tree path (name :: components) (dir.permissions :: walked) last rest

variable {tree : FileTree} {path last last' : List String} {components rest rest' : List String} {walked walked' : List PermissionCheck}

section

variable (walk : tree.Walk path components walked last rest)

include walk

theorem Walk.trans (walk' : tree.Walk last rest walked' last' rest') :
    tree.Walk path components (walked ++ walked') last' rest' := by
  induction walk with
  | stop => exact walk'
  | step isDir _ ih => exact .step isDir (ih walk')

theorem Walk.eq :
    walked.length ≤ components.length ∧ last = path ++ components.take walked.length ∧ rest = components.drop walked.length := by
  induction walk with
  | stop => simp
  | step _ _ ih =>
    obtain ⟨short, rfl, rfl⟩ := ih
    simpa using short

/-- The part of the path that a walk has behind it is walked by itself. -/
theorem Walk.behind : tree.Walk path (components.take walked.length) walked last [] := by
  induction walk with
  | stop => simpa using Walk.stop _ []
  | step isDir _ ih => exact .step isDir ih

end

/-- What a walk may answer: it walks directories only, and stops at a name only for what is there. -/
def Walked {W : Type} (tree : FileTree) (walking : W → List String → Prop) (path components : List String) :
    Except (Halt WalkError) (WalkOutcome W) → Prop
  | .ok outcome => ∃ last rest, tree.Walk path components outcome.components last rest ∧ walking outcome.last last ∧
      match outcome.stopReason with
      | .completeDirectory => rest = []
      | .stoppedAtNonDirectory => ∃ name rest' leaf, rest = name :: rest' ∧ tree.node (last ++ [name]) = some (.leaf leaf)
      | .continued => outcome.components ≠ [] ∧ rest ≠ []
  | .error (.error (.pathError .noSuchFileOrDirectory)) =>
      ∃ walked last name rest, tree.Walk path components walked last (name :: rest) ∧ tree.node (last ++ [name]) = none
  | .error _ => False

section Walked

variable {W : Type} {walking : W → List String → Prop}

/-- A walk fails only at a name that is not there. -/
theorem Walked.error {halt : Halt WalkError} (further : tree.Walked walking path components (.error halt)) :
    halt = .error (.pathError .noSuchFileOrDirectory) ∧
      ∃ walked last name rest, tree.Walk path components walked last (name :: rest) ∧ tree.node (last ++ [name]) = none := by
  match halt, further with
  | .error (.pathError .noSuchFileOrDirectory), absent => exact ⟨rfl, absent⟩

/-- A walk that goes on where another one got to. -/
theorem Walk.walked_ok (walk : tree.Walk path components walked last rest) {outcome : WalkOutcome W}
    (further : tree.Walked walking last rest (.ok outcome)) :
    tree.Walked walking path components (.ok { outcome with components := walked ++ outcome.components }) := by
  obtain ⟨last', rest', walk', at_last, stopped⟩ := further
  refine ⟨last', rest', walk.trans walk', at_last, ?_⟩
  obtain ⟨components', _, reason⟩ := outcome
  cases reason with
  | completeDirectory | stoppedAtNonDirectory => exact stopped
  | continued => exact ⟨fun none => stopped.1 (List.append_eq_nil_iff.mp none).2, stopped.2⟩

theorem Walk.walked_error (walk : tree.Walk path components walked last rest) {halt : Halt WalkError}
    (further : tree.Walked walking last rest (.error halt)) : tree.Walked walking path components (.error halt) := by
  obtain ⟨rfl, _, last', name, rest', walk', absent⟩ := further.error
  exact ⟨_, last', name, rest', walk.trans walk', absent⟩

end Walked

end FileTree

/-! ## Backends that are trees -/

section Realizes

variable {W D F : Type}

/-- The backend answers like the tree, when handles of walks and of directories stand for paths. -/
structure Backend.Realizes (backend : Backend W D F) (tree : FileTree) (walking : W → List String → Prop) (owned : D → List String → Prop) :
    Prop where
  root : walking backend.root []
  dir : ∀ {w path}, walking w path → ∃ dir, tree.node path = some (.dir dir)
  walk : ∀ {w path} components, walking w path → components ≠ [] → tree.Walked walking path components (backend.walkDirectories w components)
  own : ∀ {w path dir} flags, walking w path → tree.node path = some (.dir dir) → match dir.accepts flags with
    | .error error => backend.ownedDirAt w flags = .error (.error error)
    | .ok () => ∃ d, backend.ownedDirAt w flags = .ok d ∧ owned d path
  ownedDir : ∀ {d path}, owned d path → ∃ dir, tree.node path = some (.dir dir)
  rewalk : ∀ {d path w}, owned d path → backend.walkingDirAt d = some w → walking w path
  openFile : ∀ {w path} name flags, walking w path → match tree.node (path ++ [name]) with
    | none => backend.openFileAt w name flags = .error (.error (.pathError .noSuchFileOrDirectory))
    | some (.dir _) => True
    | some (.leaf leaf) => match leaf.opens flags with
      | .error error => backend.openFileAt w name flags = .error (.error error)
      | .ok (permissions, content) => ∃ file, backend.openFileAt w name flags = .ok ⟨file, permissions⟩ ∧ backend.read file = content
  readLink : ∀ {w path} name, walking w path → backend.readLinkAt w name = match tree.node (path ++ [name]) with
    | none => .error (.error (.pathError .noSuchFileOrDirectory))
    | some (.dir _) => .ok none
    | some (.leaf leaf) => .ok leaf.target
  list : ∀ {d path dir}, owned d path → tree.node path = some (.dir dir) → match dir.entries with
    | .error error => backend.listDirAt d = .error (.error error)
    | .ok entries => ∃ listed : List DirEntry, backend.listDirAt d = .ok listed ∧ (listed : Multiset DirEntry) = entries
  status : ∀ {d path}, owned d path → ∀ halt, backend.dirStatus d = .error halt → ¬halt.IsPanic

/-- All that the backend shows is one tree. -/
def Backend.Represents (backend : Backend W D F) (tree : FileTree) : Prop := ∃ walking owned, backend.Realizes tree walking owned

end Realizes

/-! ## The backend of a tree -/

namespace FileTree

/-- The directory at the top, with leaves only. -/
def ofLeaves (root : DirNode) (leaves : String → Option Leaf) : FileTree where
  node
    | [] => some (.dir root)
    | [name] => (leaves name).map .leaf
    | _ => none
  root_dir := ⟨root, rfl⟩
  closed path name found := by
    cases path with
    | nil => exact ⟨root, rfl⟩
    | cons first rest => cases rest <;> exact absurd rfl found

def walkFrom (tree : FileTree) : List String → List String → Except (Halt WalkError) (WalkOutcome (List String))
  | path, [] => .ok ⟨[], path, .completeDirectory⟩
  | path, name :: rest =>
    match tree.node (path ++ [name]) with
    | none => .error (.error (.pathError .noSuchFileOrDirectory))
    | some (.leaf _) => .ok ⟨[], path, .stoppedAtNonDirectory⟩
    | some (.dir dir) => (tree.walkFrom (path ++ [name]) rest).map fun outcome => { outcome with components := dir.permissions :: outcome.components }

/-- Such a walk is never left partway. -/
theorem walkFrom_whole (tree : FileTree) (path components : List String) (outcome : WalkOutcome (List String))
    (answer : tree.walkFrom path components = .ok outcome) : outcome.stopReason ≠ .continued := by
  induction components generalizing path outcome with
  | nil =>
    cases answer
    exact fun wrong => nomatch wrong
  | cons name rest ih =>
    rw [walkFrom] at answer
    split at answer
    · cases answer
    · cases answer
      exact fun wrong => nomatch wrong
    · cases further : tree.walkFrom (path ++ [name]) rest with
      | error halt =>
        rw [further] at answer
        cases answer
      | ok outcome' =>
        rw [further] at answer
        cases answer
        exact ih _ outcome' further

/-- The backend whose handles are the paths of the tree. -/
noncomputable def backend (tree : FileTree) : Backend (List String) (List String) Content where
  root := []
  walkDirectories := tree.walkFrom
  ownedDirAt path flags :=
    match tree.node path with
    | some (.dir dir) => ((dir.accepts flags).map fun _ => path).mapError .error
    | _ => .error (.error (.pathError .noSuchFileOrDirectory))
  walkingDirAt := some
  openFileAt path name flags :=
    match tree.node (path ++ [name]) with
    | some (.leaf leaf) => ((leaf.opens flags).map fun opened => ⟨opened.2, opened.1⟩).mapError .error
    | _ => .error (.error (.pathError .noSuchFileOrDirectory))
  readLinkAt path name :=
    match tree.node (path ++ [name]) with
    | none => .error (.error (.pathError .noSuchFileOrDirectory))
    | some (.dir _) => .ok none
    | some (.leaf leaf) => .ok leaf.target
  listDirAt path :=
    match tree.node path with
    | some (.dir dir) => (dir.entries.map Multiset.toList).mapError .error
    | _ => .error (.error .notADirectory)
  read content := content
  seekBehavior _ := .positionBased
  dirStatus _ := .error (.error .io)
  createFileAt _ _ _ := .error (.error .readOnlyFileSystem)

variable {tree : FileTree} {path : List String}

/-- Such a handle is the path of a directory. -/
def At (tree : FileTree) (handle path : List String) : Prop := handle = path ∧ ∃ dir, tree.node path = some (.dir dir)

theorem walkFrom_walked (components : List String) (isDir : ∃ dir, tree.node path = some (.dir dir)) :
    tree.Walked tree.At path components (tree.walkFrom path components) := by
  induction components generalizing path with
  | nil => exact ⟨path, [], .stop _ _, ⟨rfl, isDir⟩, rfl⟩
  | cons name rest ih =>
    rw [walkFrom]
    cases found : tree.node (path ++ [name]) with
    | none => exact ⟨[], path, name, rest, .stop _ _, found⟩
    | some node =>
      cases node with
      | leaf leaf => exact ⟨path, name :: rest, .stop _ _, ⟨rfl, isDir⟩, name, rest, leaf, rfl, found⟩
      | dir dir =>
        have walk : tree.Walk path (name :: rest) [dir.permissions] (path ++ [name]) rest := .step found (.stop _ _)
        have further := ih ⟨dir, found⟩
        cases answer : tree.walkFrom (path ++ [name]) rest with
        | error halt => exact walk.walked_error (answer ▸ further)
        | ok outcome => exact walk.walked_ok (answer ▸ further)

theorem backend_realizes (tree : FileTree) : tree.backend.Realizes tree tree.At tree.At where
  root := ⟨rfl, tree.root_dir⟩
  dir at_path := at_path.2
  walk := by
    rintro w path components ⟨rfl, isDir⟩ -
    exact walkFrom_walked components isDir
  own := by
    rintro w path dir flags ⟨rfl, -⟩ isDir
    simp only [backend, isDir]
    rcases dir.accepts flags with error | ⟨⟩
    · rfl
    · exact ⟨w, rfl, rfl, dir, isDir⟩
  ownedDir isOwned := isOwned.2
  rewalk := by
    rintro d path w isOwned again
    exact Option.some.inj again ▸ isOwned
  openFile := by
    rintro w path name flags ⟨rfl, -⟩
    simp only [backend]
    rcases tree.node (w ++ [name]) with _ | (dir | leaf)
    · rfl
    · trivial
    · dsimp only
      rcases leaf.opens flags with error | ⟨permissions, content⟩
      · rfl
      · exact ⟨content, rfl, rfl⟩
  readLink := by
    rintro w path name ⟨rfl, -⟩
    rfl
  list := by
    rintro d path dir ⟨rfl, -⟩ isDir
    simp only [backend, isDir]
    rcases dir.entries with error | entries
    · rfl
    · exact ⟨entries.toList, rfl, entries.coe_toList⟩
  status := by
    rintro d path - halt failed
    cases failed
    exact id

end FileTree

end LiteBox.Fs
