import LiteBox.Fs.ResolverReference
import LiteBox.Lib.Outcome

/-! # What a refused open leaves behind

`open` is where the path leads, and then what is asked of the backend there. The backend is asked for a file before the
checks of `open` are over, and `O_EXCL` does not keep `open` from following a link to a name that is free.
-/

namespace LiteBox.Fs.Resolver

open OFlags Outcome

variable {W D F : Type} (backend : Backend W D F) (user : UserInfo) (flags : OFlags) (mode : Mode)

/-! ## Where a path leads -/

/-- What `open` is about to open or create. -/
inductive Destination (W D : Type) where
  | directory (dir : W)
  | file (dir : W) (name : String)
  | missing (parent : D) (name : String)

def locateStopped (next : List String → Except (Halt OpenError) (Destination W D)) (components : List String)
    (outcome : WalkOutcome W) (walked : ℕ) : Except (Halt OpenError) (Destination W D) :=
  match components[walked]? with
  | none => .error (.panic "index out of bounds")
  | some name => do
    match ← if contains flags nofollow then .ok none else linkTarget backend outcome.last name with
    | some target => next (targetComponents (components.take walked) target ++ components.drop (walked + 1))
    | none =>
      let (outcome, _) ← (walkPath backend user components).mapError (Halt.map openErrorOf)
      return .file outcome.last name

def locateMissing (components : List String) : Except (Halt OpenError) (Destination W D) :=
  if contains flags creat then
    match components.getLast? with
    | none => .error (.panic "root path was handled above")
    | some name => do
      let dir ← (walkToDirectory backend user components.dropLast).mapError (Halt.map openErrorOf)
      let parent ← (ownedParentDir backend dir).mapError (Halt.map openErrorOf)
      return .missing parent name
  else .error (.error (.pathError .noSuchFileOrDirectory))

def locateLoop : ℕ → List String → Except (Halt OpenError) (Destination W D)
  | 0, _ => .error (.error (.pathError .tooManySymlinkHops))
  | hops + 1, components =>
    match walkPath backend user components with
    | .ok (outcome, walked) =>
      match outcome.stopReason with
      | .completeDirectory => .ok (.directory outcome.last)
      | .stoppedAtNonDirectory => locateStopped backend user flags (locateLoop hops) components outcome walked
      | .continued => .error (.panic "internal error: entered unreachable code")
    | .error (.error (.pathError .noSuchFileOrDirectory)) => locateMissing backend user flags components
    | .error halt => .error (halt.map openErrorOf)

/-- `open` up to the first thing that it asks for by name, or for a directory. -/
def locate (path : Arg) : Except (Halt OpenError) (Destination W D) := do
  if intersects flags (~~~supportedOFlags) then .error (.error (.pathError .invalidPathname))
  else
    let components ← ((Context.new user).resolve path).mapError fun error => .error (.pathError error)
    if components = [] then .ok (.directory backend.root) else locateLoop backend user flags maxSymlinkHops components

/-- The rest of `open`. -/
def arrive : Destination W D → Except (Halt OpenError) (Entry D F)
  | .directory dir => openDirectory backend flags dir
  | .file dir name => openFile backend user flags dir name
  | .missing parent name => do
    let file ← backend.createFileAt parent name mode
    return newEntry flags (.file file) (backend.seekBehavior file)

theorem openStopped_eq {next : List String → Except (Halt OpenError) (Entry D F)}
    {next' : List String → Except (Halt OpenError) (Destination W D)} (later : ∀ components, next components = next' components >>= arrive backend user flags mode)
    (components : List String) (outcome : WalkOutcome W) (walked : ℕ) :
    openStopped backend user flags next components outcome walked =
      locateStopped backend user flags next' components outcome walked >>= arrive backend user flags mode := by
  unfold openStopped locateStopped
  cases components[walked]? with
  | none => rfl
  | some name =>
    dsimp only
    split
    · cases walkPath backend user components <;> rfl
    · cases linkTarget backend outcome.last name with
      | error halt => rfl
      | ok target =>
        cases target with
        | some target => exact later _
        | none => cases walkPath backend user components <;> rfl

theorem openMissing_eq (components : List String) :
    openMissing backend user flags mode components = locateMissing backend user flags components >>= arrive backend user flags mode := by
  unfold openMissing locateMissing
  split
  · cases components.getLast? with
    | none => rfl
    | some name => simp only [bind_assoc, pure_bind]; rfl
  · rfl

theorem openLoop_eq (hops : ℕ) (components : List String) :
    openLoop backend user flags mode hops components = locateLoop backend user flags hops components >>= arrive backend user flags mode := by
  induction hops generalizing components with
  | zero => rfl
  | succ hops ih =>
    rw [openLoop, locateLoop]
    rcases walkPath backend user components with ((_ | error) | _) | ⟨⟨seen, last, reason⟩, walked⟩
    · rfl
    · cases error with
      | noSuchFileOrDirectory => exact openMissing_eq backend user flags mode components
      | _ => rfl
    · rfl
    · cases reason with
      | completeDirectory | continued => rfl
      | stoppedAtNonDirectory => exact openStopped_eq backend user flags mode ih _ _ _

theorem openPath_eq (path : Arg) :
    openPath backend user flags mode path = locate backend user flags path >>= arrive backend user flags mode := by
  unfold openPath locate
  split
  · rfl
  · rw [bind_assoc]
    refine bind_congr fun components => ?_
    split
    · rfl
    · exact openLoop_eq backend user flags mode _ components

/-! ## What is left behind -/

/-- Opening or creating there has truncated a file or made one. -/
def Changes : Destination W D → Prop
  | .directory _ => False
  | .file dir name => contains flags trunc = true ∧ ∃ file, backend.openFileAt dir name flags = .ok file
  | .missing parent name => ∃ file, backend.createFileAt parent name mode = .ok file

def Changed (path : Arg) : Prop :=
  ∃ destination, locate backend user flags path = .ok destination ∧ Changes backend flags mode destination

/-- The path names something, which may be a link that leads nowhere. -/
def Named (path : Arg) : Prop :=
  ∃ components, (Context.new user).resolve path = .ok components ∧
    (components = [] ∨ ∃ found, walkPath backend user components = .ok found)

structure RefusesCleanly (path : Arg) : Prop where
  unchanged : ∀ error, openPath backend user flags mode path = .error (.error error) → ¬Changed backend user flags mode path
  fresh : mustCreate flags = true → ∀ entry, openPath backend user flags mode path = .ok entry → ¬Named backend user path

/-- A file that would be truncated may be opened as asked, and what has to be created is not behind a link. -/
structure Unrefused (path : Arg) : Prop where
  allowed : contains flags trunc = true → ∀ dir name file, locate backend user flags path = .ok (.file dir name) →
    backend.openFileAt dir name flags = .ok file →
      mustCreate flags = false ∧ (contains flags pathOnly = true ∨ forbidden user flags file.permissions = false)
  direct : mustCreate flags = true → Named backend user path → ∀ parent name file,
    locate backend user flags path = .ok (.missing parent name) → backend.createFileAt parent name mode ≠ .ok file

variable {backend user flags mode}

theorem openFile_refuses_iff {dir : W} {name : String} {file : Permissioned F} (opened : backend.openFileAt dir name flags = .ok file) :
    (∃ error, openFile backend user flags dir name = .error (.error error)) ↔
      ¬(mustCreate flags = false ∧ (contains flags pathOnly = true ∨ forbidden user flags file.permissions = false)) := by
  have asked : openFile backend user flags dir name =
      if mustCreate flags then .error (.error .alreadyExists)
      else if ¬contains flags pathOnly ∧ forbidden user flags file.permissions then .error (.error .accessNotAllowed)
      else .ok (newEntry flags (.file file.item) (backend.seekBehavior file.item)) := by
    rw [openFile, opened]
    rfl
  rw [asked]
  split_ifs with exclusive refused
  · simp [exclusive]
  · simp [exclusive, refused]
  · simpa [exclusive, or_iff_not_imp_left] using refused

/-- Exactly then does a refused open leave everything as it was, and create only names that nothing has. -/
theorem refusesCleanly_iff (path : Arg) : RefusesCleanly backend user flags mode path ↔ Unrefused backend user flags mode path := by
  refine ⟨fun clean => ⟨fun truncates dir name file located opened => ?_, fun exclusive named parent name file located created => ?_⟩,
    fun unrefused => ⟨fun error failed ⟨destination, located, changes⟩ => ?_, fun exclusive entry opened named => ?_⟩⟩
  · by_contra refused
    obtain ⟨error, failed⟩ := (openFile_refuses_iff opened).mpr refused
    exact clean.unchanged error (by rw [openPath_eq, located]; exact failed) ⟨_, located, truncates, file, opened⟩
  · refine clean.fresh exclusive (newEntry flags (.file file) (backend.seekBehavior file)) ?_ named
    rw [openPath_eq, located]
    show (backend.createFileAt parent name mode >>= _) = _
    rw [created]
    rfl
  · rw [openPath_eq, located] at failed
    cases destination with
    | directory => exact changes
    | file dir name =>
      obtain ⟨truncates, file, opened⟩ := changes
      exact (openFile_refuses_iff opened).mp ⟨error, failed⟩ (unrefused.allowed truncates dir name file located opened)
    | missing parent name =>
      obtain ⟨file, created⟩ := changes
      replace failed : (backend.createFileAt parent name mode >>= _) = _ := failed
      rw [created] at failed
      cases failed
  · obtain ⟨destination, located, opened⟩ := bind_eq_ok.mp ((openPath_eq ..).symm.trans opened)
    cases destination with
    | directory => simp [arrive, openDirectory, exclusive] at opened
    | file dir name =>
      obtain ⟨file, asked, -⟩ := bind_eq_ok.mp opened
      obtain ⟨error, failed⟩ : ∃ error, openFile backend user flags dir name = .error (.error error) :=
        (openFile_refuses_iff asked).mpr (by simp [exclusive])
      cases failed.symm.trans opened
    | missing parent name =>
      obtain ⟨file, created, -⟩ := bind_eq_ok.mp opened
      exact unrefused.direct exclusive named parent name file located created

/-- The file is truncated though the open is refused, and the link does not keep `O_EXCL` from creating what it leads to. -/
theorem refused_open_truncates :
    let backend := { (fileAndLink ["free"]).backend with createFileAt := fun _ _ _ => .ok fun _ _ => .ok [] }
    (openPath backend .root (creat ||| excl ||| trunc) 0 (some ["", "f"]) = .error (.error .alreadyExists) ∧
      Changed backend .root (creat ||| excl ||| trunc) 0 (some ["", "f"])) ∧
    (∃ entry, openPath backend .root (creat ||| excl) 0 (some ["", "l"]) = .ok entry) ∧ Named backend .root (some ["", "l"]) :=
  ⟨⟨rfl, .file [] "f", rfl, rfl, _, rfl⟩, ⟨_, rfl⟩, ["l"], rfl, .inr ⟨_, rfl⟩⟩

end LiteBox.Fs.Resolver
