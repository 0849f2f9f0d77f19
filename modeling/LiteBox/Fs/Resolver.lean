import LiteBox.Fs.Backend

/-! # The resolver

How the resolver walks a path over a backend and opens what it finds, following symbolic links.
-/

namespace LiteBox.Fs

open Mode OFlags

variable {W D F : Type}

/-! ## The context of a call -/

namespace Resolver

/-- The current directory, and who acts. -/
structure Context where
  cwd : List String
  userInfo : UserInfo

/-- The context that every call makes for itself. -/
def Context.new (userInfo : UserInfo) : Context := ⟨[], userInfo⟩

/-- One component of a text: `.` and `..` go away with what is before them. -/
def pushComponent (components : List String) (component : String) : List String :=
  if component = "" ∨ component = "." then components
  else if component = ".." then components.dropLast
  else components ++ [component]

def Context.resolve (context : Context) : Arg → Except PathError (List String)
  | none => .error .invalidPathname
  | some path => .ok (path.foldl pushComponent (if path.isAbsolute then [] else context.cwd))

variable (user : UserInfo)

/-- One of the three bits of the mode, by who the user is to the owner. -/
def granted (mode : Mode) (owner : UserInfo) (usr grp oth : Mode) : Bool :=
  if user.user = owner.user then contains mode usr
  else if user.group = owner.group then contains mode grp
  else contains mode oth

def canExecute (mode : Mode) (owner : UserInfo) : Bool :=
  if user.user = 0 then intersects mode (xusr ||| xgrp ||| xoth) else granted user mode owner xusr xgrp xoth

def canRead (mode : Mode) (owner : UserInfo) : Bool :=
  user.user = 0 || granted user mode owner rusr rgrp roth

def canWrite (mode : Mode) (owner : UserInfo) : Bool :=
  user.user = 0 || granted user mode owner wusr wgrp woth

/-- The walk may enter a directory of these permissions. -/
def searchable : PermissionCheck → Bool
  | .byBackend => true
  | .byResolver mode owner => canExecute user mode owner

/-! ## Walks -/

def maxSymlinkHops : ℕ := 8

inductive FollowFinal where
  | yes
  | no
deriving DecidableEq

/-- The components that a link leads to, from the components of the directory that it is said to be in. -/
def targetComponents (base : List String) (target : Path) : List String :=
  if target.isAbsolute then target.filter fun component => component ≠ "" ∧ component ≠ "."
  else target.foldl pushComponent base

def checkWalkPermissions (outcome : WalkOutcome W) : Except (Halt WalkError) Unit :=
  if outcome.components.all (searchable user) then .ok () else .error (.error (.pathError .noSearchPerms))

/-- `read_link_at(..).ok().flatten()`. -/
def linkTarget (backend : Backend W D F) {ε : Type} (dir : W) (name : String) : Except (Halt ε) (Option Path) :=
  match backend.readLinkAt dir name with
  | .ok target => .ok target
  | .error (.error _) => .ok none
  | .error (.panic message) => .error (.panic message)

section Walk

variable (backend : Backend W D F) (user : UserInfo)

/-- The end of a round of `walk_path_following_symlinks`: it returns, or goes on from other components. -/
def followRound (follow : FollowFinal) (originalLen : ℕ) (next : List String → Except (Halt WalkError) (WalkOutcome W × ℕ))
    (current : List String) (outcome : WalkOutcome W) : Except (Halt WalkError) (WalkOutcome W × ℕ) :=
  let walked := outcome.components.length
  if outcome.stopReason = .completeDirectory then .ok (outcome, originalLen)
  else if outcome.stopReason = .stoppedAtNonDirectory ∧ walked + 1 = current.length ∧ follow = .no then .ok (outcome, originalLen - 1)
  else
    match current[walked]? with
    | none => .error (.panic "index out of bounds")
    | some name => do
      match ← linkTarget backend outcome.last name with
      | none => .error (.error (.pathError .componentNotADirectory))
      | some target => next (targetComponents (current.take walked) target ++ current.drop (walked + 1))

/-- The loop of `walk_path_following_symlinks`, with that many rounds left. -/
def followLoop (follow : FollowFinal) (originalLen : ℕ) : ℕ → List String → Except (Halt WalkError) (WalkOutcome W × ℕ)
  | 0, _ => .error (.error (.pathError .tooManySymlinkHops))
  | hops + 1, current => do
    let outcome ← backend.walkDirectories backend.root current
    checkWalkPermissions user outcome
    followRound backend follow originalLen (followLoop follow originalLen hops) current outcome

def walkPathFollowingSymlinks (components : List String) (follow : FollowFinal) : Except (Halt WalkError) (WalkOutcome W × ℕ) :=
  followLoop backend user follow components.length maxSymlinkHops components

def walkPath (components : List String) : Except (Halt WalkError) (WalkOutcome W × ℕ) :=
  if components = [] then .error (.panic "assertion failed: components.len() != 0")
  else walkPathFollowingSymlinks backend user components .no

def walkToDirectory (components : List String) : Except (Halt WalkError) W :=
  if components = [] then .ok backend.root
  else do
    let (outcome, walked) ← walkPathFollowingSymlinks backend user components .yes
    match outcome.stopReason with
    | .completeDirectory =>
      if walked = components.length then pure outcome.last else .error (.panic "assertion failed: walked == components.len()")
    | .stoppedAtNonDirectory => .error (.error (.pathError .componentNotADirectory))
    | .continued => .error (.panic "partial backend walks are not supported yet")

/-- The handle under which something is created. -/
def ownedParentDir (dir : W) : Except (Halt WalkError) D :=
  match backend.ownedDirAt dir pathOnly with
  | .ok parent => .ok parent
  | .error (.error (.pathError .noSuchFileOrDirectory)) => .error (.error (.pathError .missingComponent))
  | .error (.error (.pathError error)) => .error (.error (.pathError error))
  | .error (.error _) => .error (.error .io)
  | .error (.panic message) => .error (.panic message)

end Walk

/-! ## Opening -/

inductive OwnedHandle (D F : Type) where
  | dir (handle : D)
  | file (handle : F)

/-- What `open` puts into the descriptor table. -/
structure Entry (D F : Type) where
  handle : OwnedHandle D F
  (readAllowed writeAllowed : Bool)
  position : ℕ
  (appendMode pathOnly : Bool)
  seekBehavior : SeekBehavior

def openErrorOf : WalkError → OpenError
  | .io => .io
  | .pathError error => .pathError error

/-- The flags that `open` does not refuse. -/
def supportedOFlags : OFlags :=
  creat ||| rdonly ||| wronly ||| rdwr ||| trunc ||| noctty ||| excl ||| directory |||
    nonblock ||| largefile ||| nofollow ||| append ||| pathOnly ||| noatime ||| dsync ||| sync ||| direct ||| async ||| cloexec

def accessMode (flags : OFlags) : OFlags := flags &&& (wronly ||| rdwr)

def readAllowed (flags : OFlags) : Bool := accessMode flags = rdonly ∨ accessMode flags = rdwr

def writeAllowed (flags : OFlags) : Bool := accessMode flags = wronly ∨ accessMode flags = rdwr

/-- The `insert` of `open`. -/
def newEntry (flags : OFlags) (handle : OwnedHandle D F) (seekBehavior : SeekBehavior) : Entry D F :=
  ⟨handle, readAllowed flags, writeAllowed flags, 0, contains flags append, contains flags pathOnly, seekBehavior⟩

/-- `O_CREAT` and `O_EXCL` together. -/
def mustCreate (flags : OFlags) : Bool := contains flags creat && contains flags excl

section Open

variable (backend : Backend W D F) (user : UserInfo) (flags : OFlags) (mode : Mode)

def openDirectory (dir : W) : Except (Halt OpenError) (Entry D F) :=
  if mustCreate flags then .error (.error .alreadyExists)
  else do
    let handle ← backend.ownedDirAt dir flags
    return newEntry flags (.dir handle) .nonSeekable

/-- The caller may not open a file of these permissions in the mode asked for. -/
def forbidden : PermissionCheck → Bool
  | .byBackend => false
  | .byResolver mode owner => (readAllowed flags && !canRead user mode owner) || (writeAllowed flags && !canWrite user mode owner)

def openFile (dir : W) (name : String) : Except (Halt OpenError) (Entry D F) := do
  let file ← backend.openFileAt dir name flags
  if mustCreate flags then .error (.error .alreadyExists)
  else if ¬contains flags pathOnly ∧ forbidden user flags file.permissions then .error (.error .accessNotAllowed)
  else pure (newEntry flags (.file file.item) (backend.seekBehavior file.item))

def createFile (dir : W) (name : String) : Except (Halt OpenError) (Entry D F) := do
  let parent ← (ownedParentDir backend dir).mapError (Halt.map openErrorOf)
  let file ← backend.createFileAt parent name mode
  return newEntry flags (.file file) (backend.seekBehavior file)

/-- `open` at a walk that stopped before the last component: it follows a link there, or opens the file. -/
def openStopped (next : List String → Except (Halt OpenError) (Entry D F)) (components : List String) (outcome : WalkOutcome W) (walked : ℕ) :
    Except (Halt OpenError) (Entry D F) :=
  match components[walked]? with
  | none => .error (.panic "index out of bounds")
  | some name => do
    match ← if contains flags nofollow then .ok none else linkTarget backend outcome.last name with
    | some target => next (targetComponents (components.take walked) target ++ components.drop (walked + 1))
    | none =>
      -- `read_link_at` took the handle, so the path is walked once more.
      let (outcome, _) ← (walkPath backend user components).mapError (Halt.map openErrorOf)
      openFile backend user flags outcome.last name

/-- `open` at a path that is not there. -/
def openMissing (components : List String) : Except (Halt OpenError) (Entry D F) :=
  if contains flags creat then
    match components.getLast? with
    | none => .error (.panic "root path was handled above")
    | some name => do
      let parent ← (walkToDirectory backend user components.dropLast).mapError (Halt.map openErrorOf)
      createFile backend flags mode parent name
  else .error (.error (.pathError .noSuchFileOrDirectory))

/-- The loop of `open` over final links, with that many rounds left. -/
def openLoop : ℕ → List String → Except (Halt OpenError) (Entry D F)
  | 0, _ => .error (.error (.pathError .tooManySymlinkHops))
  | hops + 1, components =>
    match walkPath backend user components with
    | .ok (outcome, walked) =>
      match outcome.stopReason with
      | .completeDirectory => openDirectory backend flags outcome.last
      | .stoppedAtNonDirectory => openStopped backend user flags (openLoop hops) components outcome walked
      | .continued => .error (.panic "internal error: entered unreachable code")
    | .error (.error (.pathError .noSuchFileOrDirectory)) => openMissing backend user flags mode components
    | .error halt => .error (halt.map openErrorOf)

def openPath (path : Arg) : Except (Halt OpenError) (Entry D F) := do
  if intersects flags (~~~supportedOFlags) then .error (.error (.pathError .invalidPathname))
  else
    let components ← ((Context.new user).resolve path).mapError fun error => .error (.pathError error)
    if components = [] then openDirectory backend flags backend.root
    else openLoop backend user flags mode maxSymlinkHops components

end Open

end Resolver

end LiteBox.Fs
