import Mathlib
import LiteBox.Fs.Backend

/-! # The composer

Backends mounted at paths, as one backend. A path here is the list of its components, without the root.
-/

namespace LiteBox.Fs

open Mode

variable {W D F : Type}

/-- A mounted backend. -/
structure Mount (W D F : Type) where
  path : List String
  backend : Backend W D F

/-- A directory that only connects mount points. -/
structure VirtualDir where
  path : List String
  nodeInfo : NodeInfo
deriving DecidableEq, Repr

structure Composer (W D F : Type) where
  mounts : List (Mount W D F)
  virtualDirs : List VirtualDir

inductive BuildError where
  | noMounts
  | invalidMountPath
  | duplicateMountPath
deriving DecidableEq, Repr

inductive MountRelation where
  | exact
  | ancestorOfMount
  | unrelated
deriving DecidableEq, Repr

/-- The path lies strictly above the mount point. -/
def Mount.Below (mount : Mount W D F) (path : List String) : Prop := path.length < mount.path.length ∧ path <+: mount.path

instance (mount : Mount W D F) (path : List String) : Decidable (mount.Below path) := inferInstanceAs (Decidable (_ ∧ _))

/-- The first mount that the path has to do with decides. -/
def MountRelation.of : List (Mount W D F) → List String → MountRelation
  | [], _ => .unrelated
  | mount :: mounts, path =>
    if mount.path = path then .exact
    else if mount.Below path then .ancestorOfMount
    else of mounts path

namespace Composer

/-! ## Building -/

def virtualDirDeviceId : ℕ := 0x436f6d70

/-- The components of an absolute, canonical path. -/
def mountPath : Arg → Except BuildError (List String)
  | none => .error .invalidMountPath
  | some raw =>
    let path := (raw.drop 1).filter (· ≠ "")
    if ¬raw.isAbsolute then .error .invalidMountPath
    else if "." ∈ path ∨ ".." ∈ path then .error .invalidMountPath
    else if raw ≠ "" :: (if path = [] then [""] else path) then .error .invalidMountPath
    else .ok path

/-- Two neighbours of the sorted paths are the same. -/
def hasDuplicate (paths : List (List String)) : Bool :=
  let sorted := paths.mergeSort (· ≤ ·)
  (sorted.zip sorted.tail).any fun pair => pair.1 = pair.2

/-- One more virtual directory, unless the path is a mount point or has one; inode numbers count from 1. -/
def addVirtualDir (mounts : List (Mount W D F)) (dirs : List VirtualDir) (path : List String) : List VirtualDir :=
  if MountRelation.of mounts path = .exact ∨ path ∈ dirs.map (·.path) then dirs
  else dirs ++ [⟨path, virtualDirDeviceId, dirs.length + 1, none⟩]

/-- The proper ancestors of the mount points, in the order in which `build` comes to them. -/
def ancestors (paths : List (List String)) : List (List String) := paths.flatMap fun path => (List.range path.length).map path.take

def build (mounts : List (Arg × Backend W D F)) : Except BuildError (Composer W D F) := do
  if mounts = [] then throw .noMounts
  let mounts ← mounts.mapM fun mount => (mountPath mount.1).map fun path => { path, backend := mount.2 : Mount W D F }
  if hasDuplicate (mounts.map (·.path)) then throw .duplicateMountPath
  pure ⟨mounts, (ancestors (mounts.map (·.path))).foldl (addVirtualDir mounts) []⟩

/-! ## Handles -/

inductive WalkingDirHandle (W : Type) where
  | virtual (path : List String)
  | mounted (path : List String) (mountIndex : ℕ) (handle : W)
deriving DecidableEq, Repr

inductive DirHandle (D : Type) where
  | virtual (path : List String)
  | mounted (path : List String) (mountIndex : ℕ) (handle : D)
deriving DecidableEq, Repr

structure FileHandle (F : Type) where
  mountIndex : ℕ
  handle : F
deriving DecidableEq, Repr

/-! ## The backend -/

variable (c : Composer W D F)

def mountRelation (path : List String) : MountRelation := .of c.mounts path

/-- `self.mounts[mount_index].backend`. -/
def backendAt {ε : Type} (index : ℕ) : Except (Halt ε) (Backend W D F) :=
  match c.mounts[index]? with
  | some mount => .ok mount.backend
  | none => .error (.panic "index out of bounds")

def checkedChildPath {ε : Type} (path : List String) (name : String) (error : ε) : Except (Halt ε) (List String) :=
  if c.mountRelation (path ++ [name]) = .unrelated then .ok (path ++ [name]) else .error (.error error)

def addChild (children : List String) (child : String) : List String := if child ∈ children then children else children ++ [child]

def immediateMountChildren (path : List String) : List String :=
  ((c.mounts.filter (·.Below path)).filterMap (·.path[path.length]?)).foldl addChild []

def listMountChildren (path : List String) : List DirEntry := (c.immediateMountChildren path).map fun name => ⟨name, .directory, none⟩

def mergeMountChildren (entries : List DirEntry) (path : List String) : List DirEntry :=
  (c.listMountChildren path).foldl (fun entries child => entries.filter (·.name ≠ child.name) ++ [child]) entries

def exactMountRoot (path : List String) : Option (ℕ × W) :=
  (c.mounts.zipIdx.find? fun (mount, _) => mount.path = path).map fun (mount, index) => (index, mount.backend.root)

def rootHandle : WalkingDirHandle W :=
  match c.exactMountRoot [] with
  | some (index, handle) => .mounted [] index handle
  | none => .virtual []

def virtualDirStatus (path : List String) : Except (Halt FileStatusError) FileStatus :=
  match c.virtualDirs.find? (·.path = path) with
  | some dir => .ok ⟨.directory, rwxu ||| rgrp ||| xgrp ||| roth ||| xoth, defaultDirectorySize, .root, dir.nodeInfo,
      defaultDirectorySize, ⟨0, 0⟩, ⟨0, 0⟩, 1⟩
  | none => .error (.panic "virtual directory is precomputed")

/-- How many components lie before the next mount boundary. -/
def mountedWalkPrefixLen (path : List String) : List String → ℕ
  | [] => 0
  | name :: rest => if c.mountRelation (path ++ [name]) = .unrelated then 1 + mountedWalkPrefixLen (path ++ [name]) rest else 0

/-- An answer of a mounted backend to the walk over the first `asked` of the remaining components, with its handle under the composer's. -/
def mountedOutcome (path : List String) (index : ℕ) (remaining : List String) (asked : ℕ) (outcome : WalkOutcome W) :
    Except (Halt WalkError) (WalkOutcome (WalkingDirHandle W)) :=
  let walkedLen := outcome.components.length
  if remaining.length < walkedLen ∨ (outcome.stopReason = .completeDirectory ∧ walkedLen ≠ asked) then .error (.panic "assertion failed")
  else .ok ⟨outcome.components, .mounted (path ++ remaining.take walkedLen) index outcome.last, outcome.stopReason⟩

/-- What one round of the loop does: it goes on from a handle after some components, or returns. -/
inductive Round (W : Type) where
  | next (walked : List PermissionCheck) (current : WalkingDirHandle W)
  | done (outcome : WalkOutcome (WalkingDirHandle W))
deriving DecidableEq, Repr

/-- The walk goes on from an outcome that is complete and ends with any other. -/
def Round.ofOutcome (outcome : WalkOutcome (WalkingDirHandle W)) : Round W :=
  if outcome.stopReason = .completeDirectory then .next outcome.components outcome.last else .done outcome

/-- One round of the loop of `walk_directories`, on the remaining components `name :: rest`. -/
def walkRound (name : String) (rest : List String) : WalkingDirHandle W → Except (Halt WalkError) (Round W)
  | .virtual path =>
    match c.exactMountRoot (path ++ [name]) with
    | some (index, handle) => .ok (.next [.byBackend] (.mounted (path ++ [name]) index handle))
    | none =>
      if c.mountRelation (path ++ [name]) = .ancestorOfMount then .ok (.next [.byBackend] (.virtual (path ++ [name])))
      else .error (.error (.pathError .noSuchFileOrDirectory))
  | .mounted path index handle =>
    match c.exactMountRoot (path ++ [name]) with
    | some (index, handle) => .ok (.next [.byBackend] (.mounted (path ++ [name]) index handle))
    | none => do
      let backend ← c.backendAt index
      if c.mountRelation (path ++ [name]) = .ancestorOfMount then
        -- A name above a mount point: what the outer backend has there, or a virtual directory.
        match backend.walkDirectories handle [name] with
        | .ok outcome => return .ofOutcome (← mountedOutcome path index [name] 1 outcome)
        | .error (.error (.pathError .noSuchFileOrDirectory)) => return .next [.byBackend] (.virtual (path ++ [name]))
        | .error halt => .error halt
      else
        let asked := c.mountedWalkPrefixLen path (name :: rest)
        if asked = 0 then .error (.panic "assertion failed: prefix_len > 0")
        else
          let outcome ← backend.walkDirectories handle ((name :: rest).take asked)
          return .ofOutcome (← mountedOutcome path index (name :: rest) asked outcome)

/-- The loop of `walk_directories`. Every round walks a component or returns, so the number of components bounds the rounds. -/
def walkLoop : ℕ → WalkingDirHandle W → List PermissionCheck → List String → Except (Halt WalkError) (WalkOutcome (WalkingDirHandle W))
  | _, current, walked, [] => .ok ⟨walked, current, .completeDirectory⟩
  | 0, _, _, _ :: _ => .error (.panic "out of rounds")
  | rounds + 1, current, walked, name :: rest => do
    match ← c.walkRound name rest current with
    | .next components current => walkLoop rounds current (walked ++ components) ((name :: rest).drop components.length)
    | .done outcome => return { outcome with components := walked ++ outcome.components }

def walkDirectories (start : WalkingDirHandle W) (components : List String) : Except (Halt WalkError) (WalkOutcome (WalkingDirHandle W)) :=
  c.walkLoop components.length start [] components

def ownedDirAt (dir : WalkingDirHandle W) (flags : OFlags) : Except (Halt OpenError) (DirHandle D) :=
  match dir with
  | .virtual path => .ok (.virtual path)
  | .mounted path index handle => do
    let backend ← c.backendAt index
    return .mounted path index (← backend.ownedDirAt handle flags)

def walkingDirAt : DirHandle D → Option (WalkingDirHandle W)
  | .virtual path => some (.virtual path)
  | .mounted path index handle =>
    match c.mounts[index]? with
    | some mount => (mount.backend.walkingDirAt handle).map (.mounted path index)
    | none => none

def openFileAt (dir : WalkingDirHandle W) (name : String) (flags : OFlags) : Except (Halt OpenError) (Permissioned (FileHandle F)) :=
  match dir with
  | .virtual _ => .error (.error (.pathError .noSuchFileOrDirectory))
  | .mounted path index handle => do
    let _ ← c.checkedChildPath path name (.pathError .noSuchFileOrDirectory)
    let backend ← c.backendAt index
    let file ← backend.openFileAt handle name flags
    return ⟨⟨index, file.item⟩, file.permissions⟩

def readLinkAt (dir : WalkingDirHandle W) (name : String) : Except (Halt OpenError) (Option Path) :=
  match dir with
  | .virtual path =>
    if name ∈ c.immediateMountChildren path then .ok none else .error (.error (.pathError .noSuchFileOrDirectory))
  | .mounted path index handle =>
    if c.mountRelation (path ++ [name]) = .ancestorOfMount then .ok none
    else do
      let backend ← c.backendAt index
      backend.readLinkAt handle name

def listDirAt : DirHandle D → Except (Halt ReadDirError) (List DirEntry)
  | .virtual path => .ok (c.listMountChildren path)
  | .mounted path index handle => do
    let backend ← c.backendAt index
    return c.mergeMountChildren (← backend.listDirAt handle) path

def read (file : FileHandle F) (length offset : ℕ) : Except (Halt ReadError) (List UInt8) := do
  let backend ← c.backendAt file.mountIndex
  backend.read file.handle length offset

def seekBehavior (file : FileHandle F) : SeekBehavior :=
  match c.mounts[file.mountIndex]? with
  | some mount => mount.backend.seekBehavior file.handle
  | none => .nonSeekable

def dirStatus : DirHandle D → Except (Halt FileStatusError) FileStatus
  | .virtual path => c.virtualDirStatus path
  | .mounted _ index handle => do
    let backend ← c.backendAt index
    backend.dirStatus handle

def createFileAt (dir : DirHandle D) (name : String) (mode : Mode) : Except (Halt OpenError) (FileHandle F) :=
  match dir with
  | .virtual _ => .error (.error .readOnlyFileSystem)
  | .mounted path index handle => do
    let _ ← c.checkedChildPath path name .readOnlyFileSystem
    let backend ← c.backendAt index
    return ⟨index, ← backend.createFileAt handle name mode⟩

/-- The composer as a backend of its own. -/
def backend : Backend (WalkingDirHandle W) (DirHandle D) (FileHandle F) where
  root := c.rootHandle
  walkDirectories := c.walkDirectories
  ownedDirAt := c.ownedDirAt
  walkingDirAt := c.walkingDirAt
  openFileAt := c.openFileAt
  readLinkAt := c.readLinkAt
  listDirAt := c.listDirAt
  read := c.read
  seekBehavior := c.seekBehavior
  dirStatus := c.dirStatus
  createFileAt := c.createFileAt

end Composer

end LiteBox.Fs
