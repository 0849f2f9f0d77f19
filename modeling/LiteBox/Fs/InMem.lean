import LiteBox.Fs.Basic
import Mathlib.Data.List.AList

/-! # The in-memory file system

Entries are kept under their whole path, and every directory also keeps the names of its children. Files,
directories and links are shared through `Arc`s; an `Arc` is modelled by the `unique_id` of what it holds.
-/

namespace LiteBox.Fs

open Prog Mode Function OFlags

open Mm (usizeMax isizeMax)

/-! ## State -/

structure Permissions where
  mode : Mode
  userinfo : UserInfo
  atime : Timestamp
  mtime : Timestamp

variable (perms : Permissions)

namespace Permissions

/-- The bit that counts for a user: the owner's, the group's or that of the others. -/
def grants (owner group other : Mode) (current : UserInfo) : Bool :=
  if perms.userinfo.user = current.user then contains perms.mode owner
  else if perms.userinfo.group = current.group then contains perms.mode group
  else contains perms.mode other

def canReadBy (current : UserInfo) : Bool :=
  if current.user = 0 then true else perms.grants .rusr .rgrp .roth current

def canWriteBy (current : UserInfo) : Bool :=
  if current.user = 0 then true else perms.grants .wusr .wgrp .woth current

def canExecuteBy (current : UserInfo) : Bool :=
  if current.user = 0 then intersects perms.mode (xusr ||| xgrp ||| xoth) else perms.grants .xusr .xgrp .xoth current

/-- Who may change the mode and the owner. -/
def ownedBy (current : UserInfo) : Bool := current.user = 0 || current.user = perms.userinfo.user

end Permissions

structure FileX where
  perms : Permissions
  data : List UInt8
  nlink : ℕ
  isFifo : Bool

structure DirX where
  perms : Permissions
  children : AList fun _ : String => FileType

structure SymlinkX where
  perms : Permissions
  target : Path

inductive Entry where
  | file (id : ℕ)
  | dir (id : ℕ)
  | symlink (id : ℕ)
deriving DecidableEq

namespace Entry

def isDir : Entry → Bool
  | dir _ => true
  | _ => false

end Entry

inductive Descriptor where
  | file (file : ℕ) (readAllowed writeAllowed : Bool) (position : ℕ) (appendMode : Bool)
  | dir (dir : ℕ)

namespace Descriptor

/-- What a descriptor refers to. -/
def entry : Descriptor → Entry
  | file id .. => .file id
  | dir id => .dir id

end Descriptor

structure InMem where
  entries : AList fun _ : Path => Entry
  files : ℕ → FileX
  dirs : ℕ → DirX
  symlinks : ℕ → SymlinkX
  /-- `unique_id_freshness`. -/
  freshness : ℕ
  descriptors : ℕ → Option Descriptor
  nextFd : ℕ

namespace InMem

def deviceId : ℕ := 0x494d656d

def blockSize : ℕ := 0

def epoch : Timestamp := ⟨0, 0⟩

/-- The file system with only its root, as made at a time. -/
def new (now : Timestamp) : InMem where
  entries := (∅ : AList fun _ : Path => Entry).insert [""] (.dir 0)
  files _ := ⟨⟨0, .root, epoch, epoch⟩, [], 0, false⟩
  dirs _ := ⟨⟨rwxu ||| rgrp ||| xgrp ||| roth ||| xoth, .root, now, now⟩, ∅⟩
  symlinks _ := ⟨⟨0, .root, epoch, epoch⟩, [""]⟩
  freshness := 1
  descriptors _ := none
  nextFd := 0

/-! ## Walking a path -/

def absolutePath : Arg → Except (Halt PathError) Path
  | none => .error (.error .invalidPathname)
  | some path => .ok (if path.isAbsolute then path else "" :: path).normalized

/-- Where a walk over the components of a path ends: at the last one, or at a link that is spliced in. -/
inductive Walked where
  | found (parent : Option (Path × ℕ)) (entry : Option Entry)
  | spliced (path : Path)

/-- The path with the link at `collected` replaced by its target. -/
def splice (collected target : Path) (rest : List String) : Path :=
  (if target.isAbsolute then [""] else collected.dirname) ++ target.trimSlashes ++ rest

/-- One pass over the components; `collected` is the path so far, `seen` that it has a name. -/
def walkComponents (s : InMem) (user : UserInfo) (collected : Path) (parent : Option (Path × ℕ)) (seen : Bool) :
    List String → Except (Halt PathError) Walked
  | [] => .ok (.found parent (s.entries.lookup collected))
  | p :: rest =>
    if p = "" ∨ p = ".." then
      if seen then .error (.panic "assertion failed: !real_components_seen") else s.walkComponents user collected parent seen rest
    else
      match s.entries.lookup collected with
      | none => .error (.error .missingComponent)
      | some (.file _) => .error (.error .componentNotADirectory)
      | some (.symlink link) => .ok (.spliced (splice collected (s.symlinks link).target (p :: rest)))
      | some (.dir dir) =>
        if (s.dirs dir).perms.canExecuteBy user then s.walkComponents user (collected ++ [p]) (some (collected, dir)) true rest
        else .error (.error .noSearchPerms)

/-- Walks a path with that many links to follow. -/
def walk (s : InMem) (user : UserInfo) : ℕ → Path → Except (Halt PathError) (Option (Path × ℕ) × Option Entry)
  | hops, path =>
    match s.walkComponents user [""] none false path.normalizedComponents with
    | .error halt => .error halt
    | .ok (.found parent entry) => .ok (parent, entry)
    | .ok (.spliced path) =>
      match hops with
      | 0 => .error (.error .tooManySymlinkHops)
      | hops + 1 => s.walk user hops path

def maxIntermediateHops : ℕ := 40

def parentAndEntry (s : InMem) (user : UserInfo) (path : Path) : Except (Halt PathError) (Option (Path × ℕ) × Option Entry) :=
  s.walk user maxIntermediateHops path

/-- The last name of a path. -/
def finalName (path : Path) : Option String := (path.normalizedComponents.filter fun c => c ≠ "" ∧ c ≠ "..").getLast?

def resolvedPath (s : InMem) (user : UserInfo) (path : Path) : Except (Halt PathError) Path :=
  match s.parentAndEntry user path with
  | .error halt => .error halt
  | .ok (none, _) => .ok path
  | .ok (some (parentPath, _), _) =>
    match finalName path with
    | some name => .ok (parentPath ++ [name])
    | none => .ok path

def maxSymlinkHops : ℕ := 8

/-- Follows the links that the last component names, `hops` of them at most. -/
def resolveFinalSymlinks (s : InMem) (user : UserInfo) : ℕ → Path → Except (Halt PathError) Path
  | 0, _ => .error (.error .tooManySymlinkHops)
  | hops + 1, current =>
    match s.parentAndEntry user current with
    | .error halt => .error halt
    | .ok (_, some (.symlink link)) =>
      let target := (s.symlinks link).target
      s.resolveFinalSymlinks user hops (if target.isAbsolute then target else current.dirname ++ target).normalized
    | .ok _ => .ok current

/-! ## Steps of the operations -/

variable (env : Env)

section Steps

variable {ε α : Type}

/-- A result about a path, in an operation with errors of its own. -/
def atPath (wrap : PathError → ε) (result : Except (Halt PathError) α) : Prog InMem (Halt ε) α :=
  .ofExcept (result.mapError (Halt.map wrap))

/-- The path with the links before its last name followed, its directory and its entry. -/
def locate (wrap : PathError → ε) (env : Env) (path : Path) : Prog InMem (Halt ε) (Path × Option (Path × ℕ) × Option Entry) := do
  let s ← get
  let path ← atPath wrap (s.resolvedPath env.user path)
  let found ← atPath wrap (s.parentAndEntry env.user path)
  pure (path, found)

/-- The entry at a path, not followed; it is an error that there is none. -/
def find (wrap : PathError → ε) (env : Env) (path : Path) : Prog InMem (Halt ε) Entry := do
  let s ← get
  let (_, entry) ← atPath wrap (s.parentAndEntry env.user path)
  ofOption (.error (wrap .noSuchFileOrDirectory)) entry

def freshId : Prog InMem (Halt ε) ℕ := do
  let s ← get
  modify fun s => { s with freshness := (s.freshness + 1) % 2 ^ 64 }
  when (s.freshness = usizeMax) (.fail (.panic "we never expect to hit this"))
  pure s.freshness

/-- Fails unless the caller may write the directory. -/
def requireWritable (dir : ℕ) (denied : ε) : Prog InMem (Halt ε) Unit := do
  let s ← get
  when (¬(s.dirs dir).perms.canWriteBy env.user) (.fail (.error denied))

def modifyDir (dir : ℕ) (change : DirX → DirX) : Prog InMem (Halt ε) Unit :=
  .modify fun s => { s with dirs := update s.dirs dir (change (s.dirs dir)) }

def modifyFile (file : ℕ) (change : FileX → FileX) : Prog InMem (Halt ε) Unit :=
  .modify fun s => { s with files := update s.files file (change (s.files file)) }

def touch (dir : ℕ) : Prog InMem (Halt ε) Unit :=
  modifyDir dir fun d => { d with perms := { d.perms with mtime := env.now } }

/-- `children.insert`, with the old value. -/
def insertChild (dir : ℕ) (name : String) (fileType : FileType) : Prog InMem (Halt ε) (Option FileType) := do
  let s ← get
  modifyDir dir fun d => { d with children := d.children.insert name fileType }
  pure ((s.dirs dir).children.lookup name)

/-- `children.remove`, with the old value. -/
def removeChild (dir : ℕ) (name : String) : Prog InMem (Halt ε) (Option FileType) := do
  let s ← get
  modifyDir dir fun d => { d with children := d.children.erase name }
  pure ((s.dirs dir).children.lookup name)

/-- `entries.insert`, with the old value. -/
def insertKey (path : Path) (entry : Entry) : Prog InMem (Halt ε) (Option Entry) := do
  let s ← get
  modify fun s => { s with entries := s.entries.insert path entry }
  pure (s.entries.lookup path)

/-- `entries.remove`, with the old value. -/
def removeKey (path : Path) : Prog InMem (Halt ε) (Option Entry) := do
  let s ← get
  modify fun s => { s with entries := s.entries.erase path }
  pure (s.entries.lookup path)

def assert (condition : Prop) [Decidable condition] (what : String) : Prog InMem (Halt ε) Unit :=
  when (¬condition) (.fail (.panic what))

/-- Puts the entry that `make` makes under a new path, as a child of the directory. -/
def addEntry (dir : ℕ) (path : Path) (fileType : FileType) (make : Prog InMem (Halt ε) Entry) : Prog InMem (Halt ε) Entry := do
  touch env dir
  let old ← insertChild dir path.lastName fileType
  assert (old = none) "assertion failed: old.is_none()"
  let entry ← make
  let old ← insertKey path entry
  assert (old = none) "assertion failed: old.is_none()"
  pure entry

def newFile (isFifo : Bool) : Prog InMem (Halt ε) Entry := do
  let id ← freshId
  modifyFile id fun _ => ⟨perms, [], 1, isFifo⟩
  pure (.file id)

def newDir : Prog InMem (Halt ε) Entry := do
  let id ← freshId
  modifyDir id fun _ => ⟨perms, ∅⟩
  pure (.dir id)

def newSymlink (target : Path) : Prog InMem (Halt ε) Entry := do
  let id ← freshId
  modify fun s => { s with symlinks := update s.symlinks id ⟨perms, target⟩ }
  pure (.symlink id)

/-- One name of the file less. -/
def dropLink (file : ℕ) : Prog InMem (Halt ε) Unit := modifyFile file fun f => { f with nlink := f.nlink - 1 }

/-- One name of the file more. -/
def addLink (file : ℕ) : Prog InMem (Halt ε) Entry := do
  let s ← get
  when (usizeMax < (s.files file).nlink + 1) (.fail (.panic "attempt to add with overflow"))
  modifyFile file fun f => { f with nlink := f.nlink + 1 }
  pure (.file file)

end Steps

/-! ## Operations on paths -/

def unlink (path : Arg) : Prog InMem (Halt UnlinkError) Unit := do
  let path ← atPath .pathError (absolutePath path)
  let (path, parent, entry) ← locate .pathError env path
  let (_, parent) ← ofOption (.error .isADirectory) parent
  let entry ← ofOption (.error (.pathError .noSuchFileOrDirectory)) entry
  when entry.isDir (.fail (.error .isADirectory))
  requireWritable env parent .noWritePerms
  touch env parent
  let removed ← removeChild parent path.lastName
  assert (removed = some .regularFile ∨ removed = some .symlink ∨ removed = some .fifo) "assertion failed: matches!(removed, ..)"
  let removed ← removeKey path
  let removed ← ofOption (.panic "called `Option::unwrap()` on a `None` value") removed
  assert (¬removed.isDir) "assertion failed: matches!(removed, ..)"
  match removed with
  | .file file => dropLink file
  | _ => pure ()

/-- The new key of an entry below a directory that moves. -/
def rekeyed (source target key : Path) : Path := target ++ key.drop source.length

/-- `starts_with` of the path and a slash. -/
def isBelow (source key : Path) : Bool := source.isPrefixOf key && source.length < key.length

def rekey (source target key : Path) : Prog InMem (Halt RenameError) Unit := do
  let entry ← removeKey key
  let entry ← ofOption (.panic "called `Option::unwrap()` on a `None` value") entry
  let _ ← insertKey (rekeyed source target key) entry
  pure ()

/-- Moves the name in the children of the two directories. -/
def moveChild (source target : Path × ℕ) (sourceName targetName : String) : Prog InMem (Halt RenameError) Unit :=
  if source.1 = target.1 then do
    requireWritable env source.2 .noWritePerms
    touch env source.2
    let fileType ← removeChild source.2 sourceName
    let fileType ← ofOption (.error (.pathError .noSuchFileOrDirectory)) fileType
    let _ ← insertChild source.2 targetName fileType
    pure ()
  else do
    requireWritable env source.2 .noWritePerms
    requireWritable env target.2 .noWritePerms
    touch env source.2
    let fileType ← removeChild source.2 sourceName
    let fileType ← ofOption (.error (.pathError .noSuchFileOrDirectory)) fileType
    touch env target.2
    let _ ← insertChild target.2 targetName fileType
    pure ()

/-- The name of the file that a rename replaced. -/
def dropReplaced (moved : Entry) : Option Entry → Prog InMem (Halt RenameError) Unit
  | some (.file replaced) => if moved = .file replaced then pure () else dropLink replaced
  | _ => pure ()

/-- Moves the entry, and for a directory all that is below it, to the new keys. -/
def moveKeys (source target : Path) (isDir : Bool) : Prog InMem (Halt RenameError) Unit := do
  let moved ← removeKey source
  let moved ← ofOption (.panic "called `Option::unwrap()` on a `None` value") moved
  let s ← get
  when isDir ((s.entries.keys.filter (isBelow source)).forM (rekey source target))
  let replaced ← insertKey target moved
  dropReplaced moved replaced

def renameOther (source target : Path) : Prog InMem (Halt RenameError) Unit := do
  let s ← get
  let source ← atPath .pathError (s.resolvedPath env.user source)
  let target ← atPath .pathError (s.resolvedPath env.user target)
  let (sourceParent, sourceEntry) ← atPath .pathError (s.parentAndEntry env.user source)
  let sourceParent ← ofOption (.error .isADirectory) sourceParent
  let sourceEntry ← ofOption (.error (.pathError .noSuchFileOrDirectory)) sourceEntry
  when (sourceEntry.isDir ∧ isBelow source target) (.fail (.error .isADirectory))
  let (targetParent, targetEntry) ← atPath .pathError (s.parentAndEntry env.user target)
  let targetParent ← ofOption (.error .destinationIsADirectory) targetParent
  when (targetEntry.any Entry.isDir) (.fail (.error .destinationIsADirectory))
  when (sourceEntry.isDir ∧ targetEntry.isSome) (.fail (.error .isADirectory))
  moveChild env sourceParent targetParent source.lastName target.lastName
  moveKeys source target sourceEntry.isDir

def rename (source target : Arg) : Prog InMem (Halt RenameError) Unit := do
  let source ← atPath .pathError (absolutePath source)
  let target ← atPath .pathError (absolutePath target)
  if source = target then do
    let _ ← find .pathError env source
    pure ()
  else renameOther env source target

def link (oldpath newpath : Arg) : Prog InMem (Halt LinkError) Unit := do
  let oldpath ← atPath .pathError (absolutePath oldpath)
  let newpath ← atPath .pathError (absolutePath newpath)
  let entry ← find .pathError env oldpath
  let file ← ofOption (.error .isADirectory) (match entry with | .file file => some file | _ => none)
  let (newpath, newParent, newEntry) ← locate .pathError env newpath
  when newEntry.isSome (.fail (.error .alreadyExists))
  let (_, newParent) ← ofOption (.panic "internal error: entered unreachable code") newParent
  requireWritable env newParent .noWritePerms
  let _ ← addEntry env newParent newpath .regularFile (addLink file)
  pure ()

def makeFifo (path : Arg) (mode : Mode) : Prog InMem (Halt MkdirError) Unit := do
  let path ← atPath .pathError (absolutePath path)
  let (path, parent, entry) ← locate .pathError env path
  when entry.isSome (.fail (.error .alreadyExists))
  let (_, parent) ← ofOption (.panic "internal error: entered unreachable code") parent
  requireWritable env parent .noWritePerms
  let _ ← addEntry env parent path .fifo (newFile ⟨mode, env.user, epoch, epoch⟩ true)
  pure ()

def symlink (target linkpath : Arg) : Prog InMem (Halt SymlinkError) Unit := do
  let target ← ofOption (.error (.pathError .invalidPathname)) target
  let linkpath ← atPath .pathError (absolutePath linkpath)
  let (linkpath, parent, entry) ← locate .pathError env linkpath
  when entry.isSome (.fail (.error .alreadyExists))
  let (_, parent) ← ofOption (.panic "internal error: entered unreachable code") parent
  requireWritable env parent .noWritePerms
  let _ ← addEntry env parent linkpath .symlink (newSymlink ⟨rwxu ||| rwxg ||| rwxo, env.user, env.now, env.now⟩ target)
  pure ()

def readLink (path : Arg) : Prog InMem (Halt ReadLinkError) Path := do
  let path ← atPath .pathError (absolutePath path)
  let entry ← find .pathError env path
  let s ← get
  match entry with
  | .symlink link => pure (s.symlinks link).target
  | _ => .fail (.error .notASymlink)

def mkdir (path : Arg) (mode : Mode) : Prog InMem (Halt MkdirError) Unit := do
  let path ← atPath .pathError (absolutePath path)
  let (path, parent, entry) ← locate .pathError env path
  let (_, parent) ← ofOption (.error .alreadyExists) parent
  when entry.isSome (.fail (.error .alreadyExists))
  requireWritable env parent .noWritePerms
  let _ ← addEntry env parent path .directory (newDir ⟨mode, env.user, env.now, env.now⟩)
  pure ()

def rmdir (path : Arg) : Prog InMem (Halt RmdirError) Unit := do
  let path ← atPath .pathError (absolutePath path)
  let (path, parent, entry) ← locate .pathError env path
  let (_, parent) ← ofOption (.error .busy) parent
  let entry ← ofOption (.error (.pathError .noSuchFileOrDirectory)) entry
  let dir ← ofOption (.error .notADirectory) (match entry with | .dir dir => some dir | _ => none)
  let s ← get
  when ((s.dirs dir).children.keys ≠ []) (.fail (.error .notEmpty))
  requireWritable env parent .noWritePerms
  touch env parent
  let removed ← removeChild parent path.lastName
  assert (removed = some .directory) "assertion failed: matches!(removed, ..)"
  let removed ← removeKey path
  let removed ← ofOption (.panic "called `Option::unwrap()` on a `None` value") removed
  assert removed.isDir "assertion failed: matches!(removed, ..)"

/-! ## Metadata -/

def permsOf (s : InMem) : Entry → Permissions
  | .file file => (s.files file).perms
  | .dir dir => (s.dirs dir).perms
  | .symlink link => (s.symlinks link).perms

def setPerms {ε : Type} (entry : Entry) (perms : Permissions) : Prog InMem (Halt ε) Unit :=
  match entry with
  | .file file => modifyFile file fun f => { f with perms }
  | .dir dir => modifyDir dir fun d => { d with perms }
  | .symlink link => .modify fun s => { s with symlinks := update s.symlinks link { s.symlinks link with perms } }

def chmod (path : Arg) (mode : Mode) : Prog InMem (Halt ChmodError) Unit := do
  let path ← atPath .pathError (absolutePath path)
  let entry ← find .pathError env path
  let s ← get
  let perms := s.permsOf entry
  when (¬perms.ownedBy env.user) (.fail (.error .notTheOwner))
  setPerms entry { perms with mode }

def chown (path : Arg) (user group : Option ℕ) : Prog InMem (Halt ChownError) Unit := do
  let path ← atPath .pathError (absolutePath path)
  let entry ← find .pathError env path
  let s ← get
  let perms := s.permsOf entry
  when (¬perms.ownedBy env.user) (.fail (.error .notTheOwner))
  setPerms entry { perms with userinfo := ⟨user.getD perms.userinfo.user, group.getD perms.userinfo.group⟩ }

def setTimes (path : Arg) (atime mtime : Option Timestamp) : Prog InMem (Halt SetTimesError) Unit := do
  let path ← atPath .pathError (absolutePath path)
  let entry ← find .pathError env path
  let s ← get
  let perms := s.permsOf entry
  when (¬(perms.ownedBy env.user ∨ perms.canWriteBy env.user)) (.fail (.error .notPermitted))
  setPerms entry { perms with atime := atime.getD perms.atime, mtime := mtime.getD perms.mtime }

def nodeInfo (id : ℕ) : NodeInfo := ⟨deviceId, id, none⟩

def statusOf (s : InMem) : Entry → FileStatus
  | .file id =>
    let f := s.files id
    ⟨if f.isFifo then .fifo else .regularFile, f.perms.mode, f.data.length, f.perms.userinfo, nodeInfo id, blockSize, f.perms.atime,
      f.perms.mtime, f.nlink⟩
  | .dir id =>
    let d := s.dirs id
    ⟨.directory, d.perms.mode, defaultDirectorySize, d.perms.userinfo, nodeInfo id, blockSize, d.perms.atime, d.perms.mtime, 1⟩
  | .symlink id =>
    let l := s.symlinks id
    ⟨.symlink, l.perms.mode, (("/".intercalate l.target).utf8ByteSize), l.perms.userinfo, nodeInfo id, blockSize, l.perms.atime,
      l.perms.mtime, 1⟩

def fileStatus (path : Arg) : Prog InMem (Halt FileStatusError) FileStatus := do
  let path ← atPath .pathError (absolutePath path)
  let entry ← find .pathError env path
  let s ← get
  pure (s.statusOf entry)

/-! ## Operations on descriptors -/

def setDescriptor {ε : Type} (fd : ℕ) (descriptor : Option Descriptor) : Prog InMem (Halt ε) Unit :=
  .modify fun s => { s with descriptors := update s.descriptors fd descriptor }

def insertDescriptor {ε : Type} (descriptor : Descriptor) : Prog InMem (Halt ε) ℕ := do
  let s ← get
  setDescriptor s.nextFd (some descriptor)
  modify fun s => { s with nextFd := s.nextFd + 1 }
  pure s.nextFd

def close {ε : Type} (fd : ℕ) : Prog InMem (Halt ε) Unit := setDescriptor fd none

/-- The data of a file with `buf` at a position, and zeros up to it. -/
def overwritten (data buf : List UInt8) (position : ℕ) : List UInt8 :=
  data.take position ++ List.replicate (position - data.length) 0 ++ buf ++ data.drop (position + buf.length)

/-- The data of a file cut or filled with zeros to a length. -/
def resized (data : List UInt8) (length : ℕ) : List UInt8 := data.take length ++ List.replicate (length - data.length) 0

def read (fd len : ℕ) (offset : Option ℕ) : Prog InMem (Halt ReadError) (List UInt8) := do
  let s ← get
  match s.descriptors fd with
  | none => .fail (.error .closedFd)
  | some (.dir _) => .fail (.error .notAFile)
  | some (.file file readAllowed writeAllowed position appendMode) => do
    when (¬readAllowed) (.fail (.error .notForReading))
    let start := offset.getD position
    when (usizeMax < start + len) (.fail (.panic "called `Option::unwrap()` on a `None` value"))
    let bytes := ((s.files file).data.drop start).take len
    when (offset = none) (setDescriptor fd (some (.file file readAllowed writeAllowed (position + bytes.length) appendMode)))
    pure bytes

def write (fd : ℕ) (buf : List UInt8) (offset : Option ℕ) : Prog InMem (Halt WriteError) ℕ := do
  let s ← get
  match s.descriptors fd with
  | none => .fail (.error .closedFd)
  | some (.dir _) => .fail (.error .notAFile)
  | some (.file file readAllowed writeAllowed position appendMode) => do
    when (¬writeAllowed) (.fail (.error .notForWriting))
    let data := (s.files file).data
    let start := if appendMode ∧ offset = none then data.length else offset.getD position
    when (usizeMax < start + buf.length) (.fail (.error .fileTooLarge))
    when (data.length < start + buf.length ∧ isizeMax < start + buf.length) (.fail (.error .fileTooLarge))
    modifyFile file fun f => { f with data := overwritten data buf start, perms := { f.perms with mtime := env.now } }
    when (offset = none) (setDescriptor fd (some (.file file readAllowed writeAllowed (start + buf.length) appendMode)))
    pure buf.length

def seek (fd : ℕ) (offset : ℤ) (whence : SeekWhence) : Prog InMem (Halt SeekError) ℕ := do
  let s ← get
  match s.descriptors fd with
  | none => .fail (.error .closedFd)
  | some (.dir _) => .fail (.error .notAFile)
  | some (.file file readAllowed writeAllowed position appendMode) => do
    when (¬readAllowed ∧ ¬writeAllowed) (.fail (.error .pathOnlyFd))
    let base := match whence with
      | .relativeToBeginning => 0
      | .relativeToCurrentOffset => position
      | .relativeToEnd => (s.files file).data.length
    let moved := (base : ℤ) + offset
    when (moved < 0 ∨ (usizeMax : ℤ) < moved) (.fail (.error .invalidOffset))
    setDescriptor fd (some (.file file readAllowed writeAllowed moved.toNat appendMode))
    pure moved.toNat

def truncate (fd length : ℕ) (resetOffset : Bool) : Prog InMem (Halt TruncateError) Unit := do
  let s ← get
  match s.descriptors fd with
  | none => .fail (.error .closedFd)
  | some (.dir _) => .fail (.error .isDirectory)
  | some (.file file readAllowed writeAllowed position appendMode) => do
    when (¬readAllowed ∧ ¬writeAllowed) (.fail (.error .pathOnlyFd))
    when (¬writeAllowed) (.fail (.error .notForWriting))
    let data := (s.files file).data
    when (data.length < length ∧ isizeMax < length) (.fail (.error .fileTooLarge))
    modifyFile file fun f => { f with data := resized data length, perms := { f.perms with mtime := env.now } }
    when resetOffset (setDescriptor fd (some (.file file readAllowed writeAllowed 0 appendMode)))

def chmodFd (fd : ℕ) (mode : Mode) : Prog InMem (Halt ChmodError) Unit := do
  let s ← get
  let descriptor ← ofOption (.error .io) (s.descriptors fd)
  let perms := s.permsOf descriptor.entry
  when (¬perms.ownedBy env.user) (.fail (.error .notTheOwner))
  setPerms descriptor.entry { perms with mode }

def fdFileStatus (fd : ℕ) : Prog InMem (Halt FileStatusError) FileStatus := do
  let s ← get
  let descriptor ← ofOption (.error .closedFd) (s.descriptors fd)
  pure (s.statusOf descriptor.entry)

/-- The node of the entry at a key. -/
def nodeAt (s : InMem) (key : Path) : Option NodeInfo :=
  (s.entries.lookup key).map fun
    | .file id => nodeInfo id
    | .dir id => nodeInfo id
    | .symlink id => nodeInfo id

def readDir (fd : ℕ) : Prog InMem (Halt ReadDirError) (List DirEntry) := do
  let s ← get
  match s.descriptors fd with
  | none => .fail (.error .closedFd)
  | some (.file ..) => .fail (.error .notADirectory)
  | some (.dir dir) =>
    let path := ((s.entries.entries.find? fun entry => entry.2 = .dir dir).map (·.1)).getD [""]
    pure (⟨".", .directory, some (nodeInfo dir)⟩ :: ⟨"..", .directory, s.nodeAt path⟩ ::
      (s.dirs dir).children.entries.map fun child => ⟨child.1, child.2, s.nodeAt (path ++ [child.1])⟩)

/-! ## Opening -/

/-- The entry for an `open` with `O_CREAT`: the one that is there, or a new file. The flags lose `O_DIRECTORY` for a new file. -/
def openOrCreate (path : Path) (flags : OFlags) (mode : Mode) : Prog InMem (Halt OpenError) (Entry × Bool × OFlags) := do
  let (path, parent, entry) ← locate .pathError env path
  match entry with
  | some entry => do
    when (contains flags excl) (.fail (.error .alreadyExists))
    pure (entry, false, flags)
  | none => do
    let (_, parent) ← ofOption (.panic "internal error: entered unreachable code") parent
    requireWritable env parent .noWritePerms
    let entry ← addEntry env parent path .regularFile (newFile ⟨mode, env.user, env.now, env.now⟩ false)
    pure (entry, true, without flags directory)

def openExisting (path : Path) (flags : OFlags) : Prog InMem (Halt OpenError) (Entry × Bool × OFlags) := do
  let entry ← find .pathError env path
  pure (entry, false, flags)

/-- The entry that an `open` is about, whether it was created, and the flags that are left. -/
def openEntry (path : Path) (flags : OFlags) (mode : Mode) : Prog InMem (Halt OpenError) (Entry × Bool × OFlags) :=
  if contains flags creat then openOrCreate env path flags mode
  else if contains flags nofollow then openExisting env path flags
  else do
    let s ← get
    let path ← atPath .pathError (s.resolveFinalSymlinks env.user maxSymlinkHops path)
    openExisting env path flags

def makeDescriptor (entry : Entry) (flags : OFlags) (readAllowed writeAllowed : Bool) : Prog InMem (Halt OpenError) ℕ :=
  match entry with
  | .file file => do
    when (contains flags directory) (.fail (.error (.pathError .componentNotADirectory)))
    insertDescriptor (.file file readAllowed writeAllowed 0 (contains flags append))
  | .dir dir => insertDescriptor (.dir dir)
  | .symlink _ => .fail (.error (.pathError .tooManySymlinkHops))

/-- Truncates the file that was just opened, and closes it again if that fails. -/
def truncateOpened (fd : ℕ) : Prog InMem (Halt OpenError) Unit := do
  let result ← (truncate env fd 0 true).attempt
  match result with
  | .ok () => pure ()
  | .error halt => do
    close fd
    .fail (halt.map .truncateError)

def openPath (path : Arg) (flags : OFlags) (mode : Mode) : Prog InMem (Halt OpenError) ℕ := do
  when (intersects flags (~~~supported)) (.fail (.error (.pathError .invalidPathname)))
  let path ← atPath .pathError (absolutePath path)
  let (entry, created, flags) ← openEntry env path flags mode
  let s ← get
  let pathOnly := contains flags pathOnly
  let accessMode := flags &&& (wronly ||| rdwr)
  let readAllowed := !pathOnly && (accessMode == rdonly || accessMode == rdwr)
  let writeAllowed := !pathOnly && (accessMode == wronly || accessMode == rdwr)
  when (readAllowed ∧ ¬created ∧ ¬(s.permsOf entry).canReadBy env.user) (.fail (.error .accessNotAllowed))
  when (writeAllowed ∧ ¬created ∧ ¬(s.permsOf entry).canWriteBy env.user) (.fail (.error .accessNotAllowed))
  let fd ← makeDescriptor entry flags readAllowed writeAllowed
  when (contains flags trunc) (truncateOpened env fd)
  pure fd

end InMem

end LiteBox.Fs
