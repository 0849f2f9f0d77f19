import LiteBox.Mm.Basic

/-! # Paths, flags and errors of file systems

The text of a path is modelled by what stands between its slashes: `/a/b` is `["", "a", "b"]`, and the empty
text is `[""]`.
-/

namespace LiteBox.Fs

open List

/-! ## Paths -/

abbrev Path := List String

/-- A path as a caller passes it; `none` stands for a C string that is not UTF-8. -/
abbrev Arg := Option Path

namespace Path

/-- `starts_with('/')`. -/
def isAbsolute : Path → Bool
  | "" :: _ :: _ => true
  | _ => false

/-- The part before the last slash, `rsplit_once('/')`, or the empty text. -/
def dirname (path : Path) : Path := if path.length < 2 then [""] else path.dropLast

/-- `trim_start_matches('/')`. -/
def trimSlashes : Path → Path
  | "" :: name :: rest => trimSlashes (name :: rest)
  | path => path

/-- `components().last()`. -/
def lastName (path : Path) : String := path.getLastD ""

/-- Goes through the components from the last one; `parents` counts the `..` that still cancel a name. -/
def normalizedRev (parents : ℕ) : List String → List String × ℕ
  | [] => ([], parents)
  | name :: rest =>
    if name = "" ∨ name = "." then normalizedRev parents rest
    else if name = ".." then normalizedRev (parents + 1) rest
    else if 0 < parents then normalizedRev (parents - 1) rest
    else
      let (kept, left) := normalizedRev parents rest
      (name :: kept, left)

def normalizedComponents (path : Path) : List String :=
  let (kept, parents) := normalizedRev 0 path.reverse
  (kept ++ List.replicate parents ".." ++ if path.isAbsolute then [""] else []).reverse

def normalized (path : Path) : Path :=
  match path.normalizedComponents with
  | [] => [""]
  | components => components

/-- A component that a normalized path keeps. -/
def IsName (name : String) : Prop := name ≠ "" ∧ name ≠ "." ∧ name ≠ ".."

instance : DecidablePred IsName := fun _ => inferInstanceAs (Decidable (_ ∧ _))

theorem normalizedRev_spec (components : List String) (parents : ℕ) : ∀ name ∈ (normalizedRev parents components).1, IsName name := by
  induction components generalizing parents with
  | nil => simp [normalizedRev]
  | cons first rest ih =>
    unfold normalizedRev
    split_ifs with dot up cancels
    · exact ih parents
    · exact ih _
    · exact ih _
    · intro name mem
      rcases mem_cons.mp mem with rfl | mem
      · exact ⟨fun empty => dot (.inl empty), fun same => dot (.inr same), up⟩
      · exact ih _ name mem

/-- The components after normalization: the ignored ones, then names. -/
theorem normalizedComponents_eq (path : Path) : ∃ lead names, path.normalizedComponents = lead ++ names ∧
    (∀ component ∈ lead, component = "" ∨ component = "..") ∧ ∀ name ∈ names, IsName name := by
  refine ⟨(List.replicate (normalizedRev 0 path.reverse).2 ".." ++ if path.isAbsolute then [""] else []).reverse,
    (normalizedRev 0 path.reverse).1.reverse, ?_, ?_, ?_⟩
  · simp [normalizedComponents]
  · intro component mem
    rcases mem_append.mp (mem_reverse.mp mem) with mem | mem
    · exact .inr (eq_of_mem_replicate mem)
    · split at mem
      · exact .inl (mem_singleton.mp mem)
      · cases mem
  · exact fun name mem => normalizedRev_spec _ _ name (mem_reverse.mp mem)

theorem normalizedRev_names {names : List String} (all : ∀ name ∈ names, IsName name) (rest : List String) :
    normalizedRev 0 (names ++ rest) = (names ++ (normalizedRev 0 rest).1, (normalizedRev 0 rest).2) := by
  induction names with
  | nil => rfl
  | cons first names ih =>
    obtain ⟨⟨filled, dot, up⟩, all⟩ := forall_mem_cons.mp all
    rw [cons_append, normalizedRev]
    simp [filled, dot, up, ih all]

/-- An absolute path of names is normal. -/
theorem normalizedComponents_names {names : List String} (all : ∀ name ∈ names, IsName name) (some : names ≠ []) :
    normalizedComponents ("" :: names) = "" :: names := by
  have absolute : isAbsolute ("" :: names) = true := by
    cases names with
    | nil => exact absurd rfl some
    | cons => rfl
  have kept := @normalizedRev_names names.reverse (by simpa using all) [""]
  simp only [normalizedComponents, reverse_cons, kept, absolute]
  simp [normalizedRev]

end Path

/-! ## Modes and flags -/

/-- The permission bits, `S_I*`. -/
abbrev Mode := BitVec 32

namespace Mode

def rwxu : Mode := 0o700
def rusr : Mode := 0o400
def wusr : Mode := 0o200
def xusr : Mode := 0o100
def rwxg : Mode := 0o070
def rgrp : Mode := 0o040
def wgrp : Mode := 0o020
def xgrp : Mode := 0o010
def rwxo : Mode := 0o007
def roth : Mode := 0o004
def woth : Mode := 0o002
def xoth : Mode := 0o001

end Mode

/-- The flags of an `open`, `O_*`, as on x86-64. -/
abbrev OFlags := BitVec 32

namespace OFlags

def rdonly : OFlags := 0x0
def wronly : OFlags := 0x1
def rdwr : OFlags := 0x2
def creat : OFlags := 0x40
def excl : OFlags := 0x80
def noctty : OFlags := 0x100
def trunc : OFlags := 0x200
def append : OFlags := 0x400
def nonblock : OFlags := 0x800
def dsync : OFlags := 0x1000
def async : OFlags := 0x2000
def direct : OFlags := 0x4000
def largefile : OFlags := 0x8000
def directory : OFlags := 0x10000
def nofollow : OFlags := 0x20000
def noatime : OFlags := 0x40000
def cloexec : OFlags := 0x80000
def sync : OFlags := 0x101000
def pathOnly : OFlags := 0x200000

/-- The flags that an `open` takes; any other one is refused. -/
def supported : OFlags :=
  creat ||| rdonly ||| wronly ||| rdwr ||| excl ||| trunc ||| noctty ||| directory ||| nonblock ||| largefile |||
    nofollow ||| append ||| noatime ||| dsync ||| sync ||| direct ||| async ||| cloexec ||| pathOnly

end OFlags

/-- `contains` of the flag types. -/
def contains (flags flag : BitVec 32) : Bool := flags &&& flag == flag

/-- `intersects` of the flag types. -/
def intersects (flags other : BitVec 32) : Bool := flags &&& other != 0

/-- `remove` of the flag types. -/
def without (flags flag : BitVec 32) : BitVec 32 := flags &&& ~~~flag

/-! ## Records -/

inductive FileType where
  | regularFile
  | directory
  | characterDevice
  | symlink
  | fifo
deriving DecidableEq, Repr

inductive SeekWhence where
  | relativeToBeginning
  | relativeToCurrentOffset
  | relativeToEnd
deriving DecidableEq

structure UserInfo where
  (user group : ℕ)
deriving DecidableEq, Repr

namespace UserInfo

def root : UserInfo := ⟨0, 0⟩

end UserInfo

structure Timestamp where
  sec : ℤ
  nsec : ℕ
deriving DecidableEq, Repr

structure NodeInfo where
  (dev ino : ℕ)
  rdev : Option ℕ
deriving DecidableEq, Repr

structure FileStatus where
  fileType : FileType
  mode : Mode
  size : ℕ
  owner : UserInfo
  nodeInfo : NodeInfo
  blksize : ℕ
  (atime mtime : Timestamp)
  nlink : ℕ
deriving DecidableEq, Repr

structure DirEntry where
  name : String
  fileType : FileType
  inoInfo : Option NodeInfo
deriving DecidableEq, Repr

def defaultDirectorySize : ℕ := 4096

/-- Who makes a call, and the time it reads. -/
structure Env where
  user : UserInfo
  now : Timestamp

/-! ## Errors -/

inductive PathError where
  | noSuchFileOrDirectory
  | noSearchPerms
  | invalidPathname
  | missingComponent
  | componentNotADirectory
  | tooManySymlinkHops
deriving DecidableEq, Repr

inductive TruncateError where
  | closedFd
  | isDirectory
  | notForWriting
  | isTerminalDevice
  | pathOnlyFd
  | fileTooLarge
  | io
deriving DecidableEq, Repr

inductive OpenError where
  | accessNotAllowed
  | noWritePerms
  | readOnlyFileSystem
  | alreadyExists
  | truncateError (error : TruncateError)
  | io
  | pathError (error : PathError)
deriving DecidableEq, Repr

inductive ReadError where
  | closedFd
  | notAFile
  | notForReading
  | io
deriving DecidableEq, Repr

inductive WriteError where
  | closedFd
  | notAFile
  | notForWriting
  | permissionDenied
  | fileTooLarge
  | io
deriving DecidableEq, Repr

inductive SeekError where
  | closedFd
  | notAFile
  | invalidOffset
  | nonSeekable
  | pathOnlyFd
  | io
deriving DecidableEq, Repr

inductive ChmodError where
  | notTheOwner
  | readOnlyFileSystem
  | io
  | pathError (error : PathError)
deriving DecidableEq, Repr

inductive ChownError where
  | notTheOwner
  | readOnlyFileSystem
  | io
  | pathError (error : PathError)
deriving DecidableEq, Repr

inductive SetTimesError where
  | notPermitted
  | readOnlyFileSystem
  | io
  | pathError (error : PathError)
deriving DecidableEq, Repr

inductive UnlinkError where
  | noWritePerms
  | isADirectory
  | readOnlyFileSystem
  | io
  | pathError (error : PathError)
deriving DecidableEq, Repr

inductive RenameError where
  | noWritePerms
  | isADirectory
  | destinationIsADirectory
  | crossDevice
  | readOnlyFileSystem
  | io
  | pathError (error : PathError)
deriving DecidableEq, Repr

inductive LinkError where
  | noWritePerms
  | isADirectory
  | alreadyExists
  | crossDevice
  | readOnlyFileSystem
  | io
  | pathError (error : PathError)
deriving DecidableEq, Repr

inductive SymlinkError where
  | noWritePerms
  | alreadyExists
  | readOnlyFileSystem
  | io
  | pathError (error : PathError)
deriving DecidableEq, Repr

inductive ReadLinkError where
  | notASymlink
  | io
  | pathError (error : PathError)
deriving DecidableEq, Repr

inductive MkdirError where
  | noWritePerms
  | alreadyExists
  | readOnlyFileSystem
  | io
  | pathError (error : PathError)
deriving DecidableEq, Repr

inductive RmdirError where
  | noWritePerms
  | busy
  | notEmpty
  | notADirectory
  | readOnlyFileSystem
  | io
  | pathError (error : PathError)
deriving DecidableEq, Repr

inductive ReadDirError where
  | closedFd
  | notADirectory
  | pathOnlyFd
  | io
deriving DecidableEq, Repr

inductive FileStatusError where
  | closedFd
  | io
  | pathError (error : PathError)
deriving DecidableEq, Repr

end LiteBox.Fs
