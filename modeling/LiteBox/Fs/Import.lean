import LiteBox.Fs.FileSystem
import LiteBox.Fs.Merge

/-! # Importing a file

`import_file` writes one regular file of an archive into a file system, whole or as a patch.
-/

namespace LiteBox.Fs

open Mm (usizeMax)

inductive ImportError where
  | mkdir
  | makeFifo
  | symlink
  | opened (path : Path) (error : OpenError)
  | write
  | close
deriving DecidableEq

namespace FileSystem

variable {σ : Type} (fs : FileSystem σ) (env : Env)

/-- The loop that writes the contents, from a position on or at the descriptor's own. A file system that writes nothing ends it.
Every round writes a byte, so `fuel` rounds are enough for as many bytes. -/
def writeAll (fd : ℕ) (contents : List UInt8) (position : Option ℕ) : ℕ → ℕ → Prog σ (Halt ImportError) (Except ImportError Unit)
  | 0, _ => pure (.ok ())
  | fuel + 1, written =>
    if written < contents.length then do
      Prog.when (usizeMax < position.getD 0 + written) (.fail (.panic "attempt to add with overflow"))
      let wrote ← (fs.write env fd (contents.drop written) (position.map (· + written))).tried
      match wrote with
      | .ok 0 => pure (.ok ())
      | .ok count => writeAll fd contents position fuel (written + count)
      | .error _ => pure (.error .write)
    else pure (.ok ())

/-- The file opened for its payload, and whether its mode must be restored. -/
def openForImport (path : Path) (mode : Mode) (flags : OFlags) : Prog σ (Halt ImportError) (ℕ × Bool) := do
  let opened ← (fs.openPath env (some path) flags mode).tried
  match opened with
  | .ok fd => pure (fd, false)
  | .error .accessNotAllowed => do
    (fs.chmod env (some path) (mode ||| Mode.wusr)).mapError (Halt.map fun _ => .opened path .accessNotAllowed)
    let fd ← (fs.openPath env (some path) flags mode).mapError (Halt.map fun error => .opened path error)
    pure (fd, true)
  | .error error => .fail (.error (.opened path error))

/-- A step after which the import goes on only if there was no error so far. -/
def unlessFailed (result : Except ImportError Unit) (next : Prog σ (Halt ImportError) (Except ImportError Unit)) :
    Prog σ (Halt ImportError) (Except ImportError Unit) :=
  match result with
  | .ok () => next
  | .error error => pure (.error error)

/-- `truncate`, with its error as that of a write. -/
def truncateTo (fd length : ℕ) : Prog σ (Halt ImportError) (Except ImportError Unit) := do
  let truncated ← (fs.truncate env fd length true).tried
  match truncated with
  | .ok () => pure (.ok ())
  | .error _ => pure (.error .write)

/-- Extends a file that was written up to some position. -/
def extendFrom (fd written : ℕ) : Option ℕ → Prog σ (Halt ImportError) (Except ImportError Unit)
  | none => pure (.ok ())
  | some finalLen => do
    Prog.when (usizeMax < written) (.fail (.panic "attempt to add with overflow"))
    if written < finalLen then fs.truncateTo env fd finalLen else pure (.ok ())

/-- Applies a patch at a position, in a file that has some length now, and then extends the file. -/
def patchAt (fd : ℕ) (contents : List UInt8) (existingLen position : ℕ) (extendTo : Option ℕ) :
    Prog σ (Halt ImportError) (Except ImportError Unit) := do
  let result ← (if existingLen < position then fs.truncateTo env fd position else pure (.ok ()))
  let result ← unlessFailed result (fs.writeAll env fd contents (some position) contents.length 0)
  unlessFailed result (fs.extendFrom env fd (position + contents.length) extendTo)

/-- Writes the payload into an open file that has some length now. -/
def writePayload (fd : ℕ) (contents : List UInt8) (existingLen : ℕ) :
    MergeSpec → Prog σ (Halt ImportError) (Except ImportError Unit)
  | .whole => fs.writeAll env fd contents none contents.length 0
  | .append base => fs.patchAt env fd contents existingLen (max existingLen base) none
  | .range offset finalLen => fs.patchAt env fd contents existingLen offset (some finalLen)

/-- A failed close is reported only when nothing failed before it. -/
def withClose : Except CloseError Unit → Except ImportError Unit → Except ImportError Unit
  | .error _, .ok () => .error .close
  | _, result => result

def importFile (path : Path) (mode : Mode) (contents : List UInt8) (merge : MergeSpec) : Prog σ (Halt ImportError) Unit := do
  let flags := OFlags.wronly ||| OFlags.creat ||| if merge = .whole then OFlags.trunc else 0
  let (fd, restoreMode) ← fs.openForImport env path mode flags
  let status ← (fs.fileStatus env (some path)).tried
  let existingLen := match status with
    | .ok status => status.size
    | .error _ => 0
  let result ← fs.writePayload env fd contents existingLen merge
  let closed ← (fs.close fd).tried
  Prog.when restoreMode do
    let _ ← (fs.chmod env (some path) mode).tried
    pure ()
  .ofExcept ((withClose closed result).mapError Halt.error)

end FileSystem

end LiteBox.Fs
