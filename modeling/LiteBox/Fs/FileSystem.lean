import LiteBox.Fs.InMem

/-! # File systems

The trait that every file system implements, as far as the code over it calls it, and the in-memory file system as
one of them.
-/

namespace LiteBox.Fs

/-- There is no error of `close` yet. -/
inductive CloseError

/-- A file system over states `σ`. -/
structure FileSystem (σ : Type) where
  openPath : Env → Arg → OFlags → Mode → Prog σ (Halt OpenError) ℕ
  close : ℕ → Prog σ (Halt CloseError) Unit
  read : ℕ → ℕ → Option ℕ → Prog σ (Halt ReadError) (List UInt8)
  write : Env → ℕ → List UInt8 → Option ℕ → Prog σ (Halt WriteError) ℕ
  truncate : Env → ℕ → ℕ → Bool → Prog σ (Halt TruncateError) Unit
  chmod : Env → Arg → Mode → Prog σ (Halt ChmodError) Unit
  chown : Env → Arg → Option ℕ → Option ℕ → Prog σ (Halt ChownError) Unit
  unlink : Env → Arg → Prog σ (Halt UnlinkError) Unit
  symlink : Env → Arg → Arg → Prog σ (Halt SymlinkError) Unit
  readLink : Env → Arg → Prog σ (Halt ReadLinkError) Path
  makeFifo : Env → Arg → Mode → Prog σ (Halt MkdirError) Unit
  mkdir : Env → Arg → Mode → Prog σ (Halt MkdirError) Unit
  rmdir : Env → Arg → Prog σ (Halt RmdirError) Unit
  readDir : ℕ → Prog σ (Halt ReadDirError) (List DirEntry)
  fileStatus : Env → Arg → Prog σ (Halt FileStatusError) FileStatus

namespace InMem

def fileSystem : FileSystem InMem where
  openPath := openPath
  close := close
  read := read
  write := write
  truncate := truncate
  chmod := chmod
  chown := chown
  unlink := unlink
  symlink := symlink
  readLink := readLink
  makeFifo := makeFifo
  mkdir := mkdir
  rmdir := rmdir
  readDir := readDir
  fileStatus := fileStatus

end InMem

end LiteBox.Fs
