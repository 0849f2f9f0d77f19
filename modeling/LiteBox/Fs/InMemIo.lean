import LiteBox.Fs.InMem
import LiteBox.Lib.Run
import LiteBox.Lib.Sparse

/-! # File input and output

The bytes of the files and the offsets of the descriptors, against a reference where a file is an array with
holes. `read` panics when the end of its range is past the largest address, and a `write` of no bytes still
moves the end of the file up to where it writes.
-/

namespace LiteBox.Fs

open Function List Prog Halt

open Mm (usizeMax isizeMax)
open Run

/-! ## The reference -/

inductive Request where
  | read (fd len : ℕ) (offset : Option ℕ)
  | write (fd : ℕ) (buf : List UInt8) (offset : Option ℕ)
  | seek (fd : ℕ) (offset : ℤ) (whence : SeekWhence)
  | truncate (fd length : ℕ) (resetOffset : Bool)

inductive Answer where
  | bytes (bytes : List UInt8)
  | count (count : ℕ)
  | offset (offset : ℕ)
  | done
deriving DecidableEq

inductive IoError where
  | read (error : ReadError)
  | write (error : WriteError)
  | seek (error : SeekError)
  | truncate (error : TruncateError)
deriving DecidableEq

structure Posix where
  files : ℕ → Sparse UInt8
  descriptors : ℕ → Option Descriptor

namespace Posix

variable (p : Posix)

def setDescriptor (fd : ℕ) (descriptor : Descriptor) : Posix :=
  { p with descriptors := update p.descriptors fd (some descriptor) }

def setFile (file : ℕ) (array : Sparse UInt8) : Posix := { p with files := update p.files file array }

def read (fd len : ℕ) (offset : Option ℕ) : Except ReadError (List UInt8) × Posix :=
  match p.descriptors fd with
  | none => (.error .closedFd, p)
  | some (.dir _) => (.error .notAFile, p)
  | some (.file file readAllowed writeAllowed position appendMode) =>
    if ¬readAllowed then (.error .notForReading, p)
    else
      let bytes := (p.files file).read (offset.getD position) len
      (.ok bytes,
        if offset = none then p.setDescriptor fd (.file file readAllowed writeAllowed (position + bytes.length) appendMode) else p)

/-- A write of no bytes has no effect. One that makes a file longer than an allocation can be fails. -/
def write (fd : ℕ) (buf : List UInt8) (offset : Option ℕ) : Except WriteError ℕ × Posix :=
  match p.descriptors fd with
  | none => (.error .closedFd, p)
  | some (.dir _) => (.error .notAFile, p)
  | some (.file file readAllowed writeAllowed position appendMode) =>
    if ¬writeAllowed then (.error .notForWriting, p)
    else if buf = [] then (.ok 0, p)
    else
      let start := if appendMode ∧ offset = none then (p.files file).length else offset.getD position
      if (p.files file).length < start + buf.length ∧ isizeMax < start + buf.length then (.error .fileTooLarge, p)
      else
        let p := p.setFile file ((p.files file).write start buf)
        (.ok buf.length,
          if offset = none then p.setDescriptor fd (.file file readAllowed writeAllowed (start + buf.length) appendMode) else p)

def seek (fd : ℕ) (offset : ℤ) (whence : SeekWhence) : Except SeekError ℕ × Posix :=
  match p.descriptors fd with
  | none => (.error .closedFd, p)
  | some (.dir _) => (.error .notAFile, p)
  | some (.file file readAllowed writeAllowed position appendMode) =>
    if ¬readAllowed ∧ ¬writeAllowed then (.error .pathOnlyFd, p)
    else
      let base := match whence with
        | .relativeToBeginning => 0
        | .relativeToCurrentOffset => position
        | .relativeToEnd => (p.files file).length
      let moved := (base : ℤ) + offset
      if moved < 0 ∨ (usizeMax : ℤ) < moved then (.error .invalidOffset, p)
      else (.ok moved.toNat, p.setDescriptor fd (.file file readAllowed writeAllowed moved.toNat appendMode))

def truncate (fd length : ℕ) (resetOffset : Bool) : Except TruncateError Unit × Posix :=
  match p.descriptors fd with
  | none => (.error .closedFd, p)
  | some (.dir _) => (.error .isDirectory, p)
  | some (.file file readAllowed writeAllowed _ appendMode) =>
    if ¬readAllowed ∧ ¬writeAllowed then (.error .pathOnlyFd, p)
    else if ¬writeAllowed then (.error .notForWriting, p)
    else if (p.files file).length < length ∧ isizeMax < length then (.error .fileTooLarge, p)
    else
      let p := p.setFile file ((p.files file).resize length)
      (.ok (), if resetOffset then p.setDescriptor fd (.file file readAllowed writeAllowed 0 appendMode) else p)

/-- An outcome as an answer to a request. -/
def answering {ε α : Type} (answer : α → Answer) (error : ε → IoError) (outcome : Except ε α × Posix) : Except IoError Answer × Posix :=
  (match outcome.1 with
    | .ok value => .ok (answer value)
    | .error failure => .error (error failure), outcome.2)

def serve : Request → Except IoError Answer × Posix
  | .read fd len offset => answering .bytes .read (p.read fd len offset)
  | .write fd buf offset => answering .count .write (p.write fd buf offset)
  | .seek fd offset whence => answering .offset .seek (p.seek fd offset whence)
  | .truncate fd length resetOffset => answering (fun _ => .done) .truncate (p.truncate fd length resetOffset)

/-- The answers to requests made one after another. -/
def answers : Posix → List Request → List (Except IoError Answer)
  | _, [] => []
  | p, request :: rest => (p.serve request).1 :: answers (p.serve request).2 rest

def after (requests : List Request) : Posix := run (fun p request => (p.serve request).2) p requests

end Posix

namespace InMem

variable {s t : InMem} {env : Env}

/-! ## Bytes -/

variable (data buf : List UInt8)

theorem length_overwritten (start : ℕ) :
    (overwritten data buf start).length = max data.length (start + buf.length) := by
  simp only [overwritten, length_append, length_take, length_replicate, length_drop]
  omega

/-- What stands where after a write. -/
theorem getD_overwritten (start i : ℕ) : (overwritten data buf start).getD i 0 =
    if start ≤ i ∧ i < start + buf.length then buf.getD (i - start) 0 else data.getD i 0 := by
  have head : (data.take start ++ List.replicate (start - data.length) 0).length = start := by
    simp only [length_append, length_take, length_replicate]
    omega
  simp only [getD_eq_getElem?_getD, overwritten]
  by_cases before : i < start
  · rw [if_neg (by omega), append_assoc, getElem?_append_left (by omega)]
    by_cases inside : i < data.length
    · rw [getElem?_append_left (by simp; omega), getElem?_take_of_lt before]
    · rw [getElem?_append_right (by simp; omega), getElem?_eq_none (by omega : data.length ≤ i)]
      rw [getElem?_replicate]
      split_ifs <;> rfl
  · rw [append_assoc, getElem?_append_right (by omega), head]
    by_cases inside : i < start + buf.length
    · rw [if_pos (by omega), getElem?_append_left (by omega)]
    · rw [if_neg (by omega), getElem?_append_right (by omega), getElem?_drop]
      congr 2
      omega

theorem ofList_overwritten (start : ℕ) (some : buf ≠ []) :
    Sparse.ofList (overwritten data buf start) = (Sparse.ofList data).write start buf := by
  cases buf with
  | nil => exact absurd rfl some
  | cons first rest =>
    refine Sparse.ext (length_overwritten data _ start) ?_
    funext i
    exact getD_overwritten data _ start i

/-- A write of no bytes inside the file. -/
theorem overwritten_nil {data : List UInt8} {start : ℕ} (inside : start ≤ data.length) : overwritten data [] start = data := by
  simp [overwritten, Nat.sub_eq_zero_of_le inside]

theorem length_resized (data : List UInt8) (length : ℕ) : (resized data length).length = length := by
  simp only [resized, length_append, length_take, length_replicate]
  omega

theorem ofList_resized (data : List UInt8) (length : ℕ) : Sparse.ofList (resized data length) = (Sparse.ofList data).resize length := by
  refine Sparse.ext (length_resized data length) ?_
  funext i
  simp only [Sparse.cell_ofList, Sparse.resize, resized, getD_eq_getElem?_getD]
  split_ifs with within
  · by_cases inside : i < data.length
    · rw [getElem?_append_left (by simp; omega), getElem?_take_of_lt within]
    · rw [getElem?_append_right (by simp; omega), getElem?_eq_none (by omega : data.length ≤ i), getElem?_replicate]
      split_ifs <;> rfl
  · rw [getElem?_eq_none]
    · rfl
    · simp only [length_append, length_take, length_replicate]
      omega

/-! ## One request -/

/-- The files and offsets of a state. -/
def posix (s : InMem) : Posix := ⟨fun file => .ofList (s.files file).data, s.descriptors⟩

/-- An outcome of the file system as an answer to a request. -/
def answering {ε α : Type} (answer : α → Answer) (error : ε → IoError) (program : Prog InMem (Halt ε) α) : Prog InMem (Halt IoError) Answer :=
  (program >>= fun value => pure (answer value)).mapError (map error)

def serve (env : Env) : Request → Prog InMem (Halt IoError) Answer
  | .read fd len offset => answering .bytes .read (read fd len offset)
  | .write fd buf offset => answering .count .write (write env fd buf offset)
  | .seek fd offset whence => answering .offset .seek (seek fd offset whence)
  | .truncate fd length resetOffset => answering (fun _ => .done) .truncate (truncate env fd length resetOffset)

/-- Every file fits into an allocation. -/
def Fits (s : InMem) : Prop := ∀ file, (s.files file).data.length ≤ isizeMax

/-- A program and its reference end alike from a state. -/
structure Matches {ε α : Type} (s : InMem) (program : Prog InMem (Halt ε) α) (outcome : Except ε α × Posix) : Prop where
  result : (program s).1 = outcome.1.mapError error
  state : (program s).2.posix = outcome.2
  fits : (program s).2.Fits

theorem Matches.answering {ε α : Type} {program : Prog InMem (Halt ε) α} {outcome : Except ε α × Posix} (answer : α → Answer)
    (error : ε → IoError) (same : Matches s program outcome) :
    Matches s (InMem.answering answer error program) (Posix.answering answer error outcome) := by
  obtain ⟨result, state, fits⟩ := same
  unfold InMem.answering Posix.answering
  obtain ⟨value, t⟩ := outcome
  rcases ran : program s with ⟨result', s'⟩
  rw [ran] at result state fits
  obtain rfl : result' = _ := result
  cases value with
  | error failure => refine ⟨?_, ?_, ?_⟩ <;> simp [mapError, bind_apply, ran, Except.mapError, Halt.map, state, fits]
  | ok value => refine ⟨?_, ?_, ?_⟩ <;> simp [mapError, bind_apply, ran, Except.mapError, state, fits]

/-- What a request needs so that it has the effect of its reference: the range of a read ends at an address, and a write of no bytes
is inside the file, at the descriptor's own offset. -/
def Meets (s : InMem) : Request → Prop
  | .read fd len offset =>
    match s.descriptors fd with
    | some (.file _ true _ position _) => offset.getD position + len ≤ usizeMax
    | _ => True
  | .write fd [] offset =>
    match s.descriptors fd with
    | some (.file file _ true position appendMode) =>
      if appendMode ∧ offset = none then position = (s.files file).data.length else offset.getD position ≤ (s.files file).data.length
    | _ => True
  | _ => True

theorem posix_setFile (file : ℕ) (f : FileX) :
    posix { s with files := update s.files file f } = s.posix.setFile file (.ofList f.data) := by
  unfold posix Posix.setFile
  congr 1
  funext other
  by_cases same : other = file
  · subst same
    simp
  · simp [same]

theorem Fits.setFile (fits : s.Fits) {file : ℕ} {f : FileX} (small : f.data.length ≤ isizeMax) :
    Fits { s with files := update s.files file f } := by
  intro other
  by_cases same : other = file
  · subst same
    simpa using small
  · simpa [same] using fits other

section Ends

variable {ε α : Type} {outcome : Except ε α × Posix}

theorem Matches.read {next : InMem → Prog InMem (Halt ε) α} (same : Matches s (next s) outcome) : Matches s (Prog.get >>= next) outcome :=
  ⟨same.result, same.state, same.fits⟩

theorem Matches.modify {change : InMem → InMem} {next : Unit → Prog InMem (Halt ε) α} (same : Matches (change s) (next ()) outcome) :
    Matches s (Prog.modify change >>= next) outcome :=
  ⟨same.result, same.state, same.fits⟩

variable {condition : Prop}

theorem Matches.stop [Decidable condition] {failure : ε} {next : Unit → Prog InMem (Halt ε) α} (fails : condition)
    (fits : s.Fits) : Matches s (when condition (.fail (.error failure)) >>= next) (.error failure, s.posix) := by
  rw [when, if_pos fails]
  exact ⟨rfl, rfl, fits⟩

/-- A check that fails in both or in neither. -/
theorem Matches.check [Decidable condition] {failure : ε} {next : Prog InMem (Halt ε) α} {otherwise : Except ε α × Posix}
    (fits : s.Fits) (same : ¬condition → Matches s next otherwise) :
    Matches s (when condition (.fail (.error failure)) >>= fun _ => next)
      (if condition then (.error failure, s.posix) else otherwise) := by
  by_cases fails : condition
  · rw [if_pos fails]
    exact .stop fails fits
  · obtain ⟨result, state, fits⟩ := same fails
    rw [when, if_neg fails, if_neg fails]
    exact ⟨result, state, fits⟩

/-- A check that does not fail. -/
theorem Matches.pass [Decidable condition] {failure : Halt ε} {next : Prog InMem (Halt ε) α}
    (passes : ¬condition) (same : Matches s next outcome) :
    Matches s (when condition (.fail failure) >>= fun _ => next) outcome := by
  obtain ⟨result, state, fits⟩ := same
  rw [when, if_neg passes]
  exact ⟨result, state, fits⟩

/-- The end of a request, which may set an offset. -/
theorem Matches.moves [Decidable condition] (fits : s.Fits) (fd : ℕ) (descriptor : Descriptor) :
    Matches s (when condition (setDescriptor fd (some descriptor)) : Prog InMem (Halt ε) Unit)
      (.ok (), if condition then s.posix.setDescriptor fd descriptor else s.posix) := by
  by_cases moves : condition
  · rw [when, if_pos moves, if_pos moves]
    exact ⟨rfl, rfl, fits⟩
  · rw [when, if_neg moves, if_neg moves]
    exact ⟨rfl, rfl, fits⟩

theorem Matches.returning {program : Prog InMem (Halt ε) Unit} {p : Posix} (same : Matches s program (.ok (), p)) (value : α) :
    Matches s (program >>= fun _ => pure value) (.ok value, p) := by
  obtain ⟨result, state, fits⟩ := same
  have ran : program s = (.ok (), (program s).2) := Prod.ext result rfl
  refine ⟨?_, ?_, ?_⟩ <;> rw [bind_of_ok ran]
  · rfl
  · exact state
  · exact fits

end Ends

variable {fd : ℕ} {offset : Option ℕ}

theorem read_matches (fits : s.Fits) {len : ℕ} (meets : s.Meets (.read fd len offset)) :
    Matches s (read fd len offset) (s.posix.read fd len offset) := by
  refine .read ?_
  unfold Posix.read
  rw [show s.posix.descriptors = s.descriptors from rfl]
  rcases descriptor : s.descriptors fd with _ | (⟨file, readAllowed, writeAllowed, position, appendMode⟩ | dir)
  · exact ⟨rfl, rfl, fits⟩
  · refine .check fits fun readable => ?_
    obtain rfl : readAllowed = true := by simpa using readable
    rw [Meets, descriptor] at meets
    refine .pass (not_lt.mpr meets) ?_
    rw [show s.posix.files file = .ofList (s.files file).data from rfl, Sparse.read_ofList]
    exact (Matches.moves fits _ _).returning _
  · exact ⟨rfl, rfl, fits⟩

theorem setDescriptor_same {descriptor : Descriptor} (there : s.descriptors fd = some descriptor) :
    s.posix.setDescriptor fd descriptor = s.posix := by
  unfold Posix.setDescriptor
  rw [← there, show s.posix.descriptors = s.descriptors from rfl, update_eq_self]
  rfl

theorem setFile_same (file : ℕ) : s.posix.setFile file (.ofList (s.files file).data) = s.posix := by
  rw [← posix_setFile, update_eq_self]

variable {buf : List UInt8}

/-- The part of a write after its checks. -/
theorem write_end (fits : s.Fits) {file start : ℕ} {moves : Prop} [Decidable moves] (descriptor : Descriptor)
    (small : max (s.files file).data.length (start + buf.length) ≤ isizeMax) :
    Matches s (modifyFile file (fun f => { f with data := overwritten (s.files file).data buf start, perms := { f.perms with mtime := env.now } }) >>=
        fun _ => when moves (setDescriptor fd (some descriptor)) >>= fun _ => (pure buf.length : Prog InMem (Halt WriteError) ℕ))
      (.ok buf.length, if moves then (s.posix.setFile file (.ofList (overwritten (s.files file).data buf start))).setDescriptor fd descriptor
        else s.posix.setFile file (.ofList (overwritten (s.files file).data buf start))) := by
  refine .modify ?_
  set f : FileX := { s.files file with
    data := overwritten (s.files file).data buf start, perms := { (s.files file).perms with mtime := env.now } }
  rw [← show f.data = overwritten (s.files file).data buf start from rfl, ← posix_setFile]
  refine (Matches.moves (fits.setFile ?_) fd descriptor).returning _
  rwa [show f.data.length = _ from length_overwritten _ _ _]

theorem write_matches (fits : s.Fits) (meets : s.Meets (.write fd buf offset)) :
    Matches s (write env fd buf offset) (s.posix.write fd buf offset) := by
  refine .read ?_
  unfold Posix.write
  rw [show s.posix.descriptors = s.descriptors from rfl]
  rcases descriptor : s.descriptors fd with _ | (⟨file, readAllowed, writeAllowed, position, appendMode⟩ | dir)
  · exact ⟨rfl, rfl, fits⟩
  · refine .check fits fun writable => ?_
    obtain rfl : writeAllowed = true := by simpa using writable
    rw [show s.posix.files file = .ofList (s.files file).data from rfl, Sparse.length_ofList]
    set start := if appendMode ∧ offset = none then (s.files file).data.length else offset.getD position
    have small := fits file
    have sizes : isizeMax ≤ usizeMax := by decide
    by_cases empty : buf = []
    · subst empty
      rw [Meets, descriptor] at meets
      replace meets : if appendMode ∧ offset = none then position = (s.files file).data.length
        else offset.getD position ≤ (s.files file).data.length := meets
      obtain ⟨inside, still⟩ : start ≤ (s.files file).data.length ∧ (offset = none → start = position) := by
        simp only [start]
        split_ifs at meets ⊢ with appends
        · exact ⟨le_rfl, fun _ => meets.symm⟩
        · exact ⟨meets, fun none => by rw [none]; rfl⟩
      have unchanged : (if offset = none then (s.posix.setFile file (.ofList (overwritten (s.files file).data [] start))).setDescriptor fd
          (.file file readAllowed true (start + ([] : List UInt8).length) appendMode)
          else s.posix.setFile file (.ofList (overwritten (s.files file).data [] start))) = s.posix := by
        rw [overwritten_nil inside, setFile_same]
        split_ifs with moves
        · rw [still moves]
          exact setDescriptor_same descriptor
        · rfl
      refine .pass (by simp only [length_nil]; omega) (.pass (by simp only [length_nil]; omega) ?_)
      rw [if_pos rfl, ← unchanged]
      exact write_end fits _ (by simp only [length_nil]; omega)
    · rw [if_neg empty]
      by_cases large : (s.files file).data.length < start + buf.length ∧ isizeMax < start + buf.length
      · rw [if_pos large]
        by_cases overflows : usizeMax < start + buf.length
        · exact .stop overflows fits
        · exact .pass overflows (.stop large fits)
      · rw [if_neg large]
        refine .pass (by omega) (.pass large ?_)
        rw [← ofList_overwritten _ _ _ empty]
        exact write_end fits _ (by omega)
  · exact ⟨rfl, rfl, fits⟩

theorem seek_matches (fits : s.Fits) {offset : ℤ} {whence : SeekWhence} :
    Matches s (seek fd offset whence) (s.posix.seek fd offset whence) := by
  refine .read ?_
  unfold Posix.seek
  rw [show s.posix.descriptors = s.descriptors from rfl]
  rcases s.descriptors fd with _ | (⟨file, readAllowed, writeAllowed, position, appendMode⟩ | dir)
  · exact ⟨rfl, rfl, fits⟩
  · refine .check fits fun _ => ?_
    cases whence <;> exact .check fits fun _ => ⟨rfl, rfl, fits⟩
  · exact ⟨rfl, rfl, fits⟩

theorem truncate_matches (fits : s.Fits) {length : ℕ} {resetOffset : Bool} :
    Matches s (truncate env fd length resetOffset) (s.posix.truncate fd length resetOffset) := by
  refine .read ?_
  unfold Posix.truncate
  rw [show s.posix.descriptors = s.descriptors from rfl]
  rcases s.descriptors fd with _ | (⟨file, readAllowed, writeAllowed, position, appendMode⟩ | dir)
  · exact ⟨rfl, rfl, fits⟩
  · refine .check fits fun _ => .check fits fun _ => .check fits fun small => ?_
    have fits' := fits file
    refine .modify ?_
    rw [show s.posix.files file = .ofList (s.files file).data from rfl, ← ofList_resized]
    set f : FileX := { s.files file with
      data := resized (s.files file).data length, perms := { (s.files file).perms with mtime := env.now } }
    rw [← show f.data = resized (s.files file).data length from rfl, ← posix_setFile]
    refine .moves (fits.setFile ?_) fd _
    rw [show f.data.length = _ from length_resized _ _]
    omega
  · exact ⟨rfl, rfl, fits⟩

theorem serve_matches (fits : s.Fits) {request : Request} (meets : s.Meets request) :
    Matches s (serve env request) (s.posix.serve request) := by
  cases request with
  | read fd len offset => exact (read_matches fits meets).answering _ _
  | write fd buf offset => exact (write_matches fits meets).answering _ _
  | seek fd offset whence => exact (seek_matches fits).answering _ _
  | truncate fd length resetOffset => exact (truncate_matches fits).answering _ _

/-! ## Runs -/

def ioStep (s : InMem) (event : Env × Request) : InMem := (serve event.1 event.2 s).2

def answers : InMem → List (Env × Request) → List (Except (Halt IoError) Answer)
  | _, [] => []
  | s, event :: rest => (serve event.1 event.2 s).1 :: answers (s.ioStep event) rest

/-- A new file, open twice: for reading and writing, and for appending. -/
def openedTwice : InMem :=
  { new epoch with
    descriptors := fun fd => if fd = 0 then some (.file 1 true true 0 false) else if fd = 1 then some (.file 1 false true 0 true) else none }

/-- Bytes past the end, bytes at the end, and all of them read. -/
def holeAndTail : List (Env × Request) :=
  [(⟨.root, epoch⟩, .write 0 [7] (some 2)), (⟨.root, epoch⟩, .write 1 [8] none), (⟨.root, epoch⟩, .read 0 9 none)]

/-- The file system after `open("/f", O_CREAT | O_RDWR)`. -/
def opened : InMem := (openPath ⟨.root, epoch⟩ (some ["", "f"]) (OFlags.creat ||| OFlags.rdwr) 0o644 (new epoch)).2

end InMem

end LiteBox.Fs
