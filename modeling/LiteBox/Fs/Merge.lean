import LiteBox.Fs.Basic
import LiteBox.Lib.Chunks
import LiteBox.Lib.Decimal

/-! # Patches of adopted files

A forked child records hashes of the blocks of every file that it takes over. When it exits, it sends of a file only what
is past the old end or in blocks that have changed. The reader is told where the bytes belong by the group name of
the archive entry, which is modelled by what stands between its spaces.
-/

namespace LiteBox.Fs

open Mm (usizeMax)
open Chunks

/-! ## The writer -/

/-- What an adopted path looked like; `H` is the type of hashes. -/
structure AdoptedState (H : Type) where
  fileType : FileType
  mode : Mode
  user : ℕ
  group : ℕ
  hash : H
  len : ℕ
  blocks : Option (List H)

def mergeBlockSize (len : ℕ) : Option ℕ :=
  if len ≤ 1024 * 1024 then some 128 else if len ≤ 64 * 1024 * 1024 then some 4096 else none

inductive MergeKind where
  | whole
  | append (base : ℕ)
  | range (offset finalLen : ℕ)
deriving DecidableEq

def mergeMagic : String := "lbxmerge"

namespace MergeKind

def groupname : MergeKind → Option (List String)
  | whole => none
  | append base => some [mergeMagic, "a", toString base]
  | range offset finalLen => some [mergeMagic, "r", toString offset, toString finalLen]

end MergeKind

def maxMergePieces : ℕ := 64

/-- A piece of a file: how to apply it, and which bytes it is. -/
structure Piece where
  kind : MergeKind
  start : ℕ
  stop : ℕ
deriving DecidableEq

namespace Piece

def payload (piece : Piece) (contents : List UInt8) : List UInt8 := (contents.drop piece.start).take (piece.stop - piece.start)

end Piece

/-- The state of the loop over the blocks: the pieces so far and the run of changed blocks that is not ended. -/
structure Scan where
  pieces : List Piece
  runStart : Option ℕ
  runEnd : ℕ

namespace Scan

/-- Ends the run, if there is one. -/
def flush (finalLen : ℕ) (scan : Scan) : Scan :=
  match scan.runStart with
  | some start => { scan with pieces := scan.pieces ++ [⟨.range start finalLen, start, scan.runEnd⟩], runStart := none }
  | none => scan

/-- One block of the file. -/
def step (unchanged : ℕ → List UInt8 → Bool) (block finalLen : ℕ) (scan : Scan) (item : List UInt8 × ℕ) : Scan :=
  if unchanged item.2 item.1 then scan.flush finalLen
  else { scan with runStart := some (scan.runStart.getD (item.2 * block)), runEnd := item.2 * block + item.1.length }

end Scan

section Hash

variable {H : Type} [DecidableEq H] (hash : List UInt8 → H)

def payloadBlocks (payload : List UInt8) : Option (List H) :=
  (mergeBlockSize payload.length).map fun block => (chunks block payload).map hash

/-- The runs of blocks of a file that differ from the adopted ones. -/
def changedRuns (contents : List UInt8) (blocks : List H) (block : ℕ) : List Piece :=
  ((chunks block contents).zipIdx.foldl (Scan.step (fun i chunk => blocks[i]? = some (hash chunk)) block contents.length) ⟨[], none, 0⟩).flush
    contents.length |>.pieces

def mergePieces (contents : List UInt8) (adopted : Option (AdoptedState H)) : List Piece :=
  let whole := [⟨.whole, 0, contents.length⟩]
  match adopted with
  | none => whole
  | some adopted =>
    match adopted.blocks, mergeBlockSize adopted.len with
    | some blocks, some block =>
      if adopted.len ≤ contents.length ∧ (chunks block (contents.take adopted.len)).map hash = blocks then
        if contents.length = adopted.len then [] else [⟨.append adopted.len, adopted.len, contents.length⟩]
      else
        let pieces := changedRuns hash contents blocks block
        let patched := (pieces.map fun piece => piece.stop - piece.start).sum
        if pieces = [] ∨ maxMergePieces < pieces.length ∨ contents.length < patched * 2 then whole else pieces
    | _, _ => whole

end Hash

/-! ## The reader -/

inductive MergeSpec where
  | whole
  | append (base : ℕ)
  | range (offset finalLen : ℕ)
deriving DecidableEq

/-- `parse::<usize>`: digits, perhaps after a plus sign. -/
def parseUsize (word : String) : Option ℕ :=
  let digits := match word.toList with
    | '+' :: digits => digits
    | digits => digits
  if digits ≠ [] ∧ digits.all Char.isDigit ∧ Nat.ofDigitChars 10 digits 0 ≤ usizeMax then some (Nat.ofDigitChars 10 digits 0) else none

/-- How a payload is to be applied, by the group name; `none` for one that is not UTF-8. -/
def mergeSpecOf : Option (List String) → MergeSpec
  | some (word :: words) =>
    if mergeMagic.toList.isPrefixOf word.toList then
      match (String.ofList (word.toList.drop mergeMagic.length) :: words).filter (· ≠ "") with
      | "a" :: base :: _ =>
        match parseUsize base with
        | some base => .append base
        | none => .whole
      | "r" :: offset :: finalLen :: _ =>
        match parseUsize offset, parseUsize finalLen with
        | some offset, some finalLen => .range offset finalLen
        | _, _ => .whole
      | _ => .whole
    else .whole
  | _ => .whole

/-! ## The field between them -/

namespace MergeKind

/-- How the reader is meant to take a piece. -/
def spec : MergeKind → MergeSpec
  | whole => .whole
  | append base => .append base
  | range offset finalLen => .range offset finalLen

/-- The numbers that a kind carries fit into an address. -/
def Fits : MergeKind → Prop
  | whole => True
  | append base => base ≤ usizeMax
  | range offset finalLen => offset ≤ usizeMax ∧ finalLen ≤ usizeMax

end MergeKind

theorem parseUsize_repr {n : ℕ} (fits : n ≤ usizeMax) : parseUsize n.repr = some n := by
  show Decimal.parse usizeMax n.repr.toList = some n
  rw [Nat.toList_repr, Decimal.parse_toDigits fits]

/-- The reader takes a piece as the writer means it. -/
theorem mergeSpecOf_groupname {kind : MergeKind} (fits : kind.Fits) : mergeSpecOf kind.groupname = kind.spec := by
  have stripped : String.ofList (mergeMagic.toList.drop mergeMagic.length) = "" := by decide +kernel
  have starts : mergeMagic.toList.isPrefixOf mergeMagic.toList = true := by decide +kernel
  cases kind with
  | whole => rfl
  | append base =>
    simp [MergeKind.groupname, mergeSpecOf, starts, stripped, parseUsize_repr fits, MergeKind.spec]
  | range offset finalLen =>
    simp [MergeKind.groupname, mergeSpecOf, starts, stripped, parseUsize_repr fits.1, parseUsize_repr fits.2, MergeKind.spec]

end LiteBox.Fs
