import LiteBox.Fs.MergePieces

/-! # A patch reproduces the file

The pieces of a file against what it was when it was adopted, imported one after another into a file that is still that.
-/

namespace LiteBox.Fs

open List MergeSpec MergeKind Option

open Mm (usizeMax isizeMax)
open Chunks

/-- Imports the pieces of some contents one after another. -/
def FileSystem.importPieces {σ : Type} (fs : FileSystem σ) (env : Env) (path : Path) (mode : Mode) (contents : List UInt8) :
    List Piece → Prog σ (Halt ImportError) Unit
  | [] => pure ()
  | piece :: pieces => do
    fs.importFile env path mode (piece.payload contents) (mergeSpecOf piece.kind.groupname)
    fs.importPieces env path mode contents pieces

variable {contents data : List UInt8} {pieces : List Piece} {block : ℕ}

/-- No piece reaches past the largest size of a file. -/
def Reaches (contents : List UInt8) : List UInt8 → List Piece → Prop
  | _, [] => True
  | data, piece :: pieces => piece.kind.spec.reach data.length (piece.payload contents).length ≤ isizeMax ∧
    Reaches contents (piece.kind.spec.apply data (piece.payload contents)) pieces

theorem MergeKind.fits_of_reach {kind : MergeKind} {existing length : ℕ} (small : kind.spec.reach existing length ≤ isizeMax) :
    kind.Fits := by
  have sizes : isizeMax ≤ usizeMax := by decide
  cases kind with
  | whole => trivial
  | append base =>
    simp only [spec, reach] at small
    show base ≤ usizeMax
    omega
  | range offset finalLen =>
    simp only [spec, reach] at small
    exact ⟨by omega, by omega⟩

theorem reaches_ranges (ranges : ∀ piece ∈ pieces, IsRange contents.length piece) (small : contents.length ≤ isizeMax) :
    Reaches contents data pieces := by
  induction pieces generalizing data with
  | nil => trivial
  | cons piece pieces ih =>
    have range := ranges piece mem_cons_self
    have stop := range.inside
    refine ⟨?_, ih fun piece mem => ranges piece (mem_cons_of_mem _ mem)⟩
    rw [range.kind]
    show max (piece.start + (piece.payload contents).length) contents.length ≤ isizeMax
    rw [range.length_payload]
    omega

namespace InMem

variable {s : InMem} {env : Env} {path : Path} {file : ℕ} {mode : Mode}

theorem importPieces_run (leads : s.Leads env path file) (root : env.user.user = 0)
    (reaches : Reaches contents (s.files file).data pieces) :
    ∃ t, fileSystem.importPieces env path mode contents pieces s = (.ok (), t) ∧
      Rewrote s t file (applied contents (s.files file).data pieces) := by
  induction pieces generalizing s with
  | nil => exact ⟨s, rfl, .refl s file⟩
  | cons piece pieces ih =>
    obtain ⟨t, ran, rewrote⟩ := @importFile_run s env path file _ leads root mode _ reaches.1
    obtain ⟨u, ran', rewrote'⟩ := @ih t (leads.congr rewrote.names) (by rw [rewrote.data]; exact reaches.2)
    rw [rewrote.data] at rewrote'
    refine ⟨u, ?_, rewrote.trans rewrote'⟩
    rw [FileSystem.importPieces, mergeSpecOf_groupname (fits_of_reach reaches.1), Prog.bind_of_ok ran, ran']

end InMem

/-! ## The pieces of an adopted file -/

theorem mergeBlockSize_pos {len : ℕ} (sized : mergeBlockSize len = some block) : 0 < block := by
  rw [mergeBlockSize] at sized
  split_ifs at sized <;> cases sized <;> decide

section Hash

variable {H : Type} {hash : List UInt8 → H} {old new : List UInt8} {i : ℕ}

/-- No two different blocks of the two contents that are compared have the same hash. -/
def CollisionFree (hash : List UInt8 → H) (old new : List UInt8) : Prop :=
  ∀ block, mergeBlockSize old.length = some block →
    ∀ x ∈ chunks block old, ∀ y ∈ chunks block new ++ chunks block (new.take old.length), hash x = hash y → x = y

/-- What is recorded of a regular file that is adopted. -/
def adoptedFile (hash : List UInt8 → H) (mode : Mode) (user group : ℕ) (contents : List UInt8) : AdoptedState H :=
  ⟨.regularFile, mode, user, group, hash contents, contents.length, payloadBlocks hash contents⟩

theorem mem_chunks (proper : 0 < block) {i : ℕ} (inside : i * block < data.length) : chunk block data i ∈ chunks block data :=
  mem_iff_getElem?.mpr ⟨i, by rw [getElem?_chunks proper, if_pos inside]⟩

section

variable (free : CollisionFree hash old new) (sized : mergeBlockSize old.length = some block)

include free sized

/-- The adopted contents are found again when their hashes are. -/
theorem take_of_hashes
    (same : (chunks block (new.take old.length)).map hash = (chunks block old).map hash) : new.take old.length = old := by
  have proper := mergeBlockSize_pos sized
  refine eq_of_chunk proper fun i => ?_
  have hashes := congrArg (·[i]?) same
  simp only [getElem?_map, getElem?_chunks proper] at hashes
  split_ifs at hashes with within within' within'
  · exact (free block sized _ (mem_chunks proper within') _ (mem_append_right _ (mem_chunks proper within))
      (some.inj hashes).symm).symm
  · cases hashes
  · cases hashes
  · rw [chunk, chunk, drop_eq_nil_of_le (not_lt.mp within), drop_eq_nil_of_le (not_lt.mp within')]

/-- The file got shorter, its first blocks are as they were, all its other ones are not, and these are at most half of it. -/
def CutTail (old new : List UInt8) : Prop :=
  new.length < old.length ∧ ∃ block first, mergeBlockSize old.length = some block ∧ first * block < new.length ∧
    (∀ i < first, chunk block new i = chunk block old i) ∧
    (∀ i, first ≤ i → i * block < new.length → chunk block new i ≠ chunk block old i) ∧
    2 * (new.length - first * block) ≤ new.length

/-- The unchanged blocks of a file that was adopted, by their hashes. -/
def Unchanged (hash : List UInt8 → H) (old new : List UInt8) (block i : ℕ) : Prop :=
  ((chunks block old).map hash)[i]? = some (hash (chunk block new i))

/-- A block counts as unchanged exactly when it is the adopted one. -/
theorem unchanged_iff
    (inside : i * block < new.length) :
    Unchanged hash old new block i ↔ chunk block new i = chunk block old i := by
  have proper := mergeBlockSize_pos sized
  rw [Unchanged, getElem?_map, getElem?_chunks proper]
  split_ifs with within
  · rw [map_some, some_inj]
    constructor
    · intro same
      exact (free block sized _ (mem_chunks proper within) _ (mem_append_left _ (mem_chunks proper inside)) same).symm
    · intro same
      rw [same]
  · refine iff_of_false (by simp) fun same => ?_
    have lengths := congrArg length same
    simp only [length_chunk] at lengths
    omega

/-- When only the last blocks have changed, they are the only run. -/
theorem Runs.eq_tail {closed : List Piece}
    {last : Option ℕ}
    (runs : Runs (Unchanged hash old new block) block new.length closed last) {first : ℕ}
    (inside : first * block < new.length) (before : ∀ i < first, chunk block new i = chunk block old i)
    (after : ∀ i, first ≤ i → i * block < new.length → chunk block new i ≠ chunk block old i) :
    closed = [] ∧ last = some first := by
  have same : ∀ i, i * block < new.length → (Unchanged hash old new block i ↔ chunk block new i = chunk block old i) :=
    fun i => unchanged_iff free sized
  have none : closed = [] := by
    refine eq_nil_iff_forall_not_mem.mpr fun piece mem => ?_
    obtain ⟨from_, next, less, run⟩ := runs.ended piece mem
    have within : from_ * block < new.length := (Nat.mul_le_mul_right block run.nonempty.le).trans_lt less
    have late : first ≤ from_ := not_lt.mp fun early => run.changed from_ le_rfl run.nonempty ((same from_ within).mpr (before from_ early))
    exact after next (late.trans run.nonempty.le) less ((same next less).mp run.ended)
  refine ⟨none, ?_⟩
  rcases runs.covered first inside fun unchanged => after first le_rfl inside ((same first inside).mp unchanged) with
    ⟨piece, mem, -⟩ | ⟨from_, most, isLast⟩
  · simp [none] at mem
  · obtain ⟨within, changed⟩ := runs.tail from_ isLast
    have late : first ≤ from_ := not_lt.mp fun early => changed from_ le_rfl within ((same from_ within).mpr (before from_ early))
    rw [isLast, le_antisymm most late]

/-- A run of changed blocks to the end of a file that got shorter, and no other run. -/
theorem Runs.cutTail {first : ℕ}
    (runs : Runs (Unchanged hash old new block) block new.length [] (some first)) (shorter : new.length < old.length)
    (half : 2 * (new.length - first * block) ≤ new.length) : CutTail old new := by
  obtain ⟨inside, changed⟩ := runs.tail first rfl
  refine ⟨shorter, block, first, sized, inside, fun i early => ?_, fun i late within same => ?_, half⟩
  · have within : i * block < new.length := (Nat.mul_le_mul_right block early.le).trans_lt inside
    by_contra differs
    rcases runs.covered i within fun unchanged => differs ((unchanged_iff free sized within).mp unchanged) with
      ⟨piece, mem, -⟩ | ⟨other, late, isLast⟩
    · simp at mem
    · cases isLast
      exact absurd late (not_le.mpr early)
  · exact changed i late within ((unchanged_iff free sized within).mpr same)

end

/-- The pieces of a file that was adopted: the whole file, nothing, what was added to it, or its changed runs. -/
inductive Pieces (hash : List UInt8 → H) (old new : List UInt8) : List Piece → Prop
  | whole (kept : ¬CutTail old new) : Pieces hash old new [⟨.whole, 0, new.length⟩]
  | none (same : new = old) : Pieces hash old new []
  | append (longer : old.length < new.length) (same : new.take old.length = old) :
      Pieces hash old new [⟨.append old.length, old.length, new.length⟩]
  | runs (block : ℕ) (closed : List Piece) (last : Option ℕ) (sized : mergeBlockSize old.length = some block)
      (runs : Runs (Unchanged hash old new block) block new.length closed last)
      (rewritten : ¬(old.length ≤ new.length ∧ new.take old.length = old))
      (some : closed ++ (last.map (tailPiece block new.length)).toList ≠ [])
      (half : ((closed ++ (last.map (tailPiece block new.length)).toList).map fun piece => piece.stop - piece.start).sum * 2 ≤ new.length) :
      Pieces hash old new (closed ++ (last.map (tailPiece block new.length)).toList)

theorem Pieces.reaches (shape : Pieces hash old new pieces) (small : new.length ≤ isizeMax) :
    Reaches new old pieces := by
  cases shape with
  | whole => exact ⟨by simpa [spec, reach, Piece.payload] using small, trivial⟩
  | none => trivial
  | append longer =>
    refine ⟨?_, trivial⟩
    simp only [spec, reach, Piece.payload, max_self, length_take, length_drop]
    omega
  | runs block closed last sized runs => exact reaches_ranges (fun piece => runs.ranges) small

variable [DecidableEq H]

instance : Decidable (Unchanged hash old new block i) := inferInstanceAs (Decidable (_ = _))

theorem mergePieces_pieces (free : CollisionFree hash old new) (mode : Mode) (user group : ℕ) :
    Pieces hash old new (mergePieces hash new (some (adoptedFile hash mode user group old))) := by
  unfold mergePieces adoptedFile payloadBlocks
  cases sized : mergeBlockSize old.length with
  | none =>
    refine .whole ?_
    rintro ⟨-, block, -, sized', -⟩
    cases sized.symm.trans sized'
  | some block =>
    simp only [map_some, sized]
    split_ifs with grown equal tooMany
    · refine .none ?_
      rw [← take_of_hashes free sized grown.2, ← equal, take_length]
    · exact .append (by omega) (take_of_hashes free sized grown.2)
    · refine .whole ?_
      rintro ⟨-, block', first, sized', inside, before, after, half⟩
      cases sized.symm.trans sized'
      obtain ⟨closed, last, pieces, runs⟩ := changedRuns_runs hash new ((chunks block old).map hash) (mergeBlockSize_pos sized)
      obtain ⟨rfl, rfl⟩ := Runs.eq_tail free sized runs inside before after
      rw [pieces] at tooMany
      simp [tailPiece, maxMergePieces] at tooMany
      omega
    · obtain ⟨closed, last, pieces, runs⟩ := changedRuns_runs hash new ((chunks block old).map hash) (mergeBlockSize_pos sized)
      rw [pieces] at tooMany ⊢
      push Not at tooMany
      refine .runs block closed last sized runs (fun same => grown ⟨same.1, by rw [same.2]⟩) tooMany.1 tooMany.2.2

variable {closed : List Piece} {last : Option ℕ}

section

variable (runs : Runs (Unchanged hash old new block) block new.length closed last)

include runs

/-- What stands where after the changed runs of a file. -/
theorem Runs.getD_applied (proper : 0 < block)
    (inside : i < new.length) (data : List UInt8) :
    (applied new data (closed ++ (last.map (tailPiece block new.length)).toList)).getD i 0 =
      if Unchanged hash old new block (i / block) then data.getD i 0 else new.getD i 0 := by
  rw [Fs.getD_applied (fun piece => runs.ranges) inside]
  simp only [runs.covers_iff proper inside, ite_not]

theorem Runs.length_applied
    (some : closed ++ (last.map (tailPiece block new.length)).toList ≠ []) (data : List UInt8) :
    (applied new data (closed ++ (last.map (tailPiece block new.length)).toList)).length =
      if closed ≠ [] then new.length else max data.length new.length := by
  have early : (∃ piece ∈ closed ++ (last.map (tailPiece block new.length)).toList, piece.stop < new.length) ↔ closed ≠ [] := by
    constructor
    · rintro ⟨piece, mem, less⟩ rfl
      obtain ⟨first, -, rfl⟩ := map_eq_some_iff.mp (mem_toList.mp mem)
      exact lt_irrefl _ less
    · intro some
      obtain ⟨piece, mem⟩ := exists_mem_of_ne_nil closed some
      obtain ⟨first, next, less, run⟩ := runs.ended piece mem
      exact ⟨piece, mem_append_left _ mem, by rw [run.eq]; exact less⟩
  rw [Fs.length_applied fun piece => runs.ranges]
  simp only [early, some, if_false]

/-- The changed runs reproduce the file unless they are all at its end and it got shorter. -/
theorem Runs.applied_eq_iff (free : CollisionFree hash old new) (sized : mergeBlockSize old.length = some block)
    (some : closed ++ (last.map (tailPiece block new.length)).toList ≠ []) :
    applied new old (closed ++ (last.map (tailPiece block new.length)).toList) = new ↔ closed ≠ [] ∨ old.length ≤ new.length := by
  have proper := mergeBlockSize_pos sized
  have length := runs.length_applied some old
  have content : ∀ i, i < new.length → (applied new old (closed ++ (last.map (tailPiece block new.length)).toList)).getD i 0 = new.getD i 0 := by
    intro i inside
    rw [runs.getD_applied proper inside]
    split_ifs with unchanged
    · have starts : i / block * block < new.length := (Nat.div_mul_le_self i block).trans_lt inside
      rw [getD_eq_getElem?_getD, getD_eq_getElem?_getD, getElem?_of_chunk proper ((unchanged_iff free sized starts).mp unchanged)]
    · rfl
  constructor
  · intro equal
    rw [equal] at length
    split_ifs at length with some
    · exact .inl some
    · exact .inr (by omega)
  · intro fine
    have same : (applied new old (closed ++ (last.map (tailPiece block new.length)).toList)).length = new.length := by
      rw [length]
      rcases fine with some | long
      · rw [if_pos some]
      · split_ifs
        · rfl
        · omega
    refine ext_getElem same fun i before inside => ?_
    have byte := content i inside
    rwa [getD_eq_getElem?_getD, getD_eq_getElem?_getD, getElem?_eq_getElem before, getElem?_eq_getElem inside,
      getD_some, getD_some] at byte

end

theorem MergeSpec.apply_append {base : ℕ} (short : base ≤ data.length) (payload : List UInt8) :
    (append base).apply data payload = data ++ payload := by
  simp [apply, patched, extended, InMem.overwritten, max_eq_left short]

theorem Pieces.applied_eq_iff (shape : Pieces hash old new pieces) (free : CollisionFree hash old new) :
    applied new old pieces = new ↔ ¬CutTail old new := by
  cases shape with
  | whole kept => exact iff_of_true (by simp [applied, spec, apply, Piece.payload]) kept
  | none same => exact iff_of_true same.symm fun cut => absurd cut.1 (by simp [same])
  | append longer same =>
    refine iff_of_true ?_ fun cut => absurd cut.1 (by omega)
    show (MergeSpec.append old.length).apply old _ = new
    rw [apply_append le_rfl, Piece.payload, take_of_length_le (by simp)]
    nth_rewrite 1 [← same]
    exact take_append_drop _ _
  | runs block closed last sized runs rewritten some half =>
    rw [runs.applied_eq_iff free sized some]
    constructor
    · rintro fine ⟨shorter, block', first, sized', inside, before, after, -⟩
      cases sized.symm.trans sized'
      obtain ⟨none, -⟩ := runs.eq_tail free sized inside before after
      exact fine.elim (absurd none) fun long => absurd shorter (not_lt.mpr long)
    · intro kept
      by_contra bad
      push Not at bad
      obtain ⟨rfl, shorter⟩ := bad
      cases last with
      | none => exact some rfl
      | some first =>
        refine kept (runs.cutTail free sized shorter ?_)
        simpa [tailPiece, Nat.mul_comm] using half

namespace InMem

variable {s : InMem} {env : Env} {path : Path} {file : ℕ}

/-- The pieces of a file against what was adopted, imported into a file that is still as it was adopted, make it the file they were
cut from, unless it got shorter in such a way that all its changed blocks are at its end. -/
theorem pieces_reproduce_iff (free : CollisionFree hash old new) (small : new.length ≤ isizeMax) (leads : s.Leads env path file)
    (root : env.user.user = 0) (still : (s.files file).data = old) (mode adoptedMode : Mode) (user group : ℕ) :
    (∃ t, fileSystem.importPieces env path mode new (mergePieces hash new (some (adoptedFile hash adoptedMode user group old))) s = (.ok (), t) ∧
      Rewrote s t file new) ↔ ¬CutTail old new := by
  have shape := mergePieces_pieces free adoptedMode user group
  obtain ⟨t, ran, rewrote⟩ := @importPieces_run new _ s env path file mode leads root (by rw [still]; exact shape.reaches small)
  rw [still] at rewrote
  rw [← shape.applied_eq_iff free]
  constructor
  · rintro ⟨u, ran', reproduced⟩
    cases ran.symm.trans ran'
    exact rewrote.data.symm.trans reproduced.data
  · intro equal
    rw [equal] at rewrote
    exact ⟨t, ran, rewrote⟩

/-- A file system with some bytes in `/f`. -/
def holding (data : List UInt8) : InMem := opened.withData epoch 1 data

theorem pieces_reproduce_grown : ¬CutTail [1, 2] [1, 2, 3] ∧
    ∃ t, fileSystem.importPieces ⟨.root, epoch⟩ ["", "f"] 0o644 [1, 2, 3]
        (mergePieces id [1, 2, 3] (some (adoptedFile id 0o644 0 0 [1, 2]))) (holding [1, 2]) = (.ok (), t) ∧
      Rewrote (holding [1, 2]) t 1 [1, 2, 3] := by
  have kept : ¬CutTail [1, 2] [1, 2, 3] := fun cut => absurd cut.1 (by decide)
  have free : CollisionFree id [1, 2] [1, 2, 3] := fun _ _ _ _ _ _ same => same
  have leads : (holding [1, 2]).Leads ⟨.root, epoch⟩ ["", "f"] 1 :=
    ⟨["", "f"], ["", "f"], some ([""], 0), some ([""], 0), rfl, rfl, rfl, rfl⟩
  exact ⟨kept, (pieces_reproduce_iff free (by decide) leads rfl rfl 0o644 0o644 0 0).mpr kept⟩

/-- A file of 130 bytes that was cut to 129 stays at 130 bytes. -/
theorem cut_file_keeps_length : ((fileSystem.importPieces ⟨.root, epoch⟩ ["", "f"] 0o644 (replicate 129 0)
      (mergePieces id (replicate 129 0) (some (adoptedFile id 0o644 0 0 (replicate 130 0))))
      (holding (replicate 130 0))).2.files 1).data = replicate 130 0 := by
  decide +kernel

end InMem

end Hash

end LiteBox.Fs
