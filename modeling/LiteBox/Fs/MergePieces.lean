import LiteBox.Fs.ImportInMem

/-! # What a file holds after its pieces were applied

The loop over the blocks is described once, by the runs of changed blocks that it leaves. A file after the pieces is then
described by what stands at every position.
-/

namespace LiteBox.Fs

open List Nat Scan Option

open Mm (usizeMax isizeMax)
open Chunks
open InMem (overwritten resized getD_overwritten length_overwritten length_resized)

/-! ## The runs -/

/-- A piece is a run of changed blocks that ends before an unchanged one. -/
structure ClosedRun (unchanged : ℕ → Prop) (block finalLen first next : ℕ) (piece : Piece) : Prop where
  nonempty : first < next
  changed : ∀ i, first ≤ i → i < next → ¬unchanged i
  ended : unchanged next
  eq : piece = ⟨.range (first * block) finalLen, first * block, next * block⟩

/-- The state of the loop after `count` blocks. -/
structure Scanned (unchanged : ℕ → Prop) (block finalLen count : ℕ) (scan : Scan) : Prop where
  closed : ∀ piece ∈ scan.pieces, ∃ first next, next < count ∧ ClosedRun unchanged block finalLen first next piece
  running : ∀ start, scan.runStart = some start → ∃ first, first < count ∧ start = first * block ∧
    (∀ i, first ≤ i → i < count → ¬unchanged i) ∧ scan.runEnd = min (count * block) finalLen
  covered : ∀ i < count, ¬unchanged i →
    (∃ piece ∈ scan.pieces, piece.start ≤ i * block ∧ (i + 1) * block ≤ piece.stop) ∨ ∃ start ≤ i * block, scan.runStart = some start

variable {unchanged : ℕ → List UInt8 → Bool} {block : ℕ} {contents data payload : List UInt8} {count finalLen : ℕ} {scan : Scan}

theorem Scanned.step (scanned : Scanned (fun i => unchanged i (chunk block contents i)) block contents.length count scan)
    (inside : count * block < contents.length) :
    Scanned (fun i => unchanged i (chunk block contents i)) block contents.length (count + 1)
      (scan.step unchanged block contents.length (chunk block contents count, count)) := by
  obtain ⟨closed, running, covered⟩ := scanned
  have kept : ∀ piece ∈ scan.pieces, ∃ first next, next < count + 1 ∧
      ClosedRun (fun i => unchanged i (chunk block contents i)) block contents.length first next piece := fun piece mem =>
    let ⟨first, next, before, run⟩ := closed piece mem
    ⟨first, next, before.trans (lt_succ_self count), run⟩
  rw [Scan.step]
  split_ifs with same
  · cases open_ : scan.runStart with
    | none =>
      rw [flush, open_]
      refine ⟨kept, fun start isOpen => by simp [open_] at isOpen, fun i before changed => ?_⟩
      rcases Nat.lt_succ_iff_lt_or_eq.mp before with before | rfl
      · exact covered i before changed
      · exact absurd same changed
    | some start =>
      obtain ⟨first, before, rfl, changed, stop⟩ := running start open_
      have full : min (count * block) contents.length = count * block := min_eq_left inside.le
      rw [flush, open_]
      refine ⟨forall_mem_append.mpr ⟨kept, forall_mem_singleton.mpr ?_⟩, fun start isOpen => by simp at isOpen,
        fun i below differs => ?_⟩
      · refine ⟨first, count, lt_succ_self count, before, changed, same, ?_⟩
        rw [stop, full]
      · rcases Nat.lt_succ_iff_lt_or_eq.mp below with below | rfl
        · rcases covered i below differs with ⟨piece, mem, bounds⟩ | ⟨start, least, isOpen⟩
          · exact .inl ⟨piece, mem_append_left _ mem, bounds⟩
          · cases open_.symm.trans isOpen
            refine .inl ⟨_, mem_append_right _ (mem_singleton.mpr rfl), least, ?_⟩
            rw [stop, full]
            exact mul_le_mul_right block below
        · exact absurd same differs
  · have size : count * block + (chunk block contents count).length = min ((count + 1) * block) contents.length := by
      rw [length_chunk, add_mul, one_mul]
      omega
    refine ⟨kept, fun start isOpen => ?_, fun i below differs => ?_⟩
    · cases open_ : scan.runStart with
      | none =>
        rw [open_] at isOpen
        refine ⟨count, lt_succ_self count, (some.inj isOpen).symm, fun i least most => ?_, size⟩
        rwa [show i = count by omega]
      | some start' =>
        obtain ⟨first, before, rfl, changed, -⟩ := running start' open_
        rw [open_] at isOpen
        refine ⟨first, before.trans (lt_succ_self count), (some.inj isOpen).symm, fun i least most => ?_, size⟩
        rcases Nat.lt_succ_iff_lt_or_eq.mp most with most | rfl
        · exact changed i least most
        · exact same
    · rcases Nat.lt_succ_iff_lt_or_eq.mp below with below | rfl
      · rcases covered i below differs with inPiece | ⟨start, least, isOpen⟩
        · exact .inl inPiece
        · exact .inr ⟨start, least, by simp [isOpen]⟩
      · refine .inr ⟨_, ?_, rfl⟩
        cases open_ : scan.runStart with
        | none => exact le_rfl
        | some start =>
          obtain ⟨first, before, rfl, -⟩ := running start open_
          exact mul_le_mul_right block before.le

theorem scanned_start (unchanged : ℕ → Prop) (block finalLen : ℕ) : Scanned unchanged block finalLen 0 ⟨[], none, 0⟩ :=
  ⟨fun _ mem => by simp at mem, fun _ isOpen => by simp at isOpen, fun _ before => absurd before (not_lt_zero _)⟩

theorem scanned_run (proper : 0 < block) (inside : count ≤ (contents.length + block - 1) / block) :
    Scanned (fun i => unchanged i (chunk block contents i)) block contents.length count
      (((List.range count).map fun i => (chunk block contents i, i)).foldl (step unchanged block contents.length) ⟨[], none, 0⟩) := by
  induction count with
  | zero => exact scanned_start _ _ _
  | succ count ih =>
    rw [range_succ, map_append, foldl_append]
    exact (ih (by omega)).step ((lt_count_iff proper).mp inside)

/-- The pieces of a file that are runs of its changed blocks: those that end before an unchanged block, and perhaps one
that ends with the file. -/
structure Runs (unchanged : ℕ → Prop) (block finalLen : ℕ) (closed : List Piece) (last : Option ℕ) : Prop where
  ended : ∀ piece ∈ closed, ∃ first next, next * block < finalLen ∧ ClosedRun unchanged block finalLen first next piece
  tail : ∀ first, last = some first → first * block < finalLen ∧ ∀ i, first ≤ i → i * block < finalLen → ¬unchanged i
  covered : ∀ i, i * block < finalLen → ¬unchanged i →
    (∃ piece ∈ closed, piece.start ≤ i * block ∧ (i + 1) * block ≤ piece.stop) ∨ ∃ first ≤ i, last = some first

/-- The piece that is all of a file from a block on. -/
def tailPiece (block finalLen first : ℕ) : Piece := ⟨.range (first * block) finalLen, first * block, finalLen⟩

theorem changedRuns_runs {H : Type} [DecidableEq H] (hash : List UInt8 → H) (contents : List UInt8) (blocks : List H) (proper : 0 < block) :
    ∃ closed last, changedRuns hash contents blocks block = closed ++ (last.map (tailPiece block contents.length)).toList ∧
      Runs (fun i => blocks[i]? = some (hash (chunk block contents i))) block contents.length closed last := by
  have indexed : (chunks block contents).zipIdx =
      (List.range ((contents.length + block - 1) / block)).map fun i => (chunk block contents i, i) := by
    refine ext_getElem? fun i => ?_
    simp only [getElem?_zipIdx, chunks, getElem?_map, Option.map_map, zero_add]
    by_cases before : i < (contents.length + block - 1) / block
    · simp [getElem?_range before]
    · simp [not_lt.mp before]
  obtain ⟨ended, running, covered⟩ :=
    @scanned_run (fun i chunk => decide (blocks[i]? = some (hash chunk))) block contents _ proper (le_refl ((contents.length + block - 1) / block))
  simp only [decide_eq_true_eq] at ended running covered
  have before : ∀ i, i * block < contents.length → i < (contents.length + block - 1) / block := fun i => (lt_count_iff proper).mpr
  have all : min ((contents.length + block - 1) / block * block) contents.length = contents.length :=
    min_eq_right (not_lt.mp fun less => lt_irrefl _ (before _ less))
  rw [changedRuns, indexed]
  revert ended running covered
  generalize List.foldl _ _ _ = scan
  intro ended running covered
  refine ⟨scan.pieces, scan.runStart.map (· / block), ?_, fun piece mem => ?_, fun first isLast => ?_, fun i inside differs => ?_⟩
  · cases isOpen : scan.runStart with
    | none => simp [Scan.flush, isOpen]
    | some start =>
      obtain ⟨first, -, rfl, -, stop⟩ := running start isOpen
      simp [Scan.flush, isOpen, tailPiece, Nat.mul_div_cancel _ proper, stop, all]
  · obtain ⟨first, next, less, run⟩ := ended piece mem
    exact ⟨first, next, (lt_count_iff proper).mp less, run⟩
  · obtain ⟨start, isOpen, rfl⟩ := Option.map_eq_some_iff.mp isLast
    obtain ⟨first, less, rfl, changed, -⟩ := running start isOpen
    rw [Nat.mul_div_cancel _ proper]
    exact ⟨(lt_count_iff proper).mp less, fun i least inside => changed i least (before i inside)⟩
  · rcases covered i (before i inside) differs with inPiece | ⟨start, least, isOpen⟩
    · exact .inl inPiece
    · refine .inr ⟨start / block, ?_, by rw [isOpen]; rfl⟩
      exact (Nat.div_le_div_right least).trans_eq (Nat.mul_div_cancel i proper)

/-- A piece is a range of some contents. -/
structure IsRange (finalLen : ℕ) (piece : Piece) : Prop where
  kind : piece.kind = .range piece.start finalLen
  ordered : piece.start ≤ piece.stop
  inside : piece.stop ≤ finalLen

variable {P : ℕ → Prop} {closed : List Piece} {last : Option ℕ}

theorem Runs.ranges (runs : Runs P block finalLen closed last) {piece : Piece} (mem : piece ∈ closed ++ (last.map (tailPiece block finalLen)).toList) :
    IsRange finalLen piece := by
  rcases mem_append.mp mem with mem | mem
  · obtain ⟨first, next, less, run⟩ := runs.ended piece mem
    rw [run.eq]
    exact ⟨rfl, mul_le_mul_right block run.nonempty.le, less.le⟩
  · obtain ⟨first, isLast, rfl⟩ := map_eq_some_iff.mp (mem_toList.mp mem)
    exact ⟨rfl, (runs.tail first isLast).1.le, le_rfl⟩

/-- The pieces are the changed blocks. -/
theorem Runs.covers_iff (runs : Runs P block finalLen closed last) (proper : 0 < block) {i : ℕ} (inside : i < finalLen) :
    (∃ piece ∈ closed ++ (last.map (tailPiece block finalLen)).toList, piece.start ≤ i ∧ i < piece.stop) ↔ ¬P (i / block) := by
  have starts : i / block * block ≤ i := div_mul_le_self i block
  constructor
  · rintro ⟨piece, mem, least, less⟩
    rcases mem_append.mp mem with mem | mem
    · obtain ⟨first, next, -, run⟩ := runs.ended piece mem
      rw [run.eq] at least less
      exact run.changed _ ((le_div_iff_mul_le proper).mpr least) ((div_lt_iff_lt_mul proper).mpr less)
    · obtain ⟨first, isLast, rfl⟩ := map_eq_some_iff.mp (mem_toList.mp mem)
      exact (runs.tail first isLast).2 _ ((le_div_iff_mul_le proper).mpr least) (starts.trans_lt inside)
  · intro changed
    rcases runs.covered _ (starts.trans_lt inside) changed with ⟨piece, mem, least, most⟩ | ⟨first, least, isLast⟩
    · exact ⟨piece, mem_append_left _ mem, least.trans starts, ((div_lt_iff_lt_mul proper).mp (lt_succ_self _)).trans_le most⟩
    · refine ⟨tailPiece block finalLen first, mem_append_right _ (by simp [isLast]), ?_, inside⟩
      exact (mul_le_mul_right block least).trans starts

/-! ## The bytes -/

/-- The bytes of a file after the pieces of some contents were applied to it in order. -/
def applied (contents data : List UInt8) (pieces : List Piece) : List UInt8 :=
  pieces.foldl (fun data piece => piece.kind.spec.apply data (piece.payload contents)) data

theorem length_patched (data payload : List UInt8) (position finalLen : ℕ) : (patched data payload position (some finalLen)).length =
    if position + payload.length < finalLen then finalLen else max data.length (position + payload.length) := by
  have written : (overwritten (if data.length < position then resized data position else data) payload position).length =
      max data.length (position + payload.length) := by
    rw [length_overwritten]
    split_ifs
    · rw [length_resized]
      omega
    · rfl
  rw [patched, extended, ← written]
  by_cases longer : position + payload.length < finalLen
  · rw [if_pos longer, if_pos longer, length_resized]
  · rw [if_neg longer, if_neg longer]

theorem getD_resized (data : List UInt8) (length i : ℕ) : (resized data length).getD i 0 = if i < length then data.getD i 0 else 0 :=
  congrArg (Sparse.cell · i) (InMem.ofList_resized data length)

theorem getD_grown (data : List UInt8) (position i : ℕ) :
    (if data.length < position then resized data position else data).getD i 0 = data.getD i 0 := by
  split_ifs with short
  · rw [getD_resized]
    split_ifs with below
    · rfl
    · rw [getD_eq_getElem?_getD, getElem?_eq_none (by omega), getD_none]
  · rfl

/-- What stands where after a patch. -/
theorem getD_patched (data payload : List UInt8) (position finalLen i : ℕ) (inside : i < finalLen ∨ finalLen ≤ position + payload.length) :
    (patched data payload position (some finalLen)).getD i 0 =
      if position ≤ i ∧ i < position + payload.length then payload.getD (i - position) 0 else data.getD i 0 := by
  have written := getD_overwritten (if data.length < position then resized data position else data) payload position i
  rw [getD_grown] at written
  rw [patched, extended, ← written]
  by_cases longer : position + payload.length < finalLen
  · rw [if_pos longer, getD_resized, if_pos (inside.resolve_right (not_le.mpr longer))]
  · rw [if_neg longer]

variable {piece : Piece} {pieces : List Piece}

theorem IsRange.apply (range : IsRange contents.length piece) (data : List UInt8) :
    piece.kind.spec.apply data (piece.payload contents) = patched data (piece.payload contents) piece.start (some contents.length) := by
  rw [range.kind]
  rfl

theorem IsRange.length_payload (range : IsRange contents.length piece) : piece.start + (piece.payload contents).length = piece.stop := by
  have := range.ordered
  have := range.inside
  simp only [Piece.payload, length_take, length_drop]
  omega

/-- After ranges of some contents, every position inside these has the byte of the contents or is as before. -/
theorem getD_applied (ranges : ∀ piece ∈ pieces, IsRange contents.length piece) {i : ℕ} (inside : i < contents.length) :
    (applied contents data pieces).getD i 0 =
      if ∃ piece ∈ pieces, piece.start ≤ i ∧ i < piece.stop then contents.getD i 0 else data.getD i 0 := by
  induction pieces generalizing data with
  | nil => simp [applied]
  | cons piece pieces ih =>
    have range := ranges piece mem_cons_self
    have first : (piece.kind.spec.apply data (piece.payload contents)).getD i 0 =
        if piece.start ≤ i ∧ i < piece.stop then contents.getD i 0 else data.getD i 0 := by
      rw [range.apply, getD_patched _ _ _ _ _ (.inl inside), range.length_payload]
      split_ifs with within
      · rw [Piece.payload, getD_eq_getElem?_getD, getD_eq_getElem?_getD, getElem?_take_of_lt (by omega), getElem?_drop,
          Nat.add_sub_cancel' within.1]
      · rfl
    have rest := @ih (piece.kind.spec.apply data (piece.payload contents)) fun piece mem => ranges piece (mem_cons_of_mem _ mem)
    show (applied contents (piece.kind.spec.apply data (piece.payload contents)) pieces).getD i 0 = _
    rw [rest, first]
    by_cases inRest : ∃ piece ∈ pieces, piece.start ≤ i ∧ i < piece.stop
    · obtain ⟨other, mem, within⟩ := inRest
      rw [if_pos ⟨other, mem, within⟩, if_pos ⟨other, mem_cons_of_mem _ mem, within⟩]
    · rw [if_neg inRest]
      simp [inRest]

/-- The length is that of the contents if a range ends before their end, and at least that otherwise. -/
theorem length_applied (ranges : ∀ piece ∈ pieces, IsRange contents.length piece) : (applied contents data pieces).length =
    if ∃ piece ∈ pieces, piece.stop < contents.length then contents.length
    else if pieces = [] then data.length else max data.length contents.length := by
  induction pieces generalizing data with
  | nil => simp [applied]
  | cons piece pieces ih =>
    have range := ranges piece mem_cons_self
    have stop := range.inside
    have first : (piece.kind.spec.apply data (piece.payload contents)).length =
        if piece.stop < contents.length then contents.length else max data.length contents.length := by
      rw [range.apply, length_patched, range.length_payload]
      split_ifs <;> omega
    have rest := @ih (piece.kind.spec.apply data (piece.payload contents)) fun piece mem => ranges piece (mem_cons_of_mem _ mem)
    show (applied contents (piece.kind.spec.apply data (piece.payload contents)) pieces).length = _
    rw [rest, first]
    by_cases inRest : ∃ piece ∈ pieces, piece.stop < contents.length
    · obtain ⟨other, mem, less⟩ := inRest
      rw [if_pos ⟨other, mem, less⟩, if_pos ⟨other, mem_cons_of_mem _ mem, less⟩]
    · rw [if_neg inRest]
      simp only [mem_cons, exists_eq_or_imp, inRest, or_false, reduceCtorEq, if_false]
      split_ifs <;> omega

/-- The last piece leaves what is past the end of the contents. -/
theorem getD_applied_tail {first i : ℕ} (starts : first * block ≤ contents.length) (past : contents.length ≤ i) :
    (applied contents data [tailPiece block contents.length first]).getD i 0 = data.getD i 0 := by
  have range : IsRange contents.length (tailPiece block contents.length first) := ⟨rfl, starts, le_rfl⟩
  have stop : first * block + ((tailPiece block contents.length first).payload contents).length = contents.length := range.length_payload
  show (patched data _ (first * block) (some contents.length)).getD i 0 = _
  rw [getD_patched _ _ _ _ _ (.inr stop.ge)]
  exact if_neg fun within => absurd within.2 (not_lt.mpr (stop.trans_le past))

end LiteBox.Fs
