import LiteBox.Fs.MergeCorrect

/-! # Patches of two siblings

Two children adopt one file, and their patches are imported one after the other. When the blocks they changed are disjoint,
what the file should hold is given block by block.
-/

namespace LiteBox.Fs

open List Nat MergeSpec

open Mm (usizeMax isizeMax)
open Chunks

variable {base a b result : List UInt8} {block i : ℕ}

/-- No block was changed by both. A block that was cut off or added counts as changed. -/
def DisjointChanges (base a b : List UInt8) : Prop :=
  ∀ block, mergeBlockSize base.length = some block → ∀ i, chunk block a i = chunk block base i ∨ chunk block b i = chunk block base i

/-- Every block is that of the child that changed it, or the adopted one. -/
def Merged (base a b result : List UInt8) : Prop :=
  ∀ block, mergeBlockSize base.length = some block →
    ∀ i, chunk block result i = if chunk block a i = chunk block base i then chunk block b i else chunk block a i

/-- Every block after a changed one is changed. -/
def ChangedToEnd (base new : List UInt8) : Prop :=
  ∀ block, mergeBlockSize base.length = some block → ∀ i j, i ≤ j → j * block < new.length →
    chunk block new i ≠ chunk block base i → chunk block new j ≠ chunk block base j

/-- The first child kept the length of the file, and so did the second, or it only made the file longer and the changes of the
first one reach to the end, or the first one changed nothing. -/
def Compatible (base a b : List UInt8) : Prop :=
  a.length = base.length ∧ (b.length = base.length ∨ base.length < b.length ∧ ChangedToEnd base a ∨ a = base ∧ ¬CutTail base b)

theorem DisjointChanges.symm (disjoint : DisjointChanges base a b) : DisjointChanges base b a :=
  fun block sized i => (disjoint block sized i).symm

/-- Where the second child has added something, the first one has changed nothing. -/
theorem DisjointChanges.same_past (disjoint : DisjointChanges base a b) (sized : mergeBlockSize base.length = some block)
    (past : base.length ≤ i) (inside : i < b.length) : chunk block a (i / block) = chunk block base (i / block) := by
  refine (disjoint block sized (i / block)).resolve_right fun same => ?_
  have lengths := congrArg length same
  have below := div_mul_le_self i block
  have above := (div_lt_iff_lt_mul (mergeBlockSize_pos sized)).mp (lt_succ_self (i / block))
  rw [succ_mul] at above
  simp only [length_chunk] at lengths
  omega

theorem Merged.symm (disjoint : DisjointChanges base a b) (merged : Merged base a b result) : Merged base b a result := by
  intro block sized i
  rw [merged block sized i]
  rcases disjoint block sized i with same | same
  · rw [if_pos same]
    split_ifs with same'
    · rw [same, same']
    · rfl
  · rw [if_pos same]
    split_ifs with same'
    · rw [same, same']
    · rfl

/-- If the first child kept the length, the length is that of the second. -/
theorem Merged.length (merged : Merged base a b result) (disjoint : DisjointChanges base a b) (sized : mergeBlockSize base.length = some block)
    (kept : a.length = base.length) : result.length = b.length := by
  refine length_eq_of_length_chunk (mergeBlockSize_pos sized) fun i => ?_
  rw [merged block sized i]
  split_ifs with same
  · rfl
  · rw [(disjoint block sized i).resolve_left same, length_chunk, length_chunk, kept]

/-- Not both children changed the length. -/
theorem Merged.kept (merged : Merged base a b result) (disjoint : DisjointChanges base a b) (sized : mergeBlockSize base.length = some block) :
    a.length = base.length ∨ b.length = base.length := by
  have proper := mergeBlockSize_pos sized
  -- A child that is longer and one that is shorter would make the file both.
  have mixed : ∀ {x y : List UInt8}, Merged base x y result → DisjointChanges base x y → base.length < x.length → y.length < base.length → False := by
    intro x y merged disjoint longer shorter
    have longer' := length_chunk_at_end proper longer
    have shorter' := length_chunk_at_last proper shorter
    have atEnd := congrArg List.length (merged block sized (base.length / block))
    rw [if_neg fun same => by simp [same] at longer'] at atEnd
    have atLast := congrArg List.length (merged block sized ((base.length - 1) / block))
    rw [if_pos ((disjoint block sized _).resolve_right fun same => by simp [same] at shorter')] at atLast
    simp only [length_chunk] at longer' shorter' atEnd atLast
    omega
  by_contra both
  push Not at both
  rcases lt_or_gt_of_ne both.1 with shorterA | longerA <;> rcases lt_or_gt_of_ne both.2 with shorterB | longerB
  · have changedA := length_chunk_at_last proper shorterA
    have changedB := length_chunk_at_last proper shorterB
    rcases disjoint block sized ((base.length - 1) / block) with same | same
    · simp [same] at changedA
    · simp [same] at changedB
  · exact mixed (merged.symm disjoint) disjoint.symm longerB shorterA
  · exact mixed merged disjoint longerA shorterB
  · have changedA := length_chunk_at_end proper longerA
    have changedB := length_chunk_at_end proper longerB
    rcases disjoint block sized (base.length / block) with same | same
    · simp [same] at changedA
    · simp [same] at changedB

/-! ## What the file should hold -/

/-- The blocks of two children put together, when the first one kept the length. -/
def putTogether (block : ℕ) (base a b : List UInt8) : List UInt8 :=
  (List.range b.length).map fun i => if chunk block a (i / block) = chunk block base (i / block) then b.getD i 0 else a.getD i 0

theorem eq_putTogether (length : result.length = b.length)
    (bytes : ∀ i < b.length, result.getD i 0 = if chunk block a (i / block) = chunk block base (i / block) then b.getD i 0 else a.getD i 0) :
    result = putTogether block base a b := by
  refine ext_getElem (by simp [putTogether, length]) fun i before after => ?_
  have byte := bytes i (length ▸ before)
  rw [getD_eq_getElem?_getD, getElem?_eq_getElem before, Option.getD_some] at byte
  simp [putTogether, byte]

theorem merged_putTogether (sized : mergeBlockSize base.length = some block) (disjoint : DisjointChanges base a b)
    (kept : a.length = base.length) : Merged base a b (putTogether block base a b) := by
  intro block' sized' i
  cases sized.symm.trans sized'
  have byte : ∀ j < block, (putTogether block base a b)[i * block + j]? = if i * block + j < b.length then
      some (if chunk block a i = chunk block base i then b.getD (i * block + j) 0 else a.getD (i * block + j) 0) else none := by
    intro j inside
    have index : (i * block + j) / block = i := by
      rw [add_comm, add_mul_div_right _ _ (by omega), div_eq_of_lt inside, zero_add]
    rw [putTogether, getElem?_map]
    split_ifs with within same
    · simp [getElem?_range within, index, same]
    · simp [getElem?_range within, index, same]
    · simp [not_lt.mp within]
  split_ifs with same
  · refine chunk_ext fun j inside => ?_
    rw [byte j inside, if_pos same]
    split_ifs with within
    · simp [getElem?_eq_getElem within]
    · simp [not_lt.mp within]
  · have lengths := congrArg length ((disjoint block sized i).resolve_left same)
    simp only [length_chunk] at lengths
    refine chunk_ext fun j inside => ?_
    rw [byte j inside, if_neg same]
    split_ifs with within
    · simp [getElem?_eq_getElem (by omega : i * block + j < a.length)]
    · simp [(by omega : a.length ≤ i * block + j)]

/-! ## What the file holds -/

/-- An export has only patches. -/
def OnlyPatches (pieces : List Piece) : Prop := ∀ piece ∈ pieces, piece.kind ≠ .whole

section Hash

variable {H : Type} {hash : List UInt8 → H} {piecesA piecesB : List Piece}

/-- What is known of the export of a child that has only patches. -/
structure Exported (hash : List UInt8 → H) (base new : List UInt8) (pieces : List Piece) : Prop where
  shape : Pieces hash base new pieces
  patches : OnlyPatches pieces
  free : CollisionFree hash base new

theorem Exported.nil (export_ : Exported hash base base piecesA) : piecesA = [] := by
  obtain ⟨shape, patches, -⟩ := export_
  cases shape with
  | whole => exact absurd rfl (patches _ (mem_singleton.mpr rfl))
  | none => rfl
  | append longer => exact absurd longer (lt_irrefl _)
  | runs block closed last sized runs rewritten => exact absurd ⟨le_rfl, take_length⟩ rewritten

theorem getD_of_chunk {x y : List UInt8} (proper : 0 < block) (same : chunk block x (i / block) = chunk block y (i / block)) :
    x.getD i 0 = y.getD i 0 := by
  rw [getD_eq_getElem?_getD, getD_eq_getElem?_getD, getElem?_of_chunk proper same]

theorem payload_append (base new : List UInt8) :
    (⟨.append base.length, base.length, new.length⟩ : Piece).payload new = new.drop base.length := by
  rw [Piece.payload, take_of_length_le (by simp)]

/-- The export of a child that only appended adds what it added. -/
theorem Exported.appended {tail data : List UInt8} (child : Exported hash base (base ++ tail) piecesA) (long : base.length ≤ data.length) :
    applied (base ++ tail) data piecesA = data ++ tail ∧
      (data.length + tail.length ≤ isizeMax → Reaches (base ++ tail) data piecesA) := by
  obtain ⟨shape, patches, -⟩ := child
  cases shape with
  | whole => exact absurd rfl (patches _ (mem_singleton.mpr rfl))
  | none same =>
    obtain rfl : tail = [] := by simpa using same
    exact ⟨(append_nil data).symm, fun _ => trivial⟩
  | append longer same =>
    refine ⟨?_, fun small => ⟨?_, trivial⟩⟩
    · show (append base.length).apply data _ = _
      rw [apply_append long, payload_append, drop_left]
    · simp only [payload_append, drop_left, MergeKind.spec, reach, max_eq_left long]
      exact small
  | runs block closed last sized runs rewritten => exact absurd ⟨by simp, by simp⟩ rewritten

variable [DecidableEq H] (childA : Exported hash base a piecesA) (childB : Exported hash base b piecesB)
  (sized : mergeBlockSize base.length = some block) (disjoint : DisjointChanges base a b)
include sized disjoint

include childA in
/-- The patch of the child that kept the length, after that of the other one. -/
theorem applied_kept (kept : a.length = base.length) (longer : b.length = base.length ∨ base.length < b.length ∧ ChangedToEnd base a) :
    applied a b piecesA = putTogether block base a b := by
  obtain ⟨shape, patches, free⟩ := childA
  have proper := mergeBlockSize_pos sized
  cases shape with
  | whole => exact absurd rfl (patches _ (mem_singleton.mpr rfl))
  | none same =>
    refine eq_putTogether rfl fun i _ => ?_
    rw [same, if_pos rfl]
    rfl
  | append longer => omega
  | runs block' closed last sized' runs rewritten some half =>
    cases sized.symm.trans sized'
    have unchanged : ∀ i, i * block < a.length → (Unchanged hash base a block i ↔ chunk block a i = chunk block base i) :=
      fun i => unchanged_iff free sized
    have tail : base.length < b.length → closed = [] := by
      intro more
      refine eq_nil_iff_forall_not_mem.mpr fun piece mem => ?_
      obtain ⟨first, next, less, run⟩ := runs.ended piece mem
      have within : first * block < a.length := (mul_le_mul_right block run.nonempty.le).trans_lt less
      exact (longer.resolve_left more.ne').2 block sized first next run.nonempty.le less
        (fun same => run.changed first le_rfl run.nonempty ((unchanged first within).mpr same)) ((unchanged next less).mp run.ended)
    refine eq_putTogether ?_ fun i inside => ?_
    · rw [runs.length_applied some]
      split_ifs with early
      · rcases longer with same | more
        · rw [kept, same]
        · exact absurd (tail more.1) early
      · omega
    · by_cases within : i < a.length
      · rw [runs.getD_applied proper within]
        simp [unchanged _ ((div_mul_le_self i block).trans_lt within)]
      · obtain rfl := tail (by omega)
        cases last with
        | none => exact absurd rfl some
        | some first =>
          have starts := (runs.tail first rfl).1
          show (applied a b [tailPiece block a.length first]).getD i 0 = _
          rw [getD_applied_tail starts.le (not_lt.mp within), if_pos (disjoint.same_past sized (kept ▸ not_lt.mp within) inside)]

include childB in
/-- The patch of the other child, after that of the one that kept the length. -/
theorem applied_other (kept : a.length = base.length) (longer : base.length ≤ b.length) :
    applied b a piecesB = putTogether block base a b := by
  obtain ⟨shape, patches, free⟩ := childB
  have proper := mergeBlockSize_pos sized
  cases shape with
  | whole => exact absurd rfl (patches _ (mem_singleton.mpr rfl))
  | none same =>
    refine eq_putTogether (by rw [same]; exact kept) fun i _ => ?_
    split_ifs with same'
    · rw [same]
      exact getD_of_chunk proper same'
    · rfl
  | append more same =>
    have ran : applied b a [⟨.append base.length, base.length, b.length⟩] = a ++ b.drop base.length := by
      show (append base.length).apply a _ = _
      rw [apply_append kept.ge, payload_append]
    rw [ran]
    refine eq_putTogether (by simp; omega) fun i inside => ?_
    by_cases within : i < base.length
    · have adopted : b.getD i 0 = base.getD i 0 := by
        rw [← same, getD_eq_getElem?_getD, getD_eq_getElem?_getD, getElem?_take_of_lt within]
      have byte : (a ++ b.drop base.length).getD i 0 = a.getD i 0 := by
        rw [getD_eq_getElem?_getD, getD_eq_getElem?_getD, getElem?_append_left (by omega)]
      rw [byte, adopted]
      split_ifs with same'
      · exact getD_of_chunk proper same'
      · rfl
    · rw [if_pos (disjoint.same_past sized (not_lt.mp within) inside), getD_eq_getElem?_getD, getD_eq_getElem?_getD,
        getElem?_append_right (by omega), getElem?_drop]
      congr 2
      omega
  | runs block' closed last sized' runs rewritten some half =>
    cases sized.symm.trans sized'
    refine eq_putTogether ?_ fun i inside => ?_
    · rw [runs.length_applied some]
      split_ifs
      · rfl
      · omega
    · rw [runs.getD_applied proper inside]
      simp only [unchanged_iff free sized ((div_mul_le_self i block).trans_lt inside)]
      rcases disjoint block sized (i / block) with same | same
      · rw [if_pos same]
        split_ifs with same'
        · exact getD_of_chunk proper (same.trans same'.symm)
        · rfl
      · rw [if_pos same]
        split_ifs with same'
        · exact getD_of_chunk proper (same'.trans same.symm)
        · rfl

/-- The two exports make the same file in either order, with the blocks of both. -/
def Commute (base a b : List UInt8) (piecesA piecesB : List Piece) : Prop :=
  applied b (applied a base piecesA) piecesB = applied a (applied b base piecesB) piecesA ∧
    Merged base a b (applied b (applied a base piecesA) piecesB)

omit sized [DecidableEq H] in
theorem Commute.symm (commute : Commute base a b piecesA piecesB) : Commute base b a piecesB piecesA :=
  ⟨commute.1.symm, commute.1 ▸ commute.2.symm disjoint⟩

include childA childB

theorem commute_of_compatible (compatible : Compatible base a b) : Commute base a b piecesA piecesB := by
  obtain ⟨kept, other⟩ := compatible
  have alone : applied a base piecesA = a := (childA.shape.applied_eq_iff childA.free).mpr fun cut => absurd cut.1 (by omega)
  have grown (longer : b.length = base.length ∨ base.length < b.length ∧ ChangedToEnd base a) : Commute base a b piecesA piecesB := by
    have alone' : applied b base piecesB = b := (childB.shape.applied_eq_iff childB.free).mpr fun cut => absurd cut.1 (by omega)
    rw [Commute, alone, alone', applied_other childB sized disjoint kept (by omega), applied_kept childA sized disjoint kept longer]
    exact ⟨rfl, merged_putTogether sized disjoint kept⟩
  rcases other with same | longer | ⟨rfl, whole⟩
  · exact grown (.inl same)
  · exact grown (.inr longer)
  · have alone' : applied b a piecesB = b := (childB.shape.applied_eq_iff childB.free).mpr whole
    rw [Commute, alone, alone', childA.nil]
    exact ⟨rfl, fun block sized i => by rw [if_pos rfl]⟩

theorem compatible_of_commute (kept : a.length = base.length) (commute : Commute base a b piecesA piecesB) : Compatible base a b := by
  obtain ⟨equal, merged⟩ := commute
  have length := merged.length disjoint sized kept
  refine ⟨kept, ?_⟩
  obtain ⟨shape, patches, free⟩ := childA
  cases shape with
  | whole => exact absurd rfl (patches _ (mem_singleton.mpr rfl))
  | append longer => omega
  | none same =>
    subst same
    refine .inr (.inr ⟨rfl, (childB.shape.applied_eq_iff childB.free).mp ?_⟩)
    refine eq_of_chunk (mergeBlockSize_pos sized) fun i => ?_
    have chunks := merged block sized i
    rwa [if_pos rfl] at chunks
  | runs block' closed last sized' runs rewritten some half =>
    cases sized.symm.trans sized'
    rw [equal, runs.length_applied some] at length
    split_ifs at length with early
    · exact .inl (by omega)
    · rw [not_not] at early
      subst early
      rcases lt_or_ge base.length b.length with more | less
      · refine .inr (.inl ⟨more, ?_⟩)
        intro block' sized' i j order inside changed
        cases sized.symm.trans sized'
        have within : i * block < a.length := (mul_le_mul_right block order).trans_lt inside
        rcases runs.covered i within fun unchanged => changed ((unchanged_iff free sized within).mp unchanged) with
          ⟨piece, mem, -⟩ | ⟨first, least, isLast⟩
        · simp at mem
        · exact fun same => (runs.tail first isLast).2 j (least.trans order) inside ((unchanged_iff free sized inside).mpr same)
      · exact .inl (by omega)

theorem commute_iff : Commute base a b piecesA piecesB ↔ Compatible base a b ∨ Compatible base b a := by
  constructor
  · intro commute
    rcases commute.2.kept disjoint sized with kept | kept
    · exact .inl (compatible_of_commute childA childB sized disjoint kept commute)
    · exact .inr (compatible_of_commute childB childA sized disjoint.symm kept (commute.symm disjoint))
  · rintro (compatible | compatible)
    · exact commute_of_compatible childA childB sized disjoint compatible
    · exact (commute_of_compatible childB childA sized disjoint.symm compatible).symm disjoint.symm

/-- The second export does not reach further than its own file. -/
theorem reaches_second (small : b.length ≤ isizeMax) : Reaches b (applied a base piecesA) piecesB := by
  obtain ⟨shape, patches, -⟩ := childB
  cases shape with
  | whole => exact absurd rfl (patches _ (mem_singleton.mpr rfl))
  | none => trivial
  | runs block closed last sized runs => exact reaches_ranges (fun piece => runs.ranges) small
  | append longer same =>
    have shorter : a.length ≤ base.length := by
      refine not_lt.mp fun longer' => ?_
      have changed := length_chunk_at_end (mergeBlockSize_pos sized) longer'
      rw [disjoint.same_past sized le_rfl longer] at changed
      exact lt_irrefl _ changed
    have length : (applied a base piecesA).length ≤ base.length := by
      obtain ⟨shape, patches, -⟩ := childA
      cases shape with
      | whole => exact absurd rfl (patches _ (mem_singleton.mpr rfl))
      | none => exact le_rfl
      | append more => omega
      | runs block closed last sized runs rewritten some half =>
        rw [runs.length_applied some]
        split_ifs
        · exact shorter
        · omega
    refine ⟨?_, trivial⟩
    simp only [payload_append, MergeKind.spec, reach, length_drop]
    omega

end Hash

/-- Imports the exports of two children of one file. -/
def FileSystem.importTwo {σ : Type} (fs : FileSystem σ) (env : Env) (path : Path) (mode : Mode) (first second : List UInt8)
    (piecesFirst piecesSecond : List Piece) : Prog σ (Halt ImportError) Unit := do
  fs.importPieces env path mode first piecesFirst
  fs.importPieces env path mode second piecesSecond

namespace InMem

variable {s : InMem} {env : Env} {path : Path} {file : ℕ} {H : Type} [DecidableEq H] {hash : List UInt8 → H}

theorem importTwo_run {mode : Mode} {first second : List UInt8} {piecesFirst piecesSecond : List Piece} (leads : s.Leads env path file)
    (root : env.user.user = 0) (reaches : Reaches first (s.files file).data piecesFirst)
    (reaches' : Reaches second (applied first (s.files file).data piecesFirst) piecesSecond) :
    ∃ t, fileSystem.importTwo env path mode first second piecesFirst piecesSecond s = (.ok (), t) ∧
      Rewrote s t file (applied second (applied first (s.files file).data piecesFirst) piecesSecond) := by
  obtain ⟨t, ran, rewrote⟩ := @importPieces_run first piecesFirst s env path file mode leads root reaches
  obtain ⟨u, ran', rewrote'⟩ := @importPieces_run second piecesSecond t env path file mode (leads.congr rewrote.names) root
    (by rw [rewrote.data]; exact reaches')
  rw [rewrote.data] at rewrote'
  refine ⟨u, ?_, rewrote.trans rewrote'⟩
  rw [FileSystem.importTwo, Prog.bind_of_ok ran, ran']

/-- What a child of an adopted file exports of it. -/
def exportOf (hash : List UInt8 → H) (attributes : Mode × ℕ × ℕ) (base new : List UInt8) : List Piece :=
  mergePieces hash new (some (adoptedFile hash attributes.1 attributes.2.1 attributes.2.2 base))

variable {attributes : Mode × ℕ × ℕ}

theorem sized_of_patches {base new : List UInt8} (patches : OnlyPatches (exportOf hash attributes base new)) :
    ∃ block, mergeBlockSize base.length = some block := by
  cases sized : mergeBlockSize base.length with
  | some block => exact ⟨block, rfl⟩
  | none =>
    refine absurd rfl (patches ⟨.whole, 0, new.length⟩ ?_)
    simp [exportOf, mergePieces, adoptedFile, payloadBlocks, sized]

/-- Two children changed disjoint blocks of a file, and their exports are patches. Imported in either order they make the same file, with the
blocks of both, exactly when the lengths of the children are compatible. What two children appended is there in the order of the imports. -/
theorem siblings_merge_iff {base a b : List UInt8} (freeA : CollisionFree hash base a) (freeB : CollisionFree hash base b)
    (smallA : a.length ≤ isizeMax) (smallB : b.length ≤ isizeMax) (patchesA : OnlyPatches (exportOf hash attributes base a))
    (patchesB : OnlyPatches (exportOf hash attributes base b)) (leads : s.Leads env path file) (root : env.user.user = 0)
    (still : (s.files file).data = base) (mode : Mode) :
    (DisjointChanges base a b →
      ((∃ t u result, fileSystem.importTwo env path mode a b (exportOf hash attributes base a) (exportOf hash attributes base b) s = (.ok (), t) ∧
          fileSystem.importTwo env path mode b a (exportOf hash attributes base b) (exportOf hash attributes base a) s = (.ok (), u) ∧
          Rewrote s t file result ∧ Rewrote s u file result ∧ Merged base a b result) ↔ Compatible base a b ∨ Compatible base b a)) ∧
    (∀ tailA tailB, a = base ++ tailA → b = base ++ tailB → base.length + tailA.length + tailB.length ≤ isizeMax →
      ∃ t, fileSystem.importTwo env path mode a b (exportOf hash attributes base a) (exportOf hash attributes base b) s = (.ok (), t) ∧
        Rewrote s t file (base ++ tailA ++ tailB)) := by
  have childA : Exported hash base a (exportOf hash attributes base a) := ⟨mergePieces_pieces freeA _ _ _, patchesA, freeA⟩
  have childB : Exported hash base b (exportOf hash attributes base b) := ⟨mergePieces_pieces freeB _ _ _, patchesB, freeB⟩
  obtain ⟨block, sized⟩ := sized_of_patches patchesA
  have alone : Reaches a (s.files file).data (exportOf hash attributes base a) := still ▸ childA.shape.reaches smallA
  have alone' : Reaches b (s.files file).data (exportOf hash attributes base b) := still ▸ childB.shape.reaches smallB
  constructor
  · intro disjoint
    obtain ⟨t, ran, rewrote⟩ := @importTwo_run s env path file mode a b _ (exportOf hash attributes base b) leads root alone
      (by rw [still]; exact reaches_second childA childB sized disjoint smallB)
    obtain ⟨u, ran', rewrote'⟩ := @importTwo_run s env path file mode b a _ (exportOf hash attributes base a) leads root alone'
      (by rw [still]; exact reaches_second childB childA sized disjoint.symm smallA)
    rw [still] at rewrote rewrote'
    rw [← commute_iff childA childB sized disjoint, ran, ran']
    constructor
    · rintro ⟨t', u', result, isT, isU, left, right, merged⟩
      cases isT
      cases isU
      obtain rfl := left.data.symm.trans rewrote.data
      exact ⟨right.data.symm.trans rewrote'.data, merged⟩
    · rintro ⟨equal, merged⟩
      exact ⟨t, u, _, rfl, rfl, rewrote, equal ▸ rewrote', merged⟩
  · rintro tailA tailB rfl rfl small
    obtain ⟨first, -⟩ := childA.appended (le_refl base.length)
    obtain ⟨second, reaches⟩ := childB.appended (show base.length ≤ (base ++ tailA).length by simp)
    obtain ⟨t, ran, rewrote⟩ := @importTwo_run s env path file mode _ (base ++ tailB) _ (exportOf hash attributes base (base ++ tailB)) leads root alone
      (by rw [still, first]; exact reaches (by simpa using small))
    rw [still, first, second] at rewrote
    exact ⟨t, ran, rewrote⟩

/-- Two blocks of zeros, and what they are with the first byte, the last byte or one more byte set. -/
def zeros : List UInt8 := replicate 256 0
def firstSet : List UInt8 := 1 :: replicate 255 0
def lastSet : List UInt8 := replicate 255 0 ++ [1]
def oneMore : List UInt8 := replicate 256 0 ++ [1]

theorem disjoint_firstSet {other : List UInt8} (same : chunk 128 other 0 = chunk 128 zeros 0) : DisjointChanges zeros firstSet other := by
  intro block sized i
  rw [zeros, length_replicate] at sized
  obtain rfl : 128 = block := Option.some.inj sized
  match i with
  | 0 => exact .inr same
  | 1 => exact .inl (by decide +kernel)
  | i + 2 =>
    have past {data : List UInt8} (length : data.length = 256) : chunk 128 data (i + 2) = [] := by
      rw [chunk, drop_eq_nil_of_le (by omega), take_nil]
    exact .inl ((past (by decide +kernel)).trans (past (by decide +kernel)).symm)

theorem siblings_merge_ends : ∃ t u, fileSystem.importTwo ⟨.root, epoch⟩ ["", "f"] 0o644 firstSet lastSet
        (exportOf id (0o644, 0, 0) zeros firstSet) (exportOf id (0o644, 0, 0) zeros lastSet) (holding zeros) = (.ok (), t) ∧
      fileSystem.importTwo ⟨.root, epoch⟩ ["", "f"] 0o644 lastSet firstSet
        (exportOf id (0o644, 0, 0) zeros lastSet) (exportOf id (0o644, 0, 0) zeros firstSet) (holding zeros) = (.ok (), u) ∧
      (t.files 1).data = (u.files 1).data := by
  have free : ∀ new, CollisionFree id zeros new := fun _ _ _ _ _ _ _ same => same
  have leads : (holding zeros).Leads ⟨.root, epoch⟩ ["", "f"] 1 :=
    ⟨["", "f"], ["", "f"], some ([""], 0), some ([""], 0), rfl, rfl, rfl, rfl⟩
  have disjoint : DisjointChanges zeros firstSet lastSet := disjoint_firstSet (by decide +kernel)
  have patches : OnlyPatches (exportOf id (0o644, 0, 0) zeros firstSet) ∧ OnlyPatches (exportOf id (0o644, 0, 0) zeros lastSet) := by
    unfold OnlyPatches
    decide +kernel
  have sizes : firstSet.length ≤ isizeMax ∧ lastSet.length ≤ isizeMax := by decide +kernel
  have compatible : Compatible zeros firstSet lastSet := ⟨by decide +kernel, .inl (by decide +kernel)⟩
  have still : ((holding zeros).files 1).data = zeros := (rewrote_withData opened epoch 1 zeros).data
  obtain ⟨t, u, result, first, second, left, right, -⟩ :=
    ((siblings_merge_iff (free _) (free _) sizes.1 sizes.2 patches.1 patches.2 leads rfl still 0o644).1 disjoint).mpr (.inl compatible)
  exact ⟨t, u, first, second, left.data.trans right.data.symm⟩

/-- What one child appended is cut off again when the other one's change at the start of the file is imported. -/
theorem appended_byte_is_cut_off : DisjointChanges zeros firstSet oneMore ∧ OnlyPatches (exportOf id (0o644, 0, 0) zeros firstSet) ∧
    OnlyPatches (exportOf id (0o644, 0, 0) zeros oneMore) ∧
    ((fileSystem.importTwo ⟨.root, epoch⟩ ["", "f"] 0o644 firstSet oneMore
      (exportOf id (0o644, 0, 0) zeros firstSet) (exportOf id (0o644, 0, 0) zeros oneMore) (holding zeros)).2.files 1).data = firstSet ++ [1] ∧
    ((fileSystem.importTwo ⟨.root, epoch⟩ ["", "f"] 0o644 oneMore firstSet
      (exportOf id (0o644, 0, 0) zeros oneMore) (exportOf id (0o644, 0, 0) zeros firstSet) (holding zeros)).2.files 1).data = firstSet := by
  refine ⟨disjoint_firstSet (by decide +kernel), ?_, ?_, by decide +kernel, by decide +kernel⟩
  · unfold OnlyPatches
    decide +kernel
  · unfold OnlyPatches
    decide +kernel

end InMem

end LiteBox.Fs
