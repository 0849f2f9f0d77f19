import LiteBox.Rewriter.Chunking

/-! # Scanning a section

`scan_section` keeps of a decode only the near branch targets and, for each `syscall`, a window of
up to eight instructions on either side. `sitesOf` says what that is in terms of the whole
instruction sequence: the contiguous run around each position that holds a `syscall`.
-/

namespace LiteBox.Rewriter

open List

def syscallContextInstructions : ℕ := 8

/-- One `syscall` with the decoded run around it; `idx` is its position in the run. -/
structure SyscallSite (iced : Iced) where
  idx : ℕ
  window : List iced.Inst

/-- The locals of the scan. A site's flag says that its index is in `pending`. -/
structure ScanState (iced : Iced) where
  targets : List ℕ
  sites : List (SyscallSite iced × Bool)
  ring : List iced.Inst

variable {iced : Iced}

/-- A site whose forward context has room for more instructions. -/
def SyscallSite.hasRoom (site : SyscallSite iced) : Bool :=
  site.window.length < site.idx + 1 + syscallContextInstructions

def SyscallSite.push (site : SyscallSite iced) (inst : iced.Inst) : SyscallSite iced :=
  { site with window := site.window ++ [inst] }

/-- The sink of the scan: what one decoded instruction adds. -/
def scanInst (state : ScanState iced) (inst : iced.Inst) : ScanState iced :=
  let target := iced.nearBranchTarget inst
  let targets := if target ≠ 0 then state.targets ++ [target] else state.targets
  let extended := state.sites.map fun (site, pending) =>
    if pending then (site.push inst, (site.push inst).hasRoom) else (site, pending)
  let sites :=
    if iced.isSyscall inst then extended ++ [(⟨state.ring.length, state.ring ++ [inst]⟩, true)]
    else extended
  let ring := if state.ring.length = syscallContextInstructions then state.ring.drop 1 else state.ring
  ⟨targets, sites, ring ++ [inst]⟩

def scanAll (insts : List iced.Inst) : ScanState iced := insts.foldl scanInst ⟨[], [], []⟩

/-- `sorted_deduped`; on a sorted list `dedup` leaves each value once. -/
def sortedDeduped (offsets : List ℕ) : List ℕ := (offsets.insertionSort (· ≤ ·)).dedup

structure SegmentScanTemplate (iced : Iced) where
  targetOffsets : List ℕ
  sites : List (SyscallSite iced)

def templateOf (insts : List iced.Inst) : SegmentScanTemplate iced :=
  ⟨sortedDeduped (scanAll insts).targets, (scanAll insts).sites.map Prod.fst⟩

def scanSection (iced : Iced) (chunk : ChunkLen) (host : Host) (data : List UInt8) (baseAddr : UInt64) :
    Except Error (SegmentScanTemplate iced) :=
  (forEachDecodedInstruction iced chunk host data baseAddr).map templateOf

/-! ## What a scan finds -/

/-- The near branch targets of a sequence, those at address zero left out. -/
def nearTargets (insts : List iced.Inst) : List ℕ :=
  (insts.map iced.nearBranchTarget).filter (· ≠ 0)

/-- The positions of a sequence that hold a `syscall`. -/
def syscallPositions (insts : List iced.Inst) : List ℕ :=
  (List.range insts.length).filter fun k => insts[k]?.any iced.isSyscall

/-- The run around a position: eight instructions before it, or as many as there are, and eight
after it. -/
def siteAt (insts : List iced.Inst) (k : ℕ) : SyscallSite iced where
  idx := min k syscallContextInstructions
  window := (insts.drop (k - syscallContextInstructions)).take (min k syscallContextInstructions + 1 + syscallContextInstructions)

def sitesOf (insts : List iced.Inst) : List (SyscallSite iced) :=
  (syscallPositions insts).map (siteAt insts)

variable (insts : List iced.Inst)

include insts

theorem syscallPositions_concat (inst : iced.Inst) :
    syscallPositions (insts ++ [inst]) = syscallPositions insts ++ if iced.isSyscall inst then [insts.length] else [] := by
  have earlier : ∀ k ∈ List.range insts.length,
      (insts ++ [inst])[k]?.any iced.isSyscall = insts[k]?.any iced.isSyscall := by
    intro k member
    rw [getElem?_append_left (mem_range.mp member)]
  rw [syscallPositions, length_append, length_singleton, range_succ, filter_append, filter_congr earlier, syscallPositions]
  congr 1
  cases isSyscall : iced.isSyscall inst <;> simp [isSyscall]

variable {k : ℕ}

theorem siteAt_length (inside : k < insts.length) :
    (siteAt insts k).window.length = min (insts.length - (k - 8)) (min k 8 + 1 + 8) := by
  simp only [siteAt, syscallContextInstructions, length_take, length_drop]
  omega

/-- An instruction at the end only reaches the windows that still have room. -/
theorem siteAt_concat (inst : iced.Inst) (inside : k < insts.length) :
    siteAt (insts ++ [inst]) k = if (siteAt insts k).hasRoom then (siteAt insts k).push inst else siteAt insts k := by
  have length := siteAt_length insts inside
  have idx_eq : (siteAt insts k).idx = min k 8 := rfl
  have split : (insts ++ [inst]).drop (k - 8) = insts.drop (k - 8) ++ [inst] :=
    drop_append_of_le_length (by omega)
  split_ifs with room
  · simp only [SyscallSite.hasRoom, decide_eq_true_eq, idx_eq, syscallContextInstructions] at room
    rw [length] at room
    simp only [siteAt, SyscallSite.push, syscallContextInstructions, split, SyscallSite.mk.injEq, true_and]
    rw [take_of_length_le (by simp only [length_append, length_drop, length_singleton]; omega),
      take_of_length_le (by simp only [length_drop]; omega)]
  · simp only [SyscallSite.hasRoom, decide_eq_true_eq, idx_eq, syscallContextInstructions] at room
    rw [length] at room
    simp only [siteAt, syscallContextInstructions, split, SyscallSite.mk.injEq, true_and]
    exact take_append_of_le_length (by rw [length_drop]; omega)

omit insts in
theorem mem_syscallPositions {insts : List iced.Inst} :
    k ∈ syscallPositions insts ↔ ∃ inst, insts[k]? = some inst ∧ iced.isSyscall inst = true := by
  rw [syscallPositions, mem_filter, mem_range, Option.any_eq_true]
  constructor
  · exact fun found => found.2
  · rintro ⟨inst, read, isSyscall⟩
    exact ⟨(List.getElem?_eq_some_iff.mp read).1, inst, read, isSyscall⟩

omit insts in
theorem lt_of_mem_syscallPositions {insts : List iced.Inst} (member : k ∈ syscallPositions insts) :
    k < insts.length := mem_range.mp (mem_filter.mp member).1

theorem syscallPositions_sorted : (syscallPositions insts).Pairwise (· < ·) :=
  List.Pairwise.filter _ pairwise_lt_range

/-- The window of the last instruction is what the ring held, and the instruction. -/
theorem siteAt_last (inst : iced.Inst) :
    siteAt (insts ++ [inst]) insts.length =
      ⟨(insts.drop (insts.length - 8)).length, insts.drop (insts.length - 8) ++ [inst]⟩ := by
  simp only [siteAt, syscallContextInstructions, SyscallSite.mk.injEq]
  refine ⟨by rw [length_drop]; omega, ?_⟩
  rw [drop_append_of_le_length (by omega), take_of_length_le]
  simp only [length_append, length_drop, length_singleton]
  omega

/-- The scan's locals after any sequence of instructions. -/
theorem scanAll_eq :
    scanAll insts =
      ⟨nearTargets insts,
        (syscallPositions insts).map fun k => (siteAt insts k, (siteAt insts k).hasRoom), insts.drop (insts.length - 8)⟩ := by
  induction insts using reverseRecOn with
  | nil => rfl
  | append_singleton insts inst ih =>
    have targets : nearTargets (insts ++ [inst]) =
        if iced.nearBranchTarget inst ≠ 0 then nearTargets insts ++ [iced.nearBranchTarget inst]
        else nearTargets insts := by
      unfold nearTargets
      split_ifs with branch <;> simp [branch]
    have windows : ∀ k ∈ syscallPositions insts,
        (siteAt (insts ++ [inst]) k, (siteAt (insts ++ [inst]) k).hasRoom) =
          if (siteAt insts k).hasRoom then
            ((siteAt insts k).push inst, ((siteAt insts k).push inst).hasRoom)
          else (siteAt insts k, (siteAt insts k).hasRoom) := by
      intro k member
      rw [siteAt_concat insts inst (lt_of_mem_syscallPositions member)]
      split_ifs <;> rfl
    have ring : (insts ++ [inst]).drop ((insts ++ [inst]).length - 8) =
        (if (insts.drop (insts.length - 8)).length = syscallContextInstructions then
          (insts.drop (insts.length - 8)).drop 1 else insts.drop (insts.length - 8)) ++ [inst] := by
      simp only [length_append, length_singleton, length_drop, syscallContextInstructions]
      split_ifs with full
      · rw [drop_drop, drop_append_of_le_length (by omega)]
        congr 2
        omega
      · rw [drop_append_of_le_length (by omega)]
        congr 2
        omega
    have last : (siteAt (insts ++ [inst]) insts.length).hasRoom = true := by
      rw [siteAt_last]
      simp only [SyscallSite.hasRoom, length_append, length_singleton, syscallContextInstructions]
      exact decide_eq_true (by omega)
    rw [scanAll, foldl_append, foldl_cons, foldl_nil, ← scanAll, ih, scanInst, targets, ring,
      syscallPositions_concat, map_append, map_congr_left windows]
    simp only [map_map, ScanState.mk.injEq, true_and, and_true]
    cases isSyscall : iced.isSyscall inst with
    | false => simp [Function.comp_def]
    | true =>
      rw [if_pos rfl, if_pos rfl, map_singleton, last, siteAt_last]
      rfl

theorem templateOf_sites : (templateOf insts).sites = sitesOf insts := by
  rw [templateOf, scanAll_eq]
  simp [sitesOf, Function.comp_def]

theorem mem_templateOf_targets (target : ℕ) :
    target ∈ (templateOf insts).targetOffsets ↔ target ≠ 0 ∧ ∃ inst ∈ insts, iced.nearBranchTarget inst = target := by
  rw [templateOf, scanAll_eq, sortedDeduped, mem_dedup, mem_insertionSort, nearTargets, mem_filter, mem_map, decide_eq_true_eq]
  exact and_comm

end LiteBox.Rewriter
