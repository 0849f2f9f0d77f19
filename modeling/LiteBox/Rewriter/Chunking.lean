import LiteBox.Rewriter.Decode
import LiteBox.Rewriter.Subset

/-! # When chunked decoding is invisible

A single linear decode of a section is a sweep whose token widths are the instruction lengths; the
chunks are a sweep of their own. `for_each_decoded_instruction` hands out, chunk by chunk, the
instructions that a decode started afresh at the chunk's first byte finds, so it agrees with the
linear decode exactly when every chunk starts at an instruction of it.
-/

namespace LiteBox.Rewriter

open Sweep List Nat Subset

variable {iced : Iced}

/-- The instruction a decoder finds at an offset of a section. -/
def instAt (iced : Iced) (data : List UInt8) (baseAddr offset : ℕ) : iced.Inst :=
  iced.decode (data.drop offset) (baseAddr + offset)

/-- How far the instruction at an offset reaches; past the end nothing is decoded. -/
def instLen (iced : Iced) (data : List UInt8) (baseAddr offset : ℕ) : ℕ :=
  if offset < data.length then iced.len (instAt iced data baseAddr offset) else 1

/-- The offsets of the instructions of one decode of the whole section from its start. -/
def linearOffsets (iced : Iced) (data : List UInt8) (baseAddr : ℕ) : List ℕ :=
  sweep (instLen iced data baseAddr) data.length 0

/-- What a single linear decode of the whole section produces. -/
def linearDecode (iced : Iced) (data : List UInt8) (baseAddr : ℕ) : List iced.Inst :=
  (linearOffsets iced data baseAddr).map (instAt iced data baseAddr)

/-- The chunks as the widths of a sweep. -/
def chunkWidth (chunk : ChunkLen) (host : Host) (total offset : ℕ) : ℕ :=
  if offset < total then chunkAdvanceLen chunk host total offset else 1

/-- The offsets at which decoding starts afresh. -/
def chunkStarts (chunk : ChunkLen) (host : Host) (total : ℕ) : List ℕ :=
  sweep (chunkWidth chunk host total) total 0

variable {offset fuel : ℕ}

section Laws

variable (laws : iced.DecodeLaws) {data : List UInt8} {baseAddr : ℕ}

include laws

theorem instLen_pos (offset : ℕ) : 0 < instLen iced data baseAddr offset := by
  unfold instLen
  split_ifs with inside
  · exact laws.len_pos _ _ (by simpa using inside)
  · exact one_pos

theorem instLen_le (inside : offset < data.length) : offset + instLen iced data baseAddr offset ≤ data.length := by
  have fits := laws.len_le (data.drop offset) (baseAddr + offset)
  rw [length_drop] at fits
  rw [instLen, if_pos inside, instAt]
  omega

/-- A window that holds the longest instruction, or all that is left, decodes like the section. -/
theorem decode_window {count : ℕ} (enough : maxX86InstructionLen ≤ count ∨ data.length ≤ offset + count) :
    iced.decode ((data.drop offset).take count) (baseAddr + offset) = instAt iced data baseAddr offset := by
  rcases enough with long | whole
  · rw [instAt, ← laws.reads_max, ← laws.reads_max (data.drop offset), take_take, min_eq_left long]
  · rw [instAt, take_of_length_le]
    rw [length_drop]
    omega

/-- One window hands out the sweep from its start to the end of its chunk. -/
theorem appendDecodedNonCrossingWindow_eq {stop : ℕ} (below : stop ≤ data.length) {count : ℕ}
    (enough : stop + chunkOverlapLen ≤ offset + count ∨ data.length ≤ offset + count)
    (fueled : ((data.drop offset).take count).length ≤ fuel) :
    appendDecodedNonCrossingWindow iced (baseAddr + stop) fuel ((data.drop offset).take count)
        (baseAddr + offset) =
      .ok ((sweep (instLen iced data baseAddr) stop offset).map (instAt iced data baseAddr)) := by
  induction fuel generalizing offset count with
  | zero =>
    have empty : ((data.drop offset).take count).length = 0 := le_zero.mp fueled
    simp only [length_take, length_drop] at empty
    rw [appendDecodedNonCrossingWindow, sweep_of_le (by omega)]
    rfl
  | succ fuel ih =>
    have overlap : chunkOverlapLen = 14 := rfl
    have longest : maxX86InstructionLen = 15 := rfl
    rw [appendDecodedNonCrossingWindow]
    by_cases inside : offset < stop
    · have left : ((data.drop offset).take count).isEmpty = false := by
        simp only [isEmpty_eq_false_iff, ← length_pos_iff, length_take, length_drop]
        omega
      have decoded : iced.decode ((data.drop offset).take count) (baseAddr + offset) =
          instAt iced data baseAddr offset := decode_window laws (by omega)
      have ip_eq : iced.ip (instAt iced data baseAddr offset) = baseAddr + offset := laws.ip_eq _ _
      have width_eq : iced.len (instAt iced data baseAddr offset) = instLen iced data baseAddr offset :=
        (if_pos (lt_of_lt_of_le inside below)).symm
      have width_pos : 0 < instLen iced data baseAddr offset := instLen_pos laws offset
      simp only [left, Bool.false_eq_true, if_false, decoded, width_eq, ip_eq]
      rw [if_neg (by omega), if_neg (by omega), drop_take, drop_drop]
      rw [add_assoc baseAddr, ih (by omega) ?_, sweep_of_lt (instLen_pos laws) inside]
      · rfl
      · simp only [length_take, length_drop] at fueled ⊢
        omega
    · rw [sweep_of_le (not_lt.mp inside)]
      simp only [laws.ip_eq]
      split_ifs with empty zero past
      · rfl
      · have := laws.len_pos ((data.drop offset).take count) (baseAddr + offset) (by simpa using empty)
        omega
      · rfl
      · omega

end Laws

/-! ## The scratch buffer -/

theorem bytesUntilNext4gBoundary_pos (pointer : ℕ) : 0 < bytesUntilNext4gBoundary pointer := by
  unfold bytesUntilNext4gBoundary
  omega

/-- Moving up to the boundary leaves 4 GiB until the next one. -/
theorem bytesUntilNext4gBoundary_add (pointer : ℕ) :
    bytesUntilNext4gBoundary (pointer + bytesUntilNext4gBoundary pointer) = 2 ^ 32 := by
  unfold bytesUntilNext4gBoundary
  omega

/-- The copy to the scratch buffer never fails and never changes what is decoded. -/
theorem appendDecodedInstructions_eq {chunk : ChunkLen} {window : List UInt8}
    (short : window.length ≤ chunk.len + chunkOverlapLen) (pointer scratch chunkStartIp chunkEndIp : ℕ) :
    appendDecodedInstructions iced window pointer scratch chunkStartIp chunkEndIp =
      appendDecodedNonCrossingWindow iced chunkEndIp window.length window chunkStartIp := by
  have small := chunk.small
  unfold appendDecodedInstructions
  split_ifs with crossing large
  · rfl
  · omega
  · by_cases early : window.length < bytesUntilNext4gBoundary scratch
    · simp only [if_pos early]
      rw [if_neg (by omega), add_zero, if_neg (by omega)]
    · simp only [if_neg early, bytesUntilNext4gBoundary_add]
      rw [if_neg (by omega), if_neg (by omega)]

/-! ## All chunks -/

section Chunks

variable {chunk : ChunkLen} {host : Host} {data : List UInt8} {baseAddr : ℕ}

theorem chunkAdvanceLen_bounds {total : ℕ} (inside : offset < total) :
    0 < chunkAdvanceLen chunk host total offset ∧
      chunkAdvanceLen chunk host total offset ≤ chunk.len ∧ offset + chunkAdvanceLen chunk host total offset ≤ total := by
  have := chunk.pos
  have := bytesUntilNext4gBoundary_pos (host.pointer + offset)
  unfold chunkAdvanceLen
  omega

theorem chunkWidth_pos (total offset : ℕ) : 0 < chunkWidth chunk host total offset := by
  unfold chunkWidth
  split_ifs with inside
  · exact (chunkAdvanceLen_bounds inside).1
  · exact one_pos

theorem chunkWidth_le {total : ℕ} (inside : offset < total) : offset + chunkWidth chunk host total offset ≤ total := by
  rw [chunkWidth, if_pos inside]
  exact (chunkAdvanceLen_bounds inside).2.2

/-- One turn of the chunk loop, with the window's decode replaced by the sweep it stands for. -/
theorem decodeChunks_of_lt (laws : iced.DecodeLaws) (inside : offset < data.length) :
    decodeChunks iced chunk host data baseAddr (fuel + 1) offset =
      if baseAddr + offset + chunkWidth chunk host data.length offset < 2 ^ 64 then do
        let rest ← decodeChunks iced chunk host data baseAddr fuel
          (offset + chunkWidth chunk host data.length offset)
        return (sweep (instLen iced data baseAddr) (offset + chunkWidth chunk host data.length offset)
          offset).map (instAt iced data baseAddr) ++ rest
      else if baseAddr + offset < 2 ^ 64 then .error (.panic "chunk end overflow")
      else .error (.panic "chunk start overflow") := by
  have width_eq : chunkWidth chunk host data.length offset = chunkAdvanceLen chunk host data.length offset := if_pos inside
  have bounds : 0 < chunkAdvanceLen chunk host data.length offset ∧ _ := chunkAdvanceLen_bounds inside
  have cap := bytesUntilNext4gBoundary_pos (host.pointer + offset)
  rw [decodeChunks, if_neg (by omega), if_neg (by omega), width_eq]
  generalize chunkAdvanceLen chunk host data.length offset = advance at *
  have short : ((data.drop offset).take (advance + chunkOverlapLen)).length ≤ chunk.len + chunkOverlapLen := by
    rw [length_take]
    omega
  have swept : appendDecodedNonCrossingWindow iced (baseAddr + (offset + advance)) _
      ((data.drop offset).take (advance + chunkOverlapLen)) (baseAddr + offset) = _ :=
    appendDecodedNonCrossingWindow_eq laws bounds.2.2 (.inl (by omega)) (le_refl _)
  rw [← add_assoc] at swept
  simp only [addU64, appendDecodedInstructions_eq short]
  by_cases start : baseAddr + offset < 2 ^ 64
  · by_cases stop : baseAddr + offset + advance < 2 ^ 64
    · rw [if_pos stop, if_pos start]
      simp only [bind, Except.bind, if_pos stop, swept]
    · rw [if_neg stop, if_pos start, if_pos start]
      simp only [bind, Except.bind, if_neg stop]
  · rw [if_neg start, if_neg start, if_neg (by omega)]
    rfl

/-- Inside the address space the loop hands out the pieces of the linear decode. -/
theorem decodeChunks_eq (laws : iced.DecodeLaws) (fits : baseAddr + data.length < 2 ^ 64) (enough : data.length - offset ≤ fuel) :
    decodeChunks iced chunk host data baseAddr fuel offset =
      .ok ((pieces (instLen iced data baseAddr) (chunkWidth chunk host data.length) data.length
        offset).map (instAt iced data baseAddr)) := by
  induction fuel generalizing offset with
  | zero =>
    rw [pieces_of_le (by omega)]
    rfl
  | succ fuel ih =>
    by_cases inside : offset < data.length
    · have width_pos : 0 < chunkWidth chunk host data.length offset := chunkWidth_pos _ _
      have width_le : offset + chunkWidth chunk host data.length offset ≤ _ := chunkWidth_le inside
      rw [decodeChunks_of_lt laws inside, if_pos (by omega), ih (by omega), pieces_of_lt (chunkWidth_pos _) inside, map_append]
      rfl
    · rw [pieces_of_le (not_lt.mp inside), decodeChunks, if_pos (not_lt.mp inside)]
      rfl

/-- A section that reaches past the address space is never decoded to its end. -/
theorem decodeChunks_overflow (laws : iced.DecodeLaws) (overflow : 2 ^ 64 ≤ baseAddr + data.length)
    (inside : offset < data.length) (enough : data.length - offset ≤ fuel) :
    ∃ error, decodeChunks iced chunk host data baseAddr fuel offset = .error error := by
  induction fuel generalizing offset with
  | zero => omega
  | succ fuel ih =>
    have width_pos : 0 < chunkWidth chunk host data.length offset := chunkWidth_pos _ _
    have width_le : offset + chunkWidth chunk host data.length offset ≤ _ := chunkWidth_le inside
    rw [decodeChunks_of_lt laws inside]
    split_ifs with stop start
    · obtain ⟨error, failed⟩ : ∃ error, decodeChunks iced chunk host data baseAddr fuel
          (offset + chunkWidth chunk host data.length offset) = .error error :=
        ih (by omega) (by omega)
      rw [failed]
      exact ⟨error, rfl⟩
    · exact ⟨_, rfl⟩
    · exact ⟨_, rfl⟩

end Chunks

theorem instAt_injective (laws : iced.DecodeLaws) (data : List UInt8) (baseAddr : ℕ) :
    Function.Injective (instAt iced data baseAddr) := by
  intro first second same
  have ips := congrArg iced.ip same
  simp only [instAt, laws.ip_eq] at ips
  omega

/-- The sink sees the linear decode exactly when the section ends inside the address space and
every chunk starts at an instruction of the linear decode. -/
theorem forEachDecodedInstruction_eq_linear_iff (iced : Iced) (laws : iced.DecodeLaws)
    (chunk : ChunkLen) (host : Host) (data : List UInt8) (baseAddr : UInt64) :
    forEachDecodedInstruction iced chunk host data baseAddr =
        .ok (linearDecode iced data baseAddr.toNat) ↔
      baseAddr.toNat + data.length < 2 ^ 64 ∧
        ∀ start ∈ chunkStarts chunk host data.length, start ∈ linearOffsets iced data baseAddr.toNat := by
  by_cases fits : baseAddr.toNat + data.length < 2 ^ 64
  · have cuts : pieces (instLen iced data baseAddr.toNat) (chunkWidth chunk host data.length)
        data.length 0 = _ ↔ _ :=
      pieces_eq_sweep_iff (chunkWidth_pos data.length) (instLen_pos laws) (fun _ => chunkWidth_le) 0
    rw [forEachDecodedInstruction, decodeChunks_eq laws fits (sub_le _ _), Except.ok.injEq,
      linearDecode, linearOffsets, map_inj_right (instAt_injective laws _ _), cuts, chunkStarts]
    simp only [fits, true_and]
  · have nonempty : 0 < data.length := by
      have := baseAddr.toNat_lt
      omega
    obtain ⟨error, failed⟩ : ∃ error,
        decodeChunks iced chunk host data baseAddr.toNat data.length 0 = .error error :=
      decodeChunks_overflow laws (not_lt.mp fits) nonempty (sub_le _ _)
    rw [forEachDecodedInstruction, failed]
    exact iff_of_false nofun (fun agreed => fits agreed.1)

/-- A section mapped one byte below a 4 GiB boundary of the host. -/
def belowBoundary : Host := ⟨2 ^ 32 - 1, fun _ => 0⟩

theorem forEachDecodedInstruction_eq_linear_below_boundary :
    forEachDecodedInstruction Subset.iced targetDecodeChunkLen belowBoundary
        [0x90, 0x0F, 0x05, 0x90] 0x1000 =
      .ok (linearDecode Subset.iced [0x90, 0x0F, 0x05, 0x90] 0x1000) :=
  (forEachDecodedInstruction_eq_linear_iff Subset.iced Subset.decodeLaws targetDecodeChunkLen
    belowBoundary [0x90, 0x0F, 0x05, 0x90] 0x1000).mpr (by decide)

/-- `mov eax, 0x9090050f; nop`: its immediate holds the bytes of a `syscall`. -/
def straddling : List UInt8 := [0xB8, 0x0F, 0x05, 0x90, 0x90, 0x90]

/-- The second chunk starts inside the `mov` and finds a `syscall` there that the linear decode
does not have. -/
theorem chunk_start_splits_instruction :
    forEachDecodedInstruction Subset.iced targetDecodeChunkLen belowBoundary straddling 0 ≠
        .ok (linearDecode Subset.iced straddling 0) ∧
      (forEachDecodedInstruction Subset.iced targetDecodeChunkLen belowBoundary straddling 0).map
        (fun insts => (insts.filter Subset.iced.isSyscall).map Subset.iced.ip) = .ok [1] ∧
      (linearDecode Subset.iced straddling 0).filter Subset.iced.isSyscall = [] := by
  refine ⟨by decide, by decide, by decide⟩

end LiteBox.Rewriter
