import LiteBox.Rewriter.Common
import LiteBox.Rewriter.Iced

/-! # Chunked decoding

`for_each_decoded_instruction` decodes a section in chunks: a chunk ends before the host address
crosses a 4 GiB boundary and after at most `TARGET_DECODE_CHUNK_LEN` bytes, and its window overlaps
the next chunk by one byte less than the longest instruction. A window that itself crosses a
boundary is copied to a scratch buffer first.
-/

namespace LiteBox.Rewriter

def chunkOverlapLen : ℕ := maxX86InstructionLen - 1

/-- The chunk size is a constant of the source; decoding is stated for every size whose window
still fits below 4 GiB. -/
structure ChunkLen where
  len : ℕ
  pos : 0 < len
  small : len + chunkOverlapLen < 2 ^ 32

def targetDecodeChunkLen : ChunkLen := ⟨8 * 1024 * 1024, by decide, by decide⟩

def bytesUntilNext4gBoundary (pointer : ℕ) : ℕ := 2 ^ 32 - pointer % 2 ^ 32

/-- Where the host keeps the section, and where the allocator puts the scratch buffer for the
window at an offset. -/
structure Host where
  pointer : ℕ
  scratch : ℕ → ℕ

variable (iced : Iced)

/-- The decoder loop of one window; `fuel` bounds the instructions it can hold. -/
def appendDecodedNonCrossingWindow (chunkEndIp : ℕ) : ℕ → List UInt8 → ℕ → Except Error (List iced.Inst)
  | 0, _, _ => .ok []
  | fuel + 1, bytes, ip =>
    if bytes.isEmpty then .ok []
    else
      let inst := iced.decode bytes ip
      if iced.len inst = 0 then
        .error (.disassemblyFailure ("iced-x86 decoded zero-length instruction at " ++ hex (iced.ip inst)))
      else if chunkEndIp ≤ iced.ip inst then .ok []
      else do
        let rest ← appendDecodedNonCrossingWindow chunkEndIp fuel (bytes.drop (iced.len inst))
          (ip + iced.len inst)
        return inst :: rest

def appendDecodedInstructions (window : List UInt8) (pointer scratch : ℕ)
    (chunkStartIp chunkEndIp : ℕ) : Except Error (List iced.Inst) :=
  if window.length < bytesUntilNext4gBoundary pointer then
    appendDecodedNonCrossingWindow iced chunkEndIp window.length window chunkStartIp
  else if 2 ^ 64 ≤ window.length * 2 then .error (.disassemblyFailure "decode window too large")
  else
    let boundaryDist := bytesUntilNext4gBoundary scratch
    let scratchOffset := if window.length < boundaryDist then 0 else boundaryDist
    if window.length * 2 < scratchOffset + window.length then
      .error (.disassemblyFailure "decode scratch window overflow")
    else if bytesUntilNext4gBoundary (scratch + scratchOffset) ≤ window.length then
      .error (.panic "the scratch window crosses a 4 GiB boundary")
    else appendDecodedNonCrossingWindow iced chunkEndIp window.length window chunkStartIp

variable (chunk : ChunkLen) (host : Host)

/-- How far the chunk at `offset` of a section of `total` bytes advances. -/
def chunkAdvanceLen (total offset : ℕ) : ℕ :=
  min (min (total - offset) (bytesUntilNext4gBoundary (host.pointer + offset))) chunk.len

/-- The loop over the chunks from `offset` on; every chunk advances, so the section's length is
enough fuel. The result is the sequence handed to the sink. -/
def decodeChunks (data : List UInt8) (baseAddr : ℕ) : ℕ → ℕ → Except Error (List iced.Inst)
  | 0, _ => .ok []
  | fuel + 1, offset =>
    if data.length ≤ offset then .ok []
    else if min (data.length - offset) (bytesUntilNext4gBoundary (host.pointer + offset)) = 0 then
      .error (.panic "boundary_cap > 0")
    else do
      let remaining := data.drop offset
      let advance := chunkAdvanceLen chunk host data.length offset
      let window := remaining.take (advance + chunkOverlapLen)
      let chunkStartIp ← addU64 baseAddr offset "chunk start overflow"
      let chunkEndIp ← addU64 chunkStartIp advance "chunk end overflow"
      let insts ← appendDecodedInstructions iced window (host.pointer + offset) (host.scratch offset)
        chunkStartIp chunkEndIp
      let rest ← decodeChunks data baseAddr fuel (offset + advance)
      return insts ++ rest

def forEachDecodedInstruction (data : List UInt8) (baseAddr : UInt64) : Except Error (List iced.Inst) :=
  decodeChunks iced chunk host data baseAddr.toNat data.length 0

end LiteBox.Rewriter
