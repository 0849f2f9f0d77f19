import LiteBox.Loader.ParseTrampoline
import LiteBox.Rewriter.Arm64.Exact
import LiteBox.Rewriter.Elf
import LiteBox.Rewriter.RebaseRun
import LiteBox.Rewriter.Subset

/-! # The rewriter and the loader

What the rewriter appends is what the loader finds, as far as their pages agree; and a rewritten
file is recognised as such.
-/

namespace LiteBox.Rewriter

open Bytes Outcome Arm64 List TrampolineHeader64 Subset

/-! ## Sections are rewritten in place -/

/-- An offset of the file that lies in an executable section. -/
def InText (textSections : List TextSectionInfo) (offset : ℕ) : Prop :=
  ∃ text ∈ textSections, text.fileOffset ≤ offset ∧ offset < text.fileOffset + text.size

/-- What both strategies keep: the image outside the executable sections, and a trampoline that
starts with the slot of the entry point. -/
structure Frames (buf : List UInt8) (textSections : List TextSectionInfo) (image trampoline : List UInt8) : Prop where
  length_eq : image.length = buf.length
  slot : 8 ≤ trampoline.length
  outside : ∀ offset, ¬InText textSections offset → image[offset]? = buf[offset]?

variable {rewritten : Rewritten} {work : Work}

section Arm64

theorem hookArm64_frames {callback : ℕ}
    (hooked : hookArm64 work callback = .ok (some rewritten)) :
    Frames work.buf work.textSections rewritten.image rewritten.trampoline := by
  obtain ⟨⟨image, outcome⟩, run, result⟩ := bind_eq_ok.mp hooked
  obtain ⟨outcome, rfl, rfl⟩ := Option.map_eq_some_iff.mp (pure_eq_ok.mp result)
  obtain ⟨sites, found, run⟩ := bind_eq_ok.mp run
  obtain ⟨-, sections_fit, vaddr_lt⟩ := findPatchSites_eq_ok found
  split_ifs at run with no_sites
  · cases run
  obtain ⟨prologue, prologue_eq, run⟩ := bind_eq_ok.mp run
  obtain ⟨final, loop, run⟩ := bind_eq_ok.mp run
  cases pure_eq_ok.mp run
  obtain ⟨prologue_len, -⟩ := hasHandler_of_prologue prologue_eq []
  obtain ⟨gates, trapped, answers, rfl, -, rfl, -, -⟩ := Arm64.hookSites_eq_ok vaddr_lt loop
  have inside : ∀ answer ∈ answers, ∃ text ∈ work.textSections, text.fileOffset ≤ answer.site.fileOffset ∧
      answer.site.fileOffset + 4 ≤ text.fileOffset + text.size := by
    intro answer member
    obtain ⟨text, text_mem, index, index_lt, offset_eq, -⟩ :=
      (mem_findPatchSites found).mp (mem_map_of_mem member)
    exact ⟨text, text_mem, by omega, by omega⟩
  have edits_fit : ∀ edit ∈ answers.map Arm64.Answer.edit, edit.stop ≤ work.buf.length := by
    refine edit_fits fun answer member => ?_
    obtain ⟨text, text_mem, -, stop_le⟩ := inside answer member
    have := sections_fit text text_mem
    omega
  refine ⟨Edit.foldl_apply_length edits_fit, ?_, ?_⟩
  · simp only [length_append, prologue_len]
    omega
  · intro offset outside
    refine Edit.foldl_apply_outside edits_fit ?_
    intro edit member
    obtain ⟨answer, found, rfl⟩ := mem_map.mp member
    obtain ⟨text, text_mem, start_le, stop_le⟩ := inside answer found
    by_contra touched
    simp only [Edit.Misses, Edit.stop, Arm64.Answer.edit, leBytes_length, not_or, not_lt, not_le] at touched
    exact outside ⟨text, text_mem, by omega, by omega⟩

end Arm64

section X86

variable {iced : Iced} {chunk : ChunkLen} {memory : ℕ → Host} {targets : ControlTransferTargets}
  {sectionBase trampolineBase entryAddr : ℕ}

theorem writeSection_length {data bytes written : List UInt8} {offset : ℕ}
    (wrote : writeSection data offset bytes = .ok written) : written.length = data.length := by
  obtain ⟨fits, rfl⟩ := writeSection_eq_ok.mp wrote
  exact overwrite_length fits

theorem patchJump_length {start stop targetAddr : ℕ} {data written : List UInt8}
    (patched : patchJump sectionBase start stop targetAddr data = .ok written) : written.length = data.length := by
  obtain ⟨_, -, patched⟩ := bind_eq_ok.mp patched
  obtain ⟨_, -, patched⟩ := bind_eq_ok.mp patched
  obtain ⟨_, -, patched⟩ := bind_eq_ok.mp patched
  obtain ⟨_, -, patched⟩ := bind_eq_ok.mp patched
  exact writeSection_length patched

theorem applyPlan_data_length {inst : iced.Inst} {state final : HookState} {plan : Plan}
    (applied : applyPlan sectionBase trampolineBase entryAddr inst state plan = .ok final) :
    final.data.length = state.data.length := by
  cases plan with
  | back | forward =>
    obtain ⟨_, -, applied⟩ := bind_eq_ok.mp applied
    obtain ⟨_, -, applied⟩ := bind_eq_ok.mp applied
    obtain ⟨data, patched, applied⟩ := bind_eq_ok.mp applied
    cases pure_eq_ok.mp applied
    exact patchJump_length patched
  | trap =>
    obtain ⟨data, trapped, applied⟩ := bind_eq_ok.mp applied
    cases pure_eq_ok.mp applied
    obtain ⟨_, -, trapped⟩ := bind_eq_ok.mp trapped
    obtain ⟨_, -, trapped⟩ := bind_eq_ok.mp trapped
    exact writeSection_length trapped

/-- Hooking keeps the length of a section and adds to the trampoline. -/
theorem foldlM_hookSite_frame {sites : List (SyscallSite iced)} {state final : HookState}
    (hooked : sites.foldlM (hookSite targets sectionBase trampolineBase entryAddr) state = .ok final) :
    final.data.length = state.data.length ∧ state.trampoline <+: final.trampoline := by
  induction sites generalizing state with
  | nil =>
    cases hooked
    exact ⟨rfl, prefix_refl _⟩
  | cons site sites ih =>
    rw [foldlM_cons] at hooked
    obtain ⟨middle, first, rest⟩ := bind_eq_ok.mp hooked
    obtain ⟨inst, plan, -, -, applied⟩ := hookSite_effect first
    obtain ⟨⟨stub, extended, -⟩, -⟩ := applyPlan_effect applied
    obtain ⟨length_eq, later⟩ := ih rest
    refine ⟨length_eq.trans (applyPlan_data_length applied), List.IsPrefix.trans ?_ later⟩
    rw [extended]
    exact prefix_append _ _

theorem hookSection_frame {state next : SectionsState} {entry : TextSectionInfo × SegmentScanTemplate iced}
    (hooked : hookSection targets trampolineBase state entry = .ok next) :
    next.image.length = state.image.length ∧ state.trampoline <+: next.trampoline ∧
      ∀ offset, ¬InText [entry.1] offset → next.image[offset]? = state.image[offset]? := by
  obtain ⟨data, sliced, hooked⟩ := bind_eq_ok.mp hooked
  unfold sectionSlice at sliced
  split_ifs at sliced with fits
  cases sliced
  split at hooked
  · next out run =>
    cases pure_eq_ok.mp hooked
    unfold hookSyscallsInSection at run
    split_ifs at run with empty
    obtain ⟨length_eq, extends_⟩ := foldlM_hookSite_frame (mapError_eq_ok.mp run)
    have data_len : out.data.length = entry.1.size := by
      rw [length_eq, length_take, length_drop]
      omega
    have inside : entry.1.fileOffset + out.data.length ≤ state.image.length := by omega
    refine ⟨overwrite_length inside, extends_, ?_⟩
    intro offset outside
    refine getElem?_overwrite_outside inside ?_
    by_contra touched
    exact outside ⟨entry.1, mem_singleton_self _, by omega, by omega⟩
  · cases pure_eq_ok.mp hooked
    exact ⟨rfl, prefix_refl _, fun _ _ => rfl⟩
  · cases hooked
  · cases hooked

theorem foldlM_hookSection_frame {entries : List (TextSectionInfo × SegmentScanTemplate iced)}
    {state final : SectionsState} (hooked : entries.foldlM (hookSection targets trampolineBase) state = .ok final) :
    final.image.length = state.image.length ∧ state.trampoline <+: final.trampoline ∧
      ∀ offset, ¬InText (entries.map Prod.fst) offset → final.image[offset]? = state.image[offset]? := by
  induction entries generalizing state with
  | nil =>
    cases hooked
    exact ⟨rfl, prefix_refl _, fun _ _ => rfl⟩
  | cons entry entries ih =>
    rw [foldlM_cons] at hooked
    obtain ⟨middle, first, rest⟩ := bind_eq_ok.mp hooked
    obtain ⟨first_len, first_prefix, first_outside⟩ := hookSection_frame first
    obtain ⟨rest_len, rest_prefix, rest_outside⟩ := ih rest
    refine ⟨rest_len.trans first_len, first_prefix.trans rest_prefix, ?_⟩
    intro offset outside
    rw [rest_outside, first_outside]
    · rintro ⟨text, member, covered⟩
      rw [mem_singleton.mp member] at covered
      exact outside ⟨entry.1, mem_cons_self, covered⟩
    · rintro ⟨text, member, covered⟩
      exact outside ⟨text, mem_cons_of_mem _ member, covered⟩

theorem scanSections_eq_ok {buf : List UInt8} {textSections : List TextSectionInfo}
    {scans : List (TextSectionInfo × SegmentScanTemplate iced)}
    (scanned : scanSections iced chunk memory buf textSections = .ok scans) : scans.map Prod.fst = textSections := by
  induction textSections generalizing scans with
  | nil =>
    cases scanned
    rfl
  | cons text rest ih =>
    obtain ⟨_, -, scanned⟩ := bind_eq_ok.mp scanned
    obtain ⟨_, -, scanned⟩ := bind_eq_ok.mp scanned
    obtain ⟨later, later_eq, scanned⟩ := bind_eq_ok.mp scanned
    cases pure_eq_ok.mp scanned
    rw [map_cons, ih later_eq]

theorem hookX86_frames {trampoline : ℕ}
    (hooked : hookX86 iced chunk memory work trampoline = .ok (some rewritten)) :
    Frames work.buf work.textSections rewritten.image rewritten.trampoline := by
  obtain ⟨scans, scanned, hooked⟩ := bind_eq_ok.mp hooked
  obtain ⟨final, run, result⟩ := bind_eq_ok.mp hooked
  have result := pure_eq_ok.mp result
  split_ifs at result with found
  cases result
  obtain ⟨length_eq, extends_, outside⟩ := foldlM_hookSection_frame run
  rw [scanSections_eq_ok scanned] at outside
  have slot := extends_.length_le
  rw [leBytes_length] at slot
  exact ⟨length_eq, slot, outside⟩

theorem rewriteSections_frames {trampoline : Option ℕ}
    (hooked : rewriteSections iced chunk memory work trampoline = .ok (some rewritten)) :
    Frames work.buf work.textSections rewritten.image rewritten.trampoline := by
  unfold rewriteSections at hooked
  split at hooked
  · exact hookArm64_frames hooked
  · exact hookX86_frames hooked

end X86

/-! ## The rewritten file -/

section Output

variable {iced : Iced} {chunk : ChunkLen} {memory : ℕ → Host} {object : Object} {inputBinary out : List UInt8}
  {work : Work} {trampoline : Option ℕ} {rewritten : Rewritten}

theorem prepare_eq_some (prepared : prepare object inputBinary = .ok (some work)) :
    ∃ file top, fixupPhdrAlignment inputBinary = .ok work.buf ∧ object.parse work.buf = .ok file ∧
      archOf file = some work.arch ∧ work.textSections = textSections file ∧ work.textSections ≠ [] ∧
      maxLoadSegmentEnd file = some top ∧ top + 0xFFF < 2 ^ 64 ∧ work.trampolineBaseAddr = pageUp top := by
  unfold prepare at prepared
  split_ifs at prepared with is_bun is_object
  · cases prepared
  obtain ⟨buf, fixed, prepared⟩ := bind_eq_ok.mp prepared
  obtain ⟨file, parsed, prepared⟩ := bind_eq_ok.mp prepared
  split at prepared
  · cases prepared
  · next arch arch_eq =>
    split_ifs at prepared with no_text hooked
    · cases prepared
    · cases prepared
    · obtain ⟨addr, addr_eq, prepared⟩ := bind_eq_ok.mp prepared
      cases pure_eq_ok.mp prepared
      obtain ⟨top, top_eq, small, rfl⟩ := findAddrForTrampolineCode_eq_ok.mp addr_eq
      exact ⟨file, top, fixed, mapError_eq_ok.mp parsed, arch_eq, rfl, no_text, top_eq, small, rfl⟩

/-- When sites were rewritten and a file is returned, it is the image with the footer. -/
theorem hookSyscallsInElf_eq_ok (prepared : prepare object inputBinary = .ok (some work))
    (rewrote : rewriteSections iced chunk memory work trampoline = .ok (some rewritten))
    (hooked : hookSyscallsInElf iced chunk memory object inputBinary trampoline = .ok out) :
    appendTrampolineFooter rewritten.image rewritten.trampoline work.trampolineBaseAddr = .ok out := by
  obtain ⟨result, hooked, returned⟩ := bind_eq_ok.mp hooked
  obtain ⟨_, prepared', hooked⟩ := bind_eq_ok.mp hooked
  cases prepared.symm.trans prepared'
  obtain ⟨_, rewrote', hooked⟩ := bind_eq_ok.mp hooked
  cases rewrote.symm.trans rewrote'
  obtain ⟨file, appended, hooked⟩ := bind_eq_ok.mp hooked
  split_ifs at hooked with no_trapped tolerated
  · cases pure_eq_ok.mp hooked
    cases pure_eq_ok.mp returned
    exact appended
  · cases pure_eq_ok.mp hooked
    cases returned

/-- A file with a footer does not end in Bun's marker, whose first byte no page address has. -/
theorem not_bun_of_footer {code : List UInt8} {fileOffset vaddr : ℕ} (footer : EndsInFooter out code fileOffset vaddr)
    (aligned : vaddr % 0x1000 = 0) : bunFooterMarker.isSuffixOf out = false := by
  rw [Bool.eq_false_iff, ne_eq, isSuffixOf_iff_suffix]
  intro marker
  obtain ⟨⟨elf, -, rfl⟩, -, -⟩ := footer
  have last : leBytes 8 vaddr ++ leBytes 8 code.length <:+ elf ++ code ++
      asBytes ⟨trampolineMagic, fileOffset, vaddr, code.length⟩ := by
    refine ⟨elf ++ code ++ (trampolineMagic ++ leBytes 8 fileOffset), ?_⟩
    simp [asBytes, append_assoc]
  have same : bunFooterMarker = leBytes 8 vaddr ++ leBytes 8 code.length :=
    List.IsSuffix.eq_of_length (suffix_of_suffix_length_le marker last (by simp [bunFooterMarker])) (by simp [bunFooterMarker])
  have first : (0x0A : UInt8) = UInt8.ofNat vaddr := (cons.inj same).1
  have value := congrArg UInt8.toNat first
  rw [UInt8.toNat_ofNat'] at value
  simp only [UInt8.reduceToNat] at value
  omega

/-- A rewritten file is left alone, unless rewriting it has touched what parsing it reads. -/
theorem prepare_rewritten (laws : object.Laws) (prepared : prepare object inputBinary = .ok (some work))
    (untouched : ∀ offset, object.reads work.buf offset → ¬InText work.textSections offset)
    (frames : Frames work.buf work.textSections rewritten.image rewritten.trampoline)
    (appended : appendTrampolineFooter rewritten.image rewritten.trampoline work.trampolineBaseAddr = .ok out) :
    prepare object out = .ok none := by
  obtain ⟨file, top, -, parsed, arch_eq, text_eq, some_text, -, top_small, base_eq⟩ := prepare_eq_some prepared
  have base_lt : work.trampolineBaseAddr < 2 ^ 64 := by
    rw [base_eq]
    unfold pageUp
    omega
  have base_aligned : work.trampolineBaseAddr % 0x1000 = 0 := by rw [base_eq, pageUp, Nat.mul_mod_left]
  obtain ⟨⟨rest, rest_eq⟩, footer⟩ := appendTrampolineFooter_eq_ok base_lt appended
  have elf64 : file.elf64 = true := by
    unfold archOf at arch_eq
    split_ifs at arch_eq with elf64
    exact elf64
  obtain ⟨long, reads_header⟩ := laws.reads_header _ _ parsed elf64
  have kept : ∀ offset < work.buf.length, object.reads work.buf offset → out[offset]? = work.buf[offset]? := by
    intro offset inside reads
    rw [← frames.outside offset (untouched offset reads), ← rest_eq]
    exact getElem?_append_left (by rw [frames.length_eq]; exact inside)
  have out_long : work.buf.length ≤ out.length := by
    rw [← rest_eq, length_append, frames.length_eq]
    omega
  have same_header : out.take elfHeaderLen = work.buf.take elfHeaderLen := by
    apply ext_getElem?
    intro offset
    rw [getElem?_take, getElem?_take]
    split_ifs with inside
    · exact kept offset (by omega) (reads_header offset inside)
    · rfl
  have no_shift : ¬NeedsShift out := by
    rw [needsShift_take (long.trans out_long), same_header, ← needsShift_take long]
    exact laws.aligned _ _ parsed
  unfold prepare
  rw [not_bun_of_footer footer base_aligned, fixupPhdrAlignment, if_neg no_shift, if_neg Bool.false_ne_true]
  by_cases is_object : isRelocatable out = true
  · rw [if_pos is_object]
  · rw [if_neg is_object]
    simp only [bind, Except.bind, laws.parse_congr _ _ _ parsed out_long kept, Except.mapError, arch_eq]
    rw [if_neg (text_eq ▸ some_text), if_pos (footer.isAlreadyHooked (by rw [pageUp, Nat.mul_mod_left]) base_aligned)]
    rfl

/-- Rewriting changes nothing but the executable sections, once the program headers are aligned. -/
theorem hookSyscallsInElf_confined (prepared : prepare object inputBinary = .ok (some work))
    (rewrote : rewriteSections iced chunk memory work trampoline = .ok (some rewritten))
    (hooked : hookSyscallsInElf iced chunk memory object inputBinary trampoline = .ok out) {offset : ℕ}
    (inside : offset < inputBinary.length) (data : ¬InText work.textSections offset) : out[offset]? = work.buf[offset]? := by
  have frames := rewriteSections_frames rewrote
  obtain ⟨file, top, fixed, -, -, -, -, -, small, base_eq⟩ := prepare_eq_some prepared
  have base_lt : work.trampolineBaseAddr < 2 ^ 64 := by
    rw [base_eq, pageUp]
    omega
  have appended := hookSyscallsInElf_eq_ok prepared rewrote hooked
  obtain ⟨⟨rest, rfl⟩, -⟩ := appendTrampolineFooter_eq_ok base_lt appended
  rw [← frames.outside offset data]
  exact getElem?_append_left (by rwa [frames.length_eq, fixupPhdrAlignment_length fixed])

end Output

end LiteBox.Rewriter

namespace LiteBox.Loader

open Bytes Outcome Rewriter

/-- The file header and the one program header of an AArch64 executable. -/
def sampleHead : List UInt8 :=
  [0x7F, 0x45, 0x4C, 0x46, 2, 1, 1, 0, 0, 0, 0, 0, 0, 0, 0, 0] ++ leBytes 2 2 ++ leBytes 2 0xB7 ++ leBytes 4 1 ++
    leBytes 8 0x10078 ++ leBytes 8 64 ++ leBytes 8 152 ++ leBytes 4 0 ++ leBytes 2 64 ++ leBytes 2 56 ++
    leBytes 2 1 ++ leBytes 2 64 ++ leBytes 2 3 ++ leBytes 2 2 ++
  (leBytes 4 1 ++ leBytes 4 5 ++ leBytes 8 0 ++ leBytes 8 0x10000 ++ leBytes 8 0x10000 ++ leBytes 8 344 ++
    leBytes 8 344 ++ leBytes 8 0x10000)

/-- `SVC #0; RET`. -/
def sampleText : List UInt8 := [0x01, 0x00, 0x00, 0xD4, 0xC0, 0x03, 0x5F, 0xD6]

/-- The section names, and the headers of no section, of the code and of the names. -/
def sampleTail : List UInt8 :=
  [0, 46, 116, 101, 120, 116, 0, 46, 115, 104, 115, 116, 114, 116, 97, 98, 0, 0, 0, 0, 0, 0, 0, 0] ++ List.replicate 64 0 ++
  (leBytes 4 1 ++ leBytes 4 1 ++ leBytes 8 6 ++ leBytes 8 0x10078 ++ leBytes 8 120 ++ leBytes 8 8 ++ leBytes 8 0 ++
    leBytes 8 4 ++ leBytes 8 0) ++
  (leBytes 4 7 ++ leBytes 4 3 ++ leBytes 8 0 ++ leBytes 8 0 ++ leBytes 8 128 ++ leBytes 8 17 ++ leBytes 8 0 ++
    leBytes 8 1 ++ leBytes 8 0)

def sampleImage : List UInt8 := sampleHead ++ sampleText ++ sampleTail

def sampleFile : ObjectFile where
  elf64 := true
  architecture := .aarch64
  sections := [⟨some 0, false, 0, none⟩, ⟨some 6, true, 0x10078, some (120, 8)⟩, ⟨some 0, false, 0, some (128, 17)⟩]
  programHeaders := [⟨1, 0x10000, 344⟩]

/-- The crate on files with the headers of `sampleImage`, whatever their code. -/
def sampleObject : Object where
  parse image :=
    if image.take 120 = sampleHead ∧ (image.drop 128).take 216 = sampleTail then .ok sampleFile
    else .error "Unknown file magic"
  reads _ offset := offset < 120 ∨ (128 ≤ offset ∧ offset < 344)

theorem sampleObject_eq_ok {image : List UInt8} {file : ObjectFile} (parsed : sampleObject.parse image = .ok file) :
    image.take 120 = sampleHead ∧ (image.drop 128).take 216 = sampleTail ∧ 344 ≤ image.length ∧ file = sampleFile := by
  simp only [sampleObject] at parsed
  split_ifs at parsed with same
  cases parsed
  have head_len := congrArg List.length same.1
  have tail_len := congrArg List.length same.2
  rw [List.length_take, show sampleHead.length = 120 by rfl] at head_len
  rw [List.length_take, List.length_drop, show sampleTail.length = 216 by rfl] at tail_len
  exact ⟨same.1, same.2, by omega, rfl⟩

theorem sampleObject_laws : sampleObject.Laws where
  parse_congr := by
    intro image other file parsed longer kept
    obtain ⟨head, tail, long, rfl⟩ := sampleObject_eq_ok parsed
    refine if_pos ⟨?_, ?_⟩
    · rw [← head]
      apply List.ext_getElem?
      intro offset
      rw [List.getElem?_take, List.getElem?_take]
      split_ifs with inside
      · exact kept offset (by omega) (.inl inside)
      · rfl
    · rw [← tail]
      apply List.ext_getElem?
      intro offset
      rw [List.getElem?_take, List.getElem?_take, List.getElem?_drop, List.getElem?_drop]
      split_ifs with inside
      · exact kept (128 + offset) (by omega) (.inr ⟨by omega, by omega⟩)
      · rfl
  reads_header := by
    intro image file parsed _
    obtain ⟨-, -, long, -⟩ := sampleObject_eq_ok parsed
    unfold elfHeaderLen
    exact ⟨by omega, fun offset inside => .inl (by omega)⟩
  aligned := by
    intro image file parsed
    obtain ⟨head, -, long, -⟩ := sampleObject_eq_ok parsed
    have header : image.take elfHeaderLen = sampleHead.take elfHeaderLen := by
      rw [← head, List.take_take, elfHeaderLen, Nat.min_eq_left (by decide)]
    rw [needsShift_take (by unfold elfHeaderLen; omega), header]
    decide +kernel

def sampleWork : Work := ⟨.aarch64, sampleImage, [⟨0x10078, 120, 8⟩], 0x11000⟩

def sampleRewritten : Rewritten where
  image := sampleHead ++ [230, 3, 0, 20, 192, 3, 95, 214] ++ sampleTail
  trampoline := [0, 0, 0, 0, 0, 0, 0, 0, 208, 255, 255, 88, 0, 2, 31, 214, 255, 67, 0, 209, 240, 3, 0, 249, 240,
    255, 255, 240, 16, 242, 1, 145, 240, 7, 0, 249, 249, 255, 255, 23]
  trapped := []

def sampleOut : List UInt8 :=
  sampleRewritten.image ++ List.replicate 3752 0 ++ sampleRewritten.trampoline ++
    TrampolineHeader64.asBytes ⟨trampolineMagic, 0x1000, 0x11000, 40⟩

/-- The host's memory does not matter to AArch64 code. -/
def anyMemory : ℕ → Host := fun _ => ⟨0, fun _ => 0⟩

theorem prepare_sample : prepare sampleObject sampleImage = .ok (some sampleWork) := by decide +kernel

theorem rewriteSections_sample :
    rewriteSections Subset.iced targetDecodeChunkLen anyMemory sampleWork none = .ok (some sampleRewritten) := by
  decide +kernel

theorem sample_lengths : sampleImage.length = 344 ∧ sampleRewritten.image.length = 344 ∧
    sampleRewritten.trampoline.length = 40 ∧ padding 344 = 3752 ∧ pageUp 344 = 0x1000 := by
  decide +kernel

theorem appendTrampolineFooter_sample :
    appendTrampolineFooter sampleRewritten.image sampleRewritten.trampoline 0x11000 = .ok sampleOut := by
  obtain ⟨-, image_len, trampoline_len, padded, offset_eq⟩ := sample_lengths
  rw [appendTrampolineFooter, image_len, trampoline_len, padded]
  have padded_len : (sampleRewritten.image ++ List.replicate 3752 0).length = 0x1000 := by
    rw [List.length_append, List.length_replicate, image_len]
  refine bind_eq_ok.mpr ⟨_, extend_eq_ok.mpr ⟨by rw [← List.length_append, padded_len]; norm_num, rfl⟩, ?_⟩
  rw [padded_len]
  refine bind_eq_ok.mpr ⟨_, extend_eq_ok.mpr ⟨by rw [padded_len, trampoline_len]; norm_num, rfl⟩, extend_eq_ok.mpr ⟨?_, rfl⟩⟩
  rw [List.length_append, padded_len, trampoline_len]
  decide

theorem hookSyscallsInElf_sample :
    hookSyscallsInElf Subset.iced targetDecodeChunkLen anyMemory sampleObject sampleImage none = .ok sampleOut := by
  refine bind_eq_ok.mpr ⟨.output sampleOut, bind_eq_ok.mpr ⟨_, prepare_sample, ?_⟩, rfl⟩
  refine bind_eq_ok.mpr ⟨_, rewriteSections_sample, ?_⟩
  exact bind_eq_ok.mpr ⟨_, appendTrampolineFooter_sample, rfl⟩

theorem hookSyscallsInElf_confined_sample : sampleOut[0]? = sampleImage[0]? :=
  hookSyscallsInElf_confined prepare_sample rewriteSections_sample hookSyscallsInElf_sample (by simp [sample_lengths])
    (by simp [InText, sampleWork])

end LiteBox.Loader
