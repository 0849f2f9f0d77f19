import LiteBox.Lib.Edits
import LiteBox.Rewriter.Arm64.GateSpec
import LiteBox.Rewriter.Arm64.Hook

/-! # Exactness of AArch64 rewriting

Every word that needs it is redirected to its own gate or trapped, and nothing else changes. The
masks of the scan are checked against the encodings of the architecture, and the branches against
the decoder of `Insn`.
-/

namespace LiteBox.Rewriter.Arm64

open Bytes Outcome BitFields List Insn Edit

/-! ## Recognising words -/

/-- The encodings to be rewritten: `SVC #imm`, `MSR TPIDR_EL0, Xt`, and `MRS Xd, TPIDR_EL0` for
`d ≠ 31`. -/
def EncodesKind (word : ℕ) : PatchKind → Prop
  | .svc => ∃ imm < 2 ^ 16, word = 0xD4000001 + imm * 2 ^ 5
  | .msrTpidr rt => word = 0xD51BD040 + rt
  | .mrsTpidr rd => rd ≠ xzr ∧ word = 0xD53BD040 + rd

section Masks

variable {word : ℕ}

theorem lowReg_val (word : ℕ) : (lowReg word : ℕ) = word % 32 := by
  have mask : word &&& 0x1F = word % 32 := and_mask word 5
  simp [lowReg, mask]

theorem and_svcOpcodeMask_eq (small : word < 2 ^ 32) :
    word &&& svcOpcodeMask = svcOpcodeBits ↔ ∃ imm < 2 ^ 16, word = 0xD4000001 + imm * 2 ^ 5 := by
  have parts : svcOpcodeMask = (2 ^ 11 - 1) <<< 21 ||| (2 ^ 5 - 1) := by decide
  have high : word &&& (2 ^ 11 - 1) <<< 21 = word / 2 ^ 21 * 2 ^ 21 := and_high small
  rw [parts, Nat.and_or_distrib_left, high, and_mask, or_eq_add 21 (Dvd.intro_left _ rfl) (by omega), svcOpcodeBits]
  constructor
  · intro masked
    exact ⟨word / 2 ^ 5 % 2 ^ 16, by omega, by omega⟩
  · rintro ⟨imm, imm_lt, rfl⟩
    omega

/-- Both moves fix all bits but the register. -/
theorem and_tpidrEl0Mask_eq (small : word < 2 ^ 32) {bits : ℕ} (aligned : bits % 2 ^ 5 = 0) :
    word &&& 0xFFFFFFE0 = bits ↔ word = bits + lowReg word := by
  have high : word &&& (2 ^ 27 - 1) <<< 5 = word / 2 ^ 5 * 2 ^ 5 := and_high small
  rw [lowReg_val]
  change word &&& (2 ^ 27 - 1) <<< 5 = bits ↔ _
  rw [high]
  omega

theorem lowReg_add {bits : ℕ} (aligned : bits % 2 ^ 5 = 0) (reg : Reg) : lowReg (bits + reg) = reg := by
  have := reg.isLt
  rw [Fin.ext_iff, lowReg_val]
  omega

/-- The masks pick out exactly the words to be rewritten. -/
theorem patchKind_eq_some (small : word < 2 ^ 32) {kind : PatchKind} : patchKind word = some kind ↔ EncodesKind word kind := by
  have svc := and_svcOpcodeMask_eq small
  have msr : word &&& msrTpidrEl0Mask = msrTpidrEl0Bits ↔ word = msrTpidrEl0Bits + lowReg word :=
    and_tpidrEl0Mask_eq small (by decide)
  have mrs : word &&& mrsTpidrEl0Mask = mrsTpidrEl0Bits ↔ word = mrsTpidrEl0Bits + lowReg word :=
    and_tpidrEl0Mask_eq small (by decide)
  unfold patchKind
  constructor
  · intro found
    split_ifs at found with is_svc is_msr is_mrs is_xzr
    · cases found
      exact svc.mp is_svc
    · cases found
      exact msr.mp is_msr
    · cases found
      exact ⟨is_xzr, mrs.mp is_mrs⟩
  · intro encodes
    cases kind with
    | svc => rw [if_pos (svc.mpr encodes)]
    | msrTpidr rt =>
      obtain rfl : word = msrTpidrEl0Bits + rt := encodes
      have reg := lowReg_add (show msrTpidrEl0Bits % 2 ^ 5 = 0 by decide) rt
      rw [if_neg, if_pos (msr.mpr (by rw [reg])), reg]
      intro masked
      obtain ⟨imm, imm_lt, same⟩ := svc.mp masked
      have := rt.isLt
      unfold msrTpidrEl0Bits at same
      omega
    | mrsTpidr rd =>
      obtain ⟨not_xzr, same⟩ := encodes
      obtain rfl : word = mrsTpidrEl0Bits + rd := same
      have reg := lowReg_add (show mrsTpidrEl0Bits % 2 ^ 5 = 0 by decide) rd
      have := rd.isLt
      rw [if_neg, if_neg, if_pos (mrs.mpr (by rw [reg])), reg, if_neg not_xzr]
      · intro masked
        have same := msr.mp masked
        rw [reg] at same
        unfold mrsTpidrEl0Bits msrTpidrEl0Bits at same
        omega
      · intro masked
        obtain ⟨imm, imm_lt, same⟩ := svc.mp masked
        unfold mrsTpidrEl0Bits at same
        omega

end Masks

/-! ## The sites of an image -/

/-- What is to be rewritten at a word of a section. -/
def siteAt (buf : List UInt8) (text : TextSectionInfo) (index : ℕ) : Option PatchSite :=
  (patchKind (wordAt buf (text.fileOffset + 4 * index))).map fun kind =>
    ⟨text.fileOffset + 4 * index, text.vaddr + 4 * index, kind⟩

/-- A word of an executable section that is to be rewritten. -/
def IsSite (buf : List UInt8) (textSections : List TextSectionInfo) (site : PatchSite) : Prop :=
  ∃ text ∈ textSections, ∃ index < text.size / 4,
    site.fileOffset = text.fileOffset + 4 * index ∧ site.vaddr = text.vaddr + 4 * index ∧
      EncodesKind (wordAt buf site.fileOffset) site.kind

section Sites

variable {buf : List UInt8} {text : TextSectionInfo} {textSections : List TextSectionInfo} {sites : List PatchSite}
  {site : PatchSite}

theorem wordAt_lt (buf : List UInt8) (offset : ℕ) : wordAt buf offset < 2 ^ 32 := by
  refine (leValue_lt _).trans_le ?_
  rw [show 2 ^ 32 = 256 ^ 4 by decide]
  exact Nat.pow_le_pow_right (by decide) (length_take_le _ _)

theorem siteAt_eq_some {index : ℕ} :
    siteAt buf text index = some site ↔ site.fileOffset = text.fileOffset + 4 * index ∧
      site.vaddr = text.vaddr + 4 * index ∧ EncodesKind (wordAt buf site.fileOffset) site.kind := by
  rw [siteAt, Option.map_eq_some_iff]
  constructor
  · rintro ⟨kind, found, rfl⟩
    exact ⟨rfl, rfl, (patchKind_eq_some (wordAt_lt _ _)).mp found⟩
  · rintro ⟨offset_eq, vaddr_eq, encodes⟩
    rw [offset_eq] at encodes
    refine ⟨site.kind, (patchKind_eq_some (wordAt_lt _ _)).mpr encodes, ?_⟩
    rw [← offset_eq, ← vaddr_eq]

theorem sitesAt_eq_ok {indices : List ℕ} (found : sitesAt buf text indices = .ok sites) :
    sites = indices.filterMap (siteAt buf text) ∧ ∀ site ∈ sites, site.vaddr < 2 ^ 64 := by
  induction indices generalizing sites with
  | nil =>
    cases found
    exact ⟨rfl, nofun⟩
  | cons index rest ih =>
    unfold sitesAt at found
    split at found
    · next none_eq =>
      rw [filterMap_cons_none (by rw [siteAt, none_eq]; rfl)]
      exact ih found
    · next kind some_eq =>
      obtain ⟨vaddr, vaddr_eq, found⟩ := bind_eq_ok.mp found
      obtain ⟨small, rfl⟩ := checkedAddU64_eq_ok.mp vaddr_eq
      obtain ⟨later, later_eq, found⟩ := bind_eq_ok.mp found
      obtain ⟨rfl, later_small⟩ := ih later_eq
      obtain rfl := pure_eq_ok.mp found
      rw [filterMap_cons_some (by rw [siteAt, some_eq]; rfl)]
      exact ⟨rfl, forall_mem_cons.mpr ⟨small, later_small⟩⟩

/-- The scan finds the sites section by section and word by word. -/
theorem findPatchSites_eq_ok (found : findPatchSites textSections buf = .ok sites) :
    sites = textSections.flatMap (fun text => (List.range (text.size / 4)).filterMap (siteAt buf text)) ∧
      (∀ text ∈ textSections, text.fileOffset + text.size ≤ buf.length) ∧ ∀ site ∈ sites, site.vaddr < 2 ^ 64 := by
  induction textSections generalizing sites with
  | nil =>
    cases found
    exact ⟨rfl, nofun, nofun⟩
  | cons text textSections ih =>
    obtain ⟨first, first_eq, found⟩ := bind_eq_ok.mp found
    obtain ⟨later, later_eq, found⟩ := bind_eq_ok.mp found
    obtain rfl := pure_eq_ok.mp found
    obtain ⟨rfl, later_fit, later_small⟩ := ih later_eq
    unfold sectionSites at first_eq
    split_ifs at first_eq with fits
    obtain ⟨rfl, first_small⟩ := sitesAt_eq_ok first_eq
    exact ⟨rfl, forall_mem_cons.mpr ⟨fits, later_fit⟩, forall_mem_append.mpr ⟨first_small, later_small⟩⟩

theorem mem_findPatchSites (found : findPatchSites textSections buf = .ok sites) :
    site ∈ sites ↔ IsSite buf textSections site := by
  obtain ⟨rfl, -, -⟩ := findPatchSites_eq_ok found
  simp [siteAt_eq_some, IsSite]

/-- Two sections that share no byte of the file. -/
def ShareNoByte (first second : TextSectionInfo) : Prop :=
  ∀ offset, first.fileOffset ≤ offset ∧ offset < first.fileOffset + first.size →
    ¬(second.fileOffset ≤ offset ∧ offset < second.fileOffset + second.size)

/-- Two sites whose words share no byte of the file. -/
def PatchSite.Apart (first second : PatchSite) : Prop :=
  first.fileOffset + 4 ≤ second.fileOffset ∨ second.fileOffset + 4 ≤ first.fileOffset

theorem sites_apart (apart : textSections.Pairwise ShareNoByte)
    (found : findPatchSites textSections buf = .ok sites) : sites.Pairwise PatchSite.Apart := by
  obtain ⟨rfl, -, -⟩ := findPatchSites_eq_ok found
  rw [pairwise_flatMap]
  constructor
  · intro text _
    rw [pairwise_filterMap]
    refine pairwise_lt_range.imp ?_
    intro earlier later lt first first_eq second second_eq
    rw [siteAt_eq_some] at first_eq second_eq
    unfold PatchSite.Apart
    omega
  · refine apart.imp ?_
    intro earlier later share first first_mem second second_mem
    simp only [mem_filterMap, mem_range, siteAt_eq_some] at first_mem second_mem
    obtain ⟨i, i_lt, first_eq, -⟩ := first_mem
    obtain ⟨j, j_lt, second_eq, -⟩ := second_mem
    have := share (max first.fileOffset second.fileOffset)
    unfold PatchSite.Apart
    omega

end Sites

/-! ## One site -/

/-- A gate in the trampoline, and the site it was emitted for. -/
structure Gate where
  offset : ℕ
  site : PatchSite
  code : List UInt8
deriving DecidableEq, Repr

/-- The word at an address is a `B` that leads to a target. -/
def BranchesTo (word pc target : ℕ) : Prop :=
  ∃ offset, decode word = some (.b offset) ∧ (b offset).target pc = some target

/-- A word that does right by a site: a branch to a gate for that very site, or the trap. -/
def Answers (trampolineBaseAddr : ℕ) (gates : List Gate) (trappedSites : List ℕ) (site : PatchSite) (word : ℕ) : Prop :=
  (∃ gate ∈ gates, gate.site = site ∧ BranchesTo word site.vaddr (trampolineBaseAddr + gate.offset)) ∨
    (word = trapWord ∧ site.vaddr ∈ trappedSites)

/-- Gates that follow each other without a gap from an offset on. -/
def Consecutive : ℕ → List Gate → Prop
  | _, [] => True
  | offset, gate :: rest => gate.offset = offset ∧ Consecutive (offset + gate.code.length) rest

section Step

variable {trampolineBaseAddr : ℕ} {host : Host} {state next : HookState} {site : PatchSite}

theorem redirect_eq_ok {gateOffset branch : ℕ} {code : List UInt8}
    (gate_lt : trampolineBaseAddr + gateOffset < 2 ^ 64) (vaddr_lt : site.vaddr < 2 ^ 64)
    (redirected : redirect trampolineBaseAddr host gateOffset (trampolineBaseAddr + gateOffset) site =
      .ok (some (branch, code))) :
    BranchesTo branch site.vaddr (trampolineBaseAddr + gateOffset) ∧ branch < 2 ^ 32 ∧
      IsGate trampolineBaseAddr gateOffset site code := by
  unfold redirect at redirected
  split at redirected
  · cases redirected
  · next word encoded =>
    obtain ⟨gate, emitted, redirected⟩ := bind_eq_ok.mp redirected
    obtain ⟨code, rfl, pair_eq⟩ := Option.map_eq_some_iff.mp (pure_eq_ok.mp redirected)
    cases pair_eq
    obtain ⟨aligned, fits, -⟩ := branchImm26_eq_some encoded
    have canonical (offset : ℤ) : (b offset).Canonical := trivial
    refine ⟨⟨_, decode_encode (canonical _) encoded, congrArg some (target_of_delta vaddr_lt gate_lt ?_)⟩,
      encode_lt (canonical _) encoded, emitGate_eq_ok emitted⟩
    unfold FitsSigned at fits
    omega

/-- What one round does: it overwrites the site with its answer, and appends the gate or notes the trap. -/
theorem hookSite_eq_ok (vaddr_lt : site.vaddr < 2 ^ 64) (hooked : hookSite trampolineBaseAddr host state site = .ok next) :
    ∃ gates trapped word, word < 2 ^ 32 ∧
      next = ⟨overwrite state.image site.fileOffset (leBytes 4 word),
        state.trampoline ++ gates.flatMap Gate.code, state.trappedSites ++ trapped⟩ ∧
      Consecutive state.trampoline.length gates ∧
      (∀ gate ∈ gates, IsGate trampolineBaseAddr gate.offset gate.site gate.code) ∧
      Answers trampolineBaseAddr gates trapped site word := by
  obtain ⟨gateVaddr, gate_eq, hooked⟩ := bind_eq_ok.mp hooked
  obtain ⟨gate_lt, rfl⟩ := checkedAddU64_eq_ok.mp gate_eq
  obtain ⟨answer, redirected, hooked⟩ := bind_eq_ok.mp hooked
  cases answer with
  | some answer =>
    obtain ⟨branch, code⟩ := answer
    obtain rfl := pure_eq_ok.mp hooked
    obtain ⟨branches, branch_lt, gate⟩ := redirect_eq_ok gate_lt vaddr_lt redirected
    refine ⟨[⟨state.trampoline.length, site, code⟩], [], branch, branch_lt, ?_, ⟨rfl, trivial⟩, ?_, .inl ?_⟩
    · simp
    · simpa using gate
    · exact ⟨_, mem_singleton_self _, rfl, branches⟩
  | none =>
    rw [show (brk trapBrkImm).encode = some trapWord by decide] at hooked
    obtain rfl := pure_eq_ok.mp hooked
    refine ⟨[], [site.vaddr], trapWord, by decide, ?_, trivial, nofun, .inr ⟨rfl, mem_singleton_self _⟩⟩
    simp

end Step

/-! ## All sites -/

variable {gates more : List Gate}

theorem Answers.mono {trampolineBaseAddr word : ℕ} {trapped other : List ℕ} {site : PatchSite}
    (answers : Answers trampolineBaseAddr gates trapped site word) (gates_le : gates ⊆ more)
    (trapped_le : trapped ⊆ other) : Answers trampolineBaseAddr more other site word := by
  rcases answers with ⟨gate, member, rest⟩ | ⟨is_trap, member⟩
  · exact .inl ⟨gate, gates_le member, rest⟩
  · exact .inr ⟨is_trap, trapped_le member⟩

variable {offset : ℕ}

theorem Consecutive.append (first : Consecutive offset gates)
    (second : Consecutive (offset + (gates.flatMap Gate.code).length) more) : Consecutive offset (gates ++ more) := by
  induction gates generalizing offset with
  | nil => exact second
  | cons gate gates ih =>
    refine ⟨first.1, ih first.2 ?_⟩
    rw [flatMap_cons, length_append, ← Nat.add_assoc] at second
    exact second

/-- Gates that follow each other do not overlap. -/
theorem Consecutive.pairwise (gates_eq : Consecutive offset gates) :
    (∀ gate ∈ gates, offset ≤ gate.offset) ∧
      gates.Pairwise fun first second => first.offset + first.code.length ≤ second.offset := by
  induction gates generalizing offset with
  | nil => exact ⟨nofun, .nil⟩
  | cons gate gates ih =>
    obtain ⟨rfl, rest⟩ := gates_eq
    obtain ⟨after, pairwise⟩ := ih rest
    refine ⟨forall_mem_cons.mpr ⟨le_rfl, fun later member => ?_⟩, .cons after pairwise⟩
    have := after later member
    omega

/-- Each of them stands at its offset. -/
theorem Consecutive.code_prefix {before : List UInt8} {gate : Gate}
    (gates_eq : Consecutive before.length gates) (member : gate ∈ gates) :
    gate.code <+: (before ++ gates.flatMap Gate.code).drop gate.offset := by
  induction gates generalizing before with
  | nil => cases member
  | cons first gates ih =>
    obtain ⟨offset_eq, rest⟩ := gates_eq
    rw [flatMap_cons, ← append_assoc]
    rcases mem_cons.mp member with rfl | member
    · rw [offset_eq, append_assoc, drop_left]
      exact prefix_append _ _
    · rw [← length_append] at rest
      exact ih rest member

section Loop

variable {trampolineBaseAddr : ℕ} {host : Host} {state final : HookState} {sites : List PatchSite}

/-- A site, and the word that takes its place. -/
structure Answer where
  site : PatchSite
  word : ℕ

def Answer.edit (answer : Answer) : Edit := ⟨answer.site.fileOffset, leBytes 4 answer.word⟩

/-- What the loop does: one answer for each site, and the gates behind one another. -/
theorem hookSites_eq_ok (vaddr_lt : ∀ site ∈ sites, site.vaddr < 2 ^ 64)
    (hooked : hookSites trampolineBaseAddr host state sites = .ok final) :
    ∃ gates trapped, ∃ answers : List Answer, answers.map Answer.site = sites ∧
      (∀ answer ∈ answers, answer.word < 2 ^ 32 ∧
        Answers trampolineBaseAddr gates trapped answer.site answer.word) ∧
      final = ⟨(answers.map Answer.edit).foldl apply state.image,
        state.trampoline ++ gates.flatMap Gate.code, state.trappedSites ++ trapped⟩ ∧
      Consecutive state.trampoline.length gates ∧ ∀ gate ∈ gates, IsGate trampolineBaseAddr gate.offset gate.site gate.code := by
  induction sites generalizing state with
  | nil =>
    cases hooked
    exact ⟨[], [], [], rfl, nofun, by simp, trivial, nofun⟩
  | cons site sites ih =>
    obtain ⟨first_lt, rest_lt⟩ := forall_mem_cons.mp vaddr_lt
    obtain ⟨next, first, rest⟩ := bind_eq_ok.mp hooked
    obtain ⟨gates, trapped, word, word_lt, rfl, gates_eq, are_gates, answers⟩ := hookSite_eq_ok first_lt first
    obtain ⟨more, other, later, rfl, all_answer, rfl, more_eq, more_gates⟩ := ih rest_lt rest
    refine ⟨gates ++ more, trapped ++ other, ⟨site, word⟩ :: later, rfl,
      forall_mem_cons.mpr ⟨⟨word_lt, ?_⟩, fun answer member => ⟨(all_answer answer member).1, ?_⟩⟩, ?_,
      gates_eq.append ?_, forall_mem_append.mpr ⟨are_gates, more_gates⟩⟩
    · exact answers.mono (subset_append_left _ _) (subset_append_left _ _)
    · exact (all_answer answer member).2.mono (subset_append_right _ _) (subset_append_right _ _)
    · simp [Answer.edit, apply]
    · rwa [length_append] at more_eq

end Loop

/-! ## The image -/

theorem wordAt_of_prefix {image : List UInt8} {word : ℕ} (small : word < 2 ^ 32)
    (found : leBytes 4 word <+: image.drop offset) : wordAt image offset = word := by
  obtain ⟨rest, rest_eq⟩ := found
  rw [wordAt, ← rest_eq, take_left' (leBytes_length 4 word), leValue_leBytes]
  exact Nat.mod_eq_of_lt small

section Image

variable {buf : List UInt8} {answers : List Answer}

theorem edit_fits (fit : ∀ answer ∈ answers, answer.site.fileOffset + 4 ≤ buf.length) :
    ∀ edit ∈ answers.map Answer.edit, edit.stop ≤ buf.length := by
  intro edit member
  obtain ⟨answer, found, rfl⟩ := mem_map.mp member
  simpa [stop, Answer.edit] using fit answer found

theorem edit_disjoint (apart : (answers.map Answer.site).Pairwise PatchSite.Apart) :
    (answers.map Answer.edit).Pairwise Edit.Disjoint := by
  rw [pairwise_map] at apart ⊢
  refine apart.imp fun clear => ?_
  simpa [Edit.Disjoint, stop, Answer.edit, PatchSite.Apart] using clear

end Image

/-- The outcome's trampoline; there is none when there was nothing to rewrite. -/
def trampolineOf (outcome : Option HookOutcome) : List UInt8 := outcome.elim [] HookOutcome.trampoline

def trappedSitesOf (outcome : Option HookOutcome) : List ℕ := outcome.elim [] HookOutcome.trappedSites

/-- The words of the shared handler: a load through the callback slot at the trampoline's start, and the
jump through it. -/
def HasHandler (trampolineBaseAddr : ℕ) (trampoline : List UInt8) : Prop :=
  ∃ offset, decode (wordAt trampoline sharedSvcHandlerOffset) = some (.ldrLiteral x16 offset) ∧
    (ldrLiteral x16 offset).target (trampolineBaseAddr + sharedSvcHandlerOffset) =
      some (trampolineBaseAddr + headerCallbackOffset) ∧
    decode (wordAt trampoline (sharedSvcHandlerOffset + 4)) = some (.br x16)

/-- What it means for a rewriting to be exact. -/
structure Exact (buf : List UInt8) (textSections : List TextSectionInfo) (trampolineBaseAddr : ℕ)
    (image : List UInt8) (outcome : Option HookOutcome) (gates : List Gate) : Prop where
  length_eq : image.length = buf.length
  /-- Every word to be rewritten is a branch to its own gate, or the trap. -/
  answered : ∀ site, IsSite buf textSections site →
    Answers trampolineBaseAddr gates (trappedSitesOf outcome) site (wordAt image site.fileOffset)
  /-- No other byte changes. -/
  unchanged : ∀ index, (∀ site, IsSite buf textSections site →
    index < site.fileOffset ∨ site.fileOffset + 4 ≤ index) → image[index]? = buf[index]?
  /-- The gates stand in the trampoline, behind the shared handler and clear of each other. -/
  placed : ∀ gate ∈ gates, sharedSvcHandlerOffset + 8 ≤ gate.offset ∧ gate.code <+: (trampolineOf outcome).drop gate.offset
  apart : gates.Pairwise fun first second => first.offset + first.code.length ≤ second.offset
  /-- Every address that a gate computes is the one it was assembled for. -/
  gates_exact : ∀ gate ∈ gates, IsGate trampolineBaseAddr gate.offset gate.site gate.code
  handler : outcome.isSome → HasHandler trampolineBaseAddr (trampolineOf outcome)

section Main

variable {buf image : List UInt8} {textSections : List TextSectionInfo} {trampolineBaseAddr callback : ℕ}
  {host : Host} {outcome : Option HookOutcome}

theorem hasHandler_of_prologue {prologue : List UInt8}
    (emitted : emitSharedPrologue trampolineBaseAddr callback = .ok prologue) (gates : List UInt8) :
    prologue.length = sharedSvcHandlerOffset + 8 ∧ HasHandler trampolineBaseAddr (prologue ++ gates) := by
  obtain ⟨offset, handler, rfl, handler_len, decoded, target⟩ := emitSharedPrologue_eq_ok emitted
  refine ⟨by simp [handler_len, sharedSvcHandlerOffset, headerCallbackOffset], offset, ?_⟩
  have behind_slot : (leBytes 8 callback ++ handler ++ gates).drop 8 = handler ++ gates := by
    rw [append_assoc]
    exact drop_left' (leBytes_length 8 callback)
  have second : (leBytes 8 callback ++ handler ++ gates).drop 12 = (handler ++ gates).drop 4 := by
    rw [← behind_slot, drop_drop]
  match handler, handler_len, decoded with
  | [_, _, _, _, _, _, _, _], _, decoded =>
    obtain ⟨load, jump⟩ := List.cons.inj decoded
    refine ⟨?_, target, ?_⟩
    · rw [wordAt, sharedSvcHandlerOffset, headerCallbackOffset, behind_slot]
      exact load
    · rw [wordAt, sharedSvcHandlerOffset, headerCallbackOffset, second]
      exact (List.cons.inj jump).1

/-- Rewriting is exact whenever no two executable sections share a byte of the file. -/
theorem hookSyscallsAarch64_exact (apart : textSections.Pairwise ShareNoByte)
    (accepted : hookSyscallsAarch64 buf textSections trampolineBaseAddr callback host = .ok (image, outcome)) :
    ∃ gates, Exact buf textSections trampolineBaseAddr image outcome gates := by
  obtain ⟨sites, found, accepted⟩ := bind_eq_ok.mp accepted
  have is_site {site : PatchSite} : site ∈ sites ↔ IsSite buf textSections site := mem_findPatchSites found
  obtain ⟨-, sections_fit, vaddr_lt⟩ := findPatchSites_eq_ok found
  split_ifs at accepted with no_sites
  · cases accepted
    subst no_sites
    refine ⟨[], rfl, fun site found => ?_, fun _ _ => rfl, nofun, .nil, nofun, nofun⟩
    cases is_site.mpr found
  obtain ⟨prologue, prologue_eq, accepted⟩ := bind_eq_ok.mp accepted
  obtain ⟨final, hooked, accepted⟩ := bind_eq_ok.mp accepted
  cases pure_eq_ok.mp accepted
  obtain ⟨gates, trapped, answers, rfl, all_answer, rfl, consecutive, are_gates⟩ := hookSites_eq_ok vaddr_lt hooked
  obtain ⟨prologue_len, handler⟩ := hasHandler_of_prologue prologue_eq (gates.flatMap Gate.code)
  have fit : ∀ answer ∈ answers, answer.site.fileOffset + 4 ≤ buf.length := by
    intro answer member
    obtain ⟨text, text_mem, index, index_lt, offset_eq, -⟩ := is_site.mp (mem_map_of_mem member)
    have := sections_fit text text_mem
    omega
  have edits_fit := edit_fits fit
  obtain ⟨after, gates_apart⟩ := consecutive.pairwise
  refine ⟨gates, foldl_apply_length edits_fit, ?_, ?_, ?_, gates_apart, are_gates, fun _ => handler⟩
  · intro site to_rewrite
    obtain ⟨answer, member, rfl⟩ := mem_map.mp (is_site.mpr to_rewrite)
    obtain ⟨word_lt, answers_site⟩ := all_answer answer member
    have written := slice_foldl_apply edits_fit (edit_disjoint (sites_apart apart found)) (mem_map_of_mem member)
    have same : wordAt ((answers.map Answer.edit).foldl apply buf) answer.site.fileOffset = answer.word :=
      wordAt_of_prefix word_lt written
    rwa [← same] at answers_site
  · intro index misses
    refine foldl_apply_outside edits_fit ?_
    intro edit member
    obtain ⟨answer, found, rfl⟩ := mem_map.mp member
    simpa [Edit.Misses, stop, Answer.edit] using misses answer.site (is_site.mp (mem_map_of_mem found))
  · intro gate member
    rw [← prologue_len]
    exact ⟨after gate member, consecutive.code_prefix member⟩

end Main

/-- An `SVC #0`, an `MSR`, an `MRS` into `xzr` and one into `x3`. -/
def fourWords : List UInt8 :=
  [0x01, 0x00, 0x00, 0xD4, 0x43, 0xD0, 0x1B, 0xD5, 0x5F, 0xD0, 0x3B, 0xD5, 0x43, 0xD0, 0x3B, 0xD5]

/-- The run over `fourWords`, which leaves the third word alone. -/
def fourWordsOutcome : HookOutcome where
  trampoline := [0, 0, 0, 0, 0, 0, 0, 0, 208, 255, 255, 88, 0, 2, 31, 214, 255, 67, 0, 209, 240, 3, 0, 249, 240,
    255, 255, 208, 16, 18, 0, 145, 240, 7, 0, 249, 249, 255, 255, 23, 255, 131, 0, 209, 240, 71, 0, 169,
    227, 11, 0, 249, 80, 208, 59, 213, 241, 11, 64, 249, 17, 10, 0, 249, 240, 71, 64, 169, 255, 131, 0,
    145, 240, 247, 255, 23, 67, 208, 59, 213, 99, 8, 64, 249, 239, 247, 255, 23]
  trappedSites := []

def fourWordsImage : List UInt8 := [4, 8, 0, 20, 9, 8, 0, 20, 95, 208, 59, 213, 16, 8, 0, 20]

theorem hookSyscallsAarch64_exact_fourWords :
    ∃ gates, Exact fourWords [⟨0x1000, 0, 8⟩, ⟨0x1008, 8, 8⟩] 0x3000 fourWordsImage (some fourWordsOutcome) gates := by
  have accepted : hookSyscallsAarch64 fourWords [⟨0x1000, 0, 8⟩, ⟨0x1008, 8, 8⟩] 0x3000 0 .linux =
      .ok (fourWordsImage, some fourWordsOutcome) := by decide +kernel
  refine hookSyscallsAarch64_exact (.cons ?_ (pairwise_singleton _ _)) accepted
  simp only [mem_singleton, forall_eq, ShareNoByte]
  omega

/-- One `SVC` that two sections have at different addresses. The branch that is left leads to the second
site's gate from the second address, and from the first to where there is no gate. -/
theorem shared_word_loses_gate :
    ∃ image outcome, hookSyscallsAarch64 [0x01, 0x00, 0x00, 0xD4] [⟨0x1000, 0, 4⟩, ⟨0x2000, 0, 4⟩] 0x3000 0 .linux =
        .ok (image, some outcome) ∧
      ¬∃ gates, Exact [0x01, 0x00, 0x00, 0xD4] [⟨0x1000, 0, 4⟩, ⟨0x2000, 0, 4⟩] 0x3000 image (some outcome) gates := by
  refine ⟨[10, 4, 0, 20], ⟨[0, 0, 0, 0, 0, 0, 0, 0, 208, 255, 255, 88, 0, 2, 31, 214, 255, 67, 0, 209, 240, 3, 0, 249,
    240, 255, 255, 208, 16, 18, 0, 145, 240, 7, 0, 249, 249, 255, 255, 23, 255, 67, 0, 209, 240, 3, 0, 249,
    240, 255, 255, 240, 16, 18, 0, 145, 240, 7, 0, 249, 243, 255, 255, 23], []⟩, by decide +kernel, ?_⟩
  rintro ⟨gates, exact_⟩
  have answers := exact_.answered ⟨0, 0x1000, .svc⟩ ⟨⟨0x1000, 0, 4⟩, by simp, 0, by decide, rfl, rfl, 0, by decide, by decide⟩
  rcases answers with ⟨gate, member, -, offset, decoded, target⟩ | ⟨-, trapped⟩
  · have is_b : decode (wordAt [10, 4, 0, 20] 0) = some (.b 0x1028) := by decide +kernel
    rw [is_b] at decoded
    cases decoded
    have target_eq : (b 0x1028).target 0x1000 = some 0x2028 := by decide +kernel
    rw [target_eq, Option.some.injEq] at target
    omega
  · cases trapped

end LiteBox.Rewriter.Arm64
