import LiteBox.Rewriter.Arm64.Gates

/-! # What a gate's words say

The words of an emitted gate decode to the instructions its documentation lists, and every
PC-relative one among them names the address it was assembled for.
-/

namespace LiteBox.Rewriter.Arm64

open Bytes Outcome List Asm Option

/-! ## Distances -/

theorem toSigned_bounds {value : ℕ} (small : value < 2 ^ 64) :
    -2 ^ 63 ≤ toSigned 64 value ∧ toSigned 64 value < 2 ^ 63 ∧ ((toSigned 64 value - value) % 2 ^ 64 = 0) := by
  unfold toSigned
  split_ifs with low
  · omega
  · omega

/-- A distance that fits a branch did not saturate, so it leads to its target. -/
theorem target_of_delta {here target : ℕ} (here_lt : here < 2 ^ 64) (target_lt : target < 2 ^ 64)
    (near : -2 ^ 62 ≤ saturatingSub (toSigned 64 target) (toSigned 64 here) ∧
      saturatingSub (toSigned 64 target) (toSigned 64 here) < 2 ^ 62) :
    ((here + saturatingSub (toSigned 64 target) (toSigned 64 here)) % 2 ^ 64).toNat = target := by
  obtain ⟨-, -, here_mod⟩ := toSigned_bounds here_lt
  obtain ⟨-, -, target_mod⟩ := toSigned_bounds target_lt
  have exact_eq : saturatingSub (toSigned 64 target) (toSigned 64 here) =
      toSigned 64 target - toSigned 64 here := by
    unfold saturatingSub at near ⊢
    omega
  rw [exact_eq]
  omega

section Assembler

variable {asm next : Asm} {insn : Insn} {target : ℕ}

theorem here_eq_ok {here : ℕ} (found : asm.here = .ok here) : here = asm.baseVaddr + 4 * asm.words.length ∧ here < 2 ^ 64 := by
  obtain ⟨small, rfl⟩ := checkedAddU64_eq_ok.mp found
  exact ⟨rfl, small⟩

/-- The words that a sequence of instructions encodes to. -/
def Encodes (insns : List Insn) (words : List ℕ) : Prop :=
  List.Forall₂ (fun insn word => insn.encode = some word) insns words

/-- The fragment starts at an address and holds the encodings of these instructions. -/
def Asm.Holds (asm : Asm) (baseVaddr : ℕ) (insns : List Insn) : Prop :=
  asm.baseVaddr = baseVaddr ∧ Encodes insns asm.words

variable {baseVaddr : ℕ} {insns more : List Insn}

theorem Asm.Holds.new (baseVaddr : ℕ) : (new baseVaddr).Holds baseVaddr [] := ⟨rfl, .nil⟩

variable (holds : asm.Holds baseVaddr insns)

include holds

theorem Asm.Holds.pushWord {word : ℕ} (encoded : insn.encode = some word) :
    (asm.pushWord word).Holds baseVaddr (insns ++ [insn]) :=
  ⟨holds.1, rel_append holds.2 (.cons encoded .nil)⟩

theorem Asm.Holds.here :
    asm.baseVaddr + 4 * asm.words.length = baseVaddr + 4 * insns.length := by
  rw [holds.1, holds.2.length_eq]

theorem Asm.Holds.emit (emitted : asm.emit insn = .ok next) :
    next.Holds baseVaddr (insns ++ [insn]) := by
  unfold Asm.emit at emitted
  split at emitted
  · next word encoded =>
    cases emitted
    exact holds.pushWord encoded
  · cases emitted

theorem Asm.Holds.emitAll (emitted : asm.emitAll more = .ok next) :
    next.Holds baseVaddr (insns ++ more) := by
  induction more generalizing asm insns with
  | nil =>
    cases emitted
    rwa [append_nil]
  | cons insn more ih =>
    obtain ⟨middle, first, rest⟩ := bind_eq_ok.mp emitted
    rw [append_cons]
    exact ih (holds.emit first) rest

omit holds in
theorem deltaTo_eq_ok {delta : ℤ} (found : asm.deltaTo target = .ok delta) :
    asm.baseVaddr + 4 * asm.words.length < 2 ^ 64 ∧
      delta = saturatingSub (toSigned 64 target) (toSigned 64 (asm.baseVaddr + 4 * asm.words.length)) := by
  obtain ⟨here, here_eq, found⟩ := bind_eq_ok.mp found
  obtain ⟨rfl, small⟩ := here_eq_ok here_eq
  exact ⟨small, (pure_eq_ok.mp found).symm⟩

/-- A branch that is emitted leads to its target. -/
theorem Asm.Holds.branchTo (target_lt : target < 2 ^ 64)
    (branched : asm.branchTo target = .ok (some next)) :
    ∃ offset, next.Holds baseVaddr (insns ++ [.b offset]) ∧
      (Insn.b offset).target (baseVaddr + 4 * insns.length) = some target := by
  obtain ⟨offset, delta, branched⟩ := bind_eq_ok.mp branched
  obtain ⟨here_lt, rfl⟩ := deltaTo_eq_ok delta
  obtain ⟨word, encoded, rfl⟩ := map_eq_some_iff.mp (pure_eq_ok.mp branched)
  obtain ⟨aligned, fits, -⟩ := branchImm26_eq_some encoded
  rw [holds.here] at here_lt encoded aligned fits
  refine ⟨_, holds.pushWord encoded, congrArg some (target_of_delta here_lt target_lt ?_)⟩
  unfold FitsSigned at fits
  omega

theorem Asm.Holds.ldrLiteral {rt : Reg} (target_lt : target < 2 ^ 64)
    (loaded : asm.ldrLiteral rt target = .ok next) :
    ∃ offset, next.Holds baseVaddr (insns ++ [.ldrLiteral rt offset]) ∧
      (Insn.ldrLiteral rt offset).target (baseVaddr + 4 * insns.length) = some target := by
  obtain ⟨offset, delta, loaded⟩ := bind_eq_ok.mp loaded
  obtain ⟨here_lt, rfl⟩ := deltaTo_eq_ok delta
  split at loaded
  · next word encoded =>
    cases loaded
    obtain ⟨aligned, fits, -⟩ := pcrelImm19_eq_some rt.isLt encoded
    rw [holds.here] at here_lt encoded aligned fits
    refine ⟨_, holds.pushWord encoded, congrArg some (target_of_delta here_lt target_lt ?_)⟩
    unfold FitsSigned at fits
    omega
  · cases loaded

omit holds in
theorem page_le (addr : ℕ) : page addr ≤ addr ∧ page addr % 4096 = 0 := by
  unfold page
  omega

/-- An `ADRP` that is emitted names its target's page. -/
theorem Asm.Holds.adrp {rd : Reg} (target_lt : target < 2 ^ 64)
    (emitted : asm.adrp rd target = .ok (some next)) :
    ∃ pageOff, next.Holds baseVaddr (insns ++ [.adrp rd pageOff]) ∧
      (Insn.adrp rd pageOff).target (baseVaddr + 4 * insns.length) = some (page target) := by
  obtain ⟨here, here_eq, emitted⟩ := bind_eq_ok.mp emitted
  obtain ⟨rfl, here_lt⟩ := here_eq_ok here_eq
  obtain ⟨word, encoded, rfl⟩ := map_eq_some_iff.mp (pure_eq_ok.mp emitted)
  rw [holds.here] at here_lt encoded
  refine ⟨_, holds.pushWord encoded, congrArg some ?_⟩
  obtain ⟨fits, -⟩ := adrp_eq_some encoded
  generalize baseVaddr + 4 * insns.length = here at *
  obtain ⟨target_page_le, target_aligned⟩ := page_le target
  obtain ⟨here_page_le, here_aligned⟩ := page_le here
  obtain ⟨-, -, here_mod⟩ := toSigned_bounds (Nat.lt_of_le_of_lt here_page_le here_lt)
  obtain ⟨-, -, target_mod⟩ := toSigned_bounds (Nat.lt_of_le_of_lt target_page_le target_lt)
  have exact_eq := target_of_delta (Nat.lt_of_le_of_lt here_page_le here_lt)
    (Nat.lt_of_le_of_lt target_page_le target_lt) (by unfold FitsSigned at fits; omega)
  have whole : saturatingSub (toSigned 64 (page target)) (toSigned 64 (page here)) / 4096 * 4096 =
      saturatingSub (toSigned 64 (page target)) (toSigned 64 (page here)) := by
    unfold FitsSigned saturatingSub at *
    omega
  rw [whole]
  exact exact_eq

end Assembler

/-! ## Reading words back -/

/-- The little-endian words of a byte string. -/
def wordsOf : List UInt8 → List ℕ
  | a :: b :: c :: d :: rest => leValue [a, b, c, d] :: wordsOf rest
  | _ => []

variable {words : List ℕ}

theorem wordsOf_flatMap (small : ∀ word ∈ words, word < 2 ^ 32) :
    wordsOf (words.flatMap (leBytes 4)) = words := by
  induction words with
  | nil => rfl
  | cons word words ih =>
    have value : leValue (leBytes 4 word) = word := by
      rw [leValue_leBytes]
      exact Nat.mod_eq_of_lt (small word mem_cons_self)
    rw [flatMap_cons]
    change leValue (leBytes 4 word) :: wordsOf (words.flatMap (leBytes 4)) = _
    rw [value, ih fun other member => small other (mem_cons_of_mem _ member)]

theorem length_flatMap_leBytes (words : List ℕ) : (words.flatMap (leBytes 4)).length = 4 * words.length := by
  induction words with
  | nil => rfl
  | cons word words ih =>
    rw [flatMap_cons, length_append, ih, leBytes_length, length_cons]
    omega

/-- The processor reads back the instructions that were encoded. -/
theorem Encodes.read {insns : List Insn} (encodes : Encodes insns words)
    (canonical : ∀ insn ∈ insns, insn.Canonical) :
    (wordsOf (words.flatMap (leBytes 4))).map Insn.decode = insns.map some ∧
      (words.flatMap (leBytes 4)).length = 4 * insns.length := by
  have small : ∀ word ∈ words, word < 2 ^ 32 := by
    induction encodes with
    | nil => nofun
    | cons encoded _ ih =>
      intro word member
      rcases mem_cons.mp member with rfl | member
      · exact Insn.encode_lt (canonical _ mem_cons_self) encoded
      · exact ih (fun insn found => canonical insn (mem_cons_of_mem _ found)) word member
  rw [wordsOf_flatMap small, length_flatMap_leBytes, encodes.length_eq]
  refine ⟨?_, rfl⟩
  clear small
  induction encodes with
  | nil => rfl
  | cons encoded _ ih =>
    rw [map_cons, map_cons, Insn.decode_encode (canonical _ mem_cons_self) encoded,
      ih fun insn found => canonical insn (mem_cons_of_mem _ found)]

/-! ## The gates -/

/-- The instructions of a gate for a site, with the displacements left open. -/
def listing (kind : PatchKind) (returnAddr : ℕ) (pageOff offset : ℤ) : List Insn :=
  match kind with
  | .svc => [.subSp 16, .strUimm x16 sp 0, .adrp x16 pageOff, .addImm x16 x16 (returnAddr % 4096),
      .strUimm x16 sp 8, .b offset]
  | .msrTpidr rt => [.subSp 32, .stp x16 x17 sp 0, .strUimm rt sp 16, .mrsTpidrEl0 x16, .ldrUimm x17 sp 16,
      .strUimm x17 x16 16, .ldp x16 x17 sp 0, .addSp 32, .b offset]
  | .mrsTpidr rd => [.mrsTpidrEl0 rd, .ldrUimm rd rd 16, .b offset]

/-- The addresses that the instructions of a gate are meant to name. -/
def meantTargets (kind : PatchKind) (returnAddr handlerVaddr : ℕ) : List (Option ℕ) :=
  match kind with
  | .svc => [none, none, some (page returnAddr), none, none, some handlerVaddr]
  | .msrTpidr _ => List.replicate 8 none ++ [some returnAddr]
  | .mrsTpidr _ => [none, none, some returnAddr]

/-- The addresses that consecutive instructions name. -/
def targetsFrom : ℕ → List Insn → List (Option ℕ)
  | _, [] => []
  | pc, insn :: rest => insn.target pc :: targetsFrom (pc + 4) rest

/-- The code of a gate for a site: the listed instructions, each PC-relative one of which names the
address it is meant to. -/
def IsGate (trampolineBaseAddr gateOffset : ℕ) (site : PatchSite) (code : List UInt8) : Prop :=
  ∃ pageOff offset,
    (wordsOf code).map Insn.decode = (listing site.kind (site.vaddr + 4) pageOff offset).map some ∧
    code.length = 4 * (listing site.kind (site.vaddr + 4) pageOff offset).length ∧
    targetsFrom (trampolineBaseAddr + gateOffset) (listing site.kind (site.vaddr + 4) pageOff offset) =
      meantTargets site.kind (site.vaddr + 4) (trampolineBaseAddr + sharedSvcHandlerOffset)

theorem canonical_listing (kind : PatchKind) (returnAddr : ℕ) (pageOff offset : ℤ) :
    ∀ insn ∈ listing kind returnAddr pageOff offset, insn.Canonical := by
  cases kind <;> simp [listing, Insn.Canonical, x16, sp]

section Gates

variable {gateOffset trampolineBaseAddr : ℕ} {site : PatchSite} {host : Host} {code : List UInt8}

/-- What is left to check of a finished gate are the targets. -/
theorem Asm.Holds.isGate {asm : Asm} (pageOff offset : ℤ)
    (holds : asm.Holds (trampolineBaseAddr + gateOffset) (listing site.kind (site.vaddr + 4) pageOff offset))
    (targets : targetsFrom (trampolineBaseAddr + gateOffset) (listing site.kind (site.vaddr + 4) pageOff offset) =
      meantTargets site.kind (site.vaddr + 4) (trampolineBaseAddr + sharedSvcHandlerOffset)) :
    IsGate trampolineBaseAddr gateOffset site asm.finish :=
  have read := holds.2.read (canonical_listing _ _ _ _)
  ⟨pageOff, offset, read.1, read.2, targets⟩

theorem emitSvcGate_eq_ok (kind : site.kind = .svc) (emitted : emitSvcGate gateOffset trampolineBaseAddr site = .ok (some code)) :
    IsGate trampolineBaseAddr gateOffset site code := by
  obtain ⟨gateVaddr, gate_eq, emitted⟩ := bind_eq_ok.mp emitted
  obtain ⟨-, rfl⟩ := checkedAddU64_eq_ok.mp gate_eq
  obtain ⟨_, first, emitted⟩ := bind_eq_ok.mp emitted
  have holds := (Asm.Holds.new (trampolineBaseAddr + gateOffset)).emitAll first
  obtain ⟨returnAddr, return_eq, emitted⟩ := bind_eq_ok.mp emitted
  obtain ⟨return_lt, rfl⟩ := checkedAddU64_eq_ok.mp return_eq
  obtain ⟨paged, page_eq, emitted⟩ := bind_eq_ok.mp emitted
  cases paged with
  | none => cases emitted
  | some paged =>
    obtain ⟨pageOff, holds, page_target⟩ := holds.adrp return_lt page_eq
    obtain ⟨_, second, emitted⟩ := bind_eq_ok.mp emitted
    have holds := holds.emitAll second
    obtain ⟨handlerVaddr, handler_eq, emitted⟩ := bind_eq_ok.mp emitted
    obtain ⟨handler_lt, rfl⟩ := checkedAddU64_eq_ok.mp handler_eq
    obtain ⟨branched, branch_eq, emitted⟩ := bind_eq_ok.mp emitted
    obtain ⟨asm, rfl, rfl⟩ := map_eq_some_iff.mp (pure_eq_ok.mp emitted)
    obtain ⟨offset, holds, target⟩ := holds.branchTo handler_lt branch_eq
    refine Asm.Holds.isGate pageOff offset (by rw [kind]; exact holds) ?_
    rw [kind]
    exact congrArg₂ (fun page branch => [none, none, page, none, none, branch]) page_target target

/-- The other gates are straight-line code and the branch to the next instruction. -/
theorem emit_branchBack {body : List Insn} {gateWhat returnWhat : String}
    (emitted : (do
      let gateVaddr ← checkedAddU64 trampolineBaseAddr gateOffset gateWhat
      let asm ← (new gateVaddr).emitAll body
      let returnAddr ← checkedAddU64 site.vaddr 4 returnWhat
      return (← asm.branchTo returnAddr).map finish : Except Error (Option (List UInt8))) = .ok (some code)) :
    ∃ asm offset, code = finish asm ∧ asm.Holds (trampolineBaseAddr + gateOffset) (body ++ [.b offset]) ∧
      (Insn.b offset).target (trampolineBaseAddr + gateOffset + 4 * body.length) = some (site.vaddr + 4) := by
  obtain ⟨gateVaddr, gate_eq, emitted⟩ := bind_eq_ok.mp emitted
  obtain ⟨-, rfl⟩ := checkedAddU64_eq_ok.mp gate_eq
  obtain ⟨_, first, emitted⟩ := bind_eq_ok.mp emitted
  have holds := (Asm.Holds.new (trampolineBaseAddr + gateOffset)).emitAll first
  obtain ⟨returnAddr, return_eq, emitted⟩ := bind_eq_ok.mp emitted
  obtain ⟨return_lt, rfl⟩ := checkedAddU64_eq_ok.mp return_eq
  obtain ⟨branched, branch_eq, emitted⟩ := bind_eq_ok.mp emitted
  obtain ⟨asm, rfl, rfl⟩ := map_eq_some_iff.mp (pure_eq_ok.mp emitted)
  obtain ⟨offset, holds, target⟩ := holds.branchTo return_lt branch_eq
  exact ⟨asm, offset, rfl, holds, target⟩

theorem emitMsrGate_eq_ok {rt : Reg} (kind : site.kind = .msrTpidr rt)
    (emitted : emitMsrGate gateOffset trampolineBaseAddr site rt host = .ok (some code)) :
    IsGate trampolineBaseAddr gateOffset site code := by
  obtain ⟨asm, offset, rfl, holds, target⟩ := emit_branchBack emitted
  refine Asm.Holds.isGate 0 offset (by rw [kind]; exact holds) ?_
  rw [kind]
  exact congrArg (List.replicate 8 none ++ [·]) target

theorem emitMrsGate_eq_ok {rd : Reg} (kind : site.kind = .mrsTpidr rd)
    (emitted : emitMrsGate gateOffset trampolineBaseAddr site rd host = .ok (some code)) :
    IsGate trampolineBaseAddr gateOffset site code := by
  obtain ⟨asm, offset, rfl, holds, target⟩ := emit_branchBack emitted
  refine Asm.Holds.isGate 0 offset (by rw [kind]; exact holds) ?_
  rw [kind]
  exact congrArg ([none, none, ·]) target

/-- Whatever the site, a gate that is emitted is the gate for it. -/
theorem emitGate_eq_ok (emitted : emitGate gateOffset trampolineBaseAddr site host = .ok (some code)) :
    IsGate trampolineBaseAddr gateOffset site code := by
  unfold emitGate at emitted
  split at emitted
  · next kind => exact emitSvcGate_eq_ok kind emitted
  · next rt kind => exact emitMsrGate_eq_ok kind emitted
  · next rd kind => exact emitMrsGate_eq_ok kind emitted

/-- The shared prologue: the callback's slot, a load from that slot and the jump through it. -/
theorem emitSharedPrologue_eq_ok {callback : ℕ} {prologue : List UInt8}
    (emitted : emitSharedPrologue trampolineBaseAddr callback = .ok prologue) :
    ∃ offset handler, prologue = leBytes 8 callback ++ handler ∧ handler.length = 8 ∧
      (wordsOf handler).map Insn.decode = [some (.ldrLiteral x16 offset), some (.br x16)] ∧
      (Insn.ldrLiteral x16 offset).target (trampolineBaseAddr + sharedSvcHandlerOffset) = some trampolineBaseAddr := by
  obtain ⟨handler, handler_eq, emitted⟩ := bind_eq_ok.mp emitted
  obtain rfl := pure_eq_ok.mp emitted
  obtain ⟨handlerVaddr, vaddr_eq, handler_eq⟩ := bind_eq_ok.mp handler_eq
  obtain ⟨-, rfl⟩ := checkedAddU64_eq_ok.mp vaddr_eq
  obtain ⟨callbackVaddr, slot_eq, handler_eq⟩ := bind_eq_ok.mp handler_eq
  obtain ⟨slot_lt, rfl⟩ := checkedAddU64_eq_ok.mp slot_eq
  obtain ⟨_, loaded, handler_eq⟩ := bind_eq_ok.mp handler_eq
  obtain ⟨offset, holds, target⟩ := (Asm.Holds.new _).ldrLiteral slot_lt loaded
  obtain ⟨asm, jumped, handler_eq⟩ := bind_eq_ok.mp handler_eq
  obtain rfl := pure_eq_ok.mp handler_eq
  have read := (holds.emit jumped).2.read (by simp [Insn.Canonical])
  exact ⟨offset, asm.finish, rfl, read.2, read.1, target⟩

end Gates

end LiteBox.Rewriter.Arm64
