import LiteBox.Rewriter.Plan

/-! # The patches of a run

`hook_syscalls_in_section` mixes deciding and writing. Here a run is taken apart: `decideSites` is
the sequence of its decisions, which never look at a byte that was written before, and a `Patch` is
what one site adds: bytes over the section, a stub behind the trampoline, and perhaps an entry in
the list of skipped sites.
-/

namespace LiteBox.Rewriter

open Bytes Outcome List

variable {iced : Iced}

/-- The length of a stub without its copies: `LEA`, `JMP` to the entry and `JMP` back. -/
def stubFrameLen : ℕ := preambleLen + 5

def Plan.stubLen : Plan → ℕ
  | .back _ pre => pre.length + stubFrameLen
  | .forward _ post => post.length + stubFrameLen
  | .trap => 0

/-- One site's decision, with the place its stub gets in the trampoline. -/
structure Decision (iced : Iced) where
  inst : iced.Inst
  plan : Plan
  stubOffset : ℕ

/-- The first address a decision rewrites. -/
def Decision.start (decision : Decision iced) : ℕ :=
  match decision.plan with
  | .back start _ => start
  | .forward _ _ | .trap => iced.ip decision.inst

/-- The first address behind those a decision rewrites. -/
def Decision.stop (decision : Decision iced) : ℕ :=
  match decision.plan with
  | .forward stop _ => stop
  | .back _ _ | .trap => iced.nextIp decision.inst

/-- The decisions of a run over the sites, given the length of the trampoline so far. -/
def decideSites (targets : ControlTransferTargets) (trampolineBase : ℕ) :
    ℕ → List (SyscallSite iced) → Except Error (List (Decision iced))
  | _, [] => .ok []
  | trampolineLen, site :: rest =>
    match site.window[site.idx]? with
    | none => .error (.panic "index out of bounds")
    | some inst => do
      let plan ← planSite targets trampolineBase trampolineLen site.window site.idx inst
      let later ← decideSites targets trampolineBase (trampolineLen + plan.stubLen) rest
      return ⟨inst, plan, trampolineLen⟩ :: later

/-- What one site writes. -/
structure Patch (iced : Iced) where
  decision : Decision iced
  bytes : List UInt8
  stub : List UInt8

def Patch.skips (patch : Patch iced) : List ℕ :=
  if patch.decision.plan = .trap then [iced.ip patch.decision.inst] else []

def Patch.apply (sectionBase : ℕ) (state : HookState) (patch : Patch iced) : HookState where
  data := overwrite state.data (patch.decision.start - sectionBase) patch.bytes
  trampoline := state.trampoline ++ patch.stub
  skipped := state.skipped ++ patch.skips

/-- A stub around its copies: the call through the entry slot and the jump back. -/
def IsStub (pre post stub : List UInt8) : Prop :=
  ∃ entryDisp backDisp, entryDisp.length = 4 ∧ backDisp.length = 4 ∧
    stub = pre ++ (leaRcx ++ ([0xFF, 0x25] ++ entryDisp ++ (post ++ ([0xE9] ++ backDisp))))

/-- The bytes and the stub a decision leads to. -/
def Patch.Follows (trampolineBase : ℕ) (patch : Patch iced) : Prop :=
  let jumps := ∃ disp nops, disp.length = 4 ∧ patch.bytes = [0xE9] ++ disp ++ nops ∧
    (patch.decision.start : ℤ) + 5 + toSigned 32 (leValue disp) = trampolineBase + patch.decision.stubOffset
  match patch.decision.plan with
  | .back _ pre => jumps ∧ IsStub pre [] patch.stub
  | .forward _ post => jumps ∧ IsStub [] post patch.stub
  | .trap => (∃ nops, patch.bytes = [0xF1, 0xF4] ++ nops) ∧ patch.stub = []

/-- A patch that stays inside a section of the given size and does what its decision says. -/
structure Patch.Valid (sectionBase trampolineBase dataLen : ℕ) (patch : Patch iced) : Prop where
  base_le : sectionBase ≤ patch.decision.start
  length_eq : patch.decision.start + patch.bytes.length = patch.decision.stop
  inside : patch.decision.start - sectionBase + patch.bytes.length ≤ dataLen
  stub_len : patch.stub.length = patch.decision.plan.stubLen
  follows : patch.Follows trampolineBase

/-! ## Inverting the writes -/

theorem rel32Bytes_eq_ok {target base : ℕ} {context : String} {disp : List UInt8}
    (encoded : rel32Bytes target base context = .ok disp) :
    disp.length = 4 ∧ (base : ℤ) + toSigned 32 (leValue disp) = target := by
  simp only [rel32Bytes] at encoded
  split_ifs at encoded with fits
  cases encoded
  have field : leValue (leBytes 4 (ofSigned 32 ((target : ℤ) - base))) = ofSigned 32 ((target : ℤ) - base) := by
    rw [leValue_leBytes]
    exact Nat.mod_eq_of_lt (ofSigned_lt 32 _)
  refine ⟨leBytes_length 4 _, ?_⟩
  rw [field, toSigned_ofSigned (by decide) fits]
  omega

theorem writeSection_eq_ok {data bytes written : List UInt8} {offset : ℕ} :
    writeSection data offset bytes = .ok written ↔
      offset + bytes.length ≤ data.length ∧ written = overwrite data offset bytes := ite_eq_ok

theorem emitStub_eq_ok {trampolineBase entryAddr returnAddr : ℕ} {label : String} {pre post trampoline extended : List UInt8}
    (emitted : emitStub trampolineBase entryAddr returnAddr label pre post trampoline = .ok extended) :
    ∃ stub, extended = trampoline ++ stub ∧ IsStub pre post stub := by
  obtain ⟨entryBase, -, emitted⟩ := bind_eq_ok.mp emitted
  obtain ⟨entryDisp, entry_eq, emitted⟩ := bind_eq_ok.mp emitted
  obtain ⟨backBase, -, emitted⟩ := bind_eq_ok.mp emitted
  obtain ⟨backDisp, back_eq, emitted⟩ := bind_eq_ok.mp emitted
  cases emitted
  refine ⟨_, ?_, entryDisp, backDisp, (rel32Bytes_eq_ok entry_eq).1, (rel32Bytes_eq_ok back_eq).1, rfl⟩
  simp [append_assoc]

theorem IsStub.length {pre post stub : List UInt8} (shape : IsStub pre post stub) :
    stub.length = pre.length + post.length + stubFrameLen := by
  obtain ⟨entryDisp, backDisp, entry_len, back_len, rfl⟩ := shape
  simp only [length_append, length_cons, length_nil, leaRcx, entry_len, back_len, stubFrameLen, preambleLen]
  omega

theorem patchJump_eq_ok {sectionBase start stop targetAddr : ℕ} {data written : List UInt8}
    (wide : start + 5 ≤ stop) (patched : patchJump sectionBase start stop targetAddr data = .ok written) :
    sectionBase ≤ start ∧ ∃ disp nops, disp.length = 4 ∧
      start + ([0xE9] ++ disp ++ nops : List UInt8).length = stop ∧
      (start : ℤ) + 5 + toSigned 32 (leValue disp) = targetAddr ∧
      start - sectionBase + ([0xE9] ++ disp ++ nops : List UInt8).length ≤ data.length ∧
      written = overwrite data (start - sectionBase) ([0xE9] ++ disp ++ nops) := by
  obtain ⟨replaceLen, len_eq, patched⟩ := bind_eq_ok.mp patched
  obtain ⟨-, rfl⟩ := subU64_eq_ok.mp len_eq
  obtain ⟨replaceOffset, offset_eq, patched⟩ := bind_eq_ok.mp patched
  obtain ⟨base_le, rfl⟩ := subU64_eq_ok.mp offset_eq
  obtain ⟨patchBase, base_eq, patched⟩ := bind_eq_ok.mp patched
  obtain ⟨-, rfl⟩ := checkedAddU64_eq_ok.mp base_eq
  obtain ⟨disp, disp_eq, patched⟩ := bind_eq_ok.mp patched
  obtain ⟨disp_len, decodes⟩ := rel32Bytes_eq_ok disp_eq
  obtain ⟨fits, rfl⟩ := writeSection_eq_ok.mp patched
  refine ⟨base_le, disp, _, disp_len, ?_, by push_cast at decodes; exact decodes, fits, rfl⟩
  simp only [length_append, length_singleton, length_replicate, disp_len]
  omega

section Site

variable {targets : ControlTransferTargets} {sectionBase trampolineBase entryAddr start stop : ℕ}
  {before behind : List iced.Inst} {inst : iced.Inst} {state final : HookState}

/-- Applying a decision is applying a patch that follows it. -/
theorem applyPlan_eq_ok {plan : Plan} (laid : LaidOut iced start (before ++ inst :: behind) stop) (small : stop < 2 ^ 64)
    (chosen : plan.Chosen trampolineBase state.trampoline.length before inst behind)
    (applied : applyPlan sectionBase trampolineBase entryAddr inst state plan = .ok final) :
    ∃ patch : Patch iced, patch.decision = ⟨inst, plan, state.trampoline.length⟩ ∧
      patch.Valid sectionBase trampolineBase state.data.length ∧ final = patch.apply sectionBase state := by
  cases plan with
  | back from_ pre =>
    obtain ⟨front, first, run, -, rfl, span, -, -⟩ := chosen
    obtain ⟨targetAddr, target_eq, applied⟩ := bind_eq_ok.mp applied
    obtain ⟨-, rfl⟩ := checkedAddU64_eq_ok.mp target_eq
    obtain ⟨trampoline, emitted, applied⟩ := bind_eq_ok.mp applied
    obtain ⟨stub, rfl, shape⟩ := emitStub_eq_ok emitted
    obtain ⟨data, patched, applied⟩ := bind_eq_ok.mp applied
    obtain ⟨base_le, disp, nops, disp_len, length_eq, decodes, inside, rfl⟩ := patchJump_eq_ok span patched
    cases applied
    refine ⟨⟨⟨inst, .back (iced.ip first) pre, state.trampoline.length⟩, [0xE9] ++ disp ++ nops, stub⟩, rfl,
      ⟨base_le, length_eq, inside, shape.length, ⟨disp, nops, disp_len, rfl, ?_⟩, shape⟩, ?_⟩
    · exact_mod_cast decodes
    · simp [Patch.apply, Patch.skips, Decision.start]
  | forward until_ post =>
    obtain ⟨run, last, rest, -, rfl, span, -, -⟩ := chosen
    obtain ⟨targetAddr, target_eq, applied⟩ := bind_eq_ok.mp applied
    obtain ⟨-, rfl⟩ := checkedAddU64_eq_ok.mp target_eq
    obtain ⟨trampoline, emitted, applied⟩ := bind_eq_ok.mp applied
    obtain ⟨stub, rfl, shape⟩ := emitStub_eq_ok emitted
    obtain ⟨data, patched, applied⟩ := bind_eq_ok.mp applied
    obtain ⟨base_le, disp, nops, disp_len, length_eq, decodes, inside, rfl⟩ := patchJump_eq_ok span patched
    cases applied
    refine ⟨⟨⟨inst, .forward (iced.nextIp last) post, state.trampoline.length⟩, [0xE9] ++ disp ++ nops, stub⟩,
      rfl, ⟨base_le, length_eq, inside, ?_, ⟨disp, nops, disp_len, rfl, ?_⟩, shape⟩, ?_⟩
    · simpa [Plan.stubLen] using shape.length
    · exact_mod_cast decodes
    · simp [Patch.apply, Patch.skips, Decision.start]
  | trap =>
    obtain ⟨data, trapped, applied⟩ := bind_eq_ok.mp applied
    obtain ⟨offset, offset_eq, trapped⟩ := bind_eq_ok.mp trapped
    obtain ⟨base_le, rfl⟩ := subU64_eq_ok.mp offset_eq
    obtain ⟨filler, filler_eq, trapped⟩ := bind_eq_ok.mp trapped
    obtain ⟨two_le, rfl⟩ := subU64_eq_ok.mp filler_eq
    obtain ⟨inside, rfl⟩ := writeSection_eq_ok.mp trapped
    cases applied
    have next_inst := laid.nextIp_eq small (mem_append_right before mem_cons_self)
    refine ⟨⟨⟨inst, .trap, state.trampoline.length⟩, [0xF1, 0xF4] ++ List.replicate (iced.len inst - 2) 0x90, []⟩,
      rfl, ⟨base_le, ?_, inside, rfl, ⟨_, rfl⟩, rfl⟩, ?_⟩
    · simp only [Decision.start, Decision.stop, length_append, length_cons, length_nil,
        length_replicate]
      omega
    · simp [Patch.apply, Patch.skips, Decision.start]

theorem hookSite_eq_ok (laid : LaidOut iced start (before ++ inst :: behind) stop) (small : stop < 2 ^ 64)
    (hooked : hookSite targets sectionBase trampolineBase entryAddr state ⟨before.length, before ++ inst :: behind⟩ = .ok final) :
    ∃ patch : Patch iced, patch.decision.inst = inst ∧ patch.decision.stubOffset = state.trampoline.length ∧
      planSite targets trampolineBase state.trampoline.length (before ++ inst :: behind) before.length inst =
        .ok patch.decision.plan ∧
      patch.Valid sectionBase trampolineBase state.data.length ∧ final = patch.apply sectionBase state := by
  have read : (before ++ inst :: behind)[before.length]? = some inst := by simp
  simp only [hookSite, read] at hooked
  obtain ⟨plan, planned, applied⟩ := bind_eq_ok.mp hooked
  obtain ⟨patch, decision_eq, valid, rfl⟩ :=
    applyPlan_eq_ok laid small (planSite_chosen laid small planned) applied
  exact ⟨patch, by rw [decision_eq], by rw [decision_eq], by rw [decision_eq]; exact planned, valid, rfl⟩

end Site

/-! ## The whole run -/

section Run

variable {targets : ControlTransferTargets} {sectionBase trampolineBase entryAddr start stop : ℕ}
  {insts : List iced.Inst} {state final : HookState}

/-- The decision belongs to the instruction at position `k` and is a possible one there. -/
def Decision.At (trampolineBase : ℕ) (insts : List iced.Inst) (k : ℕ) (decision : Decision iced) : Prop :=
  ∃ before behind, insts = before ++ decision.inst :: behind ∧ before.length = k ∧
    decision.plan.Chosen trampolineBase decision.stubOffset before decision.inst behind

/-- The stubs lie one behind the other from an offset of the trampoline on. -/
def StubsFrom : ℕ → List (Patch iced) → Prop
  | _, [] => True
  | offset, patch :: rest => patch.decision.stubOffset = offset ∧ StubsFrom (offset + patch.stub.length) rest

/-- A window is a stretch of the sequence around its instruction. -/
theorem siteAt_split (before behind : List iced.Inst) (inst : iced.Inst) :
    siteAt (before ++ inst :: behind) before.length =
      ⟨(before.drop (before.length - 8)).length, before.drop (before.length - 8) ++ inst :: behind.take 8⟩ := by
  have cut : (before ++ inst :: behind).drop (before.length - 8) =
      before.drop (before.length - 8) ++ inst :: behind := drop_append_of_le_length (Nat.sub_le _ _)
  have length : (before.drop (before.length - 8)).length = min before.length 8 := by
    rw [length_drop]
    omega
  simp only [siteAt, syscallContextInstructions, cut, length, SyscallSite.mk.injEq, true_and]
  rw [take_append, length, take_of_length_le (by omega)]
  have rest : min before.length 8 + 1 + 8 - min before.length 8 = 8 + 1 := by omega
  rw [rest, take_succ_cons]

theorem hookSite_siteAt (laid : LaidOut iced start insts stop) (small : stop < 2 ^ 64) {k : ℕ} (inside : k < insts.length)
    (hooked : hookSite targets sectionBase trampolineBase entryAddr state (siteAt insts k) = .ok final) :
    ∃ patch : Patch iced, patch.decision.At trampolineBase insts k ∧
      patch.decision.stubOffset = state.trampoline.length ∧
      (siteAt insts k).window[(siteAt insts k).idx]? = some patch.decision.inst ∧
      planSite targets trampolineBase state.trampoline.length (siteAt insts k).window (siteAt insts k).idx
        patch.decision.inst = .ok patch.decision.plan ∧
      patch.Valid sectionBase trampolineBase state.data.length ∧ final = patch.apply sectionBase state := by
  obtain ⟨before, inst, behind, rfl, rfl⟩ : ∃ before inst behind, insts = before ++ inst :: behind ∧
      before.length = k :=
    ⟨insts.take k, insts[k], insts.drop (k + 1), by rw [getElem_cons_drop, take_append_drop], by rw [length_take]; omega⟩
  have pieces : before ++ inst :: behind =
      before.take (before.length - 8) ++ ((before.drop (before.length - 8) ++ inst :: behind.take 8) ++ behind.drop 8) := by
    simp only [append_assoc, cons_append, take_append_drop]
    rw [← append_assoc, take_append_drop]
  rw [siteAt_split] at hooked ⊢
  obtain ⟨_, -, laidRest⟩ := laidOut_append.mp (pieces ▸ laid)
  obtain ⟨_, window, tail⟩ := laidOut_append.mp laidRest
  have windowSmall := Nat.lt_of_le_of_lt tail.le small
  obtain ⟨patch, rfl, offset_eq, planned, valid, rfl⟩ := hookSite_eq_ok window windowSmall hooked
  refine ⟨patch, ⟨before, behind, rfl, rfl, ?_⟩, offset_eq, by simp, planned, valid, rfl⟩
  have chosen := (planSite_chosen window windowSmall planned).widen (before.take (before.length - 8)) (behind.drop 8)
  rwa [take_append_drop, take_append_drop, ← offset_eq] at chosen

/-- A run that succeeds applies one valid patch for every site, in order, and its decisions are
those that `decideSites` makes. -/
theorem hookSites_eq_ok (laid : LaidOut iced start insts stop) (small : stop < 2 ^ 64) {positions : List ℕ}
    (inside : ∀ k ∈ positions, k < insts.length)
    (hooked : (positions.map (siteAt insts)).foldlM (hookSite targets sectionBase trampolineBase entryAddr) state = .ok final) :
    ∃ patches : List (Patch iced),
      decideSites targets trampolineBase state.trampoline.length (positions.map (siteAt insts)) =
        .ok (patches.map Patch.decision) ∧
      List.Forall₂ (fun k patch => patch.decision.At trampolineBase insts k ∧
        patch.Valid sectionBase trampolineBase state.data.length) positions patches ∧
      StubsFrom state.trampoline.length patches ∧ final = patches.foldl (Patch.apply sectionBase) state := by
  induction positions generalizing state with
  | nil =>
    cases hooked
    exact ⟨[], rfl, .nil, trivial, rfl⟩
  | cons k positions ih =>
    rw [map_cons, foldlM_cons] at hooked
    obtain ⟨middle, first, rest⟩ := bind_eq_ok.mp hooked
    obtain ⟨patch, here, offset_eq, read, planned, valid, rfl⟩ :=
      hookSite_siteAt laid small (inside k mem_cons_self) first
    obtain ⟨patches, decided, all, stubs, rfl⟩ :=
      ih (fun k member => inside k (mem_cons_of_mem _ member)) rest
    have data_len : (patch.apply sectionBase state).data.length = state.data.length :=
      overwrite_length valid.inside
    have trampoline_len : (patch.apply sectionBase state).trampoline.length =
        state.trampoline.length + patch.stub.length := length_append
    rw [data_len] at all
    rw [trampoline_len] at decided stubs
    refine ⟨patch :: patches, ?_, .cons ⟨here, valid⟩ all, ⟨offset_eq, stubs⟩, rfl⟩
    rw [valid.stub_len, ← offset_eq] at decided
    rw [← offset_eq] at planned ⊢
    simp only [map_cons, decideSites, read, planned, bind, Except.bind, decided]
    rfl

end Run

end LiteBox.Rewriter
