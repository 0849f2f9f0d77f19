import LiteBox.Rewriter.Rebase

/-! # Whole runs from a rebased scan

Two runs over the same sites, one from a scan in place and one from a rebased scan, end alike
exactly when both scans can copy what each site borrows. For the converse, the first site on which
the runs decide differently leaves a trace: in the list of skipped addresses, or in the trampoline,
to which runs only append.
-/

namespace LiteBox.Rewriter

open Bytes Outcome Sweep List IsStub

variable {iced : Iced}

/-! ## What a site adds -/

section Effects

variable {targets : ControlTransferTargets} {sectionBase trampolineBase entryAddr : ℕ} {inst other : iced.Inst}
  {state final : HookState} {plan : Plan}

/-- The stub that a decision appends. -/
def Plan.Emits (stub : List UInt8) : Plan → Prop
  | .back _ pre => IsStub pre [] stub
  | .forward _ post => IsStub [] post stub
  | .trap => stub = []

theorem Plan.Emits.length {stub : List UInt8} (emits : plan.Emits stub) : stub.length = plan.stubLen := by
  cases plan with
  | back start pre => exact length emits
  | forward stop post => simpa [Plan.stubLen] using length emits
  | trap => rw [show stub = [] from emits]; rfl

theorem applyPlan_effect (applied : applyPlan sectionBase trampolineBase entryAddr inst state plan = .ok final) :
    (∃ stub, final.trampoline = state.trampoline ++ stub ∧ plan.Emits stub) ∧
      final.skipped = state.skipped ++ if plan = .trap then [iced.ip inst] else [] := by
  cases plan with
  | back | forward =>
    obtain ⟨_, -, applied⟩ := bind_eq_ok.mp applied
    obtain ⟨trampoline, emitted, applied⟩ := bind_eq_ok.mp applied
    obtain ⟨_, -, applied⟩ := bind_eq_ok.mp applied
    cases applied
    obtain ⟨stub, extended, shape⟩ := emitStub_eq_ok emitted
    exact ⟨⟨stub, extended, shape⟩, (append_nil _).symm⟩
  | trap =>
    obtain ⟨_, -, applied⟩ := bind_eq_ok.mp applied
    cases applied
    exact ⟨⟨[], (append_nil _).symm, rfl⟩, rfl⟩

/-- Writing looks at the shape of the `syscall` only. -/
theorem applyPlan_congr (same : SameShape inst other) :
    applyPlan sectionBase trampolineBase entryAddr inst state plan =
      applyPlan sectionBase trampolineBase entryAddr other state plan := by
  have next := same.nextIp
  cases plan <;> simp [applyPlan, replaceWithTrap, same.1, same.2.1, next]

theorem hookSite_effect {site : SyscallSite iced}
    (hooked : hookSite targets sectionBase trampolineBase entryAddr state site = .ok final) :
    ∃ inst plan, site.window[site.idx]? = some inst ∧
      planSite targets trampolineBase state.trampoline.length site.window site.idx inst = .ok plan ∧
      applyPlan sectionBase trampolineBase entryAddr inst state plan = .ok final := by
  unfold hookSite at hooked
  cases read : site.window[site.idx]? with
  | none => rw [read] at hooked; cases hooked
  | some inst =>
    rw [read] at hooked
    obtain ⟨plan, planned, applied⟩ := bind_eq_ok.mp hooked
    exact ⟨inst, plan, rfl, planned, applied⟩

/-- A run only appends to the trampoline, and skips only addresses of its own sites. -/
theorem foldlM_hookSite_effect {sites : List (SyscallSite iced)}
    (hooked : sites.foldlM (hookSite targets sectionBase trampolineBase entryAddr) state = .ok final) :
    state.trampoline <+: final.trampoline ∧ state.skipped ⊆ final.skipped ∧
      ∀ addr ∈ final.skipped, addr ∈ state.skipped ∨
        ∃ site ∈ sites, ∃ inst, site.window[site.idx]? = some inst ∧ addr = iced.ip inst := by
  induction sites generalizing state with
  | nil =>
    cases hooked
    exact ⟨prefix_rfl, List.Subset.refl _, fun addr member => .inl member⟩
  | cons site sites ih =>
    rw [foldlM_cons] at hooked
    obtain ⟨middle, first, rest⟩ := bind_eq_ok.mp hooked
    obtain ⟨inst, plan, read, -, applied⟩ := hookSite_effect first
    obtain ⟨⟨stub, extended, -⟩, skipped⟩ := applyPlan_effect applied
    obtain ⟨grows, kept, from_sites⟩ := ih rest
    refine ⟨?_, ?_, fun addr member => ?_⟩
    · exact (extended ▸ prefix_append _ _ : state.trampoline <+: middle.trampoline).trans grows
    · exact fun addr member => kept (skipped ▸ mem_append_left _ member)
    · rcases from_sites addr member with member | ⟨later, found, inst', read', rfl⟩
      · rw [skipped, mem_append] at member
        rcases member with member | member
        · exact .inl member
        · split_ifs at member
          · exact .inr ⟨site, mem_cons_self, inst, read, mem_singleton.mp member⟩
          · cases member
      · exact .inr ⟨later, mem_cons_of_mem _ found, inst', read', rfl⟩

end Effects

/-! ## Telling decisions apart -/

section Apart

variable {targets : ControlTransferTargets} {trampolineBase trampolineLen : ℕ} {window : List iced.Inst}
  {index : ℕ} {inst : iced.Inst}

theorem planSite_eq_back {start : ℕ} {pre : List UInt8}
    (planned : planSite targets trampolineBase trampolineLen window index inst = .ok (.back start pre)) :
    ∃ startIdx, searchBack targets window index inst = .ok (some (start, startIdx)) ∧
      (start < iced.ip inst →
        reencodeInstructions ((window.take index).drop startIdx) (trampolineBase + trampolineLen) = .ok (some pre)) := by
  obtain ⟨-, forward⟩ | ⟨from_, startIdx, found, outcome⟩ := planSite_eq_ok planned
  · exact (planForward_ne_back forward).elim
  obtain ⟨short, same⟩ | ⟨-, copies, encoded, ⟨_, rfl, same⟩ | ⟨-, forward⟩⟩ := outcome
  · cases same
    exact ⟨startIdx, found, fun reaches => (short reaches).elim⟩
  · cases same
    exact ⟨startIdx, found, fun _ => encoded⟩
  · exact (planForward_ne_back forward).elim

theorem planSite_eq_forward {stop : ℕ} {post : List UInt8}
    (planned : planSite targets trampolineBase trampolineLen window index inst = .ok (.forward stop post)) :
    ∃ stopIdx, forwardScan targets (iced.ip inst) (window.zipIdx.drop (index + 1)) = .ok (some (stop, stopIdx)) ∧
      ((¬ iced.nextIp inst < stop ∧ post = []) ∨
        (iced.nextIp inst < stop ∧ reencodeInstructions ((window.take stopIdx).drop (index + 1))
          (trampolineBase + trampolineLen + preambleLen) = .ok (some post))) := by
  have forward : planForward targets trampolineBase trampolineLen window index inst = .ok (.forward stop post) := by
    obtain ⟨-, forward⟩ | ⟨_, _, -, ⟨-, other⟩ | ⟨-, _, -, ⟨_, -, other⟩ | ⟨-, forward⟩⟩⟩ := planSite_eq_ok planned
    · exact forward
    · cases other
    · cases other
    · exact forward
  obtain ⟨_, scanned, ⟨-, other⟩ | ⟨until_, stopIdx, rfl, outcome⟩⟩ := planForward_eq_ok forward
  · cases other
  obtain ⟨short, same⟩ | ⟨reaches, copies, encoded, same⟩ := outcome
  · cases same
    exact ⟨stopIdx, scanned, .inl ⟨short, rfl⟩⟩
  · cases copies with
    | none => cases same
    | some bytes =>
      cases same
      exact ⟨stopIdx, scanned, .inr ⟨reaches, encoded⟩⟩

theorem stub_eq_of_prefix {stub stub' whole : List UInt8} (first : stub <+: whole) (second : stub' <+: whole)
    (length : stub.length = stub'.length) : stub = stub' :=
  (prefix_of_prefix_length_le first second length.le).eq_of_length length

/-- A stub with copies in front never reads as one without: its first copy would have to be the
`LEA`, and then the next thing falls through where an indirect jump stands. -/
theorem back_stub_ne_forward (encodeLaws : iced.EncodeLaws) (x86Laws : iced.X86Laws) {first : iced.Inst}
    {run : List iced.Inst} {addr : ℕ} {pre post stub stub' whole : List UInt8}
    (falls : ∀ borrowed ∈ first :: run, iced.flowsNext borrowed = true)
    (encoded : reencodeInstructions (first :: run) addr = .ok (some pre))
    (back : IsStub pre [] stub) (forward : IsStub [] post stub') (reads : stub <+: whole) (reads' : stub' <+: whole) : False := by
  obtain ⟨_, _, -, -, rfl⟩ := back
  obtain ⟨disp, backDisp, disp_len, -, rfl⟩ := forward
  obtain ⟨rest, rfl⟩ := reads
  obtain ⟨rest', same⟩ := reads'
  obtain ⟨copy, later, copy_eq, copy_len, tail, rfl⟩ := reencodeFrom_cons_eq_some encoded
  simp only [nil_append, append_assoc] at same
  have lea := (x86Laws.lea ([0xFF, 0x25] ++ (disp ++ (post ++ ([0xE9] ++ (backDisp ++ rest'))))) (addr + 0)).1
  have width : copy.length = leaRcx.length := by
    generalize later ++ _ = rest at same
    have decoded := encodeLaws.len_decode _ _ _ rest copy_eq copy_len
    rw [← same] at decoded
    rw [copy_len, ← decoded]
    exact lea
  obtain ⟨rfl, behind⟩ := append_inj same width.symm
  cases run with
  | nil =>
    cases tail
    cases behind
  | cons second run =>
    obtain ⟨copy, later, copy_eq, copy_len, -, rfl⟩ := reencodeFrom_cons_eq_some tail
    have jump := (x86Laws.jmpMem disp disp_len (post ++ ([0xE9] ++ (backDisp ++ rest'))) (addr + (0 + leaRcx.length))).2.2
    rw [append_assoc copy] at behind
    generalize later ++ _ = rest at behind
    have decoded := encodeLaws.flowsNext_decode _ _ _ rest copy_eq copy_len
    rw [falls second (mem_cons_of_mem _ mem_cons_self), ← behind, ← append_assoc, jump] at decoded
    cases decoded

end Apart

namespace MovedWindow

variable {targets inPlaceTargets : ControlTransferTargets} {base trampolineBase trampolineLen : ℕ} {stretch : Stretch}
  {code : List UInt8} {plan plan' : Plan}

theorem searchBack_run {h : ℕ → iced.Inst} {start startIdx : ℕ}
    (found : stretch.ask h (searchBack targets) = .ok (some (start, startIdx))) :
    ∃ first run, ((stretch.places.map h).take stretch.before.length).drop startIdx = first :: run ∧
      ∀ borrowed ∈ first :: run, iced.flowsNext borrowed = true := by
  dsimp only [Stretch.ask] at found ⊢
  rw [map_append, map_cons, ← length_map h] at found ⊢
  obtain ⟨front, first, run, shape, rfl, -, -, falls⟩ := searchBack_eq_some found
  exact ⟨first, run, by rw [take_left, shape, drop_left], falls⟩

theorem copies_length (laws : iced.MoveLaws) {places : List ℕ} {addr from_ until_ : ℕ} {copies copies' : List UInt8}
    (moved : reencodeInstructions (((places.map (movedInst iced code base)).take until_).drop from_) addr = .ok (some copies))
    (placed : reencodeInstructions (((places.map (instAt iced code base)).take until_).drop from_) addr =
      .ok (some copies')) : copies.length = copies'.length := by
  rw [reencodeFrom_length moved, reencodeFrom_length placed, ← map_take, ← map_drop, ← map_take, ← map_drop, map_map, map_map]
  exact congrArg _ (map_congr_left fun place _ => movedInst_len laws)

/-- Decisions whose stubs read alike are alike. -/
theorem plan_eq (window : MovedWindow targets inPlaceTargets base stretch.before stretch.offset stretch.behind)
    (laws : iced.MoveLaws) (encodeLaws : iced.EncodeLaws) (x86Laws : iced.X86Laws)
    (moved : stretch.ask (movedInst iced code base) (planSite targets trampolineBase trampolineLen) = .ok plan)
    (placed : stretch.ask (instAt iced code base) (planSite inPlaceTargets trampolineBase trampolineLen) = .ok plan')
    (traps : plan = .trap ↔ plan' = .trap) {stub stub' whole : List UInt8} (emits : plan.Emits stub)
    (emits' : plan'.Emits stub') (reads : stub <+: whole) (reads' : stub' <+: whole) : plan = plan' := by
  have here := @here _ _ _ _ _ code window laws
  have same_search := window.searchBack_eq laws code
  have back_reaches {start startIdx : ℕ} (found : searchBack targets _ _ _ = .ok (some (start, startIdx))) :
      start < iced.ip (movedInst iced code base stretch.offset) := window.searchBack_lt laws found
  cases plan with
  | back start pre =>
    obtain ⟨startIdx, found, encoded⟩ := planSite_eq_back moved
    have encoded := encoded (back_reaches found)
    cases plan' with
    | back start' pre' =>
      obtain ⟨startIdx', found', encoded'⟩ := planSite_eq_back placed
      cases (same_search.symm.trans found').symm.trans found
      have length := copies_length laws encoded (encoded' (here.1 ▸ back_reaches found))
      obtain rfl := stub_eq_of_prefix reads reads' (by rw [IsStub.length emits, IsStub.length emits', length])
      obtain ⟨_, _, -, -, shape⟩ := emits
      obtain ⟨_, _, -, -, shape'⟩ := emits'
      rw [(append_inj (shape.symm.trans shape') length).1]
    | forward stop' post' =>
      obtain ⟨first, run, borrowed, falls⟩ := searchBack_run found
      rw [borrowed] at encoded
      exact (back_stub_ne_forward encodeLaws x86Laws falls encoded emits emits' reads reads').elim
    | trap => cases traps.mpr rfl
  | forward stop post =>
    obtain ⟨stopIdx, scanned, copied⟩ := planSite_eq_forward moved
    cases plan' with
    | back start' pre' =>
      obtain ⟨startIdx', found', encoded'⟩ := planSite_eq_back placed
      have encoded' := encoded' (here.1 ▸ back_reaches (same_search.symm.trans found'))
      obtain ⟨first, run, borrowed, falls⟩ := searchBack_run found'
      rw [borrowed] at encoded'
      exact (back_stub_ne_forward encodeLaws x86Laws falls encoded' emits' emits reads' reads).elim
    | forward stop' post' =>
      obtain ⟨stopIdx', scanned', copied'⟩ := planSite_eq_forward placed
      cases ((window.forwardScan_eq laws code).symm.trans scanned').symm.trans scanned
      rw [here.nextIp] at copied'
      have length : post.length = post'.length := by
        rcases copied with ⟨short, rfl⟩ | ⟨reaches, encoded⟩
        · rcases copied' with ⟨-, rfl⟩ | ⟨reaches, -⟩
          · rfl
          · exact (short reaches).elim
        · rcases copied' with ⟨short, -⟩ | ⟨-, encoded'⟩
          · exact (short reaches).elim
          · exact copies_length laws encoded encoded'
      obtain rfl := stub_eq_of_prefix reads reads' (by rw [IsStub.length emits, IsStub.length emits', length])
      obtain ⟨disp, _, disp_len, -, shape⟩ := emits
      obtain ⟨disp', _, disp_len', -, shape'⟩ := emits'
      have tails := (append_inj (append_cancel_left (shape.symm.trans shape'))
        rfl).2
      have tails := (append_inj tails (by simp [disp_len, disp_len'])).2
      rw [(append_inj tails length).1]
    | trap => cases traps.mpr rfl
  | trap => exact (traps.mp rfl).symm

end MovedWindow

/-! ## Both runs -/

theorem Stretch.site_read (view : ℕ → iced.Inst) (stretch : Stretch) :
    (stretch.site view).window[(stretch.site view).idx]? = some (view stretch.offset) := by
  simp [Stretch.site]

/-- Both scans can copy what every site borrows, each at its turn. -/
def TargetsKept (targets : ControlTransferTargets) (trampolineBase : ℕ) (code : List UInt8) (base : ℕ) :
    ℕ → List (SyscallSite iced) → Prop
  | _, [] => True
  | trampolineLen, site :: rest => ∀ inst, site.window[site.idx]? = some inst →
    SiteKept targets trampolineBase trampolineLen site.window site.idx inst code base ∧
    ∀ plan, planSite targets trampolineBase trampolineLen site.window site.idx inst = .ok plan →
      TargetsKept targets trampolineBase code base (trampolineLen + plan.stubLen) rest

section Turn

variable {targets : ControlTransferTargets} {base trampolineBase entryAddr : ℕ} {state middle final : HookState} {stretch : Stretch}
  {stretches : List Stretch} {view : ℕ → iced.Inst} {plan : Plan}
  (applied : applyPlan base trampolineBase entryAddr (view stretch.offset) state plan = .ok middle)
  (rest : (stretches.map (Stretch.site view)).foldlM (hookSite targets base trampolineBase entryAddr) middle = .ok final)

include applied rest

/-- A site whose address is skipped in the end was trapped at its turn: no other site has that
address. -/
theorem trapped_of_skipped (ips : ∀ other ∈ stretch :: stretches, iced.ip (view other.offset) = base + other.offset)
    (sorted : ∀ other ∈ stretches, stretch.offset < other.offset) (fresh : base + stretch.offset ∉ state.skipped)
    (skipped : base + stretch.offset ∈ final.skipped) : plan = .trap := by
  obtain ⟨-, added⟩ := applyPlan_effect applied
  obtain ⟨-, -, from_sites⟩ := foldlM_hookSite_effect rest
  rcases from_sites _ skipped with member | ⟨site, found, inst, read, same⟩
  · by_contra other
    rw [added, if_neg other, append_nil] at member
    exact fresh member
  · obtain ⟨later, later_mem, rfl⟩ := mem_map.mp found
    obtain rfl := Option.some.inj ((later.site_read view).symm.trans read)
    have := sorted later later_mem
    rw [ips later (mem_cons_of_mem _ later_mem)] at same
    omega

theorem skipped_of_trap (trapped : plan = .trap) : iced.ip (view stretch.offset) ∈ final.skipped := by
  obtain ⟨-, added⟩ := applyPlan_effect applied
  obtain ⟨-, kept, -⟩ := foldlM_hookSite_effect rest
  refine kept ?_
  rw [added, if_pos trapped]
  exact mem_append_right _ mem_cons_self

theorem stub_prefix : ∃ stub, plan.Emits stub ∧ stub <+: final.trampoline.drop state.trampoline.length := by
  obtain ⟨⟨stub, extended, emits⟩, -⟩ := applyPlan_effect applied
  obtain ⟨⟨later, grown⟩, -, -⟩ := foldlM_hookSite_effect rest
  refine ⟨stub, emits, later, ?_⟩
  rw [← grown, extended, append_assoc, drop_left]

end Turn

section Runs

variable {targets inPlaceTargets : ControlTransferTargets} {base trampolineBase entryAddr : ℕ}
  {code : List UInt8} {state final : HookState} {stretch : Stretch} {stretches : List Stretch}
  (relocation : iced.RelocationLaws) (decodeLaws : iced.DecodeLaws)

include relocation decodeLaws

theorem hookSite_congr (window : MovedWindow targets inPlaceTargets base stretch.before stretch.offset stretch.behind)
    (kept : stretch.ask (movedInst iced code base) (SiteKept targets trampolineBase state.trampoline.length) code base) :
    hookSite inPlaceTargets base trampolineBase entryAddr state (stretch.site (instAt iced code base)) =
      hookSite targets base trampolineBase entryAddr state (stretch.site (movedInst iced code base)) := by
  simp only [hookSite, Stretch.site_read]
  have plans := window.planSite_eq ⟨relocation, decodeLaws⟩ kept
  simp only [Stretch.ask, Stretch.site] at plans ⊢
  rw [plans]
  exact bind_congr_ok fun plan _ => applyPlan_congr (window.here ⟨relocation, decodeLaws⟩)

/-- Where both scans can copy what the sites borrow, the runs are the same, errors included. -/
theorem foldlM_hookSite_congr
    (windows : ∀ stretch ∈ stretches, MovedWindow targets inPlaceTargets base stretch.before stretch.offset stretch.behind)
    (kept : TargetsKept targets trampolineBase code base state.trampoline.length
      (stretches.map (Stretch.site (movedInst iced code base)))) :
    (stretches.map (Stretch.site (instAt iced code base))).foldlM
        (hookSite inPlaceTargets base trampolineBase entryAddr) state =
      (stretches.map (Stretch.site (movedInst iced code base))).foldlM
        (hookSite targets base trampolineBase entryAddr) state := by
  induction stretches generalizing state with
  | nil => rfl
  | cons stretch stretches ih =>
    obtain ⟨here, later⟩ := kept _ (stretch.site_read _)
    rw [map_cons, map_cons, foldlM_cons, foldlM_cons, hookSite_congr relocation decodeLaws (windows stretch mem_cons_self) here]
    refine bind_congr_ok fun middle hooked => ih (fun other member => windows other (mem_cons_of_mem _ member)) ?_
    obtain ⟨inst, plan, read, planned, applied⟩ := hookSite_effect hooked
    obtain ⟨⟨stub, extended, emits⟩, -⟩ := applyPlan_effect applied
    obtain rfl := Option.some.inj ((stretch.site_read _).symm.trans read)
    rw [extended, length_append, emits.length]
    exact later plan planned

/-- Runs that end alike could both copy what the sites borrow. -/
theorem targetsKept_of_eq (encodeLaws : iced.EncodeLaws) (x86Laws : iced.X86Laws) (positive : 0 < base) (below : base < 2 ^ 64)
    (windows : ∀ stretch ∈ stretches, MovedWindow targets inPlaceTargets base stretch.before stretch.offset stretch.behind)
    (sorted : stretches.Pairwise fun first second => first.offset < second.offset)
    (earlier : ∀ addr ∈ state.skipped, ∀ stretch ∈ stretches, addr < base + stretch.offset)
    (placed : (stretches.map (Stretch.site (instAt iced code base))).foldlM
      (hookSite inPlaceTargets base trampolineBase entryAddr) state = .ok final)
    (moved : (stretches.map (Stretch.site (movedInst iced code base))).foldlM
      (hookSite targets base trampolineBase entryAddr) state = .ok final) :
    TargetsKept targets trampolineBase code base state.trampoline.length
      (stretches.map (Stretch.site (movedInst iced code base))) := by
  have laws : iced.MoveLaws := ⟨relocation, decodeLaws⟩
  induction stretches generalizing state with
  | nil => trivial
  | cons stretch stretches ih =>
    rw [map_cons, foldlM_cons] at placed moved
    obtain ⟨middle', hooked', rest'⟩ := bind_eq_ok.mp placed
    obtain ⟨middle, hooked, rest⟩ := bind_eq_ok.mp moved
    obtain ⟨_, plan', read', planned', applied'⟩ := hookSite_effect hooked'
    obtain ⟨_, plan, read, planned, applied⟩ := hookSite_effect hooked
    obtain rfl := Option.some.inj ((stretch.site_read _).symm.trans read')
    obtain rfl := Option.some.inj ((stretch.site_read _).symm.trans read)
    obtain ⟨later, sorted⟩ := pairwise_cons.mp sorted
    have window := windows stretch mem_cons_self
    have shape : SameShape (instAt iced code base stretch.offset) (movedInst iced code base stretch.offset) :=
      window.here laws
    have small (other : Stretch) (member : other ∈ stretch :: stretches) : base + other.offset < 2 ^ 64 :=
      (windows other member).small _ (mem_append_right _ mem_cons_self)
    have fresh : base + stretch.offset ∉ state.skipped := fun member =>
      Nat.lt_irrefl _ (earlier _ member stretch mem_cons_self)
    have traps : plan = .trap ↔ plan' = .trap := by
      constructor
      · intro trapped
        have skipped := skipped_of_trap applied rest trapped
        rw [movedInst_ip laws (small stretch mem_cons_self)] at skipped
        exact trapped_of_skipped applied' rest' (fun other _ => instAt_ip laws) later fresh skipped
      · intro trapped
        have skipped := skipped_of_trap applied' rest' trapped
        rw [instAt_ip laws] at skipped
        exact trapped_of_skipped applied rest (fun other member => movedInst_ip laws (small other member))
          later fresh skipped
    obtain ⟨stub, emits, reads⟩ := stub_prefix applied rest
    obtain ⟨stub', emits', reads'⟩ := stub_prefix applied' rest'
    obtain rfl := window.plan_eq laws encodeLaws x86Laws planned planned' traps emits emits'
      reads reads'
    obtain rfl : middle = middle' :=
      Except.ok.inj ((applied.symm.trans (applyPlan_congr shape).symm).trans applied')
    intro inst found
    obtain rfl := Option.some.inj ((stretch.site_read _).symm.trans found)
    refine ⟨window.siteKept_of_plan laws encodeLaws positive below planned planned', fun other other_eq => ?_⟩
    obtain rfl := Except.ok.inj (planned.symm.trans other_eq)
    obtain ⟨⟨stub, extended, emits⟩, added⟩ := applyPlan_effect applied
    rw [← emits.length, ← length_append, ← extended]
    refine ih (fun other member => windows other (mem_cons_of_mem _ member)) sorted ?_ rest' rest
    intro addr member other other_mem
    rw [added, mem_append] at member
    rcases member with member | member
    · exact earlier addr member other (mem_cons_of_mem _ other_mem)
    · split_ifs at member
      · have := later other other_mem
        rw [mem_singleton.mp member, movedInst_ip laws (small stretch mem_cons_self)]
        omega
      · cases member

end Runs

end LiteBox.Rewriter
