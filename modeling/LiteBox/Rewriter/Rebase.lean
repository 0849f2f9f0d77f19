import LiteBox.Rewriter.Patch

/-! # Scanning once and rebasing

`scan_code_segment` decodes a segment at address zero, and `patch_code_segment_scanned` moves the
instruction pointers of the scanned windows to where the segment is mapped. The near branch and
RIP-relative targets that a decoded instruction stores stay where they were, so the copies in the
stubs agree with those of a scan in place only when no borrowed instruction stores one.
-/

namespace LiteBox.Rewriter

open Bytes Outcome Sweep List Nat

variable {iced : Iced}

def scanCodeSegment (iced : Iced) (chunk : ChunkLen) (host : Host) (code : List UInt8) :
    Except Error (SegmentScanTemplate iced) := scanSection iced chunk host code 0

/-- `set_ip(ip().wrapping_add(base))`. -/
def rebasedInst (base : ℕ) (inst : iced.Inst) : iced.Inst :=
  iced.setIp inst ((iced.ip inst + base) % 2 ^ 64)

def rebasedSites (sites : List (SyscallSite iced)) (base : ℕ) : List (SyscallSite iced) :=
  if base = 0 then sites
  else sites.map fun site => ⟨site.idx, site.window.map (rebasedInst base)⟩

/-- How both ways of patching report: a segment without `syscall`s is left alone. -/
def reportPatched (code : List UInt8) : Except InternalError HookState → Except Error HookState
  | .ok out => .ok out
  | .error .noSyscallInstructionsFound => .ok ⟨code, [], []⟩
  | .error (.external error) => .error error
  | .error .noTextSectionFound => .error (.panic "unexpected internal error")

/-- The patched code, the stubs and the skipped addresses. -/
def patchCodeSegmentScanned (template : SegmentScanTemplate iced) (code : List UInt8)
    (codeVaddr trampolineWriteVaddr syscallEntryAddr : ℕ) : Except Error HookState :=
  reportPatched code (hookSyscallsInSection ⟨template.targetOffsets, codeVaddr⟩ codeVaddr code
    trampolineWriteVaddr syscallEntryAddr [] (rebasedSites template.sites codeVaddr))

/-- Scanning once, at address zero, and patching with the result. -/
def patchRebased (iced : Iced) (chunk : ChunkLen) (host : Host) (code : List UInt8) (codeVaddr : UInt64)
    (trampolineWriteVaddr syscallEntryAddr : ℕ) : Except Error HookState := do
  let template ← scanCodeSegment iced chunk host code
  patchCodeSegmentScanned template code codeVaddr.toNat trampolineWriteVaddr syscallEntryAddr

/-- Scanning where the segment is mapped and hooking with the result. -/
def patchInPlace (iced : Iced) (chunk : ChunkLen) (host : Host) (code : List UInt8) (codeVaddr : UInt64)
    (trampolineWriteVaddr syscallEntryAddr : ℕ) : Except Error HookState := do
  let template ← scanSection iced chunk host code codeVaddr
  reportPatched code (hookSyscallsInSection ⟨template.targetOffsets, 0⟩ codeVaddr.toNat code
    trampolineWriteVaddr syscallEntryAddr [] template.sites)

/-! ## One instruction at both addresses -/

/-- What moving an instruction rests on. -/
structure Iced.MoveLaws (iced : Iced) : Prop extends iced.RelocationLaws, iced.DecodeLaws

section Instruction

variable (laws : iced.MoveLaws) {code : List UInt8} {base offset : ℕ}

/-- The instruction a scan at address zero finds at an offset, moved to the segment's address. -/
def movedInst (iced : Iced) (code : List UInt8) (base offset : ℕ) : iced.Inst :=
  rebasedInst base (instAt iced code 0 offset)

include laws

theorem instAt_ip : iced.ip (instAt iced code base offset) = base + offset := laws.ip_eq _ _

theorem movedInst_ip (small : base + offset < 2 ^ 64) : iced.ip (movedInst iced code base offset) = base + offset := by
  rw [movedInst, rebasedInst, laws.setIp_ip, instAt_ip laws, zero_add, add_comm offset, mod_eq_of_lt small]

theorem movedInst_len : iced.len (movedInst iced code base offset) = iced.len (instAt iced code base offset) := by
  rw [movedInst, rebasedInst, laws.setIp_len]
  exact laws.decode_len _ _ _

theorem movedInst_flowsNext :
    iced.flowsNext (movedInst iced code base offset) = iced.flowsNext (instAt iced code base offset) := by
  rw [movedInst, rebasedInst, laws.setIp_flowsNext]
  exact laws.decode_flowsNext _ _ _

/-- The moved instruction stores the target counted from the segment's start, the instruction in
place the absolute one. -/
theorem instAt_storedTarget : iced.storedTarget (instAt iced code base offset) =
    (iced.storedTarget (movedInst iced code base offset)).map fun target => (target + base) % 2 ^ 64 := by
  rw [movedInst, rebasedInst, laws.setIp_storedTarget, instAt, instAt, zero_add, add_comm base]
  exact laws.decode_storedTarget _ _ _

theorem movedInst_storedTarget_lt {target : ℕ}
    (stored : iced.storedTarget (movedInst iced code base offset) = some target) : target < 2 ^ 64 := by
  rw [movedInst, rebasedInst, laws.setIp_storedTarget] at stored
  exact laws.storedTarget_lt _ _ _ stored

/-- Without a stored target both are the same instruction. -/
theorem movedInst_eq (small : base + offset < 2 ^ 64) (plain : iced.storedTarget (movedInst iced code base offset) = none) :
    movedInst iced code base offset = instAt iced code base offset := by
  rw [movedInst, rebasedInst, laws.setIp_storedTarget] at plain
  have moved : (iced.ip (instAt iced code 0 offset) + base) % 2 ^ 64 = base + offset := by
    rw [instAt_ip laws, zero_add, add_comm offset, mod_eq_of_lt small]
  rw [movedInst, rebasedInst, moved]
  exact laws.decode_setIp _ _ _ plain

end Instruction

/-! ## The scans see no difference -/

/-- The offsets of a `syscall` and of the instructions around it. -/
structure Stretch where
  before : List ℕ
  offset : ℕ
  behind : List ℕ

namespace Stretch

variable (view : ℕ → iced.Inst) (stretch : Stretch)

/-- The site a scan makes of a stretch. -/
def site : SyscallSite iced :=
  ⟨stretch.before.length, (stretch.before ++ stretch.offset :: stretch.behind).map view⟩

abbrev places : List ℕ := stretch.before ++ stretch.offset :: stretch.behind

/-- What is asked about that site. -/
abbrev ask {α : Type} (query : List iced.Inst → ℕ → iced.Inst → α) : α :=
  query (stretch.places.map view) stretch.before.length (view stretch.offset)

end Stretch

section Scans

/-- The search behind the `syscall`. -/
abbrev scanBehind (targets : ControlTransferTargets) (window : List iced.Inst) (index : ℕ) (inst : iced.Inst) :
    Except Error (Option (ℕ × ℕ)) :=
  forwardScan targets (iced.ip inst) (window.zipIdx.drop (index + 1))

variable {targets targets' : ControlTransferTargets} {f g : ℕ → iced.Inst}

/-- What the scans look at is the same of both instructions. -/
def SameShape (first second : iced.Inst) : Prop :=
  iced.ip first = iced.ip second ∧ iced.len first = iced.len second ∧ iced.flowsNext first = iced.flowsNext second

theorem SameShape.nextIp {first second : iced.Inst} (same : SameShape first second) : iced.nextIp first = iced.nextIp second := by
  rw [Iced.nextIp, Iced.nextIp, same.1, same.2.1]

variable {items : List (ℕ × ℕ)}

/-- Whether offset zero counts as a target does not matter: nothing lies before it. -/
theorem backScan_congr {replaceEnd : ℕ} (shape : ∀ item ∈ items, SameShape (f item.1) (g item.1))
    (agree : ∀ item ∈ items, 0 < item.1 → targets.contains (iced.ip (f item.1)) = targets'.contains (iced.ip (f item.1)))
    (sorted : items.Pairwise fun near far => far.1 < near.1) :
    backScan targets replaceEnd (items.map (Prod.map f id)) = backScan targets' replaceEnd (items.map (Prod.map g id)) := by
  induction items with
  | nil => rfl
  | cons item items ih =>
    obtain ⟨offset, position⟩ := item
    obtain ⟨ip_eq, -, flow_eq⟩ := shape _ mem_cons_self
    obtain ⟨nearer, sorted⟩ := pairwise_cons.mp sorted
    have tail := ih (fun item member => shape item (mem_cons_of_mem _ member))
      (fun item member => agree item (mem_cons_of_mem _ member)) sorted
    simp only [map_cons, Prod.map_apply, id_eq, backScan, ← ip_eq, ← flow_eq, tail]
    rcases Nat.eq_zero_or_pos offset with rfl | positive
    · have last : items = [] := eq_nil_iff_forall_not_mem.mpr fun item member =>
        not_lt_zero _ (nearer item member)
      subst last
      simp only [map_nil, backScan]
      split_ifs
      all_goals rfl
    · rw [agree _ mem_cons_self positive]

theorem forwardScan_congr {syscallIp : ℕ} (shape : ∀ item ∈ items, SameShape (f item.1) (g item.1))
    (agree : ∀ item ∈ items, targets.contains (iced.ip (f item.1)) = targets'.contains (iced.ip (f item.1))) :
    forwardScan targets syscallIp (items.map (Prod.map f id)) = forwardScan targets' syscallIp (items.map (Prod.map g id)) := by
  induction items with
  | nil => rfl
  | cons item items ih =>
    obtain ⟨offset, position⟩ := item
    have same := shape _ mem_cons_self
    have tail := ih (fun item member => shape item (mem_cons_of_mem _ member))
      (fun item member => agree item (mem_cons_of_mem _ member))
    simp [forwardScan, tail, same.nextIp, ← same.1, ← same.2.2, agree _ mem_cons_self]

theorem zipIdx_reverse_sorted {before : List ℕ} (sorted : before.Pairwise (· < ·)) :
    before.zipIdx.reverse.Pairwise fun near far => far.1 < near.1 := by
  rw [pairwise_reverse]
  rw [← zipIdx_map_fst 0 before, pairwise_map] at sorted
  exact sorted

variable {stretch : Stretch} (sorted : stretch.places.Pairwise (· < ·)) (shape : ∀ place ∈ stretch.places, SameShape (f place) (g place))
  (agree : ∀ place ∈ stretch.places, 0 < place → targets.contains (iced.ip (f place)) = targets'.contains (iced.ip (f place)))

include sorted shape agree

theorem searchBack_congr : stretch.ask f (searchBack targets) = stretch.ask g (searchBack targets') := by
  obtain ⟨before, offset, behind⟩ := stretch
  dsimp only [Stretch.ask, Stretch.places] at *
  obtain ⟨sorted_before, -, below⟩ := pairwise_append.mp sorted
  have here := shape offset (mem_append_right _ mem_cons_self)
  have scans : backScan targets (iced.nextIp (f offset)) (before.map f).zipIdx.reverse =
      backScan targets' (iced.nextIp (g offset)) (before.map g).zipIdx.reverse := by
    rw [zipIdx_map, zipIdx_map, ← map_reverse, ← map_reverse, here.nextIp]
    have places (item : ℕ × ℕ) (member : item ∈ before.zipIdx.reverse) : item.1 ∈ before ++ offset :: behind :=
      mem_append_left _ (fst_mem_of_mem_zipIdx (mem_reverse.mp member))
    exact backScan_congr (fun item member => shape _ (places item member))
      (fun item member => agree _ (places item member)) (zipIdx_reverse_sorted sorted_before)
  have split (h : ℕ → iced.Inst) (targets : ControlTransferTargets) :
      searchBack targets ((before ++ offset :: behind).map h) before.length (h offset) =
        if targets.contains (iced.ip (h offset)) then .ok none
        else backScan targets (iced.nextIp (h offset)) (before.map h).zipIdx.reverse := by
    have split := searchBack_split targets (before.map h) (behind.map h) (h offset)
    rwa [length_map, ← map_cons, ← map_append] at split
  rw [split, split, scans, ← here.1]
  rcases Nat.eq_zero_or_pos offset with rfl | positive
  · have first : before = [] := eq_nil_iff_forall_not_mem.mpr fun place member =>
      not_lt_zero _ (below place member 0 mem_cons_self)
    subst first
    simp [zipIdx_nil, reverse_nil, backScan, ite_self]
  · rw [agree offset (mem_append_right _ mem_cons_self) positive]

theorem forwardScan_window_congr :
    stretch.ask f (scanBehind targets) = stretch.ask g (scanBehind targets') := by
  obtain ⟨-, sorted_rest, -⟩ := pairwise_append.mp sorted
  have here := shape stretch.offset (mem_append_right _ mem_cons_self)
  dsimp only [Stretch.ask, scanBehind]
  rw [zipIdx_map, zipIdx_map, ← map_drop, ← map_drop, (zipIdx_split stretch.before stretch.behind stretch.offset).2, here.1]
  have places (item : ℕ × ℕ) (member : item ∈ stretch.behind.zipIdx (stretch.before.length + 1)) : item.1 ∈ stretch.behind :=
    fst_mem_of_mem_zipIdx member
  refine forwardScan_congr (fun item member => shape _ ?_) (fun item member => agree _ ?_ ?_)
  · exact mem_append_right _ (mem_cons_of_mem _ (places item member))
  · exact mem_append_right _ (mem_cons_of_mem _ (places item member))
  · exact zero_lt_of_lt ((pairwise_cons.mp sorted_rest).1 _ (places item member))

end Scans

/-! ## The copies -/

variable {copies : Option (List UInt8)}

section Copies

variable {code : List UInt8} {base addr done : ℕ} {places : List ℕ}

/-- What a scan in place finds where an instruction lies. -/
def inPlaceOf (code : List UInt8) (base : ℕ) (inst : iced.Inst) : iced.Inst :=
  instAt iced code base (iced.ip inst - base)

/-- A run that can be copied from either scan: no instruction of it stores a target, or neither
form of it can be copied at all. -/
def CopiesAlike (code : List UInt8) (base addr : ℕ) (run : List iced.Inst) : Prop :=
  (∀ inst ∈ run, iced.storedTarget inst = none) ∨
    (reencodeInstructions run addr = .ok none ∧ reencodeInstructions (run.map (inPlaceOf code base)) addr = .ok none)

variable {bytes : List UInt8}

theorem reencodeFrom_length {insts : List iced.Inst}
    (encoded : reencodeFrom addr done insts = .ok (some bytes)) : bytes.length = (insts.map iced.len).sum := by
  induction insts generalizing done bytes with
  | nil => cases encoded; rfl
  | cons inst insts ih =>
    obtain ⟨first, later, -, length, tail, rfl⟩ := reencodeFrom_cons_eq_some encoded
    rw [length_append, length, ih tail, map_cons, sum_cons]

variable (laws : iced.MoveLaws) (encodeLaws : iced.EncodeLaws)
  (small : ∀ place ∈ places, base + place < 2 ^ 64)

include laws small

theorem map_inPlaceOf :
    (places.map (movedInst iced code base)).map (inPlaceOf code base) = places.map (instAt iced code base) := by
  rw [map_map]
  refine map_congr_left fun place member => ?_
  rw [Function.comp_apply, inPlaceOf, movedInst_ip laws (small place member), Nat.add_sub_cancel_left]

theorem CopiesAlike.reencode_eq (alike : CopiesAlike code base addr (places.map (movedInst iced code base))) :
    reencodeInstructions (places.map (instAt iced code base)) addr =
      reencodeInstructions (places.map (movedInst iced code base)) addr := by
  rcases alike with plain | ⟨moved, placed⟩
  · refine congrArg (reencodeInstructions · addr) (map_congr_left fun place member => ?_)
    exact (movedInst_eq laws (small place member) (plain _ (mem_map_of_mem member))).symm
  · rw [map_inPlaceOf laws small] at placed
    rw [moved, placed]

include encodeLaws

omit small in
/-- Equal copies name equal targets, and a segment that is really moved has none in common. -/
theorem storedTarget_eq_none (positive : 0 < base) (below : base < 2 ^ 64)
    (moved : reencodeFrom addr done (places.map (movedInst iced code base)) = .ok (some bytes))
    (placed : reencodeFrom addr done (places.map (instAt iced code base)) = .ok (some bytes)) :
    ∀ place ∈ places, iced.storedTarget (movedInst iced code base place) = none := by
  induction places generalizing done bytes with
  | nil => nofun
  | cons place places ih =>
    obtain ⟨first, later, first_eq, length, tail, rfl⟩ := reencodeFrom_cons_eq_some moved
    obtain ⟨first', later', first_eq', length', tail', same⟩ := reencodeFrom_cons_eq_some placed
    have same_len : first.length = first'.length := by rw [length, length', movedInst_len laws]
    obtain ⟨rfl, rfl⟩ := append_inj same same_len
    intro other member
    rcases mem_cons.mp member with rfl | member
    · have target := encodeLaws.storedTarget_decode _ _ _ [] first_eq length
      rw [encodeLaws.storedTarget_decode _ _ _ [] first_eq' length', instAt_storedTarget laws] at target
      cases stored : iced.storedTarget (movedInst iced code base other) with
      | none => rfl
      | some absolute =>
        have lt := movedInst_storedTarget_lt laws stored
        rw [stored] at target
        have unmoved : (absolute + base) % 2 ^ 64 = absolute := Option.some.inj target
        omega
    · exact ih tail tail' other member

theorem copiesAlike_of_eq (positive : 0 < base) (below : base < 2 ^ 64)
    (moved : reencodeInstructions (places.map (movedInst iced code base)) addr = .ok copies)
    (placed : reencodeInstructions (places.map (instAt iced code base)) addr = .ok copies) :
    CopiesAlike code base addr (places.map (movedInst iced code base)) := by
  cases copies with
  | none =>
    refine .inr ⟨moved, ?_⟩
    rwa [map_inPlaceOf laws small]
  | some bytes =>
    refine .inl fun inst member => ?_
    obtain ⟨place, found, rfl⟩ := mem_map.mp member
    exact storedTarget_eq_none laws encodeLaws positive below moved placed place found

end Copies

/-! ## One site -/

section Site

variable (targets : ControlTransferTargets) (trampolineBase trampolineLen : ℕ) (window : List iced.Inst)
  (index : ℕ) (inst : iced.Inst)

/-- Both scans can copy what the site tries to borrow behind its `syscall`. -/
def ForwardKept (code : List UInt8) (base : ℕ) : Prop :=
  ∀ stop stopIdx, forwardScan targets (iced.ip inst) (window.zipIdx.drop (index + 1)) =
      .ok (some (stop, stopIdx)) → iced.nextIp inst < stop →
    CopiesAlike code base (trampolineBase + trampolineLen + preambleLen) ((window.take stopIdx).drop (index + 1))

/-- Both scans can copy what the site tries to borrow: in front of the `syscall` and, where that
does not work out, behind it. -/
def SiteKept (code : List UInt8) (base : ℕ) : Prop :=
  (∀ start startIdx, searchBack targets window index inst = .ok (some (start, startIdx)) →
    CopiesAlike code base (trampolineBase + trampolineLen) ((window.take index).drop startIdx)) ∧
  ((∀ start startIdx, searchBack targets window index inst = .ok (some (start, startIdx)) →
      reencodeInstructions ((window.take index).drop startIdx) (trampolineBase + trampolineLen) = .ok none) →
    ForwardKept targets trampolineBase trampolineLen window index inst code base)

end Site

/-- A window of a segment, by the offsets of its instructions, and what the two scans of the segment
know about the targets in it. -/
structure MovedWindow (targets inPlaceTargets : ControlTransferTargets) (base : ℕ) (before : List ℕ)
    (offset : ℕ) (behind : List ℕ) : Prop where
  sorted : (before ++ offset :: behind).Pairwise (· < ·)
  small : ∀ place ∈ before ++ offset :: behind, base + place < 2 ^ 64
  agree : ∀ place ∈ before ++ offset :: behind, 0 < place →
    inPlaceTargets.contains (base + place) = targets.contains (base + place)

namespace MovedWindow

variable {targets inPlaceTargets : ControlTransferTargets} {base trampolineBase trampolineLen : ℕ} {stretch : Stretch}
  {code : List UInt8} {plan : Plan} (window : MovedWindow targets inPlaceTargets base stretch.before stretch.offset stretch.behind)
  (laws : iced.MoveLaws)

include window laws

theorem shape (place : ℕ) (member : place ∈ stretch.places) :
    SameShape (instAt iced code base place) (movedInst iced code base place) :=
  ⟨(instAt_ip laws).trans
      (movedInst_ip laws (window.small place member)).symm,
    (movedInst_len laws).symm, (movedInst_flowsNext laws).symm⟩

theorem here : SameShape (instAt iced code base stretch.offset) (movedInst iced code base stretch.offset) :=
  window.shape laws stretch.offset (mem_append_right _ mem_cons_self)

theorem contains_eq (place : ℕ) (member : place ∈ stretch.places) (positive : 0 < place) :
    inPlaceTargets.contains (iced.ip (instAt iced code base place)) =
      targets.contains (iced.ip (instAt iced code base place)) := by
  rw [instAt_ip laws]
  exact window.agree place member positive

theorem searchBack_eq (code : List UInt8) :
    stretch.ask (instAt iced code base) (searchBack inPlaceTargets) =
      stretch.ask (movedInst iced code base) (searchBack targets) :=
  searchBack_congr window.sorted (window.shape laws) (window.contains_eq laws)

theorem forwardScan_eq (code : List UInt8) :
    stretch.ask (instAt iced code base) (scanBehind inPlaceTargets) = stretch.ask (movedInst iced code base) (scanBehind targets) :=
  forwardScan_window_congr window.sorted (window.shape laws) (window.contains_eq laws)

/-- Any stretch of the window that both scans can copy has the same copies. -/
theorem reencode_eq {addr from_ until_ : ℕ}
    (alike : CopiesAlike code base addr
      (((stretch.places.map (movedInst iced code base)).take until_).drop from_)) :
    reencodeInstructions
        (((stretch.places.map (instAt iced code base)).take until_).drop from_) addr =
      reencodeInstructions (((stretch.places.map (movedInst iced code base)).take until_).drop from_) addr := by
  rw [← map_take, ← map_drop] at alike ⊢
  rw [← map_take, ← map_drop]
  exact alike.reencode_eq laws fun place member =>
    window.small place (mem_of_mem_take (mem_of_mem_drop member))

theorem planForward_eq
    (kept : stretch.ask (movedInst iced code base) (ForwardKept targets trampolineBase trampolineLen) code base) :
    stretch.ask (instAt iced code base) (planForward inPlaceTargets trampolineBase trampolineLen) =
      stretch.ask (movedInst iced code base) (planForward targets trampolineBase trampolineLen) := by
  have scans := window.forwardScan_eq laws code
  dsimp only [Stretch.ask, scanBehind] at scans ⊢
  rw [planForward, planForward, scans]
  refine bind_congr_ok fun found scanned => ?_
  cases found with
  | none => rfl
  | some found =>
    obtain ⟨stop, stopIdx⟩ := found
    refine bind_congr_ok fun targetAddr target_eq => ?_
    obtain ⟨-, rfl⟩ := checkedAddU64_eq_ok.mp target_eq
    rw [(window.here laws).nextIp]
    by_cases reaches : iced.nextIp (movedInst iced code base stretch.offset) < stop
    · rw [if_pos reaches, if_pos reaches]
      refine bind_congr_ok fun postTarget post_eq => ?_
      obtain ⟨-, rfl⟩ := addU64_eq_ok.mp post_eq
      rw [window.reencode_eq laws (kept stop stopIdx scanned reaches)]
    · rw [if_neg reaches, if_neg reaches]

/-- Where both scans can copy what a site borrows, they decide alike. -/
theorem planSite_eq
    (kept : stretch.ask (movedInst iced code base) (SiteKept targets trampolineBase trampolineLen) code base) :
    stretch.ask (instAt iced code base) (planSite inPlaceTargets trampolineBase trampolineLen) =
      stretch.ask (movedInst iced code base) (planSite targets trampolineBase trampolineLen) := by
  have searches := window.searchBack_eq laws code
  dsimp only [Stretch.ask] at searches ⊢
  rw [planSite, planSite, searches]
  refine bind_congr_ok fun found scanned => ?_
  cases found with
  | none =>
    refine window.planForward_eq laws (kept.2 fun start startIdx other => ?_)
    rw [scanned] at other
    cases other
  | some found =>
    obtain ⟨start, startIdx⟩ := found
    refine bind_congr_ok fun targetAddr target_eq => ?_
    obtain ⟨-, rfl⟩ := checkedAddU64_eq_ok.mp target_eq
    rw [(window.here laws).1]
    by_cases reaches : start < iced.ip (movedInst iced code base stretch.offset)
    · rw [if_pos reaches, if_pos reaches,
        window.reencode_eq laws (kept.1 start startIdx scanned)]
      refine bind_congr_ok fun copies encoded => ?_
      cases copies with
      | some pre => rfl
      | none =>
        refine window.planForward_eq laws (kept.2 fun other otherIdx found => ?_)
        cases scanned.symm.trans found
        exact encoded
    · rw [if_neg reaches, if_neg reaches]

/-- The backward search ends at an instruction before the `syscall`. -/
theorem searchBack_lt {start startIdx : ℕ}
    (found : stretch.ask (movedInst iced code base) (searchBack targets) = .ok (some (start, startIdx))) :
    start < iced.ip (movedInst iced code base stretch.offset) := by
  dsimp only [Stretch.ask] at found
  rw [map_append, map_cons, ← length_map (movedInst iced code base)] at found
  obtain ⟨front, first, run, shape, -, rfl, -⟩ := searchBack_eq_some found
  have member : first ∈ stretch.before.map (movedInst iced code base) := by
    rw [shape]
    exact mem_append_right _ mem_cons_self
  obtain ⟨place, inside, rfl⟩ := mem_map.mp member
  have less := (pairwise_append.mp window.sorted).2.2 place inside stretch.offset mem_cons_self
  rw [movedInst_ip laws (window.small place (mem_append_left _ inside)),
    movedInst_ip laws (window.small stretch.offset (mem_append_right _ mem_cons_self))]
  omega

variable (encodeLaws : iced.EncodeLaws) (positive : 0 < base) (below : base < 2 ^ 64)

include encodeLaws positive below

theorem copiesAlike {addr from_ until_ : ℕ}
    (moved : reencodeInstructions
      (((stretch.places.map (movedInst iced code base)).take until_).drop from_) addr = .ok copies)
    (placed : reencodeInstructions
      (((stretch.places.map (instAt iced code base)).take until_).drop from_) addr = .ok copies) :
    CopiesAlike code base addr (((stretch.places.map (movedInst iced code base)).take until_).drop from_) := by
  rw [← map_take, ← map_drop] at moved placed ⊢
  exact copiesAlike_of_eq laws encodeLaws
    (fun place member => window.small place (mem_of_mem_take (mem_of_mem_drop member)))
    positive below moved placed

theorem forwardKept_of_plan
    (moved : stretch.ask (movedInst iced code base) (planForward targets trampolineBase trampolineLen) = .ok plan)
    (placed : stretch.ask (instAt iced code base) (planForward inPlaceTargets trampolineBase trampolineLen) = .ok plan) :
    stretch.ask (movedInst iced code base) (ForwardKept targets trampolineBase trampolineLen) code base := by
  intro stop stopIdx scanned reaches
  have scanned' := (window.forwardScan_eq laws code).trans scanned
  have reaches' : iced.nextIp (instAt iced code base stretch.offset) < stop := by
    rwa [(window.here laws).nextIp]
  obtain ⟨found, found_eq, ⟨rfl, -⟩ | ⟨_, _, rfl, outcome⟩⟩ := planForward_eq_ok moved
  · cases scanned.symm.trans found_eq
  obtain ⟨found', found_eq', ⟨rfl, -⟩ | ⟨_, _, rfl, outcome'⟩⟩ := planForward_eq_ok placed
  · cases scanned'.symm.trans found_eq'
  cases scanned.symm.trans found_eq
  cases scanned'.symm.trans found_eq'
  obtain ⟨absurd, -⟩ | ⟨-, copies, encoded, rfl⟩ := outcome
  · exact (absurd reaches).elim
  obtain ⟨absurd, -⟩ | ⟨-, copies', encoded', same⟩ := outcome'
  · exact (absurd reaches').elim
  obtain rfl : copies = copies' := by
    cases copies <;> cases copies' <;> cases same <;> rfl
  exact window.copiesAlike laws encodeLaws positive below encoded encoded'

/-- Scans that decide alike can both copy what the site borrows. -/
theorem siteKept_of_plan
    (moved : stretch.ask (movedInst iced code base) (planSite targets trampolineBase trampolineLen) = .ok plan)
    (placed : stretch.ask (instAt iced code base) (planSite inPlaceTargets trampolineBase trampolineLen) = .ok plan) :
    stretch.ask (movedInst iced code base) (SiteKept targets trampolineBase trampolineLen) code base := by
  have same_search := window.searchBack_eq laws code
  obtain ⟨unfound, forward⟩ | ⟨start, startIdx, found, outcome⟩ := planSite_eq_ok moved
  · obtain ⟨-, forward'⟩ | ⟨start, startIdx, found', -⟩ := planSite_eq_ok placed
    · refine ⟨fun start startIdx found => ?_, fun _ => ?_⟩
      · cases unfound.symm.trans found
      · exact window.forwardKept_of_plan laws encodeLaws positive below forward forward'
    · cases (same_search.symm.trans found').symm.trans unfound
  · obtain ⟨unfound', -⟩ | ⟨start', startIdx', found', outcome'⟩ := planSite_eq_ok placed
    · cases (same_search.symm.trans unfound').symm.trans found
    cases (same_search.symm.trans found').symm.trans found
    have reaches := window.searchBack_lt laws found
    obtain ⟨absurd, -⟩ | ⟨-, copies, encoded, outcome⟩ := outcome
    · exact (absurd reaches).elim
    obtain ⟨absurd, -⟩ | ⟨-, copies', encoded', outcome'⟩ := outcome'
    · rw [(window.here laws).1] at absurd
      exact (absurd reaches).elim
    obtain ⟨pre, rfl, rfl⟩ | ⟨rfl, forward⟩ := outcome
    · obtain ⟨pre', rfl, same⟩ | ⟨-, forward'⟩ := outcome'
      · cases same
        refine ⟨fun other otherIdx again => ?_, fun fails => ?_⟩
        · cases found.symm.trans again
          exact window.copiesAlike laws encodeLaws positive below encoded encoded'
        · cases encoded.symm.trans (fails _ _ found)
      · exact (planForward_ne_back forward').elim
    · obtain ⟨pre', rfl, rfl⟩ | ⟨rfl, forward'⟩ := outcome'
      · exact (planForward_ne_back forward).elim
      · refine ⟨fun other otherIdx again => ?_, fun _ => ?_⟩
        · cases found.symm.trans again
          exact window.copiesAlike laws encodeLaws positive below encoded encoded'
        · exact window.forwardKept_of_plan laws encodeLaws positive below forward forward'

end MovedWindow

end LiteBox.Rewriter
