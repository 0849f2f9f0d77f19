import LiteBox.Lib.Edits
import LiteBox.Rewriter.Patch

/-! # No system call escapes, unless two sites share bytes

What hooking a section is for: the rewritten ranges do not overlap, every `syscall` of the linear
decode is replaced by a jump to its own stub or by a trap, and the stubs hold no `syscall`. Sites
are patched one after the other and nothing records which bytes are taken, so this holds exactly
when no forward plan reaches into the next site.
-/

namespace LiteBox.Rewriter

open Bytes Outcome List Decision Patch Subset

variable {iced : Iced}

/-- The code of a section; a scan of bytes that reach past the address space does not return. -/
structure CodeSection where
  data : List UInt8
  base : ℕ
  fits : base + data.length < 2 ^ 64

def CodeSection.decode (iced : Iced) (code : CodeSection) : List iced.Inst :=
  linearDecode iced code.data code.base

theorem CodeSection.laidOut (code : CodeSection) (laws : iced.DecodeLaws) :
    LaidOut iced code.base (code.decode iced) (code.base + code.data.length) :=
  laidOut_sweep laws code.data code.base (Nat.zero_le _)

/-- Where a `JMP rel32` at an offset of a section leads, if there is one. -/
def jumpTarget (base : ℕ) (data : List UInt8) (offset : ℕ) : Option ℤ :=
  match data.drop offset with
  | 0xE9 :: a :: b :: c :: d :: _ => some (base + offset + 5 + toSigned 32 (leValue [a, b, c, d]))
  | _ => none

/-- The bytes a decision rewrites, as offsets of the section. -/
def Decision.Touches (base : ℕ) (decision : Decision iced) (offset : ℕ) : Prop :=
  decision.start ≤ base + offset ∧ base + offset < decision.stop

/-- The site's own stub in a trampoline. -/
def Decision.stub (decision : Decision iced) (trampoline : List UInt8) : List UInt8 :=
  (trampoline.drop decision.stubOffset).take decision.plan.stubLen

/-- The site's `syscall` is gone: a trap stands in its place and is reported, or a jump to the
site's own stub covers it. -/
def Decision.Redirects (code : CodeSection) (trampolineBase : ℕ) (out : HookState) (decision : Decision iced) : Prop :=
  match decision.plan with
  | .trap => [0xF1, 0xF4] <+: out.data.drop (iced.ip decision.inst - code.base) ∧
      iced.ip decision.inst ∈ out.skipped
  | .back _ _ | .forward _ _ =>
    decision.start ≤ iced.ip decision.inst ∧ iced.nextIp decision.inst ≤ decision.stop ∧
      code.base ≤ decision.start ∧
      jumpTarget code.base out.data (decision.start - code.base) = some ((trampolineBase + decision.stubOffset : ℕ) : ℤ)

/-- What hooking a section promises about its decisions and its result. -/
structure NoEscape (code : CodeSection) (trampolineBase : ℕ) (trampoline : List UInt8)
    (decisions : List (Decision iced)) (out : HookState) : Prop where
  disjoint : decisions.Pairwise fun first second => first.stop ≤ second.start ∨ second.stop ≤ first.start
  unchanged : ∀ offset, (∀ decision ∈ decisions, ¬ decision.Touches code.base offset) → out.data[offset]? = code.data[offset]?
  redirected : ∀ inst ∈ code.decode iced, iced.isSyscall inst = true →
    ∃ decision ∈ decisions, decision.inst = inst ∧ decision.Redirects code trampolineBase out
  emitted : out.trampoline = trampoline ++ (decisions.map fun decision => decision.stub out.trampoline).flatten
  clean : ∀ decision ∈ decisions, ∀ inst ∈
    linearDecode iced (decision.stub out.trampoline) (trampolineBase + decision.stubOffset), iced.isSyscall inst = false

/-- A forward plan that stays clear of the next site: of its `syscall` and of the instructions that
site borrows itself. -/
def Decision.KeepsClear (decision next : Decision iced) : Prop :=
  match decision.plan, next.plan with
  | .forward stop _, .back start _ => stop ≤ start
  | .forward stop _, _ => stop ≤ iced.ip next.inst
  | _, _ => True

/-! ## Where the ranges lie -/

section Geometry

variable {trampolineBase start stop k : ℕ} {insts : List iced.Inst} {decision next : Decision iced}

theorem Decision.At.getElem? (here : decision.At trampolineBase insts k) : insts[k]? = some decision.inst := by
  obtain ⟨before, behind, rfl, rfl, -⟩ := here
  simp

/-- A decision's range holds its `syscall`. -/
theorem Decision.At.covers (here : decision.At trampolineBase insts k) (laid : LaidOut iced start insts stop)
    (small : stop < 2 ^ 64) :
    decision.start ≤ iced.ip decision.inst ∧ iced.ip decision.inst < iced.nextIp decision.inst ∧
      iced.nextIp decision.inst ≤ decision.stop := by
  obtain ⟨before, behind, rfl, rfl, chosen⟩ := here
  have next_eq := laid.nextIp_eq small (mem_append_right before mem_cons_self)
  obtain ⟨front, pos, back⟩ := laid.split
  unfold Decision.start Decision.stop
  cases plan : decision.plan with
  | back from_ pre =>
    rw [plan] at chosen
    obtain ⟨_, first, run, rfl, rfl, -⟩ := chosen
    have bounds := front.bounds (mem_append_right _ mem_cons_self)
    simp only
    omega
  | forward until_ post =>
    rw [plan] at chosen
    obtain ⟨run, last, rest, rfl, rfl, -⟩ := chosen
    have bounds := back.bounds (mem_append_right run mem_cons_self)
    have last_eq := laid.nextIp_eq small (mem_append_right before (mem_cons_of_mem _ (mem_append_right run mem_cons_self)))
    simp only
    omega
  | trap => simp only; omega

/-- A site never borrows an earlier `syscall`, since that does not fall through. -/
theorem Decision.At.behind (laws : iced.X86Laws) (later : next.At trampolineBase insts k)
    (laid : LaidOut iced start insts stop) (small : stop < 2 ^ 64) {j : ℕ} (before : j < k)
    {inst : iced.Inst} (read : insts[j]? = some inst) (isSyscall : iced.isSyscall inst = true) :
    iced.nextIp inst ≤ next.start := by
  have next_eq := laid.nextIp_eq small (mem_of_getElem? read)
  obtain ⟨front, back, rfl, rfl, chosen⟩ := later
  have member : inst ∈ front := by
    rw [getElem?_append_left before] at read
    exact mem_of_getElem? read
  have laid_front := laid.split.1
  unfold Decision.start
  cases plan : next.plan with
  | back from_ pre =>
    rw [plan] at chosen
    obtain ⟨far, first, run, rfl, rfl, -, falls, -⟩ := chosen
    rcases mem_append.mp member with member | member
    · have bounds := laid_front.split.1.bounds member
      simp only
      omega
    · have stuck := laws.syscall_flow inst isSyscall
      rw [falls inst member] at stuck
      cases stuck
  | forward | trap => have := laid_front.bounds member; simp only; omega

/-- Only a forward plan can reach past its own `syscall`. -/
theorem Decision.keepsClear_iff (ordered : iced.nextIp decision.inst ≤ next.start) :
    decision.KeepsClear next ↔ decision.stop ≤ next.start := by
  obtain ⟨inst, plan, offset⟩ := decision
  obtain ⟨nextInst, nextPlan, nextOffset⟩ := next
  cases plan with
  | back from_ pre => exact iff_of_true trivial ordered
  | forward until_ post => cases nextPlan <;> exact Iff.rfl
  | trap => exact iff_of_true trivial ordered

/-- Sites in order rewrite disjoint ranges exactly when each keeps clear of the next. -/
theorem pairwise_disjoint_iff {decisions : List (Decision iced)}
    (ordered : decisions.Pairwise fun first second => iced.nextIp first.inst ≤ second.start)
    (covers : ∀ decision ∈ decisions, decision.start ≤ iced.ip decision.inst ∧
      iced.ip decision.inst < iced.nextIp decision.inst ∧ iced.nextIp decision.inst ≤ decision.stop) :
    (decisions.Pairwise fun first second => first.stop ≤ second.start ∨ second.stop ≤ first.start) ↔
      decisions.IsChain Decision.KeepsClear := by
  induction decisions with
  | nil => simp
  | cons first decisions ih =>
    obtain ⟨ordered_first, ordered_rest⟩ := pairwise_cons.mp ordered
    have rest_iff := ih ordered_rest fun decision member => covers decision (mem_cons_of_mem _ member)
    cases decisions with
    | nil => simp
    | cons second rest =>
      have clear_iff := keepsClear_iff (ordered_first second mem_cons_self)
      have covers_first := covers first mem_cons_self
      have covers_second := covers second (mem_cons_of_mem _ mem_cons_self)
      have after_first := ordered_first second mem_cons_self
      rw [isChain_cons_cons, pairwise_cons, rest_iff, clear_iff]
      refine and_congr_left fun _ => ⟨fun apart => ?_, fun clear decision member => ?_⟩
      · have := apart second mem_cons_self
        omega
      · rcases mem_cons.mp member with rfl | member
        · exact .inl clear
        · have := (pairwise_cons.mp ordered_rest).1 decision member
          omega

end Geometry

/-! ## What the stubs hold -/

section Stubs

variable (decodeLaws : iced.DecodeLaws)

/-- A linear decode without a `syscall`. -/
def Clean (iced : Iced) (addr : ℕ) (bytes : List UInt8) : Prop :=
  ∀ inst ∈ linearDecode iced bytes addr, iced.isSyscall inst = false

include decodeLaws

variable {addr : ℕ}

theorem clean_append {piece rest : List UInt8} (nonempty : piece ≠ [])
    (width : iced.len (iced.decode (piece ++ rest) addr) = piece.length)
    (other : iced.isSyscall (iced.decode (piece ++ rest) addr) = false)
    (clean : Clean iced (addr + piece.length) rest) : Clean iced addr (piece ++ rest) := by
  intro inst member
  rw [linearDecode_append decodeLaws nonempty width] at member
  rcases mem_cons.mp member with rfl | member
  · exact other
  · exact clean inst member

variable {insts : List iced.Inst}

/-- Copies of instructions other than `syscall` are no `syscall`s. -/
theorem clean_reencodeFrom (encodeLaws : iced.EncodeLaws) {baseAddr done : ℕ}
    {bytes rest : List UInt8} (pos : ∀ inst ∈ insts, 0 < iced.len inst) (other : ∀ inst ∈ insts, iced.isSyscall inst = false)
    (encoded : reencodeFrom baseAddr done insts = .ok (some bytes)) (clean : Clean iced (baseAddr + done + bytes.length) rest) :
    Clean iced (baseAddr + done) (bytes ++ rest) := by
  induction insts generalizing done bytes with
  | nil =>
    cases encoded
    exact clean
  | cons inst insts ih =>
    obtain ⟨first, later, first_eq, length, tail_eq, rfl⟩ := reencodeFrom_cons_eq_some encoded
    have nonempty : first ≠ [] := by
      rw [← length_pos_iff, length]
      exact pos inst mem_cons_self
    rw [append_assoc]
    refine clean_append decodeLaws nonempty ?_ ?_ ?_
    · rw [encodeLaws.len_decode inst _ first _ first_eq length, length]
    · rw [encodeLaws.isSyscall_decode inst _ first _ first_eq length]
      exact other inst mem_cons_self
    · rw [Nat.add_assoc]
      refine ih (fun inst member => pos inst (mem_cons_of_mem _ member))
        (fun inst member => other inst (mem_cons_of_mem _ member)) tail_eq ?_
      rw [length_append, Nat.add_assoc] at clean
      rwa [Nat.add_assoc, Nat.add_assoc]

theorem clean_reencodeInstructions (encodeLaws : iced.EncodeLaws)
    {bytes rest : List UInt8} (pos : ∀ inst ∈ insts, 0 < iced.len inst) (other : ∀ inst ∈ insts, iced.isSyscall inst = false)
    (encoded : reencodeInstructions insts addr = .ok (some bytes))
    (clean : Clean iced (addr + bytes.length) rest) : Clean iced addr (bytes ++ rest) :=
  clean_reencodeFrom decodeLaws encodeLaws pos other encoded clean

/-- A stub is clean when its copies are. -/
theorem clean_stub (x86Laws : iced.X86Laws) {pre post stub : List UInt8} (shape : IsStub pre post stub)
    (cleanPre : ∀ rest, Clean iced (addr + pre.length) rest → Clean iced addr (pre ++ rest))
    (cleanPost : ∀ rest, Clean iced (addr + pre.length + preambleLen + post.length) rest →
      Clean iced (addr + pre.length + preambleLen) (post ++ rest)) : Clean iced addr stub := by
  obtain ⟨entryDisp, backDisp, entry_len, back_len, rfl⟩ := shape
  have none_left (addr : ℕ) : Clean iced addr [] := nofun
  have jump_len : ([0xFF, 0x25] ++ entryDisp).length = 6 := by simp [entry_len]
  have back_jump_len : ([0xE9] ++ backDisp).length = 5 := by simp [back_len]
  refine cleanPre _ ?_
  obtain ⟨lea_len, lea_other, -⟩ := x86Laws.lea ([0xFF, 0x25] ++ entryDisp ++ (post ++ ([0xE9] ++ backDisp))) (addr + pre.length)
  refine clean_append decodeLaws (by decide) lea_len lea_other ?_
  obtain ⟨mem_len, mem_other, -⟩ := x86Laws.jmpMem entryDisp entry_len (post ++ ([0xE9] ++ backDisp))
    (addr + pre.length + leaRcx.length)
  refine clean_append decodeLaws (by simp) (by rw [mem_len, jump_len]) mem_other ?_
  have here : addr + pre.length + leaRcx.length + ([0xFF, 0x25] ++ entryDisp).length =
      addr + pre.length + preambleLen := by
    rw [jump_len]
    rfl
  rw [here]
  refine cleanPost _ ?_
  obtain ⟨rel_len, rel_other, -⟩ := x86Laws.jmpRel backDisp back_len [] (addr + pre.length + preambleLen + post.length)
  rw [← append_nil ([0xE9] ++ backDisp)]
  exact clean_append decodeLaws (by simp) (by rw [rel_len, back_jump_len]) rel_other (none_left _)

end Stubs

/-! ## What a sequence of patches leaves behind -/

variable {trampoline : List UInt8} {code : CodeSection} {out : HookState}

section Patches

variable {sectionBase trampolineBase dataLen : ℕ} {patches : List (Patch iced)} {patch : Patch iced}

def Patch.edit (sectionBase : ℕ) (patch : Patch iced) : Edit :=
  ⟨patch.decision.start - sectionBase, patch.bytes⟩

theorem foldl_apply_eq (state : HookState) :
    patches.foldl (apply sectionBase) state =
      ⟨(patches.map (edit sectionBase)).foldl Edit.apply state.data,
        state.trampoline ++ (patches.map Patch.stub).flatten, state.skipped ++ (patches.map Patch.skips).flatten⟩ := by
  induction patches generalizing state with
  | nil => simp
  | cons patch patches ih =>
    rw [foldl_cons, ih]
    simp only [Patch.apply, map_cons, foldl_cons, flatten_cons, append_assoc]
    rfl

/-- Each stub stands at the offset its decision recorded. -/
theorem StubsFrom.read (stubs : StubsFrom trampoline.length patches) (member : patch ∈ patches) :
    ((trampoline ++ (patches.map Patch.stub).flatten).drop patch.decision.stubOffset).take patch.stub.length = patch.stub := by
  induction patches generalizing trampoline with
  | nil => cases member
  | cons first patches ih =>
    obtain ⟨offset_eq, stubs⟩ := stubs
    rcases mem_cons.mp member with rfl | member
    · rw [offset_eq, drop_left, map_cons, flatten_cons, take_left]
    · rw [map_cons, flatten_cons, ← append_assoc]
      exact ih (by rwa [length_append]) member

theorem Patch.Valid.stop_eq (valid : patch.Valid sectionBase trampolineBase dataLen) :
    (patch.edit sectionBase).stop + sectionBase = patch.decision.stop := by
  have := valid.length_eq
  have := valid.base_le
  simp only [edit, Edit.stop]
  omega

theorem edits_disjoint_iff (valid : ∀ patch ∈ patches, patch.Valid sectionBase trampolineBase dataLen) :
    (patches.map (edit sectionBase)).Pairwise Edit.Disjoint ↔
      (patches.map decision).Pairwise fun first second => first.stop ≤ second.start ∨ second.stop ≤ first.start := by
  rw [pairwise_map, pairwise_map]
  refine List.Pairwise.iff_of_mem fun {first second} first_mem second_mem => ?_
  have first_stop := (valid first first_mem).stop_eq
  have second_stop := (valid second second_mem).stop_eq
  have first_base := (valid first first_mem).base_le
  have second_base := (valid second second_mem).base_le
  simp only [Edit.Disjoint, edit] at first_stop second_stop ⊢
  omega

theorem jumpTarget_eq {base offset : ℕ} {data disp nops : List UInt8} (length : disp.length = 4)
    (read : [0xE9] ++ disp ++ nops <+: data.drop offset) :
    jumpTarget base data offset = some ((base : ℤ) + offset + 5 + toSigned 32 (leValue disp)) := by
  obtain ⟨rest, rest_eq⟩ := read
  match disp, length with
  | [a, b, c, d], _ =>
    rw [jumpTarget, ← rest_eq]
    rfl

theorem Patch.Valid.redirects (valid : patch.Valid code.base trampolineBase dataLen)
    (covers : patch.decision.start ≤ iced.ip patch.decision.inst ∧ iced.nextIp patch.decision.inst ≤ patch.decision.stop)
    (read : patch.bytes <+: out.data.drop (patch.decision.start - code.base))
    (skipped : patch.skips ⊆ out.skipped) : patch.decision.Redirects code trampolineBase out := by
  have jump : (∃ disp nops, disp.length = 4 ∧ patch.bytes = [0xE9] ++ disp ++ nops ∧
      (patch.decision.start : ℤ) + 5 + toSigned 32 (leValue disp) = trampolineBase + patch.decision.stubOffset) →
      jumpTarget code.base out.data (patch.decision.start - code.base) =
        some ((trampolineBase + patch.decision.stubOffset : ℕ) : ℤ) := by
    rintro ⟨disp, nops, length, bytes_eq, decodes⟩
    rw [bytes_eq] at read
    have base_le := valid.base_le
    rw [jumpTarget_eq length read]
    congr 1
    omega
  have follows := valid.follows
  unfold Patch.Follows at follows
  unfold Decision.Redirects
  cases plan : patch.decision.plan with
  | back | forward =>
    rw [plan] at follows
    exact ⟨covers.1, covers.2, valid.base_le, jump follows.1⟩
  | trap =>
    rw [plan] at follows
    obtain ⟨⟨nops, bytes_eq⟩, -⟩ := follows
    have start_eq : patch.decision.start = iced.ip patch.decision.inst := by
      rw [start, plan]
    rw [bytes_eq, start_eq] at read
    refine ⟨(prefix_append _ _).trans read, skipped ?_⟩
    rw [skips, if_pos plan]
    exact mem_singleton_self _

end Patches

/-! ## Whole runs -/

theorem forall₂_mem_right {α β : Type*} {R : α → β → Prop} {left : List α} {right : List β}
    (related : List.Forall₂ R left right) {second : β} (member : second ∈ right) : ∃ first ∈ left, R first second := by
  obtain ⟨i, inside, rfl⟩ := getElem_of_mem member
  exact ⟨_, getElem_mem (related.length_eq ▸ inside), related.get _ inside⟩

/-- An order of the first list carries over to the second. -/
theorem forall₂_pairwise {α β : Type*} {R : α → β → Prop} {S : α → α → Prop} {T : β → β → Prop}
    {left : List α} {right : List β} (related : List.Forall₂ R left right) (ordered : left.Pairwise S)
    (carries : ∀ first first' second second', S first first' → R first second → R first' second' →
      T second second') : right.Pairwise T := by
  induction related with
  | nil => exact .nil
  | cons here rest ih =>
    obtain ⟨ordered_first, ordered_rest⟩ := pairwise_cons.mp ordered
    refine pairwise_cons.mpr ⟨fun second member => ?_, ih ordered_rest⟩
    obtain ⟨first, found, holds⟩ := forall₂_mem_right rest member
    exact carries _ _ _ _ (ordered_first first found) here holds

/-- One valid patch for each `syscall` of a section, in order. -/
def PatchesAll (code : CodeSection) (trampolineBase : ℕ) (patches : List (Patch iced)) : Prop :=
  List.Forall₂ (fun k patch => patch.decision.At trampolineBase (code.decode iced) k ∧
    patch.Valid code.base trampolineBase code.data.length) (syscallPositions (code.decode iced)) patches

/-- A run that returns is a sequence of valid patches, one for each `syscall` of the linear decode. -/
theorem hookSyscallsInSection_eq_ok (decodeLaws : iced.DecodeLaws)
    {targets : ControlTransferTargets} {trampolineBase entryAddr : ℕ}
    (hooked : hookSyscallsInSection targets code.base code.data trampolineBase entryAddr trampoline
      (sitesOf (code.decode iced)) = .ok out) :
    ∃ patches : List (Patch iced),
      decideSites targets trampolineBase trampoline.length (sitesOf (code.decode iced)) =
        .ok (patches.map decision) ∧
      PatchesAll code trampolineBase patches ∧
      StubsFrom trampoline.length patches ∧ out = patches.foldl (apply code.base) ⟨code.data, trampoline, []⟩ := by
  unfold hookSyscallsInSection at hooked
  split_ifs at hooked with empty
  exact hookSites_eq_ok (code.laidOut decodeLaws) code.fits (fun _ => lt_of_mem_syscallPositions) (mapError_eq_ok.mp hooked)

section Runs

variable {code : CodeSection} {trampolineBase : ℕ} {patches : List (Patch iced)} {patch : Patch iced}

theorem PatchesAll.valid (all : PatchesAll code trampolineBase patches)
    (member : patch ∈ patches) : patch.Valid code.base trampolineBase code.data.length := by
  obtain ⟨k, -, -, valid⟩ := forall₂_mem_right all member
  exact valid

variable (decodeLaws : iced.DecodeLaws)

include decodeLaws

theorem PatchesAll.covers (all : PatchesAll code trampolineBase patches)
    {decision : Decision iced} (member : decision ∈ patches.map Patch.decision) :
    decision.start ≤ iced.ip decision.inst ∧ iced.ip decision.inst < iced.nextIp decision.inst ∧
      iced.nextIp decision.inst ≤ decision.stop := by
  obtain ⟨patch, found, rfl⟩ := mem_map.mp member
  obtain ⟨k, -, here, -⟩ := forall₂_mem_right all found
  exact here.covers (code.laidOut decodeLaws) code.fits

theorem PatchesAll.ordered (all : PatchesAll code trampolineBase patches)
    (x86Laws : iced.X86Laws) : (patches.map decision).Pairwise fun first second => iced.nextIp first.inst ≤ second.start := by
  have syscalls : ∀ k ∈ syscallPositions (code.decode iced), ∃ inst, (code.decode iced)[k]? = some inst ∧
      iced.isSyscall inst = true := fun k => mem_syscallPositions.mp
  rw [pairwise_map]
  refine forall₂_pairwise ((forall₂_and_left _ _).mpr ⟨syscalls, all⟩) (syscallPositions_sorted _) ?_
  rintro j k first second before ⟨⟨inst, read, isSyscall⟩, here, -⟩ ⟨-, later, -⟩
  obtain rfl := Option.some.inj (here.getElem?.symm.trans read)
  exact later.behind x86Laws (code.laidOut decodeLaws) code.fits before read isSyscall

/-- Disjoint ranges leave no `syscall` among the instructions a site borrows. -/
theorem borrowed_not_syscall (related : PatchesAll code trampolineBase patches)
    (apart : (patches.map decision).Pairwise fun first second => first.stop ≤ second.start ∨ second.stop ≤ first.start) (member : patch ∈ patches) {before run rest : List iced.Inst} {last : iced.Inst}
    (shape : code.decode iced = before ++ patch.decision.inst :: (run ++ last :: rest))
    {stop : ℕ} {post : List UInt8} (plan : patch.decision.plan = .forward stop post)
    (stop_eq : stop = iced.nextIp last) : iced.isSyscall last = false := by
  have laid := code.laidOut decodeLaws
  by_contra isSyscall
  have isSyscall : iced.isSyscall last = true := by simpa using isSyscall
  have inside : last ∈ code.decode iced := by simp [shape]
  obtain ⟨k, read⟩ := getElem?_of_mem inside
  obtain ⟨other, other_mem, here, -⟩ :=
    forall₂_mem_right related.flip (mem_syscallPositions.mpr ⟨last, read, isSyscall⟩)
  have inst_eq : other.decision.inst = last := Option.some.inj (here.getElem?.symm.trans read)
  have covers := here.covers laid code.fits
  rw [inst_eq] at covers
  obtain ⟨-, inst_pos, behind⟩ := (shape ▸ laid).split
  have bounds := behind.bounds (mem_append_right run mem_cons_self)
  have start_eq : patch.decision.start = iced.ip patch.decision.inst := by rw [start, plan]
  have stop_eq' : patch.decision.stop = iced.nextIp last := by rw [Decision.stop, plan, stop_eq]
  have different : patch.decision ≠ other.decision := by
    intro same
    rw [same, inst_eq] at bounds inst_pos
    omega
  have symmetric : Std.Symm fun first second : Decision iced =>
      first.stop ≤ second.start ∨ second.stop ≤ first.start := ⟨fun _ _ => Or.symm⟩
  have := apart.forall (mem_map_of_mem member) (mem_map_of_mem other_mem) different
  rw [start_eq, stop_eq'] at this
  omega

/-- The stub of every site is clean when the ranges are disjoint. -/
theorem clean_of_disjoint (encodeLaws : iced.EncodeLaws) (x86Laws : iced.X86Laws)
    (related : PatchesAll code trampolineBase patches)
    (apart : (patches.map decision).Pairwise fun first second => first.stop ≤ second.start ∨ second.stop ≤ first.start) (member : patch ∈ patches) : Clean iced (trampolineBase + patch.decision.stubOffset) patch.stub := by
  have laid := code.laidOut decodeLaws
  obtain ⟨k, -, ⟨before, behind, shape, -, chosen⟩, valid⟩ := forall₂_mem_right related member
  have not_syscall {inst : iced.Inst} (falls : iced.flowsNext inst = true) : iced.isSyscall inst = false := by
    by_contra isSyscall
    rw [x86Laws.syscall_flow inst (by simpa using isSyscall)] at falls
    cases falls
  have pos {inst : iced.Inst} (inside : inst ∈ code.decode iced) : 0 < iced.len inst :=
    (laid.bounds inside).2.1
  have follows := valid.follows
  unfold Patch.Follows at follows
  cases plan : patch.decision.plan with
  | back from_ pre =>
    rw [plan] at follows chosen
    obtain ⟨front, first, run, rfl, -, -, falls, encoded⟩ := chosen
    refine clean_stub decodeLaws x86Laws follows.2 (fun tail clean => ?_) (fun tail clean => clean)
    exact clean_reencodeInstructions decodeLaws encodeLaws
      (fun inst borrowed => pos (by rw [shape]; simp only [mem_append]; exact .inl (.inr borrowed)))
      (fun inst borrowed => not_syscall (falls inst borrowed)) encoded clean
  | forward until_ post =>
    rw [plan] at follows chosen
    obtain ⟨run, last, rest, rfl, stop_eq, -, falls, encoded⟩ := chosen
    have last_other := borrowed_not_syscall decodeLaws related apart member shape plan stop_eq
    refine clean_stub decodeLaws x86Laws follows.2 (fun tail clean => clean) (fun tail clean => ?_)
    refine clean_reencodeInstructions decodeLaws encodeLaws ?_ ?_ encoded clean
    · intro inst borrowed
      refine pos ?_
      rw [shape, append_cons run last rest]
      exact mem_append_right _ (mem_cons_of_mem _ (mem_append_left _ borrowed))
    · exact forall_mem_append.mpr ⟨fun inst borrowed => not_syscall (falls inst borrowed), forall_mem_singleton.mpr last_other⟩
  | trap =>
    rw [plan] at follows
    rw [follows.2]
    nofun

end Runs

/-- A run that returns keeps every promise exactly when each forward plan keeps clear of the next
site. -/
theorem hookSyscallsInSection_noEscape_iff (iced : Iced) (decodeLaws : iced.DecodeLaws)
    (encodeLaws : iced.EncodeLaws) (x86Laws : iced.X86Laws) (code : CodeSection)
    (targets : ControlTransferTargets) (trampolineBase entryAddr : ℕ) (trampoline : List UInt8) (out : HookState)
    (hooked : hookSyscallsInSection targets code.base code.data trampolineBase entryAddr trampoline
      (sitesOf (code.decode iced)) = .ok out) :
    ∃ decisions,
      decideSites targets trampolineBase trampoline.length (sitesOf (code.decode iced)) = .ok decisions ∧
      (NoEscape code trampolineBase trampoline decisions out ↔ decisions.IsChain Decision.KeepsClear) := by
  obtain ⟨patches, decided, all, stubs, rfl⟩ := hookSyscallsInSection_eq_ok decodeLaws hooked
  refine ⟨patches.map Patch.decision, decided, ?_⟩
  rw [← pairwise_disjoint_iff (all.ordered decodeLaws x86Laws) fun _ => all.covers decodeLaws]
  refine ⟨NoEscape.disjoint, fun apart => ?_⟩
  have fit : ∀ edit ∈ patches.map (Patch.edit code.base), edit.stop ≤ code.data.length := by
    intro edit member
    obtain ⟨patch, found, rfl⟩ := mem_map.mp member
    exact (all.valid found).inside
  have edits_apart := (edits_disjoint_iff fun _ => all.valid).mpr apart
  rw [foldl_apply_eq]
  have read_stub (patch) (member : patch ∈ patches) :
      patch.decision.stub (trampoline ++ (patches.map Patch.stub).flatten) = patch.stub := by
    rw [Decision.stub, ← (all.valid member).stub_len]
    exact stubs.read member
  refine ⟨apart, fun offset untouched => ?_, fun inst member isSyscall => ?_, ?_, fun decision member => ?_⟩
  · refine Edit.foldl_apply_outside fit fun edit member => ?_
    obtain ⟨patch, found, rfl⟩ := mem_map.mp member
    have missed := untouched _ (mem_map_of_mem found)
    have stop_eq := (all.valid found).stop_eq
    have base_le := (all.valid found).base_le
    simp only [Decision.Touches, Edit.Misses, edit] at missed stop_eq ⊢
    omega
  · obtain ⟨k, read⟩ := getElem?_of_mem member
    obtain ⟨patch, found, here, ok⟩ :=
      forall₂_mem_right all.flip (mem_syscallPositions.mpr ⟨inst, read, isSyscall⟩)
    refine ⟨patch.decision, mem_map_of_mem found, Option.some.inj (here.getElem?.symm.trans read), ?_⟩
    have span := here.covers (code.laidOut decodeLaws) code.fits
    refine ok.redirects ⟨span.1, span.2.2⟩ ?_ ?_
    · exact Edit.slice_foldl_apply fit edits_apart (mem_map_of_mem found)
    · exact fun skip skips => mem_flatten_of_mem (mem_map_of_mem found) skips
  · rw [map_map]
    exact congrArg _ (congrArg _ (map_congr_left fun patch member => (read_stub patch member).symm))
  · obtain ⟨patch, found, rfl⟩ := mem_map.mp member
    rw [read_stub patch found]
    exact clean_of_disjoint decodeLaws encodeLaws x86Laws all apart found

/-- A trampoline that holds the entry slot only. -/
def entrySlot : List UInt8 := List.replicate 8 0

/-- `mov eax, 1; syscall; nop; nop; nop`. -/
def borrowBack : CodeSection := ⟨[0xB8, 0x01, 0x00, 0x00, 0x00, 0x0F, 0x05, 0x90, 0x90, 0x90], 0x1000, by decide⟩

def borrowBackOut : HookState where
  data := [0xE9, 0x03, 0x10, 0x00, 0x00, 0x90, 0x90, 0x90, 0x90, 0x90]
  trampoline := entrySlot ++ [0xB8, 0x01, 0x00, 0x00, 0x00] ++ leaRcx ++ [0xFF, 0x25, 0xE6, 0xFF, 0xFF, 0xFF] ++
    [0xE9, 0xE8, 0xEF, 0xFF, 0xFF]
  skipped := []

def borrowBackDecisions : List (Decision Subset.iced) :=
  [⟨⟨0x1005, 2, .syscall⟩, .back 0x1000 [0xB8, 0x01, 0x00, 0x00, 0x00], 8⟩]

theorem hookSyscallsInSection_noEscape_borrowBack : NoEscape borrowBack 0x2000 entrySlot borrowBackDecisions borrowBackOut := by
  have hooked : hookSyscallsInSection ⟨[], 0⟩ borrowBack.base borrowBack.data 0x2000 0x2000 entrySlot
      (sitesOf (borrowBack.decode Subset.iced)) = .ok borrowBackOut := by decide +kernel
  have expected : decideSites ⟨[], 0⟩ 0x2000 entrySlot.length (sitesOf (borrowBack.decode Subset.iced)) =
      .ok borrowBackDecisions := by rfl
  obtain ⟨decisions, decided, promise⟩ := hookSyscallsInSection_noEscape_iff Subset.iced Subset.decodeLaws
    Subset.encodeLaws Subset.x86Laws borrowBack ⟨[], 0⟩ 0x2000 0x2000 entrySlot borrowBackOut hooked
  obtain rfl := Except.ok.inj (expected.symm.trans decided)
  exact promise.mpr (isChain_singleton _)

/-- `syscall; nop; syscall`. -/
def adjacent : CodeSection := ⟨[0x0F, 0x05, 0x90, 0x0F, 0x05], 0x1000, by decide⟩

def adjacentOut : HookState where
  data := [0xE9, 0x03, 0x10, 0xF1, 0xF4]
  trampoline := entrySlot ++ leaRcx ++ [0xFF, 0x25, 0xEB, 0xFF, 0xFF, 0xFF] ++ [0x90, 0x0F, 0x05] ++
    [0xE9, 0xE8, 0xEF, 0xFF, 0xFF]
  skipped := [0x1003]

def adjacentDecisions : List (Decision Subset.iced) :=
  [⟨⟨0x1000, 2, .syscall⟩, .forward 0x1005 [0x90, 0x0F, 0x05], 8⟩, ⟨⟨0x1003, 2, .syscall⟩, .trap, 29⟩]

/-- The first site borrows the second `syscall` into its stub, and the second site's trap is
written over the displacement of the first site's jump. -/
theorem adjacent_syscalls_escape :
    hookSyscallsInSection ⟨[], 0⟩ adjacent.base adjacent.data 0x2000 0x2000 entrySlot
        (sitesOf (adjacent.decode Subset.iced)) = .ok adjacentOut ∧
      decideSites ⟨[], 0⟩ 0x2000 entrySlot.length (sitesOf (adjacent.decode Subset.iced)) =
        .ok adjacentDecisions ∧
      ¬ NoEscape adjacent 0x2000 entrySlot adjacentDecisions adjacentOut ∧
      jumpTarget adjacent.base adjacentOut.data 0 = some (0x1005 - 0xB0EEFFD) ∧
      (linearDecode Subset.iced (adjacentOut.trampoline.drop 8) 0x2008).map Subset.iced.isSyscall =
        [false, false, false, true, false] := by
  refine ⟨by decide +kernel, by rfl, fun promise => ?_, by decide, by decide⟩
  exact absurd promise.disjoint (by decide)

end LiteBox.Rewriter
