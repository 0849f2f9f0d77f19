import LiteBox.Mm.Basic

/-! # The operations of the virtual memory manager

`insert_mapping`, `remove_mapping`, `protect_mapping`, `update_range_flags` and the placement of new
mappings, over the tracked areas and the platform's answers.
-/

namespace LiteBox.Mm

open Prog VmFlags

variable {H : Type} [DecidableEq H]

/-! ## Platform calls -/

variable (platform : Platform H)

namespace Platform

/-- Records a call with its answer. -/
def ask {ε α : Type} (answer : List (Call H) → Except ε α) (record : Except ε α → Call H) : Prog (Vmem H) ε α := fun v =>
  (answer v.calls, { v with calls := v.calls ++ [record (answer v.calls)] })

def allocate (range : Span) (permissions : MemoryRegionPermissions) (canGrowDown populate : Bool)
    (behavior : FixedAddressBehavior) : Prog (Vmem H) AllocationError ℕ :=
  ask (fun calls => platform.allocatePages calls range permissions canGrowDown populate behavior)
    (.allocatePages range permissions canGrowDown populate behavior)

def deallocate (range : Span) : Prog (Vmem H) DeallocationError Unit :=
  ask (fun calls => platform.deallocatePages calls range) (.deallocatePages range)

def protect (range : Span) (permissions : MemoryRegionPermissions) :
    Prog (Vmem H) PermissionUpdateError Unit :=
  ask (fun calls => platform.updatePermissions calls range permissions) (.updatePermissions range permissions)

def createShared (size : ℕ) : Prog (Vmem H) SharedMemoryError H :=
  ask (fun calls => platform.createSharedMemory calls size) (.createSharedMemory size)

def mapShared (handle : H) (range : Span) (permissions : MemoryRegionPermissions)
    (behavior : FixedAddressBehavior) : Prog (Vmem H) SharedMemoryError ℕ :=
  ask (fun calls => platform.mapSharedMemory calls handle range permissions behavior)
    (.mapSharedMemory handle range permissions behavior)

def unmapShared (range : Span) : Prog (Vmem H) SharedMemoryError Unit :=
  ask (fun calls => platform.unmapSharedMemory calls range) (.unmapSharedMemory range)

end Platform

def releaseMappingClaim {ε : Type} (range : Span) : Prog (Vmem H) ε Unit :=
  .modify fun v => { v with calls := v.calls ++ [.releaseMappingClaim range] }

namespace Vmem

variable (v : Vmem H)

def insertVma (range : Span) (vma : VmArea H) : Vmem H := { v with vmas := v.vmas.insert VmArea.same range vma }

def removeVma (range : Span) : Vmem H := { v with vmas := v.vmas.remove range }

/-- A manager that tracks the ranges which the platform has reserved. -/
def new (reserved : List Span) : Vmem H := reserved.foldl (fun v range => v.insertVma range (.new 0 false)) ⟨0, .empty, []⟩

/-! ## Removing -/

/-- The overlaps of a removal with shared views: the tracked fragment and the extent of its view. -/
def sharedOverlaps (range : Span) : List (Span × Span) :=
  (v.vmas.overlapping range.start range.stop).filterMap fun entry => entry.2.viewExtent.map (entry.1, ·)

/-- The removal empties the last tracked fragment of the view. -/
def emptiesView (range fragment view : Span) : Bool :=
  decide (range.Covers fragment) &&
    !v.vmas.entries.any fun entry => decide (entry.1 ≠ fragment) && decide (entry.2.viewExtent = some view)

def unmapFailure : SharedMemoryError → Halt VmemUnmapError
  | .unaligned => .error (.unmapError .unaligned)
  | .unsupportedByPlatform | .outOfMemory | .addressInUse => .error (.unmapError .alreadyUnallocated)

def removeShared (range : Span) (overlap : Span × Span) : Prog (Vmem H) (Halt VmemUnmapError) Unit := do
  let (fragment, view) := overlap
  let v ← get
  if v.emptiesView range fragment view then (platform.unmapShared view).mapError unmapFailure
  else
    match range.inter? fragment with
    | some revoked => do
      -- A failure to revoke access is swallowed.
      let _ ← (platform.protect revoked 0).attempt
    | none => pure ()

def removeMapping (range : Span) : Prog (Vmem H) (Halt VmemUnmapError) Unit := do
  let v ← get
  (v.sharedOverlaps range).forM (removeShared platform range)
  when (v.sharedOverlaps range = []) ((platform.deallocate range).mapError fun failure => .error (.unmapError failure))
  releaseMappingClaim range
  modify (·.removeVma range)

/-! ## Inserting -/

/-- A hint that ends behind the address space is moved down to fit. -/
def slide (range : PageRange) (behavior : FixedAddressBehavior) : PageRange :=
  if range.stop > platform.taskAddrMax ∧ behavior = .hint then
    let start := (platform.taskAddrMax - range.length) / pageSize * pageSize
    if range.length ≤ platform.taskAddrMax ∧ platform.taskAddrMin ≤ start then
      (PageRange.new start (start + range.length)).getD range
    else range
  else range

def anyOverlapping (range : Span) (test : VmArea H → Bool) : Bool :=
  v.vmas.entries.any fun entry => decide (entry.1.Overlaps range) && test entry.2

/-- The refusals of a fixed placement. -/
def checkFixed (range : Span) : FixedAddressBehavior → Option AllocationError
  | .hint => none
  | .noReplace => if v.vmas.overlaps range.start range.stop then some .addressInUse else none
  | .replace =>
    if v.vmas.overlaps range.start range.stop then
      if v.anyOverlapping range fun vma => vma.flags.contains .vmForeignLiveNeverReplace then some .addressPartiallyInUse
      else if v.vmas.hasGap range && v.anyOverlapping range fun vma => !vma.flags.isEmpty then some .addressPartiallyInUse
      else none
    else none

def accessPermissions (flags : VmFlags) : MemoryRegionPermissions := (flags &&& vmAccessFlags).setWidth 8

def mapFailure : SharedMemoryError → Halt AllocationError
  | .addressInUse => .error .addressInUseByPlatform
  | .outOfMemory => .error .outOfMemory
  | .unaligned => .error .unaligned
  | .unsupportedByPlatform => .error .outOfMemory

def allocateFailure : AllocationError → Halt AllocationError
  | .addressInUse => .error .addressInUseByPlatform
  | other => .error other

/-- Maps a view with the widest permissions and narrows it to those of the area. -/
def placeShared (handle : H) (range : Span) (flags : VmFlags) (behavior : FixedAddressBehavior) :
    Prog (Vmem H) (Halt AllocationError) ℕ := do
  let widest := MemoryRegionPermissions.read ||| .write ||| .exec ||| flags.writeQualifier
  let base ← (platform.mapShared handle range widest behavior).mapError mapFailure
  let actual := accessPermissions flags ||| flags.writeQualifier
  when (actual ≠ widest) ((platform.protect (range.at_ base) actual).mapError fun _ =>
    .panic "failed to narrow newly-mapped shared memory permissions")
  pure base

def placePrivate (range : Span) (flags : VmFlags) (populate : Bool) (behavior : FixedAddressBehavior) :
    Prog (Vmem H) (Halt AllocationError) ℕ :=
  (platform.allocate range (accessPermissions flags) (flags.contains .vmGrowsDown) populate behavior).mapError allocateFailure

def place (range : Span) (vma : VmArea H) (populate : Bool) (behavior : FixedAddressBehavior) :
    Prog (Vmem H) (Halt AllocationError) ℕ :=
  match vma.sharedHandle with
  | some handle => placeShared platform handle range vma.flags behavior
  | none => placePrivate platform range vma.flags populate behavior

/-- The area as it is tracked once the platform has placed it. -/
def placedArea (vma : VmArea H) (range : Span) : VmArea H :=
  if vma.sharedHandle.isSome then { vma with viewBase := range.start, viewLen := range.length } else vma

def insertMapping (suggested : PageRange) (vma : VmArea H) (populate : Bool)
    (behavior : FixedAddressBehavior) : Prog (Vmem H) (Halt AllocationError) ℕ := do
  let range := (slide platform suggested behavior).toSpan
  when (range.start < platform.taskAddrMin) (fail (.error .belowMinAddress))
  when (range.stop > platform.taskAddrMax) (fail (.error .aboveMaxAddress))
  let v ← get
  failOn ((v.checkFixed range behavior).map .error)
  let base ← place platform range vma populate behavior
  modify (·.insertVma (range.at_ base) (placedArea vma (range.at_ base)))
  pure base

/-! ## Protecting -/

/-- Replaces the part of a tracked area that lies in a range. -/
def splitVma (whole inner : Span) (vma changed : VmArea H) : Vmem H :=
  let v := v.insertVma inner (changed.withHeadroom whole.stop inner.stop)
  let v := (Span.make? whole.start inner.start).elim v fun before => v.insertVma before (vma.withHeadroom whole.stop before.stop)
  (Span.make? inner.stop whole.stop).elim v fun after => v.insertVma after (vma.withHeadroom whole.stop after.stop)

@[simp] theorem calls_splitVma (whole inner : Span) (vma changed : VmArea H) :
    (v.splitVma whole inner vma changed).calls = v.calls := by
  simp only [splitVma]
  cases Span.make? whole.start inner.start <;> cases Span.make? inner.stop whole.stop <;> rfl

def missingMay (flags requested : VmFlags) : VmFlags := ~~~(flags >>> 4) &&& requested &&& vmAccessFlags

def protectOne (range : Span) (permissions : MemoryRegionPermissions) (entry : Span × VmArea H) :
    Prog (Vmem H) (Halt VmemProtectError) Unit := do
  let (whole, vma) := entry
  let flags := permissions.setWidth 32 &&& vmAccessFlags
  if vma.flags &&& vmAccessFlags = flags then pure ()
  else if missingMay vma.flags flags ≠ 0 then fail (.error (.noAccess vma.flags flags))
  else
    match range.inter? whole with
    | none => pure ()
    | some inner => do
      modify (·.removeVma whole)
      match ← (platform.protect inner (permissions ||| vma.flags.writeQualifier)).attempt with
      | .error failure =>
        modify (·.insertVma whole vma)
        fail (.error (.protectError failure))
      | .ok () =>
        modify (·.splitVma whole inner vma { vma with flags := (vma.flags &&& ~~~vmAccessFlags) ||| flags })

def protectMapping (range : Span) (permissions : MemoryRegionPermissions) :
    Prog (Vmem H) (Halt VmemProtectError) Unit := do
  let v ← get
  let mappings := v.vmas.overlapping range.start range.stop
  when (mappings = []) (fail (.error (.invalidRange range)))
  mappings.forM (protectOne platform range permissions)

def updateOne (range : Span) (set clear : VmFlags) (entry : Span × VmArea H) : Prog (Vmem H) (Halt VmemProtectError) Unit :=
  let (whole, vma) := entry
  let advised := { vma with flags := (vma.flags ||| set) &&& ~~~clear }
  if range.Covers whole then modify fun v => (v.removeVma whole).insertVma whole advised
  else
    match range.inter? whole with
    | none => pure ()
    | some inner => modify fun v => (v.removeVma whole).splitVma whole inner vma advised

def updateRangeFlags (range : Span) (set clear : VmFlags) : Prog (Vmem H) (Halt VmemProtectError) Unit := do
  let v ← get
  let mappings := v.vmas.overlapping range.start range.stop
  when (mappings = []) (fail (.error (.invalidRange range)))
  mappings.forM (updateOne range set clear)

/-! ## Placing new mappings -/

def stackGuardGap : ℕ := 256 * 4096
def mappingGuardGap : ℕ := if platform.guardGapDisabled then 0 else 4096
def windowsAllocationGranularity : ℕ := 0x10000
def defaultReservedSpaceSize : ℕ := 0x1000000

/-- Walks down from the top past the mappings that occupy it. -/
def probeDown (vmas : RangeMap (VmArea H)) (size lowLimit : ℕ) (isGrowsdown : Bool) : ℕ → List (Span × VmArea H) → Option ℕ
  | _, [] => none
  | probe, (r, vma) :: rest =>
    if r.start ≥ probe + size then probeDown vmas size lowLimit isGrowsdown probe rest
    else if probe ≥ lowLimit ∧ vmas.overlaps probe (probe + size) = false then some probe
    else
      let gap := if vma.flags.contains .vmGrowsDown then 2 * stackGuardGap else if isGrowsdown then stackGuardGap else 0
      if r.start < size + gap ∨ r.start - (size + gap) < lowLimit then none
      else probeDown vmas size lowLimit isGrowsdown (r.start - (size + gap)) rest

/-- The gaps between ranges, from the top. -/
def gapBelow (platform : Platform H) (vmas : RangeMap (VmArea H)) (size : ℕ) (isGrowsdown : Bool) :
    List (Span × VmArea H) → Option ℕ
  | [] => none
  | (r, vma) :: rest =>
    let gapBelowR := if vma.flags.contains .vmGrowsDown then 2 * stackGuardGap else 0
    let gapAboveNew := if isGrowsdown then stackGuardGap else mappingGuardGap platform
    let needed := size + max gapBelowR gapAboveNew
    let start := r.start - needed
    if needed ≤ r.start ∧ platform.taskAddrMin ≤ start ∧ start ≤ platform.taskAddrMax - size ∧
        vmas.overlaps start (start + size) = false then some start
    else gapBelow platform vmas size isGrowsdown rest

/-- The top-down search. -/
def searchTopDown (vmas : RangeMap (VmArea H)) (size : ℕ) (isGrowsdown : Bool) : Option ℕ :=
  let lowLimit := platform.taskAddrMin
  let highLimit := platform.taskAddrMax - size
  let lastEnd := (vmas.lastRangeValue.map fun entry => entry.1.stop).getD lowLimit
  let gaps := gapBelow platform vmas size isGrowsdown vmas.entries.reverse
  if lastEnd ≤ highLimit then
    if isGrowsdown ∧ lastEnd > lowLimit then
      if highLimit < stackGuardGap then none
      else if lastEnd ≤ highLimit - stackGuardGap then some (highLimit - stackGuardGap)
      else gaps
    else
      let gap := mappingGuardGap platform
      if gap = 0 ∨ lastEnd ≤ highLimit - gap then some (highLimit - gap) else some highLimit
  else (probeDown vmas size lowLimit isGrowsdown highLimit vmas.entries.reverse).or gaps

def getUnmmapedArea (vmas : RangeMap (VmArea H)) (suggested : Option NonZeroAddress) (size : ℕ)
    (fixedAddr isGrowsdown : Bool) : Option ℕ :=
  if size > platform.taskAddrMax then none
  else
    match suggested with
    | some hint =>
      if platform.taskAddrMax - size < hint.address then none
      else if fixedAddr ∨ vmas.overlaps hint.address (hint.address + size) = false then some hint.address
      else searchTopDown platform vmas size isGrowsdown
    | none => if fixedAddr then some 0 else searchTopDown platform vmas size isGrowsdown

/-- The base of a shared view is placed at the platform's allocation granularity. -/
def sharedViewBase (vmas : RangeMap (VmArea H)) (suggested : Option NonZeroAddress)
    (size : ℕ) (isGrowsdown : Bool) : Option ℕ := do
  let searchLen := if size + windowsAllocationGranularity ≤ usizeMax then size + windowsAllocationGranularity else size
  let addr ← getUnmmapedArea platform vmas suggested searchLen false isGrowsdown
  let aligned := (addr + (windowsAllocationGranularity - 1)) / windowsAllocationGranularity * windowsAllocationGranularity
  if platform.taskAddrMin ≤ aligned ∧ aligned + size ≤ platform.taskAddrMax then some aligned else none

structure CreatePagesFlags where
  fixedAddr : Bool := false
  isStack : Bool := false
  populatePagesImmediately : Bool := false
  ensureSpaceAfter : Bool := false
  mapFile : Bool := false
  noreplace : Bool := false
  shared : Bool := false

def CreatePagesFlags.behavior (flags : CreatePagesFlags) : FixedAddressBehavior :=
  if flags.fixedAddr then if flags.noreplace then .noReplace else .replace else .hint

def createMapping (suggested : Option NonZeroAddress) (length : NonZeroPageSize) (vma : VmArea H)
    (flags : CreatePagesFlags) : Prog (Vmem H) (Halt AllocationError) ℕ := do
  let reservedExtra := if flags.ensureSpaceAfter then defaultReservedSpaceSize else 0
  let vma := { vma with reservedExtra }
  let total := length.size + reservedExtra
  when (total > usizeMax) (fail (.panic "attempt to add with overflow"))
  let v ← get
  let isGrowsdown := vma.flags.contains .vmGrowsDown
  let address ← ofOption (.error .outOfMemory)
    (if !flags.fixedAddr && vma.sharedHandle.isSome then sharedViewBase platform v.vmas suggested total isGrowsdown
      else getUnmmapedArea platform v.vmas suggested total flags.fixedAddr isGrowsdown)
  let range ← ofOption (.error .unaligned) (PageRange.new address (address + length.size))
  insertMapping platform range vma flags.populatePagesImmediately flags.behavior

def liftMapping : Halt AllocationError → Halt MappingError
  | .error failure => .error (.mapError failure)
  | .panic what => .panic what

/-- The area of a new mapping; an anonymous shared one gets an object of its own. -/
def newArea (size : ℕ) (flags : CreatePagesFlags) (vmFlags : VmFlags) :
    Prog (Vmem H) (Halt MappingError) (VmArea H) :=
  if flags.shared && !flags.mapFile then do
    let handle ← (platform.createShared size).mapError fun _ => .error (.mapError .outOfMemory)
    pure (VmArea.newShared vmFlags flags.mapFile handle)
  else pure (VmArea.new vmFlags flags.mapFile)

def createPages (suggested : Option NonZeroAddress) (length : NonZeroPageSize)
    (flags : CreatePagesFlags) (permissions : MemoryRegionPermissions) : Prog (Vmem H) (Halt MappingError) ℕ := do
  let access ← ofOption (.panic "SHARED permission is not supported yet") (ofPermissions? permissions)
  let vmFlags := access ||| mayFlagsForMapping flags.shared flags.mapFile |||
    (if flags.isStack then vmGrowsDown else 0)
  let vma ← newArea platform length.size flags vmFlags
  (createMapping platform suggested length vma flags).mapError liftMapping

end Vmem

end LiteBox.Mm
