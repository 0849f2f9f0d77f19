import LiteBox.Lib.Clusters
import LiteBox.Mm.Vmem

/-! # Duplicating an address space

`duplicate` copies the mappings of a forking process into a new manager. Shared mappings are mapped again
wherever the platform finds room. Private mappings that lie close together move as one group: room for
the whole group is reserved first, and each mapping then replaces its part of the reservation.
-/

namespace LiteBox.Mm

open Prog

variable {H : Type} [DecidableEq H]

/-- An entry of the relocation list. -/
structure DuplicatedRange where
  source : Span
  destBase : ℕ
  (isExecutable isPrivateData isFileBacked : Bool)
  flags : VmFlags

/-- A group, rounded out to the allocation granularity where that does not collide with its neighbours. -/
structure GroupRelocation where
  (sourceStart sourceStop destBase : ℕ)

structure DuplicateOutcome where
  relocations : List DuplicatedRange
  groupRelocations : List GroupRelocation

/-- Addition of lengths to an address, cut off at the last address. -/
def saturatingAdd (a b : ℕ) : ℕ := max a (min (a + b) usizeMax)

def maxIntraGroupGap : ℕ := 64 * 1024 * 1024

def allocationFailure : Halt AllocationError → Halt VmemDuplicateError
  | .error failure => .error (.allocation failure)
  | .panic what => .panic what

def protectFailure : Halt VmemProtectError → Halt VmemDuplicateError
  | .error _ => .error .destUnwritable
  | .panic what => .panic what

namespace VmArea

def isPrivateDataRange (vma : VmArea H) : Bool :=
  vma.sharedHandle.isNone && !vma.flags.contains .vmGrowsDown && vma.flags.contains .vmWrite && !vma.flags.contains .vmExec

/-- What stands for the part of a group's reservation that no mapping replaces. -/
def placeholder : VmArea H := .new (.vmOwnForkPadding ||| .vmMayAccessFlags) false

/-- The area of a copy while it is filled. -/
def writableCopy (vma : VmArea H) : VmArea H :=
  { VmArea.new ((vma.flags &&& ~~~.vmAccessFlags) ||| .vmRead ||| .vmWrite) vma.isFileBacked with
    reservedExtra := vma.reservedExtra }

end VmArea

namespace Vmem

/-- The guest's own mappings: neither reserved by the host nor marked as another process's memory. -/
def regions (v : Vmem H) : List (Span × VmArea H) :=
  v.vmas.entries.filter fun entry => !entry.2.flags.isEmpty && !entry.2.flags.contains .vmForeignLiveNeverReplace

/-! ## Groups -/

/-- A mapping with the address space that is kept free behind it. -/
def reservedExtent (region : Span × VmArea H) : Span :=
  ⟨region.1.start, saturatingAdd region.1.stop region.2.reservedExtra, lt_max_of_lt_left region.1.nonempty⟩

def sortedNonShared (regions : List (Span × VmArea H)) : List Span :=
  ((regions.filter fun region => region.2.sharedHandle.isNone).map reservedExtent).insertionSort fun r s => r.start ≤ s.start

def groups (regions : List (Span × VmArea H)) : List Span :=
  Clusters.ofSorted (saturatingAdd · maxIntraGroupGap) (sortedNonShared regions)

/-- Reserves room for each group. -/
def placeGroups (platform : Platform H) : List Span → Prog (Vmem H) (Halt VmemDuplicateError) (List (Span × ℕ))
  | [] => pure []
  | group :: rest => do
    let span ← ofOption (.error .unAligned) (PageRange.new group.start group.stop)
    let base ← (insertMapping platform span .placeholder false .hint).mapError allocationFailure
    let others ← placeGroups platform rest
    pure ((group, base) :: others)

def roundDownGranularity (a : ℕ) : ℕ := a / windowsAllocationGranularity * windowsAllocationGranularity

def roundUpGranularity (a : ℕ) : ℕ :=
  (a + (windowsAllocationGranularity - 1)) / windowsAllocationGranularity * windowsAllocationGranularity

/-- The groups as they are reported; `before` is the rounded end of the group before. -/
def groupRelocations (before : Option ℕ) : List (Span × ℕ) → List GroupRelocation
  | [] => []
  | (group, base) :: rest =>
    let start := roundDownGranularity group.start
    let stop := roundUpGranularity group.stop
    let collidesWithPrev := before.any fun stopBefore => decide (start < stopBefore)
    let collidesWithNext := rest.head?.any fun next => decide (stop > roundDownGranularity next.1.start)
    (if collidesWithPrev || collidesWithNext then ⟨group.start, group.stop, base⟩ else ⟨start, stop, base⟩) ::
      groupRelocations (some stop) rest

/-! ## Regions -/

/-- The place of a private mapping inside the reservation of its group. -/
def forcedRange (groupBases : List (Span × ℕ)) (range : PageRange) : Prog (Vmem H) (Halt VmemDuplicateError) PageRange := do
  let found ← ofOption (.panic "every non-shared region falls within a group by construction")
    (groupBases.find? fun entry => decide (entry.1.Covers range.toSpan))
  let forced := found.2 + (range.start - found.1.start)
  ofOption (.error .unAligned) (PageRange.new forced (forced + range.length))

/-- Takes the permissions of a filled copy down to those of its source. -/
def narrowCopy (platform : Platform H) (vma : VmArea H) (base length : ℕ) : Prog (Vmem H) (Halt VmemDuplicateError) Unit :=
  when (vma.flags &&& .vmAccessFlags ≠ vma.writableCopy.flags &&& .vmAccessFlags) do
    let range ← ofOption (.error .unAligned) (PageRange.new base (base + length))
    (protectMapping platform range.toSpan (.ofFlags vma.flags)).mapError protectFailure

def copyRegion (platform : Platform H) (range forced : PageRange) (vma : VmArea H) :
    Prog (Vmem H) (Halt VmemDuplicateError) ℕ := do
  let v ← Prog.get
  when (platform.readable v.calls range.toSpan = false) (fail (.error .sourceUnreadable))
  let base ← (insertMapping platform forced vma.writableCopy true .replace).mapError allocationFailure
  let v ← Prog.get
  when (platform.writable v.calls (forced.at_ base) = false) (fail (.error .destUnwritable))
  narrowCopy platform vma base range.length
  pure base

def duplicatePrivate (platform : Platform H) (groupBases : List (Span × ℕ)) (range : PageRange) (vma : VmArea H) :
    Prog (Vmem H) (Halt VmemDuplicateError) ℕ := do
  let forced ← forcedRange groupBases range
  if vma.flags &&& .vmAccessFlags = 0 then
    (insertMapping platform forced (.new vma.flags vma.isFileBacked) false .replace).mapError allocationFailure
  else copyRegion platform range forced vma

def duplicateArea (platform : Platform H) (groupBases : List (Span × ℕ)) (range : PageRange) (vma : VmArea H) :
    Prog (Vmem H) (Halt VmemDuplicateError) ℕ :=
  match vma.sharedHandle with
  | some handle =>
    (insertMapping platform range (.newShared vma.flags vma.isFileBacked handle) false .hint).mapError allocationFailure
  | none => duplicatePrivate platform groupBases range vma

def relocation (range : Span) (vma : VmArea H) (base : ℕ) : DuplicatedRange :=
  ⟨range, base, vma.flags.contains .vmExec, vma.isPrivateDataRange, vma.isFileBacked, vma.flags⟩

/-- A mapping that is withheld from the child leaves a hole. -/
def duplicateRegion (platform : Platform H) (groupBases : List (Span × ℕ)) (region : Span × VmArea H) :
    Prog (Vmem H) (Halt VmemDuplicateError) (Option DuplicatedRange) :=
  if region.2.flags.contains .vmDontFork then pure none
  else do
    let range ← ofOption (.error .unAligned) (PageRange.new region.1.start region.1.stop)
    let base ← duplicateArea platform groupBases range region.2
    pure (some (relocation region.1 region.2 base))

def duplicateRegions (platform : Platform H) (groupBases : List (Span × ℕ)) :
    List (Span × VmArea H) → Prog (Vmem H) (Halt VmemDuplicateError) (List DuplicatedRange)
  | [] => pure []
  | region :: rest => do
    let one ← duplicateRegion platform groupBases region
    let others ← duplicateRegions platform groupBases rest
    pure (one.toList ++ others)

/-- The break moves with the mapping that contains it, the last one if there were several. -/
def relocatedBrk (brk : ℕ) (relocations : List DuplicatedRange) : ℕ :=
  match if brk = 0 then none else relocations.reverse.find? fun relocation => decide (brk ∈ relocation.source) with
  | some relocation => relocation.destBase + (brk - relocation.source.start)
  | none => brk

/-- Duplicates `source` into the manager that the program runs on. -/
def duplicate (platform : Platform H) (source : Vmem H) : Prog (Vmem H) (Halt VmemDuplicateError) DuplicateOutcome := do
  let groupBases ← placeGroups platform (groups source.regions)
  when (groupBases.any fun entry => decide (entry.1.stop + (windowsAllocationGranularity - 1) > usizeMax))
    (fail (.panic "attempt to add with overflow"))
  let relocations ← duplicateRegions platform groupBases source.regions
  Prog.modify ({ · with brk := relocatedBrk source.brk relocations })
  pure ⟨relocations, groupRelocations none groupBases⟩

end Vmem

end LiteBox.Mm
