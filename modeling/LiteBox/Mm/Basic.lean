import LiteBox.Lib.RangeMap
import LiteBox.Lib.Prog

/-! # Memory areas and the platform below them

The flags and areas of the virtual memory manager, page ranges, and the platform that provides the
pages. The platform is known by its answers: it may answer a call in any way, depending on all the
calls so far, and the manager keeps the list of its calls with their answers.
-/

namespace LiteBox.Mm

def pageSize : ℕ := 4096

def usizeMax : ℕ := 2 ^ 64 - 1

def isizeMax : ℕ := 2 ^ 63 - 1

/-! ## Flags -/

abbrev VmFlags := BitVec 32

namespace VmFlags

def vmRead : VmFlags := 0x1
def vmWrite : VmFlags := 0x2
def vmExec : VmFlags := 0x4
def vmShared : VmFlags := 0x8
def vmMayRead : VmFlags := 0x10
def vmMayWrite : VmFlags := 0x20
def vmMayExec : VmFlags := 0x40
def vmMayShare : VmFlags := 0x80
def vmGrowsDown : VmFlags := 0x100
def vmOwnForkPadding : VmFlags := 0x200
def vmForeignLiveNeverReplace : VmFlags := 0x400
def vmPrivateFileCow : VmFlags := 0x800
def vmDontFork : VmFlags := 0x1000
def vmAccessFlags : VmFlags := vmRead ||| vmWrite ||| vmExec
def vmMayAccessFlags : VmFlags := vmMayRead ||| vmMayWrite ||| vmMayExec

def contains (flags other : VmFlags) : Bool := flags &&& other == other

def isEmpty (flags : VmFlags) : Bool := flags == 0

def mayFlagsForMapping (shared fileBacked : Bool) : VmFlags :=
  (if shared && fileBacked then vmMayAccessFlags &&& ~~~vmMayWrite else vmMayAccessFlags) ||| (if shared then vmShared else 0)

end VmFlags

abbrev MemoryRegionPermissions := BitVec 8

namespace MemoryRegionPermissions

def read : MemoryRegionPermissions := 0x1
def write : MemoryRegionPermissions := 0x2
def exec : MemoryRegionPermissions := 0x4
def shared : MemoryRegionPermissions := 0x8
def copyOnWrite : MemoryRegionPermissions := 0x10

/-- The access flags and the shared flag have the same bits in both words. -/
def ofFlags (flags : VmFlags) : MemoryRegionPermissions := (flags &&& 0xf).setWidth 8

end MemoryRegionPermissions

namespace VmFlags

open MemoryRegionPermissions in
/-- The qualifier that every platform call on the area's memory carries. -/
def writeQualifier (flags : VmFlags) : MemoryRegionPermissions := if flags.contains vmPrivateFileCow then copyOnWrite else 0

/-- `SHARED` is not supported here and panics in the source. -/
def ofPermissions? (permissions : MemoryRegionPermissions) : Option VmFlags :=
  if permissions &&& MemoryRegionPermissions.shared = 0 then some ((permissions &&& 0x7).setWidth 32) else none

end VmFlags

/-! ## Page ranges -/

/-- A non-empty range of whole pages. -/
structure PageRange extends Span where
  alignedStart : pageSize ∣ start
  alignedStop : pageSize ∣ stop

def PageRange.new (start stop : ℕ) : Option PageRange :=
  if valid : pageSize ∣ start ∧ pageSize ∣ stop ∧ start < stop then some ⟨⟨start, stop, valid.2.2⟩, valid.1, valid.2.1⟩
  else none

theorem PageRange.new_eq_some {start stop : ℕ} {range : PageRange} :
    PageRange.new start stop = some range ↔ range.start = start ∧ range.stop = stop := by
  constructor
  · intro made
    simp only [PageRange.new] at made
    split at made
    · cases made
      exact ⟨rfl, rfl⟩
    · cases made
  · rintro ⟨rfl, rfl⟩
    exact dif_pos ⟨range.alignedStart, range.alignedStop, range.nonempty⟩

theorem PageRange.new_eq_none {start stop : ℕ} :
    PageRange.new start stop = none ↔ ¬(pageSize ∣ start ∧ pageSize ∣ stop ∧ start < stop) := by
  simp [PageRange.new]

/-- A non-zero number of whole pages, in bytes. -/
structure NonZeroPageSize where
  size : ℕ
  positive : 0 < size
  aligned : pageSize ∣ size

/-- A non-zero page address. -/
structure NonZeroAddress where
  address : ℕ
  nonzero : address ≠ 0
  aligned : pageSize ∣ address

/-! ## Areas -/

variable {H : Type} [DecidableEq H]

/-- A tracked area; `H` is the type of the platform's shared-memory handles. -/
structure VmArea (H : Type) where
  flags : VmFlags
  isFileBacked : Bool
  sharedHandle : Option H
  (reservedExtra viewBase viewLen : ℕ)
deriving DecidableEq

namespace VmArea

def new (flags : VmFlags) (isFileBacked : Bool) : VmArea H := ⟨flags, isFileBacked, none, 0, 0, 0⟩

def newShared (flags : VmFlags) (isFileBacked : Bool) (handle : H) : VmArea H := ⟨flags, isFileBacked, some handle, 0, 0, 0⟩

/-- The `PartialEq` by which adjacent areas are joined: two private areas are never equal. -/
def same (a b : VmArea H) : Bool :=
  if a.sharedHandle.isNone && b.sharedHandle.isNone then false
  else a.flags == b.flags && a.isFileBacked == b.isFileBacked && a.sharedHandle == b.sharedHandle &&
    a.viewBase == b.viewBase && a.viewLen == b.viewLen

/-- The full extent of the real view behind a shared area. -/
def viewExtent (vma : VmArea H) : Option Span :=
  if vma.sharedHandle.isSome then Span.make? vma.viewBase (vma.viewBase + vma.viewLen) else none

/-- A slice of an area keeps the headroom only if it ends where the area ended. -/
def withHeadroom (stop sliceStop : ℕ) (vma : VmArea H) : VmArea H :=
  if sliceStop ≠ stop then { vma with reservedExtra := 0 } else vma

theorem same_of_private {vma : VmArea H} (isPrivate : vma.sharedHandle = none) (other : VmArea H) : other.same vma = false := by
  simp only [same, isPrivate]
  cases handle : other.sharedHandle <;> simp

theorem eq_of_same {a b : VmArea H} (alike : a.same b = true) : a.flags = b.flags ∧ a.isFileBacked = b.isFileBacked ∧
    a.sharedHandle = b.sharedHandle ∧ a.viewBase = b.viewBase ∧ a.viewLen = b.viewLen := by
  simp only [same] at alike
  split at alike
  · cases alike
  · simpa [and_assoc] using alike

theorem viewExtent_of_same {a b : VmArea H} (alike : a.same b = true) : a.viewExtent = b.viewExtent := by
  obtain ⟨-, -, handle, base, len⟩ := eq_of_same alike
  simp [viewExtent, handle, base, len]

@[simp] theorem viewExtent_of_private {vma : VmArea H} (isPrivate : vma.sharedHandle = none) : vma.viewExtent = none := by
  simp [viewExtent, isPrivate]

@[simp] theorem viewExtent_withHeadroom (stop sliceStop : ℕ) (vma : VmArea H) :
    (vma.withHeadroom stop sliceStop).viewExtent = vma.viewExtent := by
  simp only [withHeadroom]
  split <;> rfl

end VmArea

/-! ## The platform -/

inductive FixedAddressBehavior where
  | hint
  | replace
  | noReplace
deriving DecidableEq

inductive AllocationError where
  | unaligned
  | belowMinAddress
  | aboveMaxAddress
  | outOfMemory
  | addressInUse
  | addressInUseByPlatform
  | addressPartiallyInUse
deriving DecidableEq

inductive DeallocationError where
  | unaligned
  | alreadyUnallocated
deriving DecidableEq

inductive PermissionUpdateError where
  | unaligned
  | unallocated
  | refused
deriving DecidableEq

inductive SharedMemoryError where
  | unsupportedByPlatform
  | unaligned
  | outOfMemory
  | addressInUse
deriving DecidableEq

inductive RemapError where
  | unaligned
  | alreadyUnallocated
  | overlapping
  | alreadyAllocated
  | outOfMemory
deriving DecidableEq

/-- A call of the platform, with its answer. -/
inductive Call (H : Type) where
  | allocatePages (range : Span) (permissions : MemoryRegionPermissions) (canGrowDown populate : Bool)
      (behavior : FixedAddressBehavior) (answer : Except AllocationError ℕ)
  | deallocatePages (range : Span) (answer : Except DeallocationError Unit)
  | updatePermissions (range : Span) (permissions : MemoryRegionPermissions) (answer : Except PermissionUpdateError Unit)
  | releaseMappingClaim (range : Span)
  | createSharedMemory (size : ℕ) (answer : Except SharedMemoryError H)
  | mapSharedMemory (handle : H) (range : Span) (permissions : MemoryRegionPermissions) (behavior : FixedAddressBehavior)
      (answer : Except SharedMemoryError ℕ)
  | unmapSharedMemory (range : Span) (answer : Except SharedMemoryError Unit)
  | closeSharedMemory (handle : H) (answer : Except SharedMemoryError Unit)
  | remapPages (old new : Span) (permissions : MemoryRegionPermissions) (answer : Except RemapError ℕ)

/-- What a platform answers, given the calls so far. -/
structure Platform (H : Type) where
  (taskAddrMin taskAddrMax : ℕ)
  guardGapDisabled : Bool
  allocatePages : List (Call H) → Span → MemoryRegionPermissions → Bool → Bool → FixedAddressBehavior → Except AllocationError ℕ
  deallocatePages : List (Call H) → Span → Except DeallocationError Unit
  updatePermissions : List (Call H) → Span → MemoryRegionPermissions → Except PermissionUpdateError Unit
  createSharedMemory : List (Call H) → ℕ → Except SharedMemoryError H
  mapSharedMemory : List (Call H) → H → Span → MemoryRegionPermissions → FixedAddressBehavior → Except SharedMemoryError ℕ
  unmapSharedMemory : List (Call H) → Span → Except SharedMemoryError Unit
  closeSharedMemory : List (Call H) → H → Except SharedMemoryError Unit := fun _ _ => .ok ()
  remapPages : List (Call H) → Span → Span → MemoryRegionPermissions → Except RemapError ℕ := fun _ _ new _ => .ok new.start
  /-- The bytes of a range can be read, and written. -/
  (readable writable : List (Call H) → Span → Bool)

/-! ## The manager -/

structure Vmem (H : Type) where
  brk : ℕ
  vmas : RangeMap (VmArea H)
  calls : List (Call H)

inductive VmemUnmapError where
  | unAligned
  | unmapError (failure : DeallocationError)
deriving DecidableEq

inductive VmemProtectError where
  | unAligned (range : Span)
  | invalidRange (range : Span)
  | noAccess (old new : VmFlags)
  | protectError (failure : PermissionUpdateError)
deriving DecidableEq

inductive MappingError where
  | unAligned
  | outOfMemory
  | mapError (failure : AllocationError)
deriving DecidableEq

inductive VmemResetError where
  | unAligned
  | alreadyUnallocated
  | fileBacked
deriving DecidableEq

inductive VmemDuplicateError where
  | unAligned
  | sourceUnreadable
  | destUnwritable
  | allocation (failure : AllocationError)
deriving DecidableEq

end LiteBox.Mm
