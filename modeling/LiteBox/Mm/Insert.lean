import LiteBox.Mm.Unmap

/-! # What an insertion does

Every way in which `insert_mapping` can end, with the platform call that placed the range.
-/

namespace LiteBox.Mm

open Vmem Prog Platform

variable {H : Type} [DecidableEq H]

/-- A call that neither maps nor unmaps. -/
def Call.quiet : Call H → Prop
  | .updatePermissions _ _ _ => True
  | .createSharedMemory _ _ => True
  | .allocatePages _ _ _ _ _ (.error _) => True
  | .mapSharedMemory _ _ _ _ (.error _) => True
  | .deallocatePages _ (.error _) => True
  | _ => False

/-- The calls by which the platform has placed an area at `base`. -/
inductive PlacedBy (platform : Platform H) (calls : List (Call H)) (range : Span) (vma : VmArea H) (populate : Bool)
    (behavior : FixedAddressBehavior) (base : ℕ) : List (Call H) → Prop where
  | allocated (isPrivate : vma.sharedHandle = none)
      (answer : platform.allocatePages calls range (accessPermissions vma.flags) (vma.flags.contains .vmGrowsDown) populate
        behavior = .ok base) :
      PlacedBy platform calls range vma populate behavior base
        [.allocatePages range (accessPermissions vma.flags) (vma.flags.contains .vmGrowsDown) populate behavior (.ok base)]
  | mapped (handle : H) (permissions : MemoryRegionPermissions) (narrowed : List (Call H))
      (shared : vma.sharedHandle = some handle)
      (answer : platform.mapSharedMemory calls handle range permissions behavior = .ok base)
      (quiet : ∀ call ∈ narrowed, call.quiet) :
      PlacedBy platform calls range vma populate behavior base
        (.mapSharedMemory handle range permissions behavior (.ok base) :: narrowed)

/-- How `insert_mapping` for `range` ends: refused without an effect on what is mapped, in a panic, or with
the area placed and tracked. -/
inductive Inserted (platform : Platform H) (range : Span) (vma : VmArea H) (populate : Bool) (behavior : FixedAddressBehavior)
    (v : Vmem H) : Except (Halt AllocationError) ℕ × Vmem H → Prop where
  | refused (failure : AllocationError) (w : Vmem H) (asked : Asked Call.quiet v w) :
      Inserted platform range vma populate behavior v (.error (.error failure), w)
  | panicked (what : String) (w : Vmem H) : Inserted platform range vma populate behavior v (.error (.panic what), w)
  | placed (base : ℕ) (made : List (Call H)) (low : platform.taskAddrMin ≤ range.start) (high : range.stop ≤ platform.taskAddrMax)
      (free : v.checkFixed range behavior = none) (placedBy : PlacedBy platform v.calls range vma populate behavior base made) :
      Inserted platform range vma populate behavior v
        (.ok base, ({ v with calls := v.calls ++ made } : Vmem H).insertVma (range.at_ base) (placedArea vma (range.at_ base)))

variable (platform : Platform H)

/-- How the platform answers the request for a place. -/
theorem place_spec (range : Span) (vma : VmArea H) (populate : Bool) (behavior : FixedAddressBehavior)
    (v : Vmem H) :
    (∃ failure w, place platform range vma populate behavior v = (.error (.error failure), w) ∧ Asked Call.quiet v w) ∨
      (∃ what w, place platform range vma populate behavior v = (.error (.panic what), w)) ∨
      ∃ base made, place platform range vma populate behavior v = (.ok base, { v with calls := v.calls ++ made }) ∧
        PlacedBy platform v.calls range vma populate behavior base made := by
  cases shared : vma.sharedHandle with
  | none =>
    simp only [place, shared, placePrivate, allocate, ask, mapError]
    cases answer : platform.allocatePages v.calls range (accessPermissions vma.flags) (vma.flags.contains .vmGrowsDown)
        populate behavior with
    | error failure =>
      refine .inl ?_
      have refused : ∃ reason, allocateFailure failure = .error reason := by cases failure <;> exact ⟨_, rfl⟩
      obtain ⟨reason, eq⟩ := refused
      simp only [eq]
      refine ⟨reason, _, rfl, rfl, rfl, _, rfl, ?_⟩
      intro call member
      rw [List.mem_singleton.mp member]
      exact trivial
    | ok base => exact .inr (.inr ⟨base, _, rfl, .allocated shared answer⟩)
  | some handle =>
    simp only [place, shared, placeShared]
    generalize MemoryRegionPermissions.read ||| .write ||| .exec ||| vma.flags.writeQualifier = widest
    generalize accessPermissions vma.flags ||| vma.flags.writeQualifier = actual
    cases answer : platform.mapSharedMemory v.calls handle range widest behavior with
    | error failure =>
      refine .inl ?_
      have refused : ∃ reason, mapFailure failure = .error reason := by cases failure <;> exact ⟨_, rfl⟩
      obtain ⟨reason, eq⟩ := refused
      refine ⟨reason, { v with calls := v.calls ++ [.mapSharedMemory handle range widest behavior (.error failure)] }, ?_, rfl, rfl, _, rfl, ?_⟩
      · refine bind_of_error ?_
        simp [mapShared, ask, mapError, answer, eq]
      · intro call member
        rw [List.mem_singleton.mp member]
        exact trivial
    | ok base =>
      have mapped : (platform.mapShared handle range widest behavior).mapError mapFailure v =
          (.ok base, { v with calls := v.calls ++ [.mapSharedMemory handle range widest behavior (.ok base)] }) := by
        simp [mapShared, ask, mapError, answer]
      rw [bind_of_ok mapped]
      by_cases narrow : actual ≠ widest
      · rw [when, if_pos narrow]
        set u : Vmem H := { v with calls := v.calls ++ [.mapSharedMemory handle range widest behavior (.ok base)] }
        cases narrowed : platform.updatePermissions u.calls (range.at_ base) actual with
        | error failure =>
          refine .inr (.inl ⟨"failed to narrow newly-mapped shared memory permissions",
            { u with calls := u.calls ++ [.updatePermissions (range.at_ base) actual (.error failure)] }, ?_⟩)
          refine bind_of_error ?_
          simp [protect, ask, mapError, narrowed]
        | ok _ =>
          refine .inr (.inr ⟨base, .mapSharedMemory handle range widest behavior (.ok base) ::
            [.updatePermissions (range.at_ base) actual (.ok ())], ?_, .mapped handle widest _ shared answer ?_⟩)
          · have protects : (platform.protect (range.at_ base) actual).mapError
                (fun _ => (Halt.panic "failed to narrow newly-mapped shared memory permissions" : Halt AllocationError)) u =
                (.ok (), { u with calls := u.calls ++ [.updatePermissions (range.at_ base) actual (.ok ())] }) := by
              simp [protect, ask, mapError, narrowed]
            rw [bind_of_ok protects]
            simp [u]
          · intro call member
            rw [List.mem_singleton.mp member]
            exact trivial
      · rw [when, if_neg narrow]
        exact .inr (.inr ⟨base, _, rfl, .mapped handle widest [] shared answer (by simp)⟩)

theorem insertMapping_spec (suggested : PageRange) (vma : VmArea H) (populate : Bool)
    (behavior : FixedAddressBehavior) (v : Vmem H) :
    Inserted platform (slide platform suggested behavior).toSpan vma populate behavior v
      (insertMapping platform suggested vma populate behavior v) := by
  simp only [insertMapping]
  generalize (slide platform suggested behavior).toSpan = range
  by_cases low : range.start < platform.taskAddrMin
  · rw [when, if_pos low]
    exact .refused _ _ (.refl v)
  by_cases high : range.stop > platform.taskAddrMax
  · rw [when, if_neg low, when, if_pos high]
    exact .refused _ _ (.refl v)
  rw [when, if_neg low, when, if_neg high]
  simp only [bind_apply, pure_apply, get_apply]
  cases free : v.checkFixed range behavior with
  | some failure => exact .refused _ _ (.refl v)
  | none =>
    simp only [Option.map_none, Prog.failOn, pure_apply]
    obtain ⟨failure, w, ran, asked⟩ | ⟨what, w, ran⟩ | ⟨base, made, ran, placedBy⟩ :=
      place_spec platform range vma populate behavior v <;> rw [ran]
    · exact .refused _ _ asked
    · exact .panicked _ _
    · exact .placed base made (not_lt.mp low) (not_lt.mp high) free placedBy

omit [DecidableEq H] in
theorem slide_replace (range : PageRange) : slide platform range .replace = range := by
  simp [slide]

/-- The insertion of a private area, spelled out. -/
theorem insertMapping_private {vma : VmArea H} (isPrivate : vma.sharedHandle = none) (platform : Platform H) (suggested : PageRange)
    (populate : Bool) (behavior : FixedAddressBehavior) (v : Vmem H) :
    insertMapping platform suggested vma populate behavior v =
      let range := (slide platform suggested behavior).toSpan
      let access := accessPermissions vma.flags
      let canGrowDown := vma.flags.contains .vmGrowsDown
      if range.start < platform.taskAddrMin then (.error (.error .belowMinAddress), v)
      else if range.stop > platform.taskAddrMax then (.error (.error .aboveMaxAddress), v)
      else
        match v.checkFixed range behavior with
        | some failure => (.error (.error failure), v)
        | none =>
          let w := { v with calls := v.calls ++
            [.allocatePages range access canGrowDown populate behavior
              (platform.allocatePages v.calls range access canGrowDown populate behavior)] }
          match platform.allocatePages v.calls range access canGrowDown populate behavior with
          | .error failure => (.error (allocateFailure failure), w)
          | .ok base => (.ok base, w.insertVma (range.at_ base) vma) := by
  simp only [insertMapping]
  generalize (slide platform suggested behavior).toSpan = range
  by_cases low : range.start < platform.taskAddrMin
  · rw [if_pos low, when, if_pos low]
    rfl
  by_cases high : range.stop > platform.taskAddrMax
  · rw [if_neg low, if_pos high, when, if_neg low, when, if_pos high]
    rfl
  rw [if_neg low, if_neg high, when, if_neg low, when, if_neg high]
  simp only [bind_apply, pure_apply, get_apply]
  cases v.checkFixed range behavior with
  | some failure => rfl
  | none =>
    simp only [Option.map_none, Prog.failOn, pure_apply, place, isPrivate, placePrivate, mapError,
      allocate, ask, placedArea, Option.isSome_none, Bool.false_eq_true, if_false]
    cases platform.allocatePages v.calls range (accessPermissions vma.flags) (vma.flags.contains .vmGrowsDown) populate
      behavior <;> rfl

end LiteBox.Mm
