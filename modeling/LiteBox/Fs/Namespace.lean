import LiteBox.Fs.Composer
import Mathlib.Data.List.MinMax
import Mathlib.Data.Finset.Image

/-! # The tree of several mounts

Every path belongs to the deepest mount point at or above it. Mount points are directories, and so is every
path above one.
-/

namespace LiteBox.Fs

open List

variable {W D F : Type}

/-- The mount point as it is passed to the composer. -/
def Mount.raw (mount : Mount W D F) : Arg := some ("" :: if mount.path = [] then [""] else mount.path)

/-- A mount whose backend is a tree. -/
structure Volume (W D F : Type) extends Mount W D F where
  tree : FileTree
  walking : W → List String → Prop
  owned : D → List String → Prop
  realizes : backend.Realizes tree walking owned

/-- Volumes at distinct mount points. -/
structure Namespace (W D F : Type) where
  volumes : List (Volume W D F)
  nonempty : volumes ≠ []
  distinct : (volumes.map fun v => v.path).Nodup
  names : ∀ v ∈ volumes, ∀ name ∈ v.path, Path.IsName name

namespace Namespace

variable (ns : Namespace W D F)

/-- The volumes as they are passed to the composer. -/
def mounts : List (Arg × Backend W D F) := ns.volumes.map fun v => (v.toMount.raw, v.backend)

variable (path : List String)

def IsMountPoint : Prop := ∃ v ∈ ns.volumes, v.path = path

/-- Strictly above a mount point. -/
def IsAbove : Prop := ∃ v ∈ ns.volumes, v.toMount.Below path

def Related : Prop := ns.IsMountPoint path ∨ ns.IsAbove path

instance : DecidablePred ns.IsMountPoint := fun path => inferInstanceAs (Decidable (∃ v ∈ ns.volumes, v.path = path))

instance : DecidablePred ns.IsAbove := fun path => inferInstanceAs (Decidable (∃ v ∈ ns.volumes, v.toMount.Below path))

/-- The deepest volume at or above the path. -/
def owner : Option (Volume W D F) := (ns.volumes.filter fun v => v.path <+: path).argmax fun v => v.path.length

/-- What the owner of a path has there. -/
def ownedNode : Option TreeNode := (ns.owner path).bind fun v => v.tree.node (path.drop v.path.length)

/-- The names just below a path that lead to mount points. -/
def mountChildren : Finset String :=
  ((ns.volumes.filter fun v => v.toMount.Below path).filterMap fun v => v.path[path.length]?).toFinset

/-- Mount points hide what their names stand for in the backend around them. -/
def merged (entries : Multiset DirEntry) : Multiset DirEntry :=
  entries.filter (fun entry => entry.name ∉ ns.mountChildren path) + (ns.mountChildren path).val.map fun name => ⟨name, .directory, none⟩

/-- The volume around a mount point has something at its name, and it is no link. -/
def Underlaid (name : String) : Prop :=
  ∀ v dir, ns.owner path = some v → v.tree.node (path.drop v.path.length) = some (.dir dir) →
    match v.tree.node (path.drop v.path.length ++ [name]) with
    | none => False
    | some (.dir _) => True
    | some (.leaf leaf) => leaf.target = none

def node : Option TreeNode :=
  match ns.ownedNode path with
  | some (.dir dir) =>
    some (.dir ⟨if ns.IsMountPoint path then .byBackend else dir.permissions, dir.accepts, dir.entries.map (ns.merged path)⟩)
  | found => if ns.IsAbove path then some (.dir ⟨.byBackend, fun _ => .ok (), .ok (ns.merged path 0)⟩) else found

/-- The tree has a directory above a mount point where the owner has something else. -/
def Hides : Prop := ns.IsAbove path ∧ ¬ns.IsMountPoint path ∧ ∃ leaf, ns.ownedNode path = some (.leaf leaf)

/-! ## Mount points and paths -/

variable {ns} {path : List String} {name : String} {v : Volume W D F} {mount : Mount W D F}

theorem below_iff : mount.Below path ↔ path <+: mount.path ∧ mount.path ≠ path := by
  constructor
  · rintro ⟨short, above⟩
    refine ⟨above, ?_⟩
    rintro rfl
    exact lt_irrefl _ short
  · rintro ⟨above, other⟩
    exact ⟨lt_of_le_of_ne above.length_le fun same => other (above.eq_of_length same).symm, above⟩

theorem below_getElem :
    (mount.Below path ∧ mount.path[path.length]? = some name) ↔ path ++ [name] <+: mount.path := by
  constructor
  · rintro ⟨⟨-, rest, eq⟩, found⟩
    rw [← eq, getElem?_append_right (le_refl _), Nat.sub_self] at found
    cases rest with
    | nil => cases found
    | cons first rest =>
      obtain rfl : first = name := by simpa using found
      exact ⟨rest, by simpa using eq⟩
  · rintro ⟨rest, eq⟩
    rw [← eq]
    refine ⟨⟨by rw [← eq]; simp, ⟨name :: rest, by rw [← eq]; simp⟩⟩, by simp⟩

theorem related_child : ns.Related (path ++ [name]) ↔ ∃ v ∈ ns.volumes, path ++ [name] <+: v.path := by
  constructor
  · rintro (⟨v, mem, at_v⟩ | ⟨v, mem, below⟩)
    · exact ⟨v, mem, at_v ▸ prefix_refl _⟩
    · exact ⟨v, mem, below.2⟩
  · rintro ⟨v, mem, above⟩
    by_cases at_v : v.path = path ++ [name]
    · exact .inl ⟨v, mem, at_v⟩
    · exact .inr ⟨v, mem, below_iff.mpr ⟨above, at_v⟩⟩

theorem mem_mountChildren : name ∈ ns.mountChildren path ↔ ns.Related (path ++ [name]) := by
  rw [related_child, mountChildren, mem_toFinset, mem_filterMap]
  constructor
  · rintro ⟨v, mem, found⟩
    obtain ⟨mem, below⟩ := mem_filter.mp mem
    exact ⟨v, mem, below_getElem.mp ⟨of_decide_eq_true below, found⟩⟩
  · rintro ⟨v, mem, above⟩
    obtain ⟨below, found⟩ := below_getElem.mpr above
    exact ⟨v, mem_filter.mpr ⟨mem, decide_eq_true below⟩, found⟩

/-- Above a path that leads to a mount point. -/
theorem IsAbove.of_child (related : ns.Related (path ++ [name])) : ns.IsAbove path := by
  obtain ⟨v, mem, above⟩ := related_child.mp related
  exact ⟨v, mem, (below_getElem.mpr above).1⟩

theorem IsAbove.of_append {more : List String} (above : ns.IsAbove (path ++ more)) : ns.IsAbove path := by
  induction more using reverseRecOn with
  | nil => simpa using above
  | append_singleton more name ih => exact ih (.of_child (.inr (by simpa using above)))

/-! ## Owners -/

theorem owner_eq_some : ns.owner path = some v ↔
    v ∈ ns.volumes ∧ v.path <+: path ∧ ∀ u ∈ ns.volumes, u.path <+: path → u.path.length ≤ v.path.length := by
  let depth := fun u : Volume W D F => u.path.length
  have filtered {u : Volume W D F} : u ∈ ns.volumes.filter (fun v => v.path <+: path) ↔ u ∈ ns.volumes ∧ u.path <+: path := by
    simp [mem_filter]
  constructor
  · intro found
    obtain ⟨mem, above⟩ := filtered.mp (argmax_mem found)
    exact ⟨mem, above, fun u memU aboveU => le_of_mem_argmax (f := depth) (filtered.mpr ⟨memU, aboveU⟩) found⟩
  · rintro ⟨mem, above, deepest⟩
    cases found : ns.owner path with
    | none =>
      have none := argmax_eq_none.mp found
      rw [eq_nil_iff_forall_not_mem] at none
      exact absurd (filtered.mpr ⟨mem, above⟩) (none v)
    | some u =>
      obtain ⟨memU, aboveU⟩ := filtered.mp (argmax_mem found)
      have longer : v.path.length ≤ u.path.length := le_of_mem_argmax (f := depth) (filtered.mpr ⟨mem, above⟩) found
      have same : u.path = v.path :=
        List.IsPrefix.eq_of_length (prefix_of_prefix_length_le aboveU above (deepest u memU aboveU)) (le_antisymm (deepest u memU aboveU) longer)
      rw [inj_on_of_nodup_map ns.distinct memU mem same]

theorem owner_mountPoint (mem : v ∈ ns.volumes) : ns.owner v.path = some v :=
  owner_eq_some.mpr ⟨mem, prefix_refl _, fun _ _ above => above.length_le⟩

theorem owner_child (free : ¬ns.IsMountPoint (path ++ [name])) : ns.owner (path ++ [name]) = ns.owner path := by
  rw [owner, owner]
  congr 1
  refine filter_congr fun u mem => decide_eq_decide.mpr ?_
  rw [prefix_concat_iff]
  exact or_iff_right fun at_u => free ⟨u, mem, at_u⟩

theorem ownedNode_mountPoint (mem : v ∈ ns.volumes) : ns.ownedNode v.path = v.tree.node [] := by
  rw [ownedNode, owner_mountPoint mem, Option.bind_some, drop_length]

theorem drop_concat (owns : ns.owner path = some v) : (path ++ [name]).drop v.path.length = path.drop v.path.length ++ [name] :=
  drop_append_of_le_length (owner_eq_some.mp owns).2.1.length_le

theorem ownedNode_child (free : ¬ns.IsMountPoint (path ++ [name])) (owns : ns.owner path = some v) :
    ns.ownedNode (path ++ [name]) = v.tree.node (path.drop v.path.length ++ [name]) := by
  rw [ownedNode, owner_child free, owns, Option.bind_some, drop_concat owns]

/-- Nothing is below a path where the owner has no directory. -/
theorem ownedNode_closed (free : ¬ns.IsMountPoint (path ++ [name])) (found : ns.ownedNode (path ++ [name]) ≠ none) :
    ∃ dir, ns.ownedNode path = some (.dir dir) := by
  cases owns : ns.owner path with
  | none => simp [ownedNode, owner_child free, owns] at found
  | some v =>
    rw [ownedNode_child free owns] at found
    rw [ownedNode, owns]
    exact v.tree.closed _ _ found

/-! ## The tree -/

variable {dir : DirNode}

theorem node_ownedDir (free : ¬ns.IsMountPoint path) (found : ns.ownedNode path = some (.dir dir)) :
    ns.node path = some (.dir ⟨dir.permissions, dir.accepts, dir.entries.map (ns.merged path)⟩) := by
  rw [node, found]
  simp [if_neg free]

theorem node_dir (found : ns.ownedNode path = some (.dir dir)) : ∃ dir', ns.node path = some (.dir dir') := by
  rw [node, found]
  exact ⟨_, rfl⟩

theorem node_dir_eq {dir' : DirNode} (found : ns.ownedNode path = some (.dir dir)) (isDir : ns.node path = some (.dir dir')) :
    dir'.accepts = dir.accepts ∧ dir'.entries = dir.entries.map (ns.merged path) := by
  rw [node, found] at isDir
  obtain rfl := TreeNode.dir.inj (Option.some.inj isDir)
  exact ⟨rfl, rfl⟩

theorem node_above (above : ns.IsAbove path) : ∃ dir, ns.node path = some (.dir dir) := by
  rw [node]
  split
  · exact ⟨_, rfl⟩
  · rw [if_pos above]
    exact ⟨_, rfl⟩

theorem node_virtual (above : ns.IsAbove path) (absent : ns.ownedNode path = none) :
    ns.node path = some (.dir ⟨.byBackend, fun _ => .ok (), .ok (ns.merged path 0)⟩) := by
  rw [node, absent]
  exact if_pos above

theorem node_of_not_above (free : ¬ns.IsMountPoint path) (outside : ¬ns.IsAbove path) (childless : ns.mountChildren path = ∅) :
    ns.node path = ns.ownedNode path := by
  have same (entries : Multiset DirEntry) : ns.merged path entries = entries := by simp [merged, childless]
  rw [node]
  split
  · next dir found =>
    rw [found, if_neg free, show ns.merged path = id from funext same]
    cases dir with
    | mk permissions accepts entries => cases entries <;> rfl
  · rw [if_neg outside]

/-- A path outside all mount boundaries has no mount point below it. -/
theorem mountChildren_empty (outside : ¬ns.IsAbove path) : ns.mountChildren path = ∅ := by
  refine Finset.eq_empty_of_forall_notMem fun name mem => outside (.of_child (mem_mountChildren.mp mem))

theorem node_outside (free : ¬ns.IsMountPoint path) (outside : ¬ns.IsAbove path) : ns.node path = ns.ownedNode path :=
  node_of_not_above free outside (mountChildren_empty outside)

theorem node_mountPoint (mem : v ∈ ns.volumes) : ∃ dir, ns.node v.path = some (.dir dir) := by
  obtain ⟨dir, root⟩ := v.tree.root_dir
  exact node_dir ((ownedNode_mountPoint mem).trans root)

theorem node_related (related : ns.Related path) : ∃ dir, ns.node path = some (.dir dir) := by
  rcases related with ⟨v, mem, rfl⟩ | above
  · exact node_mountPoint mem
  · exact node_above above

variable (ns) in
def tree : FileTree where
  node := ns.node
  root_dir := by
    obtain ⟨v, mem⟩ := exists_mem_of_ne_nil _ ns.nonempty
    by_cases atRoot : v.path = []
    · exact node_related (.inl ⟨v, mem, atRoot⟩)
    · exact node_above ⟨v, mem, below_iff.mpr ⟨ nil_prefix, atRoot⟩⟩
  closed path name found := by
    by_cases related : ns.Related (path ++ [name])
    · exact node_above (.of_child related)
    · obtain ⟨free, outside⟩ := not_or.mp related
      rw [node_outside free outside] at found
      obtain ⟨dir, isDir⟩ := ownedNode_closed free found
      exact node_dir isDir

/-! ## The order of the volumes -/

variable (ns) in
/-- The same volumes in another order. -/
def reorder (volumes : List (Volume W D F)) (perm : volumes.Perm ns.volumes) : Namespace W D F where
  volumes := volumes
  nonempty none := ns.nonempty (nil_perm.mp (none ▸ perm))
  distinct := (perm.map _).nodup_iff.mpr ns.distinct
  names v mem := ns.names v (perm.mem_iff.mp mem)

section Perm

variable {order : Namespace W D F} (perm : order.volumes.Perm ns.volumes)
include perm

theorem isMountPoint_perm : order.IsMountPoint = ns.IsMountPoint := by
  funext path
  simp [IsMountPoint, perm.mem_iff]

theorem isAbove_perm : order.IsAbove = ns.IsAbove := by
  funext path
  simp [IsAbove, perm.mem_iff]

theorem owner_perm : order.owner = ns.owner := by
  funext path
  refine Option.ext fun v => ?_
  simp [owner_eq_some, perm.mem_iff]

theorem ownedNode_perm : order.ownedNode = ns.ownedNode := by
  funext path
  rw [ownedNode, ownedNode, owner_perm perm]

theorem merged_perm : order.merged = ns.merged := by
  have children : order.mountChildren = ns.mountChildren := by
    funext path
    refine Finset.ext fun name => ?_
    rw [mem_mountChildren, mem_mountChildren, Related, Related, isMountPoint_perm perm, isAbove_perm perm]
  funext path entries
  rw [merged, merged, children]

theorem tree_perm : order.tree = ns.tree := by
  refine FileTree.ext (funext fun path => ?_)
  show order.node path = ns.node path
  have mountPoint : order.IsMountPoint path ↔ ns.IsMountPoint path := by rw [isMountPoint_perm perm]
  have above : order.IsAbove path ↔ ns.IsAbove path := by rw [isAbove_perm perm]
  rw [node, node, ownedNode_perm perm, merged_perm perm]
  rcases ns.ownedNode path with _ | (dir | leaf)
  · exact if_congr above rfl rfl
  · simp [mountPoint]
  · exact if_congr above rfl rfl

theorem hides_perm : order.Hides = ns.Hides := by
  funext path
  rw [Hides, Hides, isMountPoint_perm perm, isAbove_perm perm, ownedNode_perm perm]

theorem underlaid_perm : order.Underlaid = ns.Underlaid := by
  funext path name
  rw [Underlaid, Underlaid, owner_perm perm]

end Perm

end Namespace

end LiteBox.Fs
