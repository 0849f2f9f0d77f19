import LiteBox.Fs.ComposerWalk

/-! # The composed backend is one tree

The laws of a backend for the composer, what `build` makes of the mount points, and the two conditions on the
volumes under which the composer shows their namespace in whatever order they were mounted.
-/

namespace LiteBox.Fs

open Namespace List Composer MountRelation

variable {W D F : Type}

namespace Composer

variable {c : Composer W D F} {ns : Namespace W D F} {path : List String} {name : String} {v : Volume W D F} {index : ℕ}

/-! ## Listings -/

theorem foldl_addChild (names children : List String) (distinct : children.Nodup) :
    (names.foldl addChild children).Nodup ∧ ∀ name, name ∈ names.foldl addChild children ↔ name ∈ children ∨ name ∈ names := by
  induction names generalizing children with
  | nil => simpa using distinct
  | cons first names ih =>
    have added : (addChild children first).Nodup ∧ ∀ name, name ∈ addChild children first ↔ name ∈ children ∨ name = first := by
      rw [addChild]
      split_ifs with mem
      · exact ⟨distinct, fun name => ⟨.inl, fun either => either.elim id fun same => same ▸ mem⟩⟩
      · refine ⟨nodup_append.mpr ⟨distinct, nodup_singleton _, ?_⟩, fun name => by simp⟩
        rintro name mem' other rfl' rfl
        exact mem (mem_singleton.mp rfl' ▸ mem')
    obtain ⟨distinct', mem'⟩ := ih (addChild children first) added.1
    refine ⟨distinct', fun name => ?_⟩
    rw [foldl_cons, mem', added.2, mem_cons, or_assoc]

theorem Of.immediateMountChildren (of : c.Of ns) (path : List String) :
    (c.immediateMountChildren path : Multiset String) = (ns.mountChildren path).val := by
  obtain ⟨distinct, mem⟩ := foldl_addChild ((c.mounts.filter (·.Below path)).filterMap (·.path[path.length]?)) [] nodup_nil
  refine (Multiset.Nodup.ext (Multiset.coe_nodup.mpr distinct) (Finset.nodup _)).mpr fun name => ?_
  rw [Finset.mem_val, mem_mountChildren, related_child, Multiset.mem_coe]
  refine (mem name).trans ?_
  rw [of.mounts]
  simp only [not_mem_nil, false_or, mem_filterMap, mem_filter, mem_map, decide_eq_true_eq]
  constructor
  · rintro ⟨_, ⟨⟨v, mem, rfl⟩, below⟩, found⟩
    exact ⟨v, mem, below_getElem.mp ⟨below, found⟩⟩
  · rintro ⟨v, mem, above⟩
    obtain ⟨below, found⟩ := below_getElem.mpr above
    exact ⟨_, ⟨⟨v, mem, rfl⟩, below⟩, found⟩

theorem Of.mem_immediateMountChildren (of : c.Of ns) :
    name ∈ c.immediateMountChildren path ↔ ns.Related (path ++ [name]) := by
  rw [← Multiset.mem_coe, of.immediateMountChildren, Finset.mem_val, mem_mountChildren]

theorem Of.listMountChildren (of : c.Of ns) (path : List String) :
    (c.listMountChildren path : Multiset DirEntry) = (ns.mountChildren path).val.map fun name => ⟨name, .directory, none⟩ := by
  rw [Composer.listMountChildren, ← Multiset.map_coe, of.immediateMountChildren]

/-- Merging keeps what no child hides, and adds the children. -/
theorem foldl_merge (children entries : List DirEntry) (distinct : (children.map (·.name)).Nodup) :
    ((children.foldl (fun entries child => entries.filter (·.name ≠ child.name) ++ [child]) entries : List DirEntry) : Multiset DirEntry) =
      (entries : Multiset DirEntry).filter (fun entry => entry.name ∉ children.map (·.name)) + children := by
  induction children generalizing entries with
  | nil => simp
  | cons child children ih =>
    rw [map_cons, nodup_cons] at distinct
    rw [foldl_cons, ih _ distinct.2, ← Multiset.coe_add, ← Multiset.filter_coe, Multiset.filter_add, Multiset.filter_filter]
    have kept : Multiset.filter (fun entry : DirEntry => entry.name ∉ children.map (·.name)) ([child] : List DirEntry) = {child} := by
      rw [Multiset.coe_singleton, Multiset.filter_singleton, if_pos distinct.1]
    rw [kept, add_assoc]
    congr 1
    refine Multiset.filter_congr fun entry _ => ?_
    simp [not_or, and_comm]

theorem Of.mergeMountChildren (of : c.Of ns) (entries : List DirEntry) (path : List String) :
    (c.mergeMountChildren entries path : Multiset DirEntry) = ns.merged path entries := by
  have names : (c.listMountChildren path).map (·.name) = c.immediateMountChildren path := by
    rw [Composer.listMountChildren, map_map]
    exact map_id _
  have distinct : (c.immediateMountChildren path).Nodup := (foldl_addChild _ _ nodup_nil).1
  rw [Composer.mergeMountChildren, foldl_merge _ _ (names ▸ distinct), of.listMountChildren, names, merged]
  congr 1
  refine Multiset.filter_congr fun entry _ => not_congr ?_
  rw [of.mem_immediateMountChildren, mem_mountChildren]

/-! ## The laws of a backend -/

section Laws

variable (of : c.Of ns) {current : WalkingDirHandle W} {opened : DirHandle D}
include of

theorem Of.root : Walking ns c.rootHandle [] := by
  rw [rootHandle]
  by_cases atRoot : ns.IsMountPoint []
  · obtain ⟨index, v, found, at_v, root⟩ := of.exactMountRoot_some atRoot
    rw [root]
    exact at_v ▸ walking_mountPoint found
  · rw [of.exactMountRoot_none atRoot]
    have unowned : ns.owner [] = none := by
      cases owns : ns.owner [] with
      | none => rfl
      | some v =>
        obtain ⟨mem, above, -⟩ := owner_eq_some.mp owns
        exact absurd ⟨v, mem, prefix_nil.mp above⟩ atRoot
    refine ⟨rfl, ?_, atRoot, by rw [ownedNode, unowned]; rfl⟩
    obtain ⟨v, mem⟩ := exists_mem_of_ne_nil _ ns.nonempty
    exact ⟨v, mem, below_iff.mpr ⟨ nil_prefix, fun at_v => atRoot ⟨v, mem, at_v⟩⟩⟩

omit of in
theorem walking_dir (at_path : Walking ns current path) : ∃ dir, ns.node path = some (.dir dir) := by
  cases current with
  | virtual path' =>
    obtain ⟨rfl, above, -, -⟩ := at_path
    exact node_above above
  | mounted path' index handle =>
    obtain ⟨rfl, v, -, owns, walking⟩ := at_path
    obtain ⟨dir, isDir⟩ := v.realizes.dir walking
    exact node_dir (by rw [ownedNode, owns]; exact isDir)

omit of in
theorem owned_dir (isOwned : Owned ns opened path) : ∃ dir, ns.node path = some (.dir dir) := by
  cases opened with
  | virtual path' =>
    obtain ⟨rfl, above, -, -⟩ := isOwned
    exact node_above above
  | mounted path' index handle =>
    obtain ⟨rfl, v, -, owns, isOwned⟩ := isOwned
    obtain ⟨dir, isDir⟩ := v.realizes.ownedDir isOwned
    exact node_dir (by rw [ownedNode, owns]; exact isDir)

theorem Of.walkingDirAt (isOwned : Owned ns opened path) (again : c.walkingDirAt opened = some current) : Walking ns current path := by
  cases opened with
  | virtual path' =>
    obtain rfl := Option.some.inj again
    exact isOwned
  | mounted path' index handle =>
    obtain ⟨rfl, v, found, owns, isOwned⟩ := isOwned
    rw [walkingDirAt, of.getElem? found] at again
    obtain ⟨handle', answer, rfl⟩ := Option.map_eq_some_iff.mp again
    exact ⟨rfl, v, found, owns, v.realizes.rewalk isOwned answer⟩

theorem Of.ownedDirAt (flags : OFlags) (at_path : Walking ns current path) {dir : DirNode} (isDir : ns.node path = some (.dir dir)) :
    match dir.accepts flags with
    | .error error => c.ownedDirAt current flags = .error (.error error)
    | .ok () => ∃ d, c.ownedDirAt current flags = .ok d ∧ Owned ns d path := by
  cases current with
  | virtual path' =>
    obtain ⟨rfl, above, free, absent⟩ := at_path
    rw [node_virtual above absent] at isDir
    obtain rfl := TreeNode.dir.inj (Option.some.inj isDir)
    exact ⟨.virtual path', rfl, rfl, above, free, absent⟩
  | mounted path' index handle =>
    obtain ⟨rfl, v, found, owns, walking⟩ := at_path
    obtain ⟨own, there⟩ := v.realizes.dir walking
    have owned : ns.ownedNode path' = some (.dir own) := by rw [ownedNode, owns]; exact there
    have answer := v.realizes.own flags walking there
    rw [(node_dir_eq owned isDir).1, ownedDirAt, of.backendAt found]
    revert answer
    rcases own.accepts flags with error | ⟨⟩
    · intro answer
      exact congrArg (fun result => Except.bind result fun handle => Except.ok (DirHandle.mounted path' index handle)) answer
    · rintro ⟨d, answer, isOwned⟩
      exact ⟨.mounted path' index d, congrArg (fun result => Except.bind result fun handle => Except.ok (DirHandle.mounted path' index handle)) answer,
        rfl, v, found, owns, isOwned⟩

theorem Of.openFileAt (name : String) (flags : OFlags) (at_path : Walking ns current path) : match ns.node (path ++ [name]) with
    | none => c.openFileAt current name flags = .error (.error (.pathError .noSuchFileOrDirectory))
    | some (.dir _) => True
    | some (.leaf leaf) => match leaf.opens flags with
      | .error error => c.openFileAt current name flags = .error (.error error)
      | .ok (permissions, content) => ∃ file, c.openFileAt current name flags = .ok ⟨file, permissions⟩ ∧ c.read file = content := by
  by_cases related : ns.Related (path ++ [name])
  · obtain ⟨dir, isDir⟩ := node_related related
    rw [isDir]
    trivial
  cases current with
  | virtual path' =>
    obtain ⟨rfl, -, -, absent⟩ := at_path
    rw [node_below_virtual absent related]
    rfl
  | mounted path' index handle =>
    obtain ⟨rfl, v, found, owns, walking⟩ := at_path
    have answer := v.realizes.openFile name flags walking
    have forwarded : c.openFileAt (.mounted path' index handle) name flags =
        (v.backend.openFileAt handle name flags).map fun file => ⟨⟨index, file.item⟩, file.permissions⟩ := by
      rw [openFileAt, checkedChildPath, if_pos (of.unrelated.mpr (not_or.mp related)), of.backendAt found]
      rfl
    rw [forwarded, node_at_end owns related]
    revert answer
    rcases v.tree.node (path'.drop v.path.length ++ [name]) with _ | (dir | leaf)
    · intro answer
      rw [answer]
      rfl
    · exact id
    · dsimp only
      rcases leaf.opens flags with error | ⟨permissions, content⟩
      · intro answer
        rw [answer]
        rfl
      · rintro ⟨file, answer, isContent⟩
        rw [answer]
        refine ⟨⟨index, file⟩, rfl, ?_⟩
        rw [← isContent]
        funext length offset
        rw [read, of.backendAt found]
        rfl

/-- Reading a link agrees with the tree, except at a mount point where the volume around it has a link or nothing. -/
theorem Of.readLinkAt (name : String) (underlaid : ns.IsMountPoint (path ++ [name]) → ns.Underlaid path name) (at_path : Walking ns current path) :
    c.readLinkAt current name = match ns.node (path ++ [name]) with
    | none => .error (.error (.pathError .noSuchFileOrDirectory))
    | some (.dir _) => .ok none
    | some (.leaf leaf) => .ok leaf.target := by
  cases current with
  | virtual path' =>
    obtain ⟨rfl, -, -, absent⟩ := at_path
    rw [readLinkAt]
    by_cases related : ns.Related (path' ++ [name])
    · obtain ⟨dir, isDir⟩ := node_related related
      rw [if_pos (of.mem_immediateMountChildren.mpr related), isDir]
    · rw [if_neg (mt of.mem_immediateMountChildren.mp related), node_below_virtual absent related]
  | mounted path' index handle =>
    obtain ⟨rfl, v, found, owns, walking⟩ := at_path
    have answer := v.realizes.readLink name walking
    rw [readLinkAt]
    split_ifs with ancestor
    · have related : ns.Related (path' ++ [name]) := by
        by_contra outside
        rw [of.unrelated.mpr (not_or.mp outside)] at ancestor
        cases ancestor
      obtain ⟨dir, isDir⟩ := node_related related
      rw [isDir]
    · rw [of.backendAt found]
      refine Eq.trans answer ?_
      by_cases mountPoint : ns.IsMountPoint (path' ++ [name])
      · obtain ⟨dir, isDir⟩ := node_related (.inl mountPoint)
        obtain ⟨own, there⟩ := v.realizes.dir walking
        have shown := underlaid mountPoint v own owns there
        rw [isDir]
        revert shown
        rcases v.tree.node (path'.drop v.path.length ++ [name]) with _ | (dir | leaf)
        · exact False.elim
        · exact fun _ => rfl
        · exact congrArg Except.ok
      · have outside : ¬ns.IsAbove (path' ++ [name]) := mt (of.ancestor mountPoint).mpr ancestor
        exact node_at_end owns (not_or.mpr ⟨mountPoint, outside⟩) ▸ rfl

theorem Of.listDirAt (isOwned : Owned ns opened path) {dir : DirNode} (isDir : ns.node path = some (.dir dir)) : match dir.entries with
    | .error error => c.listDirAt opened = .error (.error error)
    | .ok entries => ∃ listed : List DirEntry, c.listDirAt opened = .ok listed ∧ (listed : Multiset DirEntry) = entries := by
  cases opened with
  | virtual path' =>
    obtain ⟨rfl, above, -, absent⟩ := isOwned
    rw [node_virtual above absent] at isDir
    obtain rfl := TreeNode.dir.inj (Option.some.inj isDir)
    refine ⟨_, rfl, ?_⟩
    rw [of.listMountChildren, merged, Multiset.filter_zero, zero_add]
  | mounted path' index handle =>
    obtain ⟨rfl, v, found, owns, isOwned⟩ := isOwned
    obtain ⟨own, there⟩ := v.realizes.ownedDir isOwned
    have owned : ns.ownedNode path' = some (.dir own) := by rw [ownedNode, owns]; exact there
    have answer := v.realizes.list isOwned there
    have forwarded : c.listDirAt (.mounted path' index handle) = (v.backend.listDirAt handle).map (c.mergeMountChildren · path') := by
      rw [listDirAt, of.backendAt found]
      rfl
    rw [(node_dir_eq owned isDir).2, forwarded]
    revert answer
    rcases own.entries with error | entries
    · intro answer
      rw [answer]
      rfl
    · rintro ⟨listed, answer, rfl⟩
      rw [answer]
      exact ⟨_, rfl, of.mergeMountChildren listed path'⟩

theorem Of.dirStatus (isOwned : Owned ns opened path) (halt : Halt FileStatusError) (failed : c.dirStatus opened = .error halt) : ¬halt.IsPanic := by
  cases opened with
  | virtual path' =>
    obtain ⟨rfl, above, free, -⟩ := isOwned
    obtain ⟨dir, mem, at_dir⟩ := mem_map.mp (of.virtual path' above free)
    rw [dirStatus, virtualDirStatus] at failed
    cases found : c.virtualDirs.find? (·.path = path') with
    | none => exact absurd at_dir (by simpa using find?_eq_none.mp found dir mem)
    | some dir =>
      rw [found] at failed
      cases failed
  | mounted path' index handle =>
    obtain ⟨rfl, v, found, -, isOwned⟩ := isOwned
    rw [dirStatus, of.backendAt found] at failed
    exact v.realizes.status isOwned halt failed

/-- Where nothing is hidden and every mount point is underlaid the composer is the tree of its mounts. -/
theorem Of.realizes (clear : ∀ path, ¬ns.Hides path) (underlaid : ∀ path name, ns.IsMountPoint (path ++ [name]) → ns.Underlaid path name) :
    c.backend.Realizes ns.tree (Walking ns) (Owned ns) where
  root := of.root
  dir at_path := walking_dir at_path
  walk components at_path _ := of.walkLoop_walked clear _ [] components (le_refl _) (.stop _ _) at_path
  own flags at_path isDir := of.ownedDirAt flags at_path isDir
  ownedDir isOwned := owned_dir isOwned
  rewalk isOwned again := of.walkingDirAt isOwned again
  openFile name flags at_path := of.openFileAt name flags at_path
  readLink name at_path := of.readLinkAt name (underlaid _ name) at_path
  list isOwned isDir := of.listDirAt isOwned isDir
  status isOwned := of.dirStatus isOwned

end Laws

/-! ## Building -/

theorem mountPath_raw (mount : Mount W D F) (names : ∀ name ∈ mount.path, Path.IsName name) : mountPath mount.raw = .ok mount.path := by
  have filtered : ((if mount.path = [] then [""] else mount.path).filter (· ≠ "")) = mount.path := by
    split_ifs with root
    · simp [root]
    · exact filter_eq_self.mpr fun name mem => by simpa using (names name mem).1
  have absolute : Path.isAbsolute ("" :: if mount.path = [] then [""] else mount.path) = true := by
    split_ifs with root
    · rfl
    · obtain ⟨first, rest, eq⟩ := exists_cons_of_ne_nil root
      rw [eq]
      rfl
  have plain : ¬("." ∈ mount.path ∨ ".." ∈ mount.path) := by
    rintro (dot | dots)
    · exact (names _ dot).2.1 rfl
    · exact (names _ dots).2.2 rfl
  simp only [Mount.raw, mountPath, drop_one, tail_cons, filtered]
  rw [if_neg (by simp [absolute]), if_neg plain, if_neg (by simp)]

/-- Distinct mount points have no equal neighbours. -/
theorem hasDuplicate_eq_false {paths : List (List String)} (distinct : paths.Nodup) : hasDuplicate paths = false := by
  have sorted : (paths.mergeSort (· ≤ ·)).Nodup := (mergeSort_perm _ _).nodup_iff.mpr distinct
  rw [hasDuplicate, any_eq_false]
  intro pair mem
  obtain ⟨i, bound, rfl⟩ := mem_iff_getElem.mp mem
  rw [getElem_zip, getElem_tail]
  simp [sorted.getElem_inj_iff]

theorem foldl_addVirtualDir (mounts : List (Mount W D F)) (paths : List (List String)) (dirs : List VirtualDir) :
    (∀ path ∈ dirs.map (·.path), path ∈ (paths.foldl (addVirtualDir mounts) dirs).map (·.path)) ∧
    ∀ path ∈ paths, of mounts path = .exact ∨ path ∈ (paths.foldl (addVirtualDir mounts) dirs).map (·.path) := by
  induction paths generalizing dirs with
  | nil => exact ⟨fun _ mem => mem, fun _ mem => absurd mem not_mem_nil⟩
  | cons first paths ih =>
    have added : (∀ path ∈ dirs.map (·.path), path ∈ (addVirtualDir mounts dirs first).map (·.path)) ∧
        (of mounts first = .exact ∨ first ∈ (addVirtualDir mounts dirs first).map (·.path)) := by
      rw [addVirtualDir]
      split_ifs with known
      · exact ⟨fun _ mem => mem, known⟩
      · exact ⟨fun path mem => by simp [mem_append.mpr (.inl mem)], .inr (by simp)⟩
    obtain ⟨kept, all⟩ := ih (addVirtualDir mounts dirs first)
    refine ⟨fun path mem => kept path (added.1 path mem), forall_mem_cons.mpr ⟨added.2.imp_right (kept first), all⟩⟩

theorem mem_ancestors {paths : List (List String)} {mountPoint : List String} (mem : mountPoint ∈ paths) (above : path <+: mountPoint)
    (short : path.length < mountPoint.length) : path ∈ ancestors paths := by
  refine mem_flatMap.mpr ⟨mountPoint, mem, mem_map.mpr ⟨path.length, mem_range.mpr short, ?_⟩⟩
  exact (prefix_iff_eq_take.mp above).symm

theorem mapM_mountPath (volumes : List (Volume W D F)) (names : ∀ v ∈ volumes, ∀ name ∈ v.path, Path.IsName name) :
    (volumes.map fun v => (v.toMount.raw, v.backend)).mapM
      (fun mount => (mountPath mount.1).map fun path => { path, backend := mount.2 : Mount W D F }) = .ok (volumes.map (·.toMount)) := by
  induction volumes with
  | nil => rfl
  | cons v volumes ih =>
    obtain ⟨first, rest⟩ := forall_mem_cons.mp names
    rw [map_cons, mapM_cons, ih rest, mountPath_raw _ first]
    rfl

/-- `build` takes distinct mount points in any order. -/
theorem build_of (ns : Namespace W D F) : ∃ c, build ns.mounts = .ok c ∧ c.Of ns := by
  have some : ns.mounts ≠ [] := by simpa [Namespace.mounts] using ns.nonempty
  have paths : (ns.volumes.map (·.toMount)).map (·.path) = ns.volumes.map fun v => v.path := map_map
  refine ⟨⟨ns.volumes.map (·.toMount), (ancestors (ns.volumes.map fun v => v.path)).foldl (addVirtualDir (ns.volumes.map (·.toMount))) []⟩, ?_, rfl, ?_⟩
  · rw [build, if_neg some]
    simp only [Namespace.mounts, mapM_mountPath _ ns.names]
    show (if hasDuplicate ((ns.volumes.map (·.toMount)).map (·.path)) then _ else _) = _
    rw [paths, hasDuplicate_eq_false ns.distinct]
    rfl
  · rintro path ⟨v, mem, short, above⟩ free
    have listed := mem_ancestors (mem_map_of_mem (f := fun v : Volume W D F => v.path) mem) above short
    refine ((foldl_addVirtualDir _ _ []).2 path listed).resolve_left fun exact => ?_
    obtain ⟨mount, mem', at_mount⟩ := exists_of_exact exact
    obtain ⟨v', listed, rfl⟩ := mem_map.mp mem'
    exact free ⟨v', listed, at_mount⟩

theorem of_build (built : build ns.mounts = .ok c) : c.Of ns := by
  obtain ⟨c', built', of⟩ := build_of ns
  obtain rfl := Except.ok.inj (built.symm.trans built')
  exact of

/-! ## The two conditions -/

/-- A composer that shows the tree of its mounts hides nothing. -/
theorem Of.clear (of : c.Of ns) (represents : c.backend.Represents ns.tree) (path : List String) : ¬ns.Hides path := by
  intro hides
  obtain ⟨walking, owned, realizes⟩ := represents
  have some : path ≠ [] := by
    rintro rfl
    exact walking_clear of.root hides
  obtain ⟨outcome, ran, stopped⟩ := of.walkLoop_stuck path.length [] path (le_refl _) some (by simpa using hides) of.root
  have answer := realizes.walk path realizes.root some
  rw [show c.backend.walkDirectories c.backend.root path = .ok outcome from ran] at answer
  obtain ⟨last, rest, walk, -, stop⟩ := answer
  rw [stopped] at stop
  obtain ⟨name, rest', leaf, rfl, isLeaf⟩ := stop
  -- Every step of the way is above a mount point, and so a directory of the tree.
  obtain ⟨-, rfl, rest_eq⟩ := walk.eq
  have path_eq : path = path.take outcome.components.length ++ [name] ++ rest' := by
    rw [append_assoc, singleton_append, rest_eq, take_append_drop]
  rw [path_eq] at hides
  obtain ⟨dir, isDir⟩ := node_above hides.1.of_append
  rw [nil_append] at isLeaf
  cases isLeaf.symm.trans isDir

/-- A composer that shows the tree of its mounts, and to which a mount point is first its own, has the mount point underlaid. -/
theorem Of.underlaid (of : c.Of ns) (represents : c.backend.Represents ns.tree) (mountPoint : ns.IsMountPoint (path ++ [name]))
    (exact : c.mountRelation (path ++ [name]) = .exact) : ns.Underlaid path name := by
  have clear := of.clear represents
  obtain ⟨walking, owned, realizes⟩ := represents
  intro v dir owns isDir
  -- The handle of the directory that holds the mount point, as the composer gives it out and as the law reads it.
  obtain ⟨current, at_path, lawful⟩ : ∃ current, Walking ns current path ∧ walking current path := by
    by_cases root : path = []
    · rw [root]
      exact ⟨c.rootHandle, of.root, realizes.root⟩
    · obtain ⟨walked, current, ran, at_path⟩ := of.walkLoop_above clear path.length [] path (le_refl _)
        (by simpa using Namespace.IsAbove.of_child (.inl mountPoint)) of.root
      have answer := realizes.walk path realizes.root root
      rw [show c.backend.walkDirectories c.backend.root path = .ok ⟨walked, current, .completeDirectory⟩ from ran] at answer
      obtain ⟨last, rest, walk, lawful, rfl⟩ := answer
      obtain ⟨-, rfl, all⟩ := walk.eq
      refine ⟨current, by simpa using at_path, ?_⟩
      rwa [nil_append, take_of_length_le (drop_eq_nil_iff.mp all.symm)] at lawful
  cases current with
  | virtual path' =>
    obtain ⟨rfl, -, -, absent⟩ := at_path
    rw [ownedNode, owns] at absent
    cases isDir.symm.trans absent
  | mounted path' index handle =>
    obtain ⟨rfl, v', found, owns', walking'⟩ := at_path
    obtain rfl := Option.some.inj (owns.symm.trans owns')
    have answer := v.realizes.readLink name walking'
    obtain ⟨dir', isDir'⟩ := node_related (.inl mountPoint)
    have lawful := realizes.readLink name lawful
    rw [show ns.tree.node (path' ++ [name]) = _ from isDir', show c.backend.readLinkAt = c.readLinkAt from rfl, Composer.readLinkAt, if_neg (by simp [exact]),
      of.backendAt found] at lawful
    replace lawful := answer.symm.trans lawful
    revert lawful
    rcases v.tree.node (path'.drop v.path.length ++ [name]) with _ | (dir | leaf)
    · rintro ⟨⟩
    · exact fun _ => trivial
    · exact Except.ok.inj

/-- Mounted in any order, the volumes show one tree exactly when no volume has something else where a mount point needs a directory, and
every volume around a mount point has something at its name that is no link. -/
theorem composer_is_namespace_iff (ns : Namespace W D F) :
    (∀ order : Namespace W D F, order.volumes.Perm ns.volumes → ∃ c, build order.mounts = .ok c ∧ c.backend.Represents ns.tree) ↔
      (∀ path, ¬ns.Hides path) ∧ ∀ path name, ns.IsMountPoint (path ++ [name]) → ns.Underlaid path name := by
  constructor
  · intro shows
    refine ⟨fun path => ?_, fun path name mountPoint => ?_⟩
    · obtain ⟨c, built, represents⟩ := shows ns (.refl _)
      exact (of_build built).clear represents path
    · -- The volume of the mount point comes first, so that the mount point is its own before it is above another one.
      obtain ⟨v, mem, at_v⟩ := mountPoint
      obtain ⟨before, after, volumes⟩ := append_of_mem mem
      have perm : (v :: (before ++ after)).Perm ns.volumes := volumes ▸ perm_middle.symm
      obtain ⟨c, built, represents⟩ := shows (ns.reorder _ perm) perm
      have of := of_build built
      have exact : c.mountRelation (path ++ [name]) = .exact := by
        rw [mountRelation, of.mounts]
        exact if_pos at_v
      rw [← @tree_perm _ _ _ ns (ns.reorder _ perm) perm] at represents
      rw [← @underlaid_perm _ _ _ ns (ns.reorder _ perm) perm]
      exact of.underlaid represents ⟨v, mem_cons_self, at_v⟩ exact
  · rintro ⟨clear, underlaid⟩ order perm
    obtain ⟨c, built, of⟩ := build_of order
    refine ⟨c, built, Walking order, Owned order, ?_⟩
    rw [← tree_perm perm]
    refine of.realizes ?_ ?_
    · rwa [hides_perm perm]
    · rwa [isMountPoint_perm perm, underlaid_perm perm]

/-! ## A mount below a link -/

/-- A tree at its mount point, as a volume. -/
noncomputable def volumeOf (path : List String) (tree : FileTree) : Volume (List String) (List String) Content where
  path := path
  backend := tree.backend
  tree := tree
  walking := tree.At
  owned := tree.At
  realizes := tree.backend_realizes

def openDir : DirNode := ⟨.byBackend, fun _ => .ok (), .ok 0⟩

/-- A root volume with the link `/lib` to `usr/lib`. -/
noncomputable def usrRoot : Volume (List String) (List String) Content :=
  volumeOf [] (.ofLeaves openDir fun name => if name = "lib" then some ⟨some ["usr", "lib"], fun _ => .error .accessNotAllowed⟩ else none)

/-- With another volume at `/lib/modules`. -/
noncomputable def usrMerged : Namespace (List String) (List String) Content where
  volumes := [usrRoot, volumeOf ["lib", "modules"] (.ofLeaves openDir fun _ => none)]
  nonempty := cons_ne_nil _ _
  distinct := by simp [volumeOf, usrRoot]
  names := by
    simp only [forall_mem_cons, volumeOf, usrRoot, not_mem_nil, IsEmpty.forall_iff, implies_true, and_true, true_and]
    decide

/-- The link stands where the mount point needs a directory, and the mount point cannot be walked to. -/
theorem usrMerged_unreachable : ¬∀ order : Namespace (List String) (List String) Content, order.volumes.Perm usrMerged.volumes →
    ∃ c, build order.mounts = .ok c ∧ c.backend.Represents usrMerged.tree := by
  intro shows
  obtain ⟨c, built, represents⟩ := shows usrMerged (.refl _)
  have free : ¬usrMerged.IsMountPoint ["lib"] := by
    rintro ⟨v, mem, at_v⟩
    rcases mem_cons.mp mem with rfl | mem
    · cases at_v
    · rw [mem_singleton.mp mem] at at_v
      cases at_v
  have above : usrMerged.IsAbove ["lib"] := ⟨_, mem_cons_of_mem _ mem_cons_self, by decide⟩
  have owns : usrMerged.owner [] = some usrRoot := @owner_mountPoint _ _ _ usrMerged usrRoot mem_cons_self
  exact (of_build built).clear represents ["lib"] ⟨above, free, _, ownedNode_child free owns⟩

end Composer

end LiteBox.Fs
