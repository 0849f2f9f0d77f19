import LiteBox.Fs.InMem

/-! # Trees of entries

Entries under their whole paths, and the children each directory lists, agree when every entry is a child of the
directory above it and every child has an entry. Adding, removing and moving an entry in both places keeps the
agreement.
-/

namespace LiteBox.Fs

open Function List Option

namespace Entry

/-- The type under which a directory lists an entry. A named pipe is a file. -/
def Admits : Entry → FileType → Prop
  | file _, fileType => fileType = .regularFile ∨ fileType = .fifo
  | dir _, fileType => fileType = .directory
  | symlink _, fileType => fileType = .symlink

end Entry

/-- The entries under their paths agree with the children that the directories list. -/
structure Tree (look : Path → Option Entry) (kids : ℕ → String → Option FileType) : Prop where
  root : look [""] = some (.dir 0)
  node : ∀ key entry, look key = some entry → key = [""] ∨ ∃ above name dir fileType, key = above ++ [name] ∧ Path.IsName name ∧
    look above = some (.dir dir) ∧ kids dir name = some fileType ∧ entry.Admits fileType
  child : ∀ above dir name fileType, look above = some (.dir dir) → kids dir name = some fileType →
    (look (above ++ [name])).isSome
  distinct : ∀ key key' dir, look key = some (.dir dir) → look key' = some (.dir dir) → key = key'

variable {more : List String}

namespace Tree

variable {look : Path → Option Entry} {kids : ℕ → String → Option FileType} {key above target : Path} {entry : Entry} {name : String} {dir : ℕ}

section

variable (tree : Tree look kids)

include tree

theorem ne_nil (found : look key = some entry) : key ≠ [] := by
  rcases tree.node key entry found with rfl | ⟨above, name, -, -, rfl, -⟩ <;> simp

/-- What is above an entry. -/
theorem parent (found : look (above ++ [name]) = some entry) (inside : above ≠ []) :
    ∃ dir fileType, Path.IsName name ∧ look above = some (.dir dir) ∧ kids dir name = some fileType ∧ entry.Admits fileType := by
  rcases tree.node _ entry found with eq | ⟨above', name', dir, fileType, eq, rest⟩
  · obtain ⟨rfl, -⟩ := append_eq_singleton_iff.mp eq |>.resolve_right (by simp)
    exact absurd rfl inside
  · obtain ⟨rfl, rfl⟩ := append_singleton_inj.mp eq
    exact ⟨dir, fileType, rest⟩

/-- Every path on the way to an entry is that of a directory. -/
theorem ancestor (found : look (key ++ more) = some entry) (strict : more ≠ [])
    (inside : key ≠ []) : ∃ dir, look key = some (.dir dir) := by
  induction more using reverseRecOn generalizing entry with
  | nil => exact absurd rfl strict
  | append_singleton more name ih =>
    rw [← append_assoc] at found
    obtain ⟨dir, -, -, found, -⟩ := tree.parent found (by simp [inside])
    by_cases last : more = []
    · exact ⟨dir, by simpa [last] using found⟩
    · exact ih found last

/-- The path of an entry is a slash and names. -/
theorem names (found : look key = some entry) : ∃ names, key = "" :: names ∧ ∀ name ∈ names, Path.IsName name := by
  induction key using reverseRecOn generalizing entry with
  | nil => exact absurd rfl (tree.ne_nil found)
  | append_singleton above name ih =>
    rcases tree.node _ entry found with eq | ⟨above', name', dir, -, eq, isName, parent, -⟩
    · exact ⟨[], eq, by simp⟩
    · obtain ⟨rfl, rfl⟩ := append_singleton_inj.mp eq
      obtain ⟨names, rfl, all⟩ := ih parent
      refine ⟨names ++ [name], rfl, ?_⟩
      simpa [or_imp, forall_and] using ⟨all, isName⟩

variable (directory : look above = some (.dir dir))

include directory

/-- A child that is not listed has no entry. -/
theorem absent : kids dir name = none ↔ look (above ++ [name]) = none := by
  constructor
  · intro unlisted
    by_contra found
    obtain ⟨entry, found⟩ := ne_none_iff_exists'.mp found
    obtain ⟨dir', fileType, -, parent', listed, -⟩ := tree.parent found (tree.ne_nil directory)
    cases directory.symm.trans parent'
    rw [unlisted] at listed
    cases listed
  · intro absent
    by_contra listed
    obtain ⟨fileType, listed⟩ := ne_none_iff_exists'.mp listed
    simpa [absent] using tree.child _ _ _ _ directory listed

/-- What is listed for other paths does not change with what is listed for one. -/
theorem listed_elsewhere {listed : Option FileType} {above' : Path} {dir' : ℕ} {name' : String}
    (directory' : look above' = some (.dir dir')) (other : above' ++ [name'] ≠ above ++ [name]) :
    update kids dir (update (kids dir) name listed) dir' name' = kids dir' name' := by
  by_cases same : dir' = dir
  · subst same
    obtain rfl := tree.distinct _ _ _ directory directory'
    rw [update_self, update_of_ne fun eq => other (by rw [eq])]
  · rw [update_of_ne same]

/-- A new entry in a directory. A new directory has no children, and is not one of the others. -/
theorem add {fileType : FileType} (named : Path.IsName name)
    (absent : look (above ++ [name]) = none) (admits : entry.Admits fileType)
    (fresh : ∀ id, entry = .dir id → (∀ key, look key ≠ some (.dir id)) ∧ ∀ name, kids id name = none) :
    Tree (update look (above ++ [name]) (some entry)) (update kids dir (update (kids dir) name (some fileType))) := by
  have other {key : Path} {found : Entry} (there : look key = some found) : key ≠ above ++ [name] := by
    rintro rfl
    rw [absent] at there
    cases there
  have notFresh (key : Path) (id : ℕ) (there : look key = some (.dir id)) : entry ≠ .dir id := fun eq => (fresh id eq).1 key there
  refine ⟨?_, ?_, ?_, ?_⟩
  · rw [update_of_ne (other tree.root)]
    exact tree.root
  · intro key found there
    by_cases new : key = above ++ [name]
    · subst new
      rw [update_self] at there
      obtain rfl := some_inj.mp there
      exact .inr ⟨above, name, dir, fileType, rfl, named, by rwa [update_of_ne (other directory)],
        by rw [update_self, update_self], admits⟩
    · rw [update_of_ne new] at there
      refine (tree.node key found there).imp_right ?_
      rintro ⟨above', name', dir', fileType', rfl, named', directory', listed, admits'⟩
      refine ⟨above', name', dir', fileType', rfl, named', by rwa [update_of_ne (other directory')], ?_, admits'⟩
      rwa [tree.listed_elsewhere directory directory' new]
  · intro above' dir' name' fileType' directory' listed
    by_cases new : above' ++ [name'] = above ++ [name]
    · rw [new, update_self]
      rfl
    · rw [update_of_ne new]
      by_cases newDir : above' = above ++ [name]
      · rw [newDir, update_self] at directory'
        obtain rfl := some_inj.mp directory'
        have empty := (fresh dir' rfl).2 name'
        have apart : dir' ≠ dir := fun eq => (fresh dir' rfl).1 above (eq ▸ directory)
        rw [update_of_ne apart, empty] at listed
        cases listed
      · rw [update_of_ne newDir] at directory'
        rw [tree.listed_elsewhere directory directory' new] at listed
        exact tree.child _ _ _ _ directory' listed
  · intro key key' id there there'
    rw [update_apply] at there there'
    split_ifs at there there' with new new' new'
    · rw [new, new']
    · exact absurd (some_inj.mp there) (notFresh _ _ there')
    · exact absurd (some_inj.mp there') (notFresh _ _ there)
    · exact tree.distinct _ _ _ there there'

/-- An entry without children is removed. -/
theorem remove (found : look (above ++ [name]) = some entry)
    (empty : ∀ id, entry = .dir id → ∀ name, kids id name = none) :
    Tree (update look (above ++ [name]) none) (update kids dir (update (kids dir) name none)) := by
  have outside {key more : Path} {below : Entry} (there : look (key ++ more) = some below) (strict : more ≠ [])
      (proper : key ≠ []) : key ≠ above ++ [name] := by
    rintro rfl
    obtain ⟨first, rest, rfl⟩ := exists_cons_of_ne_nil strict
    obtain ⟨id, isDir⟩ := tree.ancestor there strict proper
    cases found.symm.trans isDir
    rw [append_cons] at there
    have isDir : ∃ found, look ((above ++ [name]) ++ [first]) = some found := by
      by_cases last : rest = []
      · exact ⟨below, by simpa [last] using there⟩
      · obtain ⟨id, there⟩ := tree.ancestor there last (by simp)
        exact ⟨_, there⟩
    obtain ⟨found, there⟩ := isDir
    rw [(tree.absent ‹look (above ++ [name]) = _›).mp (empty id rfl first)] at there
    cases there
  refine ⟨?_, ?_, ?_, ?_⟩
  · rw [update_of_ne, tree.root]
    intro eq
    obtain ⟨rfl, -⟩ := append_eq_singleton_iff.mp eq.symm |>.resolve_right (by simp)
    exact tree.ne_nil directory rfl
  · intro key entry' there
    have old : key ≠ above ++ [name] := by
      rintro rfl
      rw [update_self] at there
      cases there
    rw [update_of_ne old] at there
    refine (tree.node key entry' there).imp_right ?_
    rintro ⟨above', name', dir', fileType', rfl, named', directory', listed, admits'⟩
    refine ⟨above', name', dir', fileType', rfl, named', ?_, ?_, admits'⟩
    · rwa [update_of_ne (outside there (by simp) (tree.ne_nil directory'))]
    · rwa [tree.listed_elsewhere directory directory' old]
  · intro above' dir' name' fileType' directory' listed
    have old : above' ≠ above ++ [name] := by
      rintro rfl
      rw [update_self] at directory'
      cases directory'
    rw [update_of_ne old] at directory'
    have apart : above' ++ [name'] ≠ above ++ [name] := by
      intro eq
      obtain ⟨rfl, rfl⟩ := append_singleton_inj.mp eq
      cases directory.symm.trans directory'
      rw [update_self, update_self] at listed
      cases listed
    rw [update_of_ne apart]
    rw [tree.listed_elsewhere directory directory' apart] at listed
    exact tree.child _ _ _ _ directory' listed
  · intro key key' id there there'
    have still {key : Path} {entry : Entry} (there : update look (above ++ [name]) none key = some entry) :
        look key = some entry := by
      by_cases gone : key = above ++ [name]
      · rw [gone, update_self] at there
        cases there
      · rwa [update_of_ne gone] at there
    exact tree.distinct _ _ _ (still there) (still there')

end

/-! ## Moves -/

/-- The entries after those at and below `source` were moved to `target`. -/
def moved (look : Path → Option Entry) (source target : Path) : Path → Option Entry := fun key =>
  if target <+: key then look (source ++ key.drop target.length) else if source <+: key then none else look key

/-- The children after a name was moved from one directory to another. -/
def movedKids (kids : ℕ → String → Option FileType) (sourceDir : ℕ) (sourceName : String) (targetDir : ℕ) (targetName : String)
    (fileType : FileType) : ℕ → String → Option FileType := fun dir name =>
  if dir = targetDir ∧ name = targetName then some fileType
  else if dir = sourceDir ∧ name = sourceName then none
  else kids dir name

theorem moved_below (source : Path) (more : List String) : moved look source target (target ++ more) = look (source ++ more) := by
  simp [moved]

theorem moved_target (source : Path) : moved look source target target = look source := by
  simpa using moved_below source []

variable {source : Path}

theorem moved_other (offTarget : ¬target <+: key) (offSource : ¬source <+: key) :
    moved look source target key = look key := by
  rw [moved, if_neg offTarget, if_neg offSource]

/-- Where an entry was before the move. -/
theorem moved_cases (there : moved look source target key = some entry) :
    (∃ more, key = target ++ more ∧ look (source ++ more) = some entry) ∨
      (¬target <+: key ∧ ¬source <+: key ∧ look key = some entry) := by
  unfold moved at there
  split_ifs at there with below gone
  · obtain ⟨more, rfl⟩ := below
    exact .inl ⟨more, rfl, by simpa using there⟩
  · exact .inr ⟨below, gone, there⟩

theorem snoc_not_below (path : Path) (name : String) : ¬path ++ [name] <+: path := fun below => by
  simpa using below.length_le

/-- An entry that can move with all that is below it: not to a place below itself, and not onto a directory. -/
structure Movable (look : Path → Option Entry) (kids : ℕ → String → Option FileType) (sourceAbove : Path) (sourceName : String)
    (sourceDir : ℕ) (targetAbove : Path) (targetName : String) (targetDir : ℕ) (entry : Entry) (fileType : FileType) : Prop where
  tree : Tree look kids
  sourceParent : look sourceAbove = some (.dir sourceDir)
  found : look (sourceAbove ++ [sourceName]) = some entry
  listed : kids sourceDir sourceName = some fileType
  targetParent : look targetAbove = some (.dir targetDir)
  named : Path.IsName targetName
  apart : ¬sourceAbove ++ [sourceName] <+: targetAbove ++ [targetName]
  free : ∀ id, look (targetAbove ++ [targetName]) ≠ some (.dir id)

namespace Movable

variable {sourceAbove targetAbove : Path} {sourceName targetName : String} {sourceDir targetDir : ℕ} {fileType : FileType}
  (movable : Movable look kids sourceAbove sourceName sourceDir targetAbove targetName targetDir entry fileType)

include movable

theorem barren {below : Entry} (there : look (targetAbove ++ [targetName] ++ more) = some below) : more =
    [] := by
  by_contra strict
  obtain ⟨id, isDir⟩ := movable.tree.ancestor there strict (by simp)
  exact movable.free id isDir

theorem target_off : ¬targetAbove ++ [targetName] <+: sourceAbove ++ [sourceName] := by
  rintro ⟨more, eq⟩
  have last : more = [] := movable.barren (eq ▸ movable.found)
  exact movable.apart ⟨[], by rw [append_nil, ← eq, last, append_nil]⟩

theorem admits : entry.Admits fileType := by
  obtain ⟨dir, fileType', -, parent', listed', admits⟩ := movable.tree.parent movable.found (movable.tree.ne_nil movable.sourceParent)
  cases movable.sourceParent.symm.trans parent'
  cases movable.listed.symm.trans listed'
  exact admits

/-- The children besides the two names that moved. -/
theorem kids_other (isDir : look above = some (.dir dir)) (notSource : above ++ [name] ≠ sourceAbove ++ [sourceName])
    (notTarget : above ++ [name] ≠ targetAbove ++ [targetName]) :
    movedKids kids sourceDir sourceName targetDir targetName fileType dir name = kids dir name := by
  rw [movedKids, if_neg, if_neg]
  · rintro ⟨rfl, rfl⟩
    exact notSource (by rw [movable.tree.distinct _ _ _ isDir movable.sourceParent])
  · rintro ⟨rfl, rfl⟩
    exact notTarget (by rw [movable.tree.distinct _ _ _ isDir movable.targetParent])

theorem kids_below (isDir : look (sourceAbove ++ [sourceName] ++ more) = some (.dir dir)) :
    movedKids kids sourceDir sourceName targetDir targetName fileType dir name = kids dir name := by
  refine movable.kids_other isDir (by simp) fun eq => ?_
  exact movable.apart ⟨more ++ [name], by rw [← append_assoc, eq]⟩

theorem root : moved look (sourceAbove ++ [sourceName]) (targetAbove ++ [targetName]) [""] = some (.dir 0) := by
  have long {path : Path} (proper : path ≠ []) (name : String) : ¬path ++ [name] <+: [""] := by
    obtain ⟨first, rest, rfl⟩ := exists_cons_of_ne_nil proper
    intro below
    simpa using below.length_le
  rw [moved_other (long (movable.tree.ne_nil movable.targetParent) _) (long (movable.tree.ne_nil movable.sourceParent) _)]
  exact movable.tree.root

theorem node {entry' : Entry} (there : moved look (sourceAbove ++ [sourceName]) (targetAbove ++ [targetName]) key = some entry') :
    key = [""] ∨ ∃ above name dir fileType', key = above ++ [name] ∧ Path.IsName name ∧
      moved look (sourceAbove ++ [sourceName]) (targetAbove ++ [targetName]) above = some (.dir dir) ∧
      movedKids kids sourceDir sourceName targetDir targetName fileType dir name = some fileType' ∧ entry'.Admits fileType' := by
  obtain ⟨more, rfl, was⟩ | ⟨offTarget, offSource, was⟩ := moved_cases there
  · refine .inr ?_
    rcases eq_nil_or_concat' more with rfl | ⟨more, name, rfl⟩
    · rw [append_nil] at was
      cases movable.found.symm.trans was
      refine ⟨targetAbove, targetName, targetDir, fileType, by rw [append_nil], movable.named, ?_, if_pos ⟨rfl, rfl⟩,
        movable.admits⟩
      rw [moved_other (snoc_not_below _ _) fun below => movable.apart (below.trans (prefix_append _ _))]
      exact movable.targetParent
    · rw [← append_assoc] at was
      obtain ⟨dir, fileType', named', isDir, listed', admits⟩ := movable.tree.parent was (by simp)
      refine ⟨targetAbove ++ [targetName] ++ more, name, dir, fileType', by rw [append_assoc _ more], named', ?_, ?_, admits⟩
      · rwa [moved_below]
      · rwa [movable.kids_below isDir]
  · refine (movable.tree.node key entry' was).imp_right ?_
    rintro ⟨above, name, dir, fileType', rfl, named', isDir, listed', admits⟩
    refine ⟨above, name, dir, fileType', rfl, named', ?_, ?_, admits⟩
    · rwa [moved_other (fun below => offTarget (below.trans (prefix_append _ _)))
        fun below => offSource (below.trans (prefix_append _ _))]
    · rwa [movable.kids_other isDir (fun eq => offSource (eq ▸ prefix_rfl)) fun eq => offTarget (eq ▸ prefix_rfl)]

theorem child {fileType' : FileType}
    (isDir : moved look (sourceAbove ++ [sourceName]) (targetAbove ++ [targetName]) above = some (.dir dir))
    (listed' : movedKids kids sourceDir sourceName targetDir targetName fileType dir name = some fileType') :
    (moved look (sourceAbove ++ [sourceName]) (targetAbove ++ [targetName]) (above ++ [name])).isSome := by
  by_cases isTarget : above ++ [name] = targetAbove ++ [targetName]
  · rw [isTarget, moved_target, movable.found]
    rfl
  obtain ⟨more, rfl, was⟩ | ⟨offTarget, offSource, was⟩ := moved_cases isDir
  · rw [movable.kids_below was] at listed'
    rw [append_assoc _ more, moved_below, ← append_assoc]
    exact movable.tree.child _ _ _ _ was listed'
  · have notSource : above ++ [name] ≠ sourceAbove ++ [sourceName] := by
      intro eq
      obtain ⟨rfl, rfl⟩ := append_singleton_inj.mp eq
      cases movable.sourceParent.symm.trans was
      rw [movedKids, if_neg, if_pos ⟨rfl, rfl⟩] at listed'
      · cases listed'
      · rintro ⟨rfl, rfl⟩
        exact isTarget (by rw [movable.tree.distinct _ _ _ was movable.targetParent])
    rw [movable.kids_other was notSource isTarget] at listed'
    rw [moved_other (fun below => offTarget ((prefix_concat_iff.mp below).resolve_left fun eq => isTarget eq.symm))
      fun below => offSource ((prefix_concat_iff.mp below).resolve_left fun eq => notSource eq.symm)]
    exact movable.tree.child _ _ _ _ was listed'

/-- The tree after a move. -/
theorem move : Tree (moved look (sourceAbove ++ [sourceName]) (targetAbove ++ [targetName]))
    (movedKids kids sourceDir sourceName targetDir targetName fileType) where
  root := movable.root
  node _ _ there := movable.node there
  child _ _ _ _ isDir listed := movable.child isDir listed
  distinct key key' id there there' := by
    obtain ⟨more, rfl, was⟩ | ⟨offTarget, offSource, was⟩ := moved_cases there <;>
      obtain ⟨more', rfl, was'⟩ | ⟨offTarget', offSource', was'⟩ := moved_cases there'
    · rw [append_cancel_left (movable.tree.distinct _ _ _ was was')]
    · exact absurd ⟨more, movable.tree.distinct _ _ _ was was'⟩ offSource'
    · exact absurd ⟨more', movable.tree.distinct _ _ _ was' was⟩ offSource
    · exact movable.tree.distinct _ _ _ was was'

end Movable

end Tree

end LiteBox.Fs
