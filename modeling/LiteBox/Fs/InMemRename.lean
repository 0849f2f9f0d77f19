import LiteBox.Fs.InMemTree

/-! # Renames in the in-memory file system

A rename edits the children of one or two directories and gives the moved entry a new key. A directory takes
all keys below it along.
-/

namespace LiteBox.Fs.InMem

open Function List Tree Option InMem

variable {n : ℕ} {s t : InMem} {env : Env} {fileType : FileType} {plain : Prop}

section Rename

variable {source target sourceAbove targetAbove : Path} {sourceName targetName : String} {sourceDir targetDir : ℕ} {entry : Entry}

theorem moveChild_triple (listed : s.kids sourceDir sourceName = some fileType)
    (same : sourceAbove = targetAbove → sourceDir = targetDir) :
    Prog.Triple (· = s) (moveChild env (sourceAbove, sourceDir) (targetAbove, targetDir) sourceName targetName)
      (fun _ t => t.entries = s.entries ∧ t.files = s.files ∧ t.freshness = s.freshness ∧
        t.kids = movedKids s.kids sourceDir sourceName targetDir targetName fileType) (Breaks plain s) := by
  unfold moveChild
  split_ifs with one
  · obtain rfl := same one
    refine .bind (requireWritable_triple _) fun _ => ?_
    rintro t rfl
    rw [touch_bind, removeChild_bind, kids_touched, listed, ofOption_bind rfl, insertChild_bind]
    refine ⟨rfl, rfl, rfl, ?_⟩
    funext dir name
    rw [kids_withChild, kids_withoutChild, kids_touched]
    rfl
  · refine .bind (requireWritable_triple _) fun _ => .bind (requireWritable_triple _) fun _ => ?_
    rintro t rfl
    rw [touch_bind, removeChild_bind, kids_touched, listed, ofOption_bind rfl, touch_bind, insertChild_bind]
    refine ⟨rfl, rfl, rfl, ?_⟩
    funext dir name
    rw [kids_withChild, kids_touched, kids_withoutChild, kids_touched]
    rfl

theorem rekeyed_append (source target : Path) (more : List String) : rekeyed source target (source ++ more) = target ++ more := by
  simp [rekeyed]

theorem isBelow_iff {key : Path} : isBelow source key ↔ ∃ more, more ≠ [] ∧ key = source ++ more := by
  simp only [isBelow, Bool.and_eq_true, isPrefixOf_iff_prefix, decide_eq_true_eq]
  constructor
  · rintro ⟨⟨more, rfl⟩, longer⟩
    refine ⟨more, ?_, rfl⟩
    rintro rfl
    simp at longer
  · rintro ⟨more, some, rfl⟩
    exact ⟨prefix_append _ _, by simpa using length_pos_of_ne_nil some⟩

/-- The loop over the entries below a directory that moves. -/
theorem rekey_run (keys : List Path) (distinct : keys.Nodup) (below : ∀ key ∈ keys, isBelow source key)
    (present : ∀ key ∈ keys, s.look key ≠ none) (absent : ∀ key ∈ keys, s.look (rekeyed source target key) = none) :
    ∃ entries, keys.forM (rekey source target) s = (.ok (), { s with entries }) ∧
      (∀ key ∈ keys, entries.lookup key = none ∧ entries.lookup (rekeyed source target key) = s.look key) ∧
      ∀ key, key ∉ keys → (∀ other ∈ keys, key ≠ rekeyed source target other) → entries.lookup key = s.look key := by
  induction keys generalizing s with
  | nil => exact ⟨s.entries, rfl, by simp, fun _ _ _ => rfl⟩
  | cons key rest ih =>
    obtain ⟨first, distinct⟩ := nodup_cons.mp distinct
    obtain ⟨belowFirst, belowRest⟩ := forall_mem_cons.mp below
    obtain ⟨presentFirst, present⟩ := forall_mem_cons.mp present
    obtain ⟨absentFirst, absent⟩ := forall_mem_cons.mp absent
    obtain ⟨moving, there⟩ := ne_none_iff_exists'.mp presentFirst
    set next : InMem := { s with entries := (s.entries.erase key).insert (rekeyed source target key) moving } with next_def
    have look : next.look = update (update s.look key none) (rekeyed source target key) (some moving) := by
      rw [next_def, show next.look = _ from look_insert { s with entries := s.entries.erase key } _ _, look_erase]
    have ran : rekey source target key s = (.ok (), next) := by
      rw [rekey, removeKey_bind, there, ofOption_bind rfl]
      rfl
    have keeps {other : Path} (notFirst : other ≠ key) (notNew : other ≠ rekeyed source target key) : next.look other = s.look other := by
      rw [look, update_of_ne notNew, update_of_ne notFirst]
    have newKey : key ≠ rekeyed source target key := fun eq => presentFirst (eq.symm ▸ absentFirst)
    have apart {other : Path} (mem : other ∈ rest) : rekeyed source target other ≠ rekeyed source target key := by
      obtain ⟨more, -, rfl⟩ := isBelow_iff.mp belowFirst
      obtain ⟨more', -, rfl⟩ := isBelow_iff.mp (belowRest other mem)
      rw [rekeyed_append, rekeyed_append]
      intro eq
      exact first (append_cancel_left eq ▸ mem)
    have old {other : Path} (mem : other ∈ rest) : next.look other = s.look other :=
      keeps (fun eq => first (eq ▸ mem)) fun eq => present other mem (eq ▸ absentFirst)
    have free {other : Path} (mem : other ∈ rest) : next.look (rekeyed source target other) = none := by
      rw [keeps (fun eq => presentFirst (eq ▸ absent other mem)) (apart mem)]
      exact absent other mem
    obtain ⟨entries, ranRest, movedRest, otherRest⟩ := ih distinct belowRest (fun other mem => old mem ▸ present other mem) fun other mem => free mem
    refine ⟨entries, by rw [Prog.forM_cons_of_ok ran, ranRest], ?_, ?_⟩
    · refine forall_mem_cons.mpr ⟨⟨?_, ?_⟩, fun other mem => ⟨(movedRest other mem).1, (movedRest other mem).2.trans (old mem)⟩⟩
      · rw [otherRest key first fun other mem eq => presentFirst (eq ▸ absent other mem), look, update_of_ne newKey, update_self]
      · rw [otherRest _ (fun mem => present _ mem absentFirst) fun other mem eq => apart mem eq.symm, look, update_self, there]
    · intro other notMem notNew
      obtain ⟨notFirst, notRest⟩ := not_or.mp (mem_cons.not.mp notMem)
      obtain ⟨notNewFirst, notNewRest⟩ := forall_mem_cons.mp notNew
      rw [otherRest other notRest notNewRest, keeps notFirst notNewFirst]

/-- What the end of a move leaves of a state, besides its entries: a link less of the file whose name was replaced. -/
structure Counted (s t : InMem) (entry : Entry) (replaced : Option Entry) : Prop where
  dirs : t.dirs = s.dirs
  freshness : t.freshness = s.freshness
  fifos : ∀ file, (t.files file).isFifo = (s.files file).isFifo
  links : ∀ file, (t.files file).nlink =
    if replaced = some (.file file) ∧ entry ≠ .file file then (s.files file).nlink - 1 else (s.files file).nlink

theorem dropReplaced_run (entry : Entry) (replaced : Option Entry) : ∃ t, dropReplaced entry replaced s = (.ok (), t) ∧
    t.entries = s.entries ∧ Counted s t entry replaced := by
  unfold dropReplaced
  split
  · next file =>
    split_ifs with moved
    · refine ⟨s, rfl, rfl, rfl, rfl, fun _ => rfl, fun file' => ?_⟩
      rw [if_neg]
      rintro ⟨same, other⟩
      cases same
      exact other moved
    · refine ⟨_, rfl, rfl, rfl, rfl, fun file' => ?_, fun file' => ?_⟩
      · by_cases same : file' = file
        · subst same
          simp
        · simp [same]
      · by_cases same : file' = file
        · subst same
          simp [moved]
        · have apart : file ≠ file' := fun eq => same eq.symm
          simp [same, apart]
  · next notFile =>
    refine ⟨s, rfl, rfl, rfl, rfl, fun _ => rfl, fun file => ?_⟩
    rw [if_neg fun both => notFile file both.1]

/-- The entries once those below the moved one have their new keys and the moved one has none. -/
structure Emptied (look look' : Path → Option Entry) (source target : Path) : Prop where
  below : ∀ more ≠ [], look' (target ++ more) = look (source ++ more)
  gone : ∀ more ≠ [], look' (source ++ more) = none
  other : ∀ key, ¬isBelow target key → ¬isBelow source key → look' key = update look source none key

theorem Emptied.moved {look look' : Path → Option Entry} (emptied : Emptied look look' source target)
    (found : look source = some entry) :
    update look' target (some entry) = moved look source target := by
  funext key
  by_cases atTarget : key = target
  · rw [atTarget, update_self, moved_target, found]
  rw [update_of_ne atTarget]
  by_cases belowTarget : target <+: key
  · obtain ⟨more, rfl⟩ := belowTarget
    rw [moved_below, emptied.below more fun last => atTarget (by rw [last, append_nil])]
  have notBelow : ¬isBelow target key := by
    intro below
    obtain ⟨more, -, rfl⟩ := isBelow_iff.mp below
    exact belowTarget (prefix_append _ _)
  rw [Tree.moved, if_neg belowTarget]
  split_ifs with belowSource
  · obtain ⟨more, rfl⟩ := belowSource
    by_cases last : more = []
    · rw [last, append_nil] at notBelow ⊢
      rw [emptied.other source notBelow, update_self]
      simp [isBelow]
    · exact emptied.gone more last
  · rw [emptied.other key notBelow, update_of_ne]
    · rintro rfl
      exact belowSource prefix_rfl
    · intro below
      obtain ⟨more, -, rfl⟩ := isBelow_iff.mp below
      exact belowSource (prefix_append _ _)

section

variable (movable : Tree.Movable s.look s.kids sourceAbove sourceName sourceDir targetAbove targetName targetDir entry fileType)

include movable

theorem emptied_of_leaf
    (leaf : entry.isDir = false) :
    Emptied s.look (update s.look (sourceAbove ++ [sourceName]) none) (sourceAbove ++ [sourceName]) (targetAbove ++ [targetName]) := by
  have nothing (more : List String) (some : more ≠ []) : s.look (sourceAbove ++ [sourceName] ++ more) = none := by
    by_contra there
    obtain ⟨below, there⟩ := ne_none_iff_exists'.mp there
    obtain ⟨id, isDir⟩ := movable.tree.ancestor there some (by simp)
    cases movable.found.symm.trans isDir
    cases leaf
  refine ⟨fun more some => ?_, fun more some => ?_, fun _ _ _ => rfl⟩
  · rw [nothing more some, update_of_ne fun eq => movable.target_off ⟨more, eq⟩]
    by_contra there
    obtain ⟨below, there⟩ := ne_none_iff_exists'.mp there
    exact some (movable.barren there)
  · rw [update_of_ne (by simpa using some)]
    exact nothing more some

theorem rekey_emptied
    (look : t.look = update s.look (sourceAbove ++ [sourceName]) none) : ∃ entries,
      (t.entries.keys.filter (isBelow (sourceAbove ++ [sourceName]))).forM
        (rekey (sourceAbove ++ [sourceName]) (targetAbove ++ [targetName])) t = (.ok (), { t with entries }) ∧
      Emptied s.look (fun key => entries.lookup key) (sourceAbove ++ [sourceName]) (targetAbove ++ [targetName]) := by
  set source := sourceAbove ++ [sourceName] with source_def
  set target := targetAbove ++ [targetName] with target_def
  have old {more : List String} (some : more ≠ []) : t.look (source ++ more) = s.look (source ++ more) := by
    rw [look, update_of_ne (by simpa using some)]
  have unused {more : List String} (some : more ≠ []) : t.look (target ++ more) = none := by
    rw [look, update_of_ne fun eq => movable.target_off ⟨more, eq⟩]
    by_contra there
    obtain ⟨below, there⟩ := ne_none_iff_exists'.mp there
    exact some (movable.barren there)
  have mem_iff (key : Path) : key ∈ t.entries.keys.filter (isBelow source) ↔ t.look key ≠ none ∧ isBelow source key := by
    rw [mem_filter, ← AList.mem_keys, ← AList.lookup_isSome, isSome_iff_ne_none]
    rfl
  obtain ⟨entries, ran, new, kept⟩ := @rekey_run t source target (t.entries.keys.filter (isBelow source))
    ((AList.keys_nodup _).filter _) (fun key mem => ((mem_iff key).mp mem).2) (fun key mem => ((mem_iff key).mp mem).1) fun key mem => by
      obtain ⟨more, some, rfl⟩ := isBelow_iff.mp ((mem_iff key).mp mem).2
      rw [rekeyed_append]
      exact unused some
  have notRekeyed {key : Path} (off : ¬isBelow target key) (other : Path) (mem : other ∈ t.entries.keys.filter (isBelow source)) :
      key ≠ rekeyed source target other := by
    obtain ⟨more, some, rfl⟩ := isBelow_iff.mp ((mem_iff other).mp mem).2
    rintro rfl
    exact off (isBelow_iff.mpr ⟨more, some, rekeyed_append _ _ _⟩)
  have offTarget {more : List String} : ¬isBelow target (source ++ more) := by
    intro below
    obtain ⟨more', -, eq⟩ := isBelow_iff.mp below
    rcases prefix_or_prefix_of_prefix (prefix_append source more) (eq ▸ prefix_append target more') with pre | pre
    · exact movable.apart pre
    · exact movable.target_off pre
  refine ⟨entries, ran, fun more some => ?_, fun more some => ?_, fun key offKey offSource => ?_⟩
  · by_cases there : t.look (source ++ more) = none
    · rw [← old some, there]
      rw [kept (target ++ more) (fun mem => ((mem_iff _).mp mem).1 (unused some)) ?_]
      · exact unused some
      · intro other mem eq
        obtain ⟨more', some', rfl⟩ := isBelow_iff.mp ((mem_iff other).mp mem).2
        rw [rekeyed_append] at eq
        rw [append_cancel_left eq] at there
        exact ((mem_iff _).mp mem).1 there
    · have mem := (mem_iff (source ++ more)).mpr ⟨there, isBelow_iff.mpr ⟨more, some, rfl⟩⟩
      rw [← old some, ← (new _ mem).2, rekeyed_append]
  · by_cases there : t.look (source ++ more) = none
    · rw [kept _ (fun mem => ((mem_iff _).mp mem).1 there) (notRekeyed offTarget), there]
    · exact (new _ ((mem_iff (source ++ more)).mpr ⟨there, isBelow_iff.mpr ⟨more, some, rfl⟩⟩)).1
  · rw [kept key (fun mem => offSource ((mem_iff key).mp mem).2) (notRekeyed offKey), look]

omit movable in
/-- The end of a move, when the entries below have moved and the entry itself is in no place. -/
theorem moveKeys_end (entries : AList fun _ : Path => Entry) : ∃ u,
    (insertKey target entry >>= fun replaced => dropReplaced entry replaced) { t with entries } = (.ok (), u) ∧
      u.look = update (fun key => entries.lookup key) target (some entry) ∧ Counted t u entry (entries.lookup target) := by
  obtain ⟨u, ran, sameEntries, counted⟩ :=
    @dropReplaced_run { t with entries := entries.insert target entry } entry (entries.lookup target)
  refine ⟨u, ran, ?_, counted.dirs, counted.freshness, counted.fifos, counted.links⟩
  funext key
  rw [look, sameEntries]
  exact congrFun (look_insert { t with entries } target entry) key

theorem moveKeys_run
    (entries : t.entries = s.entries) :
    ∃ u, moveKeys (sourceAbove ++ [sourceName]) (targetAbove ++ [targetName]) entry.isDir t = (.ok (), u) ∧
      u.look = moved s.look (sourceAbove ++ [sourceName]) (targetAbove ++ [targetName]) ∧
      Counted t u entry (s.look (targetAbove ++ [targetName])) := by
  have look : t.look = s.look := by
    funext key
    rw [look, look, entries]
  have look' : InMem.look { t with entries := t.entries.erase (sourceAbove ++ [sourceName]) } =
      update s.look (sourceAbove ++ [sourceName]) none := by
    rw [look_erase, look]
  have replaced {look' : Path → Option Entry} (emptied : Emptied s.look look' (sourceAbove ++ [sourceName]) (targetAbove ++ [targetName])) :
      look' (targetAbove ++ [targetName]) = s.look (targetAbove ++ [targetName]) := by
    rw [emptied.other _ (by simp [isBelow]), update_of_ne]
    · exact fun eq => movable.target_off ⟨[], by simp [eq]⟩
    · intro below
      obtain ⟨more, -, eq⟩ := isBelow_iff.mp below
      exact movable.apart ⟨more, eq.symm⟩
  rw [moveKeys, removeKey_bind, look, movable.found, ofOption_bind rfl]
  cases isDir : entry.isDir with
  | false =>
    obtain ⟨u, ran, moved, counted⟩ := @moveKeys_end t (targetAbove ++ [targetName]) entry (t.entries.erase (sourceAbove ++ [sourceName]))
    have emptied := emptied_of_leaf movable isDir
    refine ⟨u, ran, ?_, ?_⟩
    · rw [moved, ← emptied.moved movable.found, ← look']
      rfl
    · rw [← replaced emptied, ← look']
      exact counted
  | true =>
    obtain ⟨entries', ranBelow, emptied⟩ := rekey_emptied movable look'
    obtain ⟨u, ran, moved, counted⟩ := @moveKeys_end t (targetAbove ++ [targetName]) entry entries'
    refine ⟨u, ?_, by rw [moved, emptied.moved movable.found], replaced emptied ▸ counted⟩
    have read : ∀ next : InMem → Prog InMem (Halt RenameError) Unit, ∀ s, (Prog.get >>= next) s = next s s := fun _ _ => rfl
    rw [read, Prog.when, if_pos rfl, Prog.bind_of_ok ranBelow]
    exact ran

end

/-- The name and its entry are taken away and put back. -/
theorem moveKeys_same (found : t.look source = some entry) (leaf : entry.isDir = false) :
    ∃ u, moveKeys source source entry.isDir t = (.ok (), u) ∧ u.look = t.look ∧ Counted t u entry none := by
  obtain ⟨u, ran, same, counted⟩ := @moveKeys_end t source entry (t.entries.erase source)
  rw [moveKeys, removeKey_bind, found, ofOption_bind rfl, leaf]
  refine ⟨u, ran, ?_, AList.lookup_erase source t.entries ▸ counted⟩
  rw [same, show (fun key => (t.entries.erase source).lookup key) = _ from look_erase t source, update_idem, ← found,
    update_eq_self]

/-- The place below which an entry moves is not below itself. -/
theorem movable_of_checks (sound : Sound n s) (isDirSource : s.look sourceAbove = some (.dir sourceDir))
    (found : s.look (sourceAbove ++ [sourceName]) = some entry) (listed : s.kids sourceDir sourceName = some fileType)
    (isDirTarget : s.look targetAbove = some (.dir targetDir)) (named : Path.IsName targetName)
    (notInside : ¬(entry.isDir ∧ isBelow (sourceAbove ++ [sourceName]) (targetAbove ++ [targetName])))
    (notDir : ∀ id, s.look (targetAbove ++ [targetName]) ≠ some (.dir id))
    (onto : sourceAbove ++ [sourceName] ≠ targetAbove ++ [targetName]) :
    Tree.Movable s.look s.kids sourceAbove sourceName sourceDir targetAbove targetName targetDir entry fileType := by
  refine ⟨sound.tree, isDirSource, found, listed, isDirTarget, named, ?_, notDir⟩
  rintro ⟨more, eq⟩
  have strict : more ≠ [] := fun last => onto (by rw [← eq, last, append_nil])
  have dirSource : entry.isDir = true := by
    -- The directory above the target is at or below the source.
    obtain ⟨more, name, rfl⟩ := (eq_nil_or_concat' more).resolve_left strict
    rw [← append_assoc] at eq
    obtain ⟨above, -⟩ := append_inj' eq rfl
    by_cases last : more = []
    · rw [last, append_nil] at above
      rw [above, isDirTarget] at found
      cases found
      rfl
    · obtain ⟨id, isDir⟩ := sound.tree.ancestor (above ▸ isDirTarget) last (by simp)
      cases found.symm.trans isDir
      rfl
  exact notInside ⟨dirSource, isBelow_iff.mpr ⟨more, strict, eq.symm⟩⟩

theorem renameOther_triple (sound : Sound n s) (sourcePath targetPath : Path)
    (other : plain → ∀ key key' file, s.resolvedPath env.user sourcePath = .ok key → s.resolvedPath env.user targetPath = .ok key' →
      s.look key = some (.file file) → s.look key' = some (.file file) → key = key') :
    Acts plain s (renameOther env sourcePath targetPath) := by
  refine .read ?_
  rintro s rfl
  refine .bind (resolvedPath_triple _ _) fun source => .given fun resolvedSource => ?_
  refine .bind (resolvedPath_triple _ _) fun target => .given fun resolvedTarget => ?_
  refine .bind (parentAndEntry_triple _ _) ?_
  rintro ⟨sourceParent, sourceEntry⟩
  refine .given fun walkedSource => .bind (ofOption_triple fun _ => id) ?_
  rintro ⟨sourceAbove, sourceDir⟩
  refine .given fun parentSource => .bind (ofOption_triple fun _ => id) fun entry => .given fun there => ?_
  refine .bind failWhen_triple fun _ => .given fun notInside => .bind (parentAndEntry_triple _ _) ?_
  rintro ⟨targetParent, targetEntry⟩
  refine .given fun walkedTarget => .bind (ofOption_triple fun _ => id) ?_
  rintro ⟨targetAbove, targetDir⟩
  refine .given fun parentTarget => .bind failWhen_triple fun _ => .given fun notDir => ?_
  refine .bind failWhen_triple fun _ => .given fun notOver => ?_
  subst parentSource there parentTarget
  obtain ⟨sourceName, fileType, rfl, isDirSource, found, listed, admits⟩ :=
    (located_of_resolved sound resolvedSource walkedSource).found sound
  obtain ⟨missing, -⟩ | ⟨targetAbove', targetName, targetDir', rfl, named, same, isDirTarget, foundTarget⟩ :=
    located_of_resolved sound resolvedTarget walkedTarget
  · cases missing
  cases same
  subst foundTarget
  rw [lastName_append, lastName_append]
  refine .bind (moveChild_triple listed ?_) fun _ => ?_
  · rintro rfl
    cases isDirSource.symm.trans isDirTarget
    rfl
  rintro t ⟨entries, files, freshness, kids⟩
  have look : t.look = s.look := by
    funext key
    rw [look, look, entries]
  have kidsOf {u : InMem} (dirs : u.dirs = t.dirs) : u.kids = movedKids s.kids sourceDir sourceName targetDir targetName fileType := by
    funext dir name
    rw [← kids, InMem.kids, InMem.kids, dirs]
  by_cases onto : sourceAbove ++ [sourceName] = targetAbove ++ [targetName]
  · -- Two spellings of one path.
    obtain ⟨rfl, rfl⟩ := append_singleton_inj.mp onto
    cases isDirSource.symm.trans isDirTarget
    have leaf : entry.isDir = false := by simpa [found] using notDir
    obtain ⟨u, ran, moved, counted⟩ := @moveKeys_same t (sourceAbove ++ [sourceName]) entry (by rw [look, found]) leaf
    rw [ran]
    refine Quiet.effect ⟨moved.trans look, ?_, counted.freshness.trans freshness, fun file => ?_, fun file => ?_⟩
    · rw [kidsOf counted.dirs]
      funext dir name
      rw [movedKids]
      split_ifs with isName
      · rw [isName.1, isName.2, listed]
      · rfl
    · rw [counted.links, if_neg (by simp), files]
    · rw [counted.fifos, files]
  · have movable := movable_of_checks sound isDirSource found listed isDirTarget named notInside
      (fun id isDir => notDir (by simp [isDir, Entry.isDir])) onto
    obtain ⟨u, ran, moved, counted⟩ := moveKeys_run movable entries
    rw [ran]
    refine (Change.moved ⟨movable, ?_, moved, kidsOf counted.dirs, counted.freshness.trans freshness, fun file => ?_, fun file => ?_⟩).effect
    · rintro plain file rfl replaced
      exact onto (other plain _ _ file resolvedSource resolvedTarget found replaced)
    · rw [counted.fifos, files]
    · rw [counted.links, files]

end Rename

theorem rename_triple (sound : Sound n s) (source target : Arg)
    (other : plain → ∀ path path' key key' file, absolutePath source = .ok path → absolutePath target = .ok path' →
      s.resolvedPath env.user path = .ok key → s.resolvedPath env.user path' = .ok key' →
      s.look key = some (.file file) → s.look key' = some (.file file) → key = key') :
    Acts plain s (rename env source target) := by
  refine .bind (absolutePath_triple _ source) fun path => .given fun absolute => ?_
  refine .bind (absolutePath_triple _ target) fun path' => .given fun absolute' => ?_
  split_ifs
  · refine .bind (find_triple _ path) fun _ => .given fun _ => .pure ?_
    rintro t rfl
    exact .same
  · exact renameOther_triple sound path path' fun plain key key' file => other plain path path' key key' file absolute absolute'

end LiteBox.Fs.InMem
