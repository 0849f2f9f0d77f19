import LiteBox.Fs.InMemRuns
import LiteBox.Fs.InMemIo
import Mathlib.Data.Set.Card

/-! # Link counts and listings of the in-memory file system

The link count of a file is the number of its keys, and a directory lists its children as `stat` reports them, as
long as no call makes a name for a named pipe or replaces one name of a file by another. The entry `..` is right for
the root only.
-/

namespace LiteBox.Fs.InMem

open Function List AList Tree OFlags

open Mm (usizeMax)
open Run

variable {ε α : Type} {n dir : ℕ} {s t : InMem} {env : Env} {plain : Prop} {above : Path} {name : String} {entry : Entry}
  {fileType : FileType}

/-! ## What the counts and types say -/

/-- The keys of a file. -/
def keysOf (s : InMem) (file : ℕ) : Set Path := { key | s.look key = some (.file file) }

/-- The counts and the types in the children are those of the entries, and no directory without a key has children. -/
structure Told (s : InMem) : Prop where
  links : ∀ file, (s.files file).nlink = (s.keysOf file).ncard
  types : ∀ above name dir file, s.look above = some (.dir dir) → s.look (above ++ [name]) = some (.file file) →
    s.kids dir name = some (s.fileTypeOf file)
  barren : ∀ dir, (∀ key, s.look key ≠ some (.dir dir)) → ∀ name, s.kids dir name = none
  made : ∀ key entry, s.look key = some entry → entry.id < s.freshness

theorem keysOf_finite (s : InMem) (file : ℕ) : (s.keysOf file).Finite := by
  refine (finite_toSet s.entries.keys).subset fun key there => ?_
  exact mem_keys.mp (lookup_isSome.mp (by rw [show s.entries.lookup key = _ from there]; rfl))

variable {file : ℕ}

theorem fileTypeOf_congr (same : (t.files file).isFifo = (s.files file).isFifo) : t.fileTypeOf file = s.fileTypeOf file := by
  rw [fileTypeOf, fileTypeOf, same]

theorem Told.quiet (told : Told s) (quiet : Quiet s t) : Told t := by
  obtain ⟨look, kids, freshness, links, fifos⟩ := quiet
  refine ⟨fun file => ?_, fun above name dir file isDir found => ?_, ?_, ?_⟩
  · rw [links, told.links, keysOf, keysOf, look]
  · rw [look] at isDir found
    rw [kids, fileTypeOf_congr (fifos file)]
    exact told.types above name dir file isDir found
  · rw [look, kids]
    exact told.barren
  · rw [look, freshness]
    exact told.made

variable {name' : String} {above' : Path} {dir' : ℕ}

/-- A child of a directory is at the place of another one only if the directories are one. -/
theorem Sound.child_ne (sound : Sound n s) (isDir : s.look above = some (.dir dir))
    (isDir' : s.look above' = some (.dir dir')) (apart : above' ++ [name'] ≠ above ++ [name]) : ¬(dir' = dir ∧ name' = name) := by
  rintro ⟨rfl, rfl⟩
  exact apart (by rw [sound.tree.distinct _ _ _ isDir isDir'])

/-! ## A new entry -/

variable {entry' : Entry} {key : Path}

section Added

variable (added : Added plain s t above name dir entry fileType) (truth : Told s)

include added

theorem Added.kept (there : s.look key = some entry') : t.look key = some entry' := by
  rw [added.look, update_of_ne]
  · exact there
  · rintro rfl
    rw [added.absent] at there
    cases there

theorem Added.keysOf_own (own : entry = .file file) : t.keysOf file = insert (above ++ [name]) (s.keysOf file) := by
  ext key
  rw [Set.mem_insert_iff]
  constructor
  · intro there
    exact (added.was there).imp And.left And.right
  · rintro (rfl | there)
    · rw [keysOf, Set.mem_ofPred_eq, added.look, update_self, own]
    · exact added.kept there

theorem Added.keysOf_other (other : entry ≠ .file file) : t.keysOf file = s.keysOf file := by
  ext key
  constructor
  · intro there
    obtain ⟨-, same⟩ | ⟨-, was⟩ := added.was there
    · exact absurd same.symm other
    · exact was
  · exact added.kept

include truth

theorem Added.links (file : ℕ) : (t.files file).nlink = (t.keysOf file).ncard := by
  by_cases own : entry = .file file
  · have new : above ++ [name] ∉ s.keysOf file := by
      rw [keysOf, Set.mem_ofPred_eq, added.absent]
      simp
    rw [added.keysOf_own own, Set.ncard_insert_of_notMem new (s.keysOf_finite file)]
    obtain ⟨rfl, one⟩ | ⟨more, -⟩ := added.linked file own
    · have none : s.keysOf s.freshness = ∅ := by
        rw [Set.eq_empty_iff_forall_notMem]
        exact fun key there => absurd (truth.made key _ there) (lt_irrefl _)
      rw [one, none, Set.ncard_empty]
    · rw [more, truth.links]
  · rw [added.keysOf_other own, (added.others file own).1, truth.links]

theorem Added.types (sound : Sound n s) (holds : plain) (isDir : t.look above' = some (.dir dir'))
    (found : t.look (above' ++ [name']) = some (.file file)) : t.kids dir' name' = some (t.fileTypeOf file) := by
  obtain ⟨atKey, rfl⟩ | ⟨off, was⟩ := added.was found
  · obtain ⟨rfl, rfl⟩ := append_singleton_inj.mp atKey
    cases (added.kept added.isDir).symm.trans isDir
    rw [added.kids, if_neg nofun, if_pos ⟨rfl, rfl⟩, added.own file rfl holds]
  · have isDir' : s.look above' = some (.dir dir') := by
      obtain ⟨rfl, -⟩ | ⟨-, isDir⟩ := added.was isDir
      · obtain ⟨id, -, -, there, -⟩ := sound.tree.parent was (by simp)
        rw [added.absent] at there
        cases there
      · exact isDir
    have fifo : (t.files file).isFifo = (s.files file).isFifo := by
      by_cases own : entry = .file file
      · obtain ⟨rfl, -⟩ | ⟨-, fifo⟩ := added.linked file own
        · exact absurd (truth.made _ _ was) (lt_irrefl _)
        · exact fifo
      · exact (added.others file own).2
    rw [added.kids, if_neg (added.notDir sound isDir'), if_neg (sound.child_ne added.isDir isDir' off), fileTypeOf_congr fifo]
    exact truth.types above' name' dir' file isDir' was

theorem Added.told (sound : Sound n s) (holds : plain) : Told t := by
  refine ⟨added.links truth, fun above' name' dir' file isDir found => added.types truth sound holds isDir found, fun id unkeyed name' => ?_,
    fun key entry' there => ?_⟩
  · have notNew : entry ≠ .dir id := by
      rintro rfl
      exact unkeyed (above ++ [name]) (by rw [added.look, update_self])
    have notDir : ¬(id = dir ∧ name' = name) := by
      rintro ⟨rfl, -⟩
      exact unkeyed above (added.kept added.isDir)
    rw [added.kids, if_neg notNew, if_neg notDir]
    exact truth.barren id (fun key there => unkeyed key (added.kept there)) name'
  · obtain ⟨-, rfl⟩ | ⟨-, was⟩ := added.was there
    · obtain made | ⟨key, was⟩ := added.made
      · exact made
      · exact (truth.made key _ was).trans_le added.grows
    · exact (truth.made key entry' was).trans_le added.grows

end Added

/-! ## A removal -/

section Removed

variable (removed : Removed s t above name dir entry) (truth : Told s)

include removed

theorem Removed.kept (there : s.look key = some entry') (off : key ≠ above ++ [name]) :
    t.look key = some entry' := by
  rw [removed.look, update_of_ne off, there]

theorem Removed.keysOf_eq (file : ℕ) : t.keysOf file = s.keysOf file \ {above ++ [name]} := by
  ext key
  rw [Set.mem_sdiff, Set.mem_singleton_iff]
  constructor
  · exact fun there => ⟨(removed.was there).2, (removed.was there).1⟩
  · exact fun there => removed.kept there.1 there.2

include truth

theorem Removed.links (file : ℕ) : (t.files file).nlink = (t.keysOf file).ncard := by
  rw [removed.unlinked, removed.keysOf_eq, truth.links]
  split_ifs with own
  · have mem : above ++ [name] ∈ s.keysOf file := by
      rw [keysOf, Set.mem_ofPred_eq, removed.found, own]
    exact (Set.ncard_sdiff_singleton_of_mem mem).symm
  · rw [Set.sdiff_singleton_eq_self]
    intro there
    exact own (Option.some_inj.mp (removed.found.symm.trans there))

theorem Removed.told (sound : Sound n s) : Told t := by
  refine ⟨removed.links truth, fun above' name' dir' file isDir found => ?_, fun id unkeyed name' => ?_, fun key entry' there => ?_⟩
  · obtain ⟨off, was⟩ := removed.was found
    obtain ⟨-, isDir⟩ := removed.was isDir
    rw [removed.kids, if_neg (sound.child_ne removed.isDir isDir off), fileTypeOf_congr (removed.fifos file)]
    exact truth.types above' name' dir' file isDir was
  · rw [removed.kids]
    split_ifs
    · rfl
    by_cases own : entry = .dir id
    · exact removed.empty id own name'
    · refine truth.barren id (fun key there => unkeyed key (removed.kept there ?_)) name'
      rintro rfl
      exact own (Option.some_inj.mp (removed.found.symm.trans there))
  · rw [removed.freshness]
    exact truth.made key entry' (removed.was there).2

end Removed

/-! ## A move -/

section Moved

variable {sourceAbove targetAbove : Path} {sourceName targetName : String} {sourceDir targetDir : ℕ}

/-- Where a key goes when the entries at and below `source` move. -/
def carried (source target key : Path) : Path := if source <+: key then rekeyed source target key else key

variable (moved : Moved plain s t sourceAbove sourceName sourceDir targetAbove targetName targetDir entry fileType) (truth : Told s)

include moved

theorem Moved.kept (there : s.look key = some entry') (off : key ≠ targetAbove ++ [targetName]) :
    t.look (carried (sourceAbove ++ [sourceName]) (targetAbove ++ [targetName]) key) = some entry' := by
  rw [moved.look, carried]
  split_ifs with below
  · obtain ⟨more, rfl⟩ := below
    rw [rekeyed_append, moved_below, there]
  · rw [moved_other _ below, there]
    rintro ⟨more, rfl⟩
    obtain rfl := moved.movable.barren there
    exact off (append_nil _)

/-- Where the key of an entry was. -/
theorem Moved.was (there : t.look key = some entry') : ∃ old, old ≠ targetAbove ++ [targetName] ∧
    s.look old = some entry' ∧ carried (sourceAbove ++ [sourceName]) (targetAbove ++ [targetName]) old = key := by
  rw [moved.look] at there
  obtain ⟨more, rfl, was⟩ | ⟨offTarget, offSource, was⟩ := moved_cases there
  · refine ⟨_, ?_, was, ?_⟩
    · exact fun eq => moved.movable.apart ⟨more, eq⟩
    · rw [carried, if_pos (prefix_append _ _), rekeyed_append]
  · refine ⟨key, ?_, was, if_neg offSource⟩
    rintro rfl
    exact offTarget prefix_rfl

theorem Moved.carried_injOn : Set.InjOn (carried (sourceAbove ++ [sourceName]) (targetAbove ++ [targetName]))
    { key | s.look key ≠ none ∧ key ≠ targetAbove ++ [targetName] } := by
  have mixed {more : List String} {key : Path} (there : s.look key ≠ none ∧ key ≠ targetAbove ++ [targetName])
      (eq : targetAbove ++ [targetName] ++ more = key) : False := by
    obtain ⟨below, found⟩ := Option.ne_none_iff_exists'.mp there.1
    obtain rfl := moved.movable.barren (eq ▸ found)
    exact there.2 (by rw [← eq, append_nil])
  intro key there key' there' same
  unfold carried at same
  split_ifs at same with below below' below'
  · obtain ⟨more, rfl⟩ := below
    obtain ⟨more', rfl⟩ := below'
    rw [rekeyed_append, rekeyed_append] at same
    rw [append_cancel_left same]
  · obtain ⟨more, rfl⟩ := below
    rw [rekeyed_append] at same
    exact (mixed there' same).elim
  · obtain ⟨more, rfl⟩ := below'
    rw [rekeyed_append] at same
    exact (mixed there same.symm).elim
  · exact same

theorem Moved.keysOf_eq (file : ℕ) : t.keysOf file = carried (sourceAbove ++ [sourceName]) (targetAbove ++ [targetName]) ''
    (s.keysOf file \ {targetAbove ++ [targetName]}) := by
  ext key
  constructor
  · intro there
    obtain ⟨old, off, was, rfl⟩ := moved.was there
    exact ⟨old, ⟨was, off⟩, rfl⟩
  · rintro ⟨old, ⟨was, off⟩, rfl⟩
    exact moved.kept was off

include truth

theorem Moved.links (holds : plain) (file : ℕ) : (t.files file).nlink = (t.keysOf file).ncard := by
  have injective : Set.InjOn (carried (sourceAbove ++ [sourceName]) (targetAbove ++ [targetName]))
      (s.keysOf file \ {targetAbove ++ [targetName]}) := by
    refine moved.carried_injOn.mono ?_
    rintro key ⟨there, off⟩
    refine ⟨?_, off⟩
    rw [show s.look key = _ from there]
    simp
  rw [moved.keysOf_eq, injective.ncard_image, moved.replaced, truth.links]
  by_cases gone : targetAbove ++ [targetName] ∈ s.keysOf file
  · have other : entry ≠ .file file := fun own => moved.other holds file own gone
    rw [if_pos ⟨gone, other⟩, Set.ncard_sdiff_singleton_of_mem gone]
  · rw [if_neg fun both => gone both.1, Set.sdiff_singleton_eq_self gone]

theorem Moved.types (isDir : t.look above' = some (.dir dir'))
    (found : t.look (above' ++ [name']) = some (.file file)) : t.kids dir' name' = some (t.fileTypeOf file) := by
  have movable := moved.movable
  rw [moved.kids, fileTypeOf_congr (moved.fifos file)]
  rw [moved.look] at isDir found
  obtain ⟨more, atKey, was⟩ | ⟨offTarget, offSource, was⟩ := moved_cases found
  · rcases eq_nil_or_concat' more with rfl | ⟨more, last, rfl⟩
    · rw [append_nil] at atKey was
      obtain ⟨rfl, rfl⟩ := append_singleton_inj.mp atKey
      rw [moved_other (snoc_not_below _ _) fun below => movable.apart (below.trans (prefix_append _ _))] at isDir
      cases movable.targetParent.symm.trans isDir
      rw [movedKids, if_pos ⟨rfl, rfl⟩, ← movable.listed]
      exact truth.types _ _ _ file movable.sourceParent was
    · rw [← append_assoc] at atKey was
      obtain ⟨rfl, rfl⟩ := append_singleton_inj.mp atKey
      rw [moved_below] at isDir
      rw [movable.kids_below isDir]
      exact truth.types _ _ _ file isDir was
  · rw [moved_other (fun below => offTarget (below.trans (prefix_append _ _)))
      fun below => offSource (below.trans (prefix_append _ _))] at isDir
    rw [movable.kids_other isDir (fun eq => offSource (eq ▸ prefix_rfl)) fun eq => offTarget (eq ▸ prefix_rfl)]
    exact truth.types _ _ _ file isDir was

theorem Moved.told (holds : plain) : Told t := by
  have keyed {id : ℕ} {key : Path} (unkeyed : ∀ key, t.look key ≠ some (.dir id)) (there : s.look key = some (.dir id)) : False := by
    refine unkeyed _ (moved.kept there ?_)
    rintro rfl
    exact moved.movable.free id there
  refine ⟨moved.links truth holds, fun above' name' dir' file isDir found => moved.types truth isDir found, fun id unkeyed name' => ?_,
    fun key entry' there => ?_⟩
  · rw [moved.kids, movedKids, if_neg, if_neg]
    · exact truth.barren id (fun key there => keyed unkeyed there) name'
    · rintro ⟨rfl, -⟩
      exact keyed unkeyed moved.movable.sourceParent
    · rintro ⟨rfl, -⟩
      exact keyed unkeyed moved.movable.targetParent
  · obtain ⟨old, -, was, -⟩ := moved.was there
    rw [moved.freshness]
    exact truth.made old entry' was

end Moved

theorem Effect.told (effect : Effect plain s t) (sound : Sound n s) (truth : Told s) (holds : plain) : Told t := by
  obtain ⟨u, change, quiet⟩ := effect
  refine Told.quiet ?_ quiet
  cases change with
  | none => exact truth
  | added added => exact added.told truth sound holds
  | removed removed => exact removed.told truth sound
  | moved moved => exact moved.told truth holds

/-! ## Calls that change no name -/

section Quiet

variable {start : InMem}

theorem keeps_of_effect {program : Prog InMem (Halt ε) α} (triple : GoesOn plain start program) :
    Prog.Keeps (Effect plain start) program :=
  fun _ effect => triple.state effect (fun _ _ effect => effect) fun _ _ breaks => breaks.1

theorem setPerms_keeps (entry : Entry) (perms : Permissions) :
    Prog.Keeps (Effect plain start) (setPerms entry perms : Prog InMem (Halt ε) Unit) := by
  cases entry with
  | file file => exact keeps_of_effect (modifyFile_effect file (fun f => { f with perms }) (fun _ => rfl) fun _ => rfl)
  | dir dir =>
    refine fun s effect => effect.quiet ⟨rfl, ?_, rfl, fun _ => rfl, fun _ => rfl⟩
    funext dir' name
    show (update s.dirs dir { s.dirs dir with perms } dir').children.lookup name = _
    by_cases same : dir' = dir
    · subst same
      rw [update_self]
      rfl
    · rw [update_of_ne same]
      rfl
  | symlink link => exact fun s effect => effect.quiet ⟨rfl, rfl, rfl, fun _ => rfl, fun _ => rfl⟩

theorem atPath_keeps (wrap : PathError → ε) (result : Except (Halt PathError) α) : Prog.Keeps (Effect plain start) (atPath wrap result) := by
  intro s effect
  cases result <;> exact effect

theorem ofOption_keeps (failure : Halt ε) (option : Option α) : Prog.Keeps (Effect plain start) (Prog.ofOption failure option) := by
  intro s effect
  cases option <;> exact effect

theorem find_keeps (wrap : PathError → ε) (path : Path) : Prog.Keeps (Effect plain start) (find wrap env path) :=
  .bind .get fun _ => .bind (atPath_keeps _ _) fun _ => ofOption_keeps _ _

theorem failWhen_keeps {condition : Prop} [Decidable condition] {failure : Halt ε} :
    Prog.Keeps (Effect plain start) (Prog.when condition (.fail failure)) := .when (.fail _)

theorem chmod_keeps (path : Arg) (mode : Mode) : Prog.Keeps (Effect plain start) (chmod env path mode) :=
  .bind (atPath_keeps _ _) fun _ => .bind (find_keeps _ _) fun _ => .bind .get fun _ => .bind failWhen_keeps fun _ => setPerms_keeps _ _

theorem chown_keeps (path : Arg) (user group : Option ℕ) : Prog.Keeps (Effect plain start) (chown env path user group) :=
  .bind (atPath_keeps _ _) fun _ => .bind (find_keeps _ _) fun _ => .bind .get fun _ => .bind failWhen_keeps fun _ => setPerms_keeps _ _

theorem setTimes_keeps (path : Arg) (atime mtime : Option Timestamp) : Prog.Keeps (Effect plain start) (setTimes env path atime mtime) :=
  .bind (atPath_keeps _ _) fun _ => .bind (find_keeps _ _) fun _ => .bind .get fun _ => .bind failWhen_keeps fun _ => setPerms_keeps _ _

theorem chmodFd_keeps (fd : ℕ) (mode : Mode) : Prog.Keeps (Effect plain start) (chmodFd env fd mode) :=
  .bind .get fun _ => .bind (ofOption_keeps _ _) fun _ => .bind failWhen_keeps fun _ => setPerms_keeps _ _

theorem setDescriptor_keeps (fd : ℕ) (descriptor : Option Descriptor) :
    Prog.Keeps (Effect plain start) (setDescriptor fd descriptor : Prog InMem (Halt ε) Unit) := keeps_of_effect (setDescriptor_effect fd descriptor)

theorem read_keeps (fd len : ℕ) (offset : Option ℕ) : Prog.Keeps (Effect plain start) (read fd len offset) := by
  refine .bind .get fun s => ?_
  rcases s.descriptors fd with _ | (⟨file, readAllowed, writeAllowed, position, appendMode⟩ | dir)
  · exact .fail _
  · exact .bind failWhen_keeps fun _ => .bind failWhen_keeps fun _ => .bind (.when (setDescriptor_keeps _ _)) fun _ => .pure _
  · exact .fail _

theorem write_keeps (fd : ℕ) (buf : List UInt8) (offset : Option ℕ) : Prog.Keeps (Effect plain start) (write env fd buf offset) := by
  refine .bind .get fun s => ?_
  rcases s.descriptors fd with _ | (⟨file, readAllowed, writeAllowed, position, appendMode⟩ | dir)
  · exact .fail _
  · refine .bind failWhen_keeps fun _ => .bind failWhen_keeps fun _ => .bind failWhen_keeps fun _ => ?_
    refine .bind (keeps_of_effect (modifyFile_effect file _ (fun _ => rfl) fun _ => rfl)) fun _ => ?_
    exact .bind (.when (setDescriptor_keeps _ _)) fun _ => .pure _
  · exact .fail _

theorem seek_keeps (fd : ℕ) (offset : ℤ) (whence : SeekWhence) : Prog.Keeps (Effect plain start) (seek fd offset whence) := by
  refine .bind .get fun s => ?_
  rcases s.descriptors fd with _ | (⟨file, readAllowed, writeAllowed, position, appendMode⟩ | dir)
  · exact .fail _
  · exact .bind failWhen_keeps fun _ => .bind failWhen_keeps fun _ => .bind (setDescriptor_keeps _ _) fun _ => .pure _
  · exact .fail _

theorem serve_keeps (request : Request) : Prog.Keeps (Effect plain start) (serve env request) := by
  cases request with
  | read fd len offset => exact .mapError (.bind (read_keeps fd len offset) fun _ => .pure _)
  | write fd buf offset => exact .mapError (.bind (write_keeps fd buf offset) fun _ => .pure _)
  | seek fd offset whence => exact .mapError (.bind (seek_keeps fd offset whence) fun _ => .pure _)
  | truncate fd length resetOffset => exact .mapError (.bind (keeps_of_effect (truncate_effect fd length resetOffset)) fun _ => .pure _)

end Quiet

/-! ## Listings -/

/-- The number of keys that name a file. -/
def linkCount (s : InMem) (file : ℕ) : ℕ := s.entries.keys.countP fun key => s.entries.lookup key = some (.file file)

/-- A list of entries is the children of a directory, each with the type and the node that `stat` reports for it. -/
def Lists (s : InMem) (dir : ℕ) (children : List DirEntry) : Prop :=
  (children.map DirEntry.name).Nodup ∧ ∀ child : DirEntry, child ∈ children ↔ ∃ path entry, s.look path = some (.dir dir) ∧
    s.look (path ++ [child.name]) = some entry ∧ child.fileType = (s.statusOf entry).fileType ∧
    child.inoInfo = some (s.statusOf entry).nodeInfo

theorem linkCount_eq (s : InMem) (file : ℕ) : s.linkCount file = (s.keysOf file).ncard := by
  have eq : s.keysOf file = ↑(s.entries.keys.filter fun key => s.entries.lookup key = some (.file file)).toFinset := by
    ext key
    simp only [coe_toFinset, mem_filter, decide_eq_true_eq]
    refine ⟨fun there => ⟨?_, there⟩, fun there => there.2⟩
    exact mem_keys.mp (lookup_isSome.mp (by rw [show s.entries.lookup key = _ from there]; rfl))
  rw [eq, Set.ncard_coe_finset, toFinset_card_of_nodup ((keys_nodup _).filter _), linkCount, countP_eq_length_filter]

/-- The path that `read_dir` finds for a directory. -/
def pathOf (s : InMem) (dir : ℕ) : Path := ((s.entries.entries.find? fun entry => entry.2 = .dir dir).map (·.1)).getD [""]

variable {path : Path}

theorem pathOf_eq (sound : Sound n s) (isDir : s.look path = some (.dir dir)) : s.pathOf dir = path := by
  unfold pathOf
  have mem : (⟨path, .dir dir⟩ : Sigma fun _ : Path => Entry) ∈ s.entries.entries := mem_lookup_iff.mp isDir
  cases found : s.entries.entries.find? fun entry => entry.2 = .dir dir with
  | none => exact absurd (find?_eq_none.mp found _ mem) (by simp)
  | some first =>
    obtain ⟨key, entry⟩ := first
    obtain rfl : entry = .dir dir := by simpa using find?_some found
    exact sound.tree.distinct _ _ _ (mem_lookup_iff.mpr (mem_of_find?_eq_some found)) isDir

theorem nodeAt_eq (found : s.look path = some entry) : s.nodeAt path = some (s.statusOf entry).nodeInfo := by
  rw [nodeAt, show s.entries.lookup path = _ from found]
  cases entry <;> rfl

theorem Told.fileType_eq (truth : Told s) (sound : Sound n s) (isDir : s.look path = some (.dir dir))
    (found : s.look (path ++ [name]) = some entry) (listed : s.kids dir name = some fileType) :
    fileType = (s.statusOf entry).fileType := by
  obtain ⟨dir', fileType', -, isDir', listed', admits⟩ := sound.tree.parent found (sound.tree.ne_nil isDir)
  cases isDir.symm.trans isDir'
  cases listed.symm.trans listed'
  cases entry with
  | file file =>
    rw [truth.types path name dir file isDir found] at listed
    exact (Option.some_inj.mp listed).symm
  | dir id => exact admits
  | symlink id => exact admits

/-- What `read_dir` lists besides `.` and `..`. -/
theorem lists_children (sound : Sound n s) (truth : Told s) : s.Lists dir ((s.dirs dir).children.entries.map fun child =>
    ⟨child.1, child.2, s.nodeAt (s.pathOf dir ++ [child.1])⟩) := by
  refine ⟨?_, fun child => ?_⟩
  · rw [map_map]
    exact (s.dirs dir).children.keys_nodup
  rw [mem_map]
  constructor
  · rintro ⟨⟨name, fileType⟩, mem, rfl⟩
    have listed : s.kids dir name = some fileType := mem_lookup_iff.mpr mem
    by_cases keyed : ∃ path, s.look path = some (.dir dir)
    · obtain ⟨path, isDir⟩ := keyed
      obtain ⟨entry, found⟩ := Option.isSome_iff_exists.mp (sound.tree.child path dir name fileType isDir listed)
      refine ⟨path, entry, isDir, found, truth.fileType_eq sound isDir found listed, ?_⟩
      rw [pathOf_eq sound isDir, nodeAt_eq found]
    · rw [truth.barren dir (not_exists.mp keyed) name] at listed
      cases listed
  · rintro ⟨path, entry, isDir, found, sameType, sameNode⟩
    obtain ⟨dir', fileType, -, isDir', listed, -⟩ := sound.tree.parent found (sound.tree.ne_nil isDir)
    cases isDir.symm.trans isDir'
    refine ⟨⟨child.name, fileType⟩, mem_lookup_iff.mp listed, ?_⟩
    rw [pathOf_eq sound isDir, nodeAt_eq found, ← sameNode, truth.fileType_eq sound isDir found listed, ← sameType]

/-- The entry `..` has the node of the directory itself, so it is right for the root only. -/
theorem parent_listed_iff (sound : Sound n s) (isDir : s.look path = some (.dir dir)) :
    s.nodeAt path = s.nodeAt path.dirname ↔ path = [""] := by
  constructor
  · intro same
    by_contra notRoot
    obtain ⟨above, name, dir', -, rfl, -, isDir', -⟩ := (sound.tree.node path _ isDir).resolve_left notRoot
    have upper : Path.dirname (above ++ [name]) = above := by
      have := length_pos_iff.mpr (sound.tree.ne_nil isDir')
      rw [Path.dirname, if_neg, dropLast_concat]
      simp only [length_append, length_singleton]
      omega
    rw [upper, nodeAt_eq isDir, nodeAt_eq isDir'] at same
    have sameDir : dir = dir' := congrArg NodeInfo.ino (Option.some_inj.mp same)
    subst sameDir
    have := congrArg List.length (sound.tree.distinct _ _ _ isDir isDir')
    simp at this
  · rintro rfl
    rfl

/-! ## Runs -/

inductive Command where
  | name (call : Call)
  | io (request : Request)
  | close (fd : ℕ)
  | chmod (path : Arg) (mode : Mode)
  | chmodFd (fd : ℕ) (mode : Mode)
  | chown (path : Arg) (user group : Option ℕ)
  | setTimes (path : Arg) (atime mtime : Option Timestamp)

def commandStep (s : InMem) (event : Env × Command) : InMem :=
  match event.2 with
  | .name call => step s (event.1, call)
  | .io request => ioStep s (event.1, request)
  | .close fd => ((close fd : Prog InMem (Halt Unit) Unit) s).2
  | .chmod path mode => (chmod event.1 path mode s).2
  | .chmodFd fd mode => (chmodFd event.1 fd mode s).2
  | .chown path user group => (chown event.1 path user group s).2
  | .setTimes path atime mtime => (setTimes event.1 path atime mtime s).2

/-- The condition on a call, `Plain`, for every command. -/
def PlainCommand (s : InMem) (event : Env × Command) : Prop :=
  match event.2 with
  | .name call => Plain event.1 s call
  | _ => True

theorem commandStep_effect (few : n + 1 < usizeMax) (sound : Sound n s) (event : Env × Command) :
    Effect (s.PlainCommand event) s (commandStep s event) := by
  obtain ⟨env, command⟩ := event
  cases command with
  | name call => exact step_effect few sound (env, call)
  | io request => exact serve_keeps request s .same
  | close fd => exact setDescriptor_keeps fd none s .same
  | chmod path mode => exact chmod_keeps path mode s .same
  | chmodFd fd mode => exact chmodFd_keeps fd mode s .same
  | chown path user group => exact chown_keeps path user group s .same
  | setTimes path atime mtime => exact setTimes_keeps path atime mtime s .same

/-- `stat` reports the number of keys of every file, and a listing of an open directory is `.` with its own node, `..`, which is right
for the root only, and its children. -/
def Truthful (s : InMem) : Prop :=
  (∀ file, (s.statusOf (.file file)).nlink = s.linkCount file) ∧
    ∀ fd dir, s.descriptors fd = some (.dir dir) → ∃ parent children,
      (readDir fd s).1 = .ok (⟨".", .directory, some (s.statusOf (.dir dir)).nodeInfo⟩ :: ⟨"..", .directory, parent⟩ :: children) ∧
      s.Lists dir children ∧ ∀ path, s.look path = some (.dir dir) → (parent = s.nodeAt path.dirname ↔ path = [""])

theorem Told.truthful (truth : Told s) (sound : Sound n s) : s.Truthful := by
  refine ⟨fun file => (truth.links file).trans (linkCount_eq s file).symm, fun fd dir opened => ?_⟩
  refine ⟨s.nodeAt (s.pathOf dir), _, ?_, lists_children sound truth, fun path isDir => ?_⟩
  · rw [readDir, Prog.bind_of_ok (Prog.get_apply s), opened]
    rfl
  · rw [pathOf_eq sound isDir]
    exact parent_listed_iff sound isDir

theorem new_told (now : Timestamp) : Told (new now) := by
  have look {key : Path} {entry : Entry} (there : (new now).look key = some entry) : key = [""] ∧ entry = .dir 0 := by
    by_cases root : key = [""]
    · subst root
      exact ⟨rfl, (Option.some_inj.mp there).symm⟩
    · have absent : (new now).look key = none := lookup_insert_ne root
      rw [absent] at there
      cases there
  refine ⟨fun file => ?_, fun above name dir file _ found => ?_, fun _ _ _ => rfl, fun key entry there => ?_⟩
  · have none : (new now).keysOf file = ∅ := by
      rw [Set.eq_empty_iff_forall_notMem]
      intro key there
      cases (look there).2
    rw [none, Set.ncard_empty]
    rfl
  · cases (look found).2
  · rw [(look there).2]
    exact Nat.zero_lt_one

/-- In fewer than `usize::MAX` calls that make no name of a named pipe and replace no name of a file by another name of it, the link
counts and the listings are true in every state. -/
theorem counts_and_listings (now : Timestamp) (events : List (Env × Command)) (few : events.length < usizeMax)
    (plain : Always commandStep PlainCommand (new now) events) : (run commandStep (new now) events).Truthful := by
  suffices rest : ∀ (events : List (Env × Command)) (n : ℕ) (s : InMem), Sound n s → Told s → n + events.length < usizeMax →
      Always commandStep PlainCommand s events → (run commandStep s events).Truthful from
    rest events 0 _ (new_sound now) (new_told now) (by simpa using few) plain
  intro events
  induction events with
  | nil => exact fun n s sound truth _ _ => truth.truthful sound
  | cons event rest ih =>
    intro n s sound truth few plain
    rw [length_cons] at few
    have effect := commandStep_effect (by omega : n + 1 < usizeMax) sound event
    exact ih (n + 1) _ (effect.sound sound) (effect.told sound truth plain.1) (by omega) plain.2

/-- A file with two names. -/
def twoNames : List (Env × Command) :=
  [(rootEnv, .name (.openPath (some ["", "a"]) (creat ||| rdwr) 0o644)),
    (rootEnv, .name (.link (some ["", "a"]) (some ["", "b"])))]

theorem counts_and_listings_twoNames : (run commandStep (new epoch) twoNames).linkCount 1 = 2 ∧
    (run commandStep (new epoch) twoNames).Truthful := by
  refine ⟨by decide +kernel, counts_and_listings epoch twoNames (by decide) ⟨trivial, ?_, trivial⟩⟩
  intro path parent file absolute found
  cases absolute
  cases found
  rfl

/-- The state after `rename` of one of two names of a file onto the other. -/
def ontoItself : InMem := run commandStep (new epoch) (twoNames ++ [(rootEnv, .name (.rename (some ["", "a"]) (some ["", "b"])))])

/-- The state after a second name of a named pipe, with the root open. -/
def linkedPipe : InMem :=
  run commandStep (new epoch) [(rootEnv, .name (.makeFifo (some ["", "p"]) 0o644)),
    (rootEnv, .name (.link (some ["", "p"]) (some ["", "q"]))), (rootEnv, .name (.openPath (some ["", ""]) rdonly 0))]

/-- The state with a directory in the root, open. -/
def openedDir : InMem :=
  run commandStep (new epoch) [(rootEnv, .name (.mkdir (some ["", "d"]) 0o755)),
    (rootEnv, .name (.openPath (some ["", "d"]) rdonly 0))]

/-- The count is two with one key; the pipe's second name is listed as a regular file; the parent of a directory in the root is
listed with the node of the directory. -/
theorem counts_and_listings_fail :
    ((ontoItself.statusOf (.file 1)).nlink = 2 ∧ ontoItself.linkCount 1 = 1) ∧
    (⟨"q", .regularFile, some (nodeInfo 1)⟩ ∈ (readDir 0 linkedPipe).1.toOption.getD [] ∧ linkedPipe.look ["", "q"] = some (.file 1) ∧
      (linkedPipe.statusOf (.file 1)).fileType = .fifo) ∧
    ⟨"..", .directory, some (nodeInfo 1)⟩ ∈ (readDir 0 openedDir).1.toOption.getD [] ∧ openedDir.look [""] = some (.dir 0) := by
  decide +kernel

end LiteBox.Fs.InMem
