import LiteBox.Fs.InMemRename
import LiteBox.Lib.Run

/-! # The in-memory file system is a tree

Every call keeps the agreement of the keys and the children, whether it succeeds or fails, and reaches none of
its asserts. Only the counter for identifiers ends a run, after as many calls as it can count.
-/

namespace LiteBox.Fs.InMem

open List Prog AList Mode

open Mm (usizeMax)
open Run

variable {ε α : Type} {n : ℕ} {s t : InMem} {env : Env} {plain : Prop}

/-! ## Opening -/

theorem resolveFinalSymlinks_quiet {user : UserInfo} (hops : ℕ) (path : Path) {halt : Halt PathError}
    (failed : s.resolveFinalSymlinks user hops path = .error halt) : ¬halt.IsPanic := by
  induction hops generalizing path with
  | zero =>
    cases failed
    exact id
  | succ hops ih =>
    have walked := @walk_spec s user maxIntermediateHops path
    unfold resolveFinalSymlinks parentAndEntry at failed
    revert failed walked
    rcases s.walk user maxIntermediateHops path with halt' | ⟨parent, entry⟩
    · rintro quiet ⟨⟩
      exact quiet
    · intro _
      rcases entry with _ | (_ | _ | link)
      · nofun
      · nofun
      · nofun
      · exact fun failed => ih _ failed

theorem openExisting_triple (path : Path) (flags : OFlags) : Acts plain s (openExisting env path flags) := by
  refine .bind (find_triple _ path) fun _ => .given fun _ => .pure ?_
  rintro t rfl
  exact .same

theorem openOrCreate_triple (few : n + 1 < usizeMax) (sound : Sound n s) (path : Path) (flags : OFlags) (mode : Mode) :
    Acts plain s (openOrCreate env path flags mode) := by
  refine .bind (locate_triple sound _ path) ?_
  rintro ⟨path, parent, entry⟩
  refine .given fun located => ?_
  cases entry with
  | some entry =>
    refine .bind failWhen_triple fun _ => .pure ?_
    rintro t ⟨rfl, -⟩
    exact .same
  | none =>
    refine .bind (ofOption_triple fun missing => absurd missing (located.parent (by simp))) ?_
    rintro ⟨_, dir⟩
    refine .given fun parented => .bind (requireWritable_triple _) fun _ => ?_
    exact .bind (addEntry_triple sound located parented (by simp) fun _ => newFile_makes few _ false) fun _ => .pure fun _ effect => effect

theorem openEntry_triple (few : n + 1 < usizeMax) (sound : Sound n s) (path : Path) (flags : OFlags) (mode : Mode) :
    Acts plain s (openEntry env path flags mode) := by
  unfold openEntry
  split_ifs
  · exact openOrCreate_triple few sound path flags mode
  · exact openExisting_triple path flags
  · refine .read ?_
    rintro s rfl
    refine .bind (atPath_triple fun _ failed => resolveFinalSymlinks_quiet _ _ failed) fun path => .given fun _ => ?_
    exact openExisting_triple path flags

/-! ## Operations on descriptors -/

section Descriptors

variable {start : InMem}

/-- After an effect on `start` the step adds none to it. -/
abbrev GoesOn (plain : Prop) (start : InMem) (program : Prog InMem (Halt ε) α) : Prop :=
  Prog.Triple (Effect plain start) program (fun _ => Effect plain start) (Breaks plain start)

/-- A step that fails with an error of its own, after the tree was changed. -/
theorem failWhen_effect {condition : Prop} [Decidable condition] {failure : ε} :
    GoesOn plain start (when condition (.fail (.error failure))) :=
  .when (fun _ => .fail fun _ effect => ⟨effect, id⟩) fun _ _ effect => effect

theorem quiet_descriptors (s : InMem) (descriptors : ℕ → Option Descriptor) (nextFd : ℕ) : Quiet s { s with descriptors, nextFd } :=
  ⟨rfl, rfl, rfl, fun _ => rfl, fun _ => rfl⟩

theorem setDescriptor_effect (fd : ℕ) (descriptor : Option Descriptor) :
    GoesOn plain start (setDescriptor fd descriptor : Prog InMem (Halt ε) Unit) :=
  fun s effect => effect.quiet (quiet_descriptors s _ _)

theorem insertDescriptor_effect (descriptor : Descriptor) :
    GoesOn plain start (insertDescriptor descriptor : Prog InMem (Halt ε) ℕ) :=
  fun s effect => effect.quiet (quiet_descriptors s _ _)

/-- A change of a file that is not about its names. -/
theorem modifyFile_effect (file : ℕ) (change : FileX → FileX) (links : ∀ f, (change f).nlink = f.nlink)
    (fifos : ∀ f, (change f).isFifo = f.isFifo) : GoesOn plain start (modifyFile file change : Prog InMem (Halt ε) Unit) := by
  refine fun s effect => effect.quiet ⟨rfl, rfl, rfl, fun file' => ?_, fun file' => ?_⟩
  · by_cases same : file' = file
    · subst same
      simp [links]
    · simp [same]
  · by_cases same : file' = file
    · subst same
      simp [fifos]
    · simp [same]

theorem makeDescriptor_effect (entry : Entry) (flags : OFlags) (readAllowed writeAllowed : Bool) :
    GoesOn plain start (makeDescriptor entry flags readAllowed writeAllowed) := by
  cases entry with
  | file => exact .bind failWhen_effect fun _ => insertDescriptor_effect _
  | dir => exact insertDescriptor_effect _
  | symlink => exact .fail fun _ effect => ⟨effect, id⟩

theorem truncate_effect (fd length : ℕ) (resetOffset : Bool) : GoesOn plain start (truncate env fd length resetOffset) := by
  refine .read fun s effect => .at_state ?_ effect
  rcases s.descriptors fd with _ | (⟨file, readAllowed, writeAllowed, position, appendMode⟩ | dir)
  · exact .fail fun _ effect => ⟨effect, id⟩
  · refine .bind failWhen_effect fun _ => .bind failWhen_effect fun _ => .bind failWhen_effect fun _ => ?_
    refine .bind (modifyFile_effect file _ (fun _ => rfl) fun _ => rfl) fun _ => ?_
    exact .when (fun _ => setDescriptor_effect _ _) fun _ _ effect => effect
  · exact .fail fun _ effect => ⟨effect, id⟩

theorem truncateOpened_effect (fd : ℕ) : GoesOn plain start (truncateOpened env fd) := by
  intro s effect
  have truncated := @truncate_effect env plain start fd 0 true s effect
  rw [truncateOpened, bind_apply, attempt_apply]
  revert truncated
  rcases truncate env fd 0 true s with ⟨halt | value, t⟩
  · rintro ⟨effect, quiet⟩
    exact ⟨effect.quiet (quiet_descriptors t _ _), by simpa using quiet⟩
  · exact id

end Descriptors

theorem openPath_triple (few : n + 1 < usizeMax) (sound : Sound n s) (path : Arg) (flags : OFlags) (mode : Mode) :
    Acts plain s (openPath env path flags mode) := by
  refine .bind failWhen_triple fun _ => .given fun _ => .bind (absolutePath_triple _ path) fun path => .given fun _ => ?_
  refine .bind (openEntry_triple few sound path flags mode) ?_
  rintro ⟨entry, created, flags⟩
  refine .read fun t effect => .at_state ?_ effect
  refine .bind failWhen_effect fun _ => .bind failWhen_effect fun _ => .bind (makeDescriptor_effect _ _ _ _) fun fd => ?_
  exact .bind (.when (fun _ => truncateOpened_effect fd) fun _ _ effect => effect) fun _ => .pure fun _ effect => effect

/-! ## Runs -/

inductive Call where
  | openPath (path : Arg) (flags : OFlags) (mode : Mode)
  | unlink (path : Arg)
  | rename (source target : Arg)
  | link (oldpath newpath : Arg)
  | symlink (target linkpath : Arg)
  | makeFifo (path : Arg) (mode : Mode)
  | mkdir (path : Arg) (mode : Mode)
  | rmdir (path : Arg)

/-- A call with only how it ends. -/
def ending {α ε : Type} (program : Prog InMem (Halt ε) α) : Prog InMem (Halt Unit) Unit :=
  (program >>= fun _ => pure ()).mapError (Halt.map fun _ => ())

def perform (env : Env) : Call → Prog InMem (Halt Unit) Unit
  | .openPath path flags mode => ending (openPath env path flags mode)
  | .unlink path => ending (unlink env path)
  | .rename source target => ending (rename env source target)
  | .link oldpath newpath => ending (link env oldpath newpath)
  | .symlink target linkpath => ending (symlink env target linkpath)
  | .makeFifo path mode => ending (makeFifo env path mode)
  | .mkdir path mode => ending (mkdir env path mode)
  | .rmdir path => ending (rmdir env path)

def step (s : InMem) (event : Env × Call) : InMem := (perform event.1 event.2 s).2

/-- The call reaches an assert, an unwrap or an unreachable branch. -/
def Panics (s : InMem) (event : Env × Call) : Prop := ∃ halt, (perform event.1 event.2 s).1 = .error halt ∧ halt.IsPanic

/-- The keys and the children agree: every key besides the root has the key above it as a directory that lists its name, and every
name that a directory lists has one key. -/
def Agree (s : InMem) : Prop :=
  (∀ key ∈ s.entries.keys, key ≠ [""] → ∃ above name dir, key = above ++ [name] ∧ s.entries.lookup above = some (.dir dir) ∧
    name ∈ (s.dirs dir).children.keys) ∧
  ∀ above dir, s.entries.lookup above = some (.dir dir) → ∀ name ∈ (s.dirs dir).children.keys,
    s.entries.keys.count (above ++ [name]) = 1

theorem Sound.agree (sound : Sound n s) : s.Agree := by
  have listed {dir : ℕ} {name : String} : name ∈ (s.dirs dir).children.keys ↔ s.kids dir name ≠ none := by
    rw [← AList.mem_keys, ← AList.lookup_isSome, Option.isSome_iff_ne_none]
    rfl
  constructor
  · intro key mem notRoot
    obtain ⟨entry, found⟩ := Option.isSome_iff_exists.mp (lookup_isSome.mpr (mem_keys.mpr mem))
    obtain ⟨above, name, dir, fileType, rfl, -, isDir, there, -⟩ := (sound.tree.node key entry found).resolve_left notRoot
    exact ⟨above, name, dir, rfl, isDir, listed.mpr (by simp [there])⟩
  · intro above dir isDir name mem
    obtain ⟨fileType, there⟩ := Option.ne_none_iff_exists'.mp (listed.mp mem)
    refine count_eq_one_of_mem (keys_nodup _) ?_
    exact mem_keys.mp (lookup_isSome.mp (sound.tree.child above dir name fileType isDir there))

/-- No name of the file that a call is about is hidden from the count: a `link` is not of a named pipe, and a `rename` does not
replace a name of the file that it moves. -/
def Plain (env : Env) (s : InMem) : Call → Prop
  | .link oldpath _ => ∀ path parent file, absolutePath oldpath = .ok path →
      s.parentAndEntry env.user path = .ok (parent, some (.file file)) → (s.files file).isFifo = false
  | .rename source target => ∀ path path' key key' file, absolutePath source = .ok path → absolutePath target = .ok path' →
      s.resolvedPath env.user path = .ok key → s.resolvedPath env.user path' = .ok key' →
      s.look key = some (.file file) → s.look key' = some (.file file) → key = key'
  | _ => True

theorem ending_effect {program : Prog InMem (Halt ε) α} (triple : Acts plain s program) : Acts plain s (ending program) :=
  .mapError (.bind triple fun _ => .pure fun _ effect => effect) fun _ _ breaks => ⟨breaks.1, by simpa using breaks.2⟩

theorem perform_effect (few : n + 1 < usizeMax) (sound : Sound n s) (call : Call) :
    Prog.Triple (· = s) (perform env call) (fun _ => Effect (Plain env s call) s) (Breaks (Plain env s call) s) := by
  cases call with
  | openPath path flags mode => exact ending_effect (openPath_triple few sound path flags mode)
  | unlink path => exact ending_effect (unlink_triple sound path)
  | rename source target => exact ending_effect (rename_triple sound source target id)
  | link oldpath newpath => exact ending_effect (link_triple few sound oldpath newpath id)
  | symlink target linkpath => exact ending_effect (symlink_triple few sound target linkpath)
  | makeFifo path mode => exact ending_effect (makeFifo_triple few sound path mode)
  | mkdir path mode => exact ending_effect (mkdir_triple few sound path mode)
  | rmdir path => exact ending_effect (rmdir_triple sound path)

theorem perform_triple (few : n + 1 < usizeMax) (sound : Sound n s) (call : Call) :
    Prog.Triple (· = s) (perform env call) (fun _ => Sound (n + 1)) (Fails n) :=
  .imp (perform_effect few sound call) (fun _ eq => eq) (fun _ _ effect => effect.sound sound) fun _ _ breaks =>
    ⟨breaks.1.sound sound, breaks.2⟩

theorem step_sound (few : n + 1 < usizeMax) (sound : Sound n s) (event : Env × Call) :
    Sound (n + 1) (step s event) ∧ ¬Panics s event := by
  have ends := @perform_triple n s event.1 few sound event.2 s rfl
  unfold step Panics
  revert ends
  rcases perform event.1 event.2 s with ⟨halt | value, t⟩
  · rintro ⟨sound, quiet⟩
    refine ⟨sound, ?_⟩
    rintro ⟨halt', eq, panics⟩
    cases eq
    exact quiet panics
  · exact fun sound => ⟨sound, by simp⟩

/-- What a call does, whether it succeeds or fails. -/
theorem step_effect (few : n + 1 < usizeMax) (sound : Sound n s) (event : Env × Call) :
    Effect (Plain event.1 s event.2) s (step s event) :=
  (perform_effect few sound event.2).state rfl (fun _ _ effect => effect) fun _ _ breaks => breaks.1

theorem new_sound (now : Timestamp) : Sound 0 (new now) := by
  have look (key : Path) : (new now).look key = if key = [""] then some (.dir 0) else none := by
    by_cases root : key = [""]
    · subst root
      rfl
    · rw [if_neg root]
      exact lookup_insert_ne root
  refine ⟨⟨by simp [look], fun key entry found => ?_, fun _ _ _ _ _ listed => ?_, fun key key' dir there there' => ?_⟩,
    fun key dir isDir => ?_, le_rfl, fun _ => Nat.zero_le _⟩
  · by_contra other
    simp [look, (not_or.mp other).1] at found
  · cases listed
  · by_cases root : key = [""] <;> by_cases root' : key' = [""]
    · rw [root, root']
    · simp [look, root'] at there'
    · simp [look, root] at there
    · simp [look, root] at there
  · by_cases root : key = [""]
    · simp [look, root] at isDir
      rw [← isDir]
      exact Nat.zero_lt_one
    · simp [look, root] at isDir

/-- The root user, at no particular time. -/
def rootEnv : Env := ⟨.root, epoch⟩

/-- A directory comes, and goes. -/
def comeAndGo : List (Env × Call) := [(rootEnv, .mkdir (some ["", "a"]) 0), (rootEnv, .rmdir (some ["", "a"]))]

/-- Names without end. -/
def nth (n : ℕ) : String := .ofList (List.replicate (n + 1) 'a')

theorem nth_injective : Function.Injective nth := fun m n same => by
  simpa [nth] using congrArg String.length same

theorem nth_isName (n : ℕ) : Path.IsName (nth n) := by
  refine ⟨fun same => ?_, fun same => ?_, fun same => ?_⟩ <;> simpa [nth, replicate_succ] using congrArg String.toList same

/-- A file system where the next call is the one for the name `n`. -/
structure Bare (n : ℕ) (s : InMem) : Prop where
  root : s.look [""] = some (.dir 0)
  free : ∀ m, n ≤ m → s.look ["", nth m] = none
  unlisted : ∀ m, n ≤ m → s.kids 0 (nth m) = none
  searchable : (s.dirs 0).perms.canExecuteBy .root
  fresh : s.freshness = n + 1

theorem components_nth (n : ℕ) : Path.normalizedComponents ["", nth n] = ["", nth n] :=
  Path.normalizedComponents_names (by simpa using nth_isName n) (by simp)

theorem parentAndEntry_nth (bare : Bare n s) : s.parentAndEntry .root ["", nth n] = .ok (some ([""], 0), none) := by
  obtain ⟨named, -, notUp⟩ := nth_isName n
  unfold parentAndEntry walk
  rw [components_nth, walkComponents, if_pos (.inl rfl), if_neg (by simp), walkComponents, if_neg (by simp [named, notUp]),
    show s.entries.lookup [""] = _ from bare.root]
  simp only [bare.searchable, if_true, walkComponents]
  rw [show s.entries.lookup ([""] ++ [nth n]) = _ from bare.free n le_rfl]

theorem locate_nth (wrap : PathError → ε) (bare : Bare n s) :
    locate wrap rootEnv ["", nth n] s = (.ok (["", nth n], some ([""], 0), none), s) := by
  obtain ⟨named, -, notUp⟩ := nth_isName n
  have resolved : s.resolvedPath .root ["", nth n] = .ok ["", nth n] := by
    rw [resolvedPath, parentAndEntry_nth bare]
    simp [finalName, components_nth, named, notUp]
  rw [locate, bind_apply, get_apply]
  show (atPath wrap (s.resolvedPath .root ["", nth n]) >>= _) s = _
  rw [resolved]
  show (atPath wrap (s.parentAndEntry .root ["", nth n]) >>= _) s = _
  rw [parentAndEntry_nth bare]
  rfl

/-- `mkdir` up to the number of the new node. -/
theorem mkdir_nth (bare : Bare n s) : mkdir rootEnv (some ["", nth n]) 0 s =
    ((newDir ⟨0, .root, epoch, epoch⟩ >>= fun entry => insertKey ["", nth n] entry >>= fun old =>
      assert (old = none) "assertion failed: old.is_none()" >>= fun _ => pure entry) >>= fun _ => pure ())
        ((s.touched rootEnv 0).withChild 0 (nth n) .directory) := by
  have absolute : atPath MkdirError.pathError (absolutePath (some ["", nth n])) s = (.ok ["", nth n], s) := by
    simp [absolutePath, Path.normalized, components_nth, Path.isAbsolute]
    rfl
  have writable : requireWritable rootEnv 0 MkdirError.noWritePerms s = (.ok (), s) := by
    rw [requireWritable, bind_apply, get_apply]
    exact congrFun (if_neg (by simp [Permissions.canWriteBy, rootEnv, UserInfo.root])) s
  rw [mkdir, bind_of_ok absolute, bind_of_ok (locate_nth _ bare)]
  dsimp only
  rw [ofOption_bind rfl]
  dsimp only
  rw [when_bind (by simp), bind_of_ok writable, bind_apply, addEntry, touch_bind, insertChild_bind, kids_touched,
    show Path.lastName ["", nth n] = nth n from rfl, bare.unlisted n le_rfl, assert_bind rfl]
  rfl

/-- What `mkdir` leaves: the directory's name is listed, and its node has the next number. -/
def withNth (n : ℕ) (s : InMem) : InMem :=
  { (s.touched rootEnv 0).withChild 0 (nth n) .directory with
    freshness := s.freshness + 1
    dirs := Function.update ((s.touched rootEnv 0).withChild 0 (nth n) .directory).dirs s.freshness ⟨⟨0, .root, epoch, epoch⟩, ∅⟩
    entries := s.entries.insert ["", nth n] (.dir s.freshness) }

theorem step_nth (few : n + 1 < usizeMax) (bare : Bare n s) : step s (rootEnv, .mkdir (some ["", nth n]) 0) = withNth n s := by
  have used : ((s.touched rootEnv 0).withChild 0 (nth n) .directory).freshness ≤ n + 1 := Nat.le_of_eq bare.fresh
  have made : (newDir ⟨0, .root, epoch, epoch⟩ : Prog InMem (Halt MkdirError) Entry) ((s.touched rootEnv 0).withChild 0 (nth n) .directory) =
      (.ok (.dir s.freshness), { withNth n s with entries := s.entries }) := by
    rw [newDir, bind_of_ok (freshId_run few used)]
    rfl
  have ran : mkdir rootEnv (some ["", nth n]) 0 s = (.ok (), withNth n s) := by
    rw [mkdir_nth bare, bind_apply, bind_of_ok made, insertKey_bind,
      show look { withNth n s with entries := s.entries } ["", nth n] = none from bare.free n le_rfl, assert_bind rfl]
    rfl
  simp only [step, perform, ending, mapError, bind_of_ok ran]
  rfl

/-- The last number is never given out. -/
theorem panics_nth (bare : Bare n s) (last : n + 1 = usizeMax) : Panics s (rootEnv, .mkdir (some ["", nth n]) 0) := by
  have used : ((s.touched rootEnv 0).withChild 0 (nth n) .directory).freshness = usizeMax := bare.fresh.trans last
  have exhausted : (freshId : Prog InMem (Halt MkdirError) ℕ) ((s.touched rootEnv 0).withChild 0 (nth n) .directory) =
      (.error (.panic "we never expect to hit this"), { (s.touched rootEnv 0).withChild 0 (nth n) .directory with freshness := 0 }) := by
    simp only [freshId, bind_apply, get_apply, modify_apply]
    rw [when, if_pos used, used]
    rfl
  have stuck := (mkdir_nth bare).trans (bind_of_error (bind_of_error (bind_of_error exhausted)))
  refine ⟨.panic "we never expect to hit this", ?_, trivial⟩
  rw [perform, ending, mapError, bind_of_error stuck]
  rfl

theorem bare_step (few : n + 1 < usizeMax) (bare : Bare n s) : Bare (n + 1) (step s (rootEnv, .mkdir (some ["", nth n]) 0)) := by
  have notRoot : 0 ≠ s.freshness := by
    rw [bare.fresh]
    exact (Nat.succ_ne_zero n).symm
  have dirs : (withNth n s).dirs 0 =
      { s.dirs 0 with perms := { (s.dirs 0).perms with mtime := epoch }, children := (s.dirs 0).children.insert (nth n) .directory } := by
    simp [withNth, withChild, touched, notRoot, rootEnv]
  have look : (withNth n s).look = Function.update s.look ["", nth n] _ := look_insert s _ _
  have other (m : ℕ) (later : n + 1 ≤ m) : nth m ≠ nth n := nth_injective.ne (by omega)
  rw [step_nth few bare]
  constructor
  · rw [look, Function.update_of_ne (by simp), bare.root]
  · intro m later
    rw [look, Function.update_of_ne (by simpa using other m later), bare.free m (by omega)]
  · intro m later
    rw [kids, dirs]
    exact (lookup_insert_ne (other m later)).trans (bare.unlisted m (by omega))
  · rw [dirs]
    exact bare.searchable
  · exact congrArg (· + 1) bare.fresh

/-- That many directories are made. -/
def manyDirs (k : ℕ) : List (Env × Call) := (List.range k).map fun n => (rootEnv, .mkdir (some ["", nth n]) 0)

theorem bare_manyDirs (k : ℕ) (few : k < usizeMax) (now : Timestamp) : Bare k (run step (new now) (manyDirs k)) := by
  induction k with
  | zero =>
    refine ⟨rfl, fun m _ => ?_, fun _ _ => rfl, ?_, rfl⟩
    · exact lookup_insert_ne (by simp)
    · show intersects (rwxu ||| rgrp ||| xgrp ||| roth ||| xoth) (xusr ||| xgrp ||| xoth)
      decide
  | succ k ih =>
    rw [manyDirs, range_succ, map_append, run_append]
    exact bare_step few (ih (by omega))

end LiteBox.Fs.InMem
