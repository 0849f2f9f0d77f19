import LiteBox.Fs.InMemWalk

/-! # What the operations of the in-memory file system keep

A sound state is a tree, with as many identifiers and links as the calls so far can have used. An operation on a sound
state has one of a few effects: it adds, removes or moves an entry, or it changes no name at all. It reaches none of
its asserts, and every effect leads to a sound state.
-/

namespace LiteBox.Fs

open Function Prog Nat AList

open Mm (usizeMax)

namespace Entry

/-- The `unique_id` of what an entry holds. -/
def id : Entry → ℕ
  | file id => id
  | dir id => id
  | symlink id => id

end Entry

theorem Tree.congr {look : Path → Option Entry} {kids kids' : ℕ → String → Option FileType} (tree : Tree look kids)
    (same : ∀ key dir, look key = some (.dir dir) → kids' dir = kids dir) : Tree look kids' where
  root := tree.root
  node key entry found := (tree.node key entry found).imp_right fun ⟨above, name, dir, fileType, eq, named, isDir, listed, admits⟩ =>
    ⟨above, name, dir, fileType, eq, named, isDir, by rwa [same _ _ isDir], admits⟩
  child above dir name fileType isDir listed := tree.child above dir name fileType isDir (by rwa [← same _ _ isDir])
  distinct := tree.distinct

variable {key : Path}

namespace InMem

/-- A state that `n` calls reach: a tree, with identifiers and links that the calls account for. -/
structure Sound (n : ℕ) (s : InMem) : Prop where
  tree : Tree s.look s.kids
  made : ∀ key dir, s.look key = some (.dir dir) → dir < s.freshness
  fresh : s.freshness ≤ n + 1
  links : ∀ file, (s.files file).nlink ≤ n + 1

variable {ε α : Type} {n dir : ℕ} {s t : InMem} {env : Env} {above : Path} {name : String} {fileType : FileType}

theorem Sound.later (sound : Sound n s) : Sound (n + 1) s :=
  ⟨sound.tree, sound.made, sound.fresh.trans (le_succ _), fun file => (sound.links file).trans (le_succ _)⟩

/-- How an operation fails: what it leaves is sound, and nothing panicked. -/
def Fails (n : ℕ) (halt : Halt ε) (s : InMem) : Prop := Sound (n + 1) s ∧ ¬halt.IsPanic

/-! ## What an operation can do -/

/-- A step that leaves the names, the links and the identifiers alone. -/
structure Quiet (s t : InMem) : Prop where
  look : t.look = s.look
  kids : t.kids = s.kids
  freshness : t.freshness = s.freshness
  links : ∀ file, (t.files file).nlink = (s.files file).nlink
  fifos : ∀ file, (t.files file).isFifo = (s.files file).isFifo

theorem Quiet.refl (s : InMem) : Quiet s s := ⟨rfl, rfl, rfl, fun _ => rfl, fun _ => rfl⟩

theorem Quiet.trans {u : InMem} (first : Quiet s t) (second : Quiet t u) : Quiet s u :=
  ⟨second.look.trans first.look, second.kids.trans first.kids, second.freshness.trans first.freshness,
    fun file => (second.links file).trans (first.links file), fun file => (second.fifos file).trans (first.fifos file)⟩

/-- The type that `stat` reports for a file. -/
def fileTypeOf (s : InMem) (file : ℕ) : FileType := if (s.files file).isFifo then .fifo else .regularFile

/-- A new entry in a directory: a new object, or one more name of a file. `plain` says that this file is not a named pipe. -/
structure Added (plain : Prop) (s t : InMem) (above : Path) (name : String) (dir : ℕ) (entry : Entry) (fileType : FileType) : Prop where
  isDir : s.look above = some (.dir dir)
  named : Path.IsName name
  absent : s.look (above ++ [name]) = none
  admits : entry.Admits fileType
  look : t.look = update s.look (above ++ [name]) (some entry)
  kids : ∀ id name', t.kids id name' = if entry = .dir id then none else if id = dir ∧ name' = name then some fileType else s.kids id name'
  grows : s.freshness ≤ t.freshness
  fresh : t.freshness ≤ s.freshness + 1
  made : entry.id < t.freshness ∨ ∃ key, s.look key = some entry
  newDir : ∀ id, entry = .dir id → id = s.freshness
  others : ∀ file, entry ≠ .file file → (t.files file).nlink = (s.files file).nlink ∧ (t.files file).isFifo = (s.files file).isFifo
  own : ∀ file, entry = .file file → plain → fileType = t.fileTypeOf file
  linked : ∀ file, entry = .file file → (file = s.freshness ∧ (t.files file).nlink = 1) ∨
    ((t.files file).nlink = (s.files file).nlink + 1 ∧ (t.files file).isFifo = (s.files file).isFifo)

/-- An entry without children is gone. -/
structure Removed (s t : InMem) (above : Path) (name : String) (dir : ℕ) (entry : Entry) : Prop where
  isDir : s.look above = some (.dir dir)
  found : s.look (above ++ [name]) = some entry
  empty : ∀ id, entry = .dir id → ∀ name, s.kids id name = none
  look : t.look = update s.look (above ++ [name]) none
  kids : ∀ id name', t.kids id name' = if id = dir ∧ name' = name then none else s.kids id name'
  freshness : t.freshness = s.freshness
  fifos : ∀ file, (t.files file).isFifo = (s.files file).isFifo
  unlinked : ∀ file, (t.files file).nlink = if entry = .file file then (s.files file).nlink - 1 else (s.files file).nlink

/-- An entry has moved, with all that is below it. `plain` says that it did not replace another name of the file it is. -/
structure Moved (plain : Prop) (s t : InMem) (sourceAbove : Path) (sourceName : String) (sourceDir : ℕ) (targetAbove : Path)
    (targetName : String) (targetDir : ℕ) (entry : Entry) (fileType : FileType) : Prop where
  movable : Tree.Movable s.look s.kids sourceAbove sourceName sourceDir targetAbove targetName targetDir entry fileType
  other : plain → ∀ file, entry = .file file → s.look (targetAbove ++ [targetName]) ≠ some (.file file)
  look : t.look = Tree.moved s.look (sourceAbove ++ [sourceName]) (targetAbove ++ [targetName])
  kids : t.kids = Tree.movedKids s.kids sourceDir sourceName targetDir targetName fileType
  freshness : t.freshness = s.freshness
  fifos : ∀ file, (t.files file).isFifo = (s.files file).isFifo
  replaced : ∀ file, (t.files file).nlink =
    if s.look (targetAbove ++ [targetName]) = some (.file file) ∧ entry ≠ .file file then (s.files file).nlink - 1 else (s.files file).nlink

/-- What an operation does to the names, the links and the identifiers. -/
inductive Change (plain : Prop) (s : InMem) : InMem → Prop
  | none : Change plain s s
  | added {t above name dir entry fileType} (added : Added plain s t above name dir entry fileType) : Change plain s t
  | removed {t above name dir entry} (removed : Removed s t above name dir entry) : Change plain s t
  | moved {t sourceAbove sourceName sourceDir targetAbove targetName targetDir entry fileType}
      (moved : Moved plain s t sourceAbove sourceName sourceDir targetAbove targetName targetDir entry fileType) : Change plain s t

/-- A change, and then only what is quiet. -/
def Effect (plain : Prop) (s t : InMem) : Prop := ∃ u, Change plain s u ∧ Quiet u t

variable {plain : Prop}

theorem Change.effect (change : Change plain s t) : Effect plain s t := ⟨t, change, .refl t⟩

theorem Effect.same : Effect plain s s := Change.none.effect

theorem Quiet.effect (quiet : Quiet s t) : Effect plain s t := ⟨s, .none, quiet⟩

theorem Effect.quiet {u : InMem} (effect : Effect plain s t) (quiet : Quiet t u) : Effect plain s u := by
  obtain ⟨v, change, first⟩ := effect
  exact ⟨v, change, first.trans quiet⟩

/-- How an operation fails: with an error, after some effect. -/
def Breaks (plain : Prop) (s : InMem) (halt : Halt ε) (t : InMem) : Prop := Effect plain s t ∧ ¬halt.IsPanic

/-- From `s` the operation has at most one effect, and it never panics. -/
abbrev Acts (plain : Prop) (s : InMem) (program : Prog InMem (Halt ε) α) : Prop :=
  Prog.Triple (· = s) program (fun _ => Effect plain s) (Breaks plain s)

section Sound

variable {entry entry' : Entry}

section

variable (added : Added plain s t above name dir entry fileType)

include added

theorem Added.notDir (sound : Sound n s) {id : ℕ}
    (isDir : s.look key = some (.dir id)) : entry ≠ .dir id := fun eq => (sound.made key id isDir).ne (added.newDir id eq)

theorem Added.tree (sound : Sound n s) : Tree t.look t.kids := by
  -- The junk that the heap has under an identifier not yet given out is not part of the tree.
  have cleared : Tree s.look fun id name => if entry = .dir id then none else s.kids id name :=
    sound.tree.congr fun key id there => by simp [added.notDir sound there]
  have tree := cleared.add added.isDir added.named added.absent added.admits fun id eq =>
    ⟨fun key there => added.notDir sound there eq, fun name => by simp [eq]⟩
  rw [added.look]
  refine tree.congr fun key id _ => ?_
  funext name'
  rw [added.kids]
  by_cases same : id = dir
  · subst same
    by_cases sameName : name' = name
    · subst sameName
      simp [added.notDir sound added.isDir]
    · simp [sameName]
  · simp [same]

omit added in
theorem Removed.tree (removed : Removed s t above name dir entry) (sound : Sound n s) : Tree t.look t.kids := by
  rw [removed.look]
  refine (sound.tree.remove removed.isDir removed.found removed.empty).congr fun key id _ => ?_
  funext name'
  rw [removed.kids]
  by_cases same : id = dir
  · subst same
    by_cases sameName : name' = name
    · subst sameName
      simp
    · simp [sameName]
  · simp [same]

omit added in
/-- What is still there was there. -/
theorem Removed.was (removed : Removed s t above name dir entry) (there : t.look key = some entry') :
    key ≠ above ++ [name] ∧ s.look key = some entry' := by
  rw [removed.look] at there
  by_cases gone : key = above ++ [name]
  · rw [gone, update_self] at there
    cases there
  · exact ⟨gone, by rwa [update_of_ne gone] at there⟩

/-- What is there is new or was there. -/
theorem Added.was (there : t.look key = some entry') :
    (key = above ++ [name] ∧ entry' = entry) ∨ (key ≠ above ++ [name] ∧ s.look key = some entry') := by
  rw [added.look] at there
  by_cases isNew : key = above ++ [name]
  · rw [isNew, update_self] at there
    exact .inl ⟨isNew, (Option.some_inj.mp there).symm⟩
  · exact .inr ⟨isNew, by rwa [update_of_ne isNew] at there⟩

theorem Added.links_le (file : ℕ) :
    (t.files file).nlink ≤ (s.files file).nlink + 1 := by
  by_cases own : entry = .file file
  · obtain ⟨-, one⟩ | ⟨more, -⟩ := added.linked file own <;> omega
  · rw [(added.others file own).1]
    exact le_succ _

end

/-- Every change leads from a sound state to a sound state. -/
theorem Change.sound (sound : Sound n s) (change : Change plain s t) : Sound (n + 1) t := by
  have fresh := sound.fresh
  cases change with
  | none => exact sound.later
  | added added =>
    refine ⟨added.tree sound, fun key id there => ?_, added.fresh.trans (by omega), fun file => ?_⟩
    · obtain ⟨-, rfl⟩ | ⟨-, was⟩ := added.was there
      · obtain made | ⟨key, was⟩ := added.made
        · exact made
        · exact absurd rfl (added.notDir sound was)
      · exact (sound.made key id was).trans_le added.grows
    · exact (added.links_le file).trans (succ_le_succ (sound.links file))
  | removed removed =>
    refine ⟨removed.tree sound, fun key id there => ?_, by rw [removed.freshness]; omega, fun file => ?_⟩
    · rw [removed.freshness]
      exact sound.made key id (removed.was there).2
    · have bounded := sound.links file
      rw [removed.unlinked]
      split_ifs <;> omega
  | moved moved =>
    refine ⟨by rw [moved.look, moved.kids]; exact moved.movable.move, fun key id there => ?_, by rw [moved.freshness]; omega, fun file => ?_⟩
    · rw [moved.look] at there
      rw [moved.freshness]
      obtain ⟨more, -, was⟩ | ⟨-, -, was⟩ := Tree.moved_cases there
      · exact sound.made _ id was
      · exact sound.made _ id was
    · have bounded := sound.links file
      rw [moved.replaced]
      split_ifs <;> omega

theorem Sound.quiet (sound : Sound n s) (quiet : Quiet s t) : Sound n t := by
  refine ⟨by rw [quiet.look, quiet.kids]; exact sound.tree, fun key dir isDir => ?_, by rw [quiet.freshness]; exact sound.fresh, fun file => ?_⟩
  · rw [quiet.freshness]
    exact sound.made key dir (by rwa [quiet.look] at isDir)
  · rw [quiet.links]
    exact sound.links file

theorem Effect.sound (sound : Sound n s) (effect : Effect plain s t) : Sound (n + 1) t := by
  obtain ⟨u, change, quiet⟩ := effect
  exact (change.sound sound).quiet quiet

end Sound

/-! ## The steps that only read -/

theorem atPath_triple {wrap : PathError → ε} {result : Except (Halt PathError) α}
    (quiet : ∀ halt, result = .error halt → ¬halt.IsPanic) :
    Prog.Triple (· = s) (atPath wrap result) (fun value t => t = s ∧ result = .ok value) (Breaks plain s) := by
  refine .ofExcept ?_ ?_
  · rintro value ok t rfl
    cases result with
    | error halt => cases ok
    | ok value' =>
      cases ok
      exact ⟨rfl, rfl⟩
  · rintro halt failed t rfl
    cases result with
    | ok value => cases failed
    | error halt' =>
      cases failed
      exact ⟨.same, by simpa using quiet halt' rfl⟩

variable (wrap : PathError → ε)

theorem absolutePath_triple (path : Arg) :
    Prog.Triple (· = s) (atPath wrap (absolutePath path)) (fun value t => t = s ∧ absolutePath path = .ok value) (Breaks plain s) := by
  refine atPath_triple fun halt failed => ?_
  cases path with
  | none =>
    cases failed
    exact id
  | some path => cases failed

theorem parentAndEntry_triple (path : Path) :
    Prog.Triple (· = s) (atPath wrap (s.parentAndEntry env.user path)) (fun found t => t = s ∧ s.parentAndEntry env.user path = .ok found)
      (Breaks plain s) := by
  refine atPath_triple fun halt failed => ?_
  have walked := @walk_spec s env.user maxIntermediateHops path
  rwa [show s.walk env.user maxIntermediateHops path = _ from failed] at walked

variable {option : Option α} {failure : Halt ε}

theorem ofOption_triple (quiet : option = none → ¬failure.IsPanic) :
    Prog.Triple (· = s) (ofOption failure option) (fun value t => t = s ∧ option = some value) (Breaks plain s) := by
  refine .ofOption ?_ ?_
  · rintro value there t rfl
    exact ⟨rfl, there⟩
  · rintro missing t rfl
    exact ⟨.same, quiet missing⟩

variable {condition : Prop}

theorem failWhen_triple [Decidable condition] {failure : ε} :
    Prog.Triple (· = s) (when condition (.fail (.error failure))) (fun _ t => t = s ∧ ¬condition) (Breaks plain s) := by
  refine .when (fun _ => .fail ?_) ?_
  · rintro t rfl
    exact ⟨.same, id⟩
  · rintro holds t rfl
    exact ⟨rfl, holds⟩

theorem requireWritable_triple (denied : ε) :
    Prog.Triple (· = s) (requireWritable env dir denied) (fun _ t => t = s) (Breaks plain s) := by
  refine .read ?_
  rintro t rfl
  exact .imp (failWhen_triple) (fun _ eq => eq) (fun _ _ eq => eq.1) fun _ _ fails => fails

theorem find_triple (path : Path) : Prog.Triple (· = s) (find wrap env path)
    (fun entry t => t = s ∧ ∃ parent, s.parentAndEntry env.user path = .ok (parent, some entry)) (Breaks plain s) := by
  refine .read ?_
  rintro t rfl
  refine .bind (parentAndEntry_triple wrap path) ?_
  rintro ⟨parent, entry⟩
  refine .given fun walked => .imp (ofOption_triple fun _ => id) (fun _ eq => eq) ?_ fun _ _ fails => fails
  rintro found t ⟨rfl, rfl⟩
  exact ⟨rfl, parent, walked⟩

variable {path : Path} {entry : Entry}

/-- What a walk finds has a key. -/
theorem parentAndEntry_found {user : UserInfo} {parent : Option (Path × ℕ)}
    (found : s.parentAndEntry user path = .ok (parent, some entry)) : ∃ key, s.look key = some entry := by
  have reached := @walk_spec s user maxIntermediateHops path
  rw [show s.walk user maxIntermediateHops path = _ from found] at reached
  obtain ⟨-, -, there⟩ | ⟨above, name, dir, -, -, -, -, there⟩ := reached
  · exact ⟨_, there.symm⟩
  · exact ⟨_, there.symm⟩

/-- What `locate` answers: the root, or the key of a name in a directory with its entry. -/
def Located (s : InMem) (path : Path) (parent : Option (Path × ℕ)) (entry : Option Entry) : Prop :=
  (parent = none ∧ entry.isSome) ∨
    ∃ above name dir, path = above ++ [name] ∧ Path.IsName name ∧ parent = some (above, dir) ∧ s.look above = some (.dir dir) ∧
      entry = s.look (above ++ [name])

/-- The second walk, to the key that `resolved_path` answered. -/
theorem located_of_resolved (sound : Sound n s) {found : Option (Path × ℕ) × Option Entry}
    (resolved : s.resolvedPath env.user path = .ok key) (walked : s.parentAndEntry env.user key = .ok found) :
    s.Located key found.1 found.2 := by
  have spec := @resolvedPath_spec s env.user path
  rw [resolved] at spec
  obtain ⟨final, rfl⟩ | ⟨above, name, dir, rfl, named, isDir⟩ := spec
  · have reached := @walk_spec s env.user maxIntermediateHops key
    rw [show s.walk env.user maxIntermediateHops key = _ from walked] at reached
    obtain ⟨-, parent, entry⟩ | ⟨_, _, _, final', -⟩ := reached
    · exact .inl ⟨parent, by rw [entry, sound.tree.root]; rfl⟩
    · rw [final] at final'
      cases final'
  · rcases @parentAndEntry_key s env.user sound.tree above name dir isDir named with denied | ok
    · rw [denied] at walked
      cases walked
    · rw [ok] at walked
      cases walked
      exact .inr ⟨above, name, dir, rfl, named, rfl, isDir, rfl⟩

theorem resolvedPath_triple (path : Path) :
    Prog.Triple (· = s) (atPath wrap (s.resolvedPath env.user path)) (fun key t => t = s ∧ s.resolvedPath env.user path = .ok key)
      (Breaks plain s) := by
  refine atPath_triple fun halt failed => ?_
  have spec := @resolvedPath_spec s env.user path
  rwa [failed] at spec

theorem locate_triple (sound : Sound n s) (wrap : PathError → ε) (path : Path) :
    Prog.Triple (· = s) (locate wrap env path) (fun located t => t = s ∧ s.Located located.1 located.2.1 located.2.2) (Breaks plain s) := by
  refine .read ?_
  rintro t rfl
  refine .bind (resolvedPath_triple wrap path) fun key => .given fun resolved => ?_
  refine .bind (parentAndEntry_triple wrap key) fun found => .given fun walked => ?_
  refine .pure ?_
  rintro t' rfl
  exact ⟨rfl, located_of_resolved sound resolved walked⟩

/-! ## The steps that change the maps -/

theorem look_insert (s : InMem) (key : Path) (entry : Entry) :
    look { s with entries := s.entries.insert key entry } = update s.look key (some entry) := by
  funext key'
  by_cases same : key' = key
  · subst same
    simp [look]
  · rw [update_of_ne same]
    exact lookup_insert_ne same

theorem look_erase (s : InMem) (key : Path) : look { s with entries := s.entries.erase key } = update s.look key none := by
  funext key'
  by_cases same : key' = key
  · subst same
    simp [look]
  · rw [update_of_ne same]
    exact lookup_erase_ne same

/-- The directory with a new time. -/
def touched (s : InMem) (env : Env) (dir : ℕ) : InMem :=
  { s with dirs := update s.dirs dir { s.dirs dir with perms := { (s.dirs dir).perms with mtime := env.now } } }

def withChild (s : InMem) (dir : ℕ) (name : String) (fileType : FileType) : InMem :=
  { s with dirs := update s.dirs dir { s.dirs dir with children := (s.dirs dir).children.insert name fileType } }

def withoutChild (s : InMem) (dir : ℕ) (name : String) : InMem :=
  { s with dirs := update s.dirs dir { s.dirs dir with children := (s.dirs dir).children.erase name } }

@[simp] theorem kids_touched (s : InMem) (env : Env) (dir : ℕ) : (s.touched env dir).kids = s.kids := by
  funext dir' name
  by_cases same : dir' = dir
  · subst same
    simp [touched, kids]
  · simp [touched, kids, same]

theorem kids_withChild (s : InMem) (dir' : ℕ) (name' : String) : (s.withChild dir name fileType).kids dir' name' =
    if dir' = dir ∧ name' = name then some fileType else s.kids dir' name' := by
  by_cases same : dir' = dir
  · subst same
    by_cases sameName : name' = name
    · subst sameName
      simp [withChild, kids]
    · simp [withChild, kids, sameName, lookup_insert_ne]
  · simp [withChild, kids, same]

theorem kids_withoutChild (s : InMem) (dir' : ℕ) (name' : String) : (s.withoutChild dir name).kids dir' name' =
    if dir' = dir ∧ name' = name then none else s.kids dir' name' := by
  by_cases same : dir' = dir
  · subst same
    by_cases sameName : name' = name
    · subst sameName
      simp [withoutChild, kids]
    · simp [withoutChild, kids, sameName, lookup_erase_ne]
  · simp [withoutChild, kids, same]

theorem touch_bind (next : Unit → Prog InMem (Halt ε) α) : (touch env dir >>= next) s = next () (s.touched env dir) := rfl

variable (next : Option FileType → Prog InMem (Halt ε) α)

theorem insertChild_bind :
    (insertChild dir name fileType >>= next) s = next (s.kids dir name) (s.withChild dir name fileType) := rfl

theorem removeChild_bind :
    (removeChild dir name >>= next) s = next (s.kids dir name) (s.withoutChild dir name) := rfl

variable (next : Option Entry → Prog InMem (Halt ε) α)

theorem insertKey_bind :
    (insertKey key entry >>= next) s = next (s.look key) { s with entries := s.entries.insert key entry } := rfl

theorem removeKey_bind :
    (removeKey key >>= next) s = next (s.look key) { s with entries := s.entries.erase key } := rfl

theorem assert_bind [Decidable condition] (holds : condition) {what : String}
    (next : Unit → Prog InMem (Halt ε) α) :
    (assert condition what >>= next) s = next () s := by
  rw [assert, when, if_neg (not_not.mpr holds)]
  rfl

theorem ofOption_bind {value : α} (there : option = some value) {β : Type}
    (next : α → Prog InMem (Halt ε) β) : (ofOption failure option >>= next) s = next value s := by
  rw [there]
  rfl

@[simp] theorem lastName_append (above : Path) (name : String) : Path.lastName (above ++ [name]) = name := by
  simp [Path.lastName]

/-! ## New entries -/

/-- What the object of a new entry is: a new one, or a file that gets one more name. -/
structure Made (plain : Prop) (s t : InMem) (entry : Entry) (fileType : FileType) : Prop where
  entries : t.entries = s.entries
  admits : entry.Admits fileType
  kids : ∀ id name, t.kids id name = if entry = .dir id then none else s.kids id name
  grows : s.freshness ≤ t.freshness
  fresh : t.freshness ≤ s.freshness + 1
  made : entry.id < t.freshness ∨ ∃ key, s.look key = some entry
  newDir : ∀ id, entry = .dir id → id = s.freshness
  others : ∀ file, entry ≠ .file file → (t.files file).nlink = (s.files file).nlink ∧ (t.files file).isFifo = (s.files file).isFifo
  own : ∀ file, entry = .file file → plain → fileType = t.fileTypeOf file
  linked : ∀ file, entry = .file file → (file = s.freshness ∧ (t.files file).nlink = 1) ∨
    ((t.files file).nlink = (s.files file).nlink + 1 ∧ (t.files file).isFifo = (s.files file).isFifo)

/-- What makes the object of a new entry: it fails for no number of identifiers or links that `n` calls can have used. -/
def Makes (plain : Prop) (n : ℕ) (s : InMem) (fileType : FileType) (make : Prog InMem (Halt ε) Entry) : Prop :=
  s.freshness ≤ n + 1 → (∀ file, (s.files file).nlink ≤ n + 1) → ∃ entry t, make s = (.ok entry, t) ∧ Made plain s t entry fileType

section Makes

variable (few : n + 1 < usizeMax)

include few

theorem freshId_run (used : s.freshness ≤ n + 1) :
    (freshId : Prog InMem (Halt ε) ℕ) s = (.ok s.freshness, { s with freshness := s.freshness + 1 }) := by
  have small : s.freshness + 1 < 2 ^ 64 := by
    simp only [usizeMax] at few
    omega
  simp only [freshId, bind_apply, get_apply, modify_apply, mod_eq_of_lt small]
  rw [when, if_neg (by omega)]
  rfl

variable (perms : Permissions)

theorem newFile_makes (isFifo : Bool) :
    Makes plain n s (if isFifo then .fifo else .regularFile) (newFile perms isFifo : Prog InMem (Halt ε) Entry) := by
  intro fresh links
  have ran : (newFile perms isFifo : Prog InMem (Halt ε) Entry) s = (.ok (.file s.freshness),
      { s with freshness := s.freshness + 1, files := update s.files s.freshness ⟨perms, [], 1, isFifo⟩ }) := by
    rw [newFile, bind_of_ok (freshId_run few fresh)]
    rfl
  refine ⟨_, _, ran, rfl, ?_, fun _ _ => rfl, le_succ _, le_rfl, .inl (lt_succ_self _), nofun, fun file other => ?_, ?_, ?_⟩
  · cases isFifo
    · exact .inl rfl
    · exact .inr rfl
  · have apart : file ≠ s.freshness := fun same => other (congrArg Entry.file same.symm)
    simp [apart]
  · rintro file ⟨⟩ -
    simp [fileTypeOf]
  · rintro file ⟨⟩
    exact .inl ⟨rfl, by simp⟩

theorem newDir_makes : Makes plain n s .directory (newDir perms : Prog InMem (Halt ε) Entry) := by
  intro fresh links
  have ran : (newDir perms : Prog InMem (Halt ε) Entry) s = (.ok (.dir s.freshness),
      { s with freshness := s.freshness + 1, dirs := update s.dirs s.freshness ⟨perms, ∅⟩ }) := by
    rw [newDir, bind_of_ok (freshId_run few fresh)]
    rfl
  refine ⟨_, _, ran, rfl, rfl, fun id name => ?_, le_succ _, le_rfl, .inl (lt_succ_self _), ?_, fun _ _ => ⟨rfl, rfl⟩, nofun, nofun⟩
  · by_cases new : id = s.freshness
    · subst new
      simp [InMem.kids]
    · have apart : Entry.dir s.freshness ≠ .dir id := fun eq => new (Entry.dir.inj eq).symm
      simp [InMem.kids, new, apart]
  · rintro id ⟨⟩
    rfl

theorem newSymlink_makes (target : Path) :
    Makes plain n s .symlink (newSymlink perms target : Prog InMem (Halt ε) Entry) := by
  intro fresh links
  have ran : (newSymlink perms target : Prog InMem (Halt ε) Entry) s = (.ok (.symlink s.freshness),
      { s with freshness := s.freshness + 1, symlinks := update s.symlinks s.freshness ⟨perms, target⟩ }) := by
    rw [newSymlink, bind_of_ok (freshId_run few fresh)]
    rfl
  exact ⟨_, _, ran, rfl, rfl, fun _ _ => rfl, le_succ _, le_rfl, .inl (lt_succ_self _), nofun, fun _ _ => ⟨rfl, rfl⟩, nofun, nofun⟩

theorem addLink_makes (file : ℕ) (there : ∃ key, s.look key = some (.file file)) (regular : plain → (s.files file).isFifo = false) :
    Makes plain n s .regularFile (addLink file : Prog InMem (Halt ε) Entry) := by
  intro fresh links
  have bounded := links file
  have ran : (addLink file : Prog InMem (Halt ε) Entry) s = (.ok (.file file),
      { s with files := update s.files file { s.files file with nlink := (s.files file).nlink + 1 } }) := by
    simp only [addLink, bind_apply, get_apply]
    rw [when, if_neg (by omega)]
    rfl
  refine ⟨_, _, ran, rfl, .inl rfl, fun _ _ => rfl, le_rfl, le_succ _, .inr there, by simp, fun file' other => ?_, ?_, ?_⟩
  · have apart : file' ≠ file := fun same => other (congrArg Entry.file same.symm)
    simp [apart]
  · rintro file' ⟨⟩ plain
    simp [fileTypeOf, regular plain]
  · rintro file' ⟨⟩
    exact .inr ⟨by simp, by simp⟩

end Makes

variable {make : Prog InMem (Halt ε) Entry}

theorem addEntry_run (sound : Sound n s) (isDir : s.look above = some (.dir dir)) (named : Path.IsName name)
    (absent : s.look (above ++ [name]) = none)
    (makes : Makes plain n ((s.touched env dir).withChild dir name fileType) fileType make) :
    ∃ entry t, addEntry env dir (above ++ [name]) fileType make s = (.ok entry, t) ∧ Added plain s t above name dir entry fileType := by
  obtain ⟨entry, t, ran, made⟩ := makes sound.fresh sound.links
  have look : t.look = s.look := by
    funext key
    rw [InMem.look, made.entries]
    rfl
  refine ⟨entry, { t with entries := t.entries.insert (above ++ [name]) entry }, ?_, ?_⟩
  · rw [addEntry, touch_bind, insertChild_bind, lastName_append, kids_touched, (sound.tree.absent isDir).mpr absent, assert_bind rfl, bind_of_ok ran,
      insertKey_bind, look, absent, assert_bind rfl]
    rfl
  · refine ⟨isDir, named, absent, made.admits, by rw [look_insert, look], fun id name' => ?_, made.grows, made.fresh, made.made, made.newDir,
      made.others, made.own, made.linked⟩
    refine (made.kids id name').trans ?_
    rw [kids_withChild, kids_touched]

theorem addEntry_triple (sound : Sound n s) {above' : Path} {parent : Option (Path × ℕ)} {entry : Option Entry}
    (located : s.Located path parent entry) (parented : parent = some (above', dir)) (absent : ¬entry.isSome) (makes : ∀ name, Makes plain n ((s.touched env dir).withChild dir name fileType) fileType make) :
    Acts plain s (addEntry env dir path fileType make) := by
  subst parented
  obtain ⟨missing, -⟩ | ⟨above, name, dir', rfl, named, same, isDir, rfl⟩ := located
  · cases missing
  · cases same
    obtain ⟨entry, t, ran, added⟩ := addEntry_run sound isDir named (by simpa using absent) (makes name)
    exact .ran ran (Change.added added).effect

/-- Something that is not there is not the root. -/
theorem Located.parent {parent : Option (Path × ℕ)} {entry : Option Entry} (located : s.Located path parent entry)
    (absent : ¬entry.isSome) : parent ≠ none := by
  obtain ⟨-, there⟩ | ⟨_, _, _, _, _, rfl, _⟩ := located
  · exact absurd there absent
  · simp

section Operations

variable (few : n + 1 < usizeMax) (sound : Sound n s)

include few sound

theorem mkdir_triple (path : Arg) (mode : Mode) : Acts plain s (mkdir env path mode) := by
  refine .bind (absolutePath_triple _ path) fun path => .given fun _ => .bind (locate_triple sound _ path) ?_
  rintro ⟨path, parent, entry⟩
  refine .given fun located => .bind (ofOption_triple fun _ => id) ?_
  rintro ⟨_, dir⟩
  refine .given fun parented => .bind (failWhen_triple) fun _ => .given fun absent => ?_
  refine .bind (requireWritable_triple _) fun _ => ?_
  exact .bind (addEntry_triple sound located parented absent (fun _ => newDir_makes few _)) fun _ => .pure fun _ effect => effect

theorem makeFifo_triple (path : Arg) (mode : Mode) : Acts plain s (makeFifo env path mode) := by
  refine .bind (absolutePath_triple _ path) fun path => .given fun _ => .bind (locate_triple sound _ path) ?_
  rintro ⟨path, parent, entry⟩
  refine .given fun located => .bind (failWhen_triple) fun _ => .given fun absent => ?_
  refine .bind (ofOption_triple fun missing => absurd missing (located.parent absent)) ?_
  rintro ⟨_, dir⟩
  refine .given fun parented => .bind (requireWritable_triple _) fun _ => ?_
  exact .bind (addEntry_triple sound located parented absent (fun _ => newFile_makes few _ true)) fun _ => .pure fun _ effect => effect

theorem symlink_triple (target linkpath : Arg) : Acts plain s (symlink env target linkpath) := by
  refine .bind (ofOption_triple fun _ => id) fun target => .given fun _ => ?_
  refine .bind (absolutePath_triple _ linkpath) fun path => .given fun _ => .bind (locate_triple sound _ path) ?_
  rintro ⟨path, parent, entry⟩
  refine .given fun located => .bind (failWhen_triple) fun _ => .given fun absent => ?_
  refine .bind (ofOption_triple fun missing => absurd missing (located.parent absent)) ?_
  rintro ⟨_, dir⟩
  refine .given fun parented => .bind (requireWritable_triple _) fun _ => ?_
  exact .bind (addEntry_triple sound located parented absent (fun _ => newSymlink_makes few _ _)) fun _ => .pure fun _ effect => effect

theorem link_triple (oldpath newpath : Arg)
    (regular : plain → ∀ path parent file, absolutePath oldpath = .ok path → s.parentAndEntry env.user path = .ok (parent, some (.file file)) →
      (s.files file).isFifo = false) :
    Acts plain s (link env oldpath newpath) := by
  refine .bind (absolutePath_triple _ oldpath) fun old => .given fun absolute => .bind (absolutePath_triple _ newpath) fun new => .given fun _ => ?_
  refine .bind (find_triple _ old) fun entry => .given fun found => .bind (ofOption_triple fun _ => id) fun file => .given fun isFile => ?_
  obtain rfl : entry = .file file := by
    cases entry <;> simp at isFile
    rw [isFile]
  obtain ⟨oldParent, found⟩ := found
  refine .bind (locate_triple sound _ new) ?_
  rintro ⟨path, parent, entry⟩
  refine .given fun located => .bind failWhen_triple fun _ => .given fun absent => ?_
  refine .bind (ofOption_triple fun missing => absurd missing (located.parent absent)) ?_
  rintro ⟨_, dir⟩
  refine .given fun parented => .bind (requireWritable_triple _) fun _ => ?_
  refine .bind (addEntry_triple sound located parented absent fun _ => ?_) fun _ => .pure fun _ effect => effect
  obtain ⟨key, there⟩ := parentAndEntry_found found
  exact addLink_makes few file ⟨key, there⟩ fun plain => regular plain _ _ file absolute found

end Operations

/-! ## Removals -/

/-- Something that is there is listed above. -/
theorem Located.found (sound : Sound n s)
    (located : s.Located path (some (above, dir)) (some entry)) :
    ∃ name fileType, path = above ++ [name] ∧ s.look above = some (.dir dir) ∧ s.look (above ++ [name]) = some entry ∧
      s.kids dir name = some fileType ∧ entry.Admits fileType := by
  obtain ⟨missing, -⟩ | ⟨above, name, dir, rfl, -, same, isDir, found⟩ := located
  · cases missing
  · cases same
    obtain ⟨dir', fileType, -, isDir', listed, admits⟩ := sound.tree.parent found.symm (sound.tree.ne_nil isDir)
    cases isDir.symm.trans isDir'
    exact ⟨name, fileType, rfl, isDir, found.symm, listed, admits⟩

/-- An entry without children is gone from both maps. -/
theorem removed_entry (env : Env) (isDir : s.look above = some (.dir dir))
    (found : s.look (above ++ [name]) = some entry)
    (empty : ∀ id, entry = .dir id → ∀ name, s.kids id name = none) (notFile : ∀ file, entry ≠ .file file) :
    Removed s { (s.touched env dir).withoutChild dir name with entries := s.entries.erase (above ++ [name]) } above name dir entry := by
  refine ⟨isDir, found, empty, look_erase _ _, fun id name' => ?_, rfl, fun _ => rfl, fun file => (if_neg (notFile file)).symm⟩
  show ((s.touched env dir).withoutChild dir name).kids id name' = _
  rw [kids_withoutChild, kids_touched]

/-- A name of a file is gone, and counted. -/
theorem removed_file (env : Env) {file : ℕ} (isDir : s.look above = some (.dir dir))
    (found : s.look (above ++ [name]) = some (.file file)) :
    Removed s { (s.touched env dir).withoutChild dir name with
      entries := s.entries.erase (above ++ [name])
      files := update s.files file { s.files file with nlink := (s.files file).nlink - 1 } } above name dir (.file file) := by
  refine ⟨isDir, found, nofun, look_erase _ _, fun id name' => ?_, rfl, fun file' => ?_, fun file' => ?_⟩
  · show ((s.touched env dir).withoutChild dir name).kids id name' = _
    rw [kids_withoutChild, kids_touched]
  · by_cases same : file' = file
    · subst same
      simp
    · simp [same]
  · by_cases same : file' = file
    · subst same
      simp
    · have apart : Entry.file file ≠ .file file' := fun eq => same (Entry.file.inj eq).symm
      simp [same, apart]

theorem unlink_triple (sound : Sound n s) (path : Arg) : Acts plain s (unlink env path) := by
  refine .bind (absolutePath_triple _ path) fun path => .given fun _ => .bind (locate_triple sound _ path) ?_
  rintro ⟨path, parent, entry⟩
  refine .given fun located => .bind (ofOption_triple fun _ => id) ?_
  rintro ⟨above, dir⟩
  refine .given fun parented => .bind (ofOption_triple fun _ => id) fun entry => .given fun there => ?_
  refine .bind (failWhen_triple) fun _ => .given fun notDir => .bind (requireWritable_triple _) fun _ => ?_
  dsimp only at located parented there
  subst parented there
  obtain ⟨name, fileType, rfl, isDir, found, listed, admits⟩ := located.found sound
  have plain : some fileType = some .regularFile ∨ some fileType = some .symlink ∨ some fileType = some .fifo := by
    cases entry with
    | file => exact admits.imp (congrArg some) fun eq => .inr (congrArg some eq)
    | dir => exact absurd rfl notDir
    | symlink => exact .inr (.inl (congrArg some admits))
  rintro t rfl
  rw [touch_bind, removeChild_bind, lastName_append, kids_touched, listed, assert_bind plain, removeKey_bind,
    show ((t.touched env dir).withoutChild dir name).look (above ++ [name]) = some entry from found, ofOption_bind rfl, assert_bind notDir]
  cases entry with
  | file file => exact (Change.removed (removed_file env isDir found)).effect
  | dir => exact absurd rfl notDir
  | symlink => exact (Change.removed (removed_entry env isDir found nofun nofun)).effect

theorem rmdir_triple (sound : Sound n s) (path : Arg) : Acts plain s (rmdir env path) := by
  refine .bind (absolutePath_triple _ path) fun path => .given fun _ => .bind (locate_triple sound _ path) ?_
  rintro ⟨path, parent, entry⟩
  refine .given fun located => .bind (ofOption_triple fun _ => id) ?_
  rintro ⟨above, dir⟩
  refine .given fun parented => .bind (ofOption_triple fun _ => id) fun entry => .given fun there => ?_
  refine .bind (ofOption_triple fun _ => id) fun id => .given fun isDirEntry => .read ?_
  rintro s rfl
  refine .bind (failWhen_triple) fun _ => .given fun empty => .bind (requireWritable_triple _) fun _ => ?_
  dsimp only at located parented there
  subst parented there
  obtain rfl : entry = .dir id := by
    cases entry <;> simp at isDirEntry
    rw [isDirEntry]
  obtain ⟨name, fileType, rfl, isDir, found, listed, admits⟩ := located.found sound
  cases admits
  have childless : (s.dirs id).children = ∅ := by
    apply ext
    simpa [keys, List.keys] using empty
  have empty' (id' : ℕ) (eq : Entry.dir id = .dir id') (name : String) : s.kids id' name = none := by
    cases eq
    rw [kids, childless]
    rfl
  rintro t rfl
  rw [touch_bind, removeChild_bind, lastName_append, kids_touched, listed, assert_bind rfl, removeKey_bind,
    show ((t.touched env dir).withoutChild dir name).look (above ++ [name]) = some (.dir id) from found, ofOption_bind rfl]
  exact (Change.removed (removed_entry env isDir found empty' nofun)).effect

end InMem

end LiteBox.Fs
