import LiteBox.Fs.Import
import LiteBox.Fs.InMemIo

/-! # Importing a file into the in-memory file system

As root, a file that is there gets the bytes of the payload, whole or as a patch of what it holds, and nothing else
changes.
-/

namespace LiteBox.Fs

open Prog InMem Function OFlags FileSystem

open Mm (usizeMax isizeMax)
open InMem (overwritten resized)

/-- The bytes of a file that was written up to some position and is then extended. -/
def extended (data : List UInt8) (written : ℕ) : Option ℕ → List UInt8
  | none => data
  | some finalLen => if written < finalLen then resized data finalLen else data

/-- The bytes of a file after a patch at a position. -/
def patched (data payload : List UInt8) (position : ℕ) (extendTo : Option ℕ) : List UInt8 :=
  extended (overwritten (if data.length < position then resized data position else data) payload position) (position + payload.length) extendTo

namespace MergeSpec

/-- The bytes of a file after a payload was applied to it. -/
def apply (spec : MergeSpec) (data payload : List UInt8) : List UInt8 :=
  match spec with
  | whole => payload
  | append base => patched data payload (max data.length base) none
  | range offset finalLen => patched data payload offset (some finalLen)

/-- The largest position that applying a payload of some length to a file of some length reaches. -/
def reach (existing length : ℕ) : MergeSpec → ℕ
  | whole => length
  | append base => max existing base + length
  | range offset finalLen => max (offset + length) finalLen

end MergeSpec

namespace InMem

variable {s t : InMem} {user : UserInfo} {env : Env} {path : Path} {file fd : ℕ} {data : List UInt8}

/-! ## Paths -/

/-- What a walk depends on. -/
structure SameNames (s t : InMem) : Prop where
  entries : t.entries = s.entries
  dirs : t.dirs = s.dirs
  symlinks : t.symlinks = s.symlinks

section

variable (same : SameNames s t)

include same

theorem SameNames.walkComponents (collected : Path) (parent : Option (Path × ℕ)) (seen : Bool)
    (components : List String) :
    t.walkComponents user collected parent seen components = s.walkComponents user collected parent seen components := by
  induction components generalizing collected parent seen with
  | nil => rw [InMem.walkComponents, InMem.walkComponents, same.entries]
  | cons p rest ih =>
    rw [InMem.walkComponents, InMem.walkComponents, same.entries, ih]
    split_ifs
    · rfl
    · rfl
    · rcases s.entries.lookup collected with _ | (_ | dir | link)
      · rfl
      · rfl
      · simp [same.dirs, ih]
      · simp [same.symlinks]

theorem SameNames.walk (hops : ℕ) (path : Path) : t.walk user hops path = s.walk user hops path := by
  induction hops generalizing path with
  | zero =>
    rw [InMem.walk, InMem.walk, same.walkComponents]
  | succ hops ih =>
    rw [InMem.walk, InMem.walk, same.walkComponents]
    simp [ih]

theorem SameNames.parentAndEntry (path : Path) :
    t.parentAndEntry user path = s.parentAndEntry user path := same.walk _ path

theorem SameNames.resolvedPath (path : Path) : t.resolvedPath user path = s.resolvedPath user path := by
  rw [InMem.resolvedPath, InMem.resolvedPath, same.parentAndEntry]

/-- A path leads to a file, for calls that follow the links before the last name. -/
def Leads (s : InMem) (env : Env) (path : Path) (file : ℕ) : Prop :=
  ∃ key target parent parent', absolutePath (some path) = .ok key ∧ s.parentAndEntry env.user key = .ok (parent, some (.file file)) ∧
    s.resolvedPath env.user key = .ok target ∧ s.parentAndEntry env.user target = .ok (parent', some (.file file))

theorem Leads.congr (leads : s.Leads env path file) : t.Leads env path file := by
  obtain ⟨key, target, parent, parent', absolute, found, resolved, found'⟩ := leads
  exact ⟨key, target, parent, parent', absolute, by rwa [same.parentAndEntry], by rwa [same.resolvedPath], by rwa [same.parentAndEntry]⟩

end

/-! ## Opening -/

/-- The state with the bytes of one file replaced. -/
def withData (s : InMem) (now : Timestamp) (file : ℕ) (data : List UInt8) : InMem :=
  { s with files := update s.files file { s.files file with data, perms := { (s.files file).perms with mtime := now } } }

/-- The state with one more descriptor, open for writing. -/
def withWriter (s : InMem) (file : ℕ) : InMem :=
  { s with descriptors := update s.descriptors s.nextFd (some (.file file false true 0 false)), nextFd := s.nextFd + 1 }

theorem openEntry_run (leads : s.Leads env path file) {key : Path} (absolute : absolutePath (some path) = .ok key) {flags : OFlags}
    (creates : contains flags creat) (shared : ¬contains flags excl) (mode : Mode) :
    openEntry env key flags mode s = (.ok (.file file, false, flags), s) := by
  obtain ⟨key', target, parent, parent', absolute', -, resolved, found⟩ := leads
  cases absolute.symm.trans absolute'
  have located : (locate .pathError env key : Prog InMem (Halt OpenError) _) s = (.ok (target, parent', some (.file file)), s) := by
    rw [locate, bind_of_ok (get_apply s), resolved]
    show (atPath OpenError.pathError (s.parentAndEntry env.user target) >>= _) s = _
    rw [found]
    rfl
  rw [openEntry, if_pos creates, openOrCreate, bind_of_ok located]
  show (when _ _ >>= _) s = _
  rw [when, if_neg shared]
  rfl

/-- The flags of an import. -/
def importFlags (truncates : Bool) : OFlags := wronly ||| creat ||| if truncates then trunc else 0

theorem truncate_run (opened : s.descriptors fd = some (.file file false true 0 false)) {length : ℕ} (small : length ≤ isizeMax) :
    truncate env fd length true s = (.ok (), s.withData env.now file (resized (s.files file).data length)) := by
  rw [truncate, get_bind, opened]
  show (when _ _ >>= fun _ => when _ _ >>= fun _ => when _ _ >>= _) s = _
  rw [when_bind (by simp), when_bind (by simp), when_bind (by omega)]
  show (Except.ok (), ({ s.withData env.now file (resized (s.files file).data length) with
    descriptors := update s.descriptors fd (some (.file file false true 0 false)) } : InMem)) = _
  rw [← opened, update_eq_self]
  rfl

theorem openPath_run (leads : s.Leads env path file) (root : env.user.user = 0) (truncates : Bool) (mode : Mode) :
    openPath env (some path) (importFlags truncates) mode s =
      (.ok s.nextFd, if truncates then (s.withWriter file).withData env.now file [] else s.withWriter file) := by
  obtain ⟨key, -, -, -, absolute, -⟩ := id leads
  have entry : openEntry env key (importFlags truncates) mode s = (.ok (.file file, false, importFlags truncates), s) :=
    openEntry_run leads absolute (by cases truncates <;> decide) (by cases truncates <;> decide) mode
  have writable : (s.permsOf (.file file)).canWriteBy env.user = true := by
    rw [Permissions.canWriteBy, if_pos root]
  have readable : (s.permsOf (.file file)).canReadBy env.user = true := by
    rw [Permissions.canReadBy, if_pos root]
  have absolute' : (atPath .pathError (absolutePath (some path)) : Prog InMem (Halt OpenError) Path) s = (.ok key, s) := by
    rw [absolute]
    rfl
  rw [openPath, when_bind (by cases truncates <;> decide), bind_of_ok absolute', bind_of_ok entry]
  show (when _ _ >>= fun _ => when _ _ >>= fun _ => makeDescriptor _ _ _ _ >>= _) s = _
  rw [when_bind (by simp [readable]), when_bind (by simp [writable])]
  cases truncates with
  | false => rfl
  | true =>
    show (truncateOpened env s.nextFd >>= fun _ => pure s.nextFd) (s.withWriter file) = _
    have opened : (s.withWriter file).descriptors s.nextFd = some (.file file false true 0 false) := by
      simp [withWriter]
    have ran := @truncate_run (s.withWriter file) env file s.nextFd opened 0 (Nat.zero_le _)
    rw [show resized _ 0 = [] by simp [resized]] at ran
    rw [truncateOpened, bind_apply, bind_apply, attempt_apply, ran]
    rfl

/-! ## Writing -/

/-- One file has other bytes, and no name has changed. -/
structure Rewrote (s t : InMem) (file : ℕ) (data : List UInt8) : Prop where
  names : SameNames s t
  data : (t.files file).data = data
  others : ∀ other, other ≠ file → t.files other = s.files other

theorem Rewrote.refl (s : InMem) (file : ℕ) : Rewrote s s file (s.files file).data := ⟨⟨rfl, rfl, rfl⟩, rfl, fun _ _ => rfl⟩

theorem Rewrote.trans {u : InMem} {data data' : List UInt8} (first : Rewrote s t file data) (second : Rewrote t u file data') :
    Rewrote s u file data' :=
  ⟨⟨second.names.entries.trans first.names.entries, second.names.dirs.trans first.names.dirs,
    second.names.symlinks.trans first.names.symlinks⟩, second.data, fun other apart => (second.others other apart).trans (first.others other apart)⟩

theorem rewrote_withData (s : InMem) (now : Timestamp) (file : ℕ) (data : List UInt8) : Rewrote s
    (s.withData now file data) file data :=
  ⟨⟨rfl, rfl, rfl⟩, by simp [withData], fun other apart => by simp [withData, apart]⟩

theorem rewrote_descriptors (s : InMem) (file : ℕ) (descriptors : ℕ → Option Descriptor) (nextFd : ℕ) :
    Rewrote s { s with descriptors, nextFd } file (s.files file).data := ⟨⟨rfl, rfl, rfl⟩, rfl, fun _ _ => rfl⟩

variable {spec : MergeSpec}

section

variable (opened : s.descriptors fd = some (.file file false true 0 false))

include opened

theorem write_run {buf : List UInt8} {offset : Option ℕ}
    (small : offset.getD 0 + buf.length ≤ isizeMax) : ∃ t, write env fd buf offset s = (.ok buf.length, t) ∧
      Rewrote s t file (overwritten (s.files file).data buf (offset.getD 0)) ∧ (offset ≠ none → t.descriptors = s.descriptors) := by
  have sizes : isizeMax ≤ usizeMax := by decide
  have start : (if false = true ∧ offset = none then (s.files file).data.length else offset.getD 0) = offset.getD 0 := if_neg (by simp)
  rw [write, get_bind, opened]
  show ∃ t, (when _ _ >>= fun _ => when _ _ >>= fun _ => when _ _ >>= fun _ => modifyFile _ _ >>= _) s = _ ∧ _
  rw [when_bind (by simp), when_bind (by rw [start]; omega), when_bind (by rw [start]; omega), start]
  have rewrote := rewrote_withData s env.now file (overwritten (s.files file).data buf (offset.getD 0))
  cases offset with
  | none => exact ⟨_, rfl, ⟨⟨rfl, rfl, rfl⟩, rewrote.data, rewrote.others⟩, fun some => absurd rfl some⟩
  | some offset => exact ⟨_, rfl, rewrote, fun _ => rfl⟩

/-- The loop ends after one round, since the file system writes all it is given. -/
theorem writeAll_run {contents : List UInt8} {position : Option ℕ}
    (small : position.getD 0 + contents.length ≤ isizeMax) (inside : position.getD 0 ≤ (s.files file).data.length) :
    ∃ t, fileSystem.writeAll env fd contents position contents.length 0 s = (.ok (.ok ()), t) ∧
      Rewrote s t file (overwritten (s.files file).data contents (position.getD 0)) ∧ (position ≠ none → t.descriptors = s.descriptors) := by
  have sizes : isizeMax ≤ usizeMax := by decide
  cases contents with
  | nil =>
    refine ⟨s, rfl, ?_, fun _ => rfl⟩
    rw [overwritten_nil inside]
    exact .refl s file
  | cons first rest =>
    obtain ⟨t, ran, rewrote, kept⟩ := @write_run s env file fd opened (first :: rest) position small
    refine ⟨t, ?_, rewrote, kept⟩
    have same : position.map (· + 0) = position := by cases position <;> rfl
    have tried := @tried_of_ok _ _ ImportError _ _ _ _ _ ran
    rw [List.length_cons, writeAll, if_pos (by simp), when_bind (by omega), same, List.drop_zero]
    show (Prog.tried (write env fd (first :: rest) position) >>= _) s = _
    rw [bind_of_ok tried]
    show fileSystem.writeAll env fd (first :: rest) position rest.length (0 + (rest.length + 1)) t = _
    cases rest with
    | nil => rfl
    | cons second rest =>
      rw [List.length_cons, writeAll, if_neg (by simp)]
      rfl

theorem truncateTo_run {length : ℕ} (small : length ≤ isizeMax) :
    fileSystem.truncateTo env fd length s = (.ok (.ok ()), s.withData env.now file (resized (s.files file).data length)) := by
  have tried := @tried_of_ok _ _ ImportError _ _ _ _ _ (@truncate_run s env file fd opened length small)
  rw [truncateTo]
  show (Prog.tried (truncate env fd length true) >>= _) s = _
  rw [bind_of_ok tried]
  rfl

theorem patchAt_run {contents : List UInt8} {position : ℕ}
    {extendTo : Option ℕ} (small : position + contents.length ≤ isizeMax) (reached : ∀ finalLen, extendTo = some finalLen → finalLen ≤ isizeMax) :
    ∃ t, fileSystem.patchAt env fd contents (s.files file).data.length position extendTo s = (.ok (.ok ()), t) ∧
      Rewrote s t file (patched (s.files file).data contents position extendTo) := by
  have sizes : isizeMax ≤ usizeMax := by decide
  obtain ⟨t, grown, rewroteT, keptT, lengthT⟩ : ∃ t, (if (s.files file).data.length < position then fileSystem.truncateTo env fd position
        else pure (.ok ())) s = (.ok (.ok ()), t) ∧
      Rewrote s t file (if (s.files file).data.length < position then resized (s.files file).data position else (s.files file).data) ∧
      t.descriptors = s.descriptors ∧ position ≤ (t.files file).data.length := by
    split_ifs with short
    · refine ⟨_, truncateTo_run opened (by omega), rewrote_withData _ _ _ _, rfl, ?_⟩
      rw [(rewrote_withData s env.now file _).data, length_resized]
    · exact ⟨s, rfl, .refl s file, rfl, not_lt.mp short⟩
  obtain ⟨u, wrote, rewroteU, keptU⟩ := @writeAll_run t env file fd (by rw [keptT, opened]) contents (some position) small lengthT
  have rewrote := rewroteT.trans rewroteU
  rw [rewroteT.data] at rewrote
  rw [patchAt, bind_of_ok grown, unlessFailed, bind_of_ok wrote, unlessFailed, patched]
  cases extendTo with
  | none => exact ⟨u, rfl, rewrote⟩
  | some finalLen =>
    rw [FileSystem.extendFrom, when_bind (by omega), Fs.extended]
    by_cases longer : position + contents.length < finalLen
    · rw [if_pos longer, if_pos longer]
      refine ⟨_, truncateTo_run (by rw [keptU (by simp), keptT, opened]) (reached finalLen rfl), ?_⟩
      have final := rewrote.trans (rewrote_withData u env.now file (resized (u.files file).data finalLen))
      rw [rewrote.data] at final ⊢
      exact final
    · rw [if_neg longer, if_neg longer]
      exact ⟨u, rfl, rewrote⟩

theorem writePayload_run {contents : List UInt8}
    (whole : spec = .whole → (s.files file).data = []) (small : spec.reach (s.files file).data.length contents.length ≤ isizeMax) :
    ∃ t, fileSystem.writePayload env fd contents (s.files file).data.length spec s = (.ok (.ok ()), t) ∧
      Rewrote s t file (spec.apply (s.files file).data contents) := by
  cases spec with
  | whole =>
    obtain ⟨t, ran, rewrote, -⟩ := @writeAll_run s env file fd opened contents none (by simpa [MergeSpec.reach] using small) (Nat.zero_le _)
    refine ⟨t, ran, ?_⟩
    rw [whole rfl] at rewrote
    simpa [overwritten, MergeSpec.apply] using rewrote
  | append base => exact patchAt_run opened small (by simp)
  | range offset finalLen =>
    have sizes := max_le_iff.mp small
    exact patchAt_run opened sizes.1 (by simpa using sizes.2)

end

theorem fileStatus_run (leads : s.Leads env path file) :
    ∃ status, (fileSystem.fileStatus env (some path)).tried s = ((.ok (.ok status), s) : Except (Halt ImportError) _ × InMem) ∧
      status.size = (s.files file).data.length := by
  obtain ⟨key, -, parent, -, absolute, found, -⟩ := leads
  refine ⟨s.statusOf (.file file), tried_of_ok ?_, rfl⟩
  rw [show fileSystem.fileStatus = fileStatus from rfl, fileStatus, absolute]
  have entry : (find .pathError env key : Prog InMem (Halt FileStatusError) Entry) s = (.ok (.file file), s) := by
    rw [find, get_bind, found]
    rfl
  show (find FileStatusError.pathError env key >>= _) s = _
  rw [bind_of_ok entry]
  rfl

/-- Opening a file that is there for import empties it when the payload is the whole of it. -/
theorem openForImport_run (leads : s.Leads env path file) (root : env.user.user = 0) (mode : Mode) (spec : MergeSpec) :
    ∃ t, fileSystem.openForImport env path mode (wronly ||| creat ||| if spec = .whole then trunc else 0) s =
        (.ok (s.nextFd, false), t) ∧ t.descriptors s.nextFd = some (.file file false true 0 false) ∧
      Rewrote s t file (if spec = .whole then [] else (s.files file).data) := by
  have opened := openPath_run leads root (decide (spec = .whole)) mode
  simp only [importFlags, decide_eq_true_eq] at opened
  refine ⟨if spec = .whole then (s.withWriter file).withData env.now file [] else s.withWriter file, ?_, ?_, ?_⟩
  · rw [openForImport]
    show (tried (openPath _ _ _ _) >>= _) s = _
    rw [bind_of_ok (tried_of_ok opened)]
    rfl
  · split_ifs <;> simp [withWriter, withData]
  · split_ifs
    · exact (rewrote_descriptors s file _ _).trans (rewrote_withData (s.withWriter file) env.now file [])
    · exact rewrote_descriptors s file _ _

/-- The importer opens, patches and closes a file that is there. -/
theorem importFile_run (leads : s.Leads env path file) (root : env.user.user = 0) {mode : Mode} {contents : List UInt8}
    (small : spec.reach (s.files file).data.length contents.length ≤ isizeMax) :
    ∃ t, fileSystem.importFile env path mode contents spec s = (.ok (), t) ∧
      Rewrote s t file (spec.apply (s.files file).data contents) := by
  obtain ⟨o, opened, descriptor, cleared⟩ := openForImport_run leads root mode spec
  obtain ⟨status, statused, size⟩ := fileStatus_run (leads.congr cleared.names)
  obtain ⟨t, wrote, rewrote⟩ : ∃ t, fileSystem.writePayload env s.nextFd contents (o.files file).data.length spec o = (.ok (.ok ()), t) ∧
      Rewrote o t file (spec.apply (s.files file).data contents) := by
    by_cases whole : spec = .whole
    · rw [whole] at small ⊢
      exact writePayload_run descriptor (fun _ => by rw [cleared.data, if_pos whole]) small
    · have kept := cleared.data
      rw [if_neg whole] at kept
      rw [← kept] at small ⊢
      exact writePayload_run descriptor (fun isWhole => absurd isWhole whole) small
  have ended := (cleared.trans rewrote).trans (rewrote_descriptors t file (update t.descriptors s.nextFd none) t.nextFd)
  rw [rewrote.data] at ended
  refine ⟨_, ?_, ended⟩
  rw [importFile, bind_of_ok opened]
  dsimp only
  rw [bind_of_ok statused]
  dsimp only
  rw [size, bind_of_ok wrote]
  rfl

end InMem

end LiteBox.Fs
