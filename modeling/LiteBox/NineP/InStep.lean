import LiteBox.NineP.Client

/-! # The client in step with the server

A call that is refused because of a size field leaves the reader behind that field, inside a message, and does
not mark the connection as failed. As long as no size field is refused, every reader stands at a boundary or
is marked as failed, and every accepted response is a whole message of the stream.
-/

namespace LiteBox.NineP

open Bytes List Prog Nat Client Bool Function

/-- The size field at a place of the stream. -/
def sizeAt (sent : List UInt8) (place : ℕ) : Option ℕ := (slice? sent place 4).map leValue

/-- The places of the stream to which its size fields lead from the start. -/
inductive Boundary (sent : List UInt8) : ℕ → Prop
  | start : Boundary sent 0
  | next {place size : ℕ} (begins : Boundary sent place) (sized : sizeAt sent place = some size) : Boundary sent (place + size)

variable {F : Type} {others : UInt8 → List UInt8 → Option F} {sent : List UInt8}

/-- The response is a message of the stream that carries the tag. -/
def Whole (others : UInt8 → List UInt8 → Option F) (sent : List UInt8) (tag : ℕ) (reply : Reply F) : Prop :=
  Boundary sent reply.start ∧ ∃ size message, sizeAt sent reply.start = some size ∧
    slice? sent reply.start size = some message ∧ decode others message = some ⟨tag, reply.fcall⟩

namespace Report

def tag (report : Report F) : ℕ := report.before.nextTag

def Accepted (report : Report F) : Prop := ∃ reply, report.result = .ok reply

/-- The call took a tag and returned without a response to it. -/
def Abandoned (report : Report F) : Prop := report.before.transportFailed = false ∧ ¬report.Accepted

end Report

/-- The calls of a run accept only whole messages under their own tags, and none once the reader is off. -/
structure InStep (others : UInt8 → List UInt8 → Option F) (sent : List UInt8) (reports : List (Report F)) : Prop where
  whole : ∀ report ∈ reports, ∀ reply, report.result = .ok reply → Whole others sent report.tag reply
  ownTag : reports.Pairwise fun earlier later => earlier.Abandoned → later.Accepted → later.tag ≠ earlier.tag
  poisoned : reports.Pairwise fun earlier later => ¬Boundary sent earlier.after.taken → ¬later.Accepted

/-- Every message after the first has a size the client reads. -/
def WellSized (sent : List UInt8) (msize : ℕ) : Prop :=
  ∀ place size, 0 < place → Boundary sent place → sizeAt sent place = some size → 7 ≤ size ∧ size ≤ msize

/-- The tags have not come round since a call was abandoned. -/
def TagsLast (reports : List (Report F)) : Prop :=
  ∀ index report, reports[index]? = some report → report.Abandoned → reports.length ≤ index + (notag - 1)

/-! ## One message -/

variable {count taken tag : ℕ} {client : Client} {bytes : List UInt8}

theorem readExact_ok {arrived after : ℕ} (asked : 0 < count)
    (ran : readExact sent arrived count taken = (.ok bytes, after)) : slice? sent taken count = some bytes ∧ after = taken + count := by
  simp only [readExact] at ran
  split at ran
  · next enough =>
    cases ran
    rw [length_drop, length_take] at enough
    rw [slice?_of_le (by omega), drop_take, take_take, min_eq_left (by omega)]
    exact ⟨rfl, rfl⟩
  · cases ran

theorem readExact_error {arrived after : ℕ} {failure : Error}
    (ran : readExact sent arrived count taken = (.error failure, after)) : failure = .io := by
  simp only [readExact] at ran
  split at ran
  · cases ran
  · cases ran
    rfl

/-- The ways a message is read: whole, cut short, refused by its size field, or whole with a payload that does
not decode. -/
inductive Read (others : UInt8 → List UInt8 → Option F) (sent : List UInt8) (maxSize taken : ℕ) :
    Except Error (TaggedFcall F) × ℕ → Prop
  | whole {size : ℕ} {message : List UInt8} {response : TaggedFcall F} (sized : sizeAt sent taken = some size) (least : 7 ≤ size)
    (found : slice? sent taken size = some message) (decoded : decode others message = some response) :
    Read others sent maxSize taken (.ok response, taken + size)
  | cut (after : ℕ) : Read others sent maxSize taken (.error .io, after)
  | refused {size : ℕ} (sized : sizeAt sent taken = some size) (unread : size < 7 ∨ maxSize < size) :
    Read others sent maxSize taken (.error .invalidResponse, taken + 4)
  | undecoded {size : ℕ} (sized : sizeAt sent taken = some size) (least : 7 ≤ size) :
    Read others sent maxSize taken (.error .invalidResponse, taken + size)

theorem le_of_slice? {place : ℕ} (found : slice? sent place count = some bytes) :
    place + count ≤ sent.length := by
  unfold slice? at found
  split at found
  · assumption
  · cases found

theorem slice?_append {first rest : List UInt8} {more : ℕ} (found : slice? sent taken count = some first)
    (followed : slice? sent (taken + count) more = some rest) : slice? sent taken (count + more) = some (first ++ rest) := by
  unfold slice? at *
  split at followed
  · next bound =>
    rw [if_pos (by omega)] at found
    cases found
    cases followed
    rw [if_pos (by omega), ← drop_drop, take_add]
  · cases followed

variable (others sent) in
theorem readMessage_read (arrived maxSize taken : ℕ) :
    Read others sent maxSize taken (readMessage others sent arrived maxSize taken) := by
  unfold readMessage readToBuf
  rcases header : readExact sent arrived 4 taken with ⟨failure | size, after⟩
  · rw [bind_of_error (bind_of_error header), readExact_error header]
    exact .cut after
  · obtain ⟨found, rfl⟩ := readExact_ok (by decide) header
    have sized : sizeAt sent taken = some (leValue size) := by rw [sizeAt, found]; rfl
    rw [bind_apply, bind_of_ok header]
    rcases lt_or_ge (leValue size) 7 with short | least
    · rw [if_pos short]
      exact .refused sized (.inl short)
    rcases lt_or_ge maxSize (leValue size) with long | most
    · rw [if_neg (by omega), if_pos long]
      exact .refused sized (.inr long)
    rw [if_neg (by omega), if_neg (by omega)]
    rcases body : readExact sent arrived (leValue size - 4) (taken + 4) with ⟨failure | rest, after⟩
    · rw [bind_of_error body, readExact_error body]
      exact .cut after
    · obtain ⟨followed, rfl⟩ := readExact_ok (by omega) body
      have message := slice?_append found followed
      rw [Nat.add_sub_cancel' (by omega)] at message
      have ends : taken + 4 + (leValue size - 4) = taken + leValue size := by omega
      rw [bind_of_ok body, ends, pure_apply]
      dsimp only
      rcases decoded : decode others (size ++ rest) with _ | response
      · exact .undecoded sized least
      · exact .whole sized least message decoded

/-! ## One call -/

section

variable (attempt : Attempt)

include attempt

/-- The client stands at a boundary behind the first message, or knows that its transport failed. -/
def Aligned (sent : List UInt8) (client : Client) : Prop :=
  client.transportFailed = true ∨ 0 < client.taken ∧ Boundary sent client.taken

theorem awaitResponse_frame (tag fuel : ℕ) (client : Client) :
    (awaitResponse others sent attempt tag fuel client).2.msize = client.msize ∧
      (awaitResponse others sent attempt tag fuel client).2.nextTag = client.nextTag := by
  induction fuel generalizing client with
  | zero => exact ⟨rfl, rfl⟩
  | succ fuel ih =>
    simp only [awaitResponse, awaitRound]
    split
    · split
      · exact ⟨rfl, rfl⟩
      · exact ih _
    · exact ⟨rfl, rfl⟩
    · exact ⟨rfl, rfl⟩

theorem awaitResponse_aligned (tag fuel : ℕ) (sized : WellSized sent client.msize)
    (later : 0 < client.taken) (placed : Boundary sent client.taken) :
    Aligned sent (awaitResponse others sent attempt tag fuel client).2 ∧
      ∀ reply, (awaitResponse others sent attempt tag fuel client).1 = .ok reply → Whole others sent tag reply := by
  induction fuel generalizing client with
  | zero => exact ⟨.inl rfl, nofun⟩
  | succ fuel ih =>
    simp only [awaitResponse, awaitRound]
    have read := readMessage_read others sent attempt.arrived client.msize client.taken
    revert read
    generalize readMessage others sent attempt.arrived client.msize client.taken = ran
    intro read
    cases read with
    | @whole size message response field least found decoded =>
      have next := placed.next field
      dsimp only
      split
      · next same =>
        refine ⟨.inr ⟨Nat.add_pos_left later _, next⟩, fun reply accepted => ?_⟩
        cases accepted
        exact ⟨placed, size, message, field, found, same ▸ decoded⟩
      · exact ih sized (Nat.add_pos_left later _) next
    | cut after => exact ⟨.inl rfl, nofun⟩
    | refused field unread =>
      have := sized _ _ later placed field
      omega
    | undecoded field least => exact ⟨.inr ⟨Nat.add_pos_left later _, placed.next field⟩, nofun⟩

theorem fcall_of_failed (failed : client.transportFailed = true) :
    fcall others sent attempt client = (.error .io, client) := by
  rw [fcall, failed]
  rfl

theorem fcall_frame (usable : client.transportFailed = false) :
    (fcall others sent attempt client).2.msize = client.msize ∧
      (fcall others sent attempt client).2.nextTag = advanceTag client.nextTag := by
  simp only [fcall, usable, false_eq_true, if_false]
  split
  · exact ⟨rfl, rfl⟩
  · exact awaitResponse_frame attempt _ _ _

theorem fcall_aligned (sized : WellSized sent client.msize) (aligned : Aligned sent client) :
    Aligned sent (fcall others sent attempt client).2 ∧
      ∀ reply, (fcall others sent attempt client).1 = .ok reply → Whole others sent client.nextTag reply := by
  rcases eq_false_or_eq_true client.transportFailed with failed | usable
  · rw [fcall_of_failed attempt failed]
    exact ⟨.inl failed, nofun⟩
  · obtain ⟨later, placed⟩ := aligned.resolve_left (by simp [usable])
    simp only [fcall, usable, false_eq_true, if_false]
    split
    · exact ⟨.inl rfl, nofun⟩
    · exact awaitResponse_aligned attempt _ _ sized later placed

end

/-! ## Tags -/

/-- The client holds a tag a call may take. -/
def TagInRange (tag : ℕ) : Prop := 0 < tag ∧ tag < notag

theorem advanceTag_eq (inRange : TagInRange tag) : advanceTag tag = tag % (notag - 1) + 1 := by
  unfold TagInRange advanceTag notag at *
  split <;> omega

theorem advanceTag_inRange (inRange : TagInRange tag) : TagInRange (advanceTag tag) := by
  rw [advanceTag_eq inRange]
  unfold TagInRange notag
  omega

theorem advanceTag_iterate (inRange : TagInRange tag) (calls : ℕ) :
    advanceTag^[calls] tag = (tag - 1 + calls) % (notag - 1) + 1 := by
  induction calls with
  | zero =>
    rw [iterate_zero_apply]
    unfold TagInRange notag at *
    omega
  | succ calls ih =>
    rw [iterate_succ_apply', ih, advanceTag_eq (by unfold TagInRange notag; omega)]
    unfold notag
    omega

/-- A tag comes back only after all the others. -/
theorem advanceTag_iterate_ne {calls : ℕ} (inRange : TagInRange tag) (later : 0 < calls) (few : calls < notag - 1) :
    advanceTag^[calls] tag ≠ tag := by
  rw [advanceTag_iterate inRange]
  unfold TagInRange notag at *
  omega

/-! ## Runs -/

variable (attempts : List Attempt)

theorem run_of_failed (failed : client.transportFailed = true) :
    ∀ report ∈ run others sent client attempts, ¬report.Accepted := by
  induction attempts with
  | nil => exact nofun
  | cons attempt rest ih =>
    intro report listed
    rw [run, fcall_of_failed attempt failed, mem_cons] at listed
    rcases listed with rfl | listed
    · exact nofun
    · exact ih report listed

/-- A call that is accepted has the tag that its place in the run gives it. -/
theorem run_tag {attempts : List Attempt} {index : ℕ} {report : Report F}
    (found : (run others sent client attempts)[index]? = some report) (accepted : report.Accepted) :
    report.tag = advanceTag^[index] client.nextTag := by
  induction attempts generalizing client index with
  | nil => cases found
  | cons attempt rest ih =>
    rw [run] at found
    cases index with
    | zero =>
      cases found
      rfl
    | succ index =>
      rw [getElem?_cons_succ] at found
      rcases eq_false_or_eq_true client.transportFailed with failed | usable
      · rw [fcall_of_failed attempt failed] at found
        exact absurd accepted (run_of_failed rest failed report (mem_of_getElem? found))
      · rw [ih found, (fcall_frame attempt usable).2, iterate_succ_apply]

theorem TagsLast.tail {first : Report F} {reports : List (Report F)} (lasts : TagsLast (first :: reports)) : TagsLast reports := by
  intro index report found abandoned
  have := lasts (index + 1) report found abandoned
  rw [length_cons] at this
  omega

theorem run_inStep (sized : WellSized sent client.msize) (aligned : Aligned sent client)
    (inRange : TagInRange client.nextTag) (lasts : TagsLast (run others sent client attempts)) :
    InStep others sent (run others sent client attempts) := by
  induction attempts generalizing client with
  | nil => exact ⟨nofun, .nil, .nil⟩
  | cons attempt rest ih =>
    rw [run] at lasts ⊢
    obtain ⟨alignedAfter, whole⟩ := fcall_aligned attempt sized aligned
    have framed : WellSized sent (fcall others sent attempt client).2.msize ∧
        TagInRange (fcall others sent attempt client).2.nextTag := by
      rcases eq_false_or_eq_true client.transportFailed with failed | usable
      · rw [fcall_of_failed attempt failed]
        exact ⟨sized, inRange⟩
      · rw [(fcall_frame attempt usable).1, (fcall_frame attempt usable).2]
        exact ⟨sized, advanceTag_inRange inRange⟩
    have later := ih framed.1 alignedAfter framed.2 lasts.tail
    refine ⟨?_, .cons ?_ later.ownTag, .cons ?_ later.poisoned⟩
    · intro report listed
      rcases mem_cons.mp listed with rfl | listed
      · exact whole
      · exact later.whole report listed
    · intro report listed abandoned accepted
      obtain ⟨index, found⟩ := mem_iff_getElem?.mp listed
      have few := lasts 0 _ rfl abandoned
      have inside := (List.getElem?_eq_some_iff.mp found).1
      rw [length_cons] at few
      rw [run_tag found accepted, (fcall_frame attempt abandoned.1).2, ← iterate_succ_apply]
      exact advanceTag_iterate_ne inRange (succ_pos _) (by omega)
    · intro report listed off
      exact run_of_failed rest (alignedAfter.resolve_right fun placed => off placed.2) report listed

theorem new_aligned {maxMsize : ℕ} {attempt : Attempt}
    (built : new others sent maxMsize attempt = .ok client) : Aligned sent client ∧ client.nextTag = 1 := by
  simp only [new] at built
  split at built
  · cases built
  · have read := readMessage_read others sent attempt.arrived (max maxMsize minMsize) 0
    generalize readMessage others sent attempt.arrived (max maxMsize minMsize) 0 = ran at read built
    cases read with
    | @whole size message response field least found decoded =>
      rcases response with ⟨tag, ecode | ⟨msize, version⟩ | message⟩
      · cases built
      · dsimp only at built
        split at built
        · cases built
        split at built
        · cases built
        · cases built
          exact ⟨.inr ⟨Nat.add_pos_right 0 (by omega), Boundary.start.next field⟩, rfl⟩
      · cases built
    | cut | refused | undecoded => cases built

/-- A client whose server sends no message of a size it refuses, and whose tags have not come round since a call
was abandoned, stays in step with the stream. -/
theorem stays_in_step {maxMsize : ℕ} {attempt : Attempt} {client : Client} (attempts : List Attempt)
    (built : new others sent maxMsize attempt = .ok client) (sized : WellSized sent client.msize)
    (lasts : TagsLast (run others sent client attempts)) : InStep others sent (run others sent client attempts) := by
  obtain ⟨aligned, first⟩ := new_aligned built
  exact run_inStep attempts sized aligned (first ▸ ⟨by decide, by decide⟩) lasts

theorem Boundary.mem_of_closed {places : List ℕ} {place : ℕ} (first : 0 ∈ places)
    (closed : ∀ place ∈ places, ∀ size ∈ sizeAt sent place, place + size ∈ places) (boundary : Boundary sent place) : place ∈ places := by
  induction boundary with
  | start => exact first
  | next _ sized ih => exact closed _ ih _ sized

/-- A server's `Rversion` that grants 8192 bytes, and an `Rclunk` under a tag. -/
def versionReply : List UInt8 := [21, 0, 0, 0, 101, 255, 255, 0, 32, 0, 0, 8, 0] ++ protocolVersion

def clunkReply (tag : UInt8) : List UInt8 := [7, 0, 0, 0, 121, tag, 0]

def readClunk (type : UInt8) (_ : List UInt8) : Option Unit := if type = 121 then some () else none

def negotiated : Client := { msize := 8192, nextTag := 1, transportFailed := false, taken := 21 }

theorem stays_in_step_oneCall : InStep readClunk (versionReply ++ clunkReply 1)
    (negotiated.run readClunk (versionReply ++ clunkReply 1) [⟨true, 28⟩]) := by
  have built : new readClunk (versionReply ++ clunkReply 1) 8192 ⟨true, 21⟩ = .ok negotiated := by decide +kernel
  have sizes : ∀ place ∈ [0, 21, 28], ∀ size ∈ sizeAt (versionReply ++ clunkReply 1) place,
      place + size ∈ [0, 21, 28] ∧ 7 ≤ size ∧ size ≤ negotiated.msize := by decide +kernel
  refine stays_in_step _ built ?_ ?_
  · intro place size later boundary sized
    exact (sizes _ (boundary.mem_of_closed (by decide) fun place listed size sized => (sizes place listed size sized).1) _ sized).2
  · intro index report found abandoned
    show 1 ≤ _
    have : 1 ≤ notag - 1 := by decide
    omega

/-- A size field below seven is refused, and the next call takes the bytes behind it for a message. -/
theorem refused_size_desynchronises :
    new readClunk (versionReply ++ [0, 0, 0, 0] ++ clunkReply 2) 8192 ⟨true, 21⟩ = .ok negotiated ∧
      ¬InStep readClunk (versionReply ++ [0, 0, 0, 0] ++ clunkReply 2)
        (negotiated.run readClunk (versionReply ++ [0, 0, 0, 0] ++ clunkReply 2) [⟨true, 32⟩, ⟨true, 32⟩]) := by
  refine ⟨by decide +kernel, fun inStep => ?_⟩
  have second : ∃ report ∈ negotiated.run readClunk (versionReply ++ [0, 0, 0, 0] ++ clunkReply 2) [⟨true, 32⟩, ⟨true, 32⟩],
      report.result = .ok ⟨25, .other ()⟩ := by decide +kernel
  obtain ⟨report, listed, accepted⟩ := second
  have inside : 25 ∈ [0, 21] := (inStep.whole report listed _ accepted).1.mem_of_closed (by decide) (by decide +kernel)
  exact absurd inside (by decide)

end LiteBox.NineP
