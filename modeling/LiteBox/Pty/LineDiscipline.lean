import LiteBox.Lib.Run

/-! # The line discipline of a terminal

The input half of a pseudoterminal: input mapping, signal characters, the canonical line editor and the echo. Every
byte carries the time at which it was typed, which the code does not have and never looks at. Bytes that are typed in
raw mode overtake those of a line that canonical mode has left unfinished.
-/

namespace LiteBox.Pty

open List Run

/-! ## Settings -/

def igncr : BitVec 32 := 0o200
def icrnl : BitVec 32 := 0o400
def inlcr : BitVec 32 := 0o100
def isig : BitVec 32 := 0o1
def icanon : BitVec 32 := 0o2
def echo : BitVec 32 := 0o10
def echoe : BitVec 32 := 0o20
def echok : BitVec 32 := 0o40
def echonl : BitVec 32 := 0o100
def echoctl : BitVec 32 := 0o1000
def echoke : BitVec 32 := 0o4000
def iexten : BitVec 32 := 0o100000

def vintr : Fin 19 := 0
def vquit : Fin 19 := 1
def verase : Fin 19 := 2
def vkill : Fin 19 := 3
def veof : Fin 19 := 4
def vsusp : Fin 19 := 10
def veol : Fin 19 := 11
def vwerase : Fin 19 := 14
def vlnext : Fin 19 := 15
def veol2 : Fin 19 := 16

def tab : UInt8 := 0x09
def newline : UInt8 := 0x0a
def carriageReturn : UInt8 := 0x0d

def maxLine : ℕ := 4095

structure Typed where
  time : ℕ
  byte : UInt8
deriving DecidableEq

inductive Action
  | deliver (bytes : List Typed)
  | echo (bytes : List UInt8)
  | signal (number : ℤ)
  | eof

structure Termios where
  (cIflag cLflag : BitVec 32)
  cCc : Fin 19 → UInt8

namespace Termios

variable (t : Termios) (b : UInt8)

def iflag (flag : BitVec 32) : Bool := t.cIflag &&& flag != 0

def lflag (flag : BitVec 32) : Bool := t.cLflag &&& flag != 0

/-- The byte is the special character, and that is not disabled. -/
def isCc (index : Fin 19) : Bool := b == t.cCc index && b != 0

def echoChar : List UInt8 :=
  if t.lflag echoctl && (b < 0x20 || b == 0x7f) && b != tab && b != newline then [0x5e, if b == 0x7f then 0x3f else b + 0x40]
  else [b]

def echoWidth : ℕ := if t.lflag echoctl && (b < 0x20 || b == 0x7f) && b != tab then 2 else 1

/-- What takes bytes off the screen. -/
def wipe (gone : List Typed) : List UInt8 := gone.flatMap fun key => (replicate (t.echoWidth key.byte) [0x08, 0x20, 0x08]).flatten

def echoing (bytes : List UInt8) : List Action := if t.lflag Pty.echo && bytes != [] then [.echo bytes] else []

/-- The input mapping; `none` is a byte that is ignored. -/
def mapped : Option UInt8 :=
  if b = carriageReturn then
    if t.iflag igncr then none else some (if t.iflag icrnl then newline else b)
  else some (if b = newline ∧ t.iflag inlcr then carriageReturn else b)

def signalOf : Option ℤ :=
  if t.lflag isig then
    if t.isCc b vintr then some 2 else if t.isCc b vquit then some 3 else if t.isCc b vsusp then some 20 else none
  else none

end Termios

/-! ## The discipline -/

structure LineDiscipline where
  line : List Typed := []
  literalNext : Bool := false

def isBlank (key : Typed) : Bool := key.byte == 0x20 || key.byte == tab

namespace LineDiscipline

def accept (d : LineDiscipline) (key : Typed) (t : Termios) (literal : Bool) : LineDiscipline × List Action :=
  let b := key.byte
  if !t.lflag icanon then
    (d, .deliver [key] :: t.echoing (if b = newline then [carriageReturn, newline] else t.echoChar b))
  else if !literal && t.isCc b verase then
    match d.line.getLast? with
    | some gone => ({ d with line := d.line.dropLast }, t.echoing (if t.lflag echoe then t.wipe [gone] else t.echoChar b))
    | none => (d, [])
  else if !literal && t.isCc b vwerase && t.lflag iexten then
    let (blanks, words) := d.line.reverse.span isBlank
    let (word, rest) := words.span (!isBlank ·)
    ({ d with line := rest.reverse }, t.echoing (t.wipe (blanks ++ word)))
  else if !literal && t.isCc b vkill then
    ({ d with line := [] },
      t.echoing (if t.lflag echoke then t.wipe d.line else if t.lflag echok then [carriageReturn, newline] else []))
  else if !literal && t.isCc b veof then
    if d.line = [] then (d, [.eof]) else ({ d with line := [] }, [.deliver d.line])
  else
    let isEol := b == newline || !literal && (t.isCc b veol || t.isCc b veol2)
    if maxLine ≤ d.line.length && !isEol then (d, [])
    else if isEol then
      ({ d with line := [] }, .deliver (d.line ++ [key]) ::
        if t.lflag echo || b == newline && t.lflag echonl then
          [.echo (if b = newline then [carriageReturn, newline] else t.echoChar b)]
        else [])
    else ({ d with line := d.line ++ [key] }, t.echoing (t.echoChar b))

def input (d : LineDiscipline) (key : Typed) (t : Termios) : LineDiscipline × List Action :=
  if d.literalNext then { d with literalNext := false }.accept key t true
  else match t.mapped key.byte with
    | none => (d, [])
    | some b =>
      match t.signalOf b with
      | some number => ({ d with line := [] }, t.echoing (t.echoChar b) ++ [.signal number])
      | none =>
        if t.lflag iexten && t.lflag icanon && t.isCc b vlnext then ({ d with literalNext := true }, t.echoing [0x5e, 0x08])
        else d.accept { key with byte := b } t false

/-- The byte after input mapping, from which a literal one is exempt. -/
def taken (d : LineDiscipline) (key : Typed) (t : Termios) : Option Typed :=
  if d.literalNext then some key else (t.mapped key.byte).map fun b => { key with byte := b }

end LineDiscipline

def delivered (actions : List Action) : List Typed :=
  actions.flatMap fun
    | .deliver bytes => bytes
    | _ => []

/-! ## One byte -/

variable {d : LineDiscipline} {key : Typed} {t : Termios}

@[simp] theorem delivered_nil : delivered [] = [] := rfl

@[simp] theorem delivered_deliver (bytes : List Typed) (actions : List Action) :
    delivered (.deliver bytes :: actions) = bytes ++ delivered actions := rfl

@[simp] theorem delivered_echoing (bytes : List UInt8) : delivered (t.echoing bytes) = [] := by
  unfold Termios.echoing
  split <;> rfl

/-- What is delivered and what stays pending were pending or have just been typed, in this order. -/
theorem accept_sublist (ready : t.lflag icanon = true ∨ d.line = []) (literal : Bool) :
    delivered (d.accept key t literal).2 ++ (d.accept key t literal).1.line <+ d.line ++ [key] := by
  have pending : d.line <+ d.line ++ [key] := sublist_append_left _ _
  simp only [LineDiscipline.accept]
  split
  · next raw =>
    obtain canonical | empty := ready
    · simp [canonical] at raw
    · simp [empty]
  split
  · split
    · simpa using (dropLast_sublist _).trans pending
    · exact pending
  split
  · have words : d.line.reverse.dropWhile isBlank <+ d.line.reverse := dropWhile_sublist _
    have rest := ((dropWhile_sublist (!isBlank ·)).trans words).reverse
    simpa [span_eq_takeWhile_dropWhile] using (reverse_reverse d.line ▸ rest).trans pending
  split
  · simp
  split
  · split
    · exact pending
    · simp
  split
  · exact pending
  split
  · split <;> simp [delivered]
  · simp

theorem input_sublist (ready : t.lflag icanon = true ∨ d.line = []) :
    delivered (d.input key t).2 ++ (d.input key t).1.line <+ d.line ++ (d.taken key t).toList := by
  unfold LineDiscipline.input LineDiscipline.taken
  split
  · exact accept_sublist (d := { d with literalNext := false }) ready true
  cases t.mapped key.byte with
  | none => simp
  | some b =>
    dsimp only
    split
    · unfold Termios.echoing
      split <;> exact nil_sublist _
    split
    · simp
    · exact accept_sublist ready false

theorem accept_short {literal : Bool} (short : d.line.length ≤ maxLine) : (d.accept key t literal).1.line.length ≤ maxLine := by
  have words : d.line.reverse.dropWhile isBlank <+ d.line.reverse := dropWhile_sublist _
  have rest := ((dropWhile_sublist (!isBlank ·)).trans words).length_le
  simp only [LineDiscipline.accept, span_eq_takeWhile_dropWhile]
  split_ifs <;> (try split) <;> simp_all <;> omega

theorem input_short (short : d.line.length ≤ maxLine) : (d.input key t).1.line.length ≤ maxLine := by
  unfold LineDiscipline.input
  split
  · exact accept_short (d := { d with literalNext := false }) short
  cases t.mapped key.byte with
  | none => exact short
  | some b =>
    dsimp only
    split
    · exact Nat.zero_le _
    split
    · exact short
    · exact accept_short short

/-! ## Runs -/

structure Session where
  discipline : LineDiscipline := {}
  clock : ℕ := 0
  typed : List Typed := []
  delivered : List Typed := []

/-- A byte is typed while the settings are in force. -/
def Session.step (s : Session) (event : UInt8 × Termios) : Session :=
  let key : Typed := ⟨s.clock, event.1⟩
  let (discipline, actions) := s.discipline.input key event.2
  { discipline, clock := s.clock + 1
    typed := s.typed ++ (s.discipline.taken key event.2).toList
    delivered := s.delivered ++ Pty.delivered actions }

def Undisturbed (s : Session) (event : UInt8 × Termios) : Prop :=
  event.2.lflag icanon = true ∨ s.discipline.line = []

structure InOrder (s : Session) : Prop where
  kept : s.delivered ++ s.discipline.line <+ s.typed
  timed : s.typed.Pairwise (·.time < ·.time)
  past : ∀ key ∈ s.typed, key.time < s.clock

theorem time_of_mem_taken {other : Typed} (mem : other ∈ (d.taken key t).toList) : other.time = key.time := by
  unfold LineDiscipline.taken at mem
  split at mem
  · simp_all
  · obtain ⟨b, _, rfl⟩ := Option.map_eq_some_iff.mp (Option.mem_toList.mp mem)
    rfl

theorem step_inOrder (s : Session) (event : UInt8 × Termios) (inv : InOrder s) (ready : Undisturbed s event) :
    InOrder (s.step event) := by
  refine ⟨?_, pairwise_append.mpr ⟨inv.timed, ?_, fun first mem second taken => ?_⟩, fun other mem => ?_⟩
  · have kept := @input_sublist _ ⟨s.clock, event.1⟩ _ ready
    simp only [Session.step, append_assoc]
    refine ((Sublist.refl _).append kept).trans ?_
    rw [← append_assoc]
    exact inv.kept.append (Sublist.refl _)
  · cases s.discipline.taken ⟨s.clock, event.1⟩ event.2 <;> simp
  · rw [time_of_mem_taken taken]
    exact inv.past first mem
  · obtain mem | taken := mem_append.mp mem
    · exact (inv.past other mem).trans s.clock.lt_succ_self
    · exact (time_of_mem_taken taken).trans_lt s.clock.lt_succ_self

/-- As long as canonical mode is never left with a line pending, what is delivered is a subsequence of what is typed,
and each byte was typed after those that were delivered before it. -/
theorem delivered_in_order (events : List (UInt8 × Termios)) (undisturbed : Always Session.step Undisturbed {} events) :
    (run Session.step {} events).delivered <+ (run Session.step {} events).typed ∧
      (run Session.step {} events).delivered.Pairwise (·.time < ·.time) := by
  have inv := undisturbed.invariant InOrder ⟨.slnil, .nil, by simp⟩ step_inOrder
  have sublist := (sublist_append_left _ _).trans inv.kept
  exact ⟨sublist, inv.timed.sublist sublist⟩

/-- Whatever is typed under whichever settings, the line keeps to `MAX_LINE`. -/
theorem pending_le_maxLine (events : List (UInt8 × Termios)) : (run Session.step {} events).discipline.line.length ≤ maxLine :=
  foldlRecOn (motive := fun s : Session => s.discipline.line.length ≤ maxLine) events _ (Nat.zero_le _)
    fun _ short _ _ => input_short short

def canonical : Termios := ⟨0, icanon, fun _ => 0⟩

theorem delivered_in_order_line :
    let s := run Session.step {} [(0x61, canonical), (newline, canonical), (0x62, ⟨0, 0, fun _ => 0⟩)]
    s.delivered <+ s.typed ∧ s.delivered.Pairwise (·.time < ·.time) :=
  delivered_in_order _ ⟨.inl rfl, .inl rfl, .inr rfl, trivial⟩

/-- The `b` that is typed in raw mode overtakes the `a` of the unfinished line. -/
theorem raw_overtakes_line :
    let s := run Session.step {} [(0x61, canonical), (0x62, ⟨0, 0, fun _ => 0⟩), (newline, canonical)]
    s.delivered = [⟨1, 0x62⟩, ⟨0, 0x61⟩, ⟨2, newline⟩] ∧ ¬s.delivered <+ s.typed := by
  decide

end LiteBox.Pty
