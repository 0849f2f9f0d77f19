import LiteBox.Mm.Duplicate
import LiteBox.Mm.Relocations
import LiteBox.Lib.Decimal
import Mathlib.Data.List.DropRight

/-! # Address relocations as a line of text

A parent sends its relocations to a forked process as one line: decimal numbers, with commas inside a field and
semicolons between fields, and the number of entries before each of the two lists. A text is its list of characters.
-/

namespace LiteBox.Mm

open List

/-- `AddressRelocations` with all its fields. -/
structure RelocationTable where
  ranges : AddressRelocations
  heapTop : ℕ
  groupRelocations : List GroupRelocation

namespace RelocationTable

open Decimal (parse)

/-! ## The writer -/

def decimal (n : ℕ) : List Char := Nat.toDigits 10 n

def commas (numbers : List ℕ) : List Char := [','].intercalate (numbers.map decimal)

def rangeField (r : Relocation) : List Char :=
  commas [r.start, r.stop, r.destBase, r.executable.toNat, r.privateData.toNat, r.isFileBacked.toNat, r.flags.toNat]

def groupField (g : GroupRelocation) : List Char := commas [g.sourceStart, g.sourceStop, g.destBase]

def serializeForDiagnostic (self : RelocationTable) : List Char :=
  decimal self.heapTop ++ ';' :: decimal self.ranges.length ++ self.ranges.flatMap (fun r => ';' :: rangeField r) ++
    ';' :: decimal self.groupRelocations.length ++ self.groupRelocations.flatMap fun g => ';' :: groupField g

/-! ## The reader -/

/-- `char::is_whitespace`. -/
def isWhitespace (c : Char) : Bool :=
  let n := c.toNat
  (9 ≤ n ∧ n ≤ 13) ∨ (0x2000 ≤ n ∧ n ≤ 0x200A) ∨ n ∈ [0x20, 0x85, 0xA0, 0x1680, 0x2028, 0x2029, 0x202F, 0x205F, 0x3000]

def trim (line : List Char) : List Char := (line.dropWhile isWhitespace).rdropWhile isWhitespace

/-- The fields of the line. -/
def parts (line : List Char) : List (List Char) := (trim line).splitOn ';'

/-- The capacities that were asked for, and what was returned; a panic is an error. -/
structure Outcome where
  requests : List ℕ
  result : Except String (Option RelocationTable)

/-- The `?` operator before the rest of the function. -/
def orNone {α : Type} (option : Option α) (next : α → Outcome) : Outcome :=
  match option with
  | some value => next value
  | none => ⟨[], .ok none⟩

/-- `Vec::with_capacity`, for entries of `size` bytes, before the rest; the allocator grants at most `limit` bytes. -/
def withCapacity (limit size capacity : ℕ) (next : Outcome) : Outcome :=
  if size * capacity ≤ limit then { next with requests := capacity :: next.requests } else ⟨[capacity], .error "capacity overflow"⟩

/-- The next field as a number, and the fields after it. -/
def nextUsize : List (List Char) → Option (ℕ × List (List Char))
  | [] => none
  | field :: rest => (parse usizeMax field).map (·, rest)

/-- The loop that reads `count` fields. -/
def nextMany {α : Type} (read : List Char → Option α) : ℕ → List (List Char) → Option (List α × List (List Char))
  | 0, fields => some ([], fields)
  | _ + 1, [] => none
  | count + 1, field :: rest => do
    let entry ← read field
    let (entries, rest) ← nextMany read count rest
    some (entry :: entries, rest)

def readRange (field : List Char) : Option Relocation :=
  match field.splitOn ',' with
  | [start, stop, destBase, exec, priv, fileBacked, flagBits] => do
    let start ← parse usizeMax start
    let stop ← parse usizeMax stop
    let destBase ← parse usizeMax destBase
    let exec ← parse (2 ^ 8 - 1) exec
    let priv ← parse (2 ^ 8 - 1) priv
    let fileBacked ← parse (2 ^ 8 - 1) fileBacked
    let flagBits ← parse (2 ^ 32 - 1) flagBits
    some ⟨start, stop, destBase, exec ≠ 0, priv ≠ 0, fileBacked ≠ 0, BitVec.ofNat 32 flagBits⟩
  | _ => none

def readGroup (field : List Char) : Option GroupRelocation :=
  match field.splitOn ',' with
  | [start, stop, destBase] => do
    let start ← parse usizeMax start
    let stop ← parse usizeMax stop
    let destBase ← parse usizeMax destBase
    some ⟨start, stop, destBase⟩
  | _ => none

def deserializeForDiagnostic (limit : ℕ) (line : List Char) : Outcome :=
  orNone (nextUsize (parts line)) fun (heapTop, fields) =>
  orNone (nextUsize fields) fun (rangeCount, fields) =>
  withCapacity limit 24 rangeCount <| withCapacity limit 1 rangeCount <| withCapacity limit 1 rangeCount <|
  withCapacity limit 1 rangeCount <| withCapacity limit 4 rangeCount <|
  orNone (nextMany readRange rangeCount fields) fun (ranges, fields) =>
  orNone (nextUsize fields) fun (groupCount, fields) =>
  withCapacity limit 24 groupCount <|
  orNone (nextMany readGroup groupCount fields) fun (groupRelocations, fields) =>
  ⟨[], .ok (if fields = [] then some ⟨ranges, heapTop, groupRelocations⟩ else none)⟩

/-! ## Reading what was written -/

section Fields

variable {α : Type} {x c : Char} {n m : ℕ} {ls : List (List Char)} {read : List Char → Option α}

theorem intercalate_cons (l : List Char) : [x].intercalate (l :: ls) = l ++ ls.flatMap (x :: ·) := by
  induction ls generalizing l with
  | nil => simp
  | cons l' rest ih => rw [intercalate_cons_cons, ih, flatMap_cons, append_assoc, singleton_append, cons_append]

theorem mem_intercalate (member : c ∈ [x].intercalate ls) : c = x ∨ ∃ l ∈ ls, c ∈ l := by
  cases ls with
  | nil => cases member
  | cons l rest =>
    rcases mem_append.mp (intercalate_cons l ▸ member) with here | later
    · exact .inr ⟨l, mem_cons_self, here⟩
    · obtain ⟨l', among, inside⟩ := mem_flatMap.mp later
      exact (mem_cons.mp inside).imp_right fun inside => ⟨l', mem_cons_of_mem _ among, inside⟩

theorem toNat_of_mem_decimal (member : c ∈ decimal n) : 48 ≤ c.toNat ∧ c.toNat ≤ 57 := by
  have digit := Decimal.isDigit_of_mem member
  simpa [Char.isDigit, UInt32.le_iff_toNat_le] using digit

theorem not_mem_decimal (mark : c.toNat < 48 ∨ 57 < c.toNat) : c ∉ decimal n := fun member => by
  have := toNat_of_mem_decimal member
  omega

variable {numbers : List ℕ}

theorem toNat_of_mem_commas (member : c ∈ commas numbers) : 44 ≤ c.toNat ∧ c.toNat ≤ 57 := by
  rcases mem_intercalate member with rfl | ⟨l, among, inside⟩
  · decide
  · obtain ⟨n, _, rfl⟩ := mem_map.mp among
    have := toNat_of_mem_decimal inside
    omega

theorem parse_decimal (fits : n ≤ m) : parse m (decimal n) = some n := Decimal.parse_toDigits fits

theorem splitOn_commas (some : numbers ≠ []) : (commas numbers).splitOn ',' = numbers.map decimal := by
  refine splitOn_intercalate ',' (fun l among => ?_) (by simpa using some)
  obtain ⟨n, _, rfl⟩ := mem_map.mp among
  exact not_mem_decimal (by decide)

theorem trim_eq_self {line : List Char} (plain : ∀ c ∈ line, isWhitespace c = false) : trim line = line := by
  have front : line.dropWhile isWhitespace = line := dropWhile_eq_self_iff.mpr fun _ => by simp [plain]
  rw [trim, front]
  exact rdropWhile_eq_self_iff.mpr fun _ => by simp [plain]

variable {fields : List (List Char)}

theorem nextUsize_eq_some :
    nextUsize fields = some (n, ls) ↔ ∃ field, fields = field :: ls ∧ parse usizeMax field = some n := by
  cases fields with
  | nil => simp [nextUsize]
  | cons field rest => simp [nextUsize, and_comm, and_assoc]

theorem nextMany_map {entries : List α} {write : α → List Char} (back : ∀ e ∈ entries, read (write e) = some e)
    (rest : List (List Char)) : nextMany read entries.length (entries.map write ++ rest) = some (entries, rest) := by
  induction entries with
  | nil => rfl
  | cons entry entries ih =>
    simp [nextMany, back entry mem_cons_self, ih fun e among => back e (mem_cons_of_mem _ among)]

/-- The loop succeeds on fields that can all be read. -/
theorem exists_nextMany : (∃ entries, nextMany read n fields = some (entries, ls)) ↔
    ∃ taken, fields = taken ++ ls ∧ taken.length = n ∧ ∀ field ∈ taken, (read field).isSome := by
  induction n generalizing fields with
  | zero => simp [nextMany, length_eq_zero_iff]
  | succ n ih =>
    cases fields with
    | nil => simp [nextMany]
    | cons field fields =>
      constructor
      · rintro ⟨entries, ran⟩
        obtain ⟨entry, found, ⟨others, rest⟩, more, same⟩ : ∃ entry, read field = some entry ∧
            ∃ tail, nextMany read n fields = some tail ∧ some (entry :: tail.1, tail.2) = some (entries, ls) := by
          simpa [nextMany, Option.bind_eq_some_iff] using ran
        cases same
        obtain ⟨taken, rfl, count, all⟩ := ih.mp ⟨others, more⟩
        exact ⟨field :: taken, rfl, by simp [count], forall_mem_cons.mpr ⟨by simp [found], all⟩⟩
      · rintro ⟨_ | ⟨first, taken⟩, same, count, all⟩
        · cases count
        · obtain ⟨rfl, rfl⟩ := List.cons.inj same
          obtain ⟨head, all⟩ := forall_mem_cons.mp all
          obtain ⟨entry, found⟩ := Option.isSome_iff_exists.mp head
          obtain ⟨entries, more⟩ := ih.mpr ⟨taken, rfl, by simpa using count, all⟩
          exact ⟨entry :: entries, by simp [nextMany, found, more]⟩

end Fields

/-- The numbers of the table are those of its types, and an allocator with the given limit can hold its lists. -/
structure Fits (limit : ℕ) (table : RelocationTable) : Prop where
  heapTop : table.heapTop ≤ usizeMax
  ranges : ∀ r ∈ table.ranges, r.start ≤ usizeMax ∧ r.stop ≤ usizeMax ∧ r.destBase ≤ usizeMax
  groups : ∀ g ∈ table.groupRelocations, g.sourceStart ≤ usizeMax ∧ g.sourceStop ≤ usizeMax ∧ g.destBase ≤ usizeMax
  lengths : table.ranges.length ≤ usizeMax ∧ table.groupRelocations.length ≤ usizeMax
  held : 24 * table.ranges.length ≤ limit ∧ 24 * table.groupRelocations.length ≤ limit

variable {limit : ℕ} {self : RelocationTable}

theorem readRange_rangeField (fits : self.Fits limit) : ∀ r ∈ self.ranges, readRange (rangeField r) = some r := by
  intro r member
  obtain ⟨start, stop, destBase⟩ := fits.ranges r member
  have byte : ∀ b : Bool, parse 255 (decimal b.toNat) = some b.toNat := fun b => parse_decimal (b.toNat_le.trans (by decide))
  have word : parse 4294967295 (decimal r.flags.toNat) = some r.flags.toNat := parse_decimal (Nat.le_of_lt_succ r.flags.isLt)
  simp [readRange, rangeField, splitOn_commas, parse_decimal, start, stop, destBase, byte, word]

theorem readGroup_groupField (fits : self.Fits limit) : ∀ g ∈ self.groupRelocations, readGroup (groupField g) = some g := by
  intro g member
  obtain ⟨start, stop, destBase⟩ := fits.groups g member
  simp [readGroup, groupField, splitOn_commas, parse_decimal, start, stop, destBase]

theorem parts_serialize (self : RelocationTable) : parts self.serializeForDiagnostic =
    decimal self.heapTop :: decimal self.ranges.length ::
      (self.ranges.map rangeField ++ decimal self.groupRelocations.length :: self.groupRelocations.map groupField) := by
  set fields := decimal self.heapTop :: decimal self.ranges.length ::
    (self.ranges.map rangeField ++ decimal self.groupRelocations.length :: self.groupRelocations.map groupField) with eq
  have joined : self.serializeForDiagnostic = [';'].intercalate fields := by
    simp [serializeForDiagnostic, eq, intercalate_cons, flatMap_map]
  have marks : ∀ l ∈ fields, ∀ c ∈ l, 44 ≤ c.toNat ∧ c.toNat ≤ 57 := by
    have number : ∀ n, ∀ c ∈ decimal n, 44 ≤ c.toNat ∧ c.toNat ≤ 57 := fun n c member =>
      ⟨by have := toNat_of_mem_decimal member; omega, (toNat_of_mem_decimal member).2⟩
    simp only [eq, forall_mem_cons, forall_mem_append, forall_mem_map]
    exact ⟨number _, number _, fun _ _ _ => toNat_of_mem_commas, number _, fun _ _ _ => toNat_of_mem_commas⟩
  rw [parts, trim_eq_self, joined]
  · refine splitOn_intercalate ';' (fun l among inside => ?_) (cons_ne_nil _ _)
    have := (marks l among _ inside).2
    contradiction
  · intro c member
    rcases mem_intercalate (joined ▸ member) with rfl | ⟨l, among, inside⟩
    · rfl
    · obtain ⟨low, high⟩ := marks l among c inside
      simp [isWhitespace]
      omega

@[simp] theorem orNone_some {α : Type} (value : α) (next : α → Outcome) : orNone (some value) next = next value := rfl

theorem withCapacity_result {size capacity : ℕ} (granted : size * capacity ≤ limit) (next : Outcome) :
    (withCapacity limit size capacity next).result = next.result := by
  rw [withCapacity, if_pos granted]

theorem deserialize_serialize (fits : self.Fits limit) :
    (deserializeForDiagnostic limit self.serializeForDiagnostic).result = .ok (some self) := by
  obtain ⟨ranges, groups⟩ := fits.held
  have number : ∀ n ≤ usizeMax, ∀ rest, nextUsize (decimal n :: rest) = some (n, rest) := fun n fits rest =>
    nextUsize_eq_some.mpr ⟨_, rfl, parse_decimal fits⟩
  have last := nextMany_map (readGroup_groupField fits) []
  rw [append_nil] at last
  simp (disch := omega) only [deserializeForDiagnostic, parts_serialize, number _ fits.heapTop, number _ fits.lengths.1, orNone_some,
    withCapacity_result, nextMany_map (readRange_rangeField fits), number _ fits.lengths.2, last, if_true]

/-! ## Lines from elsewhere -/

/-- No capacity above `most` is asked for, and there is no panic. -/
def Careful (most : ℕ) (outcome : Outcome) : Prop :=
  (∀ capacity ∈ outcome.requests, capacity ≤ most) ∧ ∃ value, outcome.result = .ok value

variable {most : ℕ} {next : Outcome}

theorem careful_orNone {α : Type} {option : Option α} {next : α → Outcome} :
    Careful most (orNone option next) ↔ ∀ value, option = some value → Careful most (next value) := by
  cases option <;> simp [orNone, Careful]

theorem careful_withCapacity {size capacity : ℕ} :
    Careful most (withCapacity limit size capacity next) ↔ (capacity ≤ most ∧ size * capacity ≤ limit) ∧ Careful most next := by
  by_cases granted : size * capacity ≤ limit <;> simp [withCapacity, Careful, granted, and_assoc]

/-- The count of the ranges is at most `most` and its vector can be allocated, and so is the count of the groups
where the line has that many ranges before it. -/
def Modest (limit most : ℕ) (fields : List (List Char)) : Prop :=
  ∀ heapTop rangeCount rest n, fields = heapTop :: rangeCount :: rest → (parse usizeMax heapTop).isSome →
    parse usizeMax rangeCount = some n → (n ≤ most ∧ 24 * n ≤ limit) ∧
      ∀ ranges groupCount rest' m, rest = ranges ++ groupCount :: rest' → ranges.length = n →
        (∀ field ∈ ranges, (readRange field).isSome) → parse usizeMax groupCount = some m → m ≤ most ∧ 24 * m ≤ limit

/-- What was written is read back, and a line from elsewhere is read with care if its counts are no larger than it has fields. -/
theorem deserialize_careful_iff (self : RelocationTable) (fits : self.Fits limit) :
    (deserializeForDiagnostic limit self.serializeForDiagnostic).result = .ok (some self) ∧
      ∀ line, Careful (parts line).length (deserializeForDiagnostic limit line) ↔ Modest limit (parts line).length (parts line) := by
  refine ⟨deserialize_serialize fits, fun line => ?_⟩
  simp only [deserializeForDiagnostic, careful_orNone, careful_withCapacity]
  constructor
  · intro careful heapTop rangeCount rest n eq isNumber counted
    obtain ⟨top, isTop⟩ := Option.isSome_iff_exists.mp isNumber
    have granted := careful (top, _) (nextUsize_eq_some.mpr ⟨heapTop, eq, isTop⟩) (n, rest) (nextUsize_eq_some.mpr ⟨_, rfl, counted⟩)
    refine ⟨granted.1, fun ranges groupCount rest' m split length all counted => ?_⟩
    obtain ⟨entries, ran⟩ := exists_nextMany.mpr ⟨ranges, split, length, all⟩
    exact (granted.2.2.2.2.2 (entries, groupCount :: rest') ran (m, rest') (nextUsize_eq_some.mpr ⟨_, rfl, counted⟩)).1
  · rintro modest ⟨top, _⟩ first ⟨n, rest⟩ second
    obtain ⟨heapTop, eq, isTop⟩ := nextUsize_eq_some.mp first
    obtain ⟨rangeCount, rfl, counted⟩ := nextUsize_eq_some.mp second
    obtain ⟨⟨few, held⟩, groups⟩ := modest heapTop rangeCount rest n eq (Option.isSome_of_eq_some isTop) counted
    have smaller : ∀ size ≤ 24, n ≤ (parts line).length ∧ size * n ≤ limit := fun size le => ⟨few, (Nat.mul_le_mul_right n le).trans held⟩
    refine ⟨smaller 24 le_rfl, smaller 1 (by decide), smaller 1 (by decide), smaller 1 (by decide), smaller 4 (by decide), ?_⟩
    rintro ⟨entries, left⟩ ran ⟨m, left'⟩ third
    obtain ⟨groupCount, rfl, counted⟩ := nextUsize_eq_some.mp third
    obtain ⟨taken, split, length, all⟩ := exists_nextMany.mp ⟨_, ran⟩
    exact ⟨groups taken groupCount left' m split length all counted, fun _ _ => ⟨nofun, _, rfl⟩⟩

def oneRange : RelocationTable := ⟨[AddressRelocations.moved 0x1000 0x2000 0x6000], 0x2000, [⟨0x1000, 0x2000, 0x6000⟩]⟩

theorem deserialize_careful_iff_oneRange :
    oneRange.Fits (2 ^ 63 - 1) ∧ (deserializeForDiagnostic (2 ^ 63 - 1) oneRange.serializeForDiagnostic).result = .ok (some oneRange) := by
  have fits : oneRange.Fits (2 ^ 63 - 1) := ⟨by decide, by decide, by decide, by decide, by decide⟩
  exact ⟨fits, (deserialize_careful_iff oneRange fits).1⟩

/-- A line of two fields that announces as many ranges as an address can count. -/
theorem hostile_count_panics :
    (parts (decimal 0 ++ ';' :: decimal usizeMax)).length = 2 ∧
      (deserializeForDiagnostic (2 ^ 63 - 1) (decimal 0 ++ ';' :: decimal usizeMax)).requests = [usizeMax] ∧
      (deserializeForDiagnostic (2 ^ 63 - 1) (decimal 0 ++ ';' :: decimal usizeMax)).result = .error "capacity overflow" := by
  refine ⟨by decide +kernel, by decide +kernel, rfl⟩

end RelocationTable

end LiteBox.Mm
