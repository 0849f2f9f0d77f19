import Mathlib.Tactic

/-! # Maps over ranges of addresses

A range map gives a value to every address of finitely many disjoint ranges. Removing a range cuts the
entries that reach into it. Inserting a range replaces what was there, and joins the new entry with the
touching entries whose values count as the same; `same` need be neither reflexive nor an equality.
-/

/-- A non-empty half-open range. -/
structure Span where
  start : ℕ
  stop : ℕ
  nonempty : start < stop
deriving DecidableEq

attribute [ext] Span

namespace Span

instance : Membership ℕ Span := ⟨fun span a => span.start ≤ a ∧ a < span.stop⟩

variable {r s : Span} {a : ℕ}

theorem mem_iff : a ∈ r ↔ r.start ≤ a ∧ a < r.stop := Iff.rfl

instance (a : ℕ) (r : Span) : Decidable (a ∈ r) := inferInstanceAs (Decidable (_ ∧ _))

theorem start_mem (r : Span) : r.start ∈ r := ⟨le_rfl, r.nonempty⟩

def length (r : Span) : ℕ := r.stop - r.start

theorem length_pos (r : Span) : 0 < r.length := Nat.sub_pos_of_lt r.nonempty

theorem start_add_length (r : Span) : r.start + r.length = r.stop := Nat.add_sub_cancel' r.nonempty.le

/-- The range between two bounds, if there is one. -/
def make? (start stop : ℕ) : Option Span := if nonempty : start < stop then some ⟨start, stop, nonempty⟩ else none

theorem make?_eq_some {start stop : ℕ} : make? start stop = some r ↔ r.start = start ∧ r.stop = stop := by
  constructor
  · intro made
    simp only [make?] at made
    split at made
    · cases made
      exact ⟨rfl, rfl⟩
    · cases made
  · rintro ⟨rfl, rfl⟩
    exact dif_pos r.nonempty

theorem make?_eq_none {start stop : ℕ} : make? start stop = none ↔ stop ≤ start := by
  simp [make?]

/-- The range of a length that starts at `start`. -/
def ofLength (start length : ℕ) (positive : 0 < length) : Span := ⟨start, start + length, by omega⟩

/-- The same range somewhere else. -/
def at_ (r : Span) (start : ℕ) : Span := ofLength start r.length r.length_pos

@[simp] theorem start_at (r : Span) (start : ℕ) : (r.at_ start).start = start := rfl

@[simp] theorem stop_at (r : Span) (start : ℕ) : (r.at_ start).stop = start + r.length := rfl

@[simp] theorem length_at (r : Span) (start : ℕ) : (r.at_ start).length = r.length := by
  simp [length, at_, ofLength]

theorem at_start (r : Span) : r.at_ r.start = r := by
  have stop := r.start_add_length
  rcases r with ⟨start, stop', nonempty⟩
  simpa [at_, ofLength] using stop

def Overlaps (r s : Span) : Prop := r.start < s.stop ∧ s.start < r.stop

instance (r s : Span) : Decidable (r.Overlaps s) := inferInstanceAs (Decidable (_ ∧ _))

theorem overlaps_iff : r.Overlaps s ↔ ∃ a, a ∈ r ∧ a ∈ s := by
  constructor
  · rintro ⟨left, right⟩
    have first := r.nonempty
    have second := s.nonempty
    exact ⟨max r.start s.start, ⟨by omega, by omega⟩, by omega, by omega⟩
  · rintro ⟨a, ⟨_, _⟩, _, _⟩
    exact ⟨by omega, by omega⟩

/-- `r` and `s` overlap or are next to each other. -/
def Touches (r s : Span) : Prop := r.start ≤ s.stop ∧ s.start ≤ r.stop

instance (r s : Span) : Decidable (r.Touches s) := inferInstanceAs (Decidable (_ ∧ _))

/-- `r` contains all of `s`. -/
def Covers (r s : Span) : Prop := r.start ≤ s.start ∧ s.stop ≤ r.stop

instance (r s : Span) : Decidable (r.Covers s) := inferInstanceAs (Decidable (_ ∧ _))

theorem Covers.mem (covers : r.Covers s) (member : a ∈ s) : a ∈ r := by
  obtain ⟨left, right⟩ := covers
  obtain ⟨low, high⟩ := member
  exact ⟨by omega, by omega⟩

theorem covers_of_mem (members : ∀ a ∈ s, a ∈ r) : r.Covers s := by
  have nonempty := s.nonempty
  obtain ⟨low, _⟩ := members s.start s.start_mem
  obtain ⟨_, high⟩ := members (s.stop - 1) ⟨by omega, by omega⟩
  exact ⟨low, by omega⟩

/-- What the two ranges have in common. -/
def inter? (r s : Span) : Option Span := make? (max r.start s.start) (min r.stop s.stop)

theorem mem_inter {t : Span} (inner : r.inter? s = some t) : a ∈ t ↔ a ∈ r ∧ a ∈ s := by
  obtain ⟨start, stop⟩ := make?_eq_some.mp inner
  simp only [mem_iff, start, stop]
  omega

/-- The smallest range that contains both. -/
def hull (r s : Span) : Span := ⟨min r.start s.start, max r.stop s.stop, by have := r.nonempty; omega⟩

end Span

/-- Disjoint ranges in ascending order, with their values. -/
structure RangeMap (V : Type*) where
  entries : List (Span × V)
  ordered : entries.Pairwise fun first second => first.1.stop ≤ second.1.start

namespace RangeMap

variable {V : Type*} {m : RangeMap V} {a : ℕ} {r : Span} {v : V}

def empty : RangeMap V := ⟨[], .nil⟩

/-- The entry that contains an address. -/
def getKeyValue (m : RangeMap V) (a : ℕ) : Option (Span × V) := m.entries.find? fun entry => decide (a ∈ entry.1)

def get (m : RangeMap V) (a : ℕ) : Option V := (m.getKeyValue a).map Prod.snd

/-- The entries that reach into `start..stop`. -/
def overlapping (m : RangeMap V) (start stop : ℕ) : List (Span × V) :=
  m.entries.filter fun entry => decide (entry.1.start < stop ∧ start < entry.1.stop)

def overlaps (m : RangeMap V) (start stop : ℕ) : Bool := !(m.overlapping start stop).isEmpty

def lastRangeValue (m : RangeMap V) : Option (Span × V) := m.entries.getLast?

/-- Some address of the range has no value: the first one, or the first one behind an entry. -/
def hasGap (m : RangeMap V) (r : Span) : Bool :=
  (r.start :: m.entries.map fun entry => entry.1.stop).any fun a => decide (a ∈ r) && (m.get a).isNone

/-- The part of an entry that lies below `bound`. -/
def below (bound : ℕ) (entry : Span × V) : Option (Span × V) :=
  (Span.make? entry.1.start (min entry.1.stop bound)).map (·, entry.2)

/-- The part of an entry that lies from `bound` on. -/
def above (bound : ℕ) (entry : Span × V) : Option (Span × V) :=
  (Span.make? (max entry.1.start bound) entry.1.stop).map (·, entry.2)

variable {bound start stop : ℕ} {entry piece : Span × V}

theorem cut_eq_some {value : V} : (Span.make? start stop).map (·, value) = some piece ↔
    piece.1.start = start ∧ piece.1.stop = stop ∧ piece.2 = value := by
  constructor
  · intro cut
    obtain ⟨part, made, rfl⟩ := Option.map_eq_some_iff.mp cut
    obtain ⟨start, stop⟩ := Span.make?_eq_some.mp made
    exact ⟨start, stop, rfl⟩
  · rintro ⟨start, stop, value⟩
    exact Option.map_eq_some_iff.mpr ⟨piece.1, Span.make?_eq_some.mpr ⟨start, stop⟩, by rw [← value]⟩

theorem below_eq_some : below bound entry = some piece ↔
    piece.1.start = entry.1.start ∧ piece.1.stop = min entry.1.stop bound ∧ piece.2 = entry.2 := cut_eq_some

theorem above_eq_some : above bound entry = some piece ↔
    piece.1.start = max entry.1.start bound ∧ piece.1.stop = entry.1.stop ∧ piece.2 = entry.2 := cut_eq_some

theorem ordered_below (m : RangeMap V) (bound : ℕ) :
    (m.entries.filterMap (below bound)).Pairwise fun first second => first.1.stop ≤ second.1.start := by
  refine m.ordered.filterMap _ ?_
  intro first second before piece cut other cut'
  obtain ⟨-, stop, -⟩ := below_eq_some.mp cut
  obtain ⟨start, -, -⟩ := below_eq_some.mp cut'
  omega

theorem ordered_above (m : RangeMap V) (bound : ℕ) :
    (m.entries.filterMap (above bound)).Pairwise fun first second => first.1.stop ≤ second.1.start := by
  refine m.ordered.filterMap _ ?_
  intro first second before piece cut other cut'
  obtain ⟨-, stop, -⟩ := above_eq_some.mp cut
  obtain ⟨start, -, -⟩ := above_eq_some.mp cut'
  omega

theorem stop_le_of_mem_below (member : piece ∈ m.entries.filterMap (below bound)) : piece.1.stop ≤ bound := by
  obtain ⟨entry, -, cut⟩ := List.mem_filterMap.mp member
  obtain ⟨-, stop, -⟩ := below_eq_some.mp cut
  omega

theorem le_start_of_mem_above (member : piece ∈ m.entries.filterMap (above bound)) : bound ≤ piece.1.start := by
  obtain ⟨entry, -, cut⟩ := List.mem_filterMap.mp member
  obtain ⟨start, -, -⟩ := above_eq_some.mp cut
  omega

def remove (m : RangeMap V) (r : Span) : RangeMap V where
  entries := m.entries.filterMap (below r.start) ++ m.entries.filterMap (above r.stop)
  ordered := by
    refine List.pairwise_append.mpr ⟨m.ordered_below _, m.ordered_above _, ?_⟩
    intro first left second right
    have low := stop_le_of_mem_below left
    have high := le_start_of_mem_above right
    have nonempty := r.nonempty
    omega

/-- The range of a new entry, joined with the entries it merges with. -/
def joined (same : V → V → Bool) (m : RangeMap V) (r : Span) (v : V) : Span :=
  (m.entries.filter fun entry => decide (entry.1.Touches r) && same entry.2 v).foldl (fun whole entry => whole.hull entry.1) r

def insert (same : V → V → Bool) (m : RangeMap V) (r : Span) (v : V) : RangeMap V where
  entries := m.entries.filterMap (below (m.joined same r v).start) ++
    (m.joined same r v, v) :: m.entries.filterMap (above (m.joined same r v).stop)
  ordered := by
    have nonempty := (m.joined same r v).nonempty
    refine List.pairwise_append.mpr ⟨m.ordered_below _, List.pairwise_cons.mpr ⟨?_, m.ordered_above _⟩, ?_⟩
    · intro second right
      exact le_start_of_mem_above right
    · intro first left second right
      have low := stop_le_of_mem_below left
      obtain rfl | right := List.mem_cons.mp right
      · exact low
      · have high := le_start_of_mem_above right
        omega

/-! ## Entries and addresses -/

theorem disjoint {first second : Span × V} (member : first ∈ m.entries) (other : second ∈ m.entries)
    (inFirst : a ∈ first.1) (inSecond : a ∈ second.1) : first = second := by
  obtain ⟨low, high⟩ := inFirst
  obtain ⟨low', high'⟩ := inSecond
  obtain ⟨i, inside, rfl⟩ := List.getElem_of_mem member
  obtain ⟨j, inside', rfl⟩ := List.getElem_of_mem other
  have ordered := List.pairwise_iff_getElem.mp m.ordered
  obtain before | rfl | after := lt_trichotomy i j
  · have apart := ordered i j inside inside' before
    omega
  · rfl
  · have apart := ordered j i inside' inside after
    omega

theorem getKeyValue_eq_some : m.getKeyValue a = some entry ↔ entry ∈ m.entries ∧ a ∈ entry.1 := by
  constructor
  · intro found
    exact ⟨List.mem_of_find?_eq_some found, by simpa using List.find?_some found⟩
  · rintro ⟨member, inside⟩
    obtain ⟨found, some⟩ : ∃ found, m.getKeyValue a = some found := by
      rw [← Option.isSome_iff_exists]
      exact List.find?_isSome.mpr ⟨entry, member, by simpa using inside⟩
    rw [some, disjoint (List.mem_of_find?_eq_some some) member (by simpa using List.find?_some some) inside]

theorem get_eq_some : m.get a = some v ↔ ∃ r, (r, v) ∈ m.entries ∧ a ∈ r := by
  simp only [get, Option.map_eq_some_iff, getKeyValue_eq_some]
  constructor
  · rintro ⟨⟨r, v⟩, ⟨member, inside⟩, rfl⟩
    exact ⟨r, member, inside⟩
  · rintro ⟨r, member, inside⟩
    exact ⟨(r, v), ⟨member, inside⟩, rfl⟩

theorem get_eq_none : m.get a = none ↔ ∀ entry ∈ m.entries, a ∉ entry.1 := by
  simp [get, getKeyValue]

theorem get_of_mem (member : entry ∈ m.entries) (inside : a ∈ entry.1) : m.get a = some entry.2 :=
  get_eq_some.mpr ⟨entry.1, member, inside⟩

theorem mem_overlapping : entry ∈ m.overlapping start stop ↔ entry ∈ m.entries ∧ entry.1.start < stop ∧ start < entry.1.stop := by
  simp [overlapping]

theorem overlaps_eq_false_iff :
    m.overlaps start stop = false ↔ ∀ entry ∈ m.entries, entry.1.stop ≤ start ∨ stop ≤ entry.1.start := by
  simp only [overlaps, overlapping, Bool.not_eq_false', List.isEmpty_iff, List.filter_eq_nil_iff, decide_eq_true_eq,
    not_and_or, not_lt]
  exact forall₂_congr fun _ _ => or_comm

theorem overlaps_eq_false (free : m.overlaps start stop = false) : ∀ a, start ≤ a → a < stop → m.get a = none := by
  intro a low high
  refine get_eq_none.mpr fun entry member inside => ?_
  have empty : m.overlapping start stop = [] := by simpa [overlaps] using free
  have found : entry ∈ m.overlapping start stop :=
    mem_overlapping.mpr ⟨member, lt_of_le_of_lt inside.1 high, lt_of_le_of_lt low inside.2⟩
  rw [empty] at found
  cases found

/-! ## Removing and inserting -/

theorem exists_below (inside : a ∈ entry.1) (low : a < bound) :
    ∃ piece, below bound entry = some piece ∧ a ∈ piece.1 ∧ piece.2 = entry.2 := by
  obtain ⟨start, stop⟩ := inside
  refine ⟨(⟨entry.1.start, min entry.1.stop bound, by omega⟩, entry.2), below_eq_some.mpr ⟨rfl, rfl, rfl⟩, ⟨start, ?_⟩, rfl⟩
  show a < min entry.1.stop bound
  omega

theorem exists_above (inside : a ∈ entry.1) (high : bound ≤ a) :
    ∃ piece, above bound entry = some piece ∧ a ∈ piece.1 ∧ piece.2 = entry.2 := by
  obtain ⟨start, stop⟩ := inside
  refine ⟨(⟨max entry.1.start bound, entry.1.stop, by omega⟩, entry.2), above_eq_some.mpr ⟨rfl, rfl, rfl⟩, ⟨?_, stop⟩, rfl⟩
  show max entry.1.start bound ≤ a
  omega

/-- Behind the cut, an address has the value it had, and in the cut it has none. -/
theorem get_cut (bound limit : ℕ) (v : V) : (∃ piece : Span × V,
    (piece ∈ m.entries.filterMap (below bound) ∨ piece ∈ m.entries.filterMap (above limit)) ∧ a ∈ piece.1 ∧ piece.2 = v) ↔
      (a < bound ∨ limit ≤ a) ∧ m.get a = some v := by
  simp only [List.mem_filterMap, get_eq_some]
  constructor
  · rintro ⟨piece, ⟨entry, member, cut⟩ | ⟨entry, member, cut⟩, ⟨low, high⟩, rfl⟩
    · obtain ⟨start, stop, value⟩ := below_eq_some.mp cut
      exact ⟨.inl (by omega), entry.1, by rw [value]; exact member, by omega, by omega⟩
    · obtain ⟨start, stop, value⟩ := above_eq_some.mp cut
      exact ⟨.inr (by omega), entry.1, by rw [value]; exact member, by omega, by omega⟩
  · rintro ⟨low | high, r, member, inside⟩
    · obtain ⟨piece, cut, inPiece, value⟩ := exists_below (show a ∈ (r, v).1 from inside) low
      exact ⟨piece, .inl ⟨_, member, cut⟩, inPiece, value⟩
    · obtain ⟨piece, cut, inPiece, value⟩ := exists_above (show a ∈ (r, v).1 from inside) high
      exact ⟨piece, .inr ⟨_, member, cut⟩, inPiece, value⟩

theorem get_remove (m : RangeMap V) (r : Span) (a : ℕ) : (m.remove r).get a = if a ∈ r then none else m.get a := by
  have some : ∀ v, (m.remove r).get a = some v ↔ (a < r.start ∨ r.stop ≤ a) ∧ m.get a = some v := by
    intro v
    rw [← get_cut, get_eq_some]
    simp only [remove, List.mem_append]
    constructor
    · rintro ⟨s, member, inside⟩
      exact ⟨(s, v), member, inside, rfl⟩
    · rintro ⟨piece, member, inside, rfl⟩
      exact ⟨piece.1, member, inside⟩
  ext v
  rw [some]
  split
  · next inside =>
    obtain ⟨low, high⟩ := inside
    constructor
    · rintro ⟨out, -⟩
      omega
    · exact nofun
  · next outside =>
    rw [Span.mem_iff] at outside
    exact ⟨fun found => found.2, fun found => ⟨by omega, found⟩⟩

section Insert

variable {same : V → V → Bool}

theorem get_insert (same : V → V → Bool) (m : RangeMap V) (r : Span) (v : V) (a : ℕ) :
    (m.insert same r v).get a = if a ∈ m.joined same r v then some v else m.get a := by
  split
  · next inside =>
    exact get_eq_some.mpr ⟨m.joined same r v, List.mem_append_right _ List.mem_cons_self, inside⟩
  · next outside =>
    rw [Span.mem_iff] at outside
    ext w
    have cut := get_cut (m := m) (a := a) (m.joined same r v).start (m.joined same r v).stop w
    rw [get_eq_some]
    constructor
    · rintro ⟨s, member, inside⟩
      obtain left | right := List.mem_append.mp member
      · exact (cut.mp ⟨(s, w), .inl left, inside, rfl⟩).2
      · obtain own | right := List.mem_cons.mp right
        · cases own
          exact absurd inside (by rw [Span.mem_iff]; exact outside)
        · exact (cut.mp ⟨(s, w), .inr right, inside, rfl⟩).2
    · intro found
      obtain ⟨piece, left | right, inside, rfl⟩ := cut.mpr ⟨by omega, found⟩
      · exact ⟨piece.1, List.mem_append_left _ left, inside⟩
      · exact ⟨piece.1, List.mem_append_right _ (List.mem_cons_of_mem _ right), inside⟩

/-- An address that a new entry takes over by joining had a value that counts as the same. -/
theorem mem_joined : a ∈ m.joined same r v → a ∈ r ∨ ∃ u, m.get a = some u ∧ same u v = true := by
  have grows : ∀ (adopted : List (Span × V)) (whole : Span),
      (∀ entry ∈ adopted, entry ∈ m.entries ∧ entry.1.Touches r ∧ same entry.2 v = true) →
      whole.Covers r → (∀ a ∈ whole, a ∈ r ∨ ∃ u, m.get a = some u ∧ same u v = true) →
      ∀ a ∈ adopted.foldl (fun whole entry => whole.hull entry.1) whole, a ∈ r ∨ ∃ u, m.get a = some u ∧ same u v = true := by
    intro adopted
    induction adopted with
    | nil => exact fun _ _ _ known => known
    | cons entry rest ih =>
      intro whole each covers known
      obtain ⟨member, ⟨left, right⟩, alike⟩ := each entry List.mem_cons_self
      obtain ⟨low, high⟩ := covers
      refine ih _ (fun other later => each other (List.mem_cons_of_mem _ later)) ⟨?_, ?_⟩ ?_
      · show min whole.start entry.1.start ≤ r.start
        omega
      · show r.stop ≤ max whole.stop entry.1.stop
        omega
      · intro a inside
        change min whole.start entry.1.start ≤ a ∧ a < max whole.stop entry.1.stop at inside
        by_cases inWhole : a ∈ whole
        · exact known a inWhole
        · rw [Span.mem_iff] at inWhole
          have inEntry : a ∈ entry.1 := ⟨by omega, by omega⟩
          exact .inr ⟨entry.2, get_of_mem member inEntry, alike⟩
  refine grows _ r ?_ ⟨le_rfl, le_rfl⟩ (fun a inside => .inl inside) a
  intro entry member
  simpa [and_assoc] using member

theorem mem_joined_of_mem (inside : a ∈ r) : a ∈ m.joined same r v := by
  have grows : ∀ (adopted : List (Span × V)) (whole : Span), a ∈ whole →
      a ∈ adopted.foldl (fun whole entry => whole.hull entry.1) whole := by
    intro adopted
    induction adopted with
    | nil => exact fun _ inside => inside
    | cons entry rest ih =>
      intro whole ⟨low, high⟩
      exact ih _ ⟨le_trans (min_le_left _ _) low, lt_of_lt_of_le high (le_max_left _ _)⟩
  exact grows _ r inside

theorem get_insert_self (inside : a ∈ r) : (m.insert same r v).get a = some v := by
  rw [get_insert, if_pos (mem_joined_of_mem inside)]

/-- What values that count as the same agree on is changed in the new range only. -/
theorem map_get_insert {W : Type*} (view : V → W) (agree : ∀ u, same u v = true → view u = view v) :
    ((m.insert same r v).get a).map view = if a ∈ r then some (view v) else (m.get a).map view := by
  split
  · next inside => rw [get_insert_self inside, Option.map_some]
  · next outside =>
    rw [get_insert]
    split
    · next joined =>
      obtain inside | ⟨u, had, alike⟩ := mem_joined joined
      · exact absurd inside outside
      · rw [had, Option.map_some, Option.map_some, agree u alike]
    · rfl

/-- A value that is the same as none joins with nothing. -/
theorem joined_of_fresh (fresh : ∀ u, same u v = false) : m.joined same r v = r := by
  simp [joined, fresh]

theorem get_insert_of_fresh (fresh : ∀ u, same u v = false) : (m.insert same r v).get a = if a ∈ r then some v else m.get a := by
  rw [get_insert, joined_of_fresh fresh]

theorem mem_insert_of_fresh (fresh : ∀ u, same u v = false) : (r, v) ∈ (m.insert same r v).entries := by
  simp [insert, joined_of_fresh fresh]

end Insert

/-- The entries that overlap an entry are that entry. -/
theorem overlapping_of_mem (member : entry ∈ m.entries) : m.overlapping entry.1.start entry.1.stop = [entry] := by
  have only : ∀ other ∈ m.overlapping entry.1.start entry.1.stop, other = entry := by
    intro other overlapping
    obtain ⟨known, left, right⟩ := mem_overlapping.mp overlapping
    obtain ⟨a, inOther, inEntry⟩ := Span.overlaps_iff.mp (show other.1.Overlaps entry.1 from ⟨left, right⟩)
    exact disjoint known member inOther inEntry
  have here : entry ∈ m.overlapping entry.1.start entry.1.stop :=
    mem_overlapping.mpr ⟨member, entry.1.nonempty, entry.1.nonempty⟩
  have nodup : (m.overlapping entry.1.start entry.1.stop).Nodup := by
    refine (m.ordered.imp fun {first second} apart => ?_).filter _
    rintro rfl
    exact absurd apart (not_le.mpr first.1.nonempty)
  generalize m.overlapping entry.1.start entry.1.stop = found at only here nodup
  match found with
  | [] => cases here
  | [first] => rw [only first List.mem_cons_self]
  | first :: second :: rest =>
    have same : first = second := (only first List.mem_cons_self).trans (only second (List.mem_cons_of_mem _ List.mem_cons_self)).symm
    simp [same] at nodup

end RangeMap
