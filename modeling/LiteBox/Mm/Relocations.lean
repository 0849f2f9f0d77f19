import LiteBox.Mm.Basic

/-! # Address relocations over several forks

A fork moves ranges of addresses. The map of a child is extended by the map of its parent, whose ranges lead
to where the parent had its memory, and from there through the child's own map.
-/

namespace LiteBox.Mm

open List

/-- A range with its entries in the lists that run along with the ranges. -/
structure Relocation where
  (start stop destBase : ℕ)
  (executable privateData isFileBacked : Bool)
  flags : VmFlags

def Relocation.Contains (r : Relocation) (a : ℕ) : Prop := r.start ≤ a ∧ a < r.stop

instance (r : Relocation) (a : ℕ) : Decidable (r.Contains a) := inferInstanceAs (Decidable (_ ∧ _))

/-- The ranges of an `AddressRelocations` that a fork has moved. -/
abbrev AddressRelocations := List Relocation

namespace AddressRelocations

variable {self ancestor earlier : AddressRelocations} {r s : Relocation} {a : ℕ}

def translate (self : AddressRelocations) (addr : ℕ) : Option ℕ :=
  (self.find? fun r => decide (r.Contains addr)).map fun r => r.destBase + (addr - r.start)

/-- The range led on from its base. -/
def carry (self : AddressRelocations) (r : Relocation) : Relocation :=
  { r with destBase := (self.translate r.destBase).getD r.destBase }

/-- Each range of the ancestor is led on by the map as extended so far. -/
def mergeAncestorRanges (self ancestor : AddressRelocations) : AddressRelocations :=
  ancestor.foldl (fun merged r => merged ++ [merged.carry r]) self

/-- No address is in two source ranges. -/
def Apart (self : AddressRelocations) : Prop := self.Pairwise fun r s => ∀ a, r.Contains a → ¬s.Contains a

theorem translate_eq_none : self.translate a = none ↔ ∀ r ∈ self, ¬r.Contains a := by
  simp [translate]

theorem translate_append (self other : AddressRelocations) :
    translate (self ++ other) a = (self.translate a).or (translate other a) := by
  simp only [translate, find?_append]
  cases self.find? fun r => decide (r.Contains a) <;> rfl

theorem translate_of_mem (apart : self.Apart) (member : r ∈ self) (inside : r.Contains a) :
    self.translate a = some (r.destBase + (a - r.start)) := by
  obtain ⟨before, after, rfl⟩ := append_of_mem member
  have absent : translate before a = none := translate_eq_none.mpr fun s early within =>
    (pairwise_append.mp apart).2.2 s early r mem_cons_self a within inside
  rw [translate_append, absent, translate, find?_cons_of_pos (by simpa using inside)]
  rfl

theorem merge_append (self earlier later : AddressRelocations) :
    self.mergeAncestorRanges (earlier ++ later) = (self.mergeAncestorRanges earlier).mergeAncestorRanges later :=
  foldl_append ..

/-- What the map translated it translates as before. -/
theorem translate_merge (self ancestor : AddressRelocations) (known : self.translate a ≠ none) :
    (self.mergeAncestorRanges ancestor).translate a = self.translate a := by
  induction ancestor generalizing self with
  | nil => rfl
  | cons r rest ih =>
    obtain ⟨x, found⟩ := Option.ne_none_iff_exists'.mp known
    have kept : translate (self ++ [self.carry r]) a = some x := by
      rw [translate_append, found]
      rfl
    exact (ih _ (by simp [kept])).trans (kept.trans found.symm)

theorem translate_merge_eq_none (self ancestor : AddressRelocations) :
    (self.mergeAncestorRanges ancestor).translate a = none ↔ self.translate a = none ∧ ∀ r ∈ ancestor, ¬r.Contains a := by
  induction ancestor generalizing self with
  | nil => simp [mergeAncestorRanges]
  | cons r rest ih =>
    refine (ih _).trans ?_
    simp only [translate_eq_none, mem_append, mem_singleton, forall_mem_cons, or_imp, forall_and, forall_eq]
    exact and_assoc

/-- Down a line of forks, the last map translates what any process of the line has moved. -/
theorem translate_line_eq_none (first : AddressRelocations) (forks : List AddressRelocations) :
    (forks.foldl (fun ancestor own => own.mergeAncestorRanges ancestor) first).translate a = none ↔
      ∀ own ∈ first :: forks, own.translate a = none := by
  induction forks generalizing first with
  | nil => simp
  | cons own rest ih =>
    rw [foldl_cons, ih, forall_mem_cons, translate_merge_eq_none, ← translate_eq_none, forall_mem_cons, forall_mem_cons]
    exact and_assoc.trans and_left_comm

/-- The image of the range lies in one range of the map or in none; its base, if in none, is in no earlier range either. -/
def Carried (self earlier : AddressRelocations) (r : Relocation) : Prop :=
  (∃ s ∈ self, s.start ≤ r.destBase ∧ r.destBase + (r.stop - r.start) ≤ s.stop) ∨
    (∀ s ∈ self, r.destBase + (r.stop - r.start) ≤ s.start ∨ s.stop ≤ r.destBase) ∧ ∀ s ∈ earlier, ¬s.Contains r.destBase

/-- The base is led on as every address of the range would be. -/
theorem Carried.translate (carried : Carried self earlier r) (apart : self.Apart) (inside : r.Contains a) :
    ((self.mergeAncestorRanges earlier).translate r.destBase).getD r.destBase + (a - r.start) =
      (self.translate (r.destBase + (a - r.start))).getD (r.destBase + (a - r.start)) := by
  obtain ⟨low, high⟩ := inside
  rcases carried with ⟨s, member, first, last⟩ | ⟨outside, fresh⟩
  · have base := translate_of_mem apart member (a := r.destBase) ⟨first, by omega⟩
    have image := translate_of_mem apart member (a := r.destBase + (a - r.start)) ⟨by omega, by omega⟩
    rw [translate_merge _ _ (by simp [base]), base, image]
    simp only [Option.getD_some]
    omega
  · have unmoved : ∀ offset < r.stop - r.start, self.translate (r.destBase + offset) = none := fun offset within =>
      translate_eq_none.mpr fun s member inside => by
        rcases outside s member with below | above <;> obtain ⟨_, _⟩ := inside <;> omega
    have base : (self.mergeAncestorRanges earlier).translate r.destBase = none :=
      (translate_merge_eq_none self earlier).mpr ⟨unmoved 0 (by omega), fresh⟩
    rw [base, unmoved _ (by omega)]
    rfl

/-- The merged map leads an address of the ancestor through the ancestor's map and then through the child's. -/
theorem merge_composes (self ancestor : AddressRelocations) (apart : self.Apart) (ancestorApart : ancestor.Apart)
    (carried : ∀ earlier r later, ancestor = earlier ++ r :: later → Carried self earlier r) :
    (∀ a d, ancestor.translate a = some d → self.translate a = none →
      (self.mergeAncestorRanges ancestor).translate a = some ((self.translate d).getD d)) ∧
      ∀ a, self.translate a ≠ none → (self.mergeAncestorRanges ancestor).translate a = self.translate a := by
  refine ⟨fun a d found outside => ?_, fun a => translate_merge self ancestor⟩
  obtain ⟨r, isFirst, rfl⟩ := Option.map_eq_some_iff.mp found
  have inside : r.Contains a := by simpa using find?_some isFirst
  obtain ⟨earlier, later, rfl⟩ := append_of_mem (mem_of_find?_eq_some isFirst)
  have absent : (self.mergeAncestorRanges earlier).translate a = none :=
    (translate_merge_eq_none self earlier).mpr ⟨outside, fun s early within =>
      (pairwise_append.mp ancestorApart).2.2 s early r mem_cons_self a within inside⟩
  have within : ((self.mergeAncestorRanges earlier).carry r).Contains a := inside
  have led : translate (self.mergeAncestorRanges earlier ++ [(self.mergeAncestorRanges earlier).carry r]) a =
      some ((self.translate (r.destBase + (a - r.start))).getD (r.destBase + (a - r.start))) := by
    rw [← (carried earlier r later rfl).translate apart inside, translate_append, absent, translate,
      find?_cons_of_pos (by simpa using within)]
    rfl
  rw [merge_append]
  exact (translate_merge _ later (by simp [led])).trans led

def moved (start stop destBase : ℕ) : Relocation := ⟨start, stop, destBase, false, true, false, 0x73⟩

theorem merge_composes_twice :
    (mergeAncestorRanges [moved 0x5000 0x7000 0x9000] [moved 0x1000 0x2000 0x6000]).translate 0x1800 = some 0xa800 := by
  refine (merge_composes _ _ (pairwise_singleton _ _) (pairwise_singleton _ _) ?_).1 0x1800 0x6800 rfl rfl
  intro earlier r later eq
  obtain ⟨rfl, rfl, rfl⟩ : earlier = [] ∧ r = moved 0x1000 0x2000 0x6000 ∧ later = [] := by
    cases earlier <;> simp_all
  exact .inl ⟨_, mem_cons_self, by decide⟩

/-- Only the base of the ancestor's range is led on, though the range reaches into another one of the child's. -/
theorem straddling_range_misled :
    translate [moved 0x1000 0x3000 0x5000] 0x2800 = some 0x6800 ∧
      translate [moved 0x5000 0x6000 0x9000, moved 0x6000 0x7000 0x20000] 0x6800 = some 0x20800 ∧
      (mergeAncestorRanges [moved 0x5000 0x6000 0x9000, moved 0x6000 0x7000 0x20000] [moved 0x1000 0x3000 0x5000]).translate 0x2800 =
        some 0xa800 := by
  decide

end AddressRelocations

end LiteBox.Mm
