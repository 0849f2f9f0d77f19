import LiteBox.Lib.RangeMap

/-! # Clusters of ranges

Ranges sorted by their start are merged into clusters: a range joins the last cluster when it starts
within the reach of the cluster's end, and opens a new cluster otherwise. The clusters contain the
ranges, and each lies out of reach of the ones before it.
-/

namespace Clusters

open List

/-- Adds a range to clusters that are listed from the last to the first. -/
def add (reach : ℕ → ℕ) : List Span → Span → List Span
  | [], r => [r]
  | last :: rest, r =>
    if r.start ≤ reach last.stop then ⟨last.start, max last.stop r.stop, lt_max_of_lt_left last.nonempty⟩ :: rest
    else r :: last :: rest

def ofSorted (reach : ℕ → ℕ) (spans : List Span) : List Span := (spans.foldl (add reach) []).reverse

/-- `later` starts out of the reach of `earlier`. -/
def Apart (reach : ℕ → ℕ) (earlier later : Span) : Prop := reach earlier.stop < later.start

variable {reach : ℕ → ℕ} {clusters : List Span} {r s : Span}

theorem not_apart_self (inflates : ∀ a, a ≤ reach a) (r : Span) : ¬Apart reach r r := by
  intro apart
  have nonempty := r.nonempty
  have reached := inflates r.stop
  simp only [Apart] at apart
  omega

theorem apart_add (inflates : ∀ a, a ≤ reach a) (apart : clusters.Pairwise fun later earlier => Apart reach earlier later) :
    (add reach clusters r).Pairwise fun later earlier => Apart reach earlier later := by
  cases clusters with
  | nil => exact pairwise_singleton _ _
  | cons last rest =>
    obtain ⟨lastApart, restApart⟩ := pairwise_cons.mp apart
    simp only [add]
    split
    · exact pairwise_cons.mpr ⟨lastApart, restApart⟩
    · next far =>
      refine pairwise_cons.mpr ⟨fun earlier member => ?_, apart⟩
      have reached := inflates last.stop
      have nonempty := last.nonempty
      simp only [Apart]
      obtain rfl | member := mem_cons.mp member
      · omega
      · have before : reach earlier.stop < last.start := lastApart earlier member
        omega

theorem start_le_add (sorted : ∀ cluster ∈ clusters, cluster.start ≤ r.start) (le : r.start ≤ s.start) :
    ∀ cluster ∈ add reach clusters r, cluster.start ≤ s.start := by
  cases clusters with
  | nil => simpa [add] using le
  | cons last rest =>
    have known : ∀ cluster ∈ last :: rest, cluster.start ≤ s.start := fun cluster member => (sorted cluster member).trans le
    simp only [add]
    split
    · intro cluster member
      obtain rfl | member := mem_cons.mp member
      · exact known last mem_cons_self
      · exact known cluster (mem_cons_of_mem _ member)
    · intro cluster member
      obtain rfl | member := mem_cons.mp member
      · exact le
      · exact known cluster member

/-- What a cluster contains stays inside a cluster, and so does the new range. -/
theorem covers_add (sorted : ∀ cluster ∈ clusters, cluster.start ≤ r.start) :
    (∃ cluster ∈ add reach clusters r, cluster.Covers r) ∧
      ∀ known, (∃ cluster ∈ clusters, cluster.Covers known) → ∃ cluster ∈ add reach clusters r, cluster.Covers known := by
  cases clusters with
  | nil => exact ⟨⟨r, mem_singleton_self r, le_rfl, le_rfl⟩, fun known ⟨_, member, _⟩ => by cases member⟩
  | cons last rest =>
    simp only [add]
    split
    · set wide : Span := ⟨last.start, max last.stop r.stop, lt_max_of_lt_left last.nonempty⟩
      refine ⟨⟨wide, mem_cons_self, sorted last mem_cons_self, le_max_right _ _⟩, ?_⟩
      rintro known ⟨cluster, member, covers⟩
      obtain rfl | member := mem_cons.mp member
      · exact ⟨wide, mem_cons_self, covers.1, covers.2.trans (le_max_left _ _)⟩
      · exact ⟨cluster, mem_cons_of_mem _ member, covers⟩
    · refine ⟨⟨r, mem_cons_self, le_rfl, le_rfl⟩, ?_⟩
      rintro known ⟨cluster, member, covers⟩
      exact ⟨cluster, mem_cons_of_mem _ member, covers⟩

section Sorted

variable {spans : List Span}

theorem fold_apart (inflates : ∀ a, a ≤ reach a) (apart : clusters.Pairwise fun later earlier => Apart reach earlier later) :
    (spans.foldl (add reach) clusters).Pairwise fun later earlier => Apart reach earlier later := by
  induction spans generalizing clusters with
  | nil => exact apart
  | cons r rest ih => exact ih (apart_add inflates apart)

theorem fold_covers (sorted : spans.Pairwise fun r s => r.start ≤ s.start)
    (before : ∀ cluster ∈ clusters, ∀ r ∈ spans, cluster.start ≤ r.start) :
    (∀ r ∈ spans, ∃ cluster ∈ spans.foldl (add reach) clusters, cluster.Covers r) ∧
      ∀ known, (∃ cluster ∈ clusters, cluster.Covers known) →
        ∃ cluster ∈ spans.foldl (add reach) clusters, cluster.Covers known := by
  induction spans generalizing clusters with
  | nil => exact ⟨nofun, fun _ covered => covered⟩
  | cons r rest ih =>
    obtain ⟨first, restSorted⟩ := pairwise_cons.mp sorted
    have starts : ∀ cluster ∈ clusters, cluster.start ≤ r.start := fun cluster member => before cluster member r mem_cons_self
    obtain ⟨new, old⟩ : (∃ cluster ∈ add reach clusters r, cluster.Covers r) ∧ _ := covers_add starts
    obtain ⟨rests, kept⟩ := ih restSorted fun cluster member s later => start_le_add starts (first s later) cluster member
    refine ⟨fun s member => ?_, fun known covered => kept known (old known covered)⟩
    obtain rfl | member := mem_cons.mp member
    · exact kept s new
    · exact rests s member

theorem ofSorted_covers (sorted : spans.Pairwise fun r s => r.start ≤ s.start) :
    ∀ r ∈ spans, ∃ cluster ∈ ofSorted reach spans, cluster.Covers r := by
  intro r member
  have none : ∀ cluster ∈ ([] : List Span), ∀ r ∈ spans, cluster.start ≤ r.start := nofun
  obtain ⟨cluster, found, covers⟩ := (fold_covers sorted none).1 r member
  exact ⟨cluster, mem_reverse.mpr found, covers⟩

end Sorted

/-- Of two clusters that are apart, the one with an address within reach of the other's is the other. -/
theorem eq_of_reach (mono : Monotone reach) (apart : clusters.Pairwise (Apart reach))
    {first second : Span} (member : first ∈ clusters) (member' : second ∈ clusters) {a b : ℕ} (inFirst : a ∈ first) (inSecond : b ∈ second)
    (near : b ≤ reach (a + 1)) (far : a ≤ reach (b + 1)) : first = second := by
  obtain ⟨low, high⟩ := inFirst
  obtain ⟨low', high'⟩ := inSecond
  obtain ⟨i, inside, rfl⟩ := getElem_of_mem member
  obtain ⟨j, inside', rfl⟩ := getElem_of_mem member'
  have ordered := pairwise_iff_getElem.mp apart
  obtain before | rfl | after := lt_trichotomy i j
  · have gap : reach clusters[i].stop < clusters[j].start := ordered i j inside inside' before
    have reached := mono (show a + 1 ≤ clusters[i].stop from high)
    omega
  · rfl
  · have gap : reach clusters[j].stop < clusters[i].start := ordered j i inside' inside after
    have reached := mono (show b + 1 ≤ clusters[j].stop from high')
    omega

end Clusters
