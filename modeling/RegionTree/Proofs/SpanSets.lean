import Mathlib.Order.Interval.Set.LinearOrder
import Mathlib.Order.Lattice.Nat
import RegionTree.Proofs.Nesting

/-! Spans as sets of addresses. Intersecting two spans always intersects the sets. Whether spans overlap, and
whether one covers another, is read off their ends, and these do not tell whether a span holds any address
at all. -/
namespace RegionTree.Span
variable {s t x y : Span}

def addresses (s : Span) : Set Nat := {a | s.contains a}

theorem addresses_eq (s : Span) : s.addresses = Set.Ico s.start s.stop := Set.ext fun _ => contains_iff

theorem addresses_inter (x y : Span) : (x.inter y).addresses = x.addresses ∩ y.addresses := by
  rw [addresses_eq, addresses_eq, addresses_eq, Set.Ico_inter_Ico]
  rfl

theorem isEmpty_iff : s.isEmpty ↔ s.stop ≤ s.start := decide_eq_true_iff

theorem isEmpty_iff_addresses : s.isEmpty ↔ s.addresses = ∅ := by
  rw [isEmpty_iff, addresses_eq, Set.Ico_eq_empty_iff, Nat.not_lt]

theorem nonempty_addresses : s.addresses.Nonempty ↔ s.start < s.stop := by
  rw [addresses_eq, Set.nonempty_Ico]

theorem nonempty_inter_iff : (x.addresses ∩ y.addresses).Nonempty ↔
    x.start < x.stop ∧ x.start < y.stop ∧ y.start < x.stop ∧ y.start < y.stop := by
  rw [← addresses_inter, nonempty_addresses]
  show max x.start y.start < min x.stop y.stop ↔ _
  omega

/-- The first span holds no address, though both its ends lie inside the second. -/
structure HollowIn (s t : Span) : Prop where
  low : t.start < s.stop
  hollow : s.stop ≤ s.start
  high : s.start < t.stop

/-- If the second span holds no address, its ends lie inside the first all the same. -/
def Frames (s t : Span) : Prop := t.isEmpty → s.start ≤ t.start ∧ t.stop ≤ s.stop

theorem HollowIn.disjoint (h : s.HollowIn t) : ¬ (s.addresses ∩ t.addresses).Nonempty := by
  intro common
  exact Nat.not_lt_of_le h.hollow (nonempty_inter_iff.mp common).1

/-- Spans overlap that have an address in common, but so do those of which one is hollow in the other. -/
theorem overlaps_iff_or : x.overlaps y ↔
    (x.addresses ∩ y.addresses).Nonempty ∨ x.HollowIn y ∨ y.HollowIn x := by
  rw [overlaps_iff, nonempty_inter_iff]
  constructor
  · rintro ⟨low, high⟩
    by_cases some : x.start < x.stop
    · by_cases some' : y.start < y.stop
      · exact .inl ⟨some, low, high, some'⟩
      · exact .inr (.inr ⟨low, Nat.le_of_not_lt some', high⟩)
    · exact .inr (.inl ⟨high, Nat.le_of_not_lt some, low⟩)
  · rintro (⟨_, low, high, _⟩ | ⟨high, _, low⟩ | ⟨low, _, high⟩)
    · exact ⟨low, high⟩
    · exact ⟨low, high⟩
    · exact ⟨low, high⟩

theorem overlaps_iff_nonempty_iff : (x.overlaps y ↔ (x.addresses ∩ y.addresses).Nonempty) ↔
    ¬ x.HollowIn y ∧ ¬ y.HollowIn x := by
  rw [overlaps_iff_or, ← not_or]
  constructor
  · rintro common (hollow | hollow)
    · exact hollow.disjoint (common.mp (.inr (.inl hollow)))
    · refine hollow.disjoint ?_
      rw [Set.inter_comm]
      exact common.mp (.inr (.inr hollow))
  · exact fun none => or_iff_left none

/-- A span covers those whose addresses it has, but of those without addresses only such as it frames. -/
theorem covers_iff_and : x.covers y ↔ y.addresses ⊆ x.addresses ∧ x.Frames y := by
  rw [covers_iff, addresses_eq, addresses_eq, Frames, isEmpty_iff]
  by_cases some : y.start < y.stop
  · rw [Set.Ico_subset_Ico_iff some]
    exact (and_iff_left fun none => absurd some (Nat.not_lt_of_le none)).symm
  · have none := Nat.le_of_not_lt some
    rw [Set.Ico_eq_empty_iff.mpr some]
    exact ⟨fun framed => ⟨Set.empty_subset _, fun _ => framed⟩, fun framed => framed.2 none⟩

theorem covers_iff_subset_iff : (x.covers y ↔ y.addresses ⊆ x.addresses) ↔ x.Frames y := by
  rw [covers_iff_and]
  constructor
  · intro subset empty
    have none := isEmpty_iff_addresses.mp empty
    exact (subset.mpr (none ▸ Set.empty_subset _)).2 empty
  · exact fun framed => and_iff_left framed

/-- What is told of the ends of two spans holds of their addresses. -/
structure AsSets (x y : Span) : Prop where
  inter : (x.inter y).addresses = x.addresses ∩ y.addresses
  overlaps : x.overlaps y ↔ (x.addresses ∩ y.addresses).Nonempty
  shared : x.overlaps y ↔ ¬ (x.inter y).isEmpty
  covers : x.covers y ↔ y.addresses ⊆ x.addresses

/-- What the operations on two spans tell of their addresses. -/
structure Tells (x y : Span) : Prop where
  inter : (x.inter y).addresses = x.addresses ∩ y.addresses
  empty : (x.inter y).isEmpty ↔ ¬ (x.addresses ∩ y.addresses).Nonempty
  overlaps : x.overlaps y ↔ (x.addresses ∩ y.addresses).Nonempty ∨ x.HollowIn y ∨ y.HollowIn x
  covers : x.covers y ↔ y.addresses ⊆ x.addresses ∧ x.Frames y
  /-- They agree exactly unless one span is hollow in the other, or the second holds no address and yet has
  an end outside of the first. -/
  truth : x.AsSets y ↔ ¬ x.HollowIn y ∧ ¬ y.HollowIn x ∧ x.Frames y

theorem tells_asSets_iff (x y : Span) : x.Tells y := by
  have empty : (x.inter y).isEmpty ↔ ¬ (x.addresses ∩ y.addresses).Nonempty := by
    rw [isEmpty_iff_addresses, addresses_inter, Set.not_nonempty_iff_eq_empty]
  refine ⟨addresses_inter x y, empty, overlaps_iff_or, covers_iff_and, ?truth⟩
  case truth =>
    rw [← and_assoc, ← overlaps_iff_nonempty_iff, ← covers_iff_subset_iff]
    constructor
    · exact fun sets => ⟨sets.overlaps, sets.covers⟩
    · rintro ⟨overlaps, covers⟩
      have shared : x.overlaps y ↔ ¬ (x.inter y).isEmpty := by rw [empty, not_not, overlaps]
      exact ⟨addresses_inter x y, overlaps, shared, covers⟩

/-- An empty span inside another overlaps it, and one outside is not covered. -/
theorem empty_not_asSets :
    (⟨0, 0x2000⟩ : Span).overlaps ⟨0x1000, 0x1000⟩ ∧ ¬ (⟨0, 0x2000⟩ : Span).AsSets ⟨0x1000, 0x1000⟩ ∧
      ¬ (⟨0, 0x1000⟩ : Span).covers ⟨0x2000, 0x2000⟩ ∧ ¬ (⟨0, 0x1000⟩ : Span).AsSets ⟨0x2000, 0x2000⟩ := by
  refine ⟨by decide, fun sets => ?_, by decide, fun sets => ?_⟩
  · have common := nonempty_inter_iff.mp (sets.overlaps.mp (by decide))
    exact absurd common.2.2.2 (by decide)
  · have none : (⟨0x2000, 0x2000⟩ : Span).addresses = ∅ := isEmpty_iff_addresses.mp (by decide)
    exact absurd (sets.covers.mpr (none ▸ Set.empty_subset _)) (by decide)

end RegionTree.Span
