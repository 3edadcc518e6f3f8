import Mathlib.Data.List.Pairwise
import Mathlib.Logic.Function.Iterate
import RegionTree.Proofs.UniformPlacement

/-! An enumeration of gaps answers them one after the other and ends. They are free, start at aligned
addresses and ascend, and every aligned range that is free lies in one of them. -/
namespace RegionTree

/-- The part of a region has no address that a child has. -/
structure Span.FreeIn (part region : Span) (children : List Span) : Prop where
  inside : region.start ≤ part.start ∧ part.stop ≤ region.stop
  apart : ∀ c ∈ children, ∀ a ∈ part, a ∉ c

theorem Span.apart_iff {s t : Span} (some : s.start < s.stop) (some' : t.start < t.stop) :
    (∀ a ∈ s, a ∉ t) ↔ t.stop ≤ s.start ∨ s.stop ≤ t.start := by
  have meet := overlaps_iff_exists some some'
  rw [overlaps_iff] at meet
  have apart : (∀ a ∈ s, a ∉ t) ↔ ¬ ∃ a, a ∈ s ∧ a ∈ t := by
    rw [not_exists]
    exact forall_congr' fun _ => not_and.symm
  rw [apart, ← meet]
  omega

namespace GapScan
variable {align stop lower : Nat} {gaps children : List Span}

theorem advance_eq (align stop : Nat) (cursor : Option Nat) (children : List Span) :
    (advance align stop cursor children).1 = (collect align stop cursor children).head? ∧
      (advance align stop cursor children).2.toList = (collect align stop cursor children).tail := by
  induction children generalizing cursor with
  | nil =>
      cases cursor with
      | none => exact ⟨rfl, rfl⟩
      | some start =>
          rw [advance, collect]
          split <;> exact ⟨rfl, rfl⟩
  | cons child rest ih =>
      cases cursor with
      | none => exact ⟨rfl, collect_none _ _ _⟩
      | some start =>
          simp only [advance, collect]
          split
          · exact ⟨rfl, rfl⟩
          · exact ih _

theorem next_eq (g : GapScan) : g.next.1 = g.toList.head? ∧ g.next.2.toList = g.toList.tail :=
  advance_eq g.align g.stop g.cursor g.children

theorem toList_iterate (g : GapScan) (count : Nat) :
    ((fun g => g.next.2)^[count] g).toList = g.toList.drop count := by
  induction count with
  | zero => rfl
  | succ count ih => rw [Function.iterate_succ_apply', (next_eq _).2, ih, List.tail_drop]

theorem Ascend.pairwise (h : Ascend align stop lower gaps) :
    gaps.Pairwise fun gap gap' => gap.stop ≤ gap'.start := by
  induction h with
  | nil => exact .nil
  | cons _ _ _ _ later ih => exact .cons (fun gap hgap => (later.within gap hgap).1) ih

theorem Ascend.eq_of_within (h : Ascend align stop lower gaps) {a size : Nat} (some : 0 < size)
    {gap gap' : Span} (hgap : gap ∈ gaps) (hgap' : gap' ∈ gaps)
    (inside : gap.start ≤ a ∧ a + size ≤ gap.stop) (inside' : gap'.start ≤ a ∧ a + size ≤ gap'.stop) :
    gap = gap' := by
  have meet : ∀ x y : Span, x.start ≤ a ∧ a + size ≤ x.stop → y.start ≤ a ∧ a + size ≤ y.stop →
      ¬ x.stop ≤ y.start := by omega
  by_contra differ
  have symm : Std.Symm fun x y : Span => x.stop ≤ y.start ∨ y.stop ≤ x.start := ⟨fun _ _ => Or.symm⟩
  have order : gaps.Pairwise fun x y => x.stop ≤ y.start ∨ y.stop ≤ x.start := h.pairwise.imp .inl
  rcases order.forall hgap hgap' differ with before | behind
  · exact meet gap gap' inside inside' before
  · exact meet gap' gap inside' inside behind

/-- What an enumeration of the gaps that children leave in a region comes to. -/
structure Exact (g : GapScan) (region : Span) (children : List Span) (align : Nat) : Prop where
  /-- The gaps are answered one after the other, and from then on there is none. -/
  answers : ∀ count, ((fun g => g.next.2)^[count] g).next.1 = g.toList[count]?
  wide : ∀ gap ∈ g.toList, gap.start < gap.stop
  ascending : g.toList.Pairwise fun gap gap' => gap.stop ≤ gap'.start
  free : ∀ gap ∈ g.toList, gap.FreeIn region children
  aligned : ∀ gap ∈ g.toList, align ∣ gap.start
  /-- A range from an aligned address on is free exactly if it lies in a gap. -/
  complete : ∀ a size, align ∣ a → 0 < size → ((⟨a, a + size⟩ : Span).FreeIn region children ↔
    ∃! gap, gap ∈ g.toList ∧ gap.start ≤ a ∧ a + size ≤ gap.stop)

/-- The gaps of a region are enumerated for every power of two that an address can hold. -/
theorem ofRegion_exact {region : Span} {k : Nat} (top : region.stop < Address.limit) (small : k < 64)
    (apart : children.Pairwise fun a b => a.stop ≤ b.start)
    (within : ∀ c ∈ children, region.start ≤ c.start ∧ c.start < c.stop ∧ c.stop ≤ region.stop) :
    ∃ g, ofRegion region children (2 ^ k) = .ok g ∧ g.Exact region children (2 ^ k) := by
  have pos := Nat.two_pow_pos k
  have ascend := collect_ascend pos apart within
  have unreached := collect_apart pos apart within
  refine ⟨between region children (2 ^ k), by rw [ofRegion, if_pos (Address.isPowerOfTwo_two_pow k)], ?_⟩
  have free : ∀ gap ∈ (between region children (2 ^ k)).toList, gap.FreeIn region children := by
    intro gap hgap
    obtain ⟨low, wide, high⟩ := ascend.within gap hgap
    refine ⟨⟨low, high⟩, fun c hc => ?_⟩
    exact (Span.apart_iff wide (within c hc).2.1).mpr (unreached gap hgap c hc)
  constructor
  case answers =>
    intro count
    rw [(next_eq _).1, toList_iterate, List.head?_drop]
  case wide => exact fun gap hgap => (ascend.within gap hgap).2.1
  case ascending => exact ascend.pairwise
  case free => exact free
  case aligned => exact fun gap hgap => Nat.dvd_of_mod_eq_zero (ascend.aligned gap hgap)
  case complete =>
    intro a size aligned some
    constructor
    · intro vacant
      have high : a + size ≤ region.stop := vacant.inside.2
      have aligned := Nat.mod_eq_zero_of_dvd aligned
      have room := Address.add_le_limit (Address.two_pow_dvd_limit small) aligned (by omega)
      obtain ⟨gap, hgap, inside⟩ := exists_gap pos some aligned room vacant.inside.1 high fun c hc =>
        (Span.apart_iff (Nat.lt_add_of_pos_right some) (within c hc).2.1).mp (vacant.apart c hc)
      refine ⟨gap, ⟨hgap, inside⟩, fun gap' other => ?_⟩
      exact ascend.eq_of_within some other.1 hgap other.2 inside
    · rintro ⟨gap, ⟨hgap, low, high⟩, _⟩
      obtain ⟨⟨bottom, top⟩, apart⟩ := free gap hgap
      refine ⟨⟨Nat.le_trans bottom low, Nat.le_trans high top⟩, fun c hc x hx => ?_⟩
      exact apart c hc x ⟨Nat.le_trans low hx.1, Nat.lt_of_lt_of_le hx.2 high⟩

/-- Rounding swallows the gap between the first two children, and rounding up the end of the last one, at
the top of the width, ends the enumeration. -/
theorem ofRegion_exact_rounded :
    0xfffffffffffff000 < Address.limit ∧ 14 < 64 ∧
      ∃ children : List Span, children = [⟨0, 0x1000⟩, ⟨0x2000, 0x3000⟩,
          ⟨0xffffffffffffe000, 0xfffffffffffff000⟩] ∧
        (children.Pairwise fun a b => a.stop ≤ b.start) ∧
        (∀ c ∈ children, 0 ≤ c.start ∧ c.start < c.stop ∧ c.stop ≤ 0xfffffffffffff000) ∧
        ∃ g, ofRegion ⟨0, 0xfffffffffffff000⟩ children (2 ^ 14) = .ok g ∧
          g.toList = [⟨0x4000, 0xffffffffffffe000⟩] ∧
          g.Exact ⟨0, 0xfffffffffffff000⟩ children (2 ^ 14) := by
  refine ⟨by decide, by decide, _, rfl, by decide, by decide, ?_⟩
  obtain ⟨g, made, gaps⟩ : ∃ g, ofRegion ⟨0, 0xfffffffffffff000⟩ [⟨0, 0x1000⟩, ⟨0x2000, 0x3000⟩,
      ⟨0xffffffffffffe000, 0xfffffffffffff000⟩] (2 ^ 14) = .ok g ∧ g.Exact _ _ (2 ^ 14) :=
    ofRegion_exact (by decide) (by decide) (by decide) (by decide)
  refine ⟨g, made, ?_, gaps⟩
  cases made
  decide

end GapScan
end RegionTree
