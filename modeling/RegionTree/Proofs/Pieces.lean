import Mathlib.Data.List.TakeWhile
import RegionTree.Proofs.Nesting

/-! A row of children against a range: which of them reach into it, whether it is free, and rows in which
children have given way to pieces of themselves. -/
namespace RegionTree.Forest

theorem Lined.tail {e : Extent} {n : Node} {ns : Forest} (lined : Lined e (n :: ns)) : Lined e ns :=
  ⟨(List.pairwise_cons.mp lined.apart).2, (List.forall_mem_cons.mp lined.within).2⟩

theorem Lined.narrow {e : Extent} {n part : Node} {ns : Forest} (lined : Lined e (n :: ns))
    (low : n.start ≤ part.start) (high : part.stop ≤ n.stop) : Lined e (part :: ns) := by
  obtain ⟨first, rest⟩ := List.pairwise_cons.mp lined.apart
  obtain ⟨here, inside⟩ := List.forall_mem_cons.mp lined.within
  refine ⟨List.pairwise_cons.mpr ⟨fun x hx => Nat.le_trans high (first x hx), rest⟩, ?_⟩
  exact List.forall_mem_cons.mpr ⟨⟨Nat.le_trans here.1 low, Nat.le_trans high here.2⟩, inside⟩

theorem slice_append (target : Span) (ns : Forest) :
    (slice target ns).before ++ (slice target ns).inside ++ (slice target ns).behind = ns := by
  simp only [slice, List.append_assoc, List.takeWhile_append_dropWhile]

theorem stop_le_of_mem_before {target : Span} {ns : Forest} {n : Node}
    (h : n ∈ (slice target ns).before) : n.stop ≤ target.start := by
  simpa using List.mem_takeWhile_imp h

theorem mem_of_mem_inside {target : Span} {ns : Forest} {n : Node}
    (h : n ∈ (slice target ns).inside) : n ∈ ns := by
  rw [← slice_append target ns]
  exact List.mem_append_left _ (List.mem_append_right _ h)

theorem lt_stop_of_mem_dropWhile {e : Extent} {ns : Forest} (lined : Lined e ns) (a : Nat) {n : Node}
    (h : n ∈ ns.dropWhile (·.stop ≤ a)) : a < n.stop := by
  induction ns with
  | nil => cases h
  | cons x ns ih =>
      obtain ⟨first, _⟩ := List.pairwise_cons.mp lined.apart
      rw [List.dropWhile_cons] at h
      split at h
      · exact ih lined.tail h
      · next reaches =>
          have above : a < x.stop := by simpa using reaches
          rcases List.mem_cons.mp h with rfl | later
          · exact above
          · have := first n later
            have := n.start_lt_stop
            omega

theorem overlaps_of_mem_inside {e : Extent} {target : Span} {ns : Forest} (lined : Lined e ns) {n : Node}
    (h : n ∈ (slice target ns).inside) : target.start < n.stop ∧ n.start < target.stop := by
  have reaching := List.takeWhile_subset _ h
  exact ⟨lt_stop_of_mem_dropWhile lined _ reaching, by simpa using List.mem_takeWhile_imp h⟩

theorem stop_le_of_mem_behind {e : Extent} {target : Span} {ns : Forest} (lined : Lined e ns) {n : Node}
    (h : n ∈ (slice target ns).behind) : target.stop ≤ n.start := by
  have reaching : (ns.dropWhile (·.stop ≤ target.start)).Pairwise fun a b => a.start < b.start :=
    lined.sorted.sublist (List.dropWhile_sublist _)
  simp only [slice] at h
  revert reaching h
  generalize ns.dropWhile (·.stop ≤ target.start) = reach
  intro h sorted
  induction reach with
  | nil => cases h
  | cons x reach ih =>
      obtain ⟨first, sortedRest⟩ := List.pairwise_cons.mp sorted
      rw [List.dropWhile_cons] at h
      split at h
      · exact ih h sortedRest
      · next high =>
          have above : target.stop ≤ x.start := by simpa using high
          rcases List.mem_cons.mp h with rfl | later
          · exact above
          · have := first n later
            omega

theorem mem_inside_of_overlaps {e : Extent} {target : Span} {ns : Forest} (lined : Lined e ns) {n : Node}
    (h : n ∈ ns) (low : target.start < n.stop) (high : n.start < target.stop) :
    n ∈ (slice target ns).inside := by
  rw [← slice_append target ns] at h
  rcases List.mem_append.mp h with front | behind
  · refine (List.mem_append.mp front).resolve_left fun before => ?_
    exact absurd (stop_le_of_mem_before before) (Nat.not_le.mpr low)
  · exact absurd (stop_le_of_mem_behind lined behind) (Nat.not_le.mpr high)

theorem mem_inside_iff {e : Extent} {target : Span} {ns : Forest} (lined : Lined e ns) {n : Node} :
    n ∈ (slice target ns).inside ↔ n ∈ ns ∧ n.extent.overlaps target := by
  rw [Span.overlaps_iff]
  constructor
  · intro hn
    have reaches := overlaps_of_mem_inside lined hn
    exact ⟨mem_of_mem_inside hn, reaches.2, reaches.1⟩
  · rintro ⟨hn, high, low⟩
    exact mem_inside_of_overlaps lined hn low high

theorem Lined.inside {e : Extent} {ns : Forest} (lined : Lined e ns) (target : Span) :
    Lined e (slice target ns).inside := by
  have whole := slice_append target ns ▸ lined
  exact (lined_append.mp (lined_append.mp whole).1).2.1

theorem inside_eq_singleton {e : Extent} {target : Span} {ns : Forest} (lined : Lined e ns) {n : Node}
    (h : n ∈ (slice target ns).inside) (low : n.start < target.start) (high : target.stop < n.stop) :
    (slice target ns).inside = [n] := by
  have overlaps : ∀ x ∈ (slice target ns).inside, target.start < x.stop ∧ x.start < target.stop :=
    fun x hx => overlaps_of_mem_inside lined hx
  have row := lined.inside target
  revert h row overlaps
  generalize (slice target ns).inside = inside
  intro h overlaps row
  obtain ⟨front, back, rfl⟩ := List.append_of_mem h
  obtain ⟨_, rest, across⟩ := lined_append.mp row
  have noFront : front = [] := by
    refine List.eq_nil_iff_forall_not_mem.mpr fun x hx => ?_
    have := (overlaps x (List.mem_append_left _ hx)).1
    have := across x hx n List.mem_cons_self
    omega
  have noBack : back = [] := by
    refine List.eq_nil_iff_forall_not_mem.mpr fun x hx => ?_
    have := (overlaps x (List.mem_append_right _ (List.mem_cons_of_mem _ hx))).2
    have := (List.pairwise_cons.mp rest.apart).1 x hx
    omega
  rw [noFront, noBack, List.nil_append]

/-- Of children in a row, the last reaches the farthest. -/
theorem lastFree_iff {e : Extent} {low : Forest} (lined : Lined e low) {base : Nat} :
    low.getLast?.any (base < ·.stop) = false ↔ ∀ n ∈ low, n.stop ≤ base := by
  cases last : low.getLast? with
  | none => simp [List.getLast?_eq_none_iff.mp last]
  | some p =>
      obtain ⟨rest, rfl⟩ := List.getLast?_eq_some_iff.mp last
      have order := (lined_append.mp lined).2.2
      simp only [Option.any_some, decide_eq_false_iff_not, Nat.not_lt]
      constructor
      · intro le
        refine List.forall_mem_append.mpr ⟨fun n hn => ?_, by simpa using le⟩
        have := order n hn p (by simp)
        have := p.start_lt_stop
        omega
      · intro all
        exact all p (by simp)

theorem firstFree_iff {e : Extent} {high : Forest} (lined : Lined e high) {base size : Nat}
    (pos : 0 < size) {next : Node} (first : high.head? = some next) :
    (∃ last, Address.add? base (size - 1) = some last ∧ last < next.start) ↔
      ∀ n ∈ high, base + size ≤ n.start := by
  obtain ⟨rest, rfl⟩ := List.head?_eq_some_iff.mp first
  have order := (List.pairwise_cons.mp lined.sorted).1
  have addressable := next.extent.stop_lt_limit
  have inside : next.start < next.extent.stop := next.start_lt_stop
  simp only [Address.add?, Option.ite_none_right_eq_some, List.forall_mem_cons]
  constructor
  · rintro ⟨last, ⟨_, sum⟩, fits⟩
    cases sum
    refine ⟨by omega, fun n hn => ?_⟩
    have := order n hn
    omega
  · rintro ⟨le, _⟩
    exact ⟨_, ⟨by omega, rfl⟩, by omega⟩

theorem isFree_iff {e : Extent} {ns : Forest} (lined : Lined e ns) {base size : Nat} (pos : 0 < size) :
    isFree base size ns = true ↔ ∀ n ∈ ns, n.stop ≤ base ∨ base + size ≤ n.start := by
  obtain ⟨low, high, rfl, below, above, atMost, more⟩ := Index.exists_split base lined.sorted
  obtain ⟨lowLined, highLined, _⟩ := lined_append.mp lined
  rw [isFree, below, above, List.forall_mem_append]
  constructor
  · intro free
    split at free
    · cases free
    · next none =>
        have ended := (lastFree_iff lowLined).mp (by simpa using none)
        refine ⟨fun n hn => .inl (ended n hn), fun n hn => .inr ?_⟩
        split at free
        · next empty => simp [List.head?_eq_none_iff.mp empty] at hn
        · next next first =>
            split at free
            · cases free
            · next last sum =>
                have fits : last < next.start := by simpa using free
                exact (firstFree_iff highLined pos first).mp ⟨last, sum, fits⟩ n hn
  · rintro ⟨lowApart, highApart⟩
    have noneBelow : low.getLast?.any (base < ·.stop) = false := by
      refine (lastFree_iff lowLined).mpr fun n hn => ?_
      have := atMost n hn
      have := lowApart n hn
      omega
    rw [if_neg (by simp [noneBelow])]
    split
    · rfl
    · next next first =>
        have later : ∀ n ∈ high, base + size ≤ n.start := by
          intro n hn
          have := more n hn
          have := n.start_lt_stop
          have := highApart n hn
          omega
        obtain ⟨last, sum, fits⟩ := (firstFree_iff highLined pos first).mpr later
        rw [sum]
        exact decide_eq_true fits

/-- A row in which each child has given way to pieces inside its range. -/
inductive Refines : Forest → Forest → Prop where
  | nil : Refines [] []
  | cons {n : Node} {pieces old new : Forest} :
      Lined n.extent pieces → (∀ p ∈ pieces, p.Nested) → Refines old new →
        Refines (n :: old) (pieces ++ new)

namespace Refines

theorem refl {ns : Forest} (nested : ∀ n ∈ ns, n.Nested) : Refines ns ns := by
  induction ns with
  | nil => exact .nil
  | cons n ns ih =>
      obtain ⟨first, rest⟩ := List.forall_mem_cons.mp nested
      have same : Lined n.extent [n] := lined_singleton (Nat.le_refl _) (Nat.le_refl _)
      exact .cons same (by simpa using first) (ih rest)

theorem drop (n : Node) : Refines [n] [] := .cons (lined_nil _) (by simp) .nil

theorem narrow {n part : Node} (low : n.start ≤ part.start) (high : part.stop ≤ n.stop)
    (nested : part.Nested) : Refines [n] [part] :=
  .cons (lined_singleton low high) (by simpa using nested) .nil

theorem append {old new old' new' : Forest} (h : Refines old new) (h' : Refines old' new') :
    Refines (old ++ old') (new ++ new') := by
  induction h with
  | nil => exact h'
  | cons lined nested _ ih =>
      rw [List.append_assoc]
      exact .cons lined nested ih

theorem cut {m low high : Mapping} (start : m.extent.start ≤ low.extent.start)
    (between : low.extent.stop ≤ high.extent.start) (stop : high.extent.stop ≤ m.extent.stop) :
    Refines [.mapping m] [.mapping low, .mapping high] := by
  have lowSome := low.extent.start_lt_stop
  have highSome := high.extent.start_lt_stop
  have lined : Lined (Node.mapping m).extent [.mapping low, .mapping high] := by
    refine ⟨List.pairwise_pair.mpr between, ?_⟩
    refine List.forall_mem_cons.mpr ⟨⟨start, ?_⟩, List.forall_mem_singleton.mpr ⟨?_, stop⟩⟩
    · show low.extent.stop ≤ m.extent.stop
      omega
    · show m.extent.start ≤ high.extent.start
      omega
  exact .cons lined
    (List.forall_mem_cons.mpr ⟨.mapping low, List.forall_mem_singleton.mpr (.mapping high)⟩) .nil

theorem inside {old new : Forest} (h : Refines old new) {p : Node} (hp : p ∈ new) :
    p.Nested ∧ ∃ n ∈ old, n.start ≤ p.start ∧ p.stop ≤ n.stop := by
  induction h with
  | nil => cases hp
  | @cons n pieces old new lined nested _ ih =>
      rcases List.mem_append.mp hp with piece | later
      · exact ⟨nested p piece, n, List.mem_cons_self, lined.within p piece⟩
      · obtain ⟨sound, m, hm, inside⟩ := ih later
        exact ⟨sound, m, List.mem_cons_of_mem _ hm, inside⟩

theorem lined {e : Extent} {old new : Forest} (h : Refines old new) (whole : Lined e old) :
    Lined e new := by
  induction h with
  | nil => exact whole
  | @cons n pieces old new pieceLined _ rest ih =>
      obtain ⟨first, _⟩ := List.pairwise_cons.mp whole.apart
      have here := whole.within n List.mem_cons_self
      refine lined_append.mpr ⟨⟨pieceLined.apart, ?_⟩, ih whole.tail, ?_⟩
      · intro p hp
        have := pieceLined.within p hp
        exact ⟨Nat.le_trans here.1 this.1, Nat.le_trans this.2 here.2⟩
      · intro p hp q hq
        obtain ⟨_, m, hm, within⟩ := rest.inside hq
        exact Nat.le_trans (pieceLined.within p hp).2 (Nat.le_trans (first m hm) within.1)

theorem of_append {old old' new : Forest} (h : Refines (old ++ old') new) :
    ∃ first later, new = first ++ later ∧ Refines old first ∧ Refines old' later := by
  induction old generalizing new with
  | nil => exact ⟨[], new, rfl, .nil, h⟩
  | cons n old ih =>
      cases h with
      | cons lined nested rest =>
          obtain ⟨first, later, rfl, left, right⟩ := ih rest
          exact ⟨_ ++ first, later, by rw [List.append_assoc], .cons lined nested left, right⟩

theorem trans {old mid new : Forest} (h : Refines old mid) (h' : Refines mid new) : Refines old new := by
  induction h generalizing new with
  | nil => exact h'
  | cons lined _ _ ih =>
      obtain ⟨first, later, rfl, pieces, rest⟩ := h'.of_append
      exact .cons (pieces.lined lined) (fun p hp => (pieces.inside hp).1) (ih rest)

theorem nested {l : Label} {old new : Forest} (h : Refines old new)
    (whole : (Node.region l old).Nested) : (Node.region l new).Nested := by
  cases whole with
  | region lined _ => exact .region (h.lined lined) fun p hp => (h.inside hp).1

end Refines
end RegionTree.Forest
