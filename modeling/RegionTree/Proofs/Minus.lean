import RegionTree.Proofs.Evolution
import RegionTree.Proofs.Pieces

/-! What a range leaves of an extent, of a mapping, of a child and of a row of children, told by the ranges
alone. -/
namespace RegionTree

namespace Extent

def below (e : Extent) (a : Nat) : Option Extent := ofSpan? ⟨e.start, min e.stop a⟩

def above (e : Extent) (a : Nat) : Option Extent := ofSpan? ⟨max e.start a, e.stop⟩

/-- What a range leaves of an extent: at most a part below it and a part above it. -/
def minus (e : Extent) (target : Span) : List Extent :=
  (e.below target.start).toList ++ (e.above target.stop).toList

theorem ofSpan?_eq_some_iff {s : Span} {e : Extent} : ofSpan? s = some e ↔ e.toSpan = s := by
  simp only [ofSpan?]
  constructor
  · intro found
    split at found
    · cases found
      rfl
    · cases found
  · rintro rfl
    exact dif_pos ⟨e.start_lt_stop, e.stop_lt_limit⟩

theorem ofSpan?_eq_none {s : Span} (empty : s.stop ≤ s.start) : ofSpan? s = none :=
  dif_neg fun valid => Nat.not_lt_of_le empty valid.1

variable {e : Extent} {target : Span} {a : Nat}

theorem exists_ofSpan?_mem {s : Span} (small : s.stop < Address.limit) :
    (∃ e, ofSpan? s = some e ∧ a ∈ e.toSpan) ↔ a ∈ s := by
  constructor
  · rintro ⟨e, found, inside⟩
    exact ofSpan?_eq_some_iff.mp found ▸ inside
  · intro inside
    have wide : s.start < s.stop := Nat.lt_of_le_of_lt inside.1 inside.2
    exact ⟨⟨s, wide, small⟩, ofSpan?_eq_some_iff.mpr rfl, inside⟩

theorem below_eq_self (le : e.stop ≤ a) : e.below a = some e := by
  rw [below, Nat.min_eq_left le]
  exact ofSpan?_eq_some_iff.mpr rfl

theorem above_eq_self (le : a ≤ e.start) : e.above a = some e := by
  rw [above, Nat.max_eq_left le]
  exact ofSpan?_eq_some_iff.mpr rfl

theorem below_eq_none (le : a ≤ e.start) : e.below a = none :=
  ofSpan?_eq_none (Nat.le_trans (Nat.min_le_right _ _) le)

theorem above_eq_none (le : e.stop ≤ a) : e.above a = none :=
  ofSpan?_eq_none (Nat.le_trans le (Nat.le_max_right _ _))

theorem below_eq_cut? (lt : a < e.stop) : e.below a = (e.cut? a).map Prod.fst := by
  by_cases some : e.start < a
  · rw [cut?, dif_pos ⟨some, lt⟩, below, Nat.min_eq_right (Nat.le_of_lt lt)]
    exact ofSpan?_eq_some_iff.mpr rfl
  · rw [cut?, dif_neg fun inside => some inside.1, below_eq_none (Nat.le_of_not_lt some)]
    rfl

theorem above_eq_cut? (lt : e.start < a) : e.above a = (e.cut? a).map Prod.snd := by
  by_cases some : a < e.stop
  · rw [cut?, dif_pos ⟨lt, some⟩, above, Nat.max_eq_right (Nat.le_of_lt lt)]
    exact ofSpan?_eq_some_iff.mpr rfl
  · rw [cut?, dif_neg fun inside => some inside.2, above_eq_none (Nat.le_of_not_lt some)]
    rfl

theorem minus_of_apart (wide : target.start < target.stop)
    (apart : e.stop ≤ target.start ∨ target.stop ≤ e.start) : e.minus target = [e] := by
  rcases apart with low | high
  · rw [minus, below_eq_self low, above_eq_none (Nat.le_trans low (Nat.le_of_lt wide))]
    rfl
  · rw [minus, above_eq_self high, below_eq_none (Nat.le_trans (Nat.le_of_lt wide) high)]
    rfl

/-- Of an extent that the range reaches into, the parts are those that cutting at its ends gives. -/
theorem minus_of_overlaps (low : target.start < e.stop) (high : e.start < target.stop) :
    e.minus target = ((e.cut? target.start).map Prod.fst).toList ++
      ((e.cut? target.stop).map Prod.snd).toList := by
  rw [minus, below_eq_cut? low, above_eq_cut? high]

end Extent

namespace Mapping

def part (m : Mapping) (handle : Handle) (extent : Extent) : Mapping :=
  { m with handle, extent, offset := m.offset + (extent.start - m.extent.start) }

/-- What a range leaves of a mapping. Behind a hole in the middle there is a new node. -/
def minus (m : Mapping) (target : Span) (new : Handle) : List Mapping :=
  List.zipWith m.part [m.handle, new] (m.extent.minus target)

variable {m : Mapping} {new : Handle} {low high : Extent}

theorem part_lower (start : low.start = m.extent.start) : m.part m.handle low = m.lower low := by
  rw [part, start, Nat.sub_self]
  rfl

theorem part_self (m : Mapping) : m.part m.handle m.extent = m := part_lower rfl

theorem part_tail (clipped : Name.clip m.name = m.name) : m.part new high = m.tail new high := by
  rw [tail, clipped]
  rfl

end Mapping

namespace Node

/-- What taking out a range leaves of a child. A region goes with all below it or stays. -/
def minus (target : Span) (new : Handle) : Node → Forest
  | .region l children => if target.covers l.extent.toSpan then [] else [.region l children]
  | .mapping m => (m.minus target new).map .mapping

theorem minus_of_apart {target : Span} (new : Handle) (wide : target.start < target.stop) {n : Node}
    (apart : n.stop ≤ target.start ∨ target.stop ≤ n.start) : n.minus target new = [n] := by
  cases n with
  | region l children =>
      refine if_neg fun within => ?_
      have some : l.extent.start < l.extent.stop := l.extent.start_lt_stop
      have apart : l.extent.stop ≤ target.start ∨ target.stop ≤ l.extent.start := apart
      obtain ⟨bottom, top⟩ := Span.covers_iff.mp within
      omega
  | mapping m =>
      have apart : m.extent.stop ≤ target.start ∨ target.stop ≤ m.extent.start := apart
      rw [minus, Mapping.minus, Extent.minus_of_apart wide apart]
      exact congrArg (fun m => [Node.mapping m]) m.part_self

def PiercedBy (n : Node) (target : Span) : Prop := n.start < target.start ∧ target.stop < n.stop

end Node

namespace Forest
variable {e : Extent} {children : Forest} {target : Span} {f : Node → Forest}

theorem flatMap_of_stay (stay : ∀ n ∈ children, f n = [n]) : children.flatMap f = children := by
  rw [List.flatMap_def, List.map_congr_left stay, ← List.flatMap_def, List.flatMap_singleton']

theorem flatMap_of_apart (lined : Lined e children)
    (apart : ∀ n : Node, n.stop ≤ target.start ∨ target.stop ≤ n.start → f n = [n]) :
    children.flatMap f = (slice target children).before ++ (slice target children).inside.flatMap f ++
      (slice target children).behind := by
  conv => lhs; rw [← slice_append target children]
  rw [List.flatMap_append, List.flatMap_append,
    flatMap_of_stay fun n hn => apart n (.inl (stop_le_of_mem_before hn)),
    flatMap_of_stay fun n hn => apart n (.inr (stop_le_of_mem_behind lined hn))]

end Forest
end RegionTree
