import RegionTree.Proofs.Context
import RegionTree.Proofs.Index

/-! How ranges lie in a tree: the children of a region stand in ascending order, apart from each other
and inside the region, at every depth. -/
namespace RegionTree

namespace Span

theorem covers_iff {s t : Span} : s.covers t ↔ s.start ≤ t.start ∧ t.stop ≤ s.stop := by
  simp [covers]

theorem overlaps_iff {s t : Span} : s.overlaps t ↔ s.start < t.stop ∧ t.start < s.stop := by
  simp [overlaps]

theorem mem_iff {s : Span} {a : Nat} : a ∈ s ↔ s.start ≤ a ∧ a < s.stop := .rfl

theorem contains_iff {s : Span} {a : Nat} : s.contains a ↔ a ∈ s := by
  simp [contains, mem_iff]

theorem contains_of_covers {s t : Span} (within : s.covers t) {a : Nat} (inside : t.contains a) :
    s.contains a := by
  obtain ⟨bottom, top⟩ := covers_iff.mp within
  obtain ⟨low, high⟩ := contains_iff.mp inside
  exact contains_iff.mpr ⟨Nat.le_trans bottom low, Nat.lt_of_lt_of_le high top⟩

theorem overlaps_iff_exists {s t : Span} (some : s.start < s.stop) (some' : t.start < t.stop) :
    s.overlaps t ↔ ∃ a, a ∈ s ∧ a ∈ t := by
  rw [overlaps_iff]
  constructor
  · rintro ⟨low, high⟩
    -- The higher of the two starts lies in both.
    exact ⟨max s.start t.start, mem_iff.mpr (by omega), mem_iff.mpr (by omega)⟩
  · rintro ⟨a, inside, inside'⟩
    obtain ⟨below, above⟩ := mem_iff.mp inside
    obtain ⟨below', above'⟩ := mem_iff.mp inside'
    exact ⟨Nat.lt_of_le_of_lt below above', Nat.lt_of_le_of_lt below' above⟩

end Span

@[simp] theorem Node.start_region (l : Label) (children : Forest) :
    (Node.region l children).start = l.extent.start := rfl

@[simp] theorem Node.stop_region (l : Label) (children : Forest) :
    (Node.region l children).stop = l.extent.stop := rfl

@[simp] theorem Node.start_mapping (m : Mapping) : (Node.mapping m).start = m.extent.start := rfl

@[simp] theorem Node.stop_mapping (m : Mapping) : (Node.mapping m).stop = m.extent.stop := rfl

theorem Node.start_lt_stop (n : Node) : n.start < n.stop := n.extent.start_lt_stop

/-- Nodes in ascending order, apart from each other and inside a range. -/
structure Forest.Lined (e : Extent) (ns : Forest) : Prop where
  apart : ns.Pairwise fun a b => a.stop ≤ b.start
  within : ∀ n ∈ ns, e.start ≤ n.start ∧ n.stop ≤ e.stop

/-- The children of each region at or below a node are lined up in it. -/
inductive Node.Nested : Node → Prop where
  | mapping (m : Mapping) : Nested (.mapping m)
  | region {l : Label} {children : Forest} :
      Forest.Lined l.extent children → (∀ n ∈ children, Nested n) → Nested (.region l children)

namespace Forest

theorem lined_nil (e : Extent) : Lined e [] := ⟨.nil, by simp⟩

theorem lined_append {e : Extent} {ns more : Forest} :
    Lined e (ns ++ more) ↔
      Lined e ns ∧ Lined e more ∧ ∀ a ∈ ns, ∀ b ∈ more, a.stop ≤ b.start := by
  constructor
  · rintro ⟨apart, within⟩
    obtain ⟨left, right, across⟩ := List.pairwise_append.mp apart
    obtain ⟨insideLeft, insideRight⟩ := List.forall_mem_append.mp within
    exact ⟨⟨left, insideLeft⟩, ⟨right, insideRight⟩, across⟩
  · rintro ⟨left, right, across⟩
    exact ⟨List.pairwise_append.mpr ⟨left.apart, right.apart, across⟩,
      List.forall_mem_append.mpr ⟨left.within, right.within⟩⟩

theorem lined_singleton {e : Extent} {n : Node} (low : e.start ≤ n.start) (high : n.stop ≤ e.stop) :
    Lined e [n] :=
  ⟨List.pairwise_singleton _ _, fun _ h => List.mem_singleton.mp h ▸ ⟨low, high⟩⟩

theorem Lined.sorted {e : Extent} {ns : Forest} (h : Lined e ns) :
    ns.Pairwise fun a b => a.start < b.start :=
  h.apart.imp fun {a _} le => Nat.lt_of_lt_of_le a.start_lt_stop le

theorem Lined.apart_of_mem {e : Extent} {ns : Forest} {n : Node} (h : Lined e ns) (hn : n ∈ ns) :
    ∀ c ∈ ns, c = n ∨ c.stop ≤ n.start ∨ n.stop ≤ c.start := by
  obtain ⟨before, behind, rfl⟩ := List.append_of_mem hn
  obtain ⟨_, later, across⟩ := List.pairwise_append.mp h.apart
  intro c hc
  rcases List.mem_append.mp hc with first | rest
  · exact .inr (.inl (across c first n List.mem_cons_self))
  · exact (List.mem_cons.mp rest).imp_right fun last => .inr ((List.pairwise_cons.mp later).1 c last)

theorem Lined.insert {e : Extent} {ns : Forest} {n : Node} (h : Lined e ns)
    (low : e.start ≤ n.start) (high : n.stop ≤ e.stop)
    (free : ∀ c ∈ ns, c.stop ≤ n.start ∨ n.stop ≤ c.start) :
    Lined e (Index.insert Node.start n ns) := by
  constructor
  · apply Index.insert_pairwise h.apart
    · intro c hc le
      have := n.start_lt_stop
      rcases free c hc with before | behind
      · exact before
      · omega
    · intro c hc lt
      have := c.start_lt_stop
      rcases free c hc with before | behind
      · omega
      · exact ⟨behind, fun y le => by omega⟩
  · intro c hc
    rcases List.mem_cons.mp ((Index.insert_perm n ns).mem_iff.mp hc) with rfl | old
    · exact ⟨low, high⟩
    · exact h.within c old

end Forest

namespace Node.Nested

theorem of_mem_toList {n x : Node} (h : n.Nested) (hx : x ∈ n.toList) : x.Nested := by
  induction h with
  | mapping m => exact List.mem_singleton.mp hx ▸ .mapping m
  | @region l children lined nested ih =>
      rcases List.mem_cons.mp hx with rfl | below
      · exact .region lined nested
      · obtain ⟨c, hc, inside⟩ := Forest.mem_toList_iff.mp below
        exact ih c hc inside

theorem within {n x : Node} (h : n.Nested) (hx : x ∈ n.toList) :
    n.start ≤ x.start ∧ x.stop ≤ n.stop := by
  induction h with
  | mapping m => exact List.mem_singleton.mp hx ▸ ⟨Nat.le_refl _, Nat.le_refl _⟩
  | @region l children lined nested ih =>
      rcases List.mem_cons.mp hx with rfl | below
      · exact ⟨Nat.le_refl _, Nat.le_refl _⟩
      · obtain ⟨c, hc, inside⟩ := Forest.mem_toList_iff.mp below
        have inChild := ih c hc inside
        have inRegion := lined.within c hc
        exact ⟨Nat.le_trans inRegion.1 inChild.1, Nat.le_trans inChild.2 inRegion.2⟩

theorem mapping_within {n : Node} {m : Mapping} (h : n.Nested) (hm : .mapping m ∈ n.entries) :
    n.start ≤ m.extent.start ∧ m.extent.stop ≤ n.stop :=
  h.within (Node.mapping_mem_toList_iff.mpr hm)

end Node.Nested

namespace Context

theorem nested_of_plug {c : List Frame} {n : Node} (h : (plug c n).Nested) : n.Nested :=
  h.of_mem_toList (mem_toList_plug c n.mem_toList_self)

theorem nested_fill {f : Frame} {n n' : Node} (h : (f.fill n).Nested) (nested : n'.Nested)
    (start : n'.start = n.start) (stop : n'.stop = n.stop) : (f.fill n').Nested := by
  cases h with
  | region lined inner =>
      obtain ⟨left, rest, across⟩ := Forest.lined_append.mp lined
      obtain ⟨first, apart⟩ := List.pairwise_cons.mp rest.apart
      obtain ⟨insideHole, insideBehind⟩ := List.forall_mem_cons.mp rest.within
      refine .region (Forest.lined_append.mpr ⟨left, ⟨?_, ?_⟩, ?_⟩) ?_
      · exact List.pairwise_cons.mpr ⟨fun b hb => stop ▸ first b hb, apart⟩
      · exact List.forall_mem_cons.mpr ⟨by rw [start, stop]; exact insideHole, insideBehind⟩
      · intro a ha b hb
        rcases List.mem_cons.mp hb with rfl | behind
        · exact start ▸ across a ha n List.mem_cons_self
        · exact across a ha b (List.mem_cons_of_mem _ behind)
      · intro x hx
        rcases List.mem_append.mp hx with before | other
        · exact inner x (List.mem_append_left _ before)
        · rcases List.mem_cons.mp other with rfl | behind
          · exact nested
          · exact inner x (List.mem_append_right _ (List.mem_cons_of_mem _ behind))

theorem nested_plug {c : List Frame} {n n' : Node} (h : (plug c n).Nested) (nested : n'.Nested)
    (start : n'.start = n.start) (stop : n'.stop = n.stop) : (plug c n').Nested := by
  induction c generalizing n n' with
  | nil => exact nested
  | cons f c ih => exact ih h (nested_fill (nested_of_plug h) nested start stop) rfl rfl

theorem nested_without {f : Frame} {c : List Frame} {n : Node} (h : (plug (f :: c) n).Nested) :
    (plug c (.region f.label (f.before ++ f.behind))).Nested := by
  have whole : (f.fill n).Nested := nested_of_plug (c := c) h
  have fewer : (f.before ++ f.behind).Sublist (f.before ++ n :: f.behind) :=
    List.Sublist.append_left (List.sublist_cons_self n f.behind) f.before
  cases whole with
  | region lined inner =>
      exact nested_plug (c := c) (n := f.fill n) h
        (.region ⟨lined.apart.sublist fewer, fun x hx => lined.within x (fewer.subset hx)⟩
          fun x hx => inner x (fewer.subset hx)) rfl rfl

theorem mapping_before {c : List Frame} {n : Node} {m : Mapping} (h : (plug c n).Nested)
    (hm : .mapping m ∈ entriesBefore c) : m.extent.stop ≤ n.start := by
  induction c generalizing n with
  | nil => cases hm
  | cons f c ih =>
      have whole : (f.fill n).Nested := nested_of_plug (c := c) h
      have inside := whole.within (x := n) (mem_toList_plug [f] n.mem_toList_self)
      cases whole with
      | region lined inner =>
          rcases List.mem_append.mp hm with outer | here
          · exact Nat.le_trans (ih h outer) inside.1
          · rcases List.mem_cons.mp here with impossible | before
            · cases impossible
            · obtain ⟨x, hx, below⟩ := Forest.mem_entries_iff.mp before
              have low := (inner x (List.mem_append_left _ hx)).mapping_within below
              have across := (Forest.lined_append.mp lined).2.2 x hx n List.mem_cons_self
              exact Nat.le_trans low.2 across

theorem mapping_behind {c : List Frame} {n : Node} {m : Mapping} (h : (plug c n).Nested)
    (hm : .mapping m ∈ entriesBehind c) : n.stop ≤ m.extent.start := by
  induction c generalizing n with
  | nil => cases hm
  | cons f c ih =>
      have whole : (f.fill n).Nested := nested_of_plug (c := c) h
      have inside := whole.within (x := n) (mem_toList_plug [f] n.mem_toList_self)
      cases whole with
      | region lined inner =>
          rcases List.mem_append.mp hm with behind | outer
          · obtain ⟨x, hx, below⟩ := Forest.mem_entries_iff.mp behind
            have member := List.mem_append_right f.before (List.mem_cons_of_mem n hx)
            have high := (inner x member).mapping_within below
            have across := (List.pairwise_cons.mp (Forest.lined_append.mp lined).2.1.apart).1 x hx
            exact Nat.le_trans across high.1
          · exact Nat.le_trans inside.2 (ih h outer)

end Context
end RegionTree
