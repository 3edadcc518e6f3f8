import Mathlib.Data.List.Perm.Basic
import RegionTree.Index

/-! Lookups in an ordered list divide it: what lies at or below a key comes first, the rest behind. -/
namespace RegionTree.Index
variable {α : Type} {key : α → Nat}

theorem startsBy_eq_false {a : Nat} {xs : List α} (high : ∀ x ∈ xs, a < key x) :
    startsBy key a xs = false := by
  cases xs with
  | nil => rfl
  | cons x rest =>
      have := high x List.mem_cons_self
      simpa only [startsBy, decide_eq_false_iff_not, Nat.not_le] using this

theorem atOrBelow?_eq_none {a : Nat} {xs : List α} (high : ∀ x ∈ xs, a < key x) :
    atOrBelow? key a xs = none := by
  cases xs with
  | nil => rfl
  | cons x rest =>
      have above := List.forall_mem_cons.mp high
      rw [atOrBelow?, startsBy_eq_false above.2, if_neg Bool.false_ne_true, if_neg (by omega)]

theorem mem_of_atOrBelow? {a : Nat} {x : α} {xs : List α} (found : atOrBelow? key a xs = some x) :
    x ∈ xs := by
  induction xs with
  | nil => cases found
  | cons y rest ih =>
      rw [atOrBelow?] at found
      split at found
      · exact List.mem_cons_of_mem _ (ih found)
      · split at found
        · cases found
          exact List.mem_cons_self
        · cases found

theorem above?_eq_head? {a : Nat} {xs : List α} (high : ∀ x ∈ xs, a < key x) :
    above? key a xs = xs.head? := by
  cases xs with
  | nil => rfl
  | cons x rest => simp [above?, high x List.mem_cons_self]

theorem exists_split (a : Nat) {xs : List α} (sorted : xs.Pairwise fun x y => key x < key y) :
    ∃ low high, xs = low ++ high ∧ atOrBelow? key a xs = low.getLast? ∧
      above? key a xs = high.head? ∧ (∀ x ∈ low, key x ≤ a) ∧ ∀ x ∈ high, a < key x := by
  induction xs with
  | nil => exact ⟨[], [], rfl, rfl, rfl, by simp, by simp⟩
  | cons x rest ih =>
      obtain ⟨first, sortedRest⟩ := List.pairwise_cons.mp sorted
      by_cases small : key x ≤ a
      · obtain ⟨low, high, rfl, below, above, atMost, more⟩ := ih sortedRest
        refine ⟨x :: low, high, rfl, ?_, ?_, List.forall_mem_cons.mpr ⟨small, atMost⟩, more⟩
        · cases low with
          | nil =>
              rw [List.nil_append, atOrBelow?, startsBy_eq_false more, if_neg Bool.false_ne_true,
                if_pos small]
              rfl
          | cons y low =>
              have starts : startsBy key a (y :: low ++ high) = true :=
                decide_eq_true (atMost y List.mem_cons_self)
              rw [atOrBelow?, if_pos starts, below]
              rfl
        · rw [← above]
          simp only [above?, List.find?_cons, decide_eq_false (Nat.not_lt.mpr small)]
      · have more : ∀ y ∈ x :: rest, a < key y := by
          refine List.forall_mem_cons.mpr ⟨by omega, ?_⟩
          intro y hy
          have := first y hy
          omega
        exact ⟨[], x :: rest, rfl, atOrBelow?_eq_none more, above?_eq_head? more, by simp, more⟩

theorem insert_perm (new : α) (xs : List α) : (insert key new xs).Perm (new :: xs) := by
  induction xs with
  | nil => exact .refl _
  | cons x rest ih =>
      rw [insert]
      split
      · exact .refl _
      · exact (ih.cons x).trans (.swap new x rest)

theorem map_insert {β : Type} {key' : β → Nat} {f : α → β} (same : ∀ x, key' (f x) = key x) (new : α)
    (xs : List α) : (insert key new xs).map f = insert key' (f new) (xs.map f) := by
  induction xs with
  | nil => rfl
  | cons x rest ih =>
      simp only [insert, List.map_cons, same]
      split
      · rfl
      · rw [List.map_cons, ih]

theorem insert_pairwise {R : α → α → Prop} {new : α} {xs : List α} (related : xs.Pairwise R)
    (below : ∀ x ∈ xs, key x ≤ key new → R x new)
    (above : ∀ x ∈ xs, key new < key x → R new x ∧ ∀ y, R x y → R new y) :
    (insert key new xs).Pairwise R := by
  induction xs with
  | nil => exact List.pairwise_singleton R new
  | cons x rest ih =>
      obtain ⟨first, relatedRest⟩ := List.pairwise_cons.mp related
      obtain ⟨belowFirst, belowRest⟩ := List.forall_mem_cons.mp below
      obtain ⟨aboveFirst, aboveRest⟩ := List.forall_mem_cons.mp above
      rw [insert]
      split
      · next lower =>
          refine List.pairwise_cons.mpr ⟨List.forall_mem_cons.mpr ⟨(aboveFirst lower).1, ?_⟩, related⟩
          intro y hy
          exact (aboveFirst lower).2 y (first y hy)
      · next upper =>
          refine List.pairwise_cons.mpr ⟨?_, ih relatedRest belowRest aboveRest⟩
          intro y hy
          rcases List.mem_cons.mp ((insert_perm new rest).mem_iff.mp hy) with rfl | old
          · exact belowFirst (by omega)
          · exact first y old

end RegionTree.Index
