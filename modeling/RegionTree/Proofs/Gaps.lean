import Mathlib.Algebra.Ring.Nat
import RegionTree.Proofs.Placement

/-! The gaps that children leave: they ascend through the region from aligned addresses on and are no
longer than it, so that the places in them can be counted, and each of these can be found again by its
number. -/
namespace RegionTree

namespace GapScan
variable {align stop lower : Nat} {gaps : List Span}

/-- Gaps from an address on, each above the one before, which start at aligned addresses. -/
inductive Ascend (align stop : Nat) : Nat → List Span → Prop where
  | nil (lower : Nat) : Ascend align stop lower []
  | cons {lower : Nat} {gap : Span} {gaps : List Span} : lower ≤ gap.start → gap.start % align = 0 →
      gap.start < gap.stop → gap.stop ≤ stop → Ascend align stop gap.stop gaps →
        Ascend align stop lower (gap :: gaps)

namespace Ascend

theorem mono {lower' : Nat} (h : Ascend align stop lower gaps) (le : lower' ≤ lower) :
    Ascend align stop lower' gaps := by
  cases h with
  | nil => exact .nil _
  | cons low aligned wide high later => exact .cons (Nat.le_trans le low) aligned wide high later

theorem within (h : Ascend align stop lower gaps) :
    ∀ gap ∈ gaps, lower ≤ gap.start ∧ gap.start < gap.stop ∧ gap.stop ≤ stop := by
  induction h with
  | nil => simp
  | cons low _ wide high _ ih =>
      refine List.forall_mem_cons.mpr ⟨⟨low, wide, high⟩, fun gap hgap => ?_⟩
      have := ih gap hgap
      omega

end Ascend

theorem collect_none (align stop : Nat) (children : List Span) :
    collect align stop none children = [] := by
  cases children <;> rfl

/-- The children are passed one by one, and the next gap starts no lower than the last one passed has
ended. -/
theorem collect_ascend (pos : 0 < align) {children : List Span}
    (apart : children.Pairwise fun a b => a.stop ≤ b.start)
    (within : ∀ c ∈ children, lower ≤ c.start ∧ c.start < c.stop ∧ c.stop ≤ stop) :
    Ascend align stop lower (collect align stop (Address.ceilTo? lower align) children) := by
  induction children generalizing lower with
  | nil =>
      cases raised : Address.ceilTo? lower align with
      | none => exact .nil _
      | some start =>
          rw [collect]
          split
          · next wide =>
              exact .cons (Address.le_of_ceilTo? raised pos) (Address.mod_of_ceilTo? raised) wide
                (Nat.le_refl _) (.nil _)
          · exact .nil _
  | cons child rest ih =>
      obtain ⟨first, others⟩ := List.pairwise_cons.mp apart
      obtain ⟨⟨low, wide, high⟩, withinRest⟩ := List.forall_mem_cons.mp within
      have later := ih others fun c hc => ⟨first c hc, (withinRest c hc).2⟩
      cases raised : Address.ceilTo? lower align with
      | none =>
          rw [collect_none]
          exact .nil _
      | some start =>
          simp only [collect]
          split
          · next free =>
              exact .cons (Address.le_of_ceilTo? raised pos) (Address.mod_of_ceilTo? raised) free
                (Nat.le_trans (Nat.le_of_lt wide) high) (later.mono (Nat.le_of_lt wide))
          · exact later.mono (by omega)

end GapScan

namespace Demand
variable (r : Demand)

theorem align_lt : r.align < Address.limit := by
  rw [align, Address.limit, Nat.one_shiftLeft, Nat.one_shiftLeft]
  exact Nat.pow_lt_pow_right (by decide) r.alignPow2_lt

theorem placesIn_le (gap : Span) : r.placesIn gap ≤ gap.stop - gap.start := by
  have pos := r.size_pos
  simp only [placesIn]
  split
  · exact Nat.zero_le _
  · have := Nat.div_le_self (gap.stop - gap.start - r.size) r.align
    omega

theorem place_fits {gap : Span} {index : Nat} (h : index < r.placesIn gap) :
    gap.start + index * r.align + r.size ≤ gap.stop := by
  have pos := r.size_pos
  simp only [placesIn] at h
  split at h
  · cases h
  · have := (Nat.le_div_iff_mul_le r.align_pos).mp (Nat.le_of_lt_succ h)
    omega

theorem countPlaces_eq {count : Nat} {gaps : List Span}
    (room : count + (gaps.map r.placesIn).sum < Address.limit) :
    r.countPlaces count gaps = .ok (count + (gaps.map r.placesIn).sum) := by
  induction gaps generalizing count with
  | nil => rfl
  | cons gap gaps ih =>
      rw [List.map_cons, List.sum_cons, ← Nat.add_assoc] at room ⊢
      rw [countPlaces, Address.add?, if_pos (by omega)]
      exact ih room

theorem nthPlace?_of_lt {index : Nat} {gaps : List Span} (h : index < (gaps.map r.placesIn).sum) :
    ∃ gap ∈ gaps, ∃ i < r.placesIn gap, r.nthPlace? index gaps = some (gap.start + i * r.align) := by
  induction gaps generalizing index with
  | nil => cases h
  | cons gap gaps ih =>
      rw [List.map_cons, List.sum_cons] at h
      rw [nthPlace?]
      split
      · next here => exact ⟨gap, List.mem_cons_self, index, here, rfl⟩
      · have rest : index - r.placesIn gap < (gaps.map r.placesIn).sum := by omega
        obtain ⟨later, hlater, i, hi, found⟩ := ih rest
        exact ⟨later, List.mem_cons_of_mem _ hlater, i, hi, found⟩

theorem sum_placesIn_le {align stop lower : Nat} {gaps : List Span}
    (h : GapScan.Ascend align stop lower gaps) : (gaps.map r.placesIn).sum ≤ stop - lower := by
  induction h with
  | nil => simp
  | @cons lower gap gaps low _ wide high _ ih =>
      have few := r.placesIn_le gap
      rw [List.map_cons, List.sum_cons]
      omega

end Demand

theorem Keystream.next32_lt (k : Keystream) : k.next32.1 < 2 ^ 32 := by
  rw [next32]
  exact UInt32.toNat_lt _

theorem Keystream.next64_lt (k : Keystream) : k.next64.1 < 2 ^ 64 := by
  have halves : ∀ {low high : Nat}, low < 2 ^ 32 → high < 2 ^ 32 → low + (high <<< 32) < 2 ^ 64 := by
    intro low high small small'
    rw [Nat.shiftLeft_eq]
    omega
  exact halves k.next32_lt k.next32.2.next32_lt

namespace Entropy

theorem sample_lt {width n threshold : Nat} {draw : Keystream → Nat × Keystream} (pos : 0 < n)
    (small : ∀ k, (draw k).1 < 2 ^ width) (attempts : Nat) (k : Keystream) :
    (sample width n threshold draw attempts k).1 < n := by
  have scaled : ∀ k, ((draw k).1 * n) >>> width < n := by
    intro k
    -- A word fills less than its width, so the upper half of the product stays below the factor.
    rw [Nat.shiftRight_eq_div_pow, Nat.div_lt_iff_lt_mul (Nat.two_pow_pos width), Nat.mul_comm n]
    exact Nat.mul_lt_mul_of_pos_right (small k) pos
  induction attempts generalizing k with
  | zero => exact scaled k
  | succ attempts ih =>
      simp only [sample]
      split
      · exact ih _
      · exact scaled k

theorem below_lt {n : Nat} (pos : 0 < n) (k : Keystream) : (below n k).1 < n := by
  rw [below]
  split
  · exact sample_lt pos Keystream.next32_lt patience k
  · exact sample_lt pos Keystream.next64_lt patience k

theorem uniform_getD_lt (r : Entropy) {n : Nat} (pos : 0 < n) : (r.uniform n).1.getD 0 < n := by
  simp only [uniform]
  split
  · exact pos
  · rw [if_neg (Nat.pos_iff_ne_zero.mp pos)]
    exact below_lt pos _

end Entropy

namespace Site
variable {M : Type} {site : Site M} {r : Demand}

theorem Ordered.gaps_ascend [Mmu M] (h : site.Ordered) (r : Demand) :
    GapScan.Ascend r.align site.region.stop site.region.start (site.gaps r) := by
  refine GapScan.collect_ascend r.align_pos (List.pairwise_map.mpr h.apart) ?_
  refine List.forall_mem_map.mpr fun c hc => ?_
  exact ⟨(h.within c hc).1, c.extent.start_lt_stop, (h.within c hc).2⟩

theorem Ordered.exists_count [Mmu M] (h : site.Ordered) (r : Demand) :
    ∃ count < Address.limit, r.countPlaces 0 (site.gaps r) = .ok count ∧
      ∀ index < count, ∃ spot, r.nthPlace? index (site.gaps r) = some spot ∧
        site.region.start ≤ spot ∧ spot + r.size ≤ site.region.stop := by
  have ascend := h.gaps_ascend r
  have top := site.region.stop_lt_limit
  have few := r.sum_placesIn_le ascend
  have room : 0 + ((site.gaps r).map r.placesIn).sum < Address.limit := by omega
  refine ⟨_, room, r.countPlaces_eq room, fun index small => ?_⟩
  obtain ⟨gap, hgap, i, hi, found⟩ := r.nthPlace?_of_lt (Nat.zero_add _ ▸ small)
  have inside := ascend.within gap hgap
  have fits := r.place_fits hi
  exact ⟨_, found, by omega, by omega⟩

variable [Mmu M]

theorem lowestAfter_error {floor : Nat} {before : Option Neighbour} {above : List Neighbour} {f : Failure}
    (failed : (site.lowestAfter r floor before above).answer = .error f) : f = Error.noMemory := by
  induction above generalizing before with
  | nil =>
      simp only [lowestAfter] at failed
      split at failed <;> cases failed
      rfl
  | cons child rest ih =>
      simp only [lowestAfter] at failed
      split at failed
      · cases failed
      · cases failed
        rfl
      · exact ih failed

theorem settle_error {drawn : Nat} {f : Failure} (fits : drawn + (r.size - 1) < Address.limit)
    (failed : (site.settle r drawn).answer = .error f) : f = Error.noMemory := by
  simp only [settle, Address.add, if_pos fits] at failed
  split at failed
  · cases failed
  · simp only [Search.after, Search.orElse] at failed
    split at failed
    · next found =>
        rw [found] at failed
        cases failed
    · exact lowestAfter_error failed

theorem uniform_error (ordered : site.Ordered) {entropy : Entropy} {f : Failure}
    (failed : (site.uniform r entropy).1.answer = .error f) : f = Error.noMemory := by
  obtain ⟨count, _, counted, places⟩ := ordered.exists_count r
  have pos := r.size_pos
  have top := site.region.stop_lt_limit
  simp only [uniform, counted] at failed
  split at failed
  · cases failed
    rfl
  · next some =>
      obtain ⟨spot, found, _, high⟩ := places _ (entropy.uniform_getD_lt (Nat.pos_of_ne_zero some))
      simp only [placeNth, found] at failed
      rw [if_pos (by omega)] at failed
      exact settle_error (by omega) failed

theorem firstAttempt_error {first last : Neighbour} {attempts : List (Side × Nat)} {f : Failure}
    (failed : (site.firstAttempt r first last attempts).answer = .error f) : f = Error.noMemory := by
  induction attempts with
  | nil => cases failed; rfl
  | cons attempt rest ih =>
      simp only [firstAttempt] at failed
      split at failed
      · cases failed
      · exact ih failed

theorem choose_error (ordered : site.Ordered) {clustered : Bool} {entropy : Entropy} {f : Failure}
    (failed : (site.choose r clustered entropy).1.answer = .error f) : f = Error.noMemory := by
  rw [choose_answer] at failed
  simp only [byPolicy] at failed
  split at failed
  · exact lowestAfter_error failed
  · split at failed
    · simp only [compact] at failed
      split at failed
      · exact firstAttempt_error failed
      · exact uniform_error ordered failed
    · exact uniform_error ordered failed

end Site
end RegionTree
