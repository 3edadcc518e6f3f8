import Mathlib.Data.List.Nodup
import RegionTree.Proofs.Gaps

/-! Uniform placement: the places that are counted are exactly the free ones, each once and in ascending
order, and the one that is drawn is the answer. -/
namespace RegionTree

namespace GapScan
variable {align stop lower : Nat} {gaps : List Span} {children : List Span}

theorem Ascend.aligned (h : Ascend align stop lower gaps) : ∀ gap ∈ gaps, gap.start % align = 0 := by
  induction h with
  | nil => simp
  | cons _ aligned _ _ _ ih => exact List.forall_mem_cons.mpr ⟨aligned, ih⟩

theorem collect_apart (pos : 0 < align) (apart : children.Pairwise fun a b => a.stop ≤ b.start)
    (within : ∀ c ∈ children, lower ≤ c.start ∧ c.start < c.stop ∧ c.stop ≤ stop) :
    ∀ gap ∈ collect align stop (Address.ceilTo? lower align) children,
      ∀ c ∈ children, c.stop ≤ gap.start ∨ gap.stop ≤ c.start := by
  induction children generalizing lower with
  | nil => simp
  | cons child rest ih =>
      obtain ⟨first, others⟩ := List.pairwise_cons.mp apart
      obtain ⟨⟨_, wide, _⟩, withinRest⟩ := List.forall_mem_cons.mp within
      have inside : ∀ c ∈ rest, child.stop ≤ c.start ∧ c.start < c.stop ∧ c.stop ≤ stop :=
        fun c hc => ⟨first c hc, (withinRest c hc).2⟩
      have later : ∀ gap ∈ collect align stop (Address.ceilTo? child.stop align) rest,
          ∀ c ∈ child :: rest, c.stop ≤ gap.start ∨ gap.stop ≤ c.start := by
        intro gap hgap
        have above := ((collect_ascend pos others inside).within gap hgap).1
        exact List.forall_mem_cons.mpr ⟨.inl above, ih others inside gap hgap⟩
      cases raised : Address.ceilTo? lower align with
      | none =>
          rw [collect_none]
          exact nofun
      | some start =>
          simp only [collect]
          split
          · refine List.forall_mem_cons.mpr ⟨?_, later⟩
            refine List.forall_mem_cons.mpr ⟨.inr (Nat.le_refl _), fun c hc => .inr ?_⟩
            exact Nat.le_trans (Nat.le_of_lt wide) (first c hc)
          · exact later

theorem exists_gap (pos : 0 < align) {a size : Nat} (some : 0 < size) (aligned : a % align = 0)
    (room : a + align ≤ Address.limit) (low : lower ≤ a) (high : a + size ≤ stop)
    (free : ∀ c ∈ children, c.stop ≤ a ∨ a + size ≤ c.start) :
    ∃ gap ∈ collect align stop (Address.ceilTo? lower align) children,
      gap.start ≤ a ∧ a + size ≤ gap.stop := by
  induction children generalizing lower with
  | nil =>
      obtain ⟨start, raised, le⟩ := Address.exists_ceilTo?_le pos low aligned room
      rw [raised, collect, if_pos (by omega)]
      exact ⟨_, List.mem_singleton_self _, le, high⟩
  | cons child rest ih =>
      obtain ⟨first, others⟩ := List.forall_mem_cons.mp free
      obtain ⟨start, raised, le⟩ := Address.exists_ceilTo?_le pos low aligned room
      simp only [raised, collect]
      rcases first with below | above
      · obtain ⟨gap, hgap, inside⟩ := ih below others
        split
        · exact ⟨gap, List.mem_cons_of_mem _ hgap, inside⟩
        · exact ⟨gap, hgap, inside⟩
      · rw [if_pos (by omega)]
        exact ⟨_, List.mem_cons_self, le, above⟩

end GapScan

namespace Demand
variable (r : Demand)

/-- Above an aligned address there is room up to the next, since powers of two divide the limit. -/
theorem add_align_le {a : Nat} (aligned : a % r.align = 0) (inside : a < Address.limit) :
    a + r.align ≤ Address.limit := by
  have divides : r.align ∣ Address.limit := by
    rw [align, Nat.one_shiftLeft]
    exact Address.two_pow_dvd_limit r.alignPow2_lt
  exact Address.add_le_limit divides aligned inside

def places (gap : Span) : List Nat := (List.range (r.placesIn gap)).map (gap.start + · * r.align)

theorem length_places (gap : Span) : (r.places gap).length = r.placesIn gap := by simp [places]

theorem mem_places {gap : Span} (start : gap.start % r.align = 0) {a : Nat} :
    a ∈ r.places gap ↔ a % r.align = 0 ∧ gap.start ≤ a ∧ a + r.size ≤ gap.stop := by
  simp only [places, List.mem_map, List.mem_range]
  constructor
  · rintro ⟨i, hi, rfl⟩
    exact ⟨by rw [Nat.add_mul_mod_self_right, start], Nat.le_add_right _ _, r.place_fits hi⟩
  · rintro ⟨aligned, low, high⟩
    have divides : r.align ∣ a - gap.start :=
      Nat.dvd_sub (Nat.dvd_of_mod_eq_zero aligned) (Nat.dvd_of_mod_eq_zero start)
    refine ⟨(a - gap.start) / r.align, ?_, ?_⟩
    · rw [placesIn, if_neg (by omega)]
      refine Nat.lt_succ_of_le (Nat.div_le_div_right ?_)
      omega
    · rw [Nat.div_mul_cancel divides]
      omega

/-- The index of a place is its position in the row of all places. -/
theorem nthPlace?_eq (index : Nat) (gaps : List Span) :
    r.nthPlace? index gaps = (gaps.flatMap r.places)[index]? := by
  induction gaps generalizing index with
  | nil => rfl
  | cons gap gaps ih =>
      rw [nthPlace?, List.flatMap_cons]
      split
      · next here =>
          rw [List.getElem?_append_left (r.length_places gap ▸ here)]
          simp [places, here]
      · next further =>
          rw [List.getElem?_append_right (by rw [length_places]; omega), r.length_places, ih]

theorem length_flatMap_places (gaps : List Span) :
    (gaps.flatMap r.places).length = (gaps.map r.placesIn).sum := by
  rw [List.length_flatMap]
  congr 1
  exact List.map_congr_left fun gap _ => r.length_places gap

theorem places_ascend {stop lower : Nat} {gaps : List Span}
    (h : GapScan.Ascend r.align stop lower gaps) : (gaps.flatMap r.places).Pairwise (· < ·) := by
  induction h with
  | nil => exact .nil
  | @cons lower gap gaps low aligned _ _ later ih =>
      rw [List.flatMap_cons]
      refine List.pairwise_append.mpr ⟨?_, ih, fun a ha b hb => ?_⟩
      · refine List.pairwise_map.mpr (List.pairwise_lt_range.imp fun {i j} lt => ?_)
        exact Nat.add_lt_add_left (Nat.mul_lt_mul_of_pos_right lt r.align_pos) _
      · obtain ⟨gap', hgap', hb⟩ := List.mem_flatMap.mp hb
        have high := ((r.mem_places aligned).mp ha).2.2
        have above := ((r.mem_places (later.aligned gap' hgap')).mp hb).2.1
        have apart := (later.within gap' hgap').1
        have pos := r.size_pos
        omega

end Demand

theorem Entropy.exists_uniform (entropy : Entropy) (on : entropy.isOn) {n : Nat} (pos : 0 < n) :
    ∃ index, (entropy.uniform n).1 = some index := by
  obtain ⟨k, stream⟩ := Option.isSome_iff_exists.mp on
  simp only [uniform, stream]
  rw [if_neg (Nat.pos_iff_ne_zero.mp pos)]
  exact ⟨_, rfl⟩

/-- Without a guard the first aligned address of a gap is as good as any other. -/
def Mmu.Unguarded {M : Type} [Mmu M] (mmu : M) : Prop :=
  ∀ query, Mmu.propose mmu query = Address.ceilTo? query.start query.align

theorem PageTable.unguarded {t : PageTable} (none : t.guard = 0) : Mmu.Unguarded t := by
  intro query
  show t.propose query = _
  simp [propose, needsGuard, none]

namespace Site
variable {M : Type} {site : Site M} {r : Demand} {a : Nat}

/-- An aligned address of the region with room behind it that no child reaches into. -/
structure Vacant (site : Site M) (r : Demand) (a : Nat) : Prop where
  aligned : a % r.align = 0
  low : site.region.start ≤ a
  high : a + r.size ≤ site.region.stop
  free : ∀ c ∈ site.children, c.extent.stop ≤ a ∨ a + r.size ≤ c.extent.start

theorem Vacant.room (h : site.Vacant r a) : a + r.align ≤ Address.limit := by
  have pos := r.size_pos
  have high := h.high
  have top := site.region.stop_lt_limit
  exact r.add_align_le h.aligned (by omega)

theorem Vacant.gapStart_le (vacant : site.Vacant r a) {below above : List Neighbour}
    (row : site.children = below ++ above) (low : ∀ c ∈ below, c.extent.start < a + r.size) :
    below.getLast?.elim site.region.start (·.extent.stop) ≤ a := by
  cases last : below.getLast? with
  | none => exact vacant.low
  | some child =>
      have member := List.mem_of_getLast? last
      have free := vacant.free child (row ▸ List.mem_append_left _ member)
      exact free.resolve_right (Nat.not_le_of_lt (low child member))

theorem Vacant.gapEnd_ge (vacant : site.Vacant r a) {above : List Neighbour} {start : Nat}
    (under : start ≤ a) (high : ∀ c ∈ above, a + r.size ≤ c.extent.start) :
    ∃ last, site.gapEnd start above.head? = .ok last ∧ a + r.size ≤ last + 1 := by
  have pos := r.size_pos
  cases first : above.head? with
  | none =>
      have inside := vacant.high
      refine ⟨site.region.last, by rw [gapEnd, if_neg (by omega)], ?_⟩
      simp only [Extent.last]
      omega
  | some child =>
      have apart := high child (List.mem_of_head? first)
      refine ⟨child.extent.start - 1, ?_, by omega⟩
      rw [gapEnd, if_neg (by omega), if_neg (by omega)]

variable [Mmu M]

def places (site : Site M) (r : Demand) : List Nat := (site.gaps r).flatMap r.places

theorem Ordered.mem_places (h : site.Ordered) : a ∈ site.places r ↔ site.Vacant r a := by
  have ascend := h.gaps_ascend r
  have apart : (site.children.map (·.extent.toSpan)).Pairwise fun a b => a.stop ≤ b.start :=
    List.pairwise_map.mpr h.apart
  have within : ∀ c ∈ site.children.map (·.extent.toSpan),
      site.region.start ≤ c.start ∧ c.start < c.stop ∧ c.stop ≤ site.region.stop :=
    List.forall_mem_map.mpr fun c hc => ⟨(h.within c hc).1, c.extent.start_lt_stop, (h.within c hc).2⟩
  rw [places, List.mem_flatMap]
  constructor
  · rintro ⟨gap, hgap, ha⟩
    obtain ⟨aligned, above, below⟩ := (r.mem_places (ascend.aligned gap hgap)).mp ha
    obtain ⟨low, _, high⟩ := ascend.within gap hgap
    refine ⟨aligned, Nat.le_trans low above, Nat.le_trans below high, fun c hc => ?_⟩
    have free := GapScan.collect_apart r.align_pos apart within gap hgap _ (List.mem_map_of_mem hc)
    exact free.imp (Nat.le_trans · above) (Nat.le_trans below ·)
  · intro vacant
    have free : ∀ c ∈ site.children.map (·.extent.toSpan), c.stop ≤ a ∨ a + r.size ≤ c.start :=
      List.forall_mem_map.mpr vacant.free
    obtain ⟨gap, hgap, above, below⟩ := GapScan.exists_gap r.align_pos r.size_pos vacant.aligned
      vacant.room vacant.low vacant.high free
    exact ⟨gap, hgap, (r.mem_places (ascend.aligned gap hgap)).mpr ⟨vacant.aligned, above, below⟩⟩

theorem inspect_vacant (plain : Mmu.Unguarded site.mmu) (wide : 1 < r.size)
    (vacant : site.Vacant r a) {below above : List Neighbour} (row : site.children = below ++ above)
    (low : ∀ c ∈ below, c.extent.start < a + r.size) (high : ∀ c ∈ above, a + r.size ≤ c.extent.start) :
    (site.inspect r a below.getLast? above.head?).verdict = .found a := by
  have under := vacant.gapStart_le row low
  obtain ⟨last, gap, room⟩ := vacant.gapEnd_ge under high
  have asked : ∀ query : SpotQuery, query.start = a → query.align = r.align →
      Mmu.propose site.mmu query = some a := by
    intro query start align
    rw [plain, start, align]
    exact Address.ceilTo?_of_aligned r.align_pos vacant.aligned vacant.room
  simp only [inspect, gap]
  rw [if_neg (by omega), Nat.max_eq_right under, inspectGap, asked _ rfl rfl]
  dsimp only
  rw [if_neg (Nat.lt_irrefl a), if_pos (by omega)]

theorem settle_vacant (ordered : site.Ordered) (plain : Mmu.Unguarded site.mmu) (wide : 1 < r.size)
    (vacant : site.Vacant r a) : (site.settle r a).answer = .ok a := by
  have top := site.region.stop_lt_limit
  have inside := vacant.high
  simp only [settle, Address.add, if_pos (show a + (r.size - 1) < Address.limit by omega)]
  obtain ⟨below, above, row, before, behind, low, high⟩ :=
    Index.exists_split (a + (r.size - 1)) ordered.sorted
  have found := inspect_vacant plain wide vacant row
    (fun c hc => by have := low c hc; omega) (fun c hc => by have := high c hc; omega)
  rw [before, behind, found]
  rfl

theorem Ordered.count_places (h : site.Ordered) (r : Demand) :
    r.countPlaces 0 (site.gaps r) = .ok (site.places r).length := by
  have top := site.region.stop_lt_limit
  have few := r.sum_placesIn_le (h.gaps_ascend r)
  rw [r.countPlaces_eq (by omega), Nat.zero_add, places, r.length_flatMap_places]

theorem Ordered.placeNth_eq_settle (ordered : site.Ordered) {index : Nat}
    (small : index < (site.places r).length) (count : Nat) :
    site.placeNth r index count = site.settle r (site.places r)[index] := by
  have vacant : site.Vacant r (site.places r)[index] :=
    ordered.mem_places.mp (List.getElem_mem small)
  have found : r.nthPlace? index (site.gaps r) = some (site.places r)[index] := by
    rw [r.nthPlace?_eq]
    exact List.getElem?_eq_getElem small
  have room := vacant.room
  have pos := r.align_pos
  simp only [placeNth, found]
  rw [if_pos (by omega)]

theorem Ordered.uniform_of_ne_nil (ordered : site.Ordered) (filled : site.places r ≠ [])
    (entropy : Entropy) :
    ∃ index, ∃ _ : index < (site.places r).length,
      (entropy.uniform (site.places r).length).1.getD 0 = index ∧
        site.uniform r entropy = (site.placeNth r index (site.places r).length,
          (entropy.uniform (site.places r).length).2) := by
  have pos : 0 < (site.places r).length := List.length_pos_iff.mpr filled
  refine ⟨_, entropy.uniform_getD_lt pos, rfl, ?_⟩
  simp only [uniform, ordered.count_places r]
  rw [if_neg (Nat.ne_of_gt pos)]

theorem Ordered.placeNth_places (ordered : site.Ordered) (plain : Mmu.Unguarded site.mmu)
    (wide : 1 < r.size) {index : Nat} (small : index < (site.places r).length) (count : Nat) :
    (site.placeNth r index count).answer = .ok (site.places r)[index] := by
  rw [ordered.placeNth_eq_settle small]
  exact settle_vacant ordered plain wide (ordered.mem_places.mp (List.getElem_mem small))

/-- Drawing a place is choosing among all vacant places by their number. -/
structure Draws (site : Site M) (r : Demand) (places : List Nat) : Prop where
  /-- The row of places holds each vacant place once. -/
  ascending : places.Pairwise (· < ·)
  vacant : ∀ a, a ∈ places ↔ site.Vacant r a
  count : r.countPlaces 0 (site.gaps r) = .ok places.length
  /-- Where there is none, nothing is drawn. -/
  none : places = [] → ∀ entropy : Entropy, entropy.isOn →
    site.choose r false entropy = (.fail Error.noMemory, entropy)
  /-- A number is drawn below the count of places, and its place is the answer. -/
  drawn : places ≠ [] → ∀ entropy : Entropy, entropy.isOn → ∃ index, ∃ small : index < places.length,
    (entropy.uniform places.length).1 = some index ∧
      (site.choose r false entropy).1.answer = .ok places[index] ∧
      (site.choose r false entropy).2 = (entropy.uniform places.length).2
  /-- Whatever number is drawn, its place is the answer. -/
  nth : ∀ index, ∀ small : index < places.length,
    (site.placeNth r index places.length).answer = .ok places[index]
  /-- Each vacant place is the answer to one number. -/
  once : ∀ a, site.Vacant r a →
    ∃! index, index < places.length ∧ (site.placeNth r index places.length).answer = .ok a

theorem uniform_draws (ordered : site.Ordered) (plain : Mmu.Unguarded site.mmu)
    (whole : r.size % pageSize = 0) : site.Draws r (site.places r) := by
  have wide : 1 < r.size := by
    have pos := r.size_pos
    simp only [pageSize] at whole
    omega
  have counted := ordered.count_places r
  have ascending : (site.places r).Pairwise (· < ·) := r.places_ascend (ordered.gaps_ascend r)
  have nth := fun index (small : index < (site.places r).length) =>
    ordered.placeNth_places plain wide small (site.places r).length
  refine ⟨ascending, fun a => ordered.mem_places, counted, ?none, ?drawn, nth, ?once⟩
  case none =>
    intro empty entropy on
    rw [empty] at counted
    simp [choose, byPolicy, on, uniform, counted, Search.fail]
  case drawn =>
    intro filled entropy on
    have pos : 0 < (site.places r).length := List.length_pos_iff.mpr filled
    obtain ⟨index, number⟩ := entropy.exists_uniform on pos
    have small : index < (site.places r).length := by
      have below := entropy.uniform_getD_lt pos
      rwa [number] at below
    have answer := nth index small
    refine ⟨index, small, number, ?_⟩
    simp [choose, byPolicy, on, uniform, counted, Nat.ne_of_gt pos, number, answer]
  case once =>
    intro a vacant
    obtain ⟨index, small, rfl⟩ := List.getElem_of_mem (ordered.mem_places.mpr vacant)
    refine ⟨index, ⟨small, nth index small⟩, ?_⟩
    rintro other ⟨less, answer⟩
    rw [nth other less, Except.ok.injEq] at answer
    have nodup : (site.places r).Nodup := ascending.imp Nat.ne_of_lt
    exact nodup.getElem_inj_iff.mp answer

/-- One place below a child and two above it. -/
theorem uniform_draws_three :
    Draws (⟨PageTable.empty, ⟨⟨0x1000, 0x5000⟩, by decide, by decide⟩,
        [⟨⟨⟨0x2000, 0x3000⟩, by decide, by decide⟩, none⟩]⟩ : Site PageTable)
      ⟨0x1000, 12, none, by decide, by decide, by decide⟩ [0x1000, 0x3000, 0x4000] :=
  uniform_draws ⟨List.pairwise_singleton _ _, by decide⟩ (PageTable.unguarded rfl) (by decide)

end Site
end RegionTree
