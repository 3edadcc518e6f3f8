import Mathlib.Order.Bounds.Defs
import RegionTree.Proofs.Guard
import RegionTree.Proofs.UniformPlacement

/-! First fit beside a page table: the answer is the least of all places that keep to the guard, and the
search fails only where there is none. -/
namespace RegionTree

theorem PageTable.exists_propose_le {t : PageTable} {query : SpotQuery} {a : Nat} (pos : 0 < query.align)
    (start : query.start ≤ a) (aligned : a % query.align = 0) (room : a + query.align ≤ Address.limit)
    (small : query.last < Address.limit)
    (low : t.needsGuard query.access query.before → query.start + t.guard ≤ a)
    (high : t.needsGuard query.access query.after → a + (query.size - 1) + t.guard ≤ query.last) :
    ∃ spot, t.propose query = some spot ∧ spot ≤ a := by
  have accepted : ∀ spot ≤ a, (if t.needsGuard query.access query.after then
      (Address.add? spot (query.size - 1)).bind fun last =>
        (Address.add? last t.guard).bind fun last => if query.last < last then none else some spot
      else some spot) = some spot := by
    intro spot le
    split
    · next needed =>
        have fits := high needed
        have last : Address.add? spot (query.size - 1) = some (spot + (query.size - 1)) :=
          if_pos (by omega)
        have kept : Address.add? (spot + (query.size - 1)) t.guard =
            some (spot + (query.size - 1) + t.guard) := if_pos (by omega)
        rw [last, Option.bind_some, kept, Option.bind_some, if_neg (by omega)]
    · rfl
  simp only [propose, Option.bind_eq_bind]
  split
  · next needed =>
      have under := low needed
      have moved : Address.add? query.start t.guard = some (query.start + t.guard) :=
        if_pos (by omega)
      obtain ⟨spot, raised, le⟩ := Address.exists_ceilTo?_le pos under aligned room
      rw [moved, Option.bind_some, raised, Option.bind_some]
      exact ⟨spot, accepted spot le, le⟩
  · obtain ⟨spot, raised, le⟩ := Address.exists_ceilTo?_le pos start aligned room
    rw [Option.bind_some, raised, Option.bind_some]
    exact ⟨spot, accepted spot le, le⟩

theorem PageTable.start_le_of_propose {t : PageTable} {query : SpotQuery} {spot : Nat}
    (picked : t.propose query = some spot) (pos : 0 < query.align) : query.start ≤ spot := by
  obtain ⟨start, raised, low, _⟩ := propose_eq_some picked
  exact Nat.le_trans low (Address.le_of_ceilTo? raised pos)

namespace Site
variable {site : Site PageTable} {r : Demand} {a spot floor : Nat} {below above : List Neighbour}

/-- A vacant place that leaves the guard free beside its unlike neighbours. -/
structure Admissible (site : Site PageTable) (r : Demand) (a : Nat) : Prop
    extends site.Vacant r a, site.Guarded r a

theorem Seen.admissible (ordered : site.Ordered) (seen : site.Seen r spot) : site.Admissible r spot := by
  have suits := seen.suits ordered
  obtain ⟨query, align, picked⟩ := suits.picked
  obtain ⟨_, raised, _⟩ := PageTable.propose_eq_some picked
  have aligned : spot % r.align = 0 := align ▸ Address.mod_of_ceilTo? raised
  exact ⟨⟨aligned, suits.low, suits.high, suits.free⟩, seen.guarded ordered⟩

/-- An admissible place no lower than a floor, where a guard that is needed below is kept from the floor as
well. -/
structure AdmissibleFrom (site : Site PageTable) (r : Demand) (floor a : Nat) : Prop
    extends site.Admissible r a where
  floor_le : floor ≤ a
  clear : ∀ c ∈ site.children, c.extent.stop ≤ a →
    (∀ d ∈ site.children, d.extent.stop ≤ a → d.extent.stop ≤ c.extent.stop) →
      c.access.isSome → c.access ≠ r.access → floor + site.mmu.guard ≤ a

theorem Admissible.fromMinimum (h : site.Admissible r a) : site.AdmissibleFrom r Address.minimum a where
  toAdmissible := h
  floor_le := Nat.zero_le a
  clear c hc ended nearest isMapping unlike := by
    have := h.below c hc ended nearest isMapping unlike
    simp only [Address.minimum]
    omega

/-- Behind the first byte of a place its gap goes on. A gap of a single byte is never looked at. -/
structure Roomy (site : Site PageTable) (a : Nat) : Prop where
  high : a + 1 < site.region.stop
  free : ∀ c ∈ site.children, c.extent.stop ≤ a ∨ a + 1 < c.extent.start

theorem Vacant.roomy (h : site.Vacant r a) (wide : 1 < r.size) : site.Roomy a where
  high := by
    have := h.high
    omega
  free c hc := (h.free c hc).imp_right fun _ => by omega

theorem Roomy.lt_gapEnd (h : site.Roomy a) (row : site.children = below ++ above)
    (later : ∀ c ∈ above, a < c.extent.start) {start last : Nat}
    (gap : site.gapEnd start above.head? = .ok last) : a < last := by
  have high := h.high
  cases first : above.head? with
  | none =>
      rw [first, gapEnd] at gap
      split at gap
      · cases gap
      · cases gap
        simp only [Extent.last]
        omega
  | some child =>
      have member := List.mem_of_mem_head? first
      have behind := later child member
      have free := h.free child (row ▸ List.mem_append_right _ member)
      have := child.extent.start_lt_stop
      rw [first, gapEnd] at gap
      split at gap
      · cases gap
      · split at gap
        · cases gap
        · cases gap
          omega

theorem inspect_roomy (ordered : site.Ordered) (row : site.children = below ++ above)
    (found : (site.inspect r floor below.getLast? above.head?).verdict = .found spot) : site.Roomy spot := by
  obtain ⟨last, gap, _, low, small, _⟩ := inspect_found_from found
  obtain ⟨top, higher⟩ := ordered.gapEnd_lt row gap
  have ended := (ordered.stop_le_gapStart row).2
  refine ⟨by omega, ?_⟩
  rw [row]
  refine List.forall_mem_append.mpr ⟨fun c hc => .inl ?_, fun c hc => .inr ?_⟩
  · have := ended c hc
    omega
  · have := higher c hc
    omega

theorem inspect_admissibleFrom (ordered : site.Ordered) (row : site.children = below ++ above)
    (found : (site.inspect r floor below.getLast? above.head?).verdict = .found spot) :
    site.AdmissibleFrom r floor spot := by
  have admissible : site.Admissible r spot := Seen.admissible ordered ⟨_, _, _, row, found⟩
  obtain ⟨last, gap, picked, low, _, high⟩ := inspect_found_from found
  have pos := r.size_pos
  have later := (ordered.gapEnd_lt row gap).2
  refine ⟨admissible, by omega, fun c hc ended nearest isMapping unlike => ?_⟩
  have nearer := ordered.getLast?_of_nearest row
    (fun d hd => by have := (ordered.stop_le_gapStart row).2 d hd; omega)
    (fun d hd => by have := later d hd; omega) hc ended nearest
  obtain ⟨start, rounded, _, keeps, _⟩ := PageTable.propose_eq_some picked
  have raised : start ≤ spot := Address.le_of_ceilTo? rounded r.align_pos
  rcases Nat.eq_zero_or_pos site.mmu.guard with none | guarded
  · omega
  · rw [nearer] at keeps
    have := keeps (PageTable.needsGuard_iff.mpr ⟨guarded, isMapping, unlike⟩)
    dsimp only at this
    omega

theorem Admissible.guard_above (h : site.Admissible r a) (ordered : site.Ordered)
    (row : site.children = below ++ above) (ended : ∀ c ∈ below, c.extent.stop ≤ a)
    (later : ∀ c ∈ above, a + r.size ≤ c.extent.start) {start last : Nat}
    (gap : site.gapEnd start above.head? = .ok last)
    (needed : site.mmu.needsGuard r.access (above.head?.bind (·.access))) :
    a + (r.size - 1) + site.mmu.guard ≤ last := by
  obtain ⟨_, isMapping, unlike⟩ := PageTable.needsGuard_iff.mp needed
  have pos := r.size_pos
  cases first : above.head? with
  | none => simp [first] at isMapping
  | some child =>
      rw [first] at isMapping unlike
      obtain ⟨rest, rfl⟩ := List.head?_eq_some_iff.mp first
      have order := ordered.sorted
      rw [row] at order
      have least := (List.pairwise_cons.mp (List.pairwise_append.mp order).2.1).1
      have far := h.toGuarded.above child (row ▸ List.mem_append_right _ List.mem_cons_self)
        (later child List.mem_cons_self) ?nearest isMapping unlike
      case nearest =>
        intro d hd overlaps
        rw [row] at hd
        rcases List.mem_append.mp hd with before | behind
        · have := ended d before
          have := d.extent.start_lt_stop
          omega
        · rcases List.mem_cons.mp behind with rfl | further
          · exact Nat.le_refl _
          · exact Nat.le_of_lt (least d further)
      rw [List.head?_cons, gapEnd] at gap
      split at gap
      · cases gap
      · split at gap
        · cases gap
        · cases gap
          omega

namespace AdmissibleFrom

theorem guard_below (h : site.AdmissibleFrom r floor a) (ordered : site.Ordered)
    (row : site.children = below ++ above) (ended : ∀ c ∈ below, c.extent.stop ≤ a)
    (later : ∀ c ∈ above, a + r.size ≤ c.extent.start)
    (needed : site.mmu.needsGuard r.access (below.getLast?.bind (·.access))) :
    max (below.getLast?.elim site.region.start (·.extent.stop)) floor + site.mmu.guard ≤ a := by
  obtain ⟨_, isMapping, unlike⟩ := PageTable.needsGuard_iff.mp needed
  cases last : below.getLast? with
  | none => simp [last] at isMapping
  | some child =>
      rw [last] at isMapping unlike
      have highest := (ordered.stop_le_gapStart row).2
      rw [last] at highest
      have member := List.mem_of_getLast? last
      have inRow : child ∈ site.children := row ▸ List.mem_append_left _ member
      have nearest : ∀ d ∈ site.children, d.extent.stop ≤ a → d.extent.stop ≤ child.extent.stop := by
        intro d hd under
        rw [row] at hd
        refine highest d ((List.mem_append.mp hd).resolve_right fun beyond => ?_)
        have := later d beyond
        have := d.extent.start_lt_stop
        omega
      have fromChild := h.below child inRow (ended child member) nearest isMapping unlike
      have fromFloor := h.clear child inRow (ended child member) nearest isMapping unlike
      rw [Option.elim_some]
      omega

/-- A look from the floor at the gap of an admissible place finds that place or a lower one. -/
theorem exists_inspect_le (h : site.AdmissibleFrom r floor a) (ordered : site.Ordered) (roomy : site.Roomy a)
    (row : site.children = below ++ above) (ended : ∀ c ∈ below, c.extent.stop ≤ a)
    (later : ∀ c ∈ above, a + r.size ≤ c.extent.start) :
    ∃ spot, (site.inspect r floor below.getLast? above.head?).verdict = .found spot ∧ spot ≤ a := by
  have higher := h.floor_le
  have under := h.toVacant.gapStart_le row fun c hc => by
    have := ended c hc
    have := c.extent.start_lt_stop
    omega
  obtain ⟨last, gap, fits⟩ := h.toVacant.gapEnd_ge under later
  have top := site.region.stop_lt_limit
  obtain ⟨inside, _⟩ := ordered.gapEnd_lt row gap
  have guarded := h.guard_below ordered row ended later
  have guarded' := h.toAdmissible.guard_above ordered row ended later gap
  have small := roomy.lt_gapEnd row (fun c hc => by have := later c hc; have := r.size_pos; omega) gap
  obtain ⟨spot, picked, le⟩ : ∃ spot, Mmu.propose site.mmu
      ⟨max (below.getLast?.elim site.region.start (·.extent.stop)) floor, below.getLast?.bind (·.access),
        last, above.head?.bind (·.access), r.align, r.size, r.access⟩ = some spot ∧ spot ≤ a :=
    PageTable.exists_propose_le r.align_pos (Nat.max_le.mpr ⟨under, higher⟩) h.aligned h.toVacant.room
      (Nat.lt_of_lt_of_le (Nat.lt_succ_self last) (Nat.le_trans inside (Nat.le_of_lt top))) guarded guarded'
  have raised := PageTable.start_le_of_propose picked r.align_pos
  refine ⟨spot, ?_, le⟩
  simp only [inspect, gap]
  rw [if_neg (by omega), inspectGap]
  simp only [picked]
  rw [if_neg (Nat.not_lt_of_le raised), if_pos (by omega)]

end AdmissibleFrom

theorem Ordered.gapStart_le_start (ordered : site.Ordered) {child : Neighbour} {rest : List Neighbour}
    (row : site.children = below ++ child :: rest) :
    below.getLast?.elim site.region.start (·.extent.stop) ≤ child.extent.start := by
  obtain ⟨apart, within⟩ := ordered
  rw [row] at apart within
  cases last : below.getLast? with
  | none => exact (within child (by simp)).1
  | some p => exact (List.pairwise_append.mp apart).2.2 p (List.mem_of_getLast? last) child (by simp)

theorem Ordered.inspect_ne_halt (ordered : site.Ordered) {child : Neighbour} {rest : List Neighbour}
    (row : site.children = below ++ child :: rest) :
    (site.inspect r floor below.getLast? (some child)).verdict ≠ .halt := by
  intro halted
  have under := ordered.gapStart_le_start row
  simp only [inspect] at halted
  split at halted
  · next verdict gap =>
      rw [show verdict = .halt from halted, gapEnd] at gap
      split at gap
      · cases gap
      · split at gap
        · omega
        · cases gap
  · split at halted
    · cases halted
    · simp only [inspectGap] at halted
      split at halted
      · cases halted
      · next spot picked =>
          have raised := PageTable.start_le_of_propose picked r.align_pos
          rw [if_neg (Nat.not_lt_of_le raised)] at halted
          split at halted <;> cases halted

/-- The search finds no place above one that is admissible from its floor on. -/
theorem AdmissibleFrom.exists_lowestAfter_le (h : site.AdmissibleFrom r floor a) (ordered : site.Ordered)
    (roomy : site.Roomy a) (row : site.children = below ++ above)
    (ended : ∀ c ∈ below, c.extent.stop ≤ a) :
    ∃ spot, (site.lowestAfter r floor below.getLast? above).answer = .ok spot ∧ spot ≤ a := by
  induction above generalizing below with
  | nil =>
      obtain ⟨spot, found, le⟩ := h.exists_inspect_le ordered roomy row ended nofun
      rw [List.head?_nil] at found
      refine ⟨spot, ?_, le⟩
      simp only [lowestAfter, found]
      rfl
  | cons child rest ih =>
      have order := ordered.sorted
      rw [row] at order
      obtain ⟨least, _⟩ := List.pairwise_cons.mp (List.pairwise_append.mp order).2.1
      rcases h.free child (row ▸ List.mem_append_right _ List.mem_cons_self) with before | behind
      · have next : site.children = (below ++ [child]) ++ rest := by rw [row, List.append_assoc]; rfl
        obtain ⟨spot, found, le⟩ := ih next
          (List.forall_mem_append.mpr ⟨ended, List.forall_mem_singleton.mpr before⟩)
        rw [List.getLast?_concat] at found
        simp only [lowestAfter]
        split
        · next here look =>
            obtain ⟨_, last, _, gap, _, _, high⟩ := inspect_found look
            have lower := (ordered.gapEnd_lt row gap).2 child List.mem_cons_self
            have := child.extent.start_lt_stop
            exact ⟨here, rfl, by omega⟩
        · next look => exact absurd look (ordered.inspect_ne_halt row)
        · exact ⟨spot, found, le⟩
      · obtain ⟨spot, found, le⟩ := h.exists_inspect_le ordered roomy row ended
          (List.forall_mem_cons.mpr ⟨behind, fun c hc => by have := least c hc; omega⟩)
        rw [List.head?_cons] at found
        refine ⟨spot, ?_, le⟩
        simp only [lowestAfter, found]
        rfl

theorem Admissible.exists_lowestAfter_le (h : site.Admissible r a) (ordered : site.Ordered)
    (wide : 1 < r.size) (row : site.children = below ++ above)
    (ended : ∀ c ∈ below, c.extent.stop ≤ a) :
    ∃ spot, (site.lowestAfter r Address.minimum below.getLast? above).answer = .ok spot ∧ spot ≤ a :=
  h.fromMinimum.exists_lowestAfter_le ordered (h.toVacant.roomy wide) row ended

/-- First fit answers the least admissible place, and is out of memory only where there is none. -/
theorem firstFit_isLeast (ordered : site.Ordered) (whole : r.size % pageSize = 0) :
    (∀ a, (site.firstFit r).answer = .ok a ↔ IsLeast {a | site.Admissible r a} a) ∧
      ((site.firstFit r).answer = .error Error.noMemory ↔ ∀ a, ¬ site.Admissible r a) := by
  have wide : 1 < r.size := by
    have pos := r.size_pos
    simp only [pageSize] at whole
    omega
  have sound : ∀ a, (site.firstFit r).answer = .ok a → site.Admissible r a :=
    fun a found => (lowestFrom_seen found).admissible ordered
  have complete : ∀ a, site.Admissible r a → ∃ spot, (site.firstFit r).answer = .ok spot ∧ spot ≤ a :=
    fun a admissible => admissible.exists_lowestAfter_le ordered wide (List.nil_append _).symm (List.forall_mem_nil _)
  constructor
  · intro a
    constructor
    · intro found
      refine ⟨sound a found, fun b admissible => ?_⟩
      obtain ⟨spot, found', le⟩ := complete b admissible
      cases found.symm.trans found'
      exact le
    · rintro ⟨admissible, least⟩
      obtain ⟨spot, found, le⟩ := complete a admissible
      rwa [Nat.le_antisymm le (least (sound spot found))] at found
  · constructor
    · intro failed a admissible
      obtain ⟨spot, found, _⟩ := complete a admissible
      cases failed.symm.trans found
    · intro none
      cases answer : (site.firstFit r).answer with
      | ok a => exact absurd (sound a answer) (none a)
      | error f => rw [lowestAfter_error answer]

/-- Behind a mapping a page stays free before a new region, in front of a region none. -/
theorem firstFit_isLeast_between :
    IsLeast {a | Admissible (⟨⟨0x1000, false, []⟩, ⟨⟨0x1000, 0x8000⟩, by decide, by decide⟩,
        [⟨⟨⟨0x1000, 0x2000⟩, by decide, by decide⟩, some PageFlags.read⟩,
          ⟨⟨⟨0x4000, 0x5000⟩, by decide, by decide⟩, none⟩]⟩ : Site PageTable)
      ⟨0x1000, 12, none, by decide, by decide, by decide⟩ a} 0x3000 :=
  ((firstFit_isLeast ⟨by simp, by decide⟩ (by decide)).1 0x3000).mp (by decide +kernel)

end Site
end RegionTree
