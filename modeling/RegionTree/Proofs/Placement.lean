import RegionTree.Mmu.PageTable
import RegionTree.Placement
import RegionTree.Proofs.Alignment
import RegionTree.Proofs.Nesting

/-! A place that a search answers is free and inside the region, whichever policy chose it. -/
namespace RegionTree

/-- The mmu keeps to the alignment of a query. -/
def Mmu.PicksPages (M : Type) [Mmu M] : Prop :=
  ∀ (m : M) (query : SpotQuery) (spot : Nat), query.align % pageSize = 0 →
    Mmu.propose m query = some spot → spot % pageSize = 0

/-- A spot is the first aligned address of the gap, behind the guard if there has to be one, and leaves
room for the guard at its other end. -/
theorem PageTable.propose_eq_some {t : PageTable} {query : SpotQuery} {spot : Nat}
    (picked : t.propose query = some spot) :
    ∃ start, Address.ceilTo? start query.align = some spot ∧ query.start ≤ start ∧
      (t.needsGuard query.access query.before → start = query.start + t.guard) ∧
      (t.needsGuard query.access query.after → spot + (query.size - 1) + t.guard ≤ query.last) := by
  simp only [propose, Option.bind_eq_bind] at picked
  split at picked
  all_goals
    next unlike =>
      obtain ⟨start, low, picked⟩ := Option.bind_eq_some_iff.mp picked
      obtain ⟨up, rounded, picked⟩ := Option.bind_eq_some_iff.mp picked
      have low : query.start ≤ start ∧
          (t.needsGuard query.access query.before → start = query.start + t.guard) := by
        first
          | cases (Option.ite_none_right_eq_some.mp low).2
            exact ⟨Nat.le_add_right _ _, fun _ => rfl⟩
          | cases low
            exact ⟨Nat.le_refl _, fun needed => absurd needed unlike⟩
      split at picked
      · obtain ⟨last, sum, picked⟩ := Option.bind_eq_some_iff.mp picked
        obtain ⟨last', sum', picked⟩ := Option.bind_eq_some_iff.mp picked
        obtain ⟨fits, picked⟩ := Option.ite_none_left_eq_some.mp picked
        cases picked
        cases (Option.ite_none_right_eq_some.mp sum).2
        cases (Option.ite_none_right_eq_some.mp sum').2
        exact ⟨start, rounded, low.1, low.2, fun _ => Nat.le_of_not_lt fits⟩
      · next alike =>
          cases picked
          exact ⟨start, rounded, low.1, low.2, fun needed => absurd needed alike⟩

theorem Mmu.PicksPages.pageTable : PicksPages PageTable := by
  intro t query spot paged picked
  obtain ⟨start, rounded, _⟩ := PageTable.propose_eq_some picked
  exact Address.paged_of_ceilTo? rounded paged

def Label.site {M : Type} (l : Label) (mmu : M) (children : Forest) : Site M :=
  ⟨mmu, l.extent, children.map fun n => ⟨n.extent, n.access?⟩⟩

theorem Demand.of?_eq_some {size alignPow2 : Nat} {access : Option PageFlags} {r : Demand}
    (h : of? size alignPow2 access = some r) :
    r.size = size ∧ r.align = 1 <<< max alignPow2 pageShift ∧ r.access = access := by
  simp only [of?] at h
  split at h
  · cases h
    exact ⟨rfl, rfl, rfl⟩
  · cases h

theorem Demand.alignPow2_of? {size alignPow2 : Nat} {access : Option PageFlags} {r : Demand}
    (h : of? size alignPow2 access = some r) : r.alignPow2 = max alignPow2 pageShift := by
  simp only [of?] at h
  split at h <;> cases h
  rfl

theorem Demand.align_paged (r : Demand) : r.align % pageSize = 0 := by
  rw [align, Nat.one_shiftLeft]
  exact Nat.mod_eq_zero_of_dvd (Nat.pow_dvd_pow 2 r.pageShift_le)

theorem Demand.align_pos (r : Demand) : 0 < r.align := by
  rw [align, Nat.one_shiftLeft]
  exact Nat.two_pow_pos _

namespace Site
variable {M : Type}

/-- The children stand in ascending order, apart from each other and inside the region. -/
structure Ordered (site : Site M) : Prop where
  apart : site.children.Pairwise fun a b => a.extent.stop ≤ b.extent.start
  within : ∀ c ∈ site.children, site.region.start ≤ c.extent.start ∧ c.extent.stop ≤ site.region.stop

theorem ordered_of_lined {l : Label} {children : Forest} (lined : Forest.Lined l.extent children)
    (mmu : M) : (l.site mmu children).Ordered :=
  ⟨List.pairwise_map.mpr lined.apart, List.forall_mem_map.mpr lined.within⟩

theorem Ordered.sorted {site : Site M} (h : site.Ordered) :
    site.children.Pairwise fun a b => a.extent.start < b.extent.start :=
  h.apart.imp fun {a _} le => Nat.lt_of_lt_of_le a.extent.start_lt_stop le

theorem Ordered.stop_le_gapStart {site : Site M} (h : site.Ordered) {below above : List Neighbour}
    (row : site.children = below ++ above) :
    site.region.start ≤ below.getLast?.elim site.region.start (·.extent.stop) ∧
      ∀ c ∈ below, c.extent.stop ≤ below.getLast?.elim site.region.start (·.extent.stop) := by
  obtain ⟨apart, within⟩ := h
  rw [row] at apart within
  cases last : below.getLast? with
  | none => simp [List.getLast?_eq_none_iff.mp last]
  | some p =>
      obtain ⟨rest, rfl⟩ := List.getLast?_eq_some_iff.mp last
      have order := (List.pairwise_append.mp (List.pairwise_append.mp apart).1).2.2
      have inside := within p (by simp)
      refine ⟨Nat.le_trans inside.1 (Nat.le_of_lt p.extent.start_lt_stop), ?_⟩
      intro c hc
      rcases List.mem_append.mp hc with earlier | here
      · exact Nat.le_trans (order c earlier p (by simp)) (Nat.le_of_lt p.extent.start_lt_stop)
      · exact List.mem_singleton.mp here ▸ Nat.le_refl _

theorem Ordered.gapEnd_lt {site : Site M} (h : site.Ordered) {below above : List Neighbour}
    (row : site.children = below ++ above) {start last : Nat}
    (gap : site.gapEnd start above.head? = .ok last) :
    last + 1 ≤ site.region.stop ∧ ∀ c ∈ above, last + 1 ≤ c.extent.start := by
  obtain ⟨apart, within⟩ := h
  rw [row] at apart within
  cases first : above.head? with
  | none =>
      rw [first, gapEnd] at gap
      split at gap
      · cases gap
      · cases gap
        have := site.region.start_lt_stop
        refine ⟨?_, by simp [List.head?_eq_none_iff.mp first]⟩
        simp only [Extent.last]
        omega
  | some next =>
      obtain ⟨rest, rfl⟩ := List.head?_eq_some_iff.mp first
      obtain ⟨order, _⟩ := List.pairwise_cons.mp (List.pairwise_append.mp apart).2.1
      have inside := within next (by simp)
      have wide := next.extent.start_lt_stop
      rw [first, gapEnd] at gap
      split at gap
      · cases gap
      · split at gap
        · cases gap
        · cases gap
          refine ⟨by omega, List.forall_mem_cons.mpr ⟨by omega, fun c hc => ?_⟩⟩
          have := order c hc
          omega

theorem gapEnd_ne_found (site : Site M) (start : Nat) (after : Option Neighbour) (spot : Nat) :
    site.gapEnd start after ≠ .error (.found spot) := by
  cases after with
  | none =>
      rw [gapEnd]
      split <;> simp
  | some child =>
      rw [gapEnd]
      split
      · simp
      · split <;> simp

variable [Mmu M]

/-- A place that the mmu picked, inside the region and apart from all children. -/
structure Suits (site : Site M) (r : Demand) (spot : Nat) : Prop where
  picked : ∃ query, query.align = r.align ∧ Mmu.propose site.mmu query = some spot
  low : site.region.start ≤ spot
  high : spot + r.size ≤ site.region.stop
  free : ∀ c ∈ site.children, c.extent.stop ≤ spot ∨ spot + r.size ≤ c.extent.start

theorem inspect_found_from {site : Site M} {r : Demand} {floor spot : Nat} {before after : Option Neighbour}
    (found : (site.inspect r floor before after).verdict = .found spot) :
    ∃ last, site.gapEnd (before.elim site.region.start (·.extent.stop)) after = .ok last ∧
      Mmu.propose site.mmu ⟨max (before.elim site.region.start (·.extent.stop)) floor,
        before.bind (·.access), last, after.bind (·.access), r.align, r.size, r.access⟩ = some spot ∧
      max (before.elim site.region.start (·.extent.stop)) floor ≤ spot ∧ spot < last ∧
        spot + r.size ≤ last + 1 := by
  have pos := r.size_pos
  simp only [inspect] at found
  split at found
  · next verdict gap =>
      rw [show verdict = .found spot from found] at gap
      exact absurd gap (site.gapEnd_ne_found _ _ _)
  · next last gap =>
      split at found
      · cases found
      · simp only [inspectGap] at found
        split at found
        · cases found
        · next picked =>
            split at found
            · cases found
            · next low =>
                split at found
                · next fits =>
                    cases found
                    exact ⟨last, gap, picked, Nat.le_of_not_lt low, fits.1, by omega⟩
                · cases found

theorem inspect_found {site : Site M} {r : Demand} {floor spot : Nat} {before after : Option Neighbour}
    (found : (site.inspect r floor before after).verdict = .found spot) :
    ∃ start last, before.elim site.region.start (·.extent.stop) ≤ start ∧
      site.gapEnd (before.elim site.region.start (·.extent.stop)) after = .ok last ∧
      Mmu.propose site.mmu ⟨start, before.bind (·.access), last, after.bind (·.access), r.align, r.size,
        r.access⟩ = some spot ∧ start ≤ spot ∧ spot + r.size ≤ last + 1 := by
  obtain ⟨last, gap, picked, low, _, high⟩ := inspect_found_from found
  exact ⟨_, last, Nat.le_max_left .., gap, picked, low, high⟩

theorem inspect_suits {site : Site M} (ordered : site.Ordered) {r : Demand} {floor spot : Nat}
    {below above : List Neighbour} (row : site.children = below ++ above)
    (found : (site.inspect r floor below.getLast? above.head?).verdict = .found spot) :
    site.Suits r spot := by
  obtain ⟨startsInside, startsHigh⟩ := ordered.stop_le_gapStart row
  obtain ⟨start, last, behind, gap, picked, low, high⟩ := inspect_found found
  obtain ⟨top, higher⟩ := ordered.gapEnd_lt row gap
  refine ⟨⟨_, rfl, picked⟩, by omega, by omega, ?_⟩
  rw [row]
  refine List.forall_mem_append.mpr ⟨fun c hc => .inl ?_, fun c hc => .inr ?_⟩
  · have := startsHigh c hc
    omega
  · have := higher c hc
    omega

/-- A look between two neighbours of the row has found the place. -/
def Seen (site : Site M) (r : Demand) (spot : Nat) : Prop :=
  ∃ floor below above, site.children = below ++ above ∧
    (site.inspect r floor below.getLast? above.head?).verdict = .found spot

theorem Seen.suits {site : Site M} (ordered : site.Ordered) {r : Demand} {spot : Nat}
    (seen : site.Seen r spot) : site.Suits r spot := by
  obtain ⟨_, _, _, row, found⟩ := seen
  exact inspect_suits ordered row found

/-- What a search answers, a look from its floor has found: the neighbours are the last of some children and
the first of those that follow. -/
theorem exists_look_of_lowestAfter {site : Site M} {r : Demand} {floor spot : Nat}
    {below above : List Neighbour} (row : site.children = below ++ above)
    (found : (site.lowestAfter r floor below.getLast? above).answer = .ok spot) :
    ∃ below above, site.children = below ++ above ∧
      (site.inspect r floor below.getLast? above.head?).verdict = .found spot := by
  induction above generalizing below with
  | nil =>
      simp only [lowestAfter] at found
      split at found
      · next look => cases found; exact ⟨_, _, row, look⟩
      · cases found
  | cons child rest ih =>
      simp only [lowestAfter] at found
      split at found
      · next look => cases found; exact ⟨_, _, row, look⟩
      · cases found
      · have row : site.children = (below ++ [child]) ++ rest := by rw [row, List.append_assoc]; rfl
        refine ih row ?_
        rw [List.getLast?_concat]
        exact found

theorem lowestAfter_seen {site : Site M} {r : Demand} {floor spot : Nat}
    {below above : List Neighbour} (row : site.children = below ++ above)
    (found : (site.lowestAfter r floor below.getLast? above).answer = .ok spot) :
    site.Seen r spot :=
  ⟨floor, exists_look_of_lowestAfter row found⟩

theorem lowestFrom_seen {site : Site M} {r : Demand} {floor spot : Nat}
    (found : (site.lowestFrom r floor).answer = .ok spot) : site.Seen r spot :=
  lowestAfter_seen (List.nil_append _).symm found

theorem settle_seen {site : Site M} (ordered : site.Ordered) {r : Demand} {drawn spot : Nat}
    (found : (site.settle r drawn).answer = .ok spot) : site.Seen r spot := by
  simp only [settle] at found
  split at found
  · cases found
  · next last _ =>
      obtain ⟨below, above, row, before, behind, _, _⟩ := Index.exists_split last ordered.sorted
      rw [before, behind] at found
      split at found
      · next look => cases found; exact ⟨_, _, _, row, look⟩
      · simp only [Search.after, Search.orElse] at found
        split at found
        · exact lowestFrom_seen found
        · exact lowestFrom_seen found

theorem uniform_seen {site : Site M} (ordered : site.Ordered) {r : Demand} {entropy : Entropy}
    {spot : Nat} (found : (site.uniform r entropy).1.answer = .ok spot) : site.Seen r spot := by
  simp only [uniform] at found
  split at found
  · cases found
  · split at found
    · cases found
    · simp only [placeNth] at found
      split at found
      · cases found
      · split at found
        · exact settle_seen ordered found
        · cases found

theorem inspectSide_seen {site : Site M} {r : Demand} {first last : Neighbour}
    (head : site.children.head? = some first) (top : site.children.getLast? = some last) {side : Side}
    {pages spot : Nat} (found : (site.inspectSide r first last side pages).verdict = .found spot) :
    site.Seen r spot := by
  cases side with
  | below =>
      simp only [inspectSide] at found
      split at found
      · cases found
      · rw [← head] at found
        exact ⟨_, [], _, (List.nil_append _).symm, found⟩
  | above =>
      simp only [inspectSide] at found
      split at found
      · cases found
      · rw [← top] at found
        exact ⟨_, _, [], (List.append_nil _).symm, found⟩

theorem firstAttempt_seen {site : Site M} {r : Demand} {first last : Neighbour}
    (head : site.children.head? = some first) (top : site.children.getLast? = some last)
    {attempts : List (Side × Nat)} {spot : Nat}
    (found : (site.firstAttempt r first last attempts).answer = .ok spot) : site.Seen r spot := by
  induction attempts with
  | nil => cases found
  | cons attempt rest ih =>
      simp only [firstAttempt] at found
      split at found
      · next look => cases found; exact inspectSide_seen head top look
      · exact ih found

theorem compact_seen {site : Site M} (ordered : site.Ordered) {r : Demand} {entropy : Entropy}
    {spot : Nat} (found : (site.compact r entropy).1.answer = .ok spot) : site.Seen r spot := by
  simp only [compact] at found
  split at found
  · next head top => exact firstAttempt_seen head top found
  · exact uniform_seen ordered found

theorem choose_answer (site : Site M) (r : Demand) (clustered : Bool) (entropy : Entropy) :
    (site.choose r clustered entropy).1.answer = (site.byPolicy r clustered entropy).1.answer := by
  simp only [choose]
  split <;> rfl

theorem choose_seen {site : Site M} (ordered : site.Ordered) {r : Demand} {clustered : Bool}
    {entropy : Entropy} {spot : Nat}
    (found : (site.choose r clustered entropy).1.answer = .ok spot) : site.Seen r spot := by
  rw [choose_answer] at found
  simp only [byPolicy] at found
  split at found
  · exact lowestFrom_seen found
  · split at found
    · exact compact_seen ordered found
    · exact uniform_seen ordered found

theorem choose_suits {site : Site M} (ordered : site.Ordered) {r : Demand} {clustered : Bool}
    {entropy : Entropy} {spot : Nat}
    (found : (site.choose r clustered entropy).1.answer = .ok spot) : site.Suits r spot :=
  (choose_seen ordered found).suits ordered

theorem Suits.paged {site : Site M} {r : Demand} {spot : Nat} (h : site.Suits r spot)
    (picks : Mmu.PicksPages M) : spot % pageSize = 0 := by
  obtain ⟨query, align, picked⟩ := h.picked
  exact picks _ query spot (align ▸ r.align_paged) picked

end Site
end RegionTree
