import RegionTree.Proofs.Ledger
import RegionTree.Proofs.UniformPlacement

/-! Compact placement where nothing asks for a guard: which distances are tried, where each attempt lands,
and in which regions every byte leads to the first padded place. -/
namespace RegionTree

def Verdict.spot? : Verdict → Option Nat
  | .found spot => some spot
  | _ => none

/-- The place on a side of a cluster that leaves so many pages free between, wherever that is. -/
def Side.place (first last : Extent) (size pages : Nat) : Side → Int
  | .below => first.start - pages * pageSize - size
  | .above => last.stop + pages * pageSize

theorem Address.sub?_bind_sub? (a n k : Nat) : (sub? a n).bind (sub? · k) = sub? a (n + k) := by
  by_cases enough : n ≤ a
  · simp only [sub?, if_pos enough, Option.bind_some, Nat.sub_sub]
    exact if_congr (by omega) rfl rfl
  · rw [sub?, if_neg enough, sub?, if_neg (by omega), Option.bind_none]

theorem Entropy.byte_getD_lt (entropy : Entropy) : entropy.byte.1.getD 0 < 256 := by
  rw [byte]
  split
  · exact Nat.zero_lt_succ 255
  · exact Nat.mod_lt _ (by decide)

namespace Site

theorem halvings_of_pos {pages : Nat} (pos : 0 < pages) (small : pages < 256) :
    halvings pages = pages :: halvings (pages / 2) := by
  have spent : (pages / 2) >>> 7 = 0 := by
    rw [Nat.shiftRight_eq_div_pow]
    omega
  have row : (List.range 8).map (pages >>> ·) = pages :: (List.range 7).map ((pages / 2) >>> ·) := by
    rw [List.range_succ_eq_map, List.map_cons, List.map_map]
    refine congrArg _ (List.map_congr_left fun i _ => ?_)
    show pages >>> (i + 1) = _
    rw [Nat.add_comm, Nat.shiftRight_add, Nat.shiftRight_one]
  -- The last of eight halves is zero, so seven do as well.
  have cut : halvings (pages / 2) = ((List.range 7).map ((pages / 2) >>> ·)).takeWhile (0 < ·) := by
    rw [halvings, List.range_succ, List.map_append, List.map_singleton, spent, List.takeWhile_append]
    split
    · next all =>
        rw [List.takeWhile_cons, if_neg (by simp), List.append_nil]
        exact ((List.takeWhile_prefix _).eq_of_length (by simpa using all)).symm
    · rfl
  rw [cut, halvings, row, List.takeWhile_cons, if_pos (by simpa using pos)]

theorem mem_halvings {pages k : Nat} (small : pages < 256) (hk : k ∈ halvings pages) :
    0 < k ∧ (k = pages ∨ k ≤ pages / 2) := by
  induction pages using Nat.strongRecOn with
  | ind pages ih =>
      rcases Nat.eq_zero_or_pos pages with rfl | pos
      · cases hk
      · rw [halvings_of_pos pos small] at hk
        rcases List.mem_cons.mp hk with rfl | later
        · exact ⟨pos, .inl rfl⟩
        · obtain ⟨some, same | less⟩ := ih (pages / 2) (by omega) (by omega) later
          · exact ⟨some, .inr (Nat.le_of_eq same)⟩
          · exact ⟨some, .inr (by omega)⟩

theorem one_mem_halvings {pages : Nat} (pos : 0 < pages) (small : pages < 256) : 1 ∈ halvings pages := by
  induction pages using Nat.strongRecOn with
  | ind pages ih =>
      rw [halvings_of_pos pos small]
      rcases Nat.lt_or_ge 1 pages with more | one
      · exact List.mem_cons_of_mem _ (ih (pages / 2) (by omega) (by omega) (by omega))
      · rw [show pages = 1 by omega]
        exact List.mem_cons_self

theorem mem_attempts {byte : Nat} {attempt : Side × Nat} :
    attempt ∈ attempts byte ↔ attempt.2 ∈ halvings (byte / 2 + 1) := by
  obtain ⟨side, pages⟩ := attempt
  simp only [attempts, List.mem_flatMap, List.mem_cons, List.not_mem_nil, Prod.mk.injEq, or_false]
  constructor
  · rintro ⟨k, hk, ⟨_, rfl⟩ | ⟨_, rfl⟩⟩ <;> exact hk
  · intro hk
    refine ⟨pages, hk, ?_⟩
    cases side <;> split <;> simp [Side.other]

/-- An answer that one of the last attempts has, and all others that have any, is that of the row. -/
theorem findSome?_attempts {byte : Nat} (small : byte < 256) {f : Side × Nat → Option Nat} {a : Nat}
    {side : Side} (one : f (side, 1) = some a)
    (only : ∀ attempt b, 0 < attempt.2 → f attempt = some b → b = a) :
    (attempts byte).findSome? f = some a := by
  have tried : (side, 1) ∈ attempts byte := mem_attempts.mpr (one_mem_halvings (by omega) (by omega))
  cases found : (attempts byte).findSome? f with
  | none => cases one.symm.trans (List.findSome?_eq_none_iff.mp found _ tried)
  | some b =>
      obtain ⟨attempt, tried, found⟩ := List.exists_of_findSome?_eq_some found
      rw [only attempt b (mem_halvings (by omega) (mem_attempts.mp tried)).1 found]

variable {M : Type} (site : Site M) (r : Demand) (first last : Neighbour)

def padded? (attempt : Side × Nat) : Option Nat :=
  let place := attempt.1.place first.extent last.extent r.size attempt.2
  if site.region.start ≤ place ∧ place + r.size ≤ site.region.stop then some place.toNat else none

/-- Where an attempt lands: a place that is neither below zero nor in the region is moved up to the start
of the region, if there is room below the cluster. -/
def landing? : Side × Nat → Option Nat
  | (.below, pages) =>
    if r.size + pages * pageSize ≤ first.extent.start ∧ site.region.start + r.size ≤ first.extent.start then
      some (max site.region.start (first.extent.start - (r.size + pages * pageSize)))
    else none
  | (.above, pages) => site.padded? r first last (.above, pages)

/-- No place is moved up: the region starts at zero, or has no room below the cluster or room for each
distance. With one page to spare below and none above, a place is moved up to where the rule ends as well. -/
def Unmoved : Prop :=
  site.region.start = 0 ∨ first.extent.start < site.region.start + r.size ∨
    site.region.start + r.size + 128 * pageSize ≤ first.extent.start ∨
    first.extent.start = site.region.start + r.size + pageSize ∧
      site.region.stop < last.extent.stop + pageSize + r.size

variable {site r first last}

theorem padded?_below (high : first.extent.stop ≤ site.region.stop) (pages : Nat) :
    site.padded? r first last (.below, pages) =
      if site.region.start + (r.size + pages * pageSize) ≤ first.extent.start then
        some (first.extent.start - (r.size + pages * pageSize))
      else none := by
  have long := first.extent.start_lt_stop
  have place : Side.below.place first.extent last.extent r.size pages =
      first.extent.start - (r.size + pages * pageSize : Nat) := by
    simp only [Side.place, Int.natCast_add, Int.natCast_mul]
    omega
  rw [padded?]
  by_cases inside : site.region.start + (r.size + pages * pageSize) ≤ first.extent.start
  · rw [if_pos inside, if_pos (by rw [place]; omega), place, ← Int.ofNat_sub (by omega), Int.toNat_natCast]
  · rw [if_neg inside, if_neg (by rw [place]; omega)]

theorem padded?_above (low : site.region.start ≤ last.extent.stop) (pages : Nat) :
    site.padded? r first last (.above, pages) =
      if last.extent.stop + pages * pageSize + r.size ≤ site.region.stop then
        some (last.extent.stop + pages * pageSize)
      else none := by
  have place : Side.above.place first.extent last.extent r.size pages =
      (last.extent.stop + pages * pageSize : Nat) := by
    simp only [Side.place, Int.natCast_add, Int.natCast_mul]
  rw [padded?]
  by_cases inside : last.extent.stop + pages * pageSize + r.size ≤ site.region.stop
  · rw [if_pos inside, if_pos (by rw [place]; omega), place, Int.toNat_natCast]
  · rw [if_neg inside, if_neg (by rw [place]; omega)]

/-- One page more than there is to spare below the cluster leads to the start of the region. -/
theorem landing?_beyond {spare : Nat}
    (gap : first.extent.start = site.region.start + r.size + spare * pageSize)
    (page : pageSize ≤ site.region.start) :
    site.landing? r first last (.below, spare + 1) = some site.region.start := by
  rw [landing?, Nat.succ_mul, if_pos (by omega), show max site.region.start (first.extent.start -
    (r.size + (spare * pageSize + pageSize))) = site.region.start by omega]

variable [Mmu M]

/-- A byte decides by the padding rule: the answer is the first padded place in the region. -/
structure Pads (site : Site M) (r : Demand) (first last : Neighbour) (byte : Nat) : Prop where
  rule : (site.firstAttempt r first last (attempts byte)).answer =
    ((attempts byte).findSome? (site.padded? r first last)).elim (.error Error.noMemory) .ok
  /-- A page stays free between the new child and the cluster. -/
  apart : ∀ a, (site.firstAttempt r first last (attempts byte)).answer = .ok a →
    a + r.size + pageSize ≤ first.extent.start ∨ last.extent.stop + pageSize ≤ a

theorem firstAttempt_answer (attempts : List (Side × Nat)) :
    (site.firstAttempt r first last attempts).answer =
      (attempts.findSome? fun attempt =>
        (site.inspectSide r first last attempt.1 attempt.2).verdict.spot?).elim
          (.error Error.noMemory) .ok := by
  induction attempts with
  | nil => rfl
  | cons attempt rest ih =>
      rw [List.findSome?_cons, firstAttempt]
      cases look : (site.inspectSide r first last attempt.1 attempt.2).verdict with
      | found spot => rfl
      | resume => exact ih
      | halt => exact ih

theorem spot?_inspect (plain : Mmu.Unguarded site.mmu) (page : r.alignPow2 = pageShift) (wide : 1 < r.size)
    {before after : Option Neighbour} {floor start : Nat}
    (higher : max (before.elim site.region.start (·.extent.stop)) floor = start)
    (paged : start % pageSize = 0) :
    (site.inspect r floor before after).verdict.spot? =
      if start + r.size ≤ after.elim site.region.stop (·.extent.start) then some start else none := by
  have same : r.align = pageSize := by rw [Demand.align, page]; rfl
  simp only [inspect, higher]
  split
  · next v none =>
      -- A gap that is empty has no room.
      rw [if_neg]
      · cases v with
        | found spot => exact absurd none (site.gapEnd_ne_found _ _ _)
        | _ => rfl
      · cases after with
        | none =>
            rw [gapEnd] at none
            split at none
            · simp only [Option.elim_none]
              omega
            · cases none
        | some child =>
            rw [gapEnd] at none
            simp only [Option.elim_some]
            split at none
            · omega
            · split at none
              · omega
              · cases none
  · next last gap =>
      have ends : last + 1 = after.elim site.region.stop (·.extent.start) := by
        cases after with
        | none =>
            have := site.region.start_lt_stop
            rw [gapEnd] at gap
            split at gap
            · cases gap
            · cases gap
              simp only [Extent.last, Option.elim_none]
              omega
        | some child =>
            rw [gapEnd] at gap
            split at gap
            · cases gap
            · split at gap <;> cases gap
              simp only [Option.elim_some]
              omega
      have small : last + 1 < Address.limit := by
        rw [ends]
        cases after with
        | none => exact site.region.stop_lt_limit
        | some child => exact Nat.lt_trans child.extent.start_lt_stop child.extent.stop_lt_limit
      rw [← ends]
      split
      · next behind => rw [if_neg (by omega)]; rfl
      · simp only [inspectGap, plain _]
        by_cases room : start + r.size ≤ last + 1
        · have aligned : start % r.align = 0 := same ▸ paged
          have raised := Address.ceilTo?_of_aligned r.align_pos aligned
            (r.add_align_le aligned (by omega))
          rw [if_pos room, raised]
          dsimp only
          rw [if_neg (Nat.lt_irrefl start), if_pos (by omega)]
          rfl
        · rw [if_neg room]
          split
          · rfl
          · next spot raised =>
              have high := Address.le_of_ceilTo? raised r.align_pos
              rw [if_neg (Nat.not_lt_of_le high), if_neg (by omega)]
              rfl

/-- Below a cluster the mmu is asked for the place or for the start of the region, whichever is higher. -/
theorem spot?_inspectSide_below (plain : Mmu.Unguarded site.mmu) (page : r.alignPow2 = pageShift)
    (wide : 1 < r.size) (whole : r.size % pageSize = 0) (bottom : site.region.start % pageSize = 0)
    (cluster : first.extent.start % pageSize = 0) (pages : Nat) :
    (site.inspectSide r first last .below pages).verdict.spot? =
      site.landing? r first last (.below, pages) := by
  simp only [inspectSide, landing?, Address.sub?_bind_sub?]
  rw [Address.sub?]
  by_cases low : r.size + pages * pageSize ≤ first.extent.start
  · have paged : max site.region.start (first.extent.start - (r.size + pages * pageSize)) % pageSize = 0 := by
      simp only [pageSize] at *
      omega
    rw [if_pos low]
    dsimp only
    rw [spot?_inspect plain page wide rfl paged]
    simp only [Option.elim_none, Option.elim_some]
    exact if_congr (by omega) rfl rfl
  · rw [if_neg low, if_neg (not_and_of_not_left _ low)]
    rfl

theorem spot?_inspectSide_above (plain : Mmu.Unguarded site.mmu) (page : r.alignPow2 = pageShift)
    (wide : 1 < r.size) (low : site.region.start ≤ last.extent.stop)
    (cluster : last.extent.stop % pageSize = 0) (pages : Nat) :
    (site.inspectSide r first last .above pages).verdict.spot? =
      site.landing? r first last (.above, pages) := by
  have small := site.region.stop_lt_limit
  rw [landing?, padded?_above low]
  simp only [inspectSide]
  rw [Address.add?]
  by_cases fits : last.extent.stop + pages * pageSize < Address.limit
  · have paged : max last.extent.stop (last.extent.stop + pages * pageSize) % pageSize = 0 := by
      rw [Nat.max_eq_right (Nat.le_add_right _ _), Nat.add_mul_mod_self_right, cluster]
    rw [if_pos fits]
    dsimp only
    rw [spot?_inspect plain page wide rfl paged, Option.elim_none, Option.elim_some,
      Nat.max_eq_right (Nat.le_add_right _ _)]
  · rw [if_neg fits, if_neg (by omega)]
    rfl

/-- A site in whole pages whose mmu asks for no guard, its first and its last child, and a demand for whole
pages wherever a page starts. -/
structure Cluster (site : Site M) (r : Demand) (first last : Neighbour) : Prop where
  ordered : site.Ordered
  paged : site.region.Paged ∧ ∀ c ∈ site.children, c.extent.Paged
  head : site.children.head? = some first
  top : site.children.getLast? = some last
  plain : Mmu.Unguarded site.mmu
  whole : r.size % pageSize = 0
  page : r.alignPow2 = pageShift

namespace Cluster
variable (h : site.Cluster r first last) {byte : Nat}
include h

theorem wide : 1 < r.size := by
  have pos := r.size_pos
  have whole := h.whole
  simp only [pageSize] at whole
  omega

theorem bounds : site.region.start ≤ first.extent.start ∧ first.extent.stop ≤ site.region.stop ∧
    site.region.start < last.extent.stop := by
  have low := h.ordered.within first (List.mem_of_head? h.head)
  have high := h.ordered.within last (List.mem_of_getLast? h.top)
  have long := last.extent.start_lt_stop
  exact ⟨low.1, low.2, by omega⟩

theorem firstAttempt_lands (byte : Nat) :
    (site.firstAttempt r first last (attempts byte)).answer =
      ((attempts byte).findSome? (site.landing? r first last)).elim (.error Error.noMemory) .ok := by
  obtain ⟨_, _, low⟩ := h.bounds
  rw [firstAttempt_answer]
  congr 2
  funext ⟨side, pages⟩
  cases side with
  | below =>
      exact spot?_inspectSide_below h.plain h.page h.wide h.whole h.paged.1.1
        (h.paged.2 first (List.mem_of_head? h.head)).1 pages
  | above =>
      exact spot?_inspectSide_above h.plain h.page h.wide (Nat.le_of_lt low)
        (h.paged.2 last (List.mem_of_getLast? h.top)).2 pages

theorem landing?_of_unmoved {pages : Nat} (few : pages ≤ 128)
    (unmoved : site.region.start = 0 ∨ first.extent.start < site.region.start + r.size ∨
      site.region.start + r.size + 128 * pageSize ≤ first.extent.start) :
    site.landing? r first last (.below, pages) = site.padded? r first last (.below, pages) := by
  have less : pages * pageSize ≤ 128 * pageSize := Nat.mul_le_mul_right _ few
  rw [landing?, padded?_below h.bounds.2.1]
  by_cases inside : site.region.start + (r.size + pages * pageSize) ≤ first.extent.start
  · rw [if_pos inside, if_pos (by omega), Nat.max_eq_right (by omega)]
  · rw [if_neg inside, if_neg (by omega)]

/-- Where nothing is moved up, the first attempt that lands does so at its place. -/
theorem findSome?_landing (unmoved : site.Unmoved r first last) (small : byte < 256) :
    (attempts byte).findSome? (site.landing? r first last) =
      (attempts byte).findSome? (site.padded? r first last) := by
  obtain ⟨_, high, low⟩ := h.bounds
  have each : site.region.start = 0 ∨ first.extent.start < site.region.start + r.size ∨
      site.region.start + r.size + 128 * pageSize ≤ first.extent.start →
      (attempts byte).findSome? (site.landing? r first last) =
        (attempts byte).findSome? (site.padded? r first last) := by
    intro free
    rw [← List.head?_filterMap, ← List.head?_filterMap]
    congr 1
    refine List.filterMap_congr fun ⟨side, pages⟩ tried => ?_
    cases side with
    | below =>
        have := mem_halvings (by omega) (mem_attempts.mp tried)
        exact h.landing?_of_unmoved (by omega) free
    | above => rfl
  rcases unmoved with zero | full | wide | ⟨one, none⟩
  · exact each (.inl zero)
  · exact each (.inr (.inl full))
  · exact each (.inr (.inr wide))
  · -- What lands below does so at the start of the region, which is the place one page off.
    have spare : ∀ pages, 0 < pages → pageSize ≤ pages * pageSize :=
      fun pages pos => Nat.le_mul_of_pos_left pageSize pos
    have place : site.padded? r first last (.below, 1) = some site.region.start := by
      rw [padded?_below high, Nat.one_mul, if_pos (by omega), show first.extent.start -
        (r.size + pageSize) = site.region.start by omega]
    have landing : site.landing? r first last (.below, 1) = some site.region.start := by
      rw [landing?, Nat.one_mul, if_pos (by omega), show max site.region.start (first.extent.start -
        (r.size + pageSize)) = site.region.start by omega]
    rw [findSome?_attempts small place, findSome?_attempts small landing]
    · rintro ⟨side, pages⟩ b pos found
      have := spare pages pos
      cases side with
      | below =>
          obtain ⟨_, same⟩ := Option.ite_none_right_eq_some.mp found
          cases same
          omega
      | above =>
          rw [landing?, padded?_above (Nat.le_of_lt low)] at found
          obtain ⟨_, _⟩ := Option.ite_none_right_eq_some.mp found
          omega
    · rintro ⟨side, pages⟩ b pos found
      have := spare pages pos
      cases side with
      | below =>
          rw [padded?_below high] at found
          obtain ⟨_, same⟩ := Option.ite_none_right_eq_some.mp found
          cases same
          omega
      | above =>
          rw [padded?_above (Nat.le_of_lt low)] at found
          obtain ⟨_, _⟩ := Option.ite_none_right_eq_some.mp found
          omega

theorem pads (unmoved : site.Unmoved r first last) (small : byte < 256) : site.Pads r first last byte := by
  obtain ⟨_, high, low⟩ := h.bounds
  have rule := h.firstAttempt_lands byte
  rw [h.findSome?_landing unmoved small] at rule
  refine ⟨rule, fun a answer => ?_⟩
  cases found : (attempts byte).findSome? (site.padded? r first last) with
  | none =>
      rw [found, answer] at rule
      cases rule
  | some b =>
      rw [found, answer] at rule
      cases rule
      obtain ⟨⟨side, pages⟩, tried, found⟩ := List.exists_of_findSome?_eq_some found
      have pos := (mem_halvings (by omega) (mem_attempts.mp tried)).1
      have spare : pageSize ≤ pages * pageSize := Nat.le_mul_of_pos_left pageSize pos
      cases side with
      | below =>
          rw [padded?_below high] at found
          obtain ⟨_, same⟩ := Option.ite_none_right_eq_some.mp found
          cases same
          omega
      | above =>
          rw [padded?_above (Nat.le_of_lt low)] at found
          obtain ⟨_, same⟩ := Option.ite_none_right_eq_some.mp found
          cases same
          omega

theorem eq_of_padded?_start {spare : Nat}
    (gap : first.extent.start = site.region.start + r.size + spare * pageSize) {attempt : Side × Nat}
    (found : site.padded? r first last attempt = some site.region.start) : attempt = (.below, spare) := by
  obtain ⟨_, high, low⟩ := h.bounds
  obtain ⟨side, pages⟩ := attempt
  cases side with
  | below =>
      rw [padded?_below high] at found
      obtain ⟨_, same⟩ := Option.ite_none_right_eq_some.mp found
      have equal : pages * pageSize = spare * pageSize := by
        have := Option.some.inj same
        omega
      rw [Nat.eq_of_mul_eq_mul_right (by decide) equal]
  | above =>
      rw [padded?_above (Nat.le_of_lt low)] at found
      obtain ⟨_, same⟩ := Option.ite_none_right_eq_some.mp found
      have := Option.some.inj same
      omega

/-- The byte for one page more than there is to spare, below first, agrees with the rule only where the half
of its distance is all that there is to spare. -/
theorem eq_one_of_pads {spare : Nat} (less : spare < 128)
    (gap : first.extent.start = site.region.start + r.size + spare * pageSize)
    (page : pageSize ≤ site.region.start) (pads : site.Pads r first last (2 * spare + 1)) : spare = 1 := by
  have row : attempts (2 * spare + 1) = (.below, spare + 1) :: (.above, spare + 1) ::
      (halvings ((spare + 1) / 2)).flatMap fun k => [(.below, k), (.above, k)] := by
    have odd : (2 * spare + 1) % 2 = 1 := by omega
    have pages : (2 * spare + 1) / 2 + 1 = spare + 1 := by omega
    rw [attempts, pages, if_pos odd, halvings_of_pos (by omega) (by omega)]
    rfl
  have lands : (attempts (2 * spare + 1)).findSome? (site.landing? r first last) =
      some site.region.start := by
    rw [row, List.findSome?_cons, landing?_beyond gap page]
  have rule := pads.rule
  rw [h.firstAttempt_lands, lands] at rule
  cases found : (attempts (2 * spare + 1)).findSome? (site.padded? r first last) with
  | none =>
      rw [found] at rule
      cases rule
  | some a =>
      rw [found] at rule
      cases rule
      obtain ⟨attempt, tried, found⟩ := List.exists_of_findSome?_eq_some found
      rw [h.eq_of_padded?_start gap found, mem_attempts] at tried
      have := mem_halvings (by omega) tried
      omega

/-- Some byte moves a place up where there is room below the cluster, but not for each distance. -/
theorem unmoved_of_pads (pads : ∀ byte < 256, site.Pads r first last byte) :
    site.Unmoved r first last := by
  obtain ⟨_, high, low⟩ := h.bounds
  have whole := h.whole
  have bottom := h.paged.1.1
  have cluster := (h.paged.2 first (List.mem_of_head? h.head)).1
  by_contra moved
  simp only [Unmoved, not_or, Nat.not_lt, Nat.not_le] at moved
  obtain ⟨raised, room, few, loose⟩ := moved
  obtain ⟨spare, less, gap⟩ : ∃ spare < 128,
      first.extent.start = site.region.start + r.size + spare * pageSize := by
    refine ⟨(first.extent.start - site.region.start - r.size) / pageSize, ?_, ?_⟩ <;>
      simp only [pageSize] at * <;> omega
  have page : pageSize ≤ site.region.start := by
    simp only [pageSize] at *
    omega
  cases h.eq_one_of_pads less gap page (pads _ (by omega))
  have moved : site.landing? r first last (.below, 2) = some site.region.start := landing?_beyond gap page
  rw [Nat.one_mul] at gap
  have outside : site.padded? r first last (.below, 2) = none := by
    rw [padded?_below high, Nat.succ_mul, Nat.one_mul, if_neg (by omega)]
  have beside : last.extent.stop + pageSize + r.size ≤ site.region.stop :=
    Nat.le_of_not_lt fun closed => loose ⟨gap, closed⟩
  have single : site.padded? r first last (.above, 1) = some (last.extent.stop + pageSize) := by
    rw [padded?_above (Nat.le_of_lt low), Nat.one_mul, if_pos beside]
  by_cases wide : last.extent.stop + 2 * pageSize + r.size ≤ site.region.stop
  · -- Of the bytes for two pages, the one that tries below first should lead above.
    have double : site.padded? r first last (.above, 2) = some (last.extent.stop + 2 * pageSize) := by
      rw [padded?_above (Nat.le_of_lt low), if_pos wide]
    have row : attempts 3 = [(.below, 2), (.above, 2), (.below, 1), (.above, 1)] := rfl
    have rule := (h.firstAttempt_lands 3).symm.trans (pads 3 (by decide)).rule
    simp only [row, List.findSome?_cons, moved, outside, double, Option.elim_some, Except.ok.injEq] at rule
    omega
  · -- The other should lead above with one page, since two do not fit there.
    have narrow : site.padded? r first last (.above, 2) = none := by
      rw [padded?_above (Nat.le_of_lt low), if_neg wide]
    have stays : site.landing? r first last (.above, 2) = none := narrow
    have row : attempts 2 = [(.above, 2), (.below, 2), (.above, 1), (.below, 1)] := rfl
    have rule := (h.firstAttempt_lands 2).symm.trans (pads 2 (by decide)).rule
    simp only [row, List.findSome?_cons, moved, outside, narrow, stays, single, Option.elim_some,
      Except.ok.injEq] at rule
    omega

end Cluster

/-- What a byte leads to, for every byte that can be drawn. -/
structure Compacts (site : Site M) (r : Demand) (first last : Neighbour) : Prop where
  /-- A byte is drawn, and its attempts decide. -/
  drawn : ∀ entropy : Entropy, entropy.byte.1.getD 0 < 256 ∧
    site.compact r entropy =
      (site.firstAttempt r first last (attempts (entropy.byte.1.getD 0)), entropy.byte.2)
  /-- The distances are those of the byte and its halves down to one page. -/
  halved : halvings 0 = [] ∧
    ∀ pages, 0 < pages → pages < 256 → halvings pages = pages :: halvings (pages / 2)
  lands : ∀ byte < 256, (site.firstAttempt r first last (attempts byte)).answer =
    ((attempts byte).findSome? (site.landing? r first last)).elim (.error Error.noMemory) .ok
  /-- The padding rule holds for all bytes exactly where no place is moved up, or it makes no difference. -/
  pads : (∀ byte < 256, site.Pads r first last byte) ↔ site.Unmoved r first last

theorem compact_pads_iff (h : site.Cluster r first last) : site.Compacts r first last where
  drawn entropy := ⟨entropy.byte_getD_lt, by simp only [compact, h.head, h.top]⟩
  halved := ⟨rfl, fun _ => halvings_of_pos⟩
  lands byte _ := h.firstAttempt_lands byte
  pads := ⟨h.unmoved_of_pads, fun unmoved _ small => h.pads unmoved small⟩

/-- A cluster of two in a region that starts above zero. -/
theorem compact_pads_iff_pair :
    Compacts (⟨PageTable.empty, ⟨⟨0x10000, 0x20000⟩, by decide, by decide⟩,
        [⟨⟨⟨0x14000, 0x15000⟩, by decide, by decide⟩, none⟩,
          ⟨⟨⟨0x16000, 0x17000⟩, by decide, by decide⟩, none⟩]⟩ : Site PageTable)
      ⟨0x2000, 12, none, by decide, by decide, by decide⟩
      ⟨⟨⟨0x14000, 0x15000⟩, by decide, by decide⟩, none⟩
      ⟨⟨⟨0x16000, 0x17000⟩, by decide, by decide⟩, none⟩ :=
  compact_pads_iff ⟨⟨by simp, by decide⟩, ⟨⟨by decide, by decide⟩, by simp [Extent.Paged, pageSize]⟩, rfl, rfl,
    PageTable.unguarded rfl, by decide, rfl⟩

/-- A place one page below the region is moved up beside the cluster, where no padding is left. -/
theorem compact_not_padded :
    ¬ Pads (⟨PageTable.empty, ⟨⟨0x10000, 0x13000⟩, by decide, by decide⟩,
        [⟨⟨⟨0x11000, 0x12000⟩, by decide, by decide⟩, none⟩]⟩ : Site PageTable)
      ⟨0x1000, 12, none, by decide, by decide, by decide⟩
      ⟨⟨⟨0x11000, 0x12000⟩, by decide, by decide⟩, none⟩
      ⟨⟨⟨0x11000, 0x12000⟩, by decide, by decide⟩, none⟩ 2 := by
  intro padded
  have rule := padded.rule
  revert rule
  decide +kernel

end Site
end RegionTree
