import RegionTree.Proofs.FirstFit

/-! Uniform placement beside a page table that keeps a guard: where a drawn place leads, and that a place is
found exactly where first fit finds one. -/
namespace RegionTree

theorem Search.orElse_answer {first second : Search} :
    (first.orElse second).answer = first.answer.tryCatch fun _ => second.answer := by
  rw [orElse]
  split
  · next found => rw [found]; rfl
  · next failed => rw [failed]; rfl

namespace Site
variable {site : Site PageTable} {r : Demand} {a drawn floor : Nat} {below above : List Neighbour}

/-- The nearest child below a place is a mapping that a guard is to be kept from. -/
def ShunsBelow (site : Site PageTable) (r : Demand) (a : Nat) : Prop :=
  ∃ c ∈ site.children, c.extent.stop ≤ a ∧
    (∀ d ∈ site.children, d.extent.stop ≤ a → d.extent.stop ≤ c.extent.stop) ∧
      site.mmu.needsGuard r.access c.access

theorem admissibleFrom_self : site.AdmissibleFrom r a a ↔ site.Admissible r a ∧ ¬ site.ShunsBelow r a := by
  constructor
  · intro h
    refine ⟨h.toAdmissible, fun ⟨c, hc, ended, nearest, needed⟩ => ?_⟩
    obtain ⟨guarded, isMapping, unlike⟩ := PageTable.needsGuard_iff.mp needed
    have := h.clear c hc ended nearest isMapping unlike
    omega
  · intro ⟨admissible, free⟩
    refine ⟨admissible, Nat.le_refl a, fun c hc ended nearest isMapping unlike => ?_⟩
    have none : ¬ 0 < site.mmu.guard := fun guarded =>
      free ⟨c, hc, ended, nearest, PageTable.needsGuard_iff.mpr ⟨guarded, isMapping, unlike⟩⟩
    omega

theorem lowestFrom_isLeast (ordered : site.Ordered) (wide : 1 < r.size) :
    (site.lowestFrom r floor).answer = .ok a ↔ IsLeast {b | site.AdmissibleFrom r floor b} a := by
  have sound : ∀ a, (site.lowestFrom r floor).answer = .ok a → site.AdmissibleFrom r floor a := by
    intro a found
    obtain ⟨_, _, row, look⟩ := exists_look_of_lowestAfter (List.nil_append _).symm found
    exact inspect_admissibleFrom ordered row look
  have complete : ∀ b, site.AdmissibleFrom r floor b →
      ∃ spot, (site.lowestFrom r floor).answer = .ok spot ∧ spot ≤ b :=
    fun b h => h.exists_lowestAfter_le ordered (h.toVacant.roomy wide) (List.nil_append _).symm nofun
  constructor
  · intro found
    refine ⟨sound a found, fun b admissible => ?_⟩
    obtain ⟨spot, found', le⟩ := complete b admissible
    cases found.symm.trans found'
    exact le
  · intro ⟨admissible, least⟩
    obtain ⟨spot, found, le⟩ := complete a admissible
    rwa [Nat.le_antisymm le (least (sound spot found))] at found

theorem not_admissibleFrom_of_error (ordered : site.Ordered) (wide : 1 < r.size) {f : Failure}
    (failed : (site.lowestFrom r floor).answer = .error f) : ¬ site.AdmissibleFrom r floor a := by
  intro h
  obtain ⟨spot, found, _⟩ := h.exists_lowestAfter_le ordered (h.toVacant.roomy wide)
    (List.nil_append _).symm nofun
  cases failed.symm.trans found

theorem firstFit_least (ordered : site.Ordered) (wide : 1 < r.size) :
    (site.firstFit r).answer = .ok a ↔ IsLeast {b | site.Admissible r b} a := by
  have same : {b | site.AdmissibleFrom r Address.minimum b} = {b | site.Admissible r b} :=
    Set.ext fun b => ⟨fun h => h.toAdmissible, fun h => h.fromMinimum⟩
  rw [← same]
  exact lowestFrom_isLeast ordered wide

theorem Ordered.inspect_passed (ordered : site.Ordered) {child : Neighbour} {rest : List Neighbour}
    (row : site.children = below ++ child :: rest) (low : child.extent.start ≤ floor) :
    (site.inspect r floor below.getLast? (some child)).verdict = .resume := by
  cases look : (site.inspect r floor below.getLast? (some child)).verdict with
  | resume => rfl
  | halt => exact absurd look (ordered.inspect_ne_halt row)
  | found spot =>
      obtain ⟨last, gap, _, above, _, high⟩ := inspect_found_from look
      have under := (ordered.gapEnd_lt row gap).2 child List.mem_cons_self
      have pos := r.size_pos
      omega

theorem Ordered.lowestAfter_passed (ordered : site.Ordered) {passed : List Neighbour}
    (row : site.children = below ++ (passed ++ above)) (low : ∀ c ∈ passed, c.extent.start ≤ floor) :
    (site.lowestAfter r floor below.getLast? (passed ++ above)).answer =
      (site.lowestAfter r floor (below ++ passed).getLast? above).answer := by
  induction passed generalizing below with
  | nil => rw [List.nil_append, List.append_nil]
  | cons child rest ih =>
      obtain ⟨first, others⟩ := List.forall_mem_cons.mp low
      have next : site.children = (below ++ [child]) ++ (rest ++ above) := by simpa using row
      rw [List.cons_append, lowestAfter, ordered.inspect_passed row first]
      have answer := ih next others
      rw [List.getLast?_concat, List.append_assoc, List.singleton_append] at answer
      exact answer

theorem Ordered.lowestFrom_passed (ordered : site.Ordered) (r : Demand)
    (row : site.children = below ++ above) (low : ∀ c ∈ below, c.extent.start ≤ floor) :
    (site.lowestFrom r floor).answer = (site.lowestAfter r floor below.getLast? above).answer := by
  have start : site.children = [] ++ (below ++ above) := row
  rw [lowestFrom, row]
  exact ordered.lowestAfter_passed start low

theorem notice_not_mem_inspect {M : Type} [Mmu M] (site : Site M) (r : Demand) (floor : Nat)
    (before after : Option Neighbour) (n : Notice) :
    .notice n ∉ (site.inspect r floor before after).events := by
  simp only [inspect]
  split
  · exact List.not_mem_nil
  · split
    · exact List.not_mem_nil
    · intro member
      cases List.mem_singleton.mp member

theorem settle_eq (ordered : site.Ordered) (vacant : site.Vacant r drawn) :
    ∃ below above, site.children = below ++ above ∧ (∀ c ∈ below, c.extent.stop ≤ drawn) ∧
      (∀ c ∈ above, drawn + r.size ≤ c.extent.start) ∧
      site.settle r drawn =
        match (site.inspect r drawn below.getLast? above.head?).verdict with
        | .found spot => (Search.found spot).after (site.inspect r drawn below.getLast? above.head?).events
        | _ => ((site.lowestFrom r drawn).orElse (site.firstFit r)).after
            ((site.inspect r drawn below.getLast? above.head?).events ++ [.notice (.spotRejected drawn)]) := by
  have top := site.region.stop_lt_limit
  have inside := vacant.high
  have pos := r.size_pos
  obtain ⟨below, above, row, before, behind, low, high⟩ :=
    Index.exists_split (drawn + (r.size - 1)) ordered.sorted
  refine ⟨below, above, row, fun c hc => ?_, fun c hc => ?_, ?_⟩
  · have free := vacant.free c (row ▸ List.mem_append_left _ hc)
    have := low c hc
    omega
  · have := high c hc
    omega
  · have fits : drawn + (r.size - 1) < Address.limit := by omega
    simp only [settle, Address.add, if_pos fits]
    rewrite [before, behind]
    rfl

/-- The look at a drawn place is the first that counts in the search upwards from it. -/
theorem settle_answer (ordered : site.Ordered) (vacant : site.Vacant r drawn) :
    (site.settle r drawn).answer = ((site.lowestFrom r drawn).orElse (site.firstFit r)).answer := by
  obtain ⟨below, above, row, ended, later, same⟩ := settle_eq ordered vacant
  rw [same]
  split
  · next spot look =>
      have passed := ordered.lowestFrom_passed r row fun c hc =>
        Nat.le_trans (Nat.le_of_lt c.extent.start_lt_stop) (ended c hc)
      have found : (site.lowestFrom r drawn).answer = .ok spot := by
        refine passed.trans ?_
        cases above with
        | nil =>
            rw [List.head?_nil] at look
            simp only [lowestAfter, look]
            rfl
        | cons child rest =>
            rw [List.head?_cons] at look
            simp only [lowestAfter, look]
            rfl
      rw [Search.orElse_answer, found]
      rfl
  · rfl

/-- What becomes of a drawn place. -/
structure Settles (site : Site PageTable) (r : Demand) (drawn : Nat) (s : Search) : Prop where
  /-- The answer is the least place that is admissible from the drawn one on, or else the least of all. -/
  upward : ∀ a, s.answer = .ok a ↔ IsLeast {b | site.AdmissibleFrom r drawn b} a ∨
    (∀ b, ¬ site.AdmissibleFrom r drawn b) ∧ IsLeast {b | site.Admissible r b} a
  /-- The drawn place is the answer, and nothing is searched, if it is admissible and no guard is to be kept
  from the nearest child below, however far that is. -/
  kept : s.answer = .ok drawn ∧ .notice (.spotRejected drawn) ∉ s.events ↔
    site.Admissible r drawn ∧ ¬ site.ShunsBelow r drawn

theorem settle_settles (ordered : site.Ordered) (wide : 1 < r.size) (vacant : site.Vacant r drawn) :
    site.Settles r drawn (site.settle r drawn) where
  upward a := by
    rw [settle_answer ordered vacant, Search.orElse_answer]
    cases upwards : (site.lowestFrom r drawn).answer with
    | ok b =>
        have least := (lowestFrom_isLeast ordered wide).mp upwards
        constructor
        · rintro ⟨⟩
          exact .inl least
        · rintro (same | ⟨none, _⟩)
          · rw [Nat.le_antisymm (same.2 least.1) (least.2 same.1)]
            rfl
          · exact absurd least.1 (none b)
    | error f =>
        have none : ∀ b, ¬ site.AdmissibleFrom r drawn b :=
          fun b => not_admissibleFrom_of_error ordered wide upwards
        refine (firstFit_least ordered wide).trans ⟨fun least => .inr ⟨none, least⟩, ?_⟩
        rintro (⟨admissible, _⟩ | ⟨_, least⟩)
        · exact absurd admissible (none a)
        · exact least
  kept := by
    rw [← admissibleFrom_self]
    obtain ⟨below, above, row, ended, later, same⟩ := settle_eq ordered vacant
    rw [same]
    constructor
    · intro ⟨answer, unsearched⟩
      split at answer
      · next look =>
          cases answer
          exact inspect_admissibleFrom ordered row look
      · next other =>
          refine absurd ?_ unsearched
          split
          · next look => exact absurd look (other _)
          · simp [Search.after]
    · intro admissible
      obtain ⟨spot, look, le⟩ := admissible.exists_inspect_le ordered (vacant.roomy wide) row ended later
      have ge := (inspect_admissibleFrom ordered row look).floor_le
      cases Nat.le_antisymm le ge
      rw [look]
      refine ⟨rfl, ?_⟩
      simpa [Search.after, Search.found] using notice_not_mem_inspect _ _ _ _ _ _

structure Redraws (site : Site PageTable) (r : Demand) (places : List Nat) : Prop where
  /-- The row of places holds each vacant place once. -/
  ascending : places.Pairwise (· < ·)
  vacant : ∀ a, a ∈ places ↔ site.Vacant r a
  /-- A number below the count of places is drawn, and its place is settled. -/
  drawn : places ≠ [] → ∀ entropy : Entropy, ∃ index, ∃ _ : index < places.length,
    (entropy.uniform places.length).1.getD 0 = index ∧
      site.uniform r entropy = (site.placeNth r index places.length, (entropy.uniform places.length).2)
  /-- Whatever number is drawn, its place settles. -/
  settles : ∀ index, ∀ small : index < places.length,
    site.Settles r places[index] (site.placeNth r index places.length)

/-- A drawn place is kept where it is admissible and no guard is asked for on its lower side. Elsewhere the
next above takes its place that is admissible from there on, or else the lowest of all. -/
theorem uniform_redraws (ordered : site.Ordered) (whole : r.size % pageSize = 0) :
    site.Redraws r (site.places r) where
  ascending := r.places_ascend (ordered.gaps_ascend r)
  vacant _ := ordered.mem_places
  drawn := ordered.uniform_of_ne_nil
  settles index small := by
    have wide : 1 < r.size := by
      have pos := r.size_pos
      simp only [pageSize] at whole
      omega
    rw [ordered.placeNth_eq_settle small]
    exact settle_settles ordered wide (ordered.mem_places.mp (List.getElem_mem small))

/-- With a mapping beside it, three places for an alignment to four pages. -/
theorem uniform_redraws_three :
    Redraws (⟨⟨0x1000, false, []⟩, ⟨⟨0x1000, 0x10000⟩, by decide, by decide⟩,
        [⟨⟨⟨0x1000, 0x2000⟩, by decide, by decide⟩, some PageFlags.read⟩]⟩ : Site PageTable)
      ⟨0x1000, 14, none, by decide, by decide, by decide⟩ [0x4000, 0x8000, 0xc000] :=
  uniform_redraws ⟨List.pairwise_singleton _ _, by decide⟩ (by decide)

/-- The lowest of these places is two guards away from the mapping, and yet the next is used for it. -/
theorem placeNth_not_kept :
    ¬ ∀ (site : Site PageTable) (r : Demand), site.Ordered → r.size % pageSize = 0 →
      ∀ index, ∀ small : index < (site.places r).length, site.Admissible r (site.places r)[index] →
        (site.placeNth r index (site.places r).length).answer = .ok (site.places r)[index] := by
  intro kept
  have lowest := kept ⟨⟨0x1000, false, []⟩, ⟨⟨0x1000, 0x10000⟩, by decide, by decide⟩,
    [⟨⟨⟨0x1000, 0x2000⟩, by decide, by decide⟩, some PageFlags.read⟩]⟩
    ⟨0x1000, 14, none, by decide, by decide, by decide⟩
    ⟨List.pairwise_singleton _ _, by decide⟩ (by decide) 0 (by decide +kernel)
    ⟨⟨by decide +kernel, by decide +kernel, by decide +kernel, by decide +kernel⟩,
      ⟨by decide +kernel, by decide +kernel⟩⟩
  revert lowest
  decide +kernel

theorem Seen.exists_firstFit (ordered : site.Ordered) (seen : site.Seen r a) :
    ∃ spot, (site.firstFit r).answer = .ok spot := by
  obtain ⟨_, _, _, row, look⟩ := id seen
  obtain ⟨spot, found, _⟩ := (seen.admissible ordered).fromMinimum.exists_lowestAfter_le ordered
    (inspect_roomy ordered row look) (List.nil_append _).symm nofun
  exact ⟨spot, found⟩

/-- First fit makes up for a drawn place that is of no use. -/
theorem settle_succeeds_iff (ordered : site.Ordered) (vacant : site.Vacant r drawn) :
    (∃ a, (site.settle r drawn).answer = .ok a) ↔ ∃ a, (site.firstFit r).answer = .ok a := by
  constructor
  · intro ⟨a, found⟩
    exact (settle_seen ordered found).exists_firstFit ordered
  · intro ⟨a, found⟩
    rw [settle_answer ordered vacant, Search.orElse_answer, found]
    cases (site.lowestFrom r drawn).answer with
    | ok b => exact ⟨b, rfl⟩
    | error f => exact ⟨a, rfl⟩

/-- Drawing a place costs no success. -/
structure Completes (site : Site PageTable) (r : Demand) : Prop where
  /-- Whatever the source of numbers, there is an answer exactly where first fit has one. -/
  succeeds : ∀ entropy : Entropy,
    (∃ a, (site.uniform r entropy).1.answer = .ok a) ↔ ∃ a, (site.firstFit r).answer = .ok a
  error : ∀ (entropy : Entropy) (f : Failure),
    (site.uniform r entropy).1.answer = .error f → f = Error.noMemory
  /-- The same holds of every number that could be drawn. -/
  nth : ∀ index < (site.places r).length,
    (∃ a, (site.placeNth r index (site.places r).length).answer = .ok a) ↔
      ∃ a, (site.firstFit r).answer = .ok a
  nth_error : ∀ index < (site.places r).length, ∀ f : Failure,
    (site.placeNth r index (site.places r).length).answer = .error f → f = Error.noMemory

theorem uniform_completes (ordered : site.Ordered) : site.Completes r := by
  have nth : ∀ index < (site.places r).length, ∀ count,
      (∃ a, (site.placeNth r index count).answer = .ok a) ↔ ∃ a, (site.firstFit r).answer = .ok a := by
    intro index small count
    rw [ordered.placeNth_eq_settle small]
    exact settle_succeeds_iff ordered (ordered.mem_places.mp (List.getElem_mem small))
  refine ⟨?succeeds, fun _ _ => uniform_error ordered, fun index small => nth index small _, ?nth_error⟩
  case succeeds =>
    intro entropy
    constructor
    · intro ⟨a, found⟩
      exact (uniform_seen ordered found).exists_firstFit ordered
    · intro ⟨a, found⟩
      -- What first fit finds is vacant, so that there is a place to draw.
      have suits := (lowestFrom_seen found).admissible ordered
      have filled := List.ne_nil_of_mem (ordered.mem_places.mpr suits.toVacant)
      obtain ⟨index, small, _, same⟩ := ordered.uniform_of_ne_nil filled entropy
      rw [same]
      exact (nth index small _).mpr ⟨a, found⟩
  case nth_error =>
    intro index small f failed
    have vacant : site.Vacant r (site.places r)[index] :=
      ordered.mem_places.mp (List.getElem_mem small)
    have top := site.region.stop_lt_limit
    have inside := vacant.high
    have pos := r.size_pos
    rw [ordered.placeNth_eq_settle small] at failed
    exact settle_error (by omega) failed

/-- The guards leave room at one of four places only. -/
theorem uniform_completes_guarded :
    Completes (⟨⟨0x1000, false, []⟩, ⟨⟨0x1000, 0x7000⟩, by decide, by decide⟩,
        [⟨⟨⟨0x1000, 0x2000⟩, by decide, by decide⟩, some PageFlags.read⟩,
          ⟨⟨⟨0x5000, 0x6000⟩, by decide, by decide⟩, some PageFlags.read⟩]⟩ : Site PageTable)
      ⟨0x1000, 12, none, by decide, by decide, by decide⟩ :=
  uniform_completes ⟨by simp, by decide⟩

end Site
end RegionTree
