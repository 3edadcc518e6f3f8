import RegionTree.Proofs.Run

/-! The room that a page table keeps between a new node and unlike mappings next to it, whichever policy
chooses the place. -/
namespace RegionTree

namespace PageTable

theorem needsGuard_iff {t : PageTable} {access neighbour : Option PageFlags} :
    t.needsGuard access neighbour ↔ 0 < t.guard ∧ neighbour.isSome ∧ neighbour ≠ access := by
  simp [needsGuard, and_assoc]

theorem guard_map (t : PageTable) (page frame length : Nat) (flags : PageFlags) :
    (Mmu.map t page frame length flags).state.guard = t.guard := by
  simp only [Mmu.map]
  split <;> rfl

theorem guard_protect {t t' : PageTable} {span : Span} {flags : PageFlags}
    {answer : Except Failure Unit} (done : Mmu.protect t span flags = ⟨answer, t'⟩) :
    t'.guard = t.guard := by
  cases done
  rfl

end PageTable

theorem Evolves.guard {purpose : Purpose} {es es' : List Entry} {r r' : Resources PageTable}
    (h : Evolves purpose es r es' r') : r'.mmu.guard = r.mmu.guard := by
  induction h with
  | trans _ _ ih ih' => exact ih'.trans ih
  | quiet es same => rw [same.mmu]
  | @hold es r r' new taken =>
      have same : r'.mmu = r.mmu := Resources.allocate_mmu (r := r.countGeneration.2) taken
      rw [same]
  | permit es r _ _ _ done => exact PageTable.guard_protect done
  | balk es r failed => exact PageTable.guard_protect failed
  | buryMapping m es r =>
      rw [Resources.mmu_bury]
      rfl
  | buryRegion l es r => rw [Resources.mmu_bury]
  | translate r _ _ _ _ _ => exact PageTable.guard_map _ _ _ _ _
  | _ => rfl

namespace Site

/-- The neighbours of a place that are mappings with other permissions leave the guard free. -/
structure Guarded (site : Site PageTable) (r : Demand) (spot : Nat) : Prop where
  below : ∀ c ∈ site.children, c.extent.stop ≤ spot →
    (∀ d ∈ site.children, d.extent.stop ≤ spot → d.extent.stop ≤ c.extent.stop) →
      c.access.isSome → c.access ≠ r.access → c.extent.stop + site.mmu.guard ≤ spot
  above : ∀ c ∈ site.children, spot + r.size ≤ c.extent.start →
    (∀ d ∈ site.children, spot + r.size ≤ d.extent.start → c.extent.start ≤ d.extent.start) →
      c.access.isSome → c.access ≠ r.access → spot + r.size + site.mmu.guard ≤ c.extent.start

variable {site : Site PageTable} {below above : List Neighbour} {c : Neighbour} {spot : Nat}

theorem Ordered.getLast?_of_nearest (ordered : site.Ordered) (row : site.children = below ++ above)
    (ended : ∀ d ∈ below, d.extent.stop ≤ spot) (later : ∀ d ∈ above, spot ≤ d.extent.start)
    (member : c ∈ site.children) (low : c.extent.stop ≤ spot)
    (nearest : ∀ d ∈ site.children, d.extent.stop ≤ spot → d.extent.stop ≤ c.extent.stop) :
    below.getLast? = some c := by
  have wide := c.extent.start_lt_stop
  have apart := ordered.apart
  rw [row] at member nearest apart
  have here : c ∈ below := by
    refine (List.mem_append.mp member).resolve_right fun beyond => ?_
    have := later c beyond
    omega
  obtain ⟨p, last⟩ := List.getLast?_isSome.mpr (List.ne_nil_of_mem here) |> Option.isSome_iff_exists.mp
  obtain ⟨rest, rfl⟩ := List.getLast?_eq_some_iff.mp last
  -- Were it an earlier one, the last would end higher and still before the place.
  rcases List.mem_append.mp here with earlier | same
  · have order := (List.pairwise_append.mp (List.pairwise_append.mp apart).1).2.2 c earlier p (by simp)
    have := nearest p (by simp) (ended p (by simp))
    have := p.extent.start_lt_stop
    omega
  · rw [last, List.mem_singleton.mp same]

theorem Ordered.head?_of_nearest (ordered : site.Ordered) (row : site.children = below ++ above)
    (ended : ∀ d ∈ below, d.extent.stop ≤ spot) (later : ∀ d ∈ above, spot ≤ d.extent.start)
    (member : c ∈ site.children) (high : spot ≤ c.extent.start)
    (nearest : ∀ d ∈ site.children, spot ≤ d.extent.start → c.extent.start ≤ d.extent.start) :
    above.head? = some c := by
  have wide := c.extent.start_lt_stop
  have apart := ordered.apart
  rw [row] at member nearest apart
  have here : c ∈ above := by
    refine (List.mem_append.mp member).resolve_left fun before => ?_
    have := ended c before
    omega
  obtain ⟨first, rest, rfl⟩ := List.exists_cons_of_ne_nil (List.ne_nil_of_mem here)
  rcases List.mem_cons.mp here with same | behind
  · rw [same, List.head?_cons]
  · have order := (List.pairwise_cons.mp (List.pairwise_append.mp apart).2.1).1 c behind
    have := nearest first (by simp) (later first (by simp))
    have := first.extent.start_lt_stop
    omega

theorem Seen.guarded {r : Demand} (ordered : site.Ordered) (seen : site.Seen r spot) :
    site.Guarded r spot := by
  obtain ⟨floor, below, above, row, found⟩ := seen
  obtain ⟨_, startsHigh⟩ := ordered.stop_le_gapStart row
  obtain ⟨start, last, behind, gap, picked, low, high⟩ := inspect_found found
  obtain ⟨_, higher⟩ := ordered.gapEnd_lt row gap
  obtain ⟨bottom, rounded, _, keepsLow, keepsHigh⟩ := PageTable.propose_eq_some picked
  have raised : bottom ≤ spot := Address.le_of_ceilTo? rounded r.align_pos
  have pos := r.size_pos
  have ended : ∀ c ∈ below, c.extent.stop ≤ spot := fun c hc =>
    Nat.le_trans (startsHigh c hc) (Nat.le_trans behind low)
  have later : ∀ c ∈ above, spot + r.size ≤ c.extent.start := fun c hc =>
    Nat.le_trans high (higher c hc)
  constructor
  · intro c hc under nearest isMapping unlike
    have nearer := ordered.getLast?_of_nearest row ended
      (fun d hd => Nat.le_trans (Nat.le_add_right _ _) (later d hd)) hc under nearest
    rw [nearer] at keepsLow behind
    rcases Nat.eq_zero_or_pos site.mmu.guard with none | guarded
    · rwa [none]
    · have := keepsLow (PageTable.needsGuard_iff.mpr ⟨guarded, isMapping, unlike⟩)
      dsimp only [Option.elim_some] at *
      omega
  · intro c hc beyond nearest isMapping unlike
    have nearer := ordered.head?_of_nearest row
      (fun d hd => Nat.le_trans (ended d hd) (Nat.le_add_right _ _)) later hc beyond nearest
    rw [nearer] at keepsHigh
    rcases Nat.eq_zero_or_pos site.mmu.guard with none | guarded
    · rwa [none]
    · have := keepsHigh (PageTable.needsGuard_iff.mpr ⟨guarded, isMapping, unlike⟩)
      have := higher c (List.mem_of_mem_head? nearer)
      dsimp only at *
      omega

end Site

/-- A place of so many bytes for a new child of a region, with the permissions that it is to have if it is
a mapping. -/
structure Label.Places (l : Label) (children : Forest) (guard size alignPow2 : Nat)
    (access : Option PageFlags) (base : Nat) : Prop where
  aligned : base % (1 <<< max alignPow2 pageShift) = 0
  inside : l.extent.start ≤ base ∧ base + size ≤ l.extent.stop ∧ base + size < Address.limit
  free : ∀ n ∈ children, n.stop ≤ base ∨ base + size ≤ n.start
  /-- The nearest child below, if it is a mapping with other permissions, keeps its distance. -/
  below : ∀ m, .mapping m ∈ children → m.extent.stop ≤ base →
    (∀ n ∈ children, n.stop ≤ base → n.stop ≤ m.extent.stop) → access ≠ some m.access →
      m.extent.stop + guard ≤ base
  /-- So does the nearest child above. -/
  above : ∀ m, .mapping m ∈ children → base + size ≤ m.extent.start →
    (∀ n ∈ children, base + size ≤ n.start → m.extent.start ≤ n.start) → access ≠ some m.access →
      base + size + guard ≤ m.extent.start

theorem Label.places_of_choose {l : Label} {children : Forest} {table : PageTable}
    (lined : Forest.Lined l.extent children) {size alignPow2 : Nat} {access : Option PageFlags}
    {r : Demand} (demand : Demand.of? size alignPow2 access = some r) {clustered : Bool}
    {entropy : Entropy} {base : Nat}
    (found : ((l.site table children).choose r clustered entropy).1.answer = .ok base) :
    l.Places children table.guard size alignPow2 access base := by
  obtain ⟨rfl, align, rfl⟩ := Demand.of?_eq_some demand
  have ordered := Site.ordered_of_lined lined table
  have seen := Site.choose_seen ordered found
  have suits := seen.suits ordered
  have guarded := seen.guarded ordered
  have member : ∀ n ∈ children, (⟨n.extent, n.access?⟩ : Neighbour) ∈ (l.site table children).children :=
    fun n hn => List.mem_map_of_mem hn
  have top := l.extent.stop_lt_limit
  constructor
  · obtain ⟨query, same, picked⟩ := suits.picked
    obtain ⟨_, rounded, _⟩ := PageTable.propose_eq_some picked
    rw [← align, ← same]
    exact Address.mod_of_ceilTo? rounded
  · exact ⟨suits.low, suits.high, Nat.lt_of_le_of_lt suits.high top⟩
  · exact fun n hn => suits.free _ (member n hn)
  · intro m hm low nearest unlike
    exact guarded.below _ (member _ hm) low (List.forall_mem_map.mpr nearest) rfl unlike.symm
  · intro m hm high nearest unlike
    exact guarded.above _ (member _ hm) high (List.forall_mem_map.mpr nearest) rfl unlike.symm

namespace Space
variable {s : Space PageTable}

theorem run_guard (kept : s.Kept []) (commitments : Commitments) (ops : List Operation) :
    (run (s, commitments) ops).1.resources.mmu.guard = s.resources.mmu.guard :=
  (run_induction (P := fun s' => s'.resources.mmu.guard = s.resources.mmu.guard) .pageTable ops
    (fun _ commitments op _ kept same =>
      (perform_follows .pageTable kept commitments op).evolves.guard.trans same) kept rfl).2

theorem new_mmu {M : Type} {mmu : M} {c : SpaceConfig} {entropy : Entropy} {s : Space M}
    (new : Space.new mmu c entropy = .ok s) : s.resources.mmu = mmu := by
  simp only [Space.new] at new
  split at new
  · cases new
  · split at new <;> cases new
    rfl

/-- After any sequence of calls, whatever place a search answers for a new child of a region alive is
aligned, free, inside the region and off its unlike neighbours. -/
theorem run_places {guard : Nat} {refuses : Bool} {c : SpaceConfig} {entropy : Entropy}
    (new : Space.new (⟨guard, refuses, []⟩ : PageTable) c entropy = .ok s) (commitments : Commitments)
    (ops : List Operation) {region : Handle} {l : Label} {children : Forest}
    (live : (run (s, commitments) ops).1.liveRegion region = .ok (l, children)) {size alignPow2 : Nat}
    {access : Option PageFlags} {r : Demand} (demand : Demand.of? size alignPow2 access = some r)
    {clustered : Bool} {source : Entropy} {base : Nat}
    (found : ((l.site (run (s, commitments) ops).1.resources.mmu children).choose r clustered
      source).1.answer = .ok base) :
    l.Places children guard size alignPow2 access base := by
  have kept := run_kept (w := (s, commitments)) .pageTable (new_kept new) ops
  have places := Label.places_of_choose (kept.lined (liveRegion_ok live).2) demand found
  rwa [run_guard (new_kept new), new_mmu new] at places

/-- A page stays free between a mapping and a new region. -/
theorem run_places_region :
    ∃ s, Space.new (⟨0x1000, false, []⟩ : PageTable) ⟨.user, 0, 0x8000, .empty, 4⟩ ⟨none⟩ = .ok s ∧
      ∃ l children, (run (s, []) [.addMapping ⟨0, 0⟩ { size := 0x1000 }
          ⟨0, 0x1000, none, none, false⟩ 0 PageFlags.read]).1.liveRegion ⟨0, 0⟩ = .ok (l, children) ∧
        l.Places children 0x1000 0x1000 0 none 0x2000 := by
  obtain ⟨s, new⟩ : ∃ s, Space.new (⟨0x1000, false, []⟩ : PageTable)
      ⟨.user, 0, 0x8000, .empty, 4⟩ ⟨none⟩ = .ok s := ⟨_, rfl⟩
  obtain ⟨r, demand⟩ : ∃ r, Demand.of? 0x1000 0 none = some r := ⟨_, rfl⟩
  have live : ∃ l children, (run (s, []) [.addMapping ⟨0, 0⟩ { size := 0x1000 }
      ⟨0, 0x1000, none, none, false⟩ 0 PageFlags.read]).1.liveRegion ⟨0, 0⟩ = .ok (l, children) ∧
      ((l.site (run (s, []) [.addMapping ⟨0, 0⟩ { size := 0x1000 } ⟨0, 0x1000, none, none, false⟩ 0
        PageFlags.read]).1.resources.mmu children).choose r false ⟨none⟩).1.answer = .ok 0x2000 := by
    cases new
    cases demand
    exact ⟨_, _, rfl, by decide +kernel⟩
  obtain ⟨l, children, live, found⟩ := live
  exact ⟨s, new, l, children, live, run_places new [] _ live demand found⟩

end Space
end RegionTree
