import RegionTree.Mmu.PageTable
import RegionTree.Proofs.Run

/-! Confinement: a call through a region changes nothing around the region, neither in the tree nor among
the translations, and destroying a node takes away that node only. -/
namespace RegionTree

namespace PageTable

def outside (t : PageTable) (span : Span) : List Translation :=
  t.translations.filter fun e => !span.contains e.page

/-- The tables differ in the translations inside a range at most. -/
structure AgreeOutside (span : Span) (t t' : PageTable) : Prop where
  guard : t'.guard = t.guard
  refuses : t'.refuses = t.refuses
  outside : t'.outside span = t.outside span

namespace AgreeOutside
variable {span inner : Span} {t t' t'' : PageTable}

theorem refl (t : PageTable) : AgreeOutside span t t := ⟨rfl, rfl, rfl⟩

theorem trans (h : AgreeOutside span t t') (h' : AgreeOutside span t' t'') : AgreeOutside span t t'' :=
  ⟨h'.guard.trans h.guard, h'.refuses.trans h.refuses, h'.outside.trans h.outside⟩

theorem mono (h : AgreeOutside inner t t') (within : span.covers inner) : AgreeOutside span t t' := by
  have fewer : ∀ t : PageTable, (t.outside inner).filter (fun e => !span.contains e.page) =
      t.outside span := by
    intro t
    rw [PageTable.outside, List.filter_filter]
    refine List.filter_congr fun e _ => ?_
    by_cases inside : inner.contains e.page
    · simp [inside, Span.contains_of_covers within inside]
    · simp [inside]
  exact ⟨h.guard, h.refuses, by rw [← fewer, h.outside, fewer]⟩

theorem contains_of_reaches (within : span.covers inner) {page : Nat} (reached : reaches inner page) :
    span.contains page := by
  simp only [reaches, Bool.and_eq_true, decide_eq_true_eq] at reached
  obtain ⟨⟨low, high⟩, _⟩ := reached
  refine Span.contains_of_covers within (Span.contains_iff.mpr ⟨low, ?_⟩)
  simp only [pageSize] at high
  omega

theorem unmap (within : span.covers inner) (t : PageTable) :
    AgreeOutside span t (Mmu.unmap t inner) := by
  refine ⟨rfl, rfl, ?_⟩
  show (t.translations.filter _).filter _ = t.translations.filter _
  rw [List.filter_filter]
  refine List.filter_congr fun e _ => ?_
  by_cases reached : reaches inner e.page
  · simp [reached, contains_of_reaches within reached]
  · simp [reached]

theorem protect (within : span.covers inner) (t : PageTable) (flags : PageFlags) :
    AgreeOutside span t (Mmu.protect t inner flags).state := by
  refine ⟨rfl, rfl, ?_⟩
  show (t.translations.map _).filter _ = t.translations.filter _
  rw [List.filter_map]
  have pages : ((fun e : Translation => !span.contains e.page) ∘ fun e : Translation =>
      if reaches inner e.page then { e with flags } else e) = fun e => !span.contains e.page := by
    funext e
    simp only [Function.comp_apply]
    split <;> rfl
  rw [pages]
  refine (List.map_congr_left fun e he => ?_).trans (List.map_id _)
  have apart : span.contains e.page = false := by simpa using (List.mem_filter.mp he).2
  refine if_neg fun reached => ?_
  rw [contains_of_reaches within reached] at apart
  cases apart

theorem map {page : Nat} (within : span.contains page) (t : PageTable) (frame : Nat) (flags : PageFlags) :
    AgreeOutside span t (Mmu.map t page frame pageSize flags).state := by
  simp only [Mmu.map]
  split
  · exact .refl t
  · refine ⟨rfl, rfl, ?_⟩
    show (install _ t.translations).filter _ = t.translations.filter _
    rw [install, List.filter_cons_of_neg (by simp [within]), List.filter_filter]
    refine List.filter_congr fun e _ => ?_
    by_cases here : e.page = page
    · simp [here, within]
    · simp [here]

end AgreeOutside
end PageTable

namespace Resources

/-- Translations have changed in a range at most, and the most nodes are as many as before. -/
structure Within (span : Span) (r r' : Resources PageTable) : Prop where
  capacity : r'.capacity = r.capacity
  mmu : PageTable.AgreeOutside span r.mmu r'.mmu

namespace Within
variable {span inner : Span} {r r' r'' : Resources PageTable} {m : Mapping}

theorem refl (r : Resources PageTable) : Within span r r := ⟨rfl, .refl _⟩

theorem trans (h : Within span r r') (h' : Within span r' r'') : Within span r r'' :=
  ⟨h'.capacity.trans h.capacity, h.mmu.trans h'.mmu⟩

theorem of_mmu (capacity : r'.capacity = r.capacity) (mmu : r'.mmu = r.mmu) : Within span r r' :=
  ⟨capacity, mmu ▸ .refl _⟩

theorem mono (h : Within inner r r') (within : span.covers inner) : Within span r r' :=
  ⟨h.capacity, h.mmu.mono within⟩

theorem quiet (same : r.Quiet r') : Within span r r' := .of_mmu same.capacity same.mmu

theorem overEach {step : Resources PageTable → Node → Progress PageTable} {ns : Forest}
    (each : ∀ n ∈ ns, ∀ r, Within span r (step r n).resources) :
    Within span r (Progress.overEach step r ns).resources :=
  Progress.overEach_induction (fun n hn r' before => before.trans (each n hn r')) (.refl r)

theorem split {upper : Extent} {answer : Except Failure Mapping}
    (done : r.split m upper = ⟨answer, r'⟩) : Within span r r' := by
  cases answer with
  | error f => exact .quiet (split_error done).1
  | ok tail =>
      obtain ⟨h, held, taken, _, quiet⟩ := split_ok done
      exact (of_mmu (r := r) (allocate_capacity (r := r.countGeneration.2) taken)
        (allocate_mmu (r := r.countGeneration.2) taken)).trans (.quiet quiet)

theorem unmapPages (within : span.covers inner) (r : Resources PageTable) :
    Within span r (r.unmapPages inner) :=
  ⟨rfl, .unmap within r.mmu⟩

theorem bury (r : Resources PageTable) (kind : NodeKind) (l : Label) : Within span r (r.bury kind l) :=
  .of_mmu (r.capacity_bury kind l) (r.mmu_bury kind l)

end Within

variable {span target : Span} {m : Mapping} {access : PageFlags}

mutual
theorem Within.destroy (r : Resources PageTable) : (n : Node) →
    (∀ m, .mapping m ∈ n.entries → span.covers m.extent.toSpan) → Within span r (n.destroy r)
  | .region _ children, inside =>
      (Within.destroyAll r children fun m hm => inside m (List.mem_cons_of_mem _ hm)).trans (.bury _ _ _)
  | .mapping m, inside =>
      (Within.unmapPages (inside m (List.mem_singleton_self _)) r).trans (.bury _ _ _)
theorem Within.destroyAll (r : Resources PageTable) : (ns : Forest) →
    (∀ m, .mapping m ∈ Forest.entries ns → span.covers m.extent.toSpan) →
      Within span r (Forest.destroy r ns)
  | [], _ => .refl r
  | n :: ns, inside =>
      (Within.destroy r n fun m hm => inside m (List.mem_append_left _ hm)).trans
        (Within.destroyAll _ ns fun m hm => inside m (List.mem_append_right _ hm))
end

theorem carve_within (r : Resources PageTable) {n : Node} (nested : n.Nested)
    (low : target.start < n.stop) (high : n.start < target.stop)
    (whole : n.isRegion → target.covers n.extent.toSpan) :
    Within target r (carve target r n).resources := by
  cases n with
  | region l children =>
      obtain ⟨bottom, top⟩ := Span.covers_iff.mp (whole rfl)
      refine .destroy r _ fun m hm => Span.covers_iff.mpr ?_
      obtain ⟨above, below⟩ := nested.mapping_within hm
      exact ⟨Nat.le_trans bottom above, Nat.le_trans below top⟩
  | mapping m =>
      have low : target.start < m.extent.stop := low
      have high : m.extent.start < target.stop := high
      have part : ∀ {bottom top : Nat}, target.start ≤ bottom → top ≤ target.stop →
          target.covers ⟨bottom, top⟩ := fun bottom top => Span.covers_iff.mpr ⟨bottom, top⟩
      simp only [carve]
      split
      · next first second =>
          have bottom := (Extent.cut?_eq_none first).resolve_right (Nat.not_le_of_lt low)
          have top := (Extent.cut?_eq_none second).resolve_left (Nat.not_le_of_lt high)
          refine .destroy r _ fun m' hm => ?_
          cases List.mem_singleton.mp hm
          exact Span.covers_iff.mpr ⟨bottom, top⟩
      · next second =>
          have top := (Extent.cut?_eq_none second).resolve_left (Nat.not_le_of_lt high)
          exact .unmapPages (part (Nat.le_refl _) top) r
      · next first _ =>
          have bottom := (Extent.cut?_eq_none first).resolve_right (Nat.not_le_of_lt low)
          have fewer : Within target r (r.unmapPages ⟨m.extent.start, target.stop⟩) :=
            .unmapPages (part bottom (Nat.le_refl _)) r
          split <;> exact fewer
      · split
        · next failed => exact .split failed
        · next done =>
            exact (Within.split done).trans
              (.unmapPages (part (Nat.le_refl _) (Nat.le_refl _)) _)

theorem reflag_within (r : Resources PageTable) (inside : span.covers m.extent.toSpan) :
    Within span r (r.reflag access m).resources :=
  (show Within span r (r.protectPages m.extent.toSpan access).state from
    ⟨rfl, .protect inside r.mmu access⟩).trans (.quiet (Resources.quiet_note _ _))

theorem reflagBelow_within {stop : Nat} (r : Resources PageTable)
    (inside : span.covers m.extent.toSpan) : Within span r (r.reflagBelow stop access m).resources := by
  simp only [reflagBelow]
  split
  · exact reflag_within r inside
  · next lower upper cut =>
      obtain ⟨_, above, low, high, _⟩ := Extent.cut?_eq_some cut
      obtain ⟨bottom, top⟩ := Span.covers_iff.mp inside
      have part : span.covers lower.toSpan :=
        Span.covers_iff.mpr ⟨low ▸ bottom, high ▸ Nat.le_trans (Nat.le_of_lt above) top⟩
      split
      · next failed => exact .split failed
      · next done => exact (Within.split done).trans (reflag_within _ part)

theorem permit_within (r : Resources PageTable) {n : Node}
    (inside : ∀ m, .mapping m ∈ n.entries → span.covers m.extent.toSpan) :
    Within span r (permit target access r n).resources := by
  cases n with
  | region l children => exact .refl r
  | mapping m =>
      have whole := inside m (List.mem_singleton_self _)
      obtain ⟨bottom, top⟩ := Span.covers_iff.mp whole
      simp only [permit]
      split
      · exact .refl r
      · simp only [reflagInside]
        split
        · exact reflagBelow_within r whole
        · next lower upper cut =>
            obtain ⟨below, _, _, _, low, high⟩ := Extent.cut?_eq_some cut
            have part : span.covers upper.toSpan :=
              Span.covers_iff.mpr ⟨low ▸ Nat.le_trans bottom (Nat.le_of_lt below), high ▸ top⟩
            split
            · next failed => exact .split failed
            · next done =>
                obtain ⟨h, held, _, rfl, _⟩ := split_ok done
                exact (Within.split done).trans (reflagBelow_within _ part)

end Resources

namespace Space
variable {s s' s'' : Space PageTable} {pending : List Entry} {region : Handle}

/-- What a call through a region may change: its children and what is below them, and the translations of
pages in its range. Besides, slots, generations, the recorded system image, entropy and the journal are
shared by all regions. -/
structure Confined (region : Handle) (s s' : Space PageTable) : Prop where
  kind : s'.kind = s.kind
  root : s'.root = s.root
  capacity : s'.resources.capacity = s.resources.capacity
  inside : ∀ c l old, l.handle = region → s.tree = some (Context.plug c (.region l old)) →
    (∃ new, s'.tree = some (Context.plug c (.region l new))) ∧
      PageTable.AgreeOutside l.extent.toSpan s.resources.mmu s'.resources.mmu
  /-- Without such a region nothing is changed. -/
  absent : (∀ l children, .region l children ∈ s.nodes → l.handle ≠ region) →
    s'.tree = s.tree ∧ s'.resources.mmu = s.resources.mmu

namespace Confined

theorem of_tree (kind : s'.kind = s.kind) (root : s'.root = s.root) (tree : s'.tree = s.tree)
    (capacity : s'.resources.capacity = s.resources.capacity)
    (mmu : s'.resources.mmu = s.resources.mmu) : Confined region s s' where
  kind := kind
  root := root
  capacity := capacity
  inside _ _ old _ whole := ⟨⟨old, tree.trans whole⟩, mmu ▸ .refl _⟩
  absent _ := ⟨tree, mmu⟩

theorem of_alike (alike : s.Alike s') : Confined region s s' :=
  .of_tree alike.kind alike.root alike.tree alike.capacity alike.mmu

theorem refl (s : Space PageTable) : Confined region s s := .of_alike (.refl s)

theorem trans (h : Confined region s s') (h' : Confined region s' s'') : Confined region s s'' where
  kind := h'.kind.trans h.kind
  root := h'.root.trans h.root
  capacity := h'.capacity.trans h.capacity
  inside c l old handle tree := by
    obtain ⟨⟨mid, tree'⟩, agree⟩ := h.inside c l old handle tree
    obtain ⟨row, agree'⟩ := h'.inside c l mid handle tree'
    exact ⟨row, agree.trans agree'⟩
  absent none := by
    obtain ⟨tree, mmu⟩ := h.absent none
    have same : s'.nodes = s.nodes := by rw [nodes, tree, nodes]
    obtain ⟨tree', mmu'⟩ := h'.absent (same ▸ none)
    exact ⟨tree'.trans tree, mmu'.trans mmu⟩

theorem of_children (kept : s.Kept pending) {l : Label} {old new : Forest}
    (alive : .region l old ∈ s.nodes) (kind : s'.kind = s.kind) (root : s'.root = s.root)
    (tree' : s'.tree = s.tree.map (Node.withChildren l.handle new))
    (within : s.resources.Within l.extent.toSpan s'.resources) : Confined l.handle s s' where
  kind := kind
  root := root
  capacity := within.capacity
  inside c l' old' handle tree := by
    cases kept.eq_of_handle (mem_nodes_of_plug tree) alive handle
    exact ⟨⟨new, tree'.trans (kept.tree_withChildren tree new)⟩, within.mmu⟩
  absent none := absurd rfl (none l old alive)

end Confined

theorem Kept.covers_below (kept : s.Kept pending) {l : Label} {children : Forest}
    (alive : .region l children ∈ s.nodes) {m : Mapping} (below : .mapping m ∈ Forest.entries children) :
    l.extent.covers m.extent.toSpan :=
  have inside : .mapping m ∈ (Node.region l children).entries := List.mem_cons_of_mem _ below
  Span.covers_iff.mpr ((kept.nested_of_mem alive).mapping_within inside)

theorem unmapRange_within (kept : s.Kept pending) {region : Handle} {base size : Nat} {sparing : Bool}
    {target : Span} {slice : Forest.Slice}
    (ok : s.unmapTarget region base size sparing = .ok (target, slice)) :
    s.resources.Within target (s.unmapRange region base size sparing).state.resources := by
  obtain ⟨l, children, live, _, rfl, spared⟩ := unmapTarget_ok ok
  obtain ⟨rfl, alive⟩ := liveRegion_ok live
  have carved : s.resources.Within target (Progress.overEach (Resources.carve target) s.resources
      (Forest.slice target children).inside).resources := by
    refine .overEach fun n hn r => ?_
    have hn' := Forest.mem_of_mem_inside hn
    have reaches := Forest.overlaps_of_mem_inside (kept.lined alive) hn
    refine Resources.carve_within r (kept.nested_of_mem (child_mem_nodes alive hn')) reaches.1
      reaches.2 fun isRegion => ?_
    rcases spared with rfl | ⟨_, regions⟩
    · cases hn'
    · exact (regions n hn isRegion).2
  simp only [unmapRange, ok]
  split <;> exact carved

theorem unmapRange_confined (kept : s.Kept pending) (region : Handle) (base size : Nat)
    (sparing : Bool) : Confined region s (s.unmapRange region base size sparing).state := by
  cases ok : s.unmapTarget region base size sparing with
  | error f =>
      simp only [unmapRange, ok]
      exact .refl s
  | ok found =>
      obtain ⟨target, slice⟩ := found
      have within := unmapRange_within kept ok
      obtain ⟨l, children, live, ranges, rfl, _⟩ := unmapTarget_ok ok
      obtain ⟨rfl, alive⟩ := liveRegion_ok live
      have within := within.mono (Span.covers_iff.mpr ⟨ranges.low, ranges.high⟩)
      simp only [unmapRange, ok] at within ⊢
      split at within
      all_goals
        exact .of_children kept alive rfl rfl rfl within

theorem protect_confined (kept : s.Kept pending) (region : Handle) (base size : UInt64)
    (access : PageFlags) : Confined region s (s.protect region base size access).state := by
  simp only [protect]
  split
  · exact .refl s
  · split
    · exact .refl s
    · next target slice ok =>
        obtain ⟨l, children, live, _, rfl, _⟩ := protectTarget_ok ok
        obtain ⟨rfl, alive⟩ := liveRegion_ok live
        have permitted : s.resources.Within l.extent.toSpan (Progress.overEach
            (Resources.permit target access) s.resources (Forest.slice target children).inside).resources := by
          refine .overEach fun n hn r => Resources.permit_within r fun m hm => kept.covers_below alive ?_
          exact Forest.mem_entries_iff.mpr ⟨n, Forest.mem_of_mem_inside hn, hm⟩
        split
        all_goals
          exact .of_children kept alive rfl rfl rfl permitted

theorem adopt_confined (kept : s.Kept pending) (parent : Handle) (built : Built) :
    Confined parent s (s.adopt parent built).state := by
  simp only [adopt]
  split
  · exact .refl s
  · next l children live =>
      obtain ⟨rfl, alive⟩ := liveRegion_ok live
      split
      · exact .refl s
      · split <;> exact .of_children kept alive rfl rfl rfl (.of_mmu rfl rfl)

theorem make_confined {r : Resources PageTable} {base : Nat} {q : NodeRequest} {built : Built}
    (kept : s.Kept []) (paged : q.Paged) (start : base % pageSize = 0)
    (done : s.resources.make base q = ⟨.ok built, r⟩) :
    Confined region s { s with resources := r } := by
  obtain ⟨_, _, _, _, _, _, capacity, _, mmu⟩ := make_follows kept paged start done
  exact .of_tree rfl rfl rfl capacity mmu

theorem addAt_confined (kept : s.Kept []) (parent : Handle) {base : Nat} {q : NodeRequest}
    (paged : q.Paged) (start : base % pageSize = 0) :
    Confined parent s (s.addAt parent base q).state := by
  simp only [addAt]
  split
  · next failed => exact .of_alike (.quiet (Resources.make_error failed))
  · next built r done =>
      obtain ⟨holds, _⟩ := make_follows kept paged start done
      exact (make_confined kept paged start done).trans (adopt_confined holds.kept parent built)

theorem addOver_confined (kept : s.Kept []) (parent : Handle) {base : Nat} {q : NodeRequest}
    (paged : q.Paged) (start : base % pageSize = 0) :
    Confined parent s (s.addOver parent base q).state := by
  simp only [addOver]
  split
  · next failed => exact .of_alike (.quiet (Resources.make_error failed))
  · next built r done =>
      obtain ⟨holds, _⟩ := make_follows kept paged start done
      have made : Confined parent s { s with resources := r } := make_confined kept paged start done
      have cleared := unmapRange_confined holds.kept parent base q.size true
      have clears := (unmapRange_reworked .shape holds.kept parent true start paged.size).follows
      split
      · next failed =>
          rw [failed] at cleared
          exact (made.trans cleared).trans (.of_tree rfl rfl rfl rfl rfl)
      · next s' done =>
          rw [done] at cleared clears
          have noted (n : Notice) : Confined parent s' { s' with resources := s'.resources.note n } :=
            .of_tree rfl rfl rfl rfl rfl
          have kept' (n : Notice) := clears.kept.quiet (s'.resources.quiet_note n)
          exact ((made.trans cleared).trans (noted _)).trans (adopt_confined (kept' _) parent built)

theorem addAnywhere_confined {l : Label} {children : Forest} {d : Demand} {q : NodeRequest}
    (kept : s.Kept []) (paged : q.Paged) (alive : .region l children ∈ s.nodes) :
    Confined l.handle s (s.addAnywhere l.handle l children d q).state := by
  have ordered := Site.ordered_of_lined (kept.lined alive) s.resources.mmu
  simp only [addAnywhere]
  generalize chosen : Site.choose (M := PageTable) _ _ _ _ = choice
  have quiet := s.resources.quiet_reportAll choice.1.events
  have searched : Confined l.handle s
      { s with entropy := choice.2, resources := s.resources.reportAll choice.1.events } :=
    .of_tree rfl rfl rfl quiet.capacity quiet.mmu
  split
  · exact searched
  · next base found =>
      rw [← chosen] at found
      have start := (Site.choose_suits ordered found).paged .pageTable
      have kept' : Kept [] { s with entropy := choice.2, resources := s.resources.reportAll _ } :=
        ⟨kept.nested, kept.rooted, (kept.quiet quiet).sound⟩
      exact searched.trans (addAt_confined kept' l.handle paged start)

/-- Creating a node changes nothing around the region that it is to join. -/
theorem add_confined (kept : s.Kept []) (parent : Handle) {q : NodeRequest} (paged : q.Paged) :
    Confined parent s (s.add parent q).state := by
  simp only [add]
  split
  · exact .refl s
  · next l children live =>
      obtain ⟨rfl, alive⟩ := liveRegion_ok live
      split
      · exact .refl s
      · have quiet := s.resources.quiet_conflict q
        have told := kept.quiet quiet
        have first : Confined l.handle s { s with resources := q.conflict.elim s.resources s.resources.note } :=
          .of_tree rfl rfl rfl quiet.capacity quiet.mmu
        have valid : ∀ d, q.settled.destination l children = .ok d → d.Valid l children q.settled :=
          fun d same => NodeRequest.destination_ok (kept.lined alive) same
        refine first.trans ?_
        split
        · exact .refl _
        · next same => exact addAt_confined told l.handle paged.settled (valid _ same).1
        · next same => exact addOver_confined told l.handle paged.settled (valid _ same).1
        · exact addAnywhere_confined told paged.settled alive

theorem resolveBelow_confined (kept : s.Kept []) (commitments : Commitments) (region : Handle) (a : UInt64)
    (flags : FaultFlags) :
    Confined region s (s.resolveBelow commitments region a flags).state.1 := by
  rcases resolveBelow_cases kept commitments region a flags with
    ⟨f, r, _, quiet, same⟩ | ⟨m, page, frame, r, _, ⟨l, children, live, below⟩, inside, _, _, quiet, same⟩
  · rw [same]
    exact .of_tree rfl rfl rfl quiet.capacity quiet.mmu
  · rw [same]
    obtain ⟨rfl, alive⟩ := liveRegion_ok live
    obtain ⟨c, tree⟩ := exists_plug alive
    have covers := Span.covers_iff.mp (kept.covers_below alive below)
    have holds : l.extent.contains page := by
      rw [Span.contains_iff, Span.mem_iff]
      exact ⟨Nat.le_trans covers.1 inside.1, Nat.lt_of_lt_of_le inside.2 covers.2⟩
    refine .of_children kept alive rfl rfl (tree.trans (kept.tree_withChildren tree children).symm) ?_
    exact (Resources.Within.quiet quiet).trans ⟨rfl, .map holds r.mmu frame m.access⟩

/-- What the end of a node may change: its parent has one child less, and translations of pages in its
range are gone. -/
structure Severed (h : Handle) (s s' : Space PageTable) : Prop where
  kind : s'.kind = s.kind
  root : s'.root = s.root
  capacity : s'.resources.capacity = s.resources.capacity
  outcome : s' = s ∨ ∃ c n, n.handle = h ∧ s.tree = some (Context.plug c n) ∧
    s'.tree = Context.rest c ∧
      PageTable.AgreeOutside n.extent.toSpan s.resources.mmu s'.resources.mmu

theorem destroy_severed (kept : s.Kept []) (h : Handle) : Severed h s (s.destroy h).state := by
  rcases destroy_cases kept h with ⟨f, same⟩ | ⟨c, n, rfl, tree, _, same⟩
  · rw [same]
    exact ⟨rfl, rfl, rfl, .inl rfl⟩
  · rw [same]
    have nested := Context.nested_of_plug (kept.nested _ tree)
    have within : s.resources.Within n.extent.toSpan (n.destroy s.resources) :=
      .destroy s.resources n fun m hm => Span.covers_iff.mpr (nested.mapping_within hm)
    exact ⟨rfl, rfl, within.capacity, .inr ⟨c, n, rfl, tree, rfl, within.mmu⟩⟩

structure Confines (op : Operation) (s s' : Space PageTable) : Prop where
  through : (∀ h, op ≠ .destroy h) → Confined op.subject s s'
  destroyed : ∀ h, op = .destroy h → Severed h s s'

theorem perform_confines (kept : s.Kept []) (commitments : Commitments) (op : Operation) :
    Confines op s (s.perform commitments op).state.1 := by
  cases op with
  | destroy h =>
      refine ⟨fun other => absurd rfl (other h), ?_⟩
      rintro _ ⟨⟩
      exact destroy_severed kept h
  | addRegion parent sketch =>
      refine ⟨fun _ => ?_, by rintro _ ⟨⟩⟩
      simp only [perform, Outcome.beside, Outcome.map]
      rcases addRegion_cases s parent sketch with same | ⟨paged, same⟩ <;> rw [same]
      · exact .refl s
      · exact add_confined kept parent paged
  | addMapping parent sketch object offset access =>
      refine ⟨fun _ => ?_, by rintro _ ⟨⟩⟩
      simp only [perform, Outcome.beside, Outcome.map]
      rcases addMapping_cases s parent sketch object offset access with same | ⟨paged, same⟩ <;> rw [same]
      · exact .refl s
      · exact add_confined kept parent paged
  | unmap region base size =>
      refine ⟨fun _ => ?_, by rintro _ ⟨⟩⟩
      simp only [perform, Outcome.beside, Outcome.map, unmap]
      split
      · exact .refl s
      · exact unmapRange_confined kept region base.toNat _ false
  | protect region base size access =>
      refine ⟨fun _ => ?_, by rintro _ ⟨⟩⟩
      simp only [perform, Outcome.beside, Outcome.map]
      exact protect_confined kept region base size access
  | resolve region address flags =>
      refine ⟨fun _ => ?_, by rintro _ ⟨⟩⟩
      simp only [perform, Outcome.map]
      exact resolveBelow_confined kept commitments region address flags
  | find region address => exact ⟨fun _ => .refl s, by rintro _ ⟨⟩⟩
  | report node depth =>
      refine ⟨fun _ => ?_, by rintro _ ⟨⟩⟩
      simp only [perform, Outcome.beside, Outcome.map, reportListing]
      split
      · exact .of_alike (.quiet (s.resources.quiet_reportAll _))
      · exact .of_alike (.quiet (s.resources.quiet_note _))
      · exact .refl s

/-- After any sequence of calls, whatever the next call answers: through a region it changes nothing but
the children of that region and translations in its range, and destroying a node takes away that node and
translations in its range. -/
theorem run_confines {guard : Nat} {refuses : Bool} {c : SpaceConfig} {entropy : Entropy}
    (new : Space.new (⟨guard, refuses, []⟩ : PageTable) c entropy = .ok s) (commitments : Commitments)
    (ops : List Operation) (op : Operation) :
    Confines op (run (s, commitments) ops).1 (run (s, commitments) (ops ++ [op])).1 := by
  have kept := run_kept (w := (s, commitments)) .pageTable (new_kept new) ops
  rw [run_append]
  exact perform_confines kept _ op

/-- Permissions change in a region up to a mapping that cannot be split for want of nodes. -/
theorem run_confines_halfway :
    ∃ s, Space.new (⟨0, false, []⟩ : PageTable) ⟨.user, 0, 0x8000, .empty, 4⟩ ⟨none⟩ = .ok s ∧
      Confines (.protect ⟨1, 1⟩ 0 0x2000 .empty)
        (run (s, []) [.addRegion ⟨0, 0⟩ { size := 0x4000, flags := RegionFlags.mapAll },
          .addMapping ⟨1, 1⟩ { size := 0x1000 } ⟨0, 0x1000, none, none, false⟩ 0 PageFlags.read,
          .addMapping ⟨1, 1⟩ { size := 0x2000 } ⟨1, 0x2000, none, none, false⟩ 0 PageFlags.read]).1
        (run (s, []) ([.addRegion ⟨0, 0⟩ { size := 0x4000, flags := RegionFlags.mapAll },
          .addMapping ⟨1, 1⟩ { size := 0x1000 } ⟨0, 0x1000, none, none, false⟩ 0 PageFlags.read,
          .addMapping ⟨1, 1⟩ { size := 0x2000 } ⟨1, 0x2000, none, none, false⟩ 0 PageFlags.read] ++
          [.protect ⟨1, 1⟩ 0 0x2000 .empty])).1 := by
  obtain ⟨s, new⟩ : ∃ s, Space.new (⟨0, false, []⟩ : PageTable)
      ⟨.user, 0, 0x8000, .empty, 4⟩ ⟨none⟩ = .ok s := ⟨_, rfl⟩
  exact ⟨s, new, run_confines new [] _ _⟩

end Space
end RegionTree
