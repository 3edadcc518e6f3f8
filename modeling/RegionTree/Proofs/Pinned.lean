import Mathlib.Data.List.Induction
import RegionTree.Mmu.PageTable
import RegionTree.Proofs.Handles

/-! The recorded system image does not move: all calls that would cut, displace or change it fail, and it
goes only with a region around it, which is no longer recorded then. -/
namespace RegionTree
variable {M : Type}

theorem NodeRequest.destination_base {l : Label} {children : Forest} {q : NodeRequest} {d : Destination}
    (chooses : q.flags.choosesPlace) (ok : q.destination l children = .ok d) :
    d = .free (l.extent.start + q.offset) ∨ d = .occupied (l.extent.start + q.offset) := by
  obtain ⟨_, free | occupied | anywhere⟩ := destination_cases ok
  · exact .inl free.2.1
  · exact .inr occupied.2.1
  · exact absurd chooses anywhere.1

namespace Space
variable {s : Space M} {m : Mapping} {pending : List Entry}

/-- The call destroys a region around the node with this handle. -/
def Uproots (s : Space M) (op : Operation) (h : Handle) : Prop :=
  ∃ n ∈ s.nodes, op = .destroy n.handle ∧ n.handle ≠ h ∧ ∃ x ∈ n.toList, x.handle = h

/-- What holds as long as a mapping is the recorded system image. -/
structure Pins [Mmu M] (s : Space M) (m : Mapping) : Prop where
  recorded : s.resources.image = some m.handle
  alive : s.liveNode m.handle = .ok (.mapping m)
  /-- No range that overlaps it is unmapped, through whatever region. -/
  unmap : ∀ commitments region base size,
    m.extent.overlaps ⟨base.toNat, base.toNat + Address.wholePages size.toNat⟩ →
      ∃ f, (s.perform commitments (.unmap region base size)).answer = .error f
  /-- No mapping is made at a chosen place that overlaps it, whether or not it may displace others. -/
  place : ∀ commitments parent l children sketch object offset access,
    s.liveRegion parent = .ok (l, children) → sketch.flags.choosesPlace →
      m.extent.overlaps ⟨l.extent.start + sketch.offset.toNat,
        l.extent.start + sketch.offset.toNat + Address.wholePages sketch.size.toNat⟩ →
        ∃ f, (s.perform commitments (.addMapping parent sketch object offset access)).answer = .error f
  /-- Its permissions are not changed through the region that it is a child of. -/
  protect : ∀ commitments region l children base size access,
    s.liveRegion region = .ok (l, children) → .mapping m ∈ children →
      m.extent.overlaps ⟨base.toNat, base.toNat + Address.wholePages size.toNat⟩ →
        ∃ f, (s.perform commitments (.protect region base size access)).answer = .error f
  destroy : ∀ commitments, s.perform commitments (.destroy m.handle) =
    .fail Error.accessDenied (s, commitments)
  /-- It goes with a region around it, and is no longer recorded then. -/
  released : ∀ commitments op, s.Uproots op m.handle →
    (s.perform commitments op).answer = .ok none ∧
      (s.perform commitments op).state.1.resources.image = none ∧
      (s.perform commitments op).state.1.node? m.handle = none

theorem Kept.unmapTarget_refused (kept : s.Kept pending) (alive : .mapping m ∈ s.nodes)
    (image : s.resources.image = some m.handle) (region : Handle) {base size : Nat}
    (sparing : Bool) (overlaps : m.extent.overlaps ⟨base, base + size⟩) :
    ∃ f, s.unmapTarget region base size sparing = .error f := by
  cases outcome : s.unmapTarget region base size sparing with
  | error f => exact ⟨f, rfl⟩
  | ok found =>
      obtain ⟨target, slice⟩ := found
      obtain ⟨l, children, live, ranges, rfl, spared⟩ := unmapTarget_ok outcome
      have same : target = ⟨base, base + size⟩ := congrArg₂ Span.mk ranges.start ranges.stop
      rcases spared with rfl | ⟨spared, _⟩
      · have apart := kept.free_of_mappings (liveRegion_ok live).2 ranges.low ranges.high nofun
          (mapping_mem_nodes_iff.mp alive)
        simp only [same] at apart
        simp only [Span.overlaps_iff] at overlaps
        omega
      · rw [kept.imageTouches_eq alive image, same, overlaps] at spared
        cases spared

variable [Mmu M]

theorem unmap_refused (kept : s.Kept []) (alive : .mapping m ∈ s.nodes)
    (image : s.resources.image = some m.handle) (region : Handle) {base size : UInt64}
    (overlaps : m.extent.overlaps ⟨base.toNat, base.toNat + Address.wholePages size.toNat⟩) :
    ∃ f, (s.unmap region base size).answer = .error f := by
  simp only [unmap]
  split
  · exact ⟨_, rfl⟩
  · obtain ⟨f, refused⟩ := kept.unmapTarget_refused alive image region false overlaps
    exact ⟨f, by rw [unmapRange, refused]; rfl⟩

theorem addOver_refused (kept : s.Kept []) (alive : .mapping m ∈ s.nodes)
    (image : s.resources.image = some m.handle) (parent : Handle) {base : Nat} {q : NodeRequest}
    (paged : q.Paged) (start : base % pageSize = 0) (overlaps : m.extent.overlaps ⟨base, base + q.size⟩) :
    ∃ f, (s.addOver parent base q).answer = .error f := by
  simp only [addOver]
  split
  · exact ⟨_, rfl⟩
  · next built r done =>
      obtain ⟨holds, _, _, _, _, _, _, same, _⟩ := make_follows kept paged start done
      obtain ⟨f, refused⟩ :=
        holds.kept.unmapTarget_refused alive (same.trans image) parent true overlaps
      exact ⟨f, by rw [unmapRange, refused]; rfl⟩

theorem add_refused (kept : s.Kept []) (alive : .mapping m ∈ s.nodes)
    (image : s.resources.image = some m.handle) {parent : Handle} {l : Label} {children : Forest}
    (live : s.liveRegion parent = .ok (l, children)) {q : NodeRequest} (paged : q.Paged)
    (chooses : q.flags.choosesPlace)
    (overlaps : m.extent.overlaps ⟨l.extent.start + q.offset, l.extent.start + q.offset + q.size⟩) :
    ∃ f, (s.add parent q).answer = .error f := by
  obtain ⟨_, region⟩ := liveRegion_ok live
  simp only [add, live]
  split
  · exact ⟨_, rfl⟩
  · have quiet := s.resources.quiet_conflict q
    have told : Follows .shape [] s [] _ := .quiet kept quiet
    cases found : q.settled.destination l children with
    | error f => exact ⟨f, rfl⟩
    | ok d =>
        have valid := NodeRequest.destination_ok (kept.lined region) found
        rcases NodeRequest.destination_base (q := q.settled) chooses found with rfl | rfl
        · -- The place would be free of all children, and so of all mappings.
          obtain ⟨_, low, high, free⟩ := valid
          have apart : m.extent.stop ≤ l.extent.start + q.offset ∨
              l.extent.start + q.offset + q.size ≤ m.extent.start :=
            kept.free_of_mappings region low high free (mapping_mem_nodes_iff.mp alive)
          simp only [Span.overlaps_iff] at overlaps
          omega
        · exact addOver_refused told.kept alive (quiet.image.trans image) parent paged.settled valid.1
            overlaps

theorem addMapping_refused (kept : s.Kept []) (alive : .mapping m ∈ s.nodes)
    (image : s.resources.image = some m.handle) {parent : Handle} {l : Label} {children : Forest}
    (live : s.liveRegion parent = .ok (l, children)) {sketch : Sketch} (object : MemoryObject)
    (offset : UInt64) (access : PageFlags) (chooses : sketch.flags.choosesPlace)
    (overlaps : m.extent.overlaps ⟨l.extent.start + sketch.offset.toNat,
      l.extent.start + sketch.offset.toNat + Address.wholePages sketch.size.toNat⟩) :
    ∃ f, (s.addMapping parent sketch object offset access).answer = .error f := by
  rcases addMapping_cases s parent sketch object offset access with same | ⟨paged, same⟩ <;> rw [same]
  · exact ⟨_, rfl⟩
  · have chooses : (sketch.mapping object offset access).flags.choosesPlace :=
      Flags.intersects_union chooses
    exact add_refused kept alive image live paged chooses (by simpa only [Sketch.mapping] using overlaps)

theorem protect_refused (kept : s.Kept []) (image : s.resources.image = some m.handle) {region : Handle}
    {l : Label} {children : Forest} (live : s.liveRegion region = .ok (l, children))
    (child : .mapping m ∈ children) {base size : UInt64} (access : PageFlags)
    (overlaps : m.extent.overlaps ⟨base.toNat, base.toNat + Address.wholePages size.toNat⟩) :
    ∃ f, (s.protect region base size access).answer = .error f := by
  simp only [protect]
  split
  · exact ⟨_, rfl⟩
  · split
    · exact ⟨_, rfl⟩
    · next target slice ok =>
        obtain ⟨l', children', live', ranges, rfl, allowed⟩ := protectTarget_ok ok
        cases live.symm.trans live'
        simp only [Span.overlaps_iff] at overlaps
        have inside : .mapping m ∈ (Forest.slice target children).inside := by
          refine Forest.mem_inside_of_overlaps (kept.lined (liveRegion_ok live).2) child ?_ ?_
          · rw [ranges.start]
            exact overlaps.2
          · rw [ranges.stop]
            exact overlaps.1
        obtain ⟨x, same, _, other⟩ := allowed _ inside
        cases same
        exact absurd image other

theorem destroy_releases (picks : Mmu.PicksPages M) (kept : s.Kept [])
    (image : s.resources.image = some m.handle) (commitments : Commitments) {op : Operation}
    (uproots : s.Uproots op m.handle) :
    (s.perform commitments op).answer = .ok none ∧
      (s.perform commitments op).state.1.resources.image = none ∧
      (s.perform commitments op).state.1.node? m.handle = none := by
  obtain ⟨n, alive, rfl, other, x, hx, handle⟩ := uproots
  have live := kept.liveNode_eq alive
  have done : s.destroy n.handle = .ok () (s.destroy n.handle).state := by
    rw [Space.destroy, live]
    simp only [image, Option.some.injEq, other.symm, if_false]
    rfl
  have whole : s.perform commitments (.destroy n.handle) =
      .ok none ((s.destroy n.handle).state, commitments) := by
    rw [perform, done]
    rfl
  have kept' := (perform_follows picks kept commitments (.destroy n.handle)).kept
  have below := (perform_recalls picks kept commitments (.destroy n.handle)).below kept kept' alive
  rw [whole] at kept' below ⊢
  have gone : (s.destroy n.handle).state.node? m.handle = none :=
    handle ▸ below (perform_destroyed kept whole) x hx
  refine ⟨rfl, Option.eq_none_iff_forall_ne_some.mpr fun h same => ?_, gone⟩
  -- What is still recorded was so before, and would be alive.
  obtain ⟨m', member, rfl, _⟩ := kept'.sound.recorded h same
  have before : s.resources.image = some m'.handle := by
    rcases destroy_cases kept n.handle with ⟨f, failed⟩ | ⟨c, n', _, _, _, after⟩
    · cases failed.symm.trans done
    · rw [after] at same
      exact n'.image_of_destroy same
  have here : m.handle = m'.handle := Option.some.inj (image.symm.trans before)
  have found : _ = some _ := kept'.node?_eq (mapping_mem_nodes_iff.mpr member)
  cases (here ▸ gone).symm.trans found

theorem perform_image (kept : s.Kept []) {h : Handle} (image : s.resources.image = some h)
    (commitments : Commitments) {op : Operation} (stays : ¬ s.Uproots op h) :
    (s.perform commitments op).state.1.resources.image = some h := by
  cases op with
  | addRegion parent sketch =>
      simp only [perform, Outcome.beside, Outcome.map]
      rcases addRegion_cases s parent sketch with same | ⟨paged, same⟩ <;> rw [same]
      · exact image
      · exact add_image kept parent paged image
  | addMapping parent sketch object offset access =>
      simp only [perform, Outcome.beside, Outcome.map]
      rcases addMapping_cases s parent sketch object offset access with same | ⟨paged, same⟩ <;> rw [same]
      · exact image
      · exact add_image kept parent paged image
  | unmap region base size =>
      simp only [perform, Outcome.beside, Outcome.map, unmap]
      split
      · exact image
      · exact (unmapRange_image kept region _ _ false).trans image
  | protect region base size access =>
      simp only [perform, Outcome.beside, Outcome.map]
      exact (protect_image s region base size access).trans image
  | destroy node =>
      simp only [perform, Outcome.beside, Outcome.map]
      rcases destroy_cases kept node with ⟨f, same⟩ | ⟨c, n, rfl, tree, other, same⟩
      · rw [same]
        exact image
      · rw [same]
        refine (n.image_destroy fun e he recorded => stays ?_).trans image
        have alive := mem_nodes_of_plug tree
        have here : e.handle = h := Option.some.inj (recorded.symm.trans image)
        rw [← n.map_entry_toList, List.mem_map] at he
        obtain ⟨x, hx, rfl⟩ := he
        refine ⟨n, alive, rfl, fun own => other (own ▸ image), x, hx, x.handle_entry ▸ here⟩
  | resolve region address flags =>
      simp only [perform, Outcome.map]
      rcases resolveBelow_cases kept commitments region address flags with
        ⟨_, r, _, quiet, same⟩ | ⟨_, _, _, r, _, _, _, _, _, quiet, same⟩
      · rw [same]
        exact quiet.image.trans image
      · rw [same]
        exact quiet.image.trans image
  | find region address => exact image
  | report node depth =>
      simp only [perform, Outcome.beside, Outcome.map, reportListing]
      split
      · exact (s.resources.quiet_reportAll _).image.trans image
      · exact image
      · exact image

/-- The recorded mapping stays what it is, where it is, unless a region around it is destroyed. -/
theorem perform_keeps_image (picks : Mmu.PicksPages M) (kept : s.Kept []) (alive : .mapping m ∈ s.nodes)
    (image : s.resources.image = some m.handle) (commitments : Commitments) {op : Operation}
    (stays : ¬ s.Uproots op m.handle) :
    .mapping m ∈ (s.perform commitments op).state.1.nodes ∧
      (s.perform commitments op).state.1.resources.image = some m.handle := by
  have image' := perform_image kept image commitments stays
  have evolves := (perform_follows picks kept commitments op).evolves
  rcases evolves.image_stays kept.sound.balanced (mapping_mem_nodes_iff.mp alive) image with
    ⟨alive', _⟩ | gone
  · exact ⟨mapping_mem_nodes_iff.mpr alive', image'⟩
  · exact absurd image' gone.forgotten

theorem Kept.pins (picks : Mmu.PicksPages M) (kept : s.Kept []) (alive : .mapping m ∈ s.nodes)
    (image : s.resources.image = some m.handle) : s.Pins m where
  recorded := image
  alive := kept.liveNode_eq alive
  unmap commitments region base size overlaps := by
    obtain ⟨f, refused⟩ := unmap_refused kept alive image region overlaps
    simp only [perform, Outcome.beside]
    exact ⟨f, Outcome.map_eq_error.mpr refused⟩
  place commitments parent l children sketch object offset access live chooses overlaps := by
    obtain ⟨f, refused⟩ := addMapping_refused kept alive image live object offset access chooses overlaps
    simp only [perform, Outcome.beside]
    exact ⟨f, Outcome.map_eq_error.mpr refused⟩
  protect commitments region l children base size access live child overlaps := by
    obtain ⟨f, refused⟩ := protect_refused kept image live child access overlaps
    simp only [perform, Outcome.beside]
    exact ⟨f, Outcome.map_eq_error.mpr refused⟩
  destroy commitments := by
    have live : s.liveNode m.handle = .ok (.mapping m) := kept.liveNode_eq alive
    rw [perform, Space.destroy, live]
    simp only [image, if_true]
    rfl
  released commitments op uproots := destroy_releases picks kept image commitments uproots

/-- Once a mapping is recorded as the system image, no calls move, cut, change or displace it, until a
region around it is destroyed. That call succeeds, and the mapping is neither alive nor recorded then. -/
theorem run_pins (picks : Mmu.PicksPages M) {mmu : M} {c : SpaceConfig} {entropy : Entropy}
    (new : Space.new mmu c entropy = .ok s) (commitments : Commitments) (ops : List Operation)
    {h : Handle} (image : (run (s, commitments) ops).1.resources.image = some h) :
    ∃ m : Mapping, m.handle = h ∧ ∀ later : List Operation,
      (∀ done op, done ++ [op] <+: later → ¬ (run (s, commitments) (ops ++ done)).1.Uproots op h) →
        (run (s, commitments) (ops ++ later)).1.Pins m := by
  have kept (done : List Operation) : (run (s, commitments) done).1.Kept [] :=
    run_kept (w := (s, commitments)) picks (new_kept new) done
  obtain ⟨m, member, rfl, _⟩ := (kept ops).sound.recorded h image
  have stays : ∀ later : List Operation,
      (∀ done op, done ++ [op] <+: later →
        ¬ (run (s, commitments) (ops ++ done)).1.Uproots op m.handle) →
      .mapping m ∈ (run (s, commitments) (ops ++ later)).1.nodes ∧
        (run (s, commitments) (ops ++ later)).1.resources.image = some m.handle := by
    intro later spared
    induction later using List.reverseRecOn with
    | nil =>
        rw [List.append_nil]
        exact ⟨mapping_mem_nodes_iff.mpr member, image⟩
    | append_singleton done op ih =>
        obtain ⟨alive, image⟩ := ih fun before x here =>
          spared before x (here.trans (List.prefix_append _ _))
        rw [← List.append_assoc, run_append]
        exact perform_keeps_image picks (kept _) alive image _ (spared done op (List.prefix_refl _))
  refine ⟨m, rfl, fun later spared => ?_⟩
  obtain ⟨alive, image⟩ := stays later spared
  exact (kept _).pins picks alive image

/-- The code of a system image is mapped in a region. Unmapping that region's range from outside and
destroying the mapping do not get at it. -/
theorem run_pins_nested :
    ∃ s, Space.new PageTable.empty ⟨.user, 0, 0x8000, .empty, 4⟩ ⟨none⟩ = .ok s ∧
      ∃ m : Mapping, m.handle = ⟨2, 2⟩ ∧ (run (s, []) ([
        .addRegion ⟨0, 0⟩ { size := 0x4000, flags := RegionFlags.mapAll },
        .addMapping ⟨1, 1⟩ { size := 0x1000 } ⟨0, 0x2000, none, some ⟨0, 0x1000⟩, false⟩ 0
          PageFlags.execute] ++
        [.unmap ⟨0, 0⟩ 0 0x4000, .destroy ⟨2, 2⟩])).1.Pins m := by
  obtain ⟨s, new⟩ : ∃ s, Space.new PageTable.empty ⟨.user, 0, 0x8000, .empty, 4⟩ ⟨none⟩ = .ok s :=
    ⟨_, rfl⟩
  have image : (run (s, []) [.addRegion ⟨0, 0⟩ { size := 0x4000, flags := RegionFlags.mapAll },
      .addMapping ⟨1, 1⟩ { size := 0x1000 } ⟨0, 0x2000, none, some ⟨0, 0x1000⟩, false⟩ 0
        PageFlags.execute]).1.resources.image = some ⟨2, 2⟩ := by
    cases new
    decide +kernel
  obtain ⟨m, same, pins⟩ := run_pins .pageTable new [] _ image
  refine ⟨s, new, m, same, pins _ fun done op here => ?_⟩
  rintro ⟨n, _, rfl, other, _⟩
  have called : Operation.destroy n.handle ∈ _ :=
    here.subset (List.mem_append_right _ (List.mem_singleton_self _))
  rcases List.mem_cons.mp called with here | called
  · cases here
  · exact other (Operation.destroy.inj (List.mem_singleton.mp called))

end Space
end RegionTree
