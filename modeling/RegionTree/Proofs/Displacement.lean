import RegionTree.Proofs.Pinned
import RegionTree.Proofs.Replacement

/-! Displacement: a mapping that is made where others have to go leaves what unmapping its range first and
asking for it then leaves, but for the handles of new nodes. It displaces no region. -/
namespace RegionTree
variable {M : Type}

def NodeRequest.placeIn (q : NodeRequest) (l : Label) : Span :=
  ⟨l.extent.start + q.offset, l.extent.start + q.offset + q.size⟩

theorem NodeRequest.destination_occupied {l : Label} {children : Forest} {q : NodeRequest} {d : Destination}
    (lined : Forest.Lined l.extent children) (chooses : q.flags.choosesPlace)
    (taken : ∃ n ∈ children, n.extent.overlaps (q.placeIn l))
    (ok : q.destination l children = .ok d) : d = .occupied (l.extent.start + q.offset) := by
  refine (destination_base chooses ok).resolve_left ?_
  rintro rfl
  obtain ⟨_, _, _, free⟩ := destination_ok lined ok
  obtain ⟨n, hn, overlaps⟩ := taken
  have := free n hn
  rw [Span.overlaps_iff] at overlaps
  have : n.start < l.extent.start + q.offset + q.size ∧ l.extent.start + q.offset < n.stop := overlaps
  omega

theorem NodeRequest.destination_free {l : Label} {children row : Forest} {q : NodeRequest} {base : Nat}
    (ok : q.destination l children = .ok (.occupied base))
    (free : Forest.isFree base q.size row = true) : q.destination l row = .ok (.free base) := by
  obtain ⟨_, grants, ok⟩ := check_eq_ok.mp ok
  obtain ⟨_, inside, ok⟩ := check_eq_ok.mp ok
  refine check_eq_ok.mpr ⟨_, grants, check_eq_ok.mpr ⟨_, inside, ?_⟩⟩
  split at ok
  · cases ok
  · next demand same =>
      split at ok
      · next chooses =>
          obtain ⟨_, paged, ok⟩ := check_eq_ok.mp ok
          obtain ⟨_, aligned, ok⟩ := check_eq_ok.mp ok
          split at ok
          · cases ok
          · split at ok
            · cases ok
              simp only [chooses, if_true]
              refine check_eq_ok.mpr ⟨_, paged, check_eq_ok.mpr ⟨_, aligned, ?_⟩⟩
              rw [if_pos free]
            · cases ok
      · cases ok

theorem Sketch.placeIn_mapping (sketch : Sketch) (object : MemoryObject) (offset : UInt64)
    (access : PageFlags) (l : Label) (some : 0 < (sketch.mapping object offset access).size) :
    (sketch.mapping object offset access).placeIn l =
      .inPages (l.extent.start + sketch.offset.toNat) sketch.size.toNat := by
  simp only [Sketch.mapping, NodeRequest.placeIn] at some ⊢
  rw [Span.inPages, (Address.wholePages_ne_zero (Nat.pos_iff_ne_zero.mp some)).2]

namespace Space
variable [Mmu M] {s s' : Space M} {l : Label} {children : Forest} {h : Handle}
variable {sketch : Sketch} {object : MemoryObject} {offset : UInt64} {access : PageFlags}

/-- What making a mapping comes to that may displace others and finds its place taken. -/
structure Displaces (s : Space M) (l : Label) (children : Forest) (sketch : Sketch) (object : MemoryObject)
    (offset : UInt64) (access : PageFlags) (o : Outcome (Space M) Handle) : Prop where
  /-- If it succeeds, so do unmapping the range and then asking for the same, and both ways leave the same
  but for the handles of new nodes. -/
  renamed : ∀ h, o.answer = .ok h → ∃ s₁ h' s₂ f,
    s.unmap l.handle (UInt64.ofNat (l.extent.start + sketch.offset.toNat)) sketch.size = .ok () s₁ ∧
      s₁.addMapping l.handle sketch object offset access = .ok h' s₂ ∧
        f h = h' ∧ (∀ n ∈ s.nodes, f n.handle = n.handle) ∧ o.state.Renamed f s₂
  /-- It fails if a child that is a region overlaps the range. -/
  refused : ∀ n ∈ children, n.isRegion →
    n.extent.overlaps (.inPages (l.extent.start + sketch.offset.toNat) sketch.size.toNat) →
      ∃ f, o.answer = .error f
  /-- Whatever it answers, all regions stay. -/
  spared : ∀ sub, .region sub ∈ s.entries → .region sub ∈ o.state.entries

/-- The checks that a request for a mapping passes do not depend on the space. -/
theorem addMapping_ok {parent : Handle}
    (done : s.addMapping parent sketch object offset access = ⟨.ok h, s'⟩) :
    (sketch.mapping object offset access).Paged ∧ ∀ s₁ : Space M,
      s₁.addMapping parent sketch object offset access =
        s₁.add parent (sketch.mapping object offset access) := by
  rcases addMapping_cases s parent sketch object offset access with refused | ⟨paged, _⟩
  · cases refused.symm.trans done
  · refine ⟨paged, fun s₁ => ?_⟩
    simp only [addMapping] at done ⊢
    split at done
    · cases done
    · next fine =>
        rw [if_neg fine]
        rfl

theorem Kept.checkGrants_of_add (kept : s.Kept []) (alive : .region l children ∈ s.nodes) {q : NodeRequest}
    (done : s.add l.handle q = ⟨.ok h, s'⟩) : q.checkGrants l.flags = .ok () := by
  simp only [add, kept.liveRegion_eq alive] at done
  split at done
  · cases done
  · next grants => exact grants

theorem Kept.add_over (kept : s.Kept []) (alive : .region l children ∈ s.nodes) {q : NodeRequest}
    (chooses : q.flags.choosesPlace)
    (taken : ∃ n ∈ children, n.extent.overlaps (q.placeIn l))
    (done : s.add l.handle q = ⟨.ok h, s'⟩) :
    q.settled.destination l children = .ok (.occupied (l.extent.start + q.offset)) ∧
      ({ s with resources := q.conflict.elim s.resources s.resources.note } : Space M).addOver l.handle
        (l.extent.start + q.offset) q.settled = ⟨.ok h, s'⟩ := by
  have grants := kept.checkGrants_of_add alive done
  simp only [add, kept.liveRegion_eq alive, grants] at done
  cases found : q.settled.destination l children with
  | error f =>
      rw [found] at done
      cases done
  | ok d =>
      cases NodeRequest.destination_occupied (q := q.settled) (kept.lined alive) chooses taken found
      rw [found] at done
      exact ⟨rfl, done⟩

/-- A request has displaced what was in its place. -/
structure Displaced (s : Space M) (q : NodeRequest) (c : Context) (l : Label) (children : Forest)
    (h : Handle) (s' : Space M) : Prop where
  grants : q.checkGrants l.flags = .ok ()
  found : q.settled.destination l children = .ok (.occupied (l.extent.start + q.offset))
  start : (l.extent.start + q.offset) % pageSize = 0
  ranges : Ranges l (l.extent.start + q.offset) q.size (q.placeIn l)
  apart : ∀ n ∈ children, n.isRegion → ¬ n.extent.overlaps (q.placeIn l)
  yields : children = [] ∨ s.Yields children (q.placeIn l)
  replaced : ∃ built r new, (q.conflict.elim s.resources s.resources.note).make (l.extent.start + q.offset)
      q.settled = ⟨.ok built, r⟩ ∧ built.node.handle = h ∧
    s.resources.nextGeneration ≤ h.generation ∧ h.generation < new.generation ∧
      s.Replaced q.settled c l children (q.placeIn l) new built s'

theorem Kept.add_displaced (kept : s.Kept []) (tree : s.tree = some (Context.plug c (.region l children)))
    (clipped : ∀ n ∈ children, n.entry.Clipped) {q : NodeRequest} (paged : q.Paged)
    (chooses : q.flags.choosesPlace)
    (taken : ∃ n ∈ children, n.extent.overlaps (q.placeIn l))
    (done : s.add l.handle q = ⟨.ok h, s'⟩) : s.Displaced q c l children h s' := by
  have alive := mem_nodes_of_plug tree
  obtain ⟨found, displaced⟩ := kept.add_over alive chooses taken done
  have quiet := s.resources.quiet_conflict q
  have told := kept.quiet quiet
  obtain ⟨start, _, _⟩ := NodeRequest.destination_ok (kept.lined alive) found
  obtain ⟨ranges, apart, yields⟩ := told.yields_of_addOver paged.settled start alive rfl displaced
  obtain ⟨built, r, new, made, rfl, recent, later, replaced⟩ :=
    told.addOver_replaced paged.settled start tree clipped displaced
  exact ⟨kept.checkGrants_of_add alive done, found, start, ranges, apart, yields.imp_right (·.quiet quiet),
    built, r, new, made, rfl, Nat.le_trans quiet.generation (Nat.le_of_eq recent.symm), later,
    replaced.quiet quiet⟩

/-- A request that displaces could do so in two calls. -/
theorem Displaced.renamed (kept : s.Kept []) (tree : s.tree = some (Context.plug c (.region l children)))
    (clipped : ∀ n ∈ children, n.entry.Clipped) {q : NodeRequest} (paged : q.Paged)
    (backed : q.backing.isSome) (displaced : s.Displaced q c l children h s') : ∃ s₁ h' s₂ f,
      s.unmapRange l.handle (l.extent.start + q.offset) q.size false = ⟨.ok (), s₁⟩ ∧
        s₁.add l.handle q = ⟨.ok h', s₂⟩ ∧ f h = h' ∧ (∀ n ∈ s.nodes, f n.handle = n.handle) ∧
          s'.Renamed f s₂ := by
  obtain ⟨grants, found, start, ranges, _, yields, built, _, new, made, rfl, recent, later, replaced⟩ :=
    displaced
  obtain ⟨s₁, unmapped⟩ : ∃ s₁, s.unmapRange l.handle (l.extent.start + q.offset) q.size false =
      ⟨.ok (), s₁⟩ := by
    have able := (kept.unmapRange_minus (mem_nodes_of_plug tree) clipped rfl).1.mpr
      ⟨ranges.wide, Span.covers_iff.mpr ⟨ranges.low, ranges.high⟩, yields⟩
    exact ⟨_, by rw [← able]⟩
  obtain ⟨_, cleared⟩ := kept.unmapRange_cleared start paged.size tree clipped unmapped
  have alive₁ := mem_nodes_of_plug cleared.filled
  have quiet := s.resources.quiet_conflict q
  have quiet₁ := s₁.resources.quiet_conflict q
  have room := replaced.room kept tree recent later cleared
  obtain ⟨built', _, made'⟩ := Resources.make_again made
    (quiet₁.image.trans (cleared.image.trans quiet.image.symm)) (quiet₁.inUse ▸ quiet₁.capacity ▸ room)
  obtain ⟨s₂, joined, replaced'⟩ := cleared.addAt_replaced paged.settled start quiet₁ made'
  obtain ⟨f, node, behind, fixed⟩ := kept.exists_renaming recent later built'.node.handle _
  have again : s₁.add l.handle q = ⟨.ok built'.node.handle, s₂⟩ := by
    have free : Forest.isFree (l.extent.start + q.offset) q.settled.size _ = true :=
      (Forest.isFree_iff (cleared.kept.lined alive₁) (Nat.pos_of_lt_add_right ranges.wide)).mpr cleared.free
    simp only [add, cleared.kept.liveRegion_eq alive₁, grants, NodeRequest.destination_free found free]
    exact joined
  refine ⟨s₁, _, s₂, f, unmapped, again, node, fun n hn => ?_, ?_⟩
  · rw [← n.handle_entry]
    exact fixed _ (entry_mem hn)
  · exact replaced.renamed kept tree (by rwa [NodeRequest.settled, Option.isSome_map]) replaced' node behind
      fixed

theorem unmap_of_mapping (region : Handle) {start : Nat}
    (some : 0 < (sketch.mapping object offset access).size)
    (paged : (start + sketch.offset.toNat) % pageSize = 0)
    (fits : start + sketch.offset.toNat < Address.limit) :
    s.unmap region (UInt64.ofNat (start + sketch.offset.toNat)) sketch.size =
      s.unmapRange region (start + (sketch.mapping object offset access).offset)
        (sketch.mapping object offset access).size false := by
  have base : (UInt64.ofNat (start + sketch.offset.toNat)).toNat = start + sketch.offset.toNat :=
    UInt64.toNat_ofNat_of_lt' (by rwa [Address.limit, Nat.one_shiftLeft] at fits)
  simp only [Sketch.mapping] at some ⊢
  rw [unmap_of_valid (Nat.pos_iff_ne_zero.mp some) (base.symm ▸ paged), base]

theorem Kept.addMapping_displaces (picks : Mmu.PicksPages M) (kept : s.Kept [])
    (alive : .region l children ∈ s.nodes) (clipped : ∀ n ∈ children, n.entry.Clipped)
    (replaces : sketch.flags.contains RegionFlags.overwrite)
    (taken : ∃ n ∈ children, n.extent.overlaps
      (.inPages (l.extent.start + sketch.offset.toNat) sketch.size.toNat)) :
    s.Displaces l children sketch object offset access
      (s.addMapping l.handle sketch object offset access) := by
  cases outcome : s.addMapping l.handle sketch object offset access with
  | mk answer s' =>
    have creates := addMapping_creates picks kept l.handle sketch object offset access
    rw [outcome] at creates
    cases answer with
    | error f =>
        refine ⟨nofun, fun _ _ _ _ => ⟨f, rfl⟩, fun sub member => ?_⟩
        have same : s'.entries = s.entries := by rw [entries, (creates.alike f rfl).tree, entries]
        exact same ▸ member
    | ok h =>
        obtain ⟨c, tree⟩ := exists_plug alive
        obtain ⟨paged, again⟩ := addMapping_ok outcome
        have done := (again s).symm.trans outcome
        have some := (NodeRequest.granted_of_checkGrants (kept.checkGrants_of_add alive done)).sized
        have pages := sketch.placeIn_mapping object offset access l some
        have chooses : (sketch.mapping object offset access).flags.choosesPlace :=
          Flags.intersects_union (Flags.intersects_of_contains replaces Flags.union_contains_right rfl)
        rw [← pages] at taken
        have displaced := kept.add_displaced tree clipped paged chooses taken done
        obtain ⟨s₁, h', s₂, f, unmapped, joined, node, fixed, renamed⟩ :=
          displaced.renamed kept tree clipped paged rfl
        have ranges := displaced.ranges
        obtain ⟨_, _, _, _, _, _, _, replaced⟩ := displaced.replaced
        refine ⟨?renamed, fun n hn isRegion overlaps => ?refused, fun sub member => ?spared⟩
        case renamed =>
          rintro _ ⟨⟩
          have fits : l.extent.start + sketch.offset.toNat < Address.limit :=
            Nat.lt_trans (Nat.lt_of_lt_of_le ranges.wide ranges.high) l.extent.stop_lt_limit
          exact ⟨s₁, h', s₂, f, (unmap_of_mapping l.handle some displaced.start fits).trans unmapped,
            (again s₁).trans joined, node, fixed, renamed⟩
        case refused =>
          rw [← pages] at overlaps
          exact absurd overlaps (displaced.apart n hn isRegion)
        case spared => exact replaced.spared tree ranges.wide displaced.apart member

/-- After any sequence of calls, making a mapping where others have to go leaves what unmapping the range and
then making the mapping leaves, but for the handles of new nodes. It fails where a region would have to go. -/
theorem run_displaces (picks : Mmu.PicksPages M) {mmu : M} {c : SpaceConfig} {entropy : Entropy}
    (new : Space.new mmu c entropy = .ok s) (commitments : Commitments) (ops : List Operation)
    (alive : .region l children ∈ (run (s, commitments) ops).1.nodes)
    (replaces : sketch.flags.contains RegionFlags.overwrite)
    (taken : ∃ n ∈ children, n.extent.overlaps
      (.inPages (l.extent.start + sketch.offset.toNat) sketch.size.toNat)) :
    (run (s, commitments) ops).1.Displaces l children sketch object offset access
      ((run (s, commitments) ops).1.addMapping l.handle sketch object offset access) :=
  (run_kept (w := (s, commitments)) picks (new_kept new) ops).addMapping_displaces picks alive
    (run_clipped picks new commitments ops alive) replaces taken

/-- A mapping of two pages takes the place of the middle of another one, of four pages. -/
theorem run_displaces_middle :
    ∃ s t l children, Space.new PageTable.empty ⟨.kernel, 0, 0x8000, .empty, 4⟩ ⟨none⟩ = .ok s ∧
      (run (s, []) [.addMapping ⟨0, 0⟩ { size := 0x4000 } ⟨0, 0x4000, none, none, false⟩ 0
        PageFlags.read]).1 = t ∧ Mmu.PicksPages PageTable ∧ .region l children ∈ t.nodes ∧
      RegionFlags.overwrite.contains RegionFlags.overwrite ∧
      (∃ n ∈ children, n.extent.overlaps (.inPages (l.extent.start + 0x1000) 0x2000)) ∧
      (t.addMapping l.handle { offset := 0x1000, size := 0x2000, flags := RegionFlags.overwrite }
        ⟨1, 0x2000, none, none, false⟩ 0 PageFlags.read).answer = .ok ⟨2, 2⟩ ∧
      t.Displaces l children { offset := 0x1000, size := 0x2000, flags := RegionFlags.overwrite }
        ⟨1, 0x2000, none, none, false⟩ 0 PageFlags.read
        (t.addMapping l.handle { offset := 0x1000, size := 0x2000, flags := RegionFlags.overwrite }
          ⟨1, 0x2000, none, none, false⟩ 0 PageFlags.read) := by
  obtain ⟨s, new⟩ : ∃ s, Space.new PageTable.empty ⟨.kernel, 0, 0x8000, .empty, 4⟩ ⟨none⟩ = .ok s :=
    ⟨_, rfl⟩
  obtain ⟨t, made⟩ : ∃ t, (run (s, []) [.addMapping ⟨0, 0⟩ { size := 0x4000 }
      ⟨0, 0x4000, none, none, false⟩ 0 PageFlags.read]).1 = t := ⟨_, rfl⟩
  have facts : ((t.liveRegion ⟨0, 0⟩).toOption.any fun x => x.2.any
        (·.extent.overlaps (.inPages (x.1.extent.start + 0x1000) 0x2000))) ∧
      (t.addMapping ⟨0, 0⟩ { offset := 0x1000, size := 0x2000, flags := RegionFlags.overwrite }
        ⟨1, 0x2000, none, none, false⟩ 0 PageFlags.read).answer = .ok ⟨2, 2⟩ := by
    subst made
    cases new
    decide +kernel
  obtain ⟨live, done⟩ := facts
  obtain ⟨l, children, handle, alive, overlaps⟩ := exists_alive_of_any live
  have taken := List.any_eq_true.mp overlaps
  refine ⟨s, t, l, children, new, made, .pageTable, alive, rfl, taken, handle ▸ done, ?_⟩
  subst made
  exact run_displaces .pageTable new [] _ alive rfl taken

end Space
end RegionTree
