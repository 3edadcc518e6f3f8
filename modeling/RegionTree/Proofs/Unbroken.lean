import RegionTree.Proofs.Breaches
import RegionTree.Proofs.Reach

/-! After any run: no call through a handle of the space breaks a rule, whatever its arguments are. -/
namespace RegionTree

mutual
theorem Node.pages_le : (n : Node) → n.Nested → n.pages * pageSize ≤ n.stop - n.start
  | .region l children, nested => by
      cases nested with
      | region lined inner => exact Forest.pages_le children lined.apart inner lined.within
  | .mapping m, _ => Nat.div_mul_le_self _ _
theorem Forest.pages_le {lower upper : Nat} : (ns : Forest) → (ns.Pairwise fun a b => a.stop ≤ b.start) →
    (∀ n ∈ ns, n.Nested) → (∀ n ∈ ns, lower ≤ n.start ∧ n.stop ≤ upper) →
      Forest.pages ns * pageSize ≤ upper - lower
  | [], _, _, _ => by simp [Forest.pages]
  | n :: ns, apart, nested, within => by
      obtain ⟨first, others⟩ := List.pairwise_cons.mp apart
      obtain ⟨here, nestedRest⟩ := List.forall_mem_cons.mp nested
      obtain ⟨⟨low, high⟩, withinRest⟩ := List.forall_mem_cons.mp within
      have own := n.pages_le here
      have rest := Forest.pages_le ns others nestedRest fun x hx => ⟨first x hx, (withinRest x hx).2⟩
      have wide := n.start_lt_stop
      rw [Forest.pages, Nat.add_mul]
      omega
end

def Operation.HasFrames : Operation → Prop
  | .addMapping _ _ object _ _ => object.HasFrames
  | _ => True

/-- The range is none that is empty or reversed, and neither is what it has in common with any of the
nodes. -/
def Span.Meets (target : Span) (ns : Forest) : Prop :=
  target.start < target.stop ∧
    ∀ n ∈ ns, (n.extent.inter target).start < (n.extent.inter target).stop

theorem Span.Meets.slice {l : Label} {base size : Nat} {target : Span} {children : Forest}
    (ranges : Space.Ranges l base size target) (lined : Forest.Lined l.extent children) :
    target.Meets (Forest.slice target children).inside := by
  refine ⟨ranges.wide, fun n hn => ?_⟩
  have reaches := Forest.overlaps_of_mem_inside lined hn
  have wide := ranges.wide
  have some := n.start_lt_stop
  show max n.start target.start < min n.stop target.stop
  omega

theorem Operation.LetsIn.hasFrames {op : Operation} {l : Label} {e : Entry} (h : op.LetsIn l e)
    (frames : op.HasFrames) : ∀ m, e = .mapping m → m.object.HasFrames := by
  rintro m rfl
  cases op with
  | addRegion parent sketch =>
      cases h.describes with | mapping backing _ _ => cases backing
  | addMapping parent sketch object offset access =>
      cases h.describes with
      | mapping backing _ _ =>
          obtain ⟨_, same, _⟩ := NodeRequest.backing_of_settled backing
          have asked : object = m.object := congrArg Backing.object (Option.some.inj same)
          exact asked ▸ frames
  | _ => cases h

namespace Space

/-- No rule is broken in the space, nor by any call or question through a handle whose slot was used. -/
structure KeepsRules (s : Space PageTable) (commitments : Commitments) : Prop where
  calls : ∀ op, op.subject.slot < s.resources.fresh → (∀ h depth, op ≠ .report h depth) →
    Unbroken (s.perform commitments op).answer
  profile : ∀ h, h.slot < s.resources.fresh → Unbroken (s.profile h)
  isFree : ∀ h base size, h.slot < s.resources.fresh → Unbroken (s.isFree h base size)
  walk : ∀ {σ : Type} (observer : Observer σ) h start, h.slot < s.resources.fresh →
    Unbroken (s.walk h observer start)
  pages : ∀ h, h.slot < s.resources.fresh →
    ∃ n, s.coveredPages h = .ok n ∧ n * pageSize < Address.limit
  /-- All that nodes and the space refer to is there. -/
  wellFormed : s.WellFormed
  image : ∀ h, s.resources.image = some h → ∃ m, s.liveNode h = .ok (.mapping m)
  /-- Where a range of a region is worked on, no part of a node in it is empty. -/
  overlaps : ∀ l children, .region l children ∈ s.nodes → ∀ base size target,
    targetIn l base size = .ok target → target.Meets (Forest.slice target children).inside
  /-- No alignment is too large for an address. All places for a node can be counted, and each number
  below the count leads to one in the region. -/
  places : ∀ l children, .region l children ∈ s.nodes → ∀ d : Demand, d.align < Address.limit ∧
    ∃ count < Address.limit, d.countPlaces 0 ((l.site s.resources.mmu children).gaps d) = .ok count ∧
    ∀ index < count, ∃ spot,
      d.nthPlace? index ((l.site s.resources.mmu children).gaps d) = some spot ∧
      l.extent.start ≤ spot ∧ spot + d.size ≤ l.extent.stop

variable {s : Space PageTable}

theorem coveredPages_ok (kept : s.Kept []) {h : Handle} (known : h.slot < s.resources.fresh) :
    ∃ n, s.coveredPages h = .ok n ∧ n * pageSize < Address.limit := by
  have live := liveNode_unbroken known
  rw [coveredPages]
  split
  · next n found =>
      have fits := n.pages_le (kept.nested_of_mem (liveNode_ok found).2)
      have top : n.stop < Address.limit := n.extent.stop_lt_limit
      exact ⟨_, rfl, by omega⟩
  · exact ⟨0, rfl, by decide⟩
  · next failed => cases live _ failed

theorem perform_unbroken (kept : s.Kept []) (frames : ∀ m, .mapping m ∈ s.nodes → m.object.HasFrames)
    (commitments : Commitments) {op : Operation} (known : op.subject.slot < s.resources.fresh)
    (other : ∀ h depth, op ≠ .report h depth) : Unbroken (s.perform commitments op).answer := by
  cases op with
  | addRegion parent sketch => exact (addRegion_unbroken .pageTable kept known sketch).map_beside _ _
  | addMapping parent sketch object offset access =>
      exact (addMapping_unbroken .pageTable kept known sketch object offset access).map_beside _ _
  | unmap region base size => exact (unmap_unbroken kept known base size).map_beside _ _
  | protect region base size access =>
      exact (protect_unbroken kept known base size access).map_beside _ _
  | destroy node => exact (destroy_unbroken known).map_beside _ _
  | resolve region address flags =>
      exact (resolveBelow_unbroken kept known frames commitments address flags).map _
  | find region address => exact (childHolding_unbroken known address).map _
  | report node depth => exact absurd rfl (other node depth)

theorem Kept.keepsRules (kept : s.Kept []) (frames : ∀ m, .mapping m ∈ s.nodes → m.object.HasFrames)
    (commitments : Commitments) : s.KeepsRules commitments where
  calls _ known other := perform_unbroken kept frames commitments known other
  profile _ known := profile_unbroken known
  isFree _ base size known := isFree_unbroken known base size
  walk observer _ start known := walk_unbroken known observer start
  pages _ known := coveredPages_ok kept known
  wellFormed := kept.wellFormed
  image h same := by
    obtain ⟨m, hm, rfl, _⟩ := kept.sound.recorded h same
    have alive : .mapping m ∈ s.nodes := mapping_mem_nodes_iff.mpr (by simpa using hm)
    exact ⟨m, kept.liveNode_eq alive⟩
  overlaps l children alive base size target ok := .slice (targetIn_ok ok) (kept.lined alive)
  places l children alive d :=
    ⟨d.align_lt, (Site.ordered_of_lined (kept.lined alive) s.resources.mmu).exists_count d⟩

/-- Mappings stay with their objects, so all objects have frames if those of the calls do. -/
theorem run_hasFrames {mmu : PageTable} {c : SpaceConfig} {entropy : Entropy}
    (new : Space.new mmu c entropy = .ok s) (commitments : Commitments) {ops : List Operation}
    (frames : ∀ op ∈ ops, op.HasFrames) :
    ∀ m, .mapping m ∈ (run (s, commitments) ops).1.nodes → m.object.HasFrames := by
  have kept := run_kept (w := (s, commitments)) .pageTable (new_kept new) ops
  intro m alive
  obtain ⟨l, linked⟩ := kept.exists_link_of_mapping alive
  have fits := run_forall_links (P := fun _ e => ∀ m, e = .mapping m → m.object.HasFrames) .pageTable
    new commitments ops (fun op given l e joined => joined.hasFrames (frames op given)) ?_
  · exact fits _ linked m rfl
  · intro g l e part held heir m same
    cases heir with
    | same => exact held m same
    | piece heir =>
        cases same
        rw [heir.piece.object]
        exact held _ rfl

/-- After any sequence of calls with objects whose pages have frames, no rule is broken, nor by whatever
comes next through a handle whose slot was used, as are those of all nodes that there have been. -/
theorem run_keepsRules {guard : Nat} {refuses : Bool} {c : SpaceConfig} {entropy : Entropy}
    (new : Space.new (⟨guard, refuses, []⟩ : PageTable) c entropy = .ok s) (commitments : Commitments)
    (ops : List Operation) (frames : ∀ op ∈ ops, op.HasFrames) :
    (run (s, commitments) ops).1.KeepsRules (run (s, commitments) ops).2 ∧
      ∀ before after, ops = before ++ after → ∀ n ∈ (run (s, commitments) before).1.nodes,
        n.handle.slot < (run (s, commitments) ops).1.resources.fresh := by
  have kept := new_kept new
  have kept' := run_kept (w := (s, commitments)) .pageTable kept ops
  refine ⟨kept'.keepsRules (run_hasFrames new commitments frames) _, ?_⟩
  rintro before after rfl n alive
  have middle := run_kept (w := (s, commitments)) .pageTable kept before
  obtain ⟨_, recalls⟩ := (Reaches.refl.run after).recalls .pageTable middle
  rw [run_append]
  exact Nat.lt_of_lt_of_le (middle.slot_lt alive) recalls.fresh

/-- A mapping with a guard next to it, and the page of its object with the highest frame. -/
theorem run_keepsRules_guard :
    ∃ s, Space.new (⟨0x1000, false, []⟩ : PageTable) ⟨.user, 0, 0x8000, .empty, 4⟩ ⟨none⟩ = .ok s ∧
      (run (s, []) [.addMapping ⟨0, 0⟩ { size := 0x2000 }
        ⟨0, Address.limit - MemoryObject.frameBase, none, none, false⟩ 0xffffffff7fffe000 PageFlags.read,
        .resolve ⟨0, 0⟩ 0x1000 FaultFlags.load]).1.KeepsRules
        (run (s, []) [.addMapping ⟨0, 0⟩ { size := 0x2000 }
          ⟨0, Address.limit - MemoryObject.frameBase, none, none, false⟩ 0xffffffff7fffe000
          PageFlags.read, .resolve ⟨0, 0⟩ 0x1000 FaultFlags.load]).2 := by
  obtain ⟨s, new⟩ : ∃ s, Space.new (⟨0x1000, false, []⟩ : PageTable)
      ⟨.user, 0, 0x8000, .empty, 4⟩ ⟨none⟩ = .ok s := ⟨_, rfl⟩
  refine ⟨s, new, (run_keepsRules new _ _ ?_).1⟩
  refine List.forall_mem_cons.mpr ⟨?_, List.forall_mem_singleton.mpr trivial⟩
  show MemoryObject.frameBase + (Address.limit - MemoryObject.frameBase) ≤ Address.limit
  decide

/-- A space is asked about a node of another one, whose slot it has never used. -/
theorem profile_foreign :
    ∃ s t : Space PageTable, Space.new PageTable.empty ⟨.user, 0, 0x10000, .empty, 4⟩ ⟨none⟩ = .ok s ∧
      Space.new PageTable.empty ⟨.user, 0, 0x10000, .empty, 4⟩ ⟨none⟩ = .ok t ∧
      ∃ h, (s.addRegion s.root { size := 0x1000 }).answer = .ok h ∧
        t.profile h = .error Breach.foreignHandle ∧ ¬ Unbroken (t.profile h) := by
  refine ⟨_, _, rfl, rfl, ⟨1, 1⟩, rfl, rfl, fun unbroken => ?_⟩
  cases unbroken _ rfl

end Space
end RegionTree
