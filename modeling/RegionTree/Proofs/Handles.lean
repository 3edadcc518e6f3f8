import RegionTree.Proofs.Reach
import RegionTree.Proofs.Refusals

/-! Handles: a handle names its node as long as the node is alive, and every call through it is refused
from then on. -/
namespace RegionTree
variable {M : Type}

mutual
theorem Node.forall_of_children {P : Node → Prop} : (t : Node) →
    (∀ p ∈ t.toList, ∀ n ∈ p.children, P p → P n) → P t → ∀ n ∈ t.toList, P n
  | .region _ children, step, top => by
      have row : ∀ n ∈ children, P n := fun n hn => step _ List.mem_cons_self n hn top
      refine List.forall_mem_cons.mpr ⟨top, Forest.forall_of_children children (fun p hp => ?_) row⟩
      exact step p (List.mem_cons_of_mem _ hp)
  | .mapping _, _, top => List.forall_mem_singleton.mpr top
theorem Forest.forall_of_children {P : Node → Prop} : (ns : Forest) →
    (∀ p ∈ Forest.toList ns, ∀ n ∈ p.children, P p → P n) → (∀ n ∈ ns, P n) →
      ∀ n ∈ Forest.toList ns, P n
  | [], _, _ => nofun
  | n :: ns, step, row => by
      obtain ⟨first, others⟩ := List.forall_mem_cons.mp row
      refine List.forall_mem_append.mpr ⟨n.forall_of_children (fun p hp => ?_) first,
        Forest.forall_of_children ns (fun p hp => ?_) others⟩
      · exact step p (List.mem_append_left _ hp)
      · exact step p (List.mem_append_right _ hp)
end

theorem Node.handle_of_remains {n n' : Node} (h : n.entry.Remains n'.entry) : n'.handle = n.handle := by
  rw [← n.handle_entry, ← h.handle, n'.handle_entry]

theorem Node.within_of_remains {n n' : Node} (h : n.entry.Remains n'.entry) :
    n.start ≤ n'.start ∧ n'.stop ≤ n.stop := by
  cases n with
  | region l children =>
      cases n' with
      | region l' children' =>
          simp only [Node.entry] at h
          cases h
          exact ⟨Nat.le_refl _, Nat.le_refl _⟩
      | mapping m => cases h
  | mapping m =>
      cases n' with
      | region l children => cases h
      | mapping part =>
          simp only [Node.entry] at h
          cases h with
          | same => exact ⟨Nat.le_refl _, Nat.le_refl _⟩
          | piece piece _ _ _ => exact ⟨piece.low, piece.high⟩

theorem Node.label_of_remains {l : Label} {n : Node} (h : (Entry.region l).Remains n.entry) :
    ∃ children, n = .region l children := by
  cases n with
  | region l' children => cases h; exact ⟨children, rfl⟩
  | mapping m => cases h

namespace Space
variable {s s' s'' : Space M} {n n' : Node} {l l' : Label}

def ChildOf (s : Space M) (n : Node) (l : Label) : Prop :=
  ∃ children, .region l children ∈ s.nodes ∧ n ∈ children

theorem ChildOf.member (child : s.ChildOf n l) : n ∈ s.nodes :=
  have ⟨_, alive, hn⟩ := child
  child_mem_nodes alive hn

theorem ChildOf.link (child : s.ChildOf n l) : (l, n.entry) ∈ s.links :=
  have ⟨_, alive, hn⟩ := child
  mem_links_of_child alive hn

theorem exists_childOf_of_link {e : Entry} (linked : (l, e) ∈ s.links) :
    ∃ n, s.ChildOf n l ∧ n.entry = e := by
  obtain ⟨children, n, alive, hn, same⟩ := exists_child_of_mem_links linked
  exact ⟨n, ⟨children, alive, hn⟩, same⟩

namespace Kept
variable (kept : s.Kept [])
include kept

theorem recent (alive : n ∈ s.nodes) : n.handle.generation < s.resources.nextGeneration :=
  n.handle_entry ▸ kept.sound.balanced.aged _ (entry_mem alive)

theorem eq_of_childOf (child : s.ChildOf n l) (child' : s.ChildOf n' l') (same : n.handle = n'.handle) :
    l = l' := by
  obtain ⟨children, alive, hn⟩ := child
  obtain ⟨children', alive', hn'⟩ := child'
  obtain ⟨c, tree⟩ := exists_plug alive
  obtain ⟨_, owned⟩ := kept.wellFormed.owned _ tree
  have distinct := (List.nodup_cons.mp (owned.nodup_iff.mp kept.wellFormed.distinct)).2
  have symm : Std.Symm (Function.onFun List.Disjoint fun p : Node => p.children.map Node.handle) :=
    ⟨fun _ _ h _ ha hb => h hb ha⟩
  by_contra differ
  -- Two regions with the same child would have its handle in both their rows.
  have apart := (List.nodup_flatMap.mp distinct).2.forall alive alive' fun h =>
    differ (Node.region.inj h).1
  exact apart (List.mem_map_of_mem hn) (same ▸ List.mem_map_of_mem hn')

theorem ne_root_of_childOf (child : s.ChildOf n l) : n.handle ≠ s.root := by
  obtain ⟨children, alive, hn⟩ := child
  obtain ⟨c, tree⟩ := exists_plug alive
  obtain ⟨_, owned⟩ := kept.wellFormed.owned _ tree
  have root := (List.nodup_cons.mp (owned.nodup_iff.mp kept.wellFormed.distinct)).1
  intro same
  refine root (List.mem_flatMap.mpr ⟨_, alive, same ▸ List.mem_map_of_mem hn⟩)

theorem root_or_childOf (alive : n ∈ s.nodes) : s.tree = some n ∨ ∃ l, s.ChildOf n l := by
  cases tree : s.tree with
  | none => simp [nodes, tree] at alive
  | some t =>
      have inside : n.entry ∈ t.entries := by simpa [entries, tree] using entry_mem alive
      rcases t.mem_entries_cases inside with same | ⟨l, linked⟩
      · have handle : n.handle = t.handle := by rw [← n.handle_entry, same, t.handle_entry]
        exact .inl (by rw [kept.eq_of_handle alive (mem_nodes tree t.mem_toList_self) handle])
      · obtain ⟨n', child, same⟩ := exists_childOf_of_link (links_eq tree ▸ linked)
        have handle : n'.handle = n.handle := by rw [← n'.handle_entry, same, n.handle_entry]
        exact .inr ⟨l, kept.eq_of_handle child.member alive handle ▸ child⟩

end Kept

namespace Recalls

theorem exists_childOf (h : s.Recalls s') (child : s'.ChildOf n' l)
    (old : n'.handle.generation < s.resources.nextGeneration) :
    ∃ n, s.ChildOf n l ∧ n.entry.Remains n'.entry := by
  obtain ⟨e, linked, remains⟩ := h.links _ child.link (n'.handle_entry.symm ▸ old)
  obtain ⟨n, child₀, rfl⟩ := exists_childOf_of_link linked
  exact ⟨n, child₀, remains⟩

theorem exists_node (h : s.Recalls s') (kept' : s'.Kept []) (alive' : n' ∈ s'.nodes)
    (old : n'.handle.generation < s.resources.nextGeneration) :
    ∃ n ∈ s.nodes, n.entry.Remains n'.entry := by
  rcases kept'.root_or_childOf alive' with tree' | ⟨l, child⟩
  · obtain ⟨t, tree, entry⟩ := h.root n' tree'
    exact ⟨t, mem_nodes tree t.mem_toList_self, entry ▸ .same _⟩
  · obtain ⟨n, child₀, remains⟩ := h.exists_childOf child old
    exact ⟨n, child₀.member, remains⟩

theorem gone {handle : Handle} (h : s.Recalls s') (kept' : s'.Kept [])
    (old : handle.generation < s.resources.nextGeneration) (gone : s.node? handle = none)
    (kept : s.Kept []) : s'.node? handle = none := by
  refine Option.eq_none_iff_forall_ne_some.mpr fun n' found => ?_
  obtain ⟨rfl, alive'⟩ := node?_some found
  obtain ⟨n, alive, remains⟩ := h.exists_node kept' alive' old
  have found₀ := kept.node?_eq alive
  rw [← Node.handle_of_remains remains, gone] at found₀
  cases found₀

section
variable (h : s.Recalls s') (kept : s.Kept []) (kept' : s'.Kept [])
include h kept

theorem childOf (alive : n ∈ s.nodes) (child : s'.ChildOf n' l) (same : n'.handle = n.handle) :
    s.ChildOf n l := by
  obtain ⟨n₀, child₀, remains⟩ := h.exists_childOf child (same ▸ kept.recent alive)
  have handle := (Node.handle_of_remains remains).symm.trans same
  exact kept.eq_of_handle child₀.member alive handle ▸ child₀

include kept'

theorem remains (alive : n ∈ s.nodes) (alive' : n' ∈ s'.nodes) (same : n'.handle = n.handle) :
    n.entry.Remains n'.entry := by
  obtain ⟨n₀, alive₀, remains⟩ := h.exists_node kept' alive' (same ▸ kept.recent alive)
  have handle := (Node.handle_of_remains remains).symm.trans same
  exact kept.eq_of_handle alive₀ alive handle ▸ remains

theorem childOf_iff (alive : n ∈ s.nodes) (alive' : n' ∈ s'.nodes) (same : n'.handle = n.handle) :
    s'.ChildOf n' l ↔ s.ChildOf n l := by
  refine ⟨fun child => h.childOf kept alive child same, fun child => ?_⟩
  rcases kept'.root_or_childOf alive' with tree' | ⟨l', child'⟩
  · obtain ⟨t, tree, entry⟩ := h.root n' tree'
    have handle : n.handle = t.handle := by rw [← same, ← n'.handle_entry, entry, t.handle_entry]
    exact absurd (handle.trans (kept.rooted t tree).1) (kept.ne_root_of_childOf child)
  · rw [kept.eq_of_childOf child (h.childOf kept alive child' same) rfl]
    exact child'

theorem below (alive : n ∈ s.nodes) (gone : s'.node? n.handle = none) :
    ∀ x ∈ n.toList, s'.node? x.handle = none := by
  refine n.forall_of_children (fun p hp x hx gone => ?_) gone
  obtain ⟨c, tree⟩ := exists_plug alive
  have parent : p ∈ s.nodes := mem_nodes tree (Context.mem_toList_plug c hp)
  cases p with
  | mapping m => cases hx
  | region l children =>
      refine Option.eq_none_iff_forall_ne_some.mpr fun x' found => ?_
      obtain ⟨same, alive'⟩ := node?_some found
      have child : s.ChildOf x l := ⟨children, parent, hx⟩
      obtain ⟨children', parent', _⟩ := (h.childOf_iff kept kept' child.member alive' same).mpr child
      have found' : s'.node? l.handle = some _ := kept'.node?_eq parent'
      exact nomatch gone.symm.trans found'

theorem gone_of_free {children : Forest} {start stop : Nat} (child : s.ChildOf n l)
    (parent' : .region l children ∈ s'.nodes) (low : start ≤ n.start) (high : n.stop ≤ stop)
    (free : ∀ part ∈ children, part.handle = n.handle → part.stop ≤ start ∨ stop ≤ part.start) :
    s'.node? n.handle = none := by
  refine Option.eq_none_iff_forall_ne_some.mpr fun n' found => ?_
  obtain ⟨same, alive'⟩ := node?_some found
  obtain ⟨children', there, hn'⟩ := (h.childOf_iff kept kept' child.member alive' same).mpr child
  cases kept'.eq_of_handle there parent' rfl
  have within := Node.within_of_remains (h.remains kept kept' child.member alive' same)
  have := free n' hn' same
  have := n'.start_lt_stop
  omega

end
end Recalls

/-- A node of the earlier space that is alive in the later one is the node still, and has the same parent.
Otherwise nothing that was below it is alive. -/
structure Tracks (s : Space M) (n : Node) (s' : Space M) : Prop where
  same : ∀ n', s'.node? n.handle = some n' → s'.liveNode n.handle = .ok n' ∧ n.entry.Remains n'.entry
  parent : ∀ n', s'.node? n.handle = some n' → ∀ l, s'.ChildOf n' l ↔ s.ChildOf n l
  below : s'.node? n.handle = none → ∀ x ∈ n.toList, s'.node? x.handle = none

theorem Recalls.tracks (h : s.Recalls s') (kept : s.Kept []) (kept' : s'.Kept []) (alive : n ∈ s.nodes) :
    s.Tracks n s' where
  same n' found := by
    obtain ⟨same, alive'⟩ := node?_some found
    exact ⟨same ▸ kept'.liveNode_eq alive', h.remains kept kept' alive alive' same⟩
  parent n' found l := by
    obtain ⟨same, alive'⟩ := node?_some found
    exact h.childOf_iff kept kept' alive alive' same
  below gone := h.below kept kept' alive gone

/-- How calls that succeed begin and end the lives of nodes. What ends takes along all that is below it
(`Tracks.below`). -/
structure Lifecycle [Mmu M] (s : Space M) (commitments : Commitments) : Prop where
  /-- The handle that a call answers is that of a node alive. -/
  answered : ∀ op h s' commitments', s.perform commitments op = .ok (some h) (s', commitments') →
    ∃ n, s'.liveNode h = .ok n
  destroyed : ∀ h s' commitments', s.perform commitments (.destroy h) = .ok none (s', commitments') →
    s'.node? h = none
  unmapped : ∀ l base size s' commitments',
    s.perform commitments (.unmap l.handle base size) = .ok none (s', commitments') →
    ∀ n, s.ChildOf n l → base.toNat ≤ n.start → n.stop ≤ base.toNat + Address.wholePages size.toNat →
      s'.node? n.handle = none
  overwritten : ∀ l op h s' commitments', op.subject = l.handle → op.makes →
    s.perform commitments op = .ok (some h) (s', commitments') →
    ∀ n made, s.ChildOf n l → s'.node? h = some made → made.start ≤ n.start → n.stop ≤ made.stop →
      s'.node? n.handle = none

section
variable [Mmu M] {commitments commitments' : Commitments} {h : Handle}

omit [Mmu M] in
theorem childHolding_ok {region : Handle} {address : UInt64}
    (found : s.childHolding region address = .ok n) : ∃ l, s.ChildOf n l := by
  obtain ⟨⟨l, children⟩, live, found⟩ := check_eq_ok.mp found
  dsimp only at found
  split at found
  · cases found
  · next at? =>
      cases found
      rw [Forest.childAt?, Option.filter_eq_some_iff] at at?
      exact ⟨l, children, (liveRegion_ok live).2, Index.mem_of_atOrBelow? at?.1⟩

omit [Mmu M] in
theorem parent_of_letsIn {op : Operation} {e : Entry} (lets : op.LetsIn l e) : l.handle = op.subject := by
  cases op with
  | addRegion parent sketch => exact lets.parent
  | addMapping parent sketch object offset access => exact lets.parent
  | _ => cases lets

theorem perform_makes (picks : Mmu.PicksPages M) (kept : s.Kept []) {op : Operation} (makes : op.makes)
    (done : s.perform commitments op = .ok (some h) (s', commitments')) :
    ∃ l n, l.handle = op.subject ∧ n.handle = h ∧ s'.ChildOf n l ∧
      s.resources.nextGeneration ≤ h.generation := by
  obtain ⟨o, same, creates⟩ := perform_creates picks kept commitments makes
  obtain ⟨h', rfl, ⟨⟩⟩ := Outcome.of_map_beside (same.symm.trans done)
  obtain ⟨_, l, n, handle, _, joined, recent, lets⟩ := creates.made _ rfl
  exact ⟨l, n, parent_of_letsIn lets, handle, joined.child, recent⟩

theorem perform_answers (picks : Mmu.PicksPages M) (kept : s.Kept []) {op : Operation}
    (done : s.perform commitments op = .ok (some h) (s', commitments')) :
    ∃ l n, n.handle = h ∧ s'.ChildOf n l := by
  cases makes : op.makes with
  | true =>
      obtain ⟨l, n, _, handle, child, _⟩ := perform_makes picks kept makes done
      exact ⟨l, n, handle, child⟩
  | false =>
      cases op with
      | find region address =>
          simp only [perform, Outcome.ok, Outcome.mk.injEq, Prod.mk.injEq] at done
          obtain ⟨found, rfl, _⟩ := done
          cases holding : s.childHolding region address with
          | error f => simp [holding, Except.map] at found
          | ok n =>
              obtain ⟨l, child⟩ := childHolding_ok holding
              exact ⟨l, n, by simpa [holding, Except.map] using found, child⟩
      | addRegion | addMapping => cases makes
      | resolve region address flags =>
          obtain ⟨_, _, same⟩ := Outcome.map_eq_ok.mp (congrArg Outcome.answer done)
          cases same
      | _ =>
          obtain ⟨_, _, same⟩ := Outcome.of_map_beside done
          cases same

theorem perform_destroyed (kept : s.Kept [])
    (done : s.perform commitments (.destroy h) = .ok none (s', commitments')) : s'.node? h = none := by
  obtain ⟨_, done, _⟩ := Outcome.of_map_beside done
  rcases destroy_cases kept h with ⟨f, failed⟩ | ⟨c, n, rfl, tree, _, same⟩
  · cases failed.symm.trans done
  cases same.symm.trans done
  obtain ⟨before, behind⟩ := kept.avoids tree
  refine Option.eq_none_iff_forall_ne_some.mpr fun x found => ?_
  obtain ⟨handle, alive⟩ := node?_some found
  have around : x.entry ∈ Context.around c := by
    rw [← Context.entries_rest]
    exact entry_mem alive
  rw [← x.handle_entry] at handle
  rcases List.mem_append.mp around with first | last
  · exact before _ first handle
  · exact behind _ last handle

theorem Kept.lifecycle (picks : Mmu.PicksPages M) (kept : s.Kept []) (commitments : Commitments) :
    s.Lifecycle commitments where
  answered op h s' commitments' done := by
    have kept' := (perform_follows picks kept commitments op).kept
    rw [done] at kept'
    obtain ⟨l, n, rfl, child⟩ := perform_answers picks kept done
    exact ⟨n, kept'.liveNode_eq child.member⟩
  destroyed h s' commitments' done := perform_destroyed kept done
  unmapped l base size s' commitments' done n child low high := by
    have kept' := (perform_follows picks kept commitments (.unmap l.handle base size)).kept
    have recalls := perform_recalls picks kept commitments (.unmap l.handle base size)
    rw [done] at kept' recalls
    obtain ⟨_, cut, _⟩ := Outcome.of_map_beside done
    obtain ⟨c, l', old, new, handle, tree, tree', _, _, free⟩ := unmap_row kept cut
    have ⟨children, parent, _⟩ := child
    cases kept.eq_of_handle (mem_nodes_of_plug tree) parent handle
    exact recalls.gone_of_free kept kept' child (mem_nodes_of_plug tree') low high fun part hpart _ =>
      free part hpart
  overwritten l op h s' commitments' subject makes done n made child found low high := by
    have kept' := (perform_follows picks kept commitments op).kept
    have recalls := perform_recalls picks kept commitments op
    rw [done] at kept' recalls
    obtain ⟨l', made', parent, handle', ⟨children', there, hmade⟩, recent⟩ :=
      perform_makes picks kept makes done
    obtain ⟨handle, alive'⟩ := node?_some found
    cases kept'.eq_of_handle (child_mem_nodes there hmade) alive' (handle'.trans handle.symm)
    have ⟨children, region, _⟩ := child
    have stays := recalls.remains kept kept' region there (parent.trans subject)
    obtain ⟨_, same⟩ := Node.label_of_remains stays
    cases same
    refine recalls.gone_of_free kept kept' child there low high fun part hpart here => ?_
    -- The made node is the only one in its range, and it is too young to be the old child.
    refine ((kept'.lined there).apart_of_mem hmade part hpart).resolve_left fun new => ?_
    rw [new, handle] at here
    exact absurd (here ▸ kept.recent child.member) (Nat.not_lt.mpr recent)

/-- After any calls, whichever unoccupied slots the nodes were given: a handle names its node as long as
the node is alive, and then every later call through it is refused. -/
theorem reaches_tracked (picks : Mmu.PicksPages M) {mmu : M} {c : SpaceConfig} {entropy : Entropy}
    (new : Space.new mmu c entropy = .ok s) {w w' : Space M × Commitments}
    (before : Reaches (s, commitments) w) (later : Reaches w w') :
    (∀ n ∈ w.1.nodes, w.1.Tracks n w'.1 ∧
      (w'.1.node? n.handle = none → ∀ w'', Reaches w' w'' → w''.1.Denies n.handle)) ∧
    w'.1.Lifecycle w'.2 := by
  obtain ⟨kept, _⟩ := before.recalls picks (new_kept new)
  obtain ⟨kept', recalls⟩ := later.recalls picks kept
  refine ⟨fun n alive => ⟨recalls.tracks kept kept' alive, fun gone w'' more => ?_⟩,
    kept'.lifecycle picks w'.2⟩
  obtain ⟨kept'', recalls'⟩ := more.recalls picks kept'
  have old := Nat.lt_of_lt_of_le (kept.recent alive) recalls.generation
  have known := Nat.lt_of_lt_of_le (kept.slot_lt alive) (recalls.trans recalls').fresh
  exact denies_of_gone known (recalls'.gone kept'' old gone kept')

end

/-- A region is destroyed, and another one gets its slot. -/
theorem reaches_tracked_reused :
    ∃ s, Space.new PageTable.empty ⟨.user, 0, 0x8000, .empty, 4⟩ ⟨none⟩ = .ok s ∧
      ((run (s, []) [.addRegion ⟨0, 0⟩ { size := 0x1000 }, .destroy ⟨1, 1⟩,
        .addRegion ⟨0, 0⟩ { size := 0x1000 }]).1.node? ⟨1, 2⟩).isSome ∧
      (run (s, []) [.addRegion ⟨0, 0⟩ { size := 0x1000 }, .destroy ⟨1, 1⟩,
        .addRegion ⟨0, 0⟩ { size := 0x1000 }]).1.Denies ⟨1, 1⟩ := by
  obtain ⟨s, new⟩ : ∃ s, Space.new PageTable.empty ⟨.user, 0, 0x8000, .empty, 4⟩ ⟨none⟩ = .ok s :=
    ⟨_, rfl⟩
  have before : Reaches (s, []) (run (s, []) [.addRegion ⟨0, 0⟩ { size := 0x1000 }]) := .run .refl _
  have found : ((run (s, []) [.addRegion ⟨0, 0⟩ { size := 0x1000 }]).1.node? ⟨1, 1⟩).isSome := by
    cases new
    decide +kernel
  obtain ⟨n, found⟩ := Option.isSome_iff_exists.mp found
  obtain ⟨handle, alive⟩ := node?_some found
  have later : Reaches (run (s, []) [.addRegion ⟨0, 0⟩ { size := 0x1000 }])
      (run (run (s, []) [.addRegion ⟨0, 0⟩ { size := 0x1000 }])
        [.destroy ⟨1, 1⟩, .addRegion ⟨0, 0⟩ { size := 0x1000 }]) := .run .refl _
  have gone : ((run (run (s, []) [.addRegion ⟨0, 0⟩ { size := 0x1000 }]) [.destroy ⟨1, 1⟩,
      .addRegion ⟨0, 0⟩ { size := 0x1000 }]).1.node? n.handle).isNone := by
    rw [handle]
    cases new
    decide +kernel
  have reused : ((run (s, []) [.addRegion ⟨0, 0⟩ { size := 0x1000 }, .destroy ⟨1, 1⟩,
      .addRegion ⟨0, 0⟩ { size := 0x1000 }]).1.node? ⟨1, 2⟩).isSome := by
    cases new
    decide +kernel
  have tracked := (reaches_tracked .pageTable new before later).1 n alive
  have denies := tracked.2 (Option.isNone_iff_eq_none.mp gone) _ .refl
  rw [handle] at denies
  exact ⟨s, new, reused, denies⟩

/-- The arguments of a call are looked at first, also when its node is gone. -/
theorem unmap_gone_invalid :
    ∃ s, Space.new PageTable.empty ⟨.user, 0, 0x8000, .empty, 4⟩ ⟨none⟩ = .ok s ∧
      ((run (s, []) [.addRegion ⟨0, 0⟩ { size := 0x1000 }]).1.node? ⟨1, 1⟩).isSome ∧
      ((run (s, []) [.addRegion ⟨0, 0⟩ { size := 0x1000 }, .destroy ⟨1, 1⟩]).1.node? ⟨1, 1⟩).isNone ∧
      ((run (s, []) [.addRegion ⟨0, 0⟩ { size := 0x1000 }, .destroy ⟨1, 1⟩]).1.perform []
        (.unmap ⟨1, 1⟩ 0 0)).answer = .error Error.invalidArgument := by
  refine ⟨_, rfl, ?_⟩
  decide +kernel

end Space
end RegionTree
