import RegionTree.Proofs.Enumeration
import RegionTree.Proofs.Translations

/-! Removal: a node that is destroyed goes with all below it and with the translations of their pages.
Everything else stays as it is. -/
namespace RegionTree

theorem Context.links_rest_perm (f : Frame) (c : List Frame) (e : Entry) :
    (links (f :: c) e).Perm
      ((f.label, e) :: (plug c (.region f.label (f.before ++ f.behind))).links) := by
  have outer := links_plug_perm c (.region f.label (f.before ++ f.behind))
  rw [Node.links, Forest.links_append] at outer
  exact outer.symm.cons _

mutual
theorem Node.mmu_destroy (r : Resources PageTable) : (n : Node) → (n.destroy r).mmu =
    { r.mmu with translations := r.mmu.translations.filter fun t =>
        (n.toList.filterMap Node.mapping?).all fun m => !PageTable.reaches m.extent.toSpan t.page }
  | .region l children => by
      rw [Node.destroy, Resources.mmu_bury]
      exact Forest.mmu_destroy r children
  | .mapping m => by
      rw [Node.destroy, Resources.mmu_bury]
      simp [Node.toList, Node.mapping?, Resources.unmapPages, Resources.report, Mmu.unmap]
theorem Forest.mmu_destroy (r : Resources PageTable) : (ns : Forest) → (Forest.destroy r ns).mmu =
    { r.mmu with translations := r.mmu.translations.filter fun t =>
        ((Forest.toList ns).filterMap Node.mapping?).all fun m =>
          !PageTable.reaches m.extent.toSpan t.page }
  | [] => by simp [Forest.destroy, Forest.toList]
  | n :: ns => by
      rw [Forest.destroy, Forest.mmu_destroy _ ns, n.mmu_destroy]
      simp only [Forest.toList, List.filterMap_append, List.all_append, List.filter_filter]
      simp only [Bool.and_comm]
end

namespace Space

/-- What destroying a node does to a space. -/
structure Removes (s : Space PageTable) (n : Node) (s' : Space PageTable) : Prop where
  /-- The node and those below it are gone, each with its entry, and no other node is. -/
  entries : s.entries.Perm (n.entries ++ s'.entries)
  stays : ∀ x ∈ s.nodes, x ∉ n.toList → ∃ x', s'.liveNode x.handle = .ok x' ∧ x'.entry = x.entry
  gone : ∀ x ∈ n.toList, s'.liveNode x.handle = .error Error.badState ∧
    s'.destroy x.handle = .fail Error.badState s' ∧ s'.Denies x.handle
  count : s'.resources.inUse + n.toList.length = s.resources.inUse
  /-- Nodes that stay have the parents they had. -/
  links : ∀ l, s.ChildOf n l → s.links.Perm ((l, n.entry) :: (n.links ++ s'.links))
  row : ∀ l, s.ChildOf n l → ∃ before behind,
    .region l (before ++ n :: behind) ∈ s.nodes ∧ .region l (before ++ behind) ∈ s'.nodes
  root : s.tree = some n → s'.tree = none
  table : s'.resources.mmu = { s.resources.mmu with
    translations := s.resources.mmu.translations.filter fun t =>
      (Forest.mappings [n]).all fun m => !m.extent.contains t.page }
  /-- The record of the system image goes with its node. -/
  image : s'.resources.image = none ∨ s'.resources.image = s.resources.image
  cleared : ∀ h, s.resources.image = some h →
    (s'.resources.image = none ↔ ∃ x ∈ n.toList, x.handle = h)

section
variable {M : Type} {s s' : Space M} {n x : Node} (apart : s.entries.Perm (n.entries ++ s'.entries))
include apart

theorem Kept.node?_of_removed (kept : s.Kept []) (removed : x ∈ n.toList) : s'.node? x.handle = none := by
  have distinct := kept.sound.balanced.handles_nodup
  rw [List.nil_append, (apart.map _).nodup_iff, List.map_append] at distinct
  refine Option.eq_none_iff_forall_ne_some.mpr fun x' found => ?_
  obtain ⟨same, alive'⟩ := node?_some found
  have here : x.entry ∈ n.entries := n.map_entry_toList ▸ List.mem_map_of_mem removed
  apply (List.nodup_append.mp distinct).2.2 x.entry.handle (List.mem_map_of_mem here) x'.entry.handle
    (List.mem_map_of_mem (entry_mem alive'))
  rw [x.handle_entry, x'.handle_entry, same]

theorem Kept.exists_of_not_removed (kept : s.Kept []) (kept' : s'.Kept []) (below : n.toList ⊆ s.nodes)
    (alive : x ∈ s.nodes) (left : x ∉ n.toList) :
    ∃ x', s'.liveNode x.handle = .ok x' ∧ x'.entry = x.entry := by
  rcases List.mem_append.mp (apart.mem_iff.mp (entry_mem alive)) with gone | stays
  · obtain ⟨y, hy, same⟩ := List.mem_map.mp (n.map_entry_toList ▸ gone)
    have handle : y.handle = x.handle := by rw [← y.handle_entry, same, x.handle_entry]
    exact absurd (kept.eq_of_handle (below hy) alive handle ▸ hy) left
  · obtain ⟨x', alive', same⟩ := List.mem_map.mp (s'.map_entry_nodes ▸ stays)
    have handle : x'.handle = x.handle := by rw [← x'.handle_entry, same, x.handle_entry]
    exact ⟨x', handle ▸ kept'.liveNode_eq alive', same⟩

theorem Kept.inUse_of_removed (kept : s.Kept []) (kept' : s'.Kept []) :
    s'.resources.inUse + n.toList.length = s.resources.inUse := by
  rw [kept.sound.balanced.inUse_eq, kept'.sound.balanced.inUse_eq, List.nil_append, List.nil_append,
    apart.length_eq, List.length_append, ← n.map_entry_toList, List.length_map, Nat.add_comm]

end

theorem Kept.exists_frame {M : Type} {s : Space M} {n : Node} {l : Label} {c : Context} (kept : s.Kept [])
    (tree : s.tree = some (Context.plug c n)) (child : s.ChildOf n l) :
    ∃ f outer, c = f :: outer ∧ f.label = l := by
  cases c with
  | nil => exact absurd (kept.rooted n tree).1 (kept.ne_root_of_childOf child)
  | cons f outer =>
      have there : s.ChildOf n f.label :=
        ⟨f.before ++ n :: f.behind, mem_nodes_of_plug (c := outer) tree, by simp⟩
      exact ⟨f, outer, rfl, kept.eq_of_childOf there child rfl⟩

variable {s : Space PageTable} {n : Node}

theorem Kept.removes (kept : s.Kept []) (coherent : Coherent s.entries s.resources) (alive : n ∈ s.nodes)
    (other : s.resources.image ≠ some n.handle) :
    ∃ s', s.destroy n.handle = .ok () s' ∧ s.Removes n s' := by
  obtain ⟨c, tree⟩ := exists_plug alive
  obtain ⟨s', done, tree', resources⟩ : ∃ s', s.destroy n.handle = .ok () s' ∧
      s'.tree = Context.rest c ∧ s'.resources = n.destroy s.resources := ⟨_, kept.destroy_eq tree other, rfl, rfl⟩
  have follows : s.Follows .shape [] [] s' := by
    have clean := destroy_clean kept n.handle
    rw [done] at clean
    exact clean.follows
  have below : n.toList ⊆ s.nodes := fun x hx => mem_nodes tree (Context.mem_toList_plug c hx)
  have apart : s.entries.Perm (n.entries ++ s'.entries) := by
    rw [Space.entries, tree, Space.entries, tree', Context.entries_rest]
    exact Context.entries_plug_perm c n
  refine ⟨s', done, apart, fun x => kept.exists_of_not_removed apart follows.kept below, ?gone,
    kept.inUse_of_removed apart follows.kept, ?links, ?row, ?root, ?table, ?image, ?cleared⟩
  case gone =>
    intro x hx
    have known := Nat.lt_of_lt_of_le (kept.slot_lt (below hx)) follows.evolves.fresh
    have missing := kept.node?_of_removed apart hx
    have live := liveNode_of_gone known missing
    refine ⟨live, ?_, denies_of_gone known missing⟩
    rw [destroy, live]
  case links =>
    intro l child
    obtain ⟨f, outer, rfl, rfl⟩ := kept.exists_frame tree child
    rw [links_eq tree, links_eq tree']
    apply (Context.links_plug_perm (f :: outer) n).trans
    apply ((Context.links_rest_perm f outer n.entry).append_left n.links).trans
    exact List.perm_middle
  case row =>
    intro l child
    obtain ⟨f, outer, rfl, rfl⟩ := kept.exists_frame tree child
    exact ⟨f.before, f.behind, mem_nodes_of_plug (c := outer) tree, mem_nodes_of_plug (c := outer) tree'⟩
  case root =>
    intro whole
    cases c with
    | nil => exact tree'
    | cons f outer =>
        have child : s.ChildOf n f.label :=
          ⟨f.before ++ n :: f.behind, mem_nodes_of_plug (c := outer) tree, by simp⟩
        exact absurd (kept.rooted n whole).1 (kept.ne_root_of_childOf child)
  case table =>
    have mappings : Forest.mappings [n] = n.toList.filterMap Node.mapping? := by
      simp [Forest.mappings_eq, Forest.toList]
    rw [resources, n.mmu_destroy, mappings]
    refine congrArg (fun translations => { s.resources.mmu with translations }) ?_
    apply List.filter_congr
    intro t ht
    obtain ⟨_, _, own⟩ := coherent t ht
    rw [Bool.eq_iff_iff, List.all_eq_true, List.all_eq_true]
    apply forall₂_congr
    intro m hm
    obtain ⟨x, hx, same⟩ := List.mem_filterMap.mp hm
    obtain rfl := Node.mapping?_eq_some.mp same
    obtain ⟨⟨bottom, top⟩, _⟩ : (Entry.mapping m).Tidy := kept.tidy (below hx)
    have reach := PageTable.reaches_iff m.extent.toSpan bottom top own.paged
    rw [← Span.contains_iff] at reach
    rw [Bool.eq_iff_iff.mpr reach]
  case image =>
    rw [resources]
    cases left : (n.destroy s.resources).image with
    | none => exact .inl rfl
    | some h => exact .inr (n.image_of_destroy left).symm
  case cleared =>
    intro h image
    rw [resources]
    constructor
    · intro cleared
      by_contra outside
      have others : ∀ e ∈ n.entries, s.resources.image ≠ some e.handle := by
        intro e he recorded
        obtain ⟨x, hx, rfl⟩ := List.mem_map.mp (n.map_entry_toList ▸ he)
        rw [x.handle_entry, image] at recorded
        exact outside ⟨x, hx, (Option.some.inj recorded).symm⟩
      rw [n.image_destroy others, image] at cleared
      cases cleared
    · rintro ⟨x, hx, rfl⟩
      cases left : (n.destroy s.resources).image with
      | none => rfl
      | some h =>
          -- What is recorded is alive, but the node is gone.
          cases (n.image_of_destroy left).symm.trans image
          obtain ⟨m, hm, same, _⟩ := follows.kept.sound.recorded _ (resources ▸ left)
          have found := follows.kept.node?_eq (mapping_mem_nodes_iff.mpr hm)
          have missing := kept.node?_of_removed apart hx
          rw [← same] at missing
          cases missing.symm.trans found

/-- After any sequence of calls, destroying a node alive that is not the recorded system image succeeds, and
takes away exactly the node and what is below it. -/
theorem run_removes {guard : Nat} {refuses : Bool} {c : SpaceConfig} {entropy : Entropy}
    (new : Space.new (⟨guard, refuses, []⟩ : PageTable) c entropy = .ok s) (commitments : Commitments)
    (ops : List Operation) (alive : n ∈ (run (s, commitments) ops).1.nodes)
    (other : (run (s, commitments) ops).1.resources.image ≠ some n.handle) :
    ∃ s', (run (s, commitments) ops).1.destroy n.handle = .ok () s' ∧
      (run (s, commitments) ops).1.Removes n s' := by
  have kept := run_kept (w := (s, commitments)) .pageTable (new_kept new) ops
  have coherent := run_coherent (new_kept new) (new_coherent new) commitments ops
  exact kept.removes coherent alive other

/-- A region goes with the system image in it, of which a page is translated. -/
theorem run_removes_image :
    ∃ s t, Space.new PageTable.empty ⟨.user, 0, 0x8000, .empty, 4⟩ ⟨none⟩ = .ok s ∧
      (run (s, []) [.addRegion ⟨0, 0⟩ { size := 0x4000, flags := RegionFlags.mapAll },
        .addMapping ⟨1, 1⟩ { size := 0x1000 }
          ⟨0, 0x2000, none, some ⟨0, 0x1000⟩, false⟩ 0 (PageFlags.read ∪ PageFlags.execute),
        .resolve ⟨0, 0⟩ 0x234 FaultFlags.instruction]).1 = t ∧
      t.resources.mmu.translations.length = 1 ∧ t.resources.image = some ⟨2, 2⟩ ∧
      ∃ n ∈ t.nodes, n.handle = ⟨1, 1⟩ ∧ t.resources.image ≠ some n.handle ∧
        ∃ t', t.destroy n.handle = .ok () t' ∧ t.Removes n t' := by
  obtain ⟨s, new⟩ : ∃ s, Space.new PageTable.empty ⟨.user, 0, 0x8000, .empty, 4⟩ ⟨none⟩ = .ok s :=
    ⟨_, rfl⟩
  obtain ⟨t, made⟩ : ∃ t, (run (s, []) [
      .addRegion ⟨0, 0⟩ { size := 0x4000, flags := RegionFlags.mapAll },
      .addMapping ⟨1, 1⟩ { size := 0x1000 }
        ⟨0, 0x2000, none, some ⟨0, 0x1000⟩, false⟩ 0 (PageFlags.read ∪ PageFlags.execute),
      .resolve ⟨0, 0⟩ 0x234 FaultFlags.instruction]).1 = t := ⟨_, rfl⟩
  have facts : t.resources.mmu.translations.length = 1 ∧ t.resources.image = some ⟨2, 2⟩ ∧
      (t.node? ⟨1, 1⟩).isSome := by
    subst made
    cases new
    decide +kernel
  obtain ⟨translated, image, found⟩ := facts
  obtain ⟨n, found⟩ := Option.isSome_iff_exists.mp found
  obtain ⟨handle, alive⟩ := node?_some found
  have other : t.resources.image ≠ some n.handle := by
    rw [image, handle]
    decide
  refine ⟨s, t, new, made, translated, image, n, alive, handle, other, ?_⟩
  subst made
  exact run_removes new [] _ alive other

end Space
end RegionTree
