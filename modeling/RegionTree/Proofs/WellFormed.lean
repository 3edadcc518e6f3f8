import RegionTree.Proofs.Run

/-! The tree after any run: rows of children in order, ranges of whole pages inside each other, every
slot in use that of one node, and every node in the row of one region. -/
namespace RegionTree

def Node.children : Node → Forest
  | .region _ children => children
  | .mapping _ => []

mutual
theorem Node.handles_perm : (t : Node) →
    (t.toList.map Node.handle).Perm
      (t.handle :: t.toList.flatMap fun p => p.children.map Node.handle)
  | .region l children => by
      simp only [Node.toList, List.map_cons, List.flatMap_cons, Node.children]
      exact (Forest.handles_perm children).cons _
  | .mapping m => .refl _
theorem Forest.handles_perm : (ns : Forest) →
    ((Forest.toList ns).map Node.handle).Perm
      (ns.map Node.handle ++ (Forest.toList ns).flatMap fun p => p.children.map Node.handle)
  | [] => .refl _
  | n :: ns => by
      simp only [Forest.toList, List.map_append, List.flatMap_append, List.map_cons, List.cons_append]
      refine (n.handles_perm.append (Forest.handles_perm ns)).trans ?_
      exact (List.perm_append_comm_assoc _ _ _).cons _
end

namespace Space
variable {M : Type}

/-- What a caller may rely on between two calls. -/
structure WellFormed (s : Space M) : Prop where
  /-- A row of children is in the order of their starts. -/
  ordered : ∀ p ∈ s.nodes, p.children.Pairwise fun a b => a.start < b.start
  /-- The handle of each child names the child, which is alive. -/
  alive : ∀ p ∈ s.nodes, ∀ n ∈ p.children, s.liveNode n.handle = .ok n
  paged : ∀ n ∈ s.nodes, n.start < n.stop ∧ n.start % pageSize = 0 ∧ n.stop % pageSize = 0
  within : ∀ p ∈ s.nodes, ∀ n ∈ p.children, p.start ≤ n.start ∧ n.stop ≤ p.stop
  apart : ∀ p ∈ s.nodes, p.children.Pairwise fun a b => ∀ x, ¬ (a.extent.contains x ∧ b.extent.contains x)
  mappings : ∀ m, .mapping m ∈ s.nodes →
    m.offset % pageSize = 0 ∧ m.offset + m.extent.length < Address.limit
  /-- The slots in use are those of the nodes, one slot for each. -/
  slots : (s.nodes.map (·.handle.slot) ++ s.resources.free).Perm (List.range s.resources.fresh)
  /-- The nodes are the root and the children of all nodes, each once. -/
  owned : ∀ t, s.tree = some t → t.handle = s.root ∧
    (s.nodes.map Node.handle).Perm (s.root :: s.nodes.flatMap fun p => p.children.map Node.handle)
  distinct : (s.nodes.map Node.handle).Nodup
  count : s.resources.inUse = s.nodes.length ∧ s.nodes.length ≤ s.resources.capacity

theorem mem_nodes_of_child {s : Space M} {p n : Node} (hp : p ∈ s.nodes) (hn : n ∈ p.children) :
    n ∈ s.nodes := by
  cases p with
  | region l children => exact child_mem_nodes hp hn
  | mapping m => cases hn

theorem Kept.wellFormed {s : Space M} (kept : s.Kept []) : s.WellFormed where
  ordered p hp := by
    cases p with
    | region l children => exact (kept.lined hp).sorted
    | mapping m => exact .nil
  alive p hp n hn := kept.liveNode_eq (mem_nodes_of_child hp hn)
  paged n hn := by
    have tidy := kept.tidy hn
    cases n with
    | region l children => exact ⟨l.extent.start_lt_stop, tidy⟩
    | mapping m => exact ⟨m.extent.start_lt_stop, tidy.1⟩
  within p hp n hn := by
    cases p with
    | region l children => exact (kept.lined hp).within n hn
    | mapping m => cases hn
  apart p hp := by
    cases p with
    | region l children =>
        refine (kept.lined hp).apart.imp fun {a b} le x both => ?_
        simp only [Span.contains_iff, Span.mem_iff] at both
        have : a.extent.stop ≤ b.extent.start := le
        omega
    | mapping m => exact .nil
  mappings m hm := (kept.tidy hm).2
  slots := by
    have slots := kept.sound.balanced.slots
    rw [List.nil_append, show (fun e : Entry => e.handle.slot) = Handle.slot ∘ Entry.handle from rfl,
      ← List.map_map, map_handle_entries, List.map_map] at slots
    exact slots
  owned t tree := by
    obtain ⟨root, _⟩ := kept.rooted t tree
    have same : s.nodes = t.toList := by simp [nodes, tree]
    rw [same, ← root]
    exact ⟨rfl, t.handles_perm⟩
  distinct := by
    have distinct := kept.sound.balanced.handles_nodup
    rwa [List.nil_append, map_handle_entries] at distinct
  count := by
    have balanced := kept.sound.balanced
    have same : s.entries.length = s.nodes.length := by rw [← map_entry_nodes, List.length_map]
    exact ⟨balanced.inUse_eq.trans same, same ▸ balanced.room⟩

/-- After any sequence of calls, whatever they answer, a space is well-formed. -/
theorem run_wellFormed [Mmu M] (picks : Mmu.PicksPages M) {mmu : M} {c : SpaceConfig}
    {entropy : Entropy} {s : Space M} (new : Space.new mmu c entropy = .ok s)
    (commitments : Commitments) (ops : List Operation) : (run (s, commitments) ops).1.WellFormed :=
  (run_kept (w := (s, commitments)) picks (new_kept new) ops).wellFormed

/-- A mapping is made in a small space, and a hole is cut into it. -/
theorem run_wellFormed_hole :
    ∃ s, Space.new PageTable.empty ⟨.user, 0, 0x8000, .empty, 4⟩ ⟨none⟩ = .ok s ∧
      Mmu.PicksPages PageTable ∧
      (run (s, []) [.addMapping ⟨0, 0⟩ { size := 0x3000 } ⟨0, 0x3000, none, none, false⟩ 0 .empty,
        .unmap ⟨0, 0⟩ 0x1000 0x1000]).1.WellFormed := by
  obtain ⟨s, new⟩ : ∃ s, Space.new PageTable.empty ⟨.user, 0, 0x8000, .empty, 4⟩ ⟨none⟩ = .ok s :=
    ⟨_, rfl⟩
  exact ⟨s, new, .pageTable, run_wellFormed .pageTable new _ _⟩

end Space
end RegionTree
