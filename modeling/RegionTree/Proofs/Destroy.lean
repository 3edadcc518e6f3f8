import RegionTree.Proofs.Descent

/-! Destroying: all entries of a subtree go, and nothing else does. -/
namespace RegionTree
variable {M : Type} {purpose : Purpose} [Mmu M]

mutual
theorem Node.destroy_evolves (rest : List Entry) (r : Resources M) :
    (n : Node) → Evolves purpose (n.entries ++ rest) r rest (n.destroy r)
  | .region l children =>
      have below : Evolves purpose (.region l :: (Forest.entries children ++ rest)) r
          (.region l :: rest) (Forest.destroy r children) :=
        (Evolves.reorder r List.perm_middle.symm).trans
          (Forest.destroy_evolves (.region l :: rest) r children)
      below.trans (.buryRegion l rest _)
  | .mapping m => .buryMapping m rest r
theorem Forest.destroy_evolves (rest : List Entry) (r : Resources M) :
    (ns : Forest) → Evolves purpose (Forest.entries ns ++ rest) r rest (Forest.destroy r ns)
  | [] => .refl rest r
  | n :: ns => by
      rw [Forest.entries_cons, List.append_assoc]
      exact (n.destroy_evolves _ r).trans (Forest.destroy_evolves rest _ ns)
end

mutual
theorem Node.image_of_destroy {h : Handle} {r : Resources M} :
    (n : Node) → (n.destroy r).image = some h → r.image = some h
  | .region _ children, image => Forest.image_of_destroy children (Resources.image_of_bury image).1
  | .mapping m, image => (Resources.image_of_bury (r := r.unmapPages m.extent.toSpan) image).1
theorem Forest.image_of_destroy {h : Handle} {r : Resources M} :
    (ns : Forest) → (Forest.destroy r ns).image = some h → r.image = some h
  | [], image => image
  | n :: ns, image => n.image_of_destroy (Forest.image_of_destroy ns image)
end

mutual
theorem Node.image_destroy {r : Resources M} :
    (n : Node) → (∀ e ∈ n.entries, r.image ≠ some e.handle) → (n.destroy r).image = r.image
  | .region l children, others => by
      simp only [Node.entries, List.forall_mem_cons, Entry.handle_region] at others
      have below := Forest.image_destroy children others.2
      rw [Node.destroy, Resources.image_bury, below, if_neg others.1]
  | .mapping m, others => by
      have other : r.image ≠ some m.handle := others _ (List.mem_singleton_self _)
      rw [Node.destroy, Resources.image_bury]
      exact if_neg other
theorem Forest.image_destroy {r : Resources M} :
    (ns : Forest) → (∀ e ∈ Forest.entries ns, r.image ≠ some e.handle) →
      (Forest.destroy r ns).image = r.image
  | [], _ => rfl
  | n :: ns, others => by
      obtain ⟨first, later⟩ := List.forall_mem_append.mp others
      have same := n.image_destroy first
      rw [Forest.destroy, Forest.image_destroy ns (same.symm ▸ later), same]
end

namespace Context

def rest : List Frame → Option Node
  | [] => none
  | f :: c => some (plug c (.region f.label (f.before ++ f.behind)))

theorem entries_rest (c : List Frame) : (rest c).elim [] Node.entries = around c := by
  cases c with
  | nil => rfl
  | cons f c =>
      simp [rest, entries_plug, around, entriesBefore, entriesBehind, Node.entries]

end Context

namespace Space

theorem Kept.destroy_eq {s : Space M} (kept : s.Kept []) {c : Context} {n : Node}
    (tree : s.tree = some (Context.plug c n)) (other : s.resources.image ≠ some n.handle) :
    s.destroy n.handle =
      .ok () { s with tree := Context.rest c, resources := n.destroy s.resources } := by
  simp only [destroy, kept.liveNode_eq (mem_nodes_of_plug tree), if_neg other]
  rw [tree, Option.bind_some]
  cases c with
  | nil => rw [Context.plug, if_pos rfl, Context.rest]
  | cons f c =>
      have avoids := kept.avoids tree
      rw [if_neg (Context.handle_plug_ne avoids), Context.erase_plug avoids, Context.rest]

theorem destroy_cases {s : Space M} (kept : s.Kept []) (h : Handle) :
    (∃ f, s.destroy h = .fail f s) ∨
      ∃ c n, n.handle = h ∧ s.tree = some (Context.plug c n) ∧ s.resources.image ≠ some h ∧
        s.destroy h = .ok () { s with tree := Context.rest c, resources := n.destroy s.resources } := by
  cases live : s.liveNode h with
  | error f => exact .inl ⟨f, by simp only [destroy, live]⟩
  | ok n =>
      obtain ⟨rfl, alive⟩ := liveNode_ok live
      by_cases image : s.resources.image = some n.handle
      · exact .inl ⟨Error.accessDenied, by simp only [destroy, live, if_pos image]⟩
      · obtain ⟨c, tree⟩ := exists_plug alive
        exact .inr ⟨c, n, rfl, tree, image, kept.destroy_eq tree image⟩

theorem destroy_clean {s : Space M} (kept : s.Kept []) (h : Handle) : s.Clean .shape (s.destroy h) := by
  rcases destroy_cases kept h with ⟨f, same⟩ | ⟨c, n, rfl, tree, _, same⟩
  · rw [same]
    exact .fail kept f
  · rw [same]
    have entries : s.entries = (Context.plug c n).entries := by simp [Space.entries, tree]
    have evolves : Evolves .shape s.entries s.resources ((Context.rest c).elim [] Node.entries)
        (n.destroy s.resources) := by
      rw [entries, Context.entries_rest]
      exact (Evolves.reorder _ (Context.entries_plug_perm c n)).trans (n.destroy_evolves _ _)
    suffices follows : s.Follows .shape [] []
        { s with tree := Context.rest c, resources := n.destroy s.resources } from .ok follows ()
    refine ⟨⟨fun t left => ?_, fun t left => ?_, evolves.sound kept.sound⟩, evolves⟩
    · cases c with
      | nil => cases left
      | cons f c =>
          cases left
          exact Context.nested_without (kept.nested _ tree)
    · cases c with
      | nil => cases left
      | cons f c =>
          cases left
          obtain ⟨label, isRegion⟩ :=
            Context.label_plug_region c f.label (f.before ++ n :: f.behind) (f.before ++ f.behind)
          rw [Node.handle, label, isRegion]
          exact kept.rooted _ tree

theorem destroy_passes {s : Space M} (kept : s.Kept []) (h : Handle) {g : Nat} :
    s.Passes g (fun _ _ => False) (s.destroy h).state := by
  rcases destroy_cases kept h with ⟨f, same⟩ | ⟨c, n, rfl, tree, _, same⟩
  · rw [same]
    exact .of_tree rfl
  · rw [same]
    cases c with
    | nil => exact .of_gone rfl
    | cons f c =>
        have filled : s.tree = some (Context.plug c (.region f.label (f.before ++ n :: f.behind))) := tree
        refine .of_children filled rfl fun part hpart => .inl ⟨part, ?_, .same _, rfl⟩
        exact (List.Sublist.append_left (List.sublist_cons_self n f.behind) f.before).subset hpart

theorem destroy_ok {s s' : Space M} (kept : s.Kept []) {h : Handle} (done : s.destroy h = ⟨.ok (), s'⟩) :
    ∃ n ∈ s.nodes, n.handle = h ∧
      ∀ m, .mapping m ∈ s'.nodes → m.extent.stop ≤ n.start ∨ n.stop ≤ m.extent.start := by
  rcases destroy_cases kept h with ⟨f, same⟩ | ⟨c, n, rfl, tree, _, same⟩
  · cases same.symm.trans done
  · cases same.symm.trans done
    refine ⟨n, mem_nodes_of_plug tree, rfl, fun m hm => ?_⟩
    have around : .mapping m ∈ Context.around c := by
      rw [mapping_mem_nodes_iff] at hm
      rwa [← Context.entries_rest]
    rcases List.mem_append.mp around with before | behind
    · exact .inl (Context.mapping_before (kept.nested _ tree) before)
    · exact .inr (Context.mapping_behind (kept.nested _ tree) behind)

end Space
end RegionTree
