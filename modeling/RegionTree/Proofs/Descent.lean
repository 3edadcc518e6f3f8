import RegionTree.Proofs.Kinship
import RegionTree.Proofs.Space

/-! Children from call to call: each is left of an old child of the same region, or has joined. -/
namespace RegionTree.Space
variable {M : Type} {s s' s'' : Space M} {g g' : Nat} {joins : Label → Entry → Prop}

/-- The nodes alive but the root, each with the label of the region that it is a child of. -/
def links (s : Space M) : List (Label × Entry) := s.tree.elim [] Node.links

theorem links_eq {t : Node} (tree : s.tree = some t) : s.links = t.links := by
  rw [links, tree, Option.elim_some]

theorem mem_links_of_child {l : Label} {children : Forest} {n : Node}
    (alive : .region l children ∈ s.nodes) (child : n ∈ children) : (l, n.entry) ∈ s.links := by
  cases tree : s.tree with
  | none => simp [nodes, tree] at alive
  | some t =>
      rw [links_eq tree]
      exact Node.mem_links_of_child (by simpa [nodes, tree] using alive) child

theorem exists_child_of_mem_links {x : Label × Entry} (linked : x ∈ s.links) :
    ∃ children n, .region x.1 children ∈ s.nodes ∧ n ∈ children ∧ n.entry = x.2 := by
  cases tree : s.tree with
  | none => simp [links, tree] at linked
  | some t =>
      rw [links_eq tree] at linked
      obtain ⟨children, n, alive, found⟩ := Node.exists_child_of_mem_links t linked
      exact ⟨children, n, mem_nodes tree alive, found⟩

theorem links_subset {n : Node} (alive : n ∈ s.nodes) : n.links ⊆ s.links := by
  obtain ⟨c, tree⟩ := exists_plug alive
  intro x hx
  rw [links_eq tree]
  exact Context.mem_links_plug.mpr (.inl hx)

/-- A mapping alive is a child, since the root is a region. -/
theorem Kept.exists_link_of_mapping {pending : List Entry} (kept : s.Kept pending) {m : Mapping}
    (alive : .mapping m ∈ s.nodes) : ∃ l, (l, .mapping m) ∈ s.links := by
  cases tree : s.tree with
  | none => simp [nodes, tree] at alive
  | some t =>
      have inside : .mapping m ∈ t.entries := by
        simpa [entries, tree] using mapping_mem_nodes_iff.mp alive
      rw [links_eq tree]
      refine (t.mem_entries_cases inside).resolve_left fun same => ?_
      have root := (kept.rooted t tree).2
      cases t with
      | region l children => cases same
      | mapping m => cases root

/-- The second space comes of the first: the root stays while there is one, and each other node is left
of an old child of the same region, or is of at least the given generation and was let in. -/
structure Passes (generation : Nat) (joins : Label → Entry → Prop) (s s' : Space M) : Prop where
  root : ∀ t', s'.tree = some t' → ∃ t, s.tree = some t ∧ t'.entry = t.entry
  links : ∀ x ∈ s'.links, (∃ e, (x.1, e) ∈ s.links ∧ e.Heir generation x.2) ∨
    (generation ≤ x.2.handle.generation ∧ joins x.1 x.2)

namespace Passes

theorem of_tree (same : s'.tree = s.tree) : s.Passes g joins s' where
  root t' tree := ⟨t', same ▸ tree, rfl⟩
  links x hx := .inl ⟨x.2, by rwa [Space.links, ← same], .same _⟩

theorem of_gone (gone : s'.tree = none) : s.Passes g joins s' where
  root t' tree := nomatch gone.symm.trans tree
  links x hx := by simp [Space.links, gone] at hx

theorem mono {joins' : Label → Entry → Prop} (h : s.Passes g joins s')
    (more : ∀ l e, joins l e → joins' l e) : s.Passes g joins' s' where
  root := h.root
  links x hx := (h.links x hx).imp_right fun ⟨recent, joined⟩ => ⟨recent, more _ _ joined⟩

theorem of_children {c : Context} {l : Label} {old new : Forest}
    (tree : s.tree = some (Context.plug c (.region l old)))
    (tree' : s'.tree = some (Context.plug c (.region l new)))
    (row : ∀ part ∈ new, (∃ n ∈ old, n.Heir g part) ∨
      g ≤ part.handle.generation ∧ part.links = [] ∧ joins l part.entry) : s.Passes g joins s' where
  root t' same := by
    cases same.symm.trans tree'
    exact ⟨_, tree, Context.entry_plug_region c l old new⟩
  links x hx := by
    rw [links_eq tree', Context.mem_links_plug] at hx
    rw [links_eq tree]
    simp only [Context.mem_links_plug]
    rcases hx with inside | outside
    · obtain ⟨part, hpart, found⟩ := Forest.mem_links_iff.mp inside
      rcases row part hpart with ⟨n, hn, heir⟩ | ⟨recent, alone, joined⟩
      · rcases found with rfl | below
        · exact .inl ⟨n.entry, .inl (Forest.mem_links_iff.mpr ⟨n, hn, .inl rfl⟩), heir.entry⟩
        · rw [heir.below] at below
          exact .inl ⟨x.2, .inl (Forest.mem_links_iff.mpr ⟨n, hn, .inr below⟩), .same _⟩
      · rcases found with rfl | below
        · exact .inr ⟨part.handle_entry ▸ recent, joined⟩
        · rw [alone] at below
          cases below
    · exact .inl ⟨x.2, .inr outside, .same _⟩

/-- Nodes join in the last of several steps only. -/
theorem trans (h : s.Passes g (fun _ _ => False) s') (h' : s'.Passes g' joins s'') (later : g ≤ g') :
    s.Passes g joins s'' where
  root t'' tree'' := by
    obtain ⟨t', tree', same'⟩ := h'.root t'' tree''
    obtain ⟨t, tree, same⟩ := h.root t' tree'
    exact ⟨t, tree, same'.trans same⟩
  links x hx := by
    rcases h'.links x hx with ⟨e', linked', heir'⟩ | ⟨recent, joined⟩
    · rcases h.links _ linked' with ⟨e, linked, heir⟩ | ⟨_, none⟩
      · exact .inl ⟨e, linked, heir.trans heir' later⟩
      · cases none
    · exact .inr ⟨Nat.le_trans later recent, joined⟩

theorem before (h : s'.Passes g' joins s'') (same : s'.tree = s.tree) (later : g ≤ g') :
    s.Passes g joins s'' :=
  .trans (.of_tree same) h later

/-- What holds of all links, and of what is left of them, holds afterwards if it holds of those that
join. -/
theorem forall_links {P : Label → Entry → Prop} (h : s.Passes g joins s')
    (before : ∀ x ∈ s.links, P x.1 x.2) (heirs : ∀ l e part, P l e → e.Heir g part → P l part)
    (joined : ∀ l e, joins l e → P l e) : ∀ x ∈ s'.links, P x.1 x.2 := by
  intro x hx
  rcases h.links x hx with ⟨e, linked, heir⟩ | ⟨_, new⟩
  · exact heirs x.1 e x.2 (before (x.1, e) linked) heir
  · exact joined _ _ new

theorem forall_entries {P : Entry → Prop} (h : s.Passes g joins s') (before : ∀ e ∈ s.entries, P e)
    (heirs : ∀ e part, P e → e.Heir g part → P part) (joined : ∀ l e, joins l e → P e) :
    ∀ e ∈ s'.entries, P e := by
  have children : ∀ x ∈ s.links, P x.2 := by
    intro x linked
    obtain ⟨_, n, alive, child, same⟩ := exists_child_of_mem_links linked
    exact same ▸ before _ (entry_mem (child_mem_nodes alive child))
  have children' : ∀ x ∈ s'.links, P x.2 :=
    h.forall_links (P := fun _ e => P e) children (fun _ => heirs) joined
  intro e he
  cases tree' : s'.tree with
  | none => simp [entries, tree'] at he
  | some t' =>
      have inside : e ∈ t'.entries := by simpa [entries, tree'] using he
      rcases t'.mem_entries_cases inside with rfl | ⟨l, linked⟩
      · obtain ⟨t, tree, same⟩ := h.root t' tree'
        exact same ▸ before _ (entry_mem (mem_nodes tree t.mem_toList_self))
      · exact children' (l, e) (links_eq tree' ▸ linked)

end Passes
end RegionTree.Space
