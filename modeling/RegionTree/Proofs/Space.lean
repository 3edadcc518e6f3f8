import RegionTree.Proofs.Evolution
import RegionTree.Proofs.Nesting
import RegionTree.Space

/-! Spaces between two calls: the tree is in order, and its entries are those of a sound ledger. While a
node is built, the slot held for it is the one entry that is not of the tree. -/
namespace RegionTree

theorem ensure_eq_ok {p : Prop} [Decidable p] {e : Error} {u : Unit} : ensure p e = .ok u ↔ p := by
  simp [ensure]

theorem check_eq_ok {α β : Type} {check : Except Failure α} {next : α → Except Failure β} {b : β} :
    (check >>= next) = .ok b ↔ ∃ a, check = .ok a ∧ next a = .ok b := by
  cases check <;> simp [bind, Except.bind]

theorem ensure_eq_error {p : Prop} [Decidable p] {e : Error} {f : Failure} :
    ensure p e = .error f ↔ ¬ p ∧ f = e := by
  rw [ensure]
  split
  · next holds => simp [holds]
  · next fails => simp [fails, eq_comm]

theorem check_eq_error {α β : Type} {check : Except Failure α} {next : α → Except Failure β} {f : Failure} :
    (check >>= next) = .error f ↔ check = .error f ∨ ∃ a, check = .ok a ∧ next a = .error f := by
  cases check <;> simp [bind, Except.bind]

theorem Outcome.map_eq_ok {σ α β : Type} {o : Outcome σ α} {f : α → β} {b : β} :
    (o.map f).answer = .ok b ↔ ∃ a, o.answer = .ok a ∧ f a = b := by
  obtain ⟨answer, state⟩ := o
  cases answer <;> simp [map, Except.map]

theorem Outcome.map_eq_error {σ α β : Type} {o : Outcome σ α} {f : α → β} {e : Failure} :
    (o.map f).answer = .error e ↔ o.answer = .error e := by
  obtain ⟨answer, state⟩ := o
  cases answer <;> simp [map, Except.map]

theorem Outcome.of_map_beside {σ τ α β : Type} {o : Outcome σ α} {f : α → β} {t t' : τ} {b : β} {s : σ}
    (done : (o.map f).beside t = .ok b (s, t')) : ∃ a, o = .ok a s ∧ f a = b := by
  obtain ⟨answer, state⟩ := o
  cases answer with
  | error e => cases done
  | ok a => cases done; exact ⟨a, rfl, rfl⟩

namespace Space
variable {M : Type}

def entries (s : Space M) : List Entry := s.tree.elim [] Node.entries

def nodes (s : Space M) : List Node := s.tree.elim [] Node.toList

/-- What holds of a space whose ledger has these entries besides those of its nodes. -/
structure Kept (pending : List Entry) (s : Space M) : Prop where
  nested : ∀ t, s.tree = some t → t.Nested
  rooted : ∀ t, s.tree = some t → t.handle = s.root ∧ t.isRegion
  sound : Sound (pending ++ s.entries) s.resources

theorem map_entry_nodes (s : Space M) : s.nodes.map Node.entry = s.entries := by
  cases tree : s.tree with
  | none => simp [nodes, entries, tree]
  | some t => simp [nodes, entries, tree, t.map_entry_toList]

theorem map_handle_entries (s : Space M) : s.entries.map Entry.handle = s.nodes.map Node.handle := by
  rw [← map_entry_nodes, List.map_map]
  exact List.map_congr_left fun n _ => n.handle_entry

theorem mapping_mem_nodes_iff {s : Space M} {m : Mapping} :
    .mapping m ∈ s.nodes ↔ .mapping m ∈ s.entries := by
  cases tree : s.tree with
  | none => simp [nodes, entries, tree]
  | some t => simpa [nodes, entries, tree] using Node.mapping_mem_toList_iff

theorem entry_mem {s : Space M} {n : Node} (alive : n ∈ s.nodes) : n.entry ∈ s.entries := by
  rw [← map_entry_nodes]
  exact List.mem_map_of_mem alive

theorem exists_plug {s : Space M} {n : Node} (alive : n ∈ s.nodes) :
    ∃ c, s.tree = some (Context.plug c n) := by
  cases tree : s.tree with
  | none => simp [nodes, tree] at alive
  | some t =>
      have alive : n ∈ t.toList := by simpa [nodes, tree] using alive
      obtain ⟨c, rfl⟩ := Node.exists_plug_of_mem_toList t alive
      exact ⟨c, rfl⟩

theorem mem_nodes {s : Space M} {t n : Node} (tree : s.tree = some t) (inside : n ∈ t.toList) :
    n ∈ s.nodes := by
  simpa [nodes, tree] using inside

theorem mem_nodes_of_plug {s : Space M} {c : Context} {n : Node}
    (tree : s.tree = some (Context.plug c n)) : n ∈ s.nodes :=
  mem_nodes tree (Context.mem_toList_plug c n.mem_toList_self)

theorem mem_entries_of_mem_nodes {s : Space M} {n : Node} {e : Entry} (alive : n ∈ s.nodes)
    (inside : e ∈ n.entries) : e ∈ s.entries := by
  obtain ⟨c, tree⟩ := exists_plug alive
  rw [entries, tree]
  show e ∈ (Context.plug c n).entries
  rw [Context.entries_plug]
  exact List.mem_append_left _ (List.mem_append_right _ inside)

theorem child_mem_nodes {s : Space M} {l : Label} {children : Forest} {n : Node}
    (alive : .region l children ∈ s.nodes) (child : n ∈ children) : n ∈ s.nodes := by
  obtain ⟨c, tree⟩ := exists_plug alive
  obtain ⟨before, behind, rfl⟩ := List.append_of_mem child
  exact mem_nodes tree (Context.mem_toList_plug (⟨l, before, behind⟩ :: c) n.mem_toList_self)

theorem entries_perm {s : Space M} {c : Context} {l : Label} {children : Forest} (pending : List Entry)
    (tree : s.tree = some (Context.plug c (.region l children))) :
    (pending ++ s.entries).Perm
      (Forest.entries children ++ (.region l :: (pending ++ Context.around c))) := by
  rw [show s.entries = (Context.plug c (.region l children)).entries by simp [entries, tree]]
  have apart := (Context.entries_plug_perm c (.region l children)).append_left pending
  refine apart.trans ((List.perm_append_comm_assoc _ _ _).trans ?_)
  exact List.perm_middle.symm

theorem node?_some {s : Space M} {h : Handle} {n : Node} (found : s.node? h = some n) :
    n.handle = h ∧ n ∈ s.nodes := by
  obtain ⟨t, tree, found⟩ := Option.bind_eq_some_iff.mp found
  obtain ⟨same, inside⟩ := Node.mem_toList_of_find? t found
  exact ⟨same, mem_nodes tree inside⟩

theorem liveNode_ok {s : Space M} {h : Handle} {n : Node} (live : s.liveNode h = .ok n) :
    n.handle = h ∧ n ∈ s.nodes := by
  simp only [liveNode] at live
  split at live
  · cases live
  · split at live
    · next found => cases live; exact node?_some found
    · cases live

theorem liveRegion_ok {s : Space M} {h : Handle} {l : Label} {children : Forest}
    (live : s.liveRegion h = .ok (l, children)) :
    l.handle = h ∧ .region l children ∈ s.nodes := by
  simp only [liveRegion] at live
  split at live
  · cases live
  · next found => cases live; exact liveNode_ok found
  · cases live

theorem exists_alive_of_any {s : Space M} {h : Handle} {test : Label × Forest → Bool}
    (passes : (s.liveRegion h).toOption.any test) :
    ∃ l children, l.handle = h ∧ .region l children ∈ s.nodes ∧ test (l, children) := by
  cases live : s.liveRegion h with
  | error f =>
      rw [live] at passes
      cases passes
  | ok x =>
      rw [live] at passes
      obtain ⟨handle, alive⟩ := liveRegion_ok live
      exact ⟨x.1, x.2, handle, alive, passes⟩

namespace Kept
variable {pending : List Entry} {s : Space M}

theorem avoids (kept : s.Kept pending) {c : Context} {n : Node}
    (tree : s.tree = some (Context.plug c n)) : Context.Avoids c n.handle := by
  have distinct := kept.sound.balanced.handles_nodup
  rw [List.map_append] at distinct
  have inner := (List.nodup_append.mp distinct).2.1
  rw [show s.entries = (Context.plug c n).entries by simp [entries, tree]] at inner
  exact Context.avoids_of_nodup inner

theorem nested_of_mem (kept : s.Kept pending) {n : Node} (alive : n ∈ s.nodes) : n.Nested := by
  obtain ⟨c, tree⟩ := exists_plug alive
  exact Context.nested_of_plug (kept.nested _ tree)

theorem lined (kept : s.Kept pending) {l : Label} {children : Forest}
    (alive : .region l children ∈ s.nodes) : Forest.Lined l.extent children := by
  cases kept.nested_of_mem alive with | region lined _ => exact lined

theorem tidy (kept : s.Kept pending) {n : Node} (alive : n ∈ s.nodes) : n.entry.Tidy :=
  kept.sound.balanced.tidy _ (List.mem_append_right _ (entry_mem alive))

theorem node?_eq (kept : s.Kept pending) {n : Node} (alive : n ∈ s.nodes) :
    s.node? n.handle = some n := by
  obtain ⟨c, tree⟩ := exists_plug alive
  rw [node?, tree]
  exact Context.find?_plug (kept.avoids tree)

theorem slot_lt (kept : s.Kept pending) {n : Node} (alive : n ∈ s.nodes) :
    n.handle.slot < s.resources.fresh := by
  have slots := kept.sound.balanced.slots.mem_iff (a := n.handle.slot)
  rw [List.mem_range] at slots
  apply slots.mp
  refine List.mem_append_left _ (List.mem_map.mpr ⟨n.entry, ?_, by rw [n.handle_entry]⟩)
  exact List.mem_append_right _ (entry_mem alive)

theorem liveNode_eq (kept : s.Kept pending) {n : Node} (alive : n ∈ s.nodes) :
    s.liveNode n.handle = .ok n := by
  rw [liveNode, if_neg (Nat.not_le.mpr (kept.slot_lt alive)), kept.node?_eq alive]

theorem liveRegion_eq (kept : s.Kept pending) {l : Label} {children : Forest}
    (alive : .region l children ∈ s.nodes) : s.liveRegion l.handle = .ok (l, children) := by
  rw [liveRegion, show s.liveNode l.handle = .ok (.region l children) from kept.liveNode_eq alive]

theorem eq_of_handle (kept : s.Kept pending) {n n' : Node} (alive : n ∈ s.nodes)
    (alive' : n' ∈ s.nodes) (same : n.handle = n'.handle) : n = n' := by
  have found := kept.node?_eq alive
  rw [same, kept.node?_eq alive'] at found
  exact (Option.some.inj found).symm

theorem free_of_mappings (kept : s.Kept pending) {l : Label}
    {children : Forest} {start stop : Nat} (alive : .region l children ∈ s.nodes)
    (low : l.extent.start ≤ start) (high : stop ≤ l.extent.stop)
    (free : ∀ n ∈ children, n.stop ≤ start ∨ stop ≤ n.start) {m : Mapping}
    (hm : .mapping m ∈ s.entries) : m.extent.stop ≤ start ∨ stop ≤ m.extent.start := by
  obtain ⟨c, tree⟩ := exists_plug alive
  have whole := kept.nested _ tree
  have spread : .mapping m ∈ Forest.entries children ++ .region l :: Context.around c :=
    (entries_perm [] tree).mem_iff.mp hm
  rcases List.mem_append.mp spread with below | outside
  · obtain ⟨n, hn, inside⟩ := Forest.mem_entries_iff.mp below
    have nested : n.Nested := by
      cases Context.nested_of_plug whole with | region _ inner => exact inner n hn
    have within := nested.mapping_within inside
    have := free n hn
    omega
  · rcases List.mem_cons.mp outside with impossible | around
    · cases impossible
    · rcases List.mem_append.mp around with before | behind
      · have := Context.mapping_before whole before
        simp only [Node.start_region] at this
        omega
      · have := Context.mapping_behind whole behind
        simp only [Node.stop_region] at this
        omega

theorem quiet (kept : s.Kept pending) {r : Resources M} (same : s.resources.Quiet r) :
    ({ s with resources := r } : Space M).Kept pending where
  nested := kept.nested
  rooted := kept.rooted
  sound := ⟨kept.sound.balanced.quiet same,
    kept.sound.recorded.mono (fun _ image => same.image ▸ image) fun _ hm _ => hm⟩

theorem tree_withChildren (kept : s.Kept pending) {c : Context} {l : Label} {old : Forest}
    (tree : s.tree = some (Context.plug c (.region l old))) (new : Forest) :
    s.tree.map (Node.withChildren l.handle new) = some (Context.plug c (.region l new)) := by
  have avoids : Context.Avoids c l.handle := kept.avoids tree
  rw [tree, Option.map_some, Context.withChildren_plug avoids]

end Kept

/-- The second space comes of the first. -/
structure Follows [Mmu M] (purpose : Purpose) (pending : List Entry) (s : Space M)
    (pending' : List Entry) (s' : Space M) : Prop where
  kept : s'.Kept pending'
  evolves : Evolves purpose (pending ++ s.entries) s.resources (pending' ++ s'.entries) s'.resources

namespace Follows
variable [Mmu M] {purpose : Purpose} {pending pending' pending'' : List Entry}
variable {s s' s'' : Space M}

theorem refl (kept : s.Kept pending) : Follows purpose pending s pending s := ⟨kept, .refl _ _⟩

theorem trans (h : Follows purpose pending s pending' s')
    (h' : Follows purpose pending' s' pending'' s'') : Follows purpose pending s pending'' s'' :=
  ⟨h'.kept, h.evolves.trans h'.evolves⟩

theorem of_tree (kept : s.Kept pending) (tree : s'.tree = s.tree) (root : s'.root = s.root)
    (evolves : Evolves purpose (pending ++ s.entries) s.resources (pending' ++ s.entries) s'.resources) :
    Follows purpose pending s pending' s' := by
  have same : s'.entries = s.entries := by rw [entries, tree, entries]
  refine ⟨⟨fun t ht => kept.nested t (tree ▸ ht), fun t ht => ?_, ?_⟩, same ▸ evolves⟩
  · exact root ▸ kept.rooted t (tree ▸ ht)
  · exact same ▸ evolves.sound kept.sound

theorem quiet (kept : s.Kept pending) {r : Resources M} (same : s.resources.Quiet r) :
    Follows purpose pending s pending { s with resources := r } :=
  of_tree kept rfl rfl (.quiet _ same)

theorem of_children (kept : s.Kept pending) {c : Context} {l : Label} {old new : Forest}
    (tree : s.tree = some (Context.plug c (.region l old)))
    (tree' : s'.tree = some (Context.plug c (.region l new))) (root : s'.root = s.root)
    (nested : (Node.region l new).Nested)
    (evolves : Evolves purpose
      (Forest.entries old ++ (.region l :: (pending ++ Context.around c))) s.resources
      (Forest.entries new ++ (.region l :: (pending' ++ Context.around c))) s'.resources) :
    Follows purpose pending s pending' s' := by
  have whole : Evolves purpose (pending ++ s.entries) s.resources (pending' ++ s'.entries) s'.resources :=
    ((Evolves.reorder _ (entries_perm pending tree)).trans evolves).trans
      (.reorder _ (entries_perm pending' tree').symm)
  have around := kept.nested _ tree
  have same := Context.label_plug_region c l old new
  refine ⟨⟨fun t ht => ?_, fun t ht => ?_, whole.sound kept.sound⟩, whole⟩
  · cases tree'.symm.trans ht
    exact Context.nested_plug around nested rfl rfl
  · cases tree'.symm.trans ht
    rw [Node.handle, same.1, same.2, root]
    exact kept.rooted _ tree

end Follows

/-- The spaces differ at most in slots handed out and given back, generations counted, entropy drawn, and
events reported. -/
structure Alike (s s' : Space M) : Prop where
  kind : s'.kind = s.kind
  root : s'.root = s.root
  tree : s'.tree = s.tree
  capacity : s'.resources.capacity = s.resources.capacity
  inUse : s'.resources.inUse = s.resources.inUse
  image : s'.resources.image = s.resources.image
  mmu : s'.resources.mmu = s.resources.mmu
  generation : s.resources.nextGeneration ≤ s'.resources.nextGeneration

theorem Alike.refl (s : Space M) : s.Alike s := ⟨rfl, rfl, rfl, rfl, rfl, rfl, rfl, Nat.le_refl _⟩

theorem Alike.trans {s s' s'' : Space M} (h : s.Alike s') (h' : s'.Alike s'') : s.Alike s'' :=
  ⟨h'.kind.trans h.kind, h'.root.trans h.root, h'.tree.trans h.tree, h'.capacity.trans h.capacity,
    h'.inUse.trans h.inUse, h'.image.trans h.image, h'.mmu.trans h.mmu,
    Nat.le_trans h.generation h'.generation⟩

theorem Alike.quiet {s : Space M} {r : Resources M} {entropy : Entropy} (same : s.resources.Quiet r) :
    s.Alike { s with resources := r, entropy } where
  kind := rfl
  root := rfl
  tree := rfl
  capacity := same.capacity
  inUse := same.inUse
  image := same.image
  mmu := same.mmu
  generation := same.generation

/-- What an operation leaves is sound, and as before if it fails. -/
structure Clean [Mmu M] {α : Type} (purpose : Purpose) (s : Space M)
    (o : Outcome (Space M) α) : Prop where
  follows : s.Follows purpose [] [] o.state
  alike : ∀ f, o.answer = .error f → s.Alike o.state

namespace Clean
variable [Mmu M] {α : Type} {purpose : Purpose} {s s' : Space M} {o : Outcome (Space M) α}

theorem fail (kept : s.Kept []) (f : Failure) : s.Clean purpose (.fail f s : Outcome (Space M) α) :=
  ⟨.refl kept, fun _ _ => .refl s⟩

theorem ok (follows : s.Follows purpose [] [] s') (a : α) :
    s.Clean purpose (.ok a s' : Outcome (Space M) α) :=
  ⟨follows, fun _ failed => nomatch failed⟩

theorem after (follows : s.Follows purpose [] [] s') (alike : s.Alike s') (h : s'.Clean purpose o) :
    s.Clean purpose o :=
  ⟨follows.trans h.follows, fun f failed => alike.trans (h.alike f failed)⟩

end Clean
end Space
end RegionTree
