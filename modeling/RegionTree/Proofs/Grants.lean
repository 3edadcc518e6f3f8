import RegionTree.Proofs.Translations
import RegionTree.Proofs.WellFormed

/-! Permissions are handed down and never grow: what a translation allows is granted by the mapping and by
every region around it. -/
namespace RegionTree

def Entry.flags : Entry → RegionFlags
  | .region l => l.flags
  | .mapping m => m.flags
  | .held _ => .empty

@[simp] theorem Entry.flags_region (l : Label) : (Entry.region l).flags = l.flags := rfl

@[simp] theorem Entry.flags_mapping (m : Mapping) : (Entry.mapping m).flags = m.flags := rfl

theorem Node.flags_entry (n : Node) : n.entry.flags = n.label.flags := by cases n <;> rfl

/-- A child may have no permission that its region lacks, and a mapping uses none that it may not have. -/
structure Label.Grants (l : Label) (e : Entry) : Prop where
  inherited : l.flags.contains (e.flags ∩ RegionFlags.mapAll)
  used : ∀ m, e = .mapping m → m.access.fits m.flags

theorem Label.Grants.heir {l : Label} {g : Nat} {e part : Entry} (h : l.Grants e) (heir : e.Heir g part) :
    l.Grants part := by
  cases heir with
  | same => exact h
  | @piece m part heir =>
      constructor
      · rw [Entry.flags_mapping, heir.flags]
        exact h.inherited
      · rintro _ ⟨⟩
        exact heir.fits (h.used m rfl)

theorem NodeRequest.LetsIn.grants {q : NodeRequest} {parent : Handle} {l : Label} {e : Entry}
    (h : q.LetsIn parent l e) (fits : ∀ b, q.settled.backing = some b → b.access.fits q.flags) :
    l.Grants e := by
  cases h.describes with
  | @region r _ flags _ =>
      refine ⟨?_, nofun⟩
      rw [Entry.flags_region, flags]
      exact h.granted
  | @mapping m backing flags _ =>
      have used := fits ⟨m.object, m.offset, m.access⟩ backing
      constructor
      · rw [Entry.flags_mapping, flags]
        exact h.granted
      · rintro _ ⟨⟩
        rw [flags]
        exact used

theorem Sketch.mapping_fits (sketch : Sketch) (object : MemoryObject) (offset : UInt64)
    (access : PageFlags) {b : Backing}
    (backing : (sketch.mapping object offset access).settled.backing = some b) :
    b.access.fits (sketch.mapping object offset access).flags := by
  obtain ⟨before, same, needed⟩ := NodeRequest.backing_of_settled backing
  have asked : access = before := congrArg Backing.access (Option.some.inj same)
  rw [Flags.fits, needed, ← asked]
  exact Flags.union_contains_right

theorem Operation.LetsIn.grants {op : Operation} {l : Label} {e : Entry} (h : op.LetsIn l e) :
    l.Grants e := by
  cases op with
  | addRegion parent sketch => exact NodeRequest.LetsIn.grants h nofun
  | addMapping parent sketch object offset access =>
      exact NodeRequest.LetsIn.grants h fun _ => sketch.mapping_fits object offset access
  | _ => cases h

/-- What all links of a tree hand down is granted by the outermost node. -/
theorem Context.contains_of_granted {c : Context} {n : Node} {grants : RegionFlags}
    (granted : ∀ x ∈ (plug c n).links, x.1.Grants x.2) (known : RegionFlags.mapAll.contains grants)
    (inner : n.label.flags.contains grants) : (plug c n).label.flags.contains grants := by
  induction c generalizing n with
  | nil => exact inner
  | cons f c ih =>
      refine ih granted ?_
      have link : (f.label, n.entry) ∈ (plug (f :: c) n).links :=
        mem_links_plug.mpr (.inr List.mem_cons_self)
      have inherited := (granted _ link).inherited
      rw [n.flags_entry] at inherited
      exact Flags.contains_trans inherited (Flags.inter_contains inner known)

namespace Space

/-- Permissions only shrink from the root down to the translations. -/
structure Attenuated (s : Space PageTable) : Prop where
  inherited : ∀ p ∈ s.nodes, ∀ n ∈ p.children,
    p.label.flags.contains (n.label.flags ∩ RegionFlags.mapAll)
  used : ∀ m, .mapping m ∈ s.nodes → m.access.fits m.flags
  /-- The mapping of a translation and all regions around it grant what the translation allows. -/
  translated : ∀ t ∈ s.resources.mmu.translations, ∃ m, .mapping m ∈ s.nodes ∧ t.Of m ∧
    ∀ p ∈ s.nodes, .mapping m ∈ p.toList → t.flags.fits p.label.flags

theorem Kept.attenuated {s : Space PageTable} (kept : s.Kept []) (coherent : Coherent s.entries s.resources)
    (granted : ∀ x ∈ s.links, x.1.Grants x.2) : s.Attenuated := by
  have used : ∀ m, .mapping m ∈ s.nodes → m.access.fits m.flags := fun m alive =>
    have ⟨_, linked⟩ := kept.exists_link_of_mapping alive
    (granted _ linked).used m rfl
  refine ⟨fun p hp n hn => ?_, used, fun t ht => ?_⟩
  · cases p with
    | region l children =>
        have inherited := (granted _ (mem_links_of_child hp hn)).inherited
        rwa [n.flags_entry] at inherited
    | mapping m => cases hn
  · obtain ⟨m, hm, own⟩ := coherent t ht
    have alive := mapping_mem_nodes_iff.mpr hm
    refine ⟨m, alive, own, fun p hp inside => ?_⟩
    obtain ⟨c, rfl⟩ := Node.exists_plug_of_mem_toList p inside
    rw [Flags.fits, own.flags]
    exact Context.contains_of_granted (fun x hx => granted x (links_subset hp hx))
      (Flags.mapAll_contains_grantsNeeded m.access) (used m alive)

theorem run_granted {M : Type} [Mmu M] (picks : Mmu.PicksPages M) {mmu : M} {c : SpaceConfig}
    {entropy : Entropy} {s : Space M} (new : Space.new mmu c entropy = .ok s) (commitments : Commitments)
    (ops : List Operation) : ∀ x ∈ (run (s, commitments) ops).1.links, x.1.Grants x.2 :=
  run_forall_links picks new commitments ops (fun _ _ _ _ joined => joined.grants)
    fun _ _ _ _ held heir => held.heir heir

/-- After any sequence of calls, each node is within the grants of its region, each mapping within its own,
and each translation within those of all nodes around it. -/
theorem run_attenuated {guard : Nat} {refuses : Bool} {c : SpaceConfig} {entropy : Entropy}
    {s : Space PageTable} (new : Space.new (⟨guard, refuses, []⟩ : PageTable) c entropy = .ok s)
    (commitments : Commitments) (ops : List Operation) : (run (s, commitments) ops).1.Attenuated := by
  have kept := run_kept (w := (s, commitments)) .pageTable (new_kept new) ops
  exact kept.attenuated (run_coherent (new_kept new) (new_coherent new) commitments ops)
    (run_granted .pageTable new commitments ops)

/-- A page of a mapping in a region inside the root is made writable and translated. -/
theorem run_attenuated_region :
    ∃ s, Space.new (⟨0, false, []⟩ : PageTable) ⟨.user, 0, 0x8000, .empty, 4⟩ ⟨none⟩ = .ok s ∧
      (run (s, []) [.addRegion ⟨0, 0⟩ { size := 0x4000, flags := RegionFlags.mapAll },
        .addMapping ⟨1, 1⟩ { size := 0x1000, flags := RegionFlags.mapAll }
          ⟨0, 0x1000, none, none, false⟩ 0 PageFlags.read,
        .protect ⟨1, 1⟩ 0 0x1000 (PageFlags.read ∪ PageFlags.write),
        .resolve ⟨0, 0⟩ 0 FaultFlags.store]).1.Attenuated := by
  obtain ⟨s, new⟩ : ∃ s, Space.new (⟨0, false, []⟩ : PageTable)
      ⟨.user, 0, 0x8000, .empty, 4⟩ ⟨none⟩ = .ok s := ⟨_, rfl⟩
  exact ⟨s, new, run_attenuated new _ _⟩

end Space
end RegionTree
