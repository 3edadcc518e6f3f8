import RegionTree.Proofs.Flags
import RegionTree.Proofs.Lineage

/-! Which node is whose child, and what a call may leave of a child: the child as it was, or pieces of a
mapping, of which one at most is the old node. -/
namespace RegionTree

mutual
/-- Each node below a node, with the label of the region that it is a child of. -/
def Node.links : Node → List (Label × Entry)
  | .region l children => Forest.links l children
  | .mapping _ => []
def Forest.links (parent : Label) : Forest → List (Label × Entry)
  | [] => []
  | n :: rest => (parent, n.entry) :: (n.links ++ Forest.links parent rest)
end

theorem Forest.links_append (parent : Label) (ns more : Forest) :
    links parent (ns ++ more) = links parent ns ++ links parent more := by
  induction ns with
  | nil => rfl
  | cons n ns ih => simp [links, ih]

theorem Forest.links_perm {ns ns' : Forest} (parent : Label) (same : ns.Perm ns') :
    (links parent ns).Perm (links parent ns') := by
  induction same with
  | nil => exact .refl _
  | cons n _ ih => exact (ih.append_left _).cons _
  | swap a b ns =>
      exact List.perm_append_comm_assoc ((parent, b.entry) :: b.links) ((parent, a.entry) :: a.links) _
  | trans _ _ ih ih' => exact ih.trans ih'

theorem Forest.mem_links_iff {x : Label × Entry} {parent : Label} {ns : Forest} :
    x ∈ Forest.links parent ns ↔ ∃ n ∈ ns, x = (parent, n.entry) ∨ x ∈ n.links := by
  induction ns with
  | nil => simp [Forest.links]
  | cons n ns ih => simp [Forest.links, ih, or_assoc]

mutual
theorem Node.exists_child_of_mem_links {x : Label × Entry} :
    (t : Node) → x ∈ t.links →
      ∃ children n, .region x.1 children ∈ t.toList ∧ n ∈ children ∧ n.entry = x.2
  | .region l children, h => by
      rcases Forest.exists_child_of_mem_links children h with ⟨n, hn, rfl⟩ | ⟨more, n, alive, found⟩
      · exact ⟨children, n, List.mem_cons_self, hn, rfl⟩
      · exact ⟨more, n, List.mem_cons_of_mem _ alive, found⟩
theorem Forest.exists_child_of_mem_links {x : Label × Entry} {parent : Label} :
    (ns : Forest) → x ∈ Forest.links parent ns → (∃ n ∈ ns, x = (parent, n.entry)) ∨
      ∃ children n, .region x.1 children ∈ Forest.toList ns ∧ n ∈ children ∧ n.entry = x.2
  | n :: rest, h => by
      rcases List.mem_cons.mp h with here | below
      · exact .inl ⟨n, List.mem_cons_self, here⟩
      rcases List.mem_append.mp below with inside | later
      · obtain ⟨children, c, alive, found⟩ := Node.exists_child_of_mem_links n inside
        exact .inr ⟨children, c, List.mem_append_left _ alive, found⟩
      · rcases Forest.exists_child_of_mem_links rest later with ⟨c, hc, same⟩ | ⟨children, c, alive, found⟩
        · exact .inl ⟨c, List.mem_cons_of_mem _ hc, same⟩
        · exact .inr ⟨children, c, List.mem_append_right _ alive, found⟩
end

mutual
theorem Node.mem_entries_cases {e : Entry} :
    (t : Node) → e ∈ t.entries → e = t.entry ∨ ∃ l, (l, e) ∈ t.links
  | .region l children, h => by
      rcases List.mem_cons.mp h with here | below
      · exact .inl here
      · exact .inr (Forest.exists_link_of_mem_entries children below)
  | .mapping m, h => .inl (List.mem_singleton.mp h)
theorem Forest.exists_link_of_mem_entries {e : Entry} {parent : Label} :
    (ns : Forest) → e ∈ Forest.entries ns → ∃ l, (l, e) ∈ Forest.links parent ns
  | n :: rest, h => by
      rcases List.mem_append.mp h with inside | later
      · rcases n.mem_entries_cases inside with rfl | ⟨l, linked⟩
        · exact ⟨parent, List.mem_cons_self⟩
        · exact ⟨l, List.mem_cons_of_mem _ (List.mem_append_left _ linked)⟩
      · obtain ⟨l, linked⟩ := Forest.exists_link_of_mem_entries rest later
        exact ⟨l, List.mem_cons_of_mem _ (List.mem_append_right _ linked)⟩
end

namespace Context

def links : List Frame → Entry → List (Label × Entry)
  | [], _ => []
  | f :: c, e => (f.label, e) :: (Forest.links f.label f.before ++ Forest.links f.label f.behind ++
      links c (.region f.label))

theorem links_plug_perm (c : List Frame) (n : Node) : (plug c n).links.Perm (n.links ++ links c n.entry) := by
  induction c generalizing n with
  | nil => rw [plug, links, List.append_nil]
  | cons f c ih =>
      refine (ih (f.fill n)).trans ?_
      simp only [Frame.fill, Node.links, Node.entry, Forest.links_append, Forest.links, links,
        List.append_assoc, List.cons_append]
      -- What fills the hole comes to the front, and then what is below it.
      refine List.perm_middle.trans (.trans (.cons _ ?_) List.perm_middle.symm)
      exact List.perm_append_comm_assoc _ _ _

theorem mem_links_plug {x : Label × Entry} {c : List Frame} {n : Node} :
    x ∈ (plug c n).links ↔ x ∈ n.links ∨ x ∈ links c n.entry := by
  rw [(links_plug_perm c n).mem_iff, List.mem_append]

theorem entry_plug_region (c : List Frame) (l : Label) (old new : Forest) :
    (plug c (.region l new)).entry = (plug c (.region l old)).entry := by
  induction c generalizing l old new with
  | nil => rfl
  | cons f c ih => exact ih f.label _ _

end Context

theorem Node.mem_links_of_child {t n : Node} {l : Label} {children : Forest}
    (region : .region l children ∈ t.toList) (child : n ∈ children) : (l, n.entry) ∈ t.links := by
  obtain ⟨c, rfl⟩ := Node.exists_plug_of_mem_toList t region
  exact Context.mem_links_plug.mpr (.inl (Forest.mem_links_iff.mpr ⟨n, child, .inl rfl⟩))

/-- A piece of a mapping that a call leaves, with the flags of the whole and with permissions that these
flags grant. It is the old node still, or a new one of at least the given generation, with the name of
the whole if that was clipped. -/
structure Mapping.HeirOf (generation : Nat) (part m : Mapping) : Prop where
  piece : part.PieceOf m
  flags : part.flags = m.flags
  own : part.handle = m.handle ∧ part.name = m.name ∨ generation ≤ part.handle.generation
  fits : m.access.fits m.flags → part.access.fits part.flags
  named : Name.clip m.name = m.name → part.name = m.name

namespace Mapping.HeirOf
variable {m part rest : Mapping} {g g' : Nat}

theorem refl (m : Mapping) : m.HeirOf g m := ⟨.refl m, rfl, .inl ⟨rfl, rfl⟩, id, fun _ => rfl⟩

theorem trans (h : rest.HeirOf g' part) (h' : part.HeirOf g m) (later : g ≤ g') : rest.HeirOf g m where
  piece := h.piece.trans h'.piece
  flags := h.flags.trans h'.flags
  own := by
    rcases h.own with ⟨handle, name⟩ | new
    · exact h'.own.imp (fun old => ⟨handle.trans old.1, name.trans old.2⟩) (handle ▸ ·)
    · exact .inr (Nat.le_trans later new)
  fits granted := h.fits (h'.fits granted)
  named clipped := by
    have same := h'.named clipped
    exact (h.named (same.symm ▸ clipped)).trans same

theorem lower {low : Extent} (start : low.start = m.extent.start) (stop : low.stop ≤ m.extent.stop) :
    (m.lower low).HeirOf g m :=
  ⟨.lower start stop, rfl, .inl ⟨rfl, rfl⟩, id, fun _ => rfl⟩

theorem upper {high : Extent} (start : m.extent.start ≤ high.start) (stop : high.stop = m.extent.stop) :
    (m.upper high).HeirOf g m :=
  ⟨.upper start stop, rfl, .inl ⟨rfl, rfl⟩, id, fun _ => rfl⟩

theorem tail {high : Extent} {h : Handle} (start : m.extent.start ≤ high.start)
    (stop : high.stop = m.extent.stop) (new : g ≤ h.generation) : (m.tail h high).HeirOf g m :=
  ⟨.tail h start stop, rfl, .inr new, id, id⟩

theorem permitted {access : PageFlags} (granted : access.fits m.flags) :
    (m.permitted access).HeirOf g m := by
  refine ⟨.of_eq rfl rfl rfl, rfl, .inl ⟨rfl, rfl⟩, fun _ => ?_, fun _ => rfl⟩
  rwa [Mapping.permitted, Flags.fits, Flags.grantsNeeded_withPermissions]

end Mapping.HeirOf

inductive Entry.Heir (generation : Nat) : Entry → Entry → Prop where
  | same (e : Entry) : Heir generation e e
  | piece {m part : Mapping} : part.HeirOf generation m → Heir generation (.mapping m) (.mapping part)

theorem Entry.Heir.trans {g g' : Nat} {e part rest : Entry} (h : e.Heir g part) (h' : part.Heir g' rest)
    (later : g ≤ g') : e.Heir g rest := by
  cases h' with
  | same => exact h
  | piece heir' =>
      cases h with
      | same => exact .piece (heir'.trans (.refl _) later)
      | piece heir => exact .piece (heir'.trans heir later)

/-- What a call leaves of a child. What is below a child stays. -/
structure Node.Heir (generation : Nat) (n part : Node) : Prop where
  entry : n.entry.Heir generation part.entry
  below : part.links = n.links

theorem Node.Heir.trans {g g' : Nat} {n part rest : Node} (h : n.Heir g part) (h' : part.Heir g' rest)
    (later : g ≤ g') : n.Heir g rest :=
  ⟨h.entry.trans h'.entry later, h'.below.trans h.below⟩

def Forest.Heirs (generation : Nat) (old new : Forest) : Prop :=
  ∀ part ∈ new, ∃ n ∈ old, n.Heir generation part

namespace Forest.Heirs
variable {g g' : Nat} {old old' new new' : Forest}

theorem of_subset (fewer : new ⊆ old) : Heirs g old new := fun n hn => ⟨n, fewer hn, .same _, rfl⟩

theorem refl (ns : Forest) : Heirs g ns ns := of_subset (List.Subset.refl ns)

theorem mono (h : Heirs g' old new) (earlier : g ≤ g') : Heirs g old new := fun part hpart =>
  have ⟨n, hn, heir⟩ := h part hpart
  ⟨n, hn, .trans ⟨.same _, rfl⟩ heir earlier⟩

theorem append (h : Heirs g old new) (h' : Heirs g old' new') : Heirs g (old ++ old') (new ++ new') := by
  refine List.forall_mem_append.mpr ⟨fun part hpart => ?_, fun part hpart => ?_⟩
  · obtain ⟨n, hn, heir⟩ := h part hpart
    exact ⟨n, List.mem_append_left _ hn, heir⟩
  · obtain ⟨n, hn, heir⟩ := h' part hpart
    exact ⟨n, List.mem_append_right _ hn, heir⟩

theorem trans {mid : Forest} (h : Heirs g old mid) (h' : Heirs g' mid new) (later : g ≤ g') :
    Heirs g old new := by
  intro rest hrest
  obtain ⟨part, hpart, heir'⟩ := h' rest hrest
  obtain ⟨n, hn, heir⟩ := h part hpart
  exact ⟨n, hn, heir.trans heir' later⟩

theorem piece {m part : Mapping} (heir : part.HeirOf g m) : Heirs g [.mapping m] [.mapping part] :=
  List.forall_mem_singleton.mpr ⟨_, List.mem_singleton_self _, .piece heir, rfl⟩

theorem pieces {m low high : Mapping} (heir : low.HeirOf g m) (heir' : high.HeirOf g m) :
    Heirs g [.mapping m] [.mapping low, .mapping high] :=
  List.forall_mem_cons.mpr ⟨⟨_, List.mem_singleton_self _, .piece heir, rfl⟩, piece heir'⟩

end Forest.Heirs
end RegionTree
