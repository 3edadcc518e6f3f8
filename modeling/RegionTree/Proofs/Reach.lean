import RegionTree.Proofs.WellFormed

/-! What a later space has of an earlier one, whichever unoccupied slots the nodes in between were given. -/
namespace RegionTree
variable {M : Type}

/-- The free slots lie in another order, and slots that were never used are among them. -/
structure Resources.Reslots (r r' : Resources M) : Prop where
  rest : r' = { r with fresh := r'.fresh, free := r'.free }
  fresh : r.fresh ≤ r'.fresh
  free : r'.free.Perm (r.free ++ List.range' r.fresh (r'.fresh - r.fresh))

theorem Sound.reslot {es : List Entry} {r r' : Resources M} (sound : Sound es r) (h : r.Reslots r') :
    Sound es r' := by
  obtain ⟨rest, fresh, free⟩ := h
  rw [rest]
  refine ⟨⟨?_, sound.balanced.aged, sound.balanced.unlike, sound.balanced.room, sound.balanced.tidy,
    sound.balanced.apart⟩, sound.recorded⟩
  have whole := @List.range'_append_1 0 r.fresh (r'.fresh - r.fresh)
  rw [Nat.zero_add, Nat.add_sub_cancel' fresh, ← List.range_eq_range', ← List.range_eq_range'] at whole
  refine (free.append_left _).trans ?_
  rw [← List.append_assoc, ← whole]
  exact sound.balanced.slots.append_right _

/-- What stays of a node while it is alive: a region as it is, and some of a mapping, with the same pages
of the same object. -/
inductive Entry.Remains : Entry → Entry → Prop where
  | same (e : Entry) : Remains e e
  | piece {m part : Mapping} : part.PieceOf m → part.handle = m.handle → part.flags = m.flags →
      part.name = m.name → Remains (.mapping m) (.mapping part)

namespace Entry.Remains
variable {e part rest : Entry}

theorem handle (h : e.Remains part) : part.handle = e.handle := by
  cases h with
  | same => rfl
  | piece _ handle _ _ => exact handle

theorem trans (h : e.Remains part) (h' : part.Remains rest) : e.Remains rest := by
  cases h' with
  | same => exact h
  | piece piece' handle' flags' name' =>
      cases h with
      | same => exact .piece piece' handle' flags' name'
      | piece piece handle flags name =>
          exact .piece (piece'.trans piece) (handle'.trans handle) (flags'.trans flags)
            (name'.trans name)

theorem of_heir {g : Nat} (h : e.Heir g part) (old : part.handle.generation < g) : e.Remains part := by
  cases h with
  | same => exact .same e
  | piece heir =>
      rcases heir.own with ⟨handle, name⟩ | new
      · exact .piece heir.piece handle heir.flags name
      · exact absurd new (Nat.not_le.mpr old)

end Entry.Remains

namespace Space

/-- The later space counts on from the earlier one, its root is the old root, and each of its nodes that
is as old as the earlier space was a child of the same region there. -/
structure Recalls (s s' : Space M) : Prop where
  generation : s.resources.nextGeneration ≤ s'.resources.nextGeneration
  fresh : s.resources.fresh ≤ s'.resources.fresh
  root : ∀ t', s'.tree = some t' → ∃ t, s.tree = some t ∧ t'.entry = t.entry
  links : ∀ x ∈ s'.links, x.2.handle.generation < s.resources.nextGeneration →
    ∃ e, (x.1, e) ∈ s.links ∧ e.Remains x.2

namespace Recalls
variable {s s' s'' : Space M}

theorem refl (s : Space M) : s.Recalls s where
  generation := Nat.le_refl _
  fresh := Nat.le_refl _
  root t tree := ⟨t, tree, rfl⟩
  links x linked _ := ⟨x.2, linked, .same _⟩

theorem trans (h : s.Recalls s') (h' : s'.Recalls s'') : s.Recalls s'' where
  generation := Nat.le_trans h.generation h'.generation
  fresh := Nat.le_trans h.fresh h'.fresh
  root t'' tree'' := by
    obtain ⟨t', tree', same'⟩ := h'.root t'' tree''
    obtain ⟨t, tree, same⟩ := h.root t' tree'
    exact ⟨t, tree, same'.trans same⟩
  links x linked old := by
    obtain ⟨e', linked', remains'⟩ := h'.links x linked (Nat.lt_of_lt_of_le old h.generation)
    obtain ⟨e, linked, remains⟩ := h.links (x.1, e') linked' (remains'.handle ▸ old)
    exact ⟨e, linked, remains.trans remains'⟩

theorem of_passes {joins : Label → Entry → Prop} (h : s.Passes s.resources.nextGeneration joins s')
    (generation : s.resources.nextGeneration ≤ s'.resources.nextGeneration)
    (fresh : s.resources.fresh ≤ s'.resources.fresh) : s.Recalls s' where
  generation := generation
  fresh := fresh
  root := h.root
  links x linked old := by
    rcases h.links x linked with ⟨e, before, heir⟩ | ⟨recent, _⟩
    · exact ⟨e, before, .of_heir heir old⟩
    · exact absurd recent (Nat.not_le.mpr old)

end Recalls

variable [Mmu M]

/-- The spaces that calls lead to, with what their objects have handed out. Between two calls the free
slots may be put in any order, so that a new node may get any slot that is not occupied. -/
inductive Reaches (w : Space M × Commitments) : Space M × Commitments → Prop where
  | refl : Reaches w w
  | call {w' : Space M × Commitments} (op : Operation) : Reaches w w' →
      Reaches w (w'.1.perform w'.2 op).state
  | reslot {s : Space M} {r : Resources M} {commitments : Commitments} : Reaches w (s, commitments) →
      s.resources.Reslots r → Reaches w ({ s with resources := r }, commitments)

theorem Reaches.run {w w' : Space M × Commitments} (h : Reaches w w') (ops : List Operation) :
    Reaches w (Space.run w' ops) := by
  induction ops generalizing w' with
  | nil => exact h
  | cons op ops ih => exact ih (.call op h)

theorem perform_recalls (picks : Mmu.PicksPages M) {s : Space M} (kept : s.Kept [])
    (commitments : Commitments) (op : Operation) : s.Recalls (s.perform commitments op).state.1 :=
  have evolves := (perform_follows picks kept commitments op).evolves
  .of_passes (perform_passes picks kept commitments op) evolves.generation evolves.fresh

theorem Reaches.recalls (picks : Mmu.PicksPages M) {w w' : Space M × Commitments} (kept : w.1.Kept [])
    (h : Reaches w w') : w'.1.Kept [] ∧ w.1.Recalls w'.1 := by
  induction h with
  | refl => exact ⟨kept, .refl _⟩
  | @call w' op _ ih =>
      obtain ⟨kept', recalls⟩ := ih
      exact ⟨(perform_follows picks kept' w'.2 op).kept,
        recalls.trans (perform_recalls picks kept' w'.2 op)⟩
  | @reslot s r commitments _ slots ih =>
      obtain ⟨kept', recalls⟩ := ih
      refine ⟨⟨kept'.nested, kept'.rooted, kept'.sound.reslot slots⟩, recalls.trans ?_⟩
      refine ⟨?_, slots.fresh, fun t tree => ⟨t, tree, rfl⟩, fun x linked _ => ⟨x.2, linked, .same _⟩⟩
      rw [slots.rest]

end Space
end RegionTree
