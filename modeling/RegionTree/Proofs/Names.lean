import RegionTree.Proofs.Subtraction

/-! Names from call to call: what is left of a mapping has its name, however often it was split. -/
namespace RegionTree

/-- The mappings that splits make of one, again and again. Those that stay in between may get another range
and other permissions, as when they are narrowed. -/
inductive Mapping.SplitsInto (m : Mapping) : Mapping → Prop where
  | whole : SplitsInto m m
  | tail {M : Type} {part tail : Mapping} {upper : Extent} {r r' : Resources M} :
      SplitsInto m part → r.split part upper = .ok tail r' → SplitsInto m tail
  | rest {part : Mapping} (extent : Extent) (offset : Nat) (access : PageFlags) :
      SplitsInto m part → SplitsInto m { part with extent, offset, access }

/-- Each split clips the name again, and the first one finds it clipped. -/
theorem Mapping.SplitsInto.name_eq {m part : Mapping} (h : m.SplitsInto part)
    (clipped : Name.clip m.name = m.name) : part.name = m.name := by
  induction h with
  | whole => rfl
  | tail _ done ih =>
      obtain ⟨_, _, _, rfl, _⟩ := Resources.split_ok done
      show Name.clip _ = m.name
      rw [ih, clipped]
  | rest _ _ _ _ ih => exact ih

namespace Space
variable {M : Type} {s : Space M}

theorem exists_heirOf {l : Label} {e : Entry} {part : Mapping} {g : Nat} (linked : (l, e) ∈ s.links)
    (heir : e.Heir g (.mapping part)) : ∃ m, .mapping m ∈ s.nodes ∧ part.HeirOf g m := by
  obtain ⟨_, n, alive, child, rfl⟩ := exists_child_of_mem_links linked
  have member := entry_mem (child_mem_nodes alive child)
  generalize n.entry = e at member heir
  cases heir with
  | same => exact ⟨part, mapping_mem_nodes_iff.mpr member, .refl part⟩
  | piece heir => exact ⟨_, mapping_mem_nodes_iff.mpr member, heir⟩

variable [Mmu M]

/-- A call leaves the second mapping where the first was: the same node, or one that was split off, but
not the node that the call makes. -/
structure Leaves (w : Space M × Commitments) (op : Operation) (m part : Mapping) : Prop where
  before : .mapping m ∈ w.1.nodes
  after : .mapping part ∈ (w.1.perform w.2 op).state.1.nodes
  meet : m.extent.overlaps part.extent.toSpan
  unmade : op.makes → (w.1.perform w.2 op).answer ≠ .ok (some part.handle)

/-- A sequence of calls leaves the second mapping of the first: each call leaves one of the one before. -/
inductive LeavesAfter : Space M × Commitments → List Operation → Mapping → Mapping → Prop where
  | none {w : Space M × Commitments} {m : Mapping} : .mapping m ∈ w.1.nodes → LeavesAfter w [] m m
  | call {w : Space M × Commitments} {op : Operation} {ops : List Operation} {m part rest : Mapping} :
      Leaves w op m part → LeavesAfter (w.1.perform w.2 op).state ops part rest →
        LeavesAfter w (op :: ops) m rest

section
variable {w : Space M × Commitments} {op : Operation} {ops : List Operation} {m part : Mapping}

theorem LeavesAfter.member (h : LeavesAfter w ops m part) : .mapping m ∈ w.1.nodes := by
  cases h with
  | none alive => exact alive
  | call leaves _ => exact leaves.before

theorem Leaves.heir (picks : Mmu.PicksPages M) (h : Leaves w op m part) (kept : w.1.Kept []) :
    part.HeirOf w.1.resources.nextGeneration m := by
  have kept' := (perform_follows picks kept w.2 op).kept
  obtain ⟨l, linked⟩ := kept'.exists_link_of_mapping h.after
  rcases (perform_passes_answered picks kept w.2 op).links _ linked with ⟨_, old, heir⟩ | ⟨_, lets, made⟩
  · obtain ⟨m', alive, heir⟩ := exists_heirOf old heir
    -- A page that they have in common is in one mapping only.
    obtain ⟨page, inside, inside'⟩ :=
      (Span.overlaps_iff_exists m.extent.start_lt_stop part.extent.start_lt_stop).mp h.meet
    have whole : page ∈ m'.extent.toSpan :=
      ⟨Nat.le_trans heir.piece.low inside'.1, Nat.lt_of_lt_of_le inside'.2 heir.piece.high⟩
    have same := kept.sound.balanced.eq_of_page (mapping_mem_nodes_iff.mp h.before)
      (mapping_mem_nodes_iff.mp alive) inside whole
    exact same ▸ heir
  · exact absurd made (h.unmade lets.makes)

theorem LeavesAfter.heir (picks : Mmu.PicksPages M) (h : LeavesAfter w ops m part) (kept : w.1.Kept []) :
    part.HeirOf w.1.resources.nextGeneration m := by
  induction h with
  | none => exact .refl _
  | @call w op _ _ _ _ leaves _ ih =>
      have follows := perform_follows picks kept w.2 op
      exact (ih follows.kept).trans (leaves.heir picks kept) follows.evolves.generation

theorem Kept.leaves_or_made (picks : Mmu.PicksPages M) (kept : w.1.Kept [])
    (after : .mapping part ∈ (w.1.perform w.2 op).state.1.nodes) :
    (∃ m, Leaves w op m part) ∨ ∃ l, op.LetsIn l (.mapping part) ∧
      (w.1.perform w.2 op).answer = .ok (some part.handle) := by
  have kept' := (perform_follows picks kept w.2 op).kept
  by_cases made : op.makes ∧ (w.1.perform w.2 op).answer = .ok (some part.handle)
  · obtain ⟨makes, made⟩ := made
    obtain ⟨o, same, creates⟩ := perform_creates picks kept w.2 makes
    rw [same] at after made kept' ⊢
    obtain ⟨h, answered, ⟨⟩⟩ := Outcome.map_eq_ok.mp made
    obtain ⟨_, l, n, handle, _, joined, _, lets⟩ := creates.made _ answered
    cases kept'.eq_of_handle after joined.member handle.symm
    exact .inr ⟨l, lets, made⟩
  · obtain ⟨l, linked⟩ := kept'.exists_link_of_mapping after
    rcases (perform_passes_answered picks kept w.2 op).links _ linked with ⟨_, old, heir⟩ | ⟨_, lets, done⟩
    · obtain ⟨m, alive, heir⟩ := exists_heirOf old heir
      have meet : m.extent.overlaps part.extent.toSpan := by
        have := part.extent.start_lt_stop
        have := heir.piece.low
        have := heir.piece.high
        rw [Span.overlaps_iff]
        omega
      exact .inl ⟨m, alive, after, meet, fun makes answered => made ⟨makes, answered⟩⟩
    · exact absurd ⟨lets.makes, done⟩ made

end

/-- Names are clipped when they are stored, and what is left of a mapping keeps the name it had. -/
structure NamesStay (w : Space M × Commitments) : Prop where
  stored : ∀ n ∈ w.1.nodes, Name.clip n.label.name = n.label.name
  split : ∀ m part, .mapping m ∈ w.1.nodes → m.SplitsInto part → part.name = m.name
  left : ∀ ops m part, LeavesAfter w ops m part → part.PieceOf m ∧ part.name = m.name
  /-- All mappings that a call does not make are left of earlier ones. -/
  whence : ∀ op part, .mapping part ∈ (w.1.perform w.2 op).state.1.nodes →
    (∃ m, Leaves w op m part) ∨ ∃ l, op.LetsIn l (.mapping part) ∧
      (w.1.perform w.2 op).answer = .ok (some part.handle)

/-- Clipping keeps the longest start of whole characters that fits, and after any sequence of calls the
pieces of a mapping have its name, from split to split and from call to call. -/
theorem run_namesStay (picks : Mmu.PicksPages M) {mmu : M} {c : SpaceConfig} {entropy : Entropy}
    (new : Space.new mmu c entropy = .ok s) (commitments : Commitments) (ops : List Operation) :
    (∀ name, Name.Clips name) ∧ NamesStay (run (s, commitments) ops) := by
  have kept : (run (s, commitments) ops).1.Kept [] :=
    run_kept (w := (s, commitments)) picks (new_kept new) ops
  have clipped := run_entries_clipped picks new commitments ops
  have named : ∀ m, .mapping m ∈ (run (s, commitments) ops).1.nodes → Name.clip m.name = m.name :=
    fun m alive => clipped _ (mapping_mem_nodes_iff.mp alive)
  refine ⟨Name.clip_clips, ?stored, ?split, ?left, fun op part => kept.leaves_or_made picks⟩
  case stored =>
    intro n alive
    have here := clipped _ (entry_mem alive)
    cases n <;> exact here
  case split => exact fun m part alive splits => splits.name_eq (named m alive)
  case left =>
    intro later m part leaves
    have heir := leaves.heir picks kept
    exact ⟨heir.piece, heir.named (named m leaves.member)⟩

/-- A mapping whose name is cut before its last character gets a hole. -/
theorem run_namesStay_hole :
    ∃ s t, Space.new PageTable.empty ⟨.user, 0, 0x8000, .empty, 3⟩ ⟨none⟩ = .ok s ∧
      run (s, []) [.addMapping ⟨0, 0⟩ { size := 0x3000, name := "aaaaaaaaaaaaaaaaaaaaaaaaaaaaaaaß" }
        ⟨0, 0x3000, none, none, false⟩ 0 PageFlags.read] = t ∧
      (run t [.unmap ⟨0, 0⟩ 0x1000 0x1000]).1.nodes.map (·.label.name) =
        ["root", "aaaaaaaaaaaaaaaaaaaaaaaaaaaaaaa", "aaaaaaaaaaaaaaaaaaaaaaaaaaaaaaa"] ∧
      (∀ name, Name.Clips name) ∧ NamesStay t := by
  obtain ⟨s, new⟩ : ∃ s, Space.new PageTable.empty ⟨.user, 0, 0x8000, .empty, 3⟩ ⟨none⟩ = .ok s :=
    ⟨_, rfl⟩
  refine ⟨s, _, new, rfl, ?_, run_namesStay .pageTable new [] _⟩
  cases new
  decide +kernel

end Space
end RegionTree
