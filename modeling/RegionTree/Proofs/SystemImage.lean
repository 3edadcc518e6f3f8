import Mathlib.Data.List.Induction
import RegionTree.Mmu.PageTable
import RegionTree.Proofs.Lineage
import RegionTree.Proofs.Run

/-! Executable mappings of system images. All calls but one see to it that there is only the recorded
one; a change of permissions does not. -/
namespace RegionTree

instance (m : Mapping) : Decidable m.Armed := inferInstanceAs (Decidable (_ ∧ _))

instance Node.decidableMappings {p : Mapping → Prop} [DecidablePred p] :
    (ns : List Node) → Decidable (∀ m, .mapping m ∈ ns → p m)
  | [] => .isTrue (by simp)
  | .region _ _ :: ns =>
    have := decidableMappings (p := p) ns
    decidable_of_iff (∀ m, .mapping m ∈ ns → p m) (by simp)
  | .mapping m :: ns =>
    have := decidableMappings (p := p) ns
    decidable_of_iff (p m ∧ ∀ m, .mapping m ∈ ns → p m) (by simp)

namespace Space
variable {M : Type} {s s' : Space M}

/-- There is at most one executable mapping of a system image. It is recorded and shows the code as a
whole. -/
structure Exclusive (s : Space M) : Prop where
  single : ∀ m, .mapping m ∈ s.nodes → m.Armed → ∀ m', .mapping m' ∈ s.nodes → m'.Armed → m = m'
  recorded : ∀ m, .mapping m ∈ s.nodes → m.Armed → s.resources.image = some m.handle
  whole : ∀ m, .mapping m ∈ s.nodes → m.Armed → m.ShowsCode

/-- A change of permissions makes a mapping of a system image, or a part of it, executable. -/
def Arms (s : Space M) (op : Operation) (s' : Space M) : Prop :=
  (∃ access, op.purpose = .permit access) ∧ ∃ m part, .mapping m ∈ s.nodes ∧ ¬ m.Armed ∧
    .mapping part ∈ s'.nodes ∧ part.PieceOf m ∧ part.Armed

theorem Kept.eq_of_mapping (kept : s.Kept []) {m m' : Mapping} (alive : .mapping m ∈ s.nodes)
    (alive' : .mapping m' ∈ s.nodes) (same : m.handle = m'.handle) : m = m' :=
  Node.mapping.inj (kept.eq_of_handle alive alive' same)

/-- What is recorded is executable and whole, so it is left to say that nothing else is executable. -/
theorem Kept.exclusive (kept : s.Kept [])
    (recorded : ∀ m, .mapping m ∈ s.nodes → m.Armed → s.resources.image = some m.handle) :
    s.Exclusive where
  single m alive armed m' alive' armed' := by
    have same := (recorded m alive armed).symm.trans (recorded m' alive' armed')
    exact kept.eq_of_mapping alive alive' (Option.some.inj same)
  recorded := recorded
  whole m alive armed := by
    obtain ⟨x, hx, same, _, code⟩ := kept.sound.recorded _ (recorded m alive armed)
    cases kept.eq_of_mapping (mapping_mem_nodes_iff.mpr hx) alive same
    exact code

variable [Mmu M]

theorem perform_exclusive (picks : Mmu.PicksPages M) (kept : s.Kept []) (commitments : Commitments)
    (op : Operation) (exclusive : s.Exclusive)
    (spares : ¬ s.Arms op (s.perform commitments op).state.1) :
    (s.perform commitments op).state.1.Exclusive := by
  have follows := perform_follows picks kept commitments op
  have balanced := kept.sound.balanced
  refine follows.kept.exclusive fun part hpart armed => ?_
  rcases follows.evolves.stems balanced part (mapping_mem_nodes_iff.mp hpart) with
    ⟨_, image⟩ | @⟨m, hm, piece, whole, access⟩
  · exact image armed
  by_cases before : m.Armed
  · have image := exclusive.recorded m (mapping_mem_nodes_iff.mpr hm) before
    cases whole image
    rcases follows.evolves.image_stays balanced hm image with ⟨_, image⟩ | gone
    · exact image
    · exact absurd (List.mem_map_of_mem (mapping_mem_nodes_iff.mp hpart)) gone.absent
  · have asked : ∃ access, op.purpose = .permit access := by
      by_contra none
      exact before (armed.congr piece.object (access (not_exists.mp none)))
    exact absurd ⟨asked, m, part, mapping_mem_nodes_iff.mpr hm, before, hpart, piece, armed⟩ spares

/-- No space is exclusive after such a change of permissions: the mapping is not recorded. -/
theorem perform_arms (kept : s.Kept []) (commitments : Commitments) {op : Operation}
    (arms : s.Arms op (s.perform commitments op).state.1) :
    ¬ (s.perform commitments op).state.1.Exclusive := by
  obtain ⟨⟨access, purpose⟩, m, part, hm, unarmed, hpart, piece, armed⟩ := arms
  cases op with
  | protect region base size access =>
      simp only [perform, Outcome.beside, Outcome.map] at hpart ⊢
      obtain ⟨follows, images, _⟩ := protect_reworked kept region base size access
      generalize (s.protect region base size access).state = s' at *
      intro exclusive
      -- The recorded image was executable before, and nothing else can come to be where it is.
      have image := exclusive.recorded part hpart armed
      obtain ⟨x, hx, same, armed', _⟩ := kept.sound.recorded _ (images _ image)
      have balanced := kept.sound.balanced
      rcases follows.evolves.image_stays balanced hx (same ▸ images _ image) with ⟨alive, _⟩ | gone
      · cases follows.kept.eq_of_mapping (mapping_mem_nodes_iff.mpr alive) hpart same
        have inside : part.extent.start ∈ part.extent.toSpan :=
          ⟨Nat.le_refl _, part.extent.start_lt_stop⟩
        have inside' : part.extent.start ∈ m.extent.toSpan :=
          ⟨piece.low, Nat.lt_of_lt_of_le inside.2 piece.high⟩
        cases balanced.eq_of_page hx (mapping_mem_nodes_iff.mp hm) inside inside'
        exact unarmed armed'
      · exact gone.forgotten (same ▸ image)
  | _ => cases purpose

/-- All states of a run are exclusive if and only if none of its changes of permissions makes a mapping
of a system image executable. -/
theorem run_exclusive_iff (picks : Mmu.PicksPages M) {mmu : M} {c : SpaceConfig} {entropy : Entropy}
    (new : Space.new mmu c entropy = .ok s) (commitments : Commitments) (ops : List Operation) :
    (∀ done, done <+: ops → (run (s, commitments) done).1.Exclusive) ↔
      ∀ done op, done ++ [op] <+: ops →
        ¬ (run (s, commitments) done).1.Arms op (run (s, commitments) (done ++ [op])).1 := by
  have kept (done : List Operation) : (run (s, commitments) done).1.Kept [] :=
    run_kept (w := (s, commitments)) picks (new_kept new) done
  constructor
  · intro exclusive done op here arms
    have after := exclusive _ here
    rw [run_append] at arms after
    exact perform_arms (kept done) _ arms after
  · intro spares done here
    induction done using List.reverseRecOn with
    | nil =>
        obtain ⟨l, tree⟩ := new_tree new
        refine (kept []).exclusive fun m alive => ?_
        simp [run, nodes, tree, Node.toList, Forest.toList] at alive
    | append_singleton done op ih =>
        have before := ih ((List.prefix_append _ _).trans here)
        have spared := spares done op here
        rw [run_append] at spared ⊢
        exact perform_exclusive picks (kept done) _ op before spared

/-- The code of a system image is mapped to be executed. -/
theorem run_exclusive_iff_code :
    ∃ s, Space.new PageTable.empty ⟨.user, 0, 0x10000, .empty, 4⟩ ⟨none⟩ = .ok s ∧
      (run (s, []) [.addMapping ⟨0, 0⟩ { size := 0x1000 } ⟨0, 0x2000, none, some ⟨0, 0x1000⟩, false⟩ 0
        PageFlags.execute]).1.Exclusive := by
  obtain ⟨s, new⟩ : ∃ s, Space.new PageTable.empty ⟨.user, 0, 0x10000, .empty, 4⟩ ⟨none⟩ = .ok s :=
    ⟨_, rfl⟩
  refine ⟨s, new, (run_exclusive_iff .pageTable new [] _).mpr ?_ _ (List.prefix_refl _)⟩
  intro done op here arms
  have here : op ∈ [_] := here.subset (List.mem_append_right _ (List.mem_singleton_self op))
  cases List.mem_singleton.mp here
  obtain ⟨⟨access, purpose⟩, _⟩ := arms
  cases purpose

/-- A mapping of a system image is made readable and larger than the code, and then executable. -/
theorem protect_not_exclusive :
    ∃ s, Space.new PageTable.empty ⟨.kernel, 0, 0x10000, .empty, 4⟩ ⟨none⟩ = .ok s ∧
      ¬ (run (s, []) [.addMapping ⟨0, 0⟩ { size := 0x2000, flags := RegionFlags.mapAll }
          ⟨0, 0x2000, none, some ⟨0, 0x1000⟩, false⟩ 0 PageFlags.read,
        .protect ⟨0, 0⟩ 0 0x2000 PageFlags.execute]).1.Exclusive := by
  refine ⟨_, rfl, fun exclusive => ?_⟩
  exact absurd exclusive.recorded (by decide +kernel)

end Space
end RegionTree
