import RegionTree.Mmu.PageTable
import RegionTree.Proofs.Run

/-! Calls that fail. All but one leave the space as it was; a change of permissions can run out of nodes
halfway, and fails for no other reason once it has begun. -/
namespace RegionTree

namespace Resources
variable {r : Resources PageTable} {m : Mapping} {access : PageFlags} {f : Failure}

theorem reflag_failure (r : Resources PageTable) (access : PageFlags) (m : Mapping) :
    (r.reflag access m).failure = none := rfl

theorem split_noMemory {r' : Resources PageTable} {low high : Extent} {a : Nat}
    (tidy : (Entry.mapping m).Tidy) (cut : m.extent.cut? a = some (low, high))
    (failed : r.split m high = ⟨.error f, r'⟩) : f = Error.noMemory := by
  obtain ⟨_, inside, _, _, start, _⟩ := Extent.cut?_eq_some cut
  exact ((split_error failed).2 (tidy.offset_lt (start ▸ Nat.le_of_lt inside))).1

theorem reflagBelow_noMemory {stop : Nat} (tidy : (Entry.mapping m).Tidy)
    (failed : (r.reflagBelow stop access m).failure = some f) : f = Error.noMemory := by
  simp only [reflagBelow] at failed
  split at failed
  · rw [reflag_failure] at failed
    cases failed
  · next low high cut =>
      split at failed
      · next full =>
          cases failed
          exact split_noMemory tidy cut full
      · rw [Progress.before, reflag_failure] at failed
        cases failed

theorem reflagInside_noMemory {target : Span} (start : target.start % pageSize = 0)
    (tidy : (Entry.mapping m).Tidy) (failed : (r.reflagInside target access m).failure = some f) :
    f = Error.noMemory := by
  simp only [reflagInside] at failed
  split at failed
  · exact reflagBelow_noMemory tidy failed
  · next low high cut =>
      split at failed
      · next full =>
          cases failed
          exact split_noMemory tidy cut full
      · next tail r' done =>
          obtain ⟨inside, _, _, _, between, stop⟩ := Extent.cut?_eq_some cut
          obtain ⟨h, _, _, rfl, _⟩ := split_ok done
          have upper : (Entry.mapping (m.tail h high)).Tidy :=
            Evolves.tidy_upper (m := m) tidy (between ▸ inside) stop (between ▸ start)
          exact reflagBelow_noMemory upper failed

theorem permit_noMemory {target : Span} {n : Node} (start : target.start % pageSize = 0)
    (tidy : n.entry.Tidy) (failed : (permit target access r n).failure = some f) :
    f = Error.noMemory := by
  cases n with
  | region l children => cases failed
  | mapping m =>
      simp only [permit] at failed
      split at failed
      · cases failed
      · exact reflagInside_noMemory start tidy failed

end Resources

namespace Space
variable {s : Space PageTable} {f : Failure}

/-- A change of permissions that has begun can only run out of nodes. -/
theorem protect_error {s' : Space PageTable} (kept : s.Kept []) {region : Handle} {base size : UInt64}
    {access : PageFlags} (failed : s.protect region base size access = ⟨.error f, s'⟩) :
    s' = s ∧ (f = Error.invalidArgument ∨
      s.protectTarget region base.toNat (Address.wholePages size.toNat) access = .error f) ∨
    f = Error.noMemory := by
  simp only [protect] at failed
  split at failed
  · cases failed
    exact .inl ⟨rfl, .inl rfl⟩
  · next valid =>
      split at failed
      · next refused =>
          cases failed
          exact .inl ⟨rfl, .inr refused⟩
      · next target slice ok =>
          split at failed
          · cases failed
          · next stuck =>
              cases failed
              obtain ⟨l, children, live, ranges, rfl, _⟩ := protectTarget_ok ok
              obtain ⟨_, alive⟩ := liveRegion_ok live
              obtain ⟨n, hn, r, stuck⟩ := Progress.exists_failure_of_overEach stuck
              obtain ⟨start, _⟩ := ranges.paged (by simpa [Address.isAligned] using (not_or.mp valid).2)
                (Address.wholePages_mod _)
              have tidy := kept.tidy (child_mem_nodes alive (Forest.mem_of_mem_inside hn))
              exact .inr (Resources.permit_noMemory start tidy stuck)

theorem resolveBelow_error {commitments : Commitments} (kept : s.Kept []) {region : Handle} {a : UInt64}
    {flags : FaultFlags} (failed : (s.resolveBelow commitments region a flags).answer = .error f) :
    s.Alike (s.resolveBelow commitments region a flags).state.1 := by
  rcases resolveBelow_cases kept commitments region a flags with
    ⟨_, r, _, quiet, same⟩ | ⟨m, page, frame, r, _, _, _, _, _, quiet, same⟩
  · rw [same]
    exact .quiet quiet
  · rw [same] at failed ⊢
    simp only [Resources.mapPage, Mmu.map] at failed ⊢
    split at failed
    · next refuses =>
        rw [if_pos refuses]
        exact .quiet (quiet.trans (r.quiet_report _))
    · cases failed

/-- A call that fails leaves the space as it was, unless it ran out of nodes while it changed
permissions. -/
theorem perform_error (kept : s.Kept []) (commitments : Commitments) (op : Operation)
    (failed : (s.perform commitments op).answer = .error f)
    (whole : (∃ access, op.purpose = .permit access) → f ≠ Error.noMemory) :
    s.Alike (s.perform commitments op).state.1 := by
  cases op with
  | addRegion parent sketch =>
      have creates := addRegion_creates .pageTable kept parent sketch
      simp only [perform, Outcome.beside] at failed
      simp only [perform, Outcome.beside, Outcome.map]
      exact creates.alike f (Outcome.map_eq_error.mp failed)
  | addMapping parent sketch object offset access =>
      have creates := addMapping_creates .pageTable kept parent sketch object offset access
      simp only [perform, Outcome.beside] at failed
      simp only [perform, Outcome.beside, Outcome.map]
      exact creates.alike f (Outcome.map_eq_error.mp failed)
  | unmap region base size =>
      have clean := unmap_clean kept region base size
      simp only [perform, Outcome.beside] at failed
      simp only [perform, Outcome.beside, Outcome.map]
      exact clean.alike f (Outcome.map_eq_error.mp failed)
  | protect region base size access =>
      simp only [perform, Outcome.beside] at failed
      simp only [perform, Outcome.beside, Outcome.map]
      have failed := Outcome.map_eq_error.mp failed
      cases outcome : s.protect region base size access with
      | mk answer s' =>
          rw [outcome] at failed
          cases failed
          rcases protect_error kept outcome with ⟨rfl, _⟩ | full
          · exact .refl _
          · exact absurd full (whole ⟨access, rfl⟩)
  | destroy node =>
      simp only [perform, Outcome.beside] at failed
      simp only [perform, Outcome.beside, Outcome.map]
      exact (destroy_clean kept node).alike f (Outcome.map_eq_error.mp failed)
  | resolve region address flags =>
      simp only [perform] at failed
      simp only [perform, Outcome.map]
      exact resolveBelow_error kept (Outcome.map_eq_error.mp failed)
  | find region address => exact .refl s
  | report node depth =>
      simp only [perform, Outcome.beside] at failed
      simp only [perform, Outcome.beside, Outcome.map]
      exact (report_clean kept node depth).alike f (Outcome.map_eq_error.mp failed)

theorem perform_advances (s : Space PageTable) (commitments : Commitments) (op : Operation) :
    (s.perform commitments op).state.2 = commitments ∨
      op.purpose = .translate ∧ Commitment.Advances commitments (s.perform commitments op).state.2 := by
  cases op with
  | resolve region address flags =>
      exact .inr ⟨rfl, s.resolveBelow_advances commitments region address flags⟩
  | _ => exact .inl rfl

/-- After any sequence of calls, a call that fails leaves the space as it was, unless it ran out of nodes
while it changed permissions. -/
theorem run_error {guard : Nat} {refuses : Bool} {c : SpaceConfig} {entropy : Entropy}
    (new : Space.new (⟨guard, refuses, []⟩ : PageTable) c entropy = .ok s) (commitments : Commitments)
    (ops : List Operation) (op : Operation)
    (failed : ((run (s, commitments) ops).1.perform (run (s, commitments) ops).2 op).answer = .error f)
    (whole : (∃ access, op.purpose = .permit access) → f ≠ Error.noMemory) :
    (run (s, commitments) ops).1.Alike (run (s, commitments) (ops ++ [op])).1 ∧
      ((run (s, commitments) (ops ++ [op])).2 = (run (s, commitments) ops).2 ∨
        op.purpose = .translate ∧
          Commitment.Advances (run (s, commitments) ops).2 (run (s, commitments) (ops ++ [op])).2) := by
  have kept := run_kept (w := (s, commitments)) .pageTable (new_kept new) ops
  rw [run_append]
  exact ⟨perform_error kept _ op failed whole, perform_advances _ _ op⟩

/-- A hole is to be cut into a mapping, and there is no node left for what lies behind it. -/
theorem run_error_hole :
    ∃ s, Space.new (⟨0, false, []⟩ : PageTable) ⟨.user, 0, 0x8000, .empty, 2⟩ ⟨none⟩ = .ok s ∧
      (run (s, []) [.addMapping ⟨0, 0⟩ { size := 0x3000 } ⟨0, 0x3000, none, none, false⟩ 0 .empty]).1.Alike
        (run (s, []) [.addMapping ⟨0, 0⟩ { size := 0x3000 } ⟨0, 0x3000, none, none, false⟩ 0 .empty,
          .unmap ⟨0, 0⟩ 0x1000 0x1000]).1 := by
  obtain ⟨s, new⟩ : ∃ s, Space.new (⟨0, false, []⟩ : PageTable)
      ⟨.user, 0, 0x8000, .empty, 2⟩ ⟨none⟩ = .ok s := ⟨_, rfl⟩
  have failed : ((run (s, []) [.addMapping ⟨0, 0⟩ { size := 0x3000 } ⟨0, 0x3000, none, none, false⟩ 0
      .empty]).1.perform (run (s, []) [.addMapping ⟨0, 0⟩ { size := 0x3000 } ⟨0, 0x3000, none, none, false⟩ 0
      .empty]).2 (.unmap ⟨0, 0⟩ 0x1000 0x1000)).answer = .error Error.noMemory := by
    cases new
    decide +kernel
  exact ⟨s, new, (run_error new [] _ _ failed fun ⟨_, purpose⟩ => nomatch purpose).1⟩

end Space
end RegionTree
