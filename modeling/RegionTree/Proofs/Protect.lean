import RegionTree.Proofs.Unmap
import RegionTree.Space.Protect

/-! Changing permissions: what it does to the ledger, whether or not it gets to the end of the range. -/
namespace RegionTree
variable {M : Type}

namespace Resources

section
variable [Mmu M] {m : Mapping} {access : PageFlags} {rest : List Entry} {r : Resources M}

theorem protectPages_eq {r' : Resources M} {span : Span} {answer : Except Failure Unit}
    (h : r.protectPages span access = ⟨answer, r'⟩) :
    ∃ mmu, Mmu.protect r.mmu span access = ⟨answer, mmu⟩ ∧ Quiet { r with mmu } r' := by
  cases h
  exact ⟨(Mmu.protect r.mmu span access).state, rfl, quiet_report _ _⟩

theorem reflag_reworks (fits : access.fits m.flags) (other : r.image ≠ some m.handle) :
    Reworks (.permit access) rest [.mapping m] r (r.reflag (m.access.withPermissions access) m) := by
  simp only [reflag]
  split
  · next f r' failed =>
      obtain ⟨mmu, same, quiet⟩ := protectPages_eq failed
      refine ⟨?_, .narrow (Nat.le_refl _) (Nat.le_refl _) (.mapping m), .refl _, fun h image => ?_⟩
      · exact (Evolves.balk _ r same).trans (.quiet _ quiet)
      · exact quiet.image.symm.trans image
  · next r' done =>
      obtain ⟨mmu, same, quiet⟩ := protectPages_eq done
      refine ⟨?_, .narrow (Nat.le_refl _) (Nat.le_refl _) (.mapping _), .piece (.permitted fits),
        fun h image => ?_⟩
      · exact (Evolves.permit rest r rfl fits other same).trans (.quiet _ (quiet.trans (r'.quiet_note _)))
      · exact quiet.image.symm.trans image

theorem reflagBelow_reworks {stop : Nat} (paged : stop % pageSize = 0) (fits : access.fits m.flags)
    (other : r.image ≠ some m.handle) :
    Reworks (.permit access) rest [.mapping m] r
      (r.reflagBelow stop (m.access.withPermissions access) m) := by
  simp only [reflagBelow]
  split
  · exact reflag_reworks fits other
  · next lower upper cut =>
      obtain ⟨_, _, low, between, start, high⟩ := Extent.cut?_eq_some cut
      split
      · next f r' failed =>
          obtain ⟨quiet, _⟩ := split_error failed
          exact ⟨.quiet _ quiet, .narrow (Nat.le_refl _) (Nat.le_refl _) (.mapping m), .refl _,
            fun h image => quiet.image ▸ image⟩
      · next tail r' done =>
          have image := split_image done
          have parts : Evolves (.permit access) _ _ _ _ := split_evolves rest cut paged other done
          have below : Reworks (.permit access) (.mapping tail :: rest) [.mapping (m.lower lower)] r' _ :=
            reflag_reworks fits (image ▸ other)
          obtain ⟨h, held, taken, rfl, _⟩ := split_ok done
          refine ⟨?_, ?_, ?_, fun h same => image ▸ below.image h same⟩
          · refine parts.trans ?_
            rw [Progress.before, Forest.entries_append, List.append_assoc]
            exact below.evolves
          · have both : Forest.Refines [.mapping m]
                [.mapping (m.lower lower), .mapping (m.tail h upper)] :=
              .cut (Nat.le_of_eq low.symm) (Nat.le_of_eq (between.trans start.symm)) (Nat.le_of_eq high)
            have rest : Forest.Refines [.mapping (m.tail h upper)] [.mapping (m.tail h upper)] :=
              .narrow (Nat.le_refl _) (Nat.le_refl _) (.mapping _)
            exact both.trans (below.refines.append rest)
          · have both : Forest.Heirs r.nextGeneration [.mapping m]
                [.mapping (m.lower lower), .mapping (m.tail h upper)] :=
              .pieces (.lower low (by omega)) (.tail (by omega) high
                (Nat.le_of_eq (allocate_ok taken).1.symm))
            exact both.trans (below.heirs.append (.refl _)) parts.generation

theorem reflagInside_reworks {target : Span} (start : target.start % pageSize = 0)
    (stop : target.stop % pageSize = 0) (fits : access.fits m.flags) (other : r.image ≠ some m.handle)
    (sound : Sound (.mapping m :: rest) r) :
    Reworks (.permit access) rest [.mapping m] r
      (r.reflagInside target (m.access.withPermissions access) m) := by
  simp only [reflagInside]
  split
  · exact reflagBelow_reworks stop fits other
  · next lower upper cut =>
      obtain ⟨_, _, low, between, high, top⟩ := Extent.cut?_eq_some cut
      split
      · next f r' failed =>
          obtain ⟨quiet, _⟩ := split_error failed
          exact ⟨.quiet _ quiet, .narrow (Nat.le_refl _) (Nat.le_refl _) (.mapping m), .refl _,
            fun h image => quiet.image ▸ image⟩
      · next tail r' done =>
          have image := split_image done
          have parts : Evolves (.permit access) _ _ _ _ := split_evolves rest cut start other done
          obtain ⟨h, held, taken, rfl, quiet⟩ := split_ok done
          -- The new node is not the system image, since its slot was taken just now.
          have holds : Evolves (.permit access) (.mapping m :: rest) r
              (.held h :: .mapping m :: rest) held :=
            .hold _ taken
          have apart : r'.image ≠ some h := quiet.image ▸ (holds.sound sound).image_ne_held
          have above : Reworks (.permit access) (.mapping (m.lower lower) :: rest)
              [.mapping (m.tail h upper)] r' _ := reflagBelow_reworks stop fits apart
          refine ⟨?_, ?_, ?_, fun h same => image ▸ above.image h same⟩
          · refine (parts.trans (.reorder _ (.swap _ _ _))).trans ?_
            refine above.evolves.trans (.reorder _ ?_)
            exact List.perm_middle
          · have both : Forest.Refines [.mapping m]
                [.mapping (m.lower lower), .mapping (m.tail h upper)] :=
              .cut (Nat.le_of_eq low.symm) (Nat.le_of_eq (between.trans high.symm)) (Nat.le_of_eq top)
            have rest : Forest.Refines [.mapping (m.lower lower)] [.mapping (m.lower lower)] :=
              .narrow (Nat.le_refl _) (Nat.le_refl _) (.mapping _)
            exact both.trans (rest.append above.refines)
          · have both : Forest.Heirs r.nextGeneration [.mapping m]
                [.mapping (m.lower lower), .mapping (m.tail h upper)] :=
              .pieces (.lower low (by omega)) (.tail (by omega) top
                (Nat.le_of_eq (allocate_ok taken).1.symm))
            exact both.trans ((Forest.Heirs.refl [.mapping (m.lower lower)]).append above.heirs)
              parts.generation

theorem permit_reworks {target : Span} {n : Node} (start : target.start % pageSize = 0)
    (stop : target.stop % pageSize = 0) (nested : n.Nested) (sound : Sound (n.entries ++ rest) r)
    (fits : ∀ m, n = .mapping m → access.fits m.flags)
    (other : ∀ m, n = .mapping m → r.image ≠ some m.handle) :
    Reworks (.permit access) rest [n] r (permit target access r n) := by
  have same : Reworks (.permit access) rest [n] r ⟨[n], r, none⟩ :=
    ⟨.refl _ r, .narrow (Nat.le_refl _) (Nat.le_refl _) nested, .refl _, fun _ image => image⟩
  cases n with
  | region l children => exact same
  | mapping m =>
      simp only [permit]
      split
      · exact same
      · exact reflagInside_reworks start stop (fits m rfl) (other m rfl) sound

theorem reflag_image : (r.reflag access m).resources.image = r.image := by
  simp only [reflag]
  split
  · next failed =>
      obtain ⟨_, _, quiet⟩ := protectPages_eq failed
      exact quiet.image
  · next done =>
      obtain ⟨_, _, quiet⟩ := protectPages_eq done
      exact quiet.image

theorem reflagBelow_image {stop : Nat} : (r.reflagBelow stop access m).resources.image = r.image := by
  simp only [reflagBelow]
  split
  · exact reflag_image
  · split
    · next failed => exact (split_error failed).1.image
    · next done => exact reflag_image.trans (split_image done)

theorem permit_image {target : Span} {n : Node} : (permit target access r n).resources.image = r.image := by
  cases n with
  | region l children => rfl
  | mapping m =>
      simp only [permit]
      split
      · rfl
      · simp only [reflagInside]
        split
        · exact reflagBelow_image
        · split
          · next failed => exact (split_error failed).1.image
          · next done => exact reflagBelow_image.trans (split_image done)

end

end Resources

namespace Space

theorem checkMapped_ok {image : Option Handle} {access : PageFlags} {ns : Forest} {last stop : Nat}
    (ok : checkMapped image access last ns = .ok stop) :
    ∀ n ∈ ns, ∃ m, n = .mapping m ∧ access.fits m.flags ∧ image ≠ some m.handle := by
  induction ns generalizing last with
  | nil => simp
  | cons n ns ih =>
      cases n with
      | region l children => cases ok
      | mapping m =>
          rw [checkMapped] at ok
          split at ok
          · cases ok
          · split at ok
            · cases ok
            · next allowed =>
                simp only [not_or, Bool.not_eq_true', Bool.not_eq_false] at allowed
                exact List.forall_mem_cons.mpr ⟨⟨m, rfl, allowed⟩, ih ok⟩

theorem protectTarget_ok {s : Space M} {region : Handle} {base size : Nat} {access : PageFlags}
    {target : Span} {slice : Forest.Slice}
    (ok : s.protectTarget region base size access = .ok (target, slice)) :
    ∃ l children, s.liveRegion region = .ok (l, children) ∧ Ranges l base size target ∧
      slice = Forest.slice target children ∧ ∀ n ∈ slice.inside, ∃ m, n = .mapping m ∧
        access.fits m.flags ∧ s.resources.image ≠ some m.handle := by
  obtain ⟨⟨l, children⟩, live, ok⟩ := check_eq_ok.mp ok
  obtain ⟨target', inside, ok⟩ := check_eq_ok.mp ok
  dsimp only at ok
  split at ok
  · cases ok
  · obtain ⟨last, checked, ok⟩ := check_eq_ok.mp ok
    obtain ⟨_, _, ok⟩ := check_eq_ok.mp ok
    cases ok
    exact ⟨l, children, live, targetIn_ok inside, rfl, checkMapped_ok checked⟩

variable [Mmu M] {s : Space M} {pending : List Entry}

theorem Kept.permit_reworks (kept : s.Kept pending) {l : Label} {children : Forest} {target : Span}
    {access : PageFlags} (alive : .region l children ∈ s.nodes) (start : target.start % pageSize = 0)
    (stop : target.stop % pageSize = 0)
    (allowed : ∀ n ∈ (Forest.slice target children).inside, ∃ m, n = .mapping m ∧
      access.fits m.flags ∧ s.resources.image ≠ some m.handle) {rest : List Entry}
    (sound : Sound (Forest.entries (Forest.slice target children).inside ++ rest) s.resources) :
    Reworks (.permit access) rest (Forest.slice target children).inside s.resources
      (Progress.overEach (Resources.permit target access) s.resources
        (Forest.slice target children).inside) := by
  have nested : ∀ n ∈ (Forest.slice target children).inside, n.Nested := fun n hn =>
    kept.nested_of_mem (child_mem_nodes alive (Forest.mem_of_mem_inside hn))
  refine .overEach nested sound fun n hn rest r sound image => ?_
  obtain ⟨m, rfl, fits, other⟩ := allowed n hn
  refine Resources.permit_reworks start stop (nested _ hn) sound ?_ ?_
  · rintro _ ⟨⟩
    exact fits
  · rintro _ ⟨⟩ same
    exact other (image _ same)

theorem protect_reworked (kept : s.Kept pending) (region : Handle) (base size : UInt64)
    (access : PageFlags) :
    s.Reworked (.permit access) pending (s.protect region base size access).state := by
  simp only [protect]
  split
  · exact .refl kept
  · next valid =>
      split
      · exact .refl kept
      · next target slice ok =>
          obtain ⟨l, children, live, ranges, rfl, allowed⟩ := protectTarget_ok ok
          obtain ⟨rfl, alive⟩ := liveRegion_ok live
          obtain ⟨c, tree⟩ := exists_plug alive
          obtain ⟨start, stop⟩ := ranges.paged (by simpa [Address.isAligned] using (not_or.mp valid).2)
            (Address.wholePages_mod _)
          rw [← Forest.slice_append target children] at tree
          have works := Reworks.reworked (.permit access) kept tree fun rest sound =>
            kept.permit_reworks alive start stop allowed sound
          split <;> exact works

theorem protect_image (s : Space M) (region : Handle) (base size : UInt64) (access : PageFlags) :
    (s.protect region base size access).state.resources.image = s.resources.image := by
  simp only [protect]
  split
  · rfl
  · split
    · rfl
    · next target slice _ =>
        have same : (Progress.overEach (Resources.permit target access) s.resources
            slice.inside).resources.image = s.resources.image :=
          Progress.overEach_induction (P := fun r => r.image = s.resources.image)
            (fun _ _ _ image => Resources.permit_image.trans image) rfl
        split <;> exact same

end Space
end RegionTree
