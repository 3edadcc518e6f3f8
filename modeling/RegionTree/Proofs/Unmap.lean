import RegionTree.Proofs.Destroy
import RegionTree.Proofs.Reworking
import RegionTree.Space.Unmap

/-! Unmapping: what it does to the ledger, what it leaves of the row, and that it fails only where it has
done nothing yet. -/
namespace RegionTree
variable {M : Type} {purpose : Purpose}

namespace Resources
variable [Mmu M]

theorem carve_reworks {target : Span} {n : Node} {rest : List Entry} {r : Resources M}
    (start : target.start % pageSize = 0) (stop : target.stop % pageSize = 0)
    (wide : target.start < target.stop) (nested : n.Nested)
    (sound : Sound (n.entries ++ rest) r)
    (other : ∀ m, n = .mapping m → r.image ≠ some m.handle) :
    Reworks purpose rest [n] r (carve target r n) := by
  cases n with
  | region l children =>
      refine ⟨?_, .drop _, .of_subset (List.nil_subset _), fun h image => Node.image_of_destroy _ image⟩
      rw [Forest.entries_cons, Forest.entries_nil, List.append_nil]
      exact Node.destroy_evolves rest r _
  | mapping m =>
      have other := other m rfl
      have tidy : (Entry.mapping m).Tidy := sound.balanced.tidy _ (by simp [Node.entries])
      simp only [carve]
      split
      · refine ⟨?_, .drop _, .of_subset (List.nil_subset _), fun h image => Node.image_of_destroy _ image⟩
        rw [Forest.entries_cons, Forest.entries_nil, List.append_nil]
        exact Node.destroy_evolves rest r _
      · next lower _ cut _ =>
          obtain ⟨_, inside, low, between, _, _⟩ := Extent.cut?_eq_some cut
          have fewer : lower.stop ≤ m.extent.stop := by omega
          exact ⟨cutTail_evolves rest cut start other, .narrow (Nat.le_of_eq low.symm) fewer (.mapping _),
            .piece (.lower low fewer), fun h image => image⟩
      · next _ upper _ cut =>
          obtain ⟨inside, _, _, _, between, high⟩ := Extent.cut?_eq_some cut
          have fits := tidy.offset_lt (a := upper.start) (high ▸ Nat.le_of_lt upper.start_lt_stop)
          rw [Address.add, if_pos fits]
          have fewer : m.extent.start ≤ upper.start := by omega
          exact ⟨cutHead_evolves rest cut stop other, .narrow fewer (Nat.le_of_eq high) (.mapping _),
            .piece (.upper fewer high), fun h image => image⟩
      · next lower _ whole upper first second =>
          obtain ⟨_, _, low, lowStop, _, _⟩ := Extent.cut?_eq_some first
          obtain ⟨_, _, wholeStart, wholeStop, highStart, high⟩ := Extent.cut?_eq_some second
          split
          · next f r' failed =>
              have quiet := (split_error failed).1
              exact ⟨.quiet _ quiet, .narrow (Nat.le_refl _) (Nat.le_refl _) nested, .refl _,
                fun h image => quiet.image ▸ image⟩
          · next tail r' done =>
              -- The mapping is cut at the end of the target first, and what is left then at its start.
              have parts : Evolves purpose _ _ _ _ := split_evolves rest second stop other done
              have image := split_image done
              have span : (⟨lower.stop, (m.lower whole).extent.stop⟩ : Span) = target :=
                congrArg₂ Span.mk lowStop wholeStop
              have inside : lower.stop < (m.lower whole).extent.stop := by
                show lower.stop < whole.stop
                omega
              have narrowed : Evolves purpose (.mapping (m.lower whole) :: .mapping tail :: rest) r'
                  (.mapping (m.lower lower) :: .mapping tail :: rest) _ :=
                .cutTail _ r' (low.trans wholeStart.symm) inside (lowStop ▸ start) (image ▸ other)
              rw [span] at narrowed
              obtain ⟨h, held, taken, rfl, _⟩ := split_ok done
              refine ⟨(parts.trans narrowed).trans (.quiet _ (quiet_report _ _)), ?_, ?_, ?_⟩
              · refine .cut (Nat.le_of_eq low.symm) ?_ (Nat.le_of_eq high)
                show lower.stop ≤ upper.start
                omega
              · refine .pieces (.lower low (by omega)) (.tail (by omega) high ?_)
                exact Nat.le_of_eq (allocate_ok taken).1.symm
              · exact fun h same => image ▸ same

theorem carve_image {target : Span} {n : Node} {r : Resources M}
    (others : ∀ e ∈ n.entries, r.image ≠ some e.handle) :
    (carve target r n).resources.image = r.image := by
  cases n with
  | region l children => exact Node.image_destroy _ others
  | mapping m =>
      simp only [carve]
      split
      · exact Node.image_destroy _ others
      · rfl
      · split <;> rfl
      · split
        · next failed => exact (split_error failed).1.image
        · next done =>
            have image := split_image done
            exact image

theorem carve_apart {target : Span} {n : Node} {r : Resources M}
    (done : (carve target r n).failure = none) :
    ∀ c ∈ (carve target r n).children, c.stop ≤ target.start ∨ target.stop ≤ c.start := by
  cases n with
  | region l children => simp [carve]
  | mapping m =>
      simp only [carve] at done ⊢
      split at done
      · simp
      · next lower _ cut _ =>
          obtain ⟨_, _, _, between, _, _⟩ := Extent.cut?_eq_some cut
          exact List.forall_mem_singleton.mpr (.inl (Nat.le_of_eq between))
      · next _ upper _ cut =>
          obtain ⟨_, _, _, _, between, _⟩ := Extent.cut?_eq_some cut
          split at done
          · cases done
          · exact List.forall_mem_singleton.mpr (.inr (Nat.le_of_eq between.symm))
      · next lower _ _ upper first second =>
          obtain ⟨_, _, _, low, _, _⟩ := Extent.cut?_eq_some first
          obtain ⟨_, _, _, _, high, _⟩ := Extent.cut?_eq_some second
          split at done
          · cases done
          · next tail r' same =>
              obtain ⟨h, _, _, rfl, _⟩ := split_ok same
              exact List.forall_mem_cons.mpr ⟨.inl (Nat.le_of_eq low),
                List.forall_mem_singleton.mpr (.inr (Nat.le_of_eq high.symm))⟩

theorem carve_failed {target : Span} {n : Node} {r : Resources M} {f : Failure}
    (tidy : n.entry.Tidy) (failed : (carve target r n).failure = some f) :
    f = Error.noMemory ∧ (carve target r n).children = [n] ∧ r.Quiet (carve target r n).resources ∧
      n.start < target.start ∧ target.stop < n.stop := by
  cases n with
  | region l children => cases failed
  | mapping m =>
      have room : ∀ upper : Extent, upper.stop = m.extent.stop →
          m.offset + (upper.start - m.extent.start) < Address.limit :=
        fun upper high => Entry.Tidy.offset_lt tidy (high ▸ Nat.le_of_lt upper.start_lt_stop)
      simp only [carve] at failed ⊢
      split at failed
      · cases failed
      · cases failed
      · next _ upper _ cut =>
          obtain ⟨_, _, _, _, _, high⟩ := Extent.cut?_eq_some cut
          rw [Address.add, if_pos (room upper high)] at failed
          cases failed
      · next _ _ _ upper first second =>
          obtain ⟨low, _, _, _, _, _⟩ := Extent.cut?_eq_some first
          obtain ⟨_, top, _, _, _, high⟩ := Extent.cut?_eq_some second
          split at failed
          · next same =>
              cases failed
              obtain ⟨quiet, full⟩ := split_error same
              exact ⟨(full (room upper high)).1, rfl, quiet, low, top⟩
          · cases failed

end Resources

namespace Space

/-- A range of a region, as its ends tell it. -/
structure Ranges (l : Label) (base size : Nat) (target : Span) : Prop where
  start : target.start = base
  stop : target.stop = base + size
  wide : target.start < target.stop
  low : l.extent.start ≤ target.start
  high : target.stop ≤ l.extent.stop

theorem targetIn_ok {l : Label} {base size : Nat} {target : Span}
    (ok : targetIn l base size = .ok target) : Ranges l base size target := by
  simp only [targetIn] at ok
  split at ok
  · cases ok
  · next same =>
      split at ok
      · cases ok
      · next fits =>
          cases ok
          obtain ⟨_, sum, rfl⟩ := Option.map_eq_some_iff.mp same
          rw [Address.add?, Option.ite_none_right_eq_some] at sum
          cases sum.2
          simp only [Span.isEmpty, Span.covers, decide_eq_true_eq, Bool.not_eq_true', not_or,
            Bool.and_eq_false_iff, decide_eq_false_iff_not] at fits
          obtain ⟨wide, low, high⟩ : base < base + size ∧ l.extent.start ≤ base ∧
              base + size ≤ l.extent.stop := by omega
          exact ⟨rfl, rfl, wide, low, high⟩

theorem Ranges.paged {l : Label} {base size : Nat} {target : Span} (h : Ranges l base size target)
    (start : base % pageSize = 0) (length : size % pageSize = 0) :
    target.start % pageSize = 0 ∧ target.stop % pageSize = 0 := by
  rw [h.start, h.stop]
  simp only [pageSize] at *
  omega

theorem unmapTarget_ok {s : Space M} {region : Handle} {base size : Nat} {sparing : Bool}
    {target : Span} {slice : Forest.Slice}
    (ok : s.unmapTarget region base size sparing = .ok (target, slice)) :
    ∃ l children, s.liveRegion region = .ok (l, children) ∧ Ranges l base size target ∧
      slice = Forest.slice target children ∧ (children = [] ∨ s.imageTouches target = false ∧
        ∀ n ∈ slice.inside, n.isRegion → sparing = false ∧ target.covers n.extent.toSpan) := by
  obtain ⟨⟨l, children⟩, live, ok⟩ := check_eq_ok.mp ok
  obtain ⟨target', inside, ok⟩ := check_eq_ok.mp ok
  dsimp only at ok
  split at ok
  · next none =>
      cases ok
      exact ⟨l, children, live, targetIn_ok inside, rfl, .inl (List.isEmpty_iff.mp none)⟩
  · obtain ⟨_, spared, ok⟩ := check_eq_ok.mp ok
    obtain ⟨_, regions, ok⟩ := check_eq_ok.mp ok
    cases ok
    have spared := ensure_eq_ok.mp spared
    have regions := List.all_eq_true.mp (ensure_eq_ok.mp regions)
    refine ⟨l, children, live, targetIn_ok inside, rfl, .inr ⟨by simpa using spared, ?_⟩⟩
    intro n hn region
    simpa [region] using regions n hn

variable {s : Space M} {pending : List Entry}

theorem Kept.imageTouches_eq (kept : s.Kept pending) {m : Mapping} (alive : .mapping m ∈ s.nodes)
    (image : s.resources.image = some m.handle) (target : Span) :
    s.imageTouches target = m.extent.overlaps target := by
  have found : s.node? m.handle = some (.mapping m) := kept.node?_eq alive
  rw [imageTouches, image, Option.bind_some, found]
  rfl

/-- Where the system image does not touch a range, it is nowhere in the children that the range takes
apart or takes away. -/
theorem Kept.image_ne (kept : s.Kept pending) {l : Label} {children : Forest} {target : Span}
    (alive : .region l children ∈ s.nodes) (spared : s.imageTouches target = false) {n : Node}
    (hn : n ∈ (Forest.slice target children).inside)
    (whole : n.isRegion → target.covers n.extent.toSpan) :
    ∀ e ∈ n.entries, s.resources.image ≠ some e.handle := by
  intro e he image
  have child := child_mem_nodes alive (Forest.mem_of_mem_inside hn)
  have known := mem_entries_of_mem_nodes child he
  obtain ⟨m, hm, same, _⟩ := kept.sound.recorded _ image
  have here : Entry.mapping m = e :=
    List.inj_on_of_nodup_map kept.sound.balanced.handles_nodup hm (List.mem_append_right _ known) same
  subst here
  have within := (kept.nested_of_mem child).mapping_within he
  have reaches := Forest.overlaps_of_mem_inside (kept.lined alive) hn
  rw [kept.imageTouches_eq (mapping_mem_nodes_iff.mpr known) image] at spared
  have wide := m.extent.start_lt_stop
  simp only [Span.overlaps, Bool.and_eq_false_iff, decide_eq_false_iff_not] at spared
  cases n with
  | region l children =>
      have inside := whole rfl
      rw [Span.covers_iff] at inside
      simp only [Node.extent, Node.label] at inside
      simp only [Node.start_region, Node.stop_region] at within
      omega
  | mapping x =>
      cases List.mem_singleton.mp he
      simp only [Node.start_mapping, Node.stop_mapping] at reaches
      omega

variable [Mmu M]

theorem Kept.carve_reworks (kept : s.Kept pending) {l : Label} {children : Forest} {target : Span}
    (alive : .region l children ∈ s.nodes) (wide : target.start < target.stop)
    (start : target.start % pageSize = 0) (stop : target.stop % pageSize = 0)
    (spared : children = [] ∨ s.imageTouches target = false) {rest : List Entry}
    (sound : Sound (Forest.entries (Forest.slice target children).inside ++ rest) s.resources) :
    Reworks purpose rest (Forest.slice target children).inside s.resources
      (Progress.overEach (Resources.carve target) s.resources (Forest.slice target children).inside) := by
  have nested : ∀ n ∈ (Forest.slice target children).inside, n.Nested := fun n hn =>
    kept.nested_of_mem (child_mem_nodes alive (Forest.mem_of_mem_inside hn))
  refine .overEach nested sound fun n hn rest r sound image => ?_
  refine Resources.carve_reworks start stop wide (nested n hn) sound ?_
  rintro m rfl same
  rcases spared with rfl | spared
  · cases Forest.mem_of_mem_inside hn
  · exact kept.image_ne alive spared hn nofun _ (List.mem_singleton_self _) (image _ same)

/-- Whatever unmapping answers, what it has done is sound, and no other system image is recorded. -/
theorem unmapRange_reworked (purpose : Purpose) (kept : s.Kept pending) (region : Handle)
    {base size : Nat} (sparing : Bool) (paged : base % pageSize = 0) (whole : size % pageSize = 0) :
    s.Reworked purpose pending (s.unmapRange region base size sparing).state := by
  simp only [unmapRange]
  split
  · exact .refl kept
  · next target slice ok =>
      obtain ⟨l, children, live, ranges, rfl, spared⟩ := unmapTarget_ok ok
      obtain ⟨rfl, alive⟩ := liveRegion_ok live
      obtain ⟨c, tree⟩ := exists_plug alive
      obtain ⟨start, stop⟩ := ranges.paged paged whole
      rw [← Forest.slice_append target children] at tree
      have works := Reworks.reworked purpose kept tree fun rest sound =>
        kept.carve_reworks alive ranges.wide start stop (spared.imp_right And.left) sound
      split <;> exact works

theorem unmapRange_image (kept : s.Kept pending) (region : Handle) (base size : Nat) (sparing : Bool) :
    (s.unmapRange region base size sparing).state.resources.image = s.resources.image := by
  simp only [unmapRange]
  split
  · rfl
  · next target slice ok =>
      obtain ⟨l, children, live, _, rfl, spared⟩ := unmapTarget_ok ok
      obtain ⟨rfl, alive⟩ := liveRegion_ok live
      have same : (Progress.overEach (Resources.carve target) s.resources
          (Forest.slice target children).inside).resources.image = s.resources.image := by
        refine Progress.overEach_induction (P := fun r => r.image = s.resources.image) ?_ rfl
        intro n hn r image
        rcases spared with rfl | ⟨spared, regions⟩
        · cases Forest.mem_of_mem_inside hn
        · have others := kept.image_ne alive spared hn fun isRegion => (regions n hn isRegion).2
          exact (Resources.carve_image (image ▸ others)).trans image
      split <;> exact same

theorem unmapRange_ok (kept : s.Kept pending) {region : Handle} {base size : Nat} {sparing : Bool}
    {s' : Space M} (done : s.unmapRange region base size sparing = ⟨.ok (), s'⟩) :
    ∃ c l old new, l.handle = region ∧ s.tree = some (Context.plug c (.region l old)) ∧
      s'.tree = some (Context.plug c (.region l new)) ∧ l.extent.start ≤ base ∧
      base + size ≤ l.extent.stop ∧ ∀ n ∈ new, n.stop ≤ base ∨ base + size ≤ n.start := by
  simp only [unmapRange] at done
  split at done
  · cases done
  · next target slice ok =>
      obtain ⟨l, children, live, ranges, rfl, _⟩ := unmapTarget_ok ok
      obtain ⟨rfl, alive⟩ := liveRegion_ok live
      obtain ⟨c, tree⟩ := exists_plug alive
      split at done
      · next fine =>
          cases done
          refine ⟨c, l, children, _, rfl, tree, kept.tree_withChildren tree _,
            ranges.start ▸ ranges.low, ranges.stop ▸ ranges.high, ?_⟩
          rw [← ranges.stop, ← ranges.start]
          refine List.forall_mem_append.mpr ⟨List.forall_mem_append.mpr ⟨fun n hn => .inl ?_, ?_⟩,
            fun n hn => .inr ?_⟩
          · exact Forest.stop_le_of_mem_before hn
          · exact Progress.forall_mem_overEach (fun n _ r done => Resources.carve_apart done) _ fine
          · exact Forest.stop_le_of_mem_behind (kept.lined alive) hn
      · cases done

/-- Unmapping that fails has done nothing: only a hole in the middle of a mapping needs a node, and then
the mapping is the only child that the range touches. -/
theorem unmapRange_error (kept : s.Kept pending) {region : Handle} {base size : Nat} {sparing : Bool}
    {s' : Space M} {f : Failure} (failed : s.unmapRange region base size sparing = ⟨.error f, s'⟩) :
    ∃ r, s.resources.Quiet r ∧ s' = { s with resources := r } ∧
      (s.unmapTarget region base size sparing = .error f ∨ f = Error.noMemory) := by
  simp only [unmapRange] at failed
  split at failed
  · next refused =>
      cases failed
      exact ⟨_, .refl _, rfl, .inl refused⟩
  · next target slice ok =>
      obtain ⟨l, children, live, _, rfl, _⟩ := unmapTarget_ok ok
      obtain ⟨rfl, alive⟩ := liveRegion_ok live
      obtain ⟨c, tree⟩ := exists_plug alive
      split at failed
      · cases failed
      · next g stuck =>
          cases failed
          obtain ⟨n, hn, r, failure⟩ := Progress.exists_failure_of_overEach stuck
          have tidy := kept.tidy (child_mem_nodes alive (Forest.mem_of_mem_inside hn))
          obtain ⟨_, _, _, low, high⟩ := Resources.carve_failed tidy failure
          have single := Forest.inside_eq_singleton (kept.lined alive) hn low high
          have whole := Forest.slice_append target children
          rw [single, Progress.overEach_singleton] at stuck
          obtain ⟨full, same, quiet, _, _⟩ := Resources.carve_failed tidy stuck
          refine ⟨_, quiet, ?_, .inr full⟩
          have back := kept.tree_withChildren tree children
          rw [← tree] at back
          rw [single] at whole
          rw [single, Progress.overEach_singleton, same, whole, withChildren, back]

theorem unmap_reworked (kept : s.Kept []) (region : Handle) (base size : UInt64) :
    s.Reworked .shape [] (s.unmap region base size).state := by
  simp only [unmap]
  split
  · exact .refl kept
  · next valid =>
      have paged : base.toNat % pageSize = 0 := by simpa [Address.isAligned] using (not_or.mp valid).2
      exact unmapRange_reworked .shape kept region false paged (Address.wholePages_mod _)

theorem unmap_clean (kept : s.Kept []) (region : Handle) (base size : UInt64) :
    s.Clean .shape (s.unmap region base size) := by
  refine ⟨(unmap_reworked kept region base size).follows, fun f failed => ?_⟩
  simp only [unmap] at failed ⊢
  split at failed
  · next invalid =>
      rw [if_pos invalid]
      exact .refl s
  · next valid =>
      rw [if_neg valid]
      cases outcome : s.unmapRange region base.toNat (Address.wholePages size.toNat) false with
      | mk answer s' =>
          rw [outcome] at failed
          cases failed
          obtain ⟨r, quiet, rfl, _⟩ := unmapRange_error kept outcome
          exact .quiet quiet

theorem unmap_row (kept : s.Kept []) {region : Handle} {base size : UInt64} {s' : Space M}
    (done : s.unmap region base size = ⟨.ok (), s'⟩) :
    ∃ c l old new, l.handle = region ∧ s.tree = some (Context.plug c (.region l old)) ∧
      s'.tree = some (Context.plug c (.region l new)) ∧ l.extent.start ≤ base.toNat ∧
      base.toNat + Address.wholePages size.toNat ≤ l.extent.stop ∧
      ∀ n ∈ new, n.stop ≤ base.toNat ∨ base.toNat + Address.wholePages size.toNat ≤ n.start := by
  simp only [unmap] at done
  split at done
  · cases done
  · exact unmapRange_ok kept done

theorem unmap_ok (kept : s.Kept []) {region : Handle} {base size : UInt64} {s' : Space M}
    (done : s.unmap region base size = ⟨.ok (), s'⟩) {m : Mapping} (hm : .mapping m ∈ s'.nodes) :
    m.extent.stop ≤ base.toNat ∨ base.toNat + Address.wholePages size.toNat ≤ m.extent.start := by
  have kept' := (unmap_clean kept region base size).follows.kept
  rw [done] at kept'
  obtain ⟨c, l, old, new, rfl, _, tree', low, high, free⟩ := unmap_row kept done
  exact kept'.free_of_mappings (mem_nodes_of_plug tree') low high free (mapping_mem_nodes_iff.mp hm)

end Space
end RegionTree
