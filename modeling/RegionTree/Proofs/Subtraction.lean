import RegionTree.Proofs.Clipping
import RegionTree.Proofs.Confinement
import RegionTree.Proofs.Minus
import RegionTree.Proofs.Translations

/-! Subtraction: unmapping takes a range out of the children of a region and out of the translations, and
nothing else. It fails only for reasons that the range, the region and its children give. -/
namespace RegionTree

/-- A size rounded up to whole pages, whether or not an address can hold it. -/
def Address.inPages (size : Nat) : Nat := (size + (pageSize - 1)) / pageSize * pageSize

theorem Address.wholePages_eq (size : Nat) :
    wholePages size = if inPages size < limit then inPages size else 0 := by
  have width : limit = 2 ^ 64 := by rw [limit, Nat.one_shiftLeft]
  simp only [wholePages, ceilTo?, add?, inPages, pageSize, width]
  split
  · rw [if_pos (by omega)]
    rfl
  · rw [if_neg (by omega)]
    rfl

theorem Address.wholePages_ne_zero {size : Nat} (some : wholePages size ≠ 0) :
    inPages size < limit ∧ wholePages size = inPages size := by
  rw [wholePages_eq] at some ⊢
  split at some
  · next representable => exact ⟨representable, if_pos representable⟩
  · exact absurd rfl some

def Span.inPages (base size : Nat) : Span := ⟨base, base + Address.inPages size⟩

def Entry.Clipped : Entry → Prop
  | .region l => Name.clip l.name = l.name
  | .mapping m => Name.clip m.name = m.name
  | .held _ => True

theorem Entry.Clipped.heir {e part : Entry} {g : Nat} (clipped : e.Clipped) (heir : e.Heir g part) :
    part.Clipped := by
  cases heir with
  | same => exact clipped
  | @piece m part heir =>
      have same := heir.named clipped
      exact (congrArg Name.clip same).trans (Eq.trans clipped same.symm)

theorem NodeRequest.Describes.clipped {q : NodeRequest} {e : Entry} (h : q.Describes e) : e.Clipped := by
  cases h with
  | region _ _ name =>
      rw [Entry.Clipped, name, Name.clip_clip]
  | mapping _ _ name =>
      rw [Entry.Clipped, name, Name.clip_clip]

theorem Operation.LetsIn.clipped {op : Operation} {l : Label} {e : Entry} (h : op.LetsIn l e) :
    e.Clipped := by
  cases op with
  | addRegion => exact h.describes.clipped
  | addMapping => exact h.describes.clipped
  | _ => cases h

namespace Resources
variable {M : Type} [Mmu M] {target : Span}

theorem carve_unpierced (r : Resources M) {n : Node} (tidy : n.entry.Tidy) (new : Handle)
    (low : target.start < n.stop) (high : n.start < target.stop)
    (whole : n.isRegion → target.covers n.extent.toSpan) (unpierced : ¬ n.PiercedBy target) :
    (carve target r n).failure = none ∧ (carve target r n).children = n.minus target new := by
  cases n with
  | region l children => exact ⟨rfl, (if_pos (whole rfl)).symm⟩
  | mapping m =>
      have parts : m.extent.minus target = _ := Extent.minus_of_overlaps low high
      simp only [Node.minus, Mapping.minus, parts, carve]
      split
      · next first second =>
          rw [first, second]
          exact ⟨rfl, rfl⟩
      · next lower _ first second =>
          have start := (Extent.cut?_eq_some first).2.2.1
          rw [first, second]
          exact ⟨rfl, congrArg (fun m => [Node.mapping m]) (Mapping.part_lower start).symm⟩
      · next _ upper first second =>
          have stop := (Extent.cut?_eq_some second).2.2.2.2.2
          have fits := Entry.Tidy.offset_lt tidy (stop ▸ Nat.le_of_lt upper.start_lt_stop)
          rw [first, second, Address.add, if_pos fits]
          exact ⟨rfl, rfl⟩
      · next first second =>
          exact absurd ⟨(Extent.cut?_eq_some first).1, (Extent.cut?_eq_some second).2.1⟩ unpierced

theorem carve_pierced {r : Resources M} {n : Node} (tidy : n.entry.Tidy)
    (low : target.start < n.stop) (high : n.start < target.stop)
    (whole : n.isRegion → target.covers n.extent.toSpan)
    (clipped : n.entry.Clipped) (pierced : n.PiercedBy target) :
    ((carve target r n).failure = none ↔ r.inUse < r.capacity) ∧
      ((carve target r n).failure = none → ∃ new, new.generation = r.nextGeneration ∧
        (carve target r n).children = n.minus target new) := by
  cases n with
  | region l children =>
      have bottom := (Span.covers_iff.mp (whole rfl)).1
      exact absurd bottom (Nat.not_le_of_lt pierced.1)
  | mapping m =>
      have parts : m.extent.minus target = _ := Extent.minus_of_overlaps low high
      obtain ⟨lower, _, first⟩ : ∃ lower upper, m.extent.cut? target.start = some (lower, upper) :=
        Extent.exists_cut? pierced.1 low
      obtain ⟨_, upper, second⟩ : ∃ lower upper, m.extent.cut? target.stop = some (lower, upper) :=
        Extent.exists_cut? high pierced.2
      have start := (Extent.cut?_eq_some first).2.2.1
      have stop := (Extent.cut?_eq_some second).2.2.2.2.2
      have fits := Entry.Tidy.offset_lt tidy (stop ▸ Nat.le_of_lt upper.start_lt_stop)
      rw [first, second] at parts
      simp only [Node.minus, Mapping.minus, parts, carve, first, second]
      by_cases room : r.inUse < r.capacity
      · obtain ⟨new, r', done, generation⟩ := split_of_room room fits
        rw [done]
        refine ⟨iff_of_true rfl room, fun _ => ⟨new, generation, ?_⟩⟩
        exact congrArg₂ (fun low high => [Node.mapping low, Node.mapping high])
          (Mapping.part_lower start).symm (Mapping.part_tail clipped).symm
      · obtain ⟨f, r', failed⟩ := split_of_full m upper (Nat.le_of_not_lt room)
        rw [failed]
        exact ⟨iff_of_false (Option.some_ne_none f) room, fun fine => by cases fine⟩

end Resources

namespace Space
variable {M : Type} {s : Space M} {l : Label} {children : Forest} {target : Span}

/-- What of the children of a region makes it possible to take out a range. -/
structure Yields (s : Space M) (children : Forest) (target : Span) : Prop where
  image : ∀ m, .mapping m ∈ s.nodes → s.resources.image = some m.handle → ¬ m.extent.overlaps target
  regions : ∀ sub below, .region sub below ∈ children → sub.extent.overlaps target →
    target.covers sub.extent.toSpan
  /-- A hole in a mapping takes a node for what is behind it. -/
  hole : ∀ m, .mapping m ∈ children → m.extent.start < target.start → target.stop < m.extent.stop →
    s.resources.inUse < s.resources.capacity

theorem Kept.imageTouches_eq_false_iff (kept : s.Kept []) :
    s.imageTouches target = false ↔ ∀ m, .mapping m ∈ s.nodes →
      s.resources.image = some m.handle → ¬ m.extent.overlaps target := by
  constructor
  · intro spared m alive image
    rw [kept.imageTouches_eq alive image] at spared
    exact Bool.eq_false_iff.mp spared
  · intro apart
    cases image : s.resources.image with
    | none => rw [imageTouches, image, Option.bind_none, Option.any_none]
    | some h =>
        obtain ⟨m, hm, rfl, _⟩ := kept.sound.recorded h image
        have alive : .mapping m ∈ s.nodes := mapping_mem_nodes_iff.mpr hm
        rw [kept.imageTouches_eq alive image]
        exact Bool.eq_false_iff.mpr (apart m alive image)

theorem Kept.yields_iff (kept : s.Kept []) (alive : .region l children ∈ s.nodes)
    (wide : target.start < target.stop) :
    s.Yields children target ↔ s.imageTouches target = false ∧
      (∀ n ∈ (Forest.slice target children).inside, n.isRegion → target.covers n.extent.toSpan) ∧
        ∀ n ∈ children, n.PiercedBy target → s.resources.inUse < s.resources.capacity := by
  rw [kept.imageTouches_eq_false_iff]
  constructor
  · rintro ⟨image, regions, hole⟩
    refine ⟨image, fun n hn isRegion => ?_, fun n hn pierced => ?_⟩
    · obtain ⟨hn, overlaps⟩ := (Forest.mem_inside_iff (kept.lined alive)).mp hn
      cases n with
      | region sub below => exact regions sub below hn overlaps
      | mapping m => cases isRegion
    · cases n with
      | region sub below =>
          -- A region that the range pierces reaches out of it.
          obtain ⟨low, high⟩ : sub.extent.start < target.start ∧ target.stop < sub.extent.stop := pierced
          have overlaps : sub.extent.overlaps target := by
            rw [Span.overlaps_iff]
            omega
          have bottom := (Span.covers_iff.mp (regions sub below hn overlaps)).1
          exact absurd bottom (Nat.not_le_of_lt low)
      | mapping m => exact hole m hn pierced.1 pierced.2
  · rintro ⟨image, regions, room⟩
    refine ⟨image, fun sub below hn overlaps => ?_, fun m hn low high => room _ hn ⟨low, high⟩⟩
    exact regions _ ((Forest.mem_inside_iff (kept.lined alive)).mpr ⟨hn, overlaps⟩) rfl

theorem targetIn_eq {base size : Nat} (wide : 0 < size) (inside : l.extent.covers ⟨base, base + size⟩) :
    targetIn l base size = .ok ⟨base, base + size⟩ := by
  obtain ⟨_, high⟩ := Span.covers_iff.mp inside
  have top := l.extent.stop_lt_limit
  have fits : Address.add? base size = some (base + size) :=
    if_pos (Nat.lt_of_le_of_lt high top)
  have some : ¬ (⟨base, base + size⟩ : Span).isEmpty := by
    simp only [Span.isEmpty, decide_eq_true_eq]
    omega
  simp only [targetIn, Span.ofLength?, fits, Option.map_some]
  rw [if_neg (by simp [some, inside])]

theorem Kept.unmapTarget_found {pending : List Entry} (kept : s.Kept pending)
    (alive : .region l children ∈ s.nodes) {base size : Nat} {sparing : Bool} {found : Span × Forest.Slice}
    (same : target = ⟨base, base + size⟩) (ok : s.unmapTarget l.handle base size sparing = .ok found) :
    found = (target, Forest.slice target children) ∧ Ranges l base size target ∧
      (children = [] ∨ s.imageTouches target = false) ∧ ∀ n ∈ (Forest.slice target children).inside,
        n.isRegion → sparing = false ∧ target.covers n.extent.toSpan := by
  obtain ⟨target', slice⟩ := found
  obtain ⟨l', children', live, ranges, rfl, spared⟩ := unmapTarget_ok ok
  cases (kept.liveRegion_eq alive).symm.trans live
  have here : target' = target := same ▸ congrArg₂ Span.mk ranges.start ranges.stop
  subst here
  refine ⟨rfl, ranges, spared.imp_right And.left, fun n hn isRegion => ?_⟩
  rcases spared with rfl | ⟨_, regions⟩
  · cases Forest.mem_of_mem_inside hn
  · exact regions n hn isRegion

theorem Kept.unmapTarget_iff (kept : s.Kept []) (alive : .region l children ∈ s.nodes) {base size : Nat}
    (same : target = ⟨base, base + size⟩) :
    s.unmapTarget l.handle base size false = .ok (target, Forest.slice target children) ↔
      target.start < target.stop ∧ l.extent.covers target ∧ (children = [] ∨
        s.imageTouches target = false ∧ ∀ n ∈ (Forest.slice target children).inside, n.isRegion →
          target.covers n.extent.toSpan) := by
  have live := kept.liveRegion_eq alive
  constructor
  · intro ok
    obtain ⟨l', children', live', ranges, _, spared⟩ := unmapTarget_ok ok
    cases live.symm.trans live'
    refine ⟨ranges.wide, Span.covers_iff.mpr ⟨ranges.low, ranges.high⟩, ?_⟩
    exact spared.imp_right fun ⟨spared, regions⟩ => ⟨spared, fun n hn isRegion => (regions n hn isRegion).2⟩
  · rintro ⟨wide, inside, spared⟩
    subst same
    refine check_eq_ok.mpr ⟨(l, children), live, check_eq_ok.mpr ⟨_, targetIn_eq ?_ inside, ?_⟩⟩
    · exact Nat.pos_of_lt_add_right wide
    · dsimp only
      split
      · rfl
      · next some =>
          obtain ⟨spared, regions⟩ := spared.resolve_left fun none => some (List.isEmpty_iff.mpr none)
          refine check_eq_ok.mpr ⟨(), ensure_eq_ok.mpr (by simp [spared]), check_eq_ok.mpr ⟨(), ?_, rfl⟩⟩
          refine ensure_eq_ok.mpr (List.all_eq_true.mpr fun n hn => ?_)
          by_cases isRegion : n.isRegion
          · simp [regions n hn isRegion]
          · simp [isRegion]

theorem Kept.takeable_iff (kept : s.Kept []) (alive : .region l children ∈ s.nodes) {base size : Nat}
    (same : target = ⟨base, base + size⟩) :
    (target.start < target.stop ∧ l.extent.covers target ∧ (children = [] ∨ s.Yields children target)) ↔
      s.unmapTarget l.handle base size false = .ok (target, Forest.slice target children) ∧
        ∀ n ∈ children, n.PiercedBy target → s.resources.inUse < s.resources.capacity := by
  rw [kept.unmapTarget_iff alive same]
  constructor
  · rintro ⟨wide, inside, rfl | yields⟩
    · exact ⟨⟨wide, inside, .inl rfl⟩, nofun⟩
    · obtain ⟨image, regions, room⟩ := (kept.yields_iff alive wide).mp yields
      exact ⟨⟨wide, inside, .inr ⟨image, regions⟩⟩, room⟩
  · rintro ⟨⟨wide, inside, spared⟩, room⟩
    refine ⟨wide, inside, spared.imp_right fun ⟨image, regions⟩ => ?_⟩
    exact (kept.yields_iff alive wide).mpr ⟨image, regions, room⟩

variable [Mmu M]

/-- Carving the children that a range reaches into takes the range out of the row, unless it needs a node
for a hole and there is none. -/
theorem Kept.carve_row {pending : List Entry} (kept : s.Kept pending) (alive : .region l children ∈ s.nodes)
    (clipped : ∀ n ∈ children, n.entry.Clipped) (wide : target.start < target.stop)
    (whole : ∀ n ∈ (Forest.slice target children).inside, n.isRegion →
      target.covers n.extent.toSpan) {p : Progress M}
    (work : p = Progress.overEach (Resources.carve target) s.resources
      (Forest.slice target children).inside) :
    (p.failure = none ↔
        ∀ n ∈ children, n.PiercedBy target → s.resources.inUse < s.resources.capacity) ∧
      (p.failure = none → ∃ new : Handle, new.generation = s.resources.nextGeneration ∧
        (Forest.slice target children).before ++ p.children ++ (Forest.slice target children).behind =
          children.flatMap (Node.minus target new)) := by
  have lined := kept.lined alive
  have tidy : ∀ n ∈ children, n.entry.Tidy := fun n hn => kept.tidy (child_mem_nodes alive hn)
  have row := fun new => Forest.flatMap_of_apart lined fun _ apart =>
    Node.minus_of_apart new wide apart
  by_cases pierced : ∃ n ∈ children, n.PiercedBy target
  · obtain ⟨n, hn, pierced⟩ := pierced
    obtain ⟨low, high⟩ := pierced
    have inside : n ∈ (Forest.slice target children).inside :=
      Forest.mem_inside_of_overlaps lined hn (Nat.lt_trans wide high) (Nat.lt_trans low wide)
    have single := Forest.inside_eq_singleton lined inside low high
    rw [single, Progress.overEach_singleton] at work
    subst work
    obtain ⟨room, parts⟩ := Resources.carve_pierced (r := s.resources) (tidy n hn)
      (Nat.lt_trans wide high) (Nat.lt_trans low wide) (whole n inside) (clipped n hn) ⟨low, high⟩
    refine ⟨room.trans ⟨fun room _ _ _ => room, fun all => all n hn ⟨low, high⟩⟩, fun done => ?_⟩
    obtain ⟨new, generation, same⟩ := parts done
    refine ⟨new, generation, ?_⟩
    rw [row, single, List.flatMap_singleton, same]
  · have each : ∀ new, ∀ n ∈ (Forest.slice target children).inside, ∀ r : Resources M,
        (Resources.carve target r n).failure = none ∧
          (Resources.carve target r n).children = n.minus target new := by
      intro new n hn r
      obtain ⟨low, high⟩ := Forest.overlaps_of_mem_inside lined hn
      have hn' := Forest.mem_of_mem_inside hn
      exact Resources.carve_unpierced r (tidy n hn') new low high (whole n hn) fun here =>
        pierced ⟨n, hn', here⟩
    have done := fun new => Progress.overEach_flatMap (each new) s.resources
    rw [← work] at done
    obtain ⟨fine, parts⟩ := done ⟨0, s.resources.nextGeneration⟩
    refine ⟨iff_of_true fine fun n hn here => absurd ⟨n, hn, here⟩ pierced, fun _ => ?_⟩
    refine ⟨⟨0, s.resources.nextGeneration⟩, rfl, ?_⟩
    rw [row, parts]

/-- A range has been taken out of the children of a region. -/
structure Carved (s : Space M) (l : Label) (children : Forest) (target : Span) (new : Handle)
    (s' : Space M) : Prop where
  recent : new.generation = s.resources.nextGeneration
  kind : s'.kind = s.kind
  root : s'.root = s.root
  entropy : s'.entropy = s.entropy
  tree : s'.tree = s.tree.map (Node.withChildren l.handle (children.flatMap (Node.minus target new)))
  failure : (Progress.overEach (Resources.carve target) s.resources
    (Forest.slice target children).inside).failure = none
  resources : s'.resources = (Progress.overEach (Resources.carve target) s.resources
    (Forest.slice target children).inside).resources

theorem Kept.unmapRange_carved {pending : List Entry} {s' : Space M} (kept : s.Kept pending)
    (alive : .region l children ∈ s.nodes) (clipped : ∀ n ∈ children, n.entry.Clipped) {base size : Nat}
    {sparing : Bool} (same : target = ⟨base, base + size⟩)
    (done : s.unmapRange l.handle base size sparing = ⟨.ok (), s'⟩) :
    ∃ new, s.Carved l children target new s' := by
  simp only [unmapRange] at done
  split at done
  · cases done
  · next ok =>
      obtain ⟨⟨⟩, ranges, _, whole⟩ := kept.unmapTarget_found alive same ok
      have carved := kept.carve_row alive clipped ranges.wide
        (fun n hn isRegion => (whole n hn isRegion).2) rfl
      split at done
      · next fine =>
          cases done
          obtain ⟨new, generation, row⟩ := carved.2 fine
          exact ⟨new, generation, rfl, rfl, rfl, by rw [row]; rfl, fine, rfl⟩
      · cases done

theorem Kept.unmapRange_minus (kept : s.Kept []) (alive : .region l children ∈ s.nodes)
    (clipped : ∀ n ∈ children, n.entry.Clipped) {base size : Nat} (same : target = ⟨base, base + size⟩) :
    ((s.unmapRange l.handle base size false).answer = .ok () ↔
        target.start < target.stop ∧ l.extent.covers target ∧ (children = [] ∨ s.Yields children target)) ∧
      ((s.unmapRange l.handle base size false).answer = .ok () → ∃ c, ∃ new : Handle,
        s.tree = some (Context.plug c (.region l children)) ∧
          new.generation = s.resources.nextGeneration ∧
            (s.unmapRange l.handle base size false).state.tree =
              some (Context.plug c (.region l (children.flatMap (Node.minus target new))))) := by
  refine ⟨?succeeds, fun done => ?row⟩
  case succeeds =>
    rw [kept.takeable_iff alive same]
    cases outcome : s.unmapTarget l.handle base size false with
    | error f =>
        simp only [unmapRange, outcome]
        refine iff_of_false (by rintro ⟨⟩) fun accepted => ?_
        cases accepted.1
    | ok found =>
        obtain ⟨rfl, ranges, _, whole⟩ := kept.unmapTarget_found alive same outcome
        rw [← (kept.carve_row alive clipped ranges.wide (fun n hn isRegion => (whole n hn isRegion).2) rfl).1]
        simp only [unmapRange, outcome]
        split
        · next fine => exact iff_of_true rfl ⟨trivial, fine⟩
        · next stuck =>
            refine iff_of_false (by rintro ⟨⟩) fun accepted => ?_
            cases stuck.symm.trans accepted.2
  case row =>
    obtain ⟨c, tree⟩ := exists_plug alive
    obtain ⟨new, carved⟩ := kept.unmapRange_carved alive clipped same (by rw [← done])
    exact ⟨c, new, tree, carved.recent, carved.tree.trans (kept.tree_withChildren tree _)⟩

/-- The conditions under which a range of a region may be unmapped. -/
structure Unmappable (s : Space M) (l : Label) (children : Forest) (base size : Nat) : Prop where
  aligned : base % pageSize = 0
  some : Address.inPages size ≠ 0
  representable : Address.inPages size < Address.limit
  fits : base + Address.inPages size < Address.limit
  inside : l.extent.covers (.inPages base size)
  yields : children = [] ∨ s.Yields children (.inPages base size)

theorem Kept.unmap_mmu {s s' : Space PageTable} (kept : s.Kept [])
    (coherent : Coherent s.entries s.resources) {region : Handle} {base size : UInt64}
    (same : target = ⟨base.toNat, base.toNat + Address.wholePages size.toNat⟩)
    (done : s.unmap region base size = ⟨.ok (), s'⟩) :
    s'.resources.mmu = { s.resources.mmu with translations := s.resources.mmu.outside target } := by
  have gone : s'.resources.mmu.outside target = s'.resources.mmu.translations := by
    have follows := (unmap_clean kept region base size).follows
    rw [done] at follows
    have coherent' := follows.coherent kept coherent
    refine List.filter_eq_self.mpr fun t ht => ?_
    have apart := coherent'.outside (fun m hm => unmap_ok kept done (mapping_mem_nodes_iff.mpr hm)) ht
    have absent : ¬ target.contains t.page := by
      rw [Span.contains_iff, same]
      rintro ⟨low, high⟩
      exact apart.elim (Nat.not_lt_of_le low) (Nat.not_le_of_lt high)
    simpa using absent
  have agree : PageTable.AgreeOutside target s.resources.mmu s'.resources.mmu := by
    simp only [unmap] at done
    split at done
    · cases done
    · cases ok : s.unmapTarget region base.toNat (Address.wholePages size.toNat) false with
      | error f =>
          simp only [unmapRange, ok] at done
          cases done
      | ok found =>
          obtain ⟨target', slice⟩ := found
          obtain ⟨_, _, _, ranges, _⟩ := unmapTarget_ok ok
          have here : target' = target := same ▸ congrArg₂ Span.mk ranges.start ranges.stop
          have within := (unmapRange_within kept ok).mmu
          rwa [done, here] at within
  show s'.resources.mmu = ⟨s.resources.mmu.guard, s.resources.mmu.refuses, s.resources.mmu.outside target⟩
  rw [← agree.guard, ← agree.refuses, ← agree.outside, gone]

/-- What unmapping a range of a region does to its children and to the translations. -/
structure Subtracts (s : Space PageTable) (l : Label) (children : Forest) (base size : UInt64)
    (o : Outcome (Space PageTable) Unit) : Prop where
  succeeds : o.answer = .ok () ↔ s.Unmappable l children base.toNat size.toNat
  row : o.answer = .ok () → ∃ c, ∃ new : Handle, s.tree = some (Context.plug c (.region l children)) ∧
    new.generation = s.resources.nextGeneration ∧ o.state.tree =
      some (Context.plug c (.region l (children.flatMap (Node.minus (.inPages base.toNat size.toNat) new))))
  translations : o.answer = .ok () → o.state.resources.mmu =
    { s.resources.mmu with translations := s.resources.mmu.outside (.inPages base.toNat size.toNat) }

theorem unmap_of_valid {region : Handle} {base size : UInt64}
    (some : Address.wholePages size.toNat ≠ 0) (aligned : base.toNat % pageSize = 0) :
    s.unmap region base size =
      s.unmapRange region base.toNat (Address.wholePages size.toNat) false := by
  simp only [unmap]
  rw [if_neg (by simp [some, Address.isAligned, aligned])]

theorem unmap_of_invalid {region : Handle} {base size : UInt64}
    (invalid : ¬ (Address.wholePages size.toNat ≠ 0 ∧ base.toNat % pageSize = 0)) :
    s.unmap region base size = .fail Error.invalidArgument s := by
  simp only [unmap]
  rw [if_pos]
  rcases not_and_or.mp invalid with none | unaligned
  · exact .inl (not_not.mp none)
  · exact .inr (by simp [Address.isAligned, unaligned])

theorem Kept.unmap_subtracts {s : Space PageTable} (kept : s.Kept [])
    (coherent : Coherent s.entries s.resources) (alive : .region l children ∈ s.nodes)
    (clipped : ∀ n ∈ children, n.entry.Clipped) (base size : UInt64) :
    s.Subtracts l children base size (s.unmap l.handle base size) := by
  by_cases valid : Address.wholePages size.toNat ≠ 0 ∧ base.toNat % pageSize = 0
  · obtain ⟨some, aligned⟩ := valid
    obtain ⟨representable, pages⟩ := Address.wholePages_ne_zero some
    have same : Span.inPages base.toNat size.toNat =
        ⟨base.toNat, base.toNat + Address.wholePages size.toNat⟩ := by rw [pages, Span.inPages]
    obtain ⟨succeeds, row⟩ := kept.unmapRange_minus alive clipped same
    rw [← unmap_of_valid some aligned] at succeeds row
    refine ⟨succeeds.trans ⟨?_, ?_⟩, row, fun done => ?_⟩
    · rintro ⟨_, inside, yields⟩
      have fits : base.toNat + Address.inPages size.toNat < Address.limit :=
        Nat.lt_of_le_of_lt (Span.covers_iff.mp inside).2 l.extent.stop_lt_limit
      exact ⟨aligned, pages ▸ some, representable, fits, inside, yields⟩
    · intro able
      exact ⟨Nat.lt_add_of_pos_right (Nat.pos_of_ne_zero able.some), able.inside, able.yields⟩
    · cases outcome : s.unmap l.handle base size with
      | mk answer s' =>
          rw [outcome] at done
          cases done
          exact kept.unmap_mmu coherent same outcome
  · have refused : ¬ s.Unmappable l children base.toNat size.toNat := by
      intro able
      refine valid ⟨?_, able.aligned⟩
      rw [Address.wholePages_eq, if_pos able.representable]
      exact able.some
    rw [unmap_of_invalid valid]
    exact ⟨iff_of_false nofun refused, nofun, nofun⟩

omit [Mmu M] in
theorem new_clipped {mmu : M} {c : SpaceConfig} {entropy : Entropy} (new : Space.new mmu c entropy = .ok s) :
    ∀ e ∈ s.entries, e.Clipped := by
  simp only [Space.new] at new
  split at new
  · cases new
  · split at new <;> cases new
    have short : "root".utf8ByteSize ≤ Name.maxBytes := by decide
    exact List.forall_mem_singleton.mpr (Name.clip_of_short short)

theorem run_entries_clipped (picks : Mmu.PicksPages M) {mmu : M} {c : SpaceConfig} {entropy : Entropy}
    (new : Space.new mmu c entropy = .ok s) (commitments : Commitments) (ops : List Operation) :
    ∀ e ∈ (run (s, commitments) ops).1.entries, e.Clipped := by
  refine (run_induction (P := fun s => ∀ e ∈ s.entries, e.Clipped) picks ops ?_ (new_kept new)
    (new_clipped new)).2
  intro s commitments op _ kept before
  exact (perform_passes picks kept commitments op).forall_entries before
    (fun _ _ clipped heir => clipped.heir heir) fun _ _ lets => lets.clipped

theorem run_clipped (picks : Mmu.PicksPages M) {mmu : M} {c : SpaceConfig} {entropy : Entropy}
    (new : Space.new mmu c entropy = .ok s) (commitments : Commitments) (ops : List Operation)
    (alive : .region l children ∈ (run (s, commitments) ops).1.nodes) : ∀ n ∈ children, n.entry.Clipped :=
  fun _ child => run_entries_clipped picks new commitments ops _ (entry_mem (child_mem_nodes alive child))

/-- What holds of a space over a page table after any sequence of calls. -/
structure Settled (s : Space PageTable) : Prop where
  kept : s.Kept []
  coherent : Coherent s.entries s.resources
  clipped : ∀ l children, .region l children ∈ s.nodes → ∀ n ∈ children, n.entry.Clipped

theorem run_settled {guard : Nat} {refuses : Bool} {c : SpaceConfig} {entropy : Entropy}
    {s : Space PageTable} (new : Space.new (⟨guard, refuses, []⟩ : PageTable) c entropy = .ok s)
    (commitments : Commitments) (ops : List Operation) : (run (s, commitments) ops).1.Settled where
  kept := run_kept (w := (s, commitments)) .pageTable (new_kept new) ops
  coherent := run_coherent (new_kept new) (new_coherent new) commitments ops
  clipped _ _ := run_clipped .pageTable new commitments ops

/-- After any sequence of calls, unmapping succeeds exactly where nothing stands in its way, and takes its
range out of the children of the region and out of the translations. -/
theorem run_subtracts {guard : Nat} {refuses : Bool} {c : SpaceConfig} {entropy : Entropy}
    {s : Space PageTable} (new : Space.new (⟨guard, refuses, []⟩ : PageTable) c entropy = .ok s)
    (commitments : Commitments) (ops : List Operation) {l : Label} {children : Forest}
    (alive : .region l children ∈ (run (s, commitments) ops).1.nodes) (base size : UInt64) :
    (run (s, commitments) ops).1.Subtracts l children base size
      ((run (s, commitments) ops).1.unmap l.handle base size) := by
  have settled := run_settled new commitments ops
  exact settled.kept.unmap_subtracts settled.coherent alive (settled.clipped l children alive) base size

/-- The middle of three pages of a mapping is unmapped. -/
theorem run_subtracts_hole :
    ∃ s t l children, Space.new (⟨0, false, []⟩ : PageTable) ⟨.user, 0, 0x8000, .empty, 3⟩ ⟨none⟩ = .ok s ∧
      (run (s, []) [.addMapping ⟨0, 0⟩ { size := 0x3000 } ⟨0, 0x3000, none, none, false⟩ 0
        PageFlags.read]).1 = t ∧
      .region l children ∈ t.nodes ∧ (t.unmap l.handle 0x1000 0x1000).answer = .ok () ∧
      t.Subtracts l children 0x1000 0x1000 (t.unmap l.handle 0x1000 0x1000) := by
  obtain ⟨s, new⟩ : ∃ s, Space.new (⟨0, false, []⟩ : PageTable)
      ⟨.user, 0, 0x8000, .empty, 3⟩ ⟨none⟩ = .ok s := ⟨_, rfl⟩
  obtain ⟨t, made⟩ : ∃ t, (run (s, []) [.addMapping ⟨0, 0⟩ { size := 0x3000 }
      ⟨0, 0x3000, none, none, false⟩ 0 PageFlags.read]).1 = t := ⟨_, rfl⟩
  have facts : ((t.liveRegion ⟨0, 0⟩).toOption.any fun _ => true) ∧
      (t.unmap ⟨0, 0⟩ 0x1000 0x1000).answer = .ok () := by
    subst made
    cases new
    decide +kernel
  obtain ⟨live, done⟩ := facts
  obtain ⟨l, children, handle, alive, _⟩ := exists_alive_of_any live
  refine ⟨s, t, l, children, new, made, alive, handle ▸ done, ?_⟩
  subst made
  exact run_subtracts new [] _ alive 0x1000 0x1000

end Space
end RegionTree
