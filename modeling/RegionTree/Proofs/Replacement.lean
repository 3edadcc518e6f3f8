import RegionTree.Proofs.Renaming
import RegionTree.Proofs.Subtraction

/-! Replacement: a node in the place of a range of a region's children. Where the range is unmapped first and
where it is unmapped once the node is built, what is left differs in the handles of new nodes only. -/
namespace RegionTree
variable {M : Type}

/-! ### The same work on other resources -/

namespace Resources

/-- The stocks have the same mmu, and room for as many nodes. -/
structure Twins (r r' : Resources M) : Prop where
  mmu : r'.mmu = r.mmu
  capacity : r'.capacity = r.capacity

variable {r r' r'' : Resources M} {m : Mapping} {target : Span}

theorem Quiet.twins (same : r.Quiet r') : r.Twins r' := ⟨same.mmu, same.capacity⟩

theorem twins_split {tail : Mapping} {upper : Extent} (done : r.split m upper = ⟨.ok tail, r'⟩) :
    r.Twins r' := by
  obtain ⟨_, held, taken, _, quiet⟩ := split_ok done
  exact ⟨quiet.mmu.trans (allocate_mmu (r := r.countGeneration.2) taken),
    quiet.capacity.trans (allocate_capacity (r := r.countGeneration.2) taken)⟩

namespace Twins

theorem symm (h : r.Twins r') : r'.Twins r := ⟨h.mmu.symm, h.capacity.symm⟩

theorem trans (h : r.Twins r') (h' : r'.Twins r'') : r.Twins r'' :=
  ⟨h'.mmu.trans h.mmu, h'.capacity.trans h.capacity⟩

theorem bury (h : r.Twins r') (kind : NodeKind) (l : Label) :
    (r.bury kind l).Twins (r'.bury kind l) := by
  constructor
  · rw [mmu_bury, mmu_bury, h.mmu]
  · rw [capacity_bury, capacity_bury, h.capacity]

variable [Mmu M]

theorem unmapPages (h : r.Twins r') (span : Span) : (r.unmapPages span).Twins (r'.unmapPages span) :=
  ⟨congrArg (Mmu.unmap · span) h.mmu, h.capacity⟩

mutual
theorem destroy {r r' : Resources M} (h : r.Twins r') : (n : Node) → (n.destroy r).Twins (n.destroy r')
  | .region _ children => (destroyAll h children).bury _ _
  | .mapping m => (h.unmapPages m.extent.toSpan).bury _ _
theorem destroyAll {r r' : Resources M} (h : r.Twins r') : (ns : Forest) →
    (Forest.destroy r ns).Twins (Forest.destroy r' ns)
  | [] => h
  | n :: ns => destroyAll (destroy h n) ns
end

theorem carve (h : r.Twins r') (n : Node) (done : (carve target r n).failure = none)
    (done' : (Resources.carve target r' n).failure = none) :
    (Resources.carve target r n).resources.Twins (Resources.carve target r' n).resources := by
  cases n with
  | region l children => exact h.destroy _
  | mapping m =>
      cases first : m.extent.cut? target.start <;> cases second : m.extent.cut? target.stop <;>
        simp only [Resources.carve, first, second] at done done' ⊢
      case none.none => exact h.destroy _
      case none.some => split <;> exact h.unmapPages _
      case some.none => exact h.unmapPages _
      case some.some =>
        split at done
        · cases done
        · next same =>
            split at done'
            · cases done'
            · next same' =>
                exact (((twins_split same).symm.trans h).trans (twins_split same')).unmapPages _

theorem overEach {ns : Forest} (h : r.Twins r')
    (done : (Progress.overEach (Resources.carve target) r ns).failure = none)
    (done' : (Progress.overEach (Resources.carve target) r' ns).failure = none) :
    (Progress.overEach (Resources.carve target) r ns).resources.Twins
      (Progress.overEach (Resources.carve target) r' ns).resources := by
  induction ns generalizing r r' with
  | nil => exact h
  | cons n ns ih =>
      simp only [Progress.overEach] at done done' ⊢
      split at done
      · next failed =>
          cases failed.symm.trans done
      · next fine =>
          split at done'
          · next failed =>
              cases failed.symm.trans done'
          · next fine' =>
              exact ih (h.carve n fine fine') done done'

end Twins

theorem allocate_of_room (generation : Nat) (room : r.inUse < r.capacity) :
    ∃ new r', r.allocate generation = ⟨.ok new, r'⟩ := by
  rw [allocate, if_neg (Nat.not_le_of_lt room)]
  split <;> exact ⟨_, _, rfl⟩

theorem make_again {base : Nat} {q : NodeRequest} {built : Built}
    (done : r.make base q = ⟨.ok built, r''⟩) (image : r'.image = r.image)
    (room : r'.inUse < r'.capacity) : ∃ built' r₂, r'.make base q = ⟨.ok built', r₂⟩ := by
  obtain ⟨new, held, taken⟩ := allocate_of_room (r := r'.countGeneration.2) r'.countGeneration.1 room
  have image : r'.countGeneration.2.image = r.countGeneration.2.image := image
  simp only [make] at done ⊢
  split at done
  · cases done
  · split at done
    · simp only [makeRegion, taken]
      exact ⟨_, _, rfl⟩
    · simp only [makeMapping, image, taken] at done ⊢
      split at done
      · cases done
      · exact ⟨_, _, rfl⟩

end Resources

/-! ### One request, two nodes -/

theorem Extent.eq_of_toSpan {e e' : Extent} (same : e.toSpan = e'.toSpan) : e = e' := by
  cases e
  cases e'
  cases same
  rfl

variable {f : Handle → Handle}

theorem NodeRequest.Describes.renamed {q : NodeRequest} {n n' : Node} (h : q.Describes n.entry)
    (h' : q.Describes n'.entry) (backed : q.backing.isSome) (extent : n.extent = n'.extent)
    (handle : f n.handle = n'.handle) : n.renamed f = n' := by
  cases n with
  | region l children => cases h with | region none => simp [none] at backed
  | mapping m =>
      cases n' with
      | region l children => cases h' with | region none => simp [none] at backed
      | mapping m' =>
          obtain ⟨⟨_, _, _, _⟩, _, _, _⟩ := m
          obtain ⟨⟨_, _, _, _⟩, _, _, _⟩ := m'
          cases h with | mapping backing flags name =>
          cases h' with | mapping backing' flags' name' =>
          cases backing.symm.trans backing'
          cases flags.trans flags'.symm
          cases name.trans name'.symm
          cases extent
          cases handle
          rfl

theorem Built.Ready.isImage_iff {built : Built} {image : Option Handle} (h : built.Ready image) :
    built.isImage = true ↔ ∃ m, built.node = .mapping m ∧ m.Armed := by
  constructor
  · intro isImage
    obtain ⟨_, m, mapping, armed, _⟩ := h.image isImage
    exact ⟨m, mapping, armed⟩
  · rintro ⟨m, mapping, armed⟩
    by_contra plain
    exact h.plain (Bool.not_eq_true _ ▸ plain) m mapping armed

theorem Built.Ready.isImage_eq {built built' : Built} {image image' : Option Handle} (h : built.Ready image)
    (h' : built'.Ready image') (same : built.node.renamed f = built'.node) :
    built'.isImage = built.isImage := by
  rw [Bool.eq_iff_iff, h.isImage_iff, h'.isImage_iff, ← same]
  cases built.node with
  | region l children => exact iff_of_false (by rintro ⟨_, ⟨⟩, _⟩) (by rintro ⟨_, ⟨⟩, _⟩)
  | mapping m =>
      constructor
      · rintro ⟨_, ⟨⟩, armed⟩
        exact ⟨m, rfl, armed⟩
      · rintro ⟨_, ⟨⟩, armed⟩
        exact ⟨_, rfl, armed⟩

namespace Space
variable {s s' s₁ s₂ : Space M} {c : Context} {l : Label} {children row : Forest} {target : Span}
variable {pending : List Entry} {q : NodeRequest} {base : Nat} {built built' : Built} {h : Handle}

theorem Kept.adopt_eq (kept : s.Kept pending) (tree : s.tree = some (Context.plug c (.region l row)))
    (done : s.adopt l.handle built = ⟨.ok h, s'⟩) :
    h = built.node.handle ∧ s' = { s with
      tree := some (Context.plug c (.region l (Index.insert Node.start built.node row)))
      resources := { s.resources with
        image := if built.isImage then some built.node.handle else s.resources.image } } := by
  have alive := mem_nodes_of_plug tree
  have tree' := kept.tree_withChildren tree (Index.insert Node.start built.node row)
  simp only [adopt, kept.liveRegion_eq alive] at done
  split at done
  · cases done
  · split at done
    · next isImage =>
        cases done
        simp only [withChildren, tree', isImage, if_true, and_self]
    · next plain =>
        cases done
        simp only [withChildren, tree', plain, Bool.false_eq_true, if_false, and_self]

/-- Handles that no node has yet may be exchanged for others, and all handles of nodes be left alone. -/
theorem Kept.exists_renaming (kept : s.Kept []) {new : Handle}
    (recent : s.resources.nextGeneration ≤ h.generation) (later : h.generation < new.generation)
    (h' new' : Handle) : ∃ f : Handle → Handle, f h = h' ∧ f new = new' ∧
      ∀ e ∈ s.entries, f e.handle = e.handle := by
  refine ⟨Function.update (Function.update id new new') h h', Function.update_self .., ?_, fun e he => ?_⟩
  · rw [Function.update_of_ne, Function.update_self]
    rintro rfl
    exact Nat.lt_irrefl _ later
  · have old := kept.sound.balanced.aged e he
    rw [Function.update_of_ne, Function.update_of_ne]
    · rfl
    · rintro rfl
      omega
    · rintro rfl
      omega

variable [Mmu M]

/-- A range has been taken out of the children of a region, and a node that was asked for is in its
place. -/
structure Replaced (s : Space M) (q : NodeRequest) (c : Context) (l : Label) (children : Forest)
    (target : Span) (new : Handle) (built : Built) (s' : Space M) : Prop where
  kept : s'.Kept []
  ready : built.Ready s.resources.image
  describes : q.Describes built.node.entry
  extent : built.node.extent.toSpan = target
  kind : s'.kind = s.kind
  root : s'.root = s.root
  entropy : s'.entropy = s.entropy
  tree : s'.tree = some (Context.plug c (.region l
    (Index.insert Node.start built.node (children.flatMap (Node.minus target new)))))
  image : s'.resources.image = if built.isImage then some built.node.handle else s.resources.image
  work : ∃ r, s.resources.Twins r ∧ (Progress.overEach (Resources.carve target) r
      (Forest.slice target children).inside).failure = none ∧
    (Progress.overEach (Resources.carve target) r
      (Forest.slice target children).inside).resources.Twins s'.resources

/-- What unmapping a range of a region leaves. -/
structure Cleared (pending : List Entry) (s : Space M) (c : Context) (l : Label) (children : Forest)
    (target : Span) (new : Handle) (s₁ : Space M) : Prop extends Carved s l children target new s₁ where
  kept : s₁.Kept pending
  filled : s₁.tree = some (Context.plug c (.region l (children.flatMap (Node.minus target new))))
  image : s₁.resources.image = s.resources.image
  within : l.extent.start ≤ target.start ∧ target.stop ≤ l.extent.stop
  free : ∀ n ∈ children.flatMap (Node.minus target new), n.stop ≤ target.start ∨ target.stop ≤ n.start

theorem Kept.unmapRange_cleared (kept : s.Kept pending) {size : Nat} {sparing : Bool}
    (start : base % pageSize = 0) (whole : size % pageSize = 0)
    (tree : s.tree = some (Context.plug c (.region l children)))
    (clipped : ∀ n ∈ children, n.entry.Clipped)
    (done : s.unmapRange l.handle base size sparing = ⟨.ok (), s₁⟩) :
    ∃ new, s.Cleared pending c l children ⟨base, base + size⟩ new s₁ := by
  obtain ⟨new, carved⟩ := kept.unmapRange_carved (mem_nodes_of_plug tree) clipped rfl done
  have follows := (unmapRange_reworked .shape kept l.handle sparing start whole).follows
  have image := unmapRange_image kept l.handle base size sparing
  rw [done] at follows image
  have filled := carved.tree.trans (kept.tree_withChildren tree _)
  obtain ⟨_, _, _, _, handle, _, tree', lower, upper, free⟩ := unmapRange_ok kept done
  cases follows.kept.eq_of_handle (mem_nodes_of_plug tree') (mem_nodes_of_plug filled) handle
  exact ⟨new, carved, follows.kept, filled, image, ⟨lower, upper⟩, free⟩

theorem Kept.addOver_replaced (kept : s.Kept []) (paged : q.Paged) (start : base % pageSize = 0)
    (tree : s.tree = some (Context.plug c (.region l children)))
    (clipped : ∀ n ∈ children, n.entry.Clipped) (done : s.addOver l.handle base q = ⟨.ok h, s'⟩) :
    ∃ built r new, s.resources.make base q = ⟨.ok built, r⟩ ∧ built.node.handle = h ∧
      h.generation = s.resources.nextGeneration ∧ h.generation < new.generation ∧
        s.Replaced q c l children ⟨base, base + q.size⟩ new built s' := by
  have creates : s.Creates (fun _ _ => True) (s.addOver l.handle base q) :=
    addOver_creates kept paged start (mem_nodes_of_plug tree) fun _ _ => trivial
  have kept' := creates.follows.kept
  rw [done] at kept'
  simp only [addOver] at done
  split at done
  · cases done
  · next built r made =>
      obtain ⟨holds, ready, describes, recent, low, high, capacity, image, mmu⟩ :=
        make_follows kept paged start made
      split at done
      · cases done
      · next s₁ unmapped =>
          obtain ⟨new, cleared⟩ := holds.kept.unmapRange_cleared start paged.size tree clipped unmapped
          have noted := cleared.kept.quiet
            (s₁.resources.quiet_note (.overwritten built.node.extent.toSpan l.handle))
          obtain ⟨rfl, rfl⟩ := noted.adopt_eq cleared.filled done
          have aged : built.node.handle.generation < r.nextGeneration :=
            holds.kept.sound.balanced.aged (.held built.node.handle) List.mem_cons_self
          refine ⟨built, r, new, made, rfl, recent, cleared.recent ▸ aged, kept', ?_, describes,
            congrArg₂ Span.mk low high, cleared.kind, cleared.root, cleared.entropy, rfl, ?_, r,
            ⟨mmu, capacity⟩, cleared.failure, ?_⟩
          · exact ready.mono fun x recorded => image.trans recorded
          · show (if built.isImage then _ else s₁.resources.image) = _
            rw [cleared.image, image]
          · exact ⟨(congrArg Resources.mmu cleared.resources :),
              (congrArg Resources.capacity cleared.resources :)⟩

theorem Cleared.addAt_replaced {new : Handle} (paged : q.Paged) (start : base % pageSize = 0)
    (cleared : s.Cleared [] c l children ⟨base, base + q.size⟩ new s₁) {r₁ r : Resources M}
    (quiet : s₁.resources.Quiet r₁) (made : r₁.make base q = ⟨.ok built, r⟩) :
    ∃ s₂, ({ s₁ with resources := r₁ } : Space M).addAt l.handle base q = ⟨.ok built.node.handle, s₂⟩ ∧
      s.Replaced q c l children ⟨base, base + q.size⟩ new built s₂ := by
  obtain ⟨holds, ready, describes, _, low, high, capacity, image, mmu⟩ :=
    make_follows (cleared.kept.quiet quiet) paged start made
  obtain ⟨s₂, joined, joins⟩ :=
    adopt_ok holds.kept ready (mem_nodes_of_plug cleared.filled) (low ▸ cleared.within.1)
      (high ▸ cleared.within.2) (by rw [low, high]; exact cleared.free)
  obtain ⟨_, rfl⟩ := holds.kept.adopt_eq cleared.filled joined
  have twins : s₁.resources.Twins r := quiet.twins.trans ⟨mmu, capacity⟩
  refine ⟨_, by rw [addAt, made]; exact joined, joins.follows.kept, ?_, describes,
    congrArg₂ Span.mk low high, cleared.kind, cleared.root, cleared.entropy, rfl, ?_, s.resources,
    ⟨rfl, rfl⟩, cleared.failure, ?_⟩
  · exact ready.mono fun x recorded => (image.trans (quiet.image.trans cleared.image)).trans recorded
  · show (if built.isImage then _ else r.image) = _
    rw [image, show r₁.image = s₁.resources.image from quiet.image, cleared.image]
  · exact cleared.resources ▸ ⟨twins.mmu, twins.capacity⟩

variable {new new' : Handle}

/-- Two ways to replace a range come to the same, but for the handles of the new nodes. -/
theorem Replaced.renamed (kept : s.Kept []) (tree : s.tree = some (Context.plug c (.region l children)))
    (backed : q.backing.isSome) (h : s.Replaced q c l children target new built s')
    (h' : s.Replaced q c l children target new' built' s₂) (node : f built.node.handle = built'.node.handle)
    (behind : f new = new') (fixed : ∀ e ∈ s.entries, f e.handle = e.handle) : s'.Renamed f s₂ := by
  have joined : built.node.renamed f = built'.node :=
    h.describes.renamed h'.describes backed (Extent.eq_of_toSpan (h.extent.trans h'.extent.symm)) node
  have twins : s'.resources.Twins s₂.resources := by
    obtain ⟨r, twins, fine, done⟩ := h.work
    obtain ⟨r', twins', fine', done'⟩ := h'.work
    exact done.symm.trans (((twins.symm.trans twins').overEach fine fine').trans done')
  refine h.kept.renamed h'.kept (h'.kind.trans h.kind.symm) (h'.root.trans h.root.symm)
    (h'.entropy.trans h.entropy.symm) ?tree twins.capacity ?image twins.mmu
  case tree =>
    rw [h.tree, h'.tree, Option.map_some, renamed_plug_row tree fixed,
      Index.map_insert Node.start_renamed, joined, renamed_minus_row tree fixed, behind]
  case image =>
    rw [h.image, h'.image, h.ready.isImage_eq h'.ready joined]
    split
    · rw [Option.map_some, node]
    · cases recorded : s.resources.image with
      | none => rfl
      | some x =>
          obtain ⟨m, hm, rfl, _⟩ := kept.sound.recorded x recorded
          exact congrArg some (fixed _ hm).symm

/-- Where a node has taken the place of a range, there is room for it once the range is taken out. -/
theorem Replaced.room (kept : s.Kept []) (tree : s.tree = some (Context.plug c (.region l children)))
    (h : s.Replaced q c l children target new built s')
    (recent : s.resources.nextGeneration ≤ built.node.handle.generation)
    (later : built.node.handle.generation < new.generation)
    (cleared : s.Cleared [] c l children target new' s₁) :
    s₁.resources.inUse < s₁.resources.capacity := by
  obtain ⟨f, _, behind, fixed⟩ := kept.exists_renaming recent later built.node.handle new'
  have count : s₁.entries.length =
      (Context.plug c (.region l (children.flatMap (Node.minus target new)))).entries.length := by
    rw [entries, cleared.filled, Option.elim_some, ← behind, ← renamed_minus_row tree fixed,
      ← renamed_plug_row tree fixed, Node.length_renamed]
  have capacity : s₁.resources.capacity = s'.resources.capacity := by
    obtain ⟨r, twins, fine, done⟩ := h.work
    have same := twins.symm.overEach fine cleared.failure
    rw [cleared.resources, same.capacity, done.capacity]
  have more : s'.entries.length = s₁.entries.length + 1 := by
    have inserted : (Index.insert Node.start built.node (children.flatMap (Node.minus target new))).Perm _ :=
      Index.insert_perm _ _
    have same := Forest.entries_perm inserted
    rw [Forest.entries_cons, h.ready.alone] at same
    have length := same.length_eq
    simp only [List.length_append, List.length_singleton] at length
    rw [count, entries, h.tree, Option.elim_some, Context.entries_plug, Context.entries_plug]
    simp only [List.length_append, Node.entries, List.length_cons, length]
    omega
  have room := h.kept.sound.balanced.room
  rw [cleared.kept.sound.balanced.inUse_eq, capacity]
  simp only [List.nil_append] at room ⊢
  omega

theorem Kept.yields_of_addOver (kept : s.Kept []) (paged : q.Paged) (start : base % pageSize = 0)
    (alive : .region l children ∈ s.nodes) (same : target = ⟨base, base + q.size⟩)
    (done : s.addOver l.handle base q = ⟨.ok h, s'⟩) :
    Ranges l base q.size target ∧ (∀ n ∈ children, n.isRegion → ¬ n.extent.overlaps target) ∧
      (children = [] ∨ s.Yields children target) := by
  simp only [addOver, unmapRange] at done
  split at done
  · cases done
  · next built r made =>
      obtain ⟨holds, _, _, _, _, _, _, image, _⟩ := make_follows kept paged start made
      obtain ⟨_, _, _, _, _, taken, _⟩ := Resources.make_ok paged start made
      split at done
      · cases done
      · next cleared =>
          split at cleared
          · cases cleared
          · next ok =>
              obtain ⟨_, ranges, spared, regions⟩ := holds.kept.unmapTarget_found alive same ok
              have touches : ({ s with resources := r } : Space M).imageTouches target =
                  s.imageTouches target := by
                rw [imageTouches, imageTouches, image]
                rfl
              refine ⟨ranges, fun n hn isRegion overlaps => ?_, spared.imp_right fun spared => ?_⟩
              · cases (regions n ((Forest.mem_inside_iff (kept.lined alive)).mpr ⟨hn, overlaps⟩)
                  isRegion).1
              · refine (kept.yields_iff alive ranges.wide).mpr ⟨touches.symm.trans spared, ?_, ?_⟩
                · intro n hn isRegion
                  cases (regions n hn isRegion).1
                · exact fun _ _ _ => (Resources.allocate_ok taken).2.1

omit [Mmu M] in
theorem Yields.quiet {r : Resources M} (same : s.resources.Quiet r)
    (h : ({ s with resources := r } : Space M).Yields children target) : s.Yields children target where
  image m alive image := h.image m alive (same.image.trans image)
  regions := h.regions
  hole m hm low high := by
    have room : r.inUse < r.capacity := h.hole m hm low high
    rwa [same.inUse, same.capacity] at room

theorem Replaced.quiet {r : Resources M} (same : s.resources.Quiet r)
    (h : ({ s with resources := r } : Space M).Replaced q c l children target new built s') :
    s.Replaced q c l children target new built s' where
  kept := h.kept
  ready := h.ready.mono fun x recorded => same.image.trans recorded
  describes := h.describes
  extent := h.extent
  kind := h.kind
  root := h.root
  entropy := h.entropy
  tree := h.tree
  image := same.image ▸ h.image
  work := by
    obtain ⟨r', twins, done⟩ := h.work
    exact ⟨r', same.twins.trans twins, done⟩

theorem Replaced.spared (tree : s.tree = some (Context.plug c (.region l children)))
    (wide : target.start < target.stop) (apart : ∀ n ∈ children, n.isRegion → ¬ n.extent.overlaps target)
    (h : s.Replaced q c l children target new built s') {sub : Label} (member : .region sub ∈ s.entries) :
    .region sub ∈ s'.entries := by
  have known := (entries_perm [] tree).mem_iff.mp member
  refine (entries_perm [] h.tree).mem_iff.mpr ?_
  rcases List.mem_append.mp known with below | around
  · obtain ⟨n, hn, inside⟩ := Forest.mem_entries_iff.mp below
    cases n with
    | mapping m => cases List.mem_singleton.mp inside
    | region x below =>
        have free := apart _ hn rfl
        rw [Span.overlaps_iff] at free
        have outside : x.extent.stop ≤ target.start ∨ target.stop ≤ x.extent.start := by
          have : ¬ (x.extent.start < target.stop ∧ target.start < x.extent.stop) := free
          omega
        have stays : .region x below ∈ children.flatMap (Node.minus target new) := by
          refine List.mem_flatMap.mpr ⟨_, hn, ?_⟩
          rw [Node.minus_of_apart (n := .region x below) new wide outside]
          exact List.mem_singleton_self _
        refine List.mem_append_left _ (Forest.mem_entries_iff.mpr ⟨_, ?_, inside⟩)
        exact (Index.insert_perm _ _).mem_iff.mpr (List.mem_cons_of_mem _ stays)
  · exact List.mem_append_right _ around

end Space
end RegionTree
