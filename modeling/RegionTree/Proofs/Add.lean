import RegionTree.Proofs.Placement
import RegionTree.Proofs.Unmap
import RegionTree.Space.Add

/-! Creating nodes: a node that was built joins the tree at a place that is free, and a creation that
fails has changed nothing. -/
namespace RegionTree
variable {M : Type}

/-- The request is for whole pages, of the object too. -/
structure NodeRequest.Paged (q : NodeRequest) : Prop where
  size : q.size % pageSize = 0
  offset : ∀ b, q.backing = some b → b.offset % pageSize = 0 ∧ b.offset + q.size < Address.limit

/-- A node that has no children and is recorded as the system image exactly if it is an executable
mapping of it. -/
structure Built.Ready (built : Built) (image : Option Handle) : Prop where
  alone : built.node.entries = [built.node.entry]
  childless : built.node.links = []
  nested : built.node.Nested
  tidy : built.node.entry.Tidy
  plain : built.isImage = false → ∀ m, built.node = .mapping m → ¬ m.Armed
  image : built.isImage = true → image = none ∧ ∃ m, built.node = .mapping m ∧ m.Armed ∧ m.ShowsCode

theorem Built.Ready.mono {built : Built} {image image' : Option Handle} (h : built.Ready image)
    (kept : ∀ h, image' = some h → image = some h) : built.Ready image' where
  alone := h.alone
  childless := h.childless
  nested := h.nested
  tidy := h.tidy
  plain := h.plain
  image isImage := by
    obtain ⟨none, mapping⟩ := h.image isImage
    refine ⟨Option.eq_none_iff_forall_ne_some.mpr fun x same => ?_, mapping⟩
    exact nomatch none.symm.trans (kept x same)

theorem Built.Ready.enters [Mmu M] {built : Built} {r : Resources M} {es : List Entry}
    (h : built.Ready r.image)
    (apart : ∀ m, built.node = .mapping m → ∀ e ∈ es, (Entry.mapping m).Apart e) :
    Evolves .shape (.held built.node.handle :: es) r (built.node.entry :: es)
      (if built.isImage then { r with image := some built.node.handle } else r) := by
  obtain ⟨node, isImage⟩ := built
  have tidy := h.tidy
  cases isImage with
  | true =>
      obtain ⟨none, m, rfl, armed, code⟩ := h.image rfl
      exact .enterImage rfl tidy (apart m rfl) armed code none
  | false =>
      cases node with
      | region l children => exact .enterRegion es r tidy
      | mapping m => exact .enterMapping r rfl tidy (apart m rfl) (h.plain rfl m rfl)

/-- The node is what a request asks for, wherever it is. -/
inductive NodeRequest.Describes (q : NodeRequest) : Entry → Prop where
  | region {l : Label} : q.backing = none → l.flags = q.flags → l.name = Name.clip q.name →
      Describes q (.region l)
  | mapping {m : Mapping} : q.backing = some ⟨m.object, m.offset, m.access⟩ → m.flags = q.flags →
      m.name = Name.clip q.name → Describes q (.mapping m)

theorem Extent.ofLength?_eq_some {base size : Nat} {e : Extent} (h : ofLength? base size = some e) :
    e.start = base ∧ e.stop = base + size := by
  simp only [ofLength?, ofSpan?] at h
  split at h
  · cases h; exact ⟨rfl, rfl⟩
  · cases h

theorem Backing.imageUse_ok {b : Backing} {size : Nat} {image : Option Handle} {isImage : Bool}
    (ok : b.imageUse size image = .ok isImage) :
    (isImage = false → ¬ (b.object.code.isSome ∧ b.access.contains PageFlags.execute)) ∧
      (isImage = true → image = none ∧ b.object.code = some ⟨b.offset, b.offset + size⟩ ∧
        b.access.contains PageFlags.execute) := by
  simp only [imageUse] at ok
  split at ok
  · next none => cases ok; simp [none]
  · next code same =>
      split at ok
      · next executable =>
          split at ok
          · cases ok
          · next part sum =>
              split at ok
              · cases ok
              · next fits =>
                  cases ok
                  obtain ⟨noImage, whole⟩ := not_or.mp fits
                  refine ⟨nofun, fun _ => ⟨by simpa using noImage, ?_, executable⟩⟩
                  have : part = ⟨b.offset, b.offset + size⟩ := by
                    simp only [Span.ofLength, Address.add] at sum
                    split at sum <;> cases sum
                    rfl
                  rw [same, ← this, not_not.mp whole]
      · next idle => cases ok; simp [idle]

namespace Resources

theorem make_ok {r r' : Resources M} {base : Nat} {q : NodeRequest} {built : Built}
    (paged : q.Paged) (start : base % pageSize = 0) (done : r.make base q = ⟨.ok built, r'⟩) :
    built.Ready r.image ∧ q.Describes built.node.entry ∧ built.node.start = base ∧
      built.node.stop = base + q.size ∧
      ∃ held, r.countGeneration.2.allocate r.countGeneration.1 = ⟨.ok built.node.handle, held⟩ ∧
        held.Quiet r' := by
  simp only [make] at done
  split at done
  · cases done
  · next extent range =>
      obtain ⟨low, high⟩ := Extent.ofLength?_eq_some range
      have ends : extent.Paged := by
        have size := paged.size
        rw [Extent.Paged, low, high]
        simp only [pageSize] at *
        omega
      split at done
      · next none =>
          simp only [makeRegion] at done
          split at done
          · cases done
          · next handle held taken =>
              cases done
              refine ⟨⟨rfl, rfl, ?_, ends, ?_, ?_⟩, .region none rfl rfl, low, high, held, taken,
                held.quiet_note _⟩
              · exact .region (Forest.lined_nil _) (by simp)
              · intro _ m isMapping
                cases isMapping
              · intro isImage
                cases isImage
      · next b backing =>
          simp only [makeMapping] at done
          split at done
          · cases done
          · next isImage use =>
              obtain ⟨plain, image⟩ := Backing.imageUse_ok use
              obtain ⟨whole, fits⟩ := paged.offset b backing
              have length : extent.length = q.size := by
                rw [Extent.length, low, high]
                omega
              split at done
              · cases done
              · next handle held taken =>
                  cases done
                  refine ⟨⟨rfl, rfl, .mapping _, ⟨ends, whole, length ▸ fits⟩, ?_, ?_⟩,
                    .mapping backing rfl rfl, low, high, held, taken, held.quiet_note _⟩
                  · rintro isPlain m ⟨⟩
                    exact plain isPlain
                  · intro isImage
                    obtain ⟨none, code, executable⟩ := image isImage
                    refine ⟨none, _, rfl, ⟨Option.isSome_iff_exists.mpr ⟨_, code⟩, executable⟩, ?_⟩
                    rw [Mapping.ShowsCode, length]
                    exact code

theorem make_image {r r' : Resources M} {base : Nat} {q : NodeRequest} {built : Built} {h : Handle}
    (image : r.image = some h) (done : r.make base q = ⟨.ok built, r'⟩) :
    built.isImage = false ∧ r'.image = some h := by
  simp only [make] at done
  split at done
  · cases done
  · split at done
    · simp only [makeRegion] at done
      split at done
      · cases done
      · next taken =>
          cases done
          exact ⟨rfl, (allocate_image (r := r.countGeneration.2) taken).trans image⟩
    · simp only [makeMapping] at done
      split at done
      · cases done
      · next isImage use =>
          split at done
          · cases done
          · next taken =>
              cases done
              refine ⟨?_, (allocate_image (r := r.countGeneration.2) taken).trans image⟩
              by_contra second
              have none := ((Backing.imageUse_ok use).2 (Bool.not_eq_false _ ▸ second)).1
              exact nomatch none.symm.trans image

theorem quiet_conflict (r : Resources M) (q : NodeRequest) : r.Quiet (q.conflict.elim r r.note) := by
  cases q.conflict with
  | none => exact .refl _
  | some n => exact r.quiet_note n

theorem make_error {r r' : Resources M} {base : Nat} {q : NodeRequest} {f : Failure}
    (failed : r.make base q = ⟨.error f, r'⟩) : r.Quiet r' := by
  simp only [make] at failed
  split at failed
  · cases failed
    exact .refl r
  · split at failed
    · simp only [makeRegion] at failed
      split at failed
      · next full =>
          cases failed
          exact r.quiet_countGeneration.trans (allocate_error full).2.1
      · cases failed
    · simp only [makeMapping] at failed
      split at failed
      · cases failed
        exact r.quiet_countGeneration
      · split at failed
        · next full =>
            cases failed
            exact r.quiet_countGeneration.trans (allocate_error full).2.1
        · cases failed

end Resources

theorem Forest.entries_perm {ns ns' : Forest} (same : ns.Perm ns') :
    (Forest.entries ns).Perm (Forest.entries ns') := by
  induction same with
  | nil => exact .refl _
  | cons n _ ih => exact ih.append_left _
  | swap a b ns => exact List.perm_append_comm_assoc _ _ _
  | trans _ _ ih ih' => exact ih.trans ih'

namespace Space

variable [Mmu M]

/-- A node has joined the children of a region at a place where no mapping was, and the mmu had no part
in it. -/
structure Joins (s : Space M) (l : Label) (n : Node) (s' : Space M) : Prop where
  follows : s.Follows .shape [.held n.handle] [] s'
  mmu : s'.resources.mmu = s.resources.mmu
  row : ∃ c children, s.tree = some (Context.plug c (.region l children)) ∧
    s'.tree = some (Context.plug c (.region l (Index.insert Node.start n children)))
  free : ∀ m, .mapping m ∈ s.nodes → m.extent.stop ≤ n.start ∨ n.stop ≤ m.extent.start

theorem Joins.child {s s' : Space M} {l : Label} {n : Node} (h : s.Joins l n s') :
    ∃ children, .region l children ∈ s'.nodes ∧ n ∈ children := by
  obtain ⟨c, children, _, tree'⟩ := h.row
  exact ⟨_, mem_nodes_of_plug tree', (Index.insert_perm n children).mem_iff.mpr List.mem_cons_self⟩

theorem Joins.member {s s' : Space M} {l : Label} {n : Node} (h : s.Joins l n s') : n ∈ s'.nodes :=
  have ⟨_, alive, child⟩ := h.child
  child_mem_nodes alive child

theorem Joins.passes {s s' : Space M} {l : Label} {n : Node} {g : Nat} {joins : Label → Entry → Prop}
    (h : s.Joins l n s') (recent : g ≤ n.handle.generation) (childless : n.links = [])
    (joined : joins l n.entry) : s.Passes g joins s' := by
  obtain ⟨c, children, tree, tree'⟩ := h.row
  refine .of_children tree tree' fun part hpart => ?_
  rcases List.mem_cons.mp ((Index.insert_perm n children).mem_iff.mp hpart) with rfl | old
  · exact .inr ⟨recent, childless, joined⟩
  · exact .inl ⟨part, old, .same _, rfl⟩

theorem adopt_ok {s : Space M} {built : Built} (kept : s.Kept [.held built.node.handle])
    (ready : built.Ready s.resources.image) {l : Label} {children : Forest}
    (alive : .region l children ∈ s.nodes) (low : l.extent.start ≤ built.node.start)
    (high : built.node.stop ≤ l.extent.stop)
    (free : ∀ n ∈ children, n.stop ≤ built.node.start ∨ built.node.stop ≤ n.start) :
    ∃ s', s.adopt l.handle built = .ok built.node.handle s' ∧ s.Joins l built.node s' := by
  obtain ⟨c, tree⟩ := exists_plug alive
  have lined := kept.lined alive
  have vacant : children.any (·.start == built.node.start) = false := by
    refine List.any_eq_false.mpr fun n hn same => ?_
    have := free n hn
    have := n.start_lt_stop
    have := built.node.start_lt_stop
    have := beq_iff_eq.mp same
    omega
  have inserted : (Index.insert Node.start built.node children).Perm (built.node :: children) :=
    Index.insert_perm _ _
  have joined : (Node.region l (Index.insert Node.start built.node children)).Nested := by
    cases kept.nested_of_mem alive with
    | region _ inner =>
        refine .region (lined.insert low high free) fun n hn => ?_
        rcases List.mem_cons.mp (inserted.mem_iff.mp hn) with rfl | old
        · exact ready.nested
        · exact inner n old
  have row : (Forest.entries (Index.insert Node.start built.node children)).Perm
      (built.node.entry :: Forest.entries children) := by
    have same := Forest.entries_perm inserted
    rwa [Forest.entries_cons, ready.alone] at same
  have vacated : ∀ m, .mapping m ∈ s.entries →
      m.extent.stop ≤ built.node.start ∨ built.node.stop ≤ m.extent.start :=
    fun m hm => kept.free_of_mappings alive low high free hm
  have apart : ∀ m, built.node = .mapping m →
      ∀ e ∈ Forest.entries children ++ .region l :: Context.around c, (Entry.mapping m).Apart e := by
    intro m same e he
    have known := (entries_perm [] tree).mem_iff.mpr he
    cases e with
    | region _ => trivial
    | held _ => trivial
    | mapping b => exact (same ▸ vacated b known).symm
  have out : (Forest.entries children ++ .region l :: .held built.node.handle :: Context.around c).Perm
      (.held built.node.handle :: (Forest.entries children ++ .region l :: Context.around c)) :=
    (List.Perm.append_left _ (.swap _ _ _)).trans List.perm_middle
  have evolves := ((Evolves.reorder s.resources out).trans (ready.enters apart)).trans
    (.reorder _ (row.append_right _).symm)
  have tree' := kept.tree_withChildren tree (Index.insert Node.start built.node children)
  have joins : ∀ s' : Space M, s'.tree = s.tree.map (Node.withChildren l.handle
      (Index.insert Node.start built.node children)) → s'.root = s.root →
      s'.resources = (if built.isImage then { s.resources with image := some built.node.handle }
        else s.resources) → s.Joins l built.node s' := by
    intro s' same root resources
    refine ⟨.of_children kept tree (same.trans tree') root joined (resources ▸ evolves), ?_,
      ⟨c, children, tree, same.trans tree'⟩, fun m hm => vacated m (mapping_mem_nodes_iff.mp hm)⟩
    rw [resources]
    split <;> rfl
  rw [adopt, kept.liveRegion_eq alive]
  simp only [vacant, Bool.false_eq_true, if_false]
  split
  · next isImage => exact ⟨_, rfl, joins _ rfl rfl (if_pos isImage).symm⟩
  · next plain => exact ⟨_, rfl, joins _ rfl rfl (if_neg plain).symm⟩

omit [Mmu M] in
theorem adopt_image {s : Space M} {built : Built} (plain : built.isImage = false) (parent : Handle) :
    (s.adopt parent built).state.resources = s.resources := by
  simp only [adopt, plain]
  split
  · rfl
  · split <;> rfl

theorem adopt_over {s s' : Space M} {built : Built} (kept : s.Kept [.held built.node.handle])
    (ready : built.Ready s.resources.image) {l : Label} {children : Forest}
    (alive : .region l children ∈ s.nodes) {size : Nat} (start : built.node.start % pageSize = 0)
    (whole : size % pageSize = 0) (stop : built.node.stop = built.node.start + size)
    (done : s.unmapRange l.handle built.node.start size true = ⟨.ok (), s'⟩) (notice : Notice) :
    ∃ s'', ({ s' with resources := s'.resources.note notice } : Space M).adopt l.handle built =
        .ok built.node.handle s'' ∧
      s.Follows .shape [.held built.node.handle] [.held built.node.handle]
        { s' with resources := s'.resources.note notice } ∧
      ({ s' with resources := s'.resources.note notice } : Space M).Joins l built.node s'' := by
  obtain ⟨clears, image, _⟩ := unmapRange_reworked .shape kept l.handle true start whole
  rw [done] at clears image
  obtain ⟨c, l', old, new, handle, tree, tree', lower, upper, free⟩ := unmapRange_ok kept done
  cases kept.eq_of_handle (mem_nodes_of_plug tree) alive handle
  have noted : Follows .shape _ s' _ _ := .quiet clears.kept (s'.resources.quiet_note notice)
  rw [← stop] at upper free
  obtain ⟨s'', same, joined⟩ := adopt_ok noted.kept (ready.mono image) (mem_nodes_of_plug tree') lower
    upper free
  exact ⟨s'', same, clears.trans noted, joined⟩

theorem make_follows {s : Space M} {r : Resources M} {base : Nat} {q : NodeRequest} {built : Built}
    (kept : s.Kept []) (paged : q.Paged) (start : base % pageSize = 0)
    (done : s.resources.make base q = ⟨.ok built, r⟩) :
    s.Follows .shape [] [.held built.node.handle] { s with resources := r } ∧
      built.Ready r.image ∧ q.Describes built.node.entry ∧
      built.node.handle.generation = s.resources.nextGeneration ∧ built.node.start = base ∧
      built.node.stop = base + q.size ∧ r.capacity = s.resources.capacity ∧
      r.image = s.resources.image ∧ r.mmu = s.resources.mmu := by
  obtain ⟨ready, describes, low, high, held, taken, quiet⟩ := Resources.make_ok paged start done
  have capacity := quiet.capacity.trans
    (Resources.allocate_capacity (r := s.resources.countGeneration.2) taken)
  have image := quiet.image.trans (Resources.allocate_image (r := s.resources.countGeneration.2) taken)
  have mmu := quiet.mmu.trans (Resources.allocate_mmu (r := s.resources.countGeneration.2) taken)
  refine ⟨.of_tree kept rfl rfl ((Evolves.hold _ taken).trans (.quiet _ quiet)), ?_, describes,
    (Resources.allocate_ok taken).1, low, high, capacity, image, mmu⟩
  exact ready.mono fun h same => image.symm.trans same

theorem release_follows {s : Space M} {h : Handle} (kept : s.Kept [.held h]) :
    s.Follows .shape [.held h] [] { s with resources := s.resources.release h } :=
  .of_tree kept rfl rfl (.drop h _ _)

/-- What a creation leaves is sound, as before if it fails, and with a node more if it succeeds, which is
one that was let in. -/
structure Creates (joins : Label → Entry → Prop) (s : Space M) (o : Outcome (Space M) Handle) : Prop
    extends Clean .shape s o where
  /-- No node has joined but the one that is answered. -/
  passes : s.Passes s.resources.nextGeneration (fun l e => joins l e ∧ o.answer = .ok e.handle) o.state
  made : ∀ h, o.answer = .ok h → ∃ before l n, n.handle = h ∧ s.Follows .shape [] [.held h] before ∧
    before.Joins l n o.state ∧ s.resources.nextGeneration ≤ h.generation ∧ joins l n.entry

namespace Creates
variable {joins : Label → Entry → Prop} {s s' : Space M} {o : Outcome (Space M) Handle}

theorem fail {f : Failure} (clean : s.Clean .shape (.fail f s' : Outcome (Space M) Handle)) :
    s.Creates joins (.fail f s') :=
  ⟨clean, .of_tree (clean.alike f rfl).tree, fun _ made => nomatch made⟩

theorem join {l : Label} {n : Node} {s'' : Space M} (follows : s.Follows .shape [] [.held n.handle] s')
    (joined : s'.Joins l n s'')
    (passes : s.Passes s.resources.nextGeneration (fun l e => joins l e ∧ e.handle = n.handle) s'')
    (recent : s.resources.nextGeneration ≤ n.handle.generation) (lets : joins l n.entry) :
    s.Creates joins (.ok n.handle s'') := by
  refine ⟨.ok (follows.trans joined.follows) _, ?_, ?_⟩
  · exact passes.mono fun _ _ made => ⟨made.1, congrArg Except.ok made.2.symm⟩
  rintro _ ⟨⟩
  exact ⟨s', l, n, rfl, follows, joined, recent, lets⟩

theorem after (follows : s.Follows .shape [] [] s') (alike : s.Alike s') (h : s'.Creates joins o) :
    s.Creates joins o := by
  refine ⟨.after follows alike h.toClean,
    h.passes.before alike.tree alike.generation, fun handle made => ?_⟩
  obtain ⟨before, l, n, same, holds, joined, recent, lets⟩ := h.made handle made
  exact ⟨before, l, n, same, follows.trans holds, joined, Nat.le_trans alike.generation recent, lets⟩

end Creates

section
variable {joins : Label → Entry → Prop}

theorem addAt_creates {s : Space M} {base : Nat} {q : NodeRequest} (kept : s.Kept []) (paged : q.Paged)
    (start : base % pageSize = 0) {l : Label} {children : Forest}
    (alive : .region l children ∈ s.nodes) (low : l.extent.start ≤ base)
    (high : base + q.size ≤ l.extent.stop)
    (free : ∀ n ∈ children, n.stop ≤ base ∨ base + q.size ≤ n.start)
    (lets : ∀ e, q.Describes e → joins l e) : s.Creates joins (s.addAt l.handle base q) := by
  simp only [addAt]
  split
  · next f r failed =>
      have quiet := Resources.make_error failed
      exact .fail ⟨.quiet kept quiet, fun _ _ => .quiet quiet⟩
  · next built r done =>
      obtain ⟨holds, ready, describes, recent, rfl, stop, _⟩ := make_follows kept paged start done
      rw [← stop] at high free
      obtain ⟨s', same, joined⟩ := adopt_ok holds.kept ready alive low high free
      have recent := Nat.le_of_eq recent.symm
      have last : Passes _ (fun l e => joins l e ∧ e.handle = built.node.handle) _ _ :=
        joined.passes recent ready.childless ⟨lets _ describes, built.node.handle_entry⟩
      rw [same]
      exact .join holds joined (last.before rfl (Nat.le_refl _)) recent (lets _ describes)

theorem addOver_creates {s : Space M} {base : Nat} {q : NodeRequest} (kept : s.Kept [])
    (paged : q.Paged) (start : base % pageSize = 0) {l : Label} {children : Forest}
    (alive : .region l children ∈ s.nodes) (lets : ∀ e, q.Describes e → joins l e) :
    s.Creates joins (s.addOver l.handle base q) := by
  simp only [addOver]
  split
  · next f r failed =>
      have quiet := Resources.make_error failed
      exact .fail ⟨.quiet kept quiet, fun _ _ => .quiet quiet⟩
  · next built r done =>
      obtain ⟨holds, ready, describes, recent, low, high, capacity, image, mmu⟩ :=
        make_follows kept paged start done
      split
      · next f s' failed =>
          obtain ⟨r', quiet, rfl, _⟩ := unmapRange_error holds.kept failed
          have stays : Follows .shape _ { s with resources := r } _ _ := .quiet holds.kept quiet
          have follows := (holds.trans stays).trans (release_follows stays.kept)
          refine .fail ⟨follows, fun _ _ => ⟨rfl, rfl, rfl, ?_, ?_, ?_, ?_, ?_⟩⟩
          · exact quiet.capacity.trans capacity
          · exact follows.kept.sound.balanced.inUse_eq.trans kept.sound.balanced.inUse_eq.symm
          · exact quiet.image.trans image
          · exact quiet.mmu.trans mmu
          · exact follows.evolves.generation
      · next s' done =>
          have passes := (unmapRange_reworked .shape holds.kept l.handle true start paged.size).passes
          rw [done] at passes
          subst low
          obtain ⟨s'', same, clears, joined⟩ := adopt_over holds.kept ready alive start paged.size high done
            (.overwritten built.node.extent.toSpan l.handle)
          have recent := Nat.le_of_eq recent.symm
          have last : Passes _ (fun l e => joins l e ∧ e.handle = built.node.handle) _ _ :=
            joined.passes recent ready.childless ⟨lets _ describes, built.node.handle_entry⟩
          have first : s.Passes s.resources.nextGeneration _ s' :=
            passes.before rfl holds.evolves.generation
          rw [same]
          exact .join (holds.trans clears) joined
            (first.trans (last.before rfl (Nat.le_refl _)) (Nat.le_refl _)) recent (lets _ describes)

omit [Mmu M] in
theorem addAt_image {s : Space M} {parent : Handle} {base : Nat} {q : NodeRequest} {h : Handle}
    (image : s.resources.image = some h) : (s.addAt parent base q).state.resources.image = some h := by
  simp only [addAt]
  split
  · next failed => exact (Resources.make_error failed).image.trans image
  · next done =>
      obtain ⟨plain, image⟩ := Resources.make_image image done
      rw [adopt_image plain]
      exact image

theorem addOver_image {s : Space M} {parent : Handle} {base : Nat} {q : NodeRequest} {h : Handle}
    (kept : s.Kept []) (paged : q.Paged) (start : base % pageSize = 0)
    (image : s.resources.image = some h) : (s.addOver parent base q).state.resources.image = some h := by
  simp only [addOver]
  split
  · next failed => exact (Resources.make_error failed).image.trans image
  · next built r done =>
      obtain ⟨holds, _⟩ := make_follows kept paged start done
      obtain ⟨plain, image⟩ := Resources.make_image image done
      have cleared := (unmapRange_image holds.kept parent base q.size true).trans image
      split
      · next failed =>
          rw [failed] at cleared
          exact cleared
      · next done =>
          rw [done] at cleared
          rw [adopt_image plain]
          exact cleared

theorem addAnywhere_creates {s : Space M} {l : Label} {children : Forest} {d : Demand} {q : NodeRequest}
    (picks : Mmu.PicksPages M) (kept : s.Kept []) (paged : q.Paged)
    (alive : .region l children ∈ s.nodes) (size : d.size = q.size)
    (lets : ∀ e, q.Describes e → joins l e) :
    s.Creates joins (s.addAnywhere l.handle l children d q) := by
  have ordered := Site.ordered_of_lined (kept.lined alive) s.resources.mmu
  simp only [addAnywhere]
  generalize chosen : Site.choose (M := M) _ _ _ _ = choice
  have quiet := s.resources.quiet_reportAll choice.1.events
  have searched : s.Follows .shape [] []
      { s with entropy := choice.2, resources := s.resources.reportAll choice.1.events } :=
    .of_tree kept rfl rfl (.quiet _ quiet)
  split
  · exact .fail ⟨searched, fun _ _ => .quiet quiet⟩
  · next base found =>
      rw [← chosen] at found
      have suits := Site.choose_suits ordered found
      refine .after searched (.quiet quiet) ?_
      refine addAt_creates searched.kept paged (suits.paged picks) alive suits.low ?_ ?_ lets
      · exact size ▸ suits.high
      · exact fun n hn => size ▸ suits.free _ (List.mem_map_of_mem hn)

end

end Space

/-- What holds of the place that a request names or leaves open. -/
def Destination.Valid (l : Label) (children : Forest) (q : NodeRequest) : Destination → Prop
  | .free base => base % pageSize = 0 ∧ l.extent.start ≤ base ∧ base + q.size ≤ l.extent.stop ∧
      ∀ n ∈ children, n.stop ≤ base ∨ base + q.size ≤ n.start
  | .occupied base =>
      base % pageSize = 0 ∧ l.extent.start ≤ base ∧ base + q.size ≤ l.extent.stop
  | .anywhere d => d.size = q.size

/-- What a region checks of a request for a place, whatever its children are. -/
structure NodeRequest.Suited (q : NodeRequest) (l : Label) : Prop where
  sized : 0 < q.size
  specific : q.flags.choosesPlace → l.flags.contains RegionFlags.mapSpecific
  inside : l.extent.start + q.offset + q.size ≤ l.extent.stop
  alignment : q.alignPow2 < 64
  aligned : q.flags.choosesPlace → (l.extent.start + q.offset) % pageSize = 0 ∧
    (l.extent.start + q.offset) % (1 <<< q.alignPow2) = 0

/-- A destination is given after all checks, and is the place at the offset if the request is for it. -/
theorem NodeRequest.destination_cases {l : Label} {children : Forest} {q : NodeRequest} {d : Destination}
    (ok : q.destination l children = .ok d) :
    q.Suited l ∧ ((q.flags.choosesPlace ∧ d = .free (l.extent.start + q.offset) ∧
        Forest.isFree (l.extent.start + q.offset) q.size children = true) ∨
      (q.flags.choosesPlace ∧ d = .occupied (l.extent.start + q.offset) ∧
        Forest.isFree (l.extent.start + q.offset) q.size children = false) ∨
      (¬ q.flags.choosesPlace ∧ ∃ r, d = .anywhere r ∧
        Demand.of? q.size q.alignPow2 (q.backing.map (·.access)) = some r)) := by
  obtain ⟨_, specific, ok⟩ := check_eq_ok.mp ok
  obtain ⟨_, inside, ok⟩ := check_eq_ok.mp ok
  have specific : q.flags.choosesPlace → l.flags.contains RegionFlags.mapSpecific := by
    intro chooses
    simpa [chooses] using ensure_eq_ok.mp specific
  have inside : l.extent.start + q.offset + q.size ≤ l.extent.stop := by
    have wide := l.extent.start_lt_stop
    have room := ensure_eq_ok.mp inside
    simp only [Extent.length] at room
    omega
  split at ok
  · cases ok
  · next r demand =>
      obtain ⟨size, _⟩ := Demand.of?_eq_some demand
      have sized : 0 < q.size := size ▸ r.size_pos
      have alignment : q.alignPow2 < 64 := by
        simp only [Demand.of?] at demand
        split at demand
        · next fine => exact fine.2
        · cases demand
      split at ok
      · next chooses =>
          obtain ⟨_, paged, ok⟩ := check_eq_ok.mp ok
          obtain ⟨_, aligned, ok⟩ := check_eq_ok.mp ok
          have paged : (l.extent.start + q.offset) % pageSize = 0 := by
            simpa [Address.isAligned] using ensure_eq_ok.mp paged
          have aligned : (l.extent.start + q.offset) % (1 <<< q.alignPow2) = 0 := by
            rcases ensure_eq_ok.mp aligned with none | aligned
            · rw [none, Nat.shiftLeft_zero, Nat.mod_one]
            · simpa [Address.isAligned] using aligned
          refine ⟨⟨sized, specific, inside, alignment, fun _ => ⟨paged, aligned⟩⟩, ?_⟩
          split at ok
          · next free =>
              cases ok
              exact .inl ⟨chooses, rfl, free⟩
          · next taken =>
              split at ok
              · cases ok
                exact .inr (.inl ⟨chooses, rfl, by simpa using taken⟩)
              · cases ok
      · next idle =>
          cases ok
          refine ⟨⟨sized, specific, inside, alignment, fun chooses => absurd chooses idle⟩, ?_⟩
          exact .inr (.inr ⟨idle, r, rfl, demand⟩)

theorem NodeRequest.destination_ok {l : Label} {children : Forest} {q : NodeRequest} {d : Destination}
    (lined : Forest.Lined l.extent children) (ok : q.destination l children = .ok d) :
    d.Valid l children q := by
  obtain ⟨suited, free | occupied | anywhere⟩ := destination_cases ok
  · obtain ⟨chooses, rfl, free⟩ := free
    exact ⟨(suited.aligned chooses).1, Nat.le_add_right _ _, suited.inside,
      (Forest.isFree_iff lined suited.sized).mp free⟩
  · obtain ⟨chooses, rfl, _⟩ := occupied
    exact ⟨(suited.aligned chooses).1, Nat.le_add_right _ _, suited.inside⟩
  · obtain ⟨_, r, rfl, demand⟩ := anywhere
    exact (Demand.of?_eq_some demand).1

/-- Only the cache policy of a backing depends on its object. -/
theorem NodeRequest.backing_of_settled {q : NodeRequest} {b : Backing}
    (settled : q.settled.backing = some b) :
    ∃ access, q.backing = some ⟨b.object, b.offset, access⟩ ∧
      b.access.grantsNeeded = access.grantsNeeded := by
  obtain ⟨⟨object, offset, access⟩, backing, rfl⟩ := Option.map_eq_some_iff.mp settled
  cases policy : object.policy with
  | none => exact ⟨access, by simpa [policy] using backing, rfl⟩
  | some policy' =>
      refine ⟨access, by simpa [policy] using backing, ?_⟩
      simpa [policy] using Flags.grantsNeeded_withCaching policy'

theorem NodeRequest.Paged.settled {q : NodeRequest} (h : q.Paged) : q.settled.Paged where
  size := h.size
  offset b settled := by
    obtain ⟨access, backing, _⟩ := NodeRequest.backing_of_settled settled
    exact h.offset ⟨b.object, b.offset, access⟩ backing

/-- A request lets a node join a region that grants all permissions asked for. -/
structure NodeRequest.LetsIn (q : NodeRequest) (parent : Handle) (l : Label) (e : Entry) : Prop where
  parent : l.handle = parent
  granted : l.flags.contains (q.flags ∩ RegionFlags.mapAll)
  describes : q.settled.Describes e

/-- What is checked of a request first, by the flags of the parent alone. -/
structure NodeRequest.Granted (q : NodeRequest) (parent : RegionFlags) : Prop where
  sized : 0 < q.size
  granted : parent.contains (q.flags ∩ RegionFlags.mapAll)
  backed : q.backing.all (·.access.fits parent)
  offset : q.offset = 0 ∨ q.flags.choosesPlace

theorem NodeRequest.granted_of_checkGrants {parent : RegionFlags} {q : NodeRequest} {u : Unit}
    (ok : q.checkGrants parent = .ok u) : q.Granted parent := by
  obtain ⟨_, some, ok⟩ := check_eq_ok.mp ok
  obtain ⟨_, granted, ok⟩ := check_eq_ok.mp ok
  obtain ⟨_, backed, offset⟩ := check_eq_ok.mp ok
  exact ⟨Nat.pos_of_ne_zero (ensure_eq_ok.mp some), ensure_eq_ok.mp granted, ensure_eq_ok.mp backed,
    (ensure_eq_ok.mp offset).symm⟩

def Sketch.region (sketch : Sketch) : NodeRequest :=
  ⟨sketch.offset.toNat, sketch.size.toNat, sketch.alignPow2.toNat, sketch.flags, sketch.name, none⟩

def Sketch.mapping (sketch : Sketch) (object : MemoryObject) (offset : UInt64) (access : PageFlags) :
    NodeRequest :=
  ⟨sketch.offset.toNat, Address.wholePages sketch.size.toNat, sketch.alignPow2.toNat,
    sketch.flags ∪ access.grantsNeeded, sketch.name, some ⟨object, offset.toNat, access⟩⟩

theorem Sketch.region_paged (sketch : Sketch) (whole : sketch.size.toNat % pageSize = 0) :
    sketch.region.Paged :=
  ⟨whole, nofun⟩

theorem Sketch.mapping_paged (sketch : Sketch) (object : MemoryObject) (access : PageFlags)
    {offset : UInt64} (aligned : offset.toNat % pageSize = 0)
    (room : offset.toNat + Address.wholePages sketch.size.toNat < Address.limit) :
    (sketch.mapping object offset access).Paged := by
  refine ⟨?_, fun b backing => ?_⟩
  · simp only [Sketch.mapping]
    exact Address.wholePages_mod _
  · simp only [Sketch.mapping, Option.some.injEq] at backing ⊢
    subst backing
    exact ⟨aligned, room⟩

namespace Space
variable [Mmu M] {s : Space M}

theorem add_creates (picks : Mmu.PicksPages M) (kept : s.Kept []) (parent : Handle) {q : NodeRequest}
    (paged : q.Paged) : s.Creates (q.LetsIn parent) (s.add parent q) := by
  simp only [add]
  split
  · exact .fail (.fail kept _)
  · next l children live =>
      obtain ⟨rfl, alive⟩ := liveRegion_ok live
      split
      · exact .fail (.fail kept _)
      · next ok =>
        have lets : ∀ e, q.settled.Describes e → q.LetsIn l.handle l e := fun e describes =>
          ⟨rfl, (NodeRequest.granted_of_checkGrants ok).granted, describes⟩
        have quiet := s.resources.quiet_conflict q
        have told : Follows .shape [] s [] _ := .quiet kept quiet
        refine .after told (.quiet quiet) ?_
        have valid : ∀ d, q.settled.destination l children = .ok d → d.Valid l children q.settled :=
          fun d same => NodeRequest.destination_ok (kept.lined alive) same
        split
        · exact .fail (.fail told.kept _)
        · next base same =>
            obtain ⟨start, low, high, free⟩ := valid _ same
            exact addAt_creates told.kept paged.settled start alive low high free lets
        · next base same => exact addOver_creates told.kept paged.settled (valid _ same).1 alive lets
        · next d same =>
            exact addAnywhere_creates picks told.kept paged.settled alive (valid _ same) lets

theorem add_image (kept : s.Kept []) (parent : Handle) {q : NodeRequest} (paged : q.Paged) {h : Handle}
    (image : s.resources.image = some h) : (s.add parent q).state.resources.image = some h := by
  simp only [add]
  split
  · exact image
  · next l children live =>
      obtain ⟨rfl, alive⟩ := liveRegion_ok live
      split
      · exact image
      · have quiet := s.resources.quiet_conflict q
        have told : Follows .shape [] s [] _ := .quiet kept quiet
        have image := quiet.image.trans image
        split
        · exact image
        · exact addAt_image image
        · next base same =>
            have valid := NodeRequest.destination_ok (kept.lined alive) same
            exact addOver_image told.kept paged.settled valid.1 image
        · simp only [addAnywhere]
          generalize Site.choose (M := M) _ _ _ _ = choice
          have searched := (Resources.quiet_reportAll _ choice.1.events).image.trans image
          split
          · exact searched
          · exact addAt_image searched

theorem addRegion_cases (s : Space M) (parent : Handle) (sketch : Sketch) :
    s.addRegion parent sketch = .fail Error.invalidArgument s ∨
      sketch.region.Paged ∧ s.addRegion parent sketch = s.add parent sketch.region := by
  simp only [addRegion]
  split
  · exact .inl rfl
  · next fine => exact .inr ⟨sketch.region_paged (not_not.mp (not_or.mp fine).1), rfl⟩

theorem addMapping_cases (s : Space M) (parent : Handle) (sketch : Sketch) (object : MemoryObject)
    (offset : UInt64) (access : PageFlags) :
    s.addMapping parent sketch object offset access = .fail Error.invalidArgument s ∨
      (sketch.mapping object offset access).Paged ∧
        s.addMapping parent sketch object offset access =
          s.add parent (sketch.mapping object offset access) := by
  simp only [addMapping]
  split
  · exact .inl rfl
  · next fine =>
      obtain ⟨aligned, fits⟩ := not_or.mp (not_or.mp fine).2
      refine .inr ⟨?_, rfl⟩
      exact sketch.mapping_paged object access (not_not.mp aligned) (by simpa [Address.add?] using fits)

theorem addRegion_creates (picks : Mmu.PicksPages M) (kept : s.Kept []) (parent : Handle)
    (sketch : Sketch) : s.Creates (sketch.region.LetsIn parent) (s.addRegion parent sketch) := by
  rcases addRegion_cases s parent sketch with same | ⟨paged, same⟩ <;> rw [same]
  · exact .fail (.fail kept _)
  · exact add_creates picks kept parent paged

theorem addMapping_creates (picks : Mmu.PicksPages M) (kept : s.Kept []) (parent : Handle)
    (sketch : Sketch) (object : MemoryObject) (offset : UInt64) (access : PageFlags) :
    s.Creates ((sketch.mapping object offset access).LetsIn parent)
      (s.addMapping parent sketch object offset access) := by
  rcases addMapping_cases s parent sketch object offset access with same | ⟨paged, same⟩ <;> rw [same]
  · exact .fail (.fail kept _)
  · exact add_creates picks kept parent paged

end Space
end RegionTree
