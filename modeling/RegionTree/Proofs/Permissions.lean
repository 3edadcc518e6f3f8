import RegionTree.Proofs.Coverage
import RegionTree.Proofs.Permitting

/-! Changing permissions: where the check of a range passes, the mappings and the translations inside it get
the permissions and all others stay. What is done when the nodes run out is a change of a lower part. -/
namespace RegionTree

namespace PageTable

def repermit (t : PageTable) (span : Span) (access : PageFlags) : PageTable :=
  { t with
    translations := t.translations.map fun e =>
      if span.contains e.page then { e with flags := e.flags.withPermissions access } else e }

theorem eq_map_of_frames {old new : List Translation} {f : Translation → Translation}
    (frames : new.map (fun e => (e.page, e.frame)) = old.map fun e => (e.page, e.frame))
    (each : ∀ e ∈ old, ∀ e' ∈ new, e'.page = e.page → e'.frame = e.frame → e' = f e) :
    new = old.map f := by
  induction old generalizing new with
  | nil => exact List.map_eq_nil_iff.mp frames
  | cons e old ih =>
      obtain ⟨e', rest, rfl, frame, frames⟩ := List.map_eq_cons_iff.mp frames
      obtain ⟨page, frame⟩ := Prod.mk.inj frame
      rw [List.map_cons, each e List.mem_cons_self e' List.mem_cons_self page frame]
      refine congrArg _ (ih frames fun x hx x' hx' => ?_)
      exact each x (List.mem_cons_of_mem _ hx) x' (List.mem_cons_of_mem _ hx')

theorem eq_repermit {t t' : PageTable} {span : Span} {access : PageFlags} (guard : t'.guard = t.guard)
    (refuses : t'.refuses = t.refuses)
    (frames : t'.translations.map (fun e => (e.page, e.frame)) =
      t.translations.map fun e => (e.page, e.frame))
    (flags : ∀ e ∈ t.translations, ∀ e' ∈ t'.translations, e'.page = e.page →
      e'.flags = if span.contains e.page then e.flags.withPermissions access else e.flags) :
    t' = t.repermit span access := by
  have translations : t'.translations = (t.repermit span access).translations := by
    refine eq_map_of_frames frames fun e he e' he' page frame => ?_
    have flag := flags e he e' he' page
    cases e
    cases e'
    dsimp only at page frame flag ⊢
    subst page frame flag
    split <;> rfl
  cases t
  cases t'
  cases guard
  cases refuses
  cases translations
  rfl

end PageTable

theorem Balanced.view_unique {M : Type} {es : List Entry} {r : Resources M} (h : Balanced es r) {a : Nat}
    {v v' : View} (shows : Shows es a v) (shows' : Shows es a v') : v = v' := by
  obtain ⟨m, hm, inside, rfl⟩ := shows
  obtain ⟨m', hm', inside', rfl⟩ := shows'
  rw [h.eq_of_page hm hm' inside inside']

namespace Space
variable {s s' : Space PageTable} {span target : Span} {access : PageFlags} {l : Label}
variable {children row : Forest}

/-- The mappings and the translations inside a range have got other permissions. Nothing else is told apart
by any address of the space. -/
structure Permitted (span : Span) (access : PageFlags) (s s' : Space PageTable) : Prop where
  shows : ∀ a v, Shows s'.entries a v ↔
    ∃ old, Shows s.entries a old ∧ v = if a ∈ span then old.permitted access else old
  mmu : s'.resources.mmu = s.resources.mmu.repermit span access

theorem Kept.shows_repermitted (kept : s.Kept []) (kept' : s'.Kept []) {c : Context}
    (tree : s.tree = some (Context.plug c (.region l children)))
    (tree' : s'.tree = some (Context.plug c (.region l row)))
    (change : row = children ∧ span.stop ≤ span.start ∨
      ∃ fresh, row = children.flatMap (Node.repermit span access fresh))
    (covered : ∀ a ∈ span, ∃ m, .mapping m ∈ children ∧ a ∈ m.extent.toSpan) (a : Nat) (v : View) :
    Shows s'.entries a v ↔
      ∃ old, Shows s.entries a old ∧ v = if a ∈ span then old.permitted access else old := by
  have entries : ∀ v, Shows s.entries a v ↔
      Shows (Forest.entries children) a v ∨ Shows (.region l :: ([] ++ Context.around c)) a v := fun v =>
    (Shows.perm (entries_perm [] tree)).trans shows_append
  have entries' : ∀ v, Shows s'.entries a v ↔
      Shows (Forest.entries row) a v ∨ Shows (.region l :: ([] ++ Context.around c)) a v := fun v =>
    (Shows.perm (entries_perm [] tree')).trans shows_append
  by_cases inside : a ∈ span
  · obtain ⟨m, hm, here⟩ := covered a inside
    have old : Shows s.entries a (m.view a) := (entries _).mpr (.inl ⟨m, Forest.mem_entries_iff.mpr
      ⟨_, hm, List.mem_singleton_self _⟩, here, rfl⟩)
    have new : Shows s'.entries a ((m.view a).permitted access) := by
      rcases change with ⟨_, empty⟩ | ⟨fresh, rfl⟩
      · exact absurd (Nat.lt_of_le_of_lt inside.1 inside.2) (Nat.not_lt_of_le empty)
      · exact (entries' _).mpr (.inl (Forest.shows_repermit_of_inside hm here inside))
    simp only [if_pos inside]
    constructor
    · intro shown
      exact ⟨_, old, kept'.sound.balanced.view_unique shown new⟩
    · rintro ⟨w, shown, rfl⟩
      rwa [kept.sound.balanced.view_unique shown old]
  · have same : Shows (Forest.entries row) a v ↔ Shows (Forest.entries children) a v := by
      rcases change with ⟨rfl, _⟩ | ⟨fresh, rfl⟩
      · exact .rfl
      · exact Forest.shows_repermit_of_outside inside
    simp only [if_neg inside, exists_eq_right']
    rw [entries, entries', same]

theorem Permitted.of_shows (kept : s.Kept []) (coherent : Coherent s.entries s.resources)
    (coherent' : Coherent s'.entries s'.resources) (reflags : s.resources.Reflags s'.resources)
    (shows : ∀ a v, Shows s'.entries a v ↔
      ∃ old, Shows s.entries a old ∧ v = if a ∈ span then old.permitted access else old) :
    s.Permitted span access s' := by
  refine ⟨shows, PageTable.eq_repermit reflags.guard reflags.refuses reflags.frames ?_⟩
  intro t ht t' ht' page
  obtain ⟨m, hm, own⟩ := coherent t ht
  obtain ⟨m', hm', own'⟩ := coherent' t' ht'
  obtain ⟨old, shown, view⟩ := (shows t.page (m'.view t.page)).mp ⟨m', hm', page ▸ own'.inside, rfl⟩
  have same : old = m.view t.page := kept.sound.balanced.view_unique shown ⟨m, hm, own.inside, rfl⟩
  have access' := congrArg View.access view
  rw [same] at access'
  rw [own'.flags, own.flags, show m'.access = _ from access']
  simp only [Span.contains_iff]
  split <;> rfl

/-- The conditions under which a range of a region may get other permissions. -/
structure Permissible {M : Type} (s : Space M) (l : Label) (children : Forest) (base size : Nat)
    (access : PageFlags) : Prop where
  aligned : base % pageSize = 0
  nonempty : Address.inPages size ≠ 0
  representable : Address.inPages size < Address.limit
  fits : base + Address.inPages size < Address.limit
  inside : l.extent.covers (.inPages base size)
  /-- Each page lies in a mapping that may have the permissions and is not the recorded system image. -/
  mapped : ∀ page ∈ Span.inPages base size, page % pageSize = 0 → ∃ m, .mapping m ∈ children ∧
    page ∈ m.extent.toSpan ∧ access.fits m.flags ∧ s.resources.image ≠ some m.handle

/-- What a change of permissions does that has begun. -/
structure Begun (s : Space PageTable) (l : Label) (children : Forest) (target : Span) (access : PageFlags)
    (o : Outcome (Space PageTable) Unit) : Prop where
  progress : ∃ p : Progress PageTable, ∃ c, o.answer = p.failure.elim (.ok ()) .error ∧
    s.tree = some (Context.plug c (.region l children)) ∧ o.state.tree = some (Context.plug c (.region l
      ((Forest.slice target children).before ++ p.children ++ (Forest.slice target children).behind))) ∧
    o.state.resources = p.resources ∧
    p.Permits target access (Forest.slice target children).inside s.resources
  rest : o.state.kind = s.kind ∧ o.state.root = s.root ∧ o.state.entropy = s.entropy
  reflags : s.resources.Reflags o.state.resources

theorem Kept.protect_begun (kept : s.Kept []) (alive : .region l children ∈ s.nodes)
    (clipped : ∀ n ∈ children, n.entry.Clipped) {base size : UInt64}
    (some : Address.wholePages size.toNat ≠ 0) (aligned : base.toNat % pageSize = 0)
    (same : target = ⟨base.toNat, base.toNat + Address.wholePages size.toNat⟩)
    (ok : s.protectTarget l.handle base.toNat (Address.wholePages size.toNat) access =
      .ok (target, Forest.slice target children)) :
    s.Begun l children target access (s.protect l.handle base size access) := by
  obtain ⟨c, tree⟩ := exists_plug alive
  have lined := kept.lined alive
  obtain ⟨wide, inside, _⟩ := (kept.protectTarget_iff alive same aligned).mp ok
  have start : target.start % pageSize = 0 := same ▸ aligned
  have permits : (Progress.overEach (Resources.permit target access) s.resources
      (Forest.slice target children).inside).Permits target access (Forest.slice target children).inside
        s.resources :=
    Resources.overEach_permit_of_reaches wide start (lined.inside target)
      (fun n hn => kept.tidy (child_mem_nodes alive (Forest.mem_of_mem_inside hn)))
      (fun n hn => clipped n (Forest.mem_of_mem_inside hn))
      (fun n hn => (Forest.overlaps_of_mem_inside lined hn).1)
      (fun n hn => (Forest.overlaps_of_mem_inside lined hn).2) s.resources
  have reflags : s.resources.Reflags (Progress.overEach (Resources.permit target access) s.resources
      (Forest.slice target children).inside).resources :=
    Progress.overEach_induction (P := s.resources.Reflags)
      (fun n _ r before => before.trans (.permit target access r n)) (.refl _)
  simp only [protect]
  rw [if_neg (by simp [some, Address.isAligned, aligned]), ok]
  dsimp only
  split
  · next fine =>
      refine ⟨⟨_, c, ?_, tree, kept.tree_withChildren tree _, rfl, permits⟩, ⟨rfl, rfl, rfl⟩, reflags⟩
      rw [fine]
      rfl
  · next f stuck =>
      refine ⟨⟨_, c, ?_, tree, kept.tree_withChildren tree _, rfl, permits⟩, ⟨rfl, rfl, rfl⟩, reflags⟩
      rw [stuck]
      rfl

theorem checkMapped_error {image : Option Handle} {ns : Forest} {last : Nat} {f : Failure}
    (failed : checkMapped image access last ns = .error f) : f ≠ Error.noMemory := by
  induction ns generalizing last with
  | nil => cases failed
  | cons n ns ih =>
      cases n with
      | region l children =>
          cases failed
          rintro ⟨⟩
      | mapping m =>
          rw [checkMapped] at failed
          split at failed
          · cases failed
            rintro ⟨⟩
          · split at failed
            · cases failed
              rintro ⟨⟩
            · exact ih failed

theorem protectTarget_error {region : Handle} {base size : Nat} {f : Failure}
    (live : s.liveRegion region = .ok (l, children))
    (failed : s.protectTarget region base size access = .error f) : f ≠ Error.noMemory := by
  rcases check_eq_error.mp failed with failed | ⟨⟨l', children'⟩, live', failed⟩
  · cases live.symm.trans failed
  · rcases check_eq_error.mp failed with failed | ⟨target, _, failed⟩
    · rw [targetIn] at failed
      split at failed
      · cases failed
        rintro ⟨⟩
      · split at failed
        · cases failed
          rintro ⟨⟩
        · cases failed
    · dsimp only at failed
      split at failed
      · cases failed
        rintro ⟨⟩
      · rcases check_eq_error.mp failed with failed | ⟨last, _, failed⟩
        · exact checkMapped_error failed
        · rcases check_eq_error.mp failed with failed | ⟨_, _, failed⟩
          · rw [(ensure_eq_error.mp failed).2]
            rintro ⟨⟩
          · cases failed

theorem protect_of_invalid {region : Handle} {base size : UInt64}
    (invalid : ¬ (Address.wholePages size.toNat ≠ 0 ∧ base.toNat % pageSize = 0)) :
    s.protect region base size access = .fail Error.invalidArgument s := by
  simp only [protect]
  rw [if_pos]
  rcases not_and_or.mp invalid with none | unaligned
  · exact .inl (not_not.mp none)
  · exact .inr (by simp [Address.isAligned, unaligned])

theorem Kept.permissible_iff (kept : s.Kept []) (alive : .region l children ∈ s.nodes) {base size : Nat}
    (same : target = .inPages base size) :
    s.Permissible l children base size access ↔
      (Address.wholePages size ≠ 0 ∧ base % pageSize = 0) ∧
        s.protectTarget l.handle base (Address.wholePages size) access =
          .ok (target, Forest.slice target children) := by
  constructor
  · intro able
    have pages : Address.wholePages size = Address.inPages size := by
      rw [Address.wholePages_eq, if_pos able.representable]
    rw [pages, kept.protectTarget_iff alive same able.aligned, same]
    refine ⟨⟨able.nonempty, able.aligned⟩, ?_, able.inside, able.mapped⟩
    exact Nat.lt_add_of_pos_right (Nat.pos_of_ne_zero able.nonempty)
  · rintro ⟨⟨some, aligned⟩, ok⟩
    obtain ⟨representable, pages⟩ := Address.wholePages_ne_zero some
    rw [pages, kept.protectTarget_iff alive same aligned, same] at ok
    obtain ⟨_, inside, mapped⟩ := ok
    have fits : base + Address.inPages size < Address.limit :=
      Nat.lt_of_le_of_lt (Span.covers_iff.mp inside).2 l.extent.stop_lt_limit
    exact ⟨aligned, pages ▸ some, representable, fits, inside, mapped⟩

theorem Kept.protect_of_not_permissible (kept : s.Kept []) (alive : .region l children ∈ s.nodes)
    {base size : UInt64} (refused : ¬ s.Permissible l children base.toNat size.toNat access) :
    ∃ f, f ≠ Failure.error Error.noMemory ∧ s.protect l.handle base size access = .fail f s := by
  by_cases valid : Address.wholePages size.toNat ≠ 0 ∧ base.toNat % pageSize = 0
  · cases answer : s.protectTarget l.handle base.toNat (Address.wholePages size.toNat) access with
    | error f =>
        refine ⟨f, protectTarget_error (kept.liveRegion_eq alive) answer, ?_⟩
        simp only [protect]
        rw [if_neg (by simp [Address.isAligned, valid.1, valid.2]), answer]
    | ok found =>
        obtain ⟨target, slice⟩ := found
        obtain ⟨l', children', live, ranges, rfl, _⟩ := protectTarget_ok answer
        cases (kept.liveRegion_eq alive).symm.trans live
        have pages := (Address.wholePages_ne_zero valid.1).2
        have same : target = .inPages base.toNat size.toNat :=
          congrArg₂ Span.mk ranges.start (pages ▸ ranges.stop)
        exact absurd ((kept.permissible_iff alive same).mpr ⟨valid, answer⟩) refused
  · exact ⟨Error.invalidArgument, by rintro ⟨⟩, protect_of_invalid valid⟩

theorem Kept.begun_of_permissible (kept : s.Kept []) (alive : .region l children ∈ s.nodes)
    (clipped : ∀ n ∈ children, n.entry.Clipped) {base size : UInt64}
    (able : s.Permissible l children base.toNat size.toNat access) :
    s.Begun l children (.inPages base.toNat size.toNat) access (s.protect l.handle base size access) := by
  obtain ⟨⟨some, aligned⟩, ok⟩ := (kept.permissible_iff alive rfl).mp able
  have pages := (Address.wholePages_ne_zero some).2
  exact kept.protect_begun alive clipped some aligned (by rw [pages, Span.inPages]) ok

theorem Kept.permitted_of_row {purpose : Purpose} (kept : s.Kept [])
    (coherent : Coherent s.entries s.resources) (follows : s.Follows purpose [] [] s')
    (reflags : s.resources.Reflags s'.resources) {c : Context}
    (tree : s.tree = some (Context.plug c (.region l children)))
    (tree' : s'.tree = some (Context.plug c (.region l row)))
    (change : row = children ∧ span.stop ≤ span.start ∨
      Forest.Repermits span access s.resources.nextGeneration children row)
    (covered : ∀ a ∈ span, ∃ m, .mapping m ∈ children ∧ a ∈ m.extent.toSpan) :
    s.Permitted span access s' := by
  refine .of_shows kept coherent (follows.coherent kept coherent) reflags ?_
  refine kept.shows_repermitted follows.kept tree tree' (change.imp_right ?_) covered
  rintro ⟨fresh, _, same⟩
  exact ⟨fresh, same⟩

/-- Not only the pages of the range lie in mappings, but all addresses. -/
theorem Kept.covered_of_permissible (kept : s.Kept []) (alive : .region l children ∈ s.nodes)
    {base size : Nat} (able : s.Permissible l children base size access) :
    ∀ a ∈ Span.inPages base size, ∃ m, .mapping m ∈ children ∧ a ∈ m.extent.toSpan := by
  rintro a ⟨low, high⟩
  have start := able.aligned
  have page : Address.page a ∈ Span.inPages base size := by
    rw [Span.mem_iff]
    simp only [Span.inPages, Address.page, Address.floorTo, pageSize] at *
    omega
  obtain ⟨m, hm, ⟨above, under⟩, _⟩ := able.mapped _ page (Address.page_mod a)
  obtain ⟨bottom, top⟩ : m.extent.Paged := (kept.tidy (child_mem_nodes alive hm)).1
  refine ⟨m, hm, ?_⟩
  rw [Span.mem_iff]
  simp only [Address.page, Address.floorTo, pageSize] at *
  omega

/-- What changing the permissions of a range of a region does to its children and to the translations. -/
structure Protects (s : Space PageTable) (l : Label) (children : Forest) (base size : UInt64)
    (access : PageFlags) (o : Outcome (Space PageTable) Unit) : Prop where
  /-- The check passes, after which the call can only run out of nodes. -/
  begins : (o.answer = .ok () ∨ o.answer = .error Error.noMemory) ↔
    s.Permissible l children base.toNat size.toNat access
  refused : ¬ s.Permissible l children base.toNat size.toNat access → o.state = s
  row : o.answer = .ok () → ∃ c row, s.tree = some (Context.plug c (.region l children)) ∧
    o.state.tree = some (Context.plug c (.region l row)) ∧
      Forest.Repermits (.inPages base.toNat size.toNat) access s.resources.nextGeneration children row
  permitted : o.answer = .ok () → s.Permitted (.inPages base.toNat size.toNat) access o.state
  /-- Each translation has the flags of its mapping. -/
  carried : ∀ t ∈ o.state.resources.mmu.translations, ∃ m, .mapping m ∈ o.state.nodes ∧ t.Of m
  rest : o.state.kind = s.kind ∧ o.state.root = s.root ∧ o.state.entropy = s.entropy ∧
    o.state.resources.image = s.resources.image ∧ o.state.resources.capacity = s.resources.capacity

theorem Settled.protect_protects (settled : s.Settled) (alive : .region l children ∈ s.nodes)
    (base size : UInt64) (access : PageFlags) :
    s.Protects l children base size access (s.protect l.handle base size access) := by
  obtain ⟨kept, coherent, clipped⟩ := settled
  have clipped := clipped l children alive
  have follows := (protect_reworked kept l.handle base size access).follows
  have coherent' := follows.coherent kept coherent
  have carried : ∀ t ∈ (s.protect l.handle base size access).state.resources.mmu.translations,
      ∃ m, .mapping m ∈ (s.protect l.handle base size access).state.nodes ∧ t.Of m := by
    intro t ht
    obtain ⟨m, hm, own⟩ := coherent' t ht
    exact ⟨m, mapping_mem_nodes_iff.mpr hm, own⟩
  have image := protect_image s l.handle base size access
  by_cases able : s.Permissible l children base.toNat size.toNat access
  · obtain ⟨⟨p, c, answer, tree, tree', resources, permits⟩, ⟨kind, root, entropy⟩, reflags⟩ :=
      kept.begun_of_permissible alive clipped able
    have lined := kept.lined alive
    have wide : base.toNat ≤ base.toNat + Address.inPages size.toNat := Nat.le_add_right _ _
    have row : (s.protect l.handle base size access).answer = .ok () →
        Forest.Repermits (.inPages base.toNat size.toNat) access s.resources.nextGeneration children
          ((Forest.slice (.inPages base.toNat size.toNat) children).before ++ p.children ++
            (Forest.slice (.inPages base.toNat size.toNat) children).behind) := by
      intro done
      rcases permits with ⟨_, row⟩ | ⟨_, stalls, _⟩
      · exact row.around lined wide (Nat.le_refl _) (Nat.le_refl _)
      · rw [answer, stalls.failure] at done
        cases done
    refine ⟨iff_of_true ?begins able, fun refused => absurd able refused, ?row, ?permitted, carried,
      ⟨kind, root, entropy, image, reflags.capacity⟩⟩
    case begins =>
      rw [answer]
      rcases permits with ⟨fine, _⟩ | ⟨_, stalls, _⟩
      · exact .inl (by rw [fine]; rfl)
      · exact .inr (by rw [stalls.failure]; rfl)
    case row => exact fun done => ⟨c, _, tree, tree', row done⟩
    case permitted =>
      intro done
      exact kept.permitted_of_row coherent follows reflags tree tree' (.inr (row done))
        (kept.covered_of_permissible alive able)
  · obtain ⟨f, other, refused⟩ := kept.protect_of_not_permissible alive able
    have failed : (s.protect l.handle base size access).answer = .error f := congrArg Outcome.answer refused
    have same : (s.protect l.handle base size access).state = s := congrArg Outcome.state refused
    refine ⟨iff_of_false ?_ able, fun _ => same, ?_, ?_, carried, ?_⟩
    · rintro (done | full)
      · cases failed.symm.trans done
      · exact other (Except.error.inj (failed.symm.trans full))
    · intro done
      cases failed.symm.trans done
    · intro done
      cases failed.symm.trans done
    · rw [same]
      exact ⟨rfl, rfl, rfl, rfl, rfl⟩

/-- After any sequence of calls, the check of a change of permissions passes exactly where each page lies in
a mapping that may have them, and a change that gets to its end gives them to all pages of its range and to
no others. -/
theorem run_protects {guard : Nat} {refuses : Bool} {c : SpaceConfig} {entropy : Entropy}
    (new : Space.new (⟨guard, refuses, []⟩ : PageTable) c entropy = .ok s) (commitments : Commitments)
    (ops : List Operation) (alive : .region l children ∈ (run (s, commitments) ops).1.nodes)
    (base size : UInt64) (access : PageFlags) :
    (run (s, commitments) ops).1.Protects l children base size access
      ((run (s, commitments) ops).1.protect l.handle base size access) :=
  (run_settled new commitments ops).protect_protects alive base size access

/-- The middle of three pages of a mapping is made writable. -/
theorem run_protects_middle :
    ∃ s t l children, Space.new (⟨0, false, []⟩ : PageTable) ⟨.user, 0, 0x8000, .empty, 4⟩ ⟨none⟩ = .ok s ∧
      (run (s, []) [.addMapping ⟨0, 0⟩ { size := 0x3000, flags := RegionFlags.mapAll }
        ⟨0, 0x3000, none, none, false⟩ 0 PageFlags.read]).1 = t ∧ .region l children ∈ t.nodes ∧
      (t.protect l.handle 0x1000 0x1000 (PageFlags.read ∪ PageFlags.write)).answer = .ok () ∧
      t.Protects l children 0x1000 0x1000 (PageFlags.read ∪ PageFlags.write)
        (t.protect l.handle 0x1000 0x1000 (PageFlags.read ∪ PageFlags.write)) := by
  obtain ⟨s, new⟩ : ∃ s, Space.new (⟨0, false, []⟩ : PageTable)
      ⟨.user, 0, 0x8000, .empty, 4⟩ ⟨none⟩ = .ok s := ⟨_, rfl⟩
  obtain ⟨t, made⟩ : ∃ t, (run (s, []) [.addMapping ⟨0, 0⟩ { size := 0x3000, flags := RegionFlags.mapAll }
      ⟨0, 0x3000, none, none, false⟩ 0 PageFlags.read]).1 = t := ⟨_, rfl⟩
  have facts : ((t.liveRegion ⟨0, 0⟩).toOption.any fun _ => true) ∧
      (t.protect ⟨0, 0⟩ 0x1000 0x1000 (PageFlags.read ∪ PageFlags.write)).answer = .ok () := by
    subst made
    cases new
    decide +kernel
  obtain ⟨live, done⟩ := facts
  obtain ⟨l, children, handle, alive, _⟩ := exists_alive_of_any live
  refine ⟨s, t, l, children, new, made, alive, handle ▸ done, ?_⟩
  subst made
  exact run_protects new [] _ alive 0x1000 0x1000 _

end Space
end RegionTree
