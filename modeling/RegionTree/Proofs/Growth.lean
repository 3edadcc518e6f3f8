import RegionTree.Proofs.Breaches
import RegionTree.Proofs.Displacement
import RegionTree.Proofs.Guard

/-! Growth: a region or a mapping that is made where room is free is all that a space gains, and it is
what was asked for, in a place that was asked for. Requests beyond what the parent allows are refused. -/
namespace RegionTree

theorem Address.inPages_of_paged {size : Nat} (whole : size % pageSize = 0) : inPages size = size := by
  simp only [inPages, pageSize] at *
  omega

/-- What a region asks of a request, whatever its children are. -/
structure NodeRequest.Admitted (q : NodeRequest) (l : Label) : Prop extends q.Suited l, q.Granted l.flags

/-- The node is what the request asks for, from the given address on. -/
structure NodeRequest.Made (q : NodeRequest) (base : Nat) (n : Node) : Prop where
  describes : q.Describes n.entry
  alone : n.entries = [n.entry]
  childless : n.links = []
  start : n.start = base
  stop : n.stop = base + q.size

theorem NodeRequest.Suited.admitted {q : NodeRequest} {l : Label} (h : q.settled.Suited l)
    (granted : q.Granted l.flags) : q.Admitted l where
  sized := h.sized
  specific := h.specific
  inside := h.inside
  alignment := h.alignment
  aligned := h.aligned
  granted := granted.granted
  backed := granted.backed
  offset := granted.offset

/-- An address from which a region has room for what is requested. -/
structure NodeRequest.Fits (q : NodeRequest) (l : Label) (base : Nat) : Prop where
  paged : base % pageSize = 0
  aligned : base % 2 ^ q.alignPow2 = 0
  inside : l.extent.start ≤ base ∧ base + q.size ≤ l.extent.stop
  chosen : q.flags.choosesPlace → base = l.extent.start + q.offset

theorem NodeRequest.Admitted.fits {q : NodeRequest} {l : Label} (h : q.Admitted l)
    (chooses : q.flags.choosesPlace) : q.Fits l (l.extent.start + q.offset) := by
  have aligned := (h.aligned chooses).2
  rw [Nat.one_shiftLeft] at aligned
  exact ⟨(h.aligned chooses).1, aligned, ⟨Nat.le_add_right _ _, h.inside⟩, fun _ => rfl⟩

theorem NodeRequest.Made.region {q : NodeRequest} {base : Nat} {n : Node} (h : q.Made base n)
    (plain : q.backing = none) :
    ∃ l, n = .region l [] ∧ l.flags = q.flags ∧ l.name = Name.clip q.name := by
  have describes := h.describes
  cases n with
  | region l children =>
      cases describes with | region _ flags name =>
      have childless := h.childless
      cases children with
      | nil => exact ⟨l, rfl, flags, name⟩
      | cons c rest => cases childless
  | mapping m => cases describes with | mapping backing => cases plain.symm.trans backing

theorem NodeRequest.Made.mapping {q : NodeRequest} {b : Backing} {base : Nat} {n : Node}
    (h : q.settled.Made base n) (backing : q.backing = some b) :
    ∃ m, n = .mapping m ∧ m.flags = q.flags ∧ m.name = Name.clip q.name ∧
      (m.object = b.object ∧ m.offset = b.offset) ∧
      m.access = b.object.policy.elim b.access b.access.withCaching := by
  have settled : q.settled.backing =
      some { b with access := b.object.policy.elim b.access b.access.withCaching } := by
    rw [settled, backing]
    cases policy : b.object.policy <;> simp [policy]
  have describes := h.describes
  cases n with
  | region l children => cases describes with | region plain => cases plain.symm.trans settled
  | mapping m =>
      cases describes with | mapping backed flags name =>
      obtain ⟨object, offset, access⟩ := Backing.mk.inj (Option.some.inj (backed.symm.trans settled))
      exact ⟨m, rfl, flags, name, ⟨object, offset⟩, access⟩

/-- What a region asks of a sketch, for a node that is to have these flags. -/
structure Sketch.Admitted (sketch : Sketch) (allowed flags : RegionFlags) (l : Label) : Prop where
  known : allowed.contains sketch.flags
  granted : l.flags.contains (flags ∩ RegionFlags.mapAll)
  sized : 0 < sketch.size.toNat
  offset : sketch.offset = 0 ∨ sketch.flags.choosesPlace
  specific : sketch.flags.choosesPlace → l.flags.contains RegionFlags.mapSpecific
  inside : l.extent.start + sketch.offset.toNat + Address.inPages sketch.size.toNat ≤ l.extent.stop
  alignment : sketch.alignPow2.toNat < 64
  aligned : sketch.flags.choosesPlace → (l.extent.start + sketch.offset.toNat) % pageSize = 0 ∧
    (l.extent.start + sketch.offset.toNat) % 2 ^ sketch.alignPow2.toNat = 0

/-- The node is where the sketch wants it in a region. -/
structure Sketch.Placed (sketch : Sketch) (l : Label) (n : Node) : Prop where
  stop : n.stop = n.start + Address.inPages sketch.size.toNat
  inside : l.extent.start ≤ n.start ∧ n.stop ≤ l.extent.stop
  paged : n.start % pageSize = 0
  aligned : n.start % 2 ^ sketch.alignPow2.toNat = 0
  chosen : sketch.flags.choosesPlace → n.start = l.extent.start + sketch.offset.toNat

def Sketch.AdmittedRegion (sketch : Sketch) (l : Label) : Prop :=
  sketch.Admitted RegionFlags.forRegions sketch.flags l ∧ sketch.size.toNat % pageSize = 0

def Sketch.AdmittedMapping (sketch : Sketch) (offset : UInt64) (access : PageFlags) (l : Label) : Prop :=
  sketch.Admitted RegionFlags.forMappings (sketch.flags ∪ access.grantsNeeded) l ∧
    offset.toNat % pageSize = 0 ∧ offset.toNat + Address.inPages sketch.size.toNat < Address.limit

def Sketch.IsRegion (sketch : Sketch) (n : Node) : Prop :=
  ∃ l, n = .region l [] ∧ l.flags = sketch.flags ∧ l.name = Name.clip sketch.name

/-- The mapping shows what was asked for. Its flags let it keep its permissions. -/
structure Sketch.Shown (sketch : Sketch) (object : MemoryObject) (offset : UInt64) (access : PageFlags)
    (m : Mapping) : Prop where
  flags : m.flags = sketch.flags ∪ access.grantsNeeded
  name : m.name = Name.clip sketch.name
  shows : m.object = object ∧ m.offset = offset.toNat
  unforced : object.policy = none → m.access = access
  forced : ∀ policy, object.policy = some policy → m.access.caching = policy ∧
    m.access \ PageFlags.cacheMask = access \ PageFlags.cacheMask

def Sketch.IsMapping (sketch : Sketch) (object : MemoryObject) (offset : UInt64) (access : PageFlags)
    (n : Node) : Prop :=
  ∃ m, n = .mapping m ∧ sketch.Shown object offset access m

structure Sketch.Requests (sketch : Sketch) (q : NodeRequest) : Prop where
  size : q.size = Address.inPages sketch.size.toNat
  offset : q.offset = sketch.offset.toNat
  alignPow2 : q.alignPow2 = sketch.alignPow2.toNat
  chooses : q.flags.choosesPlace = sketch.flags.choosesPlace

namespace Sketch
variable {sketch : Sketch} {q : NodeRequest} {l : Label} {n : Node} {base : Nat}

theorem requests_region (whole : sketch.size.toNat % pageSize = 0) : sketch.Requests sketch.region where
  size := (Address.inPages_of_paged whole).symm
  offset := rfl
  alignPow2 := rfl
  chooses := rfl

theorem requests_mapping {object : MemoryObject} {offset : UInt64} {access : PageFlags}
    (sized : 0 < (sketch.mapping object offset access).size) :
    sketch.Requests (sketch.mapping object offset access) := by
  constructor
  case size =>
    simp only [mapping] at sized ⊢
    exact (Address.wholePages_ne_zero (Nat.pos_iff_ne_zero.mp sized)).2
  case offset => rfl
  case alignPow2 => rfl
  case chooses => exact Flags.choosesPlace_union_grantsNeeded _ _

theorem Requests.admitted (h : sketch.Requests q) (admitted : q.Admitted l) {allowed : RegionFlags}
    (known : allowed.contains sketch.flags) : sketch.Admitted allowed q.flags l := by
  obtain ⟨⟨sized, specific, inside, alignment, aligned⟩, granted, _, offset⟩ := admitted
  rw [h.chooses] at offset specific aligned
  rw [h.offset] at offset inside aligned
  rw [h.alignPow2, Nat.one_shiftLeft] at aligned
  rw [h.alignPow2] at alignment
  rw [h.size] at inside sized
  refine ⟨known, granted, ?_, offset.imp_left UInt64.toNat_inj.mp, specific, inside, alignment, aligned⟩
  apply Nat.pos_of_ne_zero
  intro none
  rw [none] at sized
  exact absurd sized (by decide)

theorem Requests.placed (h : sketch.Requests q) (fits : q.Fits l base) (made : q.settled.Made base n) :
    sketch.Placed l n := by
  obtain ⟨paged, aligned, inside, chosen⟩ := fits
  have stop : n.stop = base + q.size := made.stop
  rw [← made.start] at paged aligned inside chosen stop
  rw [← stop] at inside
  rw [h.size] at stop
  rw [h.alignPow2] at aligned
  rw [h.chooses, h.offset] at chosen
  exact ⟨stop, inside, paged, aligned, chosen⟩

end Sketch

namespace Space

section
variable {M : Type} {s s₁ s' : Space M} {l : Label} {children : Forest} {n : Node} {q : NodeRequest}
variable {base : Nat} {h : Handle}

/-- A space has gained a node, a child of the region with this label, and is as it was otherwise. -/
structure Gains (s : Space M) (l : Label) (children : Forest) (n : Node) (s' : Space M) : Prop where
  entries : s'.entries.Perm (n.entry :: s.entries)
  links : s'.links.Perm ((l, n.entry) :: s.links)
  row : .region l (Index.insert Node.start n children) ∈ s'.nodes
  count : s'.resources.inUse = s.resources.inUse + 1
  mmu : s'.resources.mmu = s.resources.mmu

/-- A node that is made of a sketch becomes a child of a region alive. -/
structure Grows (s : Space M) (sketch : Sketch) (l : Label) (children : Forest) (n : Node)
    (s' : Space M) : Prop where
  alive : .region l children ∈ s.nodes
  placed : sketch.Placed l n
  child : s'.ChildOf n l
  /-- Nothing else happens if its place was free. -/
  alone : (∀ x ∈ children, x.stop ≤ n.start ∨ n.stop ≤ x.start) → s.Gains l children n s'

/-- What asking for a new node comes to. -/
structure Adds (s : Space M) (parent : Handle) (sketch : Sketch) (admitted : Label → Prop)
    (asked : Node → Prop) (o : Outcome (Space M) Handle) : Prop where
  /-- If it succeeds, there is a new child, which is what was asked for. -/
  made : ∀ h s', o = ⟨.ok h, s'⟩ → ∃ l children n, l.handle = parent ∧ n.handle = h ∧ admitted l ∧
    asked n ∧ s.Grows sketch l children n s'
  /-- A sketch that the parent does not admit is refused. -/
  refused : ∀ l children, l.handle = parent → .region l children ∈ s.nodes → ¬ admitted l →
    ∃ f, o.answer = .error f ∧ f.isDeclared ∧ s.Alike o.state

theorem Gains.of_alike (alike : s.Alike s₁) (h : s₁.Gains l children n s') : s.Gains l children n s' where
  entries := by
    have same : s₁.entries = s.entries := by rw [Space.entries, alike.tree, Space.entries]
    exact same ▸ h.entries
  links := by
    have same : s₁.links = s.links := by rw [Space.links, alike.tree, Space.links]
    exact same ▸ h.links
  row := h.row
  count := alike.inUse ▸ h.count
  mmu := h.mmu.trans alike.mmu

theorem Gains.child (h : s.Gains l children n s') : s'.ChildOf n l :=
  ⟨_, h.row, (Index.insert_perm n children).mem_iff.mpr List.mem_cons_self⟩

variable [Mmu M]

theorem Kept.addAt_made (kept : s.Kept []) (paged : q.Paged) (start : base % pageSize = 0)
    (alive : .region l children ∈ s.nodes) (done : s.addAt l.handle base q = ⟨.ok h, s'⟩) :
    ∃ n, n.handle = h ∧ q.Made base n ∧ s.Gains l children n s' := by
  obtain ⟨c, tree⟩ := exists_plug alive
  simp only [addAt] at done
  split at done
  · cases done
  · next built r made =>
      obtain ⟨holds, ready, describes, _, low, high, _, _, mmu⟩ := make_follows kept paged start made
      obtain ⟨rfl, left⟩ := holds.kept.adopt_eq tree done
      have tree' : s'.tree =
          some (Context.plug c (.region l (Index.insert Node.start built.node children))) := by rw [left]
      have inserted : (Index.insert Node.start built.node children).Perm (built.node :: children) :=
        Index.insert_perm _ _
      refine ⟨built.node, rfl, ⟨describes, ready.alone, ready.childless, low, high⟩, ?_⟩
      constructor
      case entries =>
        have row := Forest.entries_perm inserted
        rw [Forest.entries_cons, ready.alone] at row
        have after := (entries_perm [] tree').trans (row.append_right _)
        exact after.trans ((entries_perm [] tree).symm.cons _)
      case links =>
        have row := Forest.links_perm l inserted
        rw [Forest.links, ready.childless, List.nil_append] at row
        rw [links_eq tree', links_eq tree]
        apply (Context.links_plug_perm c _).trans
        apply (row.append_right _).trans
        exact (Context.links_plug_perm c (.region l children)).symm.cons _
      case row => exact mem_nodes_of_plug tree'
      case count =>
        have holding := holds.kept.sound.balanced.inUse_eq
        rw [kept.sound.balanced.inUse_eq, left]
        exact holding
      case mmu =>
        rw [left]
        exact mmu

theorem Kept.addOver_made (kept : s.Kept []) (paged : q.Paged) (start : base % pageSize = 0)
    (alive : .region l children ∈ s.nodes) (done : s.addOver l.handle base q = ⟨.ok h, s'⟩) :
    ∃ n, n.handle = h ∧ q.Made base n ∧ s'.ChildOf n l := by
  simp only [addOver] at done
  split at done
  · cases done
  · next built r made =>
      obtain ⟨holds, ready, describes, _, rfl, high, _⟩ := make_follows kept paged start made
      split at done
      · cases done
      · next unmapped =>
          obtain ⟨s'', same, _, joined⟩ := adopt_over holds.kept ready alive start paged.size high unmapped
            (.overwritten built.node.extent.toSpan l.handle)
          cases same.symm.trans done
          exact ⟨built.node, rfl, ⟨describes, ready.alone, ready.childless, rfl, high⟩, joined.child⟩

end

variable {s s' : Space PageTable} {l : Label} {children : Forest} {q : NodeRequest} {h : Handle}

theorem Kept.addAnywhere_made (kept : s.Kept []) (paged : q.Paged) (alive : .region l children ∈ s.nodes)
    (idle : ¬ q.flags.choosesPlace) {access : Option PageFlags} {r : Demand}
    (demand : Demand.of? q.size q.alignPow2 access = some r)
    (done : s.addAnywhere l.handle l children r q = ⟨.ok h, s'⟩) :
    ∃ base n, ((l.site s.resources.mmu children).choose r (l.flags.contains RegionFlags.compact)
        s.entropy).1.answer = .ok base ∧
      q.Fits l base ∧ n.handle = h ∧ q.Made base n ∧ s.Gains l children n s' := by
  simp only [addAnywhere] at done
  generalize chosen : Site.choose (M := PageTable) _ _ _ _ = choice at done
  have quiet := s.resources.quiet_reportAll choice.1.events
  have searched : s.Follows .shape [] []
      { s with entropy := choice.2, resources := s.resources.reportAll choice.1.events } :=
    .of_tree kept rfl rfl (.quiet _ quiet)
  split at done
  · cases done
  · next base found =>
      rw [← chosen] at found
      have places := Label.places_of_choose (kept.lined alive) demand found
      have aligned : 2 ^ max q.alignPow2 pageShift ∣ base := by
        have whole := places.aligned
        rw [Nat.one_shiftLeft] at whole
        exact Nat.dvd_of_mod_eq_zero whole
      have paged' : base % pageSize = 0 :=
        Nat.mod_eq_zero_of_dvd (Nat.dvd_trans (Nat.pow_dvd_pow 2 (Nat.le_max_right ..)) aligned)
      have aligned' : base % 2 ^ q.alignPow2 = 0 :=
        Nat.mod_eq_zero_of_dvd (Nat.dvd_trans (Nat.pow_dvd_pow 2 (Nat.le_max_left ..)) aligned)
      obtain ⟨n, handle, made, gains⟩ := searched.kept.addAt_made paged paged' alive done
      have fits : q.Fits l base := ⟨paged', aligned', ⟨places.inside.1, places.inside.2.1⟩,
        fun chooses => absurd chooses idle⟩
      exact ⟨base, n, found, fits, handle, made, gains.of_alike (.quiet quiet)⟩

/-- A request has become a child of a region. -/
structure Fulfils (s : Space PageTable) (q : NodeRequest) (l : Label) (children : Forest) (base : Nat)
    (n : Node) (s' : Space PageTable) : Prop where
  alive : .region l children ∈ s.nodes
  admitted : q.Admitted l
  fits : q.Fits l base
  made : q.settled.Made base n
  child : s'.ChildOf n l
  gains : (∀ x ∈ children, x.stop ≤ n.start ∨ n.stop ≤ x.start) → s.Gains l children n s'
  /-- Where the request leaves the place open, a search has answered it. -/
  searched : ¬ q.flags.choosesPlace →
    ∃ r, Demand.of? q.size q.alignPow2 (q.settled.backing.map (·.access)) = some r ∧
      ((l.site s.resources.mmu children).choose r (l.flags.contains RegionFlags.compact)
        s.entropy).1.answer = .ok base

/-- A request that succeeds makes what it asks for, and nothing else happens if there was room for it. -/
theorem Kept.add_made (kept : s.Kept []) {parent : Handle} (paged : q.Paged)
    (done : s.add parent q = ⟨.ok h, s'⟩) : ∃ l children base n, l.handle = parent ∧ n.handle = h ∧
      s.Fulfils q l children base n s' := by
  simp only [add] at done
  split at done
  · cases done
  · next l children live =>
      obtain ⟨rfl, alive⟩ := liveRegion_ok live
      split at done
      · cases done
      · next grants =>
          have quiet := s.resources.quiet_conflict q
          have told : Follows .shape [] s [] _ := .quiet kept quiet
          have alike : s.Alike { s with resources := q.conflict.elim s.resources s.resources.note } :=
            .quiet quiet
          cases found : q.settled.destination l children with
          | error f =>
              rw [found] at done
              cases done
          | ok d =>
              rw [found] at done
              obtain ⟨suited, destination⟩ := NodeRequest.destination_cases found
              have admitted := suited.admitted (NodeRequest.granted_of_checkGrants grants)
              obtain free | occupied | anywhere := destination
              · obtain ⟨chooses, rfl, _⟩ := free
                have fits := admitted.fits chooses
                obtain ⟨n, handle, made, gains⟩ := told.kept.addAt_made paged.settled fits.paged alive done
                exact ⟨l, children, _, n, rfl, handle, alive, admitted, fits, made, gains.child,
                  fun _ => gains.of_alike alike, absurd chooses⟩
              · obtain ⟨chooses, rfl, taken⟩ := occupied
                have fits := admitted.fits chooses
                obtain ⟨n, handle, made, child⟩ := told.kept.addOver_made paged.settled fits.paged alive done
                refine ⟨l, children, _, n, rfl, handle, alive, admitted, fits, made, child, ?_,
                  absurd chooses⟩
                intro free
                rw [made.start, made.stop] at free
                cases taken.symm.trans ((Forest.isFree_iff (kept.lined alive) suited.sized).mpr free)
              · obtain ⟨idle, r, rfl, demand⟩ := anywhere
                obtain ⟨base, n, answer, fits, handle, made, gains⟩ :=
                  told.kept.addAnywhere_made paged.settled alive idle demand done
                have fits : q.Fits l base := ⟨fits.paged, fits.aligned, fits.inside, fits.chosen⟩
                refine ⟨l, children, base, n, rfl, handle, alive, admitted, fits, made, gains.child,
                  fun _ => gains.of_alike alike, fun _ => ⟨r, demand, ?_⟩⟩
                rw [← alike.mmu]
                exact answer

variable {parent : Handle} {sketch : Sketch}

theorem Kept.adds (kept : s.Kept []) {admitted : Label → Prop} {asked : Node → Prop}
    {o : Outcome (Space PageTable) Handle}
    (made : ∀ h s', o = ⟨.ok h, s'⟩ → ∃ l children n, l.handle = parent ∧ n.handle = h ∧ admitted l ∧
      asked n ∧ s.Grows sketch l children n s')
    (unbroken : parent.slot < s.resources.fresh → Unbroken o.answer)
    (alike : ∀ f, o.answer = .error f → s.Alike o.state) : s.Adds parent sketch admitted asked o where
  made := made
  refused := by
    rintro l children rfl alive unfit
    cases answer : o.answer with
    | error f => exact ⟨f, rfl, unbroken (kept.slot_lt alive) f answer, alike f answer⟩
    | ok h =>
        obtain ⟨l', children', _, handle, _, fit, _, grows⟩ := made h o.state (by rw [← answer])
        cases kept.eq_of_handle grows.alive alive handle
        exact absurd fit unfit

theorem Kept.addRegion_adds (kept : s.Kept []) (parent : Handle) (sketch : Sketch) :
    s.Adds parent sketch sketch.AdmittedRegion sketch.IsRegion (s.addRegion parent sketch) := by
  have creates := addRegion_creates .pageTable kept parent sketch
  refine kept.adds ?_ (fun known => addRegion_unbroken .pageTable kept known sketch) creates.alike
  intro h s' done
  simp only [addRegion] at done
  split at done
  · cases done
  · next fine =>
      obtain ⟨whole, known⟩ := not_or.mp fine
      have whole := not_not.mp whole
      have requests := Sketch.requests_region whole
      obtain ⟨l, children, base, n, handle, same, fulfils⟩ :=
        kept.add_made (sketch.region_paged whole) done
      have admitted := requests.admitted fulfils.admitted (by simpa using known)
      exact ⟨l, children, n, handle, same, ⟨admitted, whole⟩, fulfils.made.region rfl, fulfils.alive,
        requests.placed fulfils.fits fulfils.made, fulfils.child, fulfils.gains⟩

theorem Kept.addMapping_adds (kept : s.Kept []) (parent : Handle) (sketch : Sketch) (object : MemoryObject)
    (offset : UInt64) (access : PageFlags) :
    s.Adds parent sketch (sketch.AdmittedMapping offset access) (sketch.IsMapping object offset access)
      (s.addMapping parent sketch object offset access) := by
  have creates := addMapping_creates .pageTable kept parent sketch object offset access
  refine kept.adds ?_
    (fun known => addMapping_unbroken .pageTable kept known sketch object offset access) creates.alike
  intro h s' done
  simp only [addMapping] at done
  split at done
  · cases done
  · next fine =>
      obtain ⟨known, fine⟩ := not_or.mp fine
      obtain ⟨whole, room⟩ := not_or.mp fine
      have whole := not_not.mp whole
      have room : offset.toNat + Address.wholePages sketch.size.toNat < Address.limit := by
        simpa [Address.add?] using room
      obtain ⟨l, children, base, n, handle, same, fulfils⟩ :=
        kept.add_made (sketch.mapping_paged object access whole room) done
      have requests := Sketch.requests_mapping fulfils.admitted.sized
      have pages := requests.size
      simp only [Sketch.mapping] at pages
      rw [pages] at room
      have admitted := requests.admitted fulfils.admitted (by simpa using known)
      obtain ⟨m, mapped, flags, name, shows, accessed⟩ := fulfils.made.mapping rfl
      have shown : sketch.Shown object offset access m := by
        refine ⟨flags, name, shows, ?unforced, ?forced⟩
        case unforced =>
          intro unforced
          rw [accessed, unforced]
          rfl
        case forced =>
          intro policy forced
          rw [accessed, forced]
          exact ⟨Flags.caching_withCaching policy, Flags.sdiff_withCaching policy⟩
      exact ⟨l, children, n, handle, same, ⟨admitted, whole, room⟩, ⟨m, mapped, shown⟩, fulfils.alive,
        requests.placed fulfils.fits fulfils.made, fulfils.child, fulfils.gains⟩

/-- After any sequence of calls, asking for a region or a mapping adds what was asked for, where it was asked
for, or nothing. -/
theorem run_adds {guard : Nat} {refuses : Bool} {c : SpaceConfig} {entropy : Entropy}
    (new : Space.new (⟨guard, refuses, []⟩ : PageTable) c entropy = .ok s) (commitments : Commitments)
    (ops : List Operation) (parent : Handle) (sketch : Sketch) :
    (run (s, commitments) ops).1.Adds parent sketch sketch.AdmittedRegion sketch.IsRegion
        ((run (s, commitments) ops).1.addRegion parent sketch) ∧
      ∀ (object : MemoryObject) (offset : UInt64) (access : PageFlags),
        (run (s, commitments) ops).1.Adds parent sketch (sketch.AdmittedMapping offset access)
          (sketch.IsMapping object offset access)
          ((run (s, commitments) ops).1.addMapping parent sketch object offset access) := by
  have kept := run_kept (w := (s, commitments)) .pageTable (new_kept new) ops
  exact ⟨kept.addRegion_adds parent sketch, kept.addMapping_adds parent sketch⟩

/-- A mapping of an uncached object goes above another one. At an offset that wraps around it is refused. -/
theorem run_adds_uncached :
    ∃ s t, Space.new PageTable.empty ⟨.kernel, 0, 0x8000, .empty, 4⟩ ⟨none⟩ = .ok s ∧
      (run (s, []) [.addMapping ⟨0, 0⟩ { size := 0x1000 } ⟨0, 0x1000, none, none, false⟩ 0
        PageFlags.read]).1 = t ∧
      ∃ sketch object, object.policy = some .uncached ∧
        (t.addMapping ⟨0, 0⟩ sketch object 0x1000 PageFlags.write).answer = .ok ⟨2, 2⟩ ∧
        (t.addMapping ⟨0, 0⟩ { sketch with offset := 0xfffffffffffff000 } object 0x1000
          PageFlags.write).answer = .error Error.invalidArgument ∧
        t.Adds ⟨0, 0⟩ sketch (sketch.AdmittedMapping 0x1000 PageFlags.write)
          (sketch.IsMapping object 0x1000 PageFlags.write)
          (t.addMapping ⟨0, 0⟩ sketch object 0x1000 PageFlags.write) := by
  obtain ⟨s, new⟩ : ∃ s, Space.new PageTable.empty ⟨.kernel, 0, 0x8000, .empty, 4⟩ ⟨none⟩ = .ok s :=
    ⟨_, rfl⟩
  obtain ⟨t, made⟩ : ∃ t, (run (s, []) [.addMapping ⟨0, 0⟩ { size := 0x1000 }
      ⟨0, 0x1000, none, none, false⟩ 0 PageFlags.read]).1 = t := ⟨_, rfl⟩
  have answers :
      (t.addMapping ⟨0, 0⟩ { offset := 0x2000, size := 0x1234, flags := RegionFlags.specific }
        ⟨1, 0x3000, some .uncached, none, false⟩ 0x1000 PageFlags.write).answer = .ok ⟨2, 2⟩ ∧
      (t.addMapping ⟨0, 0⟩ { offset := 0xfffffffffffff000, size := 0x1234, flags := RegionFlags.specific }
        ⟨1, 0x3000, some .uncached, none, false⟩ 0x1000 PageFlags.write).answer
          = .error Error.invalidArgument := by
    subst made
    cases new
    decide +kernel
  refine ⟨s, t, new, made, _, ⟨1, 0x3000, some .uncached, none, false⟩, rfl, answers.1, answers.2, ?_⟩
  subst made
  exact (run_adds new [] _ ⟨0, 0⟩ _).2 _ 0x1000 PageFlags.write

end Space
end RegionTree
