import RegionTree.Proofs.Atomicity
import RegionTree.Proofs.Gaps

/-! No rule is ever broken: work on a space reaches no breach and no internal error, as long as its
callers use handles of the space and objects whose pages have frames. -/
namespace RegionTree

theorem Outcome.eq_of_error {σ α : Type} {o : Outcome σ α} {f : Failure} (failed : o.answer = .error f) :
    o = ⟨.error f, o.state⟩ := by
  rw [← failed]

/-- The caller is told what is wrong. -/
def Failure.isDeclared : Failure → Bool
  | .error (.internal _) => false
  | .error _ => true
  | .breach _ => false

/-- An answer that is no breach and no internal error. -/
def Unbroken {α : Type} (answer : Except Failure α) : Prop := ∀ f, answer = .error f → f.isDeclared

namespace Unbroken
variable {α β : Type}

theorem ok (a : α) : Unbroken (.ok a : Except Failure α) := nofun

theorem fail {f : Failure} (declared : f.isDeclared) : Unbroken (.error f : Except Failure α) := by
  rintro _ ⟨⟩
  exact declared

theorem ensure {p : Prop} [Decidable p] {e : Error} (declared : (Failure.error e).isDeclared) :
    Unbroken (RegionTree.ensure p e) := by
  rw [RegionTree.ensure]
  split
  · exact ok ()
  · exact fail declared

theorem bind {x : Except Failure α} {next : α → Except Failure β} (first : Unbroken x)
    (later : ∀ a, x = .ok a → Unbroken (next a)) : Unbroken (x >>= next) := by
  cases x with
  | error f => exact fail (first f rfl)
  | ok a => exact later a rfl

theorem map {x : Except Failure α} (f : α → β) (h : Unbroken x) : Unbroken (x.map f) := by
  cases x with
  | error e => exact fail (h e rfl)
  | ok a => exact ok (f a)

theorem map_beside {σ τ : Type} {o : Outcome σ α} (h : Unbroken o.answer) (f : α → β) (t : τ) :
    Unbroken ((o.map f).beside t).answer := h.map f

theorem passOn {σ : Type} {o : Outcome σ α} {f : Failure} {s : σ} (h : Unbroken o.answer)
    (failed : o = ⟨.error f, s⟩) : Unbroken (.error f : Except Failure β) :=
  .fail (h f (congrArg Outcome.answer failed))

end Unbroken

namespace NodeRequest
variable {q : NodeRequest}

theorem checkGrants_unbroken (parent : RegionFlags) (q : NodeRequest) :
    Unbroken (q.checkGrants parent) := by
  refine .bind (.ensure rfl) fun _ _ => .bind (.ensure rfl) fun _ _ => ?_
  exact .bind (.ensure rfl) fun _ _ => .ensure rfl

theorem destination_unbroken (parent : Label) (children : Forest) (q : NodeRequest) :
    Unbroken (q.destination parent children) := by
  refine .bind (.ensure rfl) fun _ _ => .bind (.ensure rfl) fun _ _ => ?_
  split
  · exact .fail rfl
  · split
    · refine .bind (.ensure rfl) fun _ _ => .bind (.ensure rfl) fun _ _ => ?_
      split
      · exact .ok _
      · split
        · exact .ok _
        · exact .fail rfl
    · exact .ok _

end NodeRequest

theorem Backing.imageUse_unbroken {b : Backing} {size : Nat} (fits : b.offset + size < Address.limit)
    (image : Option Handle) : Unbroken (b.imageUse size image) := by
  simp only [imageUse, Span.ofLength, Address.add, if_pos fits, Except.map]
  split
  · exact .ok _
  · split
    · split
      · exact .fail rfl
      · exact .ok _
    · exact .ok _

namespace Resources
variable {M : Type}

theorem allocate_unbroken (r : Resources M) (generation : Nat) :
    Unbroken (r.allocate generation).answer := by
  intro f failed
  rw [(allocate_error (Outcome.eq_of_error failed)).1]
  rfl

theorem make_unbroken {base : Nat} {q : NodeRequest} (r : Resources M) (paged : q.Paged)
    (pos : 0 < q.size) (fits : base + q.size < Address.limit) : Unbroken (r.make base q).answer := by
  have range : ∃ extent, Extent.ofLength? base q.size = some extent := by
    rw [Extent.ofLength?, Extent.ofSpan?, dif_pos ⟨by simp only; omega, fits⟩]
    exact ⟨_, rfl⟩
  obtain ⟨extent, range⟩ := range
  simp only [make, range]
  split
  · have taken := r.countGeneration.2.allocate_unbroken r.countGeneration.1
    simp only [makeRegion]
    split
    · next full => exact taken.passOn full
    · exact .ok _
  · next b backing =>
      have use := Backing.imageUse_unbroken (paged.offset b backing).2 r.image
      have taken := r.countGeneration.2.allocate_unbroken r.countGeneration.1
      simp only [makeMapping]
      split
      · next failed => exact .fail (use _ failed)
      · split
        · next full => exact taken.passOn full
        · exact .ok _

end Resources

namespace Space
variable {M : Type} {s : Space M} {h : Handle}

theorem liveNode_unbroken (known : h.slot < s.resources.fresh) : Unbroken (s.liveNode h) := by
  rw [liveNode, if_neg (Nat.not_le.mpr known)]
  split
  · exact .ok _
  · exact .fail rfl

theorem liveRegion_unbroken (known : h.slot < s.resources.fresh) : Unbroken (s.liveRegion h) := by
  have live := liveNode_unbroken known
  simp only [liveRegion]
  split
  · next failed => exact .fail (live _ failed)
  · exact .ok _
  · exact .fail rfl

theorem targetIn_unbroken (region : Label) (base size : Nat) : Unbroken (targetIn region base size) := by
  simp only [targetIn]
  split
  · exact .fail rfl
  · split
    · exact .fail rfl
    · exact .ok _

theorem unmapTarget_unbroken (known : h.slot < s.resources.fresh) (base size : Nat) (sparing : Bool) :
    Unbroken (s.unmapTarget h base size sparing) := by
  refine .bind (liveRegion_unbroken known) fun _ _ => .bind (targetIn_unbroken _ _ _) fun _ _ => ?_
  dsimp only
  split
  · exact .ok _
  · exact .bind (.ensure rfl) fun _ _ => .bind (.ensure rfl) fun _ _ => .ok _

theorem checkMapped_unbroken (image : Option Handle) (access : PageFlags) (last : Nat) (ns : Forest) :
    Unbroken (checkMapped image access last ns) := by
  induction ns generalizing last with
  | nil => exact .ok _
  | cons n ns ih =>
      cases n with
      | region l children => exact .fail rfl
      | mapping m =>
          rw [checkMapped]
          split
          · exact .fail rfl
          · split
            · exact .fail rfl
            · exact ih _

theorem protectTarget_unbroken (known : h.slot < s.resources.fresh) (base size : Nat)
    (access : PageFlags) : Unbroken (s.protectTarget h base size access) := by
  refine .bind (liveRegion_unbroken known) fun _ _ => .bind (targetIn_unbroken _ _ _) fun _ _ => ?_
  dsimp only
  split
  · exact .fail rfl
  · refine .bind (checkMapped_unbroken _ _ _ _) fun _ _ => .bind (.ensure rfl) fun _ _ => .ok _

variable [Mmu M] {pending : List Entry}

theorem unmapRange_unbroken (kept : s.Kept pending) (known : h.slot < s.resources.fresh)
    (base size : Nat) (sparing : Bool) : Unbroken (s.unmapRange h base size sparing).answer := by
  intro f failed
  obtain ⟨_, _, _, refused | rfl⟩ := unmapRange_error kept (Outcome.eq_of_error failed)
  · exact unmapTarget_unbroken known base size sparing f refused
  · rfl

theorem addAt_unbroken {base : Nat} {q : NodeRequest} (kept : s.Kept []) (paged : q.Paged)
    (pos : 0 < q.size) (start : base % pageSize = 0) {l : Label} {children : Forest}
    (alive : .region l children ∈ s.nodes) (low : l.extent.start ≤ base)
    (high : base + q.size ≤ l.extent.stop)
    (free : ∀ n ∈ children, n.stop ≤ base ∨ base + q.size ≤ n.start) :
    Unbroken (s.addAt l.handle base q).answer := by
  have made := s.resources.make_unbroken paged pos (Nat.lt_of_le_of_lt high l.extent.stop_lt_limit)
  simp only [addAt]
  split
  · next failed => exact made.passOn failed
  · next built r done =>
      obtain ⟨holds, ready, _, _, rfl, stop, _⟩ := make_follows kept paged start done
      rw [← stop] at high free
      obtain ⟨s', same, _⟩ := adopt_ok holds.kept ready alive low high free
      rw [same]
      exact .ok _

theorem addOver_unbroken {base : Nat} {q : NodeRequest} (kept : s.Kept []) (paged : q.Paged)
    (pos : 0 < q.size) (start : base % pageSize = 0) {l : Label} {children : Forest}
    (alive : .region l children ∈ s.nodes) (high : base + q.size ≤ l.extent.stop) :
    Unbroken (s.addOver l.handle base q).answer := by
  have made := s.resources.make_unbroken paged pos (Nat.lt_of_le_of_lt high l.extent.stop_lt_limit)
  simp only [addOver]
  split
  · next failed => exact made.passOn failed
  · next built r done =>
      obtain ⟨holds, ready, _, _, rfl, stop, _⟩ := make_follows kept paged start done
      -- The region is looked up once more, with the new slot already taken.
      have known : l.handle.slot < r.fresh := holds.kept.slot_lt (n := .region l children) alive
      have clears := unmapRange_unbroken (h := l.handle) holds.kept known built.node.start q.size true
      split
      · next failed => exact clears.passOn failed
      · next done =>
          obtain ⟨s'', same, _⟩ := adopt_over holds.kept ready alive start paged.size stop done
            (.overwritten built.node.extent.toSpan l.handle)
          rw [same]
          exact .ok _

theorem addAnywhere_unbroken {l : Label} {children : Forest} {d : Demand} {q : NodeRequest}
    (picks : Mmu.PicksPages M) (kept : s.Kept []) (paged : q.Paged) (alive : .region l children ∈ s.nodes)
    (size : d.size = q.size) : Unbroken (s.addAnywhere l.handle l children d q).answer := by
  have ordered := Site.ordered_of_lined (kept.lined alive) s.resources.mmu
  simp only [addAnywhere]
  generalize chosen : Site.choose (M := M) _ _ _ _ = choice
  have quiet := s.resources.quiet_reportAll choice.1.events
  have searched : s.Follows .shape [] []
      { s with entropy := choice.2, resources := s.resources.reportAll choice.1.events } :=
    .of_tree kept rfl rfl (.quiet _ quiet)
  split
  · next failed =>
      rw [← chosen] at failed
      rw [Site.choose_error ordered failed]
      exact .fail rfl
  · next base found =>
      rw [← chosen] at found
      have suits := Site.choose_suits ordered found
      refine addAt_unbroken searched.kept paged (size ▸ d.size_pos) (suits.paged picks) alive
        suits.low ?_ ?_
      · exact size ▸ suits.high
      · exact fun n hn => size ▸ suits.free _ (List.mem_map_of_mem hn)

theorem add_unbroken (picks : Mmu.PicksPages M) (kept : s.Kept []) (known : h.slot < s.resources.fresh)
    {q : NodeRequest} (paged : q.Paged) : Unbroken (s.add h q).answer := by
  have live := liveRegion_unbroken known
  simp only [add]
  split
  · next failed => exact .fail (live _ failed)
  · next l children region =>
      obtain ⟨rfl, alive⟩ := liveRegion_ok region
      have grants := q.checkGrants_unbroken l.flags
      split
      · next failed => exact .fail (grants _ failed)
      · next ok =>
          have pos : 0 < q.settled.size := (NodeRequest.granted_of_checkGrants (q := q) ok).sized
          have told : Follows .shape [] s [] _ := .quiet kept (s.resources.quiet_conflict q)
          have valid : ∀ d, q.settled.destination l children = .ok d → d.Valid l children q.settled :=
            fun d same => NodeRequest.destination_ok (kept.lined alive) same
          split
          · next failed => exact .fail (NodeRequest.destination_unbroken _ _ _ _ failed)
          · next base same =>
              obtain ⟨start, low, high, free⟩ := valid _ same
              exact addAt_unbroken told.kept paged.settled pos start alive low high free
          · next base same =>
              obtain ⟨start, _, high⟩ := valid _ same
              exact addOver_unbroken told.kept paged.settled pos start alive high
          · next d same => exact addAnywhere_unbroken picks told.kept paged.settled alive (valid _ same)

theorem addRegion_unbroken (picks : Mmu.PicksPages M) (kept : s.Kept [])
    (known : h.slot < s.resources.fresh) (sketch : Sketch) : Unbroken (s.addRegion h sketch).answer := by
  simp only [addRegion]
  split
  · exact .fail rfl
  · next fine =>
      exact add_unbroken picks kept known (sketch.region_paged (not_not.mp (not_or.mp fine).1))

theorem addMapping_unbroken (picks : Mmu.PicksPages M) (kept : s.Kept [])
    (known : h.slot < s.resources.fresh) (sketch : Sketch) (object : MemoryObject) (offset : UInt64)
    (access : PageFlags) : Unbroken (s.addMapping h sketch object offset access).answer := by
  simp only [addMapping]
  split
  · exact .fail rfl
  · next fine =>
      obtain ⟨aligned, fits⟩ := not_or.mp (not_or.mp fine).2
      exact add_unbroken picks kept known
        (sketch.mapping_paged object access (not_not.mp aligned) (by simpa [Address.add?] using fits))

theorem unmap_unbroken (kept : s.Kept []) (known : h.slot < s.resources.fresh) (base size : UInt64) :
    Unbroken (s.unmap h base size).answer := by
  simp only [unmap]
  split
  · exact .fail rfl
  · exact unmapRange_unbroken kept known _ _ _

theorem destroy_unbroken (known : h.slot < s.resources.fresh) : Unbroken (s.destroy h).answer := by
  have live := liveNode_unbroken known
  simp only [destroy]
  split
  · next failed => exact .fail (live _ failed)
  · split
    · exact .fail rfl
    · exact .ok _

omit [Mmu M]

theorem childHolding_unbroken (known : h.slot < s.resources.fresh) (address : UInt64) :
    Unbroken (s.childHolding h address) := by
  refine .bind (liveRegion_unbroken known) fun _ _ => ?_
  dsimp only
  split
  · exact .fail rfl
  · exact .ok _

theorem profile_unbroken (known : h.slot < s.resources.fresh) : Unbroken (s.profile h) :=
  (liveNode_unbroken known).map _

theorem isFree_unbroken (known : h.slot < s.resources.fresh) (base size : UInt64) :
    Unbroken (s.isFree h base size) :=
  .bind (.ensure rfl) fun _ _ => .bind (liveRegion_unbroken known) fun _ _ => .ok _

theorem walk_unbroken {σ : Type} (known : h.slot < s.resources.fresh) (observer : Observer σ) (start : σ) :
    Unbroken (s.walk h observer start) :=
  .bind (liveRegion_unbroken known) fun _ _ => .ok _

theorem accessTarget_unbroken (known : h.slot < s.resources.fresh) (a : Nat) (flags : FaultFlags) :
    Unbroken (s.accessTarget h a flags).answer := by
  have live := liveRegion_unbroken known
  simp only [accessTarget]
  split
  · next failed => exact .fail (live _ failed)
  · split
    · exact .fail rfl
    · split
      · exact .ok _
      · exact .fail rfl

theorem objectOffset_unbroken {m : Mapping} {a : Nat} (tidy : (Entry.mapping m).Tidy)
    (holds : m.extent.contains a) : Unbroken (objectOffset m a) := by
  rw [objectOffset_eq tidy holds]
  split
  · exact .fail rfl
  · exact .ok _

end Space

/-- Each page of the object has a frame. -/
def MemoryObject.HasFrames (o : MemoryObject) : Prop := frameBase + o.size ≤ Address.limit

theorem MemoryObject.commit_unbroken {o : MemoryObject} (fits : o.HasFrames) (offset : Nat) (write : Bool)
    (commitments : Commitments) : Unbroken (o.commit offset write commitments).answer := by
  simp only [commit]
  split
  · exact .fail rfl
  · split
    · exact .fail rfl
    · next inside =>
        have below : Address.page offset ≤ offset := Nat.div_mul_le_self _ _
        have room : frameBase + Address.page offset < Address.limit := by
          rw [HasFrames] at fits
          omega
        simp only [frameAt, Address.add, if_pos room]
        exact .ok _

namespace Space
variable {s : Space PageTable} {h : Handle}

theorem protect_unbroken (kept : s.Kept []) (known : h.slot < s.resources.fresh) (base size : UInt64)
    (access : PageFlags) : Unbroken (s.protect h base size access).answer := by
  intro f failed
  rcases protect_error kept (Outcome.eq_of_error failed) with ⟨_, rfl | refused⟩ | rfl
  · rfl
  · exact protectTarget_unbroken known _ _ access f refused
  · rfl

theorem resolveBelow_unbroken (kept : s.Kept []) (known : h.slot < s.resources.fresh)
    (frames : ∀ m, .mapping m ∈ s.nodes → m.object.HasFrames) (commitments : Commitments) (a : UInt64)
    (flags : FaultFlags) : Unbroken (s.resolveBelow commitments h a flags).answer := by
  have target := accessTarget_unbroken known a.toNat flags
  simp only [resolveBelow]
  split
  · exact .fail rfl
  · split
    · next failed => exact target.passOn failed
    · next m s' ok =>
        obtain ⟨rfl, below, holds⟩ := accessTarget_ok ok
        have alive := below.alive
        have offsets := objectOffset_unbroken (kept.tidy alive) holds
        split
        · next failed => exact .fail (offsets _ failed)
        · next offset _ =>
            have commits := MemoryObject.commit_unbroken (frames m alive) offset flags.isWrite commitments
            split
            · next failed => exact commits.passOn failed
            · simp only [Resources.mapPage, Mmu.map]
              split
              · exact .fail rfl
              · exact .ok _

end Space
end RegionTree
