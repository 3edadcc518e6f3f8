import RegionTree.Proofs.Space
import RegionTree.Space.PageFault

/-! Resolving page faults: the page that is translated is one of a mapping alive, and the frame is the
one that the mapping shows there. -/
namespace RegionTree

mutual
theorem Node.mappingAt?_eq_some {a : Nat} {m : Mapping} :
    (n : Node) → n.extent.contains a → n.mappingAt? a = some m →
      .mapping m ∈ n.entries ∧ m.extent.contains a
  | .region l children, _, found => by
      obtain ⟨below, holds⟩ := Forest.mappingAt?_eq_some children found
      exact ⟨List.mem_cons_of_mem _ below, holds⟩
  | .mapping m, holds, found => by
      cases found
      exact ⟨List.mem_singleton_self _, holds⟩
theorem Forest.mappingAt?_eq_some {a : Nat} {m : Mapping} :
    (ns : Forest) → Forest.mappingAt? a ns = some m →
      .mapping m ∈ Forest.entries ns ∧ m.extent.contains a
  | [], found => by cases found
  | n :: ns, found => by
      rw [Forest.mappingAt?] at found
      split at found
      · obtain ⟨later, holds⟩ := Forest.mappingAt?_eq_some ns found
        exact ⟨List.mem_append_right _ later, holds⟩
      · split at found
        · next holds =>
            obtain ⟨here, holds⟩ := Node.mappingAt?_eq_some n holds found
            exact ⟨List.mem_append_left _ here, holds⟩
        · cases found
end

theorem Address.page_mod (a : Nat) : page a % pageSize = 0 := Nat.mul_mod_left _ _

theorem Extent.Paged.page_mem {e : Extent} {a : Nat} (h : e.Paged) (holds : e.contains a) :
    Address.page a ∈ e.toSpan := by
  rw [Span.contains_iff, Span.mem_iff] at holds
  obtain ⟨start, _⟩ := h
  show e.start ≤ a / pageSize * pageSize ∧ a / pageSize * pageSize < e.stop
  simp only [pageSize] at *
  omega

/-- The frame of a page depends on nothing but the object and the page. -/
theorem MemoryObject.commit_answer (o : MemoryObject) (offset : Nat) (write write' : Bool)
    (commitments commitments' : Commitments) :
    (o.commit offset write commitments).answer = (o.commit offset write' commitments').answer := by
  simp only [commit]
  split
  · rfl
  · split
    · rfl
    · split <;> rfl

/-- At most one page more is handed out, or an old one for writing now. -/
def Commitment.Advances (commitments commitments' : Commitments) : Prop :=
  commitments' = commitments ∨
    ∃ object offset write, commitments' = Commitment.record object offset write commitments

theorem MemoryObject.commit_advances (o : MemoryObject) (offset : Nat) (write : Bool)
    (commitments : Commitments) :
    Commitment.Advances commitments (o.commit offset write commitments).state := by
  simp only [commit]
  split
  · exact .inl rfl
  · split
    · exact .inl rfl
    · split <;> exact .inr ⟨_, _, _, rfl⟩

def Mapping.offsetAt (m : Mapping) (a : Nat) : Nat := m.offset + (Address.page a - m.extent.start)

namespace Space

theorem objectOffset_eq {m : Mapping} (tidy : (Entry.mapping m).Tidy) {a : Nat}
    (holds : m.extent.contains a) :
    objectOffset m a =
      if m.object.size ≤ m.offsetAt a then .error Error.notFound else .ok (m.offsetAt a) := by
  obtain ⟨low, high⟩ := tidy.1.page_mem holds
  have fits := tidy.offset_lt (Nat.le_of_lt high)
  simp only [objectOffset, Address.distance, Address.sub, if_pos low]
  rw [Address.add, if_pos fits, Mapping.offsetAt]

theorem objectOffset_ok {m : Mapping} {a offset : Nat} (ok : objectOffset m a = .ok offset) :
    offset = m.offset + (Address.page a - m.extent.start) := by
  simp only [objectOffset, Address.distance, Address.sub, Address.add] at ok
  split at ok
  · cases ok
  · next low =>
      split at low
      · cases low
        split at ok
        · cases ok
        · next sum =>
            split at sum
            · cases sum
              split at ok <;> cases ok
              rfl
            · cases sum
      · cases low

variable {M : Type} {s : Space M}

def Below (s : Space M) (region : Handle) (m : Mapping) : Prop :=
  ∃ l children, s.liveRegion region = .ok (l, children) ∧ .mapping m ∈ Forest.entries children

theorem Below.alive {region : Handle} {m : Mapping} (below : s.Below region m) : .mapping m ∈ s.nodes := by
  obtain ⟨l, children, live, inside⟩ := below
  obtain ⟨_, alive⟩ := liveRegion_ok live
  exact mapping_mem_nodes_iff.mpr (mem_entries_of_mem_nodes alive (List.mem_cons_of_mem _ inside))

theorem accessTarget_ok {region : Handle} {a : Nat} {flags : FaultFlags} {m : Mapping} {s' : Space M}
    (ok : s.accessTarget region a flags = ⟨.ok m, s'⟩) :
    s' = s ∧ s.Below region m ∧ m.extent.contains a := by
  simp only [accessTarget] at ok
  split at ok
  · cases ok
  · next live =>
      split at ok
      · cases ok
      · next found =>
          split at ok
          · cases ok
            obtain ⟨below, holds⟩ := Forest.mappingAt?_eq_some _ found
            exact ⟨rfl, ⟨_, _, live, below⟩, holds⟩
          · cases ok

theorem accessTarget_error {region : Handle} {a : Nat} {flags : FaultFlags} {f : Failure} {s' : Space M}
    (failed : s.accessTarget region a flags = ⟨.error f, s'⟩) :
    ∃ r, s.resources.Quiet r ∧ s' = { s with resources := r } := by
  simp only [accessTarget] at failed
  split at failed
  · cases failed
    exact ⟨_, .refl _, rfl⟩
  · split at failed
    · cases failed
      exact ⟨_, .refl _, rfl⟩
    · split at failed
      · cases failed
      · cases failed
        exact ⟨_, s.resources.quiet_note _, rfl⟩

variable [Mmu M]

theorem resolveBelow_cases (kept : s.Kept []) (commitments : Commitments) (region : Handle) (a : UInt64)
    (flags : FaultFlags) :
    (∃ f r commitments', s.resources.Quiet r ∧ s.resolveBelow commitments region a flags =
      .fail f ({ s with resources := r }, commitments')) ∨
    ∃ m page frame r commitments', s.Below region m ∧ page ∈ m.extent.toSpan ∧
      page % pageSize = 0 ∧ m.Shows page frame ∧ s.resources.Quiet r ∧
      s.resolveBelow commitments region a flags =
        ⟨(r.mapPage page frame m.access).answer,
          { s with resources := (r.mapPage page frame m.access).state }, commitments'⟩ := by
  simp only [resolveBelow]
  split
  · exact .inl ⟨_, _, _, .refl _, rfl⟩
  · split
    · next failed =>
        obtain ⟨r, quiet, rfl⟩ := accessTarget_error failed
        exact .inl ⟨_, _, _, quiet, rfl⟩
    · next m s' ok =>
        obtain ⟨rfl, below, holds⟩ := accessTarget_ok ok
        split
        · exact .inl ⟨_, _, _, .refl _, rfl⟩
        · next offset same =>
            split
            · exact .inl ⟨_, _, _, .refl _, rfl⟩
            · next frame commitments' handed =>
                have paged : m.extent.Paged := (kept.tidy below.alive).1
                refine .inr ⟨m, _, frame, _, commitments', below, paged.page_mem holds,
                  Address.page_mod _, fun write commitments => ?_, s'.resources.quiet_note _, rfl⟩
                rw [← objectOffset_ok same, m.object.commit_answer _ _ _ _ _, handed]

theorem resolveBelow_advances (s : Space M) (commitments : Commitments) (region : Handle) (a : UInt64)
    (flags : FaultFlags) :
    Commitment.Advances commitments (s.resolveBelow commitments region a flags).state.2 := by
  simp only [resolveBelow]
  split
  · exact .inl rfl
  · split
    · exact .inl rfl
    · next m s' _ =>
        split
        · exact .inl rfl
        · next offset _ =>
            have advances := m.object.commit_advances offset flags.isWrite commitments
            split <;> next handed =>
              rw [handed] at advances
              exact advances

theorem resolveBelow_tree (kept : s.Kept []) (commitments : Commitments) (region : Handle) (a : UInt64)
    (flags : FaultFlags) : (s.resolveBelow commitments region a flags).state.1.tree = s.tree := by
  rcases resolveBelow_cases kept commitments region a flags with
    ⟨_, _, _, _, same⟩ | ⟨_, _, _, _, _, _, _, _, _, _, same⟩
  · rw [same]
    rfl
  · rw [same]

theorem resolveBelow_follows (kept : s.Kept []) (commitments : Commitments) (region : Handle) (a : UInt64)
    (flags : FaultFlags) :
    s.Follows .translate [] [] (s.resolveBelow commitments region a flags).state.1 := by
  rcases resolveBelow_cases kept commitments region a flags with
    ⟨f, r, _, quiet, same⟩ | ⟨m, page, frame, r, _, below, inside, paged, shows, quiet, same⟩
  · rw [same]
    exact .quiet kept quiet
  · rw [same]
    have member : .mapping m ∈ s.entries := mapping_mem_nodes_iff.mp below.alive
    refine .of_tree kept rfl rfl ?_
    exact ((Evolves.quiet _ quiet).trans (.translate r rfl member inside paged shows)).trans
      (.quiet _ (Resources.quiet_report _ _))

end Space
end RegionTree
