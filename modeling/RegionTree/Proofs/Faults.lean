import RegionTree.Mmu.PageTable
import RegionTree.Proofs.Atomicity
import RegionTree.Proofs.Pieces

/-! What a page fault meets. The descent from child to child finds a mapping exactly where a search through
all that is below the region would, so that an access fares alike from every region around its mapping. -/
namespace RegionTree

mutual
/-- Whatever holds the address further down lies in a node that holds it. -/
theorem Node.mappingAt?_of_mem {a : Nat} {m : Mapping} (holds : m.extent.contains a) :
    (n : Node) → n.Nested → .mapping m ∈ n.entries → n.mappingAt? a = some m
  | .region l children, nested, member => by
      cases nested with
      | region lined inner =>
          have below := (List.mem_cons.mp member).resolve_left nofun
          exact Forest.mappingAt?_of_mem holds children lined inner below
  | .mapping m', _, member => by
      cases List.mem_singleton.mp member
      rfl
/-- Of a row in order, only the last that starts at or below the address can hold it. -/
theorem Forest.mappingAt?_of_mem {a : Nat} {m : Mapping} (holds : m.extent.contains a) {e : Extent} :
    (ns : Forest) → Forest.Lined e ns → (∀ n ∈ ns, n.Nested) → .mapping m ∈ Forest.entries ns →
      Forest.mappingAt? a ns = some m
  | n :: ns, lined, nested, member => by
      obtain ⟨low, high⟩ := Span.contains_iff.mp holds
      obtain ⟨first, others⟩ := List.forall_mem_cons.mp nested
      obtain ⟨later, _⟩ := List.pairwise_cons.mp lined.apart
      rw [Forest.mappingAt?]
      rcases List.mem_append.mp member with here | further
      · obtain ⟨bottom, top⟩ := first.mapping_within here
        have inside : n.extent.contains a :=
          Span.contains_iff.mpr ⟨Nat.le_trans bottom low, Nat.lt_of_lt_of_le high top⟩
        have last : Index.startsBy Node.start a ns = false :=
          Index.startsBy_eq_false fun x hx =>
            Nat.lt_of_lt_of_le high (Nat.le_trans top (later x hx))
        rw [last, if_neg Bool.false_ne_true, if_pos inside]
        exact Node.mappingAt?_of_mem holds n first here
      · obtain ⟨x, hx, below⟩ := Forest.mem_entries_iff.mp further
        have starts : Index.startsBy Node.start a ns := by
          have bottom := ((others x hx).mapping_within below).1
          cases ns with
          | nil => cases hx
          | cons y ys =>
              refine decide_eq_true ?_
              rcases List.mem_cons.mp hx with rfl | behind
              · exact Nat.le_trans bottom low
              · have before := (List.pairwise_cons.mp lined.tail.sorted).1 x behind
                exact Nat.le_trans (Nat.le_of_lt before) (Nat.le_trans bottom low)
        rw [if_pos starts]
        exact Forest.mappingAt?_of_mem holds ns lined.tail others further
end

/-- The descent finds what a search through all entries would find. -/
theorem Forest.mappingAt?_eq_some_iff {e : Extent} {ns : Forest} (lined : Lined e ns)
    (nested : ∀ n ∈ ns, n.Nested) {a : Nat} {m : Mapping} :
    mappingAt? a ns = some m ↔ .mapping m ∈ entries ns ∧ a ∈ m.extent.toSpan := by
  constructor
  · intro found
    obtain ⟨member, holds⟩ := Forest.mappingAt?_eq_some ns found
    exact ⟨member, Span.contains_iff.mp holds⟩
  · intro ⟨member, inside⟩
    exact Forest.mappingAt?_of_mem (Span.contains_iff.mpr inside) ns lined nested member

namespace PageTable

/-- One page is translated, instead of whatever it was translated to; all others are as before. -/
structure Sets (old new : PageTable) (t : Translation) : Prop where
  mem : ∀ t', t' ∈ new.translations ↔ t' = t ∨ t' ∈ old.translations ∧ t'.page ≠ t.page
  lookup : ∀ a, new.lookup a = if Address.page a = t.page then some t else old.lookup a
  rest : new.guard = old.guard ∧ new.refuses = old.refuses

theorem install_sets (table : PageTable) (t : Translation) :
    table.Sets { table with translations := install t table.translations } t where
  mem t' := by simp [install]
  lookup a := by
    simp only [PageTable.lookup, install, List.find?_cons]
    by_cases same : Address.page a = t.page
    · simp [same]
    · have other : (t.page == Address.page a) = false := by simpa using Ne.symm same
      rw [other, if_neg same, List.find?_filter]
      refine congrArg (List.find? · table.translations) (funext fun t' => ?_)
      by_cases here : t'.page = Address.page a
      · simp [here, same]
      · simp [here]
  rest := ⟨rfl, rfl⟩

theorem map_eq (table : PageTable) (page frame : Nat) (flags : PageFlags) :
    Mmu.map table page frame pageSize flags =
      if table.refuses then .fail Error.noMemory table
      else .ok () { table with translations := install ⟨page, frame, flags⟩ table.translations } := by
  simp [Mmu.map, row, pageSize]

end PageTable

namespace Space
variable {s : Space PageTable} {l : Label} {children : Forest} {m : Mapping} {a : Nat} {flags : FaultFlags}

/-- What an access to a mapping comes to: each failure only if none before it applies. -/
structure Answers (s : Space PageTable) (commitments : Commitments) (m : Mapping) (a : Nat)
    (flags : FaultFlags) (o : Outcome (Space PageTable × Commitments) Unit) : Prop where
  /-- The offset is that of the page, and no sum on the way to it has wrapped around. -/
  offset_lt : m.offsetAt a < Address.limit
  denied : ¬ m.access.contains flags.accessNeeded →
    o.answer = .error Error.accessDenied ∧ o.state.2 = commitments
  beyond : m.access.contains flags.accessNeeded → m.object.size ≤ m.offsetAt a →
    o.answer = .error Error.notFound ∧ o.state.2 = commitments
  /-- What the commit leaves stays, whatever follows. -/
  commits : m.access.contains flags.accessNeeded → m.offsetAt a < m.object.size →
    o.state.2 = (m.object.commit (m.offsetAt a) flags.isWrite commitments).state
  uncommitted : m.access.contains flags.accessNeeded → m.offsetAt a < m.object.size →
    ∀ f, (m.object.commit (m.offsetAt a) flags.isWrite commitments).answer = .error f →
      o.answer = .error f
  committed : m.access.contains flags.accessNeeded → m.offsetAt a < m.object.size →
    ∀ frame, (m.object.commit (m.offsetAt a) flags.isWrite commitments).answer = .ok frame →
      o.answer = (Mmu.map s.resources.mmu (Address.page a) frame pageSize m.access).answer ∧
        (o.answer = .ok () → s.resources.mmu.Sets o.state.1.resources.mmu
          ⟨Address.page a, frame, m.access⟩)

/-- What a page fault below a region comes to. -/
structure Faults (s : Space PageTable) (commitments : Commitments) (children : Forest) (a : UInt64)
    (flags : FaultFlags) (o : Outcome (Space PageTable × Commitments) Unit) : Prop where
  unique : ∀ m m', .mapping m ∈ Forest.entries children → .mapping m' ∈ Forest.entries children →
    a.toNat ∈ m.extent.toSpan → a.toNat ∈ m'.extent.toSpan → m = m'
  missing : (∀ m, .mapping m ∈ Forest.entries children → ¬ a.toNat ∈ m.extent.toSpan) →
    o.answer = .error Error.notFound ∧ o.state.2 = commitments
  met : ∀ m, .mapping m ∈ Forest.entries children → a.toNat ∈ m.extent.toSpan →
    s.Answers commitments m a.toNat flags o
  /-- Every region around the mapping gives the same answer and leaves the same behind. -/
  everywhere : ∀ m, .mapping m ∈ Forest.entries children → a.toNat ∈ m.extent.toSpan →
    ∀ l' children', .region l' children' ∈ s.nodes → .mapping m ∈ Forest.entries children' →
      s.resolveBelow commitments l'.handle a flags = o
  failed : ∀ f, o.answer = .error f → o.state.1.resources.mmu = s.resources.mmu
  tree : o.state.1.tree = s.tree

theorem Kept.mappingAt?_eq_some_iff (kept : s.Kept []) (alive : .region l children ∈ s.nodes) :
    Forest.mappingAt? a children = some m ↔
      .mapping m ∈ Forest.entries children ∧ a ∈ m.extent.toSpan := by
  cases kept.nested_of_mem alive with
  | region lined nested => exact Forest.mappingAt?_eq_some_iff lined nested

theorem Kept.below (kept : s.Kept []) (alive : .region l children ∈ s.nodes)
    (member : .mapping m ∈ Forest.entries children) : s.Below l.handle m :=
  ⟨l, children, kept.liveRegion_eq alive, member⟩

/-- Whether an access is allowed does not depend on the region that it goes through. -/
theorem Kept.accessTarget_eq (kept : s.Kept []) (alive : .region l children ∈ s.nodes)
    (member : .mapping m ∈ Forest.entries children) (inside : a ∈ m.extent.toSpan) (flags : FaultFlags) :
    s.accessTarget l.handle a flags =
      if m.access.contains flags.accessNeeded then .ok m s
      else .fail Error.accessDenied
        { s with resources := s.resources.note (.faultDenied a flags m.access) } := by
  simp only [accessTarget, kept.liveRegion_eq alive,
    (kept.mappingAt?_eq_some_iff alive).mpr ⟨member, inside⟩]

variable {commitments : Commitments} {address : UInt64}

theorem Kept.resolveBelow_commits (kept : s.Kept []) (commitments : Commitments)
    (alive : .region l children ∈ s.nodes) (consistent : flags.isConsistent)
    (member : .mapping m ∈ Forest.entries children) (inside : address.toNat ∈ m.extent.toSpan)
    (allowed : m.access.contains flags.accessNeeded)
    (within : m.offsetAt address.toNat < m.object.size) :
    (∃ f, (m.object.commit (m.offsetAt address.toNat) flags.isWrite commitments).answer = .error f ∧
      s.resolveBelow commitments l.handle address flags = .fail f
        (s, (m.object.commit (m.offsetAt address.toNat) flags.isWrite commitments).state)) ∨
    ∃ frame, (m.object.commit (m.offsetAt address.toNat) flags.isWrite commitments).answer = .ok frame ∧
      ∃ r, s.resources.Quiet r ∧ s.resolveBelow commitments l.handle address flags =
        ⟨(r.mapPage (Address.page address.toNat) frame m.access).answer,
          { s with resources := (r.mapPage (Address.page address.toNat) frame m.access).state },
          (m.object.commit (m.offsetAt address.toNat) flags.isWrite commitments).state⟩ := by
  have target := kept.accessTarget_eq alive member inside flags
  have offset := objectOffset_eq (kept.tidy (kept.below alive member).alive) (Span.contains_iff.mpr inside)
  rw [if_pos allowed] at target
  rw [if_neg (Nat.not_le_of_lt within)] at offset
  cases handed : m.object.commit (m.offsetAt address.toNat) flags.isWrite commitments with
  | mk answer after =>
      cases answer with
      | error f =>
          refine .inl ⟨f, rfl, ?_⟩
          simp [resolveBelow, consistent, target, Outcome.ok, offset, handed]
      | ok frame =>
          have noted := s.resources.quiet_note
            (.faultResolved address.toNat flags (Address.page address.toNat) frame)
          refine .inr ⟨frame, rfl, _, noted, ?_⟩
          simp [resolveBelow, consistent, target, Outcome.ok, offset, handed]

theorem Kept.resolveBelow_answers (kept : s.Kept []) (alive : .region l children ∈ s.nodes)
    (consistent : flags.isConsistent) (member : .mapping m ∈ Forest.entries children)
    (inside : address.toNat ∈ m.extent.toSpan) :
    s.Answers commitments m address.toNat flags (s.resolveBelow commitments l.handle address flags) := by
  have tidy : (Entry.mapping m).Tidy := kept.tidy (kept.below alive member).alive
  have target := kept.accessTarget_eq alive member inside flags
  have offset := objectOffset_eq tidy (Span.contains_iff.mpr inside)
  have commits := kept.resolveBelow_commits commitments alive consistent member inside
  constructor
  case offset_lt => exact tidy.offset_lt (Nat.le_of_lt (tidy.1.page_mem (Span.contains_iff.mpr inside)).2)
  case denied =>
    intro denied
    rw [if_neg denied] at target
    simp [resolveBelow, consistent, target, Outcome.fail]
  case beyond =>
    intro allowed beyond
    rw [if_pos allowed] at target
    rw [if_pos beyond] at offset
    simp [resolveBelow, consistent, target, offset, Outcome.fail, Outcome.ok]
  case commits =>
    intro allowed within
    rcases commits allowed within with ⟨f, _, same⟩ | ⟨frame, _, r, _, same⟩ <;> rw [same]
    rfl
  case uncommitted =>
    intro allowed within f failed
    rcases commits allowed within with ⟨f', failed', same⟩ | ⟨frame, handed, _⟩
    · cases failed.symm.trans failed'
      rw [same]
      rfl
    · cases failed.symm.trans handed
  case committed =>
    intro allowed within frame handed
    rcases commits allowed within with ⟨f, failed, _⟩ | ⟨frame', handed', r, quiet, same⟩
    · cases handed.symm.trans failed
    · cases handed.symm.trans handed'
      rw [same]
      refine ⟨by rw [Resources.mapPage, quiet.mmu], fun done => ?_⟩
      simp only [Resources.mapPage, PageTable.map_eq, quiet.mmu] at done ⊢
      split at done
      · cases done
      · next works =>
          rw [if_neg works]
          exact PageTable.install_sets _ _

theorem Kept.resolveBelow_faults (kept : s.Kept []) (alive : .region l children ∈ s.nodes)
    (consistent : flags.isConsistent) :
    s.Faults commitments children address flags (s.resolveBelow commitments l.handle address flags) where
  unique m m' member member' inside inside' :=
    Option.some.inj (((kept.mappingAt?_eq_some_iff alive).mpr ⟨member, inside⟩).symm.trans
      ((kept.mappingAt?_eq_some_iff alive).mpr ⟨member', inside'⟩))
  missing bare := by
    have lost : Forest.mappingAt? address.toNat children = none := by
      refine Option.eq_none_iff_forall_ne_some.mpr fun m found => ?_
      obtain ⟨member, inside⟩ := (kept.mappingAt?_eq_some_iff alive).mp found
      exact bare m member inside
    simp [resolveBelow, consistent, accessTarget, kept.liveRegion_eq alive, lost, Outcome.fail]
  met _ member inside := kept.resolveBelow_answers alive consistent member inside
  everywhere m member inside l' children' alive' member' := by
    simp only [resolveBelow, kept.accessTarget_eq alive member inside flags,
      kept.accessTarget_eq alive' member' inside flags]
  failed _ failed := (resolveBelow_error kept failed).mmu
  tree := resolveBelow_tree kept commitments l.handle address flags

/-- After any sequence of calls, whatever pages are committed by then, a fault below a region alive is
answered as a search through all mappings below it would have it. -/
theorem run_faults {guard : Nat} {refuses : Bool} {c : SpaceConfig} {entropy : Entropy}
    (new : Space.new (⟨guard, refuses, []⟩ : PageTable) c entropy = .ok s) (commitments : Commitments)
    (ops : List Operation) (alive : .region l children ∈ (run (s, commitments) ops).1.nodes)
    (shared : Commitments) (address : UInt64) (consistent : flags.isConsistent) :
    (run (s, commitments) ops).1.Faults shared children address flags
      ((run (s, commitments) ops).1.resolveBelow shared l.handle address flags) :=
  (run_kept (w := (s, commitments)) .pageTable (new_kept new) ops).resolveBelow_faults alive consistent

/-- A page of a mapping two regions down is stored to. -/
theorem run_faults_nested :
    ∃ s t, Space.new (⟨0, false, []⟩ : PageTable) ⟨.user, 0, 0x8000, .empty, 4⟩ ⟨none⟩ = .ok s ∧
      (run (s, []) [.addRegion ⟨0, 0⟩ { size := 0x4000, flags := RegionFlags.mapAll },
        .addMapping ⟨1, 1⟩ { size := 0x3000, flags := RegionFlags.mapAll }
          ⟨0, 0x3000, none, none, false⟩ 0 PageFlags.write]).1 = t ∧
      ∃ l children, .region l children ∈ t.nodes ∧
        (t.resolveBelow [] l.handle 0x1234 FaultFlags.store).answer = .ok () ∧
        t.Faults [] children 0x1234 FaultFlags.store
          (t.resolveBelow [] l.handle 0x1234 FaultFlags.store) := by
  obtain ⟨s, new⟩ : ∃ s, Space.new (⟨0, false, []⟩ : PageTable)
      ⟨.user, 0, 0x8000, .empty, 4⟩ ⟨none⟩ = .ok s := ⟨_, rfl⟩
  obtain ⟨t, made⟩ : ∃ t, (run (s, []) [
      .addRegion ⟨0, 0⟩ { size := 0x4000, flags := RegionFlags.mapAll },
      .addMapping ⟨1, 1⟩ { size := 0x3000, flags := RegionFlags.mapAll }
        ⟨0, 0x3000, none, none, false⟩ 0 PageFlags.write]).1 = t := ⟨_, rfl⟩
  have done : ((t.liveRegion ⟨0, 0⟩).toOption.any fun _ => true) ∧
      (t.resolveBelow [] ⟨0, 0⟩ 0x1234 FaultFlags.store).answer = .ok () := by
    subst made
    cases new
    decide +kernel
  obtain ⟨live, done⟩ := done
  obtain ⟨l, children, handle, alive, _⟩ := exists_alive_of_any live
  refine ⟨s, t, new, made, l, children, alive, handle ▸ done, ?_⟩
  subst made
  exact run_faults new [] _ alive [] 0x1234 (by decide)

end Space
end RegionTree
