import RegionTree.Proofs.Coverage
import RegionTree.Proofs.WellFormed

/-! Looking up what is in a range of a region. Each look-up inspects the neighbours of an address only, and
answers as a search through all children would. -/
namespace RegionTree

namespace Forest
variable {e : Extent} {children : Forest} {target : Span} {n n' : Node} {a base size : Nat}

theorem eq_of_mem_extent (lined : Lined e children) (hn : n ∈ children) (hn' : n' ∈ children)
    (inside : a ∈ n.extent.toSpan) (inside' : a ∈ n'.extent.toSpan) : n = n' :=
  Option.some.inj ((childAt?_eq_some lined hn inside).symm.trans (childAt?_eq_some lined hn' inside'))

theorem isFree_eq_false_iff (lined : Lined e children) (pos : 0 < size) :
    isFree base size children = false ↔
      ∃ n ∈ children, ∃ a, a ∈ n.extent.toSpan ∧ a ∈ (⟨base, base + size⟩ : Span) := by
  have wide : base < base + size := Nat.lt_add_of_pos_right pos
  rw [← Bool.not_eq_true, isFree_iff lined pos]
  simp only [not_forall, exists_prop, not_or, Nat.not_le]
  refine exists_congr fun n => and_congr_right fun _ => ?_
  rw [← Span.overlaps_iff_exists n.start_lt_stop wide, Span.overlaps_iff]
  exact and_comm

theorem inside_eq_filter_overlaps (lined : Lined e children) (target : Span) :
    (slice target children).inside = children.filter (·.extent.overlaps target) := by
  have before : (slice target children).before.filter (·.extent.overlaps target) = [] := by
    refine List.filter_eq_nil_iff.mpr fun n hn overlaps => ?_
    exact Nat.not_lt_of_le (stop_le_of_mem_before hn) (Span.overlaps_iff.mp overlaps).2
  have behind : (slice target children).behind.filter (·.extent.overlaps target) = [] := by
    refine List.filter_eq_nil_iff.mpr fun n hn overlaps => ?_
    exact Nat.not_lt_of_le (stop_le_of_mem_behind lined hn) (Span.overlaps_iff.mp overlaps).1
  have inside : (slice target children).inside.filter (·.extent.overlaps target) =
      (slice target children).inside :=
    List.filter_eq_self.mpr fun n hn => ((mem_inside_iff lined).mp hn).2
  conv => rhs; rw [← slice_append target children]
  rw [List.filter_append, List.filter_append, before, behind, inside, List.nil_append, List.append_nil]

theorem firstKey_le_iff (lined : Lined e children) (hn : n ∈ children) :
    firstKey target children ≤ n.start ↔ target.start < n.stop := by
  obtain ⟨low, high, rfl, last, _, atMost, more⟩ := Index.exists_split target.start lined.sorted
  have some := n.start_lt_stop
  rw [firstKey, last]
  rcases List.mem_append.mp hn with here | beyond
  · have bottom := atMost n here
    obtain ⟨p, final⟩ := Option.isSome_iff_exists.mp (List.getLast?_isSome.mpr (List.ne_nil_of_mem here))
    obtain ⟨rest, rfl⟩ := List.getLast?_eq_some_iff.mp final
    have top := atMost p (by simp)
    have order : n = p ∨ n.stop ≤ p.start := by
      rcases List.mem_append.mp here with earlier | same
      · exact .inr ((lined_append.mp (lined_append.mp lined).1).2.2 n earlier p (by simp))
      · exact .inl (List.mem_singleton.mp same)
    rw [final]
    by_cases reaches : target.start < p.stop
    · rw [Option.filter_some_pos (by simpa using reaches), Option.elim_some]
      rcases order with rfl | apart
      · exact iff_of_true (Nat.le_refl _) reaches
      · omega
    · rw [Option.filter_some_neg (by simpa using reaches), Option.elim_none]
      rcases order with rfl | apart <;> omega
  · have above := more n beyond
    refine iff_of_true (Nat.le_trans ?_ (Nat.le_of_lt above)) (Nat.lt_trans above some)
    cases found : low.getLast?.filter (target.start < ·.stop) with
    | none => exact Nat.le_refl _
    | some p => exact atMost p (List.mem_of_getLast? (Option.filter_eq_some_iff.mp found).1)

/-- The children that a range reaches into are those with starts between two keys. -/
theorem inside_eq_filter_keys (lined : Lined e children) (target : Span) :
    (slice target children).inside =
      children.filter fun n => firstKey target children ≤ n.start && n.start < target.stop := by
  rw [inside_eq_filter_overlaps lined]
  refine List.filter_congr fun n hn => ?_
  rw [Bool.eq_iff_iff, Span.overlaps_iff, Bool.and_eq_true, decide_eq_true_iff, decide_eq_true_iff,
    firstKey_le_iff lined hn]
  exact and_comm

end Forest

namespace Space
variable {M : Type} {s : Space M} {l : Label} {children : Forest}

/-- What the look-ups in a region answer, told by all its children. -/
structure LooksUp (s : Space M) (l : Label) (children : Forest) : Prop where
  /-- Whether a range is free depends on the addresses up to its end, also where no address can hold it. -/
  taken : ∀ base size : UInt64, size ≠ 0 → (s.isFree l.handle base size = .ok false ↔
    ∃ n ∈ children, ∃ a, a ∈ n.extent.toSpan ∧ a ∈ (⟨base.toNat, base.toNat + size.toNat⟩ : Span))
  free : ∀ base size : UInt64, size ≠ 0 →
    (s.isFree l.handle base size = .ok true ↔ ¬ s.isFree l.handle base size = .ok false)
  unique : ∀ n ∈ children, ∀ n' ∈ children, ∀ a, a ∈ n.extent.toSpan → a ∈ n'.extent.toSpan → n = n'
  found : ∀ address n, s.childHolding l.handle address = .ok n ↔
    n ∈ children ∧ address.toNat ∈ n.extent.toSpan
  /-- What is found is named by its handle. -/
  named : ∀ n ∈ children, s.liveNode n.handle = .ok n
  missing : ∀ address, s.childHolding l.handle address = .error Error.notFound ↔
    s.isFree l.handle address 1 = .ok true
  reached : ∀ target : Span, target.start < target.stop → ∀ n,
    n ∈ (Forest.slice target children).inside ↔ n ∈ children ∧ ∃ a, a ∈ n.extent.toSpan ∧ a ∈ target
  ascending : ∀ target, (Forest.slice target children).inside.Pairwise fun n n' => n.stop ≤ n'.start
  keyed : ∀ target, (Forest.slice target children).inside =
    children.filter fun n => Forest.firstKey target children ≤ n.start && n.start < target.stop
  empty : ∀ base size : UInt64, size ≠ 0 →
    ((Forest.slice ⟨base.toNat, base.toNat + size.toNat⟩ children).inside = [] ↔
      s.isFree l.handle base size = .ok true)

section
variable (kept : s.Kept []) (alive : .region l children ∈ s.nodes)
include kept alive

theorem Kept.isFree_eq {base size : UInt64} (some : size ≠ 0) :
    s.isFree l.handle base size = .ok (Forest.isFree base.toNat size.toNat children) := by
  simp only [Space.isFree, ensure, kept.liveRegion_eq alive, some, ne_eq, not_false_iff, if_true]
  rfl

theorem Kept.childHolding_eq (address : UInt64) : s.childHolding l.handle address =
    (Forest.childAt? address.toNat children).elim (.error Error.notFound) .ok := by
  simp only [childHolding, kept.liveRegion_eq alive, bind, Except.bind]
  cases Forest.childAt? address.toNat children <;> rfl

theorem Kept.childHolding_iff {address : UInt64} {n : Node} :
    s.childHolding l.handle address = .ok n ↔ n ∈ children ∧ address.toNat ∈ n.extent.toSpan := by
  rw [kept.childHolding_eq alive]
  constructor
  · intro found
    cases at? : Forest.childAt? address.toNat children with
    | none => simp [at?] at found
    | some n' =>
        rw [at?, Option.elim_some, Except.ok.injEq] at found
        exact found ▸ Forest.of_childAt? at?
  · rintro ⟨hn, inside⟩
    rw [Forest.childAt?_eq_some (kept.lined alive) hn inside, Option.elim_some]

theorem Kept.looksUp : s.LooksUp l children := by
  have lined := kept.lined alive
  have pos : ∀ {size : UInt64}, size ≠ 0 → 0 < size.toNat := fun some =>
    Nat.pos_of_ne_zero fun none => some (UInt64.toNat_inj.mp none)
  have taken : ∀ base size : UInt64, size ≠ 0 → (s.isFree l.handle base size = .ok false ↔ ∃ n ∈ children,
      ∃ a, a ∈ n.extent.toSpan ∧ a ∈ (⟨base.toNat, base.toNat + size.toNat⟩ : Span)) := by
    intro base size some
    rw [kept.isFree_eq alive some, Except.ok.injEq, Forest.isFree_eq_false_iff lined (pos some)]
  have free : ∀ base size : UInt64, size ≠ 0 →
      (s.isFree l.handle base size = .ok true ↔ ¬ s.isFree l.handle base size = .ok false) := by
    intro base size some
    rw [kept.isFree_eq alive some, Except.ok.injEq, Except.ok.injEq, Bool.not_eq_false]
  have reached : ∀ target : Span, target.start < target.stop → ∀ n,
      n ∈ (Forest.slice target children).inside ↔
        n ∈ children ∧ ∃ a, a ∈ n.extent.toSpan ∧ a ∈ target := by
    intro target wide n
    rw [Forest.mem_inside_iff lined, Span.overlaps_iff_exists n.start_lt_stop wide]
  refine ⟨taken, free, ?unique, fun address n => kept.childHolding_iff alive, ?named, ?missing, reached,
    fun target => (lined.inside target).apart, Forest.inside_eq_filter_keys lined, ?empty⟩
  case unique => exact fun n hn n' hn' a => Forest.eq_of_mem_extent lined hn hn'
  case named => exact fun n hn => kept.liveNode_eq (child_mem_nodes alive hn)
  case missing =>
    intro address
    rw [free address 1 (by decide), taken address 1 (by decide), kept.childHolding_eq alive]
    constructor
    · rintro lost ⟨n, hn, a, inside, here⟩
      have same : a = address.toNat := by
        obtain ⟨low, high⟩ := Span.mem_iff.mp here
        exact Nat.le_antisymm (Nat.le_of_lt_succ high) low
      rw [Forest.childAt?_eq_some lined hn (same ▸ inside)] at lost
      cases lost
    · intro bare
      cases at? : Forest.childAt? address.toNat children with
      | none => rfl
      | some n =>
          obtain ⟨hn, inside⟩ := Forest.of_childAt? at?
          exact absurd ⟨n, hn, _, inside, Nat.le_refl _, Nat.lt_succ_self _⟩ bare
  case empty =>
    intro base size some
    have reach := reached ⟨base.toNat, base.toNat + size.toNat⟩ (Nat.lt_add_of_pos_right (pos some))
    rw [free base size some, taken base size some, List.eq_nil_iff_forall_not_mem]
    constructor
    · rintro none ⟨n, hn, shared⟩
      exact none n ((reach n).mpr ⟨hn, shared⟩)
    · intro none n within
      obtain ⟨hn, shared⟩ := (reach n).mp within
      exact none ⟨n, hn, shared⟩

end

/-- After any sequence of calls, the look-ups in a region alive answer as a search through all its children
would. -/
theorem run_looksUp [Mmu M] (picks : Mmu.PicksPages M) {mmu : M} {c : SpaceConfig} {entropy : Entropy}
    (new : Space.new mmu c entropy = .ok s) (commitments : Commitments) (ops : List Operation)
    (alive : .region l children ∈ (run (s, commitments) ops).1.nodes) :
    (run (s, commitments) ops).1.LooksUp l children :=
  (run_kept (w := (s, commitments)) picks (new_kept new) ops).looksUp alive

/-- A mapping at the third and fourth page leaves the page on either side of it free. -/
theorem run_looksUp_edges :
    ∃ s t l children, Space.new PageTable.empty ⟨.kernel, 0, 0x8000, .empty, 4⟩ ⟨none⟩ = .ok s ∧
      (run (s, []) [.addMapping ⟨0, 0⟩ { offset := 0x2000, size := 0x2000, flags := RegionFlags.specific }
        ⟨0, 0x2000, none, none, false⟩ 0 PageFlags.read]).1 = t ∧ Mmu.PicksPages PageTable ∧
      .region l children ∈ t.nodes ∧ t.isFree l.handle 0x1000 0x1000 = .ok true ∧
      t.isFree l.handle 0x1000 0x1001 = .ok false ∧ t.isFree l.handle 0x4000 0xffffffffffffffff = .ok true ∧
      t.childHolding l.handle 0x4000 = .error Error.notFound ∧ t.LooksUp l children := by
  have new : Space.new PageTable.empty ⟨.kernel, 0, 0x8000, .empty, 4⟩ ⟨none⟩ = .ok _ := rfl
  exact ⟨_, _, _, _, new, rfl, .pageTable, List.mem_cons_self, rfl, rfl, rfl, rfl,
    run_looksUp .pageTable new [] _ List.mem_cons_self⟩

end Space
end RegionTree
