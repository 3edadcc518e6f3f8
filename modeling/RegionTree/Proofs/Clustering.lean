import RegionTree.Proofs.Growth
import RegionTree.Proofs.Padding
import RegionTree.Proofs.Reach
import RegionTree.Space.Sample

/-! Compact regions over whole runs: what fills one from the start stays one cluster, in which the gaps are
no wider than the largest distance that is tried. -/
namespace RegionTree

/-- The call asks for a child of a region wherever there is room for whole pages. -/
inductive Operation.Seeks (region : Handle) : Operation → Prop where
  | addRegion {sketch : Sketch} : ¬ sketch.flags.choosesPlace → sketch.alignPow2.toNat ≤ pageShift →
      Seeks region (.addRegion region sketch)
  | addMapping {sketch : Sketch} (object : MemoryObject) (offset : UInt64) (access : PageFlags) :
      ¬ sketch.flags.choosesPlace → sketch.alignPow2.toNat ≤ pageShift →
      Seeks region (.addMapping region sketch object offset access)

/-- The extent lies beside all of a row, no further off than the largest distance that is tried. -/
def Extent.Beside (e : Extent) (row : List Extent) : Prop :=
  (∀ x ∈ row, e.stop ≤ x.start) ∧ (∃ x ∈ row, x.start ≤ e.stop + 128 * pageSize) ∨
    (∀ x ∈ row, x.stop ≤ e.start) ∧ ∃ x ∈ row, e.start ≤ x.stop + 128 * pageSize

theorem Extent.Beside.of_perm {e : Extent} {row row' : List Extent} (same : row.Perm row')
    (h : e.Beside row) : e.Beside row' := by
  simpa only [Beside, same.mem_iff] using h

/-- Extents in the order in which they came, which form a cluster. -/
structure Clustered (made : List Extent) : Prop where
  /-- Each came below all that were there, or above. -/
  outside : ∀ earlier e, earlier ++ [e] <+: made →
    (∀ x ∈ earlier, e.stop ≤ x.start) ∨ ∀ x ∈ earlier, x.stop ≤ e.start
  /-- From the lowest start to the highest end there are at most so many pages for each but the first. -/
  width : ∀ a ∈ made, ∀ b ∈ made,
    b.stop ≤ a.start + (made.map Extent.length).sum + 128 * pageSize * (made.length - 1)

namespace Clustered
variable {made : List Extent} {e : Extent}

theorem nil : Clustered [] where
  outside earlier e first := absurd (List.prefix_nil.mp first) (by simp)
  width := nofun

theorem singleton (e : Extent) : Clustered [e] where
  outside earlier x first := by
    have short := first.length_le
    have empty : earlier = [] := List.eq_nil_of_length_eq_zero (by simpa using short)
    rw [empty]
    exact .inl nofun
  width := by
    intro a ha b hb
    rw [List.mem_singleton.mp ha, List.mem_singleton.mp hb]
    have wide := e.start_lt_stop
    simp only [Extent.length, List.map_cons, List.map_nil, List.sum_singleton]
    omega

theorem concat (h : Clustered made) (beside : e.Beside made) : Clustered (made ++ [e]) where
  outside earlier x first := by
    rcases List.prefix_concat_iff.mp first with all | before
    · obtain ⟨rfl, rfl⟩ := List.concat_inj.mp (by simpa using all)
      exact beside.imp And.left And.left
    · exact h.outside earlier x before
  width := by
    have some : 0 < made.length := by
      rcases beside with ⟨_, x, hx, _⟩ | ⟨_, x, hx, _⟩ <;> exact List.length_pos_of_mem hx
    have count : (made ++ [e]).length - 1 = made.length - 1 + 1 := by
      simp only [List.length_append, List.length_singleton]
      omega
    have sum : ((made ++ [e]).map Extent.length).sum = (made.map Extent.length).sum + e.length := by
      simp
    have wide := e.start_lt_stop
    intro a ha b hb
    rw [count, sum, Nat.mul_succ]
    simp only [Extent.length]
    simp only [List.mem_append, List.mem_singleton] at ha hb
    rcases ha with ha | rfl <;> rcases hb with hb | rfl
    · have := h.width a ha b hb
      omega
    · rcases beside with ⟨below, _⟩ | ⟨_, x, hx, near⟩
      · have := below a ha
        omega
      · have := h.width a ha x hx
        omega
    · rcases beside with ⟨_, x, hx, near⟩ | ⟨above, _⟩
      · have := h.width x hx b hb
        omega
      · have := above b hb
        omega
    · omega

end Clustered

theorem Forest.Lined.exists_ends {e : Extent} {ns : Forest} (h : Lined e ns) (inhabited : ns ≠ []) :
    ∃ first last, ns.head? = some first ∧ ns.getLast? = some last ∧
      ∀ n ∈ ns, first.start ≤ n.start ∧ n.stop ≤ last.stop := by
  obtain ⟨first, head⟩ := Option.isSome_iff_exists.mp (List.isSome_head?.mpr inhabited)
  obtain ⟨last, top⟩ := Option.isSome_iff_exists.mp (List.getLast?_isSome.mpr inhabited)
  obtain ⟨rest, row⟩ := List.head?_eq_some_iff.mp head
  obtain ⟨before, row'⟩ := List.getLast?_eq_some_iff.mp top
  have low := h.apart
  have high := h.apart
  rw [row, List.pairwise_cons] at low
  rw [row', List.pairwise_append] at high
  refine ⟨first, last, head, top, fun n hn => ⟨?_, ?_⟩⟩
  · rw [row] at hn
    rcases List.mem_cons.mp hn with rfl | later
    · exact Nat.le_refl _
    · exact Nat.le_of_lt (Nat.lt_of_lt_of_le first.start_lt_stop (low.1 n later))
  · rw [row'] at hn
    rcases List.mem_append.mp hn with earlier | same
    · have apart := high.2.2 n earlier last List.mem_cons_self
      exact Nat.le_of_lt (Nat.lt_of_le_of_lt apart last.start_lt_stop)
    · rw [List.mem_singleton.mp same]

namespace Entropy

theorem isOn_uniform (entropy : Entropy) (n : Nat) : (entropy.uniform n).2.isOn = entropy.isOn := by
  obtain ⟨stream⟩ := entropy
  cases stream with
  | none => rfl
  | some k =>
      simp only [uniform]
      split <;> rfl

theorem isOn_byte (entropy : Entropy) : entropy.byte.2.isOn = entropy.isOn := by
  obtain ⟨stream⟩ := entropy
  cases stream <;> rfl

end Entropy

namespace Site

section
variable {M : Type} [Mmu M] {site : Site M} {r : Demand} {first last : Neighbour} {entropy : Entropy}

/-- The distance that a byte stands for is at most 128 pages, and is only ever halved. -/
theorem pages_le_of_mem_attempts {byte : Nat} (small : byte < 256) {attempt : Side × Nat}
    (tried : attempt ∈ attempts byte) : attempt.2 * pageSize ≤ 128 * pageSize := by
  have halved := mem_halvings (by omega) (mem_attempts.mp tried)
  exact Nat.mul_le_mul_right _ (by omega)

theorem Cluster.beside (h : site.Cluster r first last) {spot : Nat}
    (found : (site.compact r entropy).1.answer = .ok spot) :
    (spot + r.size ≤ first.extent.start ∧ first.extent.start ≤ spot + r.size + 128 * pageSize) ∨
      (last.extent.stop ≤ spot ∧ spot ≤ last.extent.stop + 128 * pageSize) := by
  simp only [compact, h.head, h.top, h.firstAttempt_lands] at found
  cases landed : (attempts (entropy.byte.1.getD 0)).findSome? (site.landing? r first last) with
  | none =>
      rw [landed] at found
      cases found
  | some a =>
      rw [landed] at found
      cases found
      obtain ⟨⟨side, pages⟩, tried, lands⟩ := List.exists_of_findSome?_eq_some landed
      have few := pages_le_of_mem_attempts entropy.byte_getD_lt tried
      cases side with
      | below =>
          rw [landing?] at lands
          obtain ⟨_, same⟩ := Option.ite_none_right_eq_some.mp lands
          have place := Option.some.inj same
          dsimp only at few
          omega
      | above =>
          rw [landing?, padded?_above (Nat.le_of_lt h.bounds.2.2)] at lands
          obtain ⟨_, same⟩ := Option.ite_none_right_eq_some.mp lands
          have place := Option.some.inj same
          dsimp only at few
          omega

theorem isOn_uniform (site : Site M) (r : Demand) (entropy : Entropy) :
    (site.uniform r entropy).2.isOn = entropy.isOn := by
  simp only [uniform]
  split
  · rfl
  · split
    · rfl
    · exact entropy.isOn_uniform _

theorem isOn_choose (site : Site M) (r : Demand) (clustered : Bool) (entropy : Entropy) :
    (site.choose r clustered entropy).2.isOn = entropy.isOn := by
  have kept : (site.byPolicy r clustered entropy).2.isOn = entropy.isOn := by
    simp only [byPolicy]
    split
    · rfl
    · split
      · simp only [compact]
        split
        · exact entropy.isOn_byte
        · exact site.isOn_uniform r entropy
      · exact site.isOn_uniform r entropy
  simp only [choose]
  split <;> exact kept

end
end Site

namespace Space

section
variable {M : Type} [Mmu M]

omit [Mmu M] in
theorem entropy_adopt (s : Space M) (parent : Handle) (built : Built) :
    (s.adopt parent built).state.entropy = s.entropy := by
  simp only [adopt]
  split
  · rfl
  · split
    · rfl
    · split <;> rfl

omit [Mmu M] in
theorem entropy_addAt (s : Space M) (parent : Handle) (base : Nat) (q : NodeRequest) :
    (s.addAt parent base q).state.entropy = s.entropy := by
  simp only [addAt]
  split
  · rfl
  · exact entropy_adopt _ _ _

theorem entropy_unmapRange (s : Space M) (region : Handle) (base size : Nat) (sparing : Bool) :
    (s.unmapRange region base size sparing).state.entropy = s.entropy := by
  simp only [unmapRange]
  split
  · rfl
  · split <;> rfl

theorem entropy_addOver (s : Space M) (parent : Handle) (base : Nat) (q : NodeRequest) :
    (s.addOver parent base q).state.entropy = s.entropy := by
  simp only [addOver]
  split
  · rfl
  · next built r made =>
      have same := entropy_unmapRange { s with resources := r } parent base q.size true
      split
      · next unmapped =>
          rw [unmapped] at same
          exact same
      · next unmapped =>
          rw [unmapped] at same
          exact (entropy_adopt _ _ _).trans same

theorem isRandomized_add (s : Space M) (parent : Handle) (q : NodeRequest) :
    (s.add parent q).state.isRandomized = s.isRandomized := by
  simp only [add]
  split
  · rfl
  · split
    · rfl
    · split
      · rfl
      · exact congrArg Entropy.isOn (entropy_addAt _ _ _ _)
      · exact congrArg Entropy.isOn (entropy_addOver _ _ _ _)
      · simp only [addAnywhere]
        split
        · exact Site.isOn_choose _ _ _ _
        · exact (congrArg Entropy.isOn (entropy_addAt _ _ _ _)).trans (Site.isOn_choose _ _ _ _)

theorem Kept.perform_isRandomized {s : Space M} (kept : s.Kept []) (commitments : Commitments)
    (op : Operation) :
    (s.perform commitments op).state.1.isRandomized = s.isRandomized := by
  cases op with
  | addRegion parent sketch =>
      simp only [perform, Outcome.beside, Outcome.map, addRegion]
      split
      · rfl
      · exact isRandomized_add _ _ _
  | addMapping parent sketch object offset access =>
      simp only [perform, Outcome.beside, Outcome.map, addMapping]
      split
      · rfl
      · exact isRandomized_add _ _ _
  | unmap region base size =>
      simp only [perform, Outcome.beside, Outcome.map, unmap]
      split
      · rfl
      · exact congrArg Entropy.isOn (entropy_unmapRange _ _ _ _ _)
  | protect region base size access =>
      simp only [perform, Outcome.beside, Outcome.map, protect]
      repeat' split
      all_goals rfl
  | destroy node =>
      simp only [perform, Outcome.beside, Outcome.map, destroy]
      repeat' split
      all_goals rfl
  | resolve region address flags =>
      simp only [perform, Outcome.map]
      rcases resolveBelow_cases kept commitments region address flags with
        ⟨_, _, _, _, same⟩ | ⟨_, _, _, _, _, _, _, _, _, _, same⟩
      · rw [same]
        rfl
      · rw [same]
        rfl
  | find region address => rfl
  | report node depth =>
      simp only [perform, Outcome.beside, Outcome.map, reportListing]
      split <;> rfl

end

variable {s s' : Space PageTable} {w w' : Space PageTable × Commitments} {l : Label} {children : Forest}
variable {n : Node} {q : NodeRequest} {region h : Handle} {base : Nat} {op : Operation}

theorem exists_add_of_seeks {commitments : Commitments} (seeks : op.Seeks region)
    (done : s.perform commitments op = .ok (some h) w) :
    ∃ q : NodeRequest, q.Paged ∧ ¬ q.flags.choosesPlace ∧ q.alignPow2 ≤ pageShift ∧
      s.add region q = .ok h w.1 := by
  cases seeks with
  | @addRegion sketch idle page =>
      obtain ⟨_, added, same⟩ := Outcome.of_map_beside done
      cases same
      rcases addRegion_cases s region sketch with failed | ⟨paged, same⟩
      · cases failed.symm.trans added
      · exact ⟨sketch.region, paged, idle, page, same.symm.trans added⟩
  | @addMapping sketch object offset access idle page =>
      obtain ⟨_, added, same⟩ := Outcome.of_map_beside done
      cases same
      rcases addMapping_cases s region sketch object offset access with failed | ⟨paged, same⟩
      · cases failed.symm.trans added
      · refine ⟨_, paged, ?_, page, same.symm.trans added⟩
        rwa [Sketch.mapping, Flags.choosesPlace_union_grantsNeeded]

theorem Kept.paged (kept : s.Kept []) (alive : n ∈ s.nodes) : n.extent.Paged := by
  have tidy := kept.tidy alive
  cases n with
  | region l children => exact tidy
  | mapping m => exact tidy.1

theorem Kept.cluster (kept : s.Kept []) (unguarded : s.resources.mmu.guard = 0)
    (alive : .region l children ∈ s.nodes) {r : Demand} (whole : r.size % pageSize = 0)
    (page : r.alignPow2 = pageShift) {first last : Node} (head : children.head? = some first)
    (top : children.getLast? = some last) :
    (l.site s.resources.mmu children).Cluster r ⟨first.extent, first.access?⟩
      ⟨last.extent, last.access?⟩ := by
  constructor
  case ordered => exact Site.ordered_of_lined (kept.lined alive) _
  case paged =>
    refine ⟨kept.paged alive, List.forall_mem_map.mpr fun n hn => ?_⟩
    exact kept.paged (child_mem_nodes alive hn)
  case head => rw [Label.site, List.head?_map, head, Option.map_some]
  case top => rw [Label.site, List.getLast?_map, top, Option.map_some]
  case plain => exact PageTable.unguarded unguarded
  case whole => exact whole
  case page => exact page

theorem Fulfils.beside (h : s.Fulfils q l children base n s') (kept : s.Kept [])
    (randomized : s.isRandomized) (unguarded : s.resources.mmu.guard = 0)
    (compact : l.flags.contains RegionFlags.compact) (paged : q.Paged) (idle : ¬ q.flags.choosesPlace)
    (page : q.alignPow2 ≤ pageShift) (inhabited : children ≠ []) :
    n.extent.Beside (children.map Node.extent) := by
  obtain ⟨r, demand, found⟩ := h.searched idle
  obtain ⟨first, last, head, top, ends⟩ := (kept.lined h.alive).exists_ends inhabited
  have size : r.size = q.size := (Demand.of?_eq_some demand).1
  have cluster := kept.cluster unguarded h.alive (r := r) (size ▸ paged.size)
    ((Demand.alignPow2_of? demand).trans (Nat.max_eq_right page)) head top
  have answer : ((l.site s.resources.mmu children).compact r s.entropy).1.answer = .ok base := by
    rw [Site.choose_answer, compact, Site.byPolicy, if_neg (by simpa [isRandomized] using randomized)] at found
    exact found
  have start : n.extent.start = base := h.made.start
  have stop : n.extent.stop = base + r.size := size ▸ h.made.stop
  rw [Extent.Beside, List.forall_mem_map, List.forall_mem_map, start, stop]
  rcases cluster.beside answer with ⟨below, near⟩ | ⟨above, near⟩
  · refine .inl ⟨fun x hx => ?_, first.extent, List.mem_map_of_mem (List.mem_of_mem_head? head), near⟩
    exact Nat.le_trans below (ends x hx).1
  · refine .inr ⟨fun x hx => ?_, last.extent, List.mem_map_of_mem (List.mem_of_getLast? top), near⟩
    exact Nat.le_trans (ends x hx).2 above

theorem Fulfils.free (h : s.Fulfils q l children base n s') (kept : s.Kept [])
    (idle : ¬ q.flags.choosesPlace) : ∀ x ∈ children, x.stop ≤ n.start ∨ n.stop ≤ x.start := by
  obtain ⟨r, demand, found⟩ := h.searched idle
  have places := Label.places_of_choose (kept.lined h.alive) demand found
  rw [h.made.start, h.made.stop]
  exact places.free

def rowOf (s : Space M) (region : Handle) : Option (List Extent) :=
  (s.liveRegion region).toOption.map fun x => x.2.map Node.extent

theorem Kept.rowOf_eq (kept : s.Kept []) (alive : .region l children ∈ s.nodes) :
    s.rowOf l.handle = some (children.map Node.extent) := by
  rw [rowOf, kept.liveRegion_eq alive]
  rfl

theorem exists_alive_of_rowOf {row : List Extent} (found : s.rowOf region = some row) :
    ∃ l children, l.handle = region ∧ .region l children ∈ s.nodes ∧ children.map Node.extent = row := by
  obtain ⟨⟨l, children⟩, live, same⟩ := Option.map_eq_some_iff.mp found
  cases answer : s.liveRegion region with
  | error f =>
      rw [answer] at live
      cases live
  | ok x =>
      rw [answer] at live
      cases live
      obtain ⟨handle, alive⟩ := liveRegion_ok answer
      exact ⟨l, children, handle, alive, same⟩

/-- The calls that fill a region, and the extents of what has become its children in turn. All others leave
the row of its children's extents as it is. -/
inductive Fills (region : Handle) (w : Space PageTable × Commitments) :
    List Extent → Space PageTable × Commitments → Prop where
  | start : Fills region w [] w
  | made {row : List Extent} {w' w'' : Space PageTable × Commitments} {op : Operation} {n : Node} :
      Fills region w row w' → op.Seeks region → w'.1.perform w'.2 op = .ok (some n.handle) w'' →
      n ∈ w''.1.nodes → Fills region w (row ++ [n.extent]) w''
  | aside {row : List Extent} {w' : Space PageTable × Commitments} (op : Operation) :
      Fills region w row w' → (w'.1.perform w'.2 op).state.1.rowOf region = w'.1.rowOf region →
      Fills region w row (w'.1.perform w'.2 op).state

theorem Fills.exists_made {row : List Extent} (fills : Fills region w row w') (kept : w'.1.Kept [])
    (seeks : op.Seeks region) (answer : (w'.1.perform w'.2 op).answer = .ok (some h)) :
    ∃ e, Fills region w (row ++ [e]) (w'.1.perform w'.2 op).state := by
  have done : w'.1.perform w'.2 op = .ok (some h) (w'.1.perform w'.2 op).state := by
    rw [Outcome.ok, ← answer]
  obtain ⟨q, paged, _, _, added⟩ := exists_add_of_seeks seeks done
  obtain ⟨_, _, _, n, _, rfl, fulfils⟩ := kept.add_made paged added
  exact ⟨n.extent, .made fills seeks done fulfils.child.member⟩

/-- What holds of a space while a compact region is filled, of whose children these are the extents. -/
structure Filling (l : Label) (row : List Extent) (s : Space PageTable) : Prop where
  kept : s.Kept []
  randomized : s.isRandomized
  unguarded : s.resources.mmu.guard = 0
  filled : ∃ children, .region l children ∈ s.nodes ∧ (children.map Node.extent).Perm row
  clustered : Clustered row

namespace Filling
variable {row : List Extent} {commitments : Commitments}

theorem made (h : Filling l row s) (compact : l.flags.contains RegionFlags.compact)
    (seeks : op.Seeks l.handle) (done : s.perform commitments op = .ok (some n.handle) w')
    (alive' : n ∈ w'.1.nodes) : Filling l (row ++ [n.extent]) w'.1 := by
  obtain ⟨children, alive, filled⟩ := h.filled
  have follows := perform_follows .pageTable h.kept commitments op
  have randomized := h.kept.perform_isRandomized commitments op
  rw [done] at follows randomized
  obtain ⟨q, paged, idle, page, added⟩ := exists_add_of_seeks seeks done
  obtain ⟨l', children', base, n', handle, same, fulfils⟩ := h.kept.add_made paged added
  cases h.kept.eq_of_handle fulfils.alive alive handle
  cases follows.kept.eq_of_handle fulfils.child.member alive' same
  have gains := fulfils.gains (fulfils.free h.kept idle)
  constructor
  case kept => exact follows.kept
  case randomized => exact randomized.trans h.randomized
  case unguarded => exact follows.evolves.guard.trans h.unguarded
  case filled =>
    refine ⟨_, gains.row, ?_⟩
    apply ((Index.insert_perm n children).map Node.extent).trans
    exact (filled.cons n.extent).trans (List.perm_append_singleton n.extent row).symm
  case clustered =>
    by_cases inhabited : children = []
    · subst inhabited
      rw [← filled.nil_eq]
      exact .singleton n.extent
    · have beside := fulfils.beside h.kept h.randomized h.unguarded compact paged idle page inhabited
      exact h.clustered.concat (beside.of_perm filled)

theorem aside (h : Filling l row s)
    (same : (s.perform commitments op).state.1.rowOf l.handle = s.rowOf l.handle) :
    Filling l row (s.perform commitments op).state.1 := by
  obtain ⟨children, alive, filled⟩ := h.filled
  have follows := perform_follows .pageTable h.kept commitments op
  rw [h.kept.rowOf_eq alive] at same
  obtain ⟨l', children', handle, alive', row'⟩ := exists_alive_of_rowOf same
  have remains : (Entry.region l).Remains (.region l') :=
    (perform_recalls .pageTable h.kept commitments op).remains h.kept follows.kept alive alive' handle
  cases remains
  constructor
  case kept => exact follows.kept
  case randomized => exact (h.kept.perform_isRandomized commitments op).trans h.randomized
  case unguarded => exact follows.evolves.guard.trans h.unguarded
  case filled => exact ⟨children', alive', row' ▸ filled⟩
  case clustered => exact h.clustered

theorem of_fills (h : Filling l [] w.1) (compact : l.flags.contains RegionFlags.compact)
    (fills : Fills l.handle w row w') : Filling l row w'.1 := by
  induction fills with
  | start => exact h
  | made _ seeks done alive ih => exact ih.made compact seeks done alive
  | aside op _ same ih => exact ih.aside same

end Filling

/-- A compact region that is empty at some time and is then filled in any way holds one cluster, in a space
whose places are random and whose mmu asks for no guard. -/
theorem run_clusters {refuses : Bool} {c : SpaceConfig} {entropy : Entropy}
    (new : Space.new (⟨0, refuses, []⟩ : PageTable) c entropy = .ok s) (randomized : s.isRandomized)
    (commitments : Commitments) (ops : List Operation)
    (empty : .region l [] ∈ (run (s, commitments) ops).1.nodes)
    (compact : l.flags.contains RegionFlags.compact) {row : List Extent}
    (fills : Fills l.handle (run (s, commitments) ops) row w) :
    ∃ children, w.1.liveRegion l.handle = .ok (l, children) ∧ (children.map Node.extent).Perm row ∧
      Clustered row := by
  have start := run_induction (P := fun s => s.isRandomized) (w := (s, commitments)) .pageTable ops
    (fun _ commitments op _ kept on => (kept.perform_isRandomized commitments op).trans on)
    (new_kept new) randomized
  have unguarded := run_guard (new_kept new) commitments ops
  rw [new_mmu new] at unguarded
  have filling : Filling l [] (run (s, commitments) ops).1 :=
    ⟨start.1, start.2, unguarded, ⟨[], empty, .refl _⟩, .nil⟩
  have filled := filling.of_fills compact fills
  obtain ⟨children, alive, same⟩ := filled.filled
  exact ⟨children, filled.kept.liveRegion_eq alive, same, filled.clustered⟩

/-- Two regions fill a compact one. -/
theorem run_clusters_pair :
    ∃ s l w row, Space.new PageTable.empty ⟨.kernel, 0, 0x100000, .empty, 4⟩
        ⟨some (Keystream.ofSeed Keystream.sampleSeed)⟩ = .ok s ∧
      Fills l.handle (run (s, []) [.addRegion ⟨0, 0⟩
        { size := 0x40000, flags := RegionFlags.specific ∪ RegionFlags.compact }]) row w ∧
      row.length = 2 ∧ ∃ children, w.1.liveRegion l.handle = .ok (l, children) ∧
        (children.map Node.extent).Perm row ∧ Clustered row := by
  obtain ⟨s, new⟩ : ∃ s, Space.new PageTable.empty ⟨.kernel, 0, 0x100000, .empty, 4⟩
      ⟨some (Keystream.ofSeed Keystream.sampleSeed)⟩ = .ok s := ⟨_, rfl⟩
  obtain ⟨w, called⟩ : ∃ w, run (s, []) [.addRegion ⟨0, 0⟩
      { size := 0x40000, flags := RegionFlags.specific ∪ RegionFlags.compact }] = w := ⟨_, rfl⟩
  obtain ⟨op, first⟩ : ∃ op, Operation.addRegion ⟨1, 1⟩ { size := 0x1000 } = op := ⟨_, rfl⟩
  obtain ⟨op', second⟩ : ∃ op, Operation.addRegion ⟨1, 1⟩ { size := 0x2000 } = op := ⟨_, rfl⟩
  have made : ((w.1.liveRegion ⟨1, 1⟩).toOption.any fun x =>
        x.2.isEmpty && x.1.flags.contains RegionFlags.compact) ∧
      (w.1.perform w.2 op).answer = .ok (some ⟨2, 2⟩) ∧
      ((w.1.perform w.2 op).state.1.perform (w.1.perform w.2 op).state.2 op').answer =
        .ok (some ⟨3, 3⟩) := by
    subst second first called
    cases new
    decide +kernel
  obtain ⟨region, answer, answer'⟩ := made
  obtain ⟨l, children, handle, empty, test⟩ := exists_alive_of_any region
  simp only [Bool.and_eq_true, List.isEmpty_iff] at test
  obtain ⟨rfl, compact⟩ := test
  have seeks : op.Seeks l.handle := by
    rw [handle, ← first]
    exact .addRegion (by decide) (by decide)
  have seeks' : op'.Seeks l.handle := by
    rw [handle, ← second]
    exact .addRegion (by decide) (by decide)
  have kept := run_kept (w := (s, [])) .pageTable (new_kept new)
  subst called
  obtain ⟨e, one⟩ := Fills.start.exists_made (kept _) seeks answer
  obtain ⟨e', two⟩ := one.exists_made (perform_follows .pageTable (kept _) _ op).kept seeks' answer'
  exact ⟨s, l, _, _, new, two, rfl, run_clusters new (by cases new; rfl) [] _ empty compact two⟩

end Space
end RegionTree
