import RegionTree.Proofs.Protect
import RegionTree.Proofs.Subtraction

/-! The check before permissions change passes exactly for a range whose pages all lie in mappings that may
have the permissions. -/
namespace RegionTree

/-- The mapping may get the permissions in `access`. -/
def Mapping.MayHave (m : Mapping) (image : Option Handle) (access : PageFlags) : Prop :=
  access.fits m.flags ∧ image ≠ some m.handle

namespace Forest
variable {e : Extent} {ns : Forest} {n : Node} {a : Nat}

/-- A mapping of the row that may get the permissions holds the address. -/
def Offers (ns : Forest) (image : Option Handle) (access : PageFlags) (a : Nat) : Prop :=
  ∃ m, .mapping m ∈ ns ∧ a ∈ m.extent.toSpan ∧ m.MayHave image access

theorem childAt?_eq_some (lined : Lined e ns) (hn : n ∈ ns) (inside : a ∈ n.extent.toSpan) :
    childAt? a ns = some n := by
  obtain ⟨above, under⟩ := inside
  obtain ⟨low, high, rfl, found, _, atMost, more⟩ := Index.exists_split a lined.sorted
  have here : n ∈ low := (List.mem_append.mp hn).resolve_right fun later =>
    Nat.not_lt_of_le above (more n later)
  obtain ⟨p, last⟩ := Option.isSome_iff_exists.mp (List.getLast?_isSome.mpr (List.ne_nil_of_mem here))
  obtain ⟨rest, rfl⟩ := List.getLast?_eq_some_iff.mp last
  -- Were it an earlier one, the last would start at its end or above, and so beyond the address.
  have same : n = p := by
    rcases List.mem_append.mp here with earlier | same
    · have apart := (lined_append.mp (lined_append.mp lined).1).2.2 n earlier p (by simp)
      have := atMost p (by simp)
      exact absurd under (Nat.not_lt_of_le (Nat.le_trans apart this))
    · exact List.mem_singleton.mp same
  rw [childAt?, found, last, Option.filter_eq_some_iff, same]
  exact ⟨rfl, Span.contains_iff.mpr (same ▸ ⟨above, under⟩)⟩

theorem of_childAt? (found : childAt? a ns = some n) : n ∈ ns ∧ a ∈ n.extent.toSpan := by
  rw [childAt?, Option.filter_eq_some_iff] at found
  exact ⟨Index.mem_of_atOrBelow? found.1, Span.contains_iff.mp found.2⟩

end Forest

namespace Space
variable {M : Type} {s : Space M} {image : Option Handle} {access : PageFlags} {e : Extent} {ns : Forest}
variable {l : Label} {children : Forest} {target : Span}

/-- The chain that is checked holds every address from its start on. -/
theorem checkMapped_offers {last stop : Nat} (ok : checkMapped image access last ns = .ok stop) {a : Nat}
    (low : last ≤ a) (high : a < stop) : ns.Offers image access a := by
  induction ns generalizing last with
  | nil =>
      cases ok
      omega
  | cons n ns ih =>
      cases n with
      | region l children => cases ok
      | mapping m =>
          rw [checkMapped] at ok
          split at ok
          · cases ok
          · next start =>
              split at ok
              · cases ok
              · next allowed =>
                  simp only [not_or, Bool.not_eq_true', Bool.not_eq_false] at allowed
                  by_cases here : a < m.extent.stop
                  · have start := not_not.mp start
                    exact ⟨m, List.mem_cons_self, ⟨start ▸ low, here⟩, allowed⟩
                  · obtain ⟨m', hm', inside⟩ := ih ok (Nat.le_of_not_lt here)
                    exact ⟨m', List.mem_cons_of_mem _ hm', inside⟩

theorem exists_checkMapped (lined : Forest.Lined e ns) (paged : ∀ m, .mapping m ∈ ns → m.extent.Paged)
    {last stop : Nat} (aligned : last % pageSize = 0) (low : ∀ n ∈ ns, last ≤ n.start)
    (high : ∀ n ∈ ns, n.start < stop)
    (offers : ∀ page, page % pageSize = 0 → last ≤ page → page < stop → ns.Offers image access page) :
    ∃ reached, checkMapped image access last ns = .ok reached ∧ stop ≤ reached := by
  induction ns generalizing last with
  | nil =>
      refine ⟨last, rfl, Nat.le_of_not_lt fun short => ?_⟩
      obtain ⟨_, none, _⟩ := offers last aligned (Nat.le_refl _) short
      cases none
  | cons n ns ih =>
      obtain ⟨first, _⟩ := List.pairwise_cons.mp lined.apart
      have bottom := low n List.mem_cons_self
      have some := n.start_lt_stop
      -- The first page lies in the first child, since the others start behind its end.
      obtain ⟨m, hm, ⟨above, _⟩, allowed⟩ := offers last aligned (Nat.le_refl _)
        (Nat.lt_of_le_of_lt bottom (high n List.mem_cons_self))
      have here : Node.mapping m = n := by
        refine (List.mem_cons.mp hm).resolve_right fun later => ?_
        have := first _ later
        simp only [Node.start_mapping] at this
        omega
      subst here
      have start : m.extent.start = last := Nat.le_antisymm above bottom
      have rest : ∀ page, page % pageSize = 0 → m.extent.stop ≤ page → page < stop →
          Forest.Offers ns image access page := by
        intro page whole beyond under
        obtain ⟨m', hm', inside, allowed'⟩ := offers page whole (by omega) under
        refine ⟨m', (List.mem_cons.mp hm').resolve_left fun same => ?_, inside, allowed'⟩
        cases same
        exact Nat.not_lt_of_le beyond inside.2
      obtain ⟨reached, chained, far⟩ := ih lined.tail (fun m' hm' => paged m' (List.mem_cons_of_mem _ hm'))
        (paged m hm).2 first (fun n hn => high n (List.mem_cons_of_mem _ hn)) rest
      refine ⟨reached, ?_, far⟩
      rw [checkMapped, if_neg (not_not.mpr start), if_neg (by simp [allowed.1, allowed.2])]
      exact chained

/-- The check finds the range exactly if it lies in the region and all its pages are held by mappings that
may get the permissions. -/
theorem Kept.protectTarget_iff (kept : s.Kept []) (alive : .region l children ∈ s.nodes) {base size : Nat}
    (same : target = ⟨base, base + size⟩) (aligned : base % pageSize = 0) :
    s.protectTarget l.handle base size access = .ok (target, Forest.slice target children) ↔
      target.start < target.stop ∧ l.extent.covers target ∧
        ∀ page ∈ target, page % pageSize = 0 → children.Offers s.resources.image access page := by
  have live := kept.liveRegion_eq alive
  have lined := kept.lined alive
  constructor
  · intro ok
    obtain ⟨⟨l', children'⟩, live', ok⟩ := check_eq_ok.mp ok
    cases live.symm.trans live'
    obtain ⟨target', inside, ok⟩ := check_eq_ok.mp ok
    dsimp only at ok
    split at ok
    · cases ok
    · next first found =>
        obtain ⟨reached, chained, ok⟩ := check_eq_ok.mp ok
        obtain ⟨_, far, ok⟩ := check_eq_ok.mp ok
        cases ok
        have far := ensure_eq_ok.mp far
        have ranges := targetIn_ok inside
        refine ⟨ranges.wide, Span.covers_iff.mpr ⟨ranges.low, ranges.high⟩, ?_⟩
        rintro page ⟨low, high⟩ _
        have below := (Forest.of_childAt? found).2.1
        obtain ⟨m, hm, offered⟩ := checkMapped_offers chained
          (Nat.le_trans below (ranges.start ▸ low)) (Nat.lt_of_lt_of_le high far)
        exact ⟨m, Forest.mem_of_mem_inside hm, offered⟩
  · rintro ⟨wide, inside, offers⟩
    subst same
    have length : 0 < size := Nat.pos_of_lt_add_right wide
    obtain ⟨m, hm, holds, allowed⟩ := offers base ⟨Nat.le_refl _, wide⟩ aligned
    have paged : ∀ m, .mapping m ∈ children → m.extent.Paged := fun m hm =>
      (kept.tidy (child_mem_nodes alive hm)).1
    have found : Forest.childAt? base children = some (.mapping m) :=
      Forest.childAt?_eq_some lined hm holds
    -- The slice begins with the child that holds the base, even where this child starts below it.
    have first : .mapping m ∈ (Forest.slice ⟨base, base + size⟩ children).inside :=
      Forest.mem_inside_of_overlaps lined hm holds.2 (Nat.lt_of_le_of_lt holds.1 wide)
    have low : ∀ n ∈ (Forest.slice ⟨base, base + size⟩ children).inside, m.extent.start ≤ n.start := by
      intro n hn
      have reaches := (Forest.overlaps_of_mem_inside lined hn).1
      rcases lined.apart_of_mem hm n (Forest.mem_of_mem_inside hn) with rfl | below | above
      · exact Nat.le_refl _
      · exact absurd holds.1 (Nat.not_le_of_lt (Nat.lt_of_lt_of_le reaches below))
      · exact Nat.le_trans (Nat.le_of_lt m.extent.start_lt_stop) above
    have offered : ∀ page, page % pageSize = 0 → m.extent.start ≤ page → page < base + size →
        (Forest.slice ⟨base, base + size⟩ children).inside.Offers s.resources.image access page := by
      intro page whole above under
      by_cases below : page < base
      · exact ⟨m, first, ⟨above, Nat.lt_trans below holds.2⟩, allowed⟩
      · have beyond := Nat.le_of_not_lt below
        obtain ⟨m', hm', inside', allowed'⟩ := offers page ⟨beyond, under⟩ whole
        refine ⟨m', ?_, inside', allowed'⟩
        exact Forest.mem_inside_of_overlaps lined hm' (Nat.lt_of_le_of_lt beyond inside'.2)
          (Nat.lt_of_le_of_lt inside'.1 under)
    obtain ⟨reached, chained, far⟩ := exists_checkMapped (lined.inside ⟨base, base + size⟩)
      (fun m hm => paged m (Forest.mem_of_mem_inside hm)) (paged m hm).1 low
      (fun n hn => (Forest.overlaps_of_mem_inside lined hn).2) offered
    refine check_eq_ok.mpr ⟨(l, children), live, check_eq_ok.mpr ⟨_, targetIn_eq length inside, ?_⟩⟩
    simp only [found]
    exact check_eq_ok.mpr ⟨reached, chained, check_eq_ok.mpr ⟨(), ensure_eq_ok.mpr far, rfl⟩⟩

end Space
end RegionTree
