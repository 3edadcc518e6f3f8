import RegionTree.Proofs.Descent
import RegionTree.Proofs.Pieces

/-! What splitting and narrowing mappings do to the ledger and to the row of children at hand. -/
namespace RegionTree
variable {M : Type} {purpose : Purpose}

/-! ### Splitting -/

theorem Extent.cut?_eq_some {e low high : Extent} {a : Nat} (h : e.cut? a = some (low, high)) :
    e.start < a ∧ a < e.stop ∧ low.start = e.start ∧ low.stop = a ∧ high.start = a ∧
      high.stop = e.stop := by
  simp only [cut?] at h
  split at h
  · next inside => cases h; exact ⟨inside.1, inside.2, rfl, rfl, rfl, rfl⟩
  · cases h

theorem Extent.cut?_eq_none {e : Extent} {a : Nat} (h : e.cut? a = none) :
    a ≤ e.start ∨ e.stop ≤ a := by
  simp only [cut?] at h
  split at h
  · cases h
  · next outside => omega

theorem Extent.exists_cut? {e : Extent} {a : Nat} (low : e.start < a) (high : a < e.stop) :
    ∃ lower upper, e.cut? a = some (lower, upper) := by
  rw [cut?, dif_pos ⟨low, high⟩]
  exact ⟨_, _, rfl⟩

namespace Resources

theorem split_ok {r r' : Resources M} {m tail : Mapping} {high : Extent}
    (done : r.split m high = ⟨.ok tail, r'⟩) :
    ∃ h held, r.countGeneration.2.allocate r.countGeneration.1 = ⟨.ok h, held⟩ ∧
      tail = m.tail h high ∧ held.Quiet r' := by
  simp only [split] at done
  split at done
  · cases done
  · next offset sum =>
      simp only [Address.add] at sum
      split at sum
      · cases sum
        split at done
        · cases done
        · next h held taken =>
            cases done
            exact ⟨h, held, taken, rfl, held.quiet_note _⟩
      · cases sum

theorem allocate_error {r r' : Resources M} {generation : Nat} {f : Failure}
    (full : r.allocate generation = ⟨.error f, r'⟩) :
    f = Error.noMemory ∧ r.Quiet r' ∧ r.capacity ≤ r.inUse := by
  simp only [allocate] at full
  split at full
  · next none => cases full; exact ⟨rfl, r.quiet_note _, none⟩
  · split at full <;> cases full

theorem split_error {r r' : Resources M} {m : Mapping} {high : Extent} {f : Failure}
    (failed : r.split m high = ⟨.error f, r'⟩) :
    r.Quiet r' ∧ (m.offset + (high.start - m.extent.start) < Address.limit →
      f = Error.noMemory ∧ r.capacity ≤ r.inUse) := by
  simp only [split] at failed
  split at failed
  · next sum =>
      cases failed
      refine ⟨r.quiet_countGeneration, fun fits => ?_⟩
      rw [Address.add, if_pos fits] at sum
      cases sum
  · split at failed
    · next full =>
        cases failed
        obtain ⟨same, quiet, none⟩ := allocate_error full
        exact ⟨r.quiet_countGeneration.trans quiet, fun _ => ⟨same, none⟩⟩
    · cases failed

theorem split_of_room {r : Resources M} {m : Mapping} {high : Extent} (room : r.inUse < r.capacity)
    (fits : m.offset + (high.start - m.extent.start) < Address.limit) :
    ∃ new r', r.split m high = ⟨.ok (m.tail new high), r'⟩ ∧ new.generation = r.nextGeneration := by
  cases done : r.split m high with
  | mk answer r' =>
      cases answer with
      | error f => exact absurd ((split_error done).2 fits).2 (Nat.not_le_of_lt room)
      | ok tail =>
          obtain ⟨new, held, taken, rfl, _⟩ := split_ok done
          exact ⟨new, r', rfl, (allocate_ok taken).1⟩

theorem split_of_full {r : Resources M} (m : Mapping) (high : Extent) (full : r.capacity ≤ r.inUse) :
    ∃ f r', r.split m high = ⟨.error f, r'⟩ := by
  cases done : r.split m high with
  | mk answer r' =>
      cases answer with
      | error f => exact ⟨f, r', rfl⟩
      | ok tail =>
          obtain ⟨_, _, taken, _⟩ := split_ok done
          exact absurd full (Nat.not_le_of_lt (allocate_ok taken).2.1)

theorem split_image {r r' : Resources M} {m tail : Mapping} {high : Extent}
    (done : r.split m high = ⟨.ok tail, r'⟩) : r'.image = r.image := by
  obtain ⟨h, held, taken, _, quiet⟩ := split_ok done
  exact quiet.image.trans (allocate_image (r := r.countGeneration.2) taken)

variable [Mmu M]

theorem split_evolves {r r' : Resources M} {m tail : Mapping} {low high : Extent} {a : Nat}
    (rest : List Entry) (cut : m.extent.cut? a = some (low, high)) (paged : a % pageSize = 0)
    (other : r.image ≠ some m.handle) (done : r.split m high = ⟨.ok tail, r'⟩) :
    Evolves purpose (.mapping m :: rest) r (.mapping (m.lower low) :: .mapping tail :: rest) r' := by
  obtain ⟨_, _, start, between, rfl, stop⟩ := Extent.cut?_eq_some cut
  obtain ⟨h, held, taken, rfl, quiet⟩ := split_ok done
  have image : held.image ≠ some m.handle := by
    have same : held.image = r.image := allocate_image (r := r.countGeneration.2) taken
    exact same ▸ other
  exact ((Evolves.hold _ taken).trans (.split h rest held start between stop paged image)).trans
    (.quiet _ quiet)

theorem cutTail_evolves {r : Resources M} {m : Mapping} {low high : Extent} {a : Nat}
    (rest : List Entry) (cut : m.extent.cut? a = some (low, high)) (paged : a % pageSize = 0)
    (other : r.image ≠ some m.handle) :
    Evolves purpose (.mapping m :: rest) r (.mapping (m.lower low) :: rest)
      (r.unmapPages ⟨a, m.extent.stop⟩) := by
  obtain ⟨_, inside, start, stop, _, _⟩ := Extent.cut?_eq_some cut
  subst stop
  exact (Evolves.cutTail rest r start inside paged other).trans (.quiet _ (quiet_report _ _))

theorem cutHead_evolves {r : Resources M} {m : Mapping} {low high : Extent} {a : Nat}
    (rest : List Entry) (cut : m.extent.cut? a = some (low, high)) (paged : a % pageSize = 0)
    (other : r.image ≠ some m.handle) :
    Evolves purpose (.mapping m :: rest) r (.mapping (m.upper high) :: rest)
      (r.unmapPages ⟨m.extent.start, a⟩) := by
  obtain ⟨inside, _, _, _, start, stop⟩ := Extent.cut?_eq_some cut
  subst start
  exact (Evolves.cutHead rest r inside stop paged other).trans (.quiet _ (quiet_report _ _))

end Resources

/-! ### Working on a row -/

theorem Progress.overEach_singleton (step : Resources M → Node → Progress M) (r : Resources M)
    (n : Node) :
    Progress.overEach step r [n] = step r n := by
  simp only [Progress.overEach, Progress.before, Progress.after, List.append_nil]
  split
  · rfl
  · next fine => rw [← fine]

theorem Progress.forall_mem_overEach {step : Resources M → Node → Progress M} {ns : Forest}
    {P : Node → Prop} (each : ∀ n ∈ ns, ∀ r, (step r n).failure = none → ∀ c ∈ (step r n).children, P c)
    (r : Resources M) (done : (Progress.overEach step r ns).failure = none) :
    ∀ c ∈ (Progress.overEach step r ns).children, P c := by
  induction ns generalizing r with
  | nil => simp [Progress.overEach]
  | cons n ns ih =>
      obtain ⟨first, later⟩ := List.forall_mem_cons.mp each
      simp only [Progress.overEach] at done ⊢
      split at done
      · next failed =>
          rw [Progress.before, failed] at done
          cases done
      · next fine => exact List.forall_mem_append.mpr ⟨first r fine, ih later _ done⟩

theorem Progress.overEach_induction {step : Resources M → Node → Progress M} {ns : Forest}
    {P : Resources M → Prop} (each : ∀ n ∈ ns, ∀ r, P r → P (step r n).resources) {r : Resources M}
    (start : P r) : P (Progress.overEach step r ns).resources := by
  induction ns generalizing r with
  | nil => exact start
  | cons n ns ih =>
      obtain ⟨first, later⟩ := List.forall_mem_cons.mp each
      simp only [Progress.overEach]
      split
      · exact first r start
      · exact ih later (first r start)

theorem Progress.exists_failure_of_overEach {step : Resources M → Node → Progress M} {ns : Forest}
    {r : Resources M} {f : Failure} (failed : (Progress.overEach step r ns).failure = some f) :
    ∃ n ∈ ns, ∃ r', (step r' n).failure = some f := by
  induction ns generalizing r with
  | nil => cases failed
  | cons n ns ih =>
      simp only [Progress.overEach] at failed
      split at failed
      · exact ⟨n, List.mem_cons_self, r, failed⟩
      · obtain ⟨x, hx, later⟩ := ih failed
        exact ⟨x, List.mem_cons_of_mem _ hx, later⟩

theorem Progress.overEach_flatMap {step : Resources M → Node → Progress M} {ns : Forest}
    {f : Node → Forest}
    (each : ∀ n ∈ ns, ∀ r, (step r n).failure = none ∧ (step r n).children = f n) (r : Resources M) :
    (Progress.overEach step r ns).failure = none ∧
      (Progress.overEach step r ns).children = ns.flatMap f := by
  induction ns generalizing r with
  | nil => exact ⟨rfl, rfl⟩
  | cons n ns ih =>
      obtain ⟨first, later⟩ := List.forall_mem_cons.mp each
      obtain ⟨fine, children⟩ := first r
      obtain ⟨fine', children'⟩ := ih later (step r n).resources
      simp only [Progress.overEach, fine, Progress.after]
      exact ⟨fine', by rw [children, children', List.flatMap_cons]⟩

/-- What work on some children does, beside entries that it leaves alone. -/
structure Reworks [Mmu M] (purpose : Purpose) (rest : List Entry) (old : Forest)
    (r : Resources M) (p : Progress M) : Prop where
  evolves : Evolves purpose (Forest.entries old ++ rest) r (Forest.entries p.children ++ rest) p.resources
  refines : Forest.Refines old p.children
  heirs : Forest.Heirs r.nextGeneration old p.children
  image : ∀ h, p.resources.image = some h → r.image = some h

variable [Mmu M]

theorem Reworks.overEach {step : Resources M → Node → Progress M} {ns : Forest} {r : Resources M}
    {rest : List Entry} (nested : ∀ n ∈ ns, n.Nested) (sound : Sound (Forest.entries ns ++ rest) r)
    (each : ∀ n ∈ ns, ∀ rest r', Sound (n.entries ++ rest) r' →
      (∀ h, r'.image = some h → r.image = some h) → Reworks purpose rest [n] r' (step r' n)) :
    Reworks purpose rest ns r (Progress.overEach step r ns) := by
  induction ns generalizing r rest with
  | nil => exact ⟨.refl _ r, .nil, .refl [], fun _ same => same⟩
  | cons n ns ih =>
      obtain ⟨nestedFirst, nestedRest⟩ := List.forall_mem_cons.mp nested
      rw [Forest.entries_cons, List.append_assoc] at sound
      have first := each n List.mem_cons_self _ r sound fun _ same => same
      have evolves := first.evolves
      rw [Forest.entries_cons, Forest.entries_nil, List.append_nil] at evolves
      simp only [Progress.overEach]
      split
      · refine ⟨?_, first.refines.append (.refl nestedRest),
          first.heirs.append (.refl ns), first.image⟩
        rw [Forest.entries_cons, List.append_assoc, Progress.before, Forest.entries_append,
          List.append_assoc]
        exact evolves
      · have swapped : Evolves purpose _ _ _ _ := evolves.trans
          (.reorder _ (List.perm_append_comm_assoc _ (Forest.entries ns) rest))
        have later := ih (r := (step r n).resources) nestedRest (swapped.sound sound)
          fun x hx rest r' bal image => each x (List.mem_cons_of_mem _ hx) rest r' bal
            fun h same => first.image h (image h same)
        refine ⟨?_, first.refines.append later.refines,
          first.heirs.append (later.heirs.mono first.evolves.generation),
          fun h same => first.image h (later.image h same)⟩
        rw [Forest.entries_cons, List.append_assoc, Progress.after, Forest.entries_append]
        refine (swapped.trans later.evolves).trans (.reorder _ ?_)
        rw [List.append_assoc]
        exact List.perm_append_comm_assoc _ _ rest

/-- What work on some children of a region leaves of the space, whether or not it gets to its end. -/
structure Space.Reworked (purpose : Purpose) (pending : List Entry) (s s' : Space M) : Prop where
  follows : s.Follows purpose pending pending s'
  image : ∀ h, s'.resources.image = some h → s.resources.image = some h
  passes : s.Passes s.resources.nextGeneration (fun _ _ => False) s'

theorem Space.Reworked.refl {s : Space M} {pending : List Entry} (kept : s.Kept pending) :
    s.Reworked purpose pending s :=
  ⟨.refl kept, fun _ image => image, .of_tree rfl⟩

theorem Reworks.reworked (purpose : Purpose) {s : Space M} {pending : List Entry}
    (kept : s.Kept pending) {c : Context} {l : Label} {before inside behind : Forest} {p : Progress M}
    (tree : s.tree = some (Context.plug c (.region l (before ++ inside ++ behind))))
    (works : ∀ rest, Sound (Forest.entries inside ++ rest) s.resources →
      Reworks purpose rest inside s.resources p) :
    s.Reworked purpose pending
      ({ s with resources := p.resources }.withChildren l.handle (before ++ p.children ++ behind)) := by
  have pick : ∀ (ns : Forest) (rest : List Entry), (Forest.entries (before ++ ns ++ behind) ++ rest).Perm
      (Forest.entries ns ++ (Forest.entries (before ++ behind) ++ rest)) := by
    intro ns rest
    simp only [Forest.entries_append, List.append_assoc]
    exact List.perm_append_comm_assoc _ _ _
  have works := works _ (kept.sound.perm ((Space.entries_perm pending tree).trans (pick _ _)))
  have nested := Context.nested_of_plug (kept.nested _ tree)
  have tree' := kept.tree_withChildren tree (before ++ p.children ++ behind)
  refine ⟨.of_children kept tree tree' rfl ?_ ?_, works.image,
    .of_children tree tree' fun part hpart => .inl ?_⟩
  · have each : ∀ n ∈ before ++ inside ++ behind, n.Nested := by
      cases nested with | region _ inner => exact inner
    obtain ⟨front, back⟩ := List.forall_mem_append.mp each
    refine ((Forest.Refines.append (.refl ?_) works.refines).append (.refl back)).nested nested
    exact (List.forall_mem_append.mp front).1
  · exact ((Evolves.reorder _ (pick _ _)).trans works.evolves).trans (.reorder _ (pick _ _).symm)
  · exact ((Forest.Heirs.refl before).append works.heirs).append (.refl behind) part hpart

end RegionTree
