import RegionTree.Proofs.Permissions

/-! A change of permissions that has passed its check and then fails has run out of nodes: the pages below
some cut have the permissions, all others are as before, and at most one mapping is cut for nothing. -/
namespace RegionTree.Space
variable {s : Space PageTable} {l : Label} {children : Forest} {access : PageFlags}

/-- What a change of permissions leaves that has run out of nodes. -/
structure Shortage (s : Space PageTable) (l : Label) (children : Forest) (target : Span)
    (access : PageFlags) (o : Outcome (Space PageTable) Unit) : Prop where
  answer : o.answer = .error Error.noMemory
  full : o.state.resources.inUse = o.state.resources.capacity
  taken : o.state.resources.inUse ≤ s.resources.inUse + 1
  /-- A lower part of the range has the permissions. The row of children is as it was if no cut was made,
  and as it would be had only that part been asked for if one was. -/
  done : ∃ cut ∈ target, cut % pageSize = 0 ∧ s.Permitted ⟨target.start, cut⟩ access o.state ∧
    ∃ c row, s.tree = some (Context.plug c (.region l children)) ∧
      o.state.tree = some (Context.plug c (.region l row)) ∧ (row = children ∧ cut = target.start ∨
        Forest.Repermits ⟨target.start, cut⟩ access s.resources.nextGeneration children row)
  rest : o.state.kind = s.kind ∧ o.state.root = s.root ∧ o.state.entropy = s.entropy ∧
    o.state.resources.image = s.resources.image ∧ o.state.resources.capacity = s.resources.capacity

theorem Settled.protect_shortage (settled : s.Settled) (alive : .region l children ∈ s.nodes)
    {base size : UInt64} (able : s.Permissible l children base.toNat size.toNat access)
    {o : Outcome (Space PageTable) Unit} (outcome : s.protect l.handle base size access = o) {f : Failure}
    (failed : o.answer = .error f) :
    s.Shortage l children (.inPages base.toNat size.toNat) access o := by
  obtain ⟨kept, coherent, clipped⟩ := settled
  have follows := (protect_reworked kept l.handle base size access).follows
  have image := protect_image s l.handle base size access
  have covered := kept.covered_of_permissible alive able
  obtain ⟨⟨p, c, answer, tree, tree', resources, permits⟩, ⟨kind, root, entropy⟩, reflags⟩ :=
    kept.begun_of_permissible alive (clipped l children alive) able
  rw [outcome] at follows image answer tree' resources kind root entropy reflags
  rcases permits with ⟨fine, _⟩ | ⟨cut, stalls, taken, change⟩
  · rw [answer, fine] at failed
    cases failed
  · obtain ⟨low, high⟩ := stalls.inside
    have room : p.resources.inUse ≤ p.resources.capacity := by
      have balanced := follows.kept.sound.balanced
      rw [resources] at balanced
      exact balanced.inUse_eq ▸ balanced.room
    have below : ∀ a ∈ (⟨base.toNat, cut⟩ : Span), ∃ m, .mapping m ∈ children ∧ a ∈ m.extent.toSpan :=
      fun a inside => covered a ⟨inside.1, Nat.lt_trans inside.2 high⟩
    obtain ⟨row, here, change⟩ : ∃ row, o.state.tree = some (Context.plug c (.region l row)) ∧
        (row = children ∧ cut = base.toNat ∨
          Forest.Repermits ⟨base.toNat, cut⟩ access s.resources.nextGeneration children row) := by
      refine ⟨_, tree', ?_⟩
      rcases change with ⟨same, bottom⟩ | row
      · exact .inl ⟨by rw [same, Forest.slice_append], bottom⟩
      · exact .inr (row.around (kept.lined alive) low (Nat.le_refl _) (Nat.le_of_lt high))
    have permitted : s.Permitted ⟨base.toNat, cut⟩ access o.state :=
      kept.permitted_of_row coherent follows reflags tree here
        (change.imp_left fun ⟨same, bottom⟩ => ⟨same, Nat.le_of_eq bottom⟩) below
    refine ⟨?answer, ?full, ?taken, ⟨cut, stalls.inside, stalls.paged, permitted, c, row, tree, here, change⟩,
      ⟨kind, root, entropy, image, reflags.capacity⟩⟩
    case answer =>
      rw [answer, stalls.failure]
      rfl
    case full =>
      rw [resources]
      exact Nat.le_antisymm room stalls.full
    case taken =>
      rw [resources]
      exact taken

/-- After any sequence of calls, a change of permissions that passes its check and then fails has run out of
nodes, and leaves a lower part of its range with the permissions and nothing else changed. -/
theorem run_shortage {guard : Nat} {refuses : Bool} {c : SpaceConfig} {entropy : Entropy}
    (new : Space.new (⟨guard, refuses, []⟩ : PageTable) c entropy = .ok s) (commitments : Commitments)
    (ops : List Operation) (alive : .region l children ∈ (run (s, commitments) ops).1.nodes)
    {base size : UInt64}
    (able : (run (s, commitments) ops).1.Permissible l children base.toNat size.toNat access) {f : Failure}
    (failed : ((run (s, commitments) ops).1.protect l.handle base size access).answer = .error f) :
    (run (s, commitments) ops).1.Shortage l children (.inPages base.toNat size.toNat) access
      ((run (s, commitments) ops).1.protect l.handle base size access) :=
  (run_settled new commitments ops).protect_shortage alive able rfl failed

/-- The middle of three pages of a mapping is to be made writable, and there is a node for the first cut but
none for the second. -/
theorem run_shortage_second :
    ∃ s t l children, Space.new (⟨0, false, []⟩ : PageTable) ⟨.user, 0, 0x8000, .empty, 3⟩ ⟨none⟩ = .ok s ∧
      (run (s, []) [.addMapping ⟨0, 0⟩ { size := 0x3000, flags := RegionFlags.mapAll }
        ⟨0, 0x3000, none, none, false⟩ 0 PageFlags.read]).1 = t ∧ .region l children ∈ t.nodes ∧
      t.Permissible l children 0x1000 0x1000 (PageFlags.read ∪ PageFlags.write) ∧
      (t.protect l.handle 0x1000 0x1000 (PageFlags.read ∪ PageFlags.write)).answer =
        .error Error.noMemory ∧
      t.Shortage l children (.inPages 0x1000 0x1000) (PageFlags.read ∪ PageFlags.write)
        (t.protect l.handle 0x1000 0x1000 (PageFlags.read ∪ PageFlags.write)) := by
  obtain ⟨s, new⟩ : ∃ s, Space.new (⟨0, false, []⟩ : PageTable)
      ⟨.user, 0, 0x8000, .empty, 3⟩ ⟨none⟩ = .ok s := ⟨_, rfl⟩
  obtain ⟨t, made⟩ : ∃ t, (run (s, []) [.addMapping ⟨0, 0⟩ { size := 0x3000, flags := RegionFlags.mapAll }
      ⟨0, 0x3000, none, none, false⟩ 0 PageFlags.read]).1 = t := ⟨_, rfl⟩
  have facts : ((t.liveRegion ⟨0, 0⟩).toOption.any fun _ => true) ∧
      (t.protect ⟨0, 0⟩ 0x1000 0x1000 (PageFlags.read ∪ PageFlags.write)).answer =
        .error Error.noMemory := by
    subst made
    cases new
    decide +kernel
  obtain ⟨live, failed⟩ := facts
  obtain ⟨l, children, handle, alive, _⟩ := exists_alive_of_any live
  rw [← handle] at failed
  have settled := run_settled new [] [.addMapping ⟨0, 0⟩ { size := 0x3000, flags := RegionFlags.mapAll }
    ⟨0, 0x3000, none, none, false⟩ 0 PageFlags.read]
  rw [made] at settled
  have protects := settled.protect_protects alive 0x1000 0x1000 (PageFlags.read ∪ PageFlags.write)
  have able := protects.begins.mp (.inr failed)
  refine ⟨s, t, l, children, new, made, alive, able, failed, ?_⟩
  subst made
  exact run_shortage new [] _ alive able failed

end RegionTree.Space
