import RegionTree.Mmu.PageTable
import RegionTree.Proofs.Lineage
import RegionTree.Proofs.Run

/-! A page table follows the tree: each translation is that of one mapping alive, and a translation that
outlives a call is one of what the call has left of its mapping. -/
namespace RegionTree

/-- The translation is that of a page of the mapping. -/
structure Translation.Of (t : Translation) (m : Mapping) : Prop where
  inside : t.page ∈ m.extent.toSpan
  paged : t.page % pageSize = 0
  flags : t.flags = m.access
  shows : m.Shows t.page t.frame

theorem Translation.Of.piece {t : Translation} {m part : Mapping} (h : t.Of m) (piece : part.PieceOf m)
    (inside : t.page ∈ part.extent.toSpan) (access : part.access = m.access) : t.Of part :=
  ⟨inside, h.paged, h.flags.trans access.symm, piece.shows inside h.shows⟩

theorem PageTable.reaches_iff (span : Span) {page : Nat} (start : span.start % pageSize = 0)
    (stop : span.stop % pageSize = 0) (paged : page % pageSize = 0) :
    reaches span page = true ↔ page ∈ span := by
  show _ ↔ span.start ≤ page ∧ page < span.stop
  simp only [reaches, Bool.and_eq_true, decide_eq_true_eq, beq_iff_eq]
  simp only [pageSize] at *
  constructor
  · rintro ⟨⟨low, high⟩, _⟩
    exact ⟨low, by omega⟩
  · rintro ⟨low, high⟩
    exact ⟨⟨low, by omega⟩, by omega⟩

namespace PageTable

theorem mem_unmap {table : PageTable} {span : Span} {t : Translation} :
    t ∈ (Mmu.unmap table span).translations ↔ t ∈ table.translations ∧ ¬ reaches span t.page := by
  show t ∈ table.translations.filter _ ↔ _
  simp [List.mem_filter]

theorem mem_map {table : PageTable} {page frame : Nat} {flags : PageFlags} {t : Translation}
    (h : t ∈ (Mmu.map table page frame pageSize flags).state.translations) :
    t ∈ table.translations ∨ t = ⟨page, frame, flags⟩ := by
  simp only [Mmu.map] at h
  split at h
  · exact .inl h
  · simp only [Outcome.ok, row, install, pageSize] at h
    simp at h
    rcases h with rfl | ⟨old, _⟩
    · exact .inr rfl
    · exact .inl old

theorem mem_protect {table : PageTable} {span : Span} {flags : PageFlags} {t : Translation}
    (h : t ∈ (Mmu.protect table span flags).state.translations) :
    ∃ old ∈ table.translations, t = if reaches span old.page then { old with flags } else old := by
  obtain ⟨old, hold, rfl⟩ := List.mem_map.mp h
  exact ⟨old, hold, rfl⟩

end PageTable

def Coherent (es : List Entry) (r : Resources PageTable) : Prop :=
  ∀ t ∈ r.mmu.translations, ∃ m, .mapping m ∈ es ∧ t.Of m

theorem Coherent.outside {es : List Entry} {r : Resources PageTable} (h : Coherent es r)
    {start stop : Nat} (free : ∀ m, .mapping m ∈ es → m.extent.stop ≤ start ∨ stop ≤ m.extent.start)
    {t : Translation} (ht : t ∈ r.mmu.translations) : t.page < start ∨ stop ≤ t.page := by
  obtain ⟨m, hm, own⟩ := h t ht
  have apart := free m hm
  have below := own.inside.1
  have above := own.inside.2
  omega

/-- The translation was there before, for a mapping of which `part` is left. -/
def Inherited (es : List Entry) (r : Resources PageTable) (t : Translation) (part : Mapping) : Prop :=
  ∃ old ∈ r.mmu.translations, ∃ m, .mapping m ∈ es ∧ old.Of m ∧ old.page = t.page ∧
    old.frame = t.frame ∧ part.PieceOf m

/-- Each translation is that of a mapping, and unless pages are translated it was there before. -/
def Follow (purpose : Purpose) (es : List Entry) (r : Resources PageTable) (es' : List Entry)
    (r' : Resources PageTable) : Prop :=
  ∀ t ∈ r'.mmu.translations, ∃ m, .mapping m ∈ es' ∧ t.Of m ∧
    (purpose = .translate ∨ Inherited es r t m)

namespace Follow
variable {purpose : Purpose} {es es' es'' : List Entry} {r r' r'' : Resources PageTable}

theorem of_subset (coherent : Coherent es r)
    (fewer : ∀ t ∈ r'.mmu.translations, t ∈ r.mmu.translations)
    (left : ∀ t ∈ r'.mmu.translations, ∀ m, .mapping m ∈ es → t.Of m →
      ∃ part, .mapping part ∈ es' ∧ t.Of part ∧ part.PieceOf m) : Follow purpose es r es' r' := by
  intro t ht
  obtain ⟨m, hm, own⟩ := coherent t (fewer t ht)
  obtain ⟨part, hpart, own', piece⟩ := left t ht m hm own
  exact ⟨part, hpart, own', .inr ⟨t, fewer t ht, m, hm, own, rfl, rfl, piece⟩⟩

theorem of_kept (coherent : Coherent es r) (same : r'.mmu = r.mmu)
    (kept : ∀ m, .mapping m ∈ es → .mapping m ∈ es') : Follow purpose es r es' r' :=
  of_subset coherent (fun _ ht => same ▸ ht) fun _ _ m hm own => ⟨m, kept m hm, own, .refl m⟩

theorem trans (balanced : Balanced es' r') (h : Follow purpose es r es' r')
    (h' : Follow purpose es' r' es'' r'') : Follow purpose es r es'' r'' := by
  intro t ht
  obtain ⟨rest, hrest, own, known⟩ := h' t ht
  refine ⟨rest, hrest, own, known.elim .inl ?_⟩
  rintro ⟨mid, hmid, part, hpart, ownMid, page, frame, piece⟩
  obtain ⟨part', hpart', ownMid', known'⟩ := h mid hmid
  cases balanced.eq_of_page hpart hpart' ownMid.inside ownMid'.inside
  refine known'.imp_right ?_
  rintro ⟨old, hold, m, hm, ownOld, page', frame', piece'⟩
  exact ⟨old, hold, m, hm, ownOld, page'.trans page, frame'.trans frame, piece.trans piece'⟩

theorem coherent (h : Follow purpose es r es' r') : Coherent es' r' := by
  intro t ht
  obtain ⟨m, hm, own, _⟩ := h t ht
  exact ⟨m, hm, own⟩

theorem of_unmap {m part : Mapping} {span : Span} (coherent : Coherent (.mapping m :: es) r)
    (start : span.start % pageSize = 0) (stop : span.stop % pageSize = 0) (piece : part.PieceOf m)
    (access : part.access = m.access)
    (rest : ∀ page, page ∈ m.extent.toSpan → ¬ page ∈ span → page ∈ part.extent.toSpan) :
    Follow purpose (.mapping m :: es) r (.mapping part :: es)
      { r with mmu := Mmu.unmap r.mmu span } := by
  refine .of_subset coherent (fun _ ht => (PageTable.mem_unmap.mp ht).1) fun t ht x hx own => ?_
  rcases List.mem_cons.mp hx with here | other
  · cases here
    have reach := PageTable.reaches_iff span start stop own.paged
    have inside := rest t.page own.inside (reach.not.mp (PageTable.mem_unmap.mp ht).2)
    exact ⟨part, List.mem_cons_self, own.piece piece inside access, piece⟩
  · exact ⟨x, List.mem_cons_of_mem _ other, own, .refl x⟩

theorem of_protect {m : Mapping} {flags : PageFlags} {mmu : PageTable}
    (balanced : Balanced (.mapping m :: es) r) (coherent : Coherent (.mapping m :: es) r)
    (done : Mmu.protect r.mmu m.extent.toSpan flags = ⟨.ok (), mmu⟩) :
    Follow purpose (.mapping m :: es) r (.mapping { m with access := flags } :: es) { r with mmu } := by
  obtain ⟨⟨bottom, top⟩, _⟩ : (Entry.mapping m).Tidy := balanced.tidy _ List.mem_cons_self
  intro t ht
  have ht : t ∈ (Mmu.protect r.mmu m.extent.toSpan flags).state.translations := by
    rw [done]
    exact ht
  obtain ⟨old, hold, rfl⟩ := PageTable.mem_protect ht
  obtain ⟨x, hx, own⟩ := coherent old hold
  have reach := PageTable.reaches_iff m.extent.toSpan bottom top own.paged
  rcases List.mem_cons.mp hx with here | other
  · cases here
    rw [if_pos (reach.mpr own.inside)]
    have piece : { m with access := flags }.PieceOf m := .of_eq rfl rfl rfl
    exact ⟨_, List.mem_cons_self, ⟨own.inside, own.paged, rfl, own.shows⟩,
      .inr ⟨old, hold, m, hx, own, rfl, rfl, piece⟩⟩
  · have outside : ¬ old.page ∈ m.extent.toSpan := by
      intro inside
      cases balanced.eq_of_page List.mem_cons_self hx inside own.inside
      exact (List.nodup_cons.mp balanced.handles_nodup).1 (List.mem_map_of_mem other)
    rw [if_neg (reach.not.mpr outside)]
    exact ⟨x, List.mem_cons_of_mem _ other, own, .inr ⟨old, hold, x, hx, own, rfl, rfl, .refl x⟩⟩

end Follow

theorem Evolves.follow {purpose : Purpose} {es es' : List Entry} {r r' : Resources PageTable}
    (h : Evolves purpose es r es' r') (balanced : Balanced es r) (coherent : Coherent es r) :
    Follow purpose es r es' r' := by
  induction h with
  | refl => exact .of_kept coherent rfl fun _ hm => hm
  | trans first later ih ih' =>
      have start := ih balanced coherent
      have middle := first.balanced balanced
      exact start.trans middle (ih' middle start.coherent)
  | reorder r same => exact .of_kept coherent rfl fun _ hm => same.mem_iff.mp hm
  | quiet es same => exact .of_kept coherent same.mmu fun _ hm => hm
  | @hold es r r' new taken =>
      have same : r'.mmu = r.mmu := Resources.allocate_mmu (r := r.countGeneration.2) taken
      exact .of_kept coherent same fun _ hm => List.mem_cons_of_mem _ hm
  | drop h es r => exact .of_kept coherent rfl fun _ hm => by simpa using hm
  | enterRegion es r _ => exact .of_kept coherent rfl fun _ hm => by simpa using hm
  | enterMapping r _ _ _ _ => exact .of_kept coherent rfl fun _ hm => by simp at hm; simp [hm]
  | enterImage _ _ _ _ _ _ => exact .of_kept coherent rfl fun _ hm => by simp at hm; simp [hm]
  | @split m low high h es r start between stop paged _ =>
      have first := low.start_lt_stop
      have last := high.start_lt_stop
      refine .of_subset coherent (fun _ ht => ht) fun t _ x hx own => ?_
      simp only [List.mem_cons, reduceCtorEq, Entry.mapping.injEq, false_or] at hx
      rcases hx with rfl | other
      · -- The page goes with the part that holds it.
        have above := own.inside.1
        have below := own.inside.2
        by_cases lower : t.page < high.start
        · have piece : (x.lower low).PieceOf x := .lower start (by omega)
          exact ⟨_, List.mem_cons_self, own.piece piece ⟨start ▸ above, between ▸ lower⟩ rfl, piece⟩
        · have piece : (x.tail h high).PieceOf x := .tail h (by omega) stop
          exact ⟨_, List.mem_cons_of_mem _ List.mem_cons_self,
            own.piece piece ⟨Nat.le_of_not_lt lower, stop ▸ below⟩ rfl, piece⟩
      · exact ⟨x, List.mem_cons_of_mem _ (List.mem_cons_of_mem _ other), own, .refl x⟩
  | @cutTail m low es r start stop paged _ =>
      obtain ⟨⟨_, top⟩, _⟩ : (Entry.mapping m).Tidy := balanced.tidy _ List.mem_cons_self
      refine .of_unmap coherent paged top (.lower start (Nat.le_of_lt stop)) rfl ?_
      intro page inside outside
      exact ⟨start ▸ inside.1, Nat.lt_of_not_le fun le => outside ⟨le, inside.2⟩⟩
  | @cutHead m high es r start stop paged _ =>
      obtain ⟨⟨bottom, _⟩, _⟩ : (Entry.mapping m).Tidy := balanced.tidy _ List.mem_cons_self
      refine .of_unmap coherent bottom paged (.upper (Nat.le_of_lt start) stop) rfl ?_
      intro page inside outside
      exact ⟨Nat.le_of_not_lt fun lt => outside ⟨inside.1, lt⟩, stop ▸ inside.2⟩
  | permit es r _ _ _ done => exact .of_protect balanced coherent done
  | balk es r failed => cases failed
  | buryMapping m es r =>
      obtain ⟨⟨bottom, top⟩, _⟩ : (Entry.mapping m).Tidy := balanced.tidy _ List.mem_cons_self
      have fewer : ∀ t ∈ ((r.unmapPages m.extent.toSpan).bury .mapping m.toLabel).mmu.translations,
          t ∈ r.mmu.translations ∧ ¬ PageTable.reaches m.extent.toSpan t.page := by
        intro t ht
        rw [Resources.mmu_bury] at ht
        exact PageTable.mem_unmap.mp ht
      refine .of_subset coherent (fun t ht => (fewer t ht).1) fun t ht x hx own => ?_
      rcases List.mem_cons.mp hx with here | other
      · cases here
        have reach := PageTable.reaches_iff m.extent.toSpan bottom top own.paged
        exact absurd (reach.mpr own.inside) (fewer t ht).2
      · exact ⟨x, other, own, .refl x⟩
  | buryRegion l es r =>
      exact .of_kept coherent (r.mmu_bury _ _) fun _ hm => by simpa using hm
  | @translate m page frame es r _ hm inside paged shows =>
      intro t ht
      rcases PageTable.mem_map ht with old | rfl
      · obtain ⟨x, hx, own⟩ := coherent t old
        exact ⟨x, hx, own, .inr ⟨t, old, x, hx, own, rfl, rfl, .refl x⟩⟩
      · exact ⟨m, hm, ⟨inside, paged, rfl, shows⟩, .inl ‹_›⟩

namespace Space
variable {s : Space PageTable}

/-- Each translation is that of one mapping alive, and a space without mappings has none. -/
structure Translated (s : Space PageTable) : Prop where
  owned : ∀ t ∈ s.resources.mmu.translations, ∃ m, .mapping m ∈ s.nodes ∧
    t.page ∈ m.extent.toSpan ∧ t.flags = m.access ∧ m.Shows t.page t.frame ∧
    ∀ m', .mapping m' ∈ s.nodes → t.page ∈ m'.extent.toSpan → m' = m
  bare : ∀ l, s.tree = some (.region l []) → s.resources.mmu.translations = []

/-- What becomes of the translations in a call. -/
structure Retranslates (s : Space PageTable) (op : Operation)
    (o : Outcome (Space PageTable × Commitments) (Option Handle)) : Prop where
  /-- A translation that outlives the call is one of what the call has left of its mapping. -/
  inherited : op.purpose ≠ .translate → ∀ t ∈ o.state.1.resources.mmu.translations,
    ∃ part, .mapping part ∈ o.state.1.nodes ∧ t.Of part ∧ Inherited s.entries s.resources t part
  /-- A node that is made finds no translation in its range. -/
  made : op.makes → ∀ h, o.answer = .ok (some h) → ∃ n ∈ o.state.1.nodes, n.handle = h ∧
    ∀ t ∈ o.state.1.resources.mmu.translations, ¬ t.page ∈ n.extent.toSpan
  unmapped : ∀ region base size, op = .unmap region base size → o.answer = .ok none →
    ∀ t ∈ o.state.1.resources.mmu.translations,
      t.page < base.toNat ∨ base.toNat + Address.wholePages size.toNat ≤ t.page
  destroyed : ∀ h, op = .destroy h → o.answer = .ok none → ∃ n ∈ s.nodes, n.handle = h ∧
    ∀ t ∈ o.state.1.resources.mmu.translations, ¬ t.page ∈ n.extent.toSpan

theorem Kept.translated (kept : s.Kept []) (coherent : Coherent s.entries s.resources) :
    s.Translated where
  owned t ht := by
    obtain ⟨m, hm, own⟩ := coherent t ht
    refine ⟨m, mapping_mem_nodes_iff.mpr hm, own.inside, own.flags, own.shows, fun m' hm' inside => ?_⟩
    exact kept.sound.balanced.eq_of_page (mapping_mem_nodes_iff.mp hm') hm inside own.inside
  bare l tree := by
    refine List.eq_nil_iff_forall_not_mem.mpr fun t ht => ?_
    obtain ⟨m, hm, _⟩ := coherent t ht
    simp [entries, tree, Node.entries] at hm

theorem Creates.vacant {s : Space PageTable} (coherent : Coherent s.entries s.resources)
    (kept : s.Kept []) {o : Outcome (Space PageTable) Handle} {joins : Label → Entry → Prop}
    (creates : s.Creates joins o) {h : Handle}
    (made : o.answer = .ok h) : ∃ n ∈ o.state.nodes, n.handle = h ∧
      ∀ t ∈ o.state.resources.mmu.translations, ¬ t.page ∈ n.extent.toSpan := by
  obtain ⟨before, _, n, same, holds, joined, _⟩ := creates.made h made
  have before' := (holds.evolves.follow kept.sound.balanced coherent).coherent
  refine ⟨n, joined.member, same, fun t ht inside => ?_⟩
  rw [joined.mmu] at ht
  have free : ∀ m, .mapping m ∈ [.held h] ++ before.entries →
      m.extent.stop ≤ n.start ∨ n.stop ≤ m.extent.start := by
    intro m hm
    exact joined.free m (mapping_mem_nodes_iff.mpr (by simpa using hm))
  have outside := before'.outside free ht
  have below : n.start ≤ t.page := inside.1
  have above : t.page < n.stop := inside.2
  omega

theorem Follows.coherent {purpose : Purpose} {s' : Space PageTable} (kept : s.Kept [])
    (coherent : Coherent s.entries s.resources) (follows : s.Follows purpose [] [] s') :
    Coherent s'.entries s'.resources :=
  (follows.evolves.follow kept.sound.balanced coherent).coherent

/-- Translations follow every call, whatever it answers. -/
theorem perform_retranslates (kept : s.Kept []) (coherent : Coherent s.entries s.resources)
    (commitments : Commitments) (op : Operation) : s.Retranslates op (s.perform commitments op) := by
  have follows := perform_follows .pageTable kept commitments op
  have after := follows.coherent kept coherent
  constructor
  · intro other t ht
    obtain ⟨part, hpart, own, known⟩ := follows.evolves.follow kept.sound.balanced coherent t ht
    exact ⟨part, mapping_mem_nodes_iff.mpr hpart, own, known.resolve_left other⟩
  · intro makes h made
    cases op with
    | addRegion parent sketch =>
        obtain ⟨_, made, ⟨⟩⟩ := Outcome.map_eq_ok.mp made
        exact (addRegion_creates .pageTable kept parent sketch).vacant coherent kept made
    | addMapping parent sketch object offset access =>
        obtain ⟨_, made, ⟨⟩⟩ := Outcome.map_eq_ok.mp made
        exact (addMapping_creates .pageTable kept parent sketch object offset access).vacant coherent
          kept made
    | _ => cases makes
  · rintro region base size rfl done t ht
    simp only [perform, Outcome.beside] at done
    obtain ⟨⟨⟩, done, _⟩ := Outcome.map_eq_ok.mp done
    simp only [perform, Outcome.beside, Outcome.map] at after ht
    cases outcome : s.unmap region base size with
    | mk answer s' =>
        rw [outcome] at done after ht
        cases done
        exact after.outside (fun m hm => unmap_ok kept outcome (mapping_mem_nodes_iff.mpr hm)) ht
  · rintro h rfl done
    simp only [perform, Outcome.beside] at done
    obtain ⟨⟨⟩, done, _⟩ := Outcome.map_eq_ok.mp done
    simp only [perform, Outcome.beside, Outcome.map] at after ⊢
    cases outcome : s.destroy h with
    | mk answer s' =>
        rw [outcome] at done after
        cases done
        obtain ⟨n, alive, same, free⟩ := destroy_ok kept outcome
        refine ⟨n, alive, same, fun t ht inside => ?_⟩
        have outside := after.outside (fun m hm => free m (mapping_mem_nodes_iff.mpr hm)) ht
        have below : n.start ≤ t.page := inside.1
        have above : t.page < n.stop := inside.2
        omega

theorem new_coherent {guard : Nat} {refuses : Bool} {c : SpaceConfig} {entropy : Entropy}
    (new : Space.new (⟨guard, refuses, []⟩ : PageTable) c entropy = .ok s) :
    Coherent s.entries s.resources := by
  simp only [Space.new] at new
  split at new
  · cases new
  · split at new
    · cases new
      intro t ht
      cases ht
    · cases new

theorem run_coherent (kept : s.Kept []) (coherent : Coherent s.entries s.resources)
    (commitments : Commitments) (ops : List Operation) :
    Coherent (run (s, commitments) ops).1.entries (run (s, commitments) ops).1.resources := by
  refine (run_induction (P := fun s => Coherent s.entries s.resources) .pageTable ops ?_ kept coherent).2
  intro s commitments op _ kept coherent
  exact (perform_follows .pageTable kept commitments op).coherent kept coherent

/-- After any sequence of calls each translation is that of one mapping alive, and the next call keeps it
only for what it leaves of that mapping. -/
theorem run_translated {guard : Nat} {refuses : Bool} {c : SpaceConfig} {entropy : Entropy}
    (new : Space.new (⟨guard, refuses, []⟩ : PageTable) c entropy = .ok s) (commitments : Commitments)
    (ops : List Operation) :
    (run (s, commitments) ops).1.Translated ∧
      ∀ op, (run (s, commitments) ops).1.Retranslates op
        ((run (s, commitments) ops).1.perform (run (s, commitments) ops).2 op) := by
  have kept := run_kept (w := (s, commitments)) .pageTable (new_kept new) ops
  have coherent := run_coherent (new_kept new) (new_coherent new) commitments ops
  exact ⟨kept.translated coherent, fun op => perform_retranslates kept coherent _ op⟩

/-- Two pages are translated, and the second is unmapped with its neighbour. -/
theorem run_translated_fault :
    ∃ s w, Space.new (⟨0x1000, false, []⟩ : PageTable) ⟨.user, 0, 0x8000, .empty, 4⟩ ⟨none⟩ = .ok s ∧
      run (s, []) [.addMapping ⟨0, 0⟩ { size := 0x3000 } ⟨0, 0x3000, none, none, false⟩ 0 PageFlags.read,
        .resolve ⟨0, 0⟩ 0 FaultFlags.load, .resolve ⟨0, 0⟩ 0x1000 FaultFlags.load] = w ∧
      w.1.resources.mmu.translations.map Translation.page = [0x1000, 0] ∧
      (w.1.perform w.2 (.unmap ⟨0, 0⟩ 0x1000 0x2000)).answer = .ok none ∧
      (w.1.perform w.2 (.unmap ⟨0, 0⟩ 0x1000 0x2000)).state.1.resources.mmu.translations.map
        Translation.page = [0] ∧
      w.1.Translated ∧
      w.1.Retranslates (.unmap ⟨0, 0⟩ 0x1000 0x2000) (w.1.perform w.2 (.unmap ⟨0, 0⟩ 0x1000 0x2000)) := by
  obtain ⟨s, new⟩ : ∃ s, Space.new (⟨0x1000, false, []⟩ : PageTable)
      ⟨.user, 0, 0x8000, .empty, 4⟩ ⟨none⟩ = .ok s := ⟨_, rfl⟩
  obtain ⟨translated, retranslates⟩ := run_translated new [] [.addMapping ⟨0, 0⟩ { size := 0x3000 }
    ⟨0, 0x3000, none, none, false⟩ 0 PageFlags.read, .resolve ⟨0, 0⟩ 0 FaultFlags.load,
    .resolve ⟨0, 0⟩ 0x1000 FaultFlags.load]
  refine ⟨s, _, new, rfl, ?before, ?done, ?after, translated, retranslates _⟩
  all_goals
    cases new
    decide +kernel

end Space
end RegionTree
