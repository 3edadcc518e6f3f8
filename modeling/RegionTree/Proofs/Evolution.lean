import RegionTree.Proofs.Ledger

/-! The changes that operations make to the ledger, one by one, and what each row of them keeps. -/
namespace RegionTree

def Mapping.lower (m : Mapping) (part : Extent) : Mapping := { m with extent := part }

def Mapping.upper (m : Mapping) (part : Extent) : Mapping :=
  { m with extent := part, offset := m.offset + (part.start - m.extent.start) }

/-- The upper part of a mapping as a node of its own. -/
def Mapping.tail (m : Mapping) (handle : Handle) (part : Extent) : Mapping :=
  { m.upper part with handle, name := Name.clip m.name }

def Mapping.permitted (m : Mapping) (access : PageFlags) : Mapping :=
  { m with access := m.access.withPermissions access }

/-- The object hands out this frame for a page of the mapping, whatever the access and whatever was
handed out before. -/
def Mapping.Shows (m : Mapping) (page frame : Nat) : Prop :=
  ∀ write commitments, (m.object.commit (m.offset + (page - m.extent.start)) write commitments).answer =
    .ok frame

/-- The recorded system image is alive, executable, and shows the code as a whole. -/
def Recorded {M : Type} (es : List Entry) (r : Resources M) : Prop :=
  ∀ h, r.image = some h → ∃ m, .mapping m ∈ es ∧ m.handle = h ∧ m.Armed ∧ m.ShowsCode

namespace Recorded
variable {M : Type} {es es' : List Entry} {r r' : Resources M}

theorem mono (h : Recorded es r) (image : ∀ h, r'.image = some h → r.image = some h)
    (kept : ∀ m, .mapping m ∈ es → r'.image = some m.handle → .mapping m ∈ es') :
    Recorded es' r' := by
  intro handle same
  obtain ⟨m, hm, rfl, armed, code⟩ := h handle (image _ same)
  exact ⟨m, kept m hm same, rfl, armed, code⟩

theorem replace {m : Mapping} {e : Entry} (h : Recorded (.mapping m :: es) r)
    (image : ∀ h, r'.image = some h → r.image = some h) (other : r.image ≠ some m.handle) :
    Recorded (e :: es) r' := by
  refine h.mono image fun x hx same => ?_
  rcases List.mem_cons.mp hx with here | later
  · cases here
    exact absurd (image _ same) other
  · exact List.mem_cons_of_mem _ later

theorem bury {e : Entry} {kind : NodeKind} (l : Label) (h : Recorded (e :: es) r)
    (image : r'.image = r.image) (handle : e.handle = l.handle) : Recorded es (r'.bury kind l) := by
  refine h.mono (fun h same => image ▸ (Resources.image_of_bury same).1) fun x hx same => ?_
  rcases List.mem_cons.mp hx with rfl | later
  · exact absurd handle (Resources.image_of_bury same).2
  · exact later

end Recorded

/-- The ledger of a space at rest. -/
structure Sound {M : Type} (es : List Entry) (r : Resources M) : Prop where
  balanced : Balanced es r
  recorded : Recorded es r

theorem Sound.perm {M : Type} {es es' : List Entry} {r : Resources M} (sound : Sound es r)
    (same : es.Perm es') : Sound es' r :=
  ⟨sound.balanced.perm same, sound.recorded.mono (fun _ image => image) fun _ hm _ => same.mem_iff.mp hm⟩

theorem Sound.image_ne_held {M : Type} {es : List Entry} {r : Resources M} {h : Handle}
    (sound : Sound (.held h :: es) r) : r.image ≠ some h := by
  intro same
  obtain ⟨m, hm, handle, _⟩ := sound.recorded h same
  rcases List.mem_cons.mp hm with here | later
  · cases here
  · exact sound.balanced.head_ne later handle

/-- What a call is for: only some calls let nodes join, change permissions or translate pages, while all
may cut mappings and take nodes out of use. -/
inductive Purpose where
  | shape
  | permit (access : PageFlags)
  | translate

/-- What calls do to the entries and the resources of a space. Permissions change only to those that were
asked for, and the recorded system image is neither cut nor given other permissions. -/
inductive Evolves {M : Type} [Mmu M] (purpose : Purpose) :
    List Entry → Resources M → List Entry → Resources M → Prop where
  | refl (es : List Entry) (r : Resources M) : Evolves purpose es r es r
  | trans {es es' es'' : List Entry} {r r' r'' : Resources M} :
      Evolves purpose es r es' r' → Evolves purpose es' r' es'' r'' → Evolves purpose es r es'' r''
  | reorder {es es' : List Entry} (r : Resources M) : es.Perm es' → Evolves purpose es r es' r
  | quiet (es : List Entry) {r r' : Resources M} : r.Quiet r' → Evolves purpose es r es r'
  /-- A slot is taken for a node to come. -/
  | hold (es : List Entry) {r r' : Resources M} {new : Handle} :
      r.countGeneration.2.allocate r.countGeneration.1 = ⟨.ok new, r'⟩ →
        Evolves purpose es r (.held new :: es) r'
  /-- The slot is given back. -/
  | drop (h : Handle) (es : List Entry) (r : Resources M) :
      Evolves purpose (.held h :: es) r es (r.release h)
  | enterRegion {l : Label} (es : List Entry) (r : Resources M) : l.extent.Paged →
      Evolves purpose (.held l.handle :: es) r (.region l :: es) r
  | enterMapping {m : Mapping} {es : List Entry} (r : Resources M) : purpose = .shape →
      (Entry.mapping m).Tidy → (∀ e ∈ es, (Entry.mapping m).Apart e) → ¬ m.Armed →
        Evolves purpose (.held m.handle :: es) r (.mapping m :: es) r
  /-- An executable mapping of the system image is the only one and shows the code as a whole. -/
  | enterImage {m : Mapping} {es : List Entry} {r : Resources M} : purpose = .shape →
      (Entry.mapping m).Tidy → (∀ e ∈ es, (Entry.mapping m).Apart e) → m.Armed → m.ShowsCode →
        r.image = none →
          Evolves purpose (.held m.handle :: es) r (.mapping m :: es)
            { r with image := some m.handle }
  | split {m : Mapping} {low high : Extent} (h : Handle) (es : List Entry) (r : Resources M) :
      low.start = m.extent.start → low.stop = high.start → high.stop = m.extent.stop →
        high.start % pageSize = 0 → r.image ≠ some m.handle →
          Evolves purpose (.held h :: .mapping m :: es) r
            (.mapping (m.lower low) :: .mapping (m.tail h high) :: es) r
  | cutTail {m : Mapping} {low : Extent} (es : List Entry) (r : Resources M) :
      low.start = m.extent.start → low.stop < m.extent.stop → low.stop % pageSize = 0 →
        r.image ≠ some m.handle →
          Evolves purpose (.mapping m :: es) r (.mapping (m.lower low) :: es)
            { r with mmu := Mmu.unmap r.mmu ⟨low.stop, m.extent.stop⟩ }
  | cutHead {m : Mapping} {high : Extent} (es : List Entry) (r : Resources M) :
      m.extent.start < high.start → high.stop = m.extent.stop → high.start % pageSize = 0 →
        r.image ≠ some m.handle →
          Evolves purpose (.mapping m :: es) r (.mapping (m.upper high) :: es)
            { r with mmu := Mmu.unmap r.mmu ⟨m.extent.start, high.start⟩ }
  | permit {m : Mapping} {access : PageFlags} {mmu : M} (es : List Entry) (r : Resources M) :
      purpose = .permit access → access.fits m.flags → r.image ≠ some m.handle →
        Mmu.protect r.mmu m.extent.toSpan (m.access.withPermissions access) = ⟨.ok (), mmu⟩ →
          Evolves purpose (.mapping m :: es) r (.mapping (m.permitted access) :: es) { r with mmu }
  /-- The mmu fails to change flags, which need not leave it as it was. -/
  | balk {span : Span} {access : PageFlags} {f : Failure} {mmu : M} (es : List Entry)
      (r : Resources M) : Mmu.protect r.mmu span access = ⟨.error f, mmu⟩ →
        Evolves purpose es r es { r with mmu }
  | buryMapping (m : Mapping) (es : List Entry) (r : Resources M) :
      Evolves purpose (.mapping m :: es) r es
        ((r.unmapPages m.extent.toSpan).bury .mapping m.toLabel)
  | buryRegion (l : Label) (es : List Entry) (r : Resources M) :
      Evolves purpose (.region l :: es) r es (r.bury .region l)
  /-- A page of a mapping is translated to the frame that its object hands out. -/
  | translate {m : Mapping} {page frame : Nat} {es : List Entry} (r : Resources M) :
      purpose = .translate → .mapping m ∈ es → page ∈ m.extent.toSpan → page % pageSize = 0 →
        m.Shows page frame → Evolves purpose es r es
          { r with mmu := (Mmu.map r.mmu page frame pageSize m.access).state }

namespace Evolves
variable {M : Type} [Mmu M] {purpose : Purpose} {es es' : List Entry} {r r' : Resources M}

theorem tidy_upper {m : Mapping} {high : Extent} (tidy : (Entry.mapping m).Tidy)
    (start : m.extent.start < high.start) (stop : high.stop = m.extent.stop)
    (paged : high.start % pageSize = 0) : (Entry.mapping (m.upper high)).Tidy := by
  obtain ⟨⟨low, top⟩, offset, fits⟩ := tidy
  refine ⟨⟨paged, stop ▸ top⟩, ?_, ?_⟩
  · simp only [Mapping.upper]
    simp only [pageSize] at *
    omega
  · have := high.start_lt_stop
    simp only [Mapping.upper, Extent.length] at *
    omega

theorem tidy_lower {m : Mapping} {low : Extent} (tidy : (Entry.mapping m).Tidy)
    (start : low.start = m.extent.start) (stop : low.stop < m.extent.stop)
    (paged : low.stop % pageSize = 0) : (Entry.mapping (m.lower low)).Tidy := by
  obtain ⟨⟨bottom, _⟩, offset, fits⟩ := tidy
  refine ⟨⟨start ▸ bottom, paged⟩, offset, ?_⟩
  simp only [Mapping.lower, Extent.length] at *
  omega

theorem balanced (h : Evolves purpose es r es' r') (before : Balanced es r) : Balanced es' r' := by
  induction h with
  | refl => exact before
  | trans _ _ ih ih' => exact ih' (ih before)
  | reorder r same => exact before.perm same
  | quiet es same => exact before.quiet same
  | hold es taken => exact before.hold taken
  | drop h es r => exact before.release
  | enterRegion es r paged => exact before.replace rfl paged fun _ _ => trivial
  | enterMapping r _ tidy apart _ => exact before.replace rfl tidy apart
  | @enterImage m es r _ tidy apart _ _ _ =>
      have entered : Balanced (.mapping m :: es) r := before.replace rfl tidy apart
      exact entered.of_slots rfl rfl rfl (Nat.le_refl _)
  | @split m low high h es r start between stop paged _ =>
      have nonempty := low.start_lt_stop
      have top := high.start_lt_stop
      obtain ⟨_, tidy, _⟩ := List.forall_mem_cons.mp before.tidy |>.imp_right List.forall_mem_cons.mp
      have apart := (List.pairwise_cons.mp (List.pairwise_cons.mp before.apart).2).1
      -- The slot held for the tail comes second while the old mapping shrinks, and is filled then.
      have shrunk : Balanced (.mapping (m.lower low) :: .held h :: es) r := by
        refine (before.perm (.swap _ _ es)).replace rfl ?_ ?_
        · exact tidy_lower tidy start (by omega) (between ▸ paged)
        · refine List.forall_mem_cons.mpr ⟨trivial, fun e he => (apart e he).of_within ?_ ?_⟩
          · exact Nat.le_of_eq start.symm
          · show low.stop ≤ m.extent.stop
            omega
      have filled : Balanced (.mapping (m.tail h high) :: .mapping (m.lower low) :: es) r := by
        have inner : m.extent.start < high.start := by omega
        refine (shrunk.perm (.swap _ _ es)).replace rfl ?_ ?_
        · exact tidy_upper tidy inner stop paged
        · refine List.forall_mem_cons.mpr ⟨.inr (Nat.le_of_eq between), fun e he => ?_⟩
          exact (apart e he).of_within (Nat.le_of_lt inner) (Nat.le_of_eq stop)
      exact filled.perm (.swap _ _ es)
  | @cutTail m low es r start stop paged _ =>
      have tidy := before.tidy _ List.mem_cons_self
      have apart := (List.pairwise_cons.mp before.apart).1
      have shrunk : Balanced (.mapping (m.lower low) :: es) r :=
        before.replace rfl (tidy_lower tidy start stop paged) fun e he =>
          (apart e he).of_within (Nat.le_of_eq start.symm) (Nat.le_of_lt stop)
      exact shrunk.of_slots rfl rfl rfl (Nat.le_refl _)
  | @cutHead m high es r start stop paged _ =>
      have tidy := before.tidy _ List.mem_cons_self
      have apart := (List.pairwise_cons.mp before.apart).1
      have shrunk : Balanced (.mapping (m.upper high) :: es) r :=
        before.replace rfl (tidy_upper tidy start stop paged) fun e he =>
          (apart e he).of_within (Nat.le_of_lt start) (Nat.le_of_eq stop)
      exact shrunk.of_slots rfl rfl rfl (Nat.le_refl _)
  | @permit m access mmu es r _ _ _ _ =>
      have tidy := before.tidy _ List.mem_cons_self
      have apart := (List.pairwise_cons.mp before.apart).1
      have changed : Balanced (.mapping (m.permitted access) :: es) r :=
        before.replace rfl tidy fun e he =>
          (apart e he).of_within (Nat.le_refl _) (Nat.le_refl _)
      exact changed.of_slots rfl rfl rfl (Nat.le_refl _)
  | balk es r _ => exact before.of_slots rfl rfl rfl (Nat.le_refl _)
  | buryMapping m es r =>
      have unmapped : Balanced (.mapping m :: es) (r.unmapPages m.extent.toSpan) :=
        before.of_slots rfl rfl rfl (Nat.le_refl _)
      exact unmapped.bury rfl
  | buryRegion l es r => exact before.bury rfl
  | translate r _ _ _ _ _ => exact before.of_slots rfl rfl rfl (Nat.le_refl _)

theorem recorded (h : Evolves purpose es r es' r') (before : Recorded es r) : Recorded es' r' := by
  induction h with
  | refl => exact before
  | trans _ _ ih ih' => exact ih' (ih before)
  | reorder r same => exact before.mono (fun _ image => image) fun m hm _ => same.mem_iff.mp hm
  | quiet es same => exact before.mono (fun _ image => same.image ▸ image) fun _ hm _ => hm
  | hold es taken =>
      have image := Resources.allocate_image taken
      exact before.mono (fun _ same => image ▸ same) fun _ hm _ => List.mem_cons_of_mem _ hm
  | drop h es r => exact before.mono (fun _ image => image) fun _ hm _ => by simpa using hm
  | enterRegion es r _ => exact before.mono (fun _ image => image) fun _ hm _ => by simpa using hm
  | enterMapping r _ _ _ _ =>
      refine before.mono (fun _ image => image) fun _ hm _ => List.mem_cons_of_mem _ ?_
      simpa using hm
  | @enterImage m es r _ _ _ armed code _ =>
      rintro _ ⟨⟩
      exact ⟨m, List.mem_cons_self, rfl, armed, code⟩
  | @split m low high h es r _ _ _ _ other =>
      refine before.mono (fun _ image => image) fun x hx image => ?_
      simp only [List.mem_cons, Entry.mapping.injEq, reduceCtorEq, false_or] at hx ⊢
      rcases hx with rfl | later
      · exact absurd image other
      · exact .inr (.inr later)
  | cutTail es r _ _ _ other => exact before.replace (fun _ image => image) other
  | cutHead es r _ _ _ other => exact before.replace (fun _ image => image) other
  | permit es r _ _ other _ => exact before.replace (fun _ image => image) other
  | balk es r _ => exact before.mono (fun _ image => image) fun _ hm _ => hm
  | buryMapping m es r => exact before.bury m.toLabel rfl rfl
  | buryRegion l es r => exact before.bury l rfl rfl
  | translate r _ _ _ _ _ => exact before.mono (fun _ image => image) fun _ hm _ => hm

theorem generation (h : Evolves purpose es r es' r') : r.nextGeneration ≤ r'.nextGeneration := by
  induction h with
  | trans _ _ ih ih' => exact Nat.le_trans ih ih'
  | quiet es same => exact same.generation
  | @hold es r r' new taken =>
      have same : r'.nextGeneration = r.nextGeneration + 1 :=
        Resources.allocate_nextGeneration (r := r.countGeneration.2) taken
      exact same ▸ Nat.le_succ _
  | buryMapping m es r => exact Nat.le_of_eq ((r.unmapPages m.extent.toSpan).nextGeneration_bury _ _).symm
  | buryRegion l es r => exact Nat.le_of_eq (r.nextGeneration_bury _ _).symm
  | _ => exact Nat.le_refl _

theorem fresh (h : Evolves purpose es r es' r') : r.fresh ≤ r'.fresh := by
  induction h with
  | trans _ _ ih ih' => exact Nat.le_trans ih ih'
  | quiet es same => exact Nat.le_of_eq same.fresh.symm
  | hold es taken =>
      obtain ⟨_, _, ⟨free, _, rfl⟩ | ⟨_, _, rfl⟩⟩ := Resources.allocate_ok taken
      · exact Nat.le_refl _
      · exact Nat.le_succ _
  | buryMapping m es r => exact Nat.le_of_eq ((r.unmapPages m.extent.toSpan).fresh_bury _ _).symm
  | buryRegion l es r => exact Nat.le_of_eq (r.fresh_bury _ _).symm
  | _ => exact Nat.le_refl _

theorem sound (h : Evolves purpose es r es' r') (before : Sound es r) : Sound es' r' :=
  ⟨h.balanced before.balanced, h.recorded before.recorded⟩

end Evolves
end RegionTree
