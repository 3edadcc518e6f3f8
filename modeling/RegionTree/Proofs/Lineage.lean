import Mathlib.Data.List.Pairwise
import RegionTree.Proofs.Evolution

/-! Where mappings come from: each has joined meanwhile or is a piece of one that was there before, and a
handle that goes out of use does not come back. -/
namespace RegionTree

/-- What is left of a mapping: some of its range, with the same pages of the same object. -/
structure Mapping.PieceOf (part m : Mapping) : Prop where
  low : m.extent.start ≤ part.extent.start
  high : part.extent.stop ≤ m.extent.stop
  object : part.object = m.object
  offset : part.offset + m.extent.start = m.offset + part.extent.start

namespace Mapping.PieceOf
variable {m part rest : Mapping}

theorem of_eq (extent : part.extent = m.extent) (object : part.object = m.object)
    (offset : part.offset = m.offset) : part.PieceOf m :=
  ⟨Nat.le_of_eq (by rw [extent]), Nat.le_of_eq (by rw [extent]), object, by rw [offset, extent]⟩

theorem refl (m : Mapping) : m.PieceOf m := of_eq rfl rfl rfl

theorem trans (h : rest.PieceOf part) (h' : part.PieceOf m) : rest.PieceOf m where
  low := Nat.le_trans h'.low h.low
  high := Nat.le_trans h.high h'.high
  object := h.object.trans h'.object
  offset := by
    have := h.offset
    have := h'.offset
    omega

theorem shows {page frame : Nat} (h : part.PieceOf m) (inside : page ∈ part.extent.toSpan)
    (shows : m.Shows page frame) : part.Shows page frame := by
  intro write commitments
  have start : part.extent.start ≤ page := inside.1
  have same : part.offset + (page - part.extent.start) = m.offset + (page - m.extent.start) := by
    have := h.offset
    have := h.low
    omega
  rw [h.object, same]
  exact shows write commitments

theorem lower {low : Extent} (start : low.start = m.extent.start) (stop : low.stop ≤ m.extent.stop) :
    (m.lower low).PieceOf m := by
  refine ⟨Nat.le_of_eq start.symm, stop, rfl, ?_⟩
  show m.offset + m.extent.start = m.offset + low.start
  rw [start]

theorem upper {high : Extent} (start : m.extent.start ≤ high.start) (stop : high.stop = m.extent.stop) :
    (m.upper high).PieceOf m := by
  refine ⟨start, Nat.le_of_eq stop, rfl, ?_⟩
  show m.offset + (high.start - m.extent.start) + m.extent.start = m.offset + high.start
  omega

theorem tail {high : Extent} (h : Handle) (start : m.extent.start ≤ high.start)
    (stop : high.stop = m.extent.stop) : (m.tail h high).PieceOf m :=
  have piece := upper start stop
  ⟨piece.low, piece.high, piece.object, piece.offset⟩

end Mapping.PieceOf

instance : Std.Symm Entry.Apart := ⟨fun _ _ => Entry.Apart.symm⟩

theorem Balanced.eq_of_page {M : Type} {es : List Entry} {r : Resources M} (h : Balanced es r)
    {m m' : Mapping} {page : Nat} (hm : .mapping m ∈ es) (hm' : .mapping m' ∈ es)
    (inside : page ∈ m.extent.toSpan) (inside' : page ∈ m'.extent.toSpan) : m = m' := by
  by_contra differ
  have apart := h.apart.forall hm hm' fun same => differ (Entry.mapping.inj same)
  have below := inside.1
  have above := inside.2
  have below' := inside'.1
  have above' := inside'.2
  simp only [Entry.Apart] at apart
  omega

/-- The handle is out of use for good. -/
structure Gone {M : Type} (h : Handle) (es : List Entry) (r : Resources M) : Prop where
  old : h.generation < r.nextGeneration
  absent : h ∉ es.map Entry.handle
  forgotten : r.image ≠ some h

theorem Gone.mono {M : Type} {h : Handle} {es es' : List Entry} {r r' : Resources M} (gone : Gone h es r)
    (generation : r.nextGeneration ≤ r'.nextGeneration)
    (fewer : es'.map Entry.handle ⊆ es.map Entry.handle)
    (image : r'.image = some h → r.image = some h) : Gone h es' r' where
  old := Nat.lt_of_lt_of_le gone.old generation
  absent member := gone.absent (fewer member)
  forgotten same := gone.forgotten (image same)

namespace Evolves
variable {M : Type} [Mmu M] {purpose : Purpose} {es es' : List Entry} {r r' : Resources M}

/-- Slots that are taken again are told apart by their generation. -/
theorem gone {h : Handle} (evolves : Evolves purpose es r es' r') (before : Gone h es r) :
    Gone h es' r' := by
  induction evolves with
  | refl => exact before
  | trans _ _ ih ih' => exact ih' (ih before)
  | reorder r same => exact before.mono (Nat.le_refl _) (same.map _).symm.subset id
  | quiet es same => exact before.mono same.generation (List.Subset.refl _) (same.image ▸ ·)
  | @hold es r r' new taken =>
      have generation : new.generation = r.nextGeneration := (Resources.allocate_ok taken).1
      have image : r'.image = r.image := Resources.allocate_image (r := r.countGeneration.2) taken
      have next : r'.nextGeneration = r.nextGeneration + 1 :=
        Resources.allocate_nextGeneration (r := r.countGeneration.2) taken
      have old := before.old
      refine ⟨by omega, ?_, image ▸ before.forgotten⟩
      refine List.not_mem_cons_of_ne_of_not_mem ?_ before.absent
      rintro rfl
      exact absurd generation (Nat.ne_of_lt old)
  | drop h es r => exact before.mono (Nat.le_refl _) (List.subset_cons_self _ _) id
  | enterRegion es r _ => exact before.mono (Nat.le_refl _) (List.Subset.refl _) id
  | enterMapping r _ _ _ _ => exact before.mono (Nat.le_refl _) (List.Subset.refl _) id
  | @enterImage m es r _ _ _ _ _ _ =>
      refine ⟨before.old, before.absent, fun same => ?_⟩
      exact before.absent (List.mem_cons.mpr (.inl (Option.some.inj same).symm))
  | split h es r _ _ _ _ _ => exact before.mono (Nat.le_refl _) (List.Perm.swap _ _ _).subset id
  | cutTail es r _ _ _ _ => exact before.mono (Nat.le_refl _) (List.Subset.refl _) id
  | cutHead es r _ _ _ _ => exact before.mono (Nat.le_refl _) (List.Subset.refl _) id
  | permit es r _ _ _ _ => exact before.mono (Nat.le_refl _) (List.Subset.refl _) id
  | balk es r _ => exact before.mono (Nat.le_refl _) (List.Subset.refl _) id
  | buryMapping m es r =>
      have generation := (r.unmapPages m.extent.toSpan).nextGeneration_bury .mapping m.toLabel
      exact before.mono (Nat.le_of_eq generation.symm) (List.subset_cons_self _ _) fun same =>
        (Resources.image_of_bury same).1
  | buryRegion l es r =>
      have generation := r.nextGeneration_bury .region l
      exact before.mono (Nat.le_of_eq generation.symm) (List.subset_cons_self _ _) fun same =>
        (Resources.image_of_bury same).1
  | translate r _ _ _ _ _ => exact before.mono (Nat.le_refl _) (List.Subset.refl _) id

/-- The recorded system image stays whole and recorded until it is out of use. -/
theorem image_stays {m : Mapping} (h : Evolves purpose es r es' r') (balanced : Balanced es r)
    (member : .mapping m ∈ es) (image : r.image = some m.handle) :
    (.mapping m ∈ es' ∧ r'.image = some m.handle) ∨ Gone m.handle es' r' := by
  induction h with
  | refl => exact .inl ⟨member, image⟩
  | trans first later ih ih' =>
      rcases ih balanced member image with ⟨member, image⟩ | gone
      · exact ih' (first.balanced balanced) member image
      · exact .inr (later.gone gone)
  | reorder r same => exact .inl ⟨same.mem_iff.mp member, image⟩
  | quiet es same => exact .inl ⟨member, same.image.trans image⟩
  | hold es taken =>
      have same := Resources.allocate_image taken
      exact .inl ⟨List.mem_cons_of_mem _ member, same.trans image⟩
  | drop h es r => exact .inl ⟨by simpa using member, image⟩
  | enterRegion es r _ => exact .inl ⟨by simpa using member, image⟩
  | enterMapping r _ _ _ _ => exact .inl ⟨List.mem_cons_of_mem _ (by simpa using member), image⟩
  | enterImage _ _ _ _ _ free => exact absurd (free.symm.trans image) (by simp)
  | @split x low high h es r _ _ _ _ other =>
      simp only [List.mem_cons, Entry.mapping.injEq, reduceCtorEq, false_or] at member ⊢
      rcases member with rfl | later
      · exact absurd image other
      · exact .inl ⟨.inr (.inr later), image⟩
  | cutTail es r _ _ _ other | cutHead es r _ _ _ other | permit es r _ _ other _ =>
      rcases List.mem_cons.mp member with here | later
      · cases here
        exact absurd image other
      · exact .inl ⟨List.mem_cons_of_mem _ later, image⟩
  | balk es r _ => exact .inl ⟨member, image⟩
  | buryMapping x es r =>
      rcases List.mem_cons.mp member with here | later
      · cases here
        have aged := balanced.aged _ List.mem_cons_self
        have generation := (r.unmapPages m.extent.toSpan).nextGeneration_bury .mapping m.toLabel
        exact .inr ⟨generation ▸ aged, (List.nodup_cons.mp balanced.handles_nodup).1,
          fun same => (Resources.image_of_bury same).2 rfl⟩
      · exact .inl ⟨later, Resources.image_bury_other image (balanced.head_ne later)⟩
  | buryRegion l es r =>
      have later : .mapping m ∈ es := by simpa using member
      exact .inl ⟨later, Resources.image_bury_other image (balanced.head_ne later)⟩
  | translate r _ _ _ _ _ => exact .inl ⟨member, image⟩

end Evolves

theorem Mapping.Armed.congr {m m' : Mapping} (armed : m'.Armed) (object : m'.object = m.object)
    (access : m'.access = m.access) : m.Armed := by
  rw [Armed, ← object, ← access]
  exact armed

/-- Where a mapping comes from. What is left of the recorded system image is all of it, and permissions
are other than before only if the call is for that. -/
inductive Mapping.Stems {M : Type} (purpose : Purpose) (es : List Entry) (r r' : Resources M)
    (part : Mapping) : Prop where
  | joined : purpose = .shape → (part.Armed → r'.image = some part.handle) → Stems purpose es r r' part
  | left {m : Mapping} : .mapping m ∈ es → part.PieceOf m → (r.image = some m.handle → part = m) →
      ((∀ access, purpose ≠ .permit access) → part.access = m.access) → Stems purpose es r r' part

namespace Mapping.Stems
variable {M : Type} {purpose : Purpose} {es : List Entry} {r r' : Resources M} {m part : Mapping}

theorem refl (member : .mapping m ∈ es) : m.Stems purpose es r r' :=
  .left member (.refl m) (fun _ => rfl) (fun _ => rfl)

theorem cut (member : .mapping m ∈ es) (piece : part.PieceOf m) (other : r.image ≠ some m.handle)
    (access : part.access = m.access) : part.Stems purpose es r r' :=
  .left member piece (fun image => absurd image other) (fun _ => access)

theorem cons {e : Entry} (first : part.Stems purpose (e :: es) r r') :
    ∀ x, .mapping x ∈ Entry.mapping part :: es → x.Stems purpose (e :: es) r r' := by
  intro x member
  rcases List.mem_cons.mp member with here | later
  · cases here
    exact first
  · exact .refl (List.mem_cons_of_mem _ later)

end Mapping.Stems

namespace Evolves
variable {M : Type} [Mmu M] {purpose : Purpose} {es es' : List Entry} {r r' : Resources M}

theorem stems (h : Evolves purpose es r es' r') (balanced : Balanced es r) :
    ∀ part, .mapping part ∈ es' → part.Stems purpose es r r' := by
  induction h with
  | refl => exact fun _ member => .refl member
  | @trans es es' es'' r r' r'' first later ih ih' =>
      have middle := first.balanced balanced
      intro rest hrest
      rcases ih' middle rest hrest with ⟨shape, image⟩ | @⟨part, hpart, piece, whole, access⟩
      · exact .joined shape image
      rcases ih balanced part hpart with ⟨shape, image⟩ | @⟨m, hm, piece', whole', access'⟩
      · refine .joined shape fun armed => ?_
        have same := access (by simp [shape])
        have image := image (armed.congr piece.object same)
        cases whole image
        rcases later.image_stays middle hpart image with ⟨_, image⟩ | gone
        · exact image
        · exact absurd (List.mem_map_of_mem hrest) gone.absent
      · refine .left hm (piece.trans piece') (fun image => ?_) fun no => (access no).trans (access' no)
        cases whole' image
        rcases first.image_stays balanced hm image with ⟨_, image⟩ | gone
        · exact whole image
        · exact absurd (List.mem_map_of_mem hpart) gone.absent
  | reorder r same => exact fun _ member => .refl (same.mem_iff.mpr member)
  | quiet es same => exact fun _ member => .refl member
  | hold es taken => exact fun _ member => .refl (by simpa using member)
  | drop h es r => exact fun _ member => .refl (List.mem_cons_of_mem _ member)
  | enterRegion es r _ => exact fun _ member => .refl (by simpa using member)
  | enterMapping r shape _ _ unarmed => exact .cons (.joined shape fun armed => absurd armed unarmed)
  | enterImage shape _ _ _ _ _ => exact .cons (.joined shape fun _ => rfl)
  | @split m low high h es r start between stop _ other =>
      have first := low.start_lt_stop
      have last := high.start_lt_stop
      have old : Entry.mapping m ∈ .held h :: .mapping m :: es :=
        List.mem_cons_of_mem _ List.mem_cons_self
      intro part member
      simp only [List.mem_cons, Entry.mapping.injEq] at member
      rcases member with rfl | rfl | later
      · exact .cut old (.lower start (by omega)) other rfl
      · exact .cut old (.tail h (by omega) stop) other rfl
      · exact .refl (List.mem_cons_of_mem _ (List.mem_cons_of_mem _ later))
  | cutTail es r start stop _ other =>
      exact .cons (.cut List.mem_cons_self (.lower start (Nat.le_of_lt stop)) other rfl)
  | cutHead es r start stop _ other =>
      exact .cons (.cut List.mem_cons_self (.upper (Nat.le_of_lt start) stop) other rfl)
  | @permit m access mmu es r asked _ other _ =>
      have piece : (m.permitted access).PieceOf m := .of_eq rfl rfl rfl
      exact .cons (.left List.mem_cons_self piece (absurd · other) fun no => absurd asked (no access))
  | balk es r _ => exact fun _ member => .refl member
  | buryMapping m es r => exact fun _ member => .refl (List.mem_cons_of_mem _ member)
  | buryRegion l es r => exact fun _ member => .refl (List.mem_cons_of_mem _ member)
  | translate r _ _ _ _ _ => exact fun _ member => .refl member

end Evolves
end RegionTree
