import Mathlib.Data.List.Nodup
import RegionTree.Proofs.Context
import RegionTree.Resources.Destroy
import RegionTree.Resources.Rework

/-! The ledger of a space: the entries of its nodes beside its resources. Every operation is a row of
small changes of the ledger, and each of these keeps it balanced: the slots of the entries and the free
slots are all slots, mappings lie apart and their ranges are made of pages. -/
namespace RegionTree

theorem Address.wholePages_mod (size : Nat) : wholePages size % pageSize = 0 := by
  rw [wholePages]
  cases rounded : ceilTo? size pageSize with
  | none => rfl
  | some up =>
      obtain ⟨sum, _, rfl⟩ := Option.map_eq_some_iff.mp rounded
      exact Nat.mul_mod_left _ _

def Extent.Paged (e : Extent) : Prop := e.start % pageSize = 0 ∧ e.stop % pageSize = 0

/-- A mapping shows whole pages of its object, whose offsets an address can hold. -/
def Entry.Tidy : Entry → Prop
  | .region l => l.extent.Paged
  | .mapping m =>
    m.extent.Paged ∧ m.offset % pageSize = 0 ∧ m.offset + m.extent.length < Address.limit
  | .held _ => True

theorem Entry.Tidy.offset_lt {m : Mapping} (tidy : (Entry.mapping m).Tidy) {a : Nat}
    (inside : a ≤ m.extent.stop) : m.offset + (a - m.extent.start) < Address.limit := by
  have room := tidy.2.2
  simp only [Extent.length] at room
  omega

/-- Two mappings have no address in common. -/
def Entry.Apart : Entry → Entry → Prop
  | .mapping a, .mapping b => a.extent.stop ≤ b.extent.start ∨ b.extent.stop ≤ a.extent.start
  | _, _ => True

theorem Entry.Apart.symm {a b : Entry} (h : a.Apart b) : b.Apart a := by
  cases a <;> cases b <;> first | trivial | exact Or.symm h

theorem Entry.Apart.of_within {m part : Mapping} {e : Entry} (h : (Entry.mapping m).Apart e)
    (low : m.extent.start ≤ part.extent.start) (high : part.extent.stop ≤ m.extent.stop) :
    (Entry.mapping part).Apart e := by
  cases e with
  | mapping b => rcases h with before | behind <;> simp only [Entry.Apart] <;> omega
  | region l => trivial
  | held h => trivial

/-- The mapping is an executable one of a system image. -/
def Mapping.Armed (m : Mapping) : Prop :=
  m.object.code.isSome ∧ m.access.contains PageFlags.execute

/-- The mapping shows the code of the system image and nothing else. -/
def Mapping.ShowsCode (m : Mapping) : Prop :=
  m.object.code = some ⟨m.offset, m.offset + m.extent.length⟩

namespace Resources
variable {M : Type}

/-- The second stock differs from the first in its journal, and by generations counted in between. -/
structure Quiet (r r' : Resources M) : Prop where
  capacity : r'.capacity = r.capacity
  fresh : r'.fresh = r.fresh
  free : r'.free = r.free
  image : r'.image = r.image
  mmu : r'.mmu = r.mmu
  generation : r.nextGeneration ≤ r'.nextGeneration

theorem Quiet.refl (r : Resources M) : r.Quiet r := ⟨rfl, rfl, rfl, rfl, rfl, Nat.le_refl _⟩

theorem Quiet.trans {r r' r'' : Resources M} (h : r.Quiet r') (h' : r'.Quiet r'') : r.Quiet r'' :=
  ⟨h'.capacity.trans h.capacity, h'.fresh.trans h.fresh, h'.free.trans h.free,
    h'.image.trans h.image, h'.mmu.trans h.mmu, Nat.le_trans h.generation h'.generation⟩

theorem Quiet.inUse {r r' : Resources M} (h : r.Quiet r') : r'.inUse = r.inUse := by
  rw [Resources.inUse, h.fresh, h.free, Resources.inUse]

theorem quiet_report (r : Resources M) (e : Event) : r.Quiet (r.report e) :=
  ⟨rfl, rfl, rfl, rfl, rfl, Nat.le_refl _⟩

theorem quiet_note (r : Resources M) (n : Notice) : r.Quiet (r.note n) := r.quiet_report _

theorem quiet_reportAll (r : Resources M) (events : List Event) : r.Quiet (r.reportAll events) := by
  induction events generalizing r with
  | nil => exact .refl r
  | cons e events ih => exact (r.quiet_report e).trans (ih (r.report e))

theorem allocate_ok {r r' : Resources M} {generation : Nat} {new : Handle}
    (taken : r.allocate generation = ⟨.ok new, r'⟩) :
    new.generation = generation ∧ r.inUse < r.capacity ∧
      ((∃ free, r.free = new.slot :: free ∧ r' = { r with free }) ∨
        (r.free = [] ∧ new.slot = r.fresh ∧ r' = { r with fresh := r.fresh + 1 })) := by
  simp only [allocate] at taken
  split at taken
  · cases taken
  · next room =>
      have room : r.inUse < r.capacity := Nat.lt_of_not_le room
      split at taken
      · next slot free same => cases taken; exact ⟨rfl, room, .inl ⟨free, same, rfl⟩⟩
      · next none => cases taken; exact ⟨rfl, room, .inr ⟨none, rfl, rfl⟩⟩

theorem allocate_image {r r' : Resources M} {generation : Nat} {new : Handle}
    (taken : r.allocate generation = ⟨.ok new, r'⟩) : r'.image = r.image := by
  obtain ⟨_, _, ⟨free, _, rfl⟩ | ⟨_, _, rfl⟩⟩ := allocate_ok taken <;> rfl

theorem allocate_capacity {r r' : Resources M} {generation : Nat} {new : Handle}
    (taken : r.allocate generation = ⟨.ok new, r'⟩) : r'.capacity = r.capacity := by
  obtain ⟨_, _, ⟨free, _, rfl⟩ | ⟨_, _, rfl⟩⟩ := allocate_ok taken <;> rfl

theorem allocate_mmu {r r' : Resources M} {generation : Nat} {new : Handle}
    (taken : r.allocate generation = ⟨.ok new, r'⟩) : r'.mmu = r.mmu := by
  obtain ⟨_, _, ⟨free, _, rfl⟩ | ⟨_, _, rfl⟩⟩ := allocate_ok taken <;> rfl

theorem allocate_nextGeneration {r r' : Resources M} {generation : Nat} {new : Handle}
    (taken : r.allocate generation = ⟨.ok new, r'⟩) : r'.nextGeneration = r.nextGeneration := by
  obtain ⟨_, _, ⟨free, _, rfl⟩ | ⟨_, _, rfl⟩⟩ := allocate_ok taken <;> rfl

theorem image_bury (r : Resources M) (kind : NodeKind) (l : Label) :
    (r.bury kind l).image = if r.image = some l.handle then none else r.image := by
  by_cases same : r.image = some l.handle <;> simp [bury, release, note, report, same]

theorem image_of_bury {r : Resources M} {kind : NodeKind} {l : Label} {h : Handle}
    (same : (r.bury kind l).image = some h) : r.image = some h ∧ h ≠ l.handle := by
  rw [image_bury] at same
  obtain ⟨other, same⟩ := Option.ite_none_left_eq_some.mp same
  exact ⟨same, fun here => other (here ▸ same)⟩

theorem image_bury_other {r : Resources M} {kind : NodeKind} {l : Label} {h : Handle}
    (same : r.image = some h) (other : h ≠ l.handle) : (r.bury kind l).image = some h := by
  rw [image_bury, if_neg, same]
  rw [same]
  exact fun here => other (Option.some.inj here)

theorem mmu_bury (r : Resources M) (kind : NodeKind) (l : Label) : (r.bury kind l).mmu = r.mmu := by
  by_cases same : r.image = some l.handle <;> simp [bury, release, note, report, same]

theorem nextGeneration_bury (r : Resources M) (kind : NodeKind) (l : Label) :
    (r.bury kind l).nextGeneration = r.nextGeneration := by
  by_cases same : r.image = some l.handle <;> simp [bury, release, note, report, same]

theorem fresh_bury (r : Resources M) (kind : NodeKind) (l : Label) :
    (r.bury kind l).fresh = r.fresh := by
  by_cases same : r.image = some l.handle <;> simp [bury, release, note, report, same]

theorem capacity_bury (r : Resources M) (kind : NodeKind) (l : Label) :
    (r.bury kind l).capacity = r.capacity := by
  by_cases same : r.image = some l.handle <;> simp [bury, release, note, report, same]

theorem quiet_countGeneration (r : Resources M) : r.Quiet r.countGeneration.2 :=
  ⟨rfl, rfl, rfl, rfl, rfl, Nat.le_succ _⟩

end Resources

/-- What holds of the ledger between two changes. -/
structure Balanced {M : Type} (es : List Entry) (r : Resources M) : Prop where
  /-- The slots of the entries and the free slots are together all slots ever used, each once. -/
  slots : (es.map (·.handle.slot) ++ r.free).Perm (List.range r.fresh)
  aged : ∀ e ∈ es, e.handle.generation < r.nextGeneration
  unlike : (es.map (·.handle.generation)).Nodup
  room : es.length ≤ r.capacity
  tidy : ∀ e ∈ es, e.Tidy
  apart : es.Pairwise Entry.Apart

namespace Balanced
variable {M : Type} {es es' : List Entry} {r r' : Resources M}

theorem perm (h : Balanced es r) (same : es.Perm es') : Balanced es' r where
  slots := ((same.map _).append_right _).symm.trans h.slots
  aged e he := h.aged e (same.mem_iff.mpr he)
  unlike := (same.map _).nodup_iff.mp h.unlike
  room := same.length_eq ▸ h.room
  tidy e he := h.tidy e (same.mem_iff.mpr he)
  apart := (same.pairwise_iff Entry.Apart.symm).mp h.apart

theorem of_slots (h : Balanced es r) (capacity : r'.capacity = r.capacity)
    (fresh : r'.fresh = r.fresh) (free : r'.free = r.free)
    (generation : r.nextGeneration ≤ r'.nextGeneration) : Balanced es r' where
  slots := by rw [free, fresh]; exact h.slots
  aged e he := Nat.lt_of_lt_of_le (h.aged e he) generation
  unlike := h.unlike
  room := capacity ▸ h.room
  tidy := h.tidy
  apart := h.apart

theorem quiet (h : Balanced es r) (same : r.Quiet r') : Balanced es r' :=
  h.of_slots same.capacity same.fresh same.free same.generation

theorem slots_nodup (h : Balanced es r) : (es.map (·.handle.slot)).Nodup :=
  (List.nodup_append.mp (h.slots.nodup_iff.mpr List.nodup_range)).1

theorem handles_nodup (h : Balanced es r) : (es.map Entry.handle).Nodup := by
  have slots := h.slots_nodup
  rw [show (fun e : Entry => e.handle.slot) = Handle.slot ∘ Entry.handle from rfl,
    ← List.map_map] at slots
  exact List.Nodup.of_map _ slots

theorem inUse_eq (h : Balanced es r) : r.inUse = es.length := by
  have total := h.slots.length_eq
  simp only [List.length_append, List.length_map, List.length_range] at total
  rw [Resources.inUse]
  omega

theorem head_ne {e : Entry} (h : Balanced (e :: es) r) {x : Entry} (hx : x ∈ es) :
    x.handle ≠ e.handle := by
  have := (List.nodup_cons.mp h.handles_nodup).1
  intro same
  exact this (List.mem_map.mpr ⟨x, hx, same⟩)

theorem replace {e e' : Entry} (h : Balanced (e :: es) r) (handle : e'.handle = e.handle)
    (tidy : e'.Tidy) (apart : ∀ x ∈ es, e'.Apart x) : Balanced (e' :: es) r where
  slots := by simpa only [List.map_cons, handle] using h.slots
  aged x hx := by
    rcases List.mem_cons.mp hx with rfl | old
    · exact handle ▸ h.aged e List.mem_cons_self
    · exact h.aged x (List.mem_cons_of_mem _ old)
  unlike := by simpa only [List.map_cons, handle] using h.unlike
  room := h.room
  tidy := List.forall_mem_cons.mpr ⟨tidy, (List.forall_mem_cons.mp h.tidy).2⟩
  apart := List.pairwise_cons.mpr ⟨apart, (List.pairwise_cons.mp h.apart).2⟩

theorem hold {new : Handle} (h : Balanced es r)
    (taken : r.countGeneration.2.allocate r.countGeneration.1 = ⟨.ok new, r'⟩) :
    Balanced (.held new :: es) r' := by
  obtain ⟨generation, room, slots⟩ := Resources.allocate_ok taken
  have generation : new.generation = r.nextGeneration := generation
  have room : es.length < r.capacity := h.inUse_eq ▸ room
  have aged : ∀ e ∈ Entry.held new :: es, e.handle.generation < r.nextGeneration + 1 :=
    List.forall_mem_cons.mpr ⟨Nat.lt_succ_of_le (Nat.le_of_eq generation),
      fun e he => Nat.lt_succ_of_lt (h.aged e he)⟩
  have unlike : (new.generation :: es.map (·.handle.generation)).Nodup := by
    refine List.nodup_cons.mpr ⟨?_, h.unlike⟩
    intro old
    obtain ⟨e, he, same⟩ := List.mem_map.mp old
    have := h.aged e he
    omega
  have apart : (Entry.held new :: es).Pairwise Entry.Apart :=
    List.pairwise_cons.mpr ⟨fun _ _ => trivial, h.apart⟩
  have tidy : ∀ e ∈ Entry.held new :: es, e.Tidy := List.forall_mem_cons.mpr ⟨trivial, h.tidy⟩
  rcases slots with ⟨free, same, rfl⟩ | ⟨same, fresh, rfl⟩
  · refine ⟨?_, aged, unlike, room, tidy, apart⟩
    have same : r.free = new.slot :: free := same
    have slots := h.slots
    rw [same] at slots
    exact List.perm_middle.symm.trans slots
  · refine ⟨?_, aged, unlike, room, tidy, apart⟩
    have fresh : new.slot = r.fresh := fresh
    show (new.slot :: (es.map (·.handle.slot) ++ r.free)).Perm (List.range (r.fresh + 1))
    rw [List.range_succ, fresh]
    exact (h.slots.cons r.fresh).trans (List.perm_append_singleton _ _).symm

theorem release {e : Entry} (h : Balanced (e :: es) r) : Balanced es (r.release e.handle) where
  slots := List.perm_middle.trans h.slots
  aged x hx := h.aged x (List.mem_cons_of_mem _ hx)
  unlike := (List.nodup_cons.mp h.unlike).2
  room := Nat.le_of_succ_le h.room
  tidy := (List.forall_mem_cons.mp h.tidy).2
  apart := (List.pairwise_cons.mp h.apart).2

theorem bury {e : Entry} {kind : NodeKind} {l : Label} (h : Balanced (e :: es) r)
    (handle : l.handle = e.handle) : Balanced es (r.bury kind l) := by
  rw [Resources.bury, handle]
  apply release
  split
  · exact h.of_slots rfl rfl rfl (Nat.le_refl _)
  · exact h.of_slots rfl rfl rfl (Nat.le_refl _)

end Balanced
end RegionTree
