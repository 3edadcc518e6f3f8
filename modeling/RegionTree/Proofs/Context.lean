import Mathlib.Data.List.Perm.Basic
import RegionTree.Node.Edit
import RegionTree.Node.Lookup

/-! Trees with a hole. A node that is found by its handle fills a context, and a change of the tree at
that handle is a change of what fills it. -/
namespace RegionTree

/-- A node without what is below it. A slot may also be held for a node that is still to join the
tree. -/
inductive Entry where
  | region (l : Label)
  | mapping (m : Mapping)
  | held (h : Handle)

def Entry.handle : Entry → Handle
  | .region l => l.handle
  | .mapping m => m.handle
  | .held h => h

@[simp] theorem Entry.handle_region (l : Label) : (Entry.region l).handle = l.handle := rfl

@[simp] theorem Entry.handle_mapping (m : Mapping) : (Entry.mapping m).handle = m.handle := rfl

@[simp] theorem Entry.handle_held (h : Handle) : (Entry.held h).handle = h := rfl

def Node.entry : Node → Entry
  | .region l _ => .region l
  | .mapping m => .mapping m

mutual
def Node.toList : Node → List Node
  | .region l children => .region l children :: Forest.toList children
  | .mapping m => [.mapping m]
def Forest.toList : Forest → List Node
  | [] => []
  | n :: rest => n.toList ++ Forest.toList rest
end

mutual
def Node.entries : Node → List Entry
  | .region l children => .region l :: Forest.entries children
  | .mapping m => [.mapping m]
def Forest.entries : Forest → List Entry
  | [] => []
  | n :: rest => n.entries ++ Forest.entries rest
end

@[simp] theorem Forest.entries_nil : Forest.entries [] = [] := rfl

@[simp] theorem Forest.entries_cons (n : Node) (ns : Forest) :
    Forest.entries (n :: ns) = n.entries ++ Forest.entries ns := rfl

@[simp] theorem Forest.entries_append (ns more : Forest) :
    Forest.entries (ns ++ more) = Forest.entries ns ++ Forest.entries more := by
  induction ns with
  | nil => rfl
  | cons n ns ih => simp only [List.cons_append, Forest.entries_cons, ih, List.append_assoc]

mutual
theorem Node.map_entry_toList : (n : Node) → n.toList.map Node.entry = n.entries
  | .region l children => by
      simp only [Node.toList, Node.entries, List.map_cons, Node.entry,
        Forest.map_entry_toList children]
  | .mapping m => rfl
theorem Forest.map_entry_toList : (ns : Forest) → (Forest.toList ns).map Node.entry = Forest.entries ns
  | [] => rfl
  | n :: rest => by
      simp only [Forest.toList, List.map_append, Forest.entries_cons, n.map_entry_toList,
        Forest.map_entry_toList rest]
end

theorem Node.handle_entry (n : Node) : n.entry.handle = n.handle := by cases n <;> rfl

theorem Node.entry_mem_entries (n : Node) : n.entry ∈ n.entries := by
  cases n <;> simp [Node.entry, Node.entries]

theorem Forest.mem_toList_iff {x : Node} {ns : Forest} :
    x ∈ Forest.toList ns ↔ ∃ n ∈ ns, x ∈ n.toList := by
  induction ns with
  | nil => simp [Forest.toList]
  | cons n ns ih => simp [Forest.toList, ih]

theorem Forest.mem_entries_iff {e : Entry} {ns : Forest} :
    e ∈ Forest.entries ns ↔ ∃ n ∈ ns, e ∈ n.entries := by
  induction ns with
  | nil => simp
  | cons n ns ih => simp [ih]

theorem Node.mem_toList_self (n : Node) : n ∈ n.toList := by cases n <;> simp [Node.toList]

theorem Node.mapping_mem_toList_iff {m : Mapping} {n : Node} :
    .mapping m ∈ n.toList ↔ .mapping m ∈ n.entries := by
  rw [← n.map_entry_toList, List.mem_map]
  constructor
  · intro h
    exact ⟨.mapping m, h, rfl⟩
  · rintro ⟨x, hx, he⟩
    cases x with
    | region l children => cases he
    | mapping m' => cases he; exact hx

/-- A region around a hole: its label and the children on both sides. -/
structure Frame where
  label : Label
  before : Forest
  behind : Forest

def Frame.fill (f : Frame) (n : Node) : Node := .region f.label (f.before ++ n :: f.behind)

/-- The regions around a hole, the innermost first. -/
abbrev Context := List Frame

namespace Context

def plug : List Frame → Node → Node
  | [], n => n
  | f :: c, n => plug c (f.fill n)

def entriesBefore : List Frame → List Entry
  | [] => []
  | f :: c => entriesBefore c ++ .region f.label :: Forest.entries f.before

def entriesBehind : List Frame → List Entry
  | [] => []
  | f :: c => Forest.entries f.behind ++ entriesBehind c

def Avoids (c : List Frame) (h : Handle) : Prop :=
  (∀ e ∈ entriesBefore c, e.handle ≠ h) ∧ ∀ e ∈ entriesBehind c, e.handle ≠ h

theorem avoids_cons {f : Frame} {c : List Frame} {h : Handle} :
    Avoids (f :: c) h ↔ Avoids c h ∧ f.label.handle ≠ h ∧
      (∀ e ∈ Forest.entries f.before, e.handle ≠ h) ∧ ∀ e ∈ Forest.entries f.behind, e.handle ≠ h := by
  simp only [Avoids, entriesBefore, entriesBehind, List.forall_mem_append, List.forall_mem_cons,
    Entry.handle_region]
  tauto

theorem plug_append (c d : List Frame) (n : Node) : plug (c ++ d) n = plug d (plug c n) := by
  induction c generalizing n with
  | nil => rfl
  | cons f c ih => exact ih (f.fill n)

theorem entries_plug (c : List Frame) (n : Node) :
    (plug c n).entries = entriesBefore c ++ n.entries ++ entriesBehind c := by
  induction c generalizing n with
  | nil => simp [plug, entriesBefore, entriesBehind]
  | cons f c ih => simp [plug, ih, Frame.fill, Node.entries, entriesBefore, entriesBehind]

def around (c : List Frame) : List Entry := entriesBefore c ++ entriesBehind c

theorem entries_plug_perm (c : List Frame) (n : Node) :
    (plug c n).entries.Perm (n.entries ++ around c) := by
  rw [entries_plug, List.append_assoc]
  exact List.perm_append_comm_assoc _ _ _

theorem avoids_of_nodup {c : List Frame} {n : Node}
    (distinct : ((plug c n).entries.map Entry.handle).Nodup) : Avoids c n.handle := by
  rw [entries_plug, List.map_append, List.map_append] at distinct
  obtain ⟨front, _, apartBehind⟩ := List.nodup_append.mp distinct
  obtain ⟨_, _, apartBefore⟩ := List.nodup_append.mp front
  have here : n.handle ∈ n.entries.map Entry.handle :=
    List.mem_map.mpr ⟨n.entry, n.entry_mem_entries, n.handle_entry⟩
  constructor
  · intro e he
    exact apartBefore _ (List.mem_map_of_mem he) _ here
  · intro e he
    exact (apartBehind _ (List.mem_append_right _ here) _ (List.mem_map_of_mem he)).symm

/-- Where a region fills the hole, the outermost node does not depend on its children. -/
theorem label_plug_region (c : List Frame) (l : Label) (old new : Forest) :
    (plug c (.region l new)).label = (plug c (.region l old)).label ∧
      (plug c (.region l new)).isRegion = (plug c (.region l old)).isRegion := by
  induction c generalizing l old new with
  | nil => exact ⟨rfl, rfl⟩
  | cons f c ih => exact ih f.label _ _

theorem handle_plug_ne {f : Frame} {c : List Frame} {n : Node} {h : Handle} (avoids : Avoids (f :: c) h) :
    (plug (f :: c) n).handle ≠ h := by
  induction c generalizing f n with
  | nil => exact (avoids_cons.mp avoids).2.1
  | cons g c ih => exact ih (avoids_cons.mp avoids).1

theorem mem_toList_plug (c : List Frame) {x n : Node} (h : x ∈ n.toList) : x ∈ (plug c n).toList := by
  induction c generalizing n with
  | nil => exact h
  | cons f c ih =>
      apply ih
      simp only [Frame.fill, Node.toList, List.mem_cons, Forest.mem_toList_iff]
      exact .inr ⟨n, by simp, h⟩

end Context

mutual
theorem Node.exists_plug_of_mem_toList {x : Node} :
    (t : Node) → x ∈ t.toList → ∃ c, t = Context.plug c x
  | .region l children, h => by
      rcases List.mem_cons.mp h with rfl | below
      · exact ⟨[], rfl⟩
      · obtain ⟨before, c, behind, same⟩ := Forest.exists_plug_of_mem_toList children below
        exact ⟨c ++ [⟨l, before, behind⟩], by rw [Context.plug_append, same]; rfl⟩
  | .mapping m, h => ⟨[], (List.mem_singleton.mp h).symm⟩
theorem Forest.exists_plug_of_mem_toList {x : Node} :
    (ns : Forest) → x ∈ Forest.toList ns →
      ∃ before c behind, ns = before ++ Context.plug c x :: behind
  | [], h => absurd h List.not_mem_nil
  | n :: rest, h => by
      rcases List.mem_append.mp h with here | later
      · obtain ⟨c, same⟩ := Node.exists_plug_of_mem_toList n here
        exact ⟨[], c, rest, by rw [same]; rfl⟩
      · obtain ⟨before, c, behind, same⟩ := Forest.exists_plug_of_mem_toList rest later
        exact ⟨n :: before, c, behind, by rw [same]; rfl⟩
end

/-! ### Looking a handle up -/

mutual
theorem Node.find?_eq_none {h : Handle} :
    (n : Node) → (∀ e ∈ n.entries, e.handle ≠ h) → n.find? h = none
  | .region l children, avoids => by
      simp only [Node.entries, List.forall_mem_cons, Entry.handle_region] at avoids
      rw [Node.find?, if_neg avoids.1, Forest.find?_eq_none children avoids.2]
  | .mapping m, avoids => by
      have other : m.handle ≠ h := avoids _ (List.mem_singleton_self _)
      rw [Node.find?, if_neg other]
theorem Forest.find?_eq_none {h : Handle} :
    (ns : Forest) → (∀ e ∈ Forest.entries ns, e.handle ≠ h) → Forest.find? h ns = none
  | [], _ => rfl
  | n :: rest, avoids => by
      simp only [Forest.entries_cons, List.forall_mem_append] at avoids
      rw [Forest.find?, n.find?_eq_none avoids.1, Forest.find?_eq_none rest avoids.2]
      rfl
end

mutual
theorem Node.mem_toList_of_find? {h : Handle} {x : Node} :
    (n : Node) → n.find? h = some x → x.handle = h ∧ x ∈ n.toList
  | .region l children, found => by
      simp only [Node.find?] at found
      split at found
      · next same => cases found; exact ⟨same, Node.mem_toList_self _⟩
      · have below := Forest.mem_toList_of_find? children found
        exact ⟨below.1, List.mem_cons_of_mem _ below.2⟩
  | .mapping m, found => by
      simp only [Node.find?] at found
      split at found
      · next same => cases found; exact ⟨same, Node.mem_toList_self _⟩
      · cases found
theorem Forest.mem_toList_of_find? {h : Handle} {x : Node} :
    (ns : Forest) → Forest.find? h ns = some x → x.handle = h ∧ x ∈ Forest.toList ns
  | [], found => by cases found
  | n :: rest, found => by
      rcases Option.or_eq_some_iff.mp found with here | ⟨_, later⟩
      · have inside := Node.mem_toList_of_find? n here
        exact ⟨inside.1, List.mem_append_left _ inside.2⟩
      · have behind := Forest.mem_toList_of_find? rest later
        exact ⟨behind.1, List.mem_append_right _ behind.2⟩
end

theorem Node.find?_handle (n : Node) : n.find? n.handle = some n := by
  cases n <;> exact if_pos rfl

theorem Forest.find?_append (h : Handle) (ns more : Forest) :
    Forest.find? h (ns ++ more) = (Forest.find? h ns).or (Forest.find? h more) := by
  induction ns with
  | nil => rfl
  | cons n ns ih => simp only [List.cons_append, Forest.find?, ih, Option.or_assoc]

mutual
theorem Node.withChildren_of_avoids {h : Handle} {new : Forest} :
    (n : Node) → (∀ e ∈ n.entries, e.handle ≠ h) → n.withChildren h new = n
  | .region l children, avoids => by
      simp only [Node.entries, List.forall_mem_cons, Entry.handle_region] at avoids
      rw [Node.withChildren, if_neg avoids.1, Forest.withChildren_of_avoids children avoids.2]
  | .mapping m, _ => rfl
theorem Forest.withChildren_of_avoids {h : Handle} {new : Forest} :
    (ns : Forest) → (∀ e ∈ Forest.entries ns, e.handle ≠ h) → Forest.withChildren h new ns = ns
  | [], _ => rfl
  | n :: rest, avoids => by
      simp only [Forest.entries_cons, List.forall_mem_append] at avoids
      rw [Forest.withChildren, n.withChildren_of_avoids avoids.1,
        Forest.withChildren_of_avoids rest avoids.2]
end

theorem Forest.withChildren_append (h : Handle) (new ns more : Forest) :
    Forest.withChildren h new (ns ++ more) =
      Forest.withChildren h new ns ++ Forest.withChildren h new more := by
  induction ns with
  | nil => rfl
  | cons n ns ih => simp only [List.cons_append, Forest.withChildren, ih]

mutual
theorem Node.erase_of_avoids {h : Handle} :
    (n : Node) → (∀ e ∈ n.entries, e.handle ≠ h) → n.erase h = n
  | .region l children, avoids => by
      simp only [Node.entries, List.forall_mem_cons, Entry.handle_region] at avoids
      rw [Node.erase, Forest.erase_of_avoids children avoids.2]
  | .mapping m, _ => rfl
theorem Forest.erase_of_avoids {h : Handle} :
    (ns : Forest) → (∀ e ∈ Forest.entries ns, e.handle ≠ h) → Forest.erase h ns = ns
  | [], _ => rfl
  | n :: rest, avoids => by
      simp only [Forest.entries_cons, List.forall_mem_append] at avoids
      have other : n.handle ≠ h := n.handle_entry ▸ avoids.1 _ n.entry_mem_entries
      rw [Forest.erase, if_neg other, n.erase_of_avoids avoids.1, Forest.erase_of_avoids rest avoids.2]
end

theorem Forest.erase_append (h : Handle) (ns more : Forest) :
    Forest.erase h (ns ++ more) = Forest.erase h ns ++ Forest.erase h more := by
  induction ns with
  | nil => rfl
  | cons n ns ih =>
      simp only [List.cons_append, Forest.erase, ih]
      split <;> rfl

namespace Context

theorem find?_plug {c : List Frame} {n : Node} (avoids : Avoids c n.handle) :
    (plug c n).find? n.handle = some n := by
  suffices lift : ∀ (t : Node), t.find? n.handle = some n → (plug c t).find? n.handle = some n from
    lift n n.find?_handle
  induction c with
  | nil => exact fun _ found => found
  | cons f c ih =>
      intro t found
      obtain ⟨outer, other, before, behind⟩ := avoids_cons.mp avoids
      apply ih outer
      rw [Frame.fill, Node.find?, if_neg other, Forest.find?_append, Forest.find?_eq_none _ before,
        Option.none_or, Forest.find?, found, Option.some_or]

theorem withChildren_plug {c : List Frame} {l : Label} (avoids : Avoids c l.handle)
    (old new : Forest) :
    (plug c (.region l old)).withChildren l.handle new = plug c (.region l new) := by
  suffices lift : ∀ t t' : Node, t.withChildren l.handle new = t' →
      (plug c t).withChildren l.handle new = plug c t' from lift _ _ (if_pos rfl)
  induction c with
  | nil => exact fun _ _ same => same
  | cons f c ih =>
      intro t t' same
      obtain ⟨outer, other, before, behind⟩ := avoids_cons.mp avoids
      apply ih outer
      rw [Frame.fill, Node.withChildren, if_neg other, Forest.withChildren_append,
        Forest.withChildren_of_avoids _ before, Forest.withChildren, same,
        Forest.withChildren_of_avoids _ behind]
      rfl

theorem erase_plug {f : Frame} {c : List Frame} {n : Node} (avoids : Avoids (f :: c) n.handle) :
    (plug (f :: c) n).erase n.handle = plug c (.region f.label (f.before ++ f.behind)) := by
  obtain ⟨outer, other, before, behind⟩ := avoids_cons.mp avoids
  have inner : (f.fill n).erase n.handle = .region f.label (f.before ++ f.behind) := by
    rw [Frame.fill, Node.erase, Forest.erase_append, Forest.erase_of_avoids _ before, Forest.erase,
      if_pos rfl, Forest.erase_of_avoids _ behind]
  -- The frames further out keep the node that they hold, since only its own handle is erased.
  suffices lift : ∀ t t' : Node, t.handle ≠ n.handle → t.erase n.handle = t' →
      (plug c t).erase n.handle = plug c t' from lift _ _ other inner
  clear avoids other before behind inner
  induction c with
  | nil => exact fun _ _ _ same => same
  | cons g c ih =>
      intro t t' differs same
      obtain ⟨outer, other, before, behind⟩ := avoids_cons.mp outer
      apply ih outer (g.fill t) (g.fill t') other
      rw [Frame.fill, Node.erase, Forest.erase_append, Forest.erase_of_avoids _ before, Forest.erase,
        if_neg differs, same, Forest.erase_of_avoids _ behind]
      rfl

end Context
end RegionTree
