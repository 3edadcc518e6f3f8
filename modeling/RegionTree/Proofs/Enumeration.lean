import RegionTree.Proofs.Handles
import RegionTree.Proofs.Unbroken

/-! Enumerations show an observer the nodes below a region, each once and before what is below it, until it
stops. The pages that the region covers are those of the mappings among them. -/
namespace RegionTree

def Node.mapping? : Node → Option Mapping
  | .region _ _ => none
  | .mapping m => some m

theorem Node.mapping?_eq_some {n : Node} {m : Mapping} : n.mapping? = some m ↔ n = .mapping m := by
  cases n <;> simp [mapping?]

def Forest.mappings (children : Forest) : List Mapping :=
  (Forest.outline 0 children).filterMap (·.2.mapping?)

namespace Observer
variable {σ : Type} {observer : Observer σ} {s s' s'' : σ} {seen nodes more : List (Nat × Node)} {v : Visit σ}

/-- An observer that is shown the nodes of a list goes on after each of them. -/
inductive GoesOn (observer : Observer σ) : σ → List (Nat × Node) → σ → Prop where
  | nil (s : σ) : GoesOn observer s [] s
  | cons {s s' s'' : σ} {depth : Nat} {n : Node} {rest : List (Nat × Node)} :
      observer s depth n = .goOn s' → GoesOn observer s' rest s'' →
        GoesOn observer s ((depth, n) :: rest) s''

/-- What comes of showing an observer the nodes of a list: it sees all, or those up to one that it stops
at. -/
inductive Sees (observer : Observer σ) (start : σ) (nodes : List (Nat × Node)) : Visit σ → Prop where
  | all {s : σ} : GoesOn observer start nodes s → Sees observer start nodes (.goOn s)
  | upTo {seen rest : List (Nat × Node)} {depth : Nat} {n : Node} {s s' : σ} :
      nodes = seen ++ (depth, n) :: rest → GoesOn observer start seen s → observer s depth n = .stop s' →
        Sees observer start nodes (.stop s')

theorem GoesOn.append (first : GoesOn observer s seen s') (next : GoesOn observer s' more s'') :
    GoesOn observer s (seen ++ more) s'' := by
  induction first with
  | nil => exact next
  | cons told _ ih => exact .cons told (ih next)

theorem Sees.after (first : GoesOn observer s seen s') (next : Sees observer s' more v) :
    Sees observer s (seen ++ more) v := by
  cases next with
  | all through => exact .all (first.append through)
  | upTo same through stops =>
      exact .upTo (by rw [same, List.append_assoc]) (first.append through) stops

theorem Sees.before (h : Sees observer s nodes (.stop s')) : Sees observer s (nodes ++ more) (.stop s') := by
  cases h with
  | upTo same through stops =>
      exact .upTo (by rw [same, List.append_assoc, List.cons_append]) through stops

theorem Sees.next {depth : Nat} {n : Node} (told : observer s depth n = .goOn s')
    (h : Sees observer s' more v) : Sees observer s ((depth, n) :: more) v :=
  .after (.cons told (.nil s')) h

theorem Sees.here {depth : Nat} {n : Node} (told : observer s depth n = .stop s') :
    Sees observer s ((depth, n) :: more) (.stop s') :=
  .upTo (List.nil_append _).symm (.nil s) told

theorem Sees.of_goOn {see : σ → Nat → Node → σ}
    (h : Sees (fun s depth n => .goOn (see s depth n)) s nodes v) :
    v = .goOn (nodes.foldl (fun s x => see s x.1 x.2) s) := by
  cases h with
  | all through =>
      induction through with
      | nil => rfl
      | cons told _ ih =>
          cases told
          exact ih
  | upTo _ _ stops => cases stops

end Observer

section
variable {σ : Type} (observer : Observer σ)

mutual
theorem Node.sees_walk (depth : Nat) (s : σ) :
    (n : Node) → observer.Sees s (n.outline depth) (n.walk observer depth s)
  | .region l children => by
      rw [Node.outline, Node.walk]
      cases told : observer s depth (.region l children) with
      | stop s' => exact .here told
      | goOn s' => exact .next told (Forest.sees_walk (depth + 1) s' children)
  | .mapping m => by
      rw [Node.outline, Node.walk]
      cases told : observer s depth (.mapping m) with
      | stop s' => exact .here told
      | goOn s' => exact .next told (.all (.nil s'))
theorem Forest.sees_walk (depth : Nat) (s : σ) :
    (ns : Forest) → observer.Sees s (Forest.outline depth ns) (Forest.walk observer depth s ns)
  | [] => .all (.nil s)
  | n :: ns => by
      have first := n.sees_walk depth s
      rw [Forest.outline, Forest.walk]
      cases told : n.walk observer depth s with
      | stop s' => exact (told ▸ first).before
      | goOn s' =>
          cases told ▸ first with
          | all through => exact .after through (Forest.sees_walk depth s' ns)
end

end

mutual
theorem Node.map_outline (depth : Nat) : (n : Node) → (n.outline depth).map Prod.snd = n.toList
  | .region l children => by
      rw [Node.outline, List.map_cons, Forest.map_outline, Node.toList]
  | .mapping _ => rfl
theorem Forest.map_outline (depth : Nat) :
    (ns : Forest) → (Forest.outline depth ns).map Prod.snd = Forest.toList ns
  | [] => rfl
  | n :: ns => by
      rw [Forest.outline, List.map_append, n.map_outline, Forest.map_outline, Forest.toList]
end

theorem Forest.mem_outline_of_mem {k : Nat} {n : Node} {ns : Forest} (hn : n ∈ ns) :
    (k, n) ∈ Forest.outline k ns := by
  induction ns with
  | nil => cases hn
  | cons first rest ih =>
      rcases List.mem_cons.mp hn with rfl | later
      · exact List.mem_append_left _ (by cases n <;> exact List.mem_cons_self)
      · exact List.mem_append_right _ (ih later)

theorem Forest.mappings_eq (children : Forest) :
    mappings children = (toList children).filterMap Node.mapping? := by
  rw [← map_outline 0, List.filterMap_map]
  rfl

mutual
theorem Node.sum_lengths : (n : Node) → (∀ x ∈ n.toList, x.entry.Tidy) →
    ((n.toList.filterMap Node.mapping?).map (·.extent.length)).sum = n.pages * pageSize
  | .region l children, tidy => Forest.sum_lengths children fun x hx => tidy x (List.mem_cons_of_mem _ hx)
  | .mapping m, tidy => by
      obtain ⟨⟨start, stop⟩, _⟩ := tidy (.mapping m) List.mem_cons_self
      have whole : pageSize ∣ m.extent.length :=
        Nat.dvd_sub (Nat.dvd_of_mod_eq_zero stop) (Nat.dvd_of_mod_eq_zero start)
      exact (Nat.div_mul_cancel whole).symm
theorem Forest.sum_lengths : (ns : Forest) → (∀ x ∈ Forest.toList ns, x.entry.Tidy) →
    (((Forest.toList ns).filterMap Node.mapping?).map (·.extent.length)).sum = Forest.pages ns * pageSize
  | [], _ => by simp [Forest.toList, Forest.pages]
  | n :: ns, tidy => by
      obtain ⟨here, others⟩ := List.forall_mem_append.mp tidy
      rw [Forest.toList, List.filterMap_append, List.map_append, List.sum_append, n.sum_lengths here,
        Forest.sum_lengths ns others, Forest.pages, Nat.add_mul]
end

mutual
theorem Node.mem_outline_child {d k : Nat} {l : Label} {children : Forest} {x : Node} (hx : x ∈ children) :
    (n : Node) → (d, .region l children) ∈ n.outline k → (d + 1, x) ∈ n.outline k
  | .region l' children', shown => by
      rcases List.mem_cons.mp shown with same | deeper
      · cases same
        exact List.mem_cons_of_mem _ (Forest.mem_outline_of_mem hx)
      · exact List.mem_cons_of_mem _ (Forest.mem_outline_child hx children' deeper)
  | .mapping m, shown => by cases (Prod.mk.inj (List.mem_singleton.mp shown)).2
theorem Forest.mem_outline_child {d k : Nat} {l : Label} {children : Forest} {x : Node}
    (hx : x ∈ children) : (ns : Forest) → (d, .region l children) ∈ Forest.outline k ns →
      (d + 1, x) ∈ Forest.outline k ns
  | n :: ns, shown => (List.mem_append.mp shown).elim
      (fun here => List.mem_append_left _ (Node.mem_outline_child hx n here))
      (fun later => List.mem_append_right _ (Forest.mem_outline_child hx ns later))
end

namespace Space
variable {M : Type} {s : Space M} {l l' : Label} {children : Forest} {n : Node} {d k : Nat}

/-- The node is below the region with this label, with so many regions strictly between the two. -/
inductive Descends (s : Space M) (l : Label) : Nat → Node → Prop where
  | child {n : Node} : s.ChildOf n l → Descends s l 0 n
  | deeper {d : Nat} {l' : Label} {children : Forest} {n : Node} :
      Descends s l d (.region l' children) → s.ChildOf n l' → Descends s l (d + 1) n

theorem Descends.member (h : s.Descends l d n) : n ∈ s.nodes := by
  cases h with
  | child child => exact child.member
  | deeper _ child => exact child.member

theorem Descends.trans (h : s.Descends l d (.region l' children)) (h' : s.Descends l' k n) :
    s.Descends l (d + k + 1) n := by
  induction h' with
  | child child => exact .deeper h child
  | deeper _ child ih => exact .deeper ih child

mutual
theorem descends_of_mem_outline {k : Nat} {x : Nat × Node} : (n : Node) → n ∈ s.nodes →
    x ∈ n.outline k → x = (k, n) ∨
      ∃ l children d, n = .region l children ∧ x.1 = k + d + 1 ∧ s.Descends l d x.2
  | .region l children, alive, shown => by
      rcases List.mem_cons.mp shown with same | further
      · exact .inl same
      · obtain ⟨d, level, below⟩ := descends_of_mem_row children (fun n hn => ⟨children, alive, hn⟩) further
        exact .inr ⟨l, children, d, rfl, by omega, below⟩
  | .mapping m, _, shown => .inl (List.mem_singleton.mp shown)
theorem descends_of_mem_row {k : Nat} {x : Nat × Node} {l : Label} : (ns : Forest) →
    (∀ n ∈ ns, s.ChildOf n l) → x ∈ Forest.outline k ns → ∃ d, x.1 = k + d ∧ s.Descends l d x.2
  | n :: ns, row, shown => by
      obtain ⟨child, others⟩ := List.forall_mem_cons.mp row
      rcases List.mem_append.mp shown with here | later
      · rcases descends_of_mem_outline n child.member here with rfl | ⟨l', children, d, rfl, level, below⟩
        · exact ⟨0, rfl, .child child⟩
        · exact ⟨0 + d + 1, by omega, .trans (.child child) below⟩
      · exact descends_of_mem_row ns others later
end

/-- Of two nodes that an enumeration shows, the later one is below the earlier one or lies behind it. -/
def Precedes (s : Space M) (x y : Nat × Node) : Prop :=
  (∃ l children d, x.2 = .region l children ∧ y.1 = x.1 + d + 1 ∧ s.Descends l d y.2) ∨
    x.2.stop ≤ y.2.start

mutual
theorem pairwise_outline {k : Nat} : (n : Node) → n ∈ s.nodes → n.Nested →
    (n.outline k).Pairwise s.Precedes
  | .region l children, alive, nested => by
      have row : ∀ n ∈ children, s.ChildOf n l := fun n hn => ⟨children, alive, hn⟩
      cases nested with
      | region lined inner =>
          refine List.pairwise_cons.mpr ⟨fun y hy => ?_, pairwise_row children row inner lined.apart⟩
          obtain ⟨d, level, below⟩ := descends_of_mem_row children row hy
          exact .inl ⟨l, children, d, rfl, by omega, below⟩
  | .mapping m, _, _ => List.pairwise_singleton _ _
theorem pairwise_row {k : Nat} {l : Label} : (ns : Forest) → (∀ n ∈ ns, s.ChildOf n l) →
    (∀ n ∈ ns, n.Nested) → (ns.Pairwise fun a b => a.stop ≤ b.start) →
      (Forest.outline k ns).Pairwise s.Precedes
  | [], _, _, _ => .nil
  | n :: ns, row, nested, apart => by
      obtain ⟨child, others⟩ := List.forall_mem_cons.mp row
      obtain ⟨here, nestedRest⟩ := List.forall_mem_cons.mp nested
      obtain ⟨first, apartRest⟩ := List.pairwise_cons.mp apart
      refine List.pairwise_append.mpr ⟨pairwise_outline n child.member here,
        pairwise_row ns others nestedRest apartRest, fun x hx y hy => .inr ?_⟩
      -- The two are in the ranges of two children that do not meet.
      have left : x.2 ∈ n.toList := n.map_outline k ▸ List.mem_map_of_mem hx
      have right : y.2 ∈ Forest.toList ns := Forest.map_outline k ns ▸ List.mem_map_of_mem hy
      obtain ⟨n', hn', inside⟩ := Forest.mem_toList_iff.mp right
      have low := (here.within left).2
      have high := ((nestedRest n' hn').within inside).1
      exact Nat.le_trans low (Nat.le_trans (first n' hn') high)
end

theorem Kept.nodup_handles (kept : s.Kept []) (alive : n ∈ s.nodes) : (n.toList.map Node.handle).Nodup := by
  obtain ⟨c, tree⟩ := exists_plug alive
  have inner : n.entries.Sublist s.entries := by
    rw [show s.entries = (Context.plug c n).entries by simp [entries, tree], Context.entries_plug]
    exact (List.sublist_append_right _ _).trans (List.sublist_append_left _ _)
  have distinct := kept.sound.balanced.handles_nodup.sublist (inner.map Entry.handle)
  rwa [← Node.map_entry_toList, List.map_map, List.map_congr_left fun x _ => x.handle_entry] at distinct

/-- What enumerations of the nodes below a region show, and the pages that the region covers. -/
structure Enumerates (s : Space M) (l : Label) (children : Forest) : Prop where
  /-- All that descends from the region is shown, with the regions in between counted. -/
  shown : ∀ depth n, (depth, n) ∈ Forest.outline 0 children ↔ s.Descends l depth n
  once : ((Forest.outline 0 children).map (·.2.handle)).Nodup
  ordered : (Forest.outline 0 children).Pairwise s.Precedes
  /-- The mappings alone are shown in ascending order, at whatever depth they are. -/
  ascending : (Forest.mappings children).Pairwise fun m m' => m.extent.stop ≤ m'.extent.start
  /-- An observer that never stops sees all. -/
  whole : ∀ {σ : Type} (see : σ → Nat → Node → σ) (start : σ),
    s.walk l.handle (fun s depth n => .goOn (see s depth n)) start =
      .ok (.goOn ((Forest.outline 0 children).foldl (fun s x => see s x.1 x.2) start))
  sees : ∀ {σ : Type} (observer : Observer σ) (start : σ), ∃ v, s.walk l.handle observer start = .ok v ∧
    observer.Sees start (Forest.outline 0 children) v
  pages : s.coveredPages l.handle =
    .ok (((Forest.mappings children).map (·.extent.length)).sum / pageSize)
  room : ((Forest.mappings children).map (·.extent.length)).sum / pageSize ≤ l.extent.length / pageSize

section
variable (kept : s.Kept []) (alive : .region l children ∈ s.nodes)
include kept alive

theorem Kept.mem_outline_of_descends (h : s.Descends l d n) : (d, n) ∈ Forest.outline 0 children := by
  induction h with
  | child child =>
      obtain ⟨row, alive', hn⟩ := child
      cases kept.eq_of_handle alive alive' rfl
      exact Forest.mem_outline_of_mem hn
  | deeper _ child ih =>
      obtain ⟨row, alive', hn⟩ := child
      have above := Descends.member ‹_›
      cases kept.eq_of_handle above alive' rfl
      exact Forest.mem_outline_child hn children ih

theorem Kept.enumerates : s.Enumerates l children := by
  have row : ∀ n ∈ children, s.ChildOf n l := fun n hn => ⟨children, alive, hn⟩
  have shown : ∀ depth n, (depth, n) ∈ Forest.outline 0 children ↔ s.Descends l depth n := by
    refine fun depth n => ⟨fun shown => ?_, kept.mem_outline_of_descends alive⟩
    obtain ⟨d, level, below⟩ := descends_of_mem_row children row shown
    rwa [show d = depth by omega] at below
  have nested := kept.nested_of_mem alive
  obtain ⟨c, tree⟩ := exists_plug alive
  have ordered : (Forest.outline 0 children).Pairwise s.Precedes := by
    cases nested with
    | region lined inner => exact pairwise_row children row inner lined.apart
  have sums : ((Forest.mappings children).map (·.extent.length)).sum = Forest.pages children * pageSize := by
    rw [Forest.mappings_eq]
    exact Forest.sum_lengths children fun x hx =>
      kept.tidy (mem_nodes tree (Context.mem_toList_plug c (List.mem_cons_of_mem _ hx)))
  have sees : ∀ {σ : Type} (observer : Observer σ) (start : σ),
      s.walk l.handle observer start = .ok (Forest.walk observer 0 start children) := by
    intro σ observer start
    simp only [walk, kept.liveRegion_eq alive, bind, Except.bind]
  refine ⟨shown, ?once, ordered, ?ascending, ?whole, fun observer start => ⟨_, sees observer start,
    Forest.sees_walk observer 0 start children⟩, ?pages, ?room⟩
  case once =>
    have below := (List.nodup_cons.mp (kept.nodup_handles alive)).2
    rwa [← Forest.map_outline 0, List.map_map] at below
  case ascending =>
    refine ordered.filterMap _ fun x y before m hm m' hm' => ?_
    have left := Node.mapping?_eq_some.mp hm
    have right := Node.mapping?_eq_some.mp hm'
    rcases before with ⟨_, _, _, region, _⟩ | behind
    · cases left.symm.trans region
    · rwa [left, right] at behind
  case whole =>
    intro σ see start
    have through := Forest.sees_walk (fun s depth n => .goOn (see s depth n)) 0 start children
    rw [sees, through.of_goOn]
  case pages =>
    simp only [coveredPages, show s.liveNode l.handle = _ from kept.liveNode_eq alive, sums]
    rw [Nat.mul_div_cancel _ (by decide)]
    rfl
  case room =>
    have fits := Node.pages_le _ nested
    rw [Node.pages] at fits
    rw [sums]
    exact Nat.div_le_div_right fits

end

/-- After any sequence of calls, enumerations and page counts of a region alive agree with the tree. -/
theorem run_enumerates [Mmu M] (picks : Mmu.PicksPages M) {mmu : M} {c : SpaceConfig} {entropy : Entropy}
    (new : Space.new mmu c entropy = .ok s) (commitments : Commitments) (ops : List Operation)
    (alive : .region l children ∈ (run (s, commitments) ops).1.nodes) :
    (run (s, commitments) ops).1.Enumerates l children :=
  (run_kept (w := (s, commitments)) picks (new_kept new) ops).enumerates alive

/-- Two pages in a region are shown before the one behind it, which was mapped first. -/
theorem run_enumerates_nested :
    ∃ s t, Space.new PageTable.empty ⟨.kernel, 0, 0x8000, .empty, 4⟩ ⟨none⟩ = .ok s ∧
      (run (s, []) [
        .addMapping ⟨0, 0⟩ { offset := 0x4000, size := 0x1000, flags := RegionFlags.specific }
          ⟨0, 0x1000, none, none, false⟩ 0 PageFlags.read,
        .addRegion ⟨0, 0⟩ { size := 0x4000, flags := RegionFlags.mapAll },
        .addMapping ⟨2, 2⟩ { size := 0x2000 } ⟨1, 0x2000, none, none, false⟩ 0 PageFlags.read]).1 = t ∧
      Mmu.PicksPages PageTable ∧ ∃ l children, .region l children ∈ t.nodes ∧
        (Forest.outline 0 children).map (fun x => (x.1, x.2.start)) = [(0, 0), (1, 0), (0, 0x4000)] ∧
        t.Enumerates l children := by
  obtain ⟨s, new⟩ : ∃ s, Space.new PageTable.empty ⟨.kernel, 0, 0x8000, .empty, 4⟩ ⟨none⟩ = .ok s :=
    ⟨_, rfl⟩
  obtain ⟨t, made⟩ : ∃ t, (run (s, []) [
      .addMapping ⟨0, 0⟩ { offset := 0x4000, size := 0x1000, flags := RegionFlags.specific }
        ⟨0, 0x1000, none, none, false⟩ 0 PageFlags.read,
      .addRegion ⟨0, 0⟩ { size := 0x4000, flags := RegionFlags.mapAll },
      .addMapping ⟨2, 2⟩ { size := 0x2000 } ⟨1, 0x2000, none, none, false⟩ 0 PageFlags.read]).1 = t :=
    ⟨_, rfl⟩
  have outline : (t.liveRegion ⟨0, 0⟩).toOption.any fun x => (Forest.outline 0 x.2).map
      (fun y => (y.1, y.2.start)) = [(0, 0), (1, 0), (0, 0x4000)] := by
    subst made
    cases new
    decide +kernel
  obtain ⟨l, children, _, alive, outline⟩ := exists_alive_of_any outline
  refine ⟨s, t, new, made, .pageTable, l, children, alive, of_decide_eq_true outline, ?_⟩
  subst made
  exact run_enumerates .pageTable new [] _ alive

end Space
end RegionTree
