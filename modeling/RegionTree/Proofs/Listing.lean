import RegionTree.Proofs.Enumeration
import RegionTree.Proofs.Text

/-! Listings show a node and all below it, a line for each, but the names are written as they are: a newline
in one of them ends a line as well. -/
namespace RegionTree
open Lines (breaks)

namespace Node

theorem breaks_details (n : Node) : breaks n.details = 0 := by
  cases n with
  | region l children =>
      rw [details, Lines.breaks_append, RegionFlags.breaks_display]
      rfl
  | mapping m =>
      rw [details, Lines.breaks_append, Lines.breaks_append, Lines.breaks_append,
        PageFlags.breaks_display, Hex.breaks_short]
      rfl

theorem breaks_kind (n : Node) : breaks n.kind.display = 0 := by
  cases n with
  | region l children =>
      rw [kind]
      decide
  | mapping m =>
      rw [kind]
      decide

/-- Only the name of a node can bring newlines into its description. -/
theorem breaks_indented (depth : Nat) (n : Node) : breaks (n.indented depth) = breaks n.label.name := by
  have spaces : breaks (String.ofList (List.replicate (2 * depth) ' ')) = 0 := by
    rw [Lines.breaks_ofList, List.count_replicate]
    rfl
  have literals : breaks " [" = 0 ∧ breaks " " = 0 ∧ breaks "] sz " = 0 ∧ breaks " '" = 0 ∧
      breaks "'" = 0 := by decide
  simp only [indented, description, Lines.breaks_append, spaces, n.breaks_kind, n.breaks_details,
    Address.breaks_display, Hex.breaks_short, literals, Nat.zero_add, Nat.add_zero]

theorem exists_last_indented (depth : Nat) (n : Node) :
    ∃ before c, (n.indented depth).toList = before ++ [c] ∧ c ≠ '\r' := by
  rw [indented, description, ← String.append_assoc, String.toList_append]
  exact ⟨_, _, rfl, by decide⟩

end Node

def rowsOf (nodes : List (Nat × Node)) : List String := nodes.map fun x => x.2.indented x.1

theorem composeLines_eq {nodes : List (Nat × Node)} (fits : ∀ x ∈ nodes, 2 * x.1 ≤ maxIndentation) :
    composeLines none nodes = .ok (Lines.ending (rowsOf nodes)) := by
  induction nodes with
  | nil => rfl
  | cons x nodes ih =>
      obtain ⟨depth, n⟩ := x
      obtain ⟨first, others⟩ := List.forall_mem_cons.mp fits
      have limit : maxIndentation < Address.limit := by decide
      have line : n.line? depth = .ok (n.line depth) := by
        rw [Node.line?, if_neg (by dsimp only at first; omega), if_neg (Nat.not_lt.mpr first)]
      rw [composeLines, line]
      simp only [spend, ih others, Except.map]
      rw [rowsOf, rowsOf, List.map_cons, Lines.ending_cons, Node.line]

mutual
theorem Node.outline_add (k j : Nat) :
    (n : Node) → n.outline (k + j) = (n.outline k).map fun x => (x.1 + j, x.2)
  | .region l children => by
      rw [Node.outline, Node.outline, List.map_cons, Nat.add_right_comm, Forest.outline_add (k + 1) j children]
  | .mapping _ => rfl
theorem Forest.outline_add (k j : Nat) :
    (ns : Forest) → Forest.outline (k + j) ns = (Forest.outline k ns).map fun x => (x.1 + j, x.2)
  | [] => rfl
  | n :: ns => by
      rw [Forest.outline, Forest.outline, List.map_append, n.outline_add k j, Forest.outline_add k j ns]
end

namespace Space
variable {M : Type} {s : Space M} {n : Node} {level : UInt64}

/-- What the listing of a node is, from a level on. -/
structure Lists (s : Space M) (n : Node) (level : UInt64) : Prop where
  /-- The rows are those of the node and of all that descends from it, further in by the regions between. -/
  shown : ∀ depth x, (depth, x) ∈ n.outline level.toNat ↔ (depth, x) = (level.toNat, n) ∨
    ∃ l children k, n = .region l children ∧ depth = level.toNat + k + 1 ∧ s.Descends l k x
  once : ((n.outline level.toNat).map (·.2.handle)).Nodup
  ordered : (n.outline level.toNat).Pairwise s.Precedes
  written : s.listing n.handle level none = .ok (Lines.ending (rowsOf (n.outline level.toNat)))
  /-- Each line of the text is reported. -/
  reported : s.reportListing n.handle level = .ok () { s with
    resources := s.resources.reportAll ((Lines.ofString (Lines.ending (rowsOf (n.outline level.toNat)))).map
      fun line => .notice (.listingLine line)) }
  /-- Newlines in names make more lines than there are nodes, -/
  count : (Lines.ofString (Lines.ending (rowsOf (n.outline level.toNat)))).length =
    n.toList.length + (n.toList.map fun x => breaks x.label.name).sum
  /-- so that exactly where there are none, line after line is the row of node after node. -/
  described : Lines.ofString (Lines.ending (rowsOf (n.outline level.toNat))) =
    rowsOf (n.outline level.toNat) ↔ ∀ x ∈ n.toList, '\n' ∉ x.label.name.toList

theorem Kept.lists (kept : s.Kept []) (alive : n ∈ s.nodes)
    (fits : ∀ x ∈ n.outline level.toNat, 2 * x.1 ≤ maxIndentation) : s.Lists n level := by
  have nodes := n.map_outline level.toNat
  have written : s.listing n.handle level none =
      .ok (Lines.ending (rowsOf (n.outline level.toNat))) := by
    simp only [listing, kept.liveNode_eq alive, bind, Except.bind]
    exact composeLines_eq fits
  constructor
  case shown =>
    intro depth x
    constructor
    · intro member
      exact descends_of_mem_outline n alive member
    · rintro (same | ⟨l, children, k, rfl, rfl, below⟩)
      · rw [same]
        cases n <;> exact List.mem_cons_self
      · have member := kept.mem_outline_of_descends alive below
        refine List.mem_cons_of_mem _ ?_
        rw [show level.toNat + 1 = 0 + (level.toNat + 1) by omega, Forest.outline_add]
        refine List.mem_map.mpr ⟨(k, x), member, Prod.ext ?_ rfl⟩
        dsimp only
        omega
  case once =>
    have distinct := kept.nodup_handles alive
    rwa [← nodes, List.map_map] at distinct
  case ordered => exact pairwise_outline n alive (kept.nested_of_mem alive)
  case written => exact written
  case reported => rw [reportListing, written]
  case count =>
    rw [Lines.length_ofString_ending, ← nodes, rowsOf, List.map_map, List.map_map, List.length_map,
      List.length_map]
    congr 2
    exact List.map_congr_left fun x _ => x.2.breaks_indented x.1
  case described =>
    have ends : ∀ row ∈ rowsOf (n.outline level.toNat),
        ∃ before c, row.toList = before ++ [c] ∧ c ≠ '\r' :=
      List.forall_mem_map.mpr fun x _ => x.2.exists_last_indented x.1
    rw [Lines.ofString_ending_iff ends, ← nodes, rowsOf, List.forall_mem_map, List.forall_mem_map]
    simp only [Node.breaks_indented, Lines.breaks_eq_zero_iff]

/-- After any sequence of calls, a listing that is not too far in has a row for each node, and has a line for
each exactly if no name in it has a newline. -/
theorem run_lists [Mmu M] (picks : Mmu.PicksPages M) {mmu : M} {c : SpaceConfig} {entropy : Entropy}
    (new : Space.new mmu c entropy = .ok s) (commitments : Commitments) (ops : List Operation)
    (alive : n ∈ (run (s, commitments) ops).1.nodes)
    (fits : ∀ x ∈ n.outline level.toNat, 2 * x.1 ≤ maxIndentation) :
    (run (s, commitments) ops).1.Lists n level :=
  (run_kept (w := (s, commitments)) picks (new_kept new) ops).lists alive fits

/-- A mapping in a region, listed from the third level on. -/
theorem run_lists_nested :
    ∃ s t, Space.new PageTable.empty ⟨.kernel, 0, 0x10000, .empty, 4⟩ ⟨none⟩ = .ok s ∧
      (run (s, []) [.addRegion ⟨0, 0⟩ { size := 0x4000, flags := RegionFlags.mapAll, name := "heap" },
        .addMapping ⟨1, 1⟩ { size := 0x1000, name := "data" } ⟨0, 0x1000, none, none, false⟩ 0
          PageFlags.read]).1 = t ∧
      ∃ n ∈ t.nodes, (n.outline 3).map (fun x => (x.1, x.2.label.name)) =
          [(3, "root"), (4, "heap"), (5, "data")] ∧
        (∀ x ∈ n.outline 3, 2 * x.1 ≤ maxIndentation) ∧ t.Lists n 3 := by
  obtain ⟨s, new⟩ : ∃ s, Space.new PageTable.empty ⟨.kernel, 0, 0x10000, .empty, 4⟩ ⟨none⟩ = .ok s :=
    ⟨_, rfl⟩
  obtain ⟨t, made⟩ : ∃ t, (run (s, []) [
      .addRegion ⟨0, 0⟩ { size := 0x4000, flags := RegionFlags.mapAll, name := "heap" },
      .addMapping ⟨1, 1⟩ { size := 0x1000, name := "data" } ⟨0, 0x1000, none, none, false⟩ 0
        PageFlags.read]).1 = t := ⟨_, rfl⟩
  have outline : (t.liveRegion ⟨0, 0⟩).toOption.any fun x : Label × Forest =>
      decide (((Node.region x.1 x.2).outline 3).map (fun y => (y.1, y.2.label.name)) =
          [(3, "root"), (4, "heap"), (5, "data")] ∧
        ∀ y ∈ (Node.region x.1 x.2).outline 3, 2 * y.1 ≤ maxIndentation) := by
    subst made
    cases new
    decide +kernel
  obtain ⟨l, children, _, alive, test⟩ := exists_alive_of_any outline
  obtain ⟨names, fits⟩ := of_decide_eq_true test
  refine ⟨s, t, new, made, _, alive, names, fits, ?_⟩
  subst made
  exact run_lists .pageTable new [] _ alive fits

/-- Two nodes make three lines, since a name goes on in the next line. -/
theorem listing_not_by_line :
    ∃ s t, Space.new PageTable.empty ⟨.kernel, 0, 0x10000, .empty, 4⟩ ⟨none⟩ = .ok s ∧
      (run (s, []) [.addRegion ⟨0, 0⟩ { size := 0x1000, name := "a\nb" }]).1 = t ∧
      ∃ n ∈ t.nodes, n.handle = ⟨0, 0⟩ ∧ n.toList.length = 2 ∧
        ∃ text, t.listing ⟨0, 0⟩ 0 none = .ok text ∧ (Lines.ofString text).length = 3 := by
  obtain ⟨s, new⟩ : ∃ s, Space.new PageTable.empty ⟨.kernel, 0, 0x10000, .empty, 4⟩ ⟨none⟩ = .ok s :=
    ⟨_, rfl⟩
  obtain ⟨t, made⟩ : ∃ t, (run (s, []) [
      .addRegion ⟨0, 0⟩ { size := 0x1000, name := "a\nb" }]).1 = t := ⟨_, rfl⟩
  have nodes : (t.liveRegion ⟨0, 0⟩).toOption.any fun x : Label × Forest =>
      decide ((Node.region x.1 x.2).toList.length = 2 ∧
        ((Node.region x.1 x.2).toList.map fun y => breaks y.label.name).sum = 1 ∧
        ∀ y ∈ (Node.region x.1 x.2).outline 0, 2 * y.1 ≤ maxIndentation) := by
    subst made
    cases new
    decide +kernel
  obtain ⟨l, children, handle, alive, test⟩ := exists_alive_of_any nodes
  obtain ⟨two, one, fits⟩ := of_decide_eq_true test
  have kept := run_kept (w := (s, [])) .pageTable (new_kept new) [
    .addRegion ⟨0, 0⟩ { size := 0x1000, name := "a\nb" }]
  rw [made] at kept
  have lists : t.Lists (.region l children) 0 := kept.lists alive fits
  have count := lists.count
  rw [two, one] at count
  exact ⟨s, t, new, made, _, alive, handle, two, _, handle ▸ lists.written, count⟩

end Space
end RegionTree
