import RegionTree.Proofs.Flags
import RegionTree.Proofs.Minus
import RegionTree.Proofs.Reworking

/-! Other permissions for a range: mappings are cut at its ends, and what lies inside gets the permissions.
Told by the ranges alone, for an extent, a mapping and a child, and then address by address. -/
namespace RegionTree

namespace Extent
variable {e lower upper part : Extent} {target : Span} {a : Nat}

def within (e : Extent) (target : Span) : Option Extent := ofSpan? (e.toSpan.inter target)

/-- The parts of an extent below, inside and above a range. -/
def pieces (e : Extent) (target : Span) : List Extent :=
  (e.below target.start).toList ++ (e.within target).toList ++ (e.above target.stop).toList

theorem mem_pieces_iff : part ∈ e.pieces target ↔
    part.toSpan = ⟨e.start, min e.stop target.start⟩ ∨ part.toSpan = e.toSpan.inter target ∨
      part.toSpan = ⟨max e.start target.stop, e.stop⟩ := by
  simp only [pieces, below, within, above, List.mem_append, Option.mem_toList, ofSpan?_eq_some_iff, or_assoc]

theorem of_mem_pieces (h : part ∈ e.pieces target) : (e.start ≤ part.start ∧ part.stop ≤ e.stop) ∧
    (target.covers part.toSpan ∨ part.stop ≤ target.start ∨ target.stop ≤ part.start) := by
  rw [Span.covers_iff]
  rcases mem_pieces_iff.mp h with same | same | same
  all_goals
    rw [same]
    dsimp only [Span.inter]
    omega

theorem exists_mem_pieces (inside : a ∈ e.toSpan) : ∃ part ∈ e.pieces target, a ∈ part.toSpan := by
  have top := e.stop_lt_limit
  obtain ⟨low, high⟩ := inside
  have found : ∀ s : Span, s.stop < Address.limit → a ∈ s →
      ∃ part : Extent, part.toSpan = s ∧ a ∈ part.toSpan := by
    intro s small inside
    obtain ⟨part, found, inside⟩ := (exists_ofSpan?_mem small).mpr inside
    exact ⟨part, ofSpan?_eq_some_iff.mp found, inside⟩
  by_cases under : a < target.start
  · obtain ⟨part, same, inside⟩ := found ⟨e.start, min e.stop target.start⟩ (by dsimp only; omega)
      ⟨low, Nat.lt_min.mpr ⟨high, under⟩⟩
    exact ⟨part, mem_pieces_iff.mpr (.inl same), inside⟩
  · by_cases below : a < target.stop
    · obtain ⟨part, same, inside⟩ := found (e.toSpan.inter target) (by dsimp only [Span.inter]; omega)
        ⟨Nat.max_le.mpr ⟨low, Nat.le_of_not_lt under⟩, Nat.lt_min.mpr ⟨high, below⟩⟩
      exact ⟨part, mem_pieces_iff.mpr (.inr (.inl same)), inside⟩
    · obtain ⟨part, same, inside⟩ := found ⟨max e.start target.stop, e.stop⟩ top
        ⟨Nat.max_le.mpr ⟨low, Nat.le_of_not_lt below⟩, high⟩
      exact ⟨part, mem_pieces_iff.mpr (.inr (.inr same)), inside⟩

theorem pieces_of_apart (ordered : target.start ≤ target.stop)
    (apart : e.stop ≤ target.start ∨ target.stop ≤ e.start) : e.pieces target = [e] := by
  have outside : e.within target = none := by
    refine ofSpan?_eq_none ?_
    dsimp only [Span.inter]
    omega
  rcases apart with low | high
  · rw [pieces, below_eq_self low, outside, above_eq_none (Nat.le_trans low ordered)]
    rfl
  · rw [pieces, below_eq_none (Nat.le_trans ordered high), outside, above_eq_self high]
    rfl

theorem pieces_of_covers (low : target.start ≤ e.start) (high : e.stop ≤ target.stop) :
    e.pieces target = [e] := by
  have inside : e.within target = some e := by
    refine ofSpan?_eq_some_iff.mpr ?_
    rw [Span.inter, Nat.max_eq_left low, Nat.min_eq_left high]
  rw [pieces, below_eq_none low, inside, above_eq_none high]
  rfl

/-- Cutting at the start of the range leaves a part below it, and what is above is cut further. -/
theorem pieces_of_cut_start (ordered : target.start ≤ target.stop)
    (cut : e.cut? target.start = some (lower, upper)) :
    e.pieces target = lower :: upper.pieces target := by
  obtain ⟨low, high, _, _, start, stop⟩ := cut?_eq_some cut
  have first : e.below target.start = some lower := by rw [below_eq_cut? high, cut, Option.map_some]
  have inside : upper.within target = e.within target := by
    rw [within, within, Span.inter, Span.inter, start, stop, Nat.max_self,
      Nat.max_eq_right (Nat.le_of_lt low)]
  have last : upper.above target.stop = e.above target.stop := by
    rw [above, above, start, stop, Nat.max_eq_right ordered,
      Nat.max_eq_right (Nat.le_trans (Nat.le_of_lt low) ordered)]
  rw [pieces, pieces, first, below_eq_none (Nat.le_of_eq start.symm), inside, last]
  rfl

theorem pieces_of_cut_stop (low : target.start ≤ e.start)
    (cut : e.cut? target.stop = some (lower, upper)) : e.pieces target = [lower, upper] := by
  obtain ⟨under, bound, start, stop, _, _⟩ := cut?_eq_some cut
  have inside : e.within target = some lower := by
    refine ofSpan?_eq_some_iff.mpr ?_
    rw [Span.inter, Nat.max_eq_left low, Nat.min_eq_right (Nat.le_of_lt bound), ← start, ← stop]
  have last : e.above target.stop = some upper := by rw [above_eq_cut? under, cut, Option.map_some]
  rw [pieces, below_eq_none low, inside, last]
  rfl

end Extent

namespace Mapping
variable {m : Mapping} {target : Span} {access : PageFlags} {fresh : Nat → Handle} {lower upper : Extent}

/-- A part of a mapping that was cut. The lowest part stays the node that it was, and a cut at an address
makes a new node for what is above it. -/
def piece (m : Mapping) (fresh : Nat → Handle) (e : Extent) : Mapping :=
  m.part (if e.start = m.extent.start then m.handle else fresh e.start) e

/-- The mapping cut at the ends of a range, with other permissions inside the range. -/
def repermit (m : Mapping) (target : Span) (access : PageFlags) (fresh : Nat → Handle) : List Mapping :=
  (m.extent.pieces target).map fun e =>
    if target.covers e.toSpan then (m.piece fresh e).permitted access else m.piece fresh e

theorem piece_lower (start : lower.start = m.extent.start) : m.piece fresh lower = m.lower lower := by
  rw [piece, if_pos start]
  exact part_lower start

theorem piece_upper (clipped : Name.clip m.name = m.name) (start : upper.start ≠ m.extent.start) :
    m.piece fresh upper = m.tail (fresh upper.start) upper := by
  rw [piece, if_neg start]
  exact part_tail clipped

theorem piece_tail (clipped : Name.clip m.name = m.name) (cut : m.extent.start < upper.start) {e : Extent}
    (above : upper.start ≤ e.start) :
    (m.tail (fresh upper.start) upper).piece fresh e = m.piece fresh e := by
  have handle : (if e.start = upper.start then fresh upper.start else fresh e.start) = fresh e.start := by
    split
    · next same => rw [same]
    · rfl
  have offset : m.offset + (upper.start - m.extent.start) + (e.start - upper.start) =
      m.offset + (e.start - m.extent.start) := by omega
  rw [piece, piece, if_neg (show e.start ≠ m.extent.start by omega), part, part]
  simp only [tail, Mapping.upper, clipped, handle, offset]

end Mapping

namespace Node
variable {m : Mapping} {target : Span} {access : PageFlags} {fresh fresh' : Nat → Handle}
variable {lower upper : Extent}

/-- What becomes of a child if a range gets other permissions. A mapping that has them stays whole. -/
def repermit (target : Span) (access : PageFlags) (fresh : Nat → Handle) : Node → Forest
  | .region l children => [.region l children]
  | .mapping m =>
    if m.access ∩ PageFlags.permissions = access ∩ PageFlags.permissions then [.mapping m]
    else (m.repermit target access fresh).map .mapping

theorem repermit_mapping (unlike : m.access.withPermissions access ≠ m.access) :
    (Node.mapping m).repermit target access fresh = (m.repermit target access fresh).map .mapping :=
  if_neg fun same => unlike (Flags.withPermissions_eq_self_iff.mpr same)

theorem repermit_of_alike (alike : m.access.withPermissions access = m.access) :
    (Node.mapping m).repermit target access fresh = [.mapping m] :=
  if_pos (Flags.withPermissions_eq_self_iff.mp alike)

/-- New nodes are named by the addresses of the cuts, and all cuts lie inside the child. -/
theorem repermit_congr (n : Node) (agree : ∀ a, n.start < a → a < n.stop → fresh a = fresh' a) :
    n.repermit target access fresh = n.repermit target access fresh' := by
  cases n with
  | region l children => rfl
  | mapping m =>
      have same : ∀ e ∈ m.extent.pieces target, m.piece fresh e = m.piece fresh' e := by
        intro e he
        obtain ⟨low, high⟩ := (Extent.of_mem_pieces he).1
        rw [Mapping.piece, Mapping.piece]
        split
        · rfl
        · next inner =>
            have cut : fresh e.start = fresh' e.start :=
              agree _ (Nat.lt_of_le_of_ne low (Ne.symm inner)) (Nat.lt_of_lt_of_le e.start_lt_stop high)
            rw [cut]
      have parts : m.repermit target access fresh = m.repermit target access fresh' :=
        List.map_congr_left fun e he => by rw [same e he]
      rw [repermit, repermit, parts]

theorem repermit_of_apart (ordered : target.start ≤ target.stop) {n : Node}
    (apart : n.stop ≤ target.start ∨ target.stop ≤ n.start) : n.repermit target access fresh = [n] := by
  cases n with
  | region l children => rfl
  | mapping m =>
      have outside : ¬ target.covers m.extent.toSpan := by
        have some := m.extent.start_lt_stop
        simp only [stop_mapping, start_mapping] at apart
        rw [Span.covers_iff]
        omega
      have whole : m.extent.pieces target = [m.extent] := Extent.pieces_of_apart ordered apart
      rw [repermit, Mapping.repermit, whole, List.map_singleton, if_neg outside, Mapping.piece_lower rfl]
      split <;> rfl

theorem repermit_of_covers (unlike : m.access.withPermissions access ≠ m.access)
    (low : target.start ≤ m.extent.start) (high : m.extent.stop ≤ target.stop) :
    (Node.mapping m).repermit target access fresh = [.mapping (m.permitted access)] := by
  rw [repermit_mapping unlike, Mapping.repermit, Extent.pieces_of_covers low high, List.map_singleton,
    if_pos (Span.covers_iff.mpr ⟨low, high⟩), Mapping.piece_lower rfl]
  rfl

/-- A mapping that is cut at the start of the range is a mapping that is not, behind another one. -/
theorem repermit_of_cut_start (unlike : m.access.withPermissions access ≠ m.access)
    (clipped : Name.clip m.name = m.name) (ordered : target.start ≤ target.stop)
    (cut : m.extent.cut? target.start = some (lower, upper)) :
    (Node.mapping m).repermit target access fresh = .mapping (m.lower lower) ::
      (Node.mapping (m.tail (fresh target.start) upper)).repermit target access fresh := by
  obtain ⟨low, _, start, _, between, _⟩ := Extent.cut?_eq_some cut
  have outside : ¬ target.covers lower.toSpan := by
    rw [Span.covers_iff, start]
    omega
  have same : ∀ e ∈ upper.pieces target,
      (m.tail (fresh target.start) upper).piece fresh e = m.piece fresh e := by
    intro e he
    have above := (Extent.of_mem_pieces he).1.1
    rw [← between]
    exact Mapping.piece_tail clipped (between ▸ low) above
  have rest : m.repermit target access fresh =
      m.lower lower :: (m.tail (fresh target.start) upper).repermit target access fresh := by
    rw [Mapping.repermit, Extent.pieces_of_cut_start ordered cut, List.map_cons, if_neg outside,
      Mapping.piece_lower start]
    exact congrArg _ (List.map_congr_left fun e he => by rw [same e he])
  have unlike' : (m.tail (fresh target.start) upper).access.withPermissions access ≠
      (m.tail (fresh target.start) upper).access := unlike
  rw [repermit_mapping unlike, repermit_mapping unlike', rest]
  rfl

theorem repermit_of_cut_stop (unlike : m.access.withPermissions access ≠ m.access)
    (clipped : Name.clip m.name = m.name) (low : target.start ≤ m.extent.start)
    (cut : m.extent.cut? target.stop = some (lower, upper)) :
    (Node.mapping m).repermit target access fresh =
      [.mapping ((m.lower lower).permitted access), .mapping (m.tail (fresh target.stop) upper)] := by
  obtain ⟨inner, _, start, stop, between, _⟩ := Extent.cut?_eq_some cut
  have inside : target.covers lower.toSpan := by
    rw [Span.covers_iff, start, stop]
    exact ⟨low, Nat.le_refl _⟩
  have outside : ¬ target.covers upper.toSpan := by
    have some := upper.start_lt_stop
    rw [Span.covers_iff]
    omega
  have other : upper.start ≠ m.extent.start := by omega
  rw [repermit_mapping unlike, Mapping.repermit, Extent.pieces_of_cut_stop low cut, List.map_cons,
    List.map_singleton, if_pos inside, if_neg outside, Mapping.piece_lower start,
    Mapping.piece_upper clipped other, between]
  rfl

end Node

/-! ### Address by address -/

/-- What a mapping shows at an address: a place in its object, under some rights and a name. -/
structure View where
  object : MemoryObject
  offset : Nat
  flags : RegionFlags
  name : String
  access : PageFlags

def View.permitted (v : View) (access : PageFlags) : View :=
  { v with access := v.access.withPermissions access }

def Mapping.view (m : Mapping) (a : Nat) : View :=
  ⟨m.object, m.offset + (a - m.extent.start), m.flags, m.name, m.access⟩

/-- A mapping among the entries shows this at an address. -/
def Shows (es : List Entry) (a : Nat) (v : View) : Prop :=
  ∃ m, .mapping m ∈ es ∧ a ∈ m.extent.toSpan ∧ m.view a = v

section
variable {m : Mapping} {target : Span} {access : PageFlags} {fresh : Nat → Handle} {a : Nat} {v : View}
variable {es es' : List Entry} {ns ms : Forest}

theorem Shows.perm (same : es.Perm es') : Shows es a v ↔ Shows es' a v := by
  simp only [Shows, same.mem_iff]

theorem shows_append : Shows (es ++ es') a v ↔ Shows es a v ∨ Shows es' a v := by
  simp only [Shows, List.mem_append, or_and_right, exists_or]

theorem shows_singleton : Shows [.mapping m] a v ↔ a ∈ m.extent.toSpan ∧ m.view a = v := by
  constructor
  · rintro ⟨m', here, inside, same⟩
    cases List.mem_singleton.mp here
    exact ⟨inside, same⟩
  · rintro ⟨inside, same⟩
    exact ⟨m, List.mem_singleton_self _, inside, same⟩

theorem shows_entries_iff : Shows (Forest.entries ns) a v ↔ ∃ n ∈ ns, Shows n.entries a v := by
  simp only [Shows, Forest.mem_entries_iff]
  constructor
  · rintro ⟨m, ⟨n, hn, hm⟩, inside⟩
    exact ⟨n, hn, m, hm, inside⟩
  · rintro ⟨n, hn, m, hm, inside⟩
    exact ⟨m, ⟨n, hn, hm⟩, inside⟩

theorem Mapping.view_piece {e : Extent} (low : m.extent.start ≤ e.start) (inside : a ∈ e.toSpan) :
    (m.piece fresh e).view a = m.view a := by
  have above := inside.1
  have offset : m.offset + (e.start - m.extent.start) + (a - e.start) =
      m.offset + (a - m.extent.start) := by omega
  simp only [view, piece, part, offset]

theorem Node.shows_repermit : Shows (Forest.entries ((Node.mapping m).repermit target access fresh)) a v ↔
    a ∈ m.extent.toSpan ∧ (if a ∈ target then (m.view a).permitted access else m.view a) = v := by
  by_cases alike : m.access.withPermissions access = m.access
  · have same : (m.view a).permitted access = m.view a := by rw [View.permitted, Mapping.view, alike]
    rw [repermit_of_alike alike, same, ite_self]
    exact shows_singleton
  · have each : ∀ e ∈ m.extent.pieces target, a ∈ e.toSpan →
        (if target.covers e.toSpan then (m.piece fresh e).permitted access else m.piece fresh e).view a =
          if a ∈ target then (m.view a).permitted access else m.view a := by
      intro e he inside
      obtain ⟨⟨low, _⟩, side⟩ := Extent.of_mem_pieces he
      have shown : (m.piece fresh e).view a = m.view a := Mapping.view_piece low inside
      obtain ⟨above, under⟩ := inside
      by_cases covered : target.covers e.toSpan
      · obtain ⟨bottom, top⟩ := Span.covers_iff.mp covered
        rw [if_pos covered, if_pos ⟨Nat.le_trans bottom above, Nat.lt_of_lt_of_le under top⟩, ← shown]
        rfl
      · have outside : ¬ a ∈ target := by
          rw [Span.mem_iff]
          have := side.resolve_left covered
          omega
        rw [if_neg covered, if_neg outside, shown]
    have extent : ∀ e, (if target.covers e.toSpan then (m.piece fresh e).permitted access
        else m.piece fresh e).extent = e := by
      intro e
      split <;> rfl
    rw [repermit_mapping alike, shows_entries_iff]
    constructor
    · rintro ⟨n, hn, shows⟩
      obtain ⟨part, hpart, rfl⟩ := List.mem_map.mp hn
      obtain ⟨e, he, rfl⟩ := List.mem_map.mp hpart
      obtain ⟨inside, same⟩ := shows_singleton.mp shows
      rw [extent] at inside
      obtain ⟨low, high⟩ := (Extent.of_mem_pieces he).1
      exact ⟨⟨Nat.le_trans low inside.1, Nat.lt_of_lt_of_le inside.2 high⟩, each e he inside ▸ same⟩
    · rintro ⟨inside, same⟩
      obtain ⟨e, he, here⟩ : ∃ e ∈ m.extent.pieces target, a ∈ e.toSpan :=
        Extent.exists_mem_pieces inside
      refine ⟨_, List.mem_map_of_mem (List.mem_map_of_mem he), shows_singleton.mpr ?_⟩
      rw [extent, each e he here]
      exact ⟨here, same⟩

theorem Forest.shows_repermit_of_outside (outside : ¬ a ∈ target) :
    Shows (Forest.entries (ns.flatMap (Node.repermit target access fresh))) a v ↔
      Shows (Forest.entries ns) a v := by
  have each : ∀ n : Node, Shows (Forest.entries (n.repermit target access fresh)) a v ↔
      Shows n.entries a v := by
    intro n
    cases n with
    | region l children => simp [Node.repermit]
    | mapping m =>
        rw [Node.shows_repermit, if_neg outside]
        exact shows_singleton.symm
  simp only [shows_entries_iff, List.mem_flatMap] at each ⊢
  constructor
  · rintro ⟨part, ⟨n, hn, hpart⟩, shows⟩
    exact ⟨n, hn, (each n).mp ⟨part, hpart, shows⟩⟩
  · rintro ⟨n, hn, shows⟩
    obtain ⟨part, hpart, shows⟩ := (each n).mpr shows
    exact ⟨part, ⟨n, hn, hpart⟩, shows⟩

theorem Forest.shows_repermit_of_inside (hm : .mapping m ∈ ns) (here : a ∈ m.extent.toSpan)
    (inside : a ∈ target) :
    Shows (Forest.entries (ns.flatMap (Node.repermit target access fresh))) a
      ((m.view a).permitted access) := by
  have shows : Shows (Forest.entries ((Node.mapping m).repermit target access fresh)) a
      ((m.view a).permitted access) := Node.shows_repermit.mpr ⟨here, if_pos inside⟩
  obtain ⟨part, hpart, shows⟩ := shows_entries_iff.mp shows
  exact shows_entries_iff.mpr ⟨part, List.mem_flatMap.mpr ⟨_, hm, hpart⟩, shows⟩

end

end RegionTree
