import RegionTree.Proofs.Atomicity
import RegionTree.Proofs.Cuts
import RegionTree.Proofs.Subtraction

/-! Giving the children in a range other permissions, one after the other: what it comes to, and how far it
gets when the nodes run out. -/
namespace RegionTree

namespace Resources
variable {r r' r'' : Resources PageTable} {m : Mapping} {access : PageFlags} {target : Span} {n : Node}

/-- Flags of translations have changed, and nodes have been taken. -/
structure Reflags (r r' : Resources PageTable) : Prop where
  capacity : r'.capacity = r.capacity
  generation : r.nextGeneration ≤ r'.nextGeneration
  guard : r'.mmu.guard = r.mmu.guard
  refuses : r'.mmu.refuses = r.mmu.refuses
  frames : r'.mmu.translations.map (fun t => (t.page, t.frame)) =
    r.mmu.translations.map fun t => (t.page, t.frame)

namespace Reflags

theorem refl (r : Resources PageTable) : r.Reflags r := ⟨rfl, Nat.le_refl _, rfl, rfl, rfl⟩

theorem trans (h : r.Reflags r') (h' : r'.Reflags r'') : r.Reflags r'' :=
  ⟨h'.capacity.trans h.capacity, Nat.le_trans h.generation h'.generation, h'.guard.trans h.guard,
    h'.refuses.trans h.refuses, h'.frames.trans h.frames⟩

theorem of_mmu (capacity : r'.capacity = r.capacity) (generation : r.nextGeneration ≤ r'.nextGeneration)
    (mmu : r'.mmu = r.mmu) : r.Reflags r' :=
  ⟨capacity, generation, by rw [mmu], by rw [mmu], by rw [mmu]⟩

theorem quiet (same : r.Quiet r') : r.Reflags r' := .of_mmu same.capacity same.generation same.mmu

theorem split {upper : Extent} {answer : Except Failure Mapping} (done : r.split m upper = ⟨answer, r'⟩) :
    r.Reflags r' := by
  cases answer with
  | error f => exact .quiet (split_error done).1
  | ok tail =>
      obtain ⟨_, held, taken, _, quiet⟩ := split_ok done
      have generation : held.nextGeneration = r.nextGeneration + 1 :=
        allocate_nextGeneration (r := r.countGeneration.2) taken
      have held : r.Reflags held := of_mmu (allocate_capacity (r := r.countGeneration.2) taken)
        (by omega) (allocate_mmu (r := r.countGeneration.2) taken)
      exact held.trans (.quiet quiet)

theorem reflag (r : Resources PageTable) (access : PageFlags) (m : Mapping) :
    r.Reflags (r.reflag access m).resources := by
  have changed : r.Reflags (r.protectPages m.extent.toSpan access).state := by
    refine ⟨rfl, Nat.le_refl _, rfl, rfl, ?_⟩
    show (r.mmu.translations.map _).map _ = _
    rw [List.map_map]
    refine List.map_congr_left fun t _ => ?_
    simp only [Function.comp_apply]
    split <;> rfl
  exact changed.trans (.quiet (quiet_note _ _))

theorem reflagBelow {stop : Nat} (r : Resources PageTable) (access : PageFlags) (m : Mapping) :
    r.Reflags (r.reflagBelow stop access m).resources := by
  simp only [Resources.reflagBelow]
  split
  · exact reflag r access m
  · split
    · next failed => exact split failed
    · next done => exact (split done).trans (reflag _ access _)

theorem permit (target : Span) (access : PageFlags) (r : Resources PageTable) (n : Node) :
    r.Reflags (Resources.permit target access r n).resources := by
  cases n with
  | region l children => exact refl r
  | mapping m =>
      simp only [Resources.permit]
      split
      · exact refl r
      · simp only [reflagInside]
        split
        · exact reflagBelow r _ m
        · split
          · next failed => exact split failed
          · next done => exact (split done).trans (reflagBelow _ _ _)

end Reflags

theorem split_inUse {upper : Extent} {tail : Mapping} (done : r.split m upper = ⟨.ok tail, r'⟩) :
    r'.inUse ≤ r.inUse + 1 := by
  obtain ⟨_, held, taken, _, quiet⟩ := split_ok done
  have one : held.inUse ≤ r.inUse + 1 := by
    obtain ⟨_, _, ⟨free, same, rfl⟩ | ⟨_, _, rfl⟩⟩ := allocate_ok taken
    · have same : r.free = _ :: free := same
      simp only [inUse, countGeneration, same, List.length_cons]
      omega
    · simp only [inUse, countGeneration]
      omega
  rwa [inUse, quiet.fresh, quiet.free]

end Resources

namespace Forest
variable {target span : Span} {access : PageFlags} {g : Nat} {ns ms : Forest} {n : Node} {e : Extent}

/-- The row after giving a range other permissions, with new nodes of some generation or later ones. -/
def Repermits (target : Span) (access : PageFlags) (g : Nat) (ns ms : Forest) : Prop :=
  ∃ fresh : Nat → Handle, (∀ a, g ≤ (fresh a).generation) ∧
    ms = ns.flatMap (Node.repermit target access fresh)

namespace Repermits

theorem of_stay (stay : ∀ fresh, ∀ n ∈ ns, n.repermit target access fresh = [n]) :
    Repermits target access g ns ns :=
  ⟨fun _ => ⟨0, g⟩, fun _ => Nat.le_refl _, (flatMap_of_stay (stay _)).symm⟩

theorem mono {g' : Nat} (h : Repermits target access g' ns ms) (le : g ≤ g') :
    Repermits target access g ns ms := by
  obtain ⟨fresh, recent, same⟩ := h
  exact ⟨fresh, fun a => Nat.le_trans le (recent a), same⟩

/-- No cut lies in two children, so that their new nodes can be named together. -/
theorem cons {first : Forest} (lined : Lined e (n :: ns)) (h : Repermits target access g [n] first)
    (h' : Repermits target access g ns ms) : Repermits target access g (n :: ns) (first ++ ms) := by
  obtain ⟨fresh, recent, rfl⟩ := h
  obtain ⟨fresh', recent', rfl⟩ := h'
  refine ⟨fun a => if a < n.stop then fresh a else fresh' a, fun a => ?_, ?_⟩
  · dsimp only
    split
    · exact recent a
    · exact recent' a
  · rw [List.flatMap_singleton, List.flatMap_cons]
    refine congrArg₂ _ (n.repermit_congr fun a _ below => (if_pos below).symm) ?_
    refine List.flatMap_congr fun x hx => x.repermit_congr fun a above _ => ?_
    have order := (List.pairwise_cons.mp lined.apart).1 x hx
    exact (if_neg (by omega)).symm

/-- Cutting the first child at the start of the range first makes no difference. -/
theorem of_cut {m : Mapping} {new : Handle} {lower upper : Extent} (lined : Lined e (.mapping m :: ns))
    (unlike : m.access.withPermissions access ≠ m.access) (clipped : Name.clip m.name = m.name)
    (ordered : target.start ≤ target.stop) (cut : m.extent.cut? target.start = some (lower, upper))
    (recent : g ≤ new.generation)
    (h : Repermits target access g (.mapping (m.tail new upper) :: ns) ms) :
    Repermits target access g (.mapping m :: ns) (.mapping (m.lower lower) :: ms) := by
  obtain ⟨fresh, recent', rfl⟩ := h
  obtain ⟨_, inside, _, _, start, _⟩ := Extent.cut?_eq_some cut
  refine ⟨fun a => if a = target.start then new else fresh a, fun a => ?_, ?_⟩
  · dsimp only
    split
    · exact recent
    · exact recent' a
  · rw [List.flatMap_cons, List.flatMap_cons, Node.repermit_of_cut_start unlike clipped ordered cut,
      if_pos rfl, List.cons_append]
    refine congrArg₂ (fun first rest => _ :: (first ++ rest)) ?_ ?_
    · refine Node.repermit_congr _ fun a above _ => (if_neg ?_).symm
      have above : upper.start < a := above
      omega
    · refine List.flatMap_congr fun x hx => x.repermit_congr fun a above _ => (if_neg ?_).symm
      have order : m.extent.stop ≤ x.start := (List.pairwise_cons.mp lined.apart).1 x hx
      omega

theorem around (lined : Lined e ns) (ordered : span.start ≤ span.stop) (low : target.start ≤ span.start)
    (high : span.stop ≤ target.stop) (h : Repermits span access g (slice target ns).inside ms) :
    Repermits span access g ns ((slice target ns).before ++ ms ++ (slice target ns).behind) := by
  obtain ⟨fresh, recent, rfl⟩ := h
  refine ⟨fresh, recent, (flatMap_of_apart lined fun n apart => n.repermit_of_apart ordered ?_).symm⟩
  exact apart.imp (Nat.le_trans · low) (Nat.le_trans high)

end Repermits
end Forest

/-- The child has the permissions, or is none that has any. -/
def Node.Content (access : PageFlags) : Node → Prop
  | .region _ _ => True
  | .mapping m => m.access.withPermissions access = m.access

theorem Node.repermit_of_content {access : PageFlags} {n : Node} (content : n.Content access)
    (target : Span) (fresh : Nat → Handle) : n.repermit target access fresh = [n] := by
  cases n with
  | region l children => rfl
  | mapping m => exact repermit_of_alike content

/-- How far the range reaches behind a child does not matter to it. -/
theorem Node.repermit_of_stop_le {access : PageFlags} {n : Node} {start stop stop' : Nat}
    (low : n.Content access ∨ start ≤ n.start) (high : n.stop ≤ stop) (high' : n.stop ≤ stop')
    (fresh : Nat → Handle) :
    n.repermit ⟨start, stop⟩ access fresh = n.repermit ⟨start, stop'⟩ access fresh := by
  by_cases content : n.Content access
  · rw [repermit_of_content content, repermit_of_content content]
  · have low := low.resolve_left content
    cases n with
    | region l children => rfl
    | mapping m =>
        have whole : ∀ stop, m.extent.stop ≤ stop →
            (Node.mapping m).repermit ⟨start, stop⟩ access fresh = [.mapping (m.permitted access)] :=
          fun _ high => repermit_of_covers content low high
        rw [whole stop high, whole stop' high']

/-- The nodes have run out, and what lies below the cut has its permissions. -/
structure Progress.Stalls (target : Span) (cut : Nat) (p : Progress PageTable) : Prop where
  failure : p.failure = some Error.noMemory
  paged : cut % pageSize = 0
  inside : cut ∈ target
  full : p.resources.capacity ≤ p.resources.inUse

/-- All children have got the permissions inside the range, or those below a cut. -/
def Progress.Permits (target : Span) (access : PageFlags) (ns : Forest) (r : Resources PageTable)
    (p : Progress PageTable) : Prop :=
  (p.failure = none ∧ Forest.Repermits target access r.nextGeneration ns p.children) ∨
    ∃ cut, p.Stalls target cut ∧ p.resources.inUse ≤ r.inUse + 1 ∧
      (p.children = ns ∧ cut = target.start ∨
        Forest.Repermits ⟨target.start, cut⟩ access r.nextGeneration ns p.children)

/-- A step that begins by setting a part of the child aside works on the rest as on a child. -/
theorem Progress.overEach_after {M : Type} {step : Resources M → Node → Progress M} {r r' : Resources M}
    {n rest : Node} {done ns : Forest} (same : step r n = (step r' rest).after done) :
    overEach step r (n :: ns) = (overEach step r' (rest :: ns)).after done := by
  simp only [overEach, same, after]
  split
  · simp only [before, List.append_assoc]
  · simp only [List.append_assoc]

namespace Resources
variable {target : Span} {access : PageFlags} {n : Node} {e : Extent} {ns : Forest}

theorem permit_of_content (content : n.Content access) (r : Resources PageTable) :
    permit target access r n = ⟨[n], r, none⟩ := by
  cases n with
  | region l children => rfl
  | mapping m => exact if_pos content

/-- A child that starts inside the range gets the permissions up to the end of the range, or stays as it is
for want of a node for what is behind it. -/
theorem permit_single (tidy : n.entry.Tidy) (clipped : n.entry.Clipped)
    (low : n.Content access ∨ target.start ≤ n.start) (high : n.start < target.stop)
    (r : Resources PageTable) :
    ((permit target access r n).failure = none ∧
        Forest.Repermits target access r.nextGeneration [n] (permit target access r n).children) ∨
      (permit target access r n).Stalls target n.start ∧ (permit target access r n).children = [n] ∧
        (permit target access r n).resources.inUse = r.inUse := by
  by_cases content : n.Content access
  · rw [permit_of_content content]
    refine .inl ⟨rfl, .of_stay fun fresh => List.forall_mem_singleton.mpr ?_⟩
    exact Node.repermit_of_content content target fresh
  · have low := low.resolve_left content
    cases n with
    | region l children => exact absurd trivial content
    | mapping m =>
        have uncut : m.extent.cut? target.start = none := dif_neg fun inside => Nat.not_le_of_lt inside.1 low
        simp only [permit, if_neg (show ¬ m.access.withPermissions access = m.access from content),
          reflagInside, uncut, reflagBelow]
        cases cut : m.extent.cut? target.stop with
        | none =>
            have top : m.extent.stop ≤ target.stop :=
              (Extent.cut?_eq_none cut).resolve_left (Nat.not_le_of_lt high)
            refine .inl ⟨rfl, fun _ => ⟨0, r.nextGeneration⟩, fun _ => Nat.le_refl _, ?_⟩
            rw [List.flatMap_singleton, Node.repermit_of_covers content low top]
            rfl
        | some halves =>
            obtain ⟨lower, upper⟩ := halves
            obtain ⟨_, bound, _, _, between, _⟩ := Extent.cut?_eq_some cut
            have fits : m.offset + (upper.start - m.extent.start) < Address.limit :=
              tidy.offset_lt (between ▸ Nat.le_of_lt bound)
            dsimp only
            cases done : r.split m upper with
            | mk answer r' =>
                cases answer with
                | error f =>
                    obtain ⟨quiet, reason⟩ := split_error done
                    obtain ⟨rfl, full⟩ := reason fits
                    have used : r'.inUse = r.inUse := by rw [inUse, inUse, quiet.fresh, quiet.free]
                    exact .inr ⟨⟨rfl, tidy.1.1, ⟨low, high⟩, quiet.capacity ▸ used ▸ full⟩, rfl, used⟩
                | ok tail =>
                    obtain ⟨new, _, taken, rfl, _⟩ := split_ok done
                    refine .inl ⟨rfl, fun _ => new, fun _ => Nat.le_of_eq (allocate_ok taken).1.symm, ?_⟩
                    rw [List.flatMap_singleton, Node.repermit_of_cut_stop content clipped low cut]
                    rfl

theorem permit_inUse (low : n.Content access ∨ target.start ≤ n.start) (high : n.stop ≤ target.stop)
    (r : Resources PageTable) : (permit target access r n).resources.inUse = r.inUse := by
  by_cases content : n.Content access
  · rw [permit_of_content content]
  · have low := low.resolve_left content
    cases n with
    | region l children => rfl
    | mapping m =>
        have uncut : m.extent.cut? target.start = none := dif_neg fun inside => Nat.not_le_of_lt inside.1 low
        have whole : m.extent.cut? target.stop = none := dif_neg fun inside => Nat.not_le_of_lt inside.2 high
        simp only [permit, if_neg (show ¬ m.access.withPermissions access = m.access from content),
          reflagInside, uncut, reflagBelow, whole]
        rfl

/-- Of children that start inside the range, all get the permissions, or those below a child that needs a
new node. -/
theorem overEach_permit (lined : Forest.Lined e ns) (tidy : ∀ n ∈ ns, n.entry.Tidy)
    (clipped : ∀ n ∈ ns, n.entry.Clipped) (low : ∀ n ∈ ns, n.Content access ∨ target.start ≤ n.start)
    (high : ∀ n ∈ ns, n.start < target.stop) {r : Resources PageTable} {p : Progress PageTable}
    (work : p = Progress.overEach (permit target access) r ns) :
    (p.failure = none ∧ Forest.Repermits target access r.nextGeneration ns p.children) ∨
      ∃ n ∈ ns, p.Stalls target n.start ∧ p.resources.inUse = r.inUse ∧
        Forest.Repermits ⟨target.start, n.start⟩ access r.nextGeneration ns p.children := by
  induction ns generalizing r p with
  | nil =>
      subst work
      exact .inl ⟨rfl, .of_stay fun _ => nofun⟩
  | cons n ns ih =>
      obtain ⟨order, _⟩ := List.pairwise_cons.mp lined.apart
      obtain ⟨tidyFirst, tidyRest⟩ := List.forall_mem_cons.mp tidy
      obtain ⟨clippedFirst, clippedRest⟩ := List.forall_mem_cons.mp clipped
      obtain ⟨lowFirst, lowRest⟩ := List.forall_mem_cons.mp low
      obtain ⟨highFirst, highRest⟩ := List.forall_mem_cons.mp high
      simp only [Progress.overEach] at work
      rcases permit_single tidyFirst clippedFirst lowFirst highFirst r with
        ⟨fine, first⟩ | ⟨stalls, same, used⟩
      · rw [fine] at work
        have recent := (Reflags.permit target access r n).generation
        rcases ih lined.tail tidyRest clippedRest lowRest highRest rfl with
          ⟨done, rest⟩ | ⟨x, hx, stalls, used, rest⟩
        · subst work
          exact .inl ⟨done, .cons lined first (rest.mono recent)⟩
        · subst work
          have above : n.stop ≤ x.start := order x hx
          have whole : n.stop ≤ target.stop := Nat.le_of_lt (Nat.lt_of_le_of_lt above (highRest x hx))
          refine .inr ⟨x, List.mem_cons_of_mem _ hx,
            ⟨stalls.failure, stalls.paged, stalls.inside, stalls.full⟩, ?_, ?_⟩
          · exact used.trans (permit_inUse lowFirst whole r)
          · refine .cons lined ?_ (rest.mono recent)
            obtain ⟨fresh, new, same⟩ := first
            refine ⟨fresh, new, same.trans ?_⟩
            rw [List.flatMap_singleton, List.flatMap_singleton]
            exact Node.repermit_of_stop_le lowFirst whole above fresh
      · rw [stalls.failure] at work
        subst work
        have ordered := stalls.inside.1
        have apart : ∀ x : Node, n.start ≤ x.start → ∀ fresh,
            x.repermit ⟨target.start, n.start⟩ access fresh = [x] :=
          fun x above _ => Node.repermit_of_apart ordered (.inr above)
        refine .inr ⟨n, List.mem_cons_self,
          ⟨stalls.failure, stalls.paged, stalls.inside, stalls.full⟩, used, ?_⟩
        simp only [Progress.before, same]
        refine .cons lined (.of_stay fun fresh => ?_) (.of_stay fun fresh x hx => ?_)
        · exact List.forall_mem_singleton.mpr (apart n (Nat.le_refl _) fresh)
        · exact apart x (Nat.le_trans (Nat.le_of_lt n.start_lt_stop) (order x hx)) fresh

section
variable {r r' : Resources PageTable} {m tail : Mapping} {lower upper : Extent} {p : Progress PageTable}

theorem permit_of_full {f : Failure} (unlike : ¬ m.access.withPermissions access = m.access)
    (cut : m.extent.cut? target.start = some (lower, upper)) (failed : r.split m upper = ⟨.error f, r'⟩) :
    permit target access r (.mapping m) = ⟨[.mapping m], r', some f⟩ := by
  simp only [permit, if_neg unlike, reflagInside, cut, failed]

/-- A mapping that is cut at the start of the range gives way to its two parts, and the upper one is the
first child that starts inside the range. -/
theorem permit_of_cut (unlike : ¬ m.access.withPermissions access = m.access)
    (cut : m.extent.cut? target.start = some (lower, upper)) (done : r.split m upper = ⟨.ok tail, r'⟩) :
    permit target access r (.mapping m) =
      (permit target access r' (.mapping tail)).after [.mapping (m.lower lower)] := by
  obtain ⟨_, _, _, _, start, _⟩ := Extent.cut?_eq_some cut
  obtain ⟨new, _, _, rfl, _⟩ := split_ok done
  have uncut : upper.cut? target.start = none := dif_neg fun inside => Nat.ne_of_lt inside.1 start
  have unlike' : ¬ (m.tail new upper).access.withPermissions access = (m.tail new upper).access := unlike
  have above : (m.tail new upper).extent.cut? target.start = none := uncut
  simp only [permit, if_neg unlike, if_neg unlike', reflagInside, cut, above, done]
  rfl

theorem overEach_permit_of_cut (wide : target.start < target.stop) (paged : target.start % pageSize = 0)
    (lined : Forest.Lined e (.mapping m :: ns)) (tidy : ∀ n ∈ Node.mapping m :: ns, n.entry.Tidy)
    (clipped : ∀ n ∈ Node.mapping m :: ns, n.entry.Clipped) (high : ∀ n ∈ ns, n.start < target.stop)
    (unlike : ¬ m.access.withPermissions access = m.access) (below : m.extent.start < target.start)
    (reaches : target.start < m.extent.stop)
    (work : p = Progress.overEach (permit target access) r (.mapping m :: ns)) :
    p.Permits target access (.mapping m :: ns) r := by
  obtain ⟨tidyFirst, tidyRest⟩ := List.forall_mem_cons.mp tidy
  obtain ⟨clippedFirst, clippedRest⟩ := List.forall_mem_cons.mp clipped
  obtain ⟨order, _⟩ := List.pairwise_cons.mp lined.apart
  obtain ⟨lower, upper, cut⟩ := Extent.exists_cut? below reaches
  obtain ⟨_, _, _, _, start, stop⟩ := Extent.cut?_eq_some cut
  have clippedName : Name.clip m.name = m.name := clippedFirst
  cases done : r.split m upper with
  | mk answer r' =>
      cases answer with
      | error f =>
          obtain ⟨quiet, reason⟩ := split_error done
          obtain ⟨rfl, full⟩ := reason (tidyFirst.offset_lt (start ▸ Nat.le_of_lt reaches))
          have used : r'.inUse = r.inUse := by rw [inUse, inUse, quiet.fresh, quiet.free]
          simp only [Progress.overEach, permit_of_full unlike cut done, Progress.before] at work
          subst work
          refine .inr ⟨target.start, ⟨rfl, paged, ⟨Nat.le_refl _, wide⟩, ?_⟩, ?_, .inl ⟨rfl, rfl⟩⟩
          · exact quiet.capacity ▸ used ▸ full
          · exact Nat.le_succ_of_le (Nat.le_of_eq used)
      | ok tail =>
          have one := split_inUse done
          have recent := (Reflags.split done).generation
          rw [Progress.overEach_after (permit_of_cut unlike cut done)] at work
          obtain ⟨new, _, taken, rfl, _⟩ := split_ok done
          have generation : r.nextGeneration ≤ new.generation := Nat.le_of_eq (allocate_ok taken).1.symm
          have startTail : (Node.mapping (m.tail new upper)).start = target.start := start
          have stopTail : (Node.mapping (m.tail new upper)).stop = (Node.mapping m).stop := stop
          have lined' : Forest.Lined e (.mapping (m.tail new upper) :: ns) :=
            lined.narrow (startTail ▸ Nat.le_of_lt below) (Nat.le_of_eq stopTail)
          have tidyTail : (Entry.mapping (m.tail new upper)).Tidy :=
            Evolves.tidy_upper (m := m) tidyFirst (start ▸ below) stop (start ▸ paged)
          have low : ∀ n ∈ Node.mapping (m.tail new upper) :: ns, n.Content access ∨ target.start ≤ n.start :=
            List.forall_mem_cons.mpr ⟨.inr (Nat.le_of_eq startTail.symm), fun x hx =>
              .inr (Nat.le_trans (Nat.le_of_lt reaches) (order x hx))⟩
          have rest := overEach_permit lined' (List.forall_mem_cons.mpr ⟨tidyTail, tidyRest⟩)
            (List.forall_mem_cons.mpr ⟨Name.clip_clip m.name, clippedRest⟩) low
            (List.forall_mem_cons.mpr ⟨startTail ▸ wide, high⟩) (r := r') rfl
          subst work
          rcases rest with ⟨fine, row⟩ | ⟨n, _, stalls, used, row⟩
          · exact .inl ⟨fine, .of_cut lined unlike clippedName (Nat.le_of_lt wide) cut generation
              (row.mono recent)⟩
          · refine .inr ⟨n.start, ⟨stalls.failure, stalls.paged, stalls.inside, stalls.full⟩, ?_, .inr ?_⟩
            · exact Nat.le_trans (Nat.le_of_eq used) one
            · exact .of_cut lined unlike clippedName stalls.inside.1 cut generation (row.mono recent)

end

/-- Of children that the range reaches into, all get the permissions inside the range, or those below a cut
where the nodes have run out. -/
theorem overEach_permit_of_reaches (wide : target.start < target.stop)
    (paged : target.start % pageSize = 0) (lined : Forest.Lined e ns) (tidy : ∀ n ∈ ns, n.entry.Tidy)
    (clipped : ∀ n ∈ ns, n.entry.Clipped) (low : ∀ n ∈ ns, target.start < n.stop)
    (high : ∀ n ∈ ns, n.start < target.stop) (r : Resources PageTable) :
    (Progress.overEach (permit target access) r ns).Permits target access ns r := by
  have inner : (∀ n ∈ ns, n.Content access ∨ target.start ≤ n.start) →
      (Progress.overEach (permit target access) r ns).Permits target access ns r := by
    intro inner
    rcases overEach_permit lined tidy clipped inner high rfl with done | ⟨n, _, stalls, used, row⟩
    · exact .inl done
    · exact .inr ⟨n.start, stalls, Nat.le_succ_of_le (Nat.le_of_eq used), .inr row⟩
  cases ns with
  | nil => exact inner nofun
  | cons n ns =>
      obtain ⟨order, _⟩ := List.pairwise_cons.mp lined.apart
      have reaches := low n List.mem_cons_self
      by_cases first : n.Content access ∨ target.start ≤ n.start
      · refine inner (List.forall_mem_cons.mpr ⟨first, fun x hx => .inr ?_⟩)
        exact Nat.le_trans (Nat.le_of_lt reaches) (order x hx)
      · obtain ⟨content, below⟩ := not_or.mp first
        cases n with
        | region l children => exact absurd trivial content
        | mapping m =>
            exact overEach_permit_of_cut wide paged lined tidy clipped
              (List.forall_mem_cons.mp high).2 content (Nat.lt_of_not_le below) reaches rfl

end Resources

end RegionTree
