import RegionTree.Proofs.Add
import RegionTree.Proofs.PageFault
import RegionTree.Proofs.Protect
import RegionTree.Space.Run

/-! Runs: every call of a space that is kept leaves one that is kept. -/
namespace RegionTree
variable {M : Type}

def Operation.purpose : Operation → Purpose
  | .protect _ _ _ access => .permit access
  | .resolve _ _ _ => .translate
  | _ => .shape

def Operation.subject : Operation → Handle
  | .addRegion h _ | .addMapping h _ _ _ _ | .unmap h _ _ | .protect h _ _ _ | .destroy h
  | .resolve h _ _ | .find h _ | .report h _ => h

def Operation.makes : Operation → Bool
  | .addRegion _ _ | .addMapping _ _ _ _ _ => true
  | _ => false

/-- The nodes that a call lets join, each with the region that it may become a child of. -/
def Operation.LetsIn : Operation → Label → Entry → Prop
  | .addRegion parent sketch => sketch.region.LetsIn parent
  | .addMapping parent sketch object offset access =>
    (sketch.mapping object offset access).LetsIn parent
  | _ => fun _ _ => False

theorem Operation.LetsIn.makes {op : Operation} {l : Label} {e : Entry} (h : op.LetsIn l e) : op.makes := by
  cases op with
  | addRegion | addMapping => rfl
  | _ => cases h

namespace Space

theorem new_tree {mmu : M} {c : SpaceConfig} {entropy : Entropy} {s : Space M}
    (new : Space.new mmu c entropy = .ok s) : ∃ l, s.tree = some (.region l []) := by
  simp only [Space.new] at new
  split at new
  · cases new
  · split at new <;> cases new
    exact ⟨_, rfl⟩

theorem new_kept {mmu : M} {c : SpaceConfig} {entropy : Entropy} {s : Space M}
    (new : Space.new mmu c entropy = .ok s) : s.Kept [] := by
  simp only [Space.new] at new
  split at new
  · cases new
  · next extent _ =>
      split at new
      · next valid =>
          cases new
          refine ⟨?_, ?_, ⟨⟨?_, ?_, ?_, ?_, ?_, ?_⟩, nofun⟩⟩
          · rintro _ ⟨⟩
            exact .region (Forest.lined_nil _) (by simp)
          · rintro _ ⟨⟩
            exact ⟨rfl, rfl⟩
          · exact .refl _
          · simp [entries, Node.entries, Resources.note, Resources.report]
          · simp [entries, Node.entries]
          · exact valid.2.2
          · have paged : extent.Paged := ⟨by simpa [Address.isAligned] using valid.1,
              by simpa [Address.isAligned] using valid.2.1⟩
            simpa [entries, Node.entries, Entry.Tidy] using paged
          · simp [entries, Node.entries]
      · cases new

variable [Mmu M]

theorem report_clean {s : Space M} (kept : s.Kept []) (h : Handle) (depth : UInt64) :
    s.Clean .shape (s.reportListing h depth) := by
  simp only [reportListing]
  split
  · exact .ok (.quiet kept (s.resources.quiet_reportAll _)) ()
  · exact .ok (.quiet kept (s.resources.quiet_note _)) ()
  · exact .fail kept _

/-- A call leaves a space that is kept, whatever it answers. -/
theorem perform_follows (picks : Mmu.PicksPages M) {s : Space M} (kept : s.Kept [])
    (commitments : Commitments) (op : Operation) :
    s.Follows op.purpose [] [] (s.perform commitments op).state.1 := by
  cases op with
  | addRegion parent sketch =>
      simp only [perform, Outcome.beside, Outcome.map]
      exact (addRegion_creates picks kept parent sketch).follows
  | addMapping parent sketch object offset access =>
      simp only [perform, Outcome.beside, Outcome.map]
      exact (addMapping_creates picks kept parent sketch object offset access).follows
  | unmap region base size =>
      simp only [perform, Outcome.beside, Outcome.map]
      exact (unmap_clean kept region base size).follows
  | protect region base size access =>
      simp only [perform, Outcome.beside, Outcome.map]
      exact (protect_reworked kept region base size access).follows
  | destroy node =>
      simp only [perform, Outcome.beside, Outcome.map]
      exact (destroy_clean kept node).follows
  | resolve region address flags =>
      simp only [perform, Outcome.map]
      exact resolveBelow_follows kept commitments region address flags
  | find region address => exact .refl kept
  | report node depth =>
      simp only [perform, Outcome.beside, Outcome.map]
      exact (report_clean kept node depth).follows

/-- Whatever a call answers, each node afterwards is left of an old one or was let in. -/
theorem perform_passes (picks : Mmu.PicksPages M) {s : Space M} (kept : s.Kept [])
    (commitments : Commitments) (op : Operation) :
    s.Passes s.resources.nextGeneration op.LetsIn (s.perform commitments op).state.1 := by
  cases op with
  | addRegion parent sketch =>
      simp only [perform, Outcome.beside, Outcome.map]
      exact (addRegion_creates picks kept parent sketch).passes.mono fun _ _ => And.left
  | addMapping parent sketch object offset access =>
      simp only [perform, Outcome.beside, Outcome.map]
      exact (addMapping_creates picks kept parent sketch object offset access).passes.mono fun _ _ =>
        And.left
  | unmap region base size =>
      simp only [perform, Outcome.beside, Outcome.map]
      exact (unmap_reworked kept region base size).passes
  | protect region base size access =>
      simp only [perform, Outcome.beside, Outcome.map]
      exact (protect_reworked kept region base size access).passes
  | destroy node =>
      simp only [perform, Outcome.beside, Outcome.map]
      exact destroy_passes kept node
  | resolve region address flags =>
      simp only [perform, Outcome.map]
      exact .of_tree (resolveBelow_tree kept commitments region address flags)
  | find region address => exact .of_tree rfl
  | report node depth =>
      simp only [perform, Outcome.beside, Outcome.map, reportListing]
      split <;> exact .of_tree rfl

theorem perform_creates (picks : Mmu.PicksPages M) {s : Space M} (kept : s.Kept [])
    (commitments : Commitments) {op : Operation} (makes : op.makes) :
    ∃ o : Outcome (Space M) Handle, s.perform commitments op = (o.map some).beside commitments ∧
      s.Creates op.LetsIn o := by
  cases op with
  | addRegion parent sketch => exact ⟨_, rfl, addRegion_creates picks kept parent sketch⟩
  | addMapping parent sketch object offset access =>
      exact ⟨_, rfl, addMapping_creates picks kept parent sketch object offset access⟩
  | _ => cases makes

/-- A node that was let in is the one that the call answers. -/
theorem perform_passes_answered (picks : Mmu.PicksPages M) {s : Space M} (kept : s.Kept [])
    (commitments : Commitments) (op : Operation) :
    s.Passes s.resources.nextGeneration
      (fun l e => op.LetsIn l e ∧ (s.perform commitments op).answer = .ok (some e.handle))
      (s.perform commitments op).state.1 := by
  by_cases makes : op.makes
  · obtain ⟨o, same, creates⟩ := perform_creates picks kept commitments makes
    rw [same]
    exact creates.passes.mono fun _ _ made => ⟨made.1, congrArg (Except.map some) made.2⟩
  · exact (perform_passes picks kept commitments op).mono fun _ _ lets => absurd lets.makes makes

theorem run_append (w : Space M × Commitments) (ops ops' : List Operation) :
    run w (ops ++ ops') = run (run w ops) ops' := by
  induction ops generalizing w with
  | nil => rfl
  | cons op ops ih => exact ih _

/-- What a call keeps, if the space is kept, holds after every run. -/
theorem run_induction (picks : Mmu.PicksPages M) {P : Space M → Prop} (ops : List Operation)
    (step : ∀ s commitments, ∀ op ∈ ops, s.Kept [] → P s → P (s.perform commitments op).state.1)
    {w : Space M × Commitments} (kept : w.1.Kept []) (start : P w.1) :
    (run w ops).1.Kept [] ∧ P (run w ops).1 := by
  induction ops generalizing w with
  | nil => exact ⟨kept, start⟩
  | cons op ops ih =>
      refine ih (fun s commitments x hx => step s commitments x (List.mem_cons_of_mem _ hx))
        (perform_follows picks kept w.2 op).kept ?_
      exact step w.1 w.2 op List.mem_cons_self kept start

theorem run_kept (picks : Mmu.PicksPages M) {w : Space M × Commitments} (kept : w.1.Kept [])
    (ops : List Operation) : (run w ops).1.Kept [] :=
  (run_induction (P := fun _ => True) picks ops (fun _ _ _ _ _ _ => trivial) kept trivial).1

/-- What holds of what is let in, and of all that is left of it, holds of all children after every run. -/
theorem run_forall_links (picks : Mmu.PicksPages M) {P : Label → Entry → Prop} {mmu : M} {c : SpaceConfig}
    {entropy : Entropy} {s : Space M} (new : Space.new mmu c entropy = .ok s) (commitments : Commitments)
    (ops : List Operation) (joined : ∀ op ∈ ops, ∀ l e, op.LetsIn l e → P l e)
    (heirs : ∀ g l e part, P l e → e.Heir g part → P l part) :
    ∀ x ∈ (run (s, commitments) ops).1.links, P x.1 x.2 := by
  obtain ⟨l, tree⟩ := new_tree new
  have start : ∀ x ∈ s.links, P x.1 x.2 := by
    rw [links_eq tree]
    exact nofun
  refine (run_induction (P := fun s => ∀ x ∈ s.links, P x.1 x.2) picks ops ?_ (new_kept new) start).2
  intro s commitments op given kept before
  exact (perform_passes picks kept commitments op).forall_links before (heirs _) (joined op given)

end Space
end RegionTree
