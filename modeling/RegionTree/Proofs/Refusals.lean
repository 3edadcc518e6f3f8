import RegionTree.Proofs.Run
import RegionTree.Space.Query

/-! What calls and questions through a handle answer whose node is not alive. -/
namespace RegionTree
variable {M : Type}

/-- The arguments pass the checks that are made before the node is looked up. -/
def Operation.isSensible : Operation → Bool
  | .addRegion _ sketch =>
    sketch.size.toNat % pageSize == 0 && RegionFlags.forRegions.contains sketch.flags
  | .addMapping _ sketch _ offset _ =>
    RegionFlags.forMappings.contains sketch.flags && offset.toNat % pageSize == 0 &&
      !(Address.add? offset.toNat (Address.wholePages sketch.size.toNat)).isNone
  | .unmap _ base size | .protect _ base size _ =>
    Address.wholePages size.toNat != 0 && Address.isAligned base.toNat pageSize
  | .resolve _ _ flags => flags.isConsistent
  | .destroy _ | .find _ _ | .report _ _ => true

namespace Space
variable {s : Space M}

/-- What calls through a handle answer whose node is not alive. None of them changes anything. -/
structure Denies [Mmu M] (s : Space M) (h : Handle) : Prop where
  call : ∀ commitments op, op.subject = h → (∀ depth, op ≠ .report h depth) →
    s.perform commitments op =
      .fail (if op.isSensible then Error.badState else Error.invalidArgument) (s, commitments)
  report : ∀ depth, s.reportListing h depth =
    .ok () { s with resources := s.resources.note (.listingFailed .badState) }
  listing : ∀ depth budget, s.listing h depth budget = .error Error.badState
  profile : s.profile h = .error Error.badState
  isFree : ∀ base size, s.isFree h base size =
    .error (if size = 0 then Error.invalidArgument else Error.badState)
  walk : ∀ {σ : Type} (observer : Observer σ) (start : σ), s.walk h observer start = .error Error.badState
  pages : s.coveredPages h = .ok 0

theorem refusal {σ α : Type} {p : Prop} [Decidable p] {sensible : Bool} (check : p ↔ sensible = false)
    (s : σ) : (if p then .fail Error.invalidArgument s else .fail Error.badState s : Outcome σ α) =
      .fail (if sensible then Error.badState else Error.invalidArgument) s := by
  cases sensible <;> simp [check]

theorem range_insensible (base size : UInt64) :
    Address.wholePages size.toNat = 0 ∨ !Address.isAligned base.toNat pageSize ↔
      (Address.wholePages size.toNat != 0 && Address.isAligned base.toNat pageSize) = false := by
  simp [imp_iff_not_or]

theorem perform_badState [Mmu M] {commitments : Commitments} {op : Operation}
    (live : s.liveNode op.subject = .error Error.badState) (other : ∀ h depth, op ≠ .report h depth) :
    s.perform commitments op =
      .fail (if op.isSensible then Error.badState else Error.invalidArgument) (s, commitments) := by
  have region : s.liveRegion op.subject = .error Error.badState := by rw [liveRegion, live]
  cases op with
  | addRegion parent sketch =>
      have check : sketch.size.toNat % pageSize ≠ 0 ∨ !RegionFlags.forRegions.contains sketch.flags ↔
          (Operation.addRegion parent sketch).isSensible = false := by
        simp [Operation.isSensible, imp_iff_not_or]
      rw [Operation.subject] at region
      simp only [perform, addRegion, add, region, refusal check]
      rfl
  | addMapping parent sketch object offset access =>
      have check : !RegionFlags.forMappings.contains sketch.flags ∨ offset.toNat % pageSize ≠ 0 ∨
          (Address.add? offset.toNat (Address.wholePages sketch.size.toNat)).isNone ↔
            (Operation.addMapping parent sketch object offset access).isSensible = false := by
        simp [Operation.isSensible, imp_iff_not_or, or_assoc]
      rw [Operation.subject] at region
      simp only [perform, addMapping, add, region, refusal check]
      rfl
  | unmap parent base size =>
      rw [Operation.subject] at region
      have target : ∀ length, s.unmapTarget parent base.toNat length false = .error Error.badState := by
        intro length
        rw [unmapTarget, region]
        rfl
      simp only [perform, unmap, unmapRange, target, refusal (range_insensible base size)]
      rfl
  | protect parent base size access =>
      rw [Operation.subject] at region
      have target : ∀ length, s.protectTarget parent base.toNat length access = .error Error.badState := by
        intro length
        rw [protectTarget, region]
        rfl
      simp only [perform, protect, target, refusal (range_insensible base size)]
      rfl
  | destroy node =>
      rw [Operation.subject] at live
      rw [perform, destroy, live]
      rfl
  | resolve parent address flags =>
      have check : !flags.isConsistent ↔ (Operation.resolve parent address flags).isSensible = false := by
        simp [Operation.isSensible]
      rw [Operation.subject] at region
      have target : s.accessTarget parent address.toNat flags = ⟨.error Error.badState, s⟩ := by
        rw [accessTarget, region]
        rfl
      simp only [perform, resolveBelow, target, refusal check]
      rfl
  | find parent address =>
      rw [Operation.subject] at region
      rw [perform, childHolding, region]
      rfl
  | report node depth => exact absurd rfl (other node depth)

theorem liveNode_of_gone {h : Handle} (known : h.slot < s.resources.fresh) (gone : s.node? h = none) :
    s.liveNode h = .error Error.badState := by
  rw [liveNode, if_neg (Nat.not_le.mpr known), gone]

theorem denies_of_gone [Mmu M] {h : Handle} (known : h.slot < s.resources.fresh)
    (gone : s.node? h = none) : s.Denies h := by
  have live := liveNode_of_gone known gone
  have region : s.liveRegion h = .error Error.badState := by rw [liveRegion, live]
  have listing : ∀ depth budget, s.listing h depth budget = .error Error.badState := by
    intro depth budget
    rw [Space.listing, live]
    rfl
  refine ⟨?_, fun depth => ?_, listing, ?_, fun base size => ?_, fun observer start => ?_, ?_⟩
  · rintro commitments op rfl other
    exact perform_badState live fun h depth same => other depth (same ▸ rfl)
  · rw [reportListing, listing]
  · rw [Space.profile, live]
    rfl
  · by_cases none : size = 0 <;> simp [Space.isFree, ensure, none, region, bind, Except.bind]
  · rw [Space.walk, region]
    rfl
  · rw [coveredPages, live]

end Space
end RegionTree
