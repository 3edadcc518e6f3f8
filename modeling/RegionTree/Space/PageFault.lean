import RegionTree.Space

/-! Resolving page faults: the page of the object that a mapping shows is committed and translated. -/
namespace RegionTree.Space
variable {M : Type}

/-- The mapping that an access meets, found to allow it. A refusal is reported. -/
def accessTarget (s : Space M) (region : Handle) (a : Nat) (flags : FaultFlags) :
    Outcome (Space M) Mapping :=
  match s.liveRegion region with
  | .error f => .fail f s
  | .ok (_, children) =>
    match Forest.mappingAt? a children with
    | none => .fail Error.notFound s
    | some m =>
      if m.access.contains flags.accessNeeded then .ok m s
      else
        .fail Error.accessDenied
          { s with resources := s.resources.note (.faultDenied a flags m.access) }

def objectOffset (m : Mapping) (a : Nat) : Except Failure Nat :=
  match Address.distance (Address.page a) m.extent.start with
  | .error f => .error f
  | .ok distance =>
    match Address.add m.offset distance with
    | .error f => .error f
    | .ok offset => if m.object.size ≤ offset then .error Error.notFound else .ok offset

variable [Mmu M]

/-- Resolves a fault below a region. The page counts as committed also if it cannot be translated. -/
def resolveBelow (s : Space M) (commitments : Commitments) (region : Handle) (a : UInt64)
    (flags : FaultFlags) : Outcome (Space M × Commitments) Unit :=
  let a := a.toNat
  if !flags.isConsistent then .fail Error.invalidArgument (s, commitments)
  else
    match s.accessTarget region a flags with
    | ⟨.error f, s⟩ => .fail f (s, commitments)
    | ⟨.ok m, s⟩ =>
      match objectOffset m a with
      | .error f => .fail f (s, commitments)
      | .ok offset =>
        match m.object.commit offset flags.isWrite commitments with
        | ⟨.error f, commitments⟩ => .fail f (s, commitments)
        | ⟨.ok frame, commitments⟩ =>
          let page := Address.page a
          let r := s.resources.note (.faultResolved a flags page frame)
          let o := r.mapPage page frame m.access
          ⟨o.answer, { s with resources := o.state }, commitments⟩

def resolve (s : Space M) (commitments : Commitments) (a : UInt64) (flags : FaultFlags) :
    Outcome (Space M × Commitments) Unit :=
  s.resolveBelow commitments s.root a flags

end RegionTree.Space
