import RegionTree.Resources

/-! Reworking the children of a region: mappings are split, and a failure leaves what has been done. -/
namespace RegionTree

/-- Gives the upper part of a mapping to a new node. The caller shortens the old one. -/
def Resources.split {M : Type} (r : Resources M) (m : Mapping) (upper : Extent) :
    Outcome (Resources M) Mapping :=
  let (generation, r) := r.countGeneration
  match Address.add m.offset (upper.start - m.extent.start) with
  | .error f => .fail f r
  | .ok offset =>
    match r.allocate generation with
    | ⟨.error f, r⟩ => .fail f r
    | ⟨.ok handle, r⟩ =>
      .ok { m with handle, extent := upper, name := Name.clip m.name, offset }
        (r.note (.mappingSplit m.handle upper.start))

/-- What becomes of some children, of the resources, and what stopped the work. -/
structure Progress (M : Type) where
  children : Forest
  resources : Resources M
  failure : Option Failure

namespace Progress
variable {M : Type}

def after (done : Forest) (p : Progress M) : Progress M := { p with children := done ++ p.children }

def before (p : Progress M) (rest : Forest) : Progress M := { p with children := p.children ++ rest }

/-- Works on one child after the other until one fails. Those that follow stay as they are. -/
def overEach (step : Resources M → Node → Progress M) (r : Resources M) : Forest → Progress M
  | [] => ⟨[], r, none⟩
  | n :: rest =>
    let p := step r n
    match p.failure with
    | some _ => p.before rest
    | none => (overEach step p.resources rest).after p.children

end Progress
end RegionTree
