import RegionTree.Placement.Compact

/-! The place for a new child. -/
namespace RegionTree.Site
variable {M : Type} [Mmu M]

def byPolicy (site : Site M) (r : Demand) (clustered : Bool) (entropy : Entropy) :
    Search × Entropy :=
  if !entropy.isOn then (site.firstFit r, entropy)
  else if clustered then site.compact r entropy
  else site.uniform r entropy

def choose (site : Site M) (r : Demand) (clustered : Bool) (entropy : Entropy) :
    Search × Entropy :=
  let (found, entropy) := site.byPolicy r clustered entropy
  match found.answer with
  | .error _ => (found, entropy)
  | .ok spot =>
    let notice := Notice.spotPicked spot r.size r.align site.region.toSpan
    ({ found with events := found.events ++ [.notice notice] }, entropy)

end RegionTree.Site
