import RegionTree.Placement.Basic

/-! First fit: the gaps in ascending order, the first that has room. -/
namespace RegionTree.Site
variable {M : Type} [Mmu M]

def lowestAfter (site : Site M) (r : Demand) (floor : Nat) :
    Option Neighbour → List Neighbour → Search
  | before, [] =>
    let look := site.inspect r floor before none
    match look.verdict with
    | .found spot => (Search.found spot).after look.events
    | _ => (Search.fail Error.noMemory).after look.events
  | before, child :: rest =>
    let look := site.inspect r floor before (some child)
    match look.verdict with
    | .found spot => (Search.found spot).after look.events
    | .halt => (Search.fail Error.noMemory).after look.events
    | .resume => (lowestAfter site r floor (some child) rest).after look.events

def lowestFrom (site : Site M) (r : Demand) (floor : Nat) : Search :=
  site.lowestAfter r floor none site.children

def firstFit (site : Site M) (r : Demand) : Search := site.lowestFrom r Address.minimum

end RegionTree.Site
