import RegionTree.Gap
import RegionTree.Index
import RegionTree.Placement.FirstFit
import RegionTree.Random.Entropy

/-! Uniform placement: all aligned places in all gaps are counted, and one of them is drawn. -/
namespace RegionTree

namespace Demand

def countPlaces (r : Demand) : Nat → List Span → Except Failure Nat
  | count, [] => .ok count
  | count, gap :: rest =>
    match Address.add? count (r.placesIn gap) with
    | none => .error (.error (.internal "candidate spot count overflowed"))
    | some count => countPlaces r count rest

/-- The place with the given index among those in some gaps, in ascending order. -/
def nthPlace? (r : Demand) : Nat → List Span → Option Nat
  | _, [] => none
  | index, gap :: rest =>
    if index < r.placesIn gap then some (gap.start + index * r.align)
    else nthPlace? r (index - r.placesIn gap) rest

end Demand

namespace Site
variable {M : Type} [Mmu M]

def gaps (site : Site M) (r : Demand) : List Span :=
  (GapScan.between site.region.toSpan (site.children.map (·.extent.toSpan)) r.align).toList

/-- Takes the drawn place if the mmu has nothing against it, and otherwise the next above that it
accepts, or else the lowest of all. -/
def settle (site : Site M) (r : Demand) (spot : Nat) : Search :=
  match Address.add spot (r.size - 1) with
  | .error f => .fail f
  | .ok last =>
    let start := fun child : Neighbour => child.extent.start
    let look := site.inspect r spot (Index.atOrBelow? start last site.children)
      (Index.above? start last site.children)
    match look.verdict with
    | .found spot => (Search.found spot).after look.events
    | _ =>
      ((site.lowestFrom r spot).orElse (site.firstFit r)).after
        (look.events ++ [.notice (.spotRejected spot)])

def placeNth (site : Site M) (r : Demand) (index count : Nat) : Search :=
  match r.nthPlace? index (site.gaps r) with
  | none => .fail (Breach.indexBeyondGaps index count)
  | some spot => if spot < Address.limit then site.settle r spot else .fail Breach.addOverflow

def uniform (site : Site M) (r : Demand) (entropy : Entropy) : Search × Entropy :=
  match r.countPlaces 0 (site.gaps r) with
  | .error f => (.fail f, entropy)
  | .ok count =>
    if count = 0 then (.fail Error.noMemory, entropy)
    else
      let (index, entropy) := entropy.uniform count
      (site.placeNth r (index.getD 0) count, entropy)

end Site
end RegionTree
