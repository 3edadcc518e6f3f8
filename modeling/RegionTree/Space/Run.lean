import RegionTree.Space.Add
import RegionTree.Space.Listing
import RegionTree.Space.PageFault
import RegionTree.Space.Protect
import RegionTree.Space.Query

/-! The calls of a space, as data, and what a sequence of them does. -/
namespace RegionTree

inductive Operation where
  | addRegion (parent : Handle) (sketch : Sketch)
  | addMapping (parent : Handle) (sketch : Sketch) (object : MemoryObject) (offset : UInt64)
      (access : PageFlags)
  | unmap (region : Handle) (base size : UInt64)
  | protect (region : Handle) (base size : UInt64) (access : PageFlags)
  | destroy (node : Handle)
  | resolve (region : Handle) (address : UInt64) (flags : FaultFlags)
  | find (region : Handle) (address : UInt64)
  | report (node : Handle) (depth : UInt64)

namespace Space
variable {M : Type} [Mmu M]

/-- Makes a call of a space whose objects have handed out some pages. A node that is made or found is
answered by its handle. -/
def perform (s : Space M) (commitments : Commitments) :
    Operation → Outcome (Space M × Commitments) (Option Handle)
  | .addRegion parent sketch => ((s.addRegion parent sketch).map some).beside commitments
  | .addMapping parent sketch object offset access =>
    ((s.addMapping parent sketch object offset access).map some).beside commitments
  | .unmap region base size => ((s.unmap region base size).map fun _ => none).beside commitments
  | .protect region base size access =>
    ((s.protect region base size access).map fun _ => none).beside commitments
  | .destroy node => ((s.destroy node).map fun _ => none).beside commitments
  | .resolve region address flags =>
    (s.resolveBelow commitments region address flags).map fun _ => none
  | .find region address =>
    ⟨(s.childHolding region address).map (some ·.handle), s, commitments⟩
  | .report node depth => ((s.reportListing node depth).map fun _ => none).beside commitments

def run : Space M × Commitments → List Operation → Space M × Commitments
  | w, [] => w
  | w, op :: rest => run (w.1.perform w.2 op).state rest

end Space
end RegionTree
