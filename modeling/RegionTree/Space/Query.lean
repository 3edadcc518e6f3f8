import RegionTree.Node.Walk
import RegionTree.Space

/-! Questions to a space that leave it as it is. -/
namespace RegionTree.Space
variable {M : Type}

def childHolding (s : Space M) (region : Handle) (a : UInt64) : Except Failure Node := do
  let (_, children) ← s.liveRegion region
  match Forest.childAt? a.toNat children with
  | none => .error Error.notFound
  | some n => .ok n

def isFree (s : Space M) (region : Handle) (base size : UInt64) :
    Except Failure Bool := do
  ensure (size ≠ 0) .invalidArgument
  let (_, children) ← s.liveRegion region
  .ok (Forest.isFree base.toNat size.toNat children)

/-- The pages that mappings at or below a node cover, none for a node that is not alive. -/
def coveredPages (s : Space M) (h : Handle) : Except Failure Nat :=
  match s.liveNode h with
  | .ok n => .ok n.pages
  | .error (.error _) => .ok 0
  | .error (.breach b) => .error b

def profile (s : Space M) (h : Handle) : Except Failure Profile := (s.liveNode h).map Node.profile

def walk {σ : Type} (s : Space M) (region : Handle) (observer : Observer σ) (start : σ) :
    Except Failure (Visit σ) := do
  let (_, children) ← s.liveRegion region
  .ok (Forest.walk observer 0 start children)

end RegionTree.Space
