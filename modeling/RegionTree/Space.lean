import RegionTree.Node.Lookup
import RegionTree.Node.Edit
import RegionTree.Random.Entropy
import RegionTree.Resources.Destroy

/-! An address space: one tree of regions and mappings with all that it needs to live. -/
namespace RegionTree

structure Space (M : Type) where
  kind : SpaceKind
  root : Handle
  /-- Gone once the root is destroyed. -/
  tree : Option Node
  entropy : Entropy
  resources : Resources M

structure SpaceConfig where
  kind : SpaceKind
  start : UInt64
  stop : UInt64
  /-- What the root has besides all permissions. -/
  rootFlags : RegionFlags
  maxNodes : Nat

def SpaceConfig.defaultMaxNodes : Nat := 1 <<< 16

def SpaceConfig.flags (c : SpaceConfig) : RegionFlags :=
  let flags := c.rootFlags ∪ RegionFlags.mapAll
  match c.kind with
  | .user => flags
  | .kernel => flags ∪ RegionFlags.mapSpecific

namespace Space
variable {M : Type}

def new (mmu : M) (c : SpaceConfig) (entropy : Entropy) : Except Error (Space M) :=
  match Extent.ofSpan? ⟨c.start.toNat, c.stop.toNat⟩ with
  | none => .error .invalidArgument
  | some extent =>
    if Address.isAligned extent.start pageSize ∧ Address.isAligned extent.stop pageSize ∧
        0 < c.maxNodes then
      let root : Handle := ⟨0, 0⟩
      let resources : Resources M := ⟨c.maxNodes, 1, [], 1, none, mmu, []⟩
      .ok {
        kind := c.kind
        root
        tree := some (.region ⟨root, extent, c.flags, "root"⟩ [])
        entropy
        resources := resources.note (.spaceCreated c.kind root c.flags) }
    else .error .invalidArgument

def isRandomized (s : Space M) : Bool := s.entropy.isOn

def takeJournal (s : Space M) : List Event × Space M :=
  (s.resources.journal.reverse, { s with resources := { s.resources with journal := [] } })

def node? (s : Space M) (h : Handle) : Option Node := s.tree.bind (Node.find? h)

/-- As `node?`, for a handle of this space whose node has to be alive. -/
def liveNode (s : Space M) (h : Handle) : Except Failure Node :=
  if s.resources.fresh ≤ h.slot then .error Breach.foreignHandle
  else
    match s.node? h with
    | some n => .ok n
    | none => .error Error.badState

def liveRegion (s : Space M) (h : Handle) : Except Failure (Label × Forest) :=
  match s.liveNode h with
  | .error f => .error f
  | .ok (.region l children) => .ok (l, children)
  | .ok (.mapping _) => .error Error.badState

def withChildren (s : Space M) (region : Handle) (children : Forest) : Space M :=
  { s with tree := s.tree.map (Node.withChildren region children) }

/-- Destroys a node and all below it. The system image goes only with a region around it. -/
def destroy [Mmu M] (s : Space M) (h : Handle) : Outcome (Space M) Unit :=
  match s.liveNode h with
  | .error f => .fail f s
  | .ok n =>
    if s.resources.image = some h then .fail Error.accessDenied s
    else
      .ok () { s with
        tree := s.tree.bind fun t => if t.handle = h then none else some (t.erase h)
        resources := n.destroy s.resources }

end Space
end RegionTree
