import RegionTree.Handle
import RegionTree.MemoryObject
import RegionTree.Text.Name

/-! Nodes of the tree. Regions hold their children in ascending order, mappings are leaves. -/
namespace RegionTree

structure Label where
  handle : Handle
  extent : Extent
  flags : RegionFlags
  name : String

/-- A piece of a memory object, from `offset` on, seen through the node's range. -/
structure Mapping extends Label where
  object : MemoryObject
  offset : Nat
  access : PageFlags

inductive Node where
  | region (label : Label) (children : List Node)
  | mapping (m : Mapping)

abbrev Forest := List Node

structure Profile where
  extent : Extent
  flags : RegionFlags
  name : String
  kind : NodeKind
  access : Option PageFlags
  offset : Option Nat

namespace Node

def label : Node → Label
  | .region l _ => l
  | .mapping m => m.toLabel

def handle (n : Node) : Handle := n.label.handle
def extent (n : Node) : Extent := n.label.extent
def start (n : Node) : Nat := n.extent.start
def stop (n : Node) : Nat := n.extent.stop

def kind : Node → NodeKind
  | .region _ _ => .region
  | .mapping _ => .mapping

def isRegion : Node → Bool
  | .region _ _ => true
  | .mapping _ => false

def access? : Node → Option PageFlags
  | .region _ _ => none
  | .mapping m => some m.access

def profile (n : Node) : Profile where
  extent := n.extent
  flags := n.label.flags
  name := n.label.name
  kind := n.kind
  access := n.access?
  offset := match n with
    | .region _ _ => none
    | .mapping m => some m.offset

end Node
end RegionTree
