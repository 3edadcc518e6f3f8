import RegionTree.Node

/-! Changes of a tree at one handle. -/
namespace RegionTree

mutual
def Node.withChildren (region : Handle) (children : Forest) : Node → Node
  | .region l old =>
    if l.handle = region then .region l children
    else .region l (Forest.withChildren region children old)
  | .mapping m => .mapping m
def Forest.withChildren (region : Handle) (children : Forest) : Forest → Forest
  | [] => []
  | n :: rest => n.withChildren region children :: Forest.withChildren region children rest
end

mutual
def Node.erase (h : Handle) : Node → Node
  | .region l children => .region l (Forest.erase h children)
  | .mapping m => .mapping m
def Forest.erase (h : Handle) : Forest → Forest
  | [] => []
  | n :: rest =>
    if n.handle = h then Forest.erase h rest else n.erase h :: Forest.erase h rest
end

end RegionTree
