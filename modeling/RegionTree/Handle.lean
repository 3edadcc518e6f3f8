/-! Handles name nodes. A slot is used again after its node is gone, a generation never is. -/
namespace RegionTree

/-- The slot of a node and the generation that it was made in. -/
structure Handle where
  slot : Nat
  generation : Nat
deriving DecidableEq

def Handle.describe (h : Handle) : String :=
  "NodeRef \x7b id: Id(" ++ toString h.slot ++ "), generation: " ++ toString h.generation ++ " \x7d"

inductive NodeKind where
  | region
  | mapping
deriving DecidableEq

def NodeKind.display : NodeKind → String
  | .region => "region"
  | .mapping => "mapping"

end RegionTree
