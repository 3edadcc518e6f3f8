import RegionTree.Node

/-! Visiting the nodes of a tree, each before what is below it, children in ascending order. -/
namespace RegionTree

mutual
def Node.outline (depth : Nat) : Node → List (Nat × Node)
  | .region l children => (depth, .region l children) :: Forest.outline (depth + 1) children
  | .mapping m => [(depth, .mapping m)]
def Forest.outline (depth : Nat) : Forest → List (Nat × Node)
  | [] => []
  | n :: rest => n.outline depth ++ Forest.outline depth rest
end

/-- What an observer knows, and whether it wants to see more. -/
inductive Visit (σ : Type) where
  | goOn (s : σ)
  | stop (s : σ)

abbrev Observer (σ : Type) := σ → Nat → Node → Visit σ

mutual
def Node.walk {σ : Type} (observer : Observer σ) (depth : Nat) (s : σ) : Node → Visit σ
  | .region l children =>
    match observer s depth (.region l children) with
    | .stop s => .stop s
    | .goOn s => Forest.walk observer (depth + 1) s children
  | .mapping m => observer s depth (.mapping m)
def Forest.walk {σ : Type} (observer : Observer σ) (depth : Nat) (s : σ) : Forest → Visit σ
  | [] => .goOn s
  | n :: rest =>
    match n.walk observer depth s with
    | .stop s => .stop s
    | .goOn s => Forest.walk observer depth s rest
end

end RegionTree
