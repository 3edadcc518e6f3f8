/-! Lookups in a list that is ordered by a key. -/
namespace RegionTree.Index
variable {α : Type}

def startsBy (key : α → Nat) (a : Nat) : List α → Bool
  | [] => false
  | x :: _ => key x ≤ a

def atOrBelow? (key : α → Nat) (a : Nat) : List α → Option α
  | [] => none
  | x :: rest =>
    if startsBy key a rest then atOrBelow? key a rest
    else if key x ≤ a then some x
    else none

def above? (key : α → Nat) (a : Nat) (xs : List α) : Option α := xs.find? (a < key ·)

/-- Puts an element before the first that has a greater key. -/
def insert (key : α → Nat) (new : α) : List α → List α
  | [] => [new]
  | x :: rest => if key new < key x then new :: x :: rest else x :: insert key new rest

end RegionTree.Index
