import RegionTree.Placement.Uniform

/-! Compact placement: next to the cluster of children, at a random distance that is halved until a
place fits. -/
namespace RegionTree

inductive Side where
  | below
  | above
deriving DecidableEq

def Side.other : Side → Side
  | .below => .above
  | .above => .below

namespace Site
variable {M : Type} [Mmu M]

/-- A distance in pages and its halves, down to one page. -/
def halvings (pages : Nat) : List Nat := ((List.range 8).map (pages >>> ·)).takeWhile (0 < ·)

/-- The lowest bit of a byte chooses a side, the others a distance. Each distance is tried on that
side first and then on the other. -/
def attempts (byte : Nat) : List (Side × Nat) :=
  let side : Side := if byte % 2 = 1 then .below else .above
  (halvings (byte / 2 + 1)).flatMap fun pages => [(side, pages), (side.other, pages)]

def inspectSide (site : Site M) (r : Demand) (first last : Neighbour) (side : Side)
    (pages : Nat) : Inspection :=
  match side with
  | .below =>
    match (Address.sub? first.extent.start r.size).bind
        (Address.sub? · (pages * pageSize)) with
    | none => ⟨[], .resume⟩
    | some floor => site.inspect r floor none (some first)
  | .above =>
    match Address.add? last.extent.stop (pages * pageSize) with
    | none => ⟨[], .resume⟩
    | some floor => site.inspect r floor (some last) none

def firstAttempt (site : Site M) (r : Demand) (first last : Neighbour) :
    List (Side × Nat) → Search
  | [] => .fail Error.noMemory
  | (side, pages) :: rest =>
    let look := site.inspectSide r first last side pages
    match look.verdict with
    | .found spot => (Search.found spot).after look.events
    | _ => (firstAttempt site r first last rest).after look.events

/-- A place next to the children. A region without any has no cluster to join. -/
def compact (site : Site M) (r : Demand) (entropy : Entropy) : Search × Entropy :=
  match site.children.head?, site.children.getLast? with
  | some first, some last =>
    let (byte, entropy) := entropy.byte
    (site.firstAttempt r first last (attempts (byte.getD 0)), entropy)
  | _, _ => site.uniform r entropy

end Site
end RegionTree
