import RegionTree.Span
import RegionTree.Flags.Page

/-! Memory objects back mappings with pages. An object hands out the frames of its pages in one row;
which pages it has handed out is kept apart, since spaces share objects. -/
namespace RegionTree

/-- An object of `size` bytes. Its key tells it from all others. -/
structure MemoryObject where
  key : Nat
  size : Nat
  policy : Option CachePolicy
  /-- For the system image, the only part that may be mapped executable. -/
  code : Option Span
  /-- No page is ever handed out. -/
  refuses : Bool
deriving DecidableEq

/-- A page handed out, and whether ever for writing. -/
structure Commitment where
  object : Nat
  offset : Nat
  written : Bool
deriving DecidableEq

abbrev Commitments := List Commitment

namespace Commitment

def record (object offset : Nat) (write : Bool) : Commitments → Commitments
  | [] => [⟨object, offset, write⟩]
  | c :: rest =>
    if c.object = object ∧ c.offset = offset then { c with written := c.written || write } :: rest
    else if object < c.object ∨ object = c.object ∧ offset < c.offset then
      ⟨object, offset, write⟩ :: c :: rest
    else c :: record object offset write rest

def ofObject (object : Nat) (commitments : Commitments) : List (Nat × Bool) :=
  (commitments.filter (·.object == object)).map fun c => (c.offset, c.written)

end Commitment

namespace MemoryObject

def frameBase : Nat := 0x80000000

def frameAt (_ : MemoryObject) (offset : Nat) : Except Breach Nat := Address.add frameBase offset

def commit (o : MemoryObject) (offset : Nat) (write : Bool) (commitments : Commitments) :
    Outcome Commitments Nat :=
  if o.refuses then .fail (Error.noMemory : Failure) commitments
  else if o.size ≤ offset then .fail (Error.notFound : Failure) commitments
  else
    let offset := Address.page offset
    let commitments := Commitment.record o.key offset write commitments
    match o.frameAt offset with
    | .ok frame => .ok frame commitments
    | .error f => .fail f commitments

end MemoryObject
end RegionTree
