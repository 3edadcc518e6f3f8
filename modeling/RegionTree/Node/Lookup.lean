import RegionTree.Index
import RegionTree.Node

/-! Finding nodes: by handle in a whole tree, by address among children and below them. -/
namespace RegionTree

mutual
def Node.find? (wanted : Handle) : Node → Option Node
  | .region l children =>
    if l.handle = wanted then some (.region l children) else Forest.find? wanted children
  | .mapping m => if m.handle = wanted then some (.mapping m) else none
def Forest.find? (wanted : Handle) : Forest → Option Node
  | [] => none
  | n :: rest => (n.find? wanted).or (Forest.find? wanted rest)
end

namespace Forest

def childAt? (a : Nat) (children : Forest) : Option Node :=
  (Index.atOrBelow? Node.start a children).filter (·.extent.contains a)

/-- No child touches the `size` bytes from `base` on. -/
def isFree (base size : Nat) (children : Forest) : Bool :=
  if (Index.atOrBelow? Node.start base children).any (base < ·.stop) then false
  else
    match Index.above? Node.start base children with
    | none => true
    | some next =>
      match Address.add? base (size - 1) with
      | none => false
      | some last => last < next.start

/-- Children divided by a range: those before it, those that reach into it, those behind it. -/
structure Slice where
  before : Forest
  inside : Forest
  behind : Forest

def slice (target : Span) (children : Forest) : Slice :=
  let reaching := children.dropWhile (·.stop ≤ target.start)
  { before := children.takeWhile (·.stop ≤ target.start)
    inside := reaching.takeWhile (·.start < target.stop)
    behind := reaching.dropWhile (·.start < target.stop) }

/-- Where the children begin that may reach into a range: with the last that starts at or below its start,
if that one reaches into it, or else with the start itself. -/
def firstKey (target : Span) (children : Forest) : Nat :=
  ((Index.atOrBelow? Node.start target.start children).filter (target.start < ·.stop)).elim target.start
    Node.start

end Forest

mutual
/-- The mapping that holds an address, for a node that holds it. -/
def Node.mappingAt? (a : Nat) : Node → Option Mapping
  | .region _ children => Forest.mappingAt? a children
  | .mapping m => some m
/-- Descends from the last child that starts at or below the address. -/
def Forest.mappingAt? (a : Nat) : Forest → Option Mapping
  | [] => none
  | n :: rest =>
    if Index.startsBy Node.start a rest then Forest.mappingAt? a rest
    else if n.extent.contains a then n.mappingAt? a
    else none
end

mutual
def Node.pages : Node → Nat
  | .region _ children => Forest.pages children
  | .mapping m => m.extent.length / pageSize
def Forest.pages : Forest → Nat
  | [] => 0
  | n :: rest => n.pages + Forest.pages rest
end

end RegionTree
