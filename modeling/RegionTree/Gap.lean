import RegionTree.Span

/-! The free ranges that children leave in a region, each from an aligned start. -/
namespace RegionTree

/-- Where an enumeration of gaps stands. `cursor` is the lowest aligned address that the children
passed so far leave free, and absent once the enumeration has ended. -/
structure GapScan where
  align : Nat
  stop : Nat
  cursor : Option Nat
  children : List Span
deriving DecidableEq

namespace GapScan

def between (region : Span) (children : List Span) (align : Nat) : GapScan :=
  ⟨align, region.stop, Address.ceilTo? region.start align, children⟩

def ofRegion (region : Span) (children : List Span) (align : Nat) : Except Breach GapScan :=
  if Address.isPowerOfTwo align then .ok (between region children align) else .error .gapAlignment

/-- The first gap from `cursor` on, and where the enumeration stands after it. -/
def advance (align stop : Nat) : Option Nat → List Span → Option Span × GapScan
  | none, children => (none, ⟨align, stop, none, children⟩)
  | some start, [] => (if start < stop then some ⟨start, stop⟩ else none, ⟨align, stop, none, []⟩)
  | some start, child :: rest =>
    let cursor := Address.ceilTo? child.stop align
    if start < child.start then (some ⟨start, child.start⟩, ⟨align, stop, cursor, rest⟩)
    else advance align stop cursor rest

def next (g : GapScan) : Option Span × GapScan := advance g.align g.stop g.cursor g.children

def collect (align stop : Nat) : Option Nat → List Span → List Span
  | none, _ => []
  | some start, [] => if start < stop then [⟨start, stop⟩] else []
  | some start, child :: rest =>
    let later := collect align stop (Address.ceilTo? child.stop align) rest
    if start < child.start then ⟨start, child.start⟩ :: later else later

def toList (g : GapScan) : List Span := collect g.align g.stop g.cursor g.children

def take : Nat → GapScan → List Span × GapScan
  | 0, g => ([], g)
  | count + 1, g =>
    match g.next with
    | (none, g) => ([], g)
    | (some gap, g) => let (gaps, g) := take count g; (gap :: gaps, g)

end GapScan
end RegionTree
