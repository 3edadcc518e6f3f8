import RegionTree.Address

/-! Half-open ranges of addresses. A span may be empty or reversed; an `Extent` is neither. -/
namespace RegionTree

/-- The addresses from `start` on below `stop`. -/
structure Span where
  start : Nat
  stop : Nat
deriving DecidableEq

namespace Span

def ofLength? (start length : Nat) : Option Span :=
  (Address.add? start length).map fun stop => ⟨start, stop⟩

def ofLength (start length : Nat) : Except Breach Span :=
  (Address.add start length).map fun stop => ⟨start, stop⟩

instance : Membership Nat Span := ⟨fun s a => s.start ≤ a ∧ a < s.stop⟩

instance (a : Nat) (s : Span) : Decidable (a ∈ s) :=
  inferInstanceAs (Decidable (s.start ≤ a ∧ a < s.stop))

def isEmpty (s : Span) : Bool := s.stop ≤ s.start

def length (s : Span) : Except Breach Nat := Address.distance s.stop s.start

def contains (s : Span) (a : Nat) : Bool := s.start ≤ a && a < s.stop

def covers (s t : Span) : Bool := s.start ≤ t.start && t.stop ≤ s.stop

def overlaps (s t : Span) : Bool := s.start < t.stop && t.start < s.stop

/-- Reversed or empty where the two have no address in common. -/
def inter (s t : Span) : Span := ⟨max s.start t.start, min s.stop t.stop⟩

def display (s : Span) : String := Address.display s.start ++ ".." ++ Address.display s.stop

end Span

/-- A span that holds an address and whose ends an address can hold. -/
structure Extent extends Span where
  start_lt_stop : start < stop
  stop_lt_limit : stop < Address.limit
deriving DecidableEq

namespace Extent

def ofSpan? (s : Span) : Option Extent :=
  if h : s.start < s.stop ∧ s.stop < Address.limit then some ⟨s, h.1, h.2⟩ else none

def ofLength? (start length : Nat) : Option Extent := ofSpan? ⟨start, start + length⟩

def length (e : Extent) : Nat := e.stop - e.start

def last (e : Extent) : Nat := e.stop - 1

def cut? (e : Extent) (a : Nat) : Option (Extent × Extent) :=
  if h : e.start < a ∧ a < e.stop then
    some (⟨⟨e.start, a⟩, h.1, Nat.lt_trans h.2 e.stop_lt_limit⟩, ⟨⟨a, e.stop⟩, h.2, e.stop_lt_limit⟩)
  else none

end Extent
end RegionTree
