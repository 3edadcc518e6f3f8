import RegionTree.Event

/-! The check that every placement passes: whether the mmu finds a spot between two neighbours. -/
namespace RegionTree

structure Neighbour where
  extent : Extent
  access : Option PageFlags

/-- What is to be placed: so many bytes at a multiple of a power of two, no less than a page. -/
structure Demand where
  size : Nat
  alignPow2 : Nat
  access : Option PageFlags
  size_pos : 0 < size
  alignPow2_lt : alignPow2 < 64
  pageShift_le : pageShift ≤ alignPow2

namespace Demand

def of? (size alignPow2 : Nat) (access : Option PageFlags) : Option Demand :=
  if h : 0 < size ∧ alignPow2 < 64 then
    some ⟨size, max alignPow2 pageShift, access, h.1, by unfold pageShift; omega,
      Nat.le_max_right ..⟩
  else none

def align (r : Demand) : Nat := 1 <<< r.alignPow2

/-- The number of aligned places in a gap that starts at one. -/
def placesIn (r : Demand) (gap : Span) : Nat :=
  let length := gap.stop - gap.start
  if length < r.size then 0 else (length - r.size) / r.align + 1

end Demand

/-- The region that is searched, and the mmu that has a say. -/
structure Site (M : Type) where
  mmu : M
  region : Extent
  children : List Neighbour

inductive Verdict where
  | found (spot : Nat)
  /-- Nothing here, look further. -/
  | resume
  /-- Nothing here nor further on. -/
  | halt
deriving DecidableEq

structure Inspection where
  events : List Event
  verdict : Verdict

structure Search where
  events : List Event
  answer : Except Failure Nat

namespace Search

def found (spot : Nat) : Search := ⟨[], .ok spot⟩

def fail (f : Failure) : Search := ⟨[], .error f⟩

def after (events : List Event) (s : Search) : Search := { s with events := events ++ s.events }

def orElse (first second : Search) : Search :=
  match first.answer with
  | .ok _ => first
  | .error _ => second.after first.events

end Search

namespace Site
variable {M : Type} [Mmu M]

/-- Looks at the gap from `start` to `last` between two neighbours. The mmu picks a spot, which has to
lie in the gap with all that follows it. -/
def inspectGap (site : Site M) (r : Demand) (before after : Option Neighbour)
    (start last : Nat) : Inspection :=
  let query : SpotQuery := ⟨start, before.bind (·.access), last, after.bind (·.access), r.align,
    r.size, r.access⟩
  let pick := Mmu.propose site.mmu query
  ⟨[.call (.pick query pick)],
    match pick with
    | none => .resume
    | some spot =>
      if spot < start then .halt
      else if spot < last ∧ r.size - 1 ≤ last - spot then .found spot
      else .resume⟩

/-- The last address of the gap that starts at `start` below a neighbour, or below the end of the
region, or the verdict where there is no such gap. -/
def gapEnd (site : Site M) (start : Nat) : Option Neighbour → Except Verdict Nat
  | some child =>
    if child.extent.start = start then .error .resume
    else if child.extent.start = 0 then .error .halt
    else .ok (child.extent.start - 1)
  | none => if start = site.region.stop then .error .halt else .ok site.region.last

def inspect (site : Site M) (r : Demand) (floor : Nat) (before after : Option Neighbour) :
    Inspection :=
  let start := before.elim site.region.start (·.extent.stop)
  match site.gapEnd start after with
  | .error verdict => ⟨[], verdict⟩
  | .ok last =>
    if last ≤ floor then ⟨[], .resume⟩ else site.inspectGap r before after (max start floor) last

end Site
end RegionTree
