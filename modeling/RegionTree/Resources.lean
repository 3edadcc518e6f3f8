import RegionTree.Event
import RegionTree.Node

/-! What the nodes of a tree share: slots, generations, the mmu, the recorded system image and the
journal. -/
namespace RegionTree

/-- The common stock of a tree over an mmu of type `M`. -/
structure Resources (M : Type) where
  /-- The most nodes that may be alive at once. -/
  capacity : Nat
  /-- The number of slots ever used. -/
  fresh : Nat
  /-- The slots whose nodes are gone, the latest first. -/
  free : List Nat
  nextGeneration : Nat
  /-- The one executable mapping of the system image. -/
  image : Option Handle
  mmu : M
  /-- What happened, the latest first. -/
  journal : List Event

namespace Resources
variable {M : Type}

/-- The number of nodes alive, with one that is about to join the tree. -/
def inUse (r : Resources M) : Nat := r.fresh - r.free.length

def report (r : Resources M) (e : Event) : Resources M := { r with journal := e :: r.journal }

def reportAll (r : Resources M) (events : List Event) : Resources M := events.foldl report r

def note (r : Resources M) (n : Notice) : Resources M := r.report (.notice n)

/-- Counts a generation, whether or not a node comes of it. -/
def countGeneration (r : Resources M) : Nat × Resources M :=
  (r.nextGeneration, { r with nextGeneration := r.nextGeneration + 1 })

/-- Takes a slot for a node of a generation: the one that was freed last, or else a new one. -/
def allocate (r : Resources M) (generation : Nat) : Outcome (Resources M) Handle :=
  if r.capacity ≤ r.inUse then .fail Error.noMemory (r.note (.nodeLimitReached r.capacity))
  else
    match r.free with
    | slot :: free => .ok ⟨slot, generation⟩ { r with free }
    | [] => .ok ⟨r.fresh, generation⟩ { r with fresh := r.fresh + 1 }

def release (r : Resources M) (h : Handle) : Resources M := { r with free := h.slot :: r.free }

variable [Mmu M]

def mapPage (r : Resources M) (page frame : Nat) (access : PageFlags) :
    Outcome (Resources M) Unit :=
  let o := Mmu.map r.mmu page frame pageSize access
  ⟨o.answer, { r with mmu := o.state }.report (.call (.map page frame pageSize access))⟩

def unmapPages (r : Resources M) (span : Span) : Resources M :=
  { r with mmu := Mmu.unmap r.mmu span }.report (.call (.unmap span))

def protectPages (r : Resources M) (span : Span) (access : PageFlags) :
    Outcome (Resources M) Unit :=
  let o := Mmu.protect r.mmu span access
  ⟨o.answer, { r with mmu := o.state }.report (.call (.protect span access))⟩

end Resources

end RegionTree
