import RegionTree.Placement
import RegionTree.Space.Unmap

/-! Creating regions and mappings. The request is checked first, then a place is chosen, then the node
is built, and only a built node joins the tree. -/
namespace RegionTree

structure Backing where
  object : MemoryObject
  offset : Nat
  access : PageFlags

/-- A node that is to be created; without backing it is a region. -/
structure NodeRequest where
  offset : Nat
  size : Nat
  alignPow2 : Nat
  flags : RegionFlags
  name : String
  backing : Option Backing

/-- How a caller describes a new node. The offset counts from the start of the parent. -/
structure Sketch where
  offset : UInt64 := 0
  size : UInt64
  alignPow2 : UInt8 := 0
  flags : RegionFlags := .empty
  name : String := ""

inductive Destination where
  | free (base : Nat)
  | occupied (base : Nat)
  | anywhere (r : Demand)

namespace NodeRequest

/-- The parent may give all that is asked for, and only a node that chooses its place has an offset. -/
def checkGrants (parent : RegionFlags) (q : NodeRequest) : Except Failure Unit := do
  ensure (q.size ≠ 0) .invalidArgument
  ensure (parent.contains (q.flags ∩ RegionFlags.mapAll)) .accessDenied
  ensure (q.backing.all (·.access.fits parent)) .accessDenied
  ensure (q.flags.choosesPlace ∨ q.offset = 0) .invalidArgument

/-- The cache policy that the object dictates, if the request asks for another one. -/
def conflict (q : NodeRequest) : Option Notice := do
  let backing ← q.backing
  let policy ← backing.object.policy
  if backing.access.hasCaching ∧ backing.access.caching ≠ policy then
    some (.policiesConflict q.name policy backing.access.caching)
  else none

def settled (q : NodeRequest) : NodeRequest :=
  { q with backing := q.backing.map fun b =>
      match b.object.policy with
      | none => b
      | some policy => { b with access := b.access.withCaching policy } }

def destination (parent : Label) (children : Forest) (q : NodeRequest) :
    Except Failure Destination := do
  ensure (!q.flags.choosesPlace || parent.flags.contains RegionFlags.mapSpecific) .accessDenied
  let length := parent.extent.length
  ensure (q.offset < length ∧ q.size ≤ length - q.offset) .invalidArgument
  match Demand.of? q.size q.alignPow2 (q.backing.map (·.access)) with
  | none => .error Error.invalidArgument
  | some r =>
    if q.flags.choosesPlace then
      let base := parent.extent.start + q.offset
      ensure (Address.isAligned base pageSize) .invalidArgument
      ensure (q.alignPow2 = 0 ∨ Address.isAligned base (1 <<< q.alignPow2)) .invalidArgument
      if Forest.isFree base q.size children then .ok (.free base)
      else if q.flags.contains RegionFlags.overwrite ∧ q.backing.isSome then .ok (.occupied base)
      else .error Error.noMemory
    else .ok (.anywhere r)

end NodeRequest

/-- A mapping with this backing is an executable one of the system image. There may be one, and only
of the code as a whole. -/
def Backing.imageUse (b : Backing) (size : Nat) (image : Option Handle) : Except Failure Bool :=
  match b.object.code with
  | none => .ok false
  | some code =>
    if b.access.contains PageFlags.execute then
      match Span.ofLength b.offset size with
      | .error f => .error f
      | .ok part => if image.isSome ∨ code ≠ part then .error Error.accessDenied else .ok true
    else .ok false

/-- A node that is not yet part of the tree, and whether it maps the system image. -/
structure Built where
  node : Node
  isImage : Bool

namespace Resources
variable {M : Type}

def makeRegion (r : Resources M) (extent : Extent) (q : NodeRequest) :
    Outcome (Resources M) Built :=
  let (generation, r) := r.countGeneration
  match r.allocate generation with
  | ⟨.error f, r⟩ => .fail f r
  | ⟨.ok handle, r⟩ =>
    .ok ⟨.region ⟨handle, extent, q.flags, Name.clip q.name⟩ [], false⟩
      (r.note (.regionCreated q.name extent.toSpan q.flags))

def makeMapping (r : Resources M) (extent : Extent) (q : NodeRequest) (b : Backing) :
    Outcome (Resources M) Built :=
  let (generation, r) := r.countGeneration
  match b.imageUse q.size r.image with
  | .error f => .fail f r
  | .ok isImage =>
    match r.allocate generation with
    | ⟨.error f, r⟩ => .fail f r
    | ⟨.ok handle, r⟩ =>
      let label : Label := ⟨handle, extent, q.flags, Name.clip q.name⟩
      .ok ⟨.mapping ⟨label, b.object, b.offset, b.access⟩, isImage⟩
        (r.note (.mappingCreated q.name extent.toSpan q.flags b.access))

def make (r : Resources M) (base : Nat) (q : NodeRequest) : Outcome (Resources M) Built :=
  match Extent.ofLength? base q.size with
  | none => .fail Breach.addOverflow r
  | some extent =>
    match q.backing with
    | none => r.makeRegion extent q
    | some b => r.makeMapping extent q b

end Resources

namespace Space
variable {M : Type}

def adopt (s : Space M) (parent : Handle) (built : Built) : Outcome (Space M) Handle :=
  match s.liveRegion parent with
  | .error f => .fail f s
  | .ok (_, children) =>
    let node := built.node
    if children.any (·.start == node.start) then
      .fail (Breach.siblingAt node.start) s
    else
      let s := s.withChildren parent (Index.insert Node.start node children)
      if built.isImage then
        .ok node.handle { s with resources := { s.resources with image := some node.handle } }
      else .ok node.handle s

variable [Mmu M]

def addAt (s : Space M) (parent : Handle) (base : Nat) (q : NodeRequest) :
    Outcome (Space M) Handle :=
  match s.resources.make base q with
  | ⟨.error f, r⟩ => .fail f { s with resources := r }
  | ⟨.ok built, r⟩ => { s with resources := r }.adopt parent built

/-- Builds a mapping and only then unmaps what is in its place, so that a lack of nodes costs
nothing. -/
def addOver (s : Space M) (parent : Handle) (base : Nat) (q : NodeRequest) :
    Outcome (Space M) Handle :=
  match s.resources.make base q with
  | ⟨.error f, r⟩ => .fail f { s with resources := r }
  | ⟨.ok built, r⟩ =>
    match { s with resources := r }.unmapRange parent base q.size true with
    | ⟨.error f, s⟩ => .fail f { s with resources := s.resources.release built.node.handle }
    | ⟨.ok (), s⟩ =>
      { s with
        resources := s.resources.note (.overwritten built.node.extent.toSpan parent) }.adopt
          parent built

def addAnywhere (s : Space M) (parent : Handle) (label : Label) (children : Forest)
    (r : Demand) (q : NodeRequest) : Outcome (Space M) Handle :=
  let site : Site M :=
    ⟨s.resources.mmu, label.extent, children.map fun n => ⟨n.extent, n.access?⟩⟩
  let (search, entropy) := site.choose r (label.flags.contains RegionFlags.compact) s.entropy
  let s := { s with entropy, resources := s.resources.reportAll search.events }
  match search.answer with
  | .error f => .fail f s
  | .ok base => s.addAt parent base q

def add (s : Space M) (parent : Handle) (q : NodeRequest) : Outcome (Space M) Handle :=
  match s.liveRegion parent with
  | .error f => .fail f s
  | .ok (label, children) =>
    match q.checkGrants label.flags with
    | .error f => .fail f s
    | .ok () =>
      let s := { s with resources := q.conflict.elim s.resources s.resources.note }
      let q := q.settled
      match q.destination label children with
      | .error f => .fail f s
      | .ok (.free base) => s.addAt parent base q
      | .ok (.occupied base) => s.addOver parent base q
      | .ok (.anywhere r) => s.addAnywhere parent label children r q

def addRegion (s : Space M) (parent : Handle) (sketch : Sketch) : Outcome (Space M) Handle :=
  if sketch.size.toNat % pageSize ≠ 0 ∨ !RegionFlags.forRegions.contains sketch.flags then
    .fail Error.invalidArgument s
  else
    s.add parent ⟨sketch.offset.toNat, sketch.size.toNat, sketch.alignPow2.toNat, sketch.flags,
      sketch.name, none⟩

/-- Creates a mapping of whole pages. It may keep the permissions that it is created with. -/
def addMapping (s : Space M) (parent : Handle) (sketch : Sketch) (object : MemoryObject)
    (objectOffset : UInt64) (access : PageFlags) : Outcome (Space M) Handle :=
  let size := Address.wholePages sketch.size.toNat
  let offset := objectOffset.toNat
  if !RegionFlags.forMappings.contains sketch.flags ∨ offset % pageSize ≠ 0 ∨
      (Address.add? offset size).isNone then
    .fail Error.invalidArgument s
  else
    s.add parent ⟨sketch.offset.toNat, size, sketch.alignPow2.toNat,
      sketch.flags ∪ access.grantsNeeded, sketch.name, some ⟨object, offset, access⟩⟩

end Space
end RegionTree
