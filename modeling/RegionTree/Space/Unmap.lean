import RegionTree.Resources.Rework
import RegionTree.Space

/-! Taking a range out of a region. Mappings are narrowed to what lies outside, and regions have to
lie wholly inside. -/
namespace RegionTree

namespace Resources
variable {M : Type} [Mmu M]

def carve (target : Span) (r : Resources M) : Node → Progress M
  | .region l children => ⟨[], (Node.region l children).destroy r, none⟩
  | .mapping m =>
    match m.extent.cut? target.start, m.extent.cut? target.stop with
    | none, none => ⟨[], (Node.mapping m).destroy r, none⟩
    | some (lower, _), none =>
      ⟨[.mapping { m with extent := lower }], r.unmapPages ⟨target.start, m.extent.stop⟩, none⟩
    | none, some (_, upper) =>
      let r := r.unmapPages ⟨m.extent.start, target.stop⟩
      match Address.add m.offset (upper.start - m.extent.start) with
      | .error f => ⟨[.mapping m], r, some f⟩
      | .ok offset => ⟨[.mapping { m with extent := upper, offset }], r, none⟩
    | some (lower, _), some (_, upper) =>
      match r.split m upper with
      | ⟨.error f, r⟩ => ⟨[.mapping m], r, some f⟩
      | ⟨.ok tail, r⟩ =>
        ⟨[.mapping { m with extent := lower }, .mapping tail], r.unmapPages target, none⟩

end Resources

namespace Space
variable {M : Type}

def targetIn (region : Label) (base size : Nat) : Except Failure Span :=
  match Span.ofLength? base size with
  | none => .error Error.invalidArgument
  | some target =>
    if target.isEmpty ∨ !region.extent.covers target then .error Error.invalidArgument
    else .ok target

def imageTouches (s : Space M) (target : Span) : Bool :=
  (s.resources.image.bind s.node?).any (·.extent.overlaps target)

def unmapTarget (s : Space M) (region : Handle) (base size : Nat) (sparing : Bool) :
    Except Failure (Span × Forest.Slice) := do
  let (label, children) ← s.liveRegion region
  let target ← targetIn label base size
  let slice := Forest.slice target children
  if children.isEmpty then .ok (target, slice)
  else
    ensure (!s.imageTouches target) .accessDenied
    ensure (slice.inside.all fun n => !n.isRegion || !sparing && target.covers n.extent.toSpan)
      .invalidArgument
    .ok (target, slice)

/-- Unmaps a range of a region, sparing the regions in it by failing if told so. -/
def unmapRange [Mmu M] (s : Space M) (region : Handle) (base size : Nat) (sparing : Bool) :
    Outcome (Space M) Unit :=
  match s.unmapTarget region base size sparing with
  | .error f => .fail f s
  | .ok (target, slice) =>
    let p := Progress.overEach (Resources.carve target) s.resources slice.inside
    let s := { s with resources := p.resources }.withChildren region
      (slice.before ++ p.children ++ slice.behind)
    match p.failure with
    | none => .ok () s
    | some f => .fail f s

def unmap [Mmu M] (s : Space M) (region : Handle) (base size : UInt64) : Outcome (Space M) Unit :=
  let size := Address.wholePages size.toNat
  if size = 0 ∨ !Address.isAligned base.toNat pageSize then .fail Error.invalidArgument s
  else s.unmapRange region base.toNat size false

end Space
end RegionTree
