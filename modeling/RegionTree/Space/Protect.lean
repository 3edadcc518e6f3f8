import RegionTree.Space.Unmap

/-! Changing the permissions of a mapped range. Mappings are split where the range ends inside them,
and a failure leaves what has been done. -/
namespace RegionTree

namespace Resources
variable {M : Type} [Mmu M]

def reflag (access : PageFlags) (r : Resources M) (m : Mapping) : Progress M :=
  match r.protectPages m.extent.toSpan access with
  | ⟨.error f, r⟩ => ⟨[.mapping m], r, some f⟩
  | ⟨.ok (), r⟩ =>
    ⟨[.mapping { m with access }], r.note (.accessChanged m.extent.toSpan access), none⟩

def reflagBelow (stop : Nat) (access : PageFlags) (r : Resources M) (m : Mapping) : Progress M :=
  match m.extent.cut? stop with
  | none => r.reflag access m
  | some (lower, upper) =>
    match r.split m upper with
    | ⟨.error f, r⟩ => ⟨[.mapping m], r, some f⟩
    | ⟨.ok tail, r⟩ => (r.reflag access { m with extent := lower }).before [.mapping tail]

def reflagInside (target : Span) (access : PageFlags) (r : Resources M) (m : Mapping) :
    Progress M :=
  match m.extent.cut? target.start with
  | none => r.reflagBelow target.stop access m
  | some (lower, upper) =>
    match r.split m upper with
    | ⟨.error f, r⟩ => ⟨[.mapping m], r, some f⟩
    | ⟨.ok tail, r⟩ =>
      (r.reflagBelow target.stop access tail).after [.mapping { m with extent := lower }]

/-- Gives the target's part of a child the permissions in `access`. A mapping that has them is not
split, and a region is left alone. -/
def permit (target : Span) (access : PageFlags) (r : Resources M) : Node → Progress M
  | .region l children => ⟨[.region l children], r, none⟩
  | .mapping m =>
    let wanted := m.access.withPermissions access
    if wanted = m.access then ⟨[.mapping m], r, none⟩ else r.reflagInside target wanted m

end Resources

namespace Space
variable {M : Type}

/-- Checks that mappings follow each other without a hole from `last` on, and that each may have the
permissions. The end of the last one is the answer. -/
def checkMapped (image : Option Handle) (access : PageFlags) : Nat → Forest → Except Failure Nat
  | last, [] => .ok last
  | _, .region _ _ :: _ => .error Error.invalidArgument
  | last, .mapping m :: rest =>
    if m.extent.start ≠ last then .error Error.notFound
    else if !access.fits m.flags ∨ image = some m.handle then .error Error.accessDenied
    else checkMapped image access m.extent.stop rest

/-- The range and the children whose permissions change, found to be within the caller's rights. -/
def protectTarget (s : Space M) (region : Handle) (base size : Nat) (access : PageFlags) :
    Except Failure (Span × Forest.Slice) := do
  let (label, children) ← s.liveRegion region
  let target ← targetIn label base size
  match Forest.childAt? base children with
  | none => .error Error.notFound
  | some first =>
    let slice := Forest.slice target children
    let last ← checkMapped s.resources.image access first.start slice.inside
    ensure (target.stop ≤ last) .notFound
    .ok (target, slice)

def protect [Mmu M] (s : Space M) (region : Handle) (base size : UInt64) (access : PageFlags) :
    Outcome (Space M) Unit :=
  let size := Address.wholePages size.toNat
  if size = 0 ∨ !Address.isAligned base.toNat pageSize then .fail Error.invalidArgument s
  else
    match s.protectTarget region base.toNat size access with
    | .error f => .fail f s
    | .ok (target, slice) =>
      let p := Progress.overEach (Resources.permit target access) s.resources slice.inside
      let s := { s with resources := p.resources }.withChildren region
        (slice.before ++ p.children ++ slice.behind)
      match p.failure with
      | none => .ok () s
      | some f => .fail f s

end Space
end RegionTree
