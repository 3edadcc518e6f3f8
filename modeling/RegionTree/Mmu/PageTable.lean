import RegionTree.Mmu

/-! A table of translations, one per page, that can keep guard space between unlike neighbours. -/
namespace RegionTree

structure Translation where
  page : Nat
  frame : Nat
  flags : PageFlags
deriving DecidableEq

/-- At most one translation for each page. -/
structure PageTable where
  /-- The bytes kept free between a new node and a neighbouring mapping with other flags. -/
  guard : Nat
  /-- No translation is ever installed. -/
  refuses : Bool
  translations : List Translation

namespace PageTable

def empty : PageTable := ⟨0, false, []⟩

def needsGuard (t : PageTable) (access neighbour : Option PageFlags) : Bool :=
  0 < t.guard && neighbour.isSome && neighbour != access

/-- The lowest aligned address that keeps its distance from both neighbours. -/
def propose (t : PageTable) (query : SpotQuery) : Option Nat := do
  let start ←
    if t.needsGuard query.access query.before then Address.add? query.start t.guard
    else some query.start
  let spot ← Address.ceilTo? start query.align
  if t.needsGuard query.access query.after then
    let last ← Address.add? spot (query.size - 1)
    let last ← Address.add? last t.guard
    if query.last < last then none else some spot
  else some spot

def install (new : Translation) (translations : List Translation) : List Translation :=
  new :: translations.filter (·.page != new.page)

def row (page frame : Nat) (flags : PageFlags) (count : Nat) : List Translation :=
  (List.range count).map fun i => ⟨page + i * pageSize, frame + i * pageSize, flags⟩

/-- The page is one of those that follow each other from the start of a range and lie in it. -/
def reaches (span : Span) (page : Nat) : Bool :=
  span.start ≤ page && page + pageSize ≤ span.stop && (page - span.start) % pageSize == 0

instance : Mmu PageTable where
  propose := propose
  map t page frame length flags :=
    if t.refuses then .fail (Error.noMemory : Failure) t
    else
      let new := row page frame flags (length / pageSize)
      .ok () { t with translations := new.foldl (fun all one => install one all) t.translations }
  unmap t span := { t with translations := t.translations.filter fun e => !reaches span e.page }
  protect t span flags :=
    .ok () { t with
      translations := t.translations.map fun e =>
        if reaches span e.page then { e with flags } else e }

def lookup (t : PageTable) (a : Nat) : Option Translation :=
  t.translations.find? (·.page == Address.page a)

def size (t : PageTable) : Nat := t.translations.length

end PageTable
end RegionTree
