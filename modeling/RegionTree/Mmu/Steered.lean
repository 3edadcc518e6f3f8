import RegionTree.Mmu

/-! An mmu with whims, to see how a space copes: it moves or refuses spots, and fails once. -/
namespace RegionTree

structure Steered (M : Type) where
  inner : M
  shift : Nat
  refused : List Span
  /-- A spot at or above this address is answered by one below the gap. -/
  ceiling : Option Nat
  /-- The number of the call to `protect` that fails, counted from zero. -/
  failingProtect : Option Nat
  protectCalls : Nat

namespace Steered
variable {M : Type}

def around (inner : M) : Steered M := ⟨inner, 0, [], none, none, 0⟩

def bend (m : Steered M) (query : SpotQuery) (spot : Nat) : Option Nat := do
  let spot ← Address.add? spot m.shift
  if m.refused.any (·.contains spot) then none
  else if m.ceiling.any (· ≤ spot) then some (query.start - pageSize)
  else some spot

instance [Mmu M] : Mmu (Steered M) where
  propose m query := (Mmu.propose m.inner query).bind (m.bend query)
  map m page frame length flags :=
    let o := Mmu.map m.inner page frame length flags
    ⟨o.answer, { m with inner := o.state }⟩
  unmap m span := { m with inner := Mmu.unmap m.inner span }
  protect m span flags :=
    let fails := m.failingProtect == some m.protectCalls
    let m := { m with protectCalls := m.protectCalls + 1 }
    if fails then .fail (Error.noMemory : Failure) m
    else
      let o := Mmu.protect m.inner span flags
      ⟨o.answer, { m with inner := o.state }⟩

end Steered
end RegionTree
