import RegionTree.Span
import RegionTree.Flags.Fault

/-! The hardware side of a space: it holds translations and may object to a place for a new node. -/
namespace RegionTree

/-- A gap from `start` to `last`, both included, with the flags of the mappings on its two sides, and
the node that is to go there. A side that is no mapping has no flags, a new region neither. -/
structure SpotQuery where
  start : Nat
  before : Option PageFlags
  last : Nat
  after : Option PageFlags
  align : Nat
  size : Nat
  access : Option PageFlags

/-- What a space asks of its mmu. All addresses and lengths are in whole pages. -/
class Mmu (M : Type) where
  /-- Where in the gap a node may start. The answer may still be too close to the end of the gap; one
  below the gap ends the search. -/
  propose : M → SpotQuery → Option Nat := fun _ query => Address.ceilTo? query.start query.align
  map : M → (page frame length : Nat) → PageFlags → Outcome M Unit
  unmap : M → Span → M
  protect : M → Span → PageFlags → Outcome M Unit

/-- An mmu without translations. -/
structure Inert where

instance : Mmu Inert where
  map m _ _ _ _ := .ok () m
  unmap m _ := m
  protect m _ _ := .ok () m

instance {A B : Type} [Mmu A] [Mmu B] : Mmu (A ⊕ B) where
  propose
    | .inl a => Mmu.propose a
    | .inr b => Mmu.propose b
  map m page frame length flags :=
    match m with
    | .inl a => let o := Mmu.map a page frame length flags; ⟨o.answer, .inl o.state⟩
    | .inr b => let o := Mmu.map b page frame length flags; ⟨o.answer, .inr o.state⟩
  unmap m span :=
    match m with
    | .inl a => .inl (Mmu.unmap a span)
    | .inr b => .inr (Mmu.unmap b span)
  protect m span flags :=
    match m with
    | .inl a => let o := Mmu.protect a span flags; ⟨o.answer, .inl o.state⟩
    | .inr b => let o := Mmu.protect b span flags; ⟨o.answer, .inr o.state⟩

end RegionTree
