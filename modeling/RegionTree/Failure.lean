import RegionTree.Text.Hex

/-! Why an operation fails: an `Error` is an answer to the caller, a `Breach` says that
the caller or the arithmetic has not kept a rule. -/
namespace RegionTree

inductive Error where
  /-- Bad alignment, no size, a range outside the parent, or contradictory flags. -/
  | invalidArgument
  /-- A permission beyond the parent's grant, or a touch of the system image mapping. -/
  | accessDenied
  /-- The range is not mapped, or not wholly. -/
  | notFound
  /-- No spot fits, or no node is left. -/
  | noMemory
  | badState
  | internal (what : String)
deriving DecidableEq

def Error.message : Error → String
  | .invalidArgument => "invalid argument"
  | .accessDenied => "access denied"
  | .notFound => "address range is not mapped"
  | .noMemory => "no address range satisfies the request"
  | .badState => "address region is not alive"
  | .internal what => "internal error: " ++ what

/-- The rules not kept. Work on a space is meant to keep them all. -/
inductive Breach where
  | addOverflow
  | subOverflow
  | mulOverflow
  | alignmentTest
  | alignmentUp
  | alignmentDown
  | alignUpOverflow
  | gapAlignment
  | indexBeyondGaps (index count : Nat)
  /-- A handle whose slot its space has never used: another space has made it. -/
  | foreignHandle
  | siblingAt (base : Nat)
  | indentation
  | sampleRange
deriving DecidableEq

def Breach.message : Breach → String
  | .addOverflow => "attempt to add with overflow"
  | .subOverflow => "attempt to subtract with overflow"
  | .mulOverflow => "attempt to multiply with overflow"
  | .alignmentTest => "is_aligned_to: align is not a power-of-two"
  | .alignmentUp => "checked_align_up: align is not a power-of-two"
  | .alignmentDown => "align_down: align is not a power-of-two"
  | .alignUpOverflow => "align_up: attempt to align with overflow"
  | .gapAlignment => "gap alignment must be a power of two"
  | .indexBeyondGaps index count =>
    "no gap holds spot #" ++ toString index ++ " of " ++ toString count ++ ", this is a bug!"
  | .foreignHandle => "id from different slab"
  | .siblingAt base => "activated node overlaps sibling at 0x" ++ Hex.padded 16 base
  | .indentation => "Formatting argument out of range"
  | .sampleRange => "invalid test address space: InvalidArgument"

inductive Failure where
  | error (e : Error)
  | breach (b : Breach)
deriving DecidableEq

instance : Coe Error Failure := ⟨.error⟩
instance : Coe Breach Failure := ⟨.breach⟩

/-- The answer of an operation together with the state it leaves, which a failure may have changed. -/
structure Outcome (σ α : Type) where
  answer : Except Failure α
  state : σ

namespace Outcome
variable {σ α : Type}

def ok (a : α) (s : σ) : Outcome σ α := ⟨.ok a, s⟩

def fail (f : Failure) (s : σ) : Outcome σ α := ⟨.error f, s⟩

def beside {τ : Type} (o : Outcome σ α) (t : τ) : Outcome (σ × τ) α := ⟨o.answer, o.state, t⟩

def map {β : Type} (f : α → β) (o : Outcome σ α) : Outcome σ β := ⟨o.answer.map f, o.state⟩

end Outcome

def ensure (p : Prop) [Decidable p] (e : Error) : Except Failure Unit :=
  if p then .ok () else .error e

end RegionTree
