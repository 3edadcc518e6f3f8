import RegionTree.Random.Keystream

/-! The source of random placements. Without a keystream nothing is random and nothing is drawn. -/
namespace RegionTree

/-- A keystream, where places are to be random. -/
structure Entropy where
  stream : Option Keystream

namespace Entropy

def isOn (r : Entropy) : Bool := r.stream.isSome

/-- How many words a draw refuses before it takes one as it is. A refusal has a chance below one
half. -/
def patience : Nat := 256

/-- A number below `n` from words of `width` bits: the upper half of the product of a word and `n`.
A word whose lower half falls below `threshold` would favour some numbers and is drawn again. -/
def sample (width n threshold : Nat) (draw : Keystream → Nat × Keystream) :
    Nat → Keystream → Nat × Keystream
  | 0, k =>
    let (v, k) := draw k
    ((v * n) >>> width, k)
  | attempts + 1, k =>
    let (v, k) := draw k
    if v * n % (1 <<< width) < threshold then sample width n threshold draw attempts k
    else ((v * n) >>> width, k)

def below (n : Nat) (k : Keystream) : Nat × Keystream :=
  if n ≤ 1 <<< 32 then sample 32 n (((1 <<< 32) - n) % n) Keystream.next32 patience k
  else sample 64 n (((1 <<< 64) - n) % n) Keystream.next64 patience k

def uniform (r : Entropy) (n : Nat) : Option Nat × Entropy :=
  match r.stream with
  | none => (none, r)
  | some k =>
    if n = 0 then (none, r)
    else
      let (index, k) := below n k
      (some index, ⟨some k⟩)

def byte (r : Entropy) : Option Nat × Entropy :=
  match r.stream with
  | none => (none, r)
  | some k =>
    let (v, k) := k.next32
    (some (v % 256), ⟨some k⟩)

end Entropy
end RegionTree
