import RegionTree.Text.Hex

/-! Sets of named bits. A set may hold bits that its vocabulary has no name for, and keeps them. -/
namespace RegionTree

/-- The names of some bits of a word, in the order in which they are listed. A name may stand for
several bits. -/
structure Vocabulary where
  width : Nat
  label : String
  named : List (String × BitVec width)

structure Flags (v : Vocabulary) where
  bits : BitVec v.width
deriving DecidableEq

namespace Flags
variable {v : Vocabulary}

def empty : Flags v := ⟨0⟩

def known : Flags v := ⟨v.named.foldl (fun bits entry => bits ||| entry.2) 0⟩

def union (a b : Flags v) : Flags v := ⟨a.bits ||| b.bits⟩
def inter (a b : Flags v) : Flags v := ⟨a.bits &&& b.bits⟩
def diff (a b : Flags v) : Flags v := ⟨a.bits &&& ~~~b.bits⟩
def symmDiff (a b : Flags v) : Flags v := ⟨a.bits ^^^ b.bits⟩

instance : Union (Flags v) := ⟨union⟩
instance : Inter (Flags v) := ⟨inter⟩
instance : SDiff (Flags v) := ⟨diff⟩

def isEmpty (a : Flags v) : Bool := a.bits == 0
def contains (a b : Flags v) : Bool := a.bits &&& b.bits == b.bits
def intersects (a b : Flags v) : Bool := !(a ∩ b).isEmpty

def onlyKnown (a : Flags v) : Flags v := a ∩ known

def complement (a : Flags v) : Flags v := (⟨~~~a.bits⟩ : Flags v).onlyKnown

def isAll (a : Flags v) : Bool := a.contains known

def ofBits? (bits : BitVec v.width) : Option (Flags v) :=
  if (known : Flags v).contains ⟨bits⟩ then some ⟨bits⟩ else none

/-- Lists the entries that lie wholly in `a` and cover a bit of `left`, which holds the bits that no
earlier entry has covered. The bits left at the end come second. -/
def cover (a : BitVec v.width) :
    BitVec v.width → List (String × BitVec v.width) → List String × BitVec v.width
  | left, [] => ([], left)
  | left, (name, bits) :: rest =>
    if a &&& bits == bits && left &&& bits != 0 then
      let (names, left) := cover a (left &&& ~~~bits) rest
      (name :: names, left)
    else cover a left rest

def names (a : Flags v) : List String := (cover a.bits a.bits v.named).1

def display (a : Flags v) : String :=
  let (names, left) := cover a.bits a.bits v.named
  String.intercalate " | " (names ++ if left == 0 then [] else [Hex.short left.toNat])

def describe (a : Flags v) : String :=
  v.label ++ "(" ++ (if a.isEmpty then "0x0" else a.display) ++ ")"

end Flags
end RegionTree
