import RegionTree.Failure

/-! Addresses are natural numbers below `Address.limit`. An operation whose name ends in a question mark
answers `none` where the result would leave that width, the others answer a breach. -/
namespace RegionTree

def pageSize : Nat := 4096

def pageShift : Nat := 12

def kib : Nat := 1024
def mib : Nat := kib * 1024
def gib : Nat := mib * 1024

inductive AddressKind where
  | virtual
  | physical
deriving DecidableEq

def AddressKind.label : AddressKind → String
  | .virtual => "VirtualAddress"
  | .physical => "PhysicalAddress"

namespace Address

/-- The first number that an address cannot hold. -/
def limit : Nat := 1 <<< 64

def minimum : Nat := 0
def maximum : Nat := limit - 1

def add? (a n : Nat) : Option Nat := if a + n < limit then some (a + n) else none

def sub? (a n : Nat) : Option Nat := if n ≤ a then some (a - n) else none

def add (a n : Nat) : Except Breach Nat := if a + n < limit then .ok (a + n) else .error .addOverflow

def sub (a n : Nat) : Except Breach Nat := if n ≤ a then .ok (a - n) else .error .subOverflow

def addClamped (a n : Nat) : Nat := min (a + n) maximum

def distance (a origin : Nat) : Except Breach Nat := sub a origin

def isPowerOfTwo (n : Nat) : Bool := n == 1 <<< n.log2

def floorTo (a n : Nat) : Nat := a / n * n

/-- The least multiple of `n` not below `a`, if an address can hold it. -/
def ceilTo? (a n : Nat) : Option Nat := (add? a (n - 1)).map (floorTo · n)

def isAligned (a n : Nat) : Bool := a % n == 0

/-- The bits of an address from that of `n` on, for a power of two. -/
def highBits (a n : Nat) : Nat := a &&& (limit - n)

/-- As `isAligned`, for an alignment that has to be a power of two: no bit below it is set. -/
def alignedTo (a n : Nat) : Except Breach Bool :=
  if isPowerOfTwo n then .ok (a &&& (n - 1) == 0) else .error .alignmentTest

def raise? (a n : Nat) : Except Breach (Option Nat) :=
  if isPowerOfTwo n then .ok ((add? a (n - 1)).map (highBits · n)) else .error .alignmentUp

def raise (a n : Nat) : Except Breach Nat :=
  match raise? a n with
  | .error f => .error f
  | .ok none => .error .alignUpOverflow
  | .ok (some aligned) => .ok aligned

def lower (a n : Nat) : Except Breach Nat :=
  if isPowerOfTwo n then .ok (highBits a n) else .error .alignmentDown

def page (a : Nat) : Nat := floorTo a pageSize

/-- A size in whole pages; one that no address can hold counts as zero. -/
def wholePages (size : Nat) : Nat := (ceilTo? size pageSize).getD 0

def display (a : Nat) : String := "0x" ++ Hex.padded 16 a

inductive ConversionError where
  | tooSmall
  | tooLarge
deriving DecidableEq

def ConversionError.message : ConversionError → String
  | .tooSmall => "number too small to fit in target type"
  | .tooLarge => "number too large to fit in target type"

def ofInt (n : Int) : Except ConversionError Nat :=
  if n < 0 then .error .tooSmall
  else if n.toNat < limit then .ok n.toNat
  else .error .tooLarge

def describe (kind : AddressKind) (a : Nat) : String := kind.label ++ "(" ++ display a ++ ")"

end Address
end RegionTree
