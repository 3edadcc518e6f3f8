import RegionTree.Flags.Region

/-! Flags of a translation: its permissions, and in the two lowest bits how it is cached. -/
namespace RegionTree

inductive CachePolicy where
  | cached
  | uncached
  | uncachedDevice
  | writeCombining
deriving DecidableEq

namespace CachePolicy

def display : CachePolicy → String
  | .cached => "cached"
  | .uncached => "uncached"
  | .uncachedDevice => "uncached-device"
  | .writeCombining => "write-combining"

def describe : CachePolicy → String
  | .cached => "Cached"
  | .uncached => "Uncached"
  | .uncachedDevice => "UncachedDevice"
  | .writeCombining => "WriteCombining"

def code : CachePolicy → BitVec 8
  | .cached => 0
  | .uncached => 1
  | .uncachedDevice => 2
  | .writeCombining => 3

def ofCode (bits : BitVec 8) : CachePolicy :=
  if bits &&& 3 = 0 then .cached
  else if bits &&& 3 = 1 then .uncached
  else if bits &&& 3 = 2 then .uncachedDevice
  else .writeCombining

end CachePolicy

@[reducible] def pageVocabulary : Vocabulary where
  width := 8
  label := "MmuFlags"
  named := [("CACHE_MASK", 3), ("USER", 4), ("READ", 8), ("WRITE", 16), ("EXECUTE", 32), ("RWX", 56)]

abbrev PageFlags := Flags pageVocabulary

namespace PageFlags

def cacheMask : PageFlags := ⟨3⟩
def user : PageFlags := ⟨4⟩
def read : PageFlags := ⟨8⟩
def write : PageFlags := ⟨16⟩
def execute : PageFlags := ⟨32⟩
/-- The permissions that `protect` changes. -/
def permissions : PageFlags := ⟨56⟩

end PageFlags

namespace Flags

def caching (a : PageFlags) : CachePolicy := .ofCode a.bits

def withCaching (a : PageFlags) (policy : CachePolicy) : PageFlags :=
  (a \ PageFlags.cacheMask) ∪ ⟨policy.code⟩

/-- Some policy bit is set. Cached memory sets none and reads like no wish at all. -/
def hasCaching (a : PageFlags) : Bool := a.intersects PageFlags.cacheMask

def withPermissions (a b : PageFlags) : PageFlags :=
  (a \ PageFlags.permissions) ∪ (b ∩ PageFlags.permissions)

def grantsNeeded (a : PageFlags) : RegionFlags :=
  (if a.contains PageFlags.read then RegionFlags.mapRead else empty) ∪
  (if a.contains PageFlags.write then RegionFlags.mapWrite else empty) ∪
  (if a.contains PageFlags.execute then RegionFlags.mapExecute else empty)

/-- A node with these grants may hold translations with the flags `a`. -/
def fits (a : PageFlags) (grants : RegionFlags) : Bool := grants.contains a.grantsNeeded

end Flags
end RegionTree
