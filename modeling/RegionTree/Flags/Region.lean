import RegionTree.Flags.Basic

/-! Flags of the nodes of the tree: what may ever be granted below a node, how it was placed, and how
it places its children. -/
namespace RegionTree

@[reducible] def regionVocabulary : Vocabulary where
  width := 32
  label := "VmarFlags"
  named := [
    ("CAN_MAP_READ", 1), ("CAN_MAP_WRITE", 2), ("CAN_MAP_EXECUTE", 4), ("CAN_MAP_SPECIFIC", 8),
    ("SPECIFIC", 16), ("SPECIFIC_OVERWRITE", 32), ("COMPACT", 64), ("CAN_MAP_RWX", 7)]

abbrev RegionFlags := Flags regionVocabulary

namespace RegionFlags

def mapRead : RegionFlags := ⟨1⟩
def mapWrite : RegionFlags := ⟨2⟩
def mapExecute : RegionFlags := ⟨4⟩
/-- Children may ask for a place of their own choice. -/
def mapSpecific : RegionFlags := ⟨8⟩
/-- The node asks for the place at its offset. -/
def specific : RegionFlags := ⟨16⟩
/-- The node asks for the place at its offset and displaces the mappings there. -/
def overwrite : RegionFlags := ⟨32⟩
/-- Children are placed next to each other. -/
def compact : RegionFlags := ⟨64⟩

def mapAll : RegionFlags := ⟨7⟩

/-- What a caller may ask of a new region. -/
def forRegions : RegionFlags := specific ∪ mapSpecific ∪ compact ∪ mapAll

def forMappings : RegionFlags := specific ∪ overwrite ∪ mapAll

end RegionFlags

def Flags.choosesPlace (a : RegionFlags) : Bool :=
  a.intersects (RegionFlags.specific ∪ RegionFlags.overwrite)

end RegionTree
