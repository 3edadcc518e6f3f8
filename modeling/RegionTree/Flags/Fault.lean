import RegionTree.Flags.Page

/-! Flags of a page fault: what the access tried to do. -/
namespace RegionTree

@[reducible] def faultVocabulary : Vocabulary where
  width := 8
  label := "PageFaultFlags"
  named := [("LOAD", 1), ("STORE", 2), ("INSTRUCTION", 8), ("USER", 16)]

abbrev FaultFlags := Flags faultVocabulary

namespace FaultFlags

def load : FaultFlags := ⟨1⟩
def store : FaultFlags := ⟨2⟩
def instruction : FaultFlags := ⟨8⟩
def user : FaultFlags := ⟨16⟩

end FaultFlags

namespace Flags

def isConsistent (a : FaultFlags) : Bool := !a.contains (FaultFlags.load ∪ FaultFlags.store)

def isWrite (a : FaultFlags) : Bool := a.contains FaultFlags.store

/-- The translation flags that the access needs. An access that does not store needs to read. -/
def accessNeeded (a : FaultFlags) : PageFlags :=
  (if a.contains FaultFlags.store then PageFlags.write else PageFlags.read) ∪
  (if a.contains FaultFlags.instruction then PageFlags.execute else empty) ∪
  (if a.contains FaultFlags.user then PageFlags.user else empty)

end Flags
end RegionTree
