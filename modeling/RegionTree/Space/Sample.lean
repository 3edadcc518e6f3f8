import RegionTree.Mmu.PageTable
import RegionTree.Space

/-! A space to try things in. -/
namespace RegionTree

/-- The seed of a sample space's entropy, so that its choices can be told in advance. -/
def Keystream.sampleSeed : Vector UInt8 32 :=
  #v[232, 66, 52, 206, 40, 195, 141, 166, 130, 237, 114, 177, 190, 54, 88, 88,
    30, 196, 41, 165, 54, 85, 157, 181, 124, 91, 106, 9, 179, 48, 75, 245]

def Space.sample (kind : SpaceKind) (start stop : UInt64) (randomized : Bool) :
    Except Breach (Space PageTable) :=
  let config : SpaceConfig := ⟨kind, start, stop, .empty, SpaceConfig.defaultMaxNodes⟩
  let stream := if randomized then some (Keystream.ofSeed Keystream.sampleSeed) else none
  match Space.new PageTable.empty config ⟨stream⟩ with
  | .ok s => .ok s
  | .error _ => .error .sampleRange

end RegionTree
