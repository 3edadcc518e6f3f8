import RegionTree.Failure

/-! Node names, of bounded length. -/
namespace RegionTree.Name

def maxBytes : Nat := 32

/-- The last boundary between characters up to a byte, looked for one byte after the other downwards. -/
def lastBoundary (text : String) : Nat → Except Breach text.Pos
  | 0 => if start : (⟨0⟩ : String.Pos.Raw).IsValid text then .ok ⟨⟨0⟩, start⟩ else .error .subOverflow
  | n + 1 =>
    if inside : (⟨n + 1⟩ : String.Pos.Raw).IsValid text then .ok ⟨⟨n + 1⟩, inside⟩
    else lastBoundary text n

/-- A text starts at a boundary, so that the search does not go below zero. -/
theorem exists_lastBoundary (text : String) (n : Nat) : ∃ stop, lastBoundary text n = .ok stop := by
  induction n with
  | zero => exact ⟨_, dif_pos String.Pos.Raw.isValid_zero⟩
  | succ n ih =>
      rw [lastBoundary]
      split
      · exact ⟨_, rfl⟩
      · exact ih

/-- Cuts a name between characters, as late as the bound on its bytes allows. -/
def clip (name : String) : String :=
  match found : lastBoundary name (min name.utf8ByteSize maxBytes) with
  | .ok stop => (name.sliceTo stop).copy
  | .error _ => absurd (found ▸ exists_lastBoundary name _) nofun

end RegionTree.Name
