import RegionTree.Text.Name

/-! Clipped names. The search downwards ends at the last boundary that the bound allows, so that what is kept
of a name is its longest start of whole characters within the bound. -/
namespace RegionTree.Name

theorem lastBoundary_isGreatest {text : String} {n : Nat} {stop : text.Pos}
    (found : lastBoundary text n = .ok stop) :
    stop.offset.byteIdx ≤ n ∧ ∀ p : text.Pos, p.offset.byteIdx ≤ n → p ≤ stop := by
  induction n with
  | zero =>
      rw [lastBoundary] at found
      split at found <;> cases found
      exact ⟨Nat.le_refl _, fun _ low => low⟩
  | succ n ih =>
      rw [lastBoundary] at found
      split at found
      · cases found
        exact ⟨Nat.le_refl _, fun _ low => low⟩
      · next between =>
          obtain ⟨low, last⟩ := ih found
          refine ⟨Nat.le_succ_of_le low, fun p below => last p (Nat.le_of_lt_succ ?_)⟩
          -- The byte that was passed over is no boundary, and so not this one.
          refine Nat.lt_of_le_of_ne below fun same => between ?_
          have here : p.offset = ⟨n + 1⟩ := String.Pos.Raw.ext same
          exact here ▸ p.isValid

theorem clip_eq {name : String} {stop : name.Pos}
    (found : lastBoundary name (min name.utf8ByteSize maxBytes) = .ok stop) :
    clip name = (name.sliceTo stop).copy := by
  rw [clip]
  split
  · next found' =>
      cases found.symm.trans found'
      rfl
  · next failed => cases found.symm.trans failed

/-- What clipping keeps of a name: all before the boundary that the search ends at. -/
structure Clips (name : String) : Prop where
  /-- The search ends before it would go below zero. -/
  stops : ∃ stop, lastBoundary name (min name.utf8ByteSize maxBytes) = .ok stop ∧
    clip name = (name.sliceTo stop).copy
  start : ∃ rest, name = clip name ++ rest
  short : (clip name).utf8ByteSize ≤ maxBytes
  /-- All other starts of whole characters within the bound are starts of what is kept. -/
  longest : ∀ kept rest, name = kept ++ rest → kept.utf8ByteSize ≤ maxBytes →
    ∃ more, clip name = kept ++ more
  again : clip (clip name) = clip name

section
variable {name : String} {stop : name.Pos}
  (found : lastBoundary name (min name.utf8ByteSize maxBytes) = .ok stop)
include found

theorem splits_of_found : ∃ rest, stop.Splits (clip name) rest := ⟨_, clip_eq found ▸ stop.splits⟩

theorem clip_short : (clip name).utf8ByteSize ≤ maxBytes := by
  obtain ⟨rest, splits⟩ := splits_of_found found
  have low := (lastBoundary_isGreatest found).1
  rw [splits.offset_eq_rawEndPos, String.byteIdx_rawEndPos] at low
  exact Nat.le_trans low (Nat.min_le_right _ _)

theorem clip_longest {kept rest : String} (start : name = kept ++ rest)
    (short : kept.utf8ByteSize ≤ maxBytes) : ∃ more, clip name = kept ++ more := by
  obtain ⟨_, splits⟩ := splits_of_found found
  have boundary : kept.rawEndPos.IsValid name :=
    String.Pos.Raw.isValid_iff_exists_append.mpr ⟨kept, rest, start, rfl⟩
  have splits' : (⟨kept.rawEndPos, boundary⟩ : name.Pos).Splits kept rest := ⟨start, rfl⟩
  have inside : kept.utf8ByteSize ≤ name.utf8ByteSize := by
    rw [start, String.utf8ByteSize_append]
    exact Nat.le_add_right _ _
  have low : kept.utf8ByteSize ≤ min name.utf8ByteSize maxBytes := Nat.le_min.mpr ⟨inside, short⟩
  have before := (lastBoundary_isGreatest found).2 ⟨kept.rawEndPos, boundary⟩ low
  obtain ⟨more, same, _⟩ := (splits'.le_iff_exists_eq_append splits).mp before
  exact ⟨more, same⟩

end

theorem clip_of_short {name : String} (short : name.utf8ByteSize ≤ maxBytes) : clip name = name := by
  obtain ⟨stop, found⟩ := exists_lastBoundary name (min name.utf8ByteSize maxBytes)
  obtain ⟨rest, splits⟩ := splits_of_found found
  obtain ⟨more, longer⟩ := clip_longest found String.append_empty.symm short
  have size := congrArg String.utf8ByteSize splits.eq_append
  have size' := congrArg String.utf8ByteSize longer
  rw [String.utf8ByteSize_append] at size size'
  have none : more = "" := String.utf8ByteSize_eq_zero_iff.mp (by omega)
  rw [longer, none, String.append_empty]

theorem clip_clips (name : String) : Clips name := by
  obtain ⟨stop, found⟩ := exists_lastBoundary name (min name.utf8ByteSize maxBytes)
  obtain ⟨rest, splits⟩ := splits_of_found found
  exact ⟨⟨stop, found, clip_eq found⟩, ⟨rest, splits.eq_append⟩, clip_short found,
    fun _ _ => clip_longest found, clip_of_short (clip_short found)⟩

theorem clip_clip (name : String) : clip (clip name) = clip name := (clip_clips name).again

end RegionTree.Name
