import RegionTree.Flags.Fault

/-! Which flags contain which, bit by bit. From this it follows what permissions and accesses need, and what
changing permissions or caching leaves alone. -/
namespace RegionTree.Flags

section
variable {v : Vocabulary} {a b c mask : Flags v}

theorem ext_iff_getLsbD : a = b ↔ ∀ i, a.bits.getLsbD i = b.bits.getLsbD i := by
  constructor
  · rintro rfl i
    rfl
  · intro same
    have bits : a.bits = b.bits := BitVec.eq_of_getLsbD_eq fun i _ => same i
    cases a
    cases b
    exact congrArg Flags.mk bits

theorem contains_iff : a.contains b ↔ ∀ i, b.bits.getLsbD i → a.bits.getLsbD i := by
  simp only [contains, beq_iff_eq, BitVec.eq_of_getLsbD_eq_iff, BitVec.getLsbD_and]
  constructor
  · intro same i set
    by_cases inside : i < v.width
    · have := same i inside
      simp_all
    · rw [BitVec.getLsbD_of_ge _ _ (Nat.le_of_not_lt inside)] at set
      cases set
  · intro below i _
    have := below i
    cases set : b.bits.getLsbD i <;> simp_all

theorem getLsbD_union (i : Nat) : (a ∪ b).bits.getLsbD i = (a.bits.getLsbD i || b.bits.getLsbD i) :=
  BitVec.getLsbD_or

theorem getLsbD_inter (i : Nat) : (a ∩ b).bits.getLsbD i = (a.bits.getLsbD i && b.bits.getLsbD i) :=
  BitVec.getLsbD_and

theorem getLsbD_sdiff (i : Nat) : (a \ b).bits.getLsbD i = (a.bits.getLsbD i && !b.bits.getLsbD i) := by
  show (a.bits &&& ~~~b.bits).getLsbD i = _
  rw [BitVec.getLsbD_and, BitVec.getLsbD_not]
  by_cases inside : i < v.width
  · simp [inside]
  · simp [BitVec.getLsbD_of_ge a.bits i (Nat.le_of_not_lt inside)]

theorem contains_trans (h : a.contains b) (h' : b.contains c) : a.contains c :=
  contains_iff.mpr fun i set => contains_iff.mp h i (contains_iff.mp h' i set)

theorem contains_union : a.contains (b ∪ c) ↔ a.contains b ∧ a.contains c := by
  simp only [contains_iff, getLsbD_union, Bool.or_eq_true]
  exact ⟨fun h => ⟨fun i set => h i (.inl set), fun i set => h i (.inr set)⟩,
    fun h i set => set.elim (h.1 i) (h.2 i)⟩

theorem union_contains_right : (a ∪ b).contains b :=
  contains_iff.mpr fun i set => by rw [getLsbD_union, set, Bool.or_true]

theorem inter_contains (h : a.contains c) (h' : b.contains c) : (a ∩ b).contains c :=
  contains_iff.mpr fun i set => by
    rw [getLsbD_inter, contains_iff.mp h i set, contains_iff.mp h' i set, Bool.and_true]

theorem contains_inter_left : a.contains (b ∩ a) :=
  contains_iff.mpr fun i set => by
    rw [getLsbD_inter, Bool.and_eq_true] at set
    exact set.2

theorem getLsbD_replaced (inside : mask.contains b) (i : Nat) :
    ((a \ mask) ∪ b).bits.getLsbD i = if mask.bits.getLsbD i then b.bits.getLsbD i else a.bits.getLsbD i := by
  have below := contains_iff.mp inside i
  rw [getLsbD_union, getLsbD_sdiff]
  cases set : b.bits.getLsbD i with
  | false => cases mask.bits.getLsbD i <;> simp
  | true => simp [below set]

theorem inter_replaced (inside : mask.contains b) : ((a \ mask) ∪ b) ∩ mask = b := by
  refine ext_iff_getLsbD.mpr fun i => ?_
  have below := contains_iff.mp inside i
  rw [getLsbD_inter, getLsbD_replaced inside]
  cases masked : mask.bits.getLsbD i with
  | false => simpa [masked] using below
  | true => simp

theorem sdiff_replaced (inside : mask.contains b) : ((a \ mask) ∪ b) \ mask = a \ mask := by
  refine ext_iff_getLsbD.mpr fun i => ?_
  rw [getLsbD_sdiff, getLsbD_sdiff, getLsbD_replaced inside]
  cases mask.bits.getLsbD i <;> simp

theorem inter_replaced_of_apart (inside : mask.contains b) (apart : mask ∩ c = empty) :
    ((a \ mask) ∪ b) ∩ c = a ∩ c := by
  refine ext_iff_getLsbD.mpr fun i => ?_
  have shared : (mask ∩ c).bits.getLsbD i = false := by simp [apart, empty]
  rw [getLsbD_inter] at shared
  rw [getLsbD_inter, getLsbD_inter, getLsbD_replaced inside]
  cases masked : mask.bits.getLsbD i with
  | false => simp
  | true =>
      rw [masked, Bool.true_and] at shared
      simp [shared]

theorem contains_empty : a.contains empty := contains_iff.mpr fun i set => by simp [empty] at set

theorem contains_ite_iff {p : Prop} [Decidable p] :
    a.contains (if p then b else empty) ↔ (p → a.contains b) := by
  split
  · next holds => exact ⟨fun h _ => h, fun h => h holds⟩
  · next fails => exact iff_of_true contains_empty (absurd · fails)

theorem isEmpty_iff : a.isEmpty ↔ ∀ i, a.bits.getLsbD i = false := by
  simp only [isEmpty, beq_iff_eq, BitVec.eq_of_getLsbD_eq_iff]
  constructor
  · intro same i
    by_cases inside : i < v.width
    · simpa using same i inside
    · exact BitVec.getLsbD_of_ge _ _ (Nat.le_of_not_lt inside)
  · intro unset i _
    simpa using unset i

theorem intersects_iff : a.intersects b ↔ ∃ i, a.bits.getLsbD i ∧ b.bits.getLsbD i := by
  rw [intersects, Bool.not_eq_true', ← Bool.not_eq_true, isEmpty_iff]
  simp only [getLsbD_inter, Classical.not_forall, Bool.not_eq_false, Bool.and_eq_true]

theorem intersects_union (h : a.intersects c) : (a ∪ b).intersects c := by
  obtain ⟨i, set, set'⟩ := intersects_iff.mp h
  exact intersects_iff.mpr ⟨i, by rw [getLsbD_union, set, Bool.true_or], set'⟩

theorem intersects_union_of_apart (apart : b.intersects c = false) :
    (a ∪ b).intersects c = a.intersects c := by
  rw [Bool.eq_iff_iff]
  constructor
  · intro shared
    obtain ⟨i, set, set'⟩ := intersects_iff.mp shared
    rw [getLsbD_union, Bool.or_eq_true] at set
    rcases set with left | right
    · exact intersects_iff.mpr ⟨i, left, set'⟩
    · rw [intersects_iff.mpr ⟨i, right, set'⟩] at apart
      cases apart
  · exact intersects_union

theorem intersects_of_contains (h : a.contains c) (h' : b.contains c) (some : c.isEmpty = false) :
    a.intersects b := by
  rw [← Bool.not_eq_true, isEmpty_iff, Classical.not_forall] at some
  obtain ⟨i, set⟩ := some
  rw [Bool.not_eq_false] at set
  exact intersects_iff.mpr ⟨i, contains_iff.mp h i set, contains_iff.mp h' i set⟩

theorem contains_congr (agree : ∀ i, c.bits.getLsbD i → a.bits.getLsbD i = b.bits.getLsbD i) :
    a.contains c = b.contains c := by
  rw [Bool.eq_iff_iff, contains_iff, contains_iff]
  exact ⟨fun h i set => agree i set ▸ h i set, fun h i set => agree i set ▸ h i set⟩

theorem contains_of_inter (alike : a ∩ mask = b ∩ mask) (inside : mask.contains c) :
    a.contains c = b.contains c := by
  refine contains_congr fun i set => ?_
  have bit := ext_iff_getLsbD.mp alike i
  rwa [getLsbD_inter, getLsbD_inter, contains_iff.mp inside i set, Bool.and_true, Bool.and_true] at bit

end

section
variable {a b : PageFlags}

theorem permissions_eq :
    PageFlags.permissions = PageFlags.read ∪ PageFlags.write ∪ PageFlags.execute := rfl

theorem getLsbD_withPermissions (i : Nat) : (a.withPermissions b).bits.getLsbD i =
    if PageFlags.permissions.bits.getLsbD i then b.bits.getLsbD i else a.bits.getLsbD i := by
  rw [withPermissions, getLsbD_replaced contains_inter_left, getLsbD_inter]
  cases PageFlags.permissions.bits.getLsbD i <;> simp

theorem inter_withPermissions :
    a.withPermissions b ∩ PageFlags.permissions = b ∩ PageFlags.permissions :=
  inter_replaced contains_inter_left

theorem withPermissions_eq_self_iff :
    a.withPermissions b = a ↔ a ∩ PageFlags.permissions = b ∩ PageFlags.permissions := by
  constructor
  · intro same
    have taken := inter_withPermissions (a := a) (b := b)
    rwa [same] at taken
  · intro alike
    refine ext_iff_getLsbD.mpr fun i => ?_
    have bit := ext_iff_getLsbD.mp alike i
    rw [getLsbD_inter, getLsbD_inter] at bit
    rw [getLsbD_withPermissions]
    split
    · next inside => simpa [inside] using bit.symm
    · rfl

theorem contains_withPermissions {c : PageFlags} (inside : PageFlags.permissions.contains c) :
    (a.withPermissions b).contains c = b.contains c :=
  contains_of_inter inter_withPermissions inside

theorem inter_withPermissions_of_apart {c : PageFlags} (apart : PageFlags.permissions ∩ c = empty) :
    a.withPermissions b ∩ c = a ∩ c :=
  inter_replaced_of_apart contains_inter_left apart

theorem contains_user_withPermissions :
    (a.withPermissions b).contains PageFlags.user = a.contains PageFlags.user := by
  have alike : a.withPermissions b ∩ PageFlags.user = a ∩ PageFlags.user :=
    inter_withPermissions_of_apart rfl
  exact contains_of_inter alike rfl

theorem caching_withPermissions : (a.withPermissions b).caching = a.caching := by
  have alike : a.withPermissions b ∩ PageFlags.cacheMask = a ∩ PageFlags.cacheMask :=
    inter_withPermissions_of_apart rfl
  have masked : (a.withPermissions b).bits &&& 3 = a.bits &&& 3 := congrArg Flags.bits alike
  rw [caching, caching, CachePolicy.ofCode, CachePolicy.ofCode, masked]

theorem cacheMask_contains (policy : CachePolicy) : PageFlags.cacheMask.contains ⟨policy.code⟩ := by
  cases policy <;> rfl

theorem caching_withCaching (policy : CachePolicy) : (a.withCaching policy).caching = policy := by
  have masked : (a.withCaching policy).bits &&& 3 = policy.code :=
    congrArg Flags.bits (inter_replaced (cacheMask_contains policy))
  rw [caching, CachePolicy.ofCode, masked]
  cases policy <;> rfl

theorem sdiff_withCaching (policy : CachePolicy) :
    a.withCaching policy \ PageFlags.cacheMask = a \ PageFlags.cacheMask :=
  sdiff_replaced (cacheMask_contains policy)

theorem inter_withCaching (policy : CachePolicy) :
    a.withCaching policy ∩ PageFlags.permissions = a ∩ PageFlags.permissions :=
  inter_replaced_of_apart (cacheMask_contains policy) rfl

theorem contains_grantsNeeded_iff {g : RegionFlags} : g.contains a.grantsNeeded ↔
    (a.contains PageFlags.read → g.contains RegionFlags.mapRead) ∧
      (a.contains PageFlags.write → g.contains RegionFlags.mapWrite) ∧
        (a.contains PageFlags.execute → g.contains RegionFlags.mapExecute) := by
  rw [grantsNeeded, contains_union, contains_union, contains_ite_iff, contains_ite_iff, contains_ite_iff,
    and_assoc]

theorem contains_accessNeeded_iff {f : FaultFlags} : a.contains f.accessNeeded ↔
    (if f.contains FaultFlags.store then a.contains PageFlags.write else a.contains PageFlags.read) ∧
      (f.contains FaultFlags.instruction → a.contains PageFlags.execute) ∧
        (f.contains FaultFlags.user → a.contains PageFlags.user) := by
  rw [accessNeeded, contains_union, contains_union, contains_ite_iff, contains_ite_iff, and_assoc]
  split <;> rfl

/-- Neither caching nor the user bit needs a grant. -/
theorem grantsNeeded_congr (alike : a ∩ PageFlags.permissions = b ∩ PageFlags.permissions) :
    a.grantsNeeded = b.grantsNeeded := by
  have read : a.contains PageFlags.read = b.contains PageFlags.read := contains_of_inter alike rfl
  have write : a.contains PageFlags.write = b.contains PageFlags.write := contains_of_inter alike rfl
  have execute : a.contains PageFlags.execute = b.contains PageFlags.execute := contains_of_inter alike rfl
  rw [grantsNeeded, grantsNeeded, read, write, execute]

theorem grantsNeeded_withPermissions : (a.withPermissions b).grantsNeeded = b.grantsNeeded :=
  grantsNeeded_congr inter_withPermissions

theorem grantsNeeded_withCaching (policy : CachePolicy) :
    (a.withCaching policy).grantsNeeded = a.grantsNeeded :=
  grantsNeeded_congr (inter_withCaching policy)

theorem mapAll_contains_grantsNeeded (a : PageFlags) : RegionFlags.mapAll.contains a.grantsNeeded :=
  contains_grantsNeeded_iff.mpr ⟨fun _ => rfl, fun _ => rfl, fun _ => rfl⟩

theorem choosesPlace_union_grantsNeeded (a : RegionFlags) (b : PageFlags) :
    (a ∪ b.grantsNeeded).choosesPlace = a.choosesPlace := by
  apply intersects_union_of_apart
  rw [grantsNeeded]
  split <;> split <;> split <;> rfl

end

end RegionTree.Flags
