import Mathlib.Algebra.Ring.Nat
import Mathlib.Order.Bounds.Defs
import RegionTree.Address

/-! Rounding to multiples. The masks of a power of two lead to the greatest multiple at or below an address
and to the least at or above it, which is missed exactly where no address can hold it. -/
namespace RegionTree.Address
variable {a n up k : Nat}

theorem mod_of_ceilTo? (h : ceilTo? a n = some up) : up % n = 0 := by
  obtain ⟨sum, _, rfl⟩ := Option.map_eq_some_iff.mp h
  exact Nat.mul_mod_left _ _

theorem le_of_ceilTo? (h : ceilTo? a n = some up) (pos : 0 < n) : a ≤ up := by
  obtain ⟨sum, added, rfl⟩ := Option.map_eq_some_iff.mp h
  cases (Option.ite_none_right_eq_some.mp added).2
  have whole := Nat.div_add_mod' (a + (n - 1)) n
  have rest := Nat.mod_lt (a + (n - 1)) pos
  rw [floorTo]
  omega

theorem paged_of_ceilTo? (h : ceilTo? a n = some up) (paged : n % pageSize = 0) : up % pageSize = 0 :=
  Nat.mod_eq_zero_of_dvd
    (Nat.dvd_trans (Nat.dvd_of_mod_eq_zero paged) (Nat.dvd_of_mod_eq_zero (mod_of_ceilTo? h)))

theorem floorTo_add_le {x : Nat} (pos : 0 < n) (le : x ≤ a) (divides : n ∣ a) :
    floorTo (x + (n - 1)) n ≤ a := by
  have few : (x + (n - 1)) / n ≤ a / n := by
    rw [← Nat.lt_succ_iff, Nat.div_lt_iff_lt_mul pos]
    have whole := Nat.div_mul_cancel divides
    rw [Nat.succ_mul, whole]
    omega
  calc floorTo (x + (n - 1)) n ≤ a / n * n := Nat.mul_le_mul_right n few
    _ = a := Nat.div_mul_cancel divides

theorem exists_ceilTo?_le {x : Nat} (pos : 0 < n) (le : x ≤ a) (aligned : a % n = 0)
    (room : a + n ≤ limit) : ∃ up, ceilTo? x n = some up ∧ up ≤ a := by
  have fits : x + (n - 1) < limit := by omega
  refine ⟨floorTo (x + (n - 1)) n, by rw [ceilTo?, add?, if_pos fits]; rfl, ?_⟩
  exact floorTo_add_le pos le (Nat.dvd_of_mod_eq_zero aligned)

theorem ceilTo?_of_aligned (pos : 0 < n) (aligned : a % n = 0) (room : a + n ≤ limit) :
    ceilTo? a n = some a := by
  obtain ⟨up, raised, le⟩ := exists_ceilTo?_le pos (Nat.le_refl a) aligned room
  rw [raised, Nat.le_antisymm le (le_of_ceilTo? raised pos)]

theorem floorTo_isGreatest (a n : Nat) : IsGreatest {m | n ∣ m ∧ m ≤ a} (floorTo a n) := by
  refine ⟨⟨Nat.dvd_mul_left _ _, Nat.div_mul_le_self a n⟩, ?_⟩
  intro m hm
  obtain ⟨divides, le⟩ := hm
  calc m = m / n * n := (Nat.div_mul_cancel divides).symm
    _ ≤ a / n * n := Nat.mul_le_mul_right n (Nat.div_le_div_right le)

theorem floorTo_add_isLeast (a : Nat) (pos : 0 < n) :
    IsLeast {m | n ∣ m ∧ a ≤ m} (floorTo (a + (n - 1)) n) := by
  refine ⟨⟨Nat.dvd_mul_left _ _, ?_⟩, fun m hm => floorTo_add_le pos hm.2 hm.1⟩
  have whole := Nat.div_add_mod' (a + (n - 1)) n
  have rest := Nat.mod_lt (a + (n - 1)) pos
  rw [floorTo]
  omega

theorem add_le_limit (divides : n ∣ limit) (aligned : a % n = 0) (inside : a < limit) :
    a + n ≤ limit := by
  refine Nat.le_of_lt_add_of_dvd (n := n) (by omega) ?_ divides
  exact Nat.dvd_add (Nat.dvd_of_mod_eq_zero aligned) (Nat.dvd_refl n)

/-- The sum that is rounded down leaves the width exactly if the multiple does, since the limit is one. -/
theorem ceilTo?_eq (divides : n ∣ limit) (a : Nat) :
    ceilTo? a n =
      if floorTo (a + (n - 1)) n < limit then some (floorTo (a + (n - 1)) n) else none := by
  have below : floorTo (a + (n - 1)) n ≤ a + (n - 1) := Nat.div_mul_le_self _ _
  by_cases fits : a + (n - 1) < limit
  · rw [ceilTo?, add?, if_pos fits, if_pos (Nat.lt_of_le_of_lt below fits)]
    rfl
  · have beyond : limit ≤ floorTo (a + (n - 1)) n :=
      (floorTo_isGreatest (a + (n - 1)) n).2 ⟨divides, Nat.le_of_not_lt fits⟩
    rw [ceilTo?, add?, if_neg fits, if_neg (Nat.not_lt.mpr beyond)]
    rfl

theorem two_pow_dvd_limit (small : k < 64) : 2 ^ k ∣ limit := by
  rw [limit, Nat.one_shiftLeft]
  exact Nat.pow_dvd_pow 2 (Nat.le_of_lt small)

theorem isPowerOfTwo_two_pow (k : Nat) : isPowerOfTwo (2 ^ k) := by
  rw [isPowerOfTwo, Nat.log2_two_pow, Nat.one_shiftLeft, beq_self_eq_true]

/-- Below the limit the bits from a power of two on make up the multiple of it at or below. -/
theorem highBits_two_pow (inside : a < limit) (small : k < 64) : highBits a (2 ^ k) = floorTo a (2 ^ k) := by
  have width : limit = 2 ^ 64 := by rw [limit, Nat.one_shiftLeft]
  have mask : limit - 2 ^ k = 2 ^ 64 - (2 ^ k - 1 + 1) := by
    rw [width, Nat.sub_add_cancel (Nat.two_pow_pos k)]
  have low : 2 ^ k - 1 < 2 ^ 64 :=
    Nat.lt_of_lt_of_le (Nat.sub_lt (Nat.two_pow_pos k) Nat.one_pos)
      (Nat.pow_le_pow_right (by decide) (Nat.le_of_lt small))
  rw [highBits, floorTo, mask]
  apply Nat.eq_of_testBit_eq
  intro i
  rw [Nat.testBit_and, Nat.testBit_two_pow_sub_succ low, Nat.testBit_two_pow_sub_one,
    Nat.testBit_mul_two_pow, Nat.testBit_div_two_pow]
  by_cases high : i < 64
  · by_cases above : k ≤ i
    · simp [high, above, Nat.not_lt.mpr above, Nat.sub_add_cancel above]
    · simp [above, Nat.lt_of_not_le above]
  · -- The address has no such bit.
    have none : a.testBit i = false := Nat.testBit_lt_two_pow
      (Nat.lt_of_lt_of_le (width ▸ inside) (Nat.pow_le_pow_right (by decide) (Nat.le_of_not_lt high)))
    by_cases above : k ≤ i <;> simp [none, above, Nat.sub_add_cancel]

/-- How the roundings of an address to the multiples of a number come out. -/
structure Rounds (a n : Nat) : Prop where
  down : lower a n = .ok (floorTo a n) ∧ IsGreatest {m | n ∣ m ∧ m ≤ a} (floorTo a n)
  /-- The least multiple at or above is answered, unless no address can hold it. -/
  up : raise? a n = .ok (ceilTo? a n) ∧ ∃ m, IsLeast {m | n ∣ m ∧ a ≤ m} m ∧
    ceilTo? a n = (if m < limit then some m else none) ∧
    raise a n = if m < limit then .ok m else .error .alignUpOverflow
  test : alignedTo a n = .ok (isAligned a n) ∧ (isAligned a n ↔ n ∣ a)
  /-- An address is aligned if rounding leaves it as it is, either way. -/
  fixed : (alignedTo a n = .ok true ↔ lower a n = .ok a) ∧
    (alignedTo a n = .ok true ↔ raise? a n = .ok (some a))

theorem isAligned_iff : isAligned a n ↔ n ∣ a := by
  rw [isAligned, beq_iff_eq, Nat.dvd_iff_mod_eq_zero]

theorem floorTo_eq_self_iff : floorTo a n = a ↔ n ∣ a :=
  ⟨fun same => ⟨a / n, ((Nat.mul_comm n _).trans same).symm⟩, Nat.div_mul_cancel⟩

theorem ceilTo?_eq_self_iff (pos : 0 < n) (divides : n ∣ limit) (inside : a < limit) :
    ceilTo? a n = some a ↔ n ∣ a := by
  refine ⟨fun same => Nat.dvd_of_mod_eq_zero (mod_of_ceilTo? same), fun aligned => ?_⟩
  have aligned := Nat.mod_eq_zero_of_dvd aligned
  exact ceilTo?_of_aligned pos aligned (add_le_limit divides aligned inside)

/-- Every address is rounded to the multiples of every power of two that an address can hold. -/
theorem rounds_two_pow (inside : a < limit) (small : k < 64) : Rounds a (2 ^ k) := by
  have pos := Nat.two_pow_pos k
  have divides := two_pow_dvd_limit small
  have power := isPowerOfTwo_two_pow k
  have lowered : lower a (2 ^ k) = .ok (floorTo a (2 ^ k)) := by
    rw [lower, if_pos power, highBits_two_pow inside small]
  have raised : raise? a (2 ^ k) = .ok (ceilTo? a (2 ^ k)) := by
    rw [raise?, if_pos power, ceilTo?, add?]
    split
    · next fits => rw [Option.map_some, Option.map_some, highBits_two_pow fits small]
    · rfl
  have tested : alignedTo a (2 ^ k) = .ok (isAligned a (2 ^ k)) := by
    rw [alignedTo, if_pos power, Nat.and_two_pow_sub_one_eq_mod, isAligned]
  constructor
  case down => exact ⟨lowered, floorTo_isGreatest a _⟩
  case up =>
    have ceiling := ceilTo?_eq divides a
    refine ⟨raised, _, floorTo_add_isLeast a pos, ceiling, ?_⟩
    rw [raise, raised, ceiling]
    by_cases fits : floorTo (a + (2 ^ k - 1)) (2 ^ k) < limit
    · rw [if_pos fits, if_pos fits]
    · rw [if_neg fits, if_neg fits]
  case test => exact ⟨tested, isAligned_iff⟩
  case fixed =>
    have aligned : alignedTo a (2 ^ k) = .ok true ↔ 2 ^ k ∣ a := by
      rw [tested, Except.ok.injEq, isAligned_iff]
    rw [aligned, lowered, raised, Except.ok.injEq, Except.ok.injEq, floorTo_eq_self_iff,
      ceilTo?_eq_self_iff pos divides inside]
    exact ⟨.rfl, .rfl⟩

/-- Above the last page but one there is one more to round up to, above the last there is none. -/
theorem rounds_two_pow_last : limit - 0x1fff < limit ∧ maximum < limit ∧ 12 < 64 ∧
    raise? (limit - 0x1fff) 0x1000 = .ok (some (limit - 0x1000)) ∧ raise? maximum 0x1000 = .ok none ∧
    Rounds (limit - 0x1fff) (2 ^ 12) ∧ Rounds maximum (2 ^ 12) :=
  ⟨by decide, by decide, by decide, by decide, by decide, rounds_two_pow (by decide) (by decide),
    rounds_two_pow (by decide) (by decide)⟩

end RegionTree.Address
