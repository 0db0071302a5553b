import AdvCompArch.Grappa.GlobalVector
import Mathlib.Data.Int.ModEq
import Mathlib.Tactic.NormNum

/-! # Steps around the end of a global vector

    `incr_with_wrap` adds an increment to a position of the backing array.  The sum is a `long`;
    the capacity is a `size_t`, so that the sum is compared with it, and taken modulo it, as a
    `size_t`, too. -/

namespace Grappa

namespace GlobalVector

variable {capacity i : ℕ} {incr s : ℤ}

theorem incr_with_wrap_eq {u : ℕ} (hu : ((i + incr) % 2 ^ 64).toNat = u) :
    incr_with_wrap capacity i incr =
      if capacity ≤ u then u % capacity else if 2 ^ 63 ≤ u then (u + capacity) % 2 ^ 64 else u := by
  have hval : (Int.bmod (i + incr) (2 ^ 64) % 2 ^ 64).toNat = u := by
    rw [← hu]
    congr 1
    exact Int.bmod_emod
  have hneg : Int.bmod (i + incr) (2 ^ 64) < 0 ↔ 2 ^ 63 ≤ u := by
    rw [← hu, Int.bmod_def]
    norm_num
    split <;> omega
  unfold incr_with_wrap
  simp only [hval, hneg]

theorem incr_with_wrap_of_nonneg {m : ℕ} (hm : (i : ℤ) + incr = m) (hlt : m < 2 ^ 63) :
    incr_with_wrap capacity i incr = m % capacity := by
  have hu : ((i + incr) % 2 ^ 64).toNat = m := by omega
  rw [incr_with_wrap_eq hu]
  split_ifs with hle hneg
  · rfl
  · omega
  · rw [Nat.mod_eq_of_lt (by omega)]

theorem incr_with_wrap_succ (hi : i < capacity) (hcapacity : capacity < 2 ^ 63) :
    incr_with_wrap capacity i (1 : ℕ) = (i + 1) % capacity :=
  incr_with_wrap_of_nonneg (Nat.cast_add i 1).symm (by omega)

theorem incr_with_wrap_pred (hi : i < capacity) (hcapacity : capacity < 2 ^ 63) (hpos : i ≠ 0) :
    incr_with_wrap capacity i (0 - (1 : ℕ)) = i - 1 := by
  have hsum : (i : ℤ) + (0 - (1 : ℕ)) = ((i - 1 : ℕ) : ℤ) := by omega
  rw [incr_with_wrap_of_nonneg hsum (by omega), Nat.mod_eq_of_lt (by omega)]

theorem incr_with_wrap_zero (hcapacity : capacity < 2 ^ 63) :
    incr_with_wrap capacity 0 (0 - (1 : ℕ)) = (2 ^ 64 - 1) % capacity := by
  rw [incr_with_wrap_eq (u := 2 ^ 64 - 1) (by decide), if_pos (by omega)]

/-! ### The sum modulo the capacity -/

/-- The sums that `incr_with_wrap` takes modulo the capacity. -/
def Wraps (capacity : ℕ) (s : ℤ) : Prop :=
  (0 ≤ s ∧ s < 2 ^ 64 ∧ (s < 2 ^ 63 ∨ capacity ≤ s)) ∨
    (s < 0 ∧ (capacity ∣ 2 ^ 64 ∨ 2 ^ 64 + s < capacity))

instance (capacity : ℕ) (s : ℤ) : Decidable (Wraps capacity s) :=
  inferInstanceAs (Decidable ((_ ∧ _) ∨ (_ ∧ _)))

/-- Adding `2 ^ 64` keeps a remainder just if the divisor divides it. -/
theorem add_two_pow_emod_iff : (2 ^ 64 + s) % capacity = s % capacity ↔ capacity ∣ 2 ^ 64 := by
  have hsub : 2 ^ 64 + s - s = ((2 ^ 64 : ℕ) : ℤ) := by
    rw [add_sub_cancel_right]
    rfl
  rw [Int.emod_eq_emod_iff_emod_sub_eq_zero, hsub, ← Int.dvd_iff_emod_eq_zero,
    Int.natCast_dvd_natCast]

theorem emod_of_neg (hneg : s < 0) (hs : -(capacity : ℤ) ≤ s) :
    s % capacity = if s = -(capacity : ℤ) then 0 else s + capacity := by
  split_ifs with heq
  · rw [heq, Int.neg_emod_self]
  · rw [← Int.add_emod_right, Int.emod_eq_of_lt (by omega) (by omega)]

/-- **The position after an increment**: it is the sum modulo the capacity just if the sum is a
    `long` that is not negative (or, at capacities above `2 ^ 63`, a `size_t` from the capacity on), or
    is negative and the capacity divides `2 ^ 64` (or is above the sum as a `size_t`). -/
theorem incr_with_wrap_iff (hcapacity : 0 < capacity) (hsize : capacity < 2 ^ 64)
    (hi : i < capacity) (hincr : |incr| ≤ capacity) (hlong : -2 ^ 63 ≤ incr ∧ incr < 2 ^ 63) :
    (incr_with_wrap capacity i incr : ℤ) = (i + incr) % capacity ↔ Wraps capacity (i + incr) := by
  obtain ⟨hlow, hhigh⟩ := abs_le.mp hincr
  obtain ⟨hmin, hmax⟩ := hlong
  obtain ⟨s, hs⟩ : ∃ s, (i : ℤ) + incr = s := ⟨_, rfl⟩
  rw [hs]
  have hrange : -(capacity : ℤ) ≤ s ∧ s < 2 * capacity := by omega
  rcases lt_or_ge s 0 with hneg | hnonneg
  · -- the sum as a `size_t` is in the upper half
    have hu : ((i + incr) % 2 ^ 64).toNat = (2 ^ 64 + s).toNat := by omega
    rw [incr_with_wrap_eq hu]
    split_ifs with hle hupper
    · have hiff : (2 ^ 64 + s) % capacity = s % capacity ↔ capacity ∣ 2 ^ 64 := add_two_pow_emod_iff
      have hcast : (((2 ^ 64 + s).toNat % capacity : ℕ) : ℤ) = (2 ^ 64 + s) % capacity := by
        rw [Int.natCast_mod, Int.toNat_of_nonneg (by omega)]
      rw [hcast, hiff, Wraps]
      omega
    · -- the branch for negative sums
      have hmod := emod_of_neg hneg hrange.1
      rw [if_neg (by omega)] at hmod
      refine iff_of_true ?_ (.inr ⟨hneg, .inr (by omega)⟩)
      rw [hmod]
      omega
    · omega
  · rcases lt_or_ge s (2 ^ 64) with hfits | hover
    · have hu : ((i + incr) % 2 ^ 64).toNat = s.toNat := by omega
      rw [incr_with_wrap_eq hu]
      split_ifs with hle hupper
      · refine iff_of_true ?_ (.inl ⟨hnonneg, hfits, .inr (by omega)⟩)
        rw [Int.natCast_mod, Int.toNat_of_nonneg hnonneg]
      · -- a position in the upper half is taken for a negative one
        rw [Int.emod_eq_of_lt hnonneg (by omega)]
        refine iff_of_false (by omega) fun h => ?_
        unfold Wraps at h
        omega
      · rw [Int.emod_eq_of_lt hnonneg (by omega)]
        exact iff_of_true (by omega) (.inl ⟨hnonneg, hfits, .inl (by omega)⟩)
    · -- the sum is no `size_t`
      have hu : ((i + incr) % 2 ^ 64).toNat = (s - 2 ^ 64).toNat := by omega
      have hmod : s % capacity = s - capacity := by
        rw [← Int.sub_emod_right, Int.emod_eq_of_lt (by omega) (by omega)]
      rw [incr_with_wrap_eq hu, if_neg (by omega), if_neg (by omega), hmod]
      refine iff_of_false (by omega) fun h => ?_
      unfold Wraps at h
      omega

theorem incr_with_wrap_back : (incr_with_wrap 8 0 (-1) : ℤ) = ((0 : ℕ) + -1) % (8 : ℕ) ↔
    Wraps 8 ((0 : ℕ) + -1) :=
  incr_with_wrap_iff (by decide) (by decide) (by decide) (by decide) (by decide)

/-- One step back from the first of three positions stays there. -/
theorem incr_with_wrap_three : incr_with_wrap 3 0 (-1) = 0 ∧
    (incr_with_wrap 3 0 (-1) : ℤ) ≠ ((0 : ℕ) + -1) % (3 : ℕ) := by
  decide

end GlobalVector

end Grappa
