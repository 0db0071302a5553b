import Mathlib.Algebra.BigOperators.Ring.Finset
import Mathlib.Algebra.Order.BigOperators.Group.Finset
import Mathlib.Tactic.FieldSimp
import Mathlib.Tactic.LinearCombination
import Mathlib.Tactic.Ring

/-! # Mean and spread of samples

    The mean of a multiset of samples and the sum of their squared distances from it, as they
    change when one sample is added (`mean_cons`, `spread_cons`) and when two multisets are put
    together (`mean_add`, `spread_add`).

    Both are functions of the number of samples, their sum and the sum of their squares
    (`spread_eq`).  The mean of the means of some parts is the mean of the whole just if the sums of
    the parts, weighted by how far their sizes are from the average size, cancel out
    (`mean_means_eq_iff`). -/

namespace Moments

open Multiset (card_add card_cons card_pos map_add map_cons sum_add sum_cons sum_sum)

variable {K : Type*} [Field K]

def mean (xs : Multiset K) : K := xs.sum / xs.card

/-- The sum of the squared distances from the mean. -/
def spread (xs : Multiset K) : K := (xs.map fun x => (x - mean xs) ^ 2).sum

@[simp] theorem mean_zero : mean (0 : Multiset K) = 0 := by simp [mean]

@[simp] theorem spread_zero : spread (0 : Multiset K) = 0 := by simp [spread]

variable {xs ys : Multiset K} {x : K}

/-- The squared distances from any place. -/
theorem sum_sq_sub (xs : Multiset K) (m : K) :
    (xs.map fun x => (x - m) ^ 2).sum = (xs.map (· ^ 2)).sum - 2 * m * xs.sum + xs.card * m ^ 2 := by
  induction xs using Multiset.induction with
  | empty => simp
  | cons x xs ih =>
    simp only [map_cons, sum_cons, card_cons, Nat.cast_succ, ih]
    ring

variable [CharZero K]

theorem card_ne_zero (h : xs ≠ 0) : (xs.card : K) ≠ 0 :=
  Nat.cast_ne_zero.mpr fun h0 => h (Multiset.card_eq_zero.mp h0)

theorem spread_eq (xs : Multiset K) :
    spread xs = (xs.map (· ^ 2)).sum - xs.sum ^ 2 / xs.card := by
  by_cases h : xs = 0
  · simp [h]
  · have hn := card_ne_zero h
    rw [spread, sum_sq_sub, mean]
    field_simp
    ring

theorem mean_cons {m : K} (hm : xs ≠ 0 → m = mean xs) :
    m + (x - m) / (xs.card + 1 : ℕ) = mean (x ::ₘ xs) := by
  have hn : ((xs.card + 1 : ℕ) : K) ≠ 0 := Nat.cast_ne_zero.mpr (Nat.succ_ne_zero _)
  by_cases h : xs = 0
  · simp [h, mean]
  · have hn' := card_ne_zero h
    rw [hm h]
    simp only [mean, sum_cons, card_cons]
    field_simp
    push_cast
    ring

theorem spread_cons {m : K} (hm : xs ≠ 0 → m = mean xs) :
    spread xs + (x - m) * (x - mean (x ::ₘ xs)) = spread (x ::ₘ xs) := by
  have hn : (xs.card : K) + 1 ≠ 0 := Nat.cast_add_one_ne_zero _
  by_cases h : xs = 0
  · simp [h, mean, spread]
  · have hn' := card_ne_zero h
    rw [hm h]
    simp only [spread_eq, mean, map_cons, sum_cons, card_cons, Nat.cast_succ]
    field_simp
    ring

theorem mean_add (hx : xs ≠ 0) (hy : ys ≠ 0) :
    mean xs + (mean ys - mean xs) * (ys.card / (ys.card + xs.card : ℕ)) = mean (xs + ys) := by
  have hn := card_ne_zero hx
  have hn' := card_ne_zero hy
  have hsum : (ys.card : K) + xs.card ≠ 0 := by
    exact_mod_cast (Nat.add_pos_right _ (Multiset.card_pos.mpr hx)).ne'
  have hsum' : (xs.card : K) + ys.card ≠ 0 := add_comm (ys.card : K) xs.card ▸ hsum
  simp only [mean, sum_add, card_add, Nat.cast_add]
  field_simp
  ring

theorem spread_add (hx : xs ≠ 0) (hy : ys ≠ 0) :
    spread xs + spread ys +
      (mean ys - mean xs) * (mean ys - mean xs) * xs.card * ys.card / (ys.card + xs.card : ℕ) =
        spread (xs + ys) := by
  have hn := card_ne_zero hx
  have hn' := card_ne_zero hy
  have hsum : (ys.card : K) + xs.card ≠ 0 := by
    exact_mod_cast (Nat.add_pos_right _ (Multiset.card_pos.mpr hx)).ne'
  have hsum' : (xs.card : K) + ys.card ≠ 0 := add_comm (ys.card : K) xs.card ▸ hsum
  simp only [spread_eq, mean, map_add, sum_add, card_add, Nat.cast_add]
  field_simp
  ring

theorem mean_means_eq_iff {ι : Type*} (s : Finset ι) (parts : ι → Multiset K)
    (hparts : ∀ c ∈ s, parts c ≠ 0) :
    mean (s.val.map fun c => mean (parts c)) = mean (∑ c ∈ s, parts c) ↔
      ∑ c ∈ s, ((s.card : K) - (∑ c ∈ s, parts c).card / (parts c).card) * (parts c).sum = 0 := by
  by_cases hs : s = ∅
  · subst hs
    simp
  · obtain ⟨c, hc⟩ := Finset.nonempty_iff_ne_empty.mpr hs
    have hcard : (s.card : K) ≠ 0 := Nat.cast_ne_zero.mpr (Finset.card_ne_zero_of_mem hc)
    have htotal : ((∑ c ∈ s, parts c).card : K) ≠ 0 := by
      apply card_ne_zero
      intro hzero
      exact hparts c hc (Finset.sum_eq_zero_iff.mp hzero c hc)
    have hterm : ∀ c ∈ s,
        ((s.card : K) - (∑ c ∈ s, parts c).card / (parts c).card) * (parts c).sum =
          s.card * (parts c).sum - (∑ c ∈ s, parts c).card * mean (parts c) := by
      intro c _
      rw [mean]
      ring
    have hmeans : (s.val.map fun c => mean (parts c)).sum = ∑ c ∈ s, mean (parts c) := rfl
    rw [Finset.sum_congr rfl hterm, Finset.sum_sub_distrib, ← Finset.mul_sum, ← Finset.mul_sum,
      ← sum_sum, sub_eq_zero, mean, mean, hmeans, Multiset.card_map, Finset.card_val,
      div_eq_div_iff hcard htotal]
    constructor
    · intro h
      rw [mul_comm, ← h, mul_comm]
    · intro h
      rw [mul_comm, ← h, mul_comm]

end Moments
