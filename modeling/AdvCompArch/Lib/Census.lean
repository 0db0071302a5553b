import Mathlib.Algebra.BigOperators.Group.Finset.Piecewise
import Mathlib.Algebra.Order.BigOperators.Group.Finset
import Mathlib.Algebra.Order.Ring.Int
import Mathlib.Data.Finset.Max
import Mathlib.Tactic.Abel

/-! # Counting what is in flight

    An invariant of a distributed count equates the counters of the processes with the
    weight of the messages in flight.  This module has the arithmetic of such equations.

    * `weigh`: the total weight of a multiset of messages.
    * `sum_add_of_eq_off`: a sum of counters of which one has changed.
    * `busy`: the number of counters that are positive.
    * `eq_empty_of_causes`: there is no set of processes each of which waits for an
      earlier one of the set. -/

namespace Census

open Finset

/-! ### Weights -/

section weights

variable {M : Type*} {f g : M → ℤ} {m : M} {ms ns : Multiset M}

/-- The total weight of the messages. -/
def weigh (f : M → ℤ) (ms : Multiset M) : ℤ := (ms.map f).sum

@[simp] theorem weigh_zero (f : M → ℤ) : weigh f 0 = 0 := by simp [weigh]

@[simp] theorem weigh_cons (f : M → ℤ) (m : M) (ms : Multiset M) :
    weigh f (m ::ₘ ms) = f m + weigh f ms := by
  simp [weigh]

@[simp] theorem weigh_add (f : M → ℤ) (ms ns : Multiset M) :
    weigh f (ms + ns) = weigh f ms + weigh f ns := by
  simp [weigh]

theorem weigh_map_list {ι : Type*} (f : M → ℤ) (l : List ι) (m : ι → M) :
    weigh f (l.map m : List M) = (l.map fun i => f (m i)).sum := by
  simp [weigh, Function.comp_def]

theorem weigh_nonneg (hf : ∀ m ∈ ms, 0 ≤ f m) : 0 ≤ weigh f ms := by
  apply Multiset.sum_nonneg
  intro x hx
  obtain ⟨m, hm, rfl⟩ := Multiset.mem_map.mp hx
  exact hf m hm

theorem le_weigh_of_mem (hf : ∀ m ∈ ms, 0 ≤ f m) (hm : m ∈ ms) : f m ≤ weigh f ms := by
  obtain ⟨ns, rfl⟩ := Multiset.exists_cons_of_mem hm
  have : 0 ≤ weigh f ns := weigh_nonneg fun k hk => hf k (Multiset.mem_cons_of_mem hk)
  rw [weigh_cons]
  omega

theorem weigh_mono (h : ∀ m ∈ ms, f m ≤ g m) : weigh f ms ≤ weigh g ms :=
  Multiset.sum_map_le_sum_map f g h

theorem weigh_eq_zero (h : ∀ m ∈ ms, f m = 0) : weigh f ms = 0 := by
  have : ms.map f = ms.map fun _ => 0 := Multiset.map_congr rfl h
  simp [weigh, this]

end weights

/-! ### Counters -/

section counters

variable {ι : Type*} [Fintype ι] [DecidableEq ι]

omit [Fintype ι] in
theorem sum_add_of_eq_off {N : Type*} [AddCommMonoid N] {s : Finset ι} {f g : ι → N} {c : ι}
    (hc : c ∈ s) (h : ∀ d ∈ s, d ≠ c → g d = f d) : ∑ d ∈ s, g d + f c = ∑ d ∈ s, f d + g c := by
  rw [← add_sum_erase _ g hc, ← add_sum_erase _ f hc,
    sum_congr rfl fun d hd => h d (mem_of_mem_erase hd) (ne_of_mem_erase hd)]
  abel

theorem sum_eq_of_eq_off {f g : ι → ℤ} {c : ι} (h : ∀ d, d ≠ c → g d = f d) :
    ∑ d, g d = ∑ d, f d - f c + g c := by
  have hsum := sum_add_of_eq_off (mem_univ c) fun d _ => h d
  omega

theorem sum_eq_add {N : Type*} [AddCommMonoid N] {f g : ι → N} {c : ι} {x : N}
    (hc : g c = f c + x) (h : ∀ d, d ≠ c → g d = f d) : ∑ d, g d = ∑ d, f d + x := by
  rw [← add_sum_erase _ g (mem_univ c), ← add_sum_erase _ f (mem_univ c), hc, add_right_comm,
    sum_congr rfl fun d hd => h d (ne_of_mem_erase hd)]

/-- Whether a counter is positive. -/
def busy (x : ℤ) : ℤ := if 0 < x then 1 else 0

@[simp] theorem busy_zero : busy 0 = 0 := rfl

theorem busy_of_pos {x : ℤ} (h : 0 < x) : busy x = 1 := if_pos h

/-- A counter that changes counts for what it is before and after. -/
theorem sum_busy_update (count w : ι → ℤ) (c : ι) (x : ℤ) :
    ∑ d, (busy (Function.update count c x d) - w d) =
      ∑ d, (busy (count d) - w d) - busy (count c) + busy x := by
  rw [sum_eq_of_eq_off (f := fun d => busy (count d) - w d) (c := c)]
  · rw [Function.update_self]
    abel
  · intro d hd
    rw [Function.update_of_ne hd]

end counters

theorem eq_empty_of_causes {ι : Type*} {A : Finset ι} (stamp : ι → ℕ)
    (h : ∀ c ∈ A, ∃ o ∈ A, stamp o < stamp c) : A = ∅ := by
  by_contra hne
  obtain ⟨c, hc, hmin⟩ := exists_min_image A stamp (nonempty_iff_ne_empty.mpr hne)
  obtain ⟨o, ho, hlt⟩ := h c hc
  exact absurd (hmin o ho) (by omega)

end Census
