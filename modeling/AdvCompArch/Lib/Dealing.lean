import Mathlib.Algebra.BigOperators.Group.Finset.Piecewise

/-! # Dealing a list to piles in turn

    The elements of a list go to the piles `0, …, n - 1` one after the other, from any pile
    on, and after the last pile comes the first.  Two piles then differ by one element at
    most, the next element goes to the pile where the last round stopped, and the first
    element is on top of the pile where it began. -/

namespace Dealing

open List

variable {α : Type*} {n start i j : ℕ} {x : α} {l : List α}

/-- The pile after another. -/
def after (n i : ℕ) : ℕ := if i + 1 = n then 0 else i + 1

theorem after_lt (hi : i < n) : after n i < n := by
  rw [after]
  split_ifs <;> omega

/-- The pile `k` places further on. -/
def ahead (n start k : ℕ) : ℕ := (start + k) % n

theorem ahead_zero (hs : start < n) : ahead n start 0 = start := Nat.mod_eq_of_lt hs

theorem ahead_lt (hs : start < n) (k : ℕ) : ahead n start k < n :=
  Nat.mod_lt _ (Nat.zero_lt_of_lt hs)

theorem ahead_after (hs : start < n) (k : ℕ) :
    ahead n (after n start) k = ahead n start (k + 1) := by
  rw [ahead, ahead, after]
  split_ifs with h
  · rw [zero_add, show start + (k + 1) = k + n by omega, Nat.add_mod_right]
  · rw [show start + 1 + k = start + (k + 1) by omega]

theorem after_ahead (hs : start < n) (k : ℕ) :
    after n (ahead n start k) = ahead n start (k + 1) := by
  have hmod : ahead n start (k + 1) = (ahead n start k + 1) % n := by
    rw [ahead, ahead, ← add_assoc, Nat.mod_add_mod]
  rw [hmod, after]
  split_ifs with h
  · rw [h, Nat.mod_self]
  · have := ahead_lt hs k
    rw [Nat.mod_eq_of_lt (by omega)]

/-- Pile `i` after the list is dealt from pile `start` on. -/
def pile (n : ℕ) : ℕ → ℕ → List α → List α
  | _, _, [] => []
  | start, i, x :: l =>
    if start = i then x :: pile n (after n start) i l else pile n (after n start) i l

@[simp] theorem pile_nil : pile n start i ([] : List α) = [] := rfl

theorem pile_cons_self : pile n i i (x :: l) = x :: pile n (after n i) i l := if_pos rfl

theorem pile_cons_of_ne (h : start ≠ i) :
    pile n start i (x :: l) = pile n (after n start) i l := if_neg h

theorem pile_snoc (hs : start < n) : pile n start i (l ++ [x]) =
    if ahead n start l.length = i then pile n start i l ++ [x] else pile n start i l := by
  induction l generalizing start with
  | nil =>
    rw [length_nil, ahead_zero hs]
    rfl
  | cons y l ih =>
    have hrest := ih (after_lt hs)
    rw [ahead_after hs] at hrest
    rw [length_cons, cons_append]
    by_cases h : start = i
    · subst h
      rw [pile_cons_self, pile_cons_self, hrest]
      split_ifs <;> rfl
    · rw [pile_cons_of_ne h, pile_cons_of_ne h, hrest]

theorem pile_sublist : List.Sublist (pile n start i l) l := by
  induction l generalizing start with
  | nil => exact List.Sublist.refl _
  | cons y l ih =>
    rw [pile]
    split_ifs
    · exact ih.cons_cons y
    · exact ih.cons y

theorem mem_of_mem_pile (h : x ∈ pile n start i l) : x ∈ l := pile_sublist.subset h

theorem pile_disjoint (hl : l.Nodup) (hi : x ∈ pile n start i l) (hj : x ∈ pile n start j l) :
    i = j := by
  induction l generalizing start with
  | nil => cases hi
  | cons y l ih =>
    obtain ⟨hy, hl⟩ := nodup_cons.mp hl
    by_cases hxy : x = y
    · subst hxy
      have honly : ∀ k, x ∈ pile n start k (x :: l) → start = k := by
        intro k hk
        by_contra hne
        rw [pile_cons_of_ne hne] at hk
        exact hy (mem_of_mem_pile hk)
      exact (honly i hi).symm.trans (honly j hj)
    · have hrest : ∀ k, x ∈ pile n start k (y :: l) → x ∈ pile n (after n start) k l := by
        intro k hk
        rw [pile] at hk
        split_ifs at hk
        · exact (mem_cons.mp hk).resolve_left hxy
        · exact hk
      exact ih hl (hrest i hi) (hrest j hj)

/-- How many places pile `i` is ahead of the first one. -/
def distance (n start i : ℕ) : ℕ := if start ≤ i then i - start else i + n - start

theorem distance_lt (hs : start < n) (hi : i < n) : distance n start i < n := by
  rw [distance]
  split_ifs <;> omega

theorem distance_after (hi : i < n) :
    distance n (after n start) i = if start = i then n - 1 else distance n start i - 1 := by
  rw [distance, distance, after]
  split_ifs <;> omega

theorem distance_pos (hi : i < n) (h : start ≠ i) (hs : start < n) : 0 < distance n start i := by
  rw [distance]
  split_ifs <;> omega

/-- **The size of a pile** is the number of rounds that reach it. -/
theorem length_pile (hs : start < n) (hi : i < n) :
    (pile n start i l).length = (l.length + (n - 1 - distance n start i)) / n := by
  have hn : 0 < n := by omega
  induction l generalizing start with
  | nil =>
    rw [pile_nil, length_nil, zero_add, Nat.div_eq_of_lt (by omega)]
  | cons y l ih =>
    have hrest := ih (after_lt hs)
    rw [distance_after hi] at hrest
    by_cases h : start = i
    · subst h
      rw [if_pos rfl, Nat.sub_self, add_zero] at hrest
      rw [pile_cons_self, length_cons, length_cons, hrest, distance, if_pos le_rfl,
        Nat.sub_self, show l.length + 1 + (n - 1 - 0) = l.length + n by omega,
        Nat.add_div_right _ hn]
    · have hpos := distance_pos hi h hs
      have hlt := distance_lt hs hi
      rw [if_neg h] at hrest
      rw [pile_cons_of_ne h, length_cons, hrest]
      congr 1
      omega

theorem length_pile_le (hs : start < n) (hi : i < n) (hj : j < n) :
    (pile n start i l).length ≤ (pile n start j l).length + 1 := by
  have hn : 0 < n := by omega
  rw [length_pile hs hi, length_pile hs hj, ← Nat.add_div_right _ hn]
  apply Nat.div_le_div_right
  omega

theorem sum_length_pile (hs : start < n) :
    ∑ i ∈ Finset.range n, (pile n start i l).length = l.length := by
  induction l generalizing start with
  | nil => simp
  | cons y l ih =>
    have hstep : ∀ i, (pile n start i (y :: l)).length =
        (pile n (after n start) i l).length + if start = i then 1 else 0 := by
      intro i
      rw [pile]
      split_ifs <;> rfl
    simp only [hstep]
    rw [Finset.sum_add_distrib, ih (after_lt hs), Finset.sum_ite_eq,
      if_pos (Finset.mem_range.mpr hs), length_cons]

end Dealing
