import Mathlib.Algebra.BigOperators.Group.Finset.Piecewise

/-! # Trees of paths

    The nodes of a tree are told by their paths: the child numbers on the way from the root, the
    last first, so that a path is a suffix of those below it.  A sum over the nodes below a path is
    that of the node itself and those of the nodes below its children. -/

namespace PathTree

open List

variable {N M : Type*} [AddCommMonoid M] {nodes : List N} {path : N → List ℕ} {g : N → M}
  {p q : List ℕ} {m : ℕ} {v : N}

/-- The sum of a weight over the nodes at a path or below it. -/
def below (nodes : List N) (path : N → List ℕ) (g : N → M) (p : List ℕ) : M :=
  (nodes.map fun w => if p <:+ path w then g w else 0).sum

theorem below_nil : below nodes path g [] = (nodes.map g).sum := by
  simp [below]

/-- A path below another one is that one itself, or below just one of its children. -/
theorem ite_suffix (x : M) (h : ∀ i, (i :: p) <:+ q → i < m) :
    (if p <:+ q then x else 0) =
      (if q = p then x else 0) +
        ((List.range m).map fun i => if (i :: p) <:+ q then x else 0).sum := by
  by_cases hpq : p <:+ q
  · rw [if_pos hpq]
    obtain ⟨l, rfl⟩ := hpq
    rcases eq_nil_or_concat l with rfl | ⟨l', i, rfl⟩
    · -- no child's path is as short
      have hnone : ∀ i, ¬(i :: p) <:+ p := by
        intro i hi
        have := hi.length_le
        rw [length_cons] at this
        omega
      simp [hnone]
    · have hself : (i :: p) <:+ (l'.concat i ++ p) := ⟨l', by simp⟩
      have honly : ∀ j, (j :: p) <:+ (l'.concat i ++ p) ↔ j = i := by
        intro j
        refine ⟨fun hj => ?_, fun hj => hj ▸ hself⟩
        have hsuffix := suffix_of_suffix_length_le hj hself (le_refl _)
        exact (cons.inj (hsuffix.eq_of_length rfl)).1
      have hne : l'.concat i ++ p ≠ p := by
        intro heq
        have hlength := congrArg length heq
        simp only [concat_eq_append, length_append, length_singleton] at hlength
        omega
      have hsum : ((range m).map fun j => if j = i then x else 0).sum =
        ∑ j ∈ Finset.range m, if j = i then x else 0 := rfl
      simp only [honly]
      rw [if_neg hne, zero_add, hsum, Finset.sum_ite_eq', if_pos (Finset.mem_range.mpr (h i hself))]
  · have hne : q ≠ p := fun heq => hpq (heq ▸ suffix_rfl)
    have hnone : ∀ i, ¬(i :: p) <:+ q := fun i hi => hpq ((suffix_cons i p).trans hi)
    simp [hpq, hne, hnone]

/-- **The sum below a node**, where no other node has its path, is its own weight and the sums
    below its children. -/
theorem below_eq (hnodup : nodes.Nodup) (hv : v ∈ nodes)
    (hone : ∀ w ∈ nodes, path w = path v → w = v)
    (hchildren : ∀ w ∈ nodes, ∀ i, (i :: path v) <:+ path w → i < m) :
    below nodes path g (path v) =
      g v + ((List.range m).map fun i => below nodes path g (i :: path v)).sum := by
  classical
  have hself : (nodes.map fun w => if path w = path v then g w else 0).sum = g v := by
    have hcongr : (nodes.map fun w => if path w = path v then g w else 0) =
        nodes.map fun w => if w = v then g w else 0 := by
      refine map_congr_left fun w hw => ?_
      by_cases heq : w = v
      · rw [if_pos heq, if_pos (congrArg path heq)]
      · rw [if_neg heq, if_neg fun hpath => heq (hone w hw hpath)]
    rw [hcongr, ← sum_toFinset _ hnodup, Finset.sum_ite_eq',
      if_pos (mem_toFinset.mpr hv)]
  have hswap : (nodes.map fun w =>
      ((range m).map fun i => if (i :: path v) <:+ path w then g w else 0).sum).sum =
      ((range m).map fun i => below nodes path g (i :: path v)).sum := by
    simpa [below] using Multiset.sum_map_sum_map (nodes : Multiset N) (range m : Multiset ℕ)
      (f := fun w i => if (i :: path v) <:+ path w then g w else 0)
  rw [← hself, ← hswap, ← sum_map_add]
  unfold below
  congr 1
  exact map_congr_left fun w hw => ite_suffix (g w) (hchildren w hw)

end PathTree
