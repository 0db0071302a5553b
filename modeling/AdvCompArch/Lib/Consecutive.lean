import Mathlib.Algebra.BigOperators.Group.List.Basic
import Mathlib.Data.BitVec
import Mathlib.Data.Set.Lattice
import Mathlib.Order.CompletePartialOrder

/-! # Consecutive intervals

    A list of intervals, each a start and a length, in which every interval starts where
    the one before it ends.  The starts are then the partial sums of the lengths.  Over
    the words of a fixed width the intervals are arcs of a circle: as long as they do not
    go round it they are disjoint, and together they are one arc. -/

/-- The intervals `(start, length)` lead from `a` to `b`, one after the other. -/
def Consecutive {M : Type*} [Add M] : M → List (M × M) → M → Prop
  | a, [], b => a = b
  | a, (r, n) :: l, b => r = a ∧ Consecutive (a + n) l b

namespace Consecutive

open List

section Monoid

variable {M : Type*} [AddMonoid M] {a b r n : M} {l : List (M × M)}

theorem snoc (h : Consecutive a l b) (n : M) : Consecutive a (l ++ [(b, n)]) (b + n) := by
  induction l generalizing a with
  | nil =>
    obtain rfl : a = b := h
    exact ⟨rfl, rfl⟩
  | cons p l ih => exact ⟨h.1, ih h.2⟩

theorem end_eq (h : Consecutive a l b) : b = a + (l.map Prod.snd).sum := by
  induction l generalizing a with
  | nil =>
    obtain rfl : a = b := h
    simp
  | cons p l ih => rw [ih h.2, map_cons, sum_cons, add_assoc]

/-- Every interval starts at the sum of the lengths before it. -/
theorem start_eq (h : Consecutive a l b) {i : ℕ} (hi : l[i]? = some (r, n)) :
    r = a + ((l.take i).map Prod.snd).sum := by
  induction l generalizing a i with
  | nil => simp at hi
  | cons p l ih =>
    cases i with
    | zero =>
      cases hi
      simpa using h.1
    | succ i =>
      rw [ih h.2 hi, take_succ_cons, map_cons, sum_cons, add_assoc]

end Monoid

theorem exists_mem_iff {a b x : ℕ} {l : List (ℕ × ℕ)} (h : Consecutive a l b) :
    (∃ p ∈ l, p.1 ≤ x ∧ x < p.1 + p.2) ↔ a ≤ x ∧ x < b := by
  induction l generalizing a with
  | nil =>
    obtain rfl : a = b := h
    simp
  | cons p l ih =>
    have hrest := ih h.2
    have hend := h.2.end_eq
    have hor : (∃ q ∈ p :: l, q.1 ≤ x ∧ x < q.1 + q.2) ↔
        (p.1 ≤ x ∧ x < p.1 + p.2) ∨ ∃ q ∈ l, q.1 ≤ x ∧ x < q.1 + q.2 := by
      simp
    rw [hor, hrest, h.1]
    omega

theorem le_end {a b : ℕ} {l : List (ℕ × ℕ)} (h : Consecutive a l b) {p : ℕ × ℕ} (hp : p ∈ l) :
    a ≤ p.1 ∧ p.1 + p.2 ≤ b := by
  induction l generalizing a with
  | nil => cases hp
  | cons q l ih =>
    have hend := h.2.end_eq
    rcases mem_cons.mp hp with rfl | hp
    · have := h.1
      omega
    · have := ih h.2 hp
      omega

theorem pairwise_le {a b : ℕ} {l : List (ℕ × ℕ)} (h : Consecutive a l b) :
    l.Pairwise fun p q => p.1 + p.2 ≤ q.1 := by
  induction l generalizing a with
  | nil => exact Pairwise.nil
  | cons p l ih =>
    apply Pairwise.cons
    · intro q hq
      have := (h.2.le_end hq).1
      rw [h.1]
      exact this
    · exact ih h.2

section Circle

variable {w : ℕ} {a b r n x : BitVec w} {l : List (BitVec w × BitVec w)}

/-- The words from `r` on, `n` of them. -/
def arc (r n : BitVec w) : Set (BitVec w) := {x | (x - r).toNat < n.toNat}

/-- How many words the intervals have together. -/
def size (l : List (BitVec w × BitVec w)) : ℕ := (l.map fun p => p.2.toNat).sum

/-- A word is in the part of the circle after the first `n` words from `a`. -/
theorem toNat_sub_add_lt {m : ℕ} (hm : n.toNat + m ≤ 2 ^ w) :
    (x - (a + n)).toNat < m ↔ n.toNat ≤ (x - a).toNat ∧ (x - a).toNat < n.toNat + m := by
  have hsub : x - (a + n) = x - a - n := sub_add_eq_sub_sub x a n
  rw [hsub]
  generalize x - a = y
  have hy := y.isLt
  rw [BitVec.toNat_sub]
  by_cases hle : n.toNat ≤ y.toNat
  · have hmod : (2 ^ w - n.toNat + y.toNat) % 2 ^ w = y.toNat - n.toNat := by
      rw [show 2 ^ w - n.toNat + y.toNat = y.toNat - n.toNat + 2 ^ w by omega,
        Nat.add_mod_right, Nat.mod_eq_of_lt (by omega)]
    omega
  · rw [Nat.mod_eq_of_lt (by omega)]
    omega

theorem mem_iff (h : Consecutive a l b) (hsize : size l ≤ 2 ^ w) :
    (∃ p ∈ l, x ∈ arc p.1 p.2) ↔ (x - a).toNat < size l := by
  induction l generalizing a with
  | nil => simp [size]
  | cons p l ih =>
    have hcons : size (p :: l) = p.2.toNat + size l := by simp [size]
    rw [hcons] at hsize ⊢
    have hrest := toNat_sub_add_lt (x := x) (a := a) hsize
    have hor : (∃ q ∈ p :: l, x ∈ arc q.1 q.2) ↔ x ∈ arc p.1 p.2 ∨ ∃ q ∈ l, x ∈ arc q.1 q.2 := by
      simp
    rw [hor, ih h.2 (by omega), hrest, h.1]
    simp only [arc, Set.mem_ofPred_eq]
    omega

theorem pairwise_disjoint (h : Consecutive a l b) (hsize : size l ≤ 2 ^ w) :
    l.Pairwise fun p q => Disjoint (arc p.1 p.2) (arc q.1 q.2) := by
  induction l generalizing a with
  | nil => exact Pairwise.nil
  | cons p l ih =>
    have hcons : size (p :: l) = p.2.toNat + size l := by simp [size]
    rw [hcons] at hsize
    apply Pairwise.cons
    · intro q hq
      apply Set.disjoint_left.mpr
      intro x hp hx
      have hrest := (mem_iff h.2 (by omega)).mp ⟨q, hq, hx⟩
      have := (toNat_sub_add_lt hsize).mp hrest
      rw [h.1] at hp
      simp only [arc, Set.mem_ofPred_eq] at hp
      omega
    · exact ih h.2 (by omega)

end Circle

end Consecutive
