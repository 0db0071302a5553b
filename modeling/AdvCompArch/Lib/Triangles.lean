import Mathlib.Data.Finset.Powerset
import Mathlib.Data.Finset.Prod

/-! # Triangles of a relation

    A triangle of a symmetric relation is a set of three related elements.  Three steps along the
    relation that come back to their start go around a triangle (`corners_mem_triangles`), and a
    triangle can be gone around in six ways.

    A key picks one of the six: that with ascending keys.  There is at most one such way
    (`Ascending.unique`), and there is one just if no two corners have the same key
    (`exists_ascending_iff`). -/

namespace Triangles

open Finset

variable {V : Type*} [DecidableEq V] {R : Finset (V × V)} {T : Finset V} {f : V → ℕ}
  {t t' : V × V × V} {x y z : V}

/-- The sets of three elements, any two of them related. -/
def triangles (R : Finset (V × V)) : Finset (Finset V) :=
  ((R.image Prod.fst).powersetCard 3).filter fun T => ∀ u ∈ T, ∀ v ∈ T, u ≠ v → (u, v) ∈ R

def corners (t : V × V × V) : Finset V := {t.1, t.2.1, t.2.2}

/-- From the first to the second, to the third, and back. -/
def Cycle (R : Finset (V × V)) (t : V × V × V) : Prop :=
  (t.1, t.2.1) ∈ R ∧ (t.2.1, t.2.2) ∈ R ∧ (t.2.2, t.1) ∈ R

/-- Every element has a greater key than the one before it. -/
def Ascending (f : V → ℕ) (t : V × V × V) : Prop := f t.1 < f t.2.1 ∧ f t.2.1 < f t.2.2

/-! ### Going around -/

theorem mem_triangles : T ∈ triangles R ↔
    T.card = 3 ∧ ∀ u ∈ T, ∀ v ∈ T, u ≠ v → (u, v) ∈ R := by
  rw [triangles, mem_filter, mem_powersetCard, and_congr_left_iff,
    and_iff_right_iff_imp]
  intro hrel hcard u hu
  have hone : 1 < T.card := by omega
  obtain ⟨v, hv, hne⟩ := exists_mem_ne hone u
  exact mem_image.mpr ⟨(u, v), hrel u hu v hv (Ne.symm hne), rfl⟩

/-- **A cycle** goes around a triangle. -/
theorem corners_mem_triangles (hsymm : ∀ u v, (u, v) ∈ R → (v, u) ∈ R) (hloop : ∀ v, (v, v) ∉ R)
    (h : Cycle R t) : corners t ∈ triangles R := by
  obtain ⟨x, y, z⟩ := t
  obtain ⟨hxy, hyz, hzx⟩ := h
  have hne : ∀ u v, (u, v) ∈ R → u ≠ v := by
    intro u v huv heq
    subst heq
    exact hloop u huv
  rw [mem_triangles]
  constructor
  · exact card_eq_three.mpr ⟨x, y, z, hne _ _ hxy, (hne _ _ hzx).symm, hne _ _ hyz, rfl⟩
  · intro u hu v hv huv
    simp only [corners, mem_insert, mem_singleton] at hu hv
    rcases hu with rfl | rfl | rfl <;> rcases hv with rfl | rfl | rfl <;>
      first
        | exact absurd rfl huv
        | assumption
        | exact hsymm _ _ (by assumption)

theorem cycle_of_corners (hT : T ∈ triangles R) (ht : corners t = T) : Cycle R t := by
  obtain ⟨hcard, hrel⟩ := mem_triangles.mp hT
  obtain ⟨x, y, z⟩ := t
  subst ht
  -- a repeated corner would leave less than three of them
  have hxy : x ≠ y := by
    rintro rfl
    have hle : (corners (x, x, z)).card ≤ 2 := by
      simp only [corners, mem_insert_self, insert_eq_of_mem]
      exact card_le_two
    omega
  have hyz : y ≠ z := by
    rintro rfl
    have hle : (corners (x, y, y)).card ≤ 2 := by
      simp only [corners, insert_eq_of_mem (mem_singleton_self y)]
      exact card_le_two
    omega
  have hzx : z ≠ x := by
    rintro rfl
    have hle : (corners (z, y, z)).card ≤ 2 := by
      simp only [corners, insert_eq_of_mem
        (show z ∈ ({y, z} : Finset V) from mem_insert_of_mem (mem_singleton_self z))]
      exact card_le_two
    omega
  have hmem : x ∈ corners (x, y, z) ∧ y ∈ corners (x, y, z) ∧ z ∈ corners (x, y, z) := by
    simp [corners]
  exact ⟨hrel x hmem.1 y hmem.2.1 hxy, hrel y hmem.2.1 z hmem.2.2 hyz, hrel z hmem.2.2 x hmem.1 hzx⟩

/-! ### The way with ascending keys -/

theorem Ascending.injOn (h : Ascending f t) : Set.InjOn f (corners t) := by
  obtain ⟨hxy, hyz⟩ := h
  intro u hu v hv heq
  simp only [corners, coe_insert, coe_singleton, Set.mem_insert_iff,
    Set.mem_singleton_iff] at hu hv
  rcases hu with rfl | rfl | rfl <;> rcases hv with rfl | rfl | rfl <;> first | rfl | omega

theorem Ascending.unique (h : Ascending f t) (h' : Ascending f t') (heq : corners t = corners t') :
    t = t' := by
  obtain ⟨x, y, z⟩ := t
  obtain ⟨x', y', z'⟩ := t'
  have hmem : ∀ v ∈ corners (x, y, z), v = x' ∨ v = y' ∨ v = z' := by
    intro v hv
    rw [heq] at hv
    simpa [corners] using hv
  have hx := hmem x (by simp [corners])
  have hy := hmem y (by simp [corners])
  have hz := hmem z (by simp [corners])
  obtain ⟨hxy, hyz⟩ := h
  obtain ⟨hxy', hyz'⟩ := h'
  dsimp only at hxy hyz hxy' hyz'
  -- only the same order ascends in both
  rcases hx with rfl | rfl | rfl <;> rcases hy with rfl | rfl | rfl <;>
    rcases hz with rfl | rfl | rfl <;> first | rfl | omega

theorem exists_ascending_iff (hT : T.card = 3) :
    (∃ t, corners t = T ∧ Ascending f t) ↔ Set.InjOn f T := by
  constructor
  · intro h
    obtain ⟨t, rfl, ht⟩ := h
    exact ht.injOn
  · intro hinj
    obtain ⟨x, y, z, hxy, hxz, hyz, rfl⟩ := card_eq_three.mp hT
    have hx : x ∈ (({x, y, z} : Finset V) : Set V) := by simp
    have hy : y ∈ (({x, y, z} : Finset V) : Set V) := by simp
    have hz : z ∈ (({x, y, z} : Finset V) : Set V) := by simp
    have hfxy : f x ≠ f y := fun h => hxy (hinj hx hy h)
    have hfxz : f x ≠ f z := fun h => hxz (hinj hx hz h)
    have hfyz : f y ≠ f z := fun h => hyz (hinj hy hz h)
    have hyxz : ({y, x, z} : Finset V) = {x, y, z} := insert_comm y x {z}
    have hswap : ∀ a b c : V, ({a, c, b} : Finset V) = {a, b, c} := by
      intro a b c
      rw [pair_comm c b]
    -- one of the six orders
    by_cases h₁ : f x < f y
    · by_cases h₂ : f y < f z
      · exact ⟨(x, y, z), rfl, h₁, h₂⟩
      · by_cases h₃ : f x < f z
        · exact ⟨(x, z, y), hswap x y z, h₃, show f z < f y by omega⟩
        · refine ⟨(z, x, y), ?_, show f z < f x by omega, h₁⟩
          exact (insert_comm z x {y}).trans (hswap x y z)
    · by_cases h₂ : f x < f z
      · exact ⟨(y, x, z), hyxz, show f y < f x by omega, h₂⟩
      · by_cases h₃ : f y < f z
        · exact ⟨(y, z, x), (hswap y x z).trans hyxz, h₃, show f z < f x by omega⟩
        · refine ⟨(z, y, x), ?_, show f z < f y by omega, show f y < f x by omega⟩
          exact (insert_comm z y {x}).trans ((hswap y x z).trans hyxz)

end Triangles
