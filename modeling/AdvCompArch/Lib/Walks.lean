import Mathlib.Algebra.Order.Monoid.Defs
import Mathlib.Order.Bounds.Basic

/-! # Walks and their totals

    The walks of a weighted graph from a root, with their totals, and the relaxation argument:
    distances that no edge can improve, and that are totals themselves, are least totals. -/

namespace Walks

variable {V W : Type*}

/-- There is a walk from `r` to a vertex with a total. -/
inductive Walk [AddMonoid W] (edge : V → V → W → Prop) (r : V) : V → W → Prop
  | nil : Walk edge r r 0
  | snoc {u v : V} {d w : W} : Walk edge r u d → edge u v w → Walk edge r v (d + w)

/-- `d` is the least total of a walk to `v`, or `none` where there is no walk. -/
def Shortest [AddMonoid W] [LE W] (edge : V → V → W → Prop) (r : V) (no_walk : W) (v : V) (d : W) :
    Prop :=
  ((∃ d', Walk edge r v d') → IsLeast {d' | Walk edge r v d'} d) ∧
    ((¬∃ d', Walk edge r v d') → d = no_walk)

section

variable [AddMonoid W] [PartialOrder W] [AddRightMono W] {edge : V → V → W → Prop} {r v : V}
  {dist : V → W} {d M : W}

/-- **Relaxed distances** are no more than any total. -/
theorem Walk.dist_le (h : Walk edge r v d) (hroot : dist r ≤ 0)
    (hrelaxed : ∀ u v w, edge u v w → dist v ≤ dist u + w) : dist v ≤ d := by
  induction h with
  | nil => exact hroot
  | snoc _ hedge ih => exact le_trans (hrelaxed _ _ _ hedge) (add_le_add_left ih _)

variable (dist) in
/-- **Shortest walks**: relaxed distances that are totals, or a bound `M` that no least total
    exceeds, are the least totals. -/
theorem shortest_of_relaxed (hroot : dist r ≤ 0)
    (hrelaxed : ∀ u v w, edge u v w → dist v ≤ dist u + w)
    (htotal : ∀ v, dist v = M ∨ Walk edge r v (dist v))
    (hbound : ∀ v d, Walk edge r v d → ∃ d' ≤ M, Walk edge r v d') (v : V) :
    Shortest edge r M v (dist v) := by
  constructor
  · rintro ⟨d, hwalk⟩
    refine ⟨?_, fun d' hd' => Walk.dist_le hd' hroot hrelaxed⟩
    rcases htotal v with hM | hdist
    · -- a walk within the bound has the bound as its total
      obtain ⟨d', hle, hd'⟩ := hbound v d hwalk
      have hge := hd'.dist_le hroot hrelaxed
      rw [hM] at hge
      have heq : d' = dist v := by rw [hM]; exact le_antisymm hle hge
      exact heq ▸ hd'
    · exact hdist
  · intro hno
    rcases htotal v with hM | hdist
    · exact hM
    · exact absurd ⟨_, hdist⟩ hno

theorem Walk.nonneg (h : Walk edge r v d) (hedge : ∀ u v w, edge u v w → 0 ≤ w) : 0 ≤ d := by
  induction h with
  | nil => exact le_rfl
  | snoc _ he ih => exact le_trans (hedge _ _ _ he) (le_add_of_nonneg_left ih)

end

end Walks
