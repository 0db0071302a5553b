import Mathlib.Order.Bounds.Basic

/-! # Layers of a graph

    The vertices at a given distance from a root, and those within it: the next layer are the
    neighbours of a layer that are not within it. -/

namespace Layers

variable {V : Type*}

/-- There is a path of the given length from `r`. -/
inductive Path (adj : V → V → Prop) (r : V) : ℕ → V → Prop
  | nil : Path adj r 0 r
  | snoc {n : ℕ} {u v : V} : Path adj r n u → adj u v → Path adj r (n + 1) v

/-- The distance of `v` from `r` is `n`. -/
def At (adj : V → V → Prop) (r : V) (n : ℕ) (v : V) : Prop := IsLeast {m | Path adj r m v} n

/-- The distance of `v` from `r` is at most `n`. -/
def Within (adj : V → V → Prop) (r : V) (n : ℕ) (v : V) : Prop := ∃ m ≤ n, Path adj r m v

variable {adj : V → V → Prop} {r u v : V} {m n : ℕ}

/-- What is reached is at the end of a path. -/
theorem exists_path : (∃ m, Path adj r m v) ↔ Relation.ReflTransGen adj r v := by
  constructor
  · rintro ⟨m, hpath⟩
    induction hpath with
    | nil => exact .refl
    | snoc _ huv ih => exact ih.tail huv
  · intro h
    induction h with
    | refl => exact ⟨0, .nil⟩
    | tail _ huv ih =>
      obtain ⟨m, hpath⟩ := ih
      exact ⟨m + 1, .snoc hpath huv⟩

theorem at_zero : At adj r 0 v ↔ v = r := by
  constructor
  · rintro ⟨hpath, _⟩
    cases hpath
    rfl
  · rintro rfl
    exact ⟨.nil, fun m _ => Nat.zero_le m⟩

theorem within_zero : Within adj r 0 v ↔ v = r := by
  constructor
  · rintro ⟨m, hm, hpath⟩
    obtain rfl := Nat.le_zero.mp hm
    cases hpath
    rfl
  · rintro rfl
    exact ⟨0, le_rfl, .nil⟩

theorem Within.mono (h : Within adj r m v) (hmn : m ≤ n) : Within adj r n v := by
  obtain ⟨k, hk, hpath⟩ := h
  exact ⟨k, le_trans hk hmn, hpath⟩

theorem At.within (h : At adj r n v) : Within adj r n v := ⟨n, le_rfl, h.1⟩

theorem Within.exists_at (h : Within adj r n v) : ∃ k ≤ n, At adj r k v := by
  induction n with
  | zero => exact ⟨0, le_rfl, at_zero.mpr (within_zero.mp h)⟩
  | succ n ih =>
    by_cases hn : Within adj r n v
    · obtain ⟨k, hk, hat⟩ := ih hn
      exact ⟨k, by omega, hat⟩
    · obtain ⟨m, hm, hpath⟩ := h
      have heq : m = n + 1 := by
        by_contra hne
        exact hn ⟨m, by omega, hpath⟩
      subst heq
      refine ⟨n + 1, le_rfl, hpath, fun k hk => ?_⟩
      by_contra hlt
      exact hn ⟨k, by omega, hk⟩

theorem Within.step (h : Within adj r n u) (huv : adj u v) : Within adj r (n + 1) v := by
  obtain ⟨m, hm, hpath⟩ := h
  exact ⟨m + 1, by omega, .snoc hpath huv⟩

theorem Within.at_of_new (h : Within adj r n u) (huv : adj u v) (hv : ¬Within adj r n v) :
    At adj r n u := by
  obtain ⟨k, hk, hat⟩ := h.exists_at
  by_cases heq : k = n
  · exact heq ▸ hat
  · exact absurd ((hat.within.step huv).mono (by omega)) hv

theorem At.step (h : At adj r n u) (huv : adj u v) (hv : ¬Within adj r n v) :
    At adj r (n + 1) v := by
  refine ⟨.snoc h.1 huv, fun m hm => ?_⟩
  by_contra hlt
  exact hv ⟨m, by omega, hm⟩

theorem within_succ : Within adj r (n + 1) v ↔ Within adj r n v ∨ ∃ u, At adj r n u ∧ adj u v := by
  constructor
  · rintro ⟨m, hm, hpath⟩
    by_cases hv : Within adj r n v
    · exact .inl hv
    · cases hpath with
      | nil => exact absurd ⟨0, Nat.zero_le n, .nil⟩ hv
      | snoc hpath huv => exact .inr ⟨_, Within.at_of_new ⟨_, by omega, hpath⟩ huv hv, huv⟩
  · rintro (h | ⟨u, hu, huv⟩)
    · exact h.mono (Nat.le_succ n)
    · exact hu.within.step huv

theorem Path.within_of_empty (h : Path adj r m v) (hempty : ∀ u, ¬At adj r n u) :
    Within adj r n v := by
  induction h with
  | nil => exact ⟨0, Nat.zero_le n, .nil⟩
  | snoc _ huv ih =>
    rcases within_succ.mp (ih.step huv) with hv | ⟨u, hu, _⟩
    · exact hv
    · exact absurd hu (hempty u)

end Layers
