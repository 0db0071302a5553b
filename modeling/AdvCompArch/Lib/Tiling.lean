import Mathlib.Data.Nat.Basic
import Mathlib.Logic.Function.Basic

/-! # Tilings of an interval

    A family of intervals is given by a partial function from the start of an
    interval to its length.  It tiles `[0, n)` if every point lies in exactly one of
    them.  An interval can be cut in two, two adjacent ones can be joined, and one can
    be put at the end. -/

/-- The intervals `[a, a + s)` with `f a = some s` tile `[0, n)`. -/
structure IsTiling (n : ℕ) (f : ℕ → Option ℕ) : Prop where
  inside : ∀ a s, f a = some s → 0 < s ∧ a + s ≤ n
  covers : ∀ x < n, ∃ a s, f a = some s ∧ a ≤ x ∧ x < a + s
  disjoint : ∀ a s b t, f a = some s → f b = some t → a < b → a + s ≤ b

namespace IsTiling

open Function Option

variable {n a s t : ℕ} {f : ℕ → Option ℕ}

theorem empty : IsTiling 0 fun _ => none where
  inside := by
    intro a s h
    cases h
  covers := by
    intro x hx
    omega
  disjoint := by
    intro a s b t h
    cases h

/-- No interval starts inside another one. -/
theorem eq_none_of_inside (h : IsTiling n f) (ha : f a = some s) {b : ℕ} (hlo : a < b)
    (hhi : b < a + s) : f b = none := by
  cases hb : f b with
  | none => rfl
  | some t =>
    have := h.disjoint a s b t ha hb hlo
    omega

theorem existsUnique (h : IsTiling n f) {x : ℕ} (hx : x < n) :
    ∃! p : ℕ × ℕ, f p.1 = some p.2 ∧ p.1 ≤ x ∧ x < p.1 + p.2 := by
  obtain ⟨a, s, ha, hlo, hhi⟩ := h.covers x hx
  refine ⟨(a, s), ⟨ha, hlo, hhi⟩, ?_⟩
  rintro ⟨b, t⟩ ⟨hb, hlo', hhi'⟩
  simp only at hb hlo' hhi'
  rcases Nat.lt_trichotomy a b with hlt | rfl | hlt
  · have := h.disjoint a s b t ha hb hlt
    omega
  · rw [ha] at hb
    rw [some.inj hb]
  · have := h.disjoint b t a s hb ha hlt
    omega

theorem split (h : IsTiling n f) (ha : f a = some (s + t)) (hs : 0 < s) (ht : 0 < t) :
    IsTiling n (Function.update (Function.update f a (some s)) (a + s) (some t)) := by
  have hin := h.inside a (s + t) ha
  have hcase : ∀ b u, update (update f a (some s)) (a + s) (some t) b = some u →
      (b = a + s ∧ u = t) ∨ (b = a ∧ u = s) ∨ (b ≠ a ∧ f b = some u) := by
    intro b u hb
    by_cases h1 : b = a + s
    · subst h1
      rw [update_self] at hb
      exact .inl ⟨rfl, (some.inj hb).symm⟩
    · rw [update_of_ne h1] at hb
      by_cases h2 : b = a
      · subst h2
        rw [update_self] at hb
        exact .inr (.inl ⟨rfl, (some.inj hb).symm⟩)
      · rw [update_of_ne h2] at hb
        exact .inr (.inr ⟨h2, hb⟩)
  refine ⟨?_, ?_, ?_⟩
  · intro b u hb
    rcases hcase b u hb with ⟨rfl, rfl⟩ | ⟨rfl, rfl⟩ | ⟨-, hb⟩
    · omega
    · omega
    · exact h.inside b u hb
  · intro x hx
    obtain ⟨b, u, hb, hlo, hhi⟩ := h.covers x hx
    by_cases hba : b = a
    · -- the point is in one of the two parts
      subst hba
      rw [ha] at hb
      cases hb
      by_cases hxs : x < b + s
      · refine ⟨b, s, ?_, hlo, hxs⟩
        rw [update_of_ne (by omega), update_self]
      · exact ⟨b + s, t, update_self .., by omega, by omega⟩
    · refine ⟨b, u, ?_, hlo, hhi⟩
      have hne : b ≠ a + s := by
        rintro rfl
        rw [h.eq_none_of_inside ha (by omega) (by omega)] at hb
        cases hb
      rw [update_of_ne hne, update_of_ne hba, hb]
  · intro b u c v hb hc hlt
    rcases hcase b u hb with ⟨rfl, rfl⟩ | ⟨rfl, rfl⟩ | ⟨hba, hfb⟩
    · rcases hcase c v hc with ⟨rfl, rfl⟩ | ⟨rfl, rfl⟩ | ⟨hca, hfc⟩
      · omega
      · omega
      · have := h.disjoint a (s + u) c v ha hfc (by omega)
        omega
    · rcases hcase c v hc with ⟨rfl, rfl⟩ | ⟨rfl, rfl⟩ | ⟨hca, hfc⟩
      · omega
      · omega
      · have := h.disjoint b (u + t) c v ha hfc hlt
        omega
    · rcases hcase c v hc with ⟨rfl, rfl⟩ | ⟨rfl, rfl⟩ | ⟨hca, hfc⟩
      · by_cases hlt' : b < a
        · have := h.disjoint b u a (s + v) hfb ha hlt'
          omega
        · rw [h.eq_none_of_inside ha (by omega) (by omega)] at hfb
          cases hfb
      · exact h.disjoint b u c (v + t) hfb ha hlt
      · exact h.disjoint b u c v hfb hfc hlt

theorem merge (h : IsTiling n f) (ha : f a = some s) (hb : f (a + s) = some t) :
    IsTiling n (Function.update (Function.update f (a + s) none) a (some (s + t))) := by
  have hin := h.inside _ _ ha
  have hin' := h.inside _ _ hb
  have hcase : ∀ b u,
      update (update f (a + s) none) a (some (s + t)) b = some u →
      (b = a ∧ u = s + t) ∨ (b ≠ a ∧ b ≠ a + s ∧ f b = some u) := by
    intro b u hbu
    by_cases h1 : b = a
    · subst h1
      rw [update_self] at hbu
      exact .inl ⟨rfl, (some.inj hbu).symm⟩
    · rw [update_of_ne h1] at hbu
      by_cases h2 : b = a + s
      · subst h2
        rw [update_self] at hbu
        cases hbu
      · rw [update_of_ne h2] at hbu
        exact .inr ⟨h1, h2, hbu⟩
  refine ⟨?_, ?_, ?_⟩
  · intro b u hbu
    rcases hcase b u hbu with ⟨rfl, rfl⟩ | ⟨-, -, hbu⟩
    · omega
    · exact h.inside b u hbu
  · intro x hx
    obtain ⟨b, u, hbu, hlo, hhi⟩ := h.covers x hx
    by_cases h1 : b = a ∨ b = a + s
    · refine ⟨a, s + t, update_self .., ?_⟩
      rcases h1 with rfl | rfl
      · rw [ha] at hbu
        cases hbu
        omega
      · rw [hb] at hbu
        cases hbu
        omega
    · have h1 := not_or.mp h1
      exact ⟨b, u, by rw [update_of_ne h1.1, update_of_ne h1.2, hbu], hlo, hhi⟩
  · intro b u c v hbu hcv hlt
    rcases hcase b u hbu with ⟨rfl, rfl⟩ | ⟨-, -, hfb⟩
    · rcases hcase c v hcv with ⟨rfl, rfl⟩ | ⟨-, hne, hcv⟩
      · omega
      · have hfst := h.disjoint b s c v ha hcv hlt
        have hsnd := h.disjoint (b + s) t c v hb hcv (by omega)
        omega
    · rcases hcase c v hcv with ⟨rfl, rfl⟩ | ⟨-, -, hfc⟩
      · exact h.disjoint b u c s hfb ha hlt
      · exact h.disjoint b u c v hfb hfc hlt

theorem extend (h : IsTiling n f) (hs : 0 < s) :
    IsTiling (n + s) (Function.update f n (some s)) := by
  have hcase : ∀ b u, update f n (some s) b = some u →
      (b = n ∧ u = s) ∨ (b ≠ n ∧ f b = some u) := by
    intro b u hb
    by_cases h1 : b = n
    · subst h1
      rw [update_self] at hb
      exact .inl ⟨rfl, (some.inj hb).symm⟩
    · rw [update_of_ne h1] at hb
      exact .inr ⟨h1, hb⟩
  refine ⟨?_, ?_, ?_⟩
  · intro b u hb
    rcases hcase b u hb with ⟨rfl, rfl⟩ | ⟨-, hb⟩
    · omega
    · have := h.inside b u hb
      omega
  · intro x hx
    by_cases hxn : x < n
    · obtain ⟨b, u, hb, hlo, hhi⟩ := h.covers x hxn
      exact ⟨b, u, by rw [update_of_ne (by omega), hb], hlo, hhi⟩
    · exact ⟨n, s, update_self .., by omega, by omega⟩
  · intro b u c v hb hc hlt
    rcases hcase b u hb with ⟨rfl, rfl⟩ | ⟨-, hb⟩
    · rcases hcase c v hc with ⟨rfl, rfl⟩ | ⟨-, hc⟩
      · omega
      · have := h.inside c v hc
        omega
    · have hbn := h.inside b u hb
      rcases hcase c v hc with ⟨rfl, rfl⟩ | ⟨-, hc⟩
      · omega
      · exact h.disjoint b u c v hb hc hlt

end IsTiling
