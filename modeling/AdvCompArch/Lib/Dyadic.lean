import AdvCompArch.Lib.Tiling
import Mathlib.Data.Nat.Bitwise
import Mathlib.Tactic.NormNum

/-! # Tilings by dyadic blocks

    A dyadic block has a power of two as its length and starts at a multiple of it.
    Two of them that meet are nested.  The two halves of a dyadic block are buddies: the
    start of each is that of the other with one bit flipped.

    A tiling of `[0, n)` by dyadic blocks is coalesced if no two of its blocks are
    buddies.  There is only one such tiling, and its blocks have different lengths. -/

namespace Dyadic

theorem xor_two_pow (a k : ℕ) :
    (a < a ^^^ 2 ^ k ∧ a ^^^ 2 ^ k = a + 2 ^ k) ∨
      (¬ a < a ^^^ 2 ^ k ∧ a = (a ^^^ 2 ^ k) + 2 ^ k) := by
  have hpow := Nat.two_pow_pos k
  have hdiv : (a ^^^ 2 ^ k) / 2 ^ k = a / 2 ^ k ^^^ 1 := by
    rw [Nat.xor_div_two_pow, Nat.div_self hpow]
  have hmod : (a ^^^ 2 ^ k) % 2 ^ k = a % 2 ^ k := by
    rw [Nat.xor_mod_two_pow, Nat.mod_self, Nat.xor_zero]
  have ha := Nat.div_add_mod a (2 ^ k)
  have hx := Nat.div_add_mod (a ^^^ 2 ^ k) (2 ^ k)
  rw [hdiv, hmod] at hx
  -- the bit of the size decides which of the two it is
  rcases Nat.even_or_odd (a / 2 ^ k) with heven | hodd
  · rw [Nat.xor_one_of_even heven, Nat.mul_add, Nat.mul_one] at hx
    omega
  · rw [Nat.xor_one_of_odd hodd, Nat.mul_sub, Nat.mul_one] at hx
    have hge : 2 ^ k ≤ 2 ^ k * (a / 2 ^ k) := Nat.le_mul_of_pos_right _ hodd.pos
    omega

theorem xor_lower {p k : ℕ} (hp : 2 ^ (k + 1) ∣ p) : p ^^^ 2 ^ k = p + 2 ^ k := by
  obtain ⟨m, rfl⟩ := hp
  have hdiv : 2 ^ (k + 1) * m / 2 ^ k = 2 * m := by
    rw [Nat.pow_succ, Nat.mul_assoc, Nat.mul_div_cancel_left _ (Nat.two_pow_pos k)]
  rcases xor_two_pow (2 ^ (k + 1) * m) k with ⟨-, heq⟩ | ⟨hge, heq⟩
  · exact heq
  · -- the bit of the size is not set in the start of the block
    exfalso
    have hxor := congrArg (· / 2 ^ k) heq
    simp only [Nat.add_div_right _ (Nat.two_pow_pos k), Nat.xor_div_two_pow,
      Nat.div_self (Nat.two_pow_pos k), hdiv, Nat.xor_one_of_even (even_two_mul m)] at hxor
    omega

theorem xor_upper {p k : ℕ} (hp : 2 ^ (k + 1) ∣ p) : (p + 2 ^ k) ^^^ 2 ^ k = p := by
  rw [← xor_lower hp, Nat.xor_assoc, Nat.xor_self, Nat.xor_zero]

theorem exists_parent {x k : ℕ} (hx : 2 ^ k ∣ x) :
    ∃ p, 2 ^ (k + 1) ∣ p ∧ (x = p ∨ x = p + 2 ^ k) := by
  obtain ⟨m, rfl⟩ := hx
  rcases Nat.even_or_odd' m with ⟨i, rfl | rfl⟩
  · exact ⟨2 ^ k * (2 * i), ⟨i, by rw [Nat.pow_succ, Nat.mul_assoc]⟩, .inl rfl⟩
  · refine ⟨2 ^ k * (2 * i), ⟨i, by rw [Nat.pow_succ, Nat.mul_assoc]⟩, .inr ?_⟩
    rw [Nat.mul_add, Nat.mul_one]

theorem nested {x y j k : ℕ} (hx : 2 ^ j ∣ x) (hy : 2 ^ k ∣ y) (hjk : j ≤ k)
    (hxy : x < y + 2 ^ k) (hyx : y < x + 2 ^ j) : y ≤ x ∧ x + 2 ^ j ≤ y + 2 ^ k := by
  obtain ⟨a, rfl⟩ := hx
  obtain ⟨b, rfl⟩ := (pow_dvd_pow 2 hjk).trans hy
  obtain ⟨m, hm⟩ : 2 ^ j ∣ 2 ^ k := pow_dvd_pow 2 hjk
  rw [hm, ← Nat.mul_add] at hxy ⊢
  rw [← Nat.mul_succ] at hyx ⊢
  have hab := Nat.lt_of_mul_lt_mul_left hxy
  have hba := Nat.lt_of_mul_lt_mul_left hyx
  exact ⟨Nat.mul_le_mul_left _ (by omega), Nat.mul_le_mul_left _ (by omega)⟩

theorem eq_of_meet {x y k : ℕ} (hx : 2 ^ k ∣ x) (hy : 2 ^ k ∣ y) (hxy : x < y + 2 ^ k)
    (hyx : y < x + 2 ^ k) : x = y := by
  have h := nested hx hy (le_refl k) hxy hyx
  omega

end Dyadic

/-- A tiling of `[0, n)` by dyadic blocks no two of which are buddies. -/
structure IsCoalesced (n : ℕ) (f : ℕ → Option ℕ) : Prop where
  tiling : IsTiling n f
  dyadic : ∀ x s, f x = some s → ∃ k, s = 2 ^ k ∧ 2 ^ k ∣ x
  apart : ∀ x s, f x = some s → f (x ^^^ s) ≠ some s

namespace IsCoalesced

open Dyadic

variable {n : ℕ} {f g : ℕ → Option ℕ}

/-- **The blocks are maximal**: no longer dyadic block of `[0, n)` holds one of them. -/
theorem maximal (h : IsCoalesced n f) {k x : ℕ} (hx : f x = some (2 ^ k)) {j y : ℕ} (hkj : k < j)
    (hy : 2 ^ j ∣ y) (hyx : y ≤ x) (hxy : x < y + 2 ^ j) : n < y + 2 ^ j := by
  -- on the length: the buddy of the block is tiled by shorter blocks, or is one of the tiling
  induction k using Nat.strongRecOn generalizing x j y with
  | ind k ih =>
    by_contra hn
    have hpow := Nat.two_pow_pos k
    have hdouble : 2 ^ (k + 1) = 2 ^ k + 2 ^ k := by rw [pow_succ, Nat.mul_two]
    have haligned : 2 ^ k ∣ x := by
      obtain ⟨i, hi, hdvd⟩ := h.dyadic x _ hx
      rwa [hi]
    obtain ⟨p, hp, hhalf⟩ := exists_parent haligned
    have hpx : p ≤ x ∧ x < p + 2 ^ (k + 1) := by omega
    have hparent := nested hp hy hkj (by omega) (by omega)
    -- the other half of the parent
    obtain ⟨b, hb, hbp, hbhalf⟩ : ∃ b, x ^^^ 2 ^ k = b ∧ 2 ^ k ∣ b ∧ (b = p ∨ b = p + 2 ^ k) ∧ b ≠ x := by
      have hpk : 2 ^ k ∣ p := (pow_dvd_pow 2 (Nat.le_succ k)).trans hp
      rcases hhalf with rfl | rfl
      · exact ⟨x + 2 ^ k, xor_lower hp, Nat.dvd_add hpk (dvd_refl _), .inr rfl, by omega⟩
      · exact ⟨p, xor_upper hp, hpk, .inl rfl, by omega⟩
    have hbn : b + 2 ^ k ≤ n := by omega
    obtain ⟨c, s, hc, hcb, hbc⟩ := h.tiling.covers b (by omega)
    obtain ⟨i, rfl, hci⟩ := h.dyadic c s hc
    rcases Nat.lt_trichotomy i k with hlt | rfl | hgt
    · have hin := nested hci hbp hlt.le (by omega) hbc
      have hshort := ih i hlt hc hlt hbp hin.1 (by have := Nat.two_pow_pos i; omega)
      omega
    · obtain rfl := eq_of_meet hci hbp (by omega) hbc
      rw [← hb] at hc
      exact h.apart x _ hx hc
    · -- a longer block holds both halves
      have hin := nested hp hci hgt (by omega) (by omega)
      rcases Nat.lt_trichotomy x c with hxc | rfl | hcx
      · omega
      · rw [hx] at hc
        have := Nat.pow_lt_pow_right (by norm_num : 1 < 2) hgt
        have := Option.some.inj hc
        omega
      · have := h.tiling.disjoint c _ x _ hc hx hcx
        omega

theorem eq_some (hf : IsCoalesced n f) (hg : IsCoalesced n g) {x s : ℕ} (hx : f x = some s) :
    g x = some s := by
  obtain ⟨k, rfl, hxk⟩ := hf.dyadic x s hx
  have hin := hf.tiling.inside x _ hx
  obtain ⟨c, t, hc, hcx, hxc⟩ := hg.tiling.covers x (by omega)
  obtain ⟨i, rfl, hci⟩ := hg.dyadic c t hc
  have hcin := hg.tiling.inside c _ hc
  rcases Nat.lt_trichotomy i k with hlt | rfl | hgt
  · have hnest := nested hci hxk hlt.le (by omega) hxc
    have := hg.maximal hc hlt hxk hnest.1 (by omega)
    omega
  · obtain rfl := eq_of_meet hci hxk (by omega) hxc
    exact hc
  · have := hf.maximal hx hgt hci hcx hxc
    omega

theorem unique (hf : IsCoalesced n f) (hg : IsCoalesced n g) : f = g := by
  funext x
  cases hx : f x with
  | some s => exact (hf.eq_some hg hx).symm
  | none =>
    cases hgx : g x with
    | none => rfl
    | some s =>
      rw [hg.eq_some hf hgx] at hx
      cases hx

theorem not_lt_of_length (h : IsCoalesced n f) {x y s : ℕ} (hx : f x = some s)
    (hy : f y = some s) : ¬ x < y := by
  intro hlt
  obtain ⟨k, rfl, hxk⟩ := h.dyadic x s hx
  obtain ⟨i, hi, hyk⟩ := h.dyadic y _ hy
  rw [← hi] at hyk
  have hin := h.tiling.inside x _ hx
  have hyin := h.tiling.inside y _ hy
  have hdisj := h.tiling.disjoint x _ y _ hx hy hlt
  obtain ⟨p, hp, hhalf⟩ := exists_parent hxk
  have hmax := h.maximal hx (Nat.lt_succ_self k) hp (by omega) (by omega)
  rw [Nat.succ_eq_add_one] at hmax
  have hxp : x = p := by omega
  subst hxp
  -- nothing of this length fits between the buddy and the end
  have hbuddy := eq_of_meet hyk (Nat.dvd_add hxk (dvd_refl _)) (by omega) (by omega)
  apply h.apart x _ hx
  rw [xor_lower hp, ← hbuddy, hy]

theorem length_injective (h : IsCoalesced n f) {x y s : ℕ} (hx : f x = some s)
    (hy : f y = some s) : x = y :=
  le_antisymm (Nat.not_lt.mp (h.not_lt_of_length hy hx))
    (Nat.not_lt.mp (h.not_lt_of_length hx hy))

end IsCoalesced
