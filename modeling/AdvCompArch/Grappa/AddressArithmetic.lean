import AdvCompArch.Grappa.Addressing

/-! # Arithmetic on global addresses

    Addition works on the raw word, for both kinds of addresses.  For linear addresses the
    question is whether the difference undoes it (`difference_inverts_iff`), for 2D addresses
    whether the fields of the word can still be read back (`two_dimensional_iff`).

    Neither holds throughout: the difference divides by an unsigned size, and `pointer`
    extends the sign of a field whose top bit the constructor accepts as part of a pointer. -/

namespace Grappa

namespace GlobalAddress

/-- The raw words of linear addresses: the tag bit is clear. -/
structure InRange (a : GlobalAddress) : Prop where
  nonneg : 0 ≤ a.storage
  bound : a.storage < 2 ^ 63

section difference

variable {sizeof : ℕ} {a b : GlobalAddress} {i j : ℤ}

theorem InRange.diff_bounds (ha : InRange a) (hb : InRange b) :
    -2 ^ 63 < b.storage - a.storage ∧ b.storage - a.storage < 2 ^ 63 := by
  have ha0 := ha.nonneg
  have hb0 := hb.nonneg
  have ha1 := ha.bound
  have hb1 := hb.bound
  omega

theorem sub_of_diff_nonneg {t u : GlobalAddress} {d : ℤ} (hpos : 0 < sizeof)
    (hd : t.storage - u.storage = d * sizeof) (h0 : 0 ≤ d) (hlt : d * sizeof < 2 ^ 63) :
    t.sub sizeof u = d := by
  have hs : (1 : ℤ) ≤ sizeof := by exact_mod_cast hpos
  have hmul : 0 ≤ d * sizeof := mul_nonneg h0 (by omega)
  have hle : d ≤ d * sizeof := le_mul_of_one_le_right h0 hs
  unfold sub raw_bits
  rw [hd, Int.emod_eq_of_lt hmul (by omega), Int.mul_ediv_cancel _ (by omega)]
  exact Int.bmod_eq_of_le (by omega) (by omega)

theorem sub_of_diff_neg {t u : GlobalAddress} {d : ℤ} (hpos : 0 < sizeof)
    (hd : t.storage - u.storage = d * sizeof) (h0 : d < 0) (hlt : -2 ^ 63 < d * sizeof) :
    t.sub sizeof u = Int.bmod (2 ^ 64 / sizeof + d) (2 ^ 64) := by
  have hs : (0 : ℤ) < sizeof := by exact_mod_cast hpos
  have hmul : d * sizeof < 0 := mul_neg_of_neg_of_pos h0 hs
  have hwrap : d * sizeof % 2 ^ 64 = 2 ^ 64 + d * sizeof := by
    rw [← Int.add_emod_left, Int.emod_eq_of_lt (by omega) (by omega)]
  unfold sub raw_bits
  rw [hd, hwrap, Int.add_mul_ediv_right _ _ hs.ne']

/-- The difference of addresses `d` objects apart, both in range, is `d` forwards, and for
    single bytes. -/
theorem sub_eq_iff {t u : GlobalAddress} {d : ℤ} (hpos : 0 < sizeof) (ht : InRange t)
    (hu : InRange u) (hd : t.storage - u.storage = d * sizeof) :
    t.sub sizeof u = d ↔ 0 ≤ d ∨ sizeof = 1 := by
  obtain ⟨hlo, hhi⟩ := hu.diff_bounds ht
  rw [hd] at hlo hhi
  have hs : (1 : ℤ) ≤ sizeof := by exact_mod_cast hpos
  by_cases h0 : 0 ≤ d
  · have hsub := sub_of_diff_nonneg hpos hd h0 hhi
    simp [hsub, h0]
  · have hneg : d < 0 := by omega
    have hle : d * sizeof ≤ d := by
      have := mul_le_mul_of_nonpos_left hs hneg.le
      omega
    have hsmall : (sizeof : ℤ) ≤ 2 ^ 63 := by
      have := mul_le_mul_of_nonneg_right (show d ≤ -1 by omega) (show (0 : ℤ) ≤ sizeof by omega)
      omega
    rw [sub_of_diff_neg hpos hd hneg hlo]
    constructor
    · intro heq
      right
      by_contra hne
      -- the surplus lies strictly between two multiples of the modulus
      have h2 : (2 : ℤ) ≤ sizeof := by omega
      have hupper : (2 : ℤ) ^ 64 / sizeof ≤ 2 ^ 63 := by
        apply Int.ediv_le_of_le_mul (by omega)
        omega
      have hlower : (1 : ℤ) ≤ 2 ^ 64 / sizeof := by
        rw [Int.le_ediv_iff_mul_le (by omega)]
        omega
      rw [Int.bmod_eq_of_le (by omega) (by omega)] at heq
      omega
    · intro h
      have h1 : sizeof = 1 := h.resolve_left h0
      rw [h1, Nat.cast_one, mul_one] at hlo
      rw [h1, Nat.cast_one, Int.ediv_one]
      exact (Int.add_bmod_left (2 ^ 64) d).trans (Int.bmod_eq_of_le (by omega) (by omega))

/-- **When the difference inverts addition.**  For a linear address `a` and displacements that
    stay in range, `(a + i) - a = i` holds forwards and for single bytes only, and so does
    `(a + i) - (a + j) = i - j`. -/
theorem difference_inverts_iff (hpos : 0 < sizeof) (ha : InRange a)
    (hi : InRange (a.element sizeof i)) (hj : InRange (a.element sizeof j)) :
    ((a.add sizeof i).sub sizeof a = i ↔ 0 ≤ i ∨ sizeof = 1) ∧
      ((a.add sizeof i).sub sizeof (a.add sizeof j) = i - j ↔ j ≤ i ∨ sizeof = 1) := by
  have hword : (-2 : ℤ) ^ 63 ≤ 0 := by norm_num
  rw [add_of_range (hword.trans hi.nonneg) hi.bound, add_of_range (hword.trans hj.nonneg) hj.bound]
  constructor
  · exact sub_eq_iff hpos hi ha (by simp [element])
  · rw [sub_eq_iff hpos hi hj (by simp only [element]; ring), sub_nonneg]

/-- From element 3 of an array of words back to element 1. -/
theorem difference_inverts_words :
    ¬ ((⟨64⟩ : GlobalAddress).add 8 1).sub 8 ((⟨64⟩ : GlobalAddress).add 8 3) = 1 - 3 := by
  have h := (@difference_inverts_iff 8 ⟨64⟩ 1 3 (by decide)
    ⟨by decide, by decide⟩ ⟨by decide, by decide⟩ ⟨by decide, by decide⟩).2
  exact fun heq => absurd (h.mp heq) (by decide)

/-- One word back from byte 64 is `2 ^ 61 - 1` words ahead. -/
theorem difference_backwards :
    ((⟨64⟩ : GlobalAddress).add 8 (-1)).sub 8 ⟨64⟩ = 2305843009213693951 ∧
      ¬ ((⟨64⟩ : GlobalAddress).add 8 (-1)).sub 8 ⟨64⟩ = -1 := by decide

end difference

/-! ### The fields of a 2D address -/

section two_dimensional

variable {m : Machine} {sizeof : ℕ} {t i n : ℤ}

/-- The assertion of `TwoDimensional`: `reinterpret_cast<intptr_t>( t ) >> core_shift_val == 0`. -/
def Accepted (t : ℤ) : Prop := t >>> (48 : ℕ) = 0

instance : Decidable (Accepted t) := inferInstanceAs (Decidable (t >>> (48 : ℕ) = 0))

/-- What is read back from the word of a 2D address. -/
structure Unpacks (m : Machine) (a : GlobalAddress) (t : ℤ) (n : Core) : Prop where
  pointer : a.pointer m = t
  core : a.core m = n
  two_d : a.is_2D = true

theorem accepted_iff : Accepted t ↔ 0 ≤ t ∧ t < 2 ^ 48 := by
  rw [Accepted, Int.shiftRight_eq_div_pow]
  norm_num
  omega

theorem two_dimensional_element :
    (TwoDimensional t n).element sizeof i = TwoDimensional (t + i * sizeof) n := by
  simp only [element, TwoDimensional]
  congr 1
  ring

theorem two_dimensional_add (h : Accepted (t + i * sizeof)) :
    (TwoDimensional t n).add sizeof i = TwoDimensional (t + i * sizeof) n := by
  rw [accepted_iff] at h
  obtain ⟨hlo, hhi⟩ := h
  have hword : (TwoDimensional t n).storage + i * sizeof =
      -2 ^ 63 + n % 2 ^ 15 * 2 ^ 48 + (t + i * sizeof) := by
    simp only [TwoDimensional]
    ring
  rw [← two_dimensional_element, add_of_range] <;> rw [hword] <;> omega

/-- The tag and the core survive for every pointer the constructor accepts, the pointer
    itself if the top bit of its field is clear. -/
theorem unpacks_iff (ht : Accepted t) (hn : 0 ≤ n ∧ n < 2 ^ 15) :
    Unpacks m (TwoDimensional t n) t n ↔ t < 2 ^ 47 := by
  rw [accepted_iff] at ht
  obtain ⟨hn0, hn1⟩ := hn
  have hword : (TwoDimensional t n).storage = -2 ^ 63 + n * 2 ^ 48 + t := by
    simp only [TwoDimensional, Int.emod_eq_of_lt hn0 hn1]
  have h2d : (TwoDimensional t n).is_2D = true := by
    rw [is_2D, hword, decide_eq_true_eq]
    omega
  have hcore : (TwoDimensional t n).core m = n := by
    rw [core, if_pos h2d, hword]
    show (-2 ^ 63 + n * 2 ^ 48 + t) / 2 ^ 48 % 2 ^ 15 = n
    omega
  have hpointer : (TwoDimensional t n).pointer m = Int.bmod t (2 ^ 48) := by
    have hfields : -2 ^ 63 + n * 2 ^ 48 + t = t + 2 ^ 48 * (n - 2 ^ 15) := by ring
    rw [pointer, if_pos h2d, hword, hfields]
    exact Int.add_mul_bmod_self_left t (2 ^ 48) (n - 2 ^ 15)
  constructor
  · intro h
    have hback := h.pointer
    rw [hpointer] at hback
    have hlt := Int.bmod_lt (x := t) (m := 2 ^ 48) (by norm_num)
    rw [hback] at hlt
    norm_num at hlt ⊢
    omega
  · intro hlt
    refine ⟨?_, hcore, h2d⟩
    rw [hpointer]
    exact Int.bmod_eq_of_le (by norm_num; omega) (by norm_num; omega)

/-- **When a 2D address can be read back**: for every pointer that the constructor accepts and
    every core, and after adding any displacement that leads to an accepted pointer again,
    exactly if the pointer is below `2 ^ 47`. -/
theorem two_dimensional_iff (ht : Accepted t) (hn : 0 ≤ n ∧ n < 2 ^ 15) :
    (Unpacks m (TwoDimensional t n) t n ↔ t < 2 ^ 47) ∧
      ∀ (sizeof : ℕ) (i : ℤ), Accepted (t + i * sizeof) →
        (Unpacks m ((TwoDimensional t n).add sizeof i) (t + i * sizeof) n ↔
          t + i * sizeof < 2 ^ 47) := by
  refine ⟨unpacks_iff ht hn, ?_⟩
  intro sizeof i hi
  rw [two_dimensional_add hi]
  exact unpacks_iff hi hn

/-- The third word of a buffer on core 5 of eight. -/
theorem two_dimensional_word :
    Unpacks ⟨8, by decide, 0⟩ ((TwoDimensional 4096 5).add 8 2) (4096 + 2 * (8 : ℕ)) 5 :=
  ((two_dimensional_iff (m := ⟨8, by decide, 0⟩) (t := 4096) (n := 5) (by decide)
    ⟨by decide, by decide⟩).2 8 2 (by decide)).mpr (by decide)

/-- A pointer with bit 47 set comes back negative. -/
theorem two_dimensional_top_bit :
    Accepted (2 ^ 47) ∧ (TwoDimensional (2 ^ 47) 0).pointer ⟨1, by decide, 0⟩ = -2 ^ 47 ∧
      ¬ Unpacks ⟨1, by decide, 0⟩ (TwoDimensional (2 ^ 47) 0) (2 ^ 47) 0 := by
  refine ⟨by decide, by decide, ?_⟩
  intro h
  exact absurd h.pointer (by decide)

end two_dimensional

end GlobalAddress

end Grappa
