import AdvCompArch.Grappa.HeapRuns
import Mathlib.Data.Nat.Log
import Mathlib.Data.Nat.Prime.Basic

/-! # The chunks of a new heap

    The constructor of the allocator peels a power of two off what is left of the size, and
    means to take the largest one.  It halves the size before it rounds up, and half of
    `2^k + 1` is already a power of two, the one below: an odd size above 1 ends in a chunk
    of 1 byte and one of 2 bytes at an odd address (`chunks_ok_iff`). -/

namespace Grappa

namespace Allocator

/-- What the constructor is to make of `[0, n)`: the chunks tile it, they are powers of two that
    get shorter from chunk to chunk, and each starts at a multiple of its size.  The buddy of a
    part of a chunk is then part of the same chunk. -/
structure ChunksOk (n : ℕ) (a : Allocator) : Prop where
  tiling : IsTiling n a.sizes
  two_pow : ∀ x s, a.sizes x = some s → ∃ k, s = 2 ^ k
  descending : ∀ x s y t, a.sizes x = some s → a.sizes y = some t → x < y → t < s
  aligned : ∀ x s, a.sizes x = some s → s ∣ x
  buddies : ∀ x s, a.sizes x = some s → ∀ y t, t * 2 ∣ s → t ∣ y - x → x ≤ y → y + t ≤ x + s →
    x ≤ y ^^^ t ∧ (y ^^^ t) + t ≤ x + s

/-! ### The size of the next chunk -/

/-- The least power of two that is not below `n`. -/
theorem size_pred_eq {n j : ℕ} (hlo : 2 ^ j < 2 * n) (hhi : n ≤ 2 ^ j) : (n - 1).size = j := by
  apply le_antisymm
  · rw [Nat.size_le]
    omega
  · by_contra hlt
    have hlt : (n - 1).size < j := by omega
    obtain ⟨i, rfl⟩ : ∃ i, j = i + 1 := ⟨j - 1, by omega⟩
    have hsmall : n - 1 < 2 ^ i := Nat.size_le.mp (by omega)
    rw [pow_succ] at hlo
    omega

theorem this_chunk_size_eq {size j : ℕ} (hnot : ¬ ∃ k, size = 2 ^ k) (hpos : 0 < size)
    (hmax : size < 2 ^ 63) (hlo : 2 ^ j < 2 * (size / 2)) (hhi : size / 2 ≤ 2 ^ j) :
    this_chunk_size size = 2 ^ j := by
  have hand : size &&& (size - 1) ≠ 0 := by
    intro h
    exact hnot ((Nat.and_sub_one_eq_zero_iff_isPowerOfTwo (by omega)).mp h)
  unfold this_chunk_size
  rw [if_pos hand, next_largest_power_of_2_toNat (by omega) (by omega), size_pred_eq hlo hhi]

theorem this_chunk_size_even_or_one {size : ℕ} (heven : Even size ∨ size = 1) (hpos : 0 < size)
    (hmax : size < 2 ^ 63) :
    ∃ k, this_chunk_size size = 2 ^ k ∧ 2 ^ k ≤ size ∧ size < 2 ^ (k + 1) ∧
      (Even (size - 2 ^ k) ∨ size - 2 ^ k = 1) := by
  by_cases hpow : ∃ k, size = 2 ^ k
  · obtain ⟨k, rfl⟩ := hpow
    refine ⟨k, ?_, le_refl _, Nat.pow_lt_pow_right (by norm_num) (Nat.lt_succ_self k), ?_⟩
    · unfold this_chunk_size
      rw [if_neg]
      exact not_not.mpr ((Nat.and_sub_one_eq_zero_iff_isPowerOfTwo (by omega)).mpr ⟨k, rfl⟩)
    · rw [Nat.sub_self]
      exact .inl Even.zero
  · have heven : Even size := by
      apply heven.resolve_right
      intro hone
      exact hpow ⟨0, hone⟩
    have hlog := Nat.pow_log_le_self 2 hpos.ne'
    have hlt := Nat.lt_pow_succ_log_self (b := 2) (by norm_num) size
    obtain ⟨k, hk⟩ : ∃ k, k = Nat.log 2 size := ⟨_, rfl⟩
    rw [← hk] at hlog hlt
    have hne : size ≠ 2 ^ k := fun h => hpow ⟨k, h⟩
    have htwo : size / 2 * 2 = size := Nat.div_mul_cancel heven.two_dvd
    refine ⟨k, this_chunk_size_eq hpow hpos hmax (by omega) ?_, hlog, hlt, .inl ?_⟩
    · rw [pow_succ] at hlt
      omega
    · obtain ⟨i, rfl⟩ : ∃ i, k = i + 1 := by
        -- a leading bit 0 is a size of 1
        cases k with
        | zero => exact absurd heven.two_dvd (by rw [pow_succ, pow_zero] at *; omega)
        | succ i => exact ⟨i, rfl⟩
      apply (Nat.even_sub hlog).mpr
      exact iff_of_true heven ((Nat.even_pow.mpr ⟨even_two, by omega⟩))

theorem this_chunk_size_odd {size : ℕ} (hodd : Odd size) (hge : 3 ≤ size) (hmax : size < 2 ^ 63) :
    (size = 3 ∧ this_chunk_size size = 1) ∨
      (Even (this_chunk_size size) ∧ this_chunk_size size + 3 ≤ size) := by
  have hnot : ¬ ∃ k, size = 2 ^ k := by
    rintro ⟨k, rfl⟩
    cases k with
    | zero => omega
    | succ k => exact (Nat.not_even_iff_odd.mpr hodd) ((Nat.even_pow.mpr ⟨even_two, by omega⟩))
  have hlog := Nat.pow_log_le_self 2 (show size ≠ 0 by omega)
  have hlt := Nat.lt_pow_succ_log_self (b := 2) (by norm_num) size
  obtain ⟨k, hk⟩ : ∃ k, k = Nat.log 2 size := ⟨_, rfl⟩
  rw [← hk] at hlog hlt
  have hne : size ≠ 2 ^ k := fun h => hnot ⟨k, h⟩
  obtain ⟨h, hh⟩ := hodd
  obtain ⟨i, rfl⟩ : ∃ i, k = i + 1 := by
    cases k with
    | zero => omega
    | succ i => exact ⟨i, rfl⟩
  have hdouble : 2 ^ (i + 1) = 2 ^ i * 2 := pow_succ ..
  have hdouble' : 2 ^ (i + 1 + 1) = 2 ^ (i + 1) * 2 := pow_succ ..
  by_cases hjust : size = 2 ^ (i + 1) + 1
  · -- half of the size is a power of two
    have hsize : this_chunk_size size = 2 ^ i :=
      this_chunk_size_eq hnot (by omega) hmax (by have := Nat.two_pow_pos i; omega) (by omega)
    rw [hsize]
    cases i with
    | zero => exact .inl ⟨hjust, rfl⟩
    | succ i =>
      have := Nat.two_pow_pos i
      exact .inr ⟨Nat.even_pow.mpr ⟨even_two, by omega⟩, by omega⟩
  · have hsize : this_chunk_size size = 2 ^ (i + 1) :=
      this_chunk_size_eq hnot (by omega) hmax (by omega) (by omega)
    rw [hsize]
    exact .inr ⟨Nat.even_pow.mpr ⟨even_two, by omega⟩, by omega⟩

/-! ### Even sizes -/

/-- Chunks that start at multiples of `2^K` and are no shorter, with `rest` bytes less than
    that to go. -/
structure Peeled (n rest K : ℕ) (a : Allocator) : Prop where
  consistent : Consistent n a
  rest_lt : rest < 2 ^ K
  here : 2 ^ K ∣ n
  long : ∀ x s, a.sizes x = some s → 2 ^ K ≤ s
  descending : ∀ x s y t, a.sizes x = some s → a.sizes y = some t → x < y → t < s
  aligned : ∀ x s, a.sizes x = some s → s ∣ x

theorem Peeled.add_chunk {n rest K : ℕ} {a : Allocator} (h : Peeled n rest K a) {k : ℕ}
    (hle : 2 ^ k ≤ rest) (hlt : rest < 2 ^ (k + 1)) :
    Peeled (n + 2 ^ k) (rest - 2 ^ k) k
      ((a.add_to_chunk_map n ⟨false, 2 ^ k⟩).add_to_free_list n) := by
  have hkK : k < K := (Nat.pow_lt_pow_iff_right (by norm_num)).mp (hle.trans_lt h.rest_lt)
  have hpow : 2 ^ k < 2 ^ K := Nat.pow_lt_pow_right (by norm_num) hkK
  have hdvd : 2 ^ k ∣ n := (pow_dvd_pow 2 hkK.le).trans h.here
  have hsizes := h.consistent.sizes_add_chunk (2 ^ k)
  have hcase : ∀ x s, Function.update a.sizes n (some (2 ^ k)) x = some s →
      (x = n ∧ s = 2 ^ k) ∨ (x < n ∧ a.sizes x = some s) := by
    intro x s hs
    by_cases hx : x = n
    · rw [hx, Function.update_self] at hs
      exact .inl ⟨hx, (Option.some.inj hs).symm⟩
    · rw [Function.update_of_ne hx] at hs
      have := h.consistent.tiling.inside x s hs
      exact .inr ⟨by omega, hs⟩
  refine ⟨(h.consistent.add_chunk (Nat.two_pow_pos k) ⟨k, rfl⟩).1, ?_, ?_, ?_, ?_, ?_⟩
  · rw [pow_succ] at hlt
    omega
  · exact Nat.dvd_add hdvd (dvd_refl _)
  · intro x s hs
    rw [hsizes] at hs
    rcases hcase x s hs with ⟨-, rfl⟩ | ⟨-, hs⟩
    · exact le_refl _
    · exact hpow.le.trans (h.long x s hs)
  · intro x s y t hs ht hxy
    rw [hsizes] at hs ht
    rcases hcase x s hs with ⟨rfl, rfl⟩ | ⟨-, hs⟩
    · rcases hcase y t ht with ⟨rfl, -⟩ | ⟨hy, -⟩
      · omega
      · omega
    · rcases hcase y t ht with ⟨-, rfl⟩ | ⟨-, ht⟩
      · exact hpow.trans_le (h.long x s hs)
      · exact h.descending x s y t hs ht hxy
  · intro x s hs
    rw [hsizes] at hs
    rcases hcase x s hs with ⟨rfl, rfl⟩ | ⟨-, hs⟩
    · exact hdvd
    · exact h.aligned x s hs

/-- The loop of the constructor takes off the bits of an even size one by one. -/
theorem Peeled.add_chunks (fuel rest : ℕ) {n K : ℕ} {a : Allocator} (h : Peeled n rest K a)
    (hfuel : rest ≤ fuel) (hmax : rest < 2 ^ 63) (heven : Even rest ∨ rest = 1) :
    ∃ K', Peeled (n + rest) 0 K' (add_chunks fuel rest n a) := by
  induction fuel generalizing rest n K a with
  | zero =>
    obtain rfl : rest = 0 := by omega
    exact ⟨K, h⟩
  | succ fuel ih =>
    unfold Grappa.Allocator.add_chunks
    split_ifs with hpos
    · obtain ⟨k, hsize, hle, hlt, heven'⟩ := this_chunk_size_even_or_one heven hpos hmax
      have hpow := Nat.two_pow_pos k
      simp only [hsize]
      obtain ⟨K', hK'⟩ := ih (rest - 2 ^ k) (h.add_chunk hle hlt) (by omega) (by omega) heven'
      rw [show n + 2 ^ k + (rest - 2 ^ k) = n + rest by omega] at hK'
      exact ⟨K', hK'⟩
    · obtain rfl : rest = 0 := by omega
      exact ⟨K, h⟩

theorem buddy_inside {x y i k : ℕ} (hx : 2 ^ k ∣ x) (hik : i < k) (hy : 2 ^ i ∣ y) (hxy : x ≤ y)
    (hyx : y + 2 ^ i ≤ x + 2 ^ k) : x ≤ y ^^^ 2 ^ i ∧ (y ^^^ 2 ^ i) + 2 ^ i ≤ x + 2 ^ k := by
  obtain ⟨p, hp, hhalf⟩ := Dyadic.exists_parent hy
  -- both halves of the parent are in the block
  have hparent := Dyadic.nested hp hx hik (by omega) (by omega)
  rcases hhalf with rfl | rfl
  · rw [Dyadic.xor_lower hp]
    omega
  · rw [Dyadic.xor_upper hp]
    omega

theorem Peeled.chunks_ok {n K : ℕ} {a : Allocator} (h : Peeled n 0 K a) : ChunksOk n a := by
  refine ⟨h.consistent.tiling, h.consistent.two_pow, h.descending, h.aligned, ?_⟩
  intro x s hs y t htwo ht hxy hyx
  obtain ⟨k, rfl⟩ := h.consistent.two_pow x s hs
  have hx := h.aligned x _ hs
  obtain ⟨j, hj, hj2⟩ := (Nat.dvd_prime_pow Nat.prime_two).mp htwo
  obtain ⟨i, rfl⟩ : ∃ i, j = i + 1 := by
    cases j with
    | zero => omega
    | succ i => exact ⟨i, rfl⟩
  obtain rfl : t = 2 ^ i := by
    rw [pow_succ] at hj2
    omega
  apply buddy_inside hx (by omega) _ hxy hyx
  have hix : 2 ^ i ∣ x := (pow_dvd_pow 2 (by omega)).trans hx
  rw [← Nat.sub_add_cancel hxy]
  exact Nat.dvd_add ht hix

/-! ### Odd sizes -/

theorem Consistent.last_chunk (fuel rest : ℕ) {n : ℕ} {a : Allocator} (h : Consistent n a)
    (hfuel : rest ≤ fuel) (hmax : rest < 2 ^ 63) (hodd : Odd rest) (hge : 3 ≤ rest) :
    (Grappa.Allocator.add_chunks fuel rest n a).sizes (n + rest - 2) = some 2 := by
  induction fuel generalizing rest n a with
  | zero => omega
  | succ fuel ih =>
    unfold Grappa.Allocator.add_chunks
    rw [if_pos (by omega)]
    obtain ⟨hpos, -, hpow⟩ := this_chunk_size_spec (show 0 < rest by omega) hmax
    obtain ⟨hcons, -⟩ := h.add_chunk hpos hpow
    rcases this_chunk_size_odd hodd hge hmax with ⟨rfl, hone⟩ | ⟨heven, hleft⟩
    · -- 1 byte, then the 2 that are left
      rw [hone] at hcons
      simp only [hone]
      obtain ⟨f, rfl⟩ : ∃ f, fuel = f + 2 := ⟨fuel - 2, by omega⟩
      have htwo : this_chunk_size 2 = 2 := by decide
      show (Grappa.Allocator.add_chunks (f + 2) 2 (n + 1) _).sizes _ = _
      rw [Grappa.Allocator.add_chunks, if_pos (by omega)]
      simp only [htwo]
      rw [Nat.sub_self, Grappa.Allocator.add_chunks, if_neg (by omega), hcons.sizes_add_chunk]
      exact Function.update_self ..
    · have hodd' : Odd (rest - this_chunk_size rest) := by
        rw [Nat.odd_sub (by omega)]
        exact iff_of_true hodd heven
      have := ih _ hcons (by omega) (by omega) hodd' (by omega)
      rwa [show n + this_chunk_size rest + (rest - this_chunk_size rest) - 2 = n + rest - 2 by
        omega] at this

/-- **When the constructor makes good chunks**: for even sizes and for size 1. -/
theorem chunks_ok_iff (base size : ℤ) (hpos : 0 < size) (hmax : size < 2 ^ 63) :
    ChunksOk size.toNat (new base size) ↔ Even size ∨ size = 1 := by
  obtain ⟨n, rfl⟩ : ∃ n : ℕ, size = n := ⟨size.toNat, by omega⟩
  rw [Int.toNat_natCast, Int.even_coe_nat]
  have hempty := consistent_empty base
  have hmax : n < 2 ^ 63 := by exact_mod_cast hmax
  constructor
  · intro h
    by_contra hnot
    obtain ⟨hodd, hone⟩ := not_or.mp hnot
    rw [Nat.not_even_iff_odd] at hodd
    obtain ⟨k, hk⟩ := hodd
    have hlast := hempty.last_chunk n n (le_refl _) hmax ⟨k, hk⟩ (by omega)
    rw [zero_add] at hlast
    obtain ⟨j, hj⟩ := h.aligned (n - 2) 2 hlast
    omega
  · intro h
    have hstart : Peeled 0 n 63 ⟨base, .empty, .empty⟩ := by
      refine ⟨hempty, hmax, dvd_zero _, ?_, ?_, ?_⟩
      · intro x s hs
        cases hs
      · intro x s y t hs
        cases hs
      · intro x s hs
        cases hs
    obtain ⟨K, hK⟩ := hstart.add_chunks n n (le_refl _) hmax (h.imp_right (by omega))
    rw [zero_add] at hK
    exact hK.chunks_ok

/-- A heap of three pages. -/
theorem chunks_ok_pages : ChunksOk 12288 (new 0 12288) :=
  (chunks_ok_iff 0 12288 (by norm_num) (by norm_num)).mpr (.inl (by decide))

/-- A heap of 3 bytes: 1 byte at 0 and 2 bytes at 1. -/
theorem chunks_three : (new 0 3).sizes 0 = some 1 ∧ (new 0 3).sizes 1 = some 2 ∧
    ¬ ChunksOk 3 (new 0 3) := by
  have hchunk : (new 0 3).sizes 1 = some 2 := by decide
  refine ⟨by decide, hchunk, ?_⟩
  intro h
  exact absurd (h.aligned 1 2 hchunk) (by decide)

end Allocator

end Grappa
