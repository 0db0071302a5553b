import AdvCompArch.Grappa.Addressing
import Mathlib.Algebra.BigOperators.Intervals
import Mathlib.Data.Nat.Prime.Basic

/-! # The parts of an array on the cores

    `localize` takes it that a block is full of whole objects.  What it computes for an array
    of objects of any size are the parts of the array, on each core, if there is one core, or
    an object fits into a block without a remainder, or the whole array fits into one block
    (`steps`).  In no other case it is: an object that crosses a block boundary continues on
    its own core, where another object may be (`not_good`). -/

namespace Grappa.LocalParts

open BlockCyclic GlobalAddress Finset Nat

/-- How many bytes of a block `localize` counts. -/
def room (size : ℕ) : ℕ := block_size.toNat / size * size

/-- What `localize` computes for core `c`, from the base of the memory on. -/
def lowest (N size s c : ℕ) : ℕ :=
  if c < owner 64 N s then s / 64 / N * 64 + room size
  else if owner 64 N s < c then s / 64 / N * 64
  else offset 64 N s

theorem localize_eq (m : Machine) (size s c : ℕ) (caller : Core) :
    (⟨(s : ℤ)⟩ : GlobalAddress).localize m size caller c =
      (lowest m.cores size s c : ℕ) + m.global_memory_chunk_base := by
  have hc : ¬((c : ℤ) = -1) := by omega
  simp only [localize, is_2D_natCast, Bool.false_eq_true, if_false, hc, block_min_natCast,
    pointer_natCast, core_natCast, offset_block_base, lowest, cast_lt, gt_iff_lt, room]
  split_ifs
  · push_cast [block_size]
    ring
  · rfl
  · rfl

variable {N size s n c : ℕ}

theorem lowest_owner (s : ℕ) : lowest N size s (owner 64 N s) = offset 64 N s := by
  simp [lowest]

/-- Without a remainder these are the bounds of the distribution. -/
theorem lowest_of_dvd (h : size ∣ 64) : lowest N size s c = lower 64 N s c := by
  have hroom : room size = 64 := Nat.div_mul_cancel h
  rw [lowest, lower, hroom]

/-- Passing an object advances the bound of its core by one object, and no other. -/
def Steps (N size s n : ℕ) : Prop := ∀ i < n, ∀ c < N,
  lowest N size (s + (i + 1) * size) c =
    lowest N size (s + i * size) c + if owner 64 N (s + i * size) = c then size else 0

/-- The objects of core `c`. -/
def owned (N size s n c : ℕ) : List ℕ :=
  (List.range n).filter fun i => owner 64 N (s + i * size) = c

theorem owned_succ (N size s n c : ℕ) : owned N size s (n + 1) c =
    owned N size s n c ++ if owner 64 N (s + n * size) = c then [n] else [] := by
  rw [owned, List.range_succ, List.filter_append, owned]
  congr 1
  split_ifs with h <;> simp [h]

theorem Steps.owned (h : Steps N size s n) (hc : c < N) :
    lowest N size (s + n * size) c = lowest N size s c + (owned N size s n c).length * size ∧
      (owned N size s n c).map (fun i => offset 64 N (s + i * size)) =
        (List.range (owned N size s n c).length).map fun t => lowest N size s c + t * size := by
  induction n with
  | zero => simp [LocalParts.owned]
  | succ n ih =>
    obtain ⟨hend, hlist⟩ := ih fun i hi => h i (by omega)
    have hstep := h n (lt_succ_self n) c hc
    rw [owned_succ]
    by_cases hown : owner 64 N (s + n * size) = c
    · -- object `n` is at the end of the part so far
      have hoff : offset 64 N (s + n * size) = lowest N size (s + n * size) c := by
        rw [← hown, lowest_owner]
      rw [if_pos hown, List.length_append, List.length_singleton, List.range_succ, List.map_append,
        List.map_append, hlist, List.map_singleton, List.map_singleton, hoff, hend]
      rw [if_pos hown, hend] at hstep
      refine ⟨?_, rfl⟩
      rw [hstep]
      ring
    · rw [if_neg hown, hend] at hstep
      rw [if_neg hown, List.append_nil]
      exact ⟨hstep, hlist⟩

theorem Steps.perm {β : Type*} (h : Steps N size s n) (hN : 0 < N) (f : ℕ → ℕ → β) :
    ((List.range N).flatMap fun c => (List.range (LocalParts.owned N size s n c).length).map fun t =>
        f c (lowest N size s c + t * size)).Perm
      ((List.range n).map fun i => f (owner 64 N (s + i * size)) (offset 64 N (s + i * size))) := by
  have hperm := Distribute.flatMap_filter_perm (List.range N) List.nodup_range
    (fun i => owner 64 N (s + i * size))
    (fun i => f (owner 64 N (s + i * size)) (offset 64 N (s + i * size))) (List.range n)
    fun i _ => List.mem_range.mpr (owner_lt hN _)
  refine List.Perm.trans (List.Perm.of_eq (List.flatMap_congr fun c hc => ?_)) hperm
  have hlist := congrArg (List.map (f c)) (h.owned (List.mem_range.mp hc)).2
  rw [List.map_map, List.map_map] at hlist
  show List.map (f c ∘ fun t => lowest N size s c + t * size) _ = _
  rw [← hlist]
  apply List.map_congr_left
  intro i hi
  have hown : owner 64 N (s + i * size) = c := of_decide_eq_true (List.mem_filter.mp hi).2
  simp [hown]

/-! ### When the bounds are right -/

/-- The addresses that the allocator of the global heap has for so many bytes: its chunks are
    powers of two, at multiples of their sizes. -/
def Granted (s bytes : ℕ) : Prop := ∃ k, bytes ≤ 2 ^ k ∧ 2 ^ k ∣ s

theorem granted_zero (bytes : ℕ) : Granted 0 bytes :=
  ⟨bytes, Nat.lt_two_pow_self.le, dvd_zero _⟩

/-- An array of objects that `localize` can divide. -/
def Suits (N size n : ℕ) : Prop := N = 1 ∨ size ∣ 64 ∨ n * size < 64

instance : Decidable (Suits N size n) := inferInstanceAs (Decidable (_ ∨ _ ∨ _))

theorem steps_of_one (size s n : ℕ) : Steps 1 size s n := by
  intro i _ c hc
  obtain rfl : c = 0 := by omega
  have howner : ∀ x, owner 64 1 x = 0 := fun x => mod_one _
  have hoffset : ∀ x, offset 64 1 x = x := by
    intro x
    rw [offset, Nat.div_one]
    omega
  simp only [lowest, howner, hoffset, lt_irrefl, if_false, if_true]
  ring

theorem steps_of_dvd (hdvd : size ∣ 64) (hs : size ∣ s) : Steps N size s n := by
  intro i _ c hc
  have halign : size ∣ s + i * size := (Nat.dvd_add_right hs).mpr (dvd_mul_left _ _)
  rw [lowest_of_dvd hdvd, lowest_of_dvd hdvd, succ_mul, ← add_assoc]
  exact lower_add (by norm_num) hc (aligned_fits hdvd halign)

/-- Inside one block the offsets go up with the addresses. -/
theorem steps_of_block (hblock : (s + n * size) / 64 = s / 64) : Steps N size s n := by
  intro i hi c _
  have hle : (i + 1) * size ≤ n * size := mul_le_mul_right size hi
  rw [succ_mul] at hle ⊢
  have hdiv : ∀ x, x ≤ n * size → (s + x) / 64 = s / 64 := by
    intro x hx
    omega
  have howner : ∀ x, x ≤ n * size → owner 64 N (s + x) = owner 64 N s := by
    intro x hx
    rw [owner, owner, hdiv x hx]
  simp only [lowest, offset, howner _ hle, howner (i * size) (by omega), hdiv _ hle,
    hdiv (i * size) (by omega)]
  have hfirst := hdiv (i * size) (by omega)
  have hnext := hdiv _ hle
  split_ifs <;> omega

theorem steps (h : Suits N size n) (hn : 0 < n) (hs : Granted s (n * size)) : Steps N size s n := by
  obtain ⟨k, hk, hdvd⟩ := hs
  by_cases hsize : size ∣ 64
  · -- the size is a power of two, and so it divides the chunk
    apply steps_of_dvd hsize
    obtain ⟨j, -, rfl⟩ := (dvd_prime_pow prime_two).mp (show size ∣ 2 ^ 6 from hsize)
    have hle : 1 * 2 ^ j ≤ n * 2 ^ j := mul_le_mul_right _ hn
    have hjk : j ≤ k := (Nat.pow_le_pow_iff_right (by norm_num : 1 < 2)).mp (by omega)
    exact (pow_dvd_pow 2 hjk).trans hdvd
  rcases h with rfl | hdiv | hsmall
  · exact steps_of_one size s n
  · exact absurd hdiv hsize
  · apply steps_of_block
    rcases le_total k 6 with hk6 | hk6
    · -- the chunk is part of a block, and the array is not all of it
      have hne : n * size ≠ 2 ^ k := by
        intro heq
        exact hsize ((Dvd.intro_left n heq).trans (pow_dvd_pow 2 hk6))
      obtain ⟨r, hr⟩ : 2 ^ k ∣ 64 - s % 64 :=
        dvd_sub (pow_dvd_pow 2 hk6) ((dvd_mod_iff (pow_dvd_pow 2 hk6)).mpr hdvd)
      have hmod : s % 64 < 64 := mod_lt _ (by norm_num)
      have hr1 : 1 ≤ r := by
        rcases Nat.eq_zero_or_pos r with rfl | hr1
        · omega
        · exact hr1
      have hle : 2 ^ k * 1 ≤ 2 ^ k * r := mul_le_mul_left _ hr1
      omega
    · have hmod : 64 ∣ s := (pow_dvd_pow 2 hk6).trans hdvd
      omega

/-! ### When they are not -/

section bad

theorem lowest_end (hend : owner 64 N s = 0) (c : ℕ) :
    lowest N size s c = if c = 0 then offset 64 N s else s / 64 / N * 64 := by
  unfold lowest
  rw [hend, if_neg (not_lt_zero c)]
  by_cases hc : c = 0
  · rw [if_neg (by omega), if_pos hc]
  · rw [if_pos (by omega), if_neg hc]

theorem sum_lowest (hN : 0 < N) (s : ℕ) :
    ∑ c ∈ Finset.range N, lowest N size s c + (64 - room size) * owner 64 N s = s := by
  have hown := owner_lt (B := 64) hN s
  have hroom : room size ≤ 64 := div_mul_le_self 64 size
  have hsplit : ∀ c, lowest N size s c = s / 64 / N * 64 +
      ((if c < owner 64 N s then room size else 0) + if c = owner 64 N s then s % 64 else 0) := by
    intro c
    unfold lowest offset
    split_ifs <;> omega
  have hlow : ∑ c ∈ range N, (if c < owner 64 N s then room size else 0) =
      owner 64 N s * room size := by
    rw [sum_ite, sum_const_zero, sum_const, add_zero, Nat.nsmul_eq_mul]
    congr 1
    have hfilter : (range N).filter (· < owner 64 N s) = range (owner 64 N s) := by
      ext c
      simp only [mem_filter, mem_range]
      omega
    rw [hfilter, card_range]
  have hat : ∑ c ∈ range N, (if c = owner 64 N s then s % 64 else 0) = s % 64 := by
    rw [sum_ite_eq' , if_pos (mem_range.mpr hown)]
  have hblock := block_eq (B := 64) (N := N) s
  have hfull : owner 64 N s * room size + (64 - room size) * owner 64 N s = owner 64 N s * 64 := by
    rw [mul_comm _ (owner 64 N s), ← mul_add, Nat.add_sub_cancel' hroom]
  rw [sum_congr rfl fun c _ => hsplit c, sum_add_distrib, sum_add_distrib,
    hlow, hat, sum_const, card_range, nsmul_eq_mul]
  calc N * (s / 64 / N * 64) + (owner 64 N s * room size + s % 64) + (64 - room size) * owner 64 N s
      = (s / 64 / N * N + owner 64 N s) * 64 + s % 64 := by linarith
    _ = s := by rw [← hblock]; omega

/-- An object is at a slot of its core's part, or in the first half of it, where packed records
    may be left over. -/
def Good (N size n i : ℕ) : Prop :=
  (size ∣ offset 64 N (i * size) ∧
      offset 64 N (i * size) < lowest N size (n * size) (owner 64 N (i * size))) ∨
    2 * offset 64 N (i * size) + size ≤ lowest N size (n * size) (owner 64 N (i * size))

/-- The array goes round all cores at least once, and each of them has whole objects. -/
theorem rounds (hN : 2 ≤ N) (hlong : 64 ≤ n * size) (hend : owner 64 N (n * size) = 0)
    (hwhole : ∀ c < N, size ∣ lowest N size (n * size) c) :
    0 < n * size / 64 / N ∧ n * size / 64 = N * (n * size / 64 / N) ∧
      size ∣ n * size / 64 / N * 64 ∧ size ∣ n * size % 64 := by
  have hrow := hwhole 1 hN
  rw [lowest_end hend, if_neg one_ne_zero] at hrow
  have hfirst := hwhole 0 (by omega)
  rw [lowest_end hend, if_pos rfl, offset] at hfirst
  have hdiv : N * (n * size / 64 / N) = n * size / 64 := Nat.mul_div_cancel' (Nat.dvd_of_mod_eq_zero hend)
  refine ⟨?_, hdiv.symm, hrow, (Nat.dvd_add_right hrow).mp hfirst⟩
  by_contra hzero
  rw [Nat.eq_zero_of_not_pos hzero, mul_zero] at hdiv
  omega

theorem not_good_of_long (hN : 2 ≤ N) (hlong : 64 ≤ n * size) (hbig : 64 < size)
    (hend : owner 64 N (n * size) = 0) (hwhole : ∀ c < N, size ∣ lowest N size (n * size) c) :
    ¬ Good N size n (n - 1) := by
  obtain ⟨hrounds, hblocks, hrow, hrest⟩ := rounds hN hlong hend hwhole
  have hmod : n * size % 64 = 0 := by
    apply eq_zero_of_dvd_of_lt hrest
    exact (mod_lt _ (by norm_num)).trans hbig
  obtain ⟨R, hR⟩ : ∃ R, R = n * size / 64 / N := ⟨_, rfl⟩
  rw [← hR] at hrounds hblocks hrow
  have hlow : ∀ c, lowest N size (n * size) c = R * 64 := by
    intro c
    rw [lowest_end hend, offset, hmod, ← hR]
    split_ifs <;> rfl
  have hn : n ≠ 0 := by
    rintro rfl
    omega
  obtain ⟨k, rfl⟩ : ∃ k, n = k + 1 := ⟨n - 1, by omega⟩
  rw [Nat.add_sub_cancel, Good, hlow]
  have hnext : (k + 1) * size = k * size + size := succ_mul k size
  -- the rows before the last object
  have hrows : R ≤ k * size / 64 / N + size / 64 ∧
      (size % 64 = 0 → R + 1 ≤ k * size / 64 / N + size / 64) := by
    have hlast : ∀ d, N * R ≤ k * size / 64 + N * d → R ≤ k * size / 64 / N + d := by
      intro d hd
      by_contra hlt
      have hdiv : k * size / 64 < N * (k * size / 64 / N + 1) := by
        rw [mul_comm]
        exact lt_div_mul_add (show 0 < N by omega) |>.trans_eq (by ring)
      have hmul : N * (k * size / 64 / N + d + 1) ≤ N * R := mul_le_mul_left N (by omega)
      linarith
    have htwo : ∀ d, 2 * d ≤ N * d := fun d => mul_le_mul_right d hN
    constructor
    · apply hlast
      have := htwo (size / 64)
      omega
    · intro hzero
      obtain ⟨d, hd⟩ : ∃ d, size / 64 = d + 1 := ⟨size / 64 - 1, by omega⟩
      have hd1 : 1 ≤ d := by omega
      have hmul : N * 1 ≤ N * d := mul_le_mul_left N hd1
      have := htwo d
      have := hlast d (by omega)
      omega
  have hpast : R * 64 < offset 64 N (k * size) + size := by
    rw [offset]
    obtain ⟨hle, hlt⟩ := hrows
    by_cases hzero : size % 64 = 0
    · have := hlt hzero
      omega
    · omega
  rintro (⟨hdvd, hin⟩ | hhalf)
  · -- no slot begins so close to the end
    have hgap : size ∣ R * 64 - offset 64 N (k * size) := dvd_sub hrow hdvd
    have := le_of_dvd (by omega) hgap
    omega
  · omega

/-- A shorter object: in the last round the objects of the cores 0 and 1 cannot all be at
    slots. -/
theorem not_good_of_short (hN : 2 ≤ N) (hpos : 0 < size) (hlong : 64 ≤ n * size)
    (hsize : ¬ size ∣ 64) (hsmall : size < 64) (hend : owner 64 N (n * size) = 0)
    (hwhole : ∀ c < N, size ∣ lowest N size (n * size) c) : ∃ i < n, ¬ Good N size n i := by
  obtain ⟨hrounds, hblocks, hrow, hrest⟩ := rounds hN hlong hend hwhole
  obtain ⟨R, hR⟩ : ∃ R, R = n * size / 64 / N := ⟨_, rfl⟩
  rw [← hR] at hrounds hblocks hrow
  have hthree : 3 ≤ R := by
    by_contra hlt
    rcases (show R = 1 ∨ R = 2 by omega) with rfl | rfl
    · exact hsize (by simpa using hrow)
    · obtain ⟨j, hj, rfl⟩ := (dvd_prime_pow prime_two).mp (show size ∣ 2 ^ 7 from hrow)
      have hj6 : j < 6 := (Nat.pow_lt_pow_iff_right (by norm_num : 1 < 2)).mp hsmall
      exact hsize (pow_dvd_pow 2 hj6.le)
  by_contra hall
  have hgood : ∀ i < n, Good N size n i := fun i hi => by_contra fun hbad => hall ⟨i, hi, hbad⟩
  -- the object that begins in the last block but one round of core `c`
  have hblock : ∀ c < 2, size ∣ 64 * ((N - 1) * (R - 1) + c) := by
    intro c hc
    obtain ⟨k, hk⟩ : ∃ k, k = N * (R - 1) + c := ⟨_, rfl⟩
    have hkN : k / N = R - 1 := by
      rw [hk, mul_add_div (by omega), div_eq_of_lt (by omega), add_zero]
    have hkmod : k % N = c := by
      rw [hk, mul_add_mod, mod_eq_of_lt (by omega)]
    have hceil := div_add_mod (64 * k + size - 1) size
    have hceil_lt := mod_lt (64 * k + size - 1) hpos
    obtain ⟨i, hi⟩ : ∃ i, i = (64 * k + size - 1) / size := ⟨_, rfl⟩
    rw [← hi, mul_comm] at hceil
    have hbegin : i * size / 64 = k := by omega
    have hkR : k < N * R := by
      have hmul : N * (R - 1) + N = N * R := by
        rw [← mul_succ]
        congr 1
        omega
      omega
    have hin : i < n := by
      by_contra hge
      have := Nat.mul_le_mul_right size (Nat.le_of_not_lt hge)
      omega
    have howner : owner 64 N (i * size) = c := by rw [owner, hbegin, hkmod]
    have hoffset : offset 64 N (i * size) = (R - 1) * 64 + i * size % 64 := by
      rw [offset, hbegin, hkN]
    have hlow : lowest N size (n * size) c ≤ R * 64 + 63 := by
      rw [lowest_end hend, offset, ← hR]
      split_ifs <;> omega
    have hslot : size ∣ offset 64 N (i * size) := by
      rcases hgood i hin with hslot | hhalf
      · exact hslot.1
      · rw [howner] at hhalf
        omega
    rw [hoffset] at hslot
    have hsum : i * size = (R - 1) * 64 + i * size % 64 + 64 * ((N - 1) * (R - 1) + c) := by
      have hmul : (N - 1) * (R - 1) + (R - 1) = N * (R - 1) := by
        rw [← succ_mul]
        congr 1
        omega
      omega
    have hmul : size ∣ i * size := dvd_mul_left _ _
    rw [hsum] at hmul
    exact (Nat.dvd_add_right hslot).mp hmul
  have h0 := hblock 0 (by norm_num)
  have h1 := hblock 1 (by norm_num)
  rw [mul_add, mul_one] at h1
  exact hsize ((Nat.dvd_add_right h0).mp h1)

/-- **Where the bounds of the cores are not the parts of the array** some object is not at a
    slot of its core. -/
theorem exists_not_good (hN : 2 ≤ N) (hpos : 0 < size) (hlong : 64 ≤ n * size)
    (hsize : ¬ size ∣ 64) (hend : owner 64 N (n * size) = 0)
    (hwhole : ∀ c < N, size ∣ lowest N size (n * size) c) : ∃ i < n, ¬ Good N size n i := by
  rcases lt_trichotomy size 64 with hlt | rfl | hgt
  · exact not_good_of_short hN hpos hlong hsize hlt hend hwhole
  · exact absurd (dvd_refl 64) hsize
  · have hn : n ≠ 0 := by
      rintro rfl
      omega
    exact ⟨n - 1, by omega, not_good_of_long hN hlong hgt hend hwhole⟩

end bad

end Grappa.LocalParts
