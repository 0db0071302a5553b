import AdvCompArch.Grappa.ArrayDirectory

/-! # Block distribution

    A range of integers is divided into blocks, of which the first `remain` have one
    element more than the others.  `blockDist` gives the block of a rank, and
    `indexToBlock` finds the block of an index, with a closed form for the large blocks
    and one for the small ones.  The integers are signed and have 64 bits, and a division by
    zero gives no result.  So the length of a range has to fit (`blockDist_spec`); that of one
    with `2^63` elements does not (`not_divides_evenly`). -/

namespace Grappa.BlockDistribution

open FixedWidth Nat

/-- `range_t`; `end` is a keyword here. -/
structure range_t where
  start : ℤ
  stop : ℤ
  deriving DecidableEq

structure block_offset_t where
  block : ℤ
  offset : ℤ
  deriving DecidableEq

/-- The quotient of signed integers, which a zero divisor does not have. -/
def quotient (a b : ℤ) : Option ℤ := if b = 0 then none else some (a.tdiv b)

/-- The remainder, likewise. -/
def remainder (a b : ℤ) : Option ℤ := if b = 0 then none else some (a.tmod b)

/-- range for block distribution -/
def blockDist (start stop rank numBlocks : ℤ) : Option range_t := do
  let numElems := int64 (stop - start)
  let each ← quotient numElems numBlocks
  let remain ← remainder numElems numBlocks
  let mynum := int64 (if rank < remain then each + 1 else each)
  let mystart := int64 (start +
    if rank < remain then (each + 1) * rank else (each + 1) * remain + (rank - remain) * each)
  some ⟨mystart, int64 (mystart + mynum)⟩

def indexToBlock (index numElements numBlocks : ℤ) : Option block_offset_t := do
  let each ← quotient numElements numBlocks
  let remain ← remainder numElements numBlocks
  if index < int64 ((each + 1) * remain) then
    some ⟨← quotient index (int64 (each + 1)), ← remainder index (int64 (each + 1))⟩
  else
    some ⟨int64 (remain + (← quotient (int64 (index - int64 ((each + 1) * remain))) each)),
      ← remainder (int64 (index - int64 ((each + 1) * remain))) each⟩

/-- `indexToBlock` where nothing wraps around (`indexToBlock_eq_exact`). -/
def exactIndexToBlock (index numElements numBlocks : ℤ) : Option block_offset_t := do
  let each ← quotient numElements numBlocks
  let remain ← remainder numElements numBlocks
  if index < (each + 1) * remain then
    some ⟨← quotient index (each + 1), ← remainder index (each + 1)⟩
  else
    let index := index - (each + 1) * remain
    some ⟨remain + (← quotient index each), ← remainder index each⟩

instance : Membership ℤ range_t := ⟨fun r i => r.start ≤ i ∧ i < r.stop⟩

def range_t.size (r : range_t) : ℤ := r.stop - r.start

/-! ### The blocks of a length -/

section naturals

variable {n p k : ℕ}

/-- Block `k` starts after `k` small blocks and an element more for each large one. -/
theorem start_eq (hk : k ≤ p) :
    (Grappa.blockDist 0 n k p).start = n / p * k + min k (n % p) := by
  simp only [Grappa.blockDist, Nat.sub_zero, zero_add]
  split
  · rw [min_eq_left (by omega)]
    ring
  · obtain ⟨d, rfl⟩ := Nat.exists_eq_add_of_le (show n % p ≤ k by omega)
    rw [min_eq_right (by omega), Nat.add_sub_cancel_left]
    ring

theorem stop_eq : (Grappa.blockDist 0 n k p).stop =
    (Grappa.blockDist 0 n k p).start + (n / p + if k < n % p then 1 else 0) := by
  simp only [Grappa.blockDist, Nat.sub_zero]
  split <;> rfl

theorem stop_le_start {k' : ℕ} (hlt : k < k') (hk' : k' ≤ p) :
    (Grappa.blockDist 0 n k p).stop ≤ (Grappa.blockDist 0 n k' p).start := by
  have hmul : n / p * (k + 1) ≤ n / p * k' := mul_le_mul_left _ hlt
  rw [mul_add, mul_one] at hmul
  rw [stop_eq, start_eq (by omega), start_eq hk']
  split <;> omega

theorem index_large {i : ℕ} (hi : i < (n / p + 1) * (n % p)) :
    i / (n / p + 1) < n % p ∧
      (n / p + 1) * (i / (n / p + 1)) ≤ i ∧ i < (n / p + 1) * (i / (n / p + 1)) + (n / p + 1) := by
  have hrem : i % (n / p + 1) < n / p + 1 := mod_lt i (succ_pos _)
  have hdiv := div_add_mod i (n / p + 1)
  refine ⟨Nat.div_lt_of_lt_mul hi, ?_, ?_⟩ <;> omega

theorem each_pos {i : ℕ} (hi : i < n) (hlarge : (n / p + 1) * (n % p) ≤ i) : 0 < n / p := by
  by_contra hzero
  have hdiv := Nat.div_add_mod n p
  rw [Nat.eq_zero_of_not_pos hzero] at hlarge hdiv
  omega

theorem index_small {i : ℕ} (hi : i < n) (hp : 0 < p) (hlarge : (n / p + 1) * (n % p) ≤ i) :
    n % p + (i - (n / p + 1) * (n % p)) / (n / p) < p := by
  have hlt := Nat.mod_lt n hp
  have hdiv := div_add_mod n p
  obtain ⟨d, hd⟩ := Nat.exists_eq_add_of_le hlt.le
  have hcount : i - (n / p + 1) * (n % p) < n / p * d := by
    have hexpand : p * (n / p) = n / p * (n % p) + n / p * d :=
      calc p * (n / p) = (n % p + d) * (n / p) := congrArg (· * (n / p)) hd
        _ = n / p * (n % p) + n / p * d := by ring
    rw [add_mul] at hlarge ⊢
    omega
  have := Nat.div_lt_of_lt_mul hcount
  omega

end naturals

/-! ### The blocks of a range -/

section integers

variable {start : ℤ} {n p k : ℕ}

theorem quotient_natCast (hp : p ≠ 0) : quotient n p = some ((n / p : ℕ) : ℤ) := by
  rw [quotient, if_neg (Int.natCast_ne_zero.mpr hp)]
  rfl

theorem remainder_natCast (hp : p ≠ 0) : remainder n p = some ((n % p : ℕ) : ℤ) := by
  rw [remainder, if_neg (Int.natCast_ne_zero.mpr hp)]
  rfl

theorem blockDist_eq (hlo : -2 ^ 63 ≤ start) (hhi : start + n < 2 ^ 63) (hn : n < 2 ^ 63)
    (hk : k < p) : blockDist start (start + n) k p =
      some ⟨start + (Grappa.blockDist 0 n k p).start, start + (Grappa.blockDist 0 n k p).stop⟩ := by
  have hp : p ≠ 0 := by omega
  have hle : (Grappa.blockDist 0 n k p).start ≤ (Grappa.blockDist 0 n k p).stop :=
    blockDist_start_le
  have hstop := blockDist_stop_le (n := n) (k := k) (by omega : 0 < p) hk
  have hmystart : (start + if k < n % p then ((n / p : ℕ) + 1) * (k : ℤ)
      else ((n / p : ℕ) + 1) * (n % p : ℕ) + (k - (n % p : ℕ)) * (n / p : ℕ)) =
        start + (Grappa.blockDist 0 n k p).start := by
    rw [start_eq hk.le]
    split_ifs with hlarge
    · rw [min_eq_left hlarge.le]
      push_cast
      ring
    · rw [min_eq_right (not_lt.mp hlarge)]
      push_cast
      ring
  have hmynum : (if k < n % p then ((n / p : ℕ) : ℤ) + 1 else (n / p : ℕ)) =
      ((Grappa.blockDist 0 n k p).stop : ℤ) - (Grappa.blockDist 0 n k p).start := by
    rw [stop_eq]
    push_cast
    split_ifs <;> ring
  simp only [blockDist, add_sub_cancel_left, int64_eq (x := n) (by omega) (by omega),
    quotient_natCast hp, remainder_natCast hp, Option.bind_eq_bind, Option.bind_some, Int.ofNat_lt,
    hmystart, hmynum]
  rw [int64_eq (x := start + _) (by omega) (by omega), int64_eq (x := _ - _) (by omega) (by omega),
    int64_eq (by omega) (by omega)]
  congr 2
  ring

theorem indexToBlock_eq {i : ℕ} (hi : i < n) (hp : 0 < p) :
    exactIndexToBlock i n p = some (if i < (n / p + 1) * (n % p)
      then ⟨(i / (n / p + 1) : ℕ), (i % (n / p + 1) : ℕ)⟩
      else ⟨(n % p + (i - (n / p + 1) * (n % p)) / (n / p) : ℕ),
        ((i - (n / p + 1) * (n % p)) % (n / p) : ℕ)⟩) := by
  have hlarge : ((n / p : ℕ) + 1) * ((n % p : ℕ) : ℤ) = ((n / p + 1) * (n % p) : ℕ) := by
    push_cast
    rfl
  have heach : ((n / p : ℕ) : ℤ) + 1 = (n / p + 1 : ℕ) := rfl
  simp only [exactIndexToBlock, quotient_natCast hp.ne', remainder_natCast hp.ne', Option.bind_eq_bind,
    Option.bind_some, hlarge, Int.ofNat_lt]
  split_ifs with hindex
  · rw [heach, quotient_natCast (succ_ne_zero _), remainder_natCast (succ_ne_zero _)]
    rfl
  · have hle : (n / p + 1) * (n % p) ≤ i := Nat.le_of_not_lt hindex
    have hpos := (each_pos hi hle).ne'
    rw [← cast_sub hle, quotient_natCast hpos, remainder_natCast hpos]
    rfl

theorem indexToBlock_spec {i : ℕ} (hi : i < n) (hp : 0 < p) :
    ∃ b < p, ∃ offset < n / p + 1, exactIndexToBlock i n p = some ⟨b, offset⟩ ∧
      i = (Grappa.blockDist 0 n b p).start + offset ∧ i < (Grappa.blockDist 0 n b p).stop := by
  have heq := indexToBlock_eq hi hp
  split_ifs at heq with hlarge
  · have hindex := index_large hlarge
    have hb : i / (n / p + 1) < p := hindex.1.trans (mod_lt n hp)
    have hstart : (Grappa.blockDist 0 n (i / (n / p + 1)) p).start =
        (n / p + 1) * (i / (n / p + 1)) := by
      rw [start_eq hb.le, min_eq_left hindex.1.le]
      ring
    refine ⟨_, hb, _, mod_lt i (succ_pos _), heq, ?_, ?_⟩
    · rw [hstart, div_add_mod]
    · rw [stop_eq, hstart, if_pos hindex.1]
      exact hindex.2.2
  · have hle : (n / p + 1) * (n % p) ≤ i := Nat.le_of_not_lt hlarge
    have hpos := each_pos hi hle
    have hb := index_small hi hp hle
    generalize hj : i - (n / p + 1) * (n % p) = j at heq hb
    have hdiv := div_add_mod j (n / p)
    have hrem := mod_lt j hpos
    have hstart : (Grappa.blockDist 0 n (n % p + j / (n / p)) p).start =
        (n / p + 1) * (n % p) + n / p * (j / (n / p)) := by
      rw [start_eq hb.le, min_eq_right (Nat.le_add_right ..)]
      ring
    refine ⟨_, hb, _, hrem.trans (lt_succ_self _), heq, ?_, ?_⟩
    · rw [hstart]
      omega
    · rw [stop_eq, hstart, if_neg (Nat.not_lt.mpr (Nat.le_add_right ..))]
      omega

theorem indexToBlock_eq_exact {i : ℕ} (hi : i < n) (hn : n < 2 ^ 63) (hp : 0 < p) :
    indexToBlock i n p = exactIndexToBlock i n p := by
  have hlarge : ((n / p : ℕ) + 1) * ((n % p : ℕ) : ℤ) = ((n / p + 1) * (n % p) : ℕ) := by
    push_cast
    rfl
  have heach : ((n / p : ℕ) : ℤ) + 1 = (n / p + 1 : ℕ) := rfl
  have hle : (n / p + 1) * (n % p) ≤ n := by
    have hdiv := div_add_mod n p
    have hmul := mul_le_mul_right (n / p) (mod_lt n hp).le
    rw [add_mul, one_mul, mul_comm (n / p)]
    omega
  rw [indexToBlock_eq hi hp]
  unfold indexToBlock
  rw [quotient_natCast hp.ne', remainder_natCast hp.ne', Option.bind_eq_bind, Option.bind_some,
    Option.bind_some, hlarge, int64_natCast (hle.trans_lt hn)]
  by_cases hindex : i < (n / p + 1) * (n % p)
  · -- there are large blocks
    have hsize := Nat.le_mul_of_pos_right (n / p + 1)
      (Nat.pos_of_mul_pos_left (Nat.zero_lt_of_lt hindex))
    rw [if_pos (Int.ofNat_lt.mpr hindex), if_pos hindex, heach,
      int64_natCast ((hsize.trans hle).trans_lt hn), quotient_natCast (succ_ne_zero _),
      remainder_natCast (succ_ne_zero _), Option.bind_some, Option.bind_some]
  · have hstart : (n / p + 1) * (n % p) ≤ i := Nat.le_of_not_lt hindex
    have hpos := (each_pos hi hstart).ne'
    have hquot := div_le_self (i - (n / p + 1) * (n % p)) (n / p)
    have hremain : n % p ≤ (n / p + 1) * (n % p) := Nat.le_mul_of_pos_left _ (Nat.succ_pos _)
    have hoffset : i - (n / p + 1) * (n % p) < 2 ^ 63 := ((sub_le _ _).trans hi.le).trans_lt hn
    have hblock : n % p + (i - (n / p + 1) * (n % p)) / (n / p) < 2 ^ 63 :=
      calc n % p + (i - (n / p + 1) * (n % p)) / (n / p)
          ≤ (n / p + 1) * (n % p) + (i - (n / p + 1) * (n % p)) := Nat.add_le_add hremain hquot
        _ = i := Nat.add_sub_cancel' hstart
        _ < 2 ^ 63 := hi.trans hn
    rw [if_neg fun h => hindex (Int.ofNat_lt.mp h), if_neg hindex, ← cast_sub hstart,
      int64_natCast hoffset, quotient_natCast hpos, remainder_natCast hpos, Option.bind_some,
      Option.bind_some, ← cast_add, int64_natCast hblock]

end integers

/-! ### The division of a range -/

/-- The blocks of the ranks `0, …, p - 1` are consecutive, divide the range, and differ in size
    by one element at most. -/
structure DividesEvenly (start stop p : ℤ) (block : ℤ → range_t) : Prop where
  first : (block 0).start = start
  next : ∀ r, 0 ≤ r → r + 1 < p → (block (r + 1)).start = (block r).stop
  last : (block (p - 1)).stop = stop
  covers : ∀ i, start ≤ i → i < stop → ∃! r, (0 ≤ r ∧ r < p) ∧ i ∈ block r
  inside : ∀ r, 0 ≤ r → r < p →
    start ≤ (block r).start ∧ (block r).start ≤ (block r).stop ∧ (block r).stop ≤ stop
  sizes : ∀ r r', 0 ≤ r → r < p → 0 ≤ r' → r' < p → (block r).size ≤ (block r').size + 1

/-- The blocks of a length are such a division. -/
theorem divides_evenly (start : ℤ) (n : ℕ) {p : ℕ} (hp : 0 < p) :
    DividesEvenly start (start + n) p fun r =>
      ⟨start + (Grappa.blockDist 0 n r.toNat p).start,
        start + (Grappa.blockDist 0 n r.toNat p).stop⟩ where
  first := by
    simp [blockDist_zero]
  next := by
    intro r hr _
    obtain ⟨k, rfl⟩ := Int.eq_ofNat_of_zero_le hr
    simp only [← cast_succ, Int.toNat_natCast, succ_eq_add_one, blockDist_succ]
  last := by
    have hpred : ((p : ℤ) - 1).toNat = p - 1 := by omega
    rw [hpred, ← blockDist_succ, Nat.sub_add_cancel hp, blockDist_cores hp]
  covers := by
    intro i hlo hhi
    obtain ⟨j, hj⟩ := Int.eq_ofNat_of_zero_le (sub_nonneg.mpr hlo)
    obtain ⟨c, hc, hstart, hstop⟩ := exists_block hp (show j < n by omega)
    refine ⟨c, ⟨by omega, ?_⟩, ?_⟩
    · simp only [Int.toNat_natCast]
      exact ⟨by simp only; omega, by simp only; omega⟩
    · intro r hr
      obtain ⟨⟨hr, hrp⟩, hmem⟩ := hr
      obtain ⟨c', rfl⟩ := Int.eq_ofNat_of_zero_le hr
      simp only [Int.toNat_natCast] at hmem
      obtain ⟨hstart', hstop'⟩ := hmem
      simp only at hstart' hstop'
      -- of two different blocks one ends before the other starts
      rcases lt_trichotomy c' c with hlt | heq | hgt
      · have := stop_le_start (n := n) hlt hc.le
        omega
      · rw [heq]
      · have := stop_le_start (n := n) (p := p) hgt (by omega)
        omega
  inside := by
    intro r hr hrp
    obtain ⟨k, rfl⟩ := Int.eq_ofNat_of_zero_le hr
    have hstop := blockDist_stop_le (n := n) (k := k) hp (by omega)
    have hle := blockDist_start_le (n := n) (k := k) (N := p)
    simp only [Int.toNat_natCast]
    omega
  sizes := by
    intro r r' hr _ hr' _
    obtain ⟨k, rfl⟩ := Int.eq_ofNat_of_zero_le hr
    obtain ⟨k', rfl⟩ := Int.eq_ofNat_of_zero_le hr'
    simp only [range_t.size, Int.toNat_natCast, stop_eq]
    split_ifs <;> push_cast <;> omega

/-- **The block distribution.**  Every range whose length fits is divided evenly among any number
    of ranks, and the block that is computed for an index is the one that it is in: the divisions
    on the way are not by zero. -/
theorem blockDist_spec {p : ℤ} (hp : 1 ≤ p) :
    (∀ start stop, -2 ^ 63 ≤ start → start ≤ stop → stop < 2 ^ 63 → stop - start < 2 ^ 63 →
      ∃ block, DividesEvenly start stop p block ∧
        ∀ r, 0 ≤ r → r < p → blockDist start stop r p = some (block r)) ∧
    ∀ n i, n < 2 ^ 63 → 0 ≤ i → i < n → ∃ b r, indexToBlock i n p = some b ∧ 0 ≤ b.block ∧
      b.block < p ∧ blockDist 0 n b.block p = some r ∧ i ∈ r ∧ i = r.start + b.offset := by
  obtain ⟨p, rfl⟩ := Int.eq_ofNat_of_zero_le (show 0 ≤ p by omega)
  have hpos : 0 < p := by omega
  constructor
  · intro start stop hlo hle hhi hlength
    obtain ⟨n, hn⟩ := Int.eq_ofNat_of_zero_le (sub_nonneg.mpr hle)
    obtain rfl : stop = start + n := by omega
    refine ⟨_, divides_evenly start n hpos, ?_⟩
    intro r hr hrp
    obtain ⟨k, rfl⟩ := Int.eq_ofNat_of_zero_le hr
    rw [blockDist_eq hlo hhi (by omega) (by omega), Int.toNat_natCast]
  · intro n i hn hi hin
    obtain ⟨i, rfl⟩ := Int.eq_ofNat_of_zero_le hi
    obtain ⟨n, rfl⟩ := Int.eq_ofNat_of_zero_le (show 0 ≤ n by omega)
    obtain ⟨b, hb, offset, -, heq, hstart, hstop⟩ := indexToBlock_spec (show i < n by omega) hpos
    rw [← indexToBlock_eq_exact (by omega) (by omega) hpos] at heq
    have hblock : blockDist 0 (0 + n) b p = _ := blockDist_eq (by omega) (by omega) (by omega) hb
    simp only [zero_add] at hblock
    refine ⟨_, _, heq, by simp only; omega, by simp only; omega, hblock, ⟨?_, ?_⟩, ?_⟩ <;>
      simp only <;> omega

/-- Ten elements from `-3` on in four blocks, of which the first two have three. -/
theorem blockDist_four :
    ((∀ start stop : ℤ, -2 ^ 63 ≤ start → start ≤ stop → stop < 2 ^ 63 → stop - start < 2 ^ 63 →
      ∃ block, DividesEvenly start stop 4 block ∧
        ∀ r, 0 ≤ r → r < 4 → blockDist start stop r 4 = some (block r)) ∧
    ∀ n i : ℤ, n < 2 ^ 63 → 0 ≤ i → i < n → ∃ b r, indexToBlock i n 4 = some b ∧ 0 ≤ b.block ∧
      b.block < 4 ∧ blockDist 0 n b.block 4 = some r ∧ i ∈ r ∧ i = r.start + b.offset) ∧
    blockDist (-3) 7 1 4 = some ⟨0, 3⟩ ∧ blockDist (-3) 7 2 4 = some ⟨3, 5⟩ ∧
    indexToBlock 6 10 4 = some ⟨2, 0⟩ :=
  ⟨blockDist_spec (by decide), by decide⟩

/-- The length of this range wraps around to `-2 ^ 63`, and its two blocks do not divide it. -/
theorem not_divides_evenly :
    ¬∃ block, DividesEvenly (-2 ^ 62) (2 ^ 62) 2 block ∧
      ∀ r, 0 ≤ r → r < 2 → blockDist (-2 ^ 62) (2 ^ 62) r 2 = some (block r) := by
  rintro ⟨block, h, hblock⟩
  have hfirst := hblock 0 (by decide) (by decide)
  have hinside := (h.inside 0 (by decide) (by decide)).2.1
  have heq : blockDist (-2 ^ 62) (2 ^ 62) 0 2 = some ⟨-2 ^ 62, -2 ^ 63⟩ := by decide
  rw [heq] at hfirst
  rw [← Option.some.inj hfirst] at hinside
  exact absurd hinside (by decide)

end Grappa.BlockDistribution
