import AdvCompArch.Grappa.CoresWithElements
import Mathlib.Data.Finset.Card

/-! # The count of cores, for every base and length

    `cores_with_elements` does not assign its result for an empty range, and it takes the
    space left in the first block for a whole number of objects.  The count is exact for
    aligned bases (`cores_with_elements_natCast`); for the other ones, which an object made
    of smaller fields can have, it depends on where the range ends (`cores_with_elements_iff`). -/

namespace Grappa

open GlobalAddress Finset

/-! ### Consecutive residues -/

/-- `k` consecutive residues modulo `N`, from that of `c` on. -/
def residues (N c k : ℕ) : Finset ℕ := (Finset.range k).image fun j => (c + j) % N

theorem residues_subset {N : ℕ} (hN : 0 < N) (c k : ℕ) : residues N c k ⊆ Finset.range N := by
  intro r hr
  obtain ⟨j, -, rfl⟩ := mem_image.mp hr
  exact mem_range.mpr (Nat.mod_lt _ hN)

theorem card_residues_of_le {N k : ℕ} (c : ℕ) (hk : k ≤ N) : (residues N c k).card = k := by
  unfold residues
  rw [card_image_of_injOn, card_range]
  intro i hi j hj hij
  rw [mem_coe, mem_range] at hi hj
  have hmod : i ≡ j [MOD N] := Nat.ModEq.add_left_cancel' c hij
  exact Nat.ModEq.eq_of_lt_of_lt hmod (by omega) (by omega)

/-- After one round nothing new comes. -/
theorem residues_min {N : ℕ} (hN : 0 < N) (c k : ℕ) : residues N c (min N k) = residues N c k := by
  by_cases hk : k ≤ N
  · rw [min_eq_right hk]
  · have hsub : residues N c N ⊆ residues N c k :=
      image_subset_image (range_subset_range.mpr (by omega))
    have hround : residues N c N = range N := by
      apply eq_of_subset_of_card_le (residues_subset hN c N)
      rw [card_range, card_residues_of_le c (le_refl N)]
    rw [min_eq_left (by omega)]
    apply Finset.Subset.antisymm hsub
    rw [hround]
    exact residues_subset hN c k

theorem card_residues {N : ℕ} (hN : 0 < N) (c k : ℕ) : (residues N c k).card = min N k := by
  rw [← residues_min hN, card_residues_of_le c (min_le_left N k)]

/-! ### The owners of a range -/

/-- The cores that own elements of a range. -/
def element_cores (m : Machine) (sizeof : ℕ) (base : GlobalAddress) (nelem : ℕ) : Finset Core :=
  (Finset.range nelem).image fun i : ℕ => (base.element sizeof i).core m

/-- What `cores_with_elements` is to return: the owner of the base and the number of owners, which
    are the cores that follow it. -/
structure CoresOk (m : Machine) (sizeof : ℕ) (base : GlobalAddress) (nelem : ℕ)
    (r : Core × Core) : Prop where
  start : r.1 = base.core m
  count : r.2 = (element_cores m sizeof base nelem).card
  consecutive : element_cores m sizeof base nelem =
    (Finset.range r.2.toNat).image fun j : ℕ => (r.1 + j) % (m.cores : ℤ)

/-- The number of blocks in which the elements of a range start. -/
def touched_blocks (sizeof s nelem : ℕ) : ℕ := (s + (nelem - 1) * sizeof) / 64 - s / 64 + 1

section owners

variable {m : Machine} {sizeof s nelem : ℕ}

/-- No block is left out between the first and the last element. -/
theorem element_cores_eq (hpos : 0 < sizeof) (hle : sizeof ≤ 64) (hn : 1 ≤ nelem) :
    element_cores m sizeof ⟨(s : ℤ)⟩ nelem =
      (residues m.cores (s / 64) (touched_blocks sizeof s nelem)).image Nat.cast := by
  ext c
  simp only [element_cores, residues, image_image, mem_image, mem_range,
    element_natCast, core_natCast, Function.comp_apply, BlockCyclic.owner, touched_blocks]
  constructor
  · rintro ⟨i, hi, rfl⟩
    have hmono : i * sizeof ≤ (nelem - 1) * sizeof := Nat.mul_le_mul_right _ (by omega)
    refine ⟨(s + i * sizeof) / 64 - s / 64, by omega, ?_⟩
    rw [show s / 64 + ((s + i * sizeof) / 64 - s / 64) = (s + i * sizeof) / 64 by omega]
  · rintro ⟨j, hj, rfl⟩
    cases j with
    | zero => exact ⟨0, hn, by simp⟩
    | succ j =>
      -- the first element at or after the start of the block
      obtain ⟨gap, hgap⟩ : ∃ gap, gap = (s / 64 + (j + 1)) * 64 - s := ⟨_, rfl⟩
      obtain ⟨i, hi⟩ : ∃ i, i = (gap + sizeof - 1) / sizeof := ⟨_, rfl⟩
      have hmod := Nat.div_add_mod (gap + sizeof - 1) sizeof
      have hlt := Nat.mod_lt (gap + sizeof - 1) hpos
      rw [← hi, mul_comm] at hmod
      refine ⟨i, ?_, ?_⟩
      · by_contra hge
        have hmono : nelem * sizeof ≤ i * sizeof := Nat.mul_le_mul_right _ (by omega)
        have hlast : nelem * sizeof = (nelem - 1) * sizeof + sizeof := by
          rw [← Nat.succ_mul]
          congr 1
          omega
        omega
      · congr 2
        omega

theorem coresOk_iff (hpos : 0 < sizeof) (hle : sizeof ≤ 64) (hn : 1 ≤ nelem) (k : ℕ) :
    CoresOk m sizeof ⟨(s : ℤ)⟩ nelem (((BlockCyclic.owner 64 m.cores s : ℕ) : ℤ), (k : ℤ)) ↔
      k = min m.cores (touched_blocks sizeof s nelem) := by
  have hcard : (element_cores m sizeof ⟨(s : ℤ)⟩ nelem).card =
      min m.cores (touched_blocks sizeof s nelem) := by
    rw [element_cores_eq hpos hle hn, card_image_of_injective _ Nat.cast_injective,
      card_residues m.cores_pos]
  constructor
  · intro h
    have hcount : ((k : ℕ) : ℤ) = _ := h.count
    rw [hcard] at hcount
    exact Int.natCast_inj.mp hcount
  · intro hk
    refine ⟨(core_natCast s).symm, by rw [hcard, hk], ?_⟩
    rw [element_cores_eq hpos hle hn, ← residues_min m.cores_pos, ← hk, residues,
      image_image]
    apply image_congr
    intro j _
    simp only [Function.comp_apply, BlockCyclic.owner]
    push_cast
    rw [Int.emod_add_emod]

end owners

/-! ### The count that is made -/

/-- The count of a range that is not empty, in numbers: `first` objects are taken to be in the
    first block, and every other block to hold as many as fit. -/
def counted_cores (cores sizeof s nelem : ℕ) : ℕ :=
  let first := (sizeof + 64 - ((s + sizeof - 1) % 64 + 1)) / sizeof
  let rest := (nelem - first) / (64 / sizeof)
  let endAddr := s + nelem * sizeof
  if nelem ≤ first then 1
  else if cores ≤ rest + 1 then cores
  else if endAddr % 64 / sizeof ≠ 0 ∧
      BlockCyclic.owner 64 cores endAddr ≠ BlockCyclic.owner 64 cores s then rest + 2
  else rest + 1

section counted

variable {m : Machine} {sizeof s nelem : ℕ}

theorem block_max_sub (hle : sizeof ≤ 64) :
    ((⟨(s : ℤ)⟩ : GlobalAddress).block_max m sizeof).sub sizeof ⟨(s : ℤ)⟩ =
      ((sizeof + 64 - ((s + sizeof - 1) % 64 + 1)) / sizeof : ℕ) := by
  by_cases hpos : 0 < sizeof
  · have hmax : (⟨(s : ℤ)⟩ : GlobalAddress).block_max m sizeof =
        ⟨((s + (sizeof + 64 - ((s + sizeof - 1) % 64 + 1)) : ℕ) : ℤ)⟩ := by
      simp only [block_max, is_2D_natCast, Bool.false_eq_true, if_false, Raw, raw_bits, block_size]
      congr 1
      omega
    rw [hmax, sub_natCast (by omega) (by omega), Nat.add_sub_cancel_left]
  · obtain rfl : sizeof = 0 := by omega
    simp [GlobalAddress.sub]

theorem cores_with_elements_empty (hle : sizeof ≤ 64) (uninit : Core) :
    (cores_with_elements m sizeof uninit ⟨(s : ℤ)⟩ (0 : ℕ)).2 = uninit := by
  obtain ⟨first, hfirst⟩ :
      ∃ first, first = (sizeof + 64 - ((s + sizeof - 1) % 64 + 1)) / sizeof := ⟨_, rfl⟩
  have hfirst_le : first ≤ sizeof + 64 := by
    rw [hfirst]
    exact (Nat.div_le_self _ _).trans (by omega)
  have hblocks := block_max_sub (m := m) (s := s) hle
  rw [← hfirst] at hblocks
  have hbmod : Int.bmod ((0 : ℕ) - first) (2 ^ 64) = -first := by
    rw [Nat.cast_zero, zero_sub]
    exact Int.bmod_eq_of_le (by omega) (by omega)
  unfold cores_with_elements
  simp only [hblocks, hbmod]
  rw [if_neg (by omega), if_neg (by omega)]

theorem cores_with_elements_eq (hpos : 0 < sizeof) (hle : sizeof ≤ 64) (hn : 1 ≤ nelem)
    (hbound : s + nelem * sizeof < 2 ^ 63) (uninit : Core) :
    cores_with_elements m sizeof uninit ⟨(s : ℤ)⟩ nelem =
      (((BlockCyclic.owner 64 m.cores s : ℕ) : ℤ),
        ((counted_cores m.cores sizeof s nelem : ℕ) : ℤ)) := by
  have hcount : nelem * 1 ≤ nelem * sizeof := Nat.mul_le_mul_left _ hpos
  obtain ⟨first, hfirst⟩ :
      ∃ first, first = (sizeof + 64 - ((s + sizeof - 1) % 64 + 1)) / sizeof := ⟨_, rfl⟩
  have hfirst_le : first ≤ sizeof + 64 := by
    rw [hfirst]
    exact (Nat.div_le_self _ _).trans (by omega)
  have hblocks := block_max_sub (m := m) (s := s) hle
  rw [← hfirst] at hblocks
  obtain ⟨L, hL⟩ : ∃ L, L = s + nelem * sizeof := ⟨_, rfl⟩
  have hmin : (⟨(L : ℤ)⟩ : GlobalAddress).sub sizeof ((⟨(L : ℤ)⟩ : GlobalAddress).block_min m) =
      (L % 64 / sizeof : ℕ) := by
    rw [block_min_natCast, sub_natCast (by omega) (by omega)]
    congr 2
    omega
  have hbmod : Int.bmod ((nelem : ℤ) - first) (2 ^ 64) = nelem - first :=
    Int.bmod_eq_of_le (by omega) (by omega)
  have hone : (1 : ℤ) ≤ 64 / sizeof := by
    have h1 : 1 ≤ 64 / sizeof := Nat.div_pos hle hpos
    exact_mod_cast h1
  have hnpos : (0 : ℤ) < (nelem : ℤ) := by omega
  unfold cores_with_elements counted_cores
  simp only [core_natCast, hblocks, hbmod, add_natCast hbound, ← hL, hmin, gt_iff_lt, hnpos, if_true,
    block_size, max_eq_right hone, Prod.mk.injEq, true_and, ge_iff_le, ← hfirst]
  by_cases hin : nelem ≤ first
  · rw [if_neg (by omega), if_pos hin]
    rfl
  · obtain ⟨rest, hrest⟩ : ∃ rest, rest = (nelem - first) / (64 / sizeof) := ⟨_, rfl⟩
    have hquot : ((nelem : ℤ) - first) / (64 / sizeof) = rest := by
      rw [hrest, Int.natCast_ediv, Nat.cast_sub (by omega), Int.natCast_ediv]
      rfl
    rw [if_pos (by omega), if_neg hin, hquot, ← hrest]
    by_cases hall : m.cores ≤ rest + 1
    · rw [if_pos (by omega), if_pos hall]
    · rw [if_neg (by omega), if_neg hall]
      by_cases hlast : L % 64 / sizeof ≠ 0 ∧
          BlockCyclic.owner 64 m.cores L ≠ BlockCyclic.owner 64 m.cores s
      · rw [if_pos hlast, if_pos]
        · show (1 : ℤ) + rest + 1 = _
          omega
        · exact_mod_cast hlast
      · rw [if_neg hlast, if_neg]
        · show (1 : ℤ) + rest = _
          omega
        · exact_mod_cast hlast

end counted

/-- The ranges that are counted right: they are not empty, and the base is at a multiple of the
    size, or the objects that lie across a block boundary do not matter for where the range ends. -/
def CountedRight (cores sizeof s nelem : ℕ) : Prop :=
  1 ≤ nelem ∧ (cores = 1 ∨ sizeof ∣ s ∨
    if s % 64 + sizeof ≤ 64 then
      let rest := nelem - (64 - s % 64) / sizeof
      ¬ (1 ≤ rest ∧ 64 / sizeof ∣ rest ∧ rest < (cores - 1) * (64 / sizeof))
    else
      nelem = 1 ∨ (64 / sizeof < nelem ∧ 64 / sizeof ∣ nelem) ∨ cores * (64 / sizeof) ≤ nelem)

/-- Two blocks at most one round apart have different owners unless they are the same or just
    one round apart. -/
theorem owners_of_blocks (N x y : ℕ) : N < y ∨ ((x + y) % N ≠ x % N ∧ 0 < y ∧ y < N) ∨
    ((x + y) % N = x % N ∧ (y = 0 ∨ y = N)) := by
  rcases Nat.lt_trichotomy y N with hlt | rfl | hgt
  · by_cases h0 : y = 0
    · exact .inr (.inr ⟨by rw [h0, add_zero], .inl h0⟩)
    · refine .inr (.inl ⟨?_, by omega, hlt⟩)
      intro heq
      have hdvd : N ∣ x + y - x := (Nat.modEq_iff_dvd' (by omega)).mp heq.symm
      have := Nat.le_of_dvd (by omega) hdvd
      omega
  · exact .inr (.inr ⟨Nat.add_mod_right x y, .inr rfl⟩)
  · exact .inl hgt

/-! ### Bases between two multiples of the size -/

section units

variable {sizeof per e : ℕ}

theorem block_of_units (hper : sizeof * per = 64) (he : e < sizeof) (x a : ℕ) :
    (sizeof * (per * x + a) + e) / 64 = x + a / per := by
  have hpos : 0 < per := Nat.pos_of_ne_zero fun h => by simp [h] at hper
  rw [← hper, ← Nat.div_div_eq_div_mul, Nat.mul_add_div (by omega), Nat.div_eq_of_lt he,
    add_zero, Nat.mul_add_div hpos]

theorem offset_of_units (hper : sizeof * per = 64) (he : e < sizeof) (x a : ℕ) :
    (sizeof * (per * x + a) + e) % 64 / sizeof = a % per := by
  rw [← hper, Nat.mod_mul_right_div_self, Nat.mul_add_div (by omega), Nat.div_eq_of_lt he,
    add_zero, Nat.mul_add_mod]

theorem byte_of_units (hper : sizeof * per = 64) (he : e < sizeof) (x a : ℕ) :
    (sizeof * (per * x + a) + e) % 64 = sizeof * (a % per) + e := by
  have hdiv := Nat.div_add_mod ((sizeof * (per * x + a) + e) % 64) sizeof
  rw [offset_of_units hper he] at hdiv
  rw [← hdiv, Nat.mod_mod_of_dvd _ ⟨per, hper.symm⟩, Nat.mul_add_mod, Nat.mod_eq_of_lt he]

theorem first_of_units (hper : sizeof * per = 64) (he0 : 0 < e) (he : e < sizeof) (x q : ℕ) :
    (sizeof + 64 - ((sizeof * (per * x + q) + e + sizeof - 1) % 64 + 1)) / sizeof =
      per - (q + 1) % per := by
  have hpos : 0 < per := Nat.pos_of_ne_zero fun h => by simp [h] at hper
  have hlast : sizeof * (per * x + q) + e + sizeof - 1 =
      sizeof * (per * x + (q + 1)) + (e - 1) := by
    rw [← add_assoc (per * x), Nat.mul_add_one]
    omega
  have hk := Nat.mod_lt (q + 1) hpos
  rw [hlast, byte_of_units hper (by omega)]
  obtain ⟨left, hleft⟩ : ∃ left, per = (q + 1) % per + left := ⟨per - (q + 1) % per, by omega⟩
  have hsplit : sizeof * ((q + 1) % per) + sizeof * left = 64 := by
    rw [← mul_add, ← hleft, hper]
  rw [show sizeof + 64 - (sizeof * ((q + 1) % per) + (e - 1) + 1) = sizeof * left + (sizeof - e) by
    omega, Nat.mul_add_div (by omega), Nat.div_eq_of_lt (by omega)]
  omega

theorem left_of_units (hper : sizeof * per = 64) (he0 : 0 < e) (he : e < sizeof) {q : ℕ}
    (hq : q < per) (x : ℕ) :
    ((sizeof * (per * x + q) + e) % 64 + sizeof ≤ 64 ↔ q + 1 < per) ∧
      (64 - (sizeof * (per * x + q) + e) % 64) / sizeof = per - (q + 1) := by
  rw [byte_of_units hper he, Nat.mod_eq_of_lt hq]
  obtain ⟨left, rfl⟩ : ∃ left, per = q + 1 + left := ⟨per - (q + 1), by omega⟩
  have hsplit : sizeof * q + sizeof + sizeof * left = 64 := by
    rw [← Nat.mul_succ, ← mul_add, hper]
  constructor
  · constructor
    · intro h
      by_contra hnot
      obtain rfl : left = 0 := by omega
      omega
    · intro h
      have : sizeof * 1 ≤ sizeof * left := Nat.mul_le_mul_left _ (by omega)
      omega
  · rw [show 64 - (sizeof * q + e) = sizeof * left + (sizeof - e) by omega,
      Nat.mul_add_div (by omega), Nat.div_eq_of_lt (by omega)]
    omega

end units

/-- The count agrees with the blocks that are touched just if all cores are counted, or the case
    after it agrees. -/
theorem counted_or_all {cores k T : ℕ} {part : Prop} [Decidable part] (hT : k < T) :
    (if cores ≤ k + 1 then cores else if part then k + 2 else k + 1) = min cores T ↔
      cores ≤ k + 1 ∨ (if part then k + 2 else k + 1) = min cores T := by
  by_cases hall : cores ≤ k + 1
  · simp only [hall, if_true, true_or, iff_true]
    exact (min_eq_left (by omega)).symm
  · simp only [hall, if_false, false_or]

section between

variable {cores per q nelem x R Y : ℕ}

theorem counted_fitting (hcores : 0 < cores) (hq : q + 1 < per) (hn : 1 ≤ nelem)
    (hend : per * Y + R = q + nelem) (hR : R < per) :
    ((if nelem ≤ per - (q + 1) then 1
      else if cores ≤ (nelem - (per - (q + 1))) / per + 1 then cores
      else if R ≠ 0 ∧ (x + Y) % cores ≠ x % cores then (nelem - (per - (q + 1))) / per + 2
      else (nelem - (per - (q + 1))) / per + 1) = min cores (if R = 0 then Y else Y + 1)) ↔
    (cores = 1 ∨ ¬ (1 ≤ nelem - (per - (q + 1)) ∧ per ∣ nelem - (per - (q + 1)) ∧
      nelem - (per - (q + 1)) < (cores - 1) * per)) := by
  have hper : 0 < per := by omega
  obtain ⟨rest, hrest⟩ : ∃ rest, rest = nelem - (per - (q + 1)) := ⟨_, rfl⟩
  rw [← hrest]
  by_cases hin : nelem ≤ per - (q + 1)
  · -- everything is in the first block
    obtain rfl : Y = 0 := by
      by_contra hY
      have : per * 1 ≤ per * Y := Nat.mul_le_mul_left per (by omega)
      omega
    have hrest0 : rest = 0 := by omega
    rw [if_pos hin, if_neg (by omega), zero_add, min_eq_right hcores]
    simp [hrest0]
  · obtain ⟨Z, rfl⟩ : ∃ Z, Y = Z + 1 := by
      cases Y with
      | zero => omega
      | succ Z => exact ⟨Z, rfl⟩
    rw [Nat.mul_succ] at hend
    rw [if_neg hin]
    have howner : Z + 1 < cores → (x + (Z + 1)) % cores ≠ x % cores := by
      intro hlt
      rcases owners_of_blocks cores x (Z + 1) with h | h | h
      · omega
      · exact h.1
      · omega
    by_cases hfull : R + 1 = per
    · -- the last object lies across the boundary at which the range ends
      obtain ⟨hd, hm⟩ : rest / per = Z + 1 ∧ rest % per = 0 :=
        (Nat.div_mod_unique hper).mpr ⟨by rw [Nat.mul_succ]; omega, hper⟩
      have hR0 : R ≠ 0 := by omega
      have hlt : rest < (cores - 1) * per ↔ Z + 1 < cores - 1 := by
        rw [← hd, Nat.div_lt_iff_lt_mul hper]
      rw [hd, if_neg hR0, counted_or_all (by omega), hlt]
      by_cases hall : cores ≤ Z + 2
      · exact iff_of_true (.inl hall) (.inr fun h => by omega)
      · have hrest1 : 1 ≤ rest := by omega
        rw [if_pos ⟨hR0, howner (by omega)⟩]
        exact iff_of_false (by omega)
          (not_or.mpr ⟨by omega, not_not.mpr ⟨hrest1, Nat.dvd_of_mod_eq_zero hm, by omega⟩⟩)
    · obtain ⟨hd, hm⟩ : rest / per = Z ∧ rest % per = R + 1 :=
        (Nat.div_mod_unique hper).mpr ⟨by omega, by omega⟩
      rw [hd]
      refine iff_of_true ?_ (.inr fun h => by have := Nat.mod_eq_zero_of_dvd h.2.1; omega)
      rw [counted_or_all (by split <;> omega)]
      by_cases hall : cores ≤ Z + 1
      · exact .inl hall
      · right
        by_cases hR0 : R = 0
        · rw [if_pos hR0, if_neg fun h => h.1 hR0]
          omega
        · rw [if_neg hR0, if_pos ⟨hR0, howner (by omega)⟩]
          omega

/-- The base object crosses the boundary. -/
theorem counted_crossing (hcores : 0 < cores) (hq : q + 1 = per) (hn : 1 ≤ nelem)
    (hend : per * Y + R = q + nelem) (hR : R < per) :
    ((if nelem ≤ per then 1
      else if cores ≤ (nelem - per) / per + 1 then cores
      else if R ≠ 0 ∧ (x + Y) % cores ≠ x % cores then (nelem - per) / per + 2
      else (nelem - per) / per + 1) = min cores (if R = 0 then Y else Y + 1)) ↔
    (cores = 1 ∨ nelem = 1 ∨ (per < nelem ∧ per ∣ nelem) ∨ cores * per ≤ nelem) := by
  have hper : 0 < per := by omega
  have hle : cores * per ≤ nelem ↔ cores ≤ nelem / per := (Nat.le_div_iff_mul_le hper).symm
  obtain ⟨Z, rfl⟩ : ∃ Z, Y = Z + 1 := by
    cases Y with
    | zero => omega
    | succ Z => exact ⟨Z, rfl⟩
  rw [Nat.mul_succ] at hend
  rw [hle]
  by_cases hin : nelem ≤ per
  · -- one element, or several of which all but the first are in the next block
    obtain rfl : Z = 0 := by
      by_contra hZ
      have : per * 1 ≤ per * Z := Nat.mul_le_mul_left per (by omega)
      omega
    have hdiv : nelem / per ≤ 1 := Nat.div_le_of_le_mul (by omega)
    rw [if_pos hin]
    by_cases hR0 : R = 0
    · rw [if_pos hR0, zero_add, min_eq_right hcores]
      exact iff_of_true rfl (.inr (.inl (by omega)))
    · rw [if_neg hR0]
      omega
  · obtain ⟨W, rfl⟩ : ∃ W, Z = W + 1 := by
      cases Z with
      | zero => omega
      | succ W => exact ⟨W, rfl⟩
    rw [Nat.mul_succ] at hend
    rw [if_neg hin]
    by_cases hfull : R + 1 = per
    · -- the range ends with a block
      obtain ⟨hd, -⟩ : (nelem - per) / per = W + 1 ∧ (nelem - per) % per = 0 :=
        (Nat.div_mod_unique hper).mpr ⟨by rw [Nat.mul_succ]; omega, hper⟩
      have hdvd : per ∣ nelem := ⟨W + 2, by rw [mul_add]; omega⟩
      rw [hd]
      refine iff_of_true ?_ (.inr (.inr (.inl ⟨by omega, hdvd⟩)))
      rw [counted_or_all (by split <;> omega)]
      by_cases hall : cores ≤ W + 2
      · exact .inl hall
      · right
        by_cases hR0 : R = 0
        · rw [if_pos hR0, if_neg fun h => h.1 hR0]
          omega
        · have howner : (x + (W + 2)) % cores ≠ x % cores := by
            rcases owners_of_blocks cores x (W + 2) with h | h | h
            · omega
            · exact h.1
            · omega
          rw [if_neg hR0, if_pos ⟨hR0, howner⟩]
          omega
    · obtain ⟨hd, -⟩ : (nelem - per) / per = W ∧ (nelem - per) % per = R + 1 :=
        (Nat.div_mod_unique hper).mpr ⟨by omega, by omega⟩
      obtain ⟨hd', hm'⟩ : nelem / per = W + 1 ∧ nelem % per = R + 1 :=
        (Nat.div_mod_unique hper).mpr ⟨by rw [Nat.mul_succ]; omega, by omega⟩
      have hdvd : ¬ per ∣ nelem := fun h => by
        have := Nat.mod_eq_zero_of_dvd h
        omega
      rw [hd, hd', counted_or_all (by split <;> omega)]
      by_cases hall : cores ≤ W + 1
      · exact iff_of_true (.inl hall) (.inr (.inr (.inr hall)))
      · refine iff_of_false (not_or.mpr ⟨hall, ?_⟩) ?_
        · by_cases hpart : R ≠ 0 ∧ (x + (W + 1 + 1)) % cores ≠ x % cores
          · -- one round after the first block would be its own owner
            have hround : cores ≠ W + 1 + 1 := fun h => hpart.2 (h ▸ Nat.add_mod_right x _)
            rw [if_pos hpart, if_neg hpart.1]
            omega
          · rw [if_neg hpart]
            split <;> omega
        · rintro (h | h | h | h)
          · omega
          · omega
          · exact hdvd h.2
          · exact hall h

/-- `q` objects of the first block lie before the base, and no object of the range starts at a
    multiple of the size. -/
theorem counted_between {first : ℕ} (hcores : 0 < cores) (hq : q < per) (hn : 1 ≤ nelem)
    (hfirst : first = per - (q + 1) % per) :
    ((if nelem ≤ first then 1
      else if cores ≤ (nelem - first) / per + 1 then cores
      else if (q + nelem) % per ≠ 0 ∧ (x + (q + nelem) / per) % cores ≠ x % cores then
        (nelem - first) / per + 2
      else (nelem - first) / per + 1) = min cores ((q + (nelem - 1)) / per + 1)) ↔
    (cores = 1 ∨ if q + 1 < per then
        ¬ (1 ≤ nelem - first ∧ per ∣ nelem - first ∧ nelem - first < (cores - 1) * per)
      else nelem = 1 ∨ (per < nelem ∧ per ∣ nelem) ∨ cores * per ≤ nelem) := by
  have hper : 0 < per := by omega
  have hend := Nat.div_add_mod (q + nelem) per
  have hRlt := Nat.mod_lt (q + nelem) hper
  generalize (q + nelem) / per = Y at hend ⊢
  generalize (q + nelem) % per = R at hend hRlt ⊢
  -- the last element starts in block `Y`, or the range ends with the block before it
  have htouched : (q + (nelem - 1)) / per + 1 = if R = 0 then Y else Y + 1 := by
    by_cases h0 : R = 0
    · cases Y with
      | zero => omega
      | succ Z =>
        rw [Nat.mul_succ] at hend
        rw [if_pos h0, ((Nat.div_mod_unique hper).mpr
          (⟨by omega, by omega⟩ : (per - 1) + per * Z = q + (nelem - 1) ∧ per - 1 < per)).1]
    · rw [if_neg h0, ((Nat.div_mod_unique hper).mpr
        (⟨by omega, by omega⟩ : (R - 1) + per * Y = q + (nelem - 1) ∧ R - 1 < per)).1]
  rw [htouched]
  by_cases hq1 : q + 1 < per
  · rw [Nat.mod_eq_of_lt hq1] at hfirst
    rw [if_pos hq1, hfirst]
    exact counted_fitting hcores hq1 hn hend hRlt
  · have hlast : q + 1 = per := by omega
    rw [hlast, Nat.mod_self, Nat.sub_zero] at hfirst
    rw [if_neg hq1, hfirst]
    exact counted_crossing hcores hlast hn hend hRlt

end between

theorem counted_cores_iff {cores sizeof s nelem : ℕ} (hcores : 0 < cores) (hdvd : sizeof ∣ 64)
    (hn : 1 ≤ nelem) (hbound : s + nelem * sizeof < 2 ^ 63) :
    counted_cores cores sizeof s nelem = min cores (touched_blocks sizeof s nelem) ↔
      CountedRight cores sizeof s nelem := by
  have hpos : 0 < sizeof := Nat.pos_of_dvd_of_pos hdvd (by norm_num)
  have hle : sizeof ≤ 64 := Nat.le_of_dvd (by norm_num) hdvd
  by_cases halign : sizeof ∣ s
  · -- the aligned case is known
    apply iff_of_true _ ⟨hn, .inr (.inl halign)⟩
    have hfits : (s + (nelem - 1) * sizeof) % 64 + sizeof ≤ 64 :=
      aligned_fits hdvd ((Nat.dvd_add_right halign).mpr (dvd_mul_left _ _))
    have hsucc : nelem * sizeof = (nelem - 1) * sizeof + sizeof := by
      rw [← Nat.succ_mul]
      congr 1
      omega
    have h := cores_with_elements_eq (m := ⟨cores, hcores, 0⟩) hpos hle hn hbound 0
    rw [cores_with_elements_natCast hdvd halign hn (by omega)] at h
    have hcount := Int.natCast_inj.mp (congrArg Prod.snd h)
    rw [← hcount, touched_blocks]
    congr 2
    omega
  · obtain ⟨per, hper⟩ := hdvd
    have hper' : sizeof * per = 64 := hper.symm
    obtain ⟨q, hq⟩ : ∃ q, q = s % 64 / sizeof := ⟨_, rfl⟩
    obtain ⟨e, he⟩ : ∃ e, e = s % sizeof := ⟨_, rfl⟩
    obtain ⟨x, hx⟩ : ∃ x, x = s / 64 := ⟨_, rfl⟩
    have he0 : 0 < e := by
      rw [he]
      exact Nat.emod_pos_of_not_dvd halign
    have hes : e < sizeof := he ▸ Nat.mod_lt s hpos
    have hqper : q < per := by
      rw [hq, Nat.div_lt_iff_lt_mul hpos, mul_comm, hper']
      exact Nat.mod_lt s (by norm_num)
    have hs : s = sizeof * (per * x + q) + e := by
      have h2 := Nat.div_add_mod (s % 64) sizeof
      rw [Nat.mod_mod_of_dvd _ ⟨per, hper⟩, ← hq, ← he] at h2
      rw [mul_add, ← mul_assoc, hper', hx]
      omega
    have hposition : ∀ i, s + i * sizeof = sizeof * (per * x + (q + i)) + e := by
      intro i
      rw [hs]
      ring
    have hsize : 64 / sizeof = per := by rw [hper, Nat.mul_div_cancel_left _ hpos]
    have hfirst := first_of_units hper' he0 hes x q
    obtain ⟨hfit, hleft⟩ := left_of_units hper' he0 hes hqper x
    rw [← hs] at hfirst hfit hleft
    have hblocks : touched_blocks sizeof s nelem = (q + (nelem - 1)) / per + 1 := by
      rw [touched_blocks, hposition, block_of_units hper' hes, ← hx, Nat.add_sub_cancel_left]
    have hcore : BlockCyclic.owner 64 cores (s + nelem * sizeof) = (x + (q + nelem) / per) % cores := by
      rw [BlockCyclic.owner, hposition, block_of_units hper' hes]
    have hstart : BlockCyclic.owner 64 cores s = x % cores := by rw [BlockCyclic.owner, hx]
    have hrest : (s + nelem * sizeof) % 64 / sizeof = (q + nelem) % per := by
      rw [hposition, offset_of_units hper' hes]
    have hlinear := @counted_between cores per q nelem x _ hcores hqper hn rfl
    simp only [counted_cores, CountedRight, hblocks, hcore, hstart, hrest, hfirst, hsize, hfit, hleft,
      hn, halign, true_and, false_or]
    rw [hlinear]
    by_cases hq1 : q + 1 < per
    · simp only [hq1, if_true, Nat.mod_eq_of_lt]
    · simp only [hq1, if_false]

/-- **When `cores_with_elements` is right**: for every linear base, every size that divides the
    block and every length. -/
theorem cores_with_elements_iff (m : Machine) (sizeof : ℕ) (hdvd : sizeof ∣ 64)
    (base : GlobalAddress) (hlin : base.is_linear = true) (nelem : ℕ)
    (hbound : base.storage + nelem * sizeof < 2 ^ 63) :
    (∀ uninit, CoresOk m sizeof base nelem (cores_with_elements m sizeof uninit base nelem)) ↔
      CountedRight m.cores sizeof base.storage.toNat nelem := by
  have hpos : 0 < sizeof := Nat.pos_of_dvd_of_pos hdvd (by norm_num)
  have hle : sizeof ≤ 64 := Nat.le_of_dvd (by norm_num) hdvd
  obtain ⟨s, rfl⟩ := exists_nat_of_is_linear hlin
  have hbound : s + nelem * sizeof < 2 ^ 63 := by
    have hcast : ((s : ℕ) : ℤ) + nelem * sizeof < 2 ^ 63 := hbound
    exact_mod_cast hcast
  rw [Int.toNat_natCast]
  by_cases hn : 1 ≤ nelem
  · rw [← counted_cores_iff m.cores_pos hdvd hn hbound, ← coresOk_iff hpos hle hn]
    constructor
    · intro h
      rw [← cores_with_elements_eq hpos hle hn hbound 0]
      exact h 0
    · intro h uninit
      rw [cores_with_elements_eq hpos hle hn hbound uninit]
      exact h
  · -- nothing assigns the count of an empty range
    obtain rfl : nelem = 0 := by omega
    constructor
    · intro h
      have hcount := (h 1).count
      rw [cores_with_elements_empty hle] at hcount
      simp [element_cores] at hcount
    · intro h
      exact absurd h.1 hn

/-- Twenty words from byte 24 on, on three cores. -/
theorem cores_with_elements_words :
    CoresOk ⟨3, by decide, 0⟩ 8 ⟨24⟩ 20 (cores_with_elements ⟨3, by decide, 0⟩ 8 0 ⟨24⟩ (20 : ℕ)) :=
  (cores_with_elements_iff ⟨3, by decide, 0⟩ 8 (by decide) ⟨24⟩ (by decide) 20 (by decide)).mpr
    ⟨by decide, .inr (.inl (by decide))⟩ 0

/-- An empty range on two cores, and fifteen pairs of 4-byte fields from byte 4 on, which start in
    two blocks but are counted for three cores. -/
theorem cores_with_elements_miscounts :
    (¬ ∀ uninit, CoresOk ⟨2, by decide, 0⟩ 8 ⟨0⟩ 0
      (cores_with_elements ⟨2, by decide, 0⟩ 8 uninit ⟨0⟩ (0 : ℕ))) ∧
    ¬ ∀ uninit, CoresOk ⟨3, by decide, 0⟩ 8 ⟨4⟩ 15
      (cores_with_elements ⟨3, by decide, 0⟩ 8 uninit ⟨4⟩ (15 : ℕ)) := by
  constructor
  · intro h
    exact absurd (h 1).count (by decide)
  · intro h
    exact absurd (h 0).count (by decide +kernel)

end Grappa
