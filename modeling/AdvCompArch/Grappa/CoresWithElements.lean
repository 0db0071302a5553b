import AdvCompArch.Grappa.Addressing
import Mathlib.Data.Int.ModEq

/-! # Which cores own elements of a linear range

    `cores_with_elements` returns the owner of the first element and how many cores,
    counted from it, own elements.  Its three-way computation agrees with the number
    of blocks the range touches, cut off at the number of cores. -/

namespace Grappa

/-- Return range of cores that have elements for the given linear address range.
    `uninit` is what `fc` holds when no branch assigns it. -/
def cores_with_elements (m : Machine) (sizeof : ℕ) (uninit : Core) (base : GlobalAddress)
    (nelem : ℤ) : Core × Core :=
  let start_core := base.core m
  let nc : ℤ := m.cores
  let endAddr := base.add sizeof nelem
  let fc : Core := if nelem > 0 then 1 else uninit
  let block_elems := max 1 (block_size / sizeof)
  let nfirstcore := (base.block_max m sizeof).sub sizeof base
  let n := Int.bmod (nelem - nfirstcore) (2 ^ 64)
  let fc :=
    if n > 0 then
      let nrest := n / block_elems
      if nrest ≥ nc - 1 then nc
      else
        let fc := fc + nrest
        if endAddr.sub sizeof (endAddr.block_min m) ≠ 0 ∧ endAddr.core m ≠ base.core m then fc + 1
        else fc
    else fc
  (start_core, fc)

namespace GlobalAddress

variable {m : Machine} {sizeof : ℕ}

theorem sub_natCast {t u : ℕ} (hut : u ≤ t) (ht : t - u < 2 ^ 63) :
    (⟨(t : ℤ)⟩ : GlobalAddress).sub sizeof ⟨(u : ℤ)⟩ = ((t - u) / sizeof : ℕ) := by
  have hle : (t - u) / sizeof ≤ t - u := Nat.div_le_self _ _
  have hmod : ((t : ℤ) - u) % 2 ^ 64 = ((t - u : ℕ) : ℤ) := by
    rw [Int.emod_eq_of_lt (by omega) (by norm_num at ht ⊢; omega)]
    omega
  unfold sub raw_bits
  rw [hmod, ← Int.natCast_ediv]
  generalize (t - u) / sizeof = d at hle ⊢
  exact Int.bmod_eq_of_le (by omega) (by omega)

theorem block_max_natCast (hdvd : sizeof ∣ 64) {s : ℕ} (halign : sizeof ∣ s) :
    (⟨(s : ℤ)⟩ : GlobalAddress).block_max m sizeof = ⟨((s + (64 - s % 64) : ℕ) : ℤ)⟩ := by
  have hpos : 0 < sizeof := Nat.pos_of_dvd_of_pos hdvd (by norm_num)
  have hfit : s % 64 + sizeof ≤ 64 := aligned_fits hdvd halign
  simp only [block_max, is_2D_natCast, Bool.false_eq_true, if_false, Raw, raw_bits, block_size]
  congr 1
  omega

end GlobalAddress

/-! ### The count of cores -/

section count

open GlobalAddress

variable {m : Machine} {sizeof : ℕ}

/-- Object counts and byte counts up to a block boundary. -/
theorem div_mul_to_boundary (hdvd : sizeof ∣ 64) {s : ℕ} (halign : sizeof ∣ s) :
    (64 - s % 64) / sizeof * sizeof = 64 - s % 64 :=
  Nat.div_mul_cancel (Nat.dvd_sub hdvd ((Nat.dvd_mod_iff hdvd).mpr halign))

theorem owner_ne_of_blocks {N s t : ℕ} (hlt : s / 64 < t / 64) (hround : t / 64 < s / 64 + N) :
    BlockCyclic.owner 64 N t ≠ BlockCyclic.owner 64 N s := by
  intro h
  have hdvd : N ∣ t / 64 - s / 64 := (Nat.modEq_iff_dvd' hlt.le).mp h.symm
  have := Nat.le_of_dvd (by omega) hdvd
  omega

theorem blocks_touched {s L d : ℕ} (hd : L / 64 = s / 64 + 1 + d) :
    (L - 1) / 64 - s / 64 + 1 = if L % 64 = 0 then d + 1 else d + 2 := by
  split <;> omega

theorem counted_eq_min {cores d : ℕ} {part full : Prop} [Decidable part] [Decidable full]
    (h : ¬ cores ≤ d + 1 → (part ↔ ¬ full)) :
    (if (cores : ℤ) - 1 ≤ (d : ℤ) then (cores : ℤ) else if part then 1 + (d : ℤ) + 1 else 1 + d) =
      ((min cores (if full then d + 1 else d + 2) : ℕ) : ℤ) := by
  by_cases hall : cores ≤ d + 1
  · rw [if_pos (by omega)]
    split <;> omega
  · rw [if_neg (by omega)]
    by_cases hfull : full
    · rw [if_pos hfull, if_neg fun hp => (h hall).mp hp hfull]
      omega
    · rw [if_neg hfull, if_pos ((h hall).mpr hfull)]
      omega

theorem cores_with_elements_natCast (hdvd : sizeof ∣ 64) {s : ℕ} (halign : sizeof ∣ s)
    {nelem : ℕ} (hn : 1 ≤ nelem) (hbound : s + nelem * sizeof < 2 ^ 63) (uninit : Core) :
    cores_with_elements m sizeof uninit ⟨(s : ℤ)⟩ nelem =
      (((BlockCyclic.owner 64 m.cores s : ℕ) : ℤ),
        ((min m.cores ((s + nelem * sizeof - 1) / 64 - s / 64 + 1) : ℕ) : ℤ)) := by
  have hpos : 0 < sizeof := Nat.pos_of_dvd_of_pos hdvd (by norm_num)
  have hbytes : 1 * sizeof ≤ nelem * sizeof := Nat.mul_le_mul_right _ hn
  have hcount : nelem * 1 ≤ nelem * sizeof := Nat.mul_le_mul_left _ hpos
  have hcores := m.cores_pos
  -- the end address, and what is left after the first block
  obtain ⟨L, hL⟩ : ∃ L, L = s + nelem * sizeof := ⟨_, rfl⟩
  have hLalign : sizeof ∣ L := hL ▸ (Nat.dvd_add_right halign).mpr (dvd_mul_left _ _)
  have hfirst := div_mul_to_boundary hdvd halign
  obtain ⟨k, hk⟩ : ∃ k, k = (64 - s % 64) / sizeof := ⟨_, rfl⟩
  rw [← hk] at hfirst
  have hk64 : k * 1 ≤ k * sizeof := Nat.mul_le_mul_left _ hpos
  have hrest : ((nelem : ℤ) - k) * sizeof = L - (s / 64 + 1 : ℕ) * 64 := by
    rw [sub_mul, hL]
    have := congrArg (Nat.cast : ℕ → ℤ) hfirst
    push_cast at this ⊢
    omega
  have helems : (64 : ℤ) / sizeof * sizeof = 64 := block_elems_mul hdvd
  have hE : (1 : ℤ) ≤ 64 / sizeof := by
    have h1 : 1 ≤ 64 / sizeof := Nat.div_pos (Nat.le_of_dvd (by norm_num) hdvd) hpos
    exact_mod_cast h1
  have hbmod : Int.bmod ((nelem : ℤ) - k) (2 ^ 64) = nelem - k :=
    Int.bmod_eq_of_le (by omega) (by omega)
  have hnpos : (0 : ℤ) < (nelem : ℤ) := by omega
  have hblocks : (⟨((s + (64 - s % 64) : ℕ) : ℤ)⟩ : GlobalAddress).sub sizeof ⟨(s : ℤ)⟩ = k := by
    rw [sub_natCast (by omega) (by omega), Nat.add_sub_cancel_left, hk]
  have hmin : (⟨(L : ℤ)⟩ : GlobalAddress).sub sizeof ((⟨(L : ℤ)⟩ : GlobalAddress).block_min m) =
      (L % 64 / sizeof : ℕ) := by
    rw [block_min_natCast, sub_natCast (by omega) (by omega)]
    congr 2
    omega
  unfold cores_with_elements
  simp only [core_natCast, block_max_natCast hdvd halign, hblocks, hbmod, add_natCast hbound, ← hL, hmin,
    gt_iff_lt, hnpos, if_true, block_size, max_eq_right hE, Prod.mk.injEq, true_and, ge_iff_le]
  by_cases hn0 : (0 : ℤ) < nelem - k
  · -- the range leaves the first block; `nrest` counts the full blocks after it
    have hrest0 : (0 : ℤ) < (nelem - k) * sizeof := Int.mul_pos hn0 (by exact_mod_cast hpos)
    rw [hrest] at hrest0
    obtain ⟨d, hd⟩ : ∃ d, L / 64 = s / 64 + 1 + d := ⟨L / 64 - (s / 64 + 1), by omega⟩
    have hquot : ((nelem : ℤ) - k) / (64 / sizeof) = d := by
      rw [← Int.mul_ediv_mul_of_pos_left _ _ (by exact_mod_cast hpos : (0 : ℤ) < sizeof), hrest,
        helems]
      omega
    rw [if_pos hn0, hquot, blocks_touched hd]
    refine counted_eq_min fun hall => ⟨fun hp h0 => hp.1 (by rw [h0, Nat.zero_div]; rfl), ?_⟩
    intro hpart
    constructor
    · have hle := Nat.le_of_dvd (Nat.pos_of_ne_zero hpart) ((Nat.dvd_mod_iff hdvd).mpr hLalign)
      exact_mod_cast (Nat.div_pos hle hpos).ne'
    · have := owner_ne_of_blocks (N := m.cores) (s := s) (t := L) (by omega) (by omega)
      exact_mod_cast this
  · -- everything is in the first block
    have hrest0 : ((nelem : ℤ) - k) * sizeof ≤ 0 :=
      mul_nonpos_of_nonpos_of_nonneg (by omega) (by exact_mod_cast hpos.le)
    rw [hrest] at hrest0
    have hone : (L - 1) / 64 - s / 64 + 1 = 1 := by omega
    rw [if_neg hn0, hone, min_eq_right hcores]
    rfl

end count

end Grappa
