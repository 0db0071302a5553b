import Mathlib.Tactic.Ring
import Mathlib.Tactic.Linarith

/-! # Block-cyclic distributions

    A linear sequence of positions is dealt out to `N` owners in blocks of `B`
    consecutive positions, round robin.  Each owner stores its positions densely
    in its own local sequence.

    * `owner`, `offset`: which owner has a position, and where in its local sequence.
    * `position`: the inverse, from an owner and a local offset to the position.
    * `lower s c`: the local offset of the first position `≥ s` of owner `c`.  It
      advances by exactly one when `s` passes a position of `c` and is unchanged
      otherwise (`lower_succ`), which is what makes half-open local ranges
      `[lower s c, lower t c)` enumerate the positions of `c` in `[s, t)`. -/

namespace BlockCyclic

variable {B N : ℕ}

/-- The owner of position `s`. -/
def owner (B N s : ℕ) : ℕ := s / B % N

/-- The offset of position `s` in its owner's local sequence. -/
def offset (B N s : ℕ) : ℕ := s / B / N * B + s % B

/-- The position that owner `c` stores at local offset `o`. -/
def position (B N c o : ℕ) : ℕ := (o / B * N + c) * B + o % B

/-- The local offset, in owner `c`, of the first position `≥ s` that `c` owns. -/
def lower (B N s c : ℕ) : ℕ :=
  if c < owner B N s then s / B / N * B + B
  else if owner B N s < c then s / B / N * B
  else offset B N s

theorem owner_lt (hN : 0 < N) (s : ℕ) : owner B N s < N := Nat.mod_lt _ hN

theorem lower_owner (s : ℕ) : lower B N s (owner B N s) = offset B N s := by
  simp [lower]

theorem block_eq (s : ℕ) : s / B = s / B / N * N + owner B N s := by
  have h := Nat.div_add_mod (s / B) N
  rw [owner, mul_comm]
  exact h.symm

theorem position_owner_offset (hB : 0 < B) (s : ℕ) :
    position B N (owner B N s) (offset B N s) = s := by
  have hmod : s % B < B := Nat.mod_lt _ hB
  have hdiv : offset B N s / B = s / B / N := by
    rw [offset, mul_comm, Nat.mul_add_div hB, Nat.div_eq_of_lt hmod, add_zero]
  have hrem : offset B N s % B = s % B := by
    rw [offset, mul_comm, Nat.mul_add_mod, Nat.mod_mod]
  rw [position, hdiv, hrem, ← block_eq s, mul_comm]
  exact Nat.div_add_mod s B

theorem position_mod (c o : ℕ) : position B N c o % B = o % B := by
  rw [position, mul_comm, Nat.mul_add_mod, Nat.mod_mod]

/-- A position is determined by its owner and its local offset. -/
theorem owner_offset_injective (hB : 0 < B) {s t : ℕ} (ho : owner B N s = owner B N t)
    (hf : offset B N s = offset B N t) : s = t := by
  rw [← position_owner_offset (N := N) hB s, ← position_owner_offset (N := N) hB t, ho, hf]

theorem succ_div_mod (hB : 0 < B) (s : ℕ) :
    (s % B + 1 < B ∧ (s + 1) / B = s / B ∧ (s + 1) % B = s % B + 1) ∨
    (s % B + 1 = B ∧ (s + 1) / B = s / B + 1 ∧ (s + 1) % B = 0) := by
  have hmod : s % B < B := Nat.mod_lt _ hB
  have hs : s + 1 = B * (s / B) + (s % B + 1) := by
    have := Nat.div_add_mod s B
    omega
  by_cases hlt : s % B + 1 < B
  · refine Or.inl ⟨hlt, ?_, ?_⟩
    · conv_lhs => rw [hs]
      rw [Nat.mul_add_div hB, Nat.div_eq_of_lt hlt, add_zero]
    · conv_lhs => rw [hs]
      rw [Nat.mul_add_mod, Nat.mod_eq_of_lt hlt]
  · have heq : s % B + 1 = B := by omega
    refine Or.inr ⟨heq, ?_, ?_⟩
    · conv_lhs => rw [hs, heq]
      rw [Nat.mul_add_div hB, Nat.div_self hB]
    · conv_lhs => rw [hs, heq]
      rw [Nat.mul_add_mod, Nat.mod_self]

theorem lower_succ (hB : 0 < B) {c : ℕ} (hc : c < N) (s : ℕ) :
    lower B N (s + 1) c = lower B N s c + if owner B N s = c then 1 else 0 := by
  have hN : 0 < N := by omega
  rcases succ_div_mod hB s with ⟨-, hd, hm⟩ | ⟨hB', hd, hm⟩
  · -- within a block: owner and round are unchanged
    have ho : owner B N (s + 1) = owner B N s := by simp [owner, hd]
    simp only [lower, offset, ho, hd, hm]
    split_ifs <;> omega
  · rcases succ_div_mod hN (s / B) with ⟨hlt, hd', hm'⟩ | ⟨heq, hd', hm'⟩
    · -- next block, next owner, same round
      have ho : owner B N (s + 1) = owner B N s + 1 := by simp [owner, hd, hm']
      simp only [lower, offset, ho, hd, hd', hm]
      split_ifs <;> omega
    · -- next block, first owner, next round
      have ho : owner B N (s + 1) = 0 := by simp [owner, hd, hm']
      have hlast : owner B N s + 1 = N := heq
      simp only [lower, offset, ho, hd, hd', hm, add_mul, one_mul]
      split_ifs <;> omega

theorem owner_add_of_lt (hB : 0 < B) {s d : ℕ} (hd : s % B + d < B) :
    owner B N (s + d) = owner B N s := by
  have hs : s + d = B * (s / B) + (s % B + d) := by
    have := Nat.div_add_mod s B
    omega
  rw [owner, owner]
  conv_lhs => rw [hs]
  rw [Nat.mul_add_div hB, Nat.div_eq_of_lt hd, add_zero]

theorem offset_add_of_lt (hB : 0 < B) {s d : ℕ} (hd : s % B + d < B) :
    offset B N (s + d) = offset B N s + d := by
  have hs : s + d = B * (s / B) + (s % B + d) := by
    have := Nat.div_add_mod s B
    omega
  have hdiv : (s + d) / B = s / B := by
    conv_lhs => rw [hs]
    rw [Nat.mul_add_div hB, Nat.div_eq_of_lt hd, add_zero]
  have hmod : (s + d) % B = s % B + d := by
    conv_lhs => rw [hs]
    rw [Nat.mul_add_mod, Nat.mod_eq_of_lt hd]
  rw [offset, offset, hdiv, hmod]
  omega

/-- Passing `d` positions that stay inside one block advances the lower bound of
    their owner by `d`, and no other. -/
theorem lower_add (hB : 0 < B) {c : ℕ} (hc : c < N) {s d : ℕ} (hd : s % B + d ≤ B) :
    lower B N (s + d) c = lower B N s c + if owner B N s = c then d else 0 := by
  induction d with
  | zero => simp
  | succ d ih =>
    have hprev := ih (by omega)
    have ho : owner B N (s + d) = owner B N s := owner_add_of_lt hB (by omega)
    rw [← add_assoc, lower_succ hB hc, hprev, ho]
    split_ifs <;> omega

/-- Passing `d` positions advances the lower bounds by `d` at most. -/
theorem lower_le_add (hB : 0 < B) {c : ℕ} (hc : c < N) (s d : ℕ) :
    lower B N s c ≤ lower B N (s + d) c ∧ lower B N (s + d) c ≤ lower B N s c + d := by
  induction d with
  | zero => simp
  | succ d ih =>
    rw [← add_assoc, lower_succ hB hc]
    split_ifs <;> omega

end BlockCyclic
