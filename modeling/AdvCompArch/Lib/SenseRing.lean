import Mathlib.Algebra.Order.Group.Nat

/-! # Rings with sense reversal

    A writer and a reader share a ring of `cap` places and no index.  Each place has a sense
    bit; the writer goes around the ring and sets the bit of each place to the sense of its
    round, the reader goes around as well and takes a place to be new when its bit has the
    sense of the reader's own round.  The sense of the first round is true, all bits are
    false before it, and the sense changes from round to round.

    * `shows_succ`: what the bits show after one more place was written.
    * `shows_iff`: a reader no more than a round behind finds the sense of its round exactly
      when the place was written in this round. -/

namespace SenseRing

/-- The sense of the round in which the `n`th place, from 0, is. -/
def sense (cap n : ℕ) : Bool := n / cap % 2 = 0

/-- The bit at place `k` after `n` places were written. -/
def shows (cap n k : ℕ) : Bool := if k < n % cap then sense cap n else !sense cap n

variable {cap n k : ℕ}

@[simp] theorem sense_zero : sense cap 0 = true := by simp [sense]

@[simp] theorem shows_zero : shows cap 0 k = false := by simp [shows]

theorem sense_next_round {m : ℕ} (h : m / cap = n / cap + 1) : sense cap m = !sense cap n := by
  unfold sense
  rw [h]
  by_cases he : n / cap % 2 = 0
  · have : (n / cap + 1) % 2 ≠ 0 := by omega
    simp [he, this]
  · have : (n / cap + 1) % 2 = 0 := by omega
    simp [he, this]

/-! ### A cursor goes on by one place -/

theorem mod_succ_of_wrap (hpos : 0 < cap) (h : cap ≤ n % cap + 1) : (n + 1) % cap = 0 := by
  have hlt := Nat.mod_lt n hpos
  have heq : n % cap + 1 = cap := by omega
  rw [← Nat.mod_add_mod, heq, Nat.mod_self]

theorem mod_succ_of_lt (h : n % cap + 1 < cap) : (n + 1) % cap = n % cap + 1 := by
  rw [← Nat.mod_add_mod, Nat.mod_eq_of_lt h]

theorem div_succ_of_wrap (hpos : 0 < cap) (h : cap ≤ n % cap + 1) : (n + 1) / cap = n / cap + 1 := by
  have hlt := Nat.mod_lt n hpos
  have hn := Nat.div_add_mod n cap
  have heq : n + 1 = cap * (n / cap + 1) := by
    rw [Nat.mul_succ]
    omega
  rw [heq, Nat.mul_div_cancel_left _ hpos]

theorem div_succ_of_lt (h : n % cap + 1 < cap) : (n + 1) / cap = n / cap := by
  have hn := Nat.div_add_mod n cap
  apply Nat.div_eq_of_lt_le
  · rw [mul_comm]
    omega
  · rw [Nat.succ_mul, mul_comm]
    omega

theorem sense_succ_of_wrap (hpos : 0 < cap) (h : cap ≤ n % cap + 1) :
    sense cap (n + 1) = !sense cap n :=
  sense_next_round (div_succ_of_wrap hpos h)

theorem sense_succ_of_lt (h : n % cap + 1 < cap) : sense cap (n + 1) = sense cap n := by
  unfold sense
  rw [div_succ_of_lt h]

/-- **A cursor goes on**: where it stood at number `n` it stands at the next, with the sense of its
    round. -/
theorem cursor_succ {c : ℕ} {b : Bool} (hpos : 0 < cap) (hc : c = n % cap) (hb : b = sense cap n) :
    (if c + 1 ≥ cap then 0 else c + 1) = (n + 1) % cap ∧
      (if c + 1 ≥ cap then !b else b) = sense cap (n + 1) := by
  subst hc hb
  by_cases hwrap : n % cap + 1 ≥ cap
  · rw [if_pos hwrap, if_pos hwrap]
    exact ⟨(mod_succ_of_wrap hpos hwrap).symm, (sense_succ_of_wrap hpos hwrap).symm⟩
  · have hlt : n % cap + 1 < cap := by omega
    rw [if_neg hwrap, if_neg hwrap]
    exact ⟨(mod_succ_of_lt hlt).symm, (sense_succ_of_lt hlt).symm⟩

/-! ### The bits -/

theorem shows_succ (hk : k < cap) :
    shows cap (n + 1) k = if k = n % cap then sense cap n else shows cap n k := by
  have hpos : 0 < cap := by omega
  by_cases hwrap : cap ≤ n % cap + 1
  · -- the round is over, and all bits have its sense
    unfold shows
    rw [mod_succ_of_wrap hpos hwrap, sense_succ_of_wrap hpos hwrap]
    have hlt := Nat.mod_lt n hpos
    by_cases hkn : k = n % cap
    · simp [hkn]
    · have : k < n % cap := by omega
      simp [hkn, this]
  · unfold shows
    rw [mod_succ_of_lt (by omega), sense_succ_of_lt (by omega)]
    by_cases hkn : k = n % cap
    · simp [hkn]
    · by_cases hlt : k < n % cap
      · simp [hkn, hlt, Nat.lt_succ_of_lt hlt]
      · have : ¬k < n % cap + 1 := by omega
        simp [hkn, hlt, this]

/-- **The reader's rule**: a reader who has read `r` of the `n` places, and is no more than a round
    behind, finds the sense of its round exactly when a place is left to be read. -/
theorem shows_iff {r : ℕ} (hpos : 0 < cap) (hle : r ≤ n) (hbehind : n ≤ r + cap) :
    shows cap n (r % cap) = sense cap r ↔ r < n := by
  obtain ⟨d, rfl⟩ := Nat.exists_eq_add_of_le hle
  have hr := Nat.mod_lt r hpos
  have hrd := Nat.div_add_mod r cap
  by_cases hsame : r % cap + d < cap
  · -- writer and reader are in the same round
    have hmod : (r + d) % cap = r % cap + d := by
      rw [← Nat.mod_add_mod, Nat.mod_eq_of_lt hsame]
    have hdiv : (r + d) / cap = r / cap := by
      apply Nat.div_eq_of_lt_le
      · rw [mul_comm]
        omega
      · rw [Nat.succ_mul, mul_comm]
        omega
    unfold shows sense
    rw [hmod, hdiv]
    by_cases hd : 0 < d
    · simp [hd]
    · simp [hd]
  · by_cases hnext : r % cap + d < 2 * cap
    · -- the writer is in the next round, not beyond the reader's place
      have hmod : (r + d) % cap = r % cap + d - cap := by
        rw [← Nat.mod_add_mod, Nat.mod_eq_sub_mod (by omega), Nat.mod_eq_of_lt (by omega)]
      have hdiv : (r + d) / cap = r / cap + 1 := by
        apply Nat.div_eq_of_lt_le
        · rw [mul_comm, Nat.mul_succ]
          omega
        · rw [Nat.succ_mul, Nat.succ_mul, mul_comm]
          omega
      have hnot : ¬r % cap < r % cap + d - cap := by omega
      unfold shows
      rw [hmod, sense_next_round hdiv, if_neg hnot]
      simp
      omega
    · omega

end SenseRing
