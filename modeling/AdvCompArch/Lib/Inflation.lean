import AdvCompArch.Lib.ByteMemory
import Mathlib.Tactic.Ring
import Mathlib.Tactic.Linarith

/-! # Spreading packed records in place

    `n` records of `row` values each lie one behind the other from an address on.  They are
    moved apart, from the last to the first, so that record `t` comes to lie `t` slots of
    `size` values behind the address.

    The moves are made by a copy operation that may do anything to a destination that
    overlaps with its source, unless they are the same (`Copies`).  Whether the moves do
    overlap is a matter of the two lengths alone: `copies_exactly`. -/

namespace Inflation

open ByteMemory

variable {β : Type*}

/-- A copy operation: the memory, the destination, the source and the length. -/
abbrev CopyOp (β : Type*) := (ℤ → β) → ℤ → ℤ → ℕ → ℤ → β

/-- Nothing is known of two regions that overlap and are not the same. -/
structure Copies (copy : CopyOp β) : Prop where
  exact_of : ∀ (mem : ℤ → β) (dst src : ℤ) (len : ℕ),
    dst = src ∨ dst + len ≤ src ∨ src + len ≤ dst →
    copy mem dst src len = store mem dst (load mem src len)

/-- The operation that copies whatever the regions are. -/
def move : CopyOp β := fun mem dst src len => store mem dst (load mem src len)

theorem copies_move : Copies (move : CopyOp β) where
  exact_of := fun _ _ _ _ _ => rfl

/-- The operation that fills a destination that overlaps with its source. -/
def clobber (b : β) : CopyOp β := fun mem dst src len =>
  if dst = src ∨ dst + len ≤ src ∨ src + len ≤ dst then move mem dst src len
  else store mem dst (List.replicate len b)

theorem copies_clobber (b : β) : Copies (clobber b) where
  exact_of := fun _ _ _ _ h => if_pos h

/-- The moves of the records below `n`, from the last to the first. -/
def inflate (copy : CopyOp β) (start : ℤ) (row size : ℕ) : ℕ → (ℤ → β) → ℤ → β
  | 0, mem => mem
  | n + 1, mem => inflate copy start row size n
      (copy mem (start + (n * size : ℕ)) (start + (n * row : ℕ)) row)

variable {copy : CopyOp β} {start : ℤ} {row size : ℕ}

/-- The moves of the records below `n` are exact. -/
def Exact (copy : CopyOp β) (start : ℤ) (row size n : ℕ) : Prop :=
  ∀ t < n, ∀ mem, copy mem (start + (t * size : ℕ)) (start + (t * row : ℕ)) row =
    move mem (start + (t * size : ℕ)) (start + (t * row : ℕ)) row

theorem Exact.move (n : ℕ) : Exact (move : CopyOp β) start row size n := fun _ _ _ => rfl

theorem Exact.of_succ {n : ℕ} (h : Exact copy start row size (n + 1)) :
    Exact copy start row size n := fun t ht => h t (by omega)

/-- The first record stays where it is, and the others leave their regions if a slot has room
    for two records. -/
theorem copies_exactly (hcopy : Copies copy) {n : ℕ} (h : 2 * row ≤ size ∨ n ≤ 1) :
    Exact copy start row size n := by
  intro t ht mem
  apply hcopy.exact_of
  rcases Nat.eq_zero_or_pos t with rfl | hpos
  · left
    simp
  · right
    right
    have hroom : t * row + row ≤ t * size := by
      have htwo : t * (2 * row) ≤ t * size := Nat.mul_le_mul_left t (by omega)
      have hone : 1 * row ≤ t * row := Nat.mul_le_mul_right row hpos
      linarith
    omega

theorem inflate_outside {n : ℕ} (h : Exact copy start row size n) {mem : ℤ → β} {q : ℤ}
    (hq : ∀ t < n, q < start + (t * size : ℕ) ∨ start + (t * size + row : ℕ) ≤ q) :
    inflate copy start row size n mem q = mem q := by
  induction n generalizing mem with
  | zero => rfl
  | succ n ih =>
    have hlast := hq n (Nat.lt_succ_self n)
    rw [inflate, ih h.of_succ fun t ht => hq t (by omega), h n (Nat.lt_succ_self n), Inflation.move]
    apply store_outside
    rw [length_load]
    omega

/-- **Every slot gets its record**, as it was before the moves: no move writes on a record
    that is still to be moved. -/
theorem load_inflate {n : ℕ} (hle : row ≤ size) (h : Exact copy start row size n) (mem : ℤ → β)
    {t : ℕ} (ht : t < n) :
    load (inflate copy start row size n mem) (start + (t * size : ℕ)) row =
      load mem (start + (t * row : ℕ)) row := by
  induction n generalizing mem with
  | zero => omega
  | succ n ih =>
    rw [inflate, h n (Nat.lt_succ_self n), Inflation.move]
    rcases Nat.lt_succ_iff_lt_or_eq.mp ht with hlt | rfl
    · rw [ih h.of_succ _ hlt]
      apply load_congr
      intro q _ hq
      -- the record ends where record `n` begins, and its slot is not before it
      have hrows : t * row + row ≤ n * row := by
        have := Nat.mul_le_mul_right row (show t + 1 ≤ n from hlt)
        linarith
      have hslot : n * row ≤ n * size := Nat.mul_le_mul_left n hle
      apply store_outside
      left
      omega
    · have hself := load_store_self mem (start + (t * size : ℕ)) (load mem (start + (t * row : ℕ)) row)
      rw [length_load] at hself
      refine Eq.trans ?_ hself
      apply load_congr
      intro q hq _
      apply inflate_outside h.of_succ
      -- the slots of the records that follow end before this one
      intro s hs
      have hslot : s * size + size ≤ t * size := by
        have := Nat.mul_le_mul_right size (show s + 1 ≤ t from hs)
        linarith
      right
      omega

theorem exists_inflate_two (copy : CopyOp β) (start : ℤ) (row size n : ℕ) (mem : ℤ → β) :
    ∃ mem', inflate copy start row size (n + 2) mem = inflate copy start row size 2 mem' := by
  induction n generalizing mem with
  | zero => exact ⟨mem, rfl⟩
  | succ n ih => exact ih (copy mem (start + ((n + 2) * size : ℕ)) (start + ((n + 2) * row : ℕ)) row)

theorem load_inflate_clobber {b : β} (hlt : row < size) (hroom : size < 2 * row) {n : ℕ}
    (hn : 2 ≤ n) (mem : ℤ → β) :
    load (inflate (clobber b) start row size n mem) (start + size) row = List.replicate row b := by
  obtain ⟨n, rfl⟩ := Nat.exists_eq_add_of_le' hn
  obtain ⟨mem, hmem⟩ := exists_inflate_two (clobber b) start row size n mem
  rw [hmem]
  have hfirst : Exact (clobber b) start row size 1 := copies_exactly (copies_clobber b) (.inr le_rfl)
  have hsecond : clobber b mem (start + (1 * size : ℕ)) (start + (1 * row : ℕ)) row =
      store mem (start + size) (List.replicate row b) := by
    rw [clobber, if_neg (by omega), one_mul]
  have hself := load_store_self mem (start + size) (List.replicate row b)
  rw [List.length_replicate] at hself
  rw [inflate, hsecond]
  refine Eq.trans ?_ hself
  apply load_congr
  intro q hq _
  apply inflate_outside hfirst
  intro t ht
  obtain rfl : t = 0 := by omega
  right
  omega

end Inflation
