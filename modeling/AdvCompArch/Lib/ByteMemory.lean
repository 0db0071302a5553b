import Mathlib.Data.List.Range
import Mathlib.Algebra.Order.Ring.Int

/-! # Loads and stores of byte strings

    A memory gives a value to every integer address.  `load` reads a string of values at
    consecutive addresses and `store` writes one (a copy of a buffer). -/

namespace ByteMemory

open List

variable {β : Type*} {mem : ℤ → β} {p q : ℤ} {l : List β}

/-- The `n` values from address `p` on. -/
def load (mem : ℤ → β) (p : ℤ) (n : ℕ) : List β := (List.range n).map fun i : ℕ => mem (p + i)

/-- The memory after writing `l` from address `p` on. -/
def store (mem : ℤ → β) (p : ℤ) (l : List β) : ℤ → β :=
  fun q => if p ≤ q then (l[(q - p).toNat]?).getD (mem q) else mem q

@[simp] theorem length_load (n : ℕ) : (load mem p n).length = n := by
  simp [load]

theorem getElem_load {n i : ℕ} (hi : i < (load mem p n).length) : (load mem p n)[i] = mem (p + i) := by
  simp [load]

theorem load_add (mem : ℤ → β) (p : ℤ) (n k : ℕ) :
    load mem p (n + k) = load mem p n ++ load mem (p + n) k := by
  simp only [load, range_add, map_append, map_map]
  congr 1
  apply map_congr_left
  intro i _
  simp only [Function.comp_apply]
  push_cast
  rw [add_assoc]

theorem take_drop_load (mem : ℤ → β) (p : ℤ) {n d k : ℕ} (h : d + k ≤ n) :
    ((load mem p n).drop d).take k = load mem (p + d) k := by
  obtain ⟨r, rfl⟩ := Nat.exists_eq_add_of_le h
  rw [add_assoc, load_add, load_add, drop_left' (length_load d), take_left' (length_load k)]

theorem flatMap_load (mem : ℤ → β) (size a n : ℕ) :
    (List.range' a n).flatMap (fun j : ℕ => load mem ((j * size : ℕ) : ℤ) size) =
      load mem ((a * size : ℕ) : ℤ) (n * size) := by
  induction n generalizing a with
  | zero => simp [load]
  | succ n ih =>
    rw [range'_succ, flatMap_cons, ih, add_mul n, one_mul, add_comm (n * size),
      load_add, add_mul a, one_mul]
    push_cast
    rfl

theorem store_inside {i : ℕ} (hi : i < l.length) : store mem p l (p + i) = l[i] := by
  unfold store
  rw [if_pos (by omega), add_sub_cancel_left, Int.toNat_natCast, getElem?_eq_getElem hi]
  rfl

theorem store_outside (hq : q < p ∨ p + l.length ≤ q) : store mem p l q = mem q := by
  unfold store
  by_cases hpq : p ≤ q
  · have hlen : l.length ≤ (q - p).toNat := by omega
    rw [if_pos hpq, getElem?_eq_none hlen]
    rfl
  · rw [if_neg hpq]

theorem store_cases (mem : ℤ → β) (p : ℤ) (l : List β) (q : ℤ) :
    (∃ (i : ℕ) (hi : i < l.length), q = p + i ∧ store mem p l q = l[i]) ∨
      ((q < p ∨ p + l.length ≤ q) ∧ store mem p l q = mem q) := by
  by_cases hq : q < p ∨ p + l.length ≤ q
  · exact .inr ⟨hq, store_outside hq⟩
  · have hi : (q - p).toNat < l.length := by omega
    obtain ⟨i, hqi⟩ : ∃ i : ℕ, q = p + i := ⟨(q - p).toNat, by omega⟩
    subst hqi
    rw [add_sub_cancel_left, Int.toNat_natCast] at hi
    exact .inl ⟨i, hi, rfl, store_inside hi⟩

theorem load_congr {mem' : ℤ → β} {n : ℕ} (h : ∀ q, p ≤ q → q < p + n → mem' q = mem q) :
    load mem' p n = load mem p n := by
  apply map_congr_left
  intro i hi
  have := mem_range.mp hi
  exact h _ (by omega) (by omega)

theorem eq_of_load_eq {mem' : ℤ → β} {n : ℕ} (h : load mem' p n = load mem p n) (hp : p ≤ q)
    (hq : q < p + n) : mem' q = mem q := by
  obtain ⟨i, rfl⟩ : ∃ i : ℕ, q = p + i := ⟨(q - p).toNat, by omega⟩
  have hi : i < n := by omega
  have hmap := map_inj_left.mp h i (mem_range.mpr hi)
  exact hmap

theorem load_store_self (mem : ℤ → β) (p : ℤ) (l : List β) :
    load (store mem p l) p l.length = l := by
  apply ext_getElem (length_load _)
  intro i hi hi'
  rw [getElem_load, store_inside hi']

end ByteMemory
