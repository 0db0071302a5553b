import Mathlib.Tactic.NormNum
import Mathlib.Tactic.Ring

/-! # Integers in a fixed number of bytes

    What a store of an integer to a field of `w` bytes leaves in memory, least
    significant byte first, and what a load of such a field reads back: the stored
    value modulo `256 ^ w` (`load_store`), and, for a signed field, its balanced
    residue (`loadInt_storeInt`).  Network order has the most significant byte first. -/

namespace FixedWidth

/-- The signed 64-bit number that `x` wraps around to. -/
def int64 (x : ℤ) : ℤ := Int.bmod x (2 ^ 64)

theorem int64_eq {x : ℤ} (hlo : -2 ^ 63 ≤ x) (hhi : x < 2 ^ 63) : int64 x = x :=
  Int.bmod_eq_of_le (by omega) (by omega)

theorem int64_natCast {x : ℕ} (h : x < 2 ^ 63) : int64 x = x :=
  int64_eq (by omega) (by omega)

/-- The bytes of a store of `n` to a field of `w` bytes. -/
def store : (w : ℕ) → (n : ℕ) → List UInt8
  | 0, _ => []
  | w + 1, n => UInt8.ofNat n :: store w (n / 256)

/-- The value of an unsigned load of these bytes. -/
def load : List UInt8 → ℕ
  | [] => 0
  | b :: bs => b.toNat + 256 * load bs

/-- A store of a signed value: two's complement. -/
def storeInt (w : ℕ) (z : ℤ) : List UInt8 := store w (z % (256 ^ w : ℕ)).toNat

/-- A signed load of a field of `w` bytes. -/
def loadInt (w : ℕ) (bs : List UInt8) : ℤ := Int.bmod (load bs) (256 ^ w)

@[simp] theorem length_store (w n : ℕ) : (store w n).length = w := by
  induction w generalizing n with
  | zero => rfl
  | succ w ih => rw [store, List.length_cons, ih]

@[simp] theorem length_storeInt (w : ℕ) (z : ℤ) : (storeInt w z).length = w := length_store _ _

theorem load_store (w n : ℕ) : load (store w n) = n % 256 ^ w := by
  induction w generalizing n with
  | zero => rw [store, load, pow_zero, Nat.mod_one]
  | succ w ih =>
    have hbyte : (UInt8.ofNat n).toNat = n % 256 := by simp
    rw [store, load, ih, hbyte, pow_succ', Nat.mod_mul]

theorem load_store_of_lt {w n : ℕ} (h : n < 256 ^ w) : load (store w n) = n := by
  rw [load_store, Nat.mod_eq_of_lt h]

/-- A signed field reads back the balanced residue of what was stored. -/
theorem loadInt_storeInt (w : ℕ) (z : ℤ) :
    loadInt w (storeInt w z) = Int.bmod z (256 ^ w) := by
  have hpos : (0 : ℤ) < (256 ^ w : ℕ) := by positivity
  have hnn : 0 ≤ z % (256 ^ w : ℕ) := Int.emod_nonneg _ hpos.ne'
  have hlt : (z % (256 ^ w : ℕ)).toNat < 256 ^ w := by
    have := Int.emod_lt_of_pos z hpos
    omega
  unfold loadInt storeInt
  rw [load_store_of_lt hlt, Int.toNat_of_nonneg hnn, Int.emod_bmod]

theorem loadInt_storeInt_of_range {w : ℕ} {z : ℤ} (hlo : -(256 ^ w : ℕ) ≤ 2 * z)
    (hhi : 2 * z < (256 ^ w : ℕ)) : loadInt w (storeInt w z) = z := by
  rw [loadInt_storeInt]
  exact Int.bmod_eq_of_le_mul_two (by omega) (by omega)

/-- The bytes of a store in network order. -/
def storeNet (w n : ℕ) : List UInt8 := (store w n).reverse

/-- The value of a load in network order. -/
def loadNet (bs : List UInt8) : ℕ := load bs.reverse

@[simp] theorem length_storeNet (w n : ℕ) : (storeNet w n).length = w := by
  simp [storeNet]

theorem loadNet_storeNet {w n : ℕ} (h : n < 256 ^ w) : loadNet (storeNet w n) = n := by
  rw [loadNet, storeNet, List.reverse_reverse, load_store_of_lt h]

theorem loadInt_lt (w : ℕ) (bs : List UInt8) : loadInt w bs < (256 ^ w + 1) / 2 := by
  have hpos : 0 < 256 ^ w := by positivity
  have := Int.bmod_lt (x := (load bs : ℤ)) hpos
  unfold loadInt
  push_cast at this
  exact this

theorem le_loadInt (w : ℕ) (bs : List UInt8) : -((256 ^ w : ℕ) : ℤ) ≤ 2 * loadInt w bs := by
  have hpos : 0 < 256 ^ w := by positivity
  have := Int.le_bmod (x := (load bs : ℤ)) hpos
  unfold loadInt
  omega

theorem load_lt (bs : List UInt8) : load bs < 256 ^ bs.length := by
  induction bs with
  | nil => exact Nat.one_pos
  | cons b bs ih =>
    have hb : b.toNat < 256 := b.toNat_lt
    rw [load, List.length_cons, pow_succ]
    omega

theorem store_load (bs : List UInt8) : store bs.length (load bs) = bs := by
  induction bs with
  | nil => rfl
  | cons b bs ih =>
    have hb : b.toNat < 256 := b.toNat_lt
    have hlow : UInt8.ofNat (load (b :: bs)) = b := by
      apply UInt8.toNat_inj.mp
      rw [load, UInt8.toNat_ofNat', show (2 : ℕ) ^ 8 = 256 from rfl]
      omega
    have hrest : load (b :: bs) / 256 = load bs := by
      rw [load]
      omega
    rw [List.length_cons, store, hlow, hrest, ih]

theorem storeInt_loadInt (bs : List UInt8) : storeInt bs.length (loadInt bs.length bs) = bs := by
  have hlt := load_lt bs
  have hmod : (loadInt bs.length bs % (256 ^ bs.length : ℕ)).toNat = load bs := by
    rw [loadInt, Int.bmod_emod, Int.emod_eq_of_lt (by omega) (by exact_mod_cast hlt)]
    rfl
  rw [storeInt, hmod, store_load]

theorem loadInt_injective {w : ℕ} {bs bs' : List UInt8} (h : bs.length = w) (h' : bs'.length = w)
    (heq : loadInt w bs = loadInt w bs') : bs = bs' := by
  have hbs := storeInt_loadInt bs
  have hbs' := storeInt_loadInt bs'
  rw [h] at hbs
  rw [h'] at hbs'
  rw [← hbs, ← hbs', heq]

end FixedWidth
