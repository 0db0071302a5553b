import AdvCompArch.Lib.SortedMap
import AdvCompArch.Lib.Dyadic
import AdvCompArch.Lib.Transition
import Mathlib.Data.Nat.Size

/-! # The buddy allocator of the global heap

    Every chunk of the heap is in `chunks_`, ordered by address; the chunks that are
    not in use are in `free_lists_` as well, by size.  `malloc` cuts the smallest
    large enough chunk in halves, `free` merges a chunk with its buddy as long as that
    is free too.

    Iterators of `chunks_` are modelled by the address they point to, so a
    `free_list_slot` is the entry of the chunk's address in the free list. -/

namespace Grappa

/-- A chunk; its `address` is its key in `chunks_`. -/
structure AllocatorChunk where
  in_use : Bool
  size : ℕ
  deriving DecidableEq

@[ext] structure Allocator where
  base_ : ℤ
  chunks_ : SortedMap ℕ AllocatorChunk
  free_lists_ : SortedMap ℕ (List ℕ)

/-- `v |= v >> n` on `int64_t`. -/
def smear (v : BitVec 64) (n : ℕ) : BitVec 64 := v ||| v.sshiftRight n

def next_largest_power_of_2 (v : BitVec 64) : BitVec 64 :=
  smear (smear (smear (smear (smear (smear (v - 1) 1) 2) 4) 8) 16) 32 + 1

namespace Allocator

/-- `free_lists_[size]`. -/
def freeList (a : Allocator) (size : ℕ) : List ℕ := (a.free_lists_.get? size).getD []

def remove_from_free_list (a : Allocator) (it : ℕ) : Allocator :=
  match a.chunks_.get? it with
  | none => a
  | some c =>
    let l := (a.freeList c.size).erase it
    { a with
      chunks_ := a.chunks_.modify it fun c => { c with in_use := true }
      free_lists_ := if l = [] then a.free_lists_.erase c.size else a.free_lists_.insert c.size l }

def add_to_free_list (a : Allocator) (it : ℕ) : Allocator :=
  match a.chunks_.get? it with
  | none => a
  | some c =>
    { a with
      chunks_ := a.chunks_.modify it fun c => { c with in_use := false }
      free_lists_ := a.free_lists_.insert c.size (it :: a.freeList c.size) }

/-- `insert` leaves an entry that is there as it is; the build defines `NDEBUG`. -/
def add_to_chunk_map (a : Allocator) (address : ℕ) (c : AllocatorChunk) : Allocator :=
  { a with
    chunks_ := if (a.chunks_.get? address).isSome then a.chunks_ else a.chunks_.insert address c }

/-- `it->second.size = size`. -/
def set_size (a : Allocator) (it size : ℕ) : Allocator :=
  { a with chunks_ := a.chunks_.modify it fun c => { c with size := size } }

/-- What merging with a free buddy does to the map and the free lists. -/
def merge_buddy (a : Allocator) (lower higher size : ℕ) : Allocator :=
  let a := a.remove_from_free_list higher
  let a := { a with chunks_ := a.chunks_.erase higher }
  let a := a.remove_from_free_list lower
  (a.set_size lower (size * 2)).add_to_free_list lower

@[simp] theorem length_remove_from_free_list (a : Allocator) (it : ℕ) :
    (a.remove_from_free_list it).chunks_.entries.length = a.chunks_.entries.length := by
  unfold remove_from_free_list
  split <;> simp

@[simp] theorem length_add_to_free_list (a : Allocator) (it : ℕ) :
    (a.add_to_free_list it).chunks_.entries.length = a.chunks_.entries.length := by
  unfold add_to_free_list
  split <;> simp

theorem chunks_remove_from_free_list (a : Allocator) (it : ℕ) :
    (a.remove_from_free_list it).chunks_ =
      a.chunks_.modify it fun c => { c with in_use := true } := by
  unfold remove_from_free_list
  cases h : a.chunks_.get? it with
  | none => simp [SortedMap.modify, h]
  | some c => rfl

theorem chunks_add_to_free_list (a : Allocator) (it : ℕ) :
    (a.add_to_free_list it).chunks_ =
      a.chunks_.modify it fun c => { c with in_use := false } := by
  unfold add_to_free_list
  cases h : a.chunks_.get? it with
  | none => simp [SortedMap.modify, h]
  | some c => rfl

theorem length_merge_buddy_lt {a : Allocator} {lower higher size : ℕ} {c : AllocatorChunk}
    (h : a.chunks_.get? higher = some c) :
    (a.merge_buddy lower higher size).chunks_.entries.length < a.chunks_.entries.length := by
  have hsome : (a.remove_from_free_list higher).chunks_.get? higher =
      some { c with in_use := true } := by
    rw [chunks_remove_from_free_list, SortedMap.get?_modify, if_pos rfl, h]
    rfl
  calc _ = ((a.remove_from_free_list higher).chunks_.erase higher).entries.length := by
        simp [merge_buddy, set_size]
    _ < (a.remove_from_free_list higher).chunks_.entries.length :=
        SortedMap.length_erase_lt hsome
    _ = _ := length_remove_from_free_list a higher

def try_merge_buddy_recursive (a : Allocator) (cmit : ℕ) : Allocator :=
  match _hc : a.chunks_.get? cmit with
  | none => a
  | some c =>
    let buddy_address := cmit ^^^ c.size
    match _hb : a.chunks_.get? buddy_address with
    | none => a
    | some b =>
      if b.size = c.size ∧ b.in_use = false then
        if cmit < buddy_address then
          (a.merge_buddy cmit buddy_address c.size).try_merge_buddy_recursive cmit
        else
          (a.merge_buddy buddy_address cmit c.size).try_merge_buddy_recursive buddy_address
      else a
termination_by a.chunks_.entries.length
decreasing_by
  · exact length_merge_buddy_lt _hb
  · exact length_merge_buddy_lt _hc

/-- The size of the next chunk of the constructor. -/
def this_chunk_size (size : ℕ) : ℕ :=
  if size &&& (size - 1) ≠ 0 then (next_largest_power_of_2 (BitVec.ofNat 64 (size / 2))).toNat
  else size

/-- The loop of the constructor, in at most `fuel` rounds. -/
def add_chunks : (fuel size offset : ℕ) → Allocator → Allocator
  | 0, _, _, a => a
  | fuel + 1, size, offset, a =>
    if size > 0 then
      let n := this_chunk_size size
      add_chunks fuel (size - n) (offset + n)
        ((a.add_to_chunk_map offset ⟨false, n⟩).add_to_free_list offset)
    else a

/-- `Allocator(base, size)`, for a size that is not 0.  A negative size gives no chunks. -/
def new (base size : ℤ) : Allocator :=
  add_chunks size.toNat size.toNat 0 ⟨base, .empty, .empty⟩

/-- `free(void_address)`, where there is a chunk in use at the address. -/
def free (a : Allocator) (void_address : ℤ) : Allocator :=
  let it := (void_address - a.base_).toNat
  (a.add_to_free_list it).try_merge_buddy_recursive it

/-- One round of the loop of `malloc`: the chunk at `cmit` is cut in two of size `half`. -/
def cut_chunk (a : Allocator) (cmit half : ℕ) : Allocator :=
  let a := ((a.remove_from_free_list cmit).set_size cmit half).add_to_free_list cmit
  (a.add_to_chunk_map (cmit + half) ⟨false, half⟩).add_to_free_list (cmit + half)

/-- The loop of `malloc`: subdivide the chunk at `cmit` until it has the size wanted.  All
    numbers are below `2^63`, so the signed comparison is that of naturals. -/
def subdivide (allocation_size chunk_size cmit : ℕ) (a : Allocator) : Allocator × ℕ :=
  if chunk_size > allocation_size then
    subdivide allocation_size (chunk_size / 2) (cmit + chunk_size / 2)
      (a.cut_chunk cmit (chunk_size / 2))
  else (a, cmit)
termination_by chunk_size
decreasing_by omega

/-- `malloc(size)`: the address, or `none` if it throws, and the allocator afterwards.  The list
    found is not empty (`FreeListsOk`). -/
def malloc (a : Allocator) (size : ℕ) : Option ℤ × Allocator :=
  let allocation_size := (next_largest_power_of_2 (BitVec.ofNat 64 size)).toNat
  match a.free_lists_.lowerBound allocation_size with
  | none => (none, a)
  | some (chunk_size, l) =>
    let r := subdivide allocation_size chunk_size (l.headD 0) a
    let a := { r.1 with chunks_ := r.1.chunks_.modify r.2 fun c => { c with in_use := true } }
    (some (r.2 + a.base_), a.remove_from_free_list r.2)

end Allocator

/-! ### Powers of two -/

theorem smear_toNat {v : BitVec 64} (hv : v.toNat < 2 ^ 63) (n : ℕ) :
    (smear v n).toNat = v.toNat ||| v.toNat >>> n := by
  unfold smear
  have hmsb : v.msb = false := by
    rw [BitVec.msb_eq_false_iff_two_mul_lt]
    omega
  rw [BitVec.toNat_or, BitVec.sshiftRight_eq_of_msb_false hmsb, BitVec.toNat_ushiftRight]

/-- `n` bits from bit `i` on up are not all 0. -/
def AnyBit (v i n : ℕ) : Prop := ∃ d < n, v.testBit (i + d) = true

/-- Smearing by `n` a number that was smeared to a width of `n`. -/
theorem anyBit_smear {v w n : ℕ} (h : ∀ i, w.testBit i = true ↔ AnyBit v i n) (i : ℕ) :
    (w ||| w >>> n).testBit i = true ↔ AnyBit v i (2 * n) := by
  rw [Nat.testBit_or, Bool.or_eq_true, Nat.testBit_shiftRight, h, h]
  constructor
  · rintro (⟨d, hd, hbit⟩ | ⟨d, hd, hbit⟩)
    · exact ⟨d, by omega, hbit⟩
    · exact ⟨n + d, by omega, by rwa [← add_assoc, add_comm i n]⟩
  · rintro ⟨d, hd, hbit⟩
    by_cases hdn : d < n
    · exact .inl ⟨d, hdn, hbit⟩
    · refine .inr ⟨d - n, by omega, ?_⟩
      rwa [show n + i + (d - n) = i + d by omega]

theorem smear_lt {v : BitVec 64} (hv : v.toNat < 2 ^ 63) (n : ℕ) : (smear v n).toNat < 2 ^ 63 := by
  rw [smear_toNat hv]
  apply Nat.or_lt_two_pow hv
  exact (Nat.shiftRight_le _ _).trans_lt hv

theorem anyBit_iff_lt_size {v i : ℕ} (hv : v < 2 ^ 63) : AnyBit v i 64 ↔ i < v.size := by
  rw [Nat.lt_size]
  constructor
  · rintro ⟨d, -, hbit⟩
    exact (Nat.pow_le_pow_right (by norm_num) (Nat.le_add_right i d)).trans
      (Nat.ge_two_pow_of_testBit hbit)
  · intro hle
    obtain ⟨j, hj, hbit⟩ := Nat.exists_ge_and_testBit_of_ge_two_pow hle
    have hlt : j < 63 := by
      by_contra hge
      have h1 := Nat.ge_two_pow_of_testBit hbit
      have h2 : 2 ^ 63 ≤ 2 ^ j := Nat.pow_le_pow_right (by norm_num) (by omega)
      omega
    exact ⟨j - i, by omega, by rwa [show i + (j - i) = j by omega]⟩

theorem eq_of_anyBit {v w : ℕ} (hv : v < 2 ^ 63)
    (h : ∀ i, w.testBit i = true ↔ AnyBit v i 64) : w = 2 ^ v.size - 1 := by
  apply Nat.eq_of_testBit_eq
  intro i
  rw [Nat.testBit_two_pow_sub_one, Bool.eq_iff_iff, h, anyBit_iff_lt_size hv, decide_eq_true_iff]

/-- **The allocation size**: the least power of two that is not below `n`, for every `n` up to
    `2^63`. -/
theorem next_largest_power_of_2_toNat {n : ℕ} (hpos : 1 ≤ n) (hn : n ≤ 2 ^ 63) :
    (next_largest_power_of_2 (BitVec.ofNat 64 n)).toNat = 2 ^ (n - 1).size := by
  obtain ⟨v, hv⟩ : ∃ v, v = BitVec.ofNat 64 n - 1 := ⟨_, rfl⟩
  have hvn : v.toNat = n - 1 := by
    rw [hv, BitVec.toNat_sub, BitVec.toNat_ofNat]
    show (2 ^ 64 - 1 + n % 2 ^ 64) % 2 ^ 64 = n - 1
    omega
  have hlt : v.toNat < 2 ^ 63 := by omega
  -- each round doubles the width
  have h0 : ∀ i, v.toNat.testBit i = true ↔ AnyBit v.toNat i 1 := by
    intro i
    constructor
    · intro hbit
      exact ⟨0, by norm_num, hbit⟩
    · rintro ⟨d, hd, hbit⟩
      obtain rfl : d = 0 := by omega
      exact hbit
  have hround : ∀ (w : BitVec 64) (k : ℕ), w.toNat < 2 ^ 63 →
      (∀ i, w.toNat.testBit i = true ↔ AnyBit v.toNat i k) →
      (smear w k).toNat < 2 ^ 63 ∧
        ∀ i, (smear w k).toNat.testBit i = true ↔ AnyBit v.toNat i (2 * k) := by
    intro w k hw hbits
    refine ⟨smear_lt hw k, ?_⟩
    intro i
    rw [smear_toNat hw]
    exact anyBit_smear hbits i
  obtain ⟨l1, h1⟩ := hround v 1 hlt h0
  obtain ⟨l2, h2⟩ := hround _ 2 l1 h1
  obtain ⟨l4, h4⟩ := hround _ 4 l2 h2
  obtain ⟨l8, h8⟩ := hround _ 8 l4 h4
  obtain ⟨l16, h16⟩ := hround _ 16 l8 h8
  obtain ⟨-, h32⟩ := hround _ 32 l16 h16
  have hall := eq_of_anyBit hlt h32
  have hsize : v.toNat.size ≤ 63 := Nat.size_le.mpr hlt
  have hpow : 2 ^ v.toNat.size ≤ 2 ^ 63 := Nat.pow_le_pow_right (by norm_num) hsize
  have hone : 1 ≤ 2 ^ v.toNat.size := Nat.one_le_two_pow
  unfold next_largest_power_of_2
  rw [← hv, BitVec.toNat_add, hall, ← hvn]
  show (2 ^ v.toNat.size - 1 + 1) % 2 ^ 64 = _
  omega

end Grappa
