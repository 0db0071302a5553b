import AdvCompArch.Lib.BlockCyclic
import AdvCompArch.Lib.Distribute
import AdvCompArch.Lib.FixedWidth
import Mathlib.Data.List.Range

/-! # Global addresses

    `GlobalAddress<T>` packs two kinds of addresses into one signed 64-bit word:
    2D addresses (tag bit set: a core and a local pointer) and linear addresses
    (tag bit clear), which are block-cyclic over all cores.  A pointee type enters
    the arithmetic only through its size, so `T` is represented by `sizeof`.

    The main result is `localize_partition`: the local ranges that `iterate_local`
    walks on the different cores together visit each element of a linear range once,
    on its own core, unless the word of its end wraps around. -/

namespace Grappa

open List

/-- `typedef int16_t Core`. -/
abbrev Core := ℤ

/-- Number of bytes in each block: `sizeof(int64_t)*8`. -/
def block_size : ℤ := 64

/-- The parts of the global communicator and memory that addresses depend on. -/
structure Machine where
  cores : ℕ
  cores_pos : 0 < cores
  /-- Base of the global memory chunk; the chunk has the same base on all cores. -/
  global_memory_chunk_base : ℤ

/-- The cores of the machine, in order. -/
def Machine.all_cores (m : Machine) : List Core := (List.range m.cores).map fun c : ℕ => (c : ℤ)

/-- A global address is its raw 64-bit word, read as a signed number. -/
@[ext] structure GlobalAddress where
  storage : ℤ
  deriving DecidableEq

namespace GlobalAddress

variable (m : Machine) (sizeof : ℕ)

def Raw (t : ℤ) : GlobalAddress := ⟨t⟩

def raw_bits (a : GlobalAddress) : ℤ := a.storage

/-- Is this a 2D address?  `tag_mask` is bit 63, the sign of the word. -/
def is_2D (a : GlobalAddress) : Bool := decide (a.storage < 0)

/-- Is this a linear address? -/
def is_linear (a : GlobalAddress) : Bool := !a.is_2D

/-- A 2D global address: the tag bit, 15 bits of core and 48 bits of pointer. -/
def TwoDimensional (t : ℤ) (n : Core) : GlobalAddress :=
  ⟨-2 ^ 63 + n % 2 ^ 15 * 2 ^ 48 + t⟩

/-- The home core of a global address. -/
def core (a : GlobalAddress) : Core :=
  if a.is_2D then a.storage / 2 ^ 48 % 2 ^ 15
  else a.storage / block_size % m.cores

/-- The local pointer from a global address.  The 2D case sign-extends 48 bits. -/
def pointer (a : GlobalAddress) : ℤ :=
  if a.is_2D then Int.bmod a.storage (2 ^ 48)
  else
    let offset := a.storage % block_size
    let core_block := a.storage / block_size / m.cores
    core_block * block_size + offset + m.global_memory_chunk_base

/-- Base address of the block containing this byte. -/
def block_min (a : GlobalAddress) : GlobalAddress :=
  if a.is_2D then TwoDimensional 0 (a.core m)
  else Raw (a.raw_bits - a.storage % block_size)

/-- Base address of the block after the one containing the last byte of this object. -/
def block_max (a : GlobalAddress) : GlobalAddress :=
  if a.is_2D then TwoDimensional 1 (a.core m)
  else
    let last_byte := a.storage + sizeof - 1
    let last_byte_offset := last_byte % block_size
    Raw (a.raw_bits + sizeof + block_size - (last_byte_offset + 1))

/-- Lowest local address, on core `nid`, of the object at this address.
    `nid` defaults to `-1`, which stands for the calling core `mycore`. -/
def localize (a : GlobalAddress) (mycore : Core) (nid : Core := -1) : ℤ :=
  if a.is_2D then a.pointer m
  else
    let nid := if nid = -1 then mycore else nid
    let block_elems : ℤ := block_size / sizeof
    let block_base := (a.block_min m).pointer m
    if nid < a.core m then block_base + block_elems * sizeof
    else if nid > a.core m then block_base
    else a.pointer m

/-- An address that is `i` objects further; the word wraps around into the tag bit. -/
def add (a : GlobalAddress) (i : ℤ) : GlobalAddress := ⟨FixedWidth.int64 (a.storage + i * sizeof)⟩

/-- Element `i` of an array, without the wrap-around (`add_of_range`). -/
def element (a : GlobalAddress) (i : ℤ) : GlobalAddress := ⟨a.storage + i * sizeof⟩

/-- How many objects different are `t` and `u`?  The raw difference is divided by the
    unsigned `sizeof(T)`, so it is first converted to an unsigned 64-bit number. -/
def sub (t u : GlobalAddress) : ℤ :=
  Int.bmod ((t.raw_bits - u.raw_bits) % 2 ^ 64 / sizeof) (2 ^ 64)

/-- A linear global address from a local pointer of core `mycore`. -/
def Linear (mycore : Core) (t : ℤ) : GlobalAddress :=
  let tt := t - m.global_memory_chunk_base
  let offset := tt % block_size
  let block := tt / block_size
  ⟨(block * m.cores + mycore) * block_size + offset⟩

/-! ### Linear addresses as block-cyclic positions -/

section linear

variable {m sizeof}

theorem exists_nat_of_is_linear {a : GlobalAddress} (h : a.is_linear = true) :
    ∃ s : ℕ, a = ⟨(s : ℤ)⟩ := by
  have hnn : 0 ≤ a.storage := by simpa [is_linear, is_2D] using h
  exact ⟨a.storage.toNat, GlobalAddress.ext (Int.toNat_of_nonneg hnn).symm⟩

theorem is_linear_zero : (⟨0⟩ : GlobalAddress).is_linear = true := rfl

@[simp] theorem is_2D_natCast (s : ℕ) : (⟨(s : ℤ)⟩ : GlobalAddress).is_2D = false := by
  simp [is_2D]

@[simp] theorem core_natCast (s : ℕ) :
    (⟨(s : ℤ)⟩ : GlobalAddress).core m = (BlockCyclic.owner 64 m.cores s : ℕ) := by
  simp [core, block_size, BlockCyclic.owner]

@[simp] theorem pointer_natCast (s : ℕ) :
    (⟨(s : ℤ)⟩ : GlobalAddress).pointer m =
      (BlockCyclic.offset 64 m.cores s : ℕ) + m.global_memory_chunk_base := by
  simp [pointer, block_size, BlockCyclic.offset]

theorem element_natCast (s i : ℕ) :
    (⟨(s : ℤ)⟩ : GlobalAddress).element sizeof i = ⟨((s + i * sizeof : ℕ) : ℤ)⟩ := by
  simp [element]

theorem add_of_range {a : GlobalAddress} {i : ℤ} (hlo : -2 ^ 63 ≤ a.storage + i * sizeof)
    (hhi : a.storage + i * sizeof < 2 ^ 63) : a.add sizeof i = a.element sizeof i := by
  rw [add, FixedWidth.int64_eq hlo hhi, element]

theorem add_add (a : GlobalAddress) (i j : ℤ) :
    (a.add sizeof i).add sizeof j = a.add sizeof (i + j) := by
  simp only [add, FixedWidth.int64, Int.bmod_add_bmod]
  congr 2
  ring

theorem add_natCast {s i : ℕ} (h : s + i * sizeof < 2 ^ 63) :
    (⟨(s : ℤ)⟩ : GlobalAddress).add sizeof i = ⟨((s + i * sizeof : ℕ) : ℤ)⟩ := by
  have hlt : (s : ℤ) + i * sizeof < 2 ^ 63 := by exact_mod_cast h
  have hpos : (0 : ℤ) ≤ s + i * sizeof := by positivity
  rw [add_of_range (le_trans (by norm_num) hpos) hlt, element_natCast]

theorem add_eq_element {a : GlobalAddress} {i n : ℕ} (hlin : a.is_linear = true)
    (hspace : a.storage + n * sizeof < 2 ^ 63) (hi : i ≤ n) : a.add sizeof i = a.element sizeof i := by
  obtain ⟨s, rfl⟩ := exists_nat_of_is_linear hlin
  have hle := Nat.mul_le_mul_right sizeof hi
  have hlt : (s : ℤ) + n * sizeof < 2 ^ 63 := hspace
  rw [add_natCast (by omega), element_natCast]

theorem block_min_natCast (s : ℕ) :
    (⟨(s : ℤ)⟩ : GlobalAddress).block_min m = ⟨((s - s % 64 : ℕ) : ℤ)⟩ := by
  have hle : s % 64 ≤ s := Nat.mod_le _ _
  simp [block_min, Raw, raw_bits, block_size, Nat.cast_sub hle]

theorem block_elems_mul (hdvd : sizeof ∣ 64) : block_size / (sizeof : ℤ) * sizeof = 64 := by
  show (64 : ℤ) / sizeof * sizeof = 64
  rw [mul_comm]
  exact Int.mul_ediv_cancel' (by exact_mod_cast hdvd)

/-- An aligned object does not cross a block boundary. -/
theorem aligned_fits (hdvd : sizeof ∣ 64) {s : ℕ} (halign : sizeof ∣ s) :
    s % 64 + sizeof ≤ 64 := by
  obtain ⟨k, hk⟩ : sizeof ∣ s % 64 := (Nat.dvd_mod_iff hdvd).mpr halign
  obtain ⟨j, hj⟩ := hdvd
  have hlt : s % 64 < 64 := Nat.mod_lt _ (by norm_num)
  have hkj : k < j := by
    rw [hk, hj] at hlt
    exact lt_of_mul_lt_mul_left hlt (Nat.zero_le _)
  calc s % 64 + sizeof = sizeof * (k + 1) := by rw [hk]; ring
    _ ≤ sizeof * j := Nat.mul_le_mul_left _ hkj
    _ = 64 := hj.symm

theorem offset_block_base (s : ℕ) :
    BlockCyclic.offset 64 m.cores (s - s % 64) = s / 64 / m.cores * 64 := by
  have hdiv : (s - s % 64) / 64 = s / 64 := by omega
  have hmod : (s - s % 64) % 64 = 0 := by omega
  simp [BlockCyclic.offset, hdiv, hmod]

theorem localize_natCast (hdvd : sizeof ∣ 64) (s c : ℕ) (mycore : Core) :
    (⟨(s : ℤ)⟩ : GlobalAddress).localize m sizeof mycore (c : ℤ) =
      (BlockCyclic.lower 64 m.cores s c : ℕ) + m.global_memory_chunk_base := by
  have helems : (64 : ℤ) / (sizeof : ℤ) * (sizeof : ℤ) = 64 := block_elems_mul hdvd
  have hc : ¬((c : ℤ) = -1) := by omega
  simp only [localize, is_2D_natCast, Bool.false_eq_true, if_false, hc, block_min_natCast,
    pointer_natCast, core_natCast, offset_block_base, block_size, helems, BlockCyclic.lower,
    Nat.cast_lt, gt_iff_lt]
  split_ifs <;> push_cast <;> ring

end linear

end GlobalAddress

/-! ### Iteration over local ranges -/

/-- The addresses of the `T` objects in the local range `[lo, hi)`, in order: what
    `for (T * p = lo; p < hi; ++p)` visits. -/
def local_range (sizeof : ℕ) (lo hi : ℤ) : List ℤ :=
  (List.range ((hi - lo) / sizeof).toNat).map fun k : ℕ => lo + k * sizeof

/-- `LocalIterator<T>`: the part of `[base, base+nelem)` that lives on the calling core. -/
structure LocalIterator where
  base : GlobalAddress
  nelem : ℕ

namespace LocalIterator

variable (m : Machine) (sizeof : ℕ) (mycore : Core)

/-- `begin()` (the name is a keyword here). -/
def first (it : LocalIterator) : ℤ := it.base.localize m sizeof mycore

/-- `end()`. -/
def last (it : LocalIterator) : ℤ := (it.base.add sizeof it.nelem).localize m sizeof mycore

end LocalIterator

/-- The iterator that core `mycore` walks. -/
def iterate_local (base : GlobalAddress) (nelem : ℕ) : LocalIterator := ⟨base, nelem⟩

/-- The local addresses a range-based `for` over `iterate_local(base, nelem)` visits on `mycore`. -/
def iterate_local_elements (m : Machine) (sizeof : ℕ) (base : GlobalAddress) (nelem : ℕ)
    (mycore : Core) : List ℤ :=
  local_range sizeof ((iterate_local base nelem).first m sizeof mycore)
    ((iterate_local base nelem).last m sizeof mycore)

theorem local_range_append_one {sizeof : ℕ} (hpos : 0 < sizeof) (lo : ℤ) (k : ℕ) :
    local_range sizeof lo (lo + (k + 1 : ℕ) * sizeof) =
      local_range sizeof lo (lo + k * sizeof) ++ [lo + k * sizeof] := by
  have hne : (sizeof : ℤ) ≠ 0 := by exact_mod_cast hpos.ne'
  have hlen : ∀ j : ℕ, ((lo + j * sizeof - lo) / (sizeof : ℤ)).toNat = j := by
    intro j
    rw [add_sub_cancel_left, Int.mul_ediv_cancel _ hne, Int.toNat_natCast]
  simp only [local_range, hlen, range_succ, map_append, map_cons, map_nil]

section partition

open GlobalAddress

variable {m : Machine} {sizeof : ℕ}

theorem localize_default {a : GlobalAddress} {mycore : Core} (caller : Core) (hc : mycore ≠ -1) :
    a.localize m sizeof mycore = a.localize m sizeof caller mycore := by
  simp [localize, hc]

theorem localize_succ (hdvd : sizeof ∣ 64) {s : ℕ} (halign : sizeof ∣ s) {c : ℕ}
    (hc : c < m.cores) (caller : Core) :
    (⟨((s + sizeof : ℕ) : ℤ)⟩ : GlobalAddress).localize m sizeof caller c =
      (⟨(s : ℤ)⟩ : GlobalAddress).localize m sizeof caller c +
        if (⟨(s : ℤ)⟩ : GlobalAddress).core m = c then (sizeof : ℤ) else 0 := by
  have hfit : s % 64 + sizeof ≤ 64 := aligned_fits hdvd halign
  rw [localize_natCast hdvd, localize_natCast hdvd, core_natCast,
    BlockCyclic.lower_add (by norm_num) hc hfit]
  push_cast
  split_ifs <;> (simp_all; try ring)

/-- The local range on core `c` lists, in order, the pointers of the elements that `c` owns,
    and it has no room for anything else. -/
theorem local_range_eq (hdvd : sizeof ∣ 64) {s : ℕ} (halign : sizeof ∣ s) (nelem : ℕ) {c : ℕ}
    (hc : c < m.cores) (caller : Core) :
    let base : GlobalAddress := ⟨(s : ℤ)⟩
    let owned := (range nelem).filter fun i : ℕ => (base.element sizeof i).core m = c
    (base.element sizeof nelem).localize m sizeof caller c =
        base.localize m sizeof caller c + owned.length * sizeof ∧
      local_range sizeof (base.localize m sizeof caller c)
          ((base.element sizeof nelem).localize m sizeof caller c) =
        owned.map fun i : ℕ => (base.element sizeof i).pointer m := by
  have hpos : 0 < sizeof := Nat.pos_of_dvd_of_pos hdvd (by norm_num)
  intro base owned
  induction nelem with
  | zero => simp [owned, base, element, local_range]
  | succ n ih =>
    obtain ⟨hend, hlist⟩ := ih
    have halign' : sizeof ∣ s + n * sizeof := (Nat.dvd_add_right halign).mpr (dvd_mul_left _ _)
    have hstep := localize_succ hdvd halign' hc caller
    have hsucc : base.element sizeof (n + 1 : ℕ) = ⟨((s + n * sizeof + sizeof : ℕ) : ℤ)⟩ := by
      rw [element_natCast, Nat.succ_mul, add_assoc]
    rw [← element_natCast] at hstep
    change (base.element sizeof n).localize m sizeof caller c = _ at hend
    by_cases hown : (base.element sizeof n).core m = c
    · -- element `n` is stored at the end of the range walked so far
      have hptr : (base.element sizeof n).pointer m = (base.element sizeof n).localize m sizeof caller c := by
        rw [element_natCast] at hown ⊢
        rw [core_natCast, Nat.cast_inj] at hown
        rw [localize_natCast hdvd, pointer_natCast, ← hown, BlockCyclic.lower_owner]
      have howned : owned = (range n).filter (fun i : ℕ => (base.element sizeof i).core m = c)
          ++ [n] := by
        simp [owned, range_succ, filter_append, hown]
      have hend' : (base.element sizeof (n + 1 : ℕ)).localize m sizeof caller c =
          base.localize m sizeof caller c + owned.length * sizeof := by
        rw [hsucc, hstep, if_pos hown, hend, howned, length_append, length_singleton]
        push_cast
        ring
      refine ⟨hend', ?_⟩
      rw [hend', howned, length_append, length_singleton, local_range_append_one hpos,
        map_append, ← hlist, ← hend, map_singleton, hptr]
    · have howned : owned = (range n).filter (fun i : ℕ => (base.element sizeof i).core m = c) := by
        simp [owned, range_succ, filter_append, hown]
      rw [if_neg hown, hend, add_zero] at hstep
      rw [howned, hsucc, hstep]
      exact ⟨rfl, by rw [← hlist, hend]⟩

theorem element_core_mem (s i : ℕ) :
    ((⟨(s : ℤ)⟩ : GlobalAddress).element sizeof i).core m ∈ m.all_cores := by
  rw [element_natCast, core_natCast]
  exact mem_map.mpr ⟨_, mem_range.mpr (BlockCyclic.owner_lt m.cores_pos _), rfl⟩

theorem local_ranges_perm (hdvd : sizeof ∣ 64) {s : ℕ} (halign : sizeof ∣ s) (nelem : ℕ)
    (caller : Core) :
    let base : GlobalAddress := ⟨(s : ℤ)⟩
    (m.all_cores.flatMap fun c => (local_range sizeof (base.localize m sizeof caller c)
        ((base.element sizeof nelem).localize m sizeof caller c)).map fun p => (c, p)).Perm
      ((range nelem).map fun i : ℕ =>
        ((base.element sizeof i).core m, (base.element sizeof i).pointer m)) := by
  intro base
  have hnodup : m.all_cores.Nodup := nodup_range.map fun a b hab => by simpa using hab
  have hperm := Distribute.flatMap_filter_perm m.all_cores hnodup
    (fun i : ℕ => (base.element sizeof i).core m)
    (fun i : ℕ => ((base.element sizeof i).core m, (base.element sizeof i).pointer m))
    (range nelem) fun i _ => element_core_mem s i
  refine List.Perm.trans (List.Perm.of_eq (flatMap_congr fun c hc => ?_)) hperm
  obtain ⟨k, hk, rfl⟩ := mem_map.mp hc
  rw [(local_range_eq hdvd halign nelem (mem_range.mp hk) caller).2, map_map]
  exact map_congr_left fun i hi => Prod.ext (of_decide_eq_true (mem_filter.mp hi).2).symm rfl

/-- **The local ranges of a linear range partition its elements.**  On core `c` the range
    `[base.localize(c), (base+nelem).localize(c))`, which `iterate_local` walks, is exactly
    filled by the elements whose core is `c`, each at its own `pointer()`, in increasing order;
    all cores together visit every element once, and no two elements share a core and an
    address. -/
theorem localize_partition (m : Machine) (sizeof : ℕ) (hdvd : sizeof ∣ 64) (base : GlobalAddress)
    (hlin : base.is_linear = true) (halign : (sizeof : ℤ) ∣ base.storage) (nelem : ℕ)
    (hspace : base.storage + nelem * sizeof < 2 ^ 63) (caller : Core) :
    let core := fun i : ℕ => (base.add sizeof i).core m
    let pointer := fun i : ℕ => (base.add sizeof i).pointer m
    let lo := fun c => base.localize m sizeof caller c
    let hi := fun c => (base.add sizeof nelem).localize m sizeof caller c
    (∀ i < nelem, core i ∈ m.all_cores) ∧
    (∀ c ∈ m.all_cores, iterate_local_elements m sizeof base nelem c =
        local_range sizeof (lo c) (hi c) ∧
      local_range sizeof (lo c) (hi c) =
        ((range nelem).filter fun i => core i = c).map pointer ∧
      hi c = lo c + (local_range sizeof (lo c) (hi c)).length * sizeof) ∧
    (m.all_cores.flatMap fun c => (local_range sizeof (lo c) (hi c)).map fun p => (c, p)).Perm
      ((range nelem).map fun i => (core i, pointer i)) ∧
    ((range nelem).map fun i => (core i, pointer i)).Nodup := by
  intro core pointer lo hi
  have hpos : 0 < sizeof := Nat.pos_of_dvd_of_pos hdvd (by norm_num)
  have hadd : ∀ i ≤ nelem, base.add sizeof i = base.element sizeof i :=
    fun i hi => add_eq_element hlin hspace hi
  have hcore : ∀ i ∈ range nelem, core i = (base.element sizeof i).core m :=
    fun i hi => by simp only [core, hadd i (mem_range.mp hi).le]
  have hpointer : ∀ i ∈ range nelem, pointer i = (base.element sizeof i).pointer m :=
    fun i hi => by simp only [pointer, hadd i (mem_range.mp hi).le]
  have hlist : (range nelem).map (fun i => (core i, pointer i)) = (range nelem).map fun i : ℕ =>
      ((base.element sizeof i).core m, (base.element sizeof i).pointer m) :=
    map_congr_left fun i hi => by rw [hcore i hi, hpointer i hi]
  have hend : ∀ c, hi c = (base.element sizeof nelem).localize m sizeof caller c :=
    fun c => by simp only [hi, hadd nelem le_rfl]
  obtain ⟨s, rfl⟩ := exists_nat_of_is_linear hlin
  have hs : sizeof ∣ s := Int.natCast_dvd_natCast.mp halign
  refine ⟨fun i hi => ?_, fun c hc => ?_, ?_, ?_⟩
  · rw [hcore i (mem_range.mpr hi)]
    exact element_core_mem s i
  · obtain ⟨k, hk, rfl⟩ := mem_map.mp hc
    have hne : ((k : ℕ) : ℤ) ≠ -1 := by omega
    obtain ⟨hlen, hrange⟩ := local_range_eq hdvd hs nelem (mem_range.mp hk) caller
    have howned : ((range nelem).filter fun i => core i = k).map pointer =
        ((range nelem).filter fun i : ℕ =>
          ((⟨(s : ℤ)⟩ : GlobalAddress).element sizeof i).core m = k).map
            fun i : ℕ => ((⟨(s : ℤ)⟩ : GlobalAddress).element sizeof i).pointer m := by
      have hfilter := filter_congr (p := fun i => decide (core i = k)) (l := range nelem)
        fun i hi => by rw [hcore i hi]
      rw [hfilter]
      exact map_congr_left fun i hi => hpointer i (mem_filter.mp hi).1
    simp only [iterate_local_elements, iterate_local, LocalIterator.first, LocalIterator.last,
      localize_default caller hne, hadd nelem le_rfl, hend, lo, howned]
    exact ⟨trivial, hrange, by rw [hrange, length_map]; exact hlen⟩
  · simp only [hend, hlist]
    exact local_ranges_perm hdvd hs nelem caller
  · rw [hlist]
    refine nodup_range.map fun i j hij => ?_
    simp only [element_natCast, core_natCast, pointer_natCast, Prod.mk.injEq,
      Nat.cast_inj, add_left_inj] at hij
    have heq := BlockCyclic.owner_offset_injective (by norm_num) hij.1 hij.2
    exact Nat.eq_of_mul_eq_mul_right hpos (add_left_cancel heq)

/-- Twenty 8-byte elements from byte 24 on two cores: core 1 owns elements 5 to 12. -/
theorem localize_partition_two_cores :
    local_range 8 ((⟨24⟩ : GlobalAddress).localize ⟨2, by decide, 0⟩ 8 0 1)
        (((⟨24⟩ : GlobalAddress).add 8 20).localize ⟨2, by decide, 0⟩ 8 0 1) =
      [0, 8, 16, 24, 32, 40, 48, 56] :=
  ((localize_partition ⟨2, by decide, 0⟩ 8 (by decide) ⟨24⟩ (by decide) (by decide) 20
    (by norm_num) 0).2.1 1 (by decide)).2.1.trans (by decide)

/-- The end of the last eight words of the linear addresses wraps around into the tag bit, and
    nothing is visited. -/
theorem localize_partition_wraps :
    let m : Machine := ⟨1, Nat.one_pos, 0⟩
    let base : GlobalAddress := ⟨2 ^ 63 - 64⟩
    ¬(m.all_cores.flatMap fun c => (local_range 8 (base.localize m 8 0 c)
        ((base.add 8 8).localize m 8 0 c)).map fun p => (c, p)).Perm
      ((range 8).map fun i : ℕ => ((base.add 8 i).core m, (base.add 8 i).pointer m)) := by
  intro m base h
  exact absurd h.length_eq (by decide)

end partition

end Grappa
