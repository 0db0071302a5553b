import AdvCompArch.Lib.Inflation
import AdvCompArch.Grappa.LocalParts
import AdvCompArch.Grappa.IncoherentCache

/-! # Loading a relation from a file

    Every core reads a part of a binary file of rows into its part of a global array, and
    then moves the rows to where the records of the array are.  The part of the file is
    reserved with a `fetch_and_add` on a counter, which is not initialised.

    The rows that the cores read are, one after the other, those of the file
    (`flatMap_rows`), if the counter starts at a multiple of `2^64` bytes. -/

namespace Grappa.RelationIo

open ByteMemory Inflation List

/-- The memories of the cores. -/
abbrev Memory := Core → ℤ → UInt8

/-- `sizeof(int64_t) * numfields`. -/
def row_size_bytes (numfields : ℕ) : ℕ := 8 * numfields

/-- The difference of two `T *`, which there is for a whole number of objects only. -/
def pointer_difference (sizeof : ℕ) (p q : ℤ) : Option ℤ :=
  if (sizeof : ℤ) ∣ p - q then some ((p - q) / sizeof) else none

/-- `seekg` and `read`: a negative position is refused, and then nothing is read; nor is what is
    behind the end of the file. -/
def read_file (file : List UInt8) (pos : ℤ) (len : ℕ) : List UInt8 :=
  if pos < 0 then [] else (file.drop pos.toNat).take len

section code

variable (m : Machine) (memcpy : CopyOp UInt8) (sizeof numfields : ℕ) (file : List UInt8)
  (tuples : GlobalAddress) (ntuples : ℕ)

/-- `local_count`, a `size_t`. -/
def local_count (c : Core) : Option ℕ :=
  (pointer_difference sizeof ((tuples.element sizeof ntuples).localize m sizeof c)
    (tuples.localize m sizeof c)).map fun d => (as_size_t d).toNat

/-- What core `c` does with its memory once it has the offset: the read, and the loop from
    `local_count - 1` down to 0.  The position and the length are products of `size_t`s, taken
    as signed numbers. -/
def load_part (c : Core) (local_count offset : ℕ) (mem : ℤ → UInt8) : ℤ → UInt8 :=
  let local_start := tuples.localize m sizeof c
  let pos := Int.bmod (offset * row_size_bytes numfields) (2 ^ 64)
  let len := (Int.bmod (local_count * row_size_bytes numfields) (2 ^ 64)).toNat
  let mem := store mem local_start (read_file file pos len)
  if row_size_bytes numfields < sizeof then
    inflate memcpy local_start (row_size_bytes numfields) sizeof
      (Int.bmod local_count (2 ^ 64)).toNat mem
  else mem

/-- The body of `on_all_cores`, on the cores in the order in which their requests reach the
    counter.  What follows the request is about the core's own memory only. -/
def on_cores (local_count : Core → ℕ) : List Core → ℕ → Memory → Memory
  | [], _, mem => mem
  | c :: cs, offset_counter, mem =>
    on_cores local_count cs ((offset_counter + local_count c) % 2 ^ 64)
      (Function.update mem c
        (load_part m memcpy sizeof numfields file tuples c (local_count c) offset_counter (mem c)))

/-- `readTuplesUnordered`: the number of tuples and the memories afterwards.  There is no result
    if a `CHECK` fails, for rows without fields, by whose size the code divides, and where
    pointers are subtracted that are not a whole number of objects apart.  `tuples` is what
    `global_alloc` returns. -/
def readTuplesUnordered (offset_counter : BitVec 64) (order : List Core) (mem : Memory) :
    Option (ℕ × Memory) :=
  if row_size_bytes numfields = 0 then none
  else
    let ntuples := file.length / row_size_bytes numfields
    if ntuples * row_size_bytes numfields ≠ file.length then none
    else if ntuples = 0 then none
    else if ∀ c ∈ m.all_cores, (local_count m sizeof tuples ntuples c).isSome then
      some (ntuples, on_cores m memcpy sizeof numfields file tuples
        (fun c => (local_count m sizeof tuples ntuples c).getD 0) order offset_counter.toNat mem)
    else none

/-- The fields of the tuples of the global array. -/
def tuple_fields (mem : Memory) : List (List UInt8) :=
  (List.range ntuples).map fun i : ℕ =>
    load (mem ((tuples.element sizeof i).core m)) ((tuples.element sizeof i).pointer m)
      (row_size_bytes numfields)

/-- Row `r` of the file. -/
def row (r : ℕ) : List UInt8 :=
  (file.drop (r * row_size_bytes numfields)).take (row_size_bytes numfields)

/-- The rows of the file. -/
def rows : List (List UInt8) := (List.range ntuples).map (row numfields file)

end code

/-! ### The counter -/

variable {m : Machine} {memcpy : CopyOp UInt8} {sizeof numfields : ℕ} {file : List UInt8}
  {tuples : GlobalAddress} {counts : Core → ℕ}

theorem on_cores_of_notMem {order : List Core} {c : Core} (hc : c ∉ order) (counter : ℕ)
    (mem : Memory) :
    on_cores m memcpy sizeof numfields file tuples counts order counter mem c = mem c := by
  induction order generalizing counter mem with
  | nil => rfl
  | cons d order ih =>
    rw [on_cores, ih fun h => hc (mem_cons_of_mem _ h),
      Function.update_of_ne (ne_of_not_mem_cons hc)]

/-- A core's memory is changed by its own part of the work, with the counter as the cores before
    have left it. -/
theorem on_cores_eq {before after : List Core} {c : Core} (hnodup : (before ++ c :: after).Nodup)
    (counter : ℕ) (mem : Memory) :
    on_cores m memcpy sizeof numfields file tuples counts (before ++ c :: after) (counter % 2 ^ 64)
        mem c =
      load_part m memcpy sizeof numfields file tuples c (counts c)
        ((counter + (before.map counts).sum) % 2 ^ 64) (mem c) := by
  induction before generalizing counter mem with
  | nil =>
    obtain ⟨hc, -⟩ := nodup_cons.mp hnodup
    rw [nil_append, on_cores, on_cores_of_notMem hc, Function.update_self]
    rfl
  | cons d before ih =>
    obtain ⟨hd, hrest⟩ := nodup_cons.mp hnodup
    have hne : c ≠ d := fun h => hd (h ▸ by simp)
    rw [cons_append, on_cores, Nat.mod_add_mod, ih hrest, Function.update_of_ne hne,
      map_cons, sum_cons, add_assoc]

theorem position_eq (counter reserved size : ℕ) :
    Int.bmod ((counter + reserved) % 2 ^ 64 * size : ℕ) (2 ^ 64) =
      Int.bmod (counter * size % 2 ^ 64 + reserved * size : ℕ) (2 ^ 64) := by
  have hmod : ∀ x : ℕ, ((x % 2 ^ 64 : ℕ) : ℤ) = (x : ℤ) % (2 ^ 64 : ℕ) := fun x => rfl
  rw [Nat.cast_mul, hmod, Nat.cast_add (_ % _), hmod, Int.emod_mul_bmod, Int.emod_add_bmod]
  push_cast
  rw [add_mul]

theorem bmod_of_lt {x : ℕ} (h : x < 2 ^ 63) : Int.bmod x (2 ^ 64) = x :=
  Int.bmod_eq_of_le (by omega) (by omega)

theorem bmod_of_ge {x : ℕ} (hlo : 2 ^ 63 ≤ x) (hhi : x < 2 ^ 64 + 2 ^ 63) :
    Int.bmod x (2 ^ 64) = x - 2 ^ 64 := by
  rw [Int.bmod_eq_iff (by norm_num)]
  refine ⟨by omega, by omega, ⟨-1, ?_⟩⟩
  push_cast
  ring

theorem on_cores_congr {file' : List UInt8} {order : List Core} (hnodup : order.Nodup)
    {counter : ℕ} (hcounter : counter < 2 ^ 64) (mem : Memory)
    (h : ∀ before c after, order = before ++ c :: after →
      load_part m memcpy sizeof numfields file tuples c (counts c)
          ((counter + (before.map counts).sum) % 2 ^ 64) (mem c) =
        load_part m memcpy sizeof numfields file' tuples c (counts c)
          ((counter + (before.map counts).sum) % 2 ^ 64) (mem c)) :
    on_cores m memcpy sizeof numfields file tuples counts order counter mem =
      on_cores m memcpy sizeof numfields file' tuples counts order counter mem := by
  funext c
  by_cases hc : c ∈ order
  · obtain ⟨before, after, rfl⟩ := append_of_mem hc
    have hmod : counter % 2 ^ 64 = counter := Nat.mod_eq_of_lt hcounter
    have heq (f : List UInt8) := @on_cores_eq m memcpy sizeof numfields f tuples counts before
      after c hnodup counter mem
    rw [hmod] at heq
    rw [heq, heq, h before c after rfl]
  · rw [on_cores_of_notMem hc, on_cores_of_notMem hc]

/-! ### The rows of a core -/

theorem load_store_part (mem : ℤ → UInt8) (p : ℤ) (l : List UInt8) {d k : ℕ} (h : d + k ≤ l.length) :
    load (store mem p l) (p + d) k = (l.drop d).take k := by
  rw [← take_drop_load _ p h, load_store_self]

section rows

variable {c : Core} {count reserved : ℕ} {mem : ℤ → UInt8}

theorem load_packed {r : ℕ} (hr : r < count)
    (hfile : (reserved + count) * row_size_bytes numfields ≤ file.length) (p : ℤ) :
    load (store mem p (read_file file (reserved * row_size_bytes numfields : ℕ)
        (count * row_size_bytes numfields)))
      (p + (r * row_size_bytes numfields : ℕ)) (row_size_bytes numfields) =
      row numfields file (reserved + r) := by
  generalize hsize : row_size_bytes numfields = size at hfile
  have hrow : r * size + size ≤ count * size := by
    have := Nat.mul_le_mul_right size (show r + 1 ≤ count from hr)
    rwa [Nat.succ_mul] at this
  rw [add_mul] at hfile
  have hread : read_file file (reserved * size : ℕ) (count * size) =
      (file.drop (reserved * size)).take (count * size) := by
    rw [read_file, if_neg (by omega), Int.toNat_natCast]
  rw [hread, load_store_part, drop_take, take_take, drop_drop, row, hsize,
    add_mul, min_eq_left (by omega)]
  rw [length_take, length_drop]
  omega

theorem load_part_eq {offset : ℕ}
    (hpos : Int.bmod (offset * row_size_bytes numfields : ℕ) (2 ^ 64) =
      (reserved * row_size_bytes numfields : ℕ))
    (hlen : count * row_size_bytes numfields < 2 ^ 63) (hcount : count < 2 ^ 63) :
    load_part m memcpy sizeof numfields file tuples c count offset mem =
      if row_size_bytes numfields < sizeof then
        inflate memcpy (tuples.localize m sizeof c) (row_size_bytes numfields) sizeof count
          (store mem (tuples.localize m sizeof c) (read_file file
            (reserved * row_size_bytes numfields : ℕ) (count * row_size_bytes numfields)))
      else store mem (tuples.localize m sizeof c) (read_file file
        (reserved * row_size_bytes numfields : ℕ) (count * row_size_bytes numfields)) := by
  unfold load_part
  simp only [hpos, ← Nat.cast_mul, bmod_of_lt hlen, bmod_of_lt hcount, Int.toNat_natCast]

theorem load_slot {offset t : ℕ} (ht : t < count)
    (hfile : (reserved + count) * row_size_bytes numfields ≤ file.length)
    (hpos : Int.bmod (offset * row_size_bytes numfields : ℕ) (2 ^ 64) =
      (reserved * row_size_bytes numfields : ℕ))
    (hlen : count * row_size_bytes numfields < 2 ^ 63) (hcount : count < 2 ^ 63)
    (hle : row_size_bytes numfields ≤ sizeof)
    (hexact : row_size_bytes numfields < sizeof →
      Exact memcpy (tuples.localize m sizeof c) (row_size_bytes numfields) sizeof count) :
    load (load_part m memcpy sizeof numfields file tuples c count offset mem)
        (tuples.localize m sizeof c + (t * sizeof : ℕ)) (row_size_bytes numfields) =
      row numfields file (reserved + t) := by
  rw [load_part_eq hpos hlen hcount]
  split_ifs with hlt
  · rw [load_inflate hle (hexact hlt) _ ht, load_packed ht hfile]
  · rw [show sizeof = row_size_bytes numfields by omega, load_packed ht hfile]

end rows

theorem flatMap_consecutive {α β : Type*} (order : List α) (count : α → ℕ) (f : α → ℕ → β)
    (g : ℕ → β) (h : ∀ before c after, order = before ++ c :: after → ∀ t < count c,
      f c t = g ((before.map count).sum + t)) :
    (order.flatMap fun c => (List.range (count c)).map (f c)) =
      (List.range (order.map count).sum).map g := by
  induction order using reverseRecOn with
  | nil => rfl
  | append_singleton order c ih =>
    have hfront := ih fun before d after heq t ht =>
      h before d (after ++ [c]) (by rw [heq, append_assoc, cons_append]) t ht
    rw [flatMap_append, hfront, map_append, sum_append, range_add,
      map_append, flatMap_singleton, map_singleton, sum_singleton, map_map]
    congr 1
    apply map_congr_left
    intro t ht
    exact h order c [] rfl t (mem_range.mp ht)

/-! ### Bytes that no core reads -/

theorem read_file_set {pos : ℤ} {len j : ℕ} (b : UInt8)
    (h : pos < 0 ∨ (j : ℤ) < pos ∨ pos + len ≤ j) :
    read_file (file.set j b) pos len = read_file file pos len := by
  unfold read_file
  split_ifs with hneg
  · rfl
  · rcases h with h | h | h
    · omega
    · rw [drop_set_of_lt (by omega)]
    · rw [drop_set, if_neg (by omega), take_set, set_eq_of_length_le]
      rw [length_take]
      omega

/-- What the cores have reserved when the counter starts at 0, and when the positions go through
    the whole of the file. -/
theorem exists_unread {counter size n : ℕ} {order : List Core} (hn : 0 < n) (hsize : 0 < size)
    (hfits : n * size < 2 ^ 63) (hle : (order.map counts).sum ≤ n)
    (hbad : counter * size % 2 ^ 64 ≠ 0 ∨ (order.map counts).sum < n) :
    ∃ j < n * size, ∀ before c after, order = before ++ c :: after →
      let pos := Int.bmod ((counter + (before.map counts).sum) % 2 ^ 64 * size : ℕ) (2 ^ 64)
      pos < 0 ∨ (j : ℤ) < pos ∨ pos + (counts c * size : ℕ) ≤ j := by
  obtain ⟨x, hx⟩ : ∃ x, x = counter * size % 2 ^ 64 := ⟨_, rfl⟩
  have hxlt : x < 2 ^ 64 := hx ▸ Nat.mod_lt _ (by norm_num)
  -- the part of a core in the order is inside the reserved bytes
  have hpart : ∀ before c after, order = before ++ c :: after →
      (before.map counts).sum * size + counts c * size ≤ (order.map counts).sum * size := by
    intro before c after heq
    rw [← add_mul, heq]
    apply Nat.mul_le_mul_right
    rw [map_append, sum_append, map_cons, sum_cons]
    omega
  have htotal : (order.map counts).sum * size ≤ n * size := Nat.mul_le_mul_right size hle
  have hpos : 0 < n * size := mul_pos hn hsize
  rw [← hx] at hbad
  simp only [position_eq, ← hx]
  by_cases hlow : 0 < x ∧ x ≤ 2 ^ 63
  · -- the positions are behind the first byte, or negative
    refine ⟨0, hpos, ?_⟩
    intro before c after heq
    have := hpart before c after heq
    generalize (before.map counts).sum * size = r at this ⊢
    by_cases hsmall : x + r < 2 ^ 63
    · rw [bmod_of_lt hsmall]
      omega
    · left
      rw [bmod_of_ge (by omega) (by omega)]
      omega
  · -- they end before the last byte
    refine ⟨n * size - 1, by omega, ?_⟩
    intro before c after heq
    have := hpart before c after heq
    generalize (before.map counts).sum * size = r at this ⊢
    rcases Nat.eq_zero_or_pos x with rfl | hxpos
    · have hlt : (order.map counts).sum < n := hbad.resolve_left (by simp)
      have hlast : (order.map counts).sum * size + size ≤ n * size := by
        rw [← Nat.succ_mul]
        exact Nat.mul_le_mul_right size hlt
      rw [zero_add, bmod_of_lt (by omega)]
      omega
    · rw [bmod_of_ge (by omega) (by omega)]
      omega

end Grappa.RelationIo
