import AdvCompArch.Grappa.RelationIo
import Mathlib.Algebra.BigOperators.Ring.List
import Mathlib.Algebra.Order.BigOperators.Group.Finset
import Mathlib.Data.Nat.ModEq

/-! # When the tuples are the rows of the file

    `readTuplesUnordered` does what it is for if the counter happens to start at a multiple of
    `2^64` bytes, and a copy between regions that overlap is never asked for, or the array is
    such that `localize` can divide it: `readTuplesUnordered_iff`. -/

namespace Grappa.RelationIo

open ByteMemory Inflation LocalParts List GlobalAddress BlockCyclic

/-- The type of the records and the number of rows.  The array is not too long for a linear
    address. -/
structure Input where
  numfields : ℕ
  sizeof : ℕ
  ntuples : ℕ
  row_le : row_size_bytes numfields ≤ sizeof
  fits : ntuples * sizeof < 2 ^ 63

namespace Input

variable (m : Machine) (i : Input) (offset_counter : BitVec 64)

/-- Whatever address the array gets, whatever is in the memories, in whatever order the cores
    reserve their parts, and whatever `memcpy` does to regions that overlap: the fields of the
    tuples are those of the rows of the file. -/
def Loads : Prop :=
  ∀ s, Granted s (i.ntuples * i.sizeof) → ∀ (mem : Memory) (order : List Core),
    order.Perm m.all_cores → ∀ memcpy : CopyOp UInt8, Copies memcpy → ∀ file : List UInt8,
      file.length = i.ntuples * row_size_bytes i.numfields →
        ∃ mem', readTuplesUnordered m memcpy i.sizeof i.numfields file ⟨(s : ℤ)⟩ offset_counter order
            mem = some (i.ntuples, mem') ∧
          (tuple_fields m i.sizeof i.numfields ⟨(s : ℤ)⟩ i.ntuples mem').Perm
            (rows i.numfields file i.ntuples)

/-- There are rows; the counter starts at a multiple of `2^64` bytes; `localize` can divide the
    array; and where a record has room for a row but not for two, no core has two of them. -/
structure Safe : Prop where
  fields : 0 < i.numfields
  tuples : 0 < i.ntuples
  counter : 2 ^ 64 ∣ offset_counter.toNat * row_size_bytes i.numfields
  suits : Suits m.cores i.sizeof i.ntuples
  room : row_size_bytes i.numfields = i.sizeof ∨ 2 * row_size_bytes i.numfields ≤ i.sizeof ∨
    i.ntuples = 1 ∨ (i.sizeof = 64 ∧ i.ntuples ≤ m.cores)

end Input

/-! ### The parts of the cores -/

section counts

variable {m : Machine} {sizeof s n : ℕ}

theorem localize_core (x c : ℕ) : (⟨(x : ℤ)⟩ : GlobalAddress).localize m sizeof c =
    (lowest m.cores sizeof x c : ℕ) + m.global_memory_chunk_base := by
  have hne : (c : ℤ) ≠ -1 := by omega
  rw [localize_default 0 hne, localize_eq]

theorem local_count_natCast (c : ℕ) : local_count m sizeof ⟨(s : ℤ)⟩ n c =
    (pointer_difference sizeof (lowest m.cores sizeof (s + n * sizeof) c : ℕ)
      (lowest m.cores sizeof s c : ℕ)).map fun d => (as_size_t d).toNat := by
  rw [local_count, element_natCast, localize_core, localize_core]
  simp only [pointer_difference, add_sub_add_right_eq_sub]

theorem pointer_difference_add (hpos : 0 < sizeof) (p k : ℕ) (hk : k < 2 ^ 64) :
    (pointer_difference sizeof (p + k * sizeof : ℕ) (p : ℕ)).map (fun d => (as_size_t d).toNat) =
      some k := by
  have hsub : ((p + k * sizeof : ℕ) : ℤ) - p = k * sizeof := by
    push_cast
    ring
  have hne : (sizeof : ℤ) ≠ 0 := by exact_mod_cast hpos.ne'
  have hmod : (k : ℤ) % 2 ^ 64 = k := Int.emod_eq_of_lt (by omega) (by exact_mod_cast hk)
  rw [pointer_difference, hsub, if_pos (dvd_mul_left _ _), Int.mul_ediv_cancel _ hne, Option.map_some,
    as_size_t, hmod, Int.toNat_natCast]

theorem length_owned_le (c : ℕ) : (owned m.cores sizeof s n c).length ≤ n := by
  have := length_filter_le (fun i => owner 64 m.cores (s + i * sizeof) = c) (range n)
  rwa [length_range] at this

theorem two_le_length_owned {c i j : ℕ} (hij : i < j) (hj : j < n)
    (hi : owner 64 m.cores (s + i * sizeof) = c)
    (hj' : owner 64 m.cores (s + j * sizeof) = c) :
    2 ≤ (owned m.cores sizeof s n c).length := by
  have hsub : [i, j].Subperm (owned m.cores sizeof s n c) := by
    apply List.Nodup.subperm
    · simpa using hij.ne
    · intro x hx
      rcases mem_pair.mp hx with rfl | rfl
      · exact mem_filter.mpr ⟨mem_range.mpr (by omega), by simpa using hi⟩
      · exact mem_filter.mpr ⟨mem_range.mpr hj, by simpa using hj'⟩
  exact hsub.length_le

theorem length_owned_le_one (h : n = 1 ∨ (sizeof = 64 ∧ n ≤ m.cores)) (c : ℕ) :
    (owned m.cores sizeof s n c).length ≤ 1 := by
  rcases h with rfl | ⟨rfl, hn⟩
  · exact length_owned_le c
  · by_contra htwo
    have hnodup : (owned m.cores 64 s n c).Nodup := nodup_range.filter _
    match hl : owned m.cores 64 s n c with
    | [] | [_] => simp [hl] at htwo
    | i :: j :: l =>
      have hmem : ∀ x ∈ [i, j], x < n ∧ (s / 64 + x) % m.cores = c := by
        intro x hx
        have hown : x ∈ owned m.cores 64 s n c := by
          rw [hl]
          exact mem_append_left l hx
        obtain ⟨hx, heq⟩ := mem_filter.mp hown
        have heq := of_decide_eq_true heq
        rw [owner, Nat.add_mul_div_right _ _ (by norm_num)] at heq
        exact ⟨mem_range.mp hx, heq⟩
      obtain ⟨hi, hic⟩ := hmem i (by simp)
      obtain ⟨hj, hjc⟩ := hmem j (by simp)
      have hij : i % m.cores = j % m.cores := Nat.ModEq.add_left_cancel' _ (hic.trans hjc.symm)
      rw [Nat.mod_eq_of_lt (by omega), Nat.mod_eq_of_lt (by omega)] at hij
      rw [hl, hij] at hnodup
      exact (nodup_cons.mp hnodup).1 mem_cons_self

theorem local_count_of_steps (hpos : 0 < sizeof) (hsteps : Steps m.cores sizeof s n)
    (hn : n < 2 ^ 64) {c : ℕ} (hc : c < m.cores) : local_count m sizeof ⟨(s : ℤ)⟩ n c =
      some (owned m.cores sizeof s n c).length := by
  have hle := @length_owned_le m sizeof s n c
  rw [local_count_natCast, (hsteps.owned hc).1, pointer_difference_add hpos _ _ (by omega)]

theorem tuple_fields_perm (numfields : ℕ) (hsteps : Steps m.cores sizeof s n) {counts : Core → ℕ}
    (hcounts : ∀ c < m.cores, counts (c : ℕ) = (owned m.cores sizeof s n c).length)
    {order : List Core} (horder : order.Perm m.all_cores) (mem : Memory) :
    (order.flatMap fun c => (List.range (counts c)).map fun t : ℕ =>
        load (mem c) ((⟨(s : ℤ)⟩ : GlobalAddress).localize m sizeof c + (t * sizeof : ℕ))
          (row_size_bytes numfields)).Perm
      (tuple_fields m sizeof numfields ⟨(s : ℤ)⟩ n mem) := by
  refine (horder.flatMap_right _).trans ?_
  have hperm := hsteps.perm m.cores_pos fun c o =>
    load (mem c) (o + m.global_memory_chunk_base) (row_size_bytes numfields)
  have htuples : tuple_fields m sizeof numfields ⟨(s : ℤ)⟩ n mem =
      (range n).map fun i =>
        load (mem (owner 64 m.cores (s + i * sizeof) : ℕ))
          ((offset 64 m.cores (s + i * sizeof) : ℕ) + m.global_memory_chunk_base)
          (row_size_bytes numfields) := by
    apply map_congr_left
    intro i _
    rw [element_natCast, core_natCast, pointer_natCast]
  rw [htuples]
  refine List.Perm.trans (List.Perm.of_eq ?_) hperm
  rw [Machine.all_cores, flatMap_map]
  apply flatMap_congr
  intro c hc
  rw [hcounts c (mem_range.mp hc), localize_core]
  apply map_congr_left
  intro t _
  congr 1
  push_cast
  ring

end counts

/-! ### The rows are loaded -/

section loads

variable {m : Machine} {i : Input} {offset_counter : BitVec 64}

theorem Input.ntuples_lt (i : Input) (hpos : 0 < i.sizeof) : i.ntuples < 2 ^ 63 :=
  (Nat.le_mul_of_pos_right _ hpos).trans_lt i.fits

theorem Input.bytes_lt (i : Input) : i.ntuples * row_size_bytes i.numfields < 2 ^ 63 :=
  (Nat.mul_le_mul_left _ i.row_le).trans_lt i.fits

theorem readTuplesUnordered_eq (hfields : 0 < i.numfields) (htuples : 0 < i.ntuples)
    {file : List UInt8} (hfile : file.length = i.ntuples * row_size_bytes i.numfields)
    {tuples : GlobalAddress} (hcount : ∀ c ∈ m.all_cores,
      (local_count m i.sizeof tuples i.ntuples c).isSome) (memcpy : CopyOp UInt8)
    (order : List Core) (mem : Memory) :
    readTuplesUnordered m memcpy i.sizeof i.numfields file tuples offset_counter order mem =
      some (i.ntuples, on_cores m memcpy i.sizeof i.numfields file tuples
        (fun c => (local_count m i.sizeof tuples i.ntuples c).getD 0) order offset_counter.toNat
          mem) := by
  have hrow : 0 < row_size_bytes i.numfields := by
    rw [row_size_bytes]
    omega
  have hdiv : i.ntuples * row_size_bytes i.numfields / row_size_bytes i.numfields = i.ntuples :=
    Nat.mul_div_cancel _ hrow
  simp only [readTuplesUnordered, hfile, hdiv]
  rw [if_neg hrow.ne', if_neg (by simp), if_neg htuples.ne', if_pos hcount]

/-- **The rows are loaded** if it is safe. -/
theorem Input.Safe.loads (h : i.Safe m offset_counter) : i.Loads m offset_counter := by
  intro s hs mem order horder memcpy hmemcpy file hfile
  have hsteps := steps h.suits h.tuples hs
  have hrow : 0 < row_size_bytes i.numfields := by
    have := h.fields
    rw [row_size_bytes]
    omega
  have hpos : 0 < i.sizeof := hrow.trans_le i.row_le
  have hn := i.ntuples_lt hpos
  have hcount : ∀ c < m.cores, local_count m i.sizeof ⟨(s : ℤ)⟩ i.ntuples (c : ℕ) =
      some (owned m.cores i.sizeof s i.ntuples c).length := fun c hc =>
    local_count_of_steps hpos hsteps (by omega) hc
  have hsome : ∀ c ∈ m.all_cores, (local_count m i.sizeof ⟨(s : ℤ)⟩ i.ntuples c).isSome := by
    intro c hc
    obtain ⟨k, hk, rfl⟩ := mem_map.mp hc
    rw [hcount k (mem_range.mp hk)]
    rfl
  refine ⟨_, readTuplesUnordered_eq h.fields h.tuples hfile hsome memcpy order mem, ?_⟩
  obtain ⟨counts, hcounts⟩ : ∃ counts, counts = fun c =>
    (local_count m i.sizeof ⟨(s : ℤ)⟩ i.ntuples c).getD 0 := ⟨_, rfl⟩
  rw [← hcounts]
  have howned : ∀ c < m.cores, counts (c : ℕ) = (owned m.cores i.sizeof s i.ntuples c).length := by
    intro c hc
    rw [hcounts]
    simp only [hcount c hc, Option.getD_some]
  generalize hmem' : on_cores m memcpy i.sizeof i.numfields file ⟨(s : ℤ)⟩ counts order
    offset_counter.toNat mem = mem'
  have hperm := tuple_fields_perm i.numfields hsteps howned horder mem'
  -- together the cores count all the tuples
  have htotal : (order.map counts).sum = i.ntuples := by
    have hlen := hperm.length_eq
    simpa [tuple_fields, length_flatMap] using hlen
  have hslots := flatMap_consecutive order counts (fun c t =>
      load (mem' c) ((⟨(s : ℤ)⟩ : GlobalAddress).localize m i.sizeof c + (t * i.sizeof : ℕ))
        (row_size_bytes i.numfields)) (row i.numfields file) ?_
  · rw [hslots, htotal] at hperm
    exact hperm.symm
  intro before c after heq t ht
  obtain ⟨k, hk, rfl⟩ := mem_map.mp (horder.mem_iff.mp (heq ▸ by simp : c ∈ order))
  have hk := mem_range.mp hk
  have hnodup : order.Nodup := by
    apply horder.nodup_iff.mpr
    exact nodup_range.map fun a b hab => by simpa using hab
  have hmem := @on_cores_eq m memcpy i.sizeof i.numfields file ⟨(s : ℤ)⟩ counts before after k
    (heq ▸ hnodup) offset_counter.toNat mem
  rw [Nat.mod_eq_of_lt offset_counter.isLt, ← heq, hmem'] at hmem
  have hle := @length_owned_le m i.sizeof s i.ntuples k
  rw [← howned k hk] at hle
  have hbytes := i.bytes_lt
  -- the reserved part is inside the file
  have hpart : (before.map counts).sum + counts (k : ℕ) ≤ i.ntuples := by
    rw [← htotal, heq, map_append, sum_append, map_cons, sum_cons]
    omega
  have hinside := Nat.mul_le_mul_right (row_size_bytes i.numfields) hpart
  have hinside' := hinside
  rw [add_mul] at hinside'
  simp only [hmem]
  apply load_slot ht
  case hfile => rwa [hfile]
  case hpos =>
    rw [position_eq, Nat.mod_eq_zero_of_dvd h.counter, zero_add, bmod_of_lt (by omega)]
  case hlen => omega
  case hcount => omega
  case hle => exact i.row_le
  case hexact =>
    intro hlt
    apply copies_exactly hmemcpy
    rcases h.room with heq | htwo | hone
    · omega
    · exact .inl htwo
    · right
      rw [howned k hk]
      exact length_owned_le_one hone k

/-! ### Marked rows -/

/-- Rows that all begin with 0 and go on with 1. -/
def marked (n size : ℕ) : List UInt8 := (List.range (n * size)).map fun j => if size ∣ j then 0 else 1

theorem marked_getElem? {n size j : ℕ} (hj : j < n * size) :
    (marked n size)[j]? = some (if size ∣ j then 0 else 1) := by
  rw [marked, getElem?_map, getElem?_range hj]
  rfl

theorem row_marked {numfields n r : ℕ} (hr : r < n) :
    row numfields (marked n (row_size_bytes numfields)) r =
      (List.range (row_size_bytes numfields)).map fun q => if q = 0 then 0 else 1 := by
  unfold row
  generalize row_size_bytes numfields = size
  have hin : r * size + size ≤ n * size := by
    have := Nat.mul_le_mul_right size (show r + 1 ≤ n from hr)
    rwa [Nat.succ_mul] at this
  apply ext_getElem?
  intro q
  rw [getElem?_take, getElem?_drop, getElem?_map]
  split_ifs with hq
  · rw [marked_getElem? (by omega), getElem?_range hq, Option.map_some]
    have hdvd : size ∣ r * size + q ↔ q = 0 := by
      rw [Nat.dvd_add_right (dvd_mul_left _ _)]
      exact ⟨fun h => Nat.eq_zero_of_dvd_of_lt h hq, fun h => h ▸ dvd_zero _⟩
    simp only [hdvd]
  · rw [getElem?_eq_none (by simpa using Nat.le_of_not_lt hq), Option.map_none]

section marks

variable {size row n S K : ℕ} {lo : ℤ}

theorem packed_marked (hK : S + K ≤ n) (v : ℕ) :
    store (fun _ => 1) lo (read_file (marked n row) (S * row : ℕ) (K * row)) (lo + v) =
      if v < K * row ∧ row ∣ v then 0 else 1 := by
  have hin := Nat.mul_le_mul_right row hK
  rw [add_mul] at hin
  have hget : ∀ v, (read_file (marked n row) (S * row : ℕ) (K * row))[v]? =
      if v < K * row then some (if row ∣ v then 0 else 1) else none := by
    intro v
    rw [read_file, if_neg (by omega), Int.toNat_natCast, getElem?_take, getElem?_drop]
    by_cases hv : v < K * row
    · rw [if_pos hv, if_pos hv, marked_getElem? (by omega)]
      simp only [Nat.dvd_add_right (dvd_mul_left row S)]
    · rw [if_neg hv, if_neg hv]
  rw [store, if_pos (by omega), add_sub_cancel_left, Int.toNat_natCast, hget]
  split_ifs with h1 h2 h3 h4 h5 <;> simp_all

/-- Where a marked row is found after the moves: in a slot, or in the first half, where it has
    been left over. -/
theorem good_of_mark (hrow : 0 < row) (hle : row ≤ size) (hK : S + K ≤ n) {mem packed : ℤ → UInt8}
    (hpacked : packed = store (fun _ => 1) lo (read_file (marked n row) (S * row : ℕ) (K * row)))
    (hmem : mem = if row < size then inflate move lo row size K packed else packed) {u : ℕ}
    (hload : ∀ q < row, mem (lo + (u + q : ℕ)) = if q = 0 then 0 else 1) :
    (size ∣ u ∧ u < K * size) ∨ 2 * u + size ≤ K * size := by
  have hzero : ∀ v : ℕ, packed (lo + v) = 0 → v < K * row ∧ row ∣ v := by
    intro v hv
    by_contra hnot
    rw [hpacked, packed_marked hK, if_neg hnot] at hv
    cases hv
  have hfirst := hload 0 hrow
  rw [if_pos rfl, add_zero] at hfirst
  by_cases hlt : row < size
  · rw [if_pos hlt] at hmem
    have hslot : ∀ t < K, ∀ q < row, mem (lo + (t * size + q : ℕ)) = packed (lo + (t * row + q : ℕ)) := by
      intro t ht q hq
      have hload := load_inflate hle (@Exact.move UInt8 lo row size K) packed ht
      rw [← hmem] at hload
      have := map_inj_left.mp hload q (mem_range.mpr hq)
      push_cast
      rw [← add_assoc, ← add_assoc]
      exact_mod_cast this
    by_cases hin : ∃ t < K, t * size ≤ u ∧ u < t * size + row
    · -- in a slot only the first byte is 0
      obtain ⟨t, ht, hlo, hhi⟩ := hin
      obtain ⟨q, rfl⟩ := Nat.exists_eq_add_of_le hlo
      rw [hslot t ht q (by omega)] at hfirst
      have hdvd := (Nat.dvd_add_right (dvd_mul_left row t)).mp (hzero _ hfirst).2
      obtain rfl := Nat.eq_zero_of_dvd_of_lt hdvd (by omega)
      left
      refine ⟨dvd_mul_left _ _, ?_⟩
      have := Nat.mul_le_mul_right size (show t + 1 ≤ K from ht)
      rw [Nat.succ_mul] at this
      omega
    · -- between the slots are the rows as they have been read
      have hrest : mem (lo + u) = packed (lo + u) := by
        rw [hmem]
        apply inflate_outside (Exact.move K)
        intro t ht
        by_contra hnot
        exact hin ⟨t, ht, by omega, by omega⟩
      rw [hrest] at hfirst
      obtain ⟨huK, r, rfl⟩ := hzero u hfirst
      have hrK : r + 1 ≤ K := by
        rw [mul_comm] at huK
        exact Nat.lt_of_mul_lt_mul_right huK
      obtain ⟨K, rfl⟩ : ∃ k, K = k + 1 := ⟨K - 1, by omega⟩
      have hmul : row * r ≤ row * K := Nat.mul_le_mul_left row (by omega)
      right
      by_contra hhalf
      rw [Nat.succ_mul K] at hhalf
      -- so a slot has no room for two rows, and the rest of this one is in the next slot
      have hroom : size < 2 * row := by
        by_contra htwo
        have hrows : K * (2 * row) = 2 * (row * K) := by ring
        have := Nat.mul_le_mul_left K (Nat.le_of_not_lt htwo)
        omega
      obtain ⟨t, ht⟩ : ∃ t, t = row * r / size := ⟨_, rfl⟩
      have hdiv := Nat.div_add_mod (row * r) size
      have hmod := Nat.mod_lt (row * r) (show 0 < size by omega)
      rw [← ht, mul_comm size t] at hdiv
      have hnext : t + 1 < K + 1 := by
        by_contra hge
        have := Nat.mul_le_mul_right size (show K ≤ t by omega)
        have hKsize := Nat.mul_le_mul_left K hlt.le
        rw [Nat.mul_comm K row] at hKsize
        have htK : t = K := by
          by_contra hne
          have := Nat.mul_le_mul_right size (show K + 1 ≤ t by omega)
          rw [Nat.succ_mul] at this
          omega
        exact hin ⟨t, by omega, by omega, by omega⟩
      have hgap : t * size + row ≤ row * r := by
        by_contra hshort
        exact hin ⟨t, by omega, by omega, by omega⟩
      have hone := hload ((t + 1) * size - row * r) (by rw [Nat.succ_mul]; omega)
      rw [Nat.add_sub_cancel' (by rw [Nat.succ_mul]; omega), if_neg (by rw [Nat.succ_mul]; omega)]
        at hone
      have hstart := hslot (t + 1) (by omega) 0 hrow
      rw [add_zero, add_zero, hone, hpacked, packed_marked hK, if_pos] at hstart
      · cases hstart
      · exact ⟨Nat.mul_lt_mul_of_pos_right hnext hrow, dvd_mul_left _ _⟩
  · obtain rfl : row = size := by omega
    rw [if_neg hlt] at hmem
    rw [hmem] at hfirst
    exact .inl (hzero u hfirst).symm

end marks

/-! ### What follows if the rows are always loaded -/

theorem Input.Loads.at_zero (h : i.Loads m offset_counter) (mem : Memory) {memcpy : CopyOp UInt8}
    (hmemcpy : Copies memcpy) {file : List UInt8}
    (hfile : file.length = i.ntuples * row_size_bytes i.numfields) :
    ∃ mem', readTuplesUnordered m memcpy i.sizeof i.numfields file ⟨((0 : ℕ) : ℤ)⟩ offset_counter
        m.all_cores mem = some (i.ntuples, mem') ∧
      (tuple_fields m i.sizeof i.numfields ⟨((0 : ℕ) : ℤ)⟩ i.ntuples mem').Perm
        (rows i.numfields file i.ntuples) :=
  h 0 (granted_zero _) mem m.all_cores (List.Perm.refl _) memcpy hmemcpy file hfile

theorem of_readTuplesUnordered {memcpy : CopyOp UInt8} {sizeof numfields : ℕ} {file : List UInt8}
    {tuples : GlobalAddress} {order : List Core} {mem : Memory} {r : ℕ × Memory}
    (h : readTuplesUnordered m memcpy sizeof numfields file tuples offset_counter order mem = some r) :
    0 < numfields ∧ 0 < r.1 ∧ ∀ c ∈ m.all_cores, (local_count m sizeof tuples r.1 c).isSome := by
  simp only [readTuplesUnordered] at h
  split_ifs at h with hrow _ hn hcount
  cases h
  rw [row_size_bytes] at hrow
  exact ⟨by omega, Nat.pos_of_ne_zero hn, hcount⟩

theorem lowest_zero (N size c : ℕ) : lowest N size 0 c = 0 := by
  simp [lowest, owner, offset]

theorem one_notMem_rows {numfields n k : ℕ} {zeros : List UInt8} (hzeros : zeros = List.replicate k 0)
    {r : List UInt8} (hr : r ∈ rows numfields zeros n) : (1 : UInt8) ∉ r := by
  obtain ⟨j, -, rfl⟩ := mem_map.mp hr
  intro hone
  rw [row, hzeros] at hone
  have hmem := mem_of_mem_drop (mem_of_mem_take hone)
  exact absurd (eq_of_mem_replicate hmem) (by decide)

/-- The facts about the array at address 0. -/
structure AtZero (m : Machine) (i : Input) (offset_counter : BitVec 64) : Prop where
  fields : 0 < i.numfields
  tuples : 0 < i.ntuples
  whole : ∀ c < m.cores, i.sizeof ∣ lowest m.cores i.sizeof (i.ntuples * i.sizeof) c

theorem Input.Loads.atZero (h : i.Loads m offset_counter) : AtZero m i offset_counter := by
  obtain ⟨mem', hread, -⟩ := h.at_zero (fun _ _ => 0) copies_move
    (length_replicate : (replicate _ (0 : UInt8)).length = _)
  obtain ⟨hfields, htuples, hcount⟩ := of_readTuplesUnordered hread
  refine ⟨hfields, htuples, ?_⟩
  intro c hc
  have hsome := hcount c (mem_map.mpr ⟨c, mem_range.mpr hc, rfl⟩)
  rw [local_count_natCast, pointer_difference, lowest_zero] at hsome
  simp only [zero_add, Nat.cast_zero, sub_zero] at hsome
  split_ifs at hsome with hdvd
  · exact Int.natCast_dvd_natCast.mp hdvd
  · cases hsome

/-- What the cores count at address 0. -/
def counts (m : Machine) (i : Input) (c : Core) : ℕ :=
  (local_count m i.sizeof ⟨((0 : ℕ) : ℤ)⟩ i.ntuples c).getD 0

namespace AtZero

variable (h : AtZero m i offset_counter)

include h

theorem row_pos : 0 < row_size_bytes i.numfields := by
  have := h.fields
  rw [row_size_bytes]
  omega

theorem sizeof_pos : 0 < i.sizeof := h.row_pos.trans_le i.row_le

theorem count_eq {c : ℕ} (hc : c < m.cores) :
    local_count m i.sizeof ⟨((0 : ℕ) : ℤ)⟩ i.ntuples (c : ℕ) = some (counts m i (c : ℕ)) ∧
      lowest m.cores i.sizeof (i.ntuples * i.sizeof) c = counts m i (c : ℕ) * i.sizeof := by
  obtain ⟨k, hk⟩ := dvd_iff_exists_eq_mul_left.mp (h.whole c hc)
  have hsum := @sum_lowest m.cores i.sizeof m.cores_pos (i.ntuples * i.sizeof)
  have hle : k * i.sizeof ≤ i.ntuples * i.sizeof := by
    have hone := Finset.sum_le_sum_of_subset (f := lowest m.cores i.sizeof (i.ntuples * i.sizeof))
      (Finset.singleton_subset_iff.mpr (Finset.mem_range.mpr hc))
    rw [Finset.sum_singleton, hk] at hone
    omega
  have hkn : k ≤ i.ntuples := Nat.le_of_mul_le_mul_right hle h.sizeof_pos
  have hn := i.ntuples_lt h.sizeof_pos
  have hcount : local_count m i.sizeof ⟨((0 : ℕ) : ℤ)⟩ i.ntuples (c : ℕ) = some k := by
    have hdiff := pointer_difference_add h.sizeof_pos 0 k (by omega)
    rw [local_count_natCast, lowest_zero, zero_add, hk]
    rwa [zero_add] at hdiff
  rw [counts, hcount]
  exact ⟨rfl, hk⟩

theorem counts_some : ∀ c ∈ m.all_cores,
    (local_count m i.sizeof ⟨((0 : ℕ) : ℤ)⟩ i.ntuples c).isSome := by
  intro c hc
  obtain ⟨k, hk, rfl⟩ := mem_map.mp hc
  rw [(h.count_eq (mem_range.mp hk)).1]
  rfl

/-- Blocks that are not full are counted as if they were. -/
theorem total : (m.all_cores.map (counts m i)).sum * i.sizeof +
    (64 - room i.sizeof) * owner 64 m.cores (i.ntuples * i.sizeof) =
      i.ntuples * i.sizeof := by
  have hsum := @sum_lowest m.cores i.sizeof m.cores_pos (i.ntuples * i.sizeof)
  have hlist : (m.all_cores.map (counts m i)).sum * i.sizeof =
      ∑ c ∈ Finset.range m.cores, lowest m.cores i.sizeof (i.ntuples * i.sizeof) c := by
    rw [Machine.all_cores, map_map, ← sum_map_mul_right]
    show _ = ((range m.cores).map (lowest m.cores i.sizeof (i.ntuples * i.sizeof))).sum
    congr 1
    apply map_congr_left
    intro c hc
    exact (h.count_eq (mem_range.mp hc)).2.symm
  rw [hlist, hsum]

theorem total_le : (m.all_cores.map (counts m i)).sum ≤ i.ntuples := by
  have := h.total
  exact Nat.le_of_mul_le_mul_right (by omega) h.sizeof_pos

omit h in
theorem nodup_all_cores : m.all_cores.Nodup :=
  nodup_range.map fun a b hab => by simpa using hab

theorem bytes_lt {c : Core} (hc : c ∈ m.all_cores) :
    counts m i c * row_size_bytes i.numfields < 2 ^ 63 := by
  have hle : counts m i c ≤ (m.all_cores.map (counts m i)).sum :=
    single_le_sum (fun _ _ => Nat.zero_le _) _ (mem_map_of_mem hc)
  have := Nat.mul_le_mul_right (row_size_bytes i.numfields) (hle.trans h.total_le)
  have := i.bytes_lt
  omega

theorem loaded (hloads : i.Loads m offset_counter) (mem : Memory) {memcpy : CopyOp UInt8}
    (hmemcpy : Copies memcpy) {file : List UInt8}
    (hfile : file.length = i.ntuples * row_size_bytes i.numfields) :
    (tuple_fields m i.sizeof i.numfields ⟨((0 : ℕ) : ℤ)⟩ i.ntuples
      (on_cores m memcpy i.sizeof i.numfields file ⟨((0 : ℕ) : ℤ)⟩ (counts m i) m.all_cores
        offset_counter.toNat mem)).Perm (rows i.numfields file i.ntuples) := by
  obtain ⟨mem', hread, hperm⟩ := hloads.at_zero mem hmemcpy hfile
  rw [readTuplesUnordered_eq h.fields h.tuples hfile h.counts_some] at hread
  obtain ⟨-, rfl⟩ := Prod.mk.inj (Option.some.inj hread)
  exact hperm

/-- **Every byte of the file is read**, so the counter starts at 0 and the counts are all the
    tuples. -/
theorem counter_eq (hloads : i.Loads m offset_counter) :
    offset_counter.toNat * row_size_bytes i.numfields % 2 ^ 64 = 0 ∧
      (m.all_cores.map (counts m i)).sum = i.ntuples := by
  by_contra hnot
  have hbad : offset_counter.toNat * row_size_bytes i.numfields % 2 ^ 64 ≠ 0 ∨
      (m.all_cores.map (counts m i)).sum < i.ntuples := by
    have := h.total_le
    by_cases h0 : offset_counter.toNat * row_size_bytes i.numfields % 2 ^ 64 = 0
    · right
      by_contra hge
      exact hnot ⟨h0, by omega⟩
    · exact .inl h0
  obtain ⟨j, hj, hunread⟩ := exists_unread h.tuples h.row_pos i.bytes_lt h.total_le hbad
  -- two files that differ in a byte that no core reads
  obtain ⟨zeros, hzeros⟩ : ∃ zeros : List UInt8,
      zeros = replicate (i.ntuples * row_size_bytes i.numfields) 0 := ⟨_, rfl⟩
  have hlen : zeros.length = i.ntuples * row_size_bytes i.numfields := by
    rw [hzeros, length_replicate]
  have hlen' : (zeros.set j 1).length = i.ntuples * row_size_bytes i.numfields := by
    rw [length_set, hlen]
  have hsame : on_cores m move i.sizeof i.numfields (zeros.set j 1) ⟨((0 : ℕ) : ℤ)⟩ (counts m i)
      m.all_cores offset_counter.toNat (fun _ _ => 0) =
        on_cores m move i.sizeof i.numfields zeros ⟨((0 : ℕ) : ℤ)⟩ (counts m i) m.all_cores
          offset_counter.toNat fun _ _ => 0 := by
    apply on_cores_congr nodup_all_cores offset_counter.isLt
    intro before c after heq
    have hbytes := h.bytes_lt (show c ∈ m.all_cores from heq ▸ by simp)
    have hread := @read_file_set zeros _ _ j 1 (hunread before c after heq)
    generalize counts m i c = count at hbytes hread ⊢
    unfold load_part
    simp only [← Nat.cast_mul]
    rw [bmod_of_lt hbytes, Int.toNat_natCast, hread]
  -- the byte is in a row of the one file, and in none of the other
  have hperm := h.loaded hloads (fun _ _ => 0) copies_move hlen'
  rw [hsame] at hperm
  have hrows := hperm.symm.trans (h.loaded hloads (fun _ _ => 0) copies_move hlen)
  obtain ⟨r, hr⟩ : ∃ r, r = j / row_size_bytes i.numfields := ⟨_, rfl⟩
  have hrn : r < i.ntuples := by
    rw [hr]
    exact Nat.div_lt_of_lt_mul (by rwa [mul_comm])
  have hrow : row i.numfields (zeros.set j 1) r ∈ rows i.numfields zeros i.ntuples :=
    hrows.mem_iff.mp (mem_map.mpr ⟨r, mem_range.mpr hrn, rfl⟩)
  have hone : (1 : UInt8) ∈ row i.numfields (zeros.set j 1) r := by
    have hget : (row i.numfields (zeros.set j 1) r)[j % row_size_bytes i.numfields]? = some 1 := by
      rw [row, getElem?_take, if_pos (Nat.mod_lt _ h.row_pos), getElem?_drop, hr,
        Nat.div_add_mod', getElem?_set_self (by omega)]
    exact mem_of_getElem? hget
  exact one_notMem_rows hzeros hrow hone

theorem core_memory (hloads : i.Loads m offset_counter) (memcpy : CopyOp UInt8) (file : List UInt8)
    (mem : Memory) {c : ℕ} (hc : c < m.cores) :
    ∃ S, S + counts m i (c : ℕ) ≤ i.ntuples ∧ ∀ packed : ℤ → UInt8,
      packed = store (mem (c : ℕ)) m.global_memory_chunk_base (read_file file
        (S * row_size_bytes i.numfields : ℕ) (counts m i (c : ℕ) * row_size_bytes i.numfields)) →
      on_cores m memcpy i.sizeof i.numfields file ⟨((0 : ℕ) : ℤ)⟩ (counts m i) m.all_cores
          offset_counter.toNat mem (c : ℕ) =
        if row_size_bytes i.numfields < i.sizeof then
          inflate memcpy m.global_memory_chunk_base (row_size_bytes i.numfields) i.sizeof
            (counts m i (c : ℕ)) packed
        else packed := by
  obtain ⟨hcounter, htotal⟩ := h.counter_eq hloads
  have hcore : ((c : ℕ) : ℤ) ∈ m.all_cores := mem_map.mpr ⟨c, mem_range.mpr hc, rfl⟩
  obtain ⟨before, after, hsplit⟩ := append_of_mem hcore
  have hpart : (before.map (counts m i)).sum + counts m i (c : ℕ) ≤ i.ntuples := by
    rw [← htotal, hsplit, map_append, sum_append, map_cons, sum_cons]
    omega
  refine ⟨_, hpart, ?_⟩
  rintro packed rfl
  have hown := @on_cores_eq m memcpy i.sizeof i.numfields file ⟨((0 : ℕ) : ℤ)⟩ (counts m i) before
    after ((c : ℕ) : ℤ) (hsplit ▸ nodup_all_cores) offset_counter.toNat mem
  rw [Nat.mod_eq_of_lt offset_counter.isLt, ← hsplit] at hown
  have hinside := Nat.mul_le_mul_right (row_size_bytes i.numfields) hpart
  rw [add_mul] at hinside
  have hbytes := i.bytes_lt
  have hn := i.ntuples_lt h.sizeof_pos
  have hlocal : (⟨((0 : ℕ) : ℤ)⟩ : GlobalAddress).localize m i.sizeof ((c : ℕ) : ℤ) =
      m.global_memory_chunk_base := by
    rw [localize_core, lowest_zero, Nat.cast_zero, zero_add]
  have hlen : counts m i (c : ℕ) * row_size_bytes i.numfields < 2 ^ 63 := by omega
  have hcount : counts m i (c : ℕ) < 2 ^ 63 := by omega
  have hpos : Int.bmod ((offset_counter.toNat + (before.map (counts m i)).sum) % 2 ^ 64 *
      row_size_bytes i.numfields : ℕ) (2 ^ 64) =
        ((before.map (counts m i)).sum * row_size_bytes i.numfields : ℕ) := by
    rw [position_eq, hcounter, zero_add, bmod_of_lt (by omega)]
  rw [hown, load_part_eq hpos hlen hcount, hlocal]

/-- **The array is one that `localize` can divide.** -/
theorem suits (hloads : i.Loads m offset_counter) : Suits m.cores i.sizeof i.ntuples := by
  by_contra hnot
  obtain ⟨hN, hnot⟩ := not_or.mp hnot
  obtain ⟨hsize, hlong⟩ := not_or.mp hnot
  have hN : 2 ≤ m.cores := by
    have := m.cores_pos
    omega
  -- no block has been counted as if it were full
  have hend : owner 64 m.cores (i.ntuples * i.sizeof) = 0 := by
    have hsum := h.total
    rw [(h.counter_eq hloads).2] at hsum
    have hroom : room i.sizeof < 64 := by
      apply lt_of_le_of_ne (Nat.div_mul_le_self 64 _)
      intro heq
      exact hsize (Dvd.intro_left _ heq)
    rcases Nat.mul_eq_zero.mp (add_left_cancel (hsum.trans (add_zero _).symm)) with h0 | h0
    · omega
    · exact h0
  obtain ⟨j, hj, hbad⟩ := exists_not_good hN h.sizeof_pos (by omega) hsize hend h.whole
  apply hbad
  have hlen : (marked i.ntuples (row_size_bytes i.numfields)).length =
      i.ntuples * row_size_bytes i.numfields := by
    simp [marked]
  have hperm := h.loaded hloads (fun _ _ => 1) copies_move hlen
  obtain ⟨c, hc⟩ : ∃ c, c = owner 64 m.cores (j * i.sizeof) := ⟨_, rfl⟩
  have hcN : c < m.cores := hc ▸ owner_lt m.cores_pos _
  obtain ⟨S, hS, hmem⟩ := h.core_memory hloads move (marked i.ntuples (row_size_bytes i.numfields))
    (fun _ _ => 1) hcN
  generalize on_cores m move i.sizeof i.numfields _ _ (counts m i) m.all_cores
    offset_counter.toNat _ = mem' at hperm hmem
  -- the object shows a marked row
  have hobject : load (mem' c) ((offset 64 m.cores (j * i.sizeof) : ℕ) +
      m.global_memory_chunk_base) (row_size_bytes i.numfields) =
        (range (row_size_bytes i.numfields)).map fun q => if q = 0 then 0 else 1 := by
    have hin : load (mem' c) ((offset 64 m.cores (j * i.sizeof) : ℕ) +
        m.global_memory_chunk_base) (row_size_bytes i.numfields) ∈
          tuple_fields m i.sizeof i.numfields ⟨((0 : ℕ) : ℤ)⟩ i.ntuples mem' := by
      refine mem_map.mpr ⟨j, mem_range.mpr hj, ?_⟩
      rw [element_natCast, core_natCast, pointer_natCast,
        zero_add, ← hc]
    obtain ⟨r, hr, heq⟩ := mem_map.mp (hperm.mem_iff.mp hin)
    rw [← heq, row_marked (mem_range.mp hr)]
  have hgood := good_of_mark h.row_pos i.row_le hS rfl (hmem _ rfl)
    (u := offset 64 m.cores (j * i.sizeof)) ?_
  · rw [← (h.count_eq hcN).2] at hgood
    rw [Good, ← hc]
    exact hgood
  · intro q hq
    have hbyte := map_inj_left.mp hobject q (mem_range.mpr hq)
    rw [← hbyte]
    congr 1
    push_cast
    ring

/-- **No copy is asked for that may destroy a row.** -/
theorem room_ok (hloads : i.Loads m offset_counter) :
    row_size_bytes i.numfields = i.sizeof ∨ 2 * row_size_bytes i.numfields ≤ i.sizeof ∨
      i.ntuples = 1 ∨ (i.sizeof = 64 ∧ i.ntuples ≤ m.cores) := by
  by_contra hnot
  simp only [not_or, not_and, not_le] at hnot
  obtain ⟨hne, hroom, hone, hblocks⟩ := hnot
  have hlt : row_size_bytes i.numfields < i.sizeof := lt_of_le_of_ne i.row_le hne
  have hn := h.tuples
  have hpos := h.sizeof_pos
  have hsuits := h.suits hloads
  have hsteps := LocalParts.steps hsuits hn (granted_zero _)
  have hntuples := i.ntuples_lt hpos
  have howned : ∀ c < m.cores, counts m i (c : ℕ) = (owned m.cores i.sizeof 0 i.ntuples c).length := by
    intro c hc
    rw [counts, local_count_of_steps hpos hsteps (by omega) hc]
    rfl
  -- the first core has two objects
  have htwo : 2 ≤ counts m i ((0 : ℕ) : ℤ) := by
    rw [howned 0 m.cores_pos]
    have hfirst : owner 64 m.cores (0 + 0 * i.sizeof) = 0 := by
      simp [owner]
    by_cases h64 : i.sizeof = 64
    · refine two_le_length_owned m.cores_pos (hblocks h64) hfirst ?_
      rw [h64, owner, zero_add, Nat.mul_div_cancel _ (by norm_num), Nat.mod_self]
    · refine two_le_length_owned Nat.one_pos (show 1 < i.ntuples by omega) hfirst ?_
      rw [owner, zero_add, one_mul]
      rcases hsuits with h1 | hdvd | hsmall
      · rw [h1, Nat.mod_one]
      · have := Nat.le_of_dvd (by norm_num) hdvd
        rw [Nat.div_eq_of_lt (by omega), Nat.zero_mod]
      · have := Nat.mul_le_mul_right i.sizeof (show 1 ≤ i.ntuples from hn)
        rw [Nat.div_eq_of_lt (by omega), Nat.zero_mod]
  obtain ⟨zeros, hzeros⟩ : ∃ zeros : List UInt8,
      zeros = replicate (i.ntuples * row_size_bytes i.numfields) 0 := ⟨_, rfl⟩
  have hlen : zeros.length = i.ntuples * row_size_bytes i.numfields := by
    rw [hzeros, length_replicate]
  have hperm := h.loaded hloads (fun _ _ => 0) (copies_clobber 1) hlen
  obtain ⟨S, -, hmem⟩ := h.core_memory hloads (clobber 1) zeros (fun _ _ => 0) m.cores_pos
  generalize on_cores m (clobber 1) i.sizeof i.numfields _ _ (counts m i) m.all_cores
    offset_counter.toNat _ = mem' at hperm hmem
  -- the second slot of that core is clobbered, and it is one of the tuples
  have hslot : load (mem' ((0 : ℕ) : ℤ)) (m.global_memory_chunk_base + i.sizeof)
      (row_size_bytes i.numfields) = replicate (row_size_bytes i.numfields) 1 := by
    rw [hmem _ rfl, if_pos hlt]
    exact load_inflate_clobber hlt (by omega) htwo _
  have htuples := (tuple_fields_perm i.numfields hsteps howned (List.Perm.refl _) mem').trans hperm
  have hin : replicate (row_size_bytes i.numfields) (1 : UInt8) ∈
      rows i.numfields zeros i.ntuples := by
    apply htuples.mem_iff.mp
    apply mem_flatMap.mpr
    refine ⟨((0 : ℕ) : ℤ), mem_map.mpr ⟨0, mem_range.mpr m.cores_pos, rfl⟩,
      mem_map.mpr ⟨1, mem_range.mpr htwo, ?_⟩⟩
    rw [one_mul, localize_core, lowest_zero, Nat.cast_zero, zero_add]
    exact hslot
  exact one_notMem_rows hzeros hin (mem_replicate.mpr ⟨h.row_pos.ne', rfl⟩)

theorem safe (hloads : i.Loads m offset_counter) : i.Safe m offset_counter where
  fields := h.fields
  tuples := h.tuples
  counter := Nat.dvd_of_mod_eq_zero (h.counter_eq hloads).1
  suits := h.suits hloads
  room := h.room_ok hloads

end AtZero

end loads

/-- **Loading a relation.**  The tuples are always the rows of the file if and only if it is
    safe. -/
theorem readTuplesUnordered_iff (m : Machine) (i : Input) (offset_counter : BitVec 64) :
    i.Loads m offset_counter ↔ i.Safe m offset_counter :=
  ⟨fun h => h.atZero.safe h, fun h => h.loads⟩

/-- One row of one field, read with a counter that starts at 1: nothing is read. -/
theorem readTuplesUnordered_skips :
    ¬ Input.Loads ⟨1, by decide, 0⟩ ⟨1, 8, 1, by decide, by decide⟩ 1 := by
  intro h
  have hcounter := h.atZero.safe h |>.counter
  exact absurd hcounter (by decide)

end Grappa.RelationIo
