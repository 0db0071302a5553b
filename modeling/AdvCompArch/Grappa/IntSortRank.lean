import AdvCompArch.Grappa.BucketSortInvariant
import AdvCompArch.Grappa.IntSort
import AdvCompArch.Lib.CountingRanks
import AdvCompArch.Lib.ForEach

/-! # The loops of `rank`

    One invariant for each loop: what its iterations that are done have done, and what the others
    will.  A bucket has the keys of its range, so that its counts from `bucket_ranks` on are the
    numbers of keys of the whole array that are less (`prefix_sums_key_counts`). -/

namespace Grappa

namespace IntSort

open Function List BucketSort
open Multiset (card card_add coe_add coe_card coe_nil cons_bind mem_add mem_coe mem_cons_of_mem
  mem_cons_self)

open CountingRanks (below)

variable {n : ℕ} {cfg : Config n} {s s' : State n} {rest : Multiset (Item n)} {x : Item n}
  {new : List (Item n)}

/-! ### What the sort relies on -/

/-- The keys are in range, the loops visit all of them, and the library does what it says. -/
structure Sound (cfg : Config n) : Prop where
  two_le : 2 ≤ cfg.nkeys
  nkeys_lt : cfg.nkeys < 2 ^ 47
  buckets_le : cfg.log2buckets ≤ cfg.log2maxkey
  maxkey_le : cfg.log2maxkey ≤ 30
  key_lt : ∀ i < cfg.nkeys, cfg.key_array i < 2 ^ cfg.log2maxkey
  allreduce : ∀ size counts, (∀ c, (counts c).length = size) → ∀ c,
    cfg.allreduce_inplace counts c = (List.range size).map fun b => ∑ c', (counts c').getD b 0

namespace Sound

variable (h : Sound cfg)

include h

theorem nbuckets_lt : cfg.nbuckets < 2 ^ 47 := by
  have hle : 2 ^ cfg.log2buckets ≤ 2 ^ 30 :=
    Nat.pow_le_pow_right (by decide) (h.buckets_le.trans h.maxkey_le)
  show 2 ^ cfg.log2buckets < 2 ^ 47
  omega

theorem forall_nbuckets : BucketSort.forall_count cfg.nbuckets = cfg.nbuckets :=
  forall_count_of_lt h.nbuckets_lt

theorem forall_nkeys : BucketSort.forall_count cfg.nkeys = cfg.nkeys :=
  forall_count_of_lt h.nkeys_lt

theorem bucket_lt {i : ℕ} (hi : i < cfg.nkeys) : cfg.bucket_of (cfg.key_array i) < cfg.nbuckets := by
  show cfg.key_array i >>> cfg.BSHIFT < 2 ^ cfg.log2buckets
  rw [Nat.shiftRight_eq_div_pow]
  apply Nat.div_lt_of_lt_mul
  have hsplit : cfg.BSHIFT + cfg.log2buckets = cfg.log2maxkey := Nat.sub_add_cancel h.buckets_le
  rw [← pow_add, hsplit]
  exact h.key_lt i hi

end Sound

/-! ### Buckets of keys -/

variable (cfg) in
/-- The keys of a bucket. -/
def values (b : ℕ) : List ℕ := cfg.keys.filter fun k => cfg.bucket_of k = b

variable (cfg) in
/-- The sizes of the buckets. -/
def sizes : List ℕ := (List.range cfg.nbuckets).map fun b => (values cfg b).length

@[simp] theorem length_keys : cfg.keys.length = cfg.nkeys := by simp [Config.keys]

@[simp] theorem length_sizes : (sizes cfg).length = cfg.nbuckets := by simp [sizes]

theorem getElem?_sizes {b : ℕ} (hb : b < cfg.nbuckets) :
    (sizes cfg)[b]? = some (values cfg b).length := by
  simp [sizes, hb]

theorem mem_values {b k : ℕ} : k ∈ values cfg b ↔ k ∈ cfg.keys ∧ cfg.bucket_of k = b := by
  simp [values]

/-- The bucket of a key is the range that it is in. -/
theorem bucket_of_eq {b k : ℕ} :
    cfg.bucket_of k = b ↔ cfg.min_key b ≤ k ∧ k - cfg.min_key b < cfg.bucket_range := by
  have hpos : 0 < cfg.bucket_range := Nat.two_pow_pos _
  have hdiv : cfg.bucket_of k = k / cfg.bucket_range := Nat.shiftRight_eq_div_pow _ _
  have hsucc : cfg.bucket_range * (b + 1) = cfg.min_key b + cfg.bucket_range := Nat.mul_succ _ _
  rw [hdiv, Nat.div_eq_iff hpos, mul_comm b]
  show cfg.min_key b ≤ k ∧ k ≤ cfg.min_key b + cfg.bucket_range - 1 ↔ _
  omega

theorem bucket_of_lt_iff {b k : ℕ} : cfg.bucket_of k < b ↔ k < cfg.min_key b := by
  have hpos : 0 < cfg.bucket_range := Nat.two_pow_pos _
  have hdiv : cfg.bucket_of k = k / cfg.bucket_range := Nat.shiftRight_eq_div_pow _ _
  rw [hdiv, Nat.div_lt_iff_lt_mul hpos, mul_comm]
  rfl

theorem shiftLeft_eq_min_key (b : ℕ) : b <<< cfg.BSHIFT = cfg.min_key b := by
  rw [Nat.shiftLeft_eq, mul_comm]
  rfl

theorem sum_take_sizes {b : ℕ} (hb : b ≤ cfg.nbuckets) :
    ((sizes cfg).take b).sum = below cfg.keys (cfg.min_key b) := by
  have hbelow : below cfg.keys (cfg.min_key b) = cfg.keys.countP fun k => cfg.bucket_of k < b :=
    countP_congr fun k _ => by simp [bucket_of_lt_iff]
  rw [hbelow, sizes, ← map_take, take_range, min_eq_left hb]
  clear hb hbelow
  induction b with
  | zero => simp
  | succ b ih =>
    rw [range_succ, map_append, sum_append, ih, map_singleton,
      sum_singleton, values, ← countP_eq_length_filter]
    generalize cfg.keys = keys
    induction keys with
    | nil => rfl
    | cons k keys ih =>
      rw [countP_cons, countP_cons, countP_cons, ← ih]
      simp only [decide_eq_true_eq]
      split_ifs <;> omega

/-! ### Counting the keys of a bucket -/

theorem count_keys_eq {min_key : ℕ} {key_ranks b_buf : List ℕ}
    (hrange : ∀ v ∈ b_buf, min_key ≤ v ∧ v - min_key < key_ranks.length) :
    count_keys min_key key_ranks b_buf =
      some (key_ranks.mapIdx fun j x => x + b_buf.count (min_key + j)) := by
  induction b_buf generalizing key_ranks with
  | nil =>
    rw [count_keys]
    congr 1
    apply ext_getElem (by simp)
    intro j _ _
    simp
  | cons v b_buf ih =>
    obtain ⟨hle, hlt⟩ := hrange v (by simp)
    have hrest : ∀ w ∈ b_buf, min_key ≤ w ∧
        w - min_key < (key_ranks.modify (v - min_key) (· + 1)).length := by
      intro w hw
      rw [length_modify]
      exact hrange w (by simp [hw])
    rw [count_keys, if_pos ⟨hle, hlt⟩, ih hrest]
    congr 1
    apply ext_getElem (by simp)
    intro j hj _
    simp only [getElem_mapIdx, getElem_modify, count_cons, beq_iff_eq]
    by_cases hv : v - min_key = j
    · have heq : v = min_key + j := by omega
      simp [heq]
      omega
    · have hne : v ≠ min_key + j := by omega
      simp [hv, hne]

variable (cfg) in
/-- The numbers of keys of the whole array that are less than each key of a bucket. -/
def ranks (b : ℕ) : List ℕ :=
  (List.range cfg.bucket_range).map fun j => below cfg.keys (cfg.min_key b + j)

/-- The counts of a bucket, added up from `bucket_ranks` on. -/
theorem prefix_sums_key_counts {b : ℕ} {v : List ℕ} (hv : v.Perm (values cfg b)) :
    BucketSort.prefix_sums (below cfg.keys (cfg.min_key b))
      ((List.replicate cfg.bucket_range 0).mapIdx fun j x => x + v.count (cfg.min_key b + j)) =
    ranks cfg b := by
  have hcounts : ((replicate cfg.bucket_range 0).mapIdx fun j x =>
      x + v.count (cfg.min_key b + j)) =
      (range cfg.bucket_range).map fun j => cfg.keys.count (cfg.min_key b + j) := by
    apply ext_getElem (by simp)
    intro j hj _
    have hlt : j < cfg.bucket_range := by simpa using hj
    have hmem : cfg.bucket_of (cfg.min_key b + j) = b := bucket_of_eq.mpr ⟨by omega, by omega⟩
    simp only [getElem_mapIdx, getElem_replicate, getElem_map, getElem_range,
      zero_add, hv.count_eq, values]
    exact count_filter (by simpa using hmem)
  rw [hcounts]
  apply ext_getElem?
  intro j
  by_cases hj : j < cfg.bucket_range
  · rw [getElem?_prefix_sums (by simpa using hj), ranks, getElem?_map,
      getElem?_range hj, Option.map_some, CountingRanks.below_add, ← map_take,
      take_range, min_eq_left hj.le]
  · rw [getElem?_eq_none, getElem?_eq_none]
    · simpa [ranks] using hj
    · rw [length_prefix_sums]
      simpa using hj

/-! ### The loops -/

/-- The vectors have at most the length that they get. -/
structure Fits (cfg : Config n) (s : State n) : Prop where
  counts : ∀ c, (s.counts c)._storage.length ≤ cfg.nbuckets
  bucket_ranks : ∀ c, (s.bucket_ranks c)._storage.length ≤ cfg.nbuckets

/-- A vector has been resized. -/
def LocalVector.Sized (v : LocalVector) (size : ℕ) : Prop := v._storage.length = size ∧ v._size = size

/-- The counts are added up, and the offsets of the buckets are there. -/
structure Summed (cfg : Config n) (s : State n) : Prop where
  counts : ∀ c, s.counts c = ⟨sizes cfg, cfg.nbuckets⟩
  bucket_ranks : ∀ c, s.bucket_ranks c = ⟨BucketSort.prefix_sums 0 (sizes cfg), cfg.nbuckets⟩

/-- The buckets have their keys. -/
structure Filled (cfg : Config n) (s : State n) : Prop where
  maxelems : ∀ b < cfg.nbuckets, (s.bucketlist b).maxelems = (values cfg b).length
  perm : ∀ b < cfg.nbuckets, (s.bucketlist b).v.Perm (values cfg b)

/-- The buckets are constructed. -/
structure Construct (cfg : Config n) (s : State n) (pool : Multiset (Item n)) : Prop where
  fits : Fits cfg s
  loop : Phased.ForEach (· < cfg.nbuckets) Item.construct (fun _ => True) pool

/-- The vectors are set up. -/
structure Setup (cfg : Config n) (s : State n) (pool : Multiset (Item n)) : Prop where
  fits : Fits cfg s
  loop : Phased.ForEach (fun _ => True) Item.setup (fun c =>
    s.counts c = ⟨List.replicate cfg.nbuckets 0, cfg.nbuckets⟩ ∧
      (s.bucket_ranks c).Sized cfg.nbuckets) pool

/-- What an iteration of the histogram adds to a count. -/
def Item.adds (cfg : Config n) (c : Fin (n + 1)) (b : ℕ) : Item n → ℕ
  | .histogram i => if cfg.key_core i = c ∧ cfg.bucket_of (cfg.key_array i) = b then 1 else 0
  | _ => 0

/-- The keys are counted. -/
structure Histogram (cfg : Config n) (s : State n) (pool : Multiset (Item n)) : Prop where
  items : ∀ x ∈ pool, ∃ i < cfg.nkeys, x = .histogram i
  sized : ∀ c, (s.counts c).Sized cfg.nbuckets ∧ (s.bucket_ranks c).Sized cfg.nbuckets
  counts : ∀ c, ∀ b < cfg.nbuckets,
    (s.counts c)._storage.getD b 0 + (pool.map (Item.adds cfg c b)).sum =
      ((List.range cfg.nkeys).map fun i => Item.adds cfg c b (.histogram i)).sum

/-- Each core computes the offsets of the buckets. -/
structure Offsets (cfg : Config n) (s : State n) (pool : Multiset (Item n)) : Prop where
  counts : ∀ c, s.counts c = ⟨sizes cfg, cfg.nbuckets⟩
  sized : ∀ c, (s.bucket_ranks c).Sized cfg.nbuckets
  loop : Phased.ForEach (fun _ => True) Item.offsets (fun c =>
    s.bucket_ranks c = ⟨BucketSort.prefix_sums 0 (sizes cfg), cfg.nbuckets⟩) pool

/-- The buckets are reserved. -/
structure Reserve (cfg : Config n) (s : State n) (pool : Multiset (Item n)) : Prop where
  summed : Summed cfg s
  loop : Phased.ForEach (· < cfg.nbuckets) Item.reserve (fun b =>
    (s.bucketlist b).v = [] ∧ (s.bucketlist b).maxelems = (values cfg b).length) pool

/-- What an iteration or a delegate brings to a bucket. -/
def Item.brings (cfg : Config n) (b : ℕ) : Item n → Multiset ℕ
  | .scatter i => if cfg.bucket_of (cfg.key_array i) = b then {cfg.key_array i} else 0
  | .append b' v => if b' = b then {v} else 0
  | _ => 0

/-- The keys go to their buckets. -/
structure Scatter (cfg : Config n) (s : State n) (pool : Multiset (Item n)) : Prop where
  summed : Summed cfg s
  items : ∀ x ∈ pool, (∃ i < cfg.nkeys, x = .scatter i) ∨ ∃ b v, b < cfg.nbuckets ∧ x = .append b v
  maxelems : ∀ b < cfg.nbuckets, (s.bucketlist b).maxelems = (values cfg b).length
  buckets : ∀ b < cfg.nbuckets,
    ((s.bucketlist b).v : Multiset ℕ) + pool.bind (Item.brings cfg b) = values cfg b

/-- The keys of each bucket are ranked. -/
structure LocalRank (cfg : Config n) (s : State n) (pool : Multiset (Item n)) : Prop where
  summed : Summed cfg s
  filled : Filled cfg s
  loop : Phased.ForEach (· < cfg.nbuckets) Item.local_rank (fun b =>
    (s.bucketlist b).v ≠ [] → (s.bucketlist b).key_ranks = ranks cfg b) pool

/-! ### Their iterations -/

theorem LocalVector.resize_sized {v : LocalVector} {size : ℕ} (memory : ℕ → ℕ)
    (h : v._storage.length ≤ size) : (v.resize memory size).Sized size := by
  refine ⟨?_, rfl⟩
  show (v.reserve memory size)._storage.length = size
  unfold LocalVector.reserve
  split
  · simp
  · omega

theorem Filled.setBucket (h : Filled cfg s) {b : ℕ} {bucket : Bucket}
    (hv : bucket.v = (s.bucketlist b).v) (hmax : bucket.maxelems = (s.bucketlist b).maxelems) :
    Filled cfg (s.setBucket b bucket) := by
  refine ⟨fun b' hb' => ?_, fun b' hb' => ?_⟩
  · by_cases heq : b' = b
    · subst heq
      simp only [State.setBucket, update_self, hmax]
      exact h.maxelems b' hb'
    · simp only [State.setBucket, update_of_ne heq]
      exact h.maxelems b' hb'
  · by_cases heq : b' = b
    · subst heq
      simp only [State.setBucket, update_self, hv]
      exact h.perm b' hb'
    · simp only [State.setBucket, update_of_ne heq]
      exact h.perm b' hb'

theorem Summed.fits (h : Summed cfg s) : Fits cfg s where
  counts := fun c => by simp [h.counts]
  bucket_ranks := fun c => by simp [h.bucket_ranks, length_prefix_sums]

theorem Construct.exec (h : Construct cfg s (x ::ₘ rest)) (hx : x.exec cfg s = (s', new)) :
    Construct cfg s' (rest + new) ∧ s'.aborted = s.aborted := by
  obtain ⟨id, _, rfl⟩ := h.loop.head
  cases hx
  exact ⟨⟨⟨h.fits.counts, h.fits.bucket_ranks⟩,
    h.loop.exec (fun _ _ => Item.construct.inj) trivial fun _ _ _ => trivial⟩, rfl⟩

theorem Setup.exec (h : Setup cfg s (x ::ₘ rest)) (hx : x.exec cfg s = (s', new)) :
    Setup cfg s' (rest + new) ∧ s'.aborted = s.aborted := by
  obtain ⟨c, _, rfl⟩ := h.loop.head
  cases hx
  obtain ⟨hlength, hsize⟩ := LocalVector.resize_sized cfg.storage (h.fits.counts c)
  have hranks := LocalVector.resize_sized cfg.storage (h.fits.bucket_ranks c)
  refine ⟨⟨⟨fun c' => ?_, fun c' => ?_⟩, h.loop.exec (fun _ _ => Item.setup.inj) ⟨?_, ?_⟩ ?_⟩, rfl⟩
  · by_cases hc : c' = c
    · subst hc
      simp [hlength]
    · simp only [update_of_ne hc]
      exact h.fits.counts c'
  · by_cases hc : c' = c
    · subst hc
      simp only [update_self]
      exact hranks.1.le
    · simp only [update_of_ne hc]
      exact h.fits.bucket_ranks c'
  · simp only [update_self, LocalVector.mk.injEq]
    refine ⟨?_, hsize⟩
    apply ext_getElem (by simp [hlength])
    intro i hi _
    have hlt : i < cfg.nbuckets := by simpa [hlength] using hi
    simp [hlt]
  · simp only [update_self]
    exact hranks
  · intro c' hc hdone
    simp only [update_of_ne hc]
    exact hdone

theorem Histogram.exec (hs : Sound cfg) (h : Histogram cfg s (x ::ₘ rest))
    (hx : x.exec cfg s = (s', new)) : Histogram cfg s' (rest + new) ∧ s'.aborted = s.aborted := by
  obtain ⟨i, hi, rfl⟩ := h.items x (mem_cons_self x rest)
  have hbound : cfg.bucket_of (cfg.key_array i) < (s.counts (cfg.key_core i))._storage.length := by
    rw [(h.sized _).1.1]
    exact hs.bucket_lt hi
  simp only [Item.exec, if_pos hbound] at hx
  cases hx
  rw [coe_nil, add_zero]
  refine ⟨⟨fun y hy => h.items y (mem_cons_of_mem hy), fun c => ⟨?_, (h.sized c).2⟩,
    fun c b hb => ?_⟩, rfl⟩
  · by_cases hc : c = cfg.key_core i
    · subst hc
      simp only [update_self, LocalVector.Sized, length_modify]
      exact (h.sized _).1
    · simp only [update_of_ne hc]
      exact (h.sized c).1
  · have hold := h.counts c b hb
    rw [Multiset.map_cons, Multiset.sum_cons] at hold
    rw [← hold]
    by_cases hc : c = cfg.key_core i
    · subst hc
      have hlength : b < (s.counts (cfg.key_core i))._storage.length := by
        rw [(h.sized _).1.1]
        exact hb
      simp only [update_self, Item.adds, true_and, getD_eq_getElem?_getD,
        getElem?_modify]
      by_cases hbucket : cfg.bucket_of (cfg.key_array i) = b
      · simp [hbucket, hlength]
        omega
      · simp [hbucket]
    · simp only [update_of_ne hc, Item.adds, Ne.symm hc, false_and, if_false]
      omega

theorem Offsets.exec (h : Offsets cfg s (x ::ₘ rest)) (hx : x.exec cfg s = (s', new)) :
    Offsets cfg s' (rest + new) ∧ s'.aborted = s.aborted := by
  obtain ⟨c, _, rfl⟩ := h.loop.head
  have hcounts : (s.counts c)._storage = sizes cfg := by rw [h.counts]
  obtain ⟨hlength, hsize⟩ := h.sized c
  have hbounds : cfg.nbuckets ≤ (sizes cfg).length ∧
      cfg.nbuckets ≤ (s.bucket_ranks c)._storage.length := ⟨length_sizes.ge, hlength.ge⟩
  have htake : (sizes cfg).take cfg.nbuckets = sizes cfg := take_of_length_le length_sizes.le
  have hdrop : (s.bucket_ranks c)._storage.drop cfg.nbuckets = [] :=
    drop_eq_nil_of_le hlength.le
  simp only [Item.exec, hcounts, if_pos hbounds, htake, hdrop, append_nil, hsize] at hx
  cases hx
  refine ⟨⟨h.counts, fun c' => ?_, h.loop.exec (fun _ _ => Item.offsets.inj) ?_ ?_⟩, rfl⟩
  · by_cases hc : c' = c
    · subst hc
      simp [LocalVector.Sized, length_prefix_sums]
    · simp only [update_of_ne hc]
      exact h.sized c'
  · simp only [update_self]
  · intro c' hc hdone
    simp only [update_of_ne hc]
    exact hdone

theorem Reserve.exec (h : Reserve cfg s (x ::ₘ rest)) (hx : x.exec cfg s = (s', new)) :
    Reserve cfg s' (rest + new) ∧ s'.aborted = s.aborted := by
  obtain ⟨id, hid, rfl⟩ := h.loop.head
  simp only [Item.exec, h.summed.counts, getElem?_sizes hid] at hx
  cases hx
  refine ⟨⟨⟨h.summed.counts, h.summed.bucket_ranks⟩,
    h.loop.exec (fun _ _ => Item.reserve.inj) ?_ ?_⟩, rfl⟩
  · simp [State.setBucket]
  · intro b hb hdone
    simp only [State.setBucket, update_of_ne hb]
    exact hdone

theorem Scatter.room (h : Scatter cfg s rest) {b v : ℕ} (hmem : .append b v ∈ rest) :
    (s.bucketlist b).v.length < (s.bucketlist b).maxelems := by
  have hb : b < cfg.nbuckets := by
    rcases h.items _ hmem with ⟨i, _, heq⟩ | ⟨b', v', hb, heq⟩
    · cases heq
    · obtain ⟨rfl, rfl⟩ := Item.append.inj heq
      exact hb
  obtain ⟨others, rfl⟩ := Multiset.exists_cons_of_mem hmem
  have hcard := congrArg card (h.buckets b hb)
  rw [card_add, cons_bind, card_add, coe_card, coe_card,
    ← h.maxelems b hb] at hcard
  simp only [Item.brings, if_true, Multiset.card_singleton] at hcard
  omega

theorem Scatter.exec (hs : Sound cfg) (h : Scatter cfg s (x ::ₘ rest))
    (hx : x.exec cfg s = (s', new)) : Scatter cfg s' (rest + new) ∧ s'.aborted = s.aborted := by
  have hrest : ∀ y ∈ rest, (∃ i < cfg.nkeys, y = .scatter i) ∨
      ∃ b v, b < cfg.nbuckets ∧ y = .append b v :=
    fun y hy => h.items y (mem_cons_of_mem hy)
  rcases h.items x (mem_cons_self x rest) with ⟨i, hi, rfl⟩ | ⟨b, v, hb, rfl⟩
  · have hbound : cfg.bucket_of (cfg.key_array i) < (s.counts (cfg.key_core i))._size := by
      rw [h.summed.counts]
      exact hs.bucket_lt hi
    simp only [Item.exec, if_pos hbound] at hx
    cases hx
    refine ⟨⟨h.summed, fun y hy => ?_, h.maxelems, fun b hb => ?_⟩, rfl⟩
    · rcases Multiset.mem_add.mp hy with hy | hy
      · exact hrest y hy
      · obtain rfl := mem_singleton.mp (Multiset.mem_coe.mp hy)
        exact .inr ⟨_, _, hs.bucket_lt hi, rfl⟩
    · have hold := h.buckets b hb
      rw [cons_bind, add_comm (Item.brings cfg b _)] at hold
      rw [Multiset.add_bind, ← hold]
      simp [Item.brings]
  · have hroom := h.room (mem_cons_self _ rest)
    have hlength : ((s.bucketlist b).append v).v.length ≤ ((s.bucketlist b).append v).maxelems := by
      simp only [Bucket.append, length_append, length_singleton]
      omega
    simp only [Item.exec, if_pos hlength] at hx
    cases hx
    rw [coe_nil, add_zero]
    refine ⟨⟨⟨h.summed.counts, h.summed.bucket_ranks⟩, hrest, fun b' hb' => ?_, fun b' hb' => ?_⟩, rfl⟩
    · by_cases heq : b' = b
      · subst heq
        simp only [State.setBucket, update_self]
        exact h.maxelems b' hb'
      · simp only [State.setBucket, update_of_ne heq]
        exact h.maxelems b' hb'
    · have hold := h.buckets b' hb'
      rw [cons_bind] at hold
      rw [← hold]
      by_cases heq : b' = b
      · subst heq
        simp only [State.setBucket, update_self, Bucket.append, Item.brings, if_true]
        rw [← coe_add, Multiset.coe_singleton, add_assoc]
      · simp only [State.setBucket, update_of_ne heq, Item.brings, if_neg (Ne.symm heq),
          zero_add]

theorem LocalRank.exec (h : LocalRank cfg s (x ::ₘ rest)) (hx : x.exec cfg s = (s', new)) :
    LocalRank cfg s' (rest + new) ∧ s'.aborted = s.aborted := by
  obtain ⟨b, hb, rfl⟩ := h.loop.head
  have hperm := h.filled.perm b hb
  by_cases hempty : (s.bucketlist b).v.length = 0
  · -- an empty bucket keeps the ranks of an earlier iteration
    simp only [Item.exec, if_pos hempty] at hx
    cases hx
    refine ⟨⟨h.summed, h.filled, h.loop.exec (fun _ _ => Item.local_rank.inj) ?_ fun _ _ => id⟩, rfl⟩
    exact fun hne => absurd (length_eq_zero_iff.mp hempty) hne
  · have hmax : b < cfg.nbuckets ∧ 0 < (s.bucketlist b).maxelems := by
      rw [h.filled.maxelems b hb, ← hperm.length_eq]
      exact ⟨hb, Nat.pos_of_ne_zero hempty⟩
    have hrange : ∀ v ∈ (s.bucketlist b).v, cfg.min_key b ≤ v ∧
        v - cfg.min_key b < (replicate cfg.bucket_range 0).length := by
      intro v hv
      rw [length_replicate]
      exact bucket_of_eq.mp (mem_values.mp (hperm.mem_iff.mp hv)).2
    have haccum : (prefix_sums 0 (sizes cfg))[b]? =
        some (below cfg.keys (cfg.min_key b)) := by
      rw [getElem?_prefix_sums (by simpa using hb), sum_take_sizes hb.le, zero_add]
    simp only [Item.exec, if_neg hempty, if_pos hmax, count_keys_eq hrange, h.summed.bucket_ranks,
      haccum, prefix_sums_key_counts hperm] at hx
    cases hx
    refine ⟨⟨⟨h.summed.counts, h.summed.bucket_ranks⟩, h.filled.setBucket rfl rfl,
      h.loop.exec (fun _ _ => Item.local_rank.inj) ?_ ?_⟩, rfl⟩
    · simp [State.setBucket]
    · intro b' hb' hdone
      simp only [State.setBucket, update_of_ne hb']
      exact hdone

end IntSort

end Grappa
