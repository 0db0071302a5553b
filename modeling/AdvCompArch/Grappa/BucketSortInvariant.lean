import AdvCompArch.Grappa.BucketSort
import Mathlib.Algebra.BigOperators.Ring.Finset
import Mathlib.Algebra.Order.BigOperators.Group.Finset

/-! # The loops of the bucket sort

    One invariant for each loop: what its iterations that are done have done, and what the others
    will.  In the loop of the appends it is that the buckets and the keys on their way are the keys
    of each bucket (`Scatter.buckets`), so that every append finds room. -/

namespace Grappa

namespace BucketSort

open Function Multiset Distribute List

variable {n : ℕ} {cfg : Config n} {keys : ℕ → ℕ} {s s' : State n} {rest : Multiset (Item n)}
  {x : Item n} {new : List (Item n)}

/-! ### What the sort relies on -/

/-- The buckets are those of the keys, and the library does what it says. -/
structure Sound (cfg : Config n) (keys : ℕ → ℕ) : Prop where
  nbuckets_pos : 0 < cfg.nbuckets
  nbuckets_le : cfg.nbuckets ≤ 2 ^ 30
  bucket_lt : ∀ i < forall_count cfg.nelems, cfg.bucket_of (keys i) < cfg.nbuckets
  allreduce : ∀ counts, (∀ c, (counts c).length = cfg.nbuckets) → ∀ c,
    cfg.allreduce_inplace counts c =
      (List.range cfg.nbuckets).map fun b => ∑ c', (counts c').getD b 0
  qsort : ∀ l, (cfg.qsort ui64cmp l).Perm l ∧ (cfg.qsort ui64cmp l).Pairwise fun a b => ui64cmp a b ≤ 0

theorem ui64cmp_le {a b : ℕ} : ui64cmp a b ≤ 0 ↔ a ≤ b := by
  unfold ui64cmp
  split
  · omega
  · split <;> omega

theorem forall_count_of_lt {m : ℕ} (h : m < 2 ^ 47) : forall_count m = m := by
  unfold forall_count
  rw [bits48_of_lt (Int.natCast_nonneg m) (by exact_mod_cast h), Int.toNat_natCast]

theorem Sound.forall_nbuckets (h : Sound cfg keys) : forall_count cfg.nbuckets = cfg.nbuckets := by
  have hle := h.nbuckets_le
  exact forall_count_of_lt (by omega)

variable (cfg keys) in
/-- The keys of a bucket. -/
def values (b : ℕ) : List ℕ :=
  ((List.range (forall_count cfg.nelems)).filter fun i => cfg.bucket_of (keys i) = b).map keys

variable (cfg keys) in
/-- The sizes of the buckets. -/
def sizes : List ℕ := (List.range cfg.nbuckets).map fun b => (values cfg keys b).length

/-! ### The loops -/

/-- The vectors are set up. -/
structure Setup (cfg : Config n) (s : State n) (pool : Multiset (Item n)) : Prop where
  items : ∀ x ∈ pool, ∃ c, x = .setup c
  done : ∀ c, s.counts c = List.replicate cfg.nbuckets 0 ∧ (s.offsets c).length = cfg.nbuckets ∨
    .setup c ∈ pool

/-- What an iteration of the histogram adds to a count. -/
def Item.adds (cfg : Config n) (keys : ℕ → ℕ) (c : Fin (n + 1)) (b : ℕ) : Item n → ℕ
  | .histogram i => if cfg.array_core i = c ∧ cfg.bucket_of (keys i) = b then 1 else 0
  | _ => 0

/-- The keys are counted. -/
structure Histogram (cfg : Config n) (keys : ℕ → ℕ) (s : State n) (pool : Multiset (Item n)) :
    Prop where
  items : ∀ x ∈ pool, ∃ i < forall_count cfg.nelems, x = .histogram i
  lengths : ∀ c, (s.counts c).length = cfg.nbuckets ∧ (s.offsets c).length = cfg.nbuckets
  counts : ∀ c, ∀ b < cfg.nbuckets, (s.counts c).getD b 0 + (pool.map (Item.adds cfg keys c b)).sum =
    ((List.range (forall_count cfg.nelems)).map fun i => Item.adds cfg keys c b (.histogram i)).sum

/-- The counts are added up, and each core computes its offsets. -/
structure Offsets (cfg : Config n) (keys : ℕ → ℕ) (s : State n) (pool : Multiset (Item n)) :
    Prop where
  items : ∀ x ∈ pool, ∃ c, x = .offsets c
  counts : ∀ c, s.counts c = sizes cfg keys
  lengths : ∀ c, (s.offsets c).length = cfg.nbuckets
  done : ∀ c, s.offsets c = prefix_sums 0 (sizes cfg keys) ∨ .offsets c ∈ pool

/-- The buckets are reserved. -/
structure Reserve (cfg : Config n) (keys : ℕ → ℕ) (s : State n) (pool : Multiset (Item n)) :
    Prop where
  items : ∀ x ∈ pool, ∃ id < cfg.nbuckets, x = .reserve id
  counts : ∀ c, s.counts c = sizes cfg keys
  offsets : ∀ c, s.offsets c = prefix_sums 0 (sizes cfg keys)
  done : ∀ b < cfg.nbuckets, s.bucketlist b = ⟨[], (values cfg keys b).length⟩ ∨ .reserve b ∈ pool

/-- What an iteration or a delegate brings to a bucket. -/
def Item.brings (cfg : Config n) (keys : ℕ → ℕ) (b : ℕ) : Item n → Multiset ℕ
  | .scatter i => if cfg.bucket_of (keys i) = b then {keys i} else 0
  | .append b' v => if b' = b then {v} else 0
  | _ => 0

/-- The keys go to their buckets. -/
structure Scatter (cfg : Config n) (keys : ℕ → ℕ) (s : State n) (pool : Multiset (Item n)) :
    Prop where
  items : ∀ x ∈ pool, (∃ i < forall_count cfg.nelems, x = .scatter i) ∨
    ∃ b v, b < cfg.nbuckets ∧ x = .append b v
  counts : ∀ c, s.counts c = sizes cfg keys
  offsets : ∀ c, s.offsets c = prefix_sums 0 (sizes cfg keys)
  maxelems : ∀ b < cfg.nbuckets, (s.bucketlist b).maxelems = (values cfg keys b).length
  buckets : ∀ b < cfg.nbuckets, ((s.bucketlist b).v : Multiset ℕ) + pool.bind (Item.brings cfg keys b) =
    values cfg keys b

/-- The buckets are sorted. -/
structure SortBuckets (cfg : Config n) (keys : ℕ → ℕ) (s : State n) (pool : Multiset (Item n)) : Prop where
  items : ∀ x ∈ pool, ∃ b < cfg.nbuckets, x = .sort b
  offsets : ∀ c, s.offsets c = prefix_sums 0 (sizes cfg keys)
  maxelems : ∀ b < cfg.nbuckets, (s.bucketlist b).maxelems = (values cfg keys b).length
  perm : ∀ b < cfg.nbuckets, (s.bucketlist b).v.Perm (values cfg keys b)
  done : ∀ b < cfg.nbuckets, (s.bucketlist b).v.Pairwise (· ≤ ·) ∨ .sort b ∈ pool

/-- The buckets one after the other. -/
def State.sorted (s : State n) (nbuckets : ℕ) : List ℕ :=
  (List.range nbuckets).flatMap fun b => (s.bucketlist b).v

/-- The item will write to the address. -/
def Item.Writes (s : State n) (nbuckets a v : ℕ) : Item n → Prop
  | .write a' v' => a' = a ∧ v' = v
  | .put_back b i => b < nbuckets ∧ ∃ j, i ≤ j ∧ j < (s.bucketlist b).v.length ∧
    a = Distribute.start (fun b => (s.bucketlist b).v) b + j
  | _ => False

/-- The buckets are put back. -/
structure PutBack (cfg : Config n) (keys : ℕ → ℕ) (s : State n) (pool : Multiset (Item n)) :
    Prop where
  items : ∀ x ∈ pool, (∃ b i, b < cfg.nbuckets ∧ x = .put_back b i) ∨
    ∃ a v, x = .write a v ∧ (s.sorted cfg.nbuckets)[a]? = some v
  offsets : ∀ c, s.offsets c = prefix_sums 0 (sizes cfg keys)
  maxelems : ∀ b < cfg.nbuckets, (s.bucketlist b).maxelems = (values cfg keys b).length
  perm : ∀ b < cfg.nbuckets, (s.bucketlist b).v.Perm (values cfg keys b)
  pairwise : ∀ b < cfg.nbuckets, (s.bucketlist b).v.Pairwise (· ≤ ·)
  placed : ∀ a v, (s.sorted cfg.nbuckets)[a]? = some v →
    s.array a = v ∨ ∃ x ∈ pool, x.Writes s cfg.nbuckets a v
  beyond : ∀ a, forall_count cfg.nelems ≤ a → s.array a = keys a

/-- What no item of the first loops changes. -/
structure Frame (s s' : State n) : Prop where
  phase : s'.phase = s.phase
  aborted : s'.aborted = s.aborted
  array : s'.array = s.array

/-! ### Their iterations -/

theorem resize_length {v l : List ℕ} {size : ℕ} (h : resize v size = some l) : l.length = size := by
  unfold resize at h
  split at h
  · cases h
    rw [length_append, length_take, length_replicate]
    omega
  · cases h

theorem resize_ne_none {v : List ℕ} {size : ℕ} (h : size ≤ max_size) : ∃ l, resize v size = some l := by
  unfold resize
  rw [if_pos h]
  exact ⟨_, rfl⟩

/-- What is done or in the pool is so after another item. -/
theorem pending {P : Prop} {y : Item n} (h : P ∨ y ∈ x ::ₘ rest) (hne : y ≠ x) :
    P ∨ y ∈ rest + new :=
  h.imp_right fun hmem => mem_add.mpr (.inl ((mem_cons.mp hmem).resolve_left hne))

theorem Setup.exec (hs : Sound cfg keys) (h : Setup cfg s (x ::ₘ rest)) (hx : x.exec cfg s = (s', new)) :
    Setup cfg s' (rest + new) ∧ Frame s s' := by
  obtain ⟨c, rfl⟩ := h.items x (mem_cons_self x rest)
  have hsize : cfg.nbuckets ≤ max_size := by
    have hle := hs.nbuckets_le
    unfold max_size
    omega
  obtain ⟨zeroed, hzeroed⟩ := resize_ne_none (v := s.counts c) hsize
  obtain ⟨resized, hresized⟩ := resize_ne_none (v := s.offsets c) hsize
  simp only [Item.exec, hzeroed, hresized] at hx
  cases hx
  refine ⟨⟨fun y hy => ?_, fun c' => ?_⟩, ⟨rfl, rfl, rfl⟩⟩
  · rw [coe_nil, add_zero] at hy
    exact h.items y (mem_cons_of_mem hy)
  · by_cases hc : c' = c
    · subst hc
      refine .inl ?_
      simp only [update_self]
      rw [List.map_const', resize_length hzeroed, resize_length hresized]
      exact ⟨rfl, rfl⟩
    · simp only [update_of_ne hc]
      rcases h.done c' with hdone | hmem
      · exact .inl hdone
      · rcases mem_cons.mp hmem with heq | hmem
        · exact absurd (Item.setup.inj heq) hc
        · exact .inr (mem_add.mpr (.inl hmem))

theorem Histogram.exec (hs : Sound cfg keys) (harray : s.array = keys)
    (h : Histogram cfg keys s (x ::ₘ rest)) (hx : x.exec cfg s = (s', new)) :
    Histogram cfg keys s' (rest + new) ∧ Frame s s' := by
  obtain ⟨i, hi, rfl⟩ := h.items x (mem_cons_self x rest)
  have hlt := hs.bucket_lt i hi
  have hbound : cfg.bucket_of (s.array i) < (s.counts (cfg.array_core i)).length := by
    rw [(h.lengths _).1, harray]
    exact hlt
  simp only [Item.exec, if_pos hbound] at hx
  cases hx
  refine ⟨⟨fun y hy => ?_, fun c => ⟨?_, (h.lengths c).2⟩, fun c b hb => ?_⟩, ⟨rfl, rfl, rfl⟩⟩
  · rw [coe_nil, add_zero] at hy
    exact h.items y (mem_cons_of_mem hy)
  · by_cases hc : c = cfg.array_core i
    · subst hc
      simp only [update_self, length_modify]
      exact (h.lengths _).1
    · simp only [update_of_ne hc]
      exact (h.lengths c).1
  · have hold := h.counts c b hb
    rw [Multiset.map_cons, Multiset.sum_cons] at hold
    rw [coe_nil, add_zero, ← hold]
    by_cases hc : c = cfg.array_core i
    · subst hc
      have hlength : b < (s.counts (cfg.array_core i)).length := by
        rw [(h.lengths _).1]
        exact hb
      simp only [update_self, Item.adds, true_and, getD_eq_getElem?_getD,
        getElem?_modify, harray]
      by_cases hbucket : cfg.bucket_of (keys i) = b
      · simp [hbucket, hlength]
        omega
      · simp [hbucket]
    · simp only [update_of_ne hc, Item.adds, Ne.symm hc, false_and, if_false]
      omega

theorem getElem?_prefix_sums {l : List ℕ} {offset b : ℕ} (hb : b < l.length) :
    (prefix_sums offset l)[b]? = some (offset + (l.take b).sum) := by
  induction l generalizing offset b with
  | nil => cases hb
  | cons count l ih =>
    cases b with
    | zero => simp [prefix_sums]
    | succ b =>
      have hlt : b < l.length := by simpa using hb
      rw [prefix_sums, List.getElem?_cons_succ, ih hlt, List.take_succ_cons, List.sum_cons, add_assoc]

theorem length_prefix_sums (l : List ℕ) (offset : ℕ) : (prefix_sums offset l).length = l.length := by
  induction l generalizing offset with
  | nil => rfl
  | cons count l ih => simp [prefix_sums, ih]

theorem length_sizes : (sizes cfg keys).length = cfg.nbuckets := by
  simp [sizes]

theorem getElem?_sizes {b : ℕ} (hb : b < cfg.nbuckets) :
    (sizes cfg keys)[b]? = some (values cfg keys b).length := by
  simp [sizes, hb]

theorem Offsets.exec (hs : Sound cfg keys) (h : Offsets cfg keys s (x ::ₘ rest))
    (hx : x.exec cfg s = (s', new)) : Offsets cfg keys s' (rest + new) ∧ Frame s s' := by
  obtain ⟨c, rfl⟩ := h.items x (mem_cons_self x rest)
  have hpos := hs.nbuckets_pos
  have hlengths : 0 < (s.offsets c).length ∧ (s.offsets c).length = (s.counts c).length := by
    rw [h.lengths, h.counts, length_sizes]
    exact ⟨hpos, rfl⟩
  simp only [Item.exec, if_pos hlengths] at hx
  cases hx
  refine ⟨⟨fun y hy => ?_, h.counts, fun c' => ?_, fun c' => ?_⟩, ⟨rfl, rfl, rfl⟩⟩
  · rw [coe_nil, add_zero] at hy
    exact h.items y (mem_cons_of_mem hy)
  · by_cases hc : c' = c
    · subst hc
      simp only [update_self]
      rw [length_prefix_sums, h.counts, length_sizes]
    · simp only [update_of_ne hc]
      exact h.lengths c'
  · by_cases hc : c' = c
    · subst hc
      simp only [update_self]
      rw [h.counts]
      exact .inl rfl
    · simp only [update_of_ne hc]
      rcases h.done c' with hdone | hmem
      · exact .inl hdone
      · rcases mem_cons.mp hmem with heq | hmem
        · exact absurd (Item.offsets.inj heq) hc
        · exact .inr (mem_add.mpr (.inl hmem))

theorem Reserve.exec (h : Reserve cfg keys s (x ::ₘ rest)) (hx : x.exec cfg s = (s', new)) :
    Reserve cfg keys s' (rest + new) ∧ Frame s s' := by
  obtain ⟨id, hid, rfl⟩ := h.items x (mem_cons_self x rest)
  simp only [Item.exec, h.counts, getElem?_sizes hid] at hx
  cases hx
  refine ⟨⟨fun y hy => ?_, h.counts, h.offsets, fun b hb => ?_⟩, ⟨rfl, rfl, rfl⟩⟩
  · rw [coe_nil, add_zero] at hy
    exact h.items y (mem_cons_of_mem hy)
  · by_cases heq : b = id
    · subst heq
      exact .inl (by simp [State.setBucket])
    · simp only [State.setBucket, update_of_ne heq]
      exact pending (h.done b hb) fun hitem => heq (Item.reserve.inj hitem)

theorem Scatter.room (h : Scatter cfg keys s rest) {b v : ℕ} (hmem : .append b v ∈ rest) :
    (s.bucketlist b).v.length < (s.bucketlist b).maxelems := by
  have hb : b < cfg.nbuckets := by
    rcases h.items _ hmem with ⟨i, _, heq⟩ | ⟨b', v', hb, heq⟩
    · cases heq
    · obtain ⟨rfl, rfl⟩ := Item.append.inj heq
      exact hb
  obtain ⟨others, rfl⟩ := exists_cons_of_mem hmem
  have hcard := congrArg card (h.buckets b hb)
  rw [card_add, cons_bind, card_add, coe_card, coe_card,
    ← h.maxelems b hb] at hcard
  simp only [Item.brings, if_true, card_singleton] at hcard
  omega

theorem Scatter.exec (hs : Sound cfg keys) (harray : s.array = keys)
    (h : Scatter cfg keys s (x ::ₘ rest)) (hx : x.exec cfg s = (s', new)) :
    Scatter cfg keys s' (rest + new) ∧ Frame s s' := by
  have hrest : ∀ y ∈ rest, (∃ i < forall_count cfg.nelems, y = .scatter i) ∨
      ∃ b v, b < cfg.nbuckets ∧ y = .append b v :=
    fun y hy => h.items y (mem_cons_of_mem hy)
  rcases h.items x (mem_cons_self x rest) with ⟨i, hi, rfl⟩ | ⟨b, v, hb, rfl⟩
  · have hbound : cfg.bucket_of (s.array i) < (s.counts (cfg.array_core i)).length := by
      rw [h.counts, length_sizes, harray]
      exact hs.bucket_lt i hi
    simp only [Item.exec, if_pos hbound] at hx
    cases hx
    refine ⟨⟨fun y hy => ?_, h.counts, h.offsets, h.maxelems, fun b hb => ?_⟩, ⟨rfl, rfl, rfl⟩⟩
    · rcases mem_add.mp hy with hy | hy
      · exact hrest y hy
      · obtain rfl := List.mem_singleton.mp hy
        rw [harray]
        exact .inr ⟨_, _, hs.bucket_lt i hi, rfl⟩
    · have hold := h.buckets b hb
      rw [cons_bind, add_comm (Item.brings cfg keys b _)] at hold
      rw [add_bind, ← hold, harray]
      simp [Item.brings]
  · have hroom := h.room (mem_cons_self _ rest)
    have hlength : ((s.bucketlist b).append v).v.length ≤ ((s.bucketlist b).append v).maxelems := by
      simp only [Bucket.append, length_append, length_singleton]
      omega
    simp only [Item.exec, if_pos hlength] at hx
    cases hx
    refine ⟨⟨fun y hy => ?_, h.counts, h.offsets, fun b' hb' => ?_, fun b' hb' => ?_⟩, ⟨rfl, rfl, rfl⟩⟩
    · rw [coe_nil, add_zero] at hy
      exact hrest y hy
    · by_cases heq : b' = b
      · subst heq
        simp only [State.setBucket, update_self]
        exact h.maxelems b' hb'
      · simp only [State.setBucket, update_of_ne heq]
        exact h.maxelems b' hb'
    · have hold := h.buckets b' hb'
      rw [cons_bind] at hold
      rw [coe_nil, add_zero, ← hold]
      by_cases heq : b' = b
      · subst heq
        simp only [State.setBucket, update_self, Bucket.append, Item.brings, if_true]
        rw [← coe_add, coe_singleton, add_assoc]
      · simp only [State.setBucket, update_of_ne heq, Item.brings, if_neg (Ne.symm heq),
          zero_add]

theorem SortBuckets.exec (hs : Sound cfg keys) (h : SortBuckets cfg keys s (x ::ₘ rest))
    (hx : x.exec cfg s = (s', new)) : SortBuckets cfg keys s' (rest + new) ∧ Frame s s' := by
  obtain ⟨b, hb, rfl⟩ := h.items x (mem_cons_self x rest)
  have hrest : ∀ y ∈ rest + ([] : List (Item n)), ∃ b < cfg.nbuckets, y = .sort b := by
    intro y hy
    rw [coe_nil, add_zero] at hy
    exact h.items y (mem_cons_of_mem hy)
  have hothers : ∀ b' < cfg.nbuckets, b' ≠ b →
      (s.bucketlist b').v.Pairwise (· ≤ ·) ∨ .sort b' ∈ rest + ([] : List (Item n)) := by
    intro b' hb' hne
    rcases h.done b' hb' with hdone | hmem
    · exact .inl hdone
    · rcases mem_cons.mp hmem with hitem | hmem
      · exact absurd (Item.sort.inj hitem) hne
      · exact .inr (mem_add.mpr (.inl hmem))
  by_cases hempty : (s.bucketlist b).v.length = 0
  · simp only [Item.exec, if_pos hempty] at hx
    cases hx
    refine ⟨⟨hrest, h.offsets, h.maxelems, h.perm, fun b' hb' => ?_⟩, ⟨rfl, rfl, rfl⟩⟩
    by_cases heq : b' = b
    · subst heq
      rw [length_eq_zero_iff.mp hempty]
      exact .inl List.Pairwise.nil
    · exact hothers b' hb' heq
  · have hmax : 0 < (s.bucketlist b).maxelems := by
      rw [h.maxelems b hb, ← (h.perm b hb).length_eq]
      omega
    simp only [Item.exec, if_neg hempty, if_pos hmax] at hx
    cases hx
    obtain ⟨hperm, hsorted⟩ := hs.qsort (s.bucketlist b).v
    refine ⟨⟨hrest, h.offsets, fun b' hb' => ?_, fun b' hb' => ?_, fun b' hb' => ?_⟩, ⟨rfl, rfl, rfl⟩⟩
    · by_cases heq : b' = b
      · subst heq
        simp only [State.setBucket, update_self]
        exact h.maxelems b' hb'
      · simp only [State.setBucket, update_of_ne heq]
        exact h.maxelems b' hb'
    · by_cases heq : b' = b
      · subst heq
        simp only [State.setBucket, update_self]
        exact hperm.trans (h.perm b' hb')
      · simp only [State.setBucket, update_of_ne heq]
        exact h.perm b' hb'
    · by_cases heq : b' = b
      · subst heq
        simp only [State.setBucket, update_self]
        exact .inl (hsorted.imp fun hle => ui64cmp_le.mp hle)
      · simp only [State.setBucket, update_of_ne heq]
        exact hothers b' hb' heq

/-! ### The buckets one after the other -/

theorem sorted_perm (hs : Sound cfg keys)
    (hperm : ∀ b < cfg.nbuckets, (s.bucketlist b).v.Perm (values cfg keys b)) :
    (s.sorted cfg.nbuckets).Perm ((List.range (forall_count cfg.nelems)).map keys) := by
  have hvalues : (s.sorted cfg.nbuckets).Perm ((List.range cfg.nbuckets).flatMap (values cfg keys)) :=
    List.Perm.flatMap_left _ fun b hb => hperm b (List.mem_range.mp hb)
  refine hvalues.trans ?_
  exact flatMap_filter_perm (range cfg.nbuckets) nodup_range
    (fun i => cfg.bucket_of (keys i)) keys _
    fun i hi => List.mem_range.mpr (hs.bucket_lt i (List.mem_range.mp hi))

theorem sorted_length (hs : Sound cfg keys)
    (hperm : ∀ b < cfg.nbuckets, (s.bucketlist b).v.Perm (values cfg keys b)) :
    (s.sorted cfg.nbuckets).length = forall_count cfg.nelems := by
  rw [(sorted_perm hs hperm).length_eq, List.length_map, List.length_range]

variable (cfg) in
theorem lt_of_bucket_lt {v w : ℕ} (h : cfg.bucket_of v < cfg.bucket_of w) : v < w := by
  unfold Config.bucket_of at h
  rw [Nat.shiftRight_eq_div_pow, Nat.shiftRight_eq_div_pow] at h
  by_contra hle
  have hdiv : w / 2 ^ cfg.LOBITS ≤ v / 2 ^ cfg.LOBITS := Nat.div_le_div_right (by omega)
  omega

theorem bucket_of_mem_values {b v : ℕ} (h : v ∈ values cfg keys b) : cfg.bucket_of v = b := by
  obtain ⟨i, hi, rfl⟩ := List.mem_map.mp h
  simpa using (List.mem_filter.mp hi).2

theorem sorted_pairwise
    (hperm : ∀ b < cfg.nbuckets, (s.bucketlist b).v.Perm (values cfg keys b))
    (hpairwise : ∀ b < cfg.nbuckets, (s.bucketlist b).v.Pairwise (· ≤ ·)) :
    (s.sorted cfg.nbuckets).Pairwise (· ≤ ·) := by
  refine pairwise_flatMap_range _ hpairwise fun b hb c hc x hx y hy => ?_
  have hx' := bucket_of_mem_values ((hperm c (by omega)).mem_iff.mp hx)
  have hy' := bucket_of_mem_values ((hperm b hb).mem_iff.mp hy)
  refine (lt_of_bucket_lt cfg ?_).le
  rw [hx', hy']
  exact hc

theorem getElem?_offsets {b : ℕ} (hb : b < cfg.nbuckets)
    (hperm : ∀ b < cfg.nbuckets, (s.bucketlist b).v.Perm (values cfg keys b)) :
    (prefix_sums 0 (sizes cfg keys))[b]? =
      some (Distribute.start (fun b => (s.bucketlist b).v) b) := by
  rw [getElem?_prefix_sums (by rw [length_sizes]; exact hb), zero_add]
  have htake : (sizes cfg keys).take b = (List.range b).map fun b => (s.bucketlist b).v.length := by
    unfold sizes
    rw [← List.map_take, List.take_range, min_eq_left hb.le]
    refine List.map_congr_left fun c hc => ?_
    have hlt : c < b := List.mem_range.mp hc
    exact (hperm c (by omega)).length_eq.symm
  rw [htake, start, List.length_flatMap]

theorem PutBack.exec (hs : Sound cfg keys) (h : PutBack cfg keys s (x ::ₘ rest))
    (hx : x.exec cfg s = (s', new)) :
    PutBack cfg keys s' (rest + new) ∧ s'.phase = s.phase ∧ s'.aborted = s.aborted := by
  have hrest : ∀ y ∈ rest, (∃ b i, b < cfg.nbuckets ∧ y = .put_back b i) ∨
      ∃ a v, y = .write a v ∧ (s.sorted cfg.nbuckets)[a]? = some v :=
    fun y hy => h.items y (mem_cons_of_mem hy)
  rcases h.items x (mem_cons_self x rest) with ⟨b, i, hb, rfl⟩ | ⟨a, v, rfl, ha⟩
  · have hoffset := getElem?_offsets hb h.perm
    by_cases hlt : i < (s.bucketlist b).v.length
    · have hmax : i < (s.bucketlist b).maxelems := by
        rw [h.maxelems b hb, ← (h.perm b hb).length_eq]
        exact hlt
      simp only [Item.exec, if_pos hlt, h.offsets, hoffset, if_pos hmax] at hx
      cases hx
      refine ⟨⟨fun y hy => ?_, h.offsets, h.maxelems, h.perm, h.pairwise, fun a v hav => ?_, h.beyond⟩,
        rfl, rfl⟩
      · rcases mem_add.mp hy with hy | hy
        · exact hrest y hy
        · rcases List.mem_append.mp (mem_coe.mp hy) with hy | hy
          · obtain ⟨j, hj, rfl⟩ := List.mem_mapIdx.mp hy
            have hget : ((s.bucketlist b).v)[i + j]? = some (((s.bucketlist b).v.drop i).take NBUF)[j] := by
              rw [List.getElem_take, List.getElem_drop]
              exact List.getElem?_eq_getElem _
            obtain ⟨hbound, _⟩ := List.getElem?_eq_some_iff.mp hget
            refine .inr ⟨_, _, rfl, ?_⟩
            rw [add_assoc, ← hget]
            exact getElem?_start (fun b => (s.bucketlist b).v) hb hbound
          · obtain rfl := List.mem_singleton.mp hy
            exact .inl ⟨b, _, hb, rfl⟩
      · rcases h.placed a v hav with hdone | ⟨y, hy, hwrites⟩
        · exact .inl hdone
        · rcases mem_cons.mp hy with rfl | hy
          · obtain ⟨_, j, hij, hj, rfl⟩ := hwrites
            have hvalue : (s.bucketlist b).v[j]? = some v := by
              rw [← hav]
              exact (getElem?_start (fun b => (s.bucketlist b).v) hb hj).symm
            by_cases hchunk : j < i + NBUF
            · -- it is in this chunk
              have hjlt : j - i < (((s.bucketlist b).v.drop i).take NBUF).length := by
                rw [List.length_take, List.length_drop]
                omega
              have hget : (((s.bucketlist b).v.drop i).take NBUF)[j - i] = v := by
                rw [List.getElem_take, List.getElem_drop]
                have hj' : i + (j - i) = j := by omega
                simp only [hj']
                exact (List.getElem?_eq_some_iff.mp hvalue).2
              refine .inr ⟨_, mem_add.mpr (.inr (mem_coe.mpr (List.mem_append_left _
                (List.mem_mapIdx.mpr ⟨j - i, hjlt, rfl⟩)))), ?_, hget⟩
              omega
            · exact .inr ⟨_, mem_add.mpr (.inr (mem_coe.mpr (List.mem_append_right _
                (List.mem_singleton_self _)))), hb, j, by omega, hj, rfl⟩
          · exact .inr ⟨y, mem_add.mpr (.inl hy), hwrites⟩
    · simp only [Item.exec, if_neg hlt] at hx
      cases hx
      refine ⟨⟨fun y hy => ?_, h.offsets, h.maxelems, h.perm, h.pairwise, fun a v hav => ?_, h.beyond⟩,
        rfl, rfl⟩
      · rw [coe_nil, add_zero] at hy
        exact hrest y hy
      · rcases h.placed a v hav with hdone | ⟨y, hy, hwrites⟩
        · exact .inl hdone
        · rcases mem_cons.mp hy with rfl | hy
          · obtain ⟨_, j, hij, hj, _⟩ := hwrites
            omega
          · exact .inr ⟨y, mem_add.mpr (.inl hy), hwrites⟩
  · cases hx
    obtain ⟨hbound, _⟩ := List.getElem?_eq_some_iff.mp ha
    rw [sorted_length hs h.perm] at hbound
    refine ⟨⟨fun y hy => ?_, h.offsets, h.maxelems, h.perm, h.pairwise, fun a' v' hav => ?_,
      fun a' ha' => ?_⟩, rfl, rfl⟩
    · rw [coe_nil, add_zero] at hy
      exact hrest y hy
    · by_cases heq : a' = a
      · subst heq
        refine .inl ?_
        simp only [update_self]
        exact Option.some.inj (ha.symm.trans hav)
      · simp only [update_of_ne heq]
        rcases h.placed a' v' hav with hdone | ⟨y, hy, hwrites⟩
        · exact .inl hdone
        · rcases mem_cons.mp hy with rfl | hy
          · exact absurd hwrites.1.symm heq
          · exact .inr ⟨y, mem_add.mpr (.inl hy), hwrites⟩
    · have hne : a' ≠ a := by omega
      simp only [update_of_ne hne]
      exact h.beyond a' ha'

/-! ### From loop to loop -/

/-- What holds in the phases. -/
def InPhase (cfg : Config n) (keys : ℕ → ℕ) (s : State n) (pool : Multiset (Item n)) : Prop :=
  match s.phase with
  | .start => s.array = keys ∧ pool = 0
  | .setup => s.array = keys ∧ Setup cfg s pool
  | .histogram => s.array = keys ∧ Histogram cfg keys s pool
  | .offsets => s.array = keys ∧ Offsets cfg keys s pool
  | .reserve => s.array = keys ∧ Reserve cfg keys s pool
  | .scatter => s.array = keys ∧ Scatter cfg keys s pool
  | .sort => s.array = keys ∧ SortBuckets cfg keys s pool
  | .put_back => PutBack cfg keys s pool

/-- What holds between any two steps. -/
def Inv (cfg : Config n) (keys : ℕ → ℕ) (s : State n) (pool : Multiset (Item n)) : Prop :=
  s.aborted = false ∧ InPhase cfg keys s pool

theorem Inv.of_frame {pool : Multiset (Item n)} {P : Prop} (haborted : s.aborted = false)
    (harray : s.array = keys) (h : P ∧ Frame s s')
    (hphase : InPhase cfg keys s' pool = (s'.array = keys ∧ P)) :
    Inv cfg keys s' pool ∧ s'.phase = s.phase :=
  ⟨⟨h.2.aborted.trans haborted, hphase ▸ ⟨h.2.array.trans harray, h.1⟩⟩, h.2.phase⟩

theorem Inv.exec (hs : Sound cfg keys) (h : Inv cfg keys s (x ::ₘ rest)) (hx : x.exec cfg s = (s', new)) :
    Inv cfg keys s' (rest + new) ∧ s'.phase = s.phase := by
  obtain ⟨haborted, hphase⟩ := h
  unfold InPhase at hphase
  split at hphase <;> rename_i heq
  · exact absurd hphase.2 cons_ne_zero
  · have hloop := hphase.2.exec hs hx
    exact Inv.of_frame haborted hphase.1 hloop (by rw [InPhase, hloop.2.phase, heq])
  · have hloop := hphase.2.exec hs hphase.1 hx
    exact Inv.of_frame haborted hphase.1 hloop (by rw [InPhase, hloop.2.phase, heq])
  · have hloop := hphase.2.exec hs hx
    exact Inv.of_frame haborted hphase.1 hloop (by rw [InPhase, hloop.2.phase, heq])
  · have hloop := hphase.2.exec hx
    exact Inv.of_frame haborted hphase.1 hloop (by rw [InPhase, hloop.2.phase, heq])
  · have hloop := hphase.2.exec hs hphase.1 hx
    exact Inv.of_frame haborted hphase.1 hloop (by rw [InPhase, hloop.2.phase, heq])
  · have hloop := hphase.2.exec hs hx
    exact Inv.of_frame haborted hphase.1 hloop (by rw [InPhase, hloop.2.phase, heq])
  · obtain ⟨hloop, hphase', haborted'⟩ := hphase.exec hs hx
    refine ⟨⟨haborted'.trans haborted, ?_⟩, hphase'⟩
    unfold InPhase
    rw [hphase', heq]
    exact hloop

theorem sum_adds (b : ℕ) (l : List ℕ) :
    ∑ c, (l.map fun i => Item.adds cfg keys c b (.histogram i)).sum =
      ((l.filter fun i => cfg.bucket_of (keys i) = b).map keys).length := by
  induction l with
  | nil => simp
  | cons i l ih =>
    have hone : ∑ c, Item.adds cfg keys c b (.histogram i) = if cfg.bucket_of (keys i) = b then 1 else 0 := by
      by_cases hb : cfg.bucket_of (keys i) = b
      · simp [Item.adds, hb]
      · simp [Item.adds, hb]
    simp only [List.map_cons, List.sum_cons, Finset.sum_add_distrib, ih, hone]
    by_cases hb : cfg.bucket_of (keys i) = b
    · simp [hb, add_comm]
    · simp [hb]

theorem bind_brings (b : ℕ) (l : List ℕ) :
    ((l.map Item.scatter : List (Item n)) : Multiset (Item n)).bind (Item.brings cfg keys b) =
      ((l.filter fun i => cfg.bucket_of (keys i) = b).map keys : List ℕ) := by
  induction l with
  | nil => rfl
  | cons i l ih =>
    rw [List.map_cons, ← cons_coe, cons_bind, ih]
    by_cases hb : cfg.bucket_of (keys i) = b
    · simp [Item.brings, hb]
    · simp [Item.brings, hb]

theorem Inv.advance (hs : Sound cfg keys) (h : Inv cfg keys s 0) (hx : s.advance cfg = some (s', new)) :
    Inv cfg keys s' new ∧ (s.phase = .start ∧ s'.phase = .setup ∨ s.phase = .setup ∧ s'.phase = .histogram ∨
      s.phase = .histogram ∧ s'.phase = .offsets ∨ s.phase = .offsets ∧ s'.phase = .reserve ∨
      s.phase = .reserve ∧ s'.phase = .scatter ∨ s.phase = .scatter ∧ s'.phase = .sort ∨
      s.phase = .sort ∧ s'.phase = .put_back) := by
  obtain ⟨haborted, hphase⟩ := h
  unfold InPhase at hphase
  unfold State.advance at hx
  split at hphase <;> rename_i heq <;> rw [heq] at hx ⊢
  · cases hx
    refine ⟨⟨haborted, hphase.1, fun y hy => ?_, fun c => .inr ?_⟩, by simp⟩
    · obtain ⟨c, _, rfl⟩ := mem_map.mp hy
      exact ⟨c, rfl⟩
    · exact mem_map_of_mem (mem_finRange c)
  · cases hx
    have hdone : ∀ c, s.counts c = List.replicate cfg.nbuckets 0 ∧ (s.offsets c).length = cfg.nbuckets :=
      fun c => (hphase.2.done c).resolve_right (notMem_zero _)
    refine ⟨⟨haborted, hphase.1, fun y hy => ?_, fun c => ⟨?_, (hdone c).2⟩, fun c b hb => ?_⟩, by simp⟩
    · obtain ⟨i, hi, rfl⟩ := mem_map.mp hy
      exact ⟨i, List.mem_range.mp hi, rfl⟩
    · simp [(hdone c).1]
    · simp [(hdone c).1, comp_def, hb]
  · have hlengths : ∀ c, cfg.nbuckets = (s.counts c).length := fun c => (hphase.2.lengths c).1.symm
    simp only [if_pos hlengths] at hx
    cases hx
    refine ⟨⟨haborted, hphase.1, fun y hy => ?_, fun c => ?_, fun c => (hphase.2.lengths c).2,
      fun c => .inr ?_⟩, by simp⟩
    · obtain ⟨c, _, rfl⟩ := mem_map.mp hy
      exact ⟨c, rfl⟩
    · simp only
      rw [hs.allreduce _ (fun c => (hlengths c).symm) c]
      refine List.map_congr_left fun b hb => ?_
      have hcounts : ∀ c', (s.counts c').getD b 0 = ((List.range (forall_count cfg.nelems)).map fun i =>
          Item.adds cfg keys c' b (.histogram i)).sum := by
        intro c'
        simpa using hphase.2.counts c' b (List.mem_range.mp hb)
      rw [Finset.sum_congr rfl fun c' _ => hcounts c', sum_adds]
      rfl
    · exact mem_map_of_mem (mem_finRange c)
  · cases hx
    refine ⟨⟨haborted, hphase.1, fun y hy => ?_, hphase.2.counts, fun c =>
      (hphase.2.done c).resolve_right (notMem_zero _), fun b hb => .inr ?_⟩, by simp⟩
    · obtain ⟨id, hid, rfl⟩ := mem_map.mp hy
      rw [hs.forall_nbuckets] at hid
      exact ⟨id, List.mem_range.mp hid, rfl⟩
    · rw [hs.forall_nbuckets]
      exact List.mem_map_of_mem (List.mem_range.mpr hb)
  · cases hx
    have hdone : ∀ b < cfg.nbuckets, s.bucketlist b = ⟨[], (values cfg keys b).length⟩ :=
      fun b hb => (hphase.2.done b hb).resolve_right (notMem_zero _)
    refine ⟨⟨haborted, hphase.1, fun y hy => .inl ?_, hphase.2.counts, hphase.2.offsets, fun b hb => ?_,
      fun b hb => ?_⟩, by simp⟩
    · obtain ⟨i, hi, rfl⟩ := mem_map.mp hy
      exact ⟨i, List.mem_range.mp hi, rfl⟩
    · simp only [hdone b hb]
    · simp only [hdone b hb]
      rw [bind_brings, coe_nil, zero_add]
      rfl
  · cases hx
    refine ⟨⟨haborted, hphase.1, fun y hy => ?_, hphase.2.offsets, hphase.2.maxelems, fun b hb => ?_,
      fun b hb => .inr ?_⟩, by simp⟩
    · obtain ⟨b, hb, rfl⟩ := mem_map.mp hy
      rw [hs.forall_nbuckets] at hb
      exact ⟨b, List.mem_range.mp hb, rfl⟩
    · have hbuckets := hphase.2.buckets b hb
      rw [zero_bind, add_zero] at hbuckets
      exact coe_eq_coe.mp hbuckets
    · rw [hs.forall_nbuckets]
      exact List.mem_map_of_mem (List.mem_range.mpr hb)
  · cases hx
    refine ⟨⟨haborted, fun y hy => .inl ?_, hphase.2.offsets, hphase.2.maxelems, hphase.2.perm, fun b hb =>
      (hphase.2.done b hb).resolve_right (notMem_zero _), fun a v hav => .inr ?_, fun a ha => ?_⟩,
      by simp⟩
    · obtain ⟨b, hb, rfl⟩ := mem_map.mp hy
      rw [hs.forall_nbuckets] at hb
      exact ⟨b, 0, List.mem_range.mp hb, rfl⟩
    · obtain ⟨hbound, _⟩ := List.getElem?_eq_some_iff.mp hav
      obtain ⟨b, hb, j, hj, rfl⟩ := exists_start _ hbound
      refine ⟨.put_back b 0, ?_, hb, j, Nat.zero_le j, hj, rfl⟩
      rw [hs.forall_nbuckets]
      exact mem_coe.mpr (List.mem_map.mpr ⟨b, List.mem_range.mpr hb, rfl⟩)
    · exact congrFun hphase.1 a
  · cases hx

end BucketSort

end Grappa
