import AdvCompArch.Grappa.IntSortRank

/-! # The loops of `full_verify`

    Bucket by bucket, a key goes to the place that its rank says, and the rank goes up by one.  So
    the writes that have arrived, those under way and those to come are the keys at their places
    (`Verify.writes`): no position is written twice, and in the end the array is sorted. -/

namespace Grappa

namespace IntSort

open Function Multiset Distribute

open CountingRanks (below entries)

variable {n : ℕ} {cfg : Config n} {s s' : State n} {rest : Multiset (Item n)} {x : Item n}
  {new : List (Item n)} {a k : ℕ}

/-! ### The keys at their places -/

variable (cfg) in
/-- The keys of a bucket, with their places. -/
def State.places (s : State n) (b : ℕ) : List (ℕ × ℕ) := entries (below cfg.keys) (s.bucketlist b).v

variable (cfg) in
/-- All keys, with their places. -/
def State.allPlaces (s : State n) : List (ℕ × ℕ) := (List.range cfg.nbuckets).flatMap (s.places cfg)

variable (cfg) in
/-- The places of the keys that `full_verify` has not got to. -/
def State.toCome (s : State n) : List (ℕ × ℕ) :=
  (List.range cfg.nbuckets).flatMap fun b => (s.places cfg b).drop (s.next b)

/-- The buckets one after the other. -/
def State.sorted (s : State n) (nbuckets : ℕ) : List ℕ :=
  (List.range nbuckets).flatMap fun b => (s.bucketlist b).v

namespace Filled

variable (h : Filled cfg s)

include h

theorem sorted_perm (hs : Sound cfg) : (s.sorted cfg.nbuckets).Perm cfg.keys := by
  have hvalues : (s.sorted cfg.nbuckets).Perm ((List.range cfg.nbuckets).flatMap (values cfg)) :=
    List.Perm.flatMap_left _ fun b hb => h.perm b (List.mem_range.mp hb)
  refine hvalues.trans ?_
  have hdeal := flatMap_filter_perm (List.range cfg.nbuckets) List.nodup_range
    cfg.bucket_of id cfg.keys fun k hk => ?_
  · simp only [List.map_id] at hdeal
    exact hdeal
  · obtain ⟨i, hi, rfl⟩ := List.mem_map.mp hk
    exact List.mem_range.mpr (hs.bucket_lt (List.mem_range.mp hi))

theorem sorted_length (hs : Sound cfg) : (s.sorted cfg.nbuckets).length = cfg.nkeys := by
  rw [(h.sorted_perm hs).length_eq, length_keys]

theorem allPlaces_eq (hs : Sound cfg) :
    s.allPlaces cfg = entries (below (s.sorted cfg.nbuckets)) (s.sorted cfg.nbuckets) := by
  have hbelow : below (s.sorted cfg.nbuckets) = below cfg.keys :=
    funext (CountingRanks.below_perm (h.sorted_perm hs))
  rw [hbelow]
  refine (CountingRanks.entries_flatMap _ ?_ _).symm
  -- no key is in two buckets
  refine List.Pairwise.imp_of_mem (fun hb hc hlt k hk hk' => ?_) List.pairwise_lt_range
  have hkb := (mem_values.mp ((h.perm _ (List.mem_range.mp hb)).mem_iff.mp hk')).2
  have hkc := (mem_values.mp ((h.perm _ (List.mem_range.mp hc)).mem_iff.mp hk)).2
  omega

theorem allPlaces_perm (hs : Sound cfg) :
    ((s.allPlaces cfg).map Prod.fst).Perm (List.range cfg.nkeys) := by
  rw [h.allPlaces_eq hs, ← h.sorted_length hs]
  exact CountingRanks.places_perm _

theorem rank_lt {b i k : ℕ} (hb : b < cfg.nbuckets) (hk : (s.bucketlist b).v[i]? = some k) :
    below cfg.keys k + ((s.bucketlist b).v.take i).count k < cfg.nkeys := by
  have hlt := CountingRanks.count_take_lt hk
  have hle := CountingRanks.below_add_count_le_length cfg.keys k
  have hcount : (s.bucketlist b).v.count k ≤ cfg.keys.count k := by
    rw [(h.perm b hb).count_eq]
    exact List.filter_sublist.count_le k
  rw [length_keys] at hle
  omega

end Filled

/-! ### The loops -/

/-- The array is set; what it holds will all be written over. -/
structure Memset (cfg : Config n) (s : State n) (pool : Multiset (Item n)) : Prop where
  filled : Filled cfg s
  key_ranks : ∀ b < cfg.nbuckets, (s.bucketlist b).v ≠ [] → (s.bucketlist b).key_ranks = ranks cfg b
  written : s.written = []
  items : ∀ x ∈ pool, ∃ c, x = .memset c

/-- A write that is under way. -/
def Item.pending : Item n → Multiset (ℕ × ℕ)
  | .write a k => {(a, k)}
  | _ => 0

/-- The keys are written at their ranks. -/
structure Verify (cfg : Config n) (s : State n) (pool : Multiset (Item n)) : Prop where
  filled : Filled cfg s
  items : ∀ x ∈ pool, (∃ b < cfg.nbuckets, x = .verify b) ∨ ∃ a k, x = .write a k
  next_le : ∀ b < cfg.nbuckets, s.next b ≤ (s.bucketlist b).v.length
  key_ranks : ∀ b < cfg.nbuckets, (s.bucketlist b).v ≠ [] → (s.bucketlist b).key_ranks =
    (List.range cfg.bucket_range).map fun j => below cfg.keys (cfg.min_key b + j) +
      ((s.bucketlist b).v.take (s.next b)).count (cfg.min_key b + j)
  done : ∀ b < cfg.nbuckets, s.next b = (s.bucketlist b).v.length ∨ .verify b ∈ pool
  writes : (s.written : Multiset (ℕ × ℕ)) + pool.bind Item.pending + s.toCome cfg = s.allPlaces cfg
  stored : ∀ p ∈ s.written, s.sorted_keys p.1 = p.2

/-- Every key is written. -/
structure Placed (cfg : Config n) (s : State n) : Prop where
  filled : Filled cfg s
  written : s.written.Perm (s.allPlaces cfg)
  stored : ∀ p ∈ s.written, s.sorted_keys p.1 = p.2

/-- Neighbours are compared. -/
structure Check (cfg : Config n) (s : State n) (pool : Multiset (Item n)) : Prop where
  placed : Placed cfg s
  items : ∀ x ∈ pool, ∃ i, i + 1 < cfg.nkeys ∧ x = .check i

theorem Memset.exec (h : Memset cfg s (x ::ₘ rest)) (hx : x.exec cfg s = (s', new)) :
    Memset cfg s' (rest + new) ∧ s'.aborted = s.aborted := by
  obtain ⟨c, rfl⟩ := h.items x (mem_cons_self x rest)
  cases hx
  rw [coe_nil, add_zero]
  exact ⟨⟨⟨h.filled.maxelems, h.filled.perm⟩, h.key_ranks, h.written,
    fun y hy => h.items y (mem_cons_of_mem hy)⟩, rfl⟩

/-- The key that a bucket writes next, and its rank. -/
theorem Verify.next_rank (h : Verify cfg s rest) {b k : ℕ} (hb : b < cfg.nbuckets)
    (hk : (s.bucketlist b).v[s.next b]? = some k) :
    s.next b < (s.bucketlist b).maxelems ∧ cfg.min_key b ≤ k ∧ k - cfg.min_key b < cfg.bucket_range ∧
      (s.bucketlist b).key_ranks[k - cfg.min_key b]? =
        some (below cfg.keys k + ((s.bucketlist b).v.take (s.next b)).count k) := by
  obtain ⟨hlt, hget⟩ := List.getElem?_eq_some_iff.mp hk
  have hmem : k ∈ (s.bucketlist b).v := List.mem_of_getElem? hk
  have hperm := h.filled.perm b hb
  obtain ⟨hle, hrange⟩ := bucket_of_eq.mp (mem_values.mp (hperm.mem_iff.mp hmem)).2
  refine ⟨?_, hle, hrange, ?_⟩
  · rw [h.filled.maxelems b hb, ← hperm.length_eq]
    exact hlt
  · rw [h.key_ranks b hb (List.ne_nil_of_mem hmem), List.getElem?_map, List.getElem?_range hrange,
      Option.map_some, Nat.add_sub_cancel' hle]

theorem Verify.fst_ne (hs : Sound cfg) (h : Verify cfg s (.write a k ::ₘ rest)) {p : ℕ × ℕ}
    (hp : p ∈ s.written) : p.1 ≠ a := by
  have hnodup : ((s.allPlaces cfg).map Prod.fst).Nodup :=
    (h.filled.allPlaces_perm hs).nodup_iff.mpr List.nodup_range
  obtain ⟨others, hothers⟩ := exists_cons_of_mem (mem_coe.mpr hp)
  have hwrites := h.writes
  rw [hothers, cons_bind] at hwrites
  have hmap := congrArg (map Prod.fst) hwrites
  rw [map_coe] at hmap
  rw [← coe_nodup, ← hmap] at hnodup
  simp only [Item.pending, cons_add, map_cons, nodup_cons,
    map_add, mem_add, map_singleton, mem_singleton] at hnodup
  intro heq
  exact hnodup.1 (.inl (.inr (.inl heq)))

theorem State.places_congr (h : ∀ b, (s'.bucketlist b).v = (s.bucketlist b).v) (b : ℕ) :
    s'.places cfg b = s.places cfg b := by
  rw [State.places, h, State.places]

theorem Verify.exec_write (hs : Sound cfg) (h : Verify cfg s (.write a k ::ₘ rest))
    (hx : (Item.write a k).exec cfg s = (s', new)) :
    Verify cfg s' (rest + new) ∧ s'.aborted = s.aborted := by
  have hne : ∀ p ∈ s.written, p.1 ≠ a := fun p hp => h.fst_ne hs hp
  cases hx
  rw [coe_nil, add_zero]
  refine ⟨⟨⟨h.filled.maxelems, h.filled.perm⟩, fun y hy => h.items y (mem_cons_of_mem hy),
    h.next_le, h.key_ranks, fun b hb => ?_, ?_, fun p hp => ?_⟩, rfl⟩
  · rcases h.done b hb with hdone | hmem
    · exact .inl hdone
    · exact .inr ((mem_cons.mp hmem).resolve_left fun heq => by cases heq)
  · have hwrites := h.writes
    rw [cons_bind] at hwrites
    -- the write goes over from the pool to what has arrived
    rw [← coe_add, coe_singleton,
      add_assoc (s.written : Multiset (ℕ × ℕ))]
    exact hwrites
  · rcases List.mem_append.mp hp with hp | hp
    · rw [← h.stored p hp]
      exact update_of_ne (hne p hp) _ _
    · obtain rfl := List.mem_singleton.mp hp
      exact update_self ..

theorem State.drop_places {b i : ℕ} (hk : (s.bucketlist b).v[i]? = some k) :
    (s.places cfg b).drop i =
      (below cfg.keys k + ((s.bucketlist b).v.take i).count k, k) :: (s.places cfg b).drop (i + 1) := by
  have hplace : (s.places cfg b)[i]? = _ := CountingRanks.getElem?_entries hk
  obtain ⟨hbound, hval⟩ := List.getElem?_eq_some_iff.mp hplace
  rw [List.drop_eq_getElem_cons hbound, hval]

theorem modify_ranks {b i : ℕ} {v : List ℕ} (hk : v[i]? = some k) (hmin : cfg.min_key b ≤ k) :
    ((List.range cfg.bucket_range).map fun j => below cfg.keys (cfg.min_key b + j) +
        (v.take i).count (cfg.min_key b + j)).modify (k - cfg.min_key b) (· + 1) =
      (List.range cfg.bucket_range).map fun j => below cfg.keys (cfg.min_key b + j) +
        (v.take (i + 1)).count (cfg.min_key b + j) := by
  rw [List.take_add_one, hk, Option.toList_some]
  apply List.ext_getElem (by simp)
  intro j hj _
  simp only [List.getElem_modify, List.getElem_map, List.getElem_range, List.count_append,
    List.count_singleton, beq_iff_eq]
  by_cases hkj : k - cfg.min_key b = j
  · have hkeq : k = cfg.min_key b + j := by omega
    rw [if_pos hkj, if_pos hkeq, add_assoc]
  · have hkne : k ≠ cfg.min_key b + j := by omega
    rw [if_neg hkj, if_neg hkne, add_zero]

variable (cfg) in
/-- After a bucket has sent its next key, which is `k`. -/
def State.sent (s : State n) (b k : ℕ) : State n :=
  { s.setBucket b { s.bucketlist b with
      key_ranks := (s.bucketlist b).key_ranks.modify (k - cfg.min_key b) (· + 1) } with
    next := Function.update s.next b (s.next b + 1) }

@[simp] theorem State.sent_next (s : State n) (b k : ℕ) :
    (s.sent cfg b k).next = Function.update s.next b (s.next b + 1) := rfl

@[simp] theorem State.sent_written (s : State n) (b k : ℕ) : (s.sent cfg b k).written = s.written := rfl

@[simp] theorem State.sent_v (s : State n) (b k b' : ℕ) :
    ((s.sent cfg b k).bucketlist b').v = (s.bucketlist b').v := by
  by_cases heq : b' = b
  · subst heq
    simp [State.sent, State.setBucket]
  · simp only [State.sent, State.setBucket, update_of_ne heq]

theorem Filled.sent (h : Filled cfg s) (b k : ℕ) : Filled cfg (s.sent cfg b k) := by
  have hbucket : Filled cfg (s.setBucket b { s.bucketlist b with
    key_ranks := (s.bucketlist b).key_ranks.modify (k - cfg.min_key b) (· + 1) }) := h.setBucket rfl rfl
  exact ⟨hbucket.maxelems, hbucket.perm⟩

theorem State.allPlaces_sent (s : State n) (b k : ℕ) : (s.sent cfg b k).allPlaces cfg = s.allPlaces cfg :=
  List.flatMap_congr fun b' _ => State.places_congr (s.sent_v b k) b'

/-- The place of a key that is sent is no longer to come. -/
theorem State.toCome_sent {b : ℕ} (hb : b < cfg.nbuckets) (hk : (s.bucketlist b).v[s.next b]? = some k) :
    (s.toCome cfg).Perm
      ((below cfg.keys k + ((s.bucketlist b).v.take (s.next b)).count k, k) ::
        (s.sent cfg b k).toCome cfg) := by
  refine flatMap_perm_cons List.nodup_range (List.mem_range.mpr hb) ?_ fun b' hb' => ?_
  · rw [State.places_congr (s.sent_v b k), State.sent_next, update_self]
    exact State.drop_places hk
  · rw [State.places_congr (s.sent_v b k), State.sent_next, update_of_ne hb']

theorem Verify.exec_verify {b : ℕ} (h : Verify cfg s rest) (hb : b < cfg.nbuckets)
    (hk : (s.bucketlist b).v[s.next b]? = some k) :
    (Item.verify b).exec cfg s = (s.sent cfg b k,
      [.write (below cfg.keys k + ((s.bucketlist b).v.take (s.next b)).count k) k, .verify b]) := by
  obtain ⟨hmax, hmin, hrange, hrank⟩ := h.next_rank hb hk
  have hbounds : s.next b < (s.bucketlist b).maxelems ∧ cfg.min_key b ≤ k := ⟨hmax, hmin⟩
  have hnkeys := h.filled.rank_lt hb hk
  simp only [Item.exec, hk, shiftLeft_eq_min_key, if_pos hbounds, hrank, if_pos hnkeys]
  rfl

theorem Verify.exec_next {b : ℕ} (h : Verify cfg s (.verify b ::ₘ rest)) (hb : b < cfg.nbuckets)
    (hk : (s.bucketlist b).v[s.next b]? = some k) (hx : (Item.verify b).exec cfg s = (s', new)) :
    Verify cfg s' (rest + new) ∧ s'.aborted = s.aborted := by
  obtain ⟨_, hmin, _, _⟩ := h.next_rank hb hk
  obtain ⟨hlt, _⟩ := List.getElem?_eq_some_iff.mp hk
  rw [h.exec_verify hb hk] at hx
  cases hx
  refine ⟨⟨h.filled.sent b k, fun y hy => ?_, fun b' hb' => ?_, fun b' hb' hne => ?_, fun b' hb' => ?_,
    ?_, h.stored⟩, rfl⟩
  · rcases mem_add.mp hy with hy | hy
    · exact h.items y (mem_cons_of_mem hy)
    · rcases List.mem_cons.mp (mem_coe.mp hy) with rfl | hy
      · exact .inr ⟨_, _, rfl⟩
      · exact .inl ⟨b, hb, List.mem_singleton.mp hy⟩
  · rw [State.sent_v, State.sent_next]
    by_cases heq : b' = b
    · subst heq
      rw [update_self]
      exact hlt
    · rw [update_of_ne heq]
      exact h.next_le b' hb'
  · rw [State.sent_v] at hne
    have hold := h.key_ranks b' hb' hne
    rw [State.sent_v, State.sent_next]
    by_cases heq : b' = b
    · subst heq
      simp only [State.sent, State.setBucket, update_self, hold]
      exact modify_ranks hk hmin
    · simp only [State.sent, State.setBucket, update_of_ne heq]
      exact hold
  · rw [State.sent_v, State.sent_next]
    by_cases heq : b' = b
    · subst heq
      exact .inr (mem_add.mpr (.inr (by simp)))
    · rw [update_of_ne heq]
      rcases h.done b' hb' with hdone | hmem
      · exact .inl hdone
      · have hrest := (mem_cons.mp hmem).resolve_left fun hitem =>
          heq (Item.verify.inj hitem)
        exact .inr (mem_add.mpr (.inl hrest))
  · have hwrites := h.writes
    simp only [cons_bind, Item.pending, zero_add] at hwrites
    -- the first place that is left of the bucket goes over to the pool
    rw [State.allPlaces_sent, State.sent_written, ← hwrites,
      coe_eq_coe.mpr (State.toCome_sent hb hk), ← cons_coe, ← cons_coe,
      ← cons_coe, add_bind, cons_bind, cons_bind]
    simp only [Item.pending, coe_nil, zero_bind, add_zero]
    rw [← singleton_add, ← add_assoc, ← add_assoc]

theorem Verify.exec_done {b : ℕ} (h : Verify cfg s (.verify b ::ₘ rest))
    (hk : (s.bucketlist b).v[s.next b]? = none) (hb : b < cfg.nbuckets)
    (hx : (Item.verify b).exec cfg s = (s', new)) :
    Verify cfg s' (rest + new) ∧ s'.aborted = s.aborted := by
  simp only [Item.exec, hk] at hx
  cases hx
  rw [coe_nil, add_zero]
  refine ⟨⟨h.filled, fun y hy => h.items y (mem_cons_of_mem hy), h.next_le, h.key_ranks,
    fun b' hb' => ?_, ?_, h.stored⟩, rfl⟩
  · by_cases heq : b' = b
    · subst heq
      exact .inl (le_antisymm (h.next_le b' hb) (List.getElem?_eq_none_iff.mp hk))
    · rcases h.done b' hb' with hdone | hmem
      · exact .inl hdone
      · exact .inr ((mem_cons.mp hmem).resolve_left fun hitem => heq (Item.verify.inj hitem))
  · have hwrites := h.writes
    simp only [cons_bind, Item.pending, zero_add] at hwrites
    exact hwrites

theorem Verify.exec (hs : Sound cfg) (h : Verify cfg s (x ::ₘ rest)) (hx : x.exec cfg s = (s', new)) :
    Verify cfg s' (rest + new) ∧ s'.aborted = s.aborted := by
  rcases h.items x (mem_cons_self x rest) with ⟨b, hb, rfl⟩ | ⟨a, k, rfl⟩
  · cases hk : (s.bucketlist b).v[s.next b]? with
    | none => exact h.exec_done hk hb hx
    | some k => exact h.exec_next hb hk hx
  · exact h.exec_write hs hx

/-! ### The sorted array -/

theorem Verify.placed (h : Verify cfg s 0) : Placed cfg s := by
  refine ⟨h.filled, ?_, h.stored⟩
  have hdone : s.toCome cfg = [] := by
    rw [State.toCome, List.flatMap_eq_nil_iff]
    intro b hb
    have hnext := (h.done b (List.mem_range.mp hb)).resolve_right (notMem_zero _)
    exact List.drop_eq_nil_of_le (by simp [State.places, hnext])
  have hwrites := h.writes
  rw [hdone, zero_bind, add_zero, coe_nil, add_zero] at hwrites
  exact coe_eq_coe.mp hwrites

/-- The array, as a list. -/
def State.elements (s : State n) (nkeys : ℕ) : List ℤ := (List.range nkeys).map s.sorted_keys

namespace Placed

variable (h : Placed cfg s) (hs : Sound cfg)

include h hs

theorem written_perm : (s.written.map Prod.fst).Perm (List.range cfg.nkeys) :=
  (h.written.map Prod.fst).trans (h.filled.allPlaces_perm hs)

theorem sorted_keys_eq : ∀ p ∈ entries (below (s.sorted cfg.nbuckets)) (s.sorted cfg.nbuckets),
    (s.sorted_keys p.1).toNat = p.2 := by
  intro p hp
  rw [← h.filled.allPlaces_eq hs] at hp
  rw [h.stored p (h.written.mem_iff.mpr hp), Int.toNat_natCast]

theorem elements_eq :
    s.elements cfg.nkeys =
      ((List.range (s.sorted cfg.nbuckets).length).map fun i => (s.sorted_keys i).toNat).map
        Nat.cast := by
  rw [h.filled.sorted_length hs, List.map_map]
  apply List.map_congr_left
  intro i hi
  obtain ⟨p, hp, rfl⟩ := List.mem_map.mp ((h.written_perm hs).mem_iff.mpr hi)
  show s.sorted_keys p.1 = ((s.sorted_keys p.1).toNat : ℤ)
  rw [h.stored p hp, Int.toNat_natCast]

theorem elements_perm : (s.elements cfg.nkeys).Perm (cfg.keys.map Nat.cast) := by
  rw [h.elements_eq hs]
  exact ((CountingRanks.map_range_perm (h.sorted_keys_eq hs)).trans (h.filled.sorted_perm hs)).map _

theorem elements_pairwise : (s.elements cfg.nkeys).Pairwise (· ≤ ·) := by
  rw [h.elements_eq hs, List.pairwise_map]
  exact (CountingRanks.map_range_pairwise (h.sorted_keys_eq hs)).imp Int.ofNat_le.mpr

theorem sorted_keys_le {i : ℕ} (hi : i + 1 < cfg.nkeys) : s.sorted_keys i ≤ s.sorted_keys (i + 1) := by
  have hpairwise := List.pairwise_iff_getElem.mp (h.elements_pairwise hs) i (i + 1)
    (by simp [State.elements]; omega) (by simp [State.elements]; omega) (Nat.lt_succ_self i)
  simpa [State.elements] using hpairwise

end Placed

theorem Check.exec (hs : Sound cfg) (h : Check cfg s (x ::ₘ rest)) (hx : x.exec cfg s = (s', new)) :
    Check cfg s' (rest + new) ∧ s'.aborted = s.aborted := by
  obtain ⟨i, hi, rfl⟩ := h.items x (mem_cons_self x rest)
  simp only [Item.exec, if_pos (h.placed.sorted_keys_le hs hi)] at hx
  cases hx
  rw [coe_nil, add_zero]
  exact ⟨⟨h.placed, fun y hy => h.items y (mem_cons_of_mem hy)⟩, rfl⟩

end IntSort

end Grappa
