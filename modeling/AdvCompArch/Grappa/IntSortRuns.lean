import AdvCompArch.Grappa.BucketSortRuns
import AdvCompArch.Grappa.IntSortVerify

/-! # Runs of the integer sort

    With keys in range and fewer than `2 ^ 47` of them no check fails, every `rank` ranks the keys,
    and every run ends with the sorted array.  With `2 ^ 47` keys the loops, whose count travels in
    48 bits, visit none. -/

namespace Grappa

namespace IntSort

open Multiset Phased BucketSort List

variable {n : ℕ} {cfg : Config n} {s s' : State n} {rest : Multiset (Item n)} {x : Item n}
  {new : List (Item n)} {memory : ℕ → Bucket} {sorted_keys : ℕ → ℤ}

/-! ### The invariant -/

/-- What holds in each phase. -/
def InPhase (cfg : Config n) (s : State n) (pool : Multiset (Item n)) : Prop :=
  match s.phase with
  | .start => Fits cfg s ∧ pool = 0
  | .construct => Construct cfg s pool
  | .setup iteration => iteration ≤ cfg.niterations ∧ Setup cfg s pool
  | .histogram iteration => iteration ≤ cfg.niterations ∧ Histogram cfg s pool
  | .offsets iteration => iteration ≤ cfg.niterations ∧ Offsets cfg s pool
  | .reserve iteration => iteration ≤ cfg.niterations ∧ Reserve cfg s pool
  | .scatter iteration => iteration ≤ cfg.niterations ∧ Scatter cfg s pool
  | .local_rank iteration => iteration ≤ cfg.niterations ∧ LocalRank cfg s pool
  | .memset => Memset cfg s pool
  | .verify => Verify cfg s pool
  | .check => Check cfg s pool

/-- What holds between any two steps. -/
def Inv (cfg : Config n) (s : State n) (pool : Multiset (Item n)) : Prop :=
  s.aborted = false ∧ InPhase cfg s pool

theorem exec_phase (hx : x.exec cfg s = (s', new)) : s'.phase = s.phase := by
  cases x with
  | construct id | setup c | histogram i | offsets c | reserve id | scatter i | append b v
  | local_rank b | memset c | verify b | write a k | check i =>
    simp only [Item.exec, State.abort, State.setBucket] at hx
    repeat' split at hx
    all_goals
      obtain ⟨rfl, _⟩ := Prod.mk.inj hx
      rfl

theorem Inv.exec (hs : Sound cfg) (h : Inv cfg s (x ::ₘ rest)) (hx : x.exec cfg s = (s', new)) :
    Inv cfg s' (rest + new) := by
  obtain ⟨haborted, hphase⟩ := h
  unfold Inv InPhase
  rw [exec_phase hx]
  unfold InPhase at hphase
  split at hphase
  · exact absurd hphase.2 cons_ne_zero
  · obtain ⟨hloop, haborted'⟩ := Construct.exec hphase hx
    exact ⟨haborted'.trans haborted, hloop⟩
  · obtain ⟨hloop, haborted'⟩ := hphase.2.exec hx
    exact ⟨haborted'.trans haborted, hphase.1, hloop⟩
  · obtain ⟨hloop, haborted'⟩ := hphase.2.exec hs hx
    exact ⟨haborted'.trans haborted, hphase.1, hloop⟩
  · obtain ⟨hloop, haborted'⟩ := hphase.2.exec hx
    exact ⟨haborted'.trans haborted, hphase.1, hloop⟩
  · obtain ⟨hloop, haborted'⟩ := hphase.2.exec hx
    exact ⟨haborted'.trans haborted, hphase.1, hloop⟩
  · obtain ⟨hloop, haborted'⟩ := hphase.2.exec hs hx
    exact ⟨haborted'.trans haborted, hphase.1, hloop⟩
  · obtain ⟨hloop, haborted'⟩ := hphase.2.exec hx
    exact ⟨haborted'.trans haborted, hphase.1, hloop⟩
  · obtain ⟨hloop, haborted'⟩ := Memset.exec hphase hx
    exact ⟨haborted'.trans haborted, hloop⟩
  · obtain ⟨hloop, haborted'⟩ := Verify.exec hs hphase hx
    exact ⟨haborted'.trans haborted, hloop⟩
  · obtain ⟨hloop, haborted'⟩ := Check.exec hs hphase hx
    exact ⟨haborted'.trans haborted, hloop⟩

/-- The items of a phase. -/
def Phase.Has : Phase → Item n → Prop
  | .construct, .construct _ => True
  | .setup _, .setup _ => True
  | .histogram _, .histogram _ => True
  | .offsets _, .offsets _ => True
  | .reserve _, .reserve _ => True
  | .scatter _, .scatter _ => True
  | .scatter _, .append _ _ => True
  | .local_rank _, .local_rank _ => True
  | .memset, .memset _ => True
  | .verify, .verify _ => True
  | .verify, .write _ _ => True
  | .check, .check _ => True
  | _, _ => False

theorem Inv.has (h : Inv cfg s rest) (hx : x ∈ rest) : s.phase.Has x := by
  obtain ⟨_, hphase⟩ := h
  unfold InPhase at hphase
  split at hphase <;> rename_i heq <;> rw [heq]
  · rw [hphase.2] at hx
    exact absurd hx (notMem_zero x)
  · obtain ⟨id, _, rfl⟩ := hphase.loop.items x hx
    trivial
  · obtain ⟨c, _, rfl⟩ := hphase.2.loop.items x hx
    trivial
  · obtain ⟨i, _, rfl⟩ := hphase.2.items x hx
    trivial
  · obtain ⟨c, _, rfl⟩ := hphase.2.loop.items x hx
    trivial
  · obtain ⟨id, _, rfl⟩ := hphase.2.loop.items x hx
    trivial
  · rcases hphase.2.items x hx with ⟨i, _, rfl⟩ | ⟨b, v, _, rfl⟩ <;> trivial
  · obtain ⟨b, _, rfl⟩ := hphase.2.loop.items x hx
    trivial
  · obtain ⟨c, rfl⟩ := hphase.items x hx
    trivial
  · rcases hphase.items x hx with ⟨b, _, rfl⟩ | ⟨a, k, rfl⟩ <;> trivial
  · obtain ⟨i, _, rfl⟩ := hphase.items x hx
    trivial

theorem Inv.phase_of_verify {b : ℕ} (h : Inv cfg s rest) (hmem : .verify b ∈ rest) :
    s.phase = .verify := by
  have hhas := h.has hmem
  cases hphase : s.phase <;> simp [hphase, Phase.Has] at hhas ⊢

theorem Inv.room {b v : ℕ} (h : Inv cfg s rest) (hmem : .append b v ∈ rest) :
    (s.bucketlist b).v.length < (s.bucketlist b).maxelems := by
  have hhas := h.has hmem
  have hphase := h.2
  unfold InPhase at hphase
  split at hphase <;> rename_i heq <;> simp only [heq, Phase.Has] at hhas
  exact hphase.2.room hmem

/-! ### From one loop to the next -/

theorem sum_adds (b : ℕ) (l : List ℕ) :
    ∑ c, (l.map fun i => Item.adds cfg c b (.histogram i)).sum =
      ((l.map cfg.key_array).filter fun k => cfg.bucket_of k = b).length := by
  induction l with
  | nil => simp
  | cons i l ih =>
    have hone : ∑ c, Item.adds cfg c b (.histogram i) =
        if cfg.bucket_of (cfg.key_array i) = b then 1 else 0 := by
      by_cases hb : cfg.bucket_of (cfg.key_array i) = b
      · simp [Item.adds, hb]
      · simp [Item.adds, hb]
    simp only [List.map_cons, List.sum_cons, Finset.sum_add_distrib, ih, hone]
    by_cases hb : cfg.bucket_of (cfg.key_array i) = b
    · simp [hb, add_comm]
    · simp [hb]

theorem bind_brings (b : ℕ) (l : List ℕ) :
    ((l.map Item.scatter : List (Item n)) : Multiset (Item n)).bind (Item.brings cfg b) =
      ((l.map cfg.key_array).filter fun k => cfg.bucket_of k = b : List ℕ) := by
  induction l with
  | nil => rfl
  | cons i l ih =>
    rw [List.map_cons, ← cons_coe, cons_bind, ih]
    by_cases hb : cfg.bucket_of (cfg.key_array i) = b
    · simp [Item.brings, hb]
    · simp [Item.brings, hb]

theorem Setup.histogram (hs : Sound cfg) (h : Setup cfg s 0) {s' : State n}
    (hcounts : s'.counts = s.counts) (hranks : s'.bucket_ranks = s.bucket_ranks) :
    Histogram cfg s' ((List.range (BucketSort.forall_count cfg.nkeys)).map .histogram : List (Item n)) := by
  have hdone := fun c => h.loop.finish (u := c) trivial
  rw [hs.forall_nkeys]
  refine ⟨fun y hy => ?_, fun c => ⟨?_, ?_⟩, fun c b hb => ?_⟩
  · obtain ⟨i, hi, rfl⟩ := mem_map.mp hy
    exact ⟨i, List.mem_range.mp hi, rfl⟩
  · rw [hcounts, (hdone c).1]
    exact ⟨length_replicate, rfl⟩
  · rw [hranks]
    exact (hdone c).2
  · rw [hcounts, (hdone c).1]
    simp [Function.comp_def, hb]

theorem Histogram.allreduce (hs : Sound cfg) (h : Histogram cfg s 0) (c : Fin (n + 1)) :
    (s.allreduce cfg).counts c = ⟨sizes cfg, cfg.nbuckets⟩ := by
  have htake : ∀ c, (s.counts c)._storage.take (s.counts c)._size = (s.counts c)._storage := by
    intro c
    obtain ⟨hlength, hsize⟩ := (h.sized c).1
    rw [hsize, ← hlength, take_length]
  obtain ⟨hlength, hsize⟩ := (h.sized c).1
  have hdrop : (s.counts c)._storage.drop cfg.nbuckets = [] := drop_eq_nil_of_le hlength.le
  have hcounts : ∀ b < cfg.nbuckets,
      ∑ c', (s.counts c')._storage.getD b 0 = (values cfg b).length := by
    intro b hb
    have heach : ∀ c', (s.counts c')._storage.getD b 0 =
        ((List.range cfg.nkeys).map fun i => Item.adds cfg c' b (.histogram i)).sum := by
      intro c'
      simpa using h.counts c' b hb
    rw [Finset.sum_congr rfl fun c' _ => heach c', sum_adds]
    rfl
  simp only [State.allreduce, htake, hsize, hdrop, append_nil, LocalVector.mk.injEq, and_true]
  rw [hs.allreduce cfg.nbuckets _ (fun c => (h.sized c).1.1) c]
  exact List.map_congr_left fun b hb => hcounts b (List.mem_range.mp hb)

theorem Reserve.scatter (hs : Sound cfg) (h : Reserve cfg s 0) {s' : State n} (hsummed : Summed cfg s')
    (hbuckets : s'.bucketlist = s.bucketlist) :
    Scatter cfg s' ((List.range (BucketSort.forall_count cfg.nkeys)).map .scatter : List (Item n)) := by
  have hdone := fun b hb => h.loop.finish (u := b) hb
  rw [hs.forall_nkeys]
  refine ⟨hsummed, fun y hy => .inl ?_, fun b hb => ?_, fun b hb => ?_⟩
  · obtain ⟨i, hi, rfl⟩ := mem_map.mp hy
    exact ⟨i, List.mem_range.mp hi, rfl⟩
  · rw [hbuckets]
    exact (hdone b hb).2
  · rw [hbuckets, (hdone b hb).1, bind_brings, coe_nil, zero_add]
    rfl

theorem Scatter.filled (h : Scatter cfg s 0) : Filled cfg s := by
  refine ⟨h.maxelems, fun b hb => ?_⟩
  have hbuckets := h.buckets b hb
  rw [zero_bind, add_zero] at hbuckets
  exact coe_eq_coe.mp hbuckets

theorem Memset.verify (hs : Sound cfg) (h : Memset cfg s 0) :
    Verify cfg { s with phase := .verify, next := fun _ => 0 }
      ((List.range (forall_count cfg.nbuckets)).map .verify : List (Item n)) := by
  rw [hs.forall_nbuckets]
  refine ⟨⟨h.filled.maxelems, h.filled.perm⟩, fun y hy => .inl ?_, fun b _ => Nat.zero_le _,
    fun b hb hne => ?_, fun b hb => .inr ?_, ?_, fun p hp => ?_⟩
  · obtain ⟨b, hb, rfl⟩ := mem_map.mp hy
    exact ⟨b, List.mem_range.mp hb, rfl⟩
  · show (s.bucketlist b).key_ranks = _
    rw [h.key_ranks b hb hne, ranks]
    simp
  · exact List.mem_map_of_mem (List.mem_range.mpr hb)
  · have hnone : (((List.range cfg.nbuckets).map .verify : List (Item n)) : Multiset (Item n)).bind
        Item.pending = 0 := by
      apply eq_zero_of_forall_notMem
      intro p hp
      obtain ⟨y, hy, hmem⟩ := mem_bind.mp hp
      obtain ⟨b, _, rfl⟩ := List.mem_map.mp hy
      exact absurd hmem (notMem_zero p)
    rw [h.written, hnone]
    rfl
  · have hwritten : p ∈ s.written := hp
    rw [h.written] at hwritten
    cases hwritten

/-- How many phases are to come. -/
def Phase.left (niterations : ℕ) : Phase → ℕ
  | .start => 6 * niterations + 11
  | .construct => 6 * niterations + 10
  | .setup iteration => 6 * (niterations - iteration) + 9
  | .histogram iteration => 6 * (niterations - iteration) + 8
  | .offsets iteration => 6 * (niterations - iteration) + 7
  | .reserve iteration => 6 * (niterations - iteration) + 6
  | .scatter iteration => 6 * (niterations - iteration) + 5
  | .local_rank iteration => 6 * (niterations - iteration) + 4
  | .memset => 3
  | .verify => 2
  | .check => 1

theorem Inv.advance (hs : Sound cfg) (h : Inv cfg s 0) (hx : s.advance cfg = some (s', new)) :
    Inv cfg s' new ∧ s'.phase.left cfg.niterations < s.phase.left cfg.niterations := by
  obtain ⟨haborted, hphase⟩ := h
  have hcores : ∀ c : Fin (n + 1), c ∈ finRange (n + 1) ↔ True :=
    fun c => iff_of_true (mem_finRange c) trivial
  have hbuckets : ∀ b, b ∈ List.range cfg.nbuckets ↔ b < cfg.nbuckets := fun b => List.mem_range
  unfold InPhase at hphase
  unfold State.advance at hx
  split at hphase <;> rename_i heq <;> rw [heq] at hx ⊢
  · cases hx
    rw [hs.forall_nbuckets]
    refine ⟨⟨haborted, ⟨hphase.1.counts, hphase.1.bucket_ranks⟩, ForEach.start hbuckets⟩, ?_⟩
    simp [Phase.left]
  · cases hx
    refine ⟨⟨haborted, Nat.zero_le _, ⟨hphase.fits.counts, hphase.fits.bucket_ranks⟩,
      ForEach.start hcores⟩, ?_⟩
    simp [Phase.left]
  · cases hx
    refine ⟨⟨haborted, hphase.1, hphase.2.histogram hs rfl rfl⟩, ?_⟩
    simp [Phase.left]
  · cases hx
    refine ⟨⟨haborted, hphase.1, hphase.2.allreduce hs, fun c => (hphase.2.sized c).2,
      ForEach.start hcores⟩, ?_⟩
    simp [Phase.left]
  · cases hx
    rw [hs.forall_nbuckets]
    refine ⟨⟨haborted, hphase.1, ⟨hphase.2.counts, fun c => hphase.2.loop.finish trivial⟩,
      ForEach.start hbuckets⟩, ?_⟩
    simp [Phase.left]
  · cases hx
    refine ⟨⟨haborted, hphase.1, hphase.2.scatter hs
      ⟨hphase.2.summed.counts, hphase.2.summed.bucket_ranks⟩ rfl⟩, ?_⟩
    simp [Phase.left]
  · cases hx
    have hfilled := hphase.2.filled
    refine ⟨⟨haborted, hphase.1, ⟨hphase.2.summed.counts, hphase.2.summed.bucket_ranks⟩,
      ⟨hfilled.maxelems, hfilled.perm⟩, ForEach.start hbuckets⟩, ?_⟩
    simp [Phase.left]
  · obtain ⟨hle, hrank⟩ := hphase
    simp only at hx
    split at hx
    · cases hx
      have hfits := hrank.summed.fits
      refine ⟨⟨haborted, ‹_›, ⟨hfits.counts, hfits.bucket_ranks⟩, ForEach.start hcores⟩, ?_⟩
      simp only [Phase.left]
      omega
    · cases hx
      refine ⟨⟨haborted, ⟨hrank.filled.maxelems, hrank.filled.perm⟩,
        fun b hb => hrank.loop.finish hb, rfl, fun y hy => ?_⟩, ?_⟩
      · obtain ⟨c, _, rfl⟩ := mem_map.mp hy
        exact ⟨c, rfl⟩
      · simp only [Phase.left]
        omega
  · cases hx
    refine ⟨⟨haborted, hphase.verify hs⟩, ?_⟩
    simp [Phase.left]
  · cases hx
    have hplaced := hphase.placed
    have hlt := hs.nkeys_lt
    rw [forall_count_of_lt (by omega)]
    refine ⟨⟨haborted, ⟨⟨hplaced.filled.maxelems, hplaced.filled.perm⟩, hplaced.written,
      hplaced.stored⟩, fun y hy => ?_⟩, ?_⟩
    · obtain ⟨i, hi, rfl⟩ := mem_map.mp hy
      have hlt' := List.mem_range.mp hi
      exact ⟨i, by omega, rfl⟩
    · simp [Phase.left]
  · cases hx

/-! ### Every run ends -/

/-- The steps that are left for an item and what it spawns, but for the keys to come. -/
def weight : Item n → ℕ
  | .scatter _ => 2
  | _ => 1

variable (cfg) in
/-- The steps that are left for the keys to come: two for each. -/
def State.todo (s : State n) : ℕ := if s.phase = .verify then 2 * (s.toCome cfg).length else 0

variable (cfg) in
def μ (s : State n) (pool : Multiset (Item n)) : ℕ ×ₗ ℕ :=
  toLex (s.phase.left cfg.niterations, s.todo cfg + (pool.map weight).sum)

theorem Inv.todo_exec (h : Inv cfg s (x ::ₘ rest)) (hx : x.exec cfg s = (s', new)) :
    s'.todo cfg + (new.map weight).sum < s.todo cfg + weight x := by
  have hphase := exec_phase hx
  by_cases hverify : s.phase = .verify
  · have hloop : Verify cfg s (x ::ₘ rest) := by
      have hinv := h.2
      unfold InPhase at hinv
      rw [hverify] at hinv
      exact hinv
    unfold State.todo
    rw [hphase, if_pos hverify, if_pos hverify]
    rcases hloop.items x (mem_cons_self x rest) with ⟨b, hb, rfl⟩ | ⟨a, k, rfl⟩
    · cases hk : (s.bucketlist b).v[s.next b]? with
      | none =>
        simp only [Item.exec, hk] at hx
        cases hx
        simp [weight]
      | some k =>
        rw [hloop.exec_verify hb hk] at hx
        cases hx
        have hcome := (State.toCome_sent hb hk).length_eq
        rw [length_cons] at hcome
        simp only [weight, List.map_cons, List.map_nil, List.sum_cons, List.sum_nil]
        omega
    · cases hx
      simp [weight, State.toCome, State.places]
  · unfold State.todo
    rw [hphase, if_neg hverify, if_neg hverify, zero_add, zero_add]
    cases x with
    | verify b => exact absurd (h.phase_of_verify (mem_cons_self _ rest)) hverify
    | scatter i =>
      simp only [Item.exec, State.abort] at hx
      split at hx <;> obtain ⟨rfl, rfl⟩ := Prod.mk.inj hx <;> simp [weight]
    | construct id | setup c | histogram i | offsets c | reserve id | append b v | local_rank b
    | memset c | write a k | check i =>
      simp only [Item.exec, State.abort] at hx
      repeat' split at hx
      all_goals
        cases hx
        simp [weight]

theorem Inv.program_exec (hs : Sound cfg) (h : Inv cfg s (x ::ₘ rest))
    (hx : (is_benchmark cfg).exec s x = some (s', new)) :
    Inv cfg s' (rest + new) ∧ μ cfg s' (rest + new) < μ cfg s (x ::ₘ rest) := by
  simp only [is_benchmark, h.1, Bool.false_eq_true, if_false, Option.some.injEq] at hx
  refine ⟨h.exec hs hx, ?_⟩
  have htodo := h.todo_exec hx
  unfold μ
  refine Prod.Lex.toLex_lt_toLex.mpr (.inr ⟨by rw [exec_phase hx], ?_⟩)
  simp only [map_add, sum_add, Multiset.map_cons, Multiset.sum_cons,
    map_coe, sum_coe]
  omega

theorem Inv.program_advance (hs : Sound cfg) (h : Inv cfg s 0)
    (hx : (is_benchmark cfg).advance s = some (s', new)) :
    Inv cfg s' new ∧ μ cfg s' new < μ cfg s 0 := by
  simp only [is_benchmark, h.1, Bool.false_eq_true, if_false] at hx
  obtain ⟨hinv, hleft⟩ := h.advance hs hx
  exact ⟨hinv, Prod.Lex.toLex_lt_toLex.mpr (.inl hleft)⟩

theorem inv_init : Inv cfg (init memory sorted_keys) 0 :=
  ⟨rfl, ⟨fun _ => Nat.zero_le _, fun _ => Nat.zero_le _⟩, rfl⟩

theorem Sound.reachable_inv (hs : Sound cfg) {t : Phased.State (State n) (Item n)}
    (ht : ((is_benchmark cfg).system (init memory sorted_keys)).Reachable t) :
    Inv cfg t.shared t.pool :=
  Program.Reachable.inv (Inv cfg) inv_init
    (fun _ _ _ _ _ h hx => (h.program_exec hs hx).1)
    (fun _ _ _ h hx => (h.program_advance hs hx).1) ht

/-! ### What the sort is to do -/

/-- A `rank` has ranked the keys: each bucket that has a key knows for every key of its range how
    many keys of the whole array are less. -/
def State.Ranked (cfg : Config n) (s : State n) : Prop :=
  ∀ b < cfg.nbuckets, (s.bucketlist b).v ≠ [] → ∀ k, cfg.bucket_of k = b →
    (s.bucketlist b).key_ranks[k - cfg.min_key b]? = some (cfg.keys.countP (· < k))

/-- Every run ends, no check fails on the way, every append finds room, every `rank` ranks the
    keys, and at the end every position has been written once and the array is a sorted permutation
    of the keys. -/
structure Correct (cfg : Config n) (memory : ℕ → Bucket) (sorted_keys : ℕ → ℤ) : Prop where
  terminates : ((is_benchmark cfg).system (init memory sorted_keys)).Terminates
    ⟨init memory sorted_keys, []⟩
  checks : ∀ t, ((is_benchmark cfg).system (init memory sorted_keys)).Reachable t →
    t.shared.aborted = false
  room : ∀ t, ((is_benchmark cfg).system (init memory sorted_keys)).Reachable t →
    ∀ b v, .append b v ∈ t.pool → (t.shared.bucketlist b).v.length < (t.shared.bucketlist b).maxelems
  ranked : ∀ t, ((is_benchmark cfg).system (init memory sorted_keys)).Reachable t →
    ∀ iteration, t.shared.phase = .local_rank iteration → t.pool = [] → t.shared.Ranked cfg
  sorted : ∀ t, ((is_benchmark cfg).system (init memory sorted_keys)).Reachable t →
    (∀ l, (is_benchmark cfg).next t l = none) →
    (is_benchmark cfg).Ended t ∧ (t.shared.written.map Prod.fst).Perm (range cfg.nkeys) ∧
      (t.shared.elements cfg.nkeys).Pairwise (· ≤ ·) ∧
      (t.shared.elements cfg.nkeys).Perm (cfg.keys.map Nat.cast)

theorem LocalRank.ranked (h : LocalRank cfg s 0) : s.Ranked cfg := by
  intro b hb hne k hk
  obtain ⟨hle, hlt⟩ := bucket_of_eq.mp hk
  rw [h.loop.finish hb hne, ranks, getElem?_map, getElem?_range hlt, Option.map_some,
    Nat.add_sub_cancel' hle]
  rfl

theorem Inv.ranked {iteration : ℕ} (h : Inv cfg s 0) (hphase : s.phase = .local_rank iteration) :
    s.Ranked cfg := by
  have hinv := h.2
  unfold InPhase at hinv
  rw [hphase] at hinv
  exact hinv.2.ranked

/-- The main task returns only after the comparison of neighbours. -/
theorem Inv.placed (h : Inv cfg s rest) (hret : (is_benchmark cfg).advance s = none) :
    Placed cfg s := by
  obtain ⟨haborted, hphase⟩ := h
  simp only [is_benchmark, haborted, Bool.false_eq_true, if_false, State.advance] at hret
  unfold InPhase at hphase
  split at hphase <;> rename_i heq <;> simp only [heq] at hret
  case h_11 => exact hphase.placed
  case h_8 => split at hret <;> cases hret
  all_goals cases hret

/-- **Integer sort**: where `allreduce_inplace` adds up, with keys in range and fewer than `2 ^ 47`
    of them, every run ranks the keys in every iteration and sorts them, with room for every append
    and without a failed check. -/
theorem ranks_and_sorts (cfg : Config n) (memory : ℕ → Bucket) (sorted_keys : ℕ → ℤ)
    (hnkeys : 2 ≤ cfg.nkeys) (hlt : cfg.nkeys < 2 ^ 47)
    (hbuckets : cfg.log2buckets ≤ cfg.log2maxkey) (hmaxkey : cfg.log2maxkey ≤ 30)
    (hkeys : ∀ i < cfg.nkeys, cfg.key_array i < 2 ^ cfg.log2maxkey)
    (hallreduce : ∀ size counts, (∀ c, (counts c).length = size) → ∀ c,
      cfg.allreduce_inplace counts c =
        (List.range size).map fun b => ∑ c', (counts c').getD b 0) :
    Correct cfg memory sorted_keys := by
  have hs : Sound cfg := ⟨hnkeys, hlt, hbuckets, hmaxkey, hkeys, hallreduce⟩
  refine ⟨?_, fun t ht => (hs.reachable_inv ht).1, fun t ht b v hmem =>
    (hs.reachable_inv ht).room (mem_coe.mpr hmem), fun t ht iteration hphase hpool => ?_,
    fun t ht hstuck => ?_⟩
  · exact Program.terminates (μ cfg) inv_init (fun _ _ _ _ _ h hx => h.program_exec hs hx)
      fun _ _ _ h hx => h.program_advance hs hx
  · have hinv := hs.reachable_inv ht
    rw [hpool] at hinv
    exact hinv.ranked hphase
  · have hinv := hs.reachable_inv ht
    have hended : (is_benchmark cfg).Ended t := by
      refine Program.ended_of_stuck (fun x _ => ?_) hstuck
      simp [is_benchmark, hinv.1]
    have hplaced := hinv.placed hended.2
    exact ⟨hended, hplaced.written_perm hs, hplaced.elements_pairwise hs, hplaced.elements_perm hs⟩

/-! ### Four keys on two cores -/

def four_keys : Config 1 where
  nkeys := 4
  log2buckets := 1
  log2maxkey := 3
  niterations := 1
  key_array := fun i => [5, 1, 6, 1].getD i 0
  key_core := fun i => if i % 2 = 0 then Fin.last 1 else (Fin.last 0).castSucc
  bucket_core := fun b => if b % 2 = 0 then Fin.last 1 else (Fin.last 0).castSucc
  sorted_core := fun i => if i % 2 = 0 then Fin.last 1 else (Fin.last 0).castSucc
  allreduce_inplace := BucketSort.sum_vectors
  storage := fun _ => 77

theorem ranks_and_sorts_four_keys : Correct four_keys (fun _ => ⟨[], 0, []⟩) fun _ => 0 :=
  ranks_and_sorts four_keys (fun _ => ⟨[], 0, []⟩) (fun _ => 0) (by decide) (by decide) (by decide)
    (by decide) (by decide) sum_vectors_eq

/-! ### Too many keys -/

/-- No key has gone anywhere, and none is on its way. -/
structure Idle (s : State n) (pool : Multiset (Item n)) : Prop where
  buckets : ∀ b, (s.bucketlist b).v = []
  written : s.written = []
  items : ∀ x ∈ pool, (∀ i, x ≠ .scatter i) ∧ (∀ b v, x ≠ .append b v) ∧ ∀ a k, x ≠ .write a k

theorem Idle.exec (h : Idle s (x ::ₘ rest)) (hx : x.exec cfg s = (s', new)) : Idle s' (rest + new) := by
  have hrest : ∀ y ∈ rest, (∀ i, y ≠ .scatter i) ∧ (∀ b v, y ≠ .append b v) ∧ ∀ a k, y ≠ .write a k :=
    fun y hy => h.items y (mem_cons_of_mem hy)
  have hset : ∀ b (bucket : Bucket), bucket.v = [] → ∀ b',
      ((s.setBucket b bucket).bucketlist b').v = [] := by
    intro b bucket hv b'
    by_cases heq : b' = b
    · subst heq
      simp only [State.setBucket, Function.update_self, hv]
    · simp only [State.setBucket, Function.update_of_ne heq]
      exact h.buckets b'
  obtain ⟨hscatter, happend, hwrite⟩ := h.items x (mem_cons_self x rest)
  cases x with
  | scatter i => exact absurd rfl (hscatter i)
  | append b v => exact absurd rfl (happend b v)
  | write a k => exact absurd rfl (hwrite a k)
  | verify b =>
    simp only [Item.exec, h.buckets, getElem?_nil] at hx
    cases hx
    rw [coe_nil, add_zero]
    exact ⟨h.buckets, h.written, hrest⟩
  | construct id =>
    cases hx
    rw [coe_nil, add_zero]
    exact ⟨hset id _ rfl, h.written, hrest⟩
  | reserve id =>
    simp only [Item.exec, State.abort] at hx
    split at hx <;> obtain ⟨rfl, rfl⟩ := Prod.mk.inj hx <;> rw [coe_nil, add_zero]
    · exact ⟨hset id _ rfl, h.written, hrest⟩
    · exact ⟨h.buckets, h.written, hrest⟩
  | local_rank b =>
    simp only [Item.exec, h.buckets, length_nil, if_true] at hx
    cases hx
    rw [coe_nil, add_zero]
    exact ⟨h.buckets, h.written, hrest⟩
  | setup c | histogram i | offsets c | memset c | check i =>
    simp only [Item.exec, State.abort] at hx
    repeat' split at hx
    all_goals
      cases hx
      rw [coe_nil, add_zero]
      exact ⟨h.buckets, h.written, hrest⟩

theorem Idle.advance (hnone : BucketSort.forall_count cfg.nkeys = 0) (h : Idle s 0)
    (hx : s.advance cfg = some (s', new)) : Idle s' new := by
  unfold State.advance at hx
  split at hx
  case h_6 =>
    rw [hnone] at hx
    cases hx
    exact ⟨h.buckets, h.written, fun y hy => absurd hy (notMem_zero y)⟩
  case h_8 =>
    split at hx <;> cases hx
    · refine ⟨h.buckets, h.written, fun y hy => ?_⟩
      obtain ⟨c, _, rfl⟩ := mem_map.mp hy
      simp
    · refine ⟨h.buckets, rfl, fun y hy => ?_⟩
      obtain ⟨c, _, rfl⟩ := mem_map.mp hy
      simp
  case h_11 => cases hx
  all_goals
    cases hx
    refine ⟨h.buckets, h.written, fun y hy => ?_⟩
    obtain ⟨c, _, rfl⟩ := mem_map.mp hy
    simp

theorem not_correct_of_none (hnone : BucketSort.forall_count cfg.nkeys = 0) (hnkeys : cfg.nkeys ≠ 0)
    (hmemory : ∀ b, (memory b).v = []) : ¬Correct cfg memory sorted_keys := by
  intro hcorrect
  obtain ⟨ls, t, hrun, hstuck⟩ := hcorrect.terminates.exists_end
  have hidle : Idle t.shared t.pool := by
    refine Program.Reachable.inv Idle
      ⟨hmemory, rfl, fun y hy => absurd hy (notMem_zero y)⟩ ?_ ?_ ⟨ls, hrun⟩
    · intro s x rest s' new h hx
      simp only [is_benchmark] at hx
      split at hx
      · cases hx
      · exact h.exec (Option.some.inj hx)
    · intro s s' new h hx
      simp only [is_benchmark] at hx
      split at hx
      · cases hx
      · exact h.advance hnone hx
  obtain ⟨_, hperm, _⟩ := hcorrect.sorted t ⟨ls, hrun⟩ hstuck
  have hlength := hperm.length_eq
  rw [hidle.written, length_range] at hlength
  exact hnkeys hlength.symm

def many_keys : Config 1 := { four_keys with nkeys := 2 ^ 47, key_array := fun i => i % 8 }

/-- With `2 ^ 47` keys nothing is sorted. -/
theorem many_keys_not_sorted :
    (2 ≤ many_keys.nkeys ∧ 1 ≤ many_keys.log2buckets ∧ many_keys.log2buckets ≤ many_keys.log2maxkey ∧
      many_keys.log2maxkey ≤ 30 ∧ (∀ i < many_keys.nkeys, many_keys.key_array i < 2 ^ many_keys.log2maxkey) ∧
      ∀ size counts, (∀ c, (counts c).length = size) → ∀ c, many_keys.allreduce_inplace counts c =
        (List.range size).map fun b => ∑ c', (counts c').getD b 0) ∧
    ¬Correct many_keys (fun _ => ⟨[], 0, []⟩) fun _ => 0 := by
  refine ⟨⟨by decide, by decide, by decide, by decide, fun i _ => Nat.mod_lt i (by decide),
    sum_vectors_eq⟩, ?_⟩
  exact not_correct_of_none (by decide) (by decide) fun _ => rfl

end IntSort

end Grappa
