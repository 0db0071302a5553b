import AdvCompArch.Grappa.AllocatorInvariant

/-! # Histories of a heap

    A program allocates and frees blocks in any order; the heap remembers the blocks
    that are live with the sizes asked for.  The buddy invariant holds along every
    history whose requests are for at most `2^63` bytes: above that the size is
    rounded to 0 (`oversized_malloc`). -/

namespace Grappa

open Transition Function Option List

namespace Allocator

/-! ### The constructor -/

theorem this_chunk_size_spec {size : ℕ} (hpos : 0 < size) (hmax : size < 2 ^ 63) :
    0 < this_chunk_size size ∧ this_chunk_size size ≤ size ∧ ∃ k, this_chunk_size size = 2 ^ k := by
  unfold this_chunk_size
  split_ifs with hpow
  · -- half of the size rounded up
    have hge : 2 ≤ size := by
      by_contra hlt
      obtain rfl : size = 1 := by omega
      exact hpow rfl
    rw [next_largest_power_of_2_toNat (by omega) (by omega)]
    refine ⟨Nat.two_pow_pos _, ?_, _, rfl⟩
    by_cases hone : size / 2 - 1 = 0
    · rw [hone, Nat.size_zero]
      omega
    · have hsize : 0 < (size / 2 - 1).size := Nat.size_pos.mpr (by omega)
      obtain ⟨k, hk⟩ : ∃ k, (size / 2 - 1).size = k + 1 := ⟨_, (Nat.succ_pred_eq_of_pos hsize).symm⟩
      have hle : 2 ^ k ≤ size / 2 - 1 := Nat.lt_size.mp (by omega)
      rw [hk, pow_succ]
      omega
  · have hand : size &&& (size - 1) = 0 := not_not.mp hpow
    exact ⟨hpos, le_refl _, (Nat.and_sub_one_eq_zero_iff_isPowerOfTwo (by omega)).mp hand⟩

theorem Consistent.get?_end {n : ℕ} {a : Allocator} (h : Consistent n a) :
    a.chunks_.get? n = none := by
  cases hn : a.chunks_.get? n with
  | none => rfl
  | some c =>
    have := h.tiling.inside n c.size (by simp [sizes, hn])
    omega

theorem Consistent.get?_add_chunk {n : ℕ} {a : Allocator} (h : Consistent n a) (s x : ℕ) :
    ((a.add_to_chunk_map n ⟨false, s⟩).add_to_free_list n).chunks_.get? x =
      if x = n then some ⟨false, s⟩ else a.chunks_.get? x := by
  unfold add_to_chunk_map
  simp only [get?_add_to_free_list, h.get?_end, isSome_none, Bool.false_eq_true, if_false,
    SortedMap.get?_insert, if_true, map_some]
  split_ifs <;> rfl

theorem Consistent.sizes_add_chunk {n : ℕ} {a : Allocator} (h : Consistent n a) (s : ℕ) :
    ((a.add_to_chunk_map n ⟨false, s⟩).add_to_free_list n).sizes =
      Function.update a.sizes n (some s) := by
  funext x
  unfold sizes
  rw [h.get?_add_chunk]
  by_cases hx : x = n
  · rw [if_pos hx, hx, update_self]
    rfl
  · rw [if_neg hx, update_of_ne hx]

theorem Consistent.add_chunk {n : ℕ} {a : Allocator} (h : Consistent n a) {s : ℕ} (hs : 0 < s)
    (hpow : ∃ k, s = 2 ^ k) :
    Consistent (n + s) ((a.add_to_chunk_map n ⟨false, s⟩).add_to_free_list n) ∧
      ∀ x, ((a.add_to_chunk_map n ⟨false, s⟩).add_to_free_list n).used x = a.used x := by
  have hnew := h.get?_end
  have hget := h.get?_add_chunk s
  have hsizes := h.sizes_add_chunk s
  refine ⟨⟨?_, ?_, ?_⟩, ?_⟩
  · rw [hsizes]
    exact h.tiling.extend hs
  · intro x t ht
    rw [hsizes] at ht
    by_cases hx : x = n
    · rw [hx, update_self] at ht
      rwa [← some.inj ht]
    · rw [update_of_ne hx] at ht
      exact h.two_pow x t ht
  · have hexcept := (h.free_lists.except n (by
        intro k
        rw [hnew]
        exact nofun)).of_chunks (a.add_to_chunk_map n ⟨false, s⟩) rfl (by
        intro x hx
        unfold add_to_chunk_map
        simp only [hnew, isSome_none, Bool.false_eq_true, if_false]
        rw [SortedMap.get?_insert, if_neg hx])
    apply hexcept.add (c := ⟨false, s⟩)
    unfold add_to_chunk_map
    simp only [hnew, isSome_none, Bool.false_eq_true, if_false]
    rw [SortedMap.get?_insert, if_pos rfl]
  · intro x
    by_cases hx : x = n
    · have hnone : a.used x = none := by simp [used, hx, hnew]
      rw [hnone, used_of_get? ((hget x).trans (if_pos hx))]
      rfl
    · exact used_congr ((hget x).trans (if_neg hx))

theorem Consistent.add_chunks (fuel size : ℕ) {n : ℕ} {a : Allocator} (h : Consistent n a)
    (hfuel : size ≤ fuel) (hmax : size < 2 ^ 63) :
    Consistent (n + size) (add_chunks fuel size n a) ∧
      ∀ x, (Grappa.Allocator.add_chunks fuel size n a).used x = a.used x := by
  induction fuel generalizing size n a with
  | zero =>
    obtain rfl : size = 0 := by omega
    exact ⟨h, fun _ => rfl⟩
  | succ fuel ih =>
    unfold Grappa.Allocator.add_chunks
    split_ifs with hpos
    · obtain ⟨hs, hle, hpow⟩ := this_chunk_size_spec hpos hmax
      obtain ⟨hcons, hused⟩ := h.add_chunk hs hpow
      obtain ⟨hcons', hused'⟩ := ih (size - this_chunk_size size) hcons (by omega) (by omega)
      rw [show n + this_chunk_size size + (size - this_chunk_size size) = n + size by omega] at hcons'
      exact ⟨hcons', fun x => (hused' x).trans (hused x)⟩
    · obtain rfl : size = 0 := by omega
      exact ⟨h, fun _ => rfl⟩

theorem consistent_empty (base : ℤ) : Consistent 0 ⟨base, .empty, .empty⟩ := by
  refine ⟨IsTiling.empty, ?_, ?_, ?_, ?_⟩
  · intro x s hs
    cases hs
  · intro k x
    constructor
    · exact nofun
    · exact nofun
  · intro k
    exact nodup_nil
  · intro k
    exact nofun

theorem consistent_new (base size : ℤ) (hmax : size < 2 ^ 63) :
    Consistent size.toNat (new base size) ∧ ∀ x, (new base size).used x = none := by
  have h := (consistent_empty base).add_chunks size.toNat size.toNat (le_refl _) (by omega)
  rw [zero_add] at h
  exact h

end Allocator

/-! ### Histories -/

/-- A heap and its live blocks: the address that `malloc` returned, and the size asked for. -/
structure HeapState where
  heap : Allocator
  live : List (ℤ × ℕ)

inductive HeapLabel where
  | malloc (size : ℕ)
  | free (void_address : ℤ)
  deriving DecidableEq

/-- A `malloc` of at least one byte (a `size_t`), or a `free` of a live block. -/
def HeapState.step (s : HeapState) : HeapLabel → Option HeapState
  | .malloc size =>
    if 1 ≤ size ∧ size < 2 ^ 64 then
      let r := s.heap.malloc size
      some ⟨r.2, match r.1 with
        | none => s.live
        | some p => (p, size) :: s.live⟩
    else none
  | .free p =>
    if p ∈ s.live.map Prod.fst then
      some ⟨s.heap.free p, s.live.filter fun b => b.1 ≠ p⟩
    else none

theorem HeapState.step_malloc {s : HeapState} {size : ℕ} {p : ℤ} (hpos : 1 ≤ size)
    (hsize : size < 2 ^ 64) (h : (s.heap.malloc size).1 = some p) :
    s.step (.malloc size) = some ⟨(s.heap.malloc size).2, (p, size) :: s.live⟩ := by
  unfold HeapState.step
  simp only
  rw [if_pos ⟨hpos, hsize⟩, h]

/-- The heap of `size` bytes at `base`. -/
def heap (base size : ℤ) : Transition.System HeapState HeapLabel :=
  ⟨⟨.new base size, []⟩, HeapState.step⟩

/-- The length of the chunk in use at an address. -/
def HeapState.length (s : HeapState) (p : ℤ) : Option ℕ :=
  s.heap.used (p - s.heap.base_).toNat

/-- What the allocator is to keep: the chunks tile the heap; the free lists hold exactly the
    chunks not in use; every live block is at least as long as asked for; the live blocks are
    disjoint; and a `malloc` that throws changes nothing. -/
structure HeapOk (n : ℕ) (s : HeapState) : Prop where
  tiles : ∀ x < n, ∃! p : ℕ × ℕ, s.heap.sizes p.1 = some p.2 ∧ p.1 ≤ x ∧ x < p.1 + p.2
  inside : ∀ x l, s.heap.sizes x = some l → 0 < l ∧ x + l ≤ n
  free_lists : s.heap.FreeListsOk
  long : ∀ b ∈ s.live, ∃ l, s.length b.1 = some l ∧ b.2 ≤ l
  disjoint : s.live.Pairwise fun b b' => ∀ l l' : ℕ, s.length b.1 = some l →
    s.length b'.1 = some l' → b.1 + (l : ℤ) ≤ b'.1 ∨ b'.1 + (l' : ℤ) ≤ b.1
  throws : ∀ size, (s.heap.malloc size).1 = none → (s.heap.malloc size).2 = s.heap

/-- The invariant of the histories. -/
structure HeapInv (n : ℕ) (s : HeapState) : Prop where
  consistent : s.heap.Consistent n
  /-- The live blocks are the chunks in use. -/
  live : ∀ b ∈ s.live, ∃ it l : ℕ, b.1 = it + s.heap.base_ ∧ s.heap.used it = some l ∧ b.2 ≤ l
  nodup : (s.live.map Prod.fst).Nodup

/-- A request that is rounded up to a power of two, or that finds nothing to hand out. -/
def Allowed (s : HeapState) : HeapLabel → Prop
  | .malloc size => size ≤ 2 ^ 63 ∨ s.heap.free_lists_.entries = []
  | .free _ => True

theorem HeapInv.step {n : ℕ} {s s' : HeapState} {l : HeapLabel} (h : HeapInv n s)
    (hl : Allowed s l) (hstep : s.step l = some s') : HeapInv n s' := by
  cases l with
  | malloc size =>
    obtain ⟨hrange, rfl⟩ := ite_some_none_eq_some.mp hstep
    rcases h.consistent.malloc (hl.imp_left fun hle => ⟨hrange.1, hle⟩) with
      hthrow | ⟨it, l, haddr, hle, hfree, hcons, hbase, hused⟩
    · rw [hthrow]
      exact h
    · rw [haddr]
      -- the new block was not in use, so it is none of the live ones
      refine ⟨hcons, ?_, ?_⟩
      · intro b hb
        rcases mem_cons.mp hb with rfl | hb
        · exact ⟨it, l, by rw [hbase], by rw [hused, if_pos rfl], hle⟩
        · obtain ⟨it', l', haddr', hused', hle'⟩ := h.live b hb
          have hne : it' ≠ it := by
            rintro rfl
            rw [hfree] at hused'
            cases hused'
          exact ⟨it', l', by rw [hbase, haddr'], by rw [hused, if_neg hne, hused'], hle'⟩
      · rw [map_cons]
        apply nodup_cons.mpr ⟨_, h.nodup⟩
        intro hmem
        obtain ⟨b, hb, heq⟩ := mem_map.mp hmem
        obtain ⟨it', l', haddr', hused', -⟩ := h.live b hb
        obtain rfl : it' = it := by omega
        rw [hfree] at hused'
        cases hused'
  | free p =>
    obtain ⟨hmem, rfl⟩ := ite_some_none_eq_some.mp hstep
    obtain ⟨b, hb, rfl⟩ := mem_map.mp hmem
    obtain ⟨it, l, haddr, hit, -⟩ := h.live b hb
    rw [haddr]
    obtain ⟨hcons, hbase, hused⟩ := h.consistent.free hit
    refine ⟨hcons, ?_, ?_⟩
    · intro b' hb'
      obtain ⟨hb', hne⟩ := mem_filter.mp hb'
      obtain ⟨it', l', haddr', hit', hle'⟩ := h.live b' hb'
      have hne' : it' ≠ it := by
        rintro rfl
        rw [haddr'] at hne
        simp at hne
      exact ⟨it', l', by rw [hbase, haddr'], by rw [hused, if_neg hne', hit'], hle'⟩
    · exact h.nodup.sublist (filter_sublist.map _)

theorem HeapInv.ok {n : ℕ} {s : HeapState} (h : HeapInv n s) : HeapOk n s := by
  have hlength : ∀ it : ℕ, s.length (it + s.heap.base_) = s.heap.used it := by
    intro it
    unfold HeapState.length
    rw [show ((it : ℤ) + s.heap.base_ - s.heap.base_).toNat = it by omega]
  have hsizes : ∀ it l, s.heap.used it = some l → s.heap.sizes it = some l := by
    intro it l hit
    rw [Allocator.used_eq_some] at hit
    simp [Allocator.sizes, hit]
  refine ⟨?_, h.consistent.tiling.inside, h.consistent.free_lists, ?_, ?_, ?_⟩
  · intro x hx
    exact h.consistent.tiling.existsUnique hx
  · intro b hb
    obtain ⟨it, l, haddr, hused, hle⟩ := h.live b hb
    exact ⟨l, by rw [haddr, hlength, hused], hle⟩
  · apply (pairwise_map.mp h.nodup).imp_of_mem
    intro b b' hb hb' hne l l' hl hl'
    obtain ⟨it, _, haddr, -, -⟩ := h.live b hb
    obtain ⟨it', _, haddr', -, -⟩ := h.live b' hb'
    rw [haddr, hlength] at hl
    rw [haddr', hlength] at hl'
    -- different chunks of a tiling
    rcases Nat.lt_trichotomy it it' with hlt | rfl | hlt
    · have := h.consistent.tiling.disjoint it l it' l' (hsizes _ _ hl) (hsizes _ _ hl') hlt
      omega
    · exact absurd (haddr.trans haddr'.symm) hne
    · have := h.consistent.tiling.disjoint it' l' it l (hsizes _ _ hl') (hsizes _ _ hl) hlt
      omega
  · intro size hnone
    unfold Allocator.malloc at hnone ⊢
    simp only at hnone ⊢
    split at hnone
    · rfl
    · cases hnone

/-- **The buddy allocator**: after every history of allocations and frees of live blocks in which
    no request above `2^63` bytes meets a free chunk, the heap is as it is to be. -/
theorem buddy_allocator_ok (base size : ℤ) (hmax : size < 2 ^ 63) (ls : List HeapLabel)
    (s : HeapState) (hrun : (heap base size).run (heap base size).init ls = some s)
    (hallowed : (heap base size).Always Allowed (heap base size).init ls) :
    HeapOk size.toNat s := by
  apply HeapInv.ok
  obtain ⟨hcons, hused⟩ := Allocator.consistent_new base size hmax
  apply System.invariant_under (HeapInv size.toNat) _ _ hallowed hrun
  · intro s l s' h hl hstep
    exact h.step hl hstep
  · refine ⟨hcons, ?_, nodup_nil⟩
    intro b hb
    cases hb

theorem buddy_allocator_ok_two_blocks :
    ∃ s, (heap 4096 96).run (heap 4096 96).init [.malloc 10, .malloc 20] = some s ∧
      HeapOk 96 s := by
  have hstep : ∀ (s : HeapState) (size : ℕ), 1 ≤ size → size < 2 ^ 64 →
      ∃ s', s.step (.malloc size) = some s' := by
    intro s size h1 h2
    exact ⟨_, if_pos ⟨h1, h2⟩⟩
  obtain ⟨s, hs⟩ := hstep (heap 4096 96).init 10 (by norm_num) (by norm_num)
  obtain ⟨t, ht⟩ := hstep s 20 (by norm_num) (by norm_num)
  have hrun : (heap 4096 96).run (heap 4096 96).init [.malloc 10, .malloc 20] = some t := by
    rw [System.run_cons]
    refine ⟨s, hs, ?_⟩
    rw [System.run_cons]
    exact ⟨t, ht, rfl⟩
  refine ⟨t, hrun, ?_⟩
  apply buddy_allocator_ok 4096 96 (by norm_num) _ t hrun
  exact ⟨.inl (by norm_num), fun _ _ => ⟨.inl (by norm_num), fun _ _ => trivial⟩⟩

theorem next_largest_power_of_2_oversized :
    (next_largest_power_of_2 (BitVec.ofNat 64 (2 ^ 63 + 1))).toNat = 0 := by
  decide

theorem subdivide_zero_one (a : Allocator) (it : ℕ) :
    a.subdivide 0 1 it = (a.cut_chunk it 0, it) := by
  rw [Allocator.subdivide, if_pos Nat.one_pos, Allocator.subdivide, if_neg (lt_irrefl 0)]
  rfl

theorem malloc_oversized :
    (Allocator.new 0 1).malloc (2 ^ 63 + 1) =
      (some 0, Allocator.remove_from_free_list
        { (Allocator.new 0 1).cut_chunk 0 0 with
          chunks_ := ((Allocator.new 0 1).cut_chunk 0 0).chunks_.modify 0 fun c =>
            { c with in_use := true } } 0) := by
  have hlow : (Allocator.new 0 1).free_lists_.lowerBound 0 = some (1, [0]) := by decide
  unfold Allocator.malloc
  simp only [next_largest_power_of_2_oversized, hlow, headD_cons, subdivide_zero_one]
  rfl

/-- A heap of one byte grants a request of `2^63 + 1` bytes, with a chunk of size 0. -/
theorem oversized_malloc :
    ∃ s, (heap 0 1).run (heap 0 1).init [.malloc (2 ^ 63 + 1)] = some s ∧ ¬ HeapOk 1 s := by
  have hnext : (heap 0 1).next (heap 0 1).init (.malloc (2 ^ 63 + 1)) =
      some ⟨((Allocator.new 0 1).malloc (2 ^ 63 + 1)).2, [(0, 2 ^ 63 + 1)]⟩ :=
    HeapState.step_malloc (s := (heap 0 1).init) (by norm_num) (by norm_num)
      (congrArg Prod.fst malloc_oversized)
  refine ⟨_, System.run_cons.mpr ⟨_, hnext, rfl⟩, ?_⟩
  intro h
  obtain ⟨l, hl, hle⟩ := h.long (0, 2 ^ 63 + 1) mem_cons_self
  have hzero : HeapState.length ⟨((Allocator.new 0 1).malloc (2 ^ 63 + 1)).2,
      [(0, 2 ^ 63 + 1)]⟩ 0 = some 0 := by
    rw [malloc_oversized]
    rfl
  rw [hzero] at hl
  cases hl
  exact absurd hle (by norm_num)

end Grappa
