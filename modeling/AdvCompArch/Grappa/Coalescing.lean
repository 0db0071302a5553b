import AdvCompArch.Grappa.HeapRuns

/-! # The buddy allocator coalesces

    Every chunk starts at a multiple of its size, and no free chunk has a free buddy, but
    for the chunk at hand between two merges or two cuts (`CoalescedExcept`).  So when
    nothing is in use the chunks are a coalesced tiling of the heap, and there is only one:
    the tiling that the constructor makes of an even number of bytes.

    The heap of `GlobalMemory` is a number of pages.  A `malloc` of no bytes cuts a chunk of
    size 0, which cannot be given back (`zero_malloc`). -/

namespace Grappa

open Transition Option List Allocator

namespace Allocator

/-- Every chunk starts at a multiple of its size. -/
def Aligned (a : Allocator) : Prop := ∀ x s, a.sizes x = some s → s ∣ x

/-- No free chunk has a free buddy; nothing is said of the chunk at `it`. -/
def CoalescedExcept (it : ℕ) (a : Allocator) : Prop :=
  ∀ x s, x ≠ it → x ^^^ s ≠ it → a.chunks_.get? x = some ⟨false, s⟩ →
    a.chunks_.get? (x ^^^ s) ≠ some ⟨false, s⟩

/-- No free chunk has a free buddy. -/
def Coalesced (a : Allocator) : Prop :=
  ∀ x s, a.chunks_.get? x = some ⟨false, s⟩ → a.chunks_.get? (x ^^^ s) ≠ some ⟨false, s⟩

theorem Coalesced.except {a : Allocator} (h : Coalesced a) (it : ℕ) : CoalescedExcept it a :=
  fun x s _ _ => h x s

/-- The chunk left out has no free buddy either. -/
theorem CoalescedExcept.coalesced {a : Allocator} {it : ℕ} (h : CoalescedExcept it a)
    (hit : ∀ s, a.chunks_.get? it = some ⟨false, s⟩ →
      a.chunks_.get? (it ^^^ s) ≠ some ⟨false, s⟩) : Coalesced a := by
  intro x s hx hbuddy
  by_cases h1 : x = it
  · subst h1
    exact hit s hx hbuddy
  · by_cases h2 : x ^^^ s = it
    · -- the buddy of the buddy
      rw [← h2] at hit
      apply hit s hbuddy
      rw [Nat.xor_assoc, Nat.xor_self, Nat.xor_zero]
      exact hx
    · exact h x s h1 h2 hx hbuddy

theorem Aligned.of_get? {a : Allocator} (h : Aligned a) {x : ℕ} {c : AllocatorChunk}
    (hx : a.chunks_.get? x = some c) : c.size ∣ x := by
  apply h
  unfold sizes
  rw [hx]
  rfl

/-! ### What a cut and a merge keep -/

theorem Aligned.cut {n k it : ℕ} {a : Allocator} (h : Aligned a) (hcons : Consistent n a)
    (hit : a.chunks_.get? it = some ⟨false, 2 ^ k + 2 ^ k⟩) : Aligned (a.cut_chunk it (2 ^ k)) := by
  have hdvd : 2 ^ k ∣ it := by
    have := h.of_get? hit
    rw [← Nat.mul_two] at this
    exact (Nat.dvd_mul_right _ 2).trans this
  intro x s hs
  rw [sizes, get?_cut_chunk hit (hcons.cut_fresh hit)] at hs
  split_ifs at hs with h1 h2
  · cases hs
    rw [h1]
    exact Nat.dvd_add hdvd (dvd_refl _)
  · cases hs
    rw [h2]
    exact hdvd
  · exact h x s hs

/-- The lower half of a chunk is left with the upper half as its buddy, which is the next chunk
    at hand. -/
theorem CoalescedExcept.cut {n k it : ℕ} {a : Allocator} (h : CoalescedExcept it a)
    (ha : Aligned a) (hcons : Consistent n a)
    (hit : a.chunks_.get? it = some ⟨false, 2 ^ k + 2 ^ k⟩) :
    CoalescedExcept (it + 2 ^ k) (a.cut_chunk it (2 ^ k)) := by
  have hdvd : 2 ^ (k + 1) ∣ it := by
    rw [pow_succ, Nat.mul_two]
    exact ha.of_get? hit
  have hget := get?_cut_chunk hit (hcons.cut_fresh hit)
  intro x s hx hxs hfree
  rw [hget, if_neg hx] at hfree
  rw [hget, if_neg hxs]
  split_ifs at hfree with h1
  · -- the lower half
    obtain rfl : s = 2 ^ k := by simpa using hfree.symm
    rw [h1, Dyadic.xor_lower hdvd] at hxs
    exact absurd rfl hxs
  · split_ifs with h2
    · intro heq
      obtain rfl : s = 2 ^ k := by simpa using heq.symm
      have : x = it + 2 ^ k := by
        rw [← Dyadic.xor_lower hdvd, ← h2, Nat.xor_assoc, Nat.xor_self, Nat.xor_zero]
      exact absurd this hx
    · exact h x s h1 h2 hfree

theorem Aligned.merge {n lower size : ℕ} {a : Allocator} (h : Aligned a) (hcons : Consistent n a)
    (hlow : a.chunks_.get? lower = some ⟨false, size⟩) (hxor : lower ^^^ size = lower + size) :
    Aligned (a.merge_buddy lower (lower + size) size) := by
  have hslow : a.sizes lower = some size := by simp [sizes, hlow]
  have hpos := (hcons.tiling.inside lower size hslow).1
  obtain ⟨k, rfl⟩ := hcons.two_pow lower size hslow
  intro x s hs
  rw [sizes, get?_merge_buddy hpos hlow] at hs
  split_ifs at hs with h1 h2
  · cases hs
    -- a lower half starts where its parent does
    obtain ⟨p, hp, rfl | rfl⟩ := Dyadic.exists_parent (h.of_get? hlow)
    · rw [h1]
      exact hp
    · rw [Dyadic.xor_upper hp] at hxor
      omega
  · cases hs
  · exact h x s hs

theorem CoalescedExcept.merge {it lower size : ℕ} {a : Allocator} (h : CoalescedExcept it a)
    (hpos : 0 < size) (hside : it = lower ∨ it = lower + size)
    (hlow : a.chunks_.get? lower = some ⟨false, size⟩) :
    CoalescedExcept lower (a.merge_buddy lower (lower + size) size) := by
  have hget := get?_merge_buddy hpos hlow
  intro x s hx hxs hfree
  rw [hget, if_neg hx] at hfree
  rw [hget, if_neg hxs]
  split_ifs at hfree with h1
  split_ifs with h2
  · exact nofun
  · -- neither of the two was part of the merge
    apply h x s _ _ hfree
    · rcases hside with rfl | rfl
      · exact hx
      · exact h1
    · rcases hside with rfl | rfl
      · exact hxs
      · exact h2

/-! ### `malloc`, `free` and the constructor -/

theorem Consistent.malloc_coalesced {n : ℕ} {a : Allocator} (h : Consistent n a) {size : ℕ}
    (hsize : (1 ≤ size ∧ size ≤ 2 ^ 63) ∨ a.free_lists_.entries = []) (ha : Aligned a)
    (hc : Coalesced a) : Aligned (a.malloc size).2 ∧ Coalesced (a.malloc size).2 := by
  rcases h.malloc_cases hsize with hthrow | ⟨front, j, d, -, hfront, -, heap⟩
  · rw [hthrow]
    exact ⟨ha, hc⟩
  obtain ⟨-, ⟨hal, hco⟩, hlast⟩ := h.subdivide (P := fun it b => Aligned b ∧ CoalescedExcept it b)
    (by
      intro b it k hb hit hP
      exact ⟨hP.1.cut hb hit, hP.2.cut hP.1 hb hit⟩) d hfront ⟨ha, hc.except front⟩
  rw [heap]
  constructor
  · intro x s hs
    rw [sizes_take hlast] at hs
    exact hal x s hs
  · -- the chunk at hand is in use from now on
    intro x s hx hbuddy
    rw [get?_take hlast] at hx hbuddy
    split_ifs at hx with h1
    · cases hx
    · split_ifs at hbuddy with h2
      · cases hbuddy
      · exact hco x s h1 h2 hx hbuddy

theorem Consistent.free_coalesced {n : ℕ} {a : Allocator} (h : Consistent n a) {it s : ℕ}
    (hit : a.used it = some s) (ha : Aligned a) (hc : Coalesced a) :
    Aligned (a.free (it + a.base_)) ∧ Coalesced (a.free (it + a.base_)) := by
  obtain ⟨hfree, hback, hget⟩ := h.give_back hit
  have hnot : ∀ k, (a.add_to_free_list it).chunks_.get? it ≠ some ⟨true, k⟩ := by
    intro k
    rw [hget, if_pos rfl]
    simp
  have hal : Aligned (a.add_to_free_list it) := by
    intro x t ht
    rw [sizes, hget] at ht
    split_ifs at ht with h1
    · cases ht
      rw [h1]
      exact ha.of_get? (c := ⟨true, s⟩) (used_eq_some.mp hit)
    · exact ha x t ht
  have hco : CoalescedExcept it (a.add_to_free_list it) := by
    intro x t hx hxt
    rw [hget, hget, if_neg hx, if_neg hxt]
    exact hc x t
  rw [hfree]
  obtain ⟨-, last, ⟨hal', hco'⟩, hlast⟩ := hback.try_merge
    (P := fun it b => Aligned b ∧ CoalescedExcept it b) (by
      intro b it lower size hb hside hlow hhigh hxor hP
      have hpos := (hb.tiling.inside lower size (by simp [sizes, hlow])).1
      exact ⟨hP.1.merge hb hlow hxor, hP.2.merge hpos hside hlow⟩) hnot ⟨hal, hco⟩
  exact ⟨hal', hco'.coalesced hlast⟩

/-! ### The constructor -/

theorem this_chunk_size_even {size : ℕ} (hpos : 0 < size) (heven : 2 ∣ size)
    (hmax : size < 2 ^ 63) : ∃ j, this_chunk_size size = 2 ^ j ∧ 2 ^ j ≤ size ∧ size < 2 ^ (j + 1) := by
  obtain ⟨m, rfl⟩ := heven
  unfold this_chunk_size
  split_ifs with hpow
  · have hhalf : 2 * m / 2 = m := by omega
    refine ⟨(m - 1).size, ?_, ?_, ?_⟩
    · rw [hhalf, next_largest_power_of_2_toNat (by omega) (by omega)]
    · cases hsize : (m - 1).size with
      | zero =>
        rw [pow_zero]
        omega
      | succ i =>
        have hle : 2 ^ i ≤ m - 1 := Nat.lt_size.mp (by omega)
        rw [pow_succ]
        omega
    · have hlt := Nat.lt_size_self (m - 1)
      have hne : 2 * m ≠ 2 ^ ((m - 1).size + 1) := by
        intro heq
        apply hpow
        rw [Nat.and_sub_one_eq_zero_iff_isPowerOfTwo (by omega)]
        exact ⟨_, heq⟩
      rw [pow_succ] at hne ⊢
      omega
  · have hand : 2 * m &&& (2 * m - 1) = 0 := not_not.mp hpow
    obtain ⟨j, hj⟩ := (Nat.and_sub_one_eq_zero_iff_isPowerOfTwo (by omega)).mp hand
    refine ⟨j, hj, hj.ge, ?_⟩
    rw [hj]
    exact Nat.pow_lt_pow_right (by norm_num) (Nat.lt_succ_self j)

/-- The allocator in the loop of the constructor: `size` bytes are left from `offset` on, which is
    less than any chunk so far. -/
structure Built (offset size : ℕ) (a : Allocator) : Prop where
  consistent : Consistent offset a
  aligned : Aligned a
  different : ∀ x y s, a.sizes x = some s → a.sizes y = some s → x = y
  rest : ∃ k, size < 2 ^ k ∧ 2 ^ k ∣ offset ∧ ∀ x s, a.sizes x = some s → 2 ^ k ≤ s

theorem Built.add_chunk {offset size j : ℕ} {a : Allocator} (h : Built offset size a)
    (hle : 2 ^ j ≤ size) (hlt : size < 2 ^ (j + 1)) :
    Built (offset + 2 ^ j) (size - 2 ^ j)
      ((a.add_to_chunk_map offset ⟨false, 2 ^ j⟩).add_to_free_list offset) := by
  obtain ⟨k, hk, hdvd, hlarge⟩ := h.rest
  have hjk : j < k := by
    by_contra hge
    have := Nat.pow_le_pow_right (by norm_num : 0 < 2) (Nat.not_lt.mp hge)
    omega
  have hpow : 2 ^ j < 2 ^ k := Nat.pow_lt_pow_right (by norm_num) hjk
  have hoff : 2 ^ j ∣ offset := (pow_dvd_pow 2 hjk.le).trans hdvd
  have hsizes := h.consistent.sizes_add_chunk (2 ^ j)
  have hcase : ∀ x s, sizes ((a.add_to_chunk_map offset ⟨false, 2 ^ j⟩).add_to_free_list
      offset) x = some s → (x = offset ∧ s = 2 ^ j) ∨ a.sizes x = some s := by
    intro x s hs
    rw [hsizes] at hs
    by_cases hx : x = offset
    · rw [hx, Function.update_self] at hs
      exact .inl ⟨hx, (some.inj hs).symm⟩
    · rw [Function.update_of_ne hx] at hs
      exact .inr hs
  refine ⟨(h.consistent.add_chunk (Nat.two_pow_pos j) ⟨j, rfl⟩).1, ?_, ?_, j, ?_, ?_, ?_⟩
  · intro x s hs
    rcases hcase x s hs with ⟨rfl, rfl⟩ | hs
    · exact hoff
    · exact h.aligned x s hs
  · -- the new chunk is shorter than the others
    intro x y s hx hy
    rcases hcase x s hx with ⟨rfl, rfl⟩ | hx'
    · rcases hcase y _ hy with ⟨rfl, -⟩ | hy'
      · rfl
      · have := hlarge y _ hy'
        omega
    · rcases hcase y s hy with ⟨rfl, rfl⟩ | hy'
      · have := hlarge x _ hx'
        omega
      · exact h.different x y s hx' hy'
  · rw [pow_succ] at hlt
    omega
  · exact Nat.dvd_add hoff (dvd_refl _)
  · intro x s hs
    rcases hcase x s hs with ⟨rfl, rfl⟩ | hs
    · exact le_refl _
    · exact hpow.le.trans (hlarge x s hs)

theorem Built.add_chunks (fuel : ℕ) {offset size : ℕ} {a : Allocator} (h : Built offset size a)
    (heven : 2 ∣ size) (hfuel : size ≤ fuel) (hmax : size < 2 ^ 63) :
    Built (offset + size) 0 (add_chunks fuel size offset a) := by
  induction fuel generalizing size offset a with
  | zero =>
    obtain rfl : size = 0 := by omega
    exact h
  | succ fuel ih =>
    unfold Grappa.Allocator.add_chunks
    split_ifs with hpos
    · obtain ⟨j, hj, hle, hlt⟩ := this_chunk_size_even hpos heven hmax
      simp only [hj]
      -- the rest is even too
      have hrest : 2 ∣ size - 2 ^ j := by
        cases j with
        | zero =>
          rw [pow_zero, zero_add, Nat.pow_one] at *
          omega
        | succ i => exact Nat.dvd_sub heven ⟨2 ^ i, by rw [pow_succ, mul_comm]⟩
      have hpow := Nat.two_pow_pos j
      have hdone := ih (h.add_chunk hle hlt) hrest (by omega) (by omega)
      rwa [show offset + 2 ^ j + (size - 2 ^ j) = offset + size by omega] at hdone
    · obtain rfl : size = 0 := by omega
      exact h

/-- **The constructor** on an even number of bytes makes the coalesced tiling. -/
theorem built_new (base size : ℤ) (heven : 2 ∣ size.toNat) (hmax : size < 2 ^ 63) :
    Built size.toNat 0 (new base size) := by
  have hempty : Built 0 size.toNat ⟨base, .empty, .empty⟩ := by
    refine ⟨consistent_empty base, ?_, ?_, 63, by omega, Nat.dvd_zero _, ?_⟩
    · intro x s hs
      cases hs
    · intro x y s hs
      cases hs
    · intro x s hs
      cases hs
  have h := hempty.add_chunks size.toNat heven (le_refl _) (by omega)
  rwa [zero_add] at h

theorem base_add_chunks (fuel size offset : ℕ) (a : Allocator) :
    (add_chunks fuel size offset a).base_ = a.base_ := by
  induction fuel generalizing size offset a with
  | zero => rfl
  | succ fuel ih =>
    unfold Grappa.Allocator.add_chunks
    split_ifs
    · rw [ih, base_add_to_free_list]
      rfl
    · rfl

theorem base_new (base size : ℤ) : (new base size).base_ = base := base_add_chunks ..

theorem Built.apart {n : ℕ} {a : Allocator} (h : Built n 0 a) {x s : ℕ} (hx : a.sizes x = some s) :
    a.sizes (x ^^^ s) ≠ some s := by
  intro hbuddy
  have hpos := (h.consistent.tiling.inside x s hx).1
  have heq := h.different x (x ^^^ s) s hx hbuddy
  have hzero : s = 0 := by
    calc s = x ^^^ (x ^^^ s) := by rw [← Nat.xor_assoc, Nat.xor_self, Nat.zero_xor]
      _ = 0 := by rw [← heq, Nat.xor_self]
  omega

theorem Built.coalesced {n : ℕ} {a : Allocator} (h : Built n 0 a) : Coalesced a := by
  intro x s hx hbuddy
  apply h.apart (x := x) (s := s)
  · simp [sizes, hx]
  · simp [sizes, hbuddy]

/-! ### Nothing in use -/

theorem eq_of_mem_iff_of_nodup {α : Type} {l m : List α} (hl : l.Nodup) (hm : m.Nodup)
    (hmem : ∀ x, x ∈ l ↔ x ∈ m) (hone : ∀ x y, x ∈ l → y ∈ l → x = y) : l = m := by
  have hperm := (perm_ext_iff_of_nodup hl hm).mpr hmem
  match l with
  | [] => exact (nil_perm.mp hperm).symm
  | [x] => exact (singleton_perm.mp hperm).symm ▸ rfl
  | x :: y :: l =>
    have heq := hone x y mem_cons_self (mem_cons_of_mem _ mem_cons_self)
    simp [heq] at hl

theorem get?_eq_sizes {a : Allocator} (hnone : ∀ x, a.used x = none) (x : ℕ) :
    a.chunks_.get? x = (a.sizes x).map fun s => ⟨false, s⟩ := by
  have hx := hnone x
  unfold sizes
  cases hget : a.chunks_.get? x with
  | none => rfl
  | some c =>
    rw [used_of_get? hget] at hx
    obtain ⟨_ | _, s⟩ := c
    · rfl
    · cases hx

theorem Consistent.isCoalesced {n : ℕ} {a : Allocator} (h : Consistent n a) (ha : Aligned a)
    (hc : Coalesced a) (hnone : ∀ x, a.used x = none) : IsCoalesced n a.sizes := by
  refine ⟨h.tiling, ?_, ?_⟩
  · intro x s hs
    obtain ⟨k, rfl⟩ := h.two_pow x s hs
    exact ⟨k, rfl, ha x _ hs⟩
  · intro x s hx hbuddy
    apply hc x s
    · rw [get?_eq_sizes hnone, hx]
      rfl
    · rw [get?_eq_sizes hnone, hbuddy]
      rfl

theorem FreeListsOk.get?_free_lists {a : Allocator} (h : FreeListsOk a) (k : ℕ) :
    a.free_lists_.get? k = if a.freeList k = [] then none else some (a.freeList k) := by
  unfold freeList
  cases hk : a.free_lists_.get? k with
  | none => rfl
  | some l =>
    have hne : l ≠ [] := by
      rintro rfl
      exact h.nonempty k hk
    simp [hne]

theorem Consistent.eq_of_unused {n : ℕ} {a b : Allocator} (ha : Consistent n a)
    (hb : Consistent n b) (hca : IsCoalesced n a.sizes) (hcb : IsCoalesced n b.sizes)
    (hna : ∀ x, a.used x = none) (hnb : ∀ x, b.used x = none) :
    a.chunks_ = b.chunks_ ∧ a.free_lists_ = b.free_lists_ := by
  have hsizes := hca.unique hcb
  have hget : ∀ x, a.chunks_.get? x = b.chunks_.get? x := by
    intro x
    rw [get?_eq_sizes hna, get?_eq_sizes hnb, hsizes]
  have hlist : ∀ k, a.freeList k = b.freeList k := by
    intro k
    -- there is one chunk of a size at the most
    apply eq_of_mem_iff_of_nodup (ha.free_lists.nodup k) (hb.free_lists.nodup k)
    · intro x
      rw [ha.free_lists.listed, hb.free_lists.listed, hget]
    · intro x y hx hy
      rw [ha.free_lists.listed] at hx hy
      exact hca.length_injective (s := k) (by simp [sizes, hx]) (by simp [sizes, hy])
  refine ⟨SortedMap.ext_get? hget, SortedMap.ext_get? ?_⟩
  intro k
  rw [ha.free_lists.get?_free_lists, hb.free_lists.get?_free_lists, hlist]

end Allocator

/-! ### The heap of `GlobalMemory` -/

/-- Round up to 4KB page alignment. -/
def round_up_page_size (s : ℕ) : ℕ :=
  let page_size := 2 ^ 12
  if s < page_size then page_size
  else
    let diff := s % page_size
    if diff ≠ 0 then s + page_size - diff else s

theorem dvd_round_up_page_size (s : ℕ) : 2 ^ 12 ∣ round_up_page_size s := by
  unfold round_up_page_size
  simp only
  split_ifs <;> omega

/-- The allocator of `GlobalMemory(total_size_bytes)`, whose chunk of memory is at `base`. -/
def global_memory (base : ℤ) (total_size_bytes cores : ℕ) : Allocator :=
  .new base (round_up_page_size (total_size_bytes / cores) * cores : ℕ)

/-- A `malloc` of any `size_t`, or a `free` of a live block. -/
def HeapState.call (s : HeapState) : HeapLabel → Option HeapState
  | .malloc size =>
    if size < 2 ^ 64 then
      let r := s.heap.malloc size
      some ⟨r.2, match r.1 with
        | none => s.live
        | some p => (p, size) :: s.live⟩
    else none
  | .free p => s.step (.free p)

/-- The heap of `size` bytes at `base`, for requests of any size. -/
def callHeap (base size : ℤ) : Transition.System HeapState HeapLabel :=
  ⟨⟨.new base size, []⟩, HeapState.call⟩

/-- A request that is rounded up to a power of two, or that finds nothing to hand out. -/
def Granted (s : HeapState) : HeapLabel → Prop
  | .malloc size => (1 ≤ size ∧ size ≤ 2 ^ 63) ∨ s.heap.free_lists_.entries = []
  | .free _ => True

/-- The invariant of the histories of `callHeap`. -/
structure CoalesceInv (n : ℕ) (base : ℤ) (s : HeapState) : Prop where
  heap : HeapInv n s
  at_base : s.heap.base_ = base
  aligned : s.heap.Aligned
  coalesced : s.heap.Coalesced
  /-- The chunks in use are live blocks. -/
  in_live : ∀ (it l : ℕ), s.heap.used it = some l → (it : ℤ) + base ∈ s.live.map Prod.fst

theorem CoalesceInv.step {n : ℕ} {base : ℤ} {s s' : HeapState} {l : HeapLabel}
    (h : CoalesceInv n base s) (hl : Granted s l) (hstep : s.call l = some s') :
    CoalesceInv n base s' := by
  have hcons := h.heap.consistent
  cases l with
  | malloc size =>
    obtain ⟨hsize, rfl⟩ := ite_some_none_eq_some.mp hstep
    rcases hcons.malloc hl with hthrow | ⟨it, l, haddr, -, -, -, hbase, hused⟩
    · rw [hthrow]
      exact h
    · have hrange : 1 ≤ size ∧ size ≤ 2 ^ 63 := by
        rcases hl with hrange | hnil
        · exact hrange
        · -- an empty allocator throws
          unfold malloc SortedMap.lowerBound at haddr
          rw [hnil] at haddr
          cases haddr
      have hallowed : Allowed s (.malloc size) := .inl hrange.2
      have hinv := h.heap.step hallowed (HeapState.step_malloc hrange.1 hsize haddr)
      obtain ⟨hal, hco⟩ := hcons.malloc_coalesced hl h.aligned h.coalesced
      rw [haddr]
      refine ⟨hinv, hbase.trans h.at_base, hal, hco, ?_⟩
      intro x k hx
      rw [hused] at hx
      rw [map_cons, mem_cons]
      split_ifs at hx with hxit
      · left
        rw [hxit, h.at_base]
      · exact .inr (h.in_live x k hx)
  | free p =>
    have hinv := h.heap.step (l := .free p) trivial hstep
    obtain ⟨hmem, rfl⟩ := ite_some_none_eq_some.mp hstep
    obtain ⟨b, hb, rfl⟩ := mem_map.mp hmem
    obtain ⟨it, l, haddr, hit, -⟩ := h.heap.live b hb
    obtain ⟨hal, hco⟩ := hcons.free_coalesced hit h.aligned h.coalesced
    obtain ⟨-, hbase, hused⟩ := hcons.free hit
    rw [← haddr] at hal hco hbase hused
    refine ⟨hinv, hbase.trans h.at_base, hal, hco, ?_⟩
    intro x k hx
    rw [hused] at hx
    split_ifs at hx with hxit
    obtain ⟨c, hc, hcx⟩ := mem_map.mp (h.in_live x k hx)
    apply List.mem_map.mpr
    refine ⟨c, List.mem_filter.mpr ⟨hc, ?_⟩, hcx⟩
    rw [decide_eq_true_iff, hcx, haddr, h.at_base]
    omega

theorem coalesceInv_init {base size : ℤ} (heven : 2 ∣ size.toNat) (hmax : size < 2 ^ 63) :
    CoalesceInv size.toNat base (callHeap base size).init := by
  obtain ⟨hcons, hused⟩ := consistent_new base size hmax
  have hbuilt := built_new base size heven hmax
  refine ⟨⟨hcons, ?_, nodup_nil⟩, base_new base size, hbuilt.aligned,
    hbuilt.coalesced, ?_⟩
  · intro b hb
    cases hb
  · intro it l hit
    rw [show (callHeap base size).init.heap = new base size from rfl, hused] at hit
    cases hit

/-- **Full coalescing**: when every block has been freed, the heap is as the constructor left it,
    after every history of a heap of whole pages in which each request is for 1 up to `2^63`
    bytes or finds no free chunk. -/
theorem coalesces (base size : ℤ) (hpages : 2 ^ 12 ∣ size) (hmax : size < 2 ^ 63)
    (ls : List HeapLabel) (s : HeapState)
    (hrun : (callHeap base size).run (callHeap base size).init ls = some s)
    (hgranted : (callHeap base size).Always Granted (callHeap base size).init ls)
    (hfreed : s.live = []) :
    s.heap.chunks_ = (new base size).chunks_ ∧
      s.heap.free_lists_ = (new base size).free_lists_ ∧
      ∀ request, s.heap.malloc request = (new base size).malloc request := by
  have heven : 2 ∣ size.toNat := by omega
  have h : CoalesceInv size.toNat base s := by
    apply System.invariant_under (CoalesceInv size.toNat base) _
      (coalesceInv_init heven hmax) hgranted hrun
    intro s l s' h hl hstep
    exact h.step hl hstep
  -- no block is live, so no chunk is in use
  have hunused : ∀ x, s.heap.used x = none := by
    intro x
    cases hx : s.heap.used x with
    | none => rfl
    | some l =>
      have hmem := h.in_live x l hx
      rw [hfreed] at hmem
      cases hmem
  obtain ⟨hcons, hused⟩ := consistent_new base size hmax
  have hbuilt := built_new base size heven hmax
  obtain ⟨hchunks, hlists⟩ := h.heap.consistent.eq_of_unused hcons
    (h.heap.consistent.isCoalesced h.aligned h.coalesced hunused)
    (hcons.isCoalesced hbuilt.aligned hbuilt.coalesced hused) hunused hused
  have heap : s.heap = new base size :=
    Allocator.ext (h.at_base.trans (Allocator.base_new base size).symm) hchunks hlists
  exact ⟨hchunks, hlists, fun request => by rw [heap]⟩

theorem HeapState.call_malloc {base n p : ℤ} {s : HeapState} {size : ℕ} (hsize : size < 2 ^ 64)
    (h : (s.heap.malloc size).1 = some p) : (callHeap base n).next s (.malloc size) =
      some ⟨(s.heap.malloc size).2, (p, size) :: s.live⟩ := by
  show s.call (.malloc size) = _
  unfold HeapState.call
  simp only
  rw [if_pos hsize, h]

theorem HeapState.call_free {base n p : ℤ} {s : HeapState} (h : p ∈ s.live.map Prod.fst) :
    (callHeap base n).next s (.free p) =
      some ⟨s.heap.free p, s.live.filter fun b => b.1 ≠ p⟩ := if_pos h

/-- Two blocks of a heap of one page, given back in the order they were taken. -/
theorem coalesces_two_blocks :
    ∃ s, (callHeap 0 4096).run (callHeap 0 4096).init
        [.malloc 1000, .malloc 600, .free 3072, .free 2048] = some s ∧
      s.heap.chunks_ = (global_memory 0 3000 1).chunks_ ∧
      s.heap.free_lists_ = (global_memory 0 3000 1).free_lists_ ∧
      ∀ request, s.heap.malloc request = (global_memory 0 3000 1).malloc request := by
  -- the page is cut twice for the first block; the second one is there
  obtain ⟨haddr, hlow, hbase⟩ : ((new 0 4096).malloc 1000).1 = some 3072 ∧
      ((new 0 4096).malloc 1000).2.free_lists_.lowerBound 1024 = some (1024, [2048]) ∧
      ((new 0 4096).malloc 1000).2.base_ = 0 := by
    have hsize : (next_largest_power_of_2 (BitVec.ofNat 64 1000)).toNat = 1024 := by decide
    have hlow : (new 0 4096).free_lists_.lowerBound 1024 = some (4096, [0]) := by decide
    unfold malloc
    simp only [hsize, hlow]
    rw [subdivide, if_pos (by norm_num), subdivide, if_pos (by norm_num),
      subdivide, if_neg (by norm_num)]
    decide
  have hnext : (((new 0 4096).malloc 1000).2.malloc 600).1 = some 2048 := by
    have hsize : (next_largest_power_of_2 (BitVec.ofNat 64 600)).toNat = 1024 := by decide
    rw [malloc]
    simp only [hsize, hlow]
    rw [subdivide, if_neg (lt_irrefl 1024)]
    simp [hbase]
  have hrun : (callHeap 0 4096).run (callHeap 0 4096).init
      [.malloc 1000, .malloc 600, .free 3072, .free 2048] = some _ :=
    System.run_cons.mpr ⟨_, HeapState.call_malloc (by norm_num) haddr,
      System.run_cons.mpr ⟨_, HeapState.call_malloc (by norm_num) hnext,
      System.run_cons.mpr ⟨_, HeapState.call_free (mem_cons_of_mem _ mem_cons_self),
      System.run_cons.mpr ⟨_, HeapState.call_free mem_cons_self, rfl⟩⟩⟩⟩
  have hpages : ((2 ^ 12 : ℕ) : ℤ) ∣ (round_up_page_size (3000 / 1) * 1 : ℕ) :=
    Int.natCast_dvd_natCast.mpr ((dvd_round_up_page_size _).mul_right 1)
  refine ⟨_, hrun, coalesces 0 4096 hpages (by norm_num) _ _ hrun ?_ (by decide)⟩
  exact ⟨.inl (by norm_num), fun _ _ => ⟨.inl (by norm_num), fun _ _ =>
    ⟨trivial, fun _ _ => ⟨trivial, fun _ _ => trivial⟩⟩⟩⟩

namespace Allocator

/-! ### A request for no bytes -/

theorem subdivide_zero (d : ℕ) (a : Allocator) (it : ℕ) :
    a.subdivide 0 (2 ^ d) it =
      ((a.subdivide 1 (2 ^ d) it).1.cut_chunk (a.subdivide 1 (2 ^ d) it).2 0,
        (a.subdivide 1 (2 ^ d) it).2) := by
  induction d generalizing a it with
  | zero =>
    rw [pow_zero, subdivide_zero_one, subdivide, if_neg (lt_irrefl 1)]
  | succ d ih =>
    have hone : 2 ^ (d + 1) > 1 := Nat.one_lt_two_pow (Nat.succ_ne_zero d)
    have hhalf : 2 ^ (d + 1) / 2 = 2 ^ d := by
      rw [pow_succ, Nat.mul_div_cancel _ (by norm_num)]
    have hstep : a.subdivide 1 (2 ^ (d + 1)) it =
        (a.cut_chunk it (2 ^ d)).subdivide 1 (2 ^ d) (it + 2 ^ d) := by
      rw [subdivide, if_pos hone, hhalf]
    rw [subdivide, if_pos (by omega), hhalf, ih, hstep]

theorem get?_cut_chunk_zero {a : Allocator} {it s : ℕ} (hit : a.chunks_.get? it = some ⟨false, s⟩)
    (x : ℕ) :
    (a.cut_chunk it 0).chunks_.get? x =
      if x = it then some ⟨false, 0⟩ else a.chunks_.get? x := by
  unfold cut_chunk add_to_chunk_map
  simp only [add_zero, get?_add_to_free_list, get?_set_size, get?_remove_from_free_list,
    if_true, hit, map_some, isSome_some]
  split_ifs <;> rfl

theorem get?_free_zero {a : Allocator} {it : ℕ} (hit : a.chunks_.get? it = some ⟨true, 0⟩) (x : ℕ) :
    (a.free (it + a.base_)).chunks_.get? x = if x = it then none else a.chunks_.get? x := by
  have hback : (a.add_to_free_list it).chunks_.get? it = some ⟨false, 0⟩ := by
    rw [get?_add_to_free_list, if_pos rfl, hit]
    rfl
  have hmerge : ∀ x, ((a.add_to_free_list it).merge_buddy it it 0).chunks_.get? x =
      if x = it then none else a.chunks_.get? x := by
    intro x
    unfold merge_buddy
    simp only [get?_add_to_free_list, get?_set_size, get?_remove_from_free_list,
      SortedMap.get?_erase, if_true, map_none]
    split_ifs <;> rfl
  unfold free
  rw [show ((it : ℤ) + a.base_ - a.base_).toNat = it by omega, try_merge_buddy_recursive]
  split
  · next hnone =>
    rw [hback] at hnone
    cases hnone
  next c hc =>
  obtain rfl : ⟨false, 0⟩ = c := some.inj (hback.symm.trans hc)
  simp only
  split
  · next hnone =>
    rw [Nat.xor_zero, hback] at hnone
    cases hnone
  next b hb =>
  rw [Nat.xor_zero] at hb
  obtain rfl : ⟨false, 0⟩ = b := some.inj (hback.symm.trans hb)
  rw [if_pos ⟨rfl, rfl⟩, Nat.xor_zero, if_neg (lt_irrefl it), try_merge_buddy_recursive]
  split
  · exact hmerge x
  · next c hc =>
    rw [hmerge, if_pos rfl] at hc
    cases hc

theorem malloc_zero {n : ℕ} {a : Allocator} (h : Consistent n a)
    (hlow : a.free_lists_.lowerBound 0 = some (2 ^ 12, [0])) :
    (a.malloc 0).1 = some (4095 + a.base_) ∧ (a.malloc 0).2.base_ = a.base_ ∧
      (a.malloc 0).2.chunks_.get? 4095 = some ⟨true, 0⟩ ∧
      ∀ s, (a.malloc 0).2.chunks_.get? 0 = some ⟨false, s⟩ → s ≤ 4095 := by
  have hzero : (next_largest_power_of_2 (BitVec.ofNat 64 0)).toNat = 0 := by decide
  have hfront : a.chunks_.get? 0 = some ⟨false, 2 ^ (0 + 12)⟩ := by
    rw [← h.free_lists.listed, freeList, (SortedMap.lowerBound_eq_some hlow).2]
    exact mem_cons_self
  -- the chunk at hand ends where the page does
  obtain ⟨hcons, ⟨s, hs, hend⟩, hlast⟩ := h.subdivide
    (P := fun it b => ∃ s, b.chunks_.get? it = some ⟨false, s⟩ ∧ it + s = 4096) (by
      intro b it k hb hit hP
      obtain ⟨s, hs, hend⟩ := hP
      rw [hit] at hs
      obtain rfl : 2 ^ k + 2 ^ k = s := by simpa using hs
      refine ⟨2 ^ k, ?_, by omega⟩
      rw [get?_cut_chunk hit (hb.cut_fresh hit), if_pos rfl]) 12 hfront ⟨_, hfront, by norm_num⟩
  obtain ⟨r, hr⟩ : ∃ r, r = a.subdivide (2 ^ 0) (2 ^ (0 + 12)) 0 := ⟨_, rfl⟩
  rw [← hr] at hcons hs hlast hend
  have hsone : s = 1 := by
    rw [hlast] at hs
    simpa using hs.symm
  have hr2 : r.2 = 4095 := by omega
  have hbase : r.1.base_ = a.base_ := by
    rw [hr]
    exact base_subdivide ..
  have hsub : a.subdivide 0 (2 ^ 12) 0 = (r.1.cut_chunk r.2 0, r.2) := by
    rw [subdivide_zero, hr]
    rfl
  have hcut := get?_cut_chunk_zero hlast
  have hget := get?_take ((hcut r.2).trans (if_pos rfl))
  have heap : a.malloc 0 = (some ((r.2 : ℤ) + (r.1.cut_chunk r.2 0).base_),
      (r.1.cut_chunk r.2 0).take r.2) := by
    unfold malloc
    simp only [hzero, hlow, headD_cons, hsub]
    rfl
  rw [heap]
  refine ⟨?_, ?_, ?_, ?_⟩
  · rw [base_cut_chunk, hbase, hr2]
    rfl
  · exact (base_remove_from_free_list _ _).trans ((base_cut_chunk _ _ _).trans hbase)
  · rw [← hr2, hget, if_pos rfl]
  · intro t ht
    rw [hget, if_neg (by omega), hcut, if_neg (by omega)] at ht
    -- the chunk at 0 ends before the last byte
    have := hcons.tiling.disjoint 0 t r.2 1 (by simp [sizes, ht]) (by simp [sizes, hlast]) (by omega)
    omega

end Allocator

/-- A page that served a request for no bytes stays cut. -/
theorem zero_malloc :
    ∃ s, (callHeap 0 4096).run (callHeap 0 4096).init [.malloc 0, .free 4095] = some s ∧
      s.live = [] ∧ s.heap.chunks_ ≠ (new 0 4096).chunks_ := by
  obtain ⟨hcons, -⟩ := consistent_new 0 4096 (by norm_num)
  have hlow : (new 0 4096).free_lists_.lowerBound 0 = some (2 ^ 12, [0]) := by decide
  have hnew : (new 0 4096).chunks_.get? 0 = some ⟨false, 4096⟩ := by decide
  have hbase : (new 0 4096).base_ = 0 := base_new 0 4096
  obtain ⟨haddr, hbase', hget, hshort⟩ := malloc_zero hcons hlow
  rw [hbase, add_zero] at haddr
  rw [hbase] at hbase'
  refine ⟨_, System.run_cons.mpr ⟨_, HeapState.call_malloc (by norm_num) haddr,
    System.run_cons.mpr ⟨_, HeapState.call_free mem_cons_self, rfl⟩⟩, by decide, ?_⟩
  intro heq
  have hfree := get?_free_zero hget 0
  rw [hbase', if_neg (by norm_num)] at hfree
  have hfinal : (((new 0 4096).malloc 0).2.free 4095).chunks_.get? 0 =
      some ⟨false, 4096⟩ := by
    rw [← hnew]
    exact congrArg (fun c => SortedMap.get? c 0) heq
  have := hshort 4096 (hfree.symm.trans hfinal)
  omega

end Grappa
