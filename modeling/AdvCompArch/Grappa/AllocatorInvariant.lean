import AdvCompArch.Grappa.Allocator

/-! # The invariant of the buddy allocator

    The chunks tile the heap, and the free lists hold the chunks that are not in use,
    each under its size (`Consistent`).  Between the removal of a chunk from its list
    and its return, everything holds but for that chunk (`FreeListsExcept`), so each
    operation on the two containers has one lemma, and cutting and merging are
    assembled from these.

    What `malloc` and `free` do is then said in terms of the chunks in use. -/

namespace Grappa

namespace Allocator

open Function Option SortedMap

/-- The lengths of the chunks. -/
def sizes (a : Allocator) (x : ℕ) : Option ℕ := (a.chunks_.get? x).map AllocatorChunk.size

/-- The lengths of the chunks in use. -/
def used (a : Allocator) (x : ℕ) : Option ℕ :=
  match a.chunks_.get? x with
  | some ⟨true, s⟩ => some s
  | _ => none

/-- The free lists hold the chunks that are not in use, once each, under their sizes. -/
structure FreeListsOk (a : Allocator) : Prop where
  listed : ∀ k x, x ∈ a.freeList k ↔ a.chunks_.get? x = some ⟨false, k⟩
  nodup : ∀ k, (a.freeList k).Nodup
  nonempty : ∀ k, a.free_lists_.get? k ≠ some []

/-- The same but for the chunk at `it`, which is in no list. -/
structure FreeListsExcept (it : ℕ) (a : Allocator) : Prop where
  listed : ∀ k x, x ∈ a.freeList k ↔ x ≠ it ∧ a.chunks_.get? x = some ⟨false, k⟩
  nodup : ∀ k, (a.freeList k).Nodup
  nonempty : ∀ k, a.free_lists_.get? k ≠ some []

/-- **The invariant.** -/
structure Consistent (n : ℕ) (a : Allocator) : Prop where
  tiling : IsTiling n a.sizes
  two_pow : ∀ x s, a.sizes x = some s → ∃ k, s = 2 ^ k
  free_lists : FreeListsOk a

/-! ### The operations on the two containers -/

theorem get?_remove_from_free_list (a : Allocator) (it x : ℕ) :
    (a.remove_from_free_list it).chunks_.get? x =
      if x = it then (a.chunks_.get? it).map fun c => { c with in_use := true }
      else a.chunks_.get? x := by
  rw [chunks_remove_from_free_list, get?_modify]

theorem get?_add_to_free_list (a : Allocator) (it x : ℕ) :
    (a.add_to_free_list it).chunks_.get? x =
      if x = it then (a.chunks_.get? it).map fun c => { c with in_use := false }
      else a.chunks_.get? x := by
  rw [chunks_add_to_free_list, get?_modify]

theorem freeList_remove_from_free_list {a : Allocator} {it : ℕ} {c : AllocatorChunk}
    (h : a.chunks_.get? it = some c) (k : ℕ) :
    (a.remove_from_free_list it).freeList k =
      if k = c.size then (a.freeList k).erase it else a.freeList k := by
  unfold remove_from_free_list
  rw [h]
  simp only
  unfold freeList
  split_ifs with hnil hk hk
  · rw [get?_erase, if_pos hk, hk, hnil]
    rfl
  · rw [get?_erase, if_neg hk]
  · rw [get?_insert, if_pos hk, hk]
    rfl
  · rw [get?_insert, if_neg hk]

theorem freeList_add_to_free_list {a : Allocator} {it : ℕ} {c : AllocatorChunk}
    (h : a.chunks_.get? it = some c) (k : ℕ) :
    (a.add_to_free_list it).freeList k =
      if k = c.size then it :: a.freeList k else a.freeList k := by
  unfold add_to_free_list
  rw [h]
  simp only
  unfold freeList
  rw [get?_insert]
  split_ifs with hk
  · rw [hk]
    rfl
  · rfl

theorem FreeListsOk.remove {a : Allocator} (h : FreeListsOk a) {it s : ℕ}
    (hit : a.chunks_.get? it = some ⟨false, s⟩) :
    FreeListsExcept it (a.remove_from_free_list it) := by
  have hlist := freeList_remove_from_free_list hit
  refine ⟨?_, ?_, ?_⟩
  · intro k x
    rw [hlist, get?_remove_from_free_list]
    by_cases hx : x = it
    · -- the chunk was in the list of its size only
      subst hx
      simp only [ne_eq, not_true, false_and, iff_false]
      split_ifs with hk
      · rw [(h.nodup k).mem_erase_iff]
        simp
      · rw [h.listed, hit]
        simp only [some.injEq, AllocatorChunk.mk.injEq, true_and]
        exact Ne.symm hk
    · rw [if_neg hx, ← h.listed]
      split_ifs with hk
      · rw [(h.nodup k).mem_erase_iff]
      · simp [hx]
  · intro k
    rw [hlist]
    split_ifs
    · exact (h.nodup k).erase it
    · exact h.nodup k
  · intro k
    unfold remove_from_free_list
    rw [hit]
    simp only
    split_ifs with hnil
    · rw [get?_erase]
      split_ifs
      · exact nofun
      · exact h.nonempty k
    · rw [get?_insert]
      split_ifs
      · intro heq
        exact hnil (some.inj heq)
      · exact h.nonempty k

theorem FreeListsExcept.of_chunks {a : Allocator} (a' : Allocator) {it : ℕ}
    (h : FreeListsExcept it a) (hlists : a'.free_lists_ = a.free_lists_)
    (hchunks : ∀ x, x ≠ it → a'.chunks_.get? x = a.chunks_.get? x) : FreeListsExcept it a' := by
  refine ⟨?_, ?_, ?_⟩
  · intro k x
    unfold freeList
    rw [hlists]
    have hold := h.listed k x
    unfold freeList at hold
    rw [hold]
    constructor
    · rintro ⟨hx, hget⟩
      exact ⟨hx, by rw [hchunks x hx, hget]⟩
    · rintro ⟨hx, hget⟩
      exact ⟨hx, by rw [← hchunks x hx, hget]⟩
  · intro k
    unfold freeList
    rw [hlists]
    exact h.nodup k
  · intro k
    rw [hlists]
    exact h.nonempty k

theorem FreeListsExcept.add {a : Allocator} {it : ℕ} (h : FreeListsExcept it a)
    {c : AllocatorChunk} (hit : a.chunks_.get? it = some c) :
    FreeListsOk (a.add_to_free_list it) := by
  have hlist := freeList_add_to_free_list hit
  have hnot : ∀ k, it ∉ a.freeList k := by
    intro k hmem
    exact ((h.listed k it).mp hmem).1 rfl
  refine ⟨?_, ?_, ?_⟩
  · intro k x
    rw [hlist, get?_add_to_free_list]
    by_cases hx : x = it
    · subst hx
      rw [if_pos rfl, hit]
      simp only [map_some, some.injEq, AllocatorChunk.mk.injEq, true_and]
      split_ifs with hk
      · simp [hk]
      · simp [hnot k, Ne.symm hk]
    · rw [if_neg hx]
      have hold := h.listed k x
      split_ifs with hk
      · rw [List.mem_cons, hold]
        tauto
      · rw [hold]
        tauto
  · intro k
    rw [hlist]
    split_ifs
    · exact List.nodup_cons.mpr ⟨hnot k, h.nodup k⟩
    · exact h.nodup k
  · intro k
    unfold add_to_free_list
    rw [hit]
    simp only
    rw [get?_insert]
    split_ifs
    · exact nofun
    · exact h.nonempty k

theorem FreeListsOk.except {a : Allocator} (h : FreeListsOk a) (it : ℕ)
    (hit : ∀ k, a.chunks_.get? it ≠ some ⟨false, k⟩) : FreeListsExcept it a := by
  refine ⟨?_, h.nodup, h.nonempty⟩
  intro k x
  rw [h.listed]
  constructor
  · intro hx
    refine ⟨?_, hx⟩
    rintro rfl
    exact hit k hx
  · rintro ⟨-, hx⟩
    exact hx

theorem FreeListsExcept.ok {a : Allocator} {it : ℕ} (h : FreeListsExcept it a)
    (hit : ∀ k, a.chunks_.get? it ≠ some ⟨false, k⟩) : FreeListsOk a := by
  refine ⟨?_, h.nodup, h.nonempty⟩
  intro k x
  rw [h.listed]
  constructor
  · rintro ⟨-, hx⟩
    exact hx
  · intro hx
    refine ⟨?_, hx⟩
    rintro rfl
    exact hit k hx

/-! ### Cutting a chunk -/

theorem get?_set_size (a : Allocator) (it size x : ℕ) :
    (a.set_size it size).chunks_.get? x =
      if x = it then (a.chunks_.get? it).map fun c => { c with size := size }
      else a.chunks_.get? x := get?_modify ..

theorem used_congr {a a' : Allocator} {x : ℕ} (h : a'.chunks_.get? x = a.chunks_.get? x) :
    a'.used x = a.used x := by
  unfold used
  rw [h]

theorem used_of_get? {a : Allocator} {x : ℕ} {c : AllocatorChunk}
    (h : a.chunks_.get? x = some c) : a.used x = if c.in_use then some c.size else none := by
  unfold used
  rw [h]
  obtain ⟨_ | _, s⟩ := c <;> rfl

theorem used_eq_some {a : Allocator} {x s : ℕ} :
    a.used x = some s ↔ a.chunks_.get? x = some ⟨true, s⟩ := by
  unfold used
  split
  · next heq => simp [heq]
  · next hne =>
    constructor
    · exact nofun
    · intro h
      exact absurd h (hne s)

theorem get?_cut_chunk {a : Allocator} {it half s : ℕ} (hit : a.chunks_.get? it = some ⟨false, s⟩)
    (hnew : a.chunks_.get? (it + half) = none) (x : ℕ) :
    (a.cut_chunk it half).chunks_.get? x =
      if x = it + half then some ⟨false, half⟩ else if x = it then some ⟨false, half⟩
      else a.chunks_.get? x := by
  have hne : it + half ≠ it := by
    intro heq
    rw [heq, hit] at hnew
    cases hnew
  unfold cut_chunk add_to_chunk_map
  simp only [get?_add_to_free_list, get?_set_size, get?_remove_from_free_list, if_neg hne, hnew,
    isSome_none, Bool.false_eq_true, if_false, get?_insert, if_true,
    map_some, hit]
  split_ifs <;> rfl

theorem Consistent.cut_fresh {n : ℕ} {a : Allocator} (h : Consistent n a) {it k : ℕ}
    (hit : a.chunks_.get? it = some ⟨false, 2 ^ k + 2 ^ k⟩) :
    a.chunks_.get? (it + 2 ^ k) = none := by
  have hpow := Nat.two_pow_pos k
  have hnone := h.tiling.eq_none_of_inside (show a.sizes it = some (2 ^ k + 2 ^ k) by simp [sizes, hit])
    (Nat.lt_add_of_pos_right hpow) (show it + 2 ^ k < it + (2 ^ k + 2 ^ k) by omega)
  simpa [sizes] using hnone

/-- **Cutting a free chunk in two** gives two free chunks of half the size. -/
theorem Consistent.cut {n : ℕ} {a : Allocator} (h : Consistent n a) {it half : ℕ}
    (hit : a.chunks_.get? it = some ⟨false, half + half⟩) (hhalf : 0 < half)
    (hpow : ∃ k, half = 2 ^ k) :
    Consistent n (a.cut_chunk it half) ∧ (∀ x, (a.cut_chunk it half).used x = a.used x) ∧
      (a.cut_chunk it half).chunks_.get? (it + half) = some ⟨false, half⟩ := by
  have hsize : a.sizes it = some (half + half) := by simp [sizes, hit]
  have hnew : a.chunks_.get? (it + half) = none := by
    obtain ⟨k, rfl⟩ := hpow
    exact h.cut_fresh hit
  have hget := get?_cut_chunk hit hnew
  have hsizes : (a.cut_chunk it half).sizes =
      update (update a.sizes it (some half)) (it + half) (some half) := by
    funext x
    unfold sizes
    rw [hget]
    by_cases h1 : x = it + half
    · rw [if_pos h1, h1, update_self]
      rfl
    · rw [if_neg h1, update_of_ne h1]
      by_cases h2 : x = it
      · rw [if_pos h2, h2, update_self]
        rfl
      · rw [if_neg h2, update_of_ne h2]
  refine ⟨⟨?_, ?_, ?_⟩, ?_, ?_⟩
  · rw [hsizes]
    exact h.tiling.split hsize hhalf hhalf
  · intro x s hs
    rw [hsizes] at hs
    by_cases h1 : x = it + half
    · rw [h1, update_self] at hs
      rwa [← some.inj hs]
    · rw [update_of_ne h1] at hs
      by_cases h2 : x = it
      · rw [h2, update_self] at hs
        rwa [← some.inj hs]
      · rw [update_of_ne h2] at hs
        exact h.two_pow x s hs
  · -- the chunk is taken out, resized and put back; then the new one is added
    have hne : it + half ≠ it := by omega
    have hout := (h.free_lists.remove hit).of_chunks
      ((a.remove_from_free_list it).set_size it half) rfl (by
        intro x hx
        rw [get?_set_size, if_neg hx])
    have hback : FreeListsOk (((a.remove_from_free_list it).set_size it half).add_to_free_list it) := by
      apply hout.add
      rw [get?_set_size, if_pos rfl, get?_remove_from_free_list, if_pos rfl, hit]
      rfl
    have hfresh : (((a.remove_from_free_list it).set_size it half).add_to_free_list it).chunks_.get?
        (it + half) = none := by
      rw [get?_add_to_free_list, if_neg hne, get?_set_size, if_neg hne,
        get?_remove_from_free_list, if_neg hne, hnew]
    have hexcept := (hback.except (it + half) (by
        intro k
        rw [hfresh]
        exact nofun)).of_chunks
      ((((a.remove_from_free_list it).set_size it half).add_to_free_list it).add_to_chunk_map
        (it + half) ⟨false, half⟩) rfl (by
        intro x hx
        unfold add_to_chunk_map
        simp only [hfresh, isSome_none, Bool.false_eq_true, if_false]
        rw [get?_insert, if_neg hx])
    apply hexcept.add (c := ⟨false, half⟩)
    unfold add_to_chunk_map
    simp only [hfresh, isSome_none, Bool.false_eq_true, if_false]
    rw [get?_insert, if_pos rfl]
  · intro x
    by_cases h1 : x = it + half
    · have hx : a.used x = none := by simp [used, h1, hnew]
      rw [hx, used_of_get? ((hget x).trans (if_pos h1))]
      rfl
    · by_cases h2 : x = it
      · have hx : a.used x = none := by simp [used, h2, hit]
        rw [hx, used_of_get? ((hget x).trans ((if_neg h1).trans (if_pos h2)))]
        rfl
      · exact used_congr ((hget x).trans ((if_neg h1).trans (if_neg h2)))
  · rw [hget, if_pos rfl]

/-- **The rule of the loop of `malloc`**: what every cut of the chunk at hand keeps, for the upper
    half as the next chunk at hand, holds at the end.  There a free chunk has exactly the size
    wanted. -/
theorem Consistent.subdivide {n j : ℕ} {P : ℕ → Allocator → Prop}
    (hcut : ∀ (a : Allocator) (it k : ℕ), Consistent n a →
      a.chunks_.get? it = some ⟨false, 2 ^ k + 2 ^ k⟩ → P it a →
      P (it + 2 ^ k) (a.cut_chunk it (2 ^ k)))
    (d : ℕ) {a : Allocator} (h : Consistent n a) {it : ℕ}
    (hit : a.chunks_.get? it = some ⟨false, 2 ^ (j + d)⟩) (hP : P it a) :
    Consistent n (a.subdivide (2 ^ j) (2 ^ (j + d)) it).1 ∧
      P (a.subdivide (2 ^ j) (2 ^ (j + d)) it).2 (a.subdivide (2 ^ j) (2 ^ (j + d)) it).1 ∧
      (a.subdivide (2 ^ j) (2 ^ (j + d)) it).1.chunks_.get?
        (a.subdivide (2 ^ j) (2 ^ (j + d)) it).2 = some ⟨false, 2 ^ j⟩ := by
  induction d generalizing a it with
  | zero =>
    have hle : ¬ 2 ^ (j + 0) > 2 ^ j := by
      rw [add_zero]
      exact lt_irrefl _
    rw [Grappa.Allocator.subdivide, if_neg hle]
    exact ⟨h, hP, hit⟩
  | succ d ih =>
    have hgt : 2 ^ (j + (d + 1)) > 2 ^ j := Nat.pow_lt_pow_right (by norm_num) (by omega)
    have hdouble : 2 ^ (j + (d + 1)) = 2 ^ (j + d) + 2 ^ (j + d) := by
      rw [← add_assoc, pow_succ, Nat.mul_two]
    have hhalf : 2 ^ (j + (d + 1)) / 2 = 2 ^ (j + d) := by omega
    rw [hdouble] at hit
    obtain ⟨hcons, -, hnew⟩ := h.cut hit (Nat.two_pow_pos _) ⟨_, rfl⟩
    rw [Grappa.Allocator.subdivide, if_pos hgt, hhalf]
    exact ih hcons hnew (hcut a it _ h hit hP)

/-! ### Merging with a buddy -/

theorem get?_merge_buddy {a : Allocator} {lower size : ℕ} (hpos : 0 < size)
    (hlow : a.chunks_.get? lower = some ⟨false, size⟩) (x : ℕ) :
    (a.merge_buddy lower (lower + size) size).chunks_.get? x =
      if x = lower then some ⟨false, size * 2⟩ else if x = lower + size then none
      else a.chunks_.get? x := by
  have hne : lower ≠ lower + size := by omega
  unfold merge_buddy
  simp only [get?_add_to_free_list, get?_set_size, get?_remove_from_free_list,
    get?_erase, if_neg hne, if_true, hlow, map_some]
  split_ifs <;> rfl

/-- **Merging two free neighbours of one size** gives one free chunk of twice the size. -/
theorem Consistent.merge {n : ℕ} {a : Allocator} (h : Consistent n a) {lower size : ℕ}
    (hlow : a.chunks_.get? lower = some ⟨false, size⟩)
    (hhigh : a.chunks_.get? (lower + size) = some ⟨false, size⟩) :
    Consistent n (a.merge_buddy lower (lower + size) size) ∧
      ∀ x, (a.merge_buddy lower (lower + size) size).used x = a.used x := by
  have hslow : a.sizes lower = some size := by simp [sizes, hlow]
  have hshigh : a.sizes (lower + size) = some size := by simp [sizes, hhigh]
  have hpos := (h.tiling.inside _ _ hslow).1
  have hget := get?_merge_buddy hpos hlow
  have hsizes : (a.merge_buddy lower (lower + size) size).sizes =
      update (update a.sizes (lower + size) none) lower (some (size + size)) := by
    funext x
    unfold sizes
    rw [hget]
    by_cases h1 : x = lower
    · rw [if_pos h1, h1, update_self, ← Nat.mul_two]
      rfl
    · rw [if_neg h1, update_of_ne h1]
      by_cases h2 : x = lower + size
      · rw [if_pos h2, h2, update_self]
        rfl
      · rw [if_neg h2, update_of_ne h2]
  refine ⟨⟨?_, ?_, ?_⟩, ?_⟩
  · rw [hsizes]
    exact h.tiling.merge hslow hshigh
  · intro x s hs
    rw [hsizes] at hs
    by_cases h1 : x = lower
    · rw [h1, update_self] at hs
      obtain ⟨k, hk⟩ := h.two_pow _ _ hslow
      exact ⟨k + 1, by rw [← some.inj hs, hk, pow_succ, Nat.mul_two]⟩
    · rw [update_of_ne h1] at hs
      by_cases h2 : x = lower + size
      · rw [h2, update_self] at hs
        cases hs
      · rw [update_of_ne h2] at hs
        exact h.two_pow x s hs
  · -- the higher chunk leaves its list and the map, the lower one is moved to another list
    have hne : lower ≠ lower + size := by omega
    have hout := (h.free_lists.remove hhigh).of_chunks
      ({ a.remove_from_free_list (lower + size) with
        chunks_ := (a.remove_from_free_list (lower + size)).chunks_.erase (lower + size) }) rfl (by
        intro x hx
        rw [get?_erase, if_neg hx])
    have hok := hout.ok (by
      intro k
      rw [get?_erase, if_pos rfl]
      exact nofun)
    have hlow' : (Allocator.chunks_ { a.remove_from_free_list (lower + size) with
        chunks_ := (a.remove_from_free_list (lower + size)).chunks_.erase (lower + size) }).get?
          lower = some ⟨false, size⟩ := by
      rw [get?_erase, if_neg hne, get?_remove_from_free_list, if_neg hne, hlow]
    have hlowout := (hok.remove hlow').of_chunks
      ((Allocator.remove_from_free_list { a.remove_from_free_list (lower + size) with
        chunks_ := (a.remove_from_free_list (lower + size)).chunks_.erase (lower + size) }
          lower).set_size lower (size * 2)) rfl (by
        intro x hx
        rw [get?_set_size, if_neg hx])
    apply hlowout.add (c := ⟨true, size * 2⟩)
    rw [get?_set_size, if_pos rfl, get?_remove_from_free_list, if_pos rfl, hlow']
    rfl
  · intro x
    by_cases h1 : x = lower
    · have hx : a.used x = none := by simp [used, h1, hlow]
      rw [hx, used_of_get? ((hget x).trans (if_pos h1))]
      rfl
    · by_cases h2 : x = lower + size
      · have hx : a.used x = none := by simp [used, h2, hhigh]
        have hgone : (a.merge_buddy lower (lower + size) size).chunks_.get? x = none :=
          (hget x).trans ((if_neg h1).trans (if_pos h2))
        rw [hx]
        unfold used
        rw [hgone]
      · exact used_congr ((hget x).trans ((if_neg h1).trans (if_neg h2)))

theorem eq_false_of_not_used {a : Allocator} {it : ℕ} (h : ∀ s, a.chunks_.get? it ≠ some ⟨true, s⟩)
    {c : AllocatorChunk} (hc : a.chunks_.get? it = some c) : c.in_use = false := by
  obtain ⟨_ | _, s⟩ := c
  · rfl
  · exact absurd hc (h s)

/-- What `try_merge_buddy_recursive` does first: it stops, or it merges the chunk with its buddy. -/
theorem Consistent.try_merge_cases {n : ℕ} {a : Allocator} (h : Consistent n a) {it : ℕ}
    (hit : ∀ s, a.chunks_.get? it ≠ some ⟨true, s⟩) :
    (a.try_merge_buddy_recursive it = a ∧ ∀ s, a.chunks_.get? it = some ⟨false, s⟩ →
      a.chunks_.get? (it ^^^ s) ≠ some ⟨false, s⟩) ∨
    ∃ lower size, (it = lower ∨ it = lower + size) ∧
      a.chunks_.get? lower = some ⟨false, size⟩ ∧
      a.chunks_.get? (lower + size) = some ⟨false, size⟩ ∧ lower ^^^ size = lower + size ∧
      a.try_merge_buddy_recursive it =
        (a.merge_buddy lower (lower + size) size).try_merge_buddy_recursive lower := by
  rw [try_merge_buddy_recursive]
  split
  · next hnone =>
    rw [hnone]
    refine .inl ⟨rfl, ?_⟩
    intro s hs
    cases hs
  next c hc =>
  have hfree : c = ⟨false, c.size⟩ := by rw [← eq_false_of_not_used hit hc]
  obtain ⟨k, hk⟩ := h.two_pow it c.size (by simp [sizes, hc])
  have hsize : ∀ s, a.chunks_.get? it = some ⟨false, s⟩ → c.size = s := by
    intro s hs
    rw [hc] at hs
    exact congrArg AllocatorChunk.size (some.inj hs)
  simp only
  split
  · next hnone =>
    refine .inl ⟨rfl, ?_⟩
    intro s hs
    rw [← hsize s hs, hnone]
    intro hbuddy
    cases hbuddy
  next b hb =>
  split
  · next hcond =>
    have hbuddy : b = ⟨false, c.size⟩ := by rw [← hcond.1, ← hcond.2]
    right
    split
    · next hlt =>
      -- the buddy is the chunk after this one
      have heq : it ^^^ c.size = it + c.size := by
        rcases Dyadic.xor_two_pow it k with ⟨-, heq⟩ | ⟨hge, -⟩
        · rwa [← hk] at heq
        · rw [← hk] at hge
          exact absurd hlt hge
      refine ⟨it, c.size, .inl rfl, ?_, ?_, heq, ?_⟩
      · rw [hc, ← hfree]
      · rw [← heq, hb, hbuddy]
      · rw [heq]
    · next hge =>
      -- the buddy is the chunk before this one
      have heq : it = (it ^^^ c.size) + c.size := by
        rcases Dyadic.xor_two_pow it k with ⟨hlt, -⟩ | ⟨-, heq⟩
        · rw [← hk] at hlt
          exact absurd hlt hge
        · rwa [← hk] at heq
      refine ⟨it ^^^ c.size, c.size, .inr heq, ?_, ?_, ?_, ?_⟩
      · rw [hb, hbuddy]
      · rw [← heq, hc, ← hfree]
      · rw [← heq, Nat.xor_assoc, Nat.xor_self, Nat.xor_zero]
      · rw [← heq]
  · next hcond =>
    refine .inl ⟨rfl, ?_⟩
    intro s hs hbuddy
    rw [← hsize s hs, hb] at hbuddy
    cases hbuddy
    exact hcond ⟨rfl, rfl⟩

/-- **The rule of the merging of `free`**: what every merge of two free buddies keeps, for the
    merged chunk as the next chunk at hand, holds at the end.  There the chunk at hand has no
    free buddy. -/
theorem Consistent.try_merge {n : ℕ} {P : ℕ → Allocator → Prop}
    (hmerge : ∀ (a : Allocator) (it lower size : ℕ), Consistent n a →
      (it = lower ∨ it = lower + size) → a.chunks_.get? lower = some ⟨false, size⟩ →
      a.chunks_.get? (lower + size) = some ⟨false, size⟩ → lower ^^^ size = lower + size →
      P it a → P lower (a.merge_buddy lower (lower + size) size))
    {a : Allocator} (h : Consistent n a) {it : ℕ}
    (hit : ∀ s, a.chunks_.get? it ≠ some ⟨true, s⟩) (hP : P it a) :
    Consistent n (a.try_merge_buddy_recursive it) ∧
      ∃ last, P last (a.try_merge_buddy_recursive it) ∧
        ∀ s, (a.try_merge_buddy_recursive it).chunks_.get? last = some ⟨false, s⟩ →
          (a.try_merge_buddy_recursive it).chunks_.get? (last ^^^ s) ≠ some ⟨false, s⟩ := by
  -- on the number of chunks
  induction hlen : a.chunks_.entries.length using Nat.strongRecOn generalizing a it with
  | ind m ih =>
    rcases h.try_merge_cases hit with ⟨hstop, hlast⟩ | ⟨lower, size, hside, hlow, hhigh, hxor, hrec⟩
    · rw [hstop]
      exact ⟨h, it, hP, hlast⟩
    · rw [hrec]
      obtain ⟨hcons, -⟩ := h.merge hlow hhigh
      have hlt : (a.merge_buddy lower (lower + size) size).chunks_.entries.length <
          a.chunks_.entries.length := length_merge_buddy_lt hhigh
      apply ih _ (by omega) hcons _ (hmerge a it lower size h hside hlow hhigh hxor hP) rfl
      intro s
      have hpos := (h.tiling.inside lower size (by simp [sizes, hlow])).1
      rw [get?_merge_buddy hpos hlow, if_pos rfl]
      simp

/-! ### `malloc` and `free` -/

@[simp] theorem base_remove_from_free_list (a : Allocator) (it : ℕ) :
    (a.remove_from_free_list it).base_ = a.base_ := by
  unfold remove_from_free_list
  split <;> rfl

@[simp] theorem base_add_to_free_list (a : Allocator) (it : ℕ) :
    (a.add_to_free_list it).base_ = a.base_ := by
  unfold add_to_free_list
  split <;> rfl

@[simp] theorem base_cut_chunk (a : Allocator) (it half : ℕ) :
    (a.cut_chunk it half).base_ = a.base_ := by
  simp [cut_chunk, add_to_chunk_map, set_size]

@[simp] theorem base_merge_buddy (a : Allocator) (lower higher size : ℕ) :
    (a.merge_buddy lower higher size).base_ = a.base_ := by
  simp [merge_buddy, set_size]

theorem base_subdivide (allocation_size chunk_size it : ℕ) (a : Allocator) :
    (a.subdivide allocation_size chunk_size it).1.base_ = a.base_ := by
  fun_induction subdivide allocation_size chunk_size it a with
  | case1 chunk_size it a hgt ih => rw [ih, base_cut_chunk]
  | case2 chunk_size it a hle => rfl

theorem base_try_merge (a : Allocator) (it : ℕ) :
    (a.try_merge_buddy_recursive it).base_ = a.base_ := by
  fun_induction try_merge_buddy_recursive a it with
  | case1 => rfl
  | case2 => rfl
  | case3 a it c hc buddy b hb hcond hlt ih => rw [ih, base_merge_buddy]
  | case4 a it c hc buddy b hb hcond hge ih => rw [ih, base_merge_buddy]
  | case5 => rfl

/-- The end of `malloc`: the chunk is taken into use. -/
def take (a : Allocator) (it : ℕ) : Allocator :=
  Allocator.remove_from_free_list
    { a with chunks_ := a.chunks_.modify it fun c => { c with in_use := true } } it

theorem get?_take {a : Allocator} {it s : ℕ} (hit : a.chunks_.get? it = some ⟨false, s⟩) (x : ℕ) :
    (a.take it).chunks_.get? x = if x = it then some ⟨true, s⟩ else a.chunks_.get? x := by
  unfold take
  rw [get?_remove_from_free_list]
  simp only [get?_modify, if_true, hit, map_some]
  split_ifs <;> rfl

theorem sizes_take {a : Allocator} {it s : ℕ} (hit : a.chunks_.get? it = some ⟨false, s⟩) :
    (a.take it).sizes = a.sizes := by
  funext x
  unfold sizes
  rw [get?_take hit]
  split_ifs with hx
  · rw [hx, hit]
    rfl
  · rfl

theorem Consistent.take {n : ℕ} {a : Allocator} (h : Consistent n a) {it s : ℕ}
    (hit : a.chunks_.get? it = some ⟨false, s⟩) :
    Consistent n (a.take it) ∧ ∀ x, (a.take it).used x = if x = it then some s else a.used x := by
  have hget := get?_take hit
  have hsizes := sizes_take hit
  have hlists : (a.take it).free_lists_ = (a.remove_from_free_list it).free_lists_ := by
    unfold Grappa.Allocator.take remove_from_free_list freeList
    simp only [get?_modify, if_true, hit, map_some]
  refine ⟨⟨by rw [hsizes]; exact h.tiling, by rw [hsizes]; exact h.two_pow, ?_⟩, ?_⟩
  · have hexcept := (h.free_lists.remove hit).of_chunks (a.take it) hlists (by
      intro x hx
      rw [hget, if_neg hx, get?_remove_from_free_list, if_neg hx])
    apply hexcept.ok
    intro k
    rw [hget, if_pos rfl]
    simp
  · intro x
    split_ifs with hx
    · rw [used_of_get? ((hget x).trans (if_pos hx))]
      rfl
    · exact used_congr ((hget x).trans (if_neg hx))

/-- The steps of `malloc`: it throws, or it cuts the front of a free list down to the size wanted
    and takes the last piece. -/
theorem Consistent.malloc_cases {n : ℕ} {a : Allocator} (h : Consistent n a) {size : ℕ}
    (hsize : (1 ≤ size ∧ size ≤ 2 ^ 63) ∨ a.free_lists_.entries = []) :
    a.malloc size = (none, a) ∨
      ∃ front j d, size ≤ 2 ^ j ∧ a.chunks_.get? front = some ⟨false, 2 ^ (j + d)⟩ ∧
        (a.malloc size).1 = some ((a.subdivide (2 ^ j) (2 ^ (j + d)) front).2 + a.base_) ∧
        (a.malloc size).2 = (a.subdivide (2 ^ j) (2 ^ (j + d)) front).1.take
          (a.subdivide (2 ^ j) (2 ^ (j + d)) front).2 := by
  unfold Grappa.Allocator.malloc
  simp only
  cases hlow : a.free_lists_.lowerBound
      (next_largest_power_of_2 (BitVec.ofNat 64 size)).toNat with
  | none => exact .inl rfl
  | some e =>
    right
    obtain ⟨k, l⟩ := e
    obtain ⟨hge, hlist⟩ := lowerBound_eq_some hlow
    simp only at hge hlist
    have hrange : 1 ≤ size ∧ size ≤ 2 ^ 63 := by
      rcases hsize with hrange | hnil
      · exact hrange
      · rw [lowerBound, hnil] at hlow
        cases hlow
    rw [next_largest_power_of_2_toNat hrange.1 hrange.2] at hge ⊢
    -- the front of the list is a free chunk of size `k`
    obtain ⟨front, rest, rfl⟩ : ∃ front rest, l = front :: rest := by
      cases l with
      | nil => exact absurd hlist (h.free_lists.nonempty k)
      | cons front rest => exact ⟨front, rest, rfl⟩
    have hfront : a.chunks_.get? front = some ⟨false, k⟩ := by
      rw [← h.free_lists.listed, freeList, hlist]
      exact List.mem_cons_self
    obtain ⟨i, rfl⟩ := h.two_pow front k (by simp [sizes, hfront])
    obtain ⟨d, rfl⟩ := Nat.exists_eq_add_of_le
      ((Nat.pow_le_pow_iff_right (by norm_num : 1 < 2)).mp hge)
    refine ⟨front, (size - 1).size, d, ?_, hfront, ?_, rfl⟩
    · have := Nat.lt_size_self (size - 1)
      omega
    · exact congrArg (fun b => some (_ + b)) (base_subdivide _ _ front a)

/-- **What `malloc` does**: it throws and changes nothing, or it takes into use a chunk that was
    not, which is large enough. -/
theorem Consistent.malloc {n : ℕ} {a : Allocator} (h : Consistent n a) {size : ℕ}
    (hsize : (1 ≤ size ∧ size ≤ 2 ^ 63) ∨ a.free_lists_.entries = []) :
    a.malloc size = (none, a) ∨
      ∃ it s : ℕ, (a.malloc size).1 = some (it + a.base_) ∧ size ≤ s ∧ a.used it = none ∧
        Consistent n (a.malloc size).2 ∧ (a.malloc size).2.base_ = a.base_ ∧
        ∀ x, (a.malloc size).2.used x = if x = it then some s else a.used x := by
  rcases h.malloc_cases hsize with hthrow | ⟨front, j, d, hle, hfront, haddr, heap⟩
  · exact .inl hthrow
  right
  obtain ⟨hcons, hused, hlast⟩ := h.subdivide (P := fun _ b => ∀ x, b.used x = a.used x) (by
    intro b it k hb hit hP x
    obtain ⟨-, hcut, -⟩ := hb.cut hit (Nat.two_pow_pos k) ⟨k, rfl⟩
    rw [hcut, hP]) d hfront (fun _ => rfl)
  obtain ⟨hcons', hused'⟩ := hcons.take hlast
  rw [heap]
  refine ⟨(a.subdivide (2 ^ j) (2 ^ (j + d)) front).2, 2 ^ j, haddr, hle, ?_, hcons', ?_, ?_⟩
  · rw [← hused]
    unfold used
    rw [hlast]
  · exact (base_remove_from_free_list _ _).trans (base_subdivide _ _ front a)
  · intro x
    rw [hused', hused]

theorem Consistent.give_back {n : ℕ} {a : Allocator} (h : Consistent n a) {it s : ℕ}
    (hit : a.used it = some s) :
    a.free (it + a.base_) = (a.add_to_free_list it).try_merge_buddy_recursive it ∧
      Consistent n (a.add_to_free_list it) ∧
      ∀ x, (a.add_to_free_list it).chunks_.get? x =
        if x = it then some ⟨false, s⟩ else a.chunks_.get? x := by
  rw [used_eq_some] at hit
  have hget : ∀ x, (a.add_to_free_list it).chunks_.get? x =
      if x = it then some ⟨false, s⟩ else a.chunks_.get? x := by
    intro x
    rw [get?_add_to_free_list, hit]
    rfl
  have hsizes : (a.add_to_free_list it).sizes = a.sizes := by
    funext x
    unfold sizes
    rw [hget]
    split_ifs with hx
    · rw [hx, hit]
      rfl
    · rfl
  refine ⟨?_, ⟨by rw [hsizes]; exact h.tiling, by rw [hsizes]; exact h.two_pow, ?_⟩, hget⟩
  · unfold Grappa.Allocator.free
    rw [show ((it : ℤ) + a.base_ - a.base_).toNat = it by omega]
  · apply (h.free_lists.except it _).add hit
    intro k
    rw [hit]
    simp

theorem Consistent.free {n : ℕ} {a : Allocator} (h : Consistent n a) {it s : ℕ}
    (hit : a.used it = some s) :
    Consistent n (a.free (it + a.base_)) ∧ (a.free (it + a.base_)).base_ = a.base_ ∧
      ∀ x, (a.free (it + a.base_)).used x = if x = it then none else a.used x := by
  obtain ⟨hfree, hback, hget⟩ := h.give_back hit
  rw [hfree]
  have hnot : ∀ k, (a.add_to_free_list it).chunks_.get? it ≠ some ⟨true, k⟩ := by
    intro k
    rw [hget, if_pos rfl]
    simp
  obtain ⟨hcons, -, hused, -⟩ := hback.try_merge
    (P := fun _ b => ∀ x, b.used x = (a.add_to_free_list it).used x) (by
      intro b it lower size hb _ hlow hhigh _ hP x
      rw [(hb.merge hlow hhigh).2, hP]) hnot (fun _ => rfl)
  refine ⟨hcons, by rw [base_try_merge, base_add_to_free_list], ?_⟩
  intro x
  rw [hused]
  split_ifs with hx
  · rw [used_of_get? ((hget x).trans (if_pos hx))]
    rfl
  · exact used_congr ((hget x).trans (if_neg hx))

end Allocator

end Grappa
