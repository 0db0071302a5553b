import Mathlib.Data.List.Count
import Mathlib.Data.List.Perm.Basic
import Mathlib.Data.List.Nodup
import Mathlib.Algebra.GroupWithZero.Nat
import Mathlib.Order.Lattice
import Mathlib.Order.Nat

/-! # The places of a counting sort

    The place of an element of a list is the number of elements less than it and of equal ones
    before it.

    * `places_perm`: every place is that of one element.
    * `entries_flatMap`: where equal elements are in one bucket, the buckets can be placed each on
      its own.
    * `map_range_perm`, `map_range_pairwise`: a sequence with the elements at their places is
      sorted.
    * `below_add`: how many elements are less, from the counts. -/

namespace CountingRanks

open List

variable {α : Type*} [LinearOrder α]

/-- How many elements are less than `k`. -/
def below (l : List α) (k : α) : ℕ := l.countP (· < k)

/-- The place of the element at index `i`, which is `k`. -/
def place (l : List α) (k : α) (i : ℕ) : ℕ := below l k + (l.take i).count k

/-- The elements of a list with their places, where those of `k` start at `base k`. -/
def entries (base : α → ℕ) (l : List α) : List (ℕ × α) :=
  l.mapIdx fun i k => (base k + (l.take i).count k, k)

/-- The places of the elements. -/
def places (l : List α) : List ℕ := (entries (below l) l).map Prod.fst

variable {l : List α} {i j : ℕ} {k k' : α} {base base' : α → ℕ}

theorem below_perm {l' : List α} (h : l.Perm l') (k : α) : below l k = below l' k := h.countP_eq _

/-! ### Entries -/

@[simp] theorem length_entries (base : α → ℕ) (l : List α) : (entries base l).length = l.length :=
  length_mapIdx

@[simp] theorem length_places (l : List α) : (places l).length = l.length := by simp [places]

theorem getElem?_entries (h : l[i]? = some k) :
    (entries base l)[i]? = some (base k + (l.take i).count k, k) := by
  rw [entries, getElem?_mapIdx, h]
  rfl

theorem mem_entries {p : ℕ × α} (h : p ∈ entries base l) :
    ∃ i k, l[i]? = some k ∧ p = (base k + (l.take i).count k, k) := by
  obtain ⟨i, hi, rfl⟩ := mem_mapIdx.mp h
  exact ⟨i, l[i], getElem?_eq_getElem hi, rfl⟩

theorem map_snd_entries (base : α → ℕ) (l : List α) : (entries base l).map Prod.snd = l := by
  apply ext_getElem (by simp)
  intro i _ _
  simp only [entries, getElem_map, getElem_mapIdx]

theorem entries_congr (h : ∀ k ∈ l, base k = base' k) : entries base l = entries base' l := by
  apply ext_getElem (by simp)
  intro i hi _
  have hlt : i < l.length := by simpa using hi
  simp only [entries, getElem_mapIdx, h _ (getElem_mem hlt)]

theorem entries_append (base : α → ℕ) (l l' : List α) :
    entries base (l ++ l') = entries base l ++ entries (fun k => base k + l.count k) l' := by
  rw [entries, mapIdx_append]
  congr 1
  · apply ext_getElem (by simp)
    intro i hi _
    have hlt : i < l.length := by simpa using hi
    simp only [entries, getElem_mapIdx, take_append_of_le_length (Nat.le_of_lt hlt)]
  · apply ext_getElem (by simp)
    intro i _ _
    simp only [entries, getElem_mapIdx, Nat.add_comm i, take_length_add_append,
      count_append, Nat.add_assoc]

/-- **Placing the buckets** each on its own. -/
theorem entries_flatMap {κ : Type*} (L : κ → List α) {buckets : List κ}
    (hdisjoint : buckets.Pairwise fun b c => ∀ k ∈ L c, k ∉ L b) (base : α → ℕ) :
    entries base (buckets.flatMap L) = buckets.flatMap fun b => entries base (L b) := by
  induction buckets with
  | nil => rfl
  | cons b buckets ih =>
    obtain ⟨hb, hrest⟩ := pairwise_cons.mp hdisjoint
    rw [flatMap_cons, flatMap_cons, entries_append, ← ih hrest]
    congr 1
    apply entries_congr
    intro k hk
    obtain ⟨c, hc, hkc⟩ := mem_flatMap.mp hk
    rw [count_eq_zero.mpr (hb c hc k hkc), Nat.add_zero]

/-! ### Places -/

/-- The elements less than `k` and those equal to it are not more than those less than a greater
    one. -/
theorem below_add_count_le (h : k < k') : below l k + l.count k ≤ below l k' := by
  induction l with
  | nil => simp [below]
  | cons a l ih =>
    unfold below at ih ⊢
    rw [countP_cons, countP_cons, count_cons]
    by_cases ha : a = k
    · subst ha
      simp [h]
      omega
    · by_cases hlt : a < k
      · simp [ha, hlt, hlt.trans h]
        omega
      · simp [ha, hlt]
        omega

theorem below_add_count_le_length (l : List α) (k : α) : below l k + l.count k ≤ l.length := by
  induction l with
  | nil => simp [below]
  | cons a l ih =>
    unfold below at ih ⊢
    rw [countP_cons, count_cons, length_cons]
    by_cases ha : a = k
    · subst ha
      simp
      omega
    · simp only [beq_iff_eq, ha, if_false, decide_eq_true_eq]
      split_ifs <;> omega

theorem count_take_succ (h : l[i]? = some k) : (l.take (i + 1)).count k = (l.take i).count k + 1 := by
  rw [take_add_one, h, Option.toList_some, count_append, count_singleton_self]

theorem count_take_lt (h : l[i]? = some k) : (l.take i).count k < l.count k := by
  have hle := ((take_sublist (i + 1) l).count_le k)
  rw [count_take_succ h] at hle
  omega

theorem place_lt_length (h : l[i]? = some k) : place l k i < l.length := by
  have := below_add_count_le_length l k
  have := count_take_lt h
  unfold place
  omega

theorem place_lt_place (h : l[i]? = some k) (hlt : k < k') (j : ℕ) : place l k i < place l k' j := by
  have := below_add_count_le (l := l) hlt
  have := count_take_lt h
  unfold place
  omega

theorem place_lt_place_of_lt (h : l[i]? = some k) (hij : i < j) : place l k i < place l k j := by
  have hle : (l.take (i + 1)).count k ≤ (l.take j).count k :=
    (take_sublist_take_left (show i + 1 ≤ j from hij)).count_le k
  rw [count_take_succ h] at hle
  unfold place
  omega

theorem place_injective (hi : l[i]? = some k) (hj : l[j]? = some k')
    (heq : place l k i = place l k' j) : i = j := by
  rcases lt_trichotomy k k' with hlt | rfl | hlt
  · have := place_lt_place hi hlt j
    omega
  · rcases Nat.lt_trichotomy i j with hij | hij | hij
    · have := place_lt_place_of_lt hi hij
      omega
    · exact hij
    · have := place_lt_place_of_lt hj hij
      omega
  · have := place_lt_place hj hlt i
    omega

theorem places_perm (l : List α) : (places l).Perm (List.range l.length) := by
  have hnodup : (places l).Nodup := by
    rw [nodup_iff_injective_getElem]
    intro i j heq
    simp only [places, entries, getElem_map, getElem_mapIdx] at heq
    exact Fin.ext (place_injective (getElem?_eq_getElem _) (getElem?_eq_getElem _) heq)
  have hsub : places l ⊆ range l.length := by
    intro p hp
    obtain ⟨q, hq, rfl⟩ := mem_map.mp hp
    obtain ⟨i, k, hi, rfl⟩ := mem_entries hq
    exact mem_range.mpr (place_lt_length hi)
  exact (subperm_of_subset hnodup hsub).perm_of_length_le (by simp)

section output

variable {out : ℕ → α} (hout : ∀ p ∈ entries (below l) l, out p.1 = p.2)

include hout

theorem map_range_perm : ((List.range l.length).map out).Perm l := by
  have hmap : (places l).map out = l := by
    rw [places, map_map]
    conv_rhs => rw [← map_snd_entries (below l) l]
    exact map_congr_left hout
  conv_rhs => rw [← hmap]
  exact (places_perm l).symm.map out

theorem map_range_pairwise : ((List.range l.length).map out).Pairwise (· ≤ ·) := by
  rw [pairwise_map]
  apply pairwise_lt_range.imp_of_mem
  intro p q hp hq hpq
  -- the two places are those of two elements
  have hfind : ∀ p ∈ range l.length, ∃ i k, l[i]? = some k ∧ place l k i = p ∧ out p = k := by
    intro p hp
    obtain ⟨e, he, rfl⟩ := mem_map.mp ((places_perm l).mem_iff.mpr hp)
    have hval := hout e he
    obtain ⟨i, k, hi, rfl⟩ := mem_entries he
    exact ⟨i, k, hi, rfl, hval⟩
  obtain ⟨i, k, hi, rfl, hk⟩ := hfind p hp
  obtain ⟨j, k', hj, rfl, hk'⟩ := hfind q hq
  rw [hk, hk']
  by_contra hgt
  have := place_lt_place hj (not_le.mp hgt) i
  omega

end output

/-! ### Ranks from counts -/

theorem below_succ (l : List ℕ) (k : ℕ) : below l (k + 1) = below l k + l.count k := by
  induction l with
  | nil => rfl
  | cons a l ih =>
    unfold below at ih ⊢
    rw [countP_cons, countP_cons, count_cons, ih]
    by_cases ha : a = k
    · simp [ha]
      omega
    · simp only [beq_iff_eq, ha, if_false, decide_eq_true_eq]
      split_ifs <;> omega

theorem below_add (l : List ℕ) (k j : ℕ) :
    below l (k + j) = below l k + ((List.range j).map fun i => l.count (k + i)).sum := by
  induction j with
  | zero => simp
  | succ j ih =>
    rw [← Nat.add_assoc, below_succ, ih, range_succ, map_append, sum_append]
    simp [Nat.add_assoc]

end CountingRanks
