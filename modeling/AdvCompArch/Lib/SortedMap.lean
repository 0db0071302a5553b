import Mathlib.Data.List.Basic
import Mathlib.Order.Lattice

/-! # Maps as sorted lists of entries

    An ordered map (`std::map`) is a list of entries with ascending keys.  The order
    of the keys is part of the type, so a map holds each key at most once, and a map
    is known from its lookups: all operations are described by what `get?` finds
    after them. -/

structure SortedMap (κ ν : Type) [LinearOrder κ] where
  entries : List (κ × ν)
  sorted : entries.Pairwise fun e e' => e.1 < e'.1

namespace SortedMap

open List

variable {κ ν : Type} [LinearOrder κ]

def empty : SortedMap κ ν := ⟨[], .nil⟩

/-- `find`. -/
def get? (m : SortedMap κ ν) (k : κ) : Option ν :=
  (m.entries.find? fun e => e.1 = k).map Prod.snd

/-- `lower_bound`: the first entry whose key is not below `k`. -/
def lowerBound (m : SortedMap κ ν) (k : κ) : Option (κ × ν) :=
  m.entries.find? fun e => k ≤ e.1

def insertEntry (k : κ) (v : ν) : List (κ × ν) → List (κ × ν)
  | [] => [(k, v)]
  | e :: es =>
    if k < e.1 then (k, v) :: e :: es
    else if e.1 < k then e :: insertEntry k v es
    else (k, v) :: es

/-! ### Insertion in a sorted list -/

theorem mem_insertEntry {k : κ} {v : ν} {es : List (κ × ν)} {e : κ × ν}
    (h : e ∈ insertEntry k v es) : e = (k, v) ∨ e ∈ es := by
  induction es with
  | nil => exact .inl (mem_singleton.mp h)
  | cons e' es ih =>
    unfold insertEntry at h
    split_ifs at h with hlt hgt
    · exact mem_cons.mp h
    · rcases mem_cons.mp h with rfl | h
      · exact .inr mem_cons_self
      · exact (ih h).imp_right (mem_cons_of_mem _)
    · rcases mem_cons.mp h with rfl | h
      · exact .inl rfl
      · exact .inr (mem_cons_of_mem _ h)

theorem sorted_insertEntry (k : κ) (v : ν) {es : List (κ × ν)}
    (hes : es.Pairwise fun e e' => e.1 < e'.1) :
    (insertEntry k v es).Pairwise fun e e' => e.1 < e'.1 := by
  induction es with
  | nil => exact pairwise_singleton _ _
  | cons e es ih =>
    obtain ⟨hhead, htail⟩ := pairwise_cons.mp hes
    unfold insertEntry
    split_ifs with hlt hgt
    · apply List.Pairwise.cons _ hes
      intro e' he'
      rcases mem_cons.mp he' with rfl | he'
      · exact hlt
      · exact lt_trans hlt (hhead e' he')
    · apply List.Pairwise.cons _ (ih htail)
      intro e' he'
      rcases mem_insertEntry he' with rfl | he'
      · exact hgt
      · exact hhead e' he'
    · -- the entry of the key is replaced
      have heq : e.1 = k := le_antisymm (not_lt.mp hlt) (not_lt.mp hgt)
      apply List.Pairwise.cons _ htail
      intro e' he'
      rw [← heq]
      exact hhead e' he'

/-- `m[k] = v`. -/
def insert (m : SortedMap κ ν) (k : κ) (v : ν) : SortedMap κ ν :=
  ⟨insertEntry k v m.entries, sorted_insertEntry k v m.sorted⟩

def erase (m : SortedMap κ ν) (k : κ) : SortedMap κ ν :=
  ⟨m.entries.filter fun e => e.1 ≠ k, m.sorted.sublist List.filter_sublist⟩

/-- Change the value at `k` if there is one. -/
def modify (m : SortedMap κ ν) (k : κ) (f : ν → ν) : SortedMap κ ν :=
  match m.get? k with
  | none => m
  | some v => m.insert k (f v)

/-! ### Lookups -/

@[simp] theorem get?_empty (k : κ) : (empty : SortedMap κ ν).get? k = none := rfl

/-- A map finds its entries and nothing else. -/
theorem mem_entries (m : SortedMap κ ν) {k : κ} {v : ν} :
    (k, v) ∈ m.entries ↔ m.get? k = some v := by
  obtain ⟨es, hes⟩ := m
  unfold get?
  simp only
  induction es with
  | nil => simp
  | cons e es ih =>
    obtain ⟨hhead, htail⟩ := pairwise_cons.mp hes
    by_cases heq : e.1 = k
    · -- a later entry has a greater key
      have hnot : (k, v) ∉ es := by
        intro hmem
        exact absurd (hhead _ hmem) (by simp [heq])
      subst heq
      simp [hnot, Prod.ext_iff, eq_comm]
    · have hne : (k, v) ≠ e := by
        rintro rfl
        exact heq rfl
      simp [heq, hne, ih htail]

/-- A map is known from its lookups. -/
theorem ext_get? {m m' : SortedMap κ ν} (h : ∀ k, m.get? k = m'.get? k) : m = m' := by
  obtain ⟨es, hes⟩ := m
  obtain ⟨es', hes'⟩ := m'
  have hmem : ∀ e, e ∈ es ↔ e ∈ es' := by
    rintro ⟨k, v⟩
    rw [mem_entries ⟨es, hes⟩, mem_entries ⟨es', hes'⟩, h]
  have hperm : es.Perm es' := by
    apply (perm_ext_iff_of_nodup _ _).mpr hmem
    · exact hes.imp fun hlt heq => absurd hlt (by simp [heq])
    · exact hes'.imp fun hlt heq => absurd hlt (by simp [heq])
  congr 1
  apply hperm.eq_of_pairwise _ hes hes'
  intro e e' _ _ hlt hgt
  exact absurd hlt (lt_asymm hgt)

theorem get?_insertEntry (k k' : κ) (v : ν) (es : List (κ × ν))
    (hes : es.Pairwise fun e e' => e.1 < e'.1) :
    ((insertEntry k v es).find? fun e => e.1 = k') =
      if k' = k then some (k, v) else es.find? fun e => e.1 = k' := by
  induction es with
  | nil =>
    by_cases h : k' = k
    · simp [insertEntry, h]
    · simp [insertEntry, h, Ne.symm h]
  | cons e es ih =>
    obtain ⟨-, htail⟩ := pairwise_cons.mp hes
    unfold insertEntry
    by_cases hlt : k < e.1
    · rw [if_pos hlt]
      by_cases hk : k' = k
      · simp [hk]
      · rw [if_neg hk, find?_cons_of_neg (by simpa using Ne.symm hk)]
    · rw [if_neg hlt]
      by_cases hgt : e.1 < k
      · rw [if_pos hgt]
        by_cases he : e.1 = k'
        · have hk : k' ≠ k := by
            rw [← he]
            exact ne_of_lt hgt
          rw [find?_cons_of_pos (by simpa using he), if_neg hk,
            find?_cons_of_pos (by simpa using he)]
        · rw [find?_cons_of_neg (by simpa using he), ih htail,
            find?_cons_of_neg (by simpa using he)]
      · -- the entry of the key is replaced
        have heq : e.1 = k := le_antisymm (not_lt.mp hlt) (not_lt.mp hgt)
        rw [if_neg hgt]
        by_cases hk : k' = k
        · simp [hk]
        · have hne : e.1 ≠ k' := by
            rw [heq]
            exact Ne.symm hk
          simp [Ne.symm hk, hk, hne]

theorem get?_insert (m : SortedMap κ ν) (k k' : κ) (v : ν) :
    (m.insert k v).get? k' = if k' = k then some v else m.get? k' := by
  unfold get? insert
  rw [get?_insertEntry k k' v m.entries m.sorted]
  split <;> rfl

theorem get?_erase (m : SortedMap κ ν) (k k' : κ) :
    (m.erase k).get? k' = if k' = k then none else m.get? k' := by
  unfold get? erase
  rw [find?_filter]
  split_ifs with h
  · have hnone : m.entries.find? (fun e => decide (decide (e.1 ≠ k) = true ∧ decide (e.1 = k') = true))
        = none := by
      rw [find?_eq_none]
      intro e _
      simp only [decide_eq_true_eq, not_and]
      intro hne heq
      exact hne (heq.trans h)
    rw [hnone]
    rfl
  · congr 2
    funext e
    by_cases he : e.1 = k'
    · simp [he, h]
    · simp [he]

theorem get?_modify (m : SortedMap κ ν) (k k' : κ) (f : ν → ν) :
    (m.modify k f).get? k' = if k' = k then (m.get? k).map f else m.get? k' := by
  unfold modify
  cases hk : m.get? k with
  | none =>
    by_cases h : k' = k
    · simp [h, hk]
    · simp [h]
  | some v => simp [get?_insert]

theorem lowerBound_eq_some {m : SortedMap κ ν} {k : κ} {e : κ × ν}
    (h : m.lowerBound k = some e) : k ≤ e.1 ∧ m.get? e.1 = some e.2 := by
  refine ⟨by simpa using find?_some h, ?_⟩
  rw [← mem_entries]
  exact mem_of_find?_eq_some h

/-! ### Sizes -/

theorem length_insertEntry {k : κ} (v : ν) {es : List (κ × ν)}
    (hes : es.Pairwise fun e e' => e.1 < e'.1) {w : ν} (hmem : (k, w) ∈ es) :
    (insertEntry k v es).length = es.length := by
  induction es with
  | nil => cases hmem
  | cons e es ih =>
    obtain ⟨hhead, htail⟩ := pairwise_cons.mp hes
    unfold insertEntry
    split_ifs with hlt hgt
    · -- the key is not below the first one
      exfalso
      rcases mem_cons.mp hmem with heq | hmem
      · rw [← heq] at hlt
        exact lt_irrefl _ hlt
      · exact lt_irrefl _ (lt_trans hlt (hhead _ hmem))
    · rcases mem_cons.mp hmem with heq | hmem
      · rw [← heq] at hgt
        exact absurd hgt (lt_irrefl _)
      · rw [length_cons, ih htail hmem, length_cons]
    · rfl

@[simp] theorem length_modify (m : SortedMap κ ν) (k : κ) (f : ν → ν) :
    (m.modify k f).entries.length = m.entries.length := by
  unfold modify
  cases hk : m.get? k with
  | none => rfl
  | some v => exact length_insertEntry _ m.sorted (m.mem_entries.mpr hk)

theorem length_erase_lt {m : SortedMap κ ν} {k : κ} {v : ν} (h : m.get? k = some v) :
    (m.erase k).entries.length < m.entries.length := by
  apply length_filter_lt_length_iff_exists.mpr
  exact ⟨(k, v), m.mem_entries.mpr h, by simp⟩

end SortedMap
