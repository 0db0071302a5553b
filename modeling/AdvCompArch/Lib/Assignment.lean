import Mathlib.Data.List.Basic

/-! # Association lists

    A list of keys with values, in which a key is looked up from the front.  `assign` gives
    a key a value: in place if it is there, else at the end. -/

namespace Assignment

open List

variable {K β : Type*} [DecidableEq K]

def assign : List (K × β) → K → β → List (K × β)
  | [], k, b => [(k, b)]
  | e :: l, k, b => if e.1 = k then (e.1, b) :: l else e :: assign l k b

@[simp] theorem lookup_assign_self (l : List (K × β)) (k : K) (b : β) :
    (assign l k b).lookup k = some b := by
  induction l with
  | nil => simp [assign]
  | cons e l ih =>
    unfold assign
    by_cases he : e.1 = k
    · simp [he]
    · have hne : (k == e.1) = false := by simpa using Ne.symm he
      rw [if_neg he, lookup_cons, hne]
      exact ih

theorem lookup_assign_of_ne (l : List (K × β)) {k k' : K} (h : k' ≠ k) (b : β) :
    (assign l k b).lookup k' = l.lookup k' := by
  induction l with
  | nil =>
    simpa [assign] using h
  | cons e l ih =>
    unfold assign
    by_cases he : e.1 = k
    · have hne : (k' == e.1) = false := by simpa [he] using h
      rw [if_pos he, lookup_cons, lookup_cons, hne]
    · rw [if_neg he, lookup_cons, lookup_cons, ih]

theorem lookup_eq_some_iff_mem {l : List (K × β)} (h : (l.map Prod.fst).Nodup) {k : K} {b : β} :
    l.lookup k = some b ↔ (k, b) ∈ l := by
  induction l with
  | nil => simp
  | cons e l ih =>
    rw [map_cons, nodup_cons] at h
    rw [lookup_cons, mem_cons]
    by_cases he : k = e.1
    · subst he
      have hnot : (e.1, b) ∉ l := fun hmem => h.1 (mem_map.mpr ⟨_, hmem, rfl⟩)
      simp [Prod.ext_iff, hnot, eq_comm]
    · have hne : (k == e.1) = false := by simpa using he
      rw [hne, ih h.2]
      simp [Prod.ext_iff, he]

end Assignment
