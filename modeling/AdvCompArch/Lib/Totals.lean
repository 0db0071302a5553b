import Mathlib.Data.Fintype.Basic

/-! # Totals of an associative and commutative operation

    An operation without a neutral element has a total of any list that is not empty.
    `total op l` is the total of `l`, and `none` where `l` is empty.

    * `total_perm`: the order does not matter.
    * `foldl_parts`: totals of parts give the total of the whole.
    * `perm_spread`: what is spread over places is, taken together, what there was. -/

namespace Totals

open List

variable {α ι : Type*} (op : α → α → α)

/-- The total of a list, if it has an element. -/
def total (l : List α) : Option α := l.foldl (fun t x => t.merge op (some x)) none

@[simp] theorem total_nil : total op [] = none := rfl

theorem foldl_some (a : α) (l : List α) :
    l.foldl (fun t x => t.merge op (some x)) (some a) = some (l.foldl op a) := by
  induction l generalizing a with
  | nil => rfl
  | cons b l ih => exact ih (op a b)

@[simp] theorem total_cons (a : α) (l : List α) : total op (a :: l) = some (l.foldl op a) := by
  simp only [total, foldl_cons, Option.merge_none_left]
  exact foldl_some op a l

theorem total_concat (l : List α) (a : α) :
    total op (l ++ [a]) = (total op l).merge op (some a) := by
  simp [total]

section Laws

variable [Std.Associative op] [Std.Commutative op]

theorem total_perm {l m : List α} (h : l.Perm m) : total op l = total op m := by
  have hassoc := (inferInstance : Std.Associative (Option.merge op)).assoc
  have hcomm := (inferInstance : Std.Commutative (Option.merge op)).comm
  apply h.foldl_eq'
  intro x _ y _ t
  rw [hassoc, hcomm (some x), hassoc]

theorem foldl_perm {a b : α} {l m : List α} (h : (a :: l).Perm (b :: m)) :
    l.foldl op a = m.foldl op b := by
  have := total_perm op h
  rwa [total_cons, total_cons, Option.some.injEq] at this

omit [Std.Commutative op] in
theorem foldl_parts (a : α) (parts : List (α × List α)) :
    (parts.map fun p => p.2.foldl op p.1).foldl op a =
      (parts.flatMap fun p => p.1 :: p.2).foldl op a := by
  induction parts generalizing a with
  | nil => rfl
  | cons p parts ih =>
    have hpart : op a (p.2.foldl op p.1) = p.2.foldl op (op a p.1) := foldl_assoc.symm
    rw [map_cons, foldl_cons, hpart, ih, flatMap_cons, foldl_append,
      foldl_cons]

end Laws

/-! ### Things spread over places -/

section Spread

variable [DecidableEq ι]

/-- What of `xs` is at place `i`. -/
def at_place (xs : List (ι × α)) (i : ι) : List α :=
  xs.filterMap fun x => if x.1 = i then some x.2 else none

@[simp] theorem at_place_nil (i : ι) : at_place ([] : List (ι × α)) i = [] := rfl

theorem at_place_cons (x : ι × α) (xs : List (ι × α)) (i : ι) :
    at_place (x :: xs) i = if x.1 = i then x.2 :: at_place xs i else at_place xs i := by
  unfold at_place
  split <;> simp_all

theorem at_place_concat (xs : List (ι × α)) (x : ι × α) (i : ι) :
    at_place (xs ++ [x]) i = if x.1 = i then at_place xs i ++ [x.2] else at_place xs i := by
  unfold at_place
  split <;> simp_all

/-- **Taken together**, what is at the places is what there was. -/
theorem perm_spread {places : List ι} (hnodup : places.Nodup) (xs : List (ι × α))
    (hplaces : ∀ x ∈ xs, x.1 ∈ places) :
    (places.flatMap (at_place xs)).Perm (xs.map Prod.snd) := by
  induction xs with
  | nil => simp [at_place]
  | cons x xs ih =>
    -- the place of `x`, and the places before and after it
    obtain ⟨before, after, rfl⟩ := append_of_mem (hplaces x (by simp))
    have hrest := ih fun y hy => hplaces y (by simp [hy])
    obtain ⟨hbefore, hafter⟩ : x.1 ∉ before ∧ x.1 ∉ after := by
      simp only [nodup_append, nodup_cons, mem_cons] at hnodup
      exact ⟨fun h => hnodup.2.2 _ h _ (.inl rfl) rfl, hnodup.2.1.1⟩
    have hsame : ∀ l : List ι, x.1 ∉ l → l.flatMap (at_place (x :: xs)) = l.flatMap (at_place xs) := by
      intro l hl
      apply flatMap_congr
      intro i hi
      have hne : x.1 ≠ i := fun h => hl (by rw [h]; exact hi)
      rw [at_place_cons, if_neg hne]
    rw [flatMap_append, flatMap_cons, hsame before hbefore, hsame after hafter,
      at_place_cons, if_pos rfl, map_cons]
    rw [flatMap_append, flatMap_cons] at hrest
    exact perm_middle.trans (hrest.cons _)

end Spread

end Totals
