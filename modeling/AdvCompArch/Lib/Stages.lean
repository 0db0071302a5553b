import AdvCompArch.Lib.Census

/-! # Items that pass through stages

    A fixed number of items passes through numbered stages; at each stage the items lie in
    a list, and any one of them can be the next to go on to the following stage, possibly
    changed.

    * `mem_shift`: what is at a stage after a move was there before, or has just arrived.
    * `covered_shift`: no item is lost.
    * `weight_shift`: what a move changes in the total weight of the items.  With weights
      that do not depend on the stage the total is conserved, with decreasing ones it is a
      measure of progress. -/

namespace Stages

open Function

variable {α κ : Type*} {stages : ℕ → List α} {i j k n : ℕ} {x y : α}

/-- The stages after item `k` of stage `j` has gone on, as `y`, to stage `j + 1`. -/
def shift (stages : ℕ → List α) (j k : ℕ) (y : α) : ℕ → List α :=
  Function.update (Function.update stages j ((stages j).eraseIdx k)) (j + 1) (stages (j + 1) ++ [y])

@[simp] theorem shift_from : shift stages j k y j = (stages j).eraseIdx k := by
  simp [shift]

@[simp] theorem shift_to : shift stages j k y (j + 1) = stages (j + 1) ++ [y] := by
  simp [shift]

theorem shift_other (hj : i ≠ j) (hj' : i ≠ j + 1) : shift stages j k y i = stages i := by
  simp [shift, hj, hj']

theorem mem_shift (h : x ∈ shift stages j k y i) : x ∈ stages i ∨ (i = j + 1 ∧ x = y) := by
  by_cases hj : i = j
  · subst hj
    rw [shift_from] at h
    exact .inl (List.mem_of_mem_eraseIdx h)
  · by_cases hj' : i = j + 1
    · subst hj'
      rw [shift_to] at h
      rcases List.mem_append.mp h with h | h
      · exact .inl h
      · exact .inr ⟨rfl, List.mem_singleton.mp h⟩
    · rw [shift_other hj hj'] at h
      exact .inl h

theorem map_shift {β : Type*} (f : α → β) : (fun i => (shift stages j k y i).map f) =
    shift (fun i => (stages i).map f) j k (f y) := by
  funext i
  unfold shift
  simp only [update_apply]
  split_ifs <;> simp [List.eraseIdx_map]

/-- Some stage below `n` holds the item with key `b`. -/
def Covered (key : α → κ) (n : ℕ) (stages : ℕ → List α) (b : κ) : Prop :=
  ∃ i < n, ∃ x ∈ stages i, key x = b

/-- **No item is lost** by a move that keeps its key. -/
theorem covered_shift {key : α → κ} (hx : (stages j)[k]? = some x) (hkey : key y = key x)
    (hn : j + 1 < n) {b : κ} (h : Covered key n stages b) :
    Covered key n (shift stages j k y) b := by
  obtain ⟨i, hi, z, hz, hb⟩ := h
  obtain ⟨hk, hget⟩ := List.getElem?_eq_some_iff.mp hx
  by_cases hj : i = j
  · subst hj
    have hperm := List.getElem_cons_eraseIdx_perm hk
    rcases List.mem_cons.mp (hperm.mem_iff.mpr hz) with hzx | hrest
    · -- the moved item is at the next stage
      refine ⟨i + 1, hn, y, by simp, ?_⟩
      rw [hkey, ← hget, ← hzx, hb]
    · exact ⟨i, hi, z, by simpa using hrest, hb⟩
  · refine ⟨i, hi, z, ?_, hb⟩
    by_cases hj' : i = j + 1
    · subst hj'
      simp [hz]
    · rw [shift_other hj hj']
      exact hz

/-- The total weight of the items; the weight of an item may depend on its stage. -/
def weight (w : ℕ → α → ℕ) (n : ℕ) (stages : ℕ → List α) : ℕ :=
  ∑ i ∈ Finset.range n, ((stages i).map (w i)).sum

theorem weight_update (w : ℕ → α → ℕ) (stages : ℕ → List α) (hi : i < n) (l : List α) :
    weight w n (Function.update stages i l) + ((stages i).map (w i)).sum =
      weight w n stages + (l.map (w i)).sum := by
  have hsum := Census.sum_add_of_eq_off (Finset.mem_range.mpr hi)
    (g := fun j => ((update stages i l j).map (w j)).sum)
    (f := fun j => ((stages j).map (w j)).sum)
    fun j _ hj => by rw [update_of_ne hj]
  rwa [update_self] at hsum

/-- **A move** takes the weight of the item at its old stage away and adds that at the new one. -/
theorem weight_shift (w : ℕ → α → ℕ) (hx : (stages j)[k]? = some x) (hn : j + 1 < n) :
    weight w n (shift stages j k y) + w j x = weight w n stages + w (j + 1) y := by
  obtain ⟨hk, hget⟩ := List.getElem?_eq_some_iff.mp hx
  have hne : j + 1 ≠ j := by omega
  have hout := weight_update w stages (show j < n by omega) ((stages j).eraseIdx k)
  have hin := weight_update w (update stages j ((stages j).eraseIdx k)) hn
    (stages (j + 1) ++ [y])
  have hperm := ((List.getElem_cons_eraseIdx_perm hk).map (w j)).sum_eq
  rw [update_of_ne hne] at hin
  simp only [List.map_append, List.map_cons, List.map_nil, List.sum_append, List.sum_cons,
    List.sum_nil, hget] at hin hperm
  unfold shift
  omega

end Stages
