import Mathlib.Algebra.BigOperators.Group.Finset.Basic
import Mathlib.Data.List.AList

/-! # Values grouped by key

    A map from keys to the lists of their values, as an association list: `push` appends a value
    to the list of its key.  What a function of a key and its values gives for all keys together
    (`outputs`) depends only on what it gives for each key (`outputs_congr`), with nothing for the
    keys that are missing. -/

abbrev Groups (K V : Type*) := AList fun _ : K => List V

namespace Groups

open List

variable {K V β : Type*} [DecidableEq K] {g g' : Groups K V} {k k' : K} {v : V}

/-- The values of a key. -/
def slot (g : Groups K V) (k : K) : List V := (g.lookup k).getD []

def push (g : Groups K V) (k : K) (v : V) : Groups K V := g.insert k (g.slot k ++ [v])

/-- The key has no values from now on, if it was there. -/
def clear (g : Groups K V) (k : K) : Groups K V := g.insert k []

/-- Every key that is there has values. -/
def Full (g : Groups K V) : Prop := ∀ k ∈ g, g.slot k ≠ []

@[simp] theorem slot_empty (k : K) : slot (∅ : Groups K V) k = [] := rfl

theorem full_empty : Full (∅ : Groups K V) := fun k hk => absurd hk (AList.notMem_empty k)

theorem slot_insert (g : Groups K V) (k k' : K) (vs : List V) :
    slot (g.insert k vs) k' = if k' = k then vs else g.slot k' := by
  unfold slot
  by_cases hk : k' = k
  · subst hk
    rw [AList.lookup_insert, if_pos rfl]
    rfl
  · rw [AList.lookup_insert_ne hk, if_neg hk]

theorem slot_push (g : Groups K V) (k k' : K) (v : V) :
    (g.push k v).slot k' = if k' = k then g.slot k ++ [v] else g.slot k' := slot_insert g k k' _

theorem slot_clear (g : Groups K V) (k k' : K) :
    (g.clear k).slot k' = if k' = k then [] else g.slot k' := slot_insert g k k' _

theorem slot_eq_nil (h : k ∉ g) : g.slot k = [] := by
  unfold slot
  rw [AList.lookup_eq_none.mpr h]
  rfl

theorem Full.push (h : g.Full) (k : K) (v : V) : (g.push k v).Full := by
  intro k' hk'
  rw [slot_push]
  split
  · exact append_ne_nil_of_right_ne_nil _ (cons_ne_nil _ _)
  · rename_i hne
    rcases (AList.mem_insert g).mp hk' with heq | hmem
    · exact absurd heq hne
    · exact h k' hmem

theorem slot_of_mem {e : (_ : K) × List V} (he : e ∈ g.entries) : g.slot e.1 = e.2 := by
  unfold slot
  rw [AList.mem_lookup_iff.mpr he]
  rfl

/-! ### All keys together -/

/-- What a function gives for the keys with their values. -/
def outputs (f : K → List V → List β) (g : Groups K V) : Multiset β :=
  (g.keys.map fun k => (f k (g.slot k) : Multiset β)).sum

theorem mem_outputs {f : K → List V → List β} {b : β} :
    b ∈ g.outputs f ↔ ∃ k ∈ g, b ∈ f k (g.slot k) := by
  rw [outputs, ← Multiset.sum_coe, ← Multiset.map_coe, ← Multiset.join, ← Multiset.bind,
    Multiset.mem_bind]
  rfl

/-- In whatever order the keys are gone through. -/
theorem flatMap_keys (f : K → List V → List β) {l : List K} (hl : l.Perm g.keys) :
    ((l.flatMap fun k => f k (g.slot k) : List β) : Multiset β) = g.outputs f := by
  rw [Multiset.coe_eq_coe.mpr (hl.flatMap_right fun k => f k (g.slot k)), ← Multiset.coe_bind,
    Multiset.bind, Multiset.join, Multiset.map_coe, Multiset.sum_coe]
  rfl

theorem flatMap_entries (f : K → List V → List β) {l : List ((_ : K) × List V)}
    (hl : l.Perm g.entries) : ((l.flatMap fun e => f e.1 e.2 : List β) : Multiset β) = g.outputs f := by
  have hslots : (l.flatMap fun e => f e.1 e.2) =
      (l.map Sigma.fst).flatMap fun k => f k (g.slot k) := by
    rw [flatMap_map]
    refine flatMap_congr fun e he => ?_
    rw [slot_of_mem (hl.mem_iff.mp he)]
  rw [hslots]
  exact flatMap_keys f (hl.map Sigma.fst)

theorem outputs_eq_sum (f : K → List V → List β) (hf : ∀ k, f k [] = []) {s : Finset K}
    (hs : ∀ k ∈ g, k ∈ s) : g.outputs f = ∑ k ∈ s, (f k (g.slot k) : Multiset β) := by
  have hsub : g.keys.toFinset ⊆ s := fun k hk => hs k (AList.mem_keys.mpr (mem_toFinset.mp hk))
  rw [← Finset.sum_subset hsub fun k _ hk => ?_]
  · unfold outputs
    rw [sum_toFinset _ g.keys_nodup]
  · have hmem : k ∉ g := fun hmem => hk (mem_toFinset.mpr (AList.mem_keys.mp hmem))
    rw [slot_eq_nil hmem, hf]
    rfl

theorem outputs_congr (f : K → List V → List β) (hf : ∀ k, f k [] = [])
    (h : ∀ k, (f k (g.slot k)).Perm (f k (g'.slot k))) : g.outputs f = g'.outputs f := by
  rw [outputs_eq_sum f hf (s := g.keys.toFinset ∪ g'.keys.toFinset) fun k hk => ?_,
    outputs_eq_sum f hf (s := g.keys.toFinset ∪ g'.keys.toFinset) fun k hk => ?_]
  · exact Finset.sum_congr rfl fun k _ => Multiset.coe_eq_coe.mpr (h k)
  · exact Finset.mem_union_right _ (mem_toFinset.mpr (AList.mem_keys.mp hk))
  · exact Finset.mem_union_left _ (mem_toFinset.mpr (AList.mem_keys.mp hk))

theorem outputs_single (f : K → List V → List β) (h : ∀ k', k' ≠ k → f k' (g.slot k') = []) :
    g.outputs f = if k ∈ g then (f k (g.slot k) : Multiset β) else 0 := by
  have hsum : g.outputs f = ∑ k' ∈ g.keys.toFinset, (f k' (g.slot k') : Multiset β) := by
    unfold outputs
    rw [sum_toFinset _ g.keys_nodup]
  rw [hsum]
  split
  · rename_i hk
    refine Finset.sum_eq_single k (fun k' _ hk' => ?_) fun hnot => absurd hk fun hmem => hnot ?_
    · rw [h k' hk']
      rfl
    · exact mem_toFinset.mpr (AList.mem_keys.mp hmem)
  · rename_i hk
    refine Finset.sum_eq_zero fun k' hk' => ?_
    have hne : k' ≠ k := by
      rintro rfl
      exact hk (AList.mem_keys.mpr (mem_toFinset.mp hk'))
    rw [h k' hne]
    rfl

theorem Full.outputs_eq (hfull : g.Full) {f f' : K → List V → List β}
    (h : ∀ k vs, vs ≠ [] → f k vs = f' k vs) : g.outputs f = g.outputs f' := by
  unfold outputs
  refine congrArg _ (map_congr_left fun k hk => ?_)
  rw [h k _ (hfull k (AList.mem_keys.mpr hk))]

end Groups
