import AdvCompArch.Lib.Phased

/-! # Parallel loops

    A phase whose items are the iterations of a loop, in any order: every iteration is done or
    still in the pool. -/

namespace Phased

open Multiset

variable {ι Item : Type*}

/-- The pool has iterations of the loop over the `units` only, and what is not `done` is in it. -/
structure ForEach (units : ι → Prop) (item : ι → Item) (done : ι → Prop) (pool : Multiset Item) :
    Prop where
  items : ∀ x ∈ pool, ∃ u, units u ∧ x = item u
  done : ∀ u, units u → done u ∨ item u ∈ pool

namespace ForEach

variable {units : ι → Prop} {item : ι → Item} {done done' : ι → Prop} {pool rest : Multiset Item}
  {x : Item}

/-- All the iterations are started. -/
theorem start {l : List ι} (hl : ∀ u, u ∈ l ↔ units u) :
    ForEach units item done (l.map item : List Item) where
  items := by
    intro x hx
    obtain ⟨u, hu, rfl⟩ := List.mem_map.mp hx
    exact ⟨u, (hl u).mp hu, rfl⟩
  done := fun u hu => .inr (mem_coe.mpr (List.mem_map_of_mem ((hl u).mpr hu)))

theorem head (h : ForEach units item done (x ::ₘ rest)) : ∃ u, units u ∧ x = item u :=
  h.items x (mem_cons_self x rest)

theorem exec {u : ι} (h : ForEach units item done (item u ::ₘ rest))
    (hinj : Function.Injective item) (hdone : done' u) (hkeep : ∀ w, w ≠ u → done w → done' w) :
    ForEach units item done' (rest + ([] : List Item)) where
  items := by
    intro x hx
    rw [coe_nil, add_zero] at hx
    exact h.items x (mem_cons_of_mem hx)
  done := by
    intro w hw
    rw [coe_nil, add_zero]
    by_cases heq : w = u
    · exact .inl (heq ▸ hdone)
    · rcases h.done w hw with hw | hmem
      · exact .inl (hkeep w heq hw)
      · refine .inr ((mem_cons.mp hmem).resolve_left ?_)
        intro heq'
        exact heq (hinj heq')

theorem finish (h : ForEach units item done 0) {u : ι} (hu : units u) : done u :=
  (h.done u hu).resolve_right (notMem_zero _)

end ForEach

end Phased
