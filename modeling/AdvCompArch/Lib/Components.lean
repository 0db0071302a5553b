import Mathlib.Data.Set.Card

/-! # Counting classes

    The classes of an equivalence relation that meet a set, and a representative for each of
    them: there are as many classes as elements that represent themselves. -/

namespace Components

variable {α : Type*} {r : α → α → Prop} {S : Set α} {rep : α → α}

variable (r S) in
/-- The classes of the elements of `S`. -/
def classes : Set (Set α) := (fun v => {w | r v w}) '' S

/-- **Count**: as many classes as elements that represent their own. -/
theorem ncard_classes (hr : Equivalence r) (hS : ∀ v ∈ S, rep v ∈ S)
    (hrep : ∀ v ∈ S, r v (rep v)) (hconst : ∀ v ∈ S, ∀ w, r v w → rep w = rep v) :
    (classes r S).ncard = {v | v ∈ S ∧ rep v = v}.ncard := by
  have hclass : ∀ v ∈ S, {w | r (rep v) w} = {w | r v w} := by
    intro v hv
    ext w
    exact ⟨fun h => hr.trans (hrep v hv) h, fun h => hr.trans (hr.symm (hrep v hv)) h⟩
  have himage : classes r S = (fun v => {w | r v w}) '' {v | v ∈ S ∧ rep v = v} := by
    apply Set.Subset.antisymm
    · rintro _ ⟨v, hv, rfl⟩
      exact ⟨rep v, ⟨hS v hv, hconst v hv _ (hrep v hv)⟩, hclass v hv⟩
    · rintro _ ⟨v, ⟨hv, _⟩, rfl⟩
      exact ⟨v, hv, rfl⟩
  rw [himage]
  refine Set.InjOn.ncard_image ?_
  rintro v ⟨hv, hfix⟩ w ⟨hw, hfix'⟩ heq
  have hvw : r v w := by
    have hmem : w ∈ {w' | r w w'} := hr.refl w
    have heq' : {w' | r v w'} = {w' | r w w'} := heq
    rw [← heq'] at hmem
    exact hmem
  rw [← hfix, ← hfix', hconst v hv w hvw]

end Components
