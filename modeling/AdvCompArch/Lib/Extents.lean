import Mathlib.Data.List.Perm.Basic
import Mathlib.Data.List.Pairwise

/-! # Extents of memory

    Extents of addresses that are kept apart while they are handed about: what a family of lists
    of extents keeps when an extent moves from one list to another, when a part is taken from
    one, and when one is added or dropped.  And lists that are linked through the memory of their
    own elements. -/

namespace Extents

open Function List

/-- `size` addresses from `start` on. -/
structure Extent where
  start : ℕ
  size : ℕ
  deriving DecidableEq

namespace Extent

variable {e f e' f' g : Extent}

/-- The address after the last one. -/
def stop (e : Extent) : ℕ := e.start + e.size

/-- The extents have no address in common. -/
def Apart (e f : Extent) : Prop := e.stop ≤ f.start ∨ f.stop ≤ e.start

def Inside (e f : Extent) : Prop := f.start ≤ e.start ∧ e.stop ≤ f.stop

instance : Decidable (e.Apart f) := inferInstanceAs (Decidable (_ ∨ _))

theorem Apart.symm (h : e.Apart f) : f.Apart e := Or.symm h

@[refl] theorem Inside.refl (e : Extent) : e.Inside e := ⟨Nat.le_refl _, Nat.le_refl _⟩

theorem Inside.trans (hef : e.Inside f) (hfg : f.Inside g) : e.Inside g :=
  ⟨Nat.le_trans hfg.1 hef.1, Nat.le_trans hef.2 hfg.2⟩

theorem Apart.inside (h : e.Apart f) (he : e'.Inside e) (hf : f'.Inside f) : e'.Apart f' := by
  rcases h with h | h
  · exact .inl (Nat.le_trans he.2 (Nat.le_trans h hf.1))
  · exact .inr (Nat.le_trans hf.2 (Nat.le_trans h he.1))

theorem Apart.absurd (h : e.Apart f) {a : ℕ} (he : e.start ≤ a ∧ a < e.stop)
    (hf : f.start ≤ a ∧ a < f.stop) : False := by
  rcases h with h | h
  · exact Nat.lt_irrefl a (Nat.lt_of_lt_of_le he.2 (Nat.le_trans h hf.1))
  · exact Nat.lt_irrefl a (Nat.lt_of_lt_of_le hf.2 (Nat.le_trans h he.1))

end Extent

open Extent

/-! ### Families -/

section Spread

variable {ι : Type*} {place place' : ι → List Extent} {i j : ι} {e r r' : Extent}
  {l : List Extent}

/-- All the extents at all the places are apart. -/
structure Spread (place : ι → List Extent) : Prop where
  within : ∀ i, (place i).Pairwise Apart
  across : ∀ i j, i ≠ j → ∀ e ∈ place i, ∀ f ∈ place j, e.Apart f

theorem Spread.of_empty (h : ∀ i, place i = []) : Spread place where
  within := by
    intro i
    rw [h i]
    exact Pairwise.nil
  across := by
    intro i j _ e he
    rw [h i] at he
    cases he

/-- **One place changes**: what is there then is apart from the rest. -/
theorem Spread.change (h : Spread place) (hwithin : (place' i).Pairwise Apart)
    (hacross : ∀ j, j ≠ i → ∀ e ∈ place' i, ∀ f ∈ place j, e.Apart f)
    (hother : ∀ j, j ≠ i → place' j = place j) : Spread place' where
  within := by
    intro j
    by_cases hji : j = i
    · rw [hji]
      exact hwithin
    · rw [hother j hji]
      exact h.within j
  across := by
    intro j k hjk e he f hf
    by_cases hji : j = i
    · subst hji
      rw [hother k hjk.symm] at hf
      exact hacross k hjk.symm e he f hf
    · rw [hother j hji] at he
      by_cases hki : k = i
      · subst hki
        exact (hacross j hji f hf e he).symm
      · rw [hother k hki] at hf
        exact h.across j k hjk e he f hf

theorem Spread.drop (h : Spread place) (hi : (place i).Perm (e :: l)) (hi' : place' i = l)
    (hother : ∀ j, j ≠ i → place' j = place j) : Spread place' := by
  have hpair : (e :: l).Pairwise Apart :=
    (hi.pairwise_iff fun {_ _} h => Apart.symm h).mp (h.within i)
  apply h.change (i := i)
  · rw [hi']
    exact (pairwise_cons.mp hpair).2
  · intro j hj f hf g hg
    rw [hi'] at hf
    exact h.across i j hj.symm f (hi.mem_iff.mpr (mem_cons_of_mem _ hf)) g hg
  · exact hother

theorem Spread.insert (h : Spread place) (hfresh : ∀ j, ∀ f ∈ place j, e.Apart f)
    (hi' : place' i = e :: place i) (hother : ∀ j, j ≠ i → place' j = place j) :
    Spread place' := by
  apply h.change (i := i)
  · rw [hi']
    exact pairwise_cons.mpr ⟨hfresh i, h.within i⟩
  · intro j hj f hf g hg
    rw [hi'] at hf
    rcases mem_cons.mp hf with rfl | hf
    · exact hfresh j g hg
    · exact h.across i j hj.symm f hf g hg
  · exact hother

theorem Spread.move [DecidableEq ι] (h : Spread place) (hij : i ≠ j)
    (hi : (place i).Perm (e :: l)) (hi' : place' i = l) (hj' : place' j = e :: place j)
    (hother : ∀ k, k ≠ i → k ≠ j → place' k = place k) : Spread place' := by
  have hpair : (e :: l).Pairwise Apart :=
    (hi.pairwise_iff fun {_ _} h => Apart.symm h).mp (h.within i)
  have he : e ∈ place i := hi.mem_iff.mpr (mem_cons_self ..)
  -- it is dropped at its place, and then it is added at the other one
  have hdrop : Spread (update place i l) :=
    h.drop hi (update_self ..) fun k hk => update_of_ne hk ..
  apply hdrop.insert (i := j) (e := e)
  · intro k f hf
    by_cases hki : k = i
    · subst hki
      rw [update_self] at hf
      exact (pairwise_cons.mp hpair).1 f hf
    · rw [update_of_ne hki] at hf
      exact h.across i k (Ne.symm hki) e he f hf
  · rw [update_of_ne hij.symm]
    exact hj'
  · intro k hkj
    by_cases hki : k = i
    · rw [hki, update_self]
      exact hi'
    · rw [update_of_ne hki]
      exact hother k hki hkj

theorem Spread.carve [DecidableEq ι] (h : Spread place) (hij : i ≠ j) (hi : place i = [r])
    (he : e.Inside r) (hr' : r'.Inside r) (hapart : e.Apart r') (hi' : place' i = [r'])
    (hj' : place' j = e :: place j) (hother : ∀ k, k ≠ i → k ≠ j → place' k = place k) :
    Spread place' := by
  have hr : r ∈ place i := by
    rw [hi]
    exact mem_singleton_self r
  have hrest : ∀ k, k ≠ i → ∀ f ∈ place k, r.Apart f :=
    fun k hk f hf => h.across i k hk.symm r hr f hf
  have hshrink : Spread (update place i [r']) := by
    apply h.change (i := i)
    · rw [update_self]
      exact pairwise_singleton _ _
    · intro k hk f hf g hg
      rw [update_self, mem_singleton] at hf
      rw [hf]
      exact (hrest k hk g hg).inside hr' (.refl _)
    · exact fun k hk => update_of_ne hk ..
  apply hshrink.insert (i := j) (e := e)
  · intro k f hf
    by_cases hki : k = i
    · subst hki
      rw [update_self, mem_singleton] at hf
      rw [hf]
      exact hapart
    · rw [update_of_ne hki] at hf
      exact (hrest k hki f hf).inside he (.refl _)
  · rw [update_of_ne hij.symm]
    exact hj'
  · intro k hkj
    by_cases hki : k = i
    · rw [hki, update_self]
      exact hi'
    · rw [update_of_ne hki]
      exact hother k hki hkj

end Spread

/-! ### Linked lists -/

section Linked

variable {next : ℕ → Option ℕ} {first v : Option ℕ} {a : ℕ} {l : List ℕ}

/-- The list of the addresses from `first` on, each with its successor in its own memory. -/
def Linked (next : ℕ → Option ℕ) : Option ℕ → List ℕ → Prop
  | first, [] => first = none
  | first, a :: l => first = some a ∧ Linked next (next a) l

theorem Linked.update (h : Linked next first l) (ha : a ∉ l) :
    Linked (Function.update next a v) first l := by
  induction l generalizing first with
  | nil => exact h
  | cons b l ih =>
    rw [mem_cons, not_or] at ha
    refine ⟨h.1, ?_⟩
    rw [update_of_ne (Ne.symm ha.1)]
    exact ih h.2 ha.2

theorem Linked.update_list {ι : Type*} [DecidableEq ι] {i : ι} {firsts : ι → Option ℕ}
    {lists : ι → List ℕ} (h : ∀ k, Linked next (firsts k) (lists k))
    (hother : ∀ k, k ≠ i → a ∉ lists k) (hi : Linked (Function.update next a v) first l) (k : ι) :
    Linked (Function.update next a v) (Function.update firsts i first k)
      (Function.update lists i l k) := by
  by_cases hk : k = i
  · subst hk
    rw [update_self, update_self]
    exact hi
  · rw [update_of_ne hk, update_of_ne hk]
    exact (h k).update (hother k hk)

theorem forall_update_list {ι : Type*} [DecidableEq ι] {i : ι} {lists : ι → List ℕ}
    {P : ℕ → Prop} (h : ∀ k, ∀ x ∈ lists k, P x) (hl : ∀ x ∈ l, P x) (k : ι) :
    ∀ x ∈ Function.update lists i l k, P x := by
  by_cases hk : k = i
  · subst hk
    rw [update_self]
    exact hl
  · rw [update_of_ne hk]
    exact h k

theorem Linked.pop (h : Linked next (some a) l) : ∃ t, l = a :: t ∧ Linked next (next a) t := by
  cases l with
  | nil => cases h
  | cons b t =>
    obtain ⟨hb, ht⟩ := h
    cases hb
    exact ⟨t, rfl, ht⟩

theorem Linked.push (h : Linked next first l) (ha : a ∉ l) :
    Linked (Function.update next a first) (some a) (a :: l) := by
  refine ⟨rfl, ?_⟩
  rw [update_self]
  exact h.update ha

end Linked

end Extents
