import AdvCompArch.Lib.Transition

/-! # Products of transition systems

    Components that do not share state: a label of the product names a component
    and one of its labels, and only that component moves.  Runs of the product
    project to runs of each component (`run_proj`), so what is proved about the
    runs of one component holds for all of them in every interleaving. -/

namespace Transition

namespace System

variable {ι State Label : Type*} [DecidableEq ι]

/-- The components `sys i` side by side. -/
def product (sys : ι → System State Label) : System (ι → State) (ι × Label) where
  init := fun i => (sys i).init
  next := fun s l => ((sys l.1).next (s l.1) l.2).map (Function.update s l.1)

/-- The labels of component `i` in a run of the product. -/
def proj (i : ι) (ls : List (ι × Label)) : List Label :=
  ls.filterMap fun l => if l.1 = i then some l.2 else none

variable {sys : ι → System State Label}

theorem product_next {s s' : ι → State} {i : ι} {l : Label} :
    (product sys).next s (i, l) = some s' ↔
      ∃ t, (sys i).next (s i) l = some t ∧ Function.update s i t = s' := by
  simp [product, Option.map_eq_some_iff]

@[simp] theorem proj_nil (i : ι) : proj i ([] : List (ι × Label)) = [] := rfl

theorem proj_cons_self (i : ι) (l : Label) (ls : List (ι × Label)) :
    proj i ((i, l) :: ls) = l :: proj i ls := by
  simp [proj]

theorem proj_cons_ne {i j : ι} (h : j ≠ i) (l : Label) (ls : List (ι × Label)) :
    proj i ((j, l) :: ls) = proj i ls := by
  simp [proj, h]

theorem run_proj {s s' : ι → State} {ls : List (ι × Label)}
    (hrun : (product sys).run s ls = some s') (i : ι) :
    (sys i).run (s i) (proj i ls) = some (s' i) := by
  induction ls generalizing s with
  | nil =>
    obtain rfl : s = s' := by simpa using hrun
    rfl
  | cons l ls ih =>
    obtain ⟨j, l⟩ := l
    obtain ⟨t, hl, ht⟩ := run_cons.mp hrun
    obtain ⟨u, hu, rfl⟩ := product_next.mp hl
    have hrest := ih ht
    by_cases hij : j = i
    · subst hij
      rw [proj_cons_self, run_cons]
      exact ⟨u, hu, by simpa using hrest⟩
    · rw [proj_cons_ne hij]
      rwa [Function.update_of_ne (Ne.symm hij)] at hrest

theorem Reachable.proj {s : ι → State} (hs : (product sys).Reachable s) (i : ι) :
    (sys i).Reachable (s i) := by
  obtain ⟨ls, hrun⟩ := hs
  exact ⟨System.proj i ls, run_proj hrun i⟩

/-- A condition on the moving component holds along a run of the product exactly when it
    holds along the run of each component. -/
theorem always_proj {P : ι → State → Label → Prop} {s s' : ι → State} {ls : List (ι × Label)}
    (hrun : (product sys).run s ls = some s') :
    (product sys).Always (fun s l => P l.1 (s l.1) l.2) s ls ↔
      ∀ i, (sys i).Always (P i) (s i) (proj i ls) := by
  induction ls generalizing s with
  | nil => exact ⟨fun _ _ => trivial, fun _ => trivial⟩
  | cons l ls ih =>
    obtain ⟨j, l⟩ := l
    obtain ⟨t, hl, ht⟩ := run_cons.mp hrun
    obtain ⟨u, hu, rfl⟩ := product_next.mp hl
    have hrest := ih ht
    constructor
    · rintro ⟨hP, htail⟩ i
      have hi := hrest.mp (htail _ hl) i
      by_cases hij : j = i
      · subst hij
        rw [proj_cons_self]
        refine ⟨hP, fun v hv => ?_⟩
        obtain rfl : u = v := Option.some.inj (hu.symm.trans hv)
        simpa using hi
      · rw [proj_cons_ne hij]
        rwa [Function.update_of_ne (Ne.symm hij)] at hi
    · intro hall
      have hj := hall j
      rw [proj_cons_self] at hj
      refine ⟨hj.1, fun v hv => ?_⟩
      obtain rfl : Function.update s j u = v := Option.some.inj (hl.symm.trans hv)
      refine hrest.mpr fun i => ?_
      by_cases hij : j = i
      · subst hij
        simpa using hj.2 u hu
      · have hi := hall i
        rw [proj_cons_ne hij] at hi
        rwa [Function.update_of_ne (Ne.symm hij)]

end System

end Transition
