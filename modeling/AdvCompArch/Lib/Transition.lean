import Mathlib.Data.List.Basic
import Mathlib.Data.Option.Basic
import Mathlib.Order.Basic

/-! # Labelled transition systems with determining labels

    Every concurrent component of the development is a state together with a
    partial function `next`: a label names one atomic step (which task runs,
    which message is delivered), and `next s l` is the state after it, or
    `none` when the step is not possible in `s`.  All nondeterminism is in the
    choice of the labels, so an interleaving is a list of labels and can be
    evaluated.

    The module provides runs, the predicate "every step of the run meets a
    condition on the state before it", and the invariant rules. -/

namespace Transition

/-- A system: one initial state and a partial successor for each label. -/
structure System (State Label : Type*) where
  init : State
  next : State → Label → Option State

namespace System

variable {State Label : Type*} (sys : System State Label)

/-- The state after taking the steps `ls` from `s`. -/
def run : State → List Label → Option State
  | s, [] => some s
  | s, l :: ls => (sys.next s l).bind fun s' => run s' ls

section run

variable {sys}

@[simp] theorem run_nil (s : State) : sys.run s [] = some s := rfl

theorem run_cons {s s'' : State} {l : Label} {ls : List Label} :
    sys.run s (l :: ls) = some s'' ↔ ∃ s', sys.next s l = some s' ∧ sys.run s' ls = some s'' := by
  simp [run, Option.bind_eq_some_iff]

theorem run_append {s s'' : State} {ls ms : List Label} :
    sys.run s (ls ++ ms) = some s'' ↔ ∃ s', sys.run s ls = some s' ∧ sys.run s' ms = some s'' := by
  induction ls generalizing s with
  | nil => simp
  | cons l ls ih =>
    rw [List.cons_append, run_cons]
    constructor
    · rintro ⟨t, hl, ht⟩
      obtain ⟨u, hu, hms⟩ := ih.mp ht
      exact ⟨u, run_cons.mpr ⟨t, hl, hu⟩, hms⟩
    · rintro ⟨u, hu, hms⟩
      obtain ⟨t, hl, ht⟩ := run_cons.mp hu
      exact ⟨t, hl, ih.mpr ⟨u, ht, hms⟩⟩

theorem run_snoc {s s'' : State} {ls : List Label} {l : Label} :
    sys.run s (ls ++ [l]) = some s'' ↔ ∃ s', sys.run s ls = some s' ∧ sys.next s' l = some s'' := by
  rw [run_append]
  simp [run]

end run

/-- Every step that the run `ls` takes from `s` meets `P` in the state before it. -/
def Always (P : State → Label → Prop) : State → List Label → Prop
  | _, [] => True
  | s, l :: ls => P s l ∧ ∀ s', sys.next s l = some s' → Always P s' ls

/-- A decidable condition can be checked along a run. -/
instance decidableAlways {P : State → Label → Prop} [∀ s l, Decidable (P s l)] :
    ∀ s ls, Decidable (sys.Always P s ls)
  | _, [] => isTrue trivial
  | s, l :: ls =>
    match h : sys.next s l with
    | none => decidable_of_iff (P s l) (by simp [Always, h])
    | some s' =>
      have := decidableAlways (P := P) s' ls
      decidable_of_iff (P s l ∧ sys.Always P s' ls) (by simp [Always, h])

/-- Every state that the run `ls` passes from `s` on meets `G`, the last one included. -/
def Throughout (G : State → Prop) : State → List Label → Prop
  | s, [] => G s
  | s, l :: ls => G s ∧ ∀ s', sys.next s l = some s' → Throughout G s' ls

/-- `s` is the end of some run from the initial state. -/
def Reachable (s : State) : Prop := ∃ ls, sys.run sys.init ls = some s

variable {sys}

theorem Reachable.run {s s' : State} {ls : List Label} (hs : sys.Reachable s)
    (h : sys.run s ls = some s') : sys.Reachable s' := by
  obtain ⟨ms, hms⟩ := hs
  exact ⟨ms ++ ls, run_append.mpr ⟨s, hms, h⟩⟩

theorem Reachable.next {s s' : State} {l : Label} (hs : sys.Reachable s)
    (h : sys.next s l = some s') : sys.Reachable s' :=
  hs.run (run_cons.mpr ⟨s', h, run_nil s'⟩)

theorem always_true (s : State) (ls : List Label) : sys.Always (fun _ _ => True) s ls := by
  induction ls generalizing s with
  | nil => trivial
  | cons l ls ih => exact ⟨trivial, fun s' _ => ih s'⟩

theorem Always.mono {P Q : State → Label → Prop} (hPQ : ∀ s l, P s l → Q s l) {s : State}
    {ls : List Label} (h : sys.Always P s ls) : sys.Always Q s ls := by
  induction ls generalizing s with
  | nil => trivial
  | cons l ls ih => exact ⟨hPQ s l h.1, fun s' hs' => ih (h.2 s' hs')⟩

theorem Always.and {P Q : State → Label → Prop} {s : State} {ls : List Label}
    (hP : sys.Always P s ls) (hQ : sys.Always Q s ls) :
    sys.Always (fun s l => P s l ∧ Q s l) s ls := by
  induction ls generalizing s with
  | nil => trivial
  | cons l ls ih => exact ⟨⟨hP.1, hQ.1⟩, fun s' hs' => ih (hP.2 s' hs') (hQ.2 s' hs')⟩

/-- A condition on every step is a condition on the steps before a point and on those after it. -/
theorem always_append {P : State → Label → Prop} {s s' : State} {ls ms : List Label}
    (hrun : sys.run s ls = some s') :
    sys.Always P s (ls ++ ms) ↔ sys.Always P s ls ∧ sys.Always P s' ms := by
  induction ls generalizing s with
  | nil =>
    obtain rfl : s = s' := by simpa using hrun
    simp [Always]
  | cons l ls ih =>
    obtain ⟨t, hl, ht⟩ := run_cons.mp hrun
    simp only [List.cons_append, Always, hl, Option.some.injEq, forall_eq', ih ht, and_assoc]

/-- **Invariant rule under a step condition**: what holds initially and is kept by
    every step meeting `P` holds at the end of every run all of whose steps meet `P`. -/
theorem invariant_under {P : State → Label → Prop} (Inv : State → Prop)
    (hstep : ∀ s l s', Inv s → P s l → sys.next s l = some s' → Inv s')
    {s s' : State} {ls : List Label} (hs : Inv s) (hP : sys.Always P s ls)
    (hrun : sys.run s ls = some s') : Inv s' := by
  induction ls generalizing s with
  | nil =>
    obtain rfl : s = s' := by simpa using hrun
    exact hs
  | cons l ls ih =>
    obtain ⟨t, hl, ht⟩ := run_cons.mp hrun
    exact ih (hstep s l t hs hP.1 hl) (hP.2 t hl) ht

/-- **Invariant rule**: what holds initially and is kept by every step holds in every
    reachable state. -/
theorem Reachable.invariant (Inv : State → Prop) (hinit : Inv sys.init)
    (hstep : ∀ s l s', Inv s → sys.next s l = some s' → Inv s')
    {s : State} (hs : sys.Reachable s) : Inv s := by
  obtain ⟨ls, hrun⟩ := hs
  exact invariant_under (P := fun _ _ => True) Inv (fun s l s' h _ => hstep s l s' h) hinit
    (always_true _ _) hrun

theorem Throughout.head {G : State → Prop} {s : State} {ls : List Label}
    (h : sys.Throughout G s ls) : G s := by
  cases ls with
  | nil => exact h
  | cons l ls => exact h.1

theorem Throughout.last {G : State → Prop} {s s' : State} {ls : List Label}
    (h : sys.Throughout G s ls) (hrun : sys.run s ls = some s') : G s' := by
  induction ls generalizing s with
  | nil =>
    obtain rfl : s = s' := by simpa using hrun
    exact h
  | cons l ls ih =>
    obtain ⟨t, hl, ht⟩ := run_cons.mp hrun
    exact ih (h.2 t hl) ht

/-- **Invariant rule along a run**: what holds initially and is kept by every step meeting `P`
    holds all along, with all that follows from it. -/
theorem throughout_under {Inv G : State → Prop} {P : State → Label → Prop}
    (hgood : ∀ s, Inv s → G s)
    (hstep : ∀ s l s', Inv s → P s l → sys.next s l = some s' → Inv s')
    {s : State} {ls : List Label} (hs : Inv s) (hP : sys.Always P s ls) : sys.Throughout G s ls := by
  induction ls generalizing s with
  | nil => exact hgood s hs
  | cons l ls ih => exact ⟨hgood s hs, fun t hl => ih (hstep s l t hs hP.1 hl) (hP.2 t hl)⟩

/-- **Exact step condition** in the runs that meet `A`: where steps that meet `P` keep the
    invariant and have the property `Q`, and a step that does not meet `P` lacks `Q` or leads to a
    state that is not good, the condition `P` on every step is the same as the good states and the
    property `Q` all along. -/
theorem throughout_iff_always_of {Inv G : State → Prop} {A P Q : State → Label → Prop}
    (hgood : ∀ s, Inv s → G s)
    (hstep : ∀ s l s', Inv s → A s l → P s l → sys.next s l = some s' → Inv s' ∧ Q s l)
    (hbad : ∀ s l s', Inv s → A s l → ¬P s l → sys.next s l = some s' → ¬(Q s l ∧ G s'))
    {s s' : State} {ls : List Label} (hs : Inv s) (hA : sys.Always A s ls)
    (hrun : sys.run s ls = some s') :
    sys.Throughout G s ls ∧ sys.Always Q s ls ↔ sys.Always P s ls := by
  induction ls generalizing s with
  | nil => exact ⟨fun _ => trivial, fun _ => ⟨hgood s hs, trivial⟩⟩
  | cons l ls ih =>
    obtain ⟨t, hl, ht⟩ := run_cons.mp hrun
    have hAt := hA.2 t hl
    simp only [Throughout, Always, hl, Option.some.injEq, forall_eq']
    constructor
    · intro ⟨⟨_, hG⟩, hQ, hrest⟩
      have hP : P s l := by
        by_contra hP
        exact hbad s l t hs hA.1 hP hl ⟨hQ, hG.head⟩
      exact ⟨hP, (ih (hstep s l t hs hA.1 hP hl).1 hAt ht).mp ⟨hG, hrest⟩⟩
    · intro ⟨hP, hrest⟩
      obtain ⟨hInv, hQ⟩ := hstep s l t hs hA.1 hP hl
      obtain ⟨hG, hQs⟩ := (ih hInv hAt ht).mpr hrest
      exact ⟨⟨hgood s hs, hG⟩, hQ, hQs⟩

theorem throughout_iff_always {Inv G : State → Prop} {P Q : State → Label → Prop}
    (hgood : ∀ s, Inv s → G s)
    (hstep : ∀ s l s', Inv s → P s l → sys.next s l = some s' → Inv s' ∧ Q s l)
    (hbad : ∀ s l s', Inv s → ¬P s l → sys.next s l = some s' → ¬(Q s l ∧ G s'))
    {s s' : State} {ls : List Label} (hs : Inv s) (hrun : sys.run s ls = some s') :
    sys.Throughout G s ls ∧ sys.Always Q s ls ↔ sys.Always P s ls :=
  throughout_iff_always_of hgood (fun s l s' hi _ => hstep s l s' hi)
    (fun s l s' hi _ => hbad s l s' hi) hs (always_true s ls) hrun

theorem always_congr {P Q : State → Label → Prop} (Inv : State → Prop)
    (hstep : ∀ s l s', Inv s → sys.next s l = some s' → Inv s')
    (h : ∀ s l, Inv s → (P s l ↔ Q s l)) {s : State} (hs : Inv s) (ls : List Label) :
    sys.Always P s ls ↔ sys.Always Q s ls := by
  induction ls generalizing s with
  | nil => exact Iff.rfl
  | cons l ls ih => exact and_congr (h s l hs) (forall₂_congr fun t hl => ih (hstep s l t hs hl))

/-- **Exact loss rule**: where every step keeps an invariant and makes a value smaller or keeps it,
    the latter just for the steps that meet `P`, a run keeps the value just if all its steps meet
    `P`. -/
theorem kept_iff_always {α : Type*} [PartialOrder α] (Inv : State → Prop) (Q : State → α)
    {P : State → Label → Prop}
    (hstep : ∀ s l s', Inv s → sys.next s l = some s' → Inv s' ∧ Q s' ≤ Q s ∧ (Q s' = Q s ↔ P s l))
    {s s' : State} {ls : List Label} (hs : Inv s) (hrun : sys.run s ls = some s') :
    Inv s' ∧ Q s' ≤ Q s ∧ (Q s' = Q s ↔ sys.Always P s ls) := by
  induction ls generalizing s with
  | nil =>
    obtain rfl : s = s' := by simpa using hrun
    exact ⟨hs, le_refl _, iff_of_true rfl trivial⟩
  | cons l ls ih =>
    obtain ⟨t, hl, ht⟩ := run_cons.mp hrun
    obtain ⟨hinv, hle, hiff⟩ := hstep s l t hs hl
    obtain ⟨hinv', hle', hiff'⟩ := ih hinv ht
    refine ⟨hinv', hle'.trans hle, ?_⟩
    simp only [Always, hl, Option.some.injEq, forall_eq', ← hiff, ← hiff']
    constructor
    · intro heq
      -- nothing is lost in between
      have hfirst : Q t = Q s := le_antisymm hle (heq ▸ hle')
      exact ⟨hfirst, heq.trans hfirst.symm⟩
    · rintro ⟨hfirst, hrest⟩
      exact hrest.trans hfirst

/-- **Bounded runs**: where every step keeps an invariant and makes a measure smaller, no run is
    longer than the measure. -/
theorem length_add_le (Inv : State → Prop) (μ : State → ℕ)
    (hstep : ∀ s l s', Inv s → sys.next s l = some s' → Inv s' ∧ μ s' < μ s)
    {s s' : State} {ls : List Label} (hs : Inv s) (hrun : sys.run s ls = some s') :
    ls.length + μ s' ≤ μ s := by
  induction ls generalizing s with
  | nil =>
    obtain rfl : s = s' := by simpa using hrun
    simp
  | cons l ls ih =>
    obtain ⟨t, hl, ht⟩ := run_cons.mp hrun
    obtain ⟨hinv, hlt⟩ := hstep s l t hs hl
    have := ih hinv ht
    rw [List.length_cons]
    omega

variable (sys) in
/-- **Termination rule**: where every step keeps an invariant and makes a measure smaller, some
    run ends in a state without a next step. -/
theorem run_to_halt (Inv : State → Prop) (μ : State → ℕ)
    (hstep : ∀ s l s', Inv s → sys.next s l = some s' → Inv s' ∧ μ s' < μ s)
    {s : State} (hs : Inv s) :
    ∃ ls s', sys.run s ls = some s' ∧ Inv s' ∧ ∀ l, sys.next s' l = none := by
  induction hn : μ s using Nat.strongRecOn generalizing s with
  | ind n ih =>
    by_cases hhalt : ∀ l, sys.next s l = none
    · exact ⟨[], s, rfl, hs, hhalt⟩
    · -- take one step and go on from there
      push Not at hhalt
      obtain ⟨l, hl⟩ := hhalt
      obtain ⟨t, ht⟩ := Option.ne_none_iff_exists'.mp hl
      obtain ⟨hinv, hlt⟩ := hstep s l t hs ht
      obtain ⟨ls, s', hrun, hs', hend⟩ := ih (μ t) (by omega) hinv rfl
      exact ⟨l :: ls, s', run_cons.mpr ⟨t, ht, hrun⟩, hs', hend⟩

end System

end Transition
