import AdvCompArch.Lib.Transition
import Mathlib.Order.RelClasses

/-! # Termination of transition systems

    `Terminates s` says that no run from `s` goes on forever.  A measure in a well-founded order
    that every step makes smaller gives it; lexicographic products of numbers are such orders. -/

namespace Transition.System

variable {State Label α : Type*} {sys : System State Label}

variable (sys) in
/-- No run from `s` goes on forever. -/
def Terminates (s : State) : Prop := Acc (fun t s => ∃ l, sys.next s l = some t) s

/-- **Termination rule**: every step keeps an invariant and makes a measure smaller. -/
theorem terminates_of_measure [LT α] [WellFoundedLT α] (Inv : State → Prop) (μ : State → α)
    (hstep : ∀ s l s', Inv s → sys.next s l = some s' → Inv s' ∧ μ s' < μ s)
    {s : State} (hs : Inv s) : sys.Terminates s := by
  induction hm : μ s using WellFoundedLT.induction generalizing s with
  | ind m ih =>
    constructor
    rintro t ⟨l, hl⟩
    obtain ⟨hinv, hlt⟩ := hstep s l t hs hl
    exact ih (μ t) (hm ▸ hlt) hinv rfl

theorem Terminates.exists_end {s : State} (h : sys.Terminates s) :
    ∃ ls s', sys.run s ls = some s' ∧ ∀ l, sys.next s' l = none := by
  induction h with
  | intro s _ ih =>
    by_cases hhalt : ∀ l, sys.next s l = none
    · exact ⟨[], s, rfl, hhalt⟩
    · push Not at hhalt
      obtain ⟨l, hl⟩ := hhalt
      obtain ⟨t, ht⟩ := Option.ne_none_iff_exists'.mp hl
      obtain ⟨ls, s', hrun, hend⟩ := ih t ⟨l, ht⟩
      exact ⟨l :: ls, s', run_cons.mpr ⟨t, ht, hrun⟩, hend⟩

/-- **Until rule**: a system that terminates, and in which there is a step as long as `B` does not
    hold, can be run until `B` holds, with what the steps before keep. -/
theorem Terminates.run_until {K B : State → Prop}
    (hstep : ∀ s l s', K s → ¬B s → sys.next s l = some s' → K s')
    (hgo : ∀ s, K s → ¬B s → ∃ l, sys.next s l ≠ none) {s : State} (hs : K s)
    (h : sys.Terminates s) : ∃ ls s', sys.run s ls = some s' ∧ K s' ∧ B s' := by
  induction h with
  | intro s _ ih =>
    by_cases hB : B s
    · exact ⟨[], s, rfl, hs, hB⟩
    · obtain ⟨l, hl⟩ := hgo s hs hB
      obtain ⟨t, ht⟩ := Option.ne_none_iff_exists'.mp hl
      obtain ⟨ls, s', hrun, hK, hB'⟩ := ih t ⟨l, ht⟩ (hstep s l t hs hB ht)
      exact ⟨l :: ls, s', run_cons.mpr ⟨t, ht, hrun⟩, hK, hB'⟩

/-- Until nothing is possible, with steps that meet a condition, if there is such a step wherever
    there is one. -/
theorem Terminates.exists_end_always {P : State → Label → Prop}
    (hgo : ∀ s l, sys.next s l ≠ none → ∃ l', sys.next s l' ≠ none ∧ P s l') {s : State}
    (h : sys.Terminates s) :
    ∃ ls s', sys.run s ls = some s' ∧ sys.Always P s ls ∧ ∀ l, sys.next s' l = none := by
  induction h with
  | intro s _ ih =>
    by_cases hhalt : ∀ l, sys.next s l = none
    · exact ⟨[], s, rfl, trivial, hhalt⟩
    · push Not at hhalt
      obtain ⟨l, hl⟩ := hhalt
      obtain ⟨l', hl', hP⟩ := hgo s l hl
      obtain ⟨t, ht⟩ := Option.ne_none_iff_exists'.mp hl'
      obtain ⟨ls, s', hrun, halways, hend⟩ := ih t ⟨l', ht⟩
      refine ⟨l' :: ls, s', run_cons.mpr ⟨t, ht, hrun⟩, ⟨hP, fun u hu => ?_⟩, hend⟩
      rw [ht] at hu
      exact Option.some.inj hu ▸ halways

end Transition.System
