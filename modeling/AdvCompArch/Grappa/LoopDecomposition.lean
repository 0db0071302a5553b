import Mathlib.Tactic.NormNum

/-! # Recursive loop decomposition

    `loop_decomposition` halves an iteration range until the threshold is reached:
    the right half is spawned as a task of its own, the left half continues in the
    same task.  One call is modelled by what it does next (`LoopStep`); the tasks
    themselves live in a pool (see the loops that use it).

    The spawned half travels in 48-bit bit fields. -/

namespace Grappa

/-- `USE_LOOP_THRESHOLD_FLAG`. -/
def USE_LOOP_THRESHOLD_FLAG : ℤ := 0

/-- The threshold parameters of a loop: the template argument and the command-line flag. -/
structure LoopThreshold where
  Threshold : ℤ
  FLAGS_loop_threshold : ℤ

/-- The threshold in effect. -/
def LoopThreshold.effective (t : LoopThreshold) : ℤ :=
  if t.Threshold = USE_LOOP_THRESHOLD_FLAG then t.FLAGS_loop_threshold else t.Threshold

/-- The value read back from a signed bit field of 48 bits. -/
def bits48 (x : ℤ) : ℤ := Int.bmod x (2 ^ 48)

theorem bits48_of_lt {x : ℤ} (h0 : 0 ≤ x) (h : x < 2 ^ 47) : bits48 x = x := by
  unfold bits48
  rw [Int.bmod_def]
  norm_num at h ⊢
  split_ifs <;> omega

/-- The arguments of one call of `loop_decomposition`. -/
@[ext] structure Loop where
  start : ℤ
  iterations : ℤ
  deriving DecidableEq

/-- What a call of `loop_decomposition` does next. -/
inductive LoopStep where
  /-- No iterations are left. -/
  | done
  /-- `loop_body(start, iterations)`. -/
  | leaf (start iterations : ℤ)
  /-- Enroll, spawn the right half, continue with the left half. -/
  | split (right left : Loop)
  deriving DecidableEq

def loop_decomposition (t : LoopThreshold) (l : Loop) : LoopStep :=
  if l.iterations = 0 then .done
  else if (t.Threshold = USE_LOOP_THRESHOLD_FLAG ∧ l.iterations ≤ t.FLAGS_loop_threshold) ∨
      l.iterations ≤ t.Threshold then
    .leaf l.start l.iterations
  else
    let rstart := l.start + (l.iterations + 1).tdiv 2
    let riters := l.iterations.tdiv 2
    .split ⟨bits48 rstart, bits48 riters⟩ ⟨l.start, (l.iterations + 1).tdiv 2⟩

/-- The iteration ranges whose halves fit the 48-bit fields. -/
structure Loop.Fits (l : Loop) : Prop where
  start_nonneg : 0 ≤ l.start
  iterations_nonneg : 0 ≤ l.iterations
  bound : l.start + l.iterations < 2 ^ 47

/-- What one call does with a range that fits: nothing, a leaf, or two adjacent halves
    that both have iterations. -/
theorem loop_decomposition_cases {t : LoopThreshold} (ht : 1 ≤ t.effective) {l : Loop}
    (hl : l.Fits) :
    (l.iterations = 0 ∧ loop_decomposition t l = .done) ∨
    (1 ≤ l.iterations ∧ loop_decomposition t l = .leaf l.start l.iterations) ∨
    (∃ a b : ℤ, 1 ≤ a ∧ 1 ≤ b ∧ l.iterations = a + b ∧
      loop_decomposition t l = .split ⟨l.start + a, b⟩ ⟨l.start, a⟩) := by
  obtain ⟨h0, hn, hb⟩ := hl
  by_cases hz : l.iterations = 0
  · exact Or.inl ⟨hz, by simp [loop_decomposition, hz]⟩
  by_cases hleaf : (t.Threshold = USE_LOOP_THRESHOLD_FLAG ∧
      l.iterations ≤ t.FLAGS_loop_threshold) ∨ l.iterations ≤ t.Threshold
  · exact Or.inr (Or.inl ⟨by omega, by simp only [loop_decomposition, hz, hleaf, if_true, if_false]⟩)
  · -- not a leaf: there are more iterations than the threshold, so at least two
    have h2 : 2 ≤ l.iterations := by
      unfold LoopThreshold.effective at ht
      split_ifs at ht with hflag
      · have : ¬ l.iterations ≤ t.FLAGS_loop_threshold := fun h => hleaf (Or.inl ⟨hflag, h⟩)
        omega
      · have : ¬ l.iterations ≤ t.Threshold := fun h => hleaf (Or.inr h)
        omega
    have hdiv1 : (l.iterations + 1).tdiv 2 = (l.iterations + 1) / 2 :=
      Int.tdiv_eq_ediv_of_nonneg (by omega)
    have hdiv2 : l.iterations.tdiv 2 = l.iterations / 2 := Int.tdiv_eq_ediv_of_nonneg hn
    have hr : bits48 (l.start + (l.iterations + 1) / 2) = l.start + (l.iterations + 1) / 2 :=
      bits48_of_lt (by omega) (by omega)
    have hi : bits48 (l.iterations / 2) = l.iterations / 2 := bits48_of_lt (by omega) (by omega)
    refine Or.inr (Or.inr ⟨(l.iterations + 1) / 2, l.iterations / 2, by omega, by omega,
      by omega, ?_⟩)
    simp only [loop_decomposition, hz, hleaf, if_false, hdiv1, hdiv2, hr, hi]

end Grappa
