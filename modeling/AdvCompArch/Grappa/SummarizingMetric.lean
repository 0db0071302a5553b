import AdvCompArch.Lib.Moments
import AdvCompArch.Lib.Subtasks
import Mathlib.Algebra.Order.Ring.Rat

/-! # Summarizing metrics

    A `SummarizingMetric` keeps the number of its samples, their mean, the sum of their squared
    distances from it, and the least and the greatest of them, without keeping the samples.
    `merge_all` asks every core for its metric and combines the replies as they arrive. -/

namespace Grappa

open Moments Multiset Phased

/-- `std::numeric_limits<T>` -/
structure Limits where
  max : ℚ
  min : ℚ

@[ext] structure SummarizingMetric where
  value_ : ℚ
  n : ℕ
  mean : ℚ
  M2 : ℚ
  min : ℚ
  max : ℚ
  deriving DecidableEq

namespace SummarizingMetric

/-- The constructor. -/
def new (lim : Limits) (initial_value : ℚ) : SummarizingMetric :=
  ⟨initial_value, 0, initial_value, 0, lim.max, lim.min⟩

def reset (lim : Limits) (initial_value : ℚ) : SummarizingMetric :=
  ⟨initial_value, 0, 0, 0, lim.max, lim.min⟩

def process (m : SummarizingMetric) (t : ℚ) : SummarizingMetric :=
  let n := m.n + 1
  let delta := t - m.mean
  let mean := m.mean + delta / n
  let M2 := m.M2 + delta * (t - mean)
  -- the first sample is both
  let min := if n = 1 then t else m.min
  let max := if n = 1 then t else m.max
  { m with
    n := n
    mean := mean
    M2 := M2
    max := if t > max then t else max
    min := if t < min then t else min }

/-- Some samples, one after the other. -/
def processAll (m : SummarizingMetric) (ts : List ℚ) : SummarizingMetric := ts.foldl process m

/-- The handler of a reply of `merge_all`. -/
def combine (combined sp : SummarizingMetric) : SummarizingMetric :=
  -- update only if we have accumulated samples
  if sp.n > 0 then
    let combined := { combined with value_ := combined.value_ + sp.value_ }
    -- overwrite if we are the first samples
    if combined.n = 0 then
      { combined with n := sp.n, mean := sp.mean, M2 := sp.M2, min := sp.min, max := sp.max }
    else
      let new_n := sp.n + combined.n
      let delta := sp.mean - combined.mean
      { combined with
        n := new_n
        mean := combined.mean + delta * (sp.n / new_n)
        M2 := combined.M2 + sp.M2 + delta * delta * combined.n * sp.n / new_n
        max := Max.max combined.max sp.max
        min := Min.min combined.min sp.min }
  else combined

/-! ### Merging -/

inductive Phase
  | start
  | wait
  | returned
  deriving DecidableEq

structure MergeState where
  combined : SummarizingMetric
  /-- What `ce` waits for. -/
  count : ℕ
  phase : Phase

/-- The messages of `merge_all`. -/
inductive Message
  /-- To core `c`, which reads its metric. -/
  | request (c : ℕ)
  /-- Back, with what was read. -/
  | reply (sp : SummarizingMetric)

section merge

variable (cores : ℕ) (stats : ℕ → SummarizingMetric)

def Message.handle (s : MergeState) : Message → MergeState × List Message
  | .request c => (s, [.reply (stats c)])
  | .reply sp => ({ s with combined := s.combined.combine sp, count := s.count - 1 }, [])

def MergeState.advance (s : MergeState) : Option (MergeState × List Message) :=
  match s.phase with
  | .start => some (⟨⟨0, 0, 0, 0, 0, 0⟩, cores, .wait⟩, (List.range cores).map .request)
  | .wait => if s.count = 0 then some ({ s with phase := .returned }, []) else none
  | .returned => none

/-- `merge_all`, where `stats` are the metrics of the cores. -/
def merge_all : Phased.Program MergeState Message where
  exec := fun s x => some (x.handle stats s)
  advance := MergeState.advance cores

end merge

def init (this : SummarizingMetric) : MergeState := ⟨this, 0, .start⟩

/-! ### What a metric says of its samples -/

/-- The statistics are those of the samples; without any, the mean and the extremes are of no
    account. -/
structure Summarises (m : SummarizingMetric) (xs : Multiset ℚ) : Prop where
  n : m.n = xs.card
  M2 : m.M2 = spread xs
  mean : xs ≠ 0 → m.mean = Moments.mean xs
  min : xs ≠ 0 → IsLeast {x | x ∈ xs} m.min
  max : xs ≠ 0 → IsGreatest {x | x ∈ xs} m.max

/-- A metric without samples, after its construction or a reset. -/
def Fresh (lim : Limits) (m : SummarizingMetric) : Prop :=
  ∃ initial_value, m = new lim initial_value ∨ m = reset lim initial_value

variable {lim : Limits} {m combined sp : SummarizingMetric} {xs ys : Multiset ℚ} {t : ℚ}

theorem Fresh.summarises (h : Fresh lim m) : m.Summarises 0 := by
  obtain ⟨v, rfl | rfl⟩ := h <;>
    exact ⟨rfl, spread_zero.symm, fun h => absurd rfl h, fun h => absurd rfl h,
      fun h => absurd rfl h⟩

theorem setOf_mem_cons : {x | x ∈ t ::ₘ xs} = insert t {x | x ∈ xs} := by
  ext x
  simp

/-- **A sample**: Welford's update. -/
theorem Summarises.process (h : m.Summarises xs) : (m.process t).Summarises (t ::ₘ xs) := by
  have hone : m.n + 1 = 1 ↔ xs = 0 := by
    rw [h.n, ← card_eq_zero]
    omega
  have hmean : (m.process t).mean = Moments.mean (t ::ₘ xs) := by
    rw [← mean_cons h.mean, ← h.n]
    rfl
  refine ⟨?_, ?_, fun _ => hmean, fun _ => ?_, fun _ => ?_⟩
  · rw [card_cons, ← h.n]
    rfl
  · rw [← spread_cons h.mean, ← hmean, ← h.M2]
    rfl
  · rw [setOf_mem_cons]
    show IsLeast _ (if t < (if m.n + 1 = 1 then t else m.min) then t
      else if m.n + 1 = 1 then t else m.min)
    by_cases hxs : xs = 0
    · simp [hone.mpr hxs, hxs]
    · rw [if_neg (fun hn => hxs (hone.mp hn))]
      rw [← min_def_lt]
      exact (h.min hxs).insert t
  · rw [setOf_mem_cons]
    show IsGreatest _ (if t > (if m.n + 1 = 1 then t else m.max) then t
      else if m.n + 1 = 1 then t else m.max)
    by_cases hxs : xs = 0
    · simp [hone.mpr hxs, hxs]
    · rw [if_neg (fun hn => hxs (hone.mp hn))]
      have hmax : (if t > m.max then t else m.max) = Max.max t m.max := by
        rw [max_comm, max_def_lt]
      rw [hmax]
      exact (h.max hxs).insert t

theorem Summarises.processAll (h : m.Summarises xs) (ts : List ℚ) :
    (m.processAll ts).Summarises (ts + xs) := by
  induction ts generalizing m xs with
  | nil => simpa [SummarizingMetric.processAll] using h
  | cons t ts ih =>
    have hcons := ih (h.process (t := t))
    rwa [add_cons, ← cons_add, cons_coe] at hcons

/-- **A reply**: the pairwise combination, skipped if there are no samples in it. -/
theorem Summarises.combine (h : combined.Summarises xs) (hsp : sp.Summarises ys) :
    (combined.combine sp).Summarises (xs + ys) := by
  by_cases hys : ys = 0
  · have hnone : ¬sp.n > 0 := by
      rw [hsp.n, hys]
      exact lt_irrefl 0
    rw [SummarizingMetric.combine, if_neg hnone, hys, add_zero]
    exact h
  · have hsome : sp.n > 0 := by
      rw [hsp.n]
      exact card_pos.mpr hys
    rw [SummarizingMetric.combine, if_pos hsome]
    by_cases hxs : xs = 0
    · have hfirst : combined.n = 0 := by rw [h.n, hxs, card_zero]
      dsimp only
      rw [if_pos hfirst, hxs, zero_add]
      exact ⟨hsp.n, hsp.M2, hsp.mean, hsp.min, hsp.max⟩
    · have hlater : combined.n ≠ 0 := by
        rw [h.n]
        exact (card_pos.mpr hxs).ne'
      dsimp only
      rw [if_neg hlater]
      have hunion : {x | x ∈ xs + ys} = {x | x ∈ xs} ∪ {x | x ∈ ys} := by
        ext x
        simp
      refine ⟨?_, ?_, fun _ => ?_, fun _ => ?_, fun _ => ?_⟩
      · rw [card_add, ← h.n, ← hsp.n, Nat.add_comm]
      · rw [← spread_add hxs hys, ← h.M2, ← hsp.M2, ← h.mean hxs, ← hsp.mean hys, ← h.n, ← hsp.n]
      · rw [← mean_add hxs hys, ← h.mean hxs, ← hsp.mean hys, ← h.n, ← hsp.n]
      · rw [hunion]
        exact (h.min hxs).union (hsp.min hys)
      · rw [hunion]
        exact (h.max hxs).union (hsp.max hys)

/-- The statistics of two metrics are the same. -/
structure SameStatistics (m m' : SummarizingMetric) : Prop where
  n : m.n = m'.n
  mean : m.mean = m'.mean
  M2 : m.M2 = m'.M2
  min : m.min = m'.min
  max : m.max = m'.max

/-- The samples determine the statistics. -/
theorem Summarises.same {m' : SummarizingMetric} (h : m.Summarises xs) (h' : m'.Summarises xs)
    (hxs : xs ≠ 0) : m.SameStatistics m' where
  n := h.n.trans h'.n.symm
  mean := (h.mean hxs).trans (h'.mean hxs).symm
  M2 := h.M2.trans h'.M2.symm
  min := (h.min hxs).unique (h'.min hxs)
  max := (h.max hxs).unique (h'.max hxs)

/-! ### Runs -/

section runs

variable {cores : ℕ} {stats : ℕ → SummarizingMetric} {samples : ℕ → List ℚ} {s s' : MergeState}
  {x : Message} {rest pool : Multiset Message} {new : List Message}

/-- Some cores have not been asked, some replies are under way, and the others are combined. -/
structure Merging (cores : ℕ) (stats : ℕ → SummarizingMetric) (samples : ℕ → List ℚ)
    (s : MergeState) (pool : Multiset Message) (asked under_way done : Multiset ℕ) : Prop where
  cores : asked + under_way + done = Multiset.range cores
  pool : pool = asked.map .request + under_way.map fun c => .reply (stats c)
  count : s.count = asked.card + under_way.card
  combined : s.combined.Summarises (done.bind fun c => samples c)

def MergeInv (cores : ℕ) (stats : ℕ → SummarizingMetric) (samples : ℕ → List ℚ)
    (s : MergeState) (pool : Multiset Message) : Prop :=
  match s.phase with
  | .start => pool = 0
  | .wait => ∃ asked under_way done, Merging cores stats samples s pool asked under_way done
  | .returned => pool = 0 ∧ Merging cores stats samples s 0 0 0 (Multiset.range cores)

theorem handle_inv (hstats : ∀ c < cores, (stats c).Summarises (samples c))
    (h : MergeInv cores stats samples s (x ::ₘ rest)) (hx : x.handle stats s = (s', new)) :
    MergeInv cores stats samples s' (rest + new) := by
  unfold MergeInv at h
  split at h <;> rename_i hphase
  · exact absurd h (cons_ne_zero)
  · obtain ⟨asked, under_way, done, hcores, hpool, hcount, hcombined⟩ := h
    have hmem : x ∈ asked.map .request + under_way.map fun c => .reply (stats c) :=
      hpool ▸ mem_cons_self x rest
    rcases mem_add.mp hmem with hx' | hx'
    · -- a core is asked, and replies
      obtain ⟨c, hc, rfl⟩ := mem_map.mp hx'
      obtain ⟨asked, rfl⟩ := exists_cons_of_mem hc
      cases hx
      rw [map_cons, cons_add, cons_inj_right] at hpool
      rw [MergeInv, hphase]
      refine ⟨asked, c ::ₘ under_way, done, ?_, ?_, ?_, hcombined⟩
      · rw [← hcores, add_cons, cons_add, cons_add, cons_add]
      · rw [hpool, map_cons, add_cons, coe_singleton,
          ← singleton_add, add_comm]
      · rw [hcount, card_cons, card_cons]
        omega
    · -- a reply arrives
      obtain ⟨c, hc, rfl⟩ := mem_map.mp hx'
      obtain ⟨under_way, rfl⟩ := exists_cons_of_mem hc
      cases hx
      rw [map_cons, add_cons, cons_inj_right] at hpool
      have hlt : c < cores := by
        rw [← mem_range, ← hcores]
        simp
      simp only [MergeInv, hphase]
      refine ⟨asked, under_way, c ::ₘ done, ?_, ?_, ?_, ?_⟩
      · rw [← hcores, add_cons, add_cons, cons_add]
      · rw [hpool, coe_nil, add_zero]
      · dsimp only
        rw [hcount, card_cons]
        omega
      · rw [cons_bind, add_comm]
        exact hcombined.combine (hstats c hlt)
  · exact absurd h.1 (cons_ne_zero)

theorem advance_inv (h : MergeInv cores stats samples s 0) (hx : s.advance cores = some (s', new)) :
    MergeInv cores stats samples s' new := by
  unfold MergeInv at h
  split at h <;> rename_i hphase <;> rw [MergeState.advance, hphase] at hx
  · cases hx
    refine ⟨range cores, 0, 0, ?_, ?_, ?_, ?_⟩
    · rw [add_zero, add_zero]
    · rw [map_zero, add_zero]
      rfl
    · rw [card_range, card_zero, add_zero]
    · exact ⟨rfl, by simp, fun h => absurd rfl h, fun h => absurd rfl h, fun h => absurd rfl h⟩
  · dsimp only at hx
    split at hx
    · cases hx
      obtain ⟨asked, under_way, done, hcores, hpool, hcount, hcombined⟩ := h
      obtain ⟨rfl, rfl⟩ : asked = 0 ∧ under_way = 0 := by
        have hzero : asked.card = 0 ∧ under_way.card = 0 := by omega
        exact ⟨card_eq_zero.mp hzero.1, card_eq_zero.mp hzero.2⟩
      rw [zero_add, zero_add] at hcores
      subst hcores
      exact ⟨rfl, by simp, rfl, hcount, hcombined⟩
    · cases hx
  · cases hx

def Message.rank : Message → ℕ
  | .request _ => 1
  | .reply _ => 0

theorem merge_terminates (this : SummarizingMetric) :
    ((merge_all cores stats).system (init this)).Terminates ⟨init this, []⟩ := by
  refine Program.terminates_of_rank (fun _ _ => True) Message.rank
    (fun s _ => match s.phase with | .start => 2 | .wait => 1 | .returned => 0) trivial
    (fun s x rest s' new _ hx => ⟨trivial, .inr ?_⟩) fun s s' new _ hx => ⟨trivial, ?_⟩
  · cases x <;> cases hx <;> simp [Message.rank]
  · simp only [merge_all, MergeState.advance] at hx
    split at hx <;> rename_i hphase
    · cases hx
      simp
    · split at hx
      · cases hx
        simp
      · cases hx
    · cases hx

theorem merge_returns {t : Phased.State MergeState Message}
    (hinv : MergeInv cores stats samples t.shared t.pool)
    (hstuck : ∀ l, (merge_all cores stats).next t l = none) : t.shared.phase = .returned := by
  obtain ⟨hpool, hret⟩ := Program.ended_of_stuck (fun x _ => Option.some_ne_none _) hstuck
  rw [hpool] at hinv
  unfold MergeInv at hinv
  simp only [merge_all, MergeState.advance] at hret
  split at hinv <;> rename_i hphase <;> rw [hphase] at hret
  · cases hret
  · obtain ⟨asked, under_way, done, -, hempty, hcount, -⟩ := hinv
    have hcard : asked.card + under_way.card = 0 := by
      simpa using (congrArg card hempty).symm
    dsimp only at hret
    rw [if_pos (hcount.trans hcard)] at hret
    cases hret
  · exact hphase

end runs

/-- **Merging the metrics** of all cores: whatever the order of the messages, `merge_all` returns,
    and where there is a sample the merged statistics are those of all samples, in any order, on a
    single metric. -/
theorem merge_all_spec {cores : ℕ} {stats : ℕ → SummarizingMetric} {samples : ℕ → List ℚ}
    (hstats : ∀ c < cores, ∃ m, Fresh lim m ∧ stats c = m.processAll (samples c))
    (hsome : ∃ c < cores, samples c ≠ []) (this : SummarizingMetric) :
    let run := (merge_all cores stats).system (init this)
    run.Terminates run.init ∧
      (∀ t, run.Reachable t → (∀ l, run.next t l = none) → t.shared.phase = .returned) ∧
      ∀ t, run.Reachable t → t.shared.phase = .returned →
        ∀ m order, Fresh lim m → order.Perm ((List.range cores).flatMap samples) →
          t.shared.combined.SameStatistics (m.processAll order) := by
  intro run
  have hsummaries : ∀ c < cores, (stats c).Summarises (samples c) := by
    intro c hc
    obtain ⟨m, hm, heq⟩ := hstats c hc
    have h := hm.summarises.processAll (samples c)
    rwa [add_zero, ← heq] at h
  have hinv : ∀ t, run.Reachable t → MergeInv cores stats samples t.shared t.pool := by
    intro t ht
    have hinit : MergeInv cores stats samples (init this) 0 := rfl
    exact Program.Reachable.inv (MergeInv cores stats samples) hinit
      (fun _ _ _ _ _ h hx => handle_inv hsummaries h (Option.some.inj hx))
      (fun _ _ _ h hx => advance_inv h hx) ht
  refine ⟨merge_terminates this, fun t ht hstuck => merge_returns (hinv t ht) hstuck, ?_⟩
  intro t ht hret m order hm horder
  have h := hinv t ht
  rw [MergeInv, hret] at h
  have hall : (range cores).bind (fun c => (samples c : Multiset ℚ)) = order := by
    rw [coe_eq_coe.mpr horder]
    exact coe_bind (List.range cores) samples
  have hcombined := h.2.combined
  rw [hall] at hcombined
  have hone := hm.summarises.processAll order
  rw [add_zero] at hone
  refine hcombined.same hone fun hzero => ?_
  obtain ⟨c, hc, hne⟩ := hsome
  obtain ⟨x, hx⟩ := List.exists_mem_of_ne_nil _ hne
  have hmem : x ∈ order := horder.mem_iff.mpr
    (List.mem_flatMap.mpr ⟨c, List.mem_range.mpr hc, hx⟩)
  rw [coe_eq_zero] at hzero
  rw [hzero] at hmem
  cases hmem

/-- Two cores with samples and one without. -/
theorem merge_all_three :
    let lim : Limits := ⟨100, -100⟩
    let samples : ℕ → List ℚ := fun c => [[1, 2], [], [6]].getD c []
    let stats := fun c => (new lim 7).processAll (samples c)
    ∃ t, ((merge_all 3 stats).system (init (new lim 7))).Reachable t ∧ t.shared.phase = .returned ∧
      t.shared.combined.SameStatistics ((new lim 7).processAll [6, 1, 2]) := by
  intro lim samples stats
  obtain ⟨hend, hreturns, hsame⟩ := @merge_all_spec lim 3 stats samples
    (fun c _ => ⟨new lim 7, ⟨7, .inl rfl⟩, rfl⟩) ⟨0, by decide, by decide⟩ (new lim 7)
  obtain ⟨ls, t, hrun, hstuck⟩ := hend.exists_end
  have hret := hreturns t ⟨ls, hrun⟩ hstuck
  exact ⟨t, ⟨ls, hrun⟩, hret, hsame t ⟨ls, hrun⟩ hret _ _ ⟨7, .inl rfl⟩ (by decide)⟩

end SummarizingMetric

end Grappa
