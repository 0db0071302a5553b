import AdvCompArch.Grappa.MapReduceRuns
import AdvCompArch.Lib.Subtasks

/-! # The jobs of MapReduce end

    Both jobs terminate, whatever their map and combine functions emit: within a phase every item
    spawns lesser ones (`exec_lesser`).  A run that cannot be continued has ended, and the job with
    combiners has a run to its end in which nothing is under way to a reducer that is reduced
    (`exists_quiet_run`). -/

namespace Grappa

namespace MapReduce

open Multiset

variable {T K V OutType : Type} {n : ℕ} [DecidableEq K] {job : Job T K V OutType n}
  {reducers : ℕ → Reducer K V OutType} {combiners : Fin (n + 1) → Groups K V}
  {mapped : ℕ → State K V OutType n → State K V OutType n × List (Item K V n)}
  {s s' : State K V OutType n} {rest : Multiset (Item K V n)} {x : Item K V n}
  {new : List (Item K V n)}

/-! ### The ranks -/

def Phase.rank : Phase → ℕ
  | .start => 4
  | .clear_reducers => 3
  | .clear_combiners => 2
  | .map => 1
  | .combine => 0
  | .reduce => 0

/-- The rank of an item: whether it is a loop that has not started, and the keys and the spawning
    that it has before it. -/
def Item.rank : Item K V n → ℕ ×ₗ ℕ
  | .combine _ => toLex (1, 0)
  | .combine_keys _ keys => toLex (0, keys.length + 1)
  | .map _ | .reduceExecute => toLex (0, 1)
  | _ => toLex (0, 0)

/-- What the map of both jobs sends. -/
structure Maps (job : Job T K V OutType n)
    (mapped : ℕ → State K V OutType n → State K V OutType n × List (Item K V n)) : Prop where
  phase : ∀ i s, (mapped i s).1.phase = s.phase
  appends : ∀ i s, ∀ y ∈ (mapped i s).2, ∃ key val, y = .reducer_append (job.index key) key val

variable (job) in
theorem maps_to_reducers : Maps job (map_to_reducers job) where
  phase i s := (sends job _ (job.emits i) s).phase
  appends i s := (sends job _ (job.emits i) s).items

variable (job) in
theorem maps_to_combiners : Maps job (map_to_combiners job) where
  phase i s := (foldl_combiner_append (job.keyval_core i) (job.emits i) s).2.2.1
  appends _ _ _ hy := absurd hy List.not_mem_nil

/-- **Every item** spawns lesser ones. -/
theorem exec_lesser (hmaps : Maps job mapped) (hx : exec job mapped s x = some (s', new)) :
    s'.phase = s.phase ∧ ∀ y ∈ new, y.rank < x.rank := by
  cases x with
  | map i =>
    have hphase := hmaps.phase i s
    have happends := hmaps.appends i s
    rw [Option.some.inj hx] at hphase happends
    refine ⟨hphase, fun y hy => ?_⟩
    obtain ⟨key, val, rfl⟩ := happends y hy
    simp [Item.rank, Prod.Lex.toLex_lt_toLex]
  | combine c =>
    cases hx
    -- the loop starts
    simp [Item.rank, Prod.Lex.toLex_lt_toLex]
  | combine_keys c keys =>
    cases keys with
    | nil =>
      cases hx
      simp
    | cons key keys =>
      cases hx
      have hsends := sends job c (job.cf key ((s.combiners c).slot key)) s
      refine ⟨hsends.phase, fun y hy => ?_⟩
      -- the loop has come to the next key
      rcases List.mem_append.mp hy with hy | hy
      · obtain ⟨key', val, rfl⟩ := hsends.items y hy
        simp [Item.rank, Prod.Lex.toLex_lt_toLex]
      · obtain rfl := List.mem_singleton.mp hy
        simp [Item.rank, Prod.Lex.toLex_lt_toLex]
  | reduceExecute =>
    simp only [exec] at hx
    split at hx
    · cases hx
      simp [Item.rank, Prod.Lex.toLex_lt_toLex]
    · cases hx
  | clear_reducer r | clear_combiner c | reduce r | reducer_append r key val =>
    cases hx
    exact ⟨rfl, fun _ hy => absurd hy List.not_mem_nil⟩

/-! ### Both jobs end -/

variable (job reducers combiners)

theorem terminates : ((MapReduceJobExecute job).system (init reducers combiners)).Terminates
    ⟨init reducers combiners, []⟩ := by
  refine Phased.Program.terminates_of_rank (fun _ _ => True) Item.rank (fun s _ => s.phase.rank)
    trivial (fun _ _ _ _ _ _ hx => ?_) fun s s' new _ hx => ⟨trivial, ?_⟩
  · obtain ⟨hphase, hlesser⟩ := exec_lesser (maps_to_reducers job) hx
    exact ⟨trivial, .inr ⟨congrArg _ hphase, hlesser⟩⟩
  · simp only [MapReduceJobExecute, State.advance] at hx
    split at hx <;> rename_i hphase <;> cases hx <;> rw [hphase] <;> simp [Phase.rank]

theorem combining_terminates :
    ((CombiningMapReduceJobExecute job).system (init reducers combiners)).Terminates
      ⟨init reducers combiners, []⟩ := by
  refine Phased.Program.terminates_of_rank (fun _ _ => True) Item.rank (fun s _ => s.phase.rank)
    trivial (fun _ _ _ _ _ _ hx => ?_) fun s s' new _ hx => ⟨trivial, ?_⟩
  · obtain ⟨hphase, hlesser⟩ := exec_lesser (maps_to_combiners job) hx
    exact ⟨trivial, .inr ⟨congrArg _ hphase, hlesser⟩⟩
  · simp only [CombiningMapReduceJobExecute, State.advance_combining] at hx
    split at hx <;> rename_i hphase <;> cases hx <;> rw [hphase] <;> simp [Phase.rank]

variable {job reducers combiners}

theorem eq_reduceExecute_of_stuck (h : exec job mapped s x = none) :
    x = .reduceExecute ∧ s.combining ≠ 0 := by
  cases x with
  | reduceExecute =>
    simp only [exec] at h
    split at h
    · cases h
    · exact ⟨rfl, by assumption⟩
  | combine_keys c keys => cases keys <;> cases h
  | clear_reducer r | clear_combiner c | map i | combine c | reduce r
  | reducer_append r key val => cases h

theorem ended_of_stuck (hiterate : ∀ l, (job.iterate l).Perm l) (hnum : 0 < job.num_reducers)
    {t : Phased.State (State K V OutType n) (Item K V n)}
    (ht : ((MapReduceJobExecute job).system (init reducers combiners)).Reachable t)
    (hstuck : ∀ l, (MapReduceJobExecute job).next t l = none) : (MapReduceJobExecute job).Ended t := by
  apply Phased.Program.ended_of_stuck _ hstuck
  intro x hx hnone
  obtain ⟨rfl, -⟩ := eq_reduceExecute_of_stuck hnone
  have hmem : (Item.reduceExecute : Item K V n) ∈ (t.pool : Multiset (Item K V n)) := hx
  have hinv := reachable_inv hiterate hnum ht
  unfold Inv at hinv
  split at hinv
  · rw [hinv.1] at hmem
    exact notMem_zero _ hmem
  · obtain ⟨r, hr⟩ := hinv.items _ hmem
    cases hr
  · rcases hinv.items _ hmem with ⟨i, hi⟩ | ⟨key, val, hi⟩ <;> cases hi
  · obtain ⟨r, hr⟩ := hinv.2.1 _ hmem
    cases hr
  · exact hinv
  · exact hinv

theorem combining_ended_of_stuck {t : Phased.State (State K V OutType n) (Item K V n)}
    (h : CombiningInv job t.shared t.pool)
    (hstuck : ∀ l, (CombiningMapReduceJobExecute job).next t l = none) :
    (CombiningMapReduceJobExecute job).Ended t := by
  have honly : ∀ x ∈ t.pool, x = .reduceExecute ∧ t.shared.combining ≠ 0 := fun x hx =>
    eq_reduceExecute_of_stuck (Phased.Program.exec_eq_none_of_stuck hx hstuck)
  apply Phased.Program.ended_of_stuck _ hstuck
  intro x hx hnone
  obtain ⟨rfl, hcombining⟩ := honly x hx
  have hmem : (Item.reduceExecute : Item K V n) ∈ (t.pool : Multiset (Item K V n)) := hx
  unfold CombiningInv at h
  split at h
  · rw [h.1] at hmem
    exact notMem_zero _ hmem
  · obtain ⟨r, hr⟩ := h.items _ hmem
    cases hr
  · obtain ⟨c, hc⟩ := h.items _ hmem
    cases hc
  · obtain ⟨i, hi⟩ := h.items _ hmem
    cases hi
  · obtain ⟨G, -, hrun | hsent⟩ := h
    · apply hcombining
      rw [hrun.combining, countP_eq_zero]
      intro y hy hloop
      obtain ⟨rfl, -⟩ := honly y hy
      exact hloop rfl
    · exact hcombining hsent.combining
  · exact h

variable (reducers combiners) in
/-- **A quiet run**: the job with combiners can be run to its end with nothing under way to a
    reducer that is reduced. -/
theorem exists_quiet_run (hiterate : ∀ l, (job.iterate l).Perm l) (hnum : 0 < job.num_reducers) :
    ∃ ls t, ((CombiningMapReduceJobExecute job).system (init reducers combiners)).run
        ⟨init reducers combiners, []⟩ ls = some t ∧
      ((CombiningMapReduceJobExecute job).system (init reducers combiners)).Always Quiet
        ⟨init reducers combiners, []⟩ ls ∧
      (CombiningMapReduceJobExecute job).Ended t := by
  have hgo : ∀ (t : Phased.State (State K V OutType n) (Item K V n)) l,
      (CombiningMapReduceJobExecute job).next t l ≠ none →
        ∃ l', (CombiningMapReduceJobExecute job).next t l' ≠ none ∧ Quiet t l' := by
    intro t l hl
    by_cases hpending : ∃ r key val, (Item.reducer_append r key val : Item K V n) ∈ t.pool
    · -- what is under way arrives first
      obtain ⟨r, key, val, hmem⟩ := hpending
      obtain ⟨k, hk, hget⟩ := List.getElem_of_mem hmem
      refine ⟨.item k, ?_, fun r' hr' => ?_⟩
      · simp [Phased.Program.next, CombiningMapReduceJobExecute, exec, List.getElem?_eq_getElem hk,
          hget]
      · rw [List.getElem?_eq_getElem hk, hget] at hr'
        cases hr'
    · push Not at hpending
      refine ⟨l, hl, ?_⟩
      cases l with
      | advance => trivial
      | item k => exact fun r _ key val => hpending r key val
  obtain ⟨ls, t, hrun, hquiet, hstuck⟩ :=
    (combining_terminates job reducers combiners).exists_end_always hgo
  have hinv := (quiet_run hiterate hnum hquiet hrun).1
  exact ⟨ls, t, hrun, hquiet, combining_ended_of_stuck hinv hstuck⟩

/-! ### What a reducer has in the end -/

theorem Done.mem_result {sent : K → Multiset V} {pool : Multiset (Item K V n)} {r : ℕ}
    {o : OutType} (horder : ∀ key values values', List.Perm values values' →
      (job.rf key values).Perm (job.rf key values')) (h : Done job sent s pool r) :
    o ∈ (s.reducers r).result ↔ ∃ key values, job.index key = r ∧ values ≠ [] ∧
      (values : Multiset V) = sent key ∧ o ∈ job.rf key values := by
  obtain ⟨-, g, hfull, hslots, hresult⟩ := h
  rw [← mem_coe, hresult, Groups.mem_outputs]
  constructor
  · intro h
    obtain ⟨key, hkey, ho⟩ := h
    have hslot := hslots key
    split_ifs at hslot with hindex
    · exact ⟨key, g.slot key, hindex, hfull key hkey, hslot, ho⟩
    · exact absurd ((coe_eq_zero _).mp hslot) (hfull key hkey)
  · intro h
    obtain ⟨key, values, rfl, hne, hvalues, ho⟩ := h
    have hslot := hslots key
    rw [if_pos rfl, ← hvalues, coe_eq_coe] at hslot
    refine ⟨key, ?_, (horder key _ _ hslot).mem_iff.mpr ho⟩
    by_contra hkey
    rw [Groups.slot_eq_nil hkey] at hslot
    exact hne hslot.nil_eq.symm

end MapReduce

end Grappa
