import AdvCompArch.Grappa.HashJoinInvariant
import AdvCompArch.Lib.Subtasks

/-! # When a hash join is exact

    From the steps to whole runs: `hash_join_exact_iff` and `hash_join_sound`. -/

namespace Grappa

namespace HashJoin

open Equijoin Transition Multiset Phased Option

variable {K VL VR OutType : Type} {n : ℕ} [DecidableEq K] {ctx : HashJoinContext K VL VR OutType n}
  {s s' : State K VL VR OutType n} {pool rest : Multiset (Item K VL VR n)}
  {new : List (Item K VL VR n)}

/-! ### Runs -/

theorem step_item (hiterate : ∀ l, (ctx.iterate l).Perm l) (hnum : 0 < ctx.num_reducers)
    {x : Item K VL VR n} (h : Inv ctx s (x ::ₘ rest)) (hx : exec ctx s x = some (s', new)) :
    Steps ctx s (x ::ₘ rest) (Good s (x ::ₘ rest) x) s' (rest + new) := by
  cases x with
  | body b => exact step_body hnum h hx
  | append r e => exact step_append hnum h hx
  | reduce r => exact step_reduce hiterate h hx
  | main => exact step_main h hx
  | reduceExecute => exact step_return h hx

theorem step_next (hiterate : ∀ l, (ctx.iterate l).Perm l) (hnum : 0 < ctx.num_reducers)
    {t t' : Phased.State (State K VL VR OutType n) (Item K VL VR n)} {l : Phased.Label}
    (h : Inv ctx t.shared t.pool) (hl : (join ctx).next t l = some t') :
    Steps ctx t.shared t.pool (Prompt t l) t'.shared t'.pool := by
  cases l with
  | item k =>
    obtain ⟨x, hget, rest, new, hpool, hx, hpool'⟩ := Program.next_item hl
    have hgood : Good t.shared (t.pool : Multiset (Item K VL VR n)) x ↔ Prompt t (.item k) := by
      rw [mem_def] at hget
      unfold Prompt
      simp only [hget, some.injEq]
      cases x with
      | body b => exact iff_of_true trivial fun _ heq => by cases heq
      | append r e => exact iff_of_true trivial fun _ heq => by cases heq
      | main => exact iff_of_true trivial fun _ heq => by cases heq
      | reduceExecute => exact iff_of_true trivial fun _ heq => by cases heq
      | reduce r =>
        simp only [Good, Item.reduce.injEq, forall_eq']
    rw [← hgood, hpool, hpool']
    rw [hpool] at h
    exact step_item hiterate hnum h hx
  | advance =>
    obtain ⟨hpool, new, hx, hpool'⟩ := Program.next_advance hl
    rw [hpool] at h
    rw [hpool, hpool']
    exact step_advance h hx

theorem inv_init (foralls : List (List (Body K VL VR n))) :
    Inv ctx (init foralls : State K VL VR OutType n) 0 :=
  ⟨⟨fun _ => ⟨by simp [init, JoinReducer.sides], by simp [init, JoinReducer.sides]⟩,
    fun r e hmem => by simp at hmem⟩, rfl, rfl, rfl⟩

theorem worth_init (foralls : List (List (Body K VL VR n))) :
    ctx.worth (init foralls) 0 = ctx.pairs (emissions foralls) := by
  have hheld : held ctx (init foralls : State K VL VR OutType n) 0 = sides (emissions foralls) := by
    unfold held
    have hempty : ∀ r, ((init foralls : State K VL VR OutType n).reducers r).sides = 0 := fun r => rfl
    simp only [hempty, Finset.sum_const_zero, total_zero, zero_add, add_zero]
    rfl
  have hall : All (fun k => ctx.index k ∉ ([] : List ℕ)) (sides (emissions foralls)) :=
    ⟨fun a _ => List.not_mem_nil, fun b _ => List.not_mem_nil⟩
  have hresults : (results ctx (init foralls : State K VL VR OutType n) : Multiset OutType) = 0 := by
    rw [results_eq]
    exact Finset.sum_const_zero
  unfold HashJoinContext.worth
  rw [hheld, hresults, zero_add, ← value_sides]
  exact congrArg _ hall.keep_eq

theorem Returned.worth (hnum : 0 < ctx.num_reducers) (h : Returned ctx s pool) :
    ctx.worth s pool = results ctx s := by
  have hnone : keep (fun k => ctx.index k ∉ s.joined) (held ctx s pool) = 0 :=
    All.keep_eq_zero (p := fun _ => True) ⟨fun _ _ => trivial, fun _ _ => trivial⟩
      fun k _ hnot => hnot (h.all _ (index_lt hnum k))
  unfold HashJoinContext.worth
  rw [hnone]
  simp [HashJoinContext.value]

/-- **When a hash join is exact**: in a run after which `reduceExecute` has returned, the results of
    all reducers are the equijoin of the emissions just if `reduceExecute` has found every reducer
    settled. -/
theorem hash_join_exact_iff (ctx : HashJoinContext K VL VR OutType n)
    (hiterate : ∀ l, (ctx.iterate l).Perm l) (hnum : 0 < ctx.num_reducers)
    (foralls : List (List (Body K VL VR n))) (ls : List Phased.Label)
    (t : Phased.State (State K VL VR OutType n) (Item K VL VR n))
    (hrun : ((join ctx).system (init foralls)).run ⟨init foralls, []⟩ ls = some t)
    (hreturned : t.shared.phase = .returned) :
    (results ctx t.shared).Perm (ctx.pairs (emissions foralls)) ↔
      ((join ctx).system (init foralls)).Always Prompt ⟨init foralls, []⟩ ls := by
  obtain ⟨hinv, -, hiff⟩ := @System.kept_iff_always _ _ ((join ctx).system (init foralls)) _ _
    (fun t => Inv ctx t.shared t.pool) (fun t => ctx.worth t.shared t.pool) Prompt
    (fun u l u' hu hl => ⟨(step_next hiterate hnum hu hl).inv, (step_next hiterate hnum hu hl).le,
      (step_next hiterate hnum hu hl).kept⟩)
    ⟨init foralls, []⟩ _ _ (inv_init foralls) hrun
  have hphase := hinv.phase
  unfold PhaseInv at hphase
  rw [hreturned] at hphase
  rw [hphase.worth hnum] at hiff
  rw [← hiff]
  have hinit : ctx.worth (init foralls) 0 = ctx.pairs (emissions foralls) := worth_init foralls
  rw [← coe_eq_coe]
  rw [← hinit]
  rfl

/-- **A hash join never invents a result**: whatever is late, the results at any time are some of the
    pairs that are to be joined, each once. -/
theorem hash_join_sound (hiterate : ∀ l, (ctx.iterate l).Perm l) (hnum : 0 < ctx.num_reducers)
    (foralls : List (List (Body K VL VR n)))
    {t : Phased.State (State K VL VR OutType n) (Item K VL VR n)}
    (ht : ((join ctx).system (init foralls)).Reachable t) :
    (results ctx t.shared).Subperm (ctx.pairs (emissions foralls)) := by
  -- no step makes more of what is joined and what is still to be joined
  have hle : Inv ctx t.shared t.pool ∧ ctx.worth t.shared t.pool ≤ ctx.worth (init foralls) 0 := by
    refine Program.Reachable.inv (fun s pool => Inv ctx s pool ∧
      ctx.worth s pool ≤ ctx.worth (init foralls) 0) ⟨inv_init foralls, le_rfl⟩ ?_ ?_ ht
    · intro s x rest s' new ⟨h, hle⟩ hx
      have hstep := step_item hiterate hnum h hx
      exact ⟨hstep.inv, hstep.le.trans hle⟩
    · intro s s' new ⟨h, hle⟩ hx
      have hstep := step_advance h hx
      exact ⟨hstep.inv, hstep.le.trans hle⟩
  have hall := hle.2
  rw [worth_init, HashJoinContext.worth] at hall
  exact coe_le.mp (le_trans (le_add_right _ _) hall)

/-! ### Two pairs on two cores -/

def two_cores : HashJoinContext ℕ ℕ ℕ (ℕ × ℕ) 1 where
  num_reducers := 1
  reducer_core := fun _ => Fin.last 1
  hash := id
  iterate := id
  combine := Prod.mk

/-- The left value comes from core 0, the right one from the core of the reducer. -/
def two_foralls : List (List (Body ℕ ℕ ℕ 1)) :=
  [[⟨(Fin.last 0).castSucc, [.left 1 10]⟩], [⟨Fin.last 1, [.right 1 20]⟩]]

/-- Until `reduceExecute` is to go through the reducer, with the left value under way to it. -/
def until_reduce : List Phased.Label := [.advance, .item 0, .item 0, .item 0, .item 1, .item 1]

theorem hash_join_two_values :
    ∃ t, ((join two_cores).system (init two_foralls)).run ⟨init two_foralls, []⟩
        (until_reduce ++ [.item 0, .item 0, .item 0]) = some t ∧
      ((results two_cores t.shared).Perm (two_cores.pairs (emissions two_foralls)) ↔
        ((join two_cores).system (init two_foralls)).Always Prompt ⟨init two_foralls, []⟩
          (until_reduce ++ [.item 0, .item 0, .item 0])) := by
  obtain ⟨t, ht⟩ := isSome_iff_exists.mp (show (((join two_cores).system (init two_foralls)).run
    ⟨init two_foralls, []⟩ (until_reduce ++ [.item 0, .item 0, .item 0])).isSome =
        true by decide +kernel)
  have hphase : (((join two_cores).system (init two_foralls)).run ⟨init two_foralls, []⟩
      (until_reduce ++ [.item 0, .item 0, .item 0])).map (fun t => t.shared.phase) =
          some .returned := by
    decide +kernel
  rw [ht] at hphase
  exact ⟨t, ht, hash_join_exact_iff two_cores (fun l => List.Perm.refl l) (by decide)
      two_foralls _ t ht
    (some.inj hphase)⟩

theorem hash_join_sound_two_values :
    ∃ t, ((join two_cores).system (init two_foralls)).Reachable t ∧
      (results two_cores t.shared).Subperm (two_cores.pairs (emissions two_foralls)) := by
  obtain ⟨t, ht⟩ := isSome_iff_exists.mp (show (((join two_cores).system (init two_foralls)).run
    ⟨init two_foralls, []⟩ (until_reduce ++ [.item 1])).isSome = true by decide +kernel)
  exact ⟨t, ⟨_, ht⟩, hash_join_sound (fun l => List.Perm.refl l) (by decide) two_foralls ⟨_, ht⟩⟩

/-- The left value comes after the reducer has been reduced. -/
theorem late_left_value : ¬∀ ls t,
    ((join two_cores).system (init two_foralls)).run ⟨init two_foralls, []⟩ ls = some t →
    t.shared.phase = .returned →
    (results two_cores t.shared).Perm (two_cores.pairs (emissions two_foralls)) := by
  intro h
  obtain ⟨t, ht⟩ := isSome_iff_exists.mp (show (((join two_cores).system (init two_foralls)).run
    ⟨init two_foralls, []⟩ (until_reduce ++ [.item 1, .item 1])).isSome = true by decide +kernel)
  have hend : (((join two_cores).system (init two_foralls)).run ⟨init two_foralls, []⟩
      (until_reduce ++ [.item 1, .item 1])).map
        (fun t => (t.shared.phase, results two_cores t.shared)) =
        some (.returned, []) := by
    decide +kernel
  rw [ht] at hend
  obtain ⟨hphase, hresults⟩ := Prod.mk.inj (some.inj hend)
  have hperm := h _ t ht hphase
  rw [hresults] at hperm
  exact absurd hperm.length_eq (by decide)

end HashJoin

end Grappa
