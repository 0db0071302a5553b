import AdvCompArch.Lib.Roster
import AdvCompArch.Lib.Totals
import AdvCompArch.Lib.Transition
import AdvCompArch.Lib.Census

/-! # Successive reductions over all cores

    Every core calls `allreduce` again and again: it empties its result, sends its value to
    the home core and waits for the result to be full.  The home core adds the values up as
    they arrive, and with the last one of them sends the total to all cores.  One result
    object for each core and one accumulator on the home core serve all calls.

    The stage of a core is where it is with respect to the reductions completed so far; no
    core is more than one call ahead of another, and that keeps the calls apart. -/

namespace Grappa

open Totals Roster Function Option List

/-! ### The model -/

/-- Where the task of a core is. -/
inductive CallerPhase where
  /-- Not in `allreduce`. -/
  | outside
  /-- Its value is sent, and it has yet to look at the result. -/
  | sent
  /-- In the list of waiters of the result. -/
  | waiting
  /-- Woken. -/
  | ready
  deriving DecidableEq

structure AllreduceRun (cores : ℕ) (T : Type) where
  /-- The arguments of the calls that a core has made, and what they have returned. -/
  args : Fin cores → List T
  results : Fin cores → List T
  phase : Fin cores → CallerPhase
  /-- `Reduction<T>::result` of each core. -/
  full : Fin cores → Bool
  t_ : Fin cores → T
  /-- The statics of `collect_reduction` on the home core. -/
  total : T
  cores_in : ℕ
  /-- The values on their way to the home core. -/
  contributions : List (Fin cores × T)
  /-- The totals on their way to a core. -/
  totals : List (Fin cores × T)
  /-- The `CHECK` of `reset` has failed. -/
  aborted : Bool

namespace AllreduceRun

variable {cores : ℕ} {T : Type} (ReduceOp : T → T → T)

/-- A core calls `allreduce`, its task goes on to the result, or after being woken; a message with a
    value or a total arrives. -/
inductive Label (cores : ℕ) (T : Type) where
  | call (c : Fin cores) (myval : T)
  | read (c : Fin cores)
  | resume (c : Fin cores)
  | collect (i : ℕ)
  | deliver (i : ℕ)

def Label.isCall : Label cores T → Bool
  | .call _ _ => true
  | _ => false

variable (s : AllreduceRun cores T)

/-- `allreduce` up to `readFF`. -/
def call (c : Fin cores) (myval : T) : AllreduceRun cores T :=
  -- `reset` checks that nobody waits
  if s.phase c = .waiting then { s with aborted := true }
  else
    { s with
      args := Function.update s.args c (s.args c ++ [myval])
      phase := Function.update s.phase c .sent
      full := Function.update s.full c false
      contributions := s.contributions ++ [(c, myval)] }

/-- A round of the loop of `readFF`. -/
def readFF (c : Fin cores) : AllreduceRun cores T :=
  if s.full c then
    { s with
      results := Function.update s.results c (s.results c ++ [s.t_ c])
      phase := Function.update s.phase c .outside }
  else { s with phase := Function.update s.phase c .waiting }

def collect_reduction (val : T) : AllreduceRun cores T :=
  let total := if s.cores_in = 0 then val else ReduceOp s.total val
  if s.cores_in + 1 = cores then
    { s with
      total := total
      cores_in := 0
      totals := s.totals ++ (finRange cores).map fun c => (c, total) }
  else { s with total := total, cores_in := s.cores_in + 1 }

/-- `writeXF` on the result of a core, which wakes its waiter. -/
def writeXF (c : Fin cores) (t : T) : AllreduceRun cores T :=
  { s with
    full := Function.update s.full c true
    t_ := Function.update s.t_ c t
    phase := if s.phase c = .waiting then Function.update s.phase c .ready else s.phase }

def next : Label cores T → Option (AllreduceRun cores T)
  | .call c myval => if s.phase c = .outside then some (s.call c myval) else none
  | .read c => if s.phase c = .sent then some (s.readFF c) else none
  | .resume c => if s.phase c = .ready then some (s.readFF c) else none
  | .collect i => (s.contributions[i]?).map fun m =>
      { s with contributions := s.contributions.eraseIdx i }.collect_reduction ReduceOp m.2
  | .deliver i => (s.totals[i]?).map fun m =>
      { s with totals := s.totals.eraseIdx i }.writeXF m.1 m.2

/-- Before the first call; the accumulator and the results have not been written. -/
def init (t : T) : AllreduceRun cores T where
  args := fun _ => []
  results := fun _ => []
  phase := fun _ => .outside
  full := fun _ => false
  t_ := fun _ => t
  total := t
  cores_in := 0
  contributions := []
  totals := []
  aborted := false

def system (t : T) : Transition.System (AllreduceRun cores T) (Label cores T) where
  init := init t
  next := next ReduceOp

/-! ### The invariant -/

/-- Where a core is in the reduction that is being collected, or in the one before. -/
inductive Stage where
  /-- Its value is on the way. -/
  | calling
  /-- Its value is in the total. -/
  | arrived
  /-- The total is on the way to it. -/
  | answered
  /-- The total is in its result. -/
  | delivered
  | returned
  deriving DecidableEq

/-- The arguments of the `k`-th calls. -/
def argsOf (k : ℕ) (cs : List (Fin cores)) : List T := cs.filterMap fun c => (s.args c)[k]?

/-- The total of the `k`-th arguments of all cores. -/
def fold (k : ℕ) : Option T := Totals.total ReduceOp (s.argsOf k (finRange cores))

/-- What is so of a core in each stage, where `R` reductions are complete. -/
def StageOk (R : ℕ) (c : Fin cores) : Stage → Prop
  | .calling | .arrived =>
    (s.args c).length = R + 1 ∧ (s.results c).length = R ∧
      (s.phase c = .sent ∨ s.phase c = .waiting) ∧ s.full c = false
  | .answered =>
    (s.args c).length = R ∧ (s.results c).length + 1 = R ∧
      (s.phase c = .sent ∨ s.phase c = .waiting) ∧ s.full c = false
  | .delivered =>
    (s.args c).length = R ∧ (s.results c).length + 1 = R ∧
      (s.phase c = .sent ∨ s.phase c = .ready) ∧ s.full c = true ∧
        some (s.t_ c) = s.fold ReduceOp (R - 1)
  | .returned => (s.args c).length = R ∧ (s.results c).length = R ∧ s.phase c = .outside

structure Inv (R : ℕ) (stage : Fin cores → Stage) (arrived : List (Fin cores)) : Prop where
  stages : ∀ c, s.StageOk ReduceOp R c (stage c)
  calling : (s.contributions.map Prod.fst).Perm (roster stage .calling)
  values : ∀ m ∈ s.contributions, (s.args m.1)[R]? = some m.2
  arrivals : arrived.Perm (roster stage .arrived)
  counted : s.cores_in = arrived.length
  collected : arrived ≠ [] → some s.total = Totals.total ReduceOp (s.argsOf R arrived)
  open_ : cores ≠ 0 → arrived.length < cores
  answered : (s.totals.map Prod.fst).Perm (roster stage .answered)
  answers : ∀ m ∈ s.totals, some m.2 = s.fold ReduceOp (R - 1)
  results : ∀ c k x, (s.results c)[k]? = some x → some x = s.fold ReduceOp k
  checked : s.aborted = false

theorem init_inv (t : T) :
    (init t : AllreduceRun cores T).Inv ReduceOp 0 (fun _ => .returned) [] where
  stages := fun _ => ⟨rfl, rfl, rfl⟩
  calling := by simp [init, roster]
  values := by simp [init]
  arrivals := by simp [roster]
  counted := rfl
  collected := fun h => absurd rfl h
  open_ := fun h => Nat.pos_of_ne_zero h
  answered := by simp [init, roster]
  answers := by simp [init]
  results := by simp [init]
  checked := rfl

/-! ### What a step keeps -/

section Steps

variable {ReduceOp} {s} {R : ℕ} {stage : Fin cores → Stage} {arrived : List (Fin cores)}

theorem Inv.length_args (hi : s.Inv ReduceOp R stage arrived) (c : Fin cores) :
    R ≤ (s.args c).length := by
  have := hi.stages c
  cases h : stage c <;> simp only [h, StageOk] at this <;> omega

theorem Inv.length_results (hi : s.Inv ReduceOp R stage arrived) (c : Fin cores) :
    (s.results c).length ≤ R := by
  have := hi.stages c
  cases h : stage c <;> simp only [h, StageOk] at this <;> omega

theorem fold_congr {s' : AllreduceRun cores T} {k : ℕ}
    (h : ∀ c, (s'.args c)[k]? = (s.args c)[k]?) : s'.fold ReduceOp k = s.fold ReduceOp k := by
  unfold fold argsOf
  simp only [h]

theorem StageOk.congr {s' : AllreduceRun cores T} {c : Fin cores} {st : Stage}
    (h : s.StageOk ReduceOp R c st) (hargs : s'.args c = s.args c)
    (hresults : s'.results c = s.results c) (hphase : s'.phase c = s.phase c)
    (hfull : s'.full c = s.full c) (ht : s'.t_ c = s.t_ c)
    (hfold : 0 < R → s'.fold ReduceOp (R - 1) = s.fold ReduceOp (R - 1)) :
    s'.StageOk ReduceOp R c st := by
  cases st with
  | delivered =>
    simp only [StageOk, hargs, hresults, hphase, hfull, ht] at h ⊢
    rw [hfold (by omega)]
    exact h
  | calling | arrived | answered | returned =>
    simpa only [StageOk, hargs, hresults, hphase, hfull] using h

theorem Inv.pos_of_total (hi : s.Inv ReduceOp R stage arrived) {m : Fin cores × T}
    (hm : m ∈ s.totals) : stage m.1 = .answered ∧ 0 < R := by
  have hstage : stage m.1 = .answered :=
    mem_roster.mp (hi.answered.mem_iff.mp (mem_map_of_mem hm))
  have := hi.stages m.1
  rw [hstage] at this
  exact ⟨hstage, by have := this.2.1; omega⟩

theorem Inv.stage_of_outside (hi : s.Inv ReduceOp R stage arrived) {c : Fin cores}
    (hc : s.phase c = .outside) : stage c = .returned := by
  have := hi.stages c
  cases h : stage c <;> simp [h, StageOk, hc] at this
  rfl

/-- **A call**: the core is now one argument ahead. -/
theorem call_inv (hi : s.Inv ReduceOp R stage arrived) {c : Fin cores} {v : T}
    (hc : s.phase c = .outside) :
    (s.call c v).Inv ReduceOp R (Function.update stage c .calling) arrived := by
  have hstage := hi.stage_of_outside hc
  have hok := hi.stages c
  rw [hstage] at hok
  obtain ⟨hargs, hresults, -⟩ := hok
  have hs : s.call c v = { s with
      args := update s.args c (s.args c ++ [v])
      phase := update s.phase c .sent
      full := update s.full c false
      contributions := s.contributions ++ [(c, v)] } := by
    simp [call, hc]
  rw [hs]
  -- the arguments of this and of all earlier calls
  have hnew : (update s.args c (s.args c ++ [v]) c)[R]? = some v := by
    rw [update_self, getElem?_append_right (by omega)]
    simp [hargs]
  have hother : ∀ d, d ≠ c → update s.args c (s.args c ++ [v]) d = s.args d :=
    fun d hd => update_of_ne hd ..
  have hold : ∀ k < R, ∀ d, (update s.args c (s.args c ++ [v]) d)[k]? =
      (s.args d)[k]? := by
    intro k hk d
    by_cases hd : d = c
    · subst hd
      rw [update_self, getElem?_append_left (by omega)]
    · rw [hother d hd]
  constructor
  case stages =>
    intro d
    by_cases hd : d = c
    · subst hd
      simp [StageOk, hargs, hresults]
    · rw [update_of_ne hd]
      exact (hi.stages d).congr (hother d hd) rfl (update_of_ne hd ..)
        (update_of_ne hd ..) rfl fun hpos => fold_congr (hold (R - 1) (by omega))
  case calling =>
    simp only [map_append, map_cons, map_nil]
    exact (perm_append_singleton _ _).trans
      ((hi.calling.cons c).trans (roster_enter (by simp [hstage])).symm)
  case values =>
    intro m hm
    rcases mem_append.mp hm with hm | hm
    · have hne : m.1 ≠ c := by
        intro heq
        have := mem_roster.mp (hi.calling.mem_iff.mp (mem_map_of_mem hm))
        rw [heq, hstage] at this
        cases this
      simp only [hother m.1 hne]
      exact hi.values m hm
    · rw [mem_singleton.mp hm]
      exact hnew
  case arrivals =>
    rw [roster_other (by simp [hstage]) (by simp)]
    exact hi.arrivals
  case counted => exact hi.counted
  case collected =>
    intro hne
    rw [hi.collected hne]
    congr 1
    apply filterMap_congr
    intro d hd
    have hdc : d ≠ c := by
      rintro rfl
      have := mem_roster.mp (hi.arrivals.mem_iff.mp hd)
      rw [hstage] at this
      cases this
    simp only [hother d hdc]
  case open_ => exact hi.open_
  case answered =>
    rw [roster_other (by simp [hstage]) (by simp)]
    exact hi.answered
  case answers =>
    intro m hm
    have hpos := (hi.pos_of_total hm).2
    rw [fold_congr (s := s) (hold (R - 1) (by omega))]
    exact hi.answers m hm
  case results =>
    intro d k x hx
    have hlt : k < R := by
      obtain ⟨hk, -⟩ := List.getElem?_eq_some_iff.mp hx
      exact lt_of_lt_of_le hk (hi.length_results d)
    rw [fold_congr (s := s) (hold k hlt)]
    exact hi.results d k x hx
  case checked => exact hi.checked

/-- **A call returns** the total that is in the result. -/
theorem return_inv (hi : s.Inv ReduceOp R stage arrived) {c : Fin cores}
    (hc : s.phase c ≠ .outside) (hfull : s.full c = true) :
    stage c = .delivered ∧
      (s.readFF c).Inv ReduceOp R (Function.update stage c .returned) arrived := by
  have hok := hi.stages c
  have hstage : stage c = .delivered := by
    cases h : stage c <;> simp_all [StageOk]
  rw [hstage] at hok
  obtain ⟨hargs, hresults, hphase, -, ht⟩ := hok
  refine ⟨hstage, ?_⟩
  have hs : s.readFF c = { s with
      results := update s.results c (s.results c ++ [s.t_ c])
      phase := update s.phase c .outside } := by
    simp [readFF, hfull]
  rw [hs]
  constructor
  case stages =>
    intro d
    by_cases hd : d = c
    · subst hd
      simp [StageOk, hargs, hresults]
    · rw [update_of_ne hd]
      exact (hi.stages d).congr rfl (update_of_ne hd ..) (update_of_ne hd ..) rfl
        rfl fun _ => rfl
  case calling =>
    rw [roster_other (by simp [hstage]) (by simp)]
    exact hi.calling
  case values => exact hi.values
  case arrivals =>
    rw [roster_other (by simp [hstage]) (by simp)]
    exact hi.arrivals
  case counted => exact hi.counted
  case collected => exact hi.collected
  case open_ => exact hi.open_
  case answered =>
    rw [roster_other (by simp [hstage]) (by simp)]
    exact hi.answered
  case answers => exact hi.answers
  case results =>
    intro d k x hx
    by_cases hd : d = c
    · subst hd
      simp only [update_self] at hx
      rcases lt_or_ge k (s.results d).length with hlt | hge
      · rw [getElem?_append_left hlt] at hx
        exact hi.results d k x hx
      · -- the value that is returned now
        rw [getElem?_append_right hge] at hx
        obtain ⟨hk, hget⟩ := List.getElem?_eq_some_iff.mp hx
        have hk0 : k = R - 1 := by
          simp only [length_singleton] at hk
          omega
        rw [getElem_singleton] at hget
        rw [← hget, hk0]
        exact ht
    · simp only [update_of_ne hd] at hx
      exact hi.results d k x hx
  case checked => exact hi.checked

theorem wait_inv (hi : s.Inv ReduceOp R stage arrived) {c : Fin cores}
    (hc : s.phase c = .sent) (hempty : s.full c = false) :
    (s.readFF c).Inv ReduceOp R stage arrived := by
  have hs : s.readFF c = { s with phase := update s.phase c .waiting } := by
    simp [readFF, hempty]
  rw [hs]
  refine { hi with stages := ?_ }
  intro d
  have hok := hi.stages d
  by_cases hd : d = c
  · subst hd
    cases h : stage d <;> simp_all [StageOk]
  · exact hok.congr rfl rfl (update_of_ne hd ..) rfl rfl fun _ => rfl

/-- **A total arrives** at the core that waits for it. -/
theorem deliver_inv (hi : s.Inv ReduceOp R stage arrived) {i : ℕ} {m : Fin cores × T}
    (hm : s.totals[i]? = some m) :
    stage m.1 = .answered ∧
      (writeXF { s with totals := s.totals.eraseIdx i } m.1 m.2).Inv ReduceOp R
        (update stage m.1 .delivered) arrived := by
  have hmem := mem_of_getElem? hm
  obtain ⟨hlt, hget⟩ := List.getElem?_eq_some_iff.mp hm
  obtain ⟨hstage, hpos⟩ := hi.pos_of_total hmem
  obtain ⟨c, t⟩ := m
  have hok := hi.stages c
  rw [hstage] at hok
  obtain ⟨hargs, hresults, hphase, hfull⟩ := hok
  refine ⟨hstage, ?_⟩
  constructor
  case stages =>
    intro d
    by_cases hd : d = c
    · subst hd
      rw [update_self]
      refine ⟨hargs, hresults, ?_, by simp [writeXF], ?_⟩
      · rcases hphase with h | h <;> simp [writeXF, h]
      · simp only [writeXF, update_self]
        exact hi.answers _ hmem
    · have hphase : (writeXF { s with totals := s.totals.eraseIdx i } c t).phase d =
          s.phase d := by
        simp only [writeXF]
        split
        · exact update_of_ne hd ..
        · rfl
      rw [update_of_ne hd]
      exact (hi.stages d).congr rfl rfl hphase (update_of_ne hd ..)
        (update_of_ne hd ..) fun _ => rfl
  case calling =>
    rw [roster_other (by simp [hstage]) (by simp)]
    exact hi.calling
  case values => exact hi.values
  case arrivals =>
    rw [roster_other (by simp [hstage]) (by simp)]
    exact hi.arrivals
  case counted => exact hi.counted
  case collected => exact hi.collected
  case open_ => exact hi.open_
  case answered =>
    have hout := (getElem_cons_eraseIdx_perm hlt).map Prod.fst
    rw [hget, map_cons] at hout
    have hleave := roster_leave (b := Stage.delivered) hstage (by simp)
    exact (perm_cons c).mp (hout.trans (hi.answered.trans hleave))
  case answers => exact fun m hm => hi.answers m (mem_of_mem_eraseIdx hm)
  case results => exact hi.results
  case checked => exact hi.checked

section Collect

theorem Inv.collected_snoc (hi : s.Inv ReduceOp R stage arrived) {c : Fin cores} {v : T}
    (hv : (s.args c)[R]? = some v) :
    some (if s.cores_in = 0 then v else ReduceOp s.total v) =
      Totals.total ReduceOp (s.argsOf R (arrived ++ [c])) := by
  have hsnoc : s.argsOf R (arrived ++ [c]) = s.argsOf R arrived ++ [v] := by
    simp [argsOf, hv]
  rw [hsnoc, total_concat, hi.counted]
  by_cases hnil : arrived = []
  · subst hnil
    rfl
  · rw [if_neg (fun h => hnil (length_eq_zero_iff.mp h)), ← hi.collected hnil]
    rfl

theorem Inv.arrives (hi : s.Inv ReduceOp R stage arrived) {i : ℕ} {c : Fin cores} {v : T}
    (hm : s.contributions[i]? = some (c, v)) :
    stage c = .calling ∧
      ((s.contributions.eraseIdx i).map Prod.fst).Perm (roster (update stage c .arrived) .calling) ∧
      (arrived ++ [c]).Perm (roster (update stage c .arrived) .arrived) := by
  obtain ⟨hlt, hget⟩ := List.getElem?_eq_some_iff.mp hm
  have hstage : stage c = .calling :=
    mem_roster.mp (hi.calling.mem_iff.mp (mem_map_of_mem (mem_of_getElem? hm)))
  refine ⟨hstage, ?_, ?_⟩
  · have hout := (getElem_cons_eraseIdx_perm hlt).map Prod.fst
    rw [hget, map_cons] at hout
    have hleave := roster_leave (b := Stage.arrived) hstage (by simp)
    exact (perm_cons c).mp (hout.trans (hi.calling.trans hleave))
  · exact (perm_append_singleton _ _).trans
      ((hi.arrivals.cons c).trans (roster_enter (by simp [hstage])).symm)

theorem collect_inv (hi : s.Inv ReduceOp R stage arrived) {i : ℕ} {c : Fin cores} {v : T}
    (hm : s.contributions[i]? = some (c, v)) (hmore : s.cores_in + 1 ≠ cores) :
    (collect_reduction ReduceOp { s with contributions := s.contributions.eraseIdx i } v).Inv
      ReduceOp R (update stage c .arrived) (arrived ++ [c]) := by
  have hmem := mem_of_getElem? hm
  obtain ⟨hstage, hcalling, harrivals⟩ := hi.arrives hm
  have hok := hi.stages c
  rw [hstage] at hok
  have hs : collect_reduction ReduceOp { s with contributions := s.contributions.eraseIdx i } v =
      { s with
        contributions := s.contributions.eraseIdx i
        total := if s.cores_in = 0 then v else ReduceOp s.total v
        cores_in := s.cores_in + 1 } := if_neg hmore
  rw [hs]
  constructor
  case stages =>
    intro d
    by_cases hd : d = c
    · subst hd
      rw [update_self]
      exact hok
    · rw [update_of_ne hd]
      exact (hi.stages d).congr rfl rfl rfl rfl rfl fun _ => rfl
  case calling => exact hcalling
  case values => exact fun m hm => hi.values m (mem_of_mem_eraseIdx hm)
  case arrivals => exact harrivals
  case counted => simp [hi.counted]
  case collected => exact fun _ => hi.collected_snoc (hi.values _ hmem)
  case open_ =>
    intro hne
    have := hi.open_ hne
    have := hi.counted
    rw [length_append, length_singleton]
    omega
  case answered =>
    rw [roster_other (by simp [hstage]) (by simp)]
    exact hi.answered
  case answers => exact hi.answers
  case results => exact hi.results
  case checked => exact hi.checked

variable [Std.Associative ReduceOp] [Std.Commutative ReduceOp]

/-- **The last value arrives**: a reduction is complete, and no core has begun the next one. -/
theorem complete_inv (hi : s.Inv ReduceOp R stage arrived) {i : ℕ} {c : Fin cores} {v : T}
    (hm : s.contributions[i]? = some (c, v)) (hlast : s.cores_in + 1 = cores) :
    (∀ d, d ≠ c → stage d = .arrived) ∧ stage c = .calling ∧
      (collect_reduction ReduceOp { s with contributions := s.contributions.eraseIdx i } v).Inv
        ReduceOp (R + 1) (fun _ => .answered) [] := by
  have hmem := mem_of_getElem? hm
  -- with this one all cores have arrived
  obtain ⟨hstage, hcalling, harrived⟩ := hi.arrives hm
  have hall := eq_of_length_roster (f := update stage c .arrived) (a := Stage.arrived)
    (by rw [← harrived.length_eq, length_append, ← hi.counted]; exact hlast)
  have hothers : ∀ d, d ≠ c → stage d = .arrived := by
    intro d hd
    have := hall d
    rwa [update_of_ne hd] at this
  rw [roster_all hall] at harrived
  have hrest : s.contributions.eraseIdx i = [] := by
    rw [roster_none (fun d => by simp [hall d])] at hcalling
    exact map_eq_nil_iff.mp hcalling.eq_nil
  have htotals : s.totals = [] := by
    have hnone := hi.answered
    rw [roster_none] at hnone
    · exact map_eq_nil_iff.mp hnone.eq_nil
    · intro d
      by_cases hd : d = c
      · simp [hd, hstage]
      · simp [hothers d hd]
  have hs : collect_reduction ReduceOp { s with contributions := s.contributions.eraseIdx i } v =
      { s with
        contributions := s.contributions.eraseIdx i
        total := if s.cores_in = 0 then v else ReduceOp s.total v
        cores_in := 0
        totals := s.totals ++ (finRange cores).map fun c =>
          (c, if s.cores_in = 0 then v else ReduceOp s.total v) } := if_pos hlast
  have htotal : some (if s.cores_in = 0 then v else ReduceOp s.total v) = s.fold ReduceOp R := by
    rw [hi.collected_snoc (hi.values _ hmem)]
    exact total_perm _ (harrived.filterMap _)
  refine ⟨hothers, hstage, ?_⟩
  rw [hs, hrest, htotals]
  constructor
  case stages =>
    intro d
    have hok := hi.stages d
    by_cases hd : d = c
    · rw [hd, hstage] at hok
      rw [hd]
      exact ⟨hok.1, by rw [hok.2.1], hok.2.2⟩
    · rw [hothers d hd] at hok
      exact ⟨hok.1, by rw [hok.2.1], hok.2.2⟩
  case calling => simp [roster]
  case values => simp
  case arrivals => simp [roster]
  case counted => rfl
  case collected => exact fun h => absurd rfl h
  case open_ => exact fun h => Nat.pos_of_ne_zero h
  case answered => simp [roster_all, comp_def]
  case answers =>
    intro m hm
    simp only [List.nil_append, List.mem_map] at hm
    obtain ⟨d, -, rfl⟩ := hm
    exact htotal
  case results => exact hi.results
  case checked => exact hi.checked

end Collect

end Steps

/-! ### Runs -/

section Runs

variable {ReduceOp} {s}

/-- What a core has yet to do in its call. -/
def weight : Stage → CallerPhase → ℕ
  | .calling, p => 5 + if p = .sent then 1 else 0
  | .arrived, p => 4 + if p = .sent then 1 else 0
  | .answered, p => 3 + if p = .sent then 1 else 0
  | .delivered, p => 2 + if p = .sent then 1 else 0
  | .returned, _ => 0

/-- What all cores have yet to do. -/
def budget (s : AllreduceRun cores T) (stage : Fin cores → Stage) : ℕ :=
  ∑ c, weight (stage c) (s.phase c)

theorem budget_update {s' : AllreduceRun cores T} {stage stage' : Fin cores → Stage} {c : Fin cores}
    (h : ∀ d, d ≠ c → weight (stage' d) (s'.phase d) = weight (stage d) (s.phase d)) :
    s'.budget stage' + weight (stage c) (s.phase c) =
      s.budget stage + weight (stage' c) (s'.phase c) :=
  Census.sum_add_of_eq_off (Finset.mem_univ c) fun d _ => h d

theorem return_budget {stage : Fin cores → Stage} {c : Fin cores} (hstage : stage c = .delivered)
    (hfull : s.full c = true) :
    (s.readFF c).budget (Function.update stage c .returned) < s.budget stage := by
  have hphase : (s.readFF c).phase = update s.phase c .outside := by
    simp [readFF, hfull]
  have hbudget : (s.readFF c).budget (update stage c .returned) +
      weight (stage c) (s.phase c) = s.budget stage +
        weight (update stage c .returned c) ((s.readFF c).phase c) := by
    apply budget_update
    intro d hd
    rw [hphase, update_of_ne hd, update_of_ne hd]
  rw [update_self, hstage] at hbudget
  simp only [weight] at hbudget
  omega

variable [Std.Associative ReduceOp] [Std.Commutative ReduceOp]

/-- **Every step keeps the invariant**; a call gives its core six steps to do, and every other
    step is one of these. -/
theorem next_inv {s' : AllreduceRun cores T} {l : Label cores T} {R : ℕ}
    {stage : Fin cores → Stage} {arrived : List (Fin cores)}
    (hi : s.Inv ReduceOp R stage arrived) (h : s.next ReduceOp l = some s') :
    ∃ R' stage' arrived', s'.Inv ReduceOp R' stage' arrived' ∧
      if l.isCall then s'.budget stage' ≤ s.budget stage + 6
      else s'.budget stage' < s.budget stage := by
  cases l with
  | call c v =>
    obtain ⟨hc, rfl⟩ := ite_some_none_eq_some.mp h
    have hphase : (s.call c v).phase = update s.phase c .sent := by simp [call, hc]
    have hbudget : (s.call c v).budget (update stage c .calling) +
        weight (stage c) (s.phase c) = s.budget stage +
          weight (update stage c .calling c) ((s.call c v).phase c) := by
      apply budget_update
      intro d hd
      rw [hphase, update_of_ne hd, update_of_ne hd]
    have hweight : weight (update stage c .calling c) ((s.call c v).phase c) = 6 := by
      simp [hphase, weight]
    refine ⟨R, _, arrived, call_inv hi hc, ?_⟩
    simp only [Label.isCall, if_true]
    omega
  | read c =>
    obtain ⟨hc, rfl⟩ := ite_some_none_eq_some.mp h
    cases hfull : s.full c with
    | true =>
      obtain ⟨hstage, hinv⟩ := return_inv hi (by simp [hc]) hfull
      exact ⟨R, _, arrived, hinv, return_budget hstage hfull⟩
    | false =>
      have hphase : (s.readFF c).phase = update s.phase c .waiting := by
        simp [readFF, hfull]
      have hbudget : (s.readFF c).budget stage + weight (stage c) (s.phase c) =
          s.budget stage + weight (stage c) ((s.readFF c).phase c) := by
        apply budget_update
        intro d hd
        rw [hphase, update_of_ne hd]
      have hweight : weight (stage c) ((s.readFF c).phase c) < weight (stage c) (s.phase c) := by
        have hok := hi.stages c
        rw [hphase, update_self, hc]
        cases hstage : stage c <;> simp_all [weight, StageOk]
      refine ⟨R, stage, arrived, wait_inv hi hc hfull, ?_⟩
      simp only [Label.isCall, Bool.false_eq_true, if_false]
      omega
  | resume c =>
    obtain ⟨hc, rfl⟩ := ite_some_none_eq_some.mp h
    -- who is woken finds the result full
    have hfull : s.full c = true := by
      have hok := hi.stages c
      cases hstage : stage c <;> simp_all [StageOk]
    obtain ⟨hstage, hinv⟩ := return_inv hi (by simp [hc]) hfull
    exact ⟨R, _, arrived, hinv, return_budget hstage hfull⟩
  | collect i =>
    obtain ⟨⟨c, v⟩, hm, rfl⟩ := map_eq_some_iff.mp h
    have hphase : (collect_reduction ReduceOp
        { s with contributions := s.contributions.eraseIdx i } v).phase = s.phase := by
      simp only [collect_reduction]
      split <;> rfl
    simp only [Label.isCall, Bool.false_eq_true, if_false]
    by_cases hlast : s.cores_in + 1 = cores
    · obtain ⟨hothers, hstage, hinv⟩ := complete_inv hi hm hlast
      refine ⟨R + 1, _, [], hinv, ?_⟩
      have : Nonempty (Fin cores) := ⟨c⟩
      apply Finset.sum_lt_sum_of_nonempty Finset.univ_nonempty
      intro d _
      rw [hphase]
      by_cases hd : d = c
      · rw [hd, hstage]
        simp only [weight]
        omega
      · rw [hothers d hd]
        simp only [weight]
        omega
    · have hstage : stage c = .calling :=
        mem_roster.mp (hi.calling.mem_iff.mp (mem_map_of_mem (mem_of_getElem? hm)))
      have hbudget : (collect_reduction ReduceOp
          { s with contributions := s.contributions.eraseIdx i } v).budget
            (update stage c .arrived) + weight (stage c) (s.phase c) =
          s.budget stage + weight (update stage c .arrived c) ((collect_reduction ReduceOp
            { s with contributions := s.contributions.eraseIdx i } v).phase c) := by
        apply budget_update
        intro d hd
        rw [hphase, update_of_ne hd]
      rw [hphase, update_self, hstage] at hbudget
      simp only [weight] at hbudget
      refine ⟨R, _, _, collect_inv hi hm hlast, ?_⟩
      omega
  | deliver i =>
    obtain ⟨⟨c, t⟩, hm, rfl⟩ := map_eq_some_iff.mp h
    obtain ⟨hstage, hinv⟩ := deliver_inv hi hm
    refine ⟨R, _, arrived, hinv, ?_⟩
    have hother : ∀ d, d ≠ c → (writeXF { s with totals := s.totals.eraseIdx i } c t).phase d =
        s.phase d := by
      intro d hd
      simp only [writeXF]
      split
      · exact update_of_ne hd ..
      · rfl
    have hsent : (writeXF { s with totals := s.totals.eraseIdx i } c t).phase c = .sent →
        s.phase c = .sent := by
      simp only [writeXF]
      split <;> simp
    have hbudget : (writeXF { s with totals := s.totals.eraseIdx i } c t).budget
        (update stage c .delivered) + weight (stage c) (s.phase c) =
          s.budget stage + weight (update stage c .delivered c)
            ((writeXF { s with totals := s.totals.eraseIdx i } c t).phase c) := by
      apply budget_update
      intro d hd
      rw [hother d hd, update_of_ne hd]
    rw [update_self, hstage] at hbudget
    simp only [weight] at hbudget
    simp only [Label.isCall, Bool.false_eq_true, if_false]
    split at hbudget <;> split at hbudget <;> first | omega | exact absurd (hsent ‹_›) ‹_›

/-- The steps of a run that are not calls. -/
def stepsOf (ls : List (Label cores T)) : ℕ := ls.countP fun l => !l.isCall

def callsOf (ls : List (Label cores T)) : ℕ := ls.countP fun l => l.isCall

/-- **Every run** keeps the invariant, and spends six steps at most on a call. -/
theorem run_inv (t : T) {ls : List (Label cores T)}
    (hrun : (system ReduceOp t).run (init t) ls = some s) :
    ∃ R stage arrived, s.Inv ReduceOp R stage arrived ∧
      stepsOf ls + s.budget stage ≤ 6 * callsOf ls := by
  induction ls using reverseRecOn generalizing s with
  | nil =>
    obtain rfl : init t = s := by simpa using hrun
    exact ⟨0, _, [], init_inv ReduceOp t, by simp [stepsOf, budget, weight]⟩
  | append_singleton ls l ih =>
    obtain ⟨s₁, hrun₁, hnext⟩ := Transition.System.run_snoc.mp hrun
    obtain ⟨R, stage, arrived, hi, hbound⟩ := ih hrun₁
    obtain ⟨R', stage', arrived', hi', hbudget⟩ := next_inv hi hnext
    refine ⟨R', stage', arrived', hi', ?_⟩
    simp only [stepsOf, callsOf, countP_append, countP_singleton] at hbound ⊢
    cases hcall : l.isCall with
    | true =>
      rw [hcall, if_pos rfl] at hbudget
      simp only [Bool.not_true, Bool.false_eq_true, if_false, if_true]
      omega
    | false =>
      rw [hcall, if_neg (by simp)] at hbudget
      simp only [Bool.not_false, Bool.false_eq_true, if_false, if_true]
      omega

omit [Std.Associative ReduceOp] [Std.Commutative ReduceOp] in
/-- **A core waits only for another one to call**: where nothing but a call can happen, some core has
    made fewer calls. -/
theorem waits_for_call {R : ℕ} {stage : Fin cores → Stage} {arrived : List (Fin cores)}
    (hi : s.Inv ReduceOp R stage arrived)
    (hquiet : ∀ l, l.isCall = false → s.next ReduceOp l = none) {c : Fin cores}
    (hc : s.phase c ≠ .outside) : ∃ d, (s.args d).length < (s.args c).length := by
  have hsent : ∀ d, s.phase d ≠ .sent := by
    intro d h
    have := hquiet (.read d) rfl
    simp [next, h] at this
  have hready : ∀ d, s.phase d ≠ .ready := by
    intro d h
    have := hquiet (.resume d) rfl
    simp [next, h] at this
  have hcontributions : s.contributions = [] := by
    have := hquiet (.collect 0) rfl
    simpa [next] using this
  have htotals : s.totals = [] := by
    have := hquiet (.deliver 0) rfl
    simpa [next] using this
  -- so nobody's value or answer is on the way, and nobody has an answer
  have hcases : ∀ d, stage d = .arrived ∨ stage d = .returned := by
    intro d
    have hok := hi.stages d
    cases h : stage d with
    | calling =>
      have := hi.calling.mem_iff.mpr (mem_roster.mpr h)
      simp [hcontributions] at this
    | answered =>
      have := hi.answered.mem_iff.mpr (mem_roster.mpr h)
      simp [htotals] at this
    | delivered =>
      rw [h] at hok
      rcases hok.2.2.1 with h | h
      · exact absurd h (hsent d)
      · exact absurd h (hready d)
    | arrived => exact .inl rfl
    | returned => exact .inr rfl
  have hstage : stage c = .arrived := by
    rcases hcases c with h | h
    · exact h
    · have hok := hi.stages c
      rw [h] at hok
      exact absurd hok.2.2 hc
  -- not all cores have arrived
  obtain ⟨d, hd⟩ : ∃ d, stage d ≠ .arrived := by
    by_contra hall
    push Not at hall
    have hlen := hi.arrivals.length_eq
    rw [roster_all hall, length_finRange] at hlen
    have := hi.open_ (by have := c.pos; omega)
    omega
  have hret := (hcases d).resolve_left hd
  have hokc := hi.stages c
  have hokd := hi.stages d
  rw [hstage] at hokc
  rw [hret] at hokd
  exact ⟨d, by have := hokc.1; have := hokd.1; omega⟩

variable (ReduceOp) in
/-- **Successive reductions**: in every run, what the `k`-th call of a core has returned is the total
    of the `k`-th arguments of all cores, all of which have made that call; a call takes six
    steps at most, and a core whose call does not return waits for a core that has made fewer
    calls. -/
theorem allreduce_sequence (t : T) (ls : List (Label cores T))
    (hrun : (system ReduceOp t).run (init t) ls = some s) :
    (∀ c k x, (s.results c)[k]? = some x →
      (∀ d, k < (s.args d).length) ∧ some x = s.fold ReduceOp k) ∧
    s.aborted = false ∧
    stepsOf ls ≤ 6 * callsOf ls ∧
    ((∀ l, l.isCall = false → s.next ReduceOp l = none) → ∀ c, s.phase c ≠ .outside →
      ∃ d, (s.args d).length < (s.args c).length) := by
  obtain ⟨R, stage, arrived, hi, hbound⟩ := run_inv t hrun
  refine ⟨?_, hi.checked, by omega, fun hquiet c hc => waits_for_call hi hquiet hc⟩
  intro c k x hx
  refine ⟨fun d => ?_, hi.results c k x hx⟩
  have hlt : k < R := by
    obtain ⟨hk, -⟩ := List.getElem?_eq_some_iff.mp hx
    exact lt_of_lt_of_le hk (hi.length_results c)
  exact lt_of_lt_of_le hlt (hi.length_args d)

end Runs

/-- Two cores that call twice; the fast core makes its second call while the slow one still
    waits for the first total. -/
def twoCalls : List (Label 2 ℕ) :=
  let fast : Fin 2 := ⟨0, Nat.two_pos⟩
  let slow : Fin 2 := ⟨1, Nat.one_lt_two⟩
  [.call fast 3, .call slow 4, .collect 1, .collect 0, .read fast, .deliver 0, .resume fast,
    .call fast 10, .deliver 0, .read slow, .call slow 20, .collect 0]

theorem allreduce_twoCalls :
    ∃ s : AllreduceRun 2 ℕ, (system (· + ·) 0).run (init 0) twoCalls = some s ∧
      (s.results 1)[0]? = some 7 ∧ s.aborted = false ∧
      ∀ c k x, (s.results c)[k]? = some x →
        (∀ d, k < (s.args d).length) ∧ some x = s.fold (· + ·) k := by
  refine ⟨_, rfl, by decide, ?_⟩
  have h := allreduce_sequence (fun a b : ℕ => a + b) 0 twoCalls rfl
  exact ⟨h.2.1, h.1⟩

end AllreduceRun

end Grappa
