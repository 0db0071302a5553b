import AdvCompArch.Sonuma.RpcDispatch

/-! # The occupancy of the cores

    The loop of the daemon over the sockets counts a request on the core that it dispatches it to,
    the loop over the work queues takes it off when it is replenished.  The count is to stay
    within the threshold that the admission test compares it with. -/

namespace Sonuma

open Transition Function Option

/-- The daemon with the requests that were dispatched and not yet replenished: core and slot. -/
structure Occupancy where
  daemon : Daemon
  outstanding : List (ℕ × ℕ)

namespace Occupancy

open Daemon (Label)

variable (o : Occupancy)

/-- A dispatch is the only step with a request that hands a slot over. -/
def next (l : Label) : Option Occupancy :=
  (o.daemon.next l).map fun d =>
    { daemon := d
      outstanding :=
        match l with
        | .request _ _ _ => o.outstanding ++ d.held.drop o.daemon.held.length
        | .replenish qp slot true => o.outstanding.erase (qp, slot)
        | _ => o.outstanding }

def init (num_qps : ℕ) : Occupancy := ⟨Daemon.init num_qps, []⟩

def system (num_qps : ℕ) : Transition.System Occupancy Label where
  init := init num_qps
  next := next

/-- The applications replenish the requests dispatched to them with the flag, and what else they
    hold without it. -/
def Exact : Label → Prop
  | .replenish qp slot true => (qp, slot) ∈ o.outstanding
  | .replenish qp slot false => (qp, slot) ∈ o.daemon.held.diff o.outstanding
  | _ => True

/-- The counts are those of the requests that are out. -/
def Counted : Prop :=
  ∀ core, o.daemon.rpcs_per_core core = (o.outstanding.countP fun p => p.1 = core : ℕ)

/-- What `increment_core_occupancy` and `decrement_core_occupancy` assert. -/
def InRange : Prop :=
  ∀ core, 0 ≤ o.daemon.rpcs_per_core core ∧ o.daemon.rpcs_per_core core ≤ REQ_THRESHOLD

/-- The core that a message is dispatched to. -/
def target (d : Daemon) : Label → Option ℕ
  | .request nid qp len =>
    let t := d.enter ⟨nid, .request qp, len⟩
    if !d.rpc_srq.srq_full && (t.rpc_srq.q t.rpc_srq.dispatch_slot).valid then t.get_avail_core
    else none
  | _ => none

/-- A message is dispatched only to a core below the threshold. -/
def Below (l : Label) : Prop :=
  ∀ core ∈ target o.daemon l, o.daemon.rpcs_per_core core < REQ_THRESHOLD

/-! ### The daemon's steps -/

section daemon

variable {d d' : Daemon} {core : ℕ} {l : Label}

theorem srq_empty_enter (hf : d.rpc_srq.full = false) (a : Arrival) :
    (d.enter a).rpc_srq.srq_empty = false := by
  rw [Daemon.enter_eq hf]
  simp [RpcSrq.srq_empty]

/-- **A request**: nothing is handed over and counted, or a slot is handed to the core it is
    dispatched to, which is counted. -/
theorem receive_request_cases (nid qp len : ℕ) :
    match target d (.request nid qp len) with
    | none => (d.receive_request nid qp len).held = d.held ∧
        (d.receive_request nid qp len).rpcs_per_core = d.rpcs_per_core
    | some core => ∃ slot, (d.receive_request nid qp len).held = d.held ++ [(core, slot)] ∧
        (d.receive_request nid qp len).rpcs_per_core =
          Function.update d.rpcs_per_core core (d.rpcs_per_core core + 1) := by
  cases hf : d.rpc_srq.full with
  | true => simp [target, Daemon.receive_request, RpcSrq.srq_full, hf]
  | false =>
    have hempty := srq_empty_enter hf ⟨nid, .request qp, len⟩
    simp only [target, Daemon.receive_request, RpcSrq.srq_full, hf, Bool.not_false, Bool.true_and,
      if_true]
    generalize ht : d.enter ⟨nid, .request qp, len⟩ = t at hempty
    have hheld : t.held = d.held := by rw [← ht]; rfl
    have hcount : t.rpcs_per_core = d.rpcs_per_core := by rw [← ht]; rfl
    rw [← hheld, ← hcount]
    cases hcore : t.get_avail_core with
    | none => simp
    | some core =>
      cases hv : (t.rpc_srq.q t.rpc_srq.dispatch_slot).valid with
      | false => simp [Daemon.dispatch, RpcSrq.get_dispatch_entry_from_srq, hempty, hv]
      | true =>
        simp only [Daemon.dispatch, RpcSrq.get_dispatch_entry_from_srq, hempty, hv, Bool.not_false,
          if_true]
        exact ⟨_, rfl, rfl⟩

theorem process_replenish_count (qp slot : ℕ) (dispatch_on_recv : Bool) :
    (d.process_replenish qp slot dispatch_on_recv).rpcs_per_core =
      if dispatch_on_recv then
        Function.update d.rpcs_per_core qp (d.rpcs_per_core qp - 1)
      else d.rpcs_per_core := by
  unfold Daemon.process_replenish
  cases dispatch_on_recv with
  | true =>
    dsimp only
    split <;> rfl
  | false =>
    dsimp only
    split <;> rfl

end daemon

/-! ### The law -/

variable {o} {o' : Occupancy} {l : Label}

theorem init_counted (num_qps : ℕ) : (init num_qps).Counted := fun _ => rfl

theorem init_inRange (num_qps : ℕ) : (init num_qps).InRange :=
  fun _ => ⟨le_rfl, Int.zero_le_ofNat 2⟩

/-- **What a step can do**: a request is dispatched, one is replenished, or nothing changes. -/
theorem next_cases (h : o.next l = some o') :
    (∃ core slot, target o.daemon l = some core ∧
      o'.daemon.rpcs_per_core =
        Function.update o.daemon.rpcs_per_core core (o.daemon.rpcs_per_core core + 1) ∧
      o'.outstanding = o.outstanding ++ [(core, slot)]) ∨
    (∃ core slot, l = .replenish core slot true ∧
      o'.daemon.rpcs_per_core =
        Function.update o.daemon.rpcs_per_core core (o.daemon.rpcs_per_core core - 1) ∧
      o'.outstanding = o.outstanding.erase (core, slot)) ∨
    target o.daemon l = none ∧ o'.daemon.rpcs_per_core = o.daemon.rpcs_per_core ∧
      o'.outstanding = o.outstanding := by
  obtain ⟨d, hd, rfl⟩ := map_eq_some_iff.mp h
  obtain ⟨-, hd⟩ := ite_none_left_eq_some.mp hd
  cases l with
  | request nid qp len =>
    cases hd
    have hcases := receive_request_cases (d := o.daemon) nid qp len
    cases htarget : target o.daemon (.request nid qp len) with
    | none =>
      rw [htarget] at hcases
      exact .inr (.inr ⟨rfl, hcases.2, by simp [hcases.1]⟩)
    | some core =>
      rw [htarget] at hcases
      obtain ⟨slot, hheld, hcount⟩ := hcases
      exact .inl ⟨core, slot, rfl, hcount, by simp [hheld]⟩
  | response nid qp len =>
    obtain ⟨-, rfl⟩ := ite_some_none_eq_some.mp hd
    refine .inr (.inr ⟨rfl, ?_, rfl⟩)
    dsimp only [Daemon.receive_response]
    split <;> rfl
  | nack nid qp =>
    obtain ⟨-, rfl⟩ := ite_some_none_eq_some.mp hd
    exact .inr (.inr ⟨rfl, rfl, rfl⟩)
  | replenish qp slot dispatch_on_recv =>
    obtain ⟨-, rfl⟩ := ite_some_none_eq_some.mp hd
    have hcount := process_replenish_count (d := o.daemon) qp slot dispatch_on_recv
    cases dispatch_on_recv with
    | true => exact .inr (.inl ⟨qp, slot, rfl, hcount, rfl⟩)
    | false => exact .inr (.inr ⟨rfl, hcount, rfl⟩)

theorem next_counted (hc : o.Counted) (hexact : o.Exact l) (h : o.next l = some o') :
    o'.Counted := by
  intro core
  rcases next_cases h with ⟨c, slot, -, hcount, hout⟩ | ⟨c, slot, rfl, hcount, hout⟩ |
    ⟨-, hcount, hout⟩
  · rw [hcount, hout, List.countP_append, update_apply]
    by_cases hcore : core = c
    · subst hcore
      simp [hc core]
    · simp [hcore, Ne.symm hcore, hc core]
  · have hmem : (c, slot) ∈ o.outstanding := hexact
    have hperm := (List.perm_cons_erase hmem).countP_eq fun p => p.1 = core
    rw [List.countP_cons] at hperm
    rw [hcount, hout, update_apply]
    by_cases hcore : core = c
    · subst hcore
      simp only [decide_true, if_true] at hperm
      rw [if_pos rfl, hc core]
      omega
    · simp only [Ne.symm hcore, decide_false, Bool.false_eq_true, if_false] at hperm
      rw [if_neg hcore, hc core]
      omega
  · rw [hcount, hout]
    exact hc core

/-- **A step leaves the range** just when it dispatches a request to a core that has come to the
    threshold. -/
theorem next_inRange_iff (hr : o.InRange) (hc : o'.Counted) (h : o.next l = some o') :
    o'.InRange ↔ o.Below l := by
  have hnonneg : ∀ core, 0 ≤ o'.daemon.rpcs_per_core core := by
    intro core
    rw [hc core]
    exact Int.natCast_nonneg _
  rcases next_cases h with ⟨c, slot, htarget, hcount, -⟩ | ⟨c, slot, rfl, hcount, -⟩ |
    ⟨htarget, hcount, -⟩
  · constructor
    · intro hr' core hcore
      obtain rfl : c = core := some.inj (htarget.symm.trans hcore)
      have hle := (hr' c).2
      rw [hcount, update_self] at hle
      exact Int.lt_of_add_one_le hle
    · intro hbelow core
      refine ⟨hnonneg core, ?_⟩
      rw [hcount, update_apply]
      split_ifs
      · exact Int.add_one_le_of_lt (hbelow c htarget)
      · exact (hr core).2
  · refine iff_of_true (fun core => ⟨hnonneg core, ?_⟩) (fun core hcore => ?_)
    · have hle := (hr core).2
      rw [hcount, update_apply]
      split_ifs with hcore
      · subst hcore
        omega
      · exact hle
    · cases hcore
  · refine iff_of_true (fun core => ⟨hnonneg core, ?_⟩) (fun core hcore => ?_)
    · rw [hcount]
      exact (hr core).2
    · rw [htarget] at hcore
      cases hcore

/-- **Occupancy**: in every run in which the applications replenish exactly the requests dispatched
    to them, the count of each core is that of the requests that are out; and it stays within the
    threshold if and only if no request is dispatched to a core that has come to it. -/
theorem occupancy_iff {num_qps : ℕ} {ls : List Label} {o : Occupancy}
    (hrun : (system num_qps).run (init num_qps) ls = some o)
    (hexact : (system num_qps).Always Exact (init num_qps) ls) :
    (system num_qps).Throughout Counted (init num_qps) ls ∧
      ((system num_qps).Throughout InRange (init num_qps) ls ↔
        (system num_qps).Always Below (init num_qps) ls) := by
  constructor
  · exact System.throughout_under (fun _ hc => hc)
      (fun _ _ _ hc he h => next_counted hc he h) (init_counted num_qps) hexact
  · have h : (system num_qps).Throughout InRange (init num_qps) ls ∧
        (system num_qps).Always (fun _ _ => True) (init num_qps) ls ↔
        (system num_qps).Always Below (init num_qps) ls := by
      apply System.throughout_iff_always_of
        (fun (o : Occupancy) (hi : o.Counted ∧ o.InRange) => hi.2)
      case hstep =>
        intro o l o' hi he hbelow hnext
        have hc := next_counted hi.1 he hnext
        exact ⟨⟨hc, (next_inRange_iff hi.2 hc hnext).mpr hbelow⟩, trivial⟩
      case hbad =>
        intro o l o' hi he hbelow hnext hr
        exact hbelow ((next_inRange_iff hi.2 (next_counted hi.1 he hnext) hnext).mp hr.2)
      case hs => exact ⟨init_counted num_qps, init_inRange num_qps⟩
      case hA => exact hexact
      case hrun => exact hrun
    rw [← h]
    exact ⟨fun hr => ⟨hr, System.always_true _ _⟩, And.left⟩

/-! ### Three requests for one core -/

instance decidableExact : ∀ (o : Occupancy) (l : Label), Decidable (o.Exact l)
  | o, .replenish qp slot true => inferInstanceAs (Decidable ((qp, slot) ∈ o.outstanding))
  | o, .replenish qp slot false =>
    inferInstanceAs (Decidable ((qp, slot) ∈ o.daemon.held.diff o.outstanding))
  | _, .request _ _ _ | _, .response _ _ _ | _, .nack _ _ => isTrue trivial

/-- Two requests are out, one is replenished, and another one comes. -/
theorem occupancy_two :
    let ls : List Label := [.request 1 0 64, .request 2 1 64, .replenish 0 0 true, .request 1 0 64]
    (system 1).Throughout Counted (init 1) ls ∧
      ((system 1).Throughout InRange (init 1) ls ↔ (system 1).Always Below (init 1) ls) :=
  occupancy_iff rfl (by decide +kernel)

/-- The admission test lets a third request pass. -/
theorem occupancy_three :
    let ls : List Label := [.request 1 0 64, .request 2 1 64, .request 1 0 64]
    (system 1).Always Exact (init 1) ls ∧ ¬(system 1).Throughout InRange (init 1) ls := by
  refine ⟨by decide +kernel, fun h => ?_⟩
  have hlast := (h.last rfl 0).2
  exact absurd hlast (by decide +kernel)

end Occupancy

end Sonuma
