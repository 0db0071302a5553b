import AdvCompArch.Sonuma.RpcDispatch

/-! # Requests that wait for a core

    The loop of the daemon takes requests from its sockets and replenish entries from the work
    queues.  It looks for a core to dispatch to when a request comes, and then dispatches one
    request; a replenish entry makes room on a core and dispatches nothing. -/

namespace Sonuma

open List Transition Option

/-- The daemon with what has come and was not looked at yet. -/
structure Loop where
  daemon : Daemon
  /-- The requests in the socket of each node: queue pair and length. -/
  sockets : ℕ → List (ℕ × ℕ)
  /-- The replenish entries in the work queue of each queue pair: slot and `dispatch_on_recv`. -/
  wqs : ℕ → List (ℕ × Bool)

namespace Loop

inductive Label where
  /-- A request comes over the socket of a node. -/
  | arrive (nid senders_qp payload_len : ℕ)
  /-- An application posts a replenish entry. -/
  | post (qp_num slot_idx : ℕ) (dispatch_on_recv : Bool)
  | poll_socket (nid : ℕ)
  | poll_wq (qp_num : ℕ)

variable (s : Loop)

def next : Label → Option Loop
  | .arrive nid qp len =>
    some { s with sockets := Function.update s.sockets nid (s.sockets nid ++ [(qp, len)]) }
  | .post qp slot dispatch =>
    some { s with wqs := Function.update s.wqs qp (s.wqs qp ++ [(slot, dispatch)]) }
  | .poll_socket nid =>
    match s.sockets nid with
    | [] => none
    | (qp, len) :: rest => (s.daemon.next (.request nid qp len)).map fun d =>
        { s with daemon := d, sockets := Function.update s.sockets nid rest }
  | .poll_wq qp =>
    match s.wqs qp with
    | [] => none
    | (slot, dispatch) :: rest => (s.daemon.next (.replenish qp slot dispatch)).map fun d =>
        { s with daemon := d, wqs := Function.update s.wqs qp rest }

def init (num_qps : ℕ) : Loop := ⟨Daemon.init num_qps, fun _ => [], fun _ => []⟩

def system (num_qps : ℕ) : Transition.System Loop Label where
  init := init num_qps
  next := next

/-- All sockets and work queues are empty. -/
def Drained : Prop := (∀ nid, s.sockets nid = []) ∧ ∀ qp, s.wqs qp = []

end Loop

namespace Daemon

open Arrival

variable {d d' : Daemon} {num_qps : ℕ}

/-- The queue holds a request that was not dispatched, and there is a core to dispatch it to. -/
def LeftBehind (d : Daemon) : Prop :=
  (∃ n ∈ requests d.entered, n ∉ d.dispatched.map Prod.snd ∧
    (d.rpc_srq.q (n % MAX_NUM_SRQ_SLOTS)).valid = true ∧
    d.holder (n % MAX_NUM_SRQ_SLOTS) = n) ∧
  d.get_avail_core.isSome = true

/-- The messages are dispatched in turn, and all of them while a core is available. -/
structure CaughtUp (d : Daemon) : Prop where
  head : d.rpc_srq.head = d.entered.length % MAX_NUM_SRQ_SLOTS
  slot : d.rpc_srq.dispatch_slot = d.dispatched.length % MAX_NUM_SRQ_SLOTS
  order : d.dispatched.map Prod.snd = List.range d.dispatched.length
  avail : d.get_avail_core.isSome = true → d.dispatched.length = d.entered.length

theorem CaughtUp.not_leftBehind (hc : d.CaughtUp) : ¬d.LeftBehind := by
  intro ⟨⟨n, hn, hnot, _⟩, havail⟩
  apply hnot
  rw [hc.order, hc.avail havail, mem_range]
  exact lt_of_mem_requests hn

/-- **A request that finds a core** when all others were dispatched is dispatched itself. -/
theorem dispatch_caughtUp (hc : d.CaughtUp) (hf : d.rpc_srq.full = false)
    (hall : d.dispatched.length = d.entered.length) (a : Arrival) (core : ℕ) :
    ∃ cqs rpcs_per_core held, (d.enter a).dispatch core =
      { d.enter a with
        rpc_srq := (d.enter a).rpc_srq.advance_dispatch_slot
        dispatched := d.dispatched ++ [(core, d.entered.length)]
        held := held
        cqs := cqs
        rpcs_per_core := rpcs_per_core } := by
  have hslot : d.rpc_srq.dispatch_slot = d.rpc_srq.head := by rw [hc.slot, hc.head, hall]
  -- the flag is up when the head has come to the tail
  have hne : (d.enter a).rpc_srq.srq_empty = false := by
    rw [enter_eq hf]
    simp [RpcSrq.srq_empty]
  have hv : ((d.enter a).rpc_srq.q (d.enter a).rpc_srq.dispatch_slot).valid = true := by
    rw [enter_eq hf]
    simp [hslot, RpcSrq.placed]
  have hholder : (d.enter a).holder (d.enter a).rpc_srq.dispatch_slot = d.entered.length := by
    rw [enter_eq hf]
    simp [hslot]
  simp only [dispatch, RpcSrq.get_dispatch_entry_from_srq, hne, hv, hholder, Bool.not_false, if_true]
  exact ⟨_, _, _, rfl⟩

theorem request_caughtUp (hc : d.CaughtUp) (nid qp len : ℕ) :
    (d.receive_request nid qp len).CaughtUp := by
  cases hf : d.rpc_srq.full with
  | true =>
    simp only [receive_request, RpcSrq.srq_full, hf, Bool.not_true, Bool.false_eq_true, if_false]
    exact hc
  | false =>
    rw [receive_request_eq hf]
    have hhead : (d.rpc_srq.head + 1) % MAX_NUM_SRQ_SLOTS =
        (d.entered.length + 1) % MAX_NUM_SRQ_SLOTS := by
      rw [hc.head, Nat.mod_add_mod]
    cases hcore : d.get_avail_core with
    | none =>
      have hnone : (d.enter ⟨nid, .request qp, len⟩).get_avail_core = none := hcore
      rw [enter_eq hf] at hnone ⊢
      exact
        { head := by simpa using hhead
          slot := hc.slot
          order := hc.order
          avail := by simp [hnone] }
    | some core =>
      have hall := hc.avail (by simp [hcore])
      obtain ⟨cqs, rpcs_per_core, held, heq⟩ :=
        dispatch_caughtUp hc hf hall ⟨nid, .request qp, len⟩ core
      dsimp only
      rw [heq, enter_eq hf]
      exact
        { head := by simpa [RpcSrq.advance_dispatch_slot] using hhead
          slot := by simp [RpcSrq.advance_dispatch_slot, hc.slot]
          order := by simp [hc.order, range_succ, ← hall]
          avail := by simp [hall] }

/-- **A replenish entry** that makes no room, or makes it while no request waits, keeps the daemon
    caught up. -/
theorem replenish_caughtUp (hc : d.CaughtUp) (qp slot : ℕ) {dispatch_on_recv : Bool}
    (hroom : dispatch_on_recv = true → d.dispatched.length = d.entered.length) :
    (d.process_replenish qp slot dispatch_on_recv).CaughtUp := by
  -- what a free does not change
  have hkeep {srq : RpcSrq} (h : d.rpc_srq.reset_srq_entry_invalid slot = some (true, srq)) :
      srq.head = d.rpc_srq.head ∧ srq.dispatch_slot = d.rpc_srq.dispatch_slot := by
    unfold RpcSrq.reset_srq_entry_invalid at h
    split at h
    · obtain ⟨-, h⟩ := ite_none_right_eq_some.mp h
      obtain ⟨-, rfl⟩ := Prod.mk.inj (some.inj h)
      rw [RpcSrq.advance_srq_tail_multiple, RpcSrq.skip_invalid_eq]
      exact ⟨rfl, rfl⟩
    · cases h
  cases dispatch_on_recv with
  | true =>
    have hall := hroom rfl
    simp only [process_replenish, decrement_core_occupancy, if_true]
    split
    · rename_i srq h
      obtain ⟨hhead, hslot⟩ := hkeep h
      exact ⟨hhead.trans hc.head, hslot.trans hc.slot, hc.order, fun _ => hall⟩
    · exact ⟨hc.head, hc.slot, hc.order, fun _ => hall⟩
  | false =>
    simp only [process_replenish, Bool.false_eq_true, if_false]
    split
    · rename_i srq h
      obtain ⟨hhead, hslot⟩ := hkeep h
      exact ⟨hhead.trans hc.head, hslot.trans hc.slot, hc.order, hc.avail⟩
    · exact ⟨hc.head, hc.slot, hc.order, hc.avail⟩

theorem init_caughtUp : (init num_qps).CaughtUp where
  head := rfl
  slot := rfl
  order := rfl
  avail := fun _ => rfl

/-! ### What a core holds -/

/-- Only requests were entered, a core has at most one request more than the threshold, and the
    queue pairs that hold slots are those of the cores. -/
structure Loaded (d : Daemon) : Prop where
  only_requests : ∀ a ∈ d.entered, a.isRequest = true
  load_le : ∀ i, d.rpcs_per_core i ≤ REQ_THRESHOLD + 1
  holders : ∀ p ∈ d.held, p.1 < d.rpc_cores

theorem get_avail_core_some {core : ℕ} (h : d.get_avail_core = some core) :
    core < d.rpc_cores ∧ d.rpcs_per_core core ≤ REQ_THRESHOLD := by
  have hmem := mem_of_find?_eq_some h
  have hload := find?_some h
  exact ⟨mem_range.mp hmem, by simpa using hload⟩

theorem responsesBefore_eq_zero (hl : ∀ a ∈ d.entered, a.isRequest = true) (n : ℕ) :
    responsesBefore d.entered n = 0 := by
  apply countP_eq_zero.mpr
  intro a ha
  simp [isResponse, hl a (mem_of_mem_take ha)]

theorem request_loaded (hl : d.Loaded) (nid qp len : ℕ) : (d.receive_request nid qp len).Loaded := by
  cases hf : d.rpc_srq.full with
  | true =>
    simp only [receive_request, RpcSrq.srq_full, hf, Bool.not_true, Bool.false_eq_true, if_false]
    exact hl
  | false =>
    rw [receive_request_eq hf]
    have henter : (d.enter ⟨nid, .request qp, len⟩).Loaded := by
      constructor
      · intro a ha
        rcases mem_append.mp ha with ha | ha
        · exact hl.only_requests a ha
        · rw [mem_singleton.mp ha]
          rfl
      · exact hl.load_le
      · exact hl.holders
    cases hcore : d.get_avail_core with
    | none => exact henter
    | some core =>
      obtain ⟨hlt, hload⟩ := get_avail_core_some hcore
      simp only [dispatch]
      split
      · constructor
        · exact henter.only_requests
        · intro i
          simp only [increment_core_occupancy, tell, Function.update_apply]
          split
          · change d.rpcs_per_core core + 1 ≤ _
            omega
          · exact hl.load_le i
        · intro p hp
          rcases mem_append.mp hp with hp | hp
          · exact hl.holders p hp
          · rw [mem_singleton.mp hp]
            exact hlt
      · exact ⟨henter.only_requests, henter.load_le, henter.holders⟩

theorem replenish_loaded (hl : d.Loaded) (qp slot : ℕ) (dispatch_on_recv : Bool) :
    (d.process_replenish qp slot dispatch_on_recv).Loaded := by
  have hroom : (if dispatch_on_recv then d.decrement_core_occupancy qp else d).Loaded := by
    split
    · refine ⟨hl.only_requests, ?_, hl.holders⟩
      intro i
      simp only [decrement_core_occupancy, Function.update_apply]
      split
      · rename_i hi
        have := hl.load_le qp
        omega
      · exact hl.load_le i
    · exact hl
  unfold process_replenish
  dsimp only
  split
  · refine ⟨hroom.only_requests, hroom.load_le, ?_⟩
    intro p hp
    exact hroom.holders p (mem_of_mem_erase hp)
  · exact ⟨hroom.only_requests, hroom.load_le, hroom.holders⟩

theorem init_loaded : (init num_qps).Loaded where
  only_requests := by simp [init]
  load_le := by simp [init, REQ_THRESHOLD]
  holders := by simp [init]

/-- **Room that is made while a request waits** leaves it behind. -/
theorem replenish_leftBehind (hq : d.Queued) (ho : d.InOrder) (hl : d.Loaded)
    (hf : d.rpc_srq.full = false) {qp slot : ℕ} (hheld : (qp, slot) ∈ d.held)
    (hwaits : d.dispatched.length < (requests d.entered).length) :
    (d.process_replenish qp slot true).LeftBehind := by
  obtain ⟨hq', ho'⟩ := replenish_queued hq hf hheld true
  have hdispatched : (d.process_replenish qp slot true).dispatched = d.dispatched ∧
      (d.process_replenish qp slot true).entered = d.entered := by
    obtain ⟨_, heq⟩ := replenish_eq hq hheld true
    rw [heq]
    exact ⟨rfl, rfl⟩
  obtain ⟨hd, he⟩ := hdispatched
  constructor
  · -- the oldest request that waits is still in its slot
    have hn : (d.process_replenish qp slot true).oldest =
        some ((requests d.entered)[d.dispatched.length]) := by
      rw [oldest, hd, he]
      exact getElem?_eq_getElem hwaits
    have hwait := oldest_waits hn
    obtain ⟨hv, hholder, -⟩ := (ho' ho).waiting _ hwait
    refine ⟨_, mem_of_mem_drop hwait, ?_, hv, hholder⟩
    rw [(ho' ho).order]
    intro hmem
    have hsorted := pairwise_requests (d.process_replenish qp slot true).entered
    exact disjoint_take_drop (hsorted.imp ne_of_lt) (le_refl _) hmem hwait
  · -- the core has room now
    have hload := hl.load_le qp
    have hqp := hl.holders _ hheld
    have hroom : (d.process_replenish qp slot true).rpcs_per_core qp ≤ REQ_THRESHOLD ∧
        (d.process_replenish qp slot true).rpc_cores = d.rpc_cores := by
      unfold process_replenish
      simp only [if_true]
      split <;> simp [decrement_core_occupancy] <;> omega
    unfold get_avail_core
    rw [find?_isSome]
    refine ⟨qp, ?_, by simpa using hroom.1⟩
    rw [hroom.2]
    exact mem_range.mpr hqp

end Daemon

namespace Loop

variable {s s' : Loop} {l : Label} {num_qps : ℕ}

/-- When everything that came was looked at, no request is left behind. -/
def NoneLeftBehind (s : Loop) : Prop := s.Drained → ¬s.daemon.LeftBehind

/-- Room is made on a core only while all requests that were entered are dispatched. -/
def MakesRoomWhenCaughtUp (s : Loop) : Label → Prop
  | .poll_wq qp => ∀ e ∈ (s.wqs qp).head?, e.2 = true →
      s.daemon.dispatched.length = s.daemon.entered.length
  | _ => True

instance (s : Loop) : ∀ l, Decidable (s.MakesRoomWhenCaughtUp l)
  | .poll_wq qp => inferInstanceAs (Decidable (∀ e ∈ (s.wqs qp).head?, e.2 = true → _))
  | .arrive _ _ _ | .post _ _ _ | .poll_socket _ => isTrue trivial

/-- The step does not free a slot while the queue is full. -/
def FreesBeforeFull (s : Loop) : Label → Prop
  | .poll_wq _ => s.daemon.rpc_srq.srq_full = false
  | _ => True

instance (s : Loop) : ∀ l, Decidable (s.FreesBeforeFull l)
  | .poll_wq _ => inferInstanceAs (Decidable (_ = false))
  | .arrive _ _ _ | .post _ _ _ | .poll_socket _ => isTrue trivial

theorem poll_wq_cases {qp : ℕ} (h : s.next (.poll_wq qp) = some s') :
    ∃ slot dispatch_on_recv, (s.wqs qp).head? = some (slot, dispatch_on_recv) ∧
      (qp, slot) ∈ s.daemon.held ∧
      s'.daemon = s.daemon.process_replenish qp slot dispatch_on_recv := by
  unfold next at h
  dsimp only at h
  split at h
  · cases h
  · rename_i slot dispatch_on_recv rest hwq
    obtain ⟨d, hd, rfl⟩ := map_eq_some_iff.mp h
    obtain ⟨-, hd⟩ := ite_none_left_eq_some.mp hd
    obtain ⟨hheld, rfl⟩ := ite_some_none_eq_some.mp hd
    exact ⟨slot, dispatch_on_recv, by rw [hwq]; rfl, hheld, rfl⟩

/-- A step of the loop, as a step of the daemon. -/
theorem next_cases (h : s.next l = some s') :
    s'.daemon = s.daemon ∨
    (∃ nid qp len, s'.daemon = s.daemon.receive_request nid qp len) ∨
    ∃ qp slot dispatch_on_recv, l = .poll_wq qp ∧
      (s.wqs qp).head? = some (slot, dispatch_on_recv) ∧ (qp, slot) ∈ s.daemon.held ∧
      s'.daemon = s.daemon.process_replenish qp slot dispatch_on_recv := by
  cases l with
  | arrive nid qp len =>
    cases h
    exact .inl rfl
  | post qp slot dispatch_on_recv =>
    cases h
    exact .inl rfl
  | poll_socket nid =>
    unfold next at h
    dsimp only at h
    split at h
    · cases h
    · obtain ⟨d, hd, rfl⟩ := map_eq_some_iff.mp h
      obtain ⟨-, hd⟩ := ite_none_left_eq_some.mp hd
      cases hd
      exact .inr (.inl ⟨_, _, _, rfl⟩)
  | poll_wq qp =>
    obtain ⟨slot, dispatch_on_recv, hhead, hheld, heq⟩ := poll_wq_cases h
    exact .inr (.inr ⟨qp, slot, dispatch_on_recv, rfl, hhead, hheld, heq⟩)

theorem next_caughtUp (hc : s.daemon.CaughtUp) (hroom : s.MakesRoomWhenCaughtUp l)
    (h : s.next l = some s') : s'.daemon.CaughtUp := by
  rcases next_cases h with heq | ⟨nid, qp, len, heq⟩ | ⟨qp, slot, dispatch_on_recv, rfl, hhead, -, heq⟩
  · rw [heq]
    exact hc
  · rw [heq]
    exact Daemon.request_caughtUp hc nid qp len
  · rw [heq]
    exact Daemon.replenish_caughtUp hc qp slot (hroom _ hhead)

theorem next_loaded (hq : s.daemon.Queued) (ho : s.daemon.InOrder) (hl : s.daemon.Loaded)
    (hfree : s.FreesBeforeFull l) (h : s.next l = some s') :
    s'.daemon.Queued ∧ s'.daemon.InOrder ∧ s'.daemon.Loaded := by
  rcases next_cases h with heq | ⟨nid, qp, len, heq⟩ | ⟨qp, slot, dispatch_on_recv, rfl, -, hheld, heq⟩
  · rw [heq]
    exact ⟨hq, ho, hl⟩
  · rw [heq]
    rw [← and_assoc]
    refine ⟨?_, Daemon.request_loaded hl nid qp len⟩
    cases hf : s.daemon.rpc_srq.full with
    | true =>
      simp only [Daemon.receive_request, RpcSrq.srq_full, hf, Bool.not_true, Bool.false_eq_true,
        if_false]
      exact ⟨hq, ho⟩
    | false =>
      have hnext : s.daemon.next (.request nid qp len) =
          some (s.daemon.receive_request nid qp len) := by
        simp [Daemon.next, ho.running]
      refine Daemon.next_inv hq ho hf ?_ hnext
      intro _ n _
      -- no response comes before any request
      have henter : ∀ a ∈ (s.daemon.enter ⟨nid, .request qp, len⟩).entered, a.isRequest = true := by
        intro a ha
        rcases mem_append.mp ha with ha | ha
        · exact hl.only_requests a ha
        · rw [mem_singleton.mp ha]
          rfl
      rw [Daemon.responsesBefore_eq_zero henter]
      rfl
  · rw [heq]
    obtain ⟨hq', ho'⟩ := Daemon.replenish_queued hq hfree hheld dispatch_on_recv
    exact ⟨hq', ho' ho, Daemon.replenish_loaded hl qp slot dispatch_on_recv⟩

/-- **No request is left behind** in the runs that make room on a core only while no request
    waits; and a step that makes it while one waits, and is the last thing to be looked at, leaves
    it behind, in the runs that free no slot of a full queue. -/
theorem none_left_behind :
    (∀ ls s, (system num_qps).run (init num_qps) ls = some s →
      (system num_qps).Always MakesRoomWhenCaughtUp (init num_qps) ls →
      (system num_qps).Throughout NoneLeftBehind (init num_qps) ls) ∧
    (∀ ls l s s', (system num_qps).run (init num_qps) ls = some s → s.next l = some s' →
      (system num_qps).Always FreesBeforeFull (init num_qps) (ls ++ [l]) →
      ¬s.MakesRoomWhenCaughtUp l → s'.Drained → s'.daemon.LeftBehind) := by
  constructor
  · intro ls s _ hroom
    have hgood : ∀ s : Loop, s.daemon.CaughtUp → s.NoneLeftBehind :=
      fun _ hc _ => hc.not_leftBehind
    exact System.throughout_under hgood (fun _ _ _ => next_caughtUp)
      Daemon.init_caughtUp hroom
  · intro ls l s s' hrun hnext hfree hroom _
    obtain ⟨hfree, hlast, -⟩ := (System.always_append hrun).mp hfree
    obtain ⟨hq, ho, hl⟩ := System.invariant_under
      (fun s : Loop => s.daemon.Queued ∧ s.daemon.InOrder ∧ s.daemon.Loaded)
      (fun s l s' hi hf h => next_loaded hi.1 hi.2.1 hi.2.2 hf h)
      ⟨Daemon.init_queued, Daemon.init_inOrder, Daemon.init_loaded⟩ hfree hrun
    cases l with
    | poll_wq qp =>
      obtain ⟨slot, dispatch_on_recv, hhead, hheld, heq⟩ := poll_wq_cases hnext
      obtain ⟨hroom, hne⟩ : dispatch_on_recv = true ∧
          s.daemon.dispatched.length ≠ s.daemon.entered.length := by
        simpa [MakesRoomWhenCaughtUp, hhead] using hroom
      rw [heq, hroom]
      apply Daemon.replenish_leftBehind hq ho hl hlast hheld
      -- all messages are requests, and not all of them are dispatched
      have hcount := Arrival.countP_add_length_requests s.daemon.entered
      have hnone : s.daemon.entered.countP Arrival.isResponse = 0 := by
        apply countP_eq_zero.mpr
        intro a ha
        simp [Arrival.isResponse, hl.only_requests a ha]
      have hle := ho.dispatched_le
      omega
    | arrive nid qp len | post qp slot dispatch_on_recv | poll_socket nid => exact absurd trivial hroom

/-- One core takes three requests; the fourth one waits, and room is to be made for it. -/
def fourth_waits : List Label :=
  [.arrive 1 0 64, .poll_socket 1, .arrive 1 0 64, .poll_socket 1, .arrive 1 0 64, .poll_socket 1,
    .arrive 1 0 64, .poll_socket 1, .post 0 0 true]

/-- When the room is made, nothing more is to be looked at. -/
theorem drained_of_fourth {s : Loop} (h : (system 1).run (init 1) (fourth_waits ++ [.poll_wq 0]) = some s) :
    s.Drained := by
  cases h
  refine ⟨fun nid => ?_, fun qp => ?_⟩
  · match nid with
    | 0 | 1 | _ + 2 => rfl
  · match qp with
    | 0 | _ + 1 => rfl

/-- A slot is given back while no request waits, and while the fourth one does. -/
theorem none_left_behind_two_requests :
    (let ls : List Label := [.arrive 1 0 64, .poll_socket 1, .post 0 0 true, .poll_wq 0,
        .arrive 1 0 64, .poll_socket 1]
      ∃ s, (system 1).run (init 1) ls = some s ∧
        (system 1).Throughout NoneLeftBehind (init 1) ls) ∧
    ∃ s, (system 1).run (init 1) (fourth_waits ++ [.poll_wq 0]) = some s ∧ s.daemon.LeftBehind :=
  ⟨⟨_, rfl, none_left_behind.1 _ _ rfl (by decide +kernel)⟩,
    _, rfl, (@none_left_behind 1).2 fourth_waits (.poll_wq 0) _ _ rfl rfl (by decide +kernel)
      (by decide +kernel) (drained_of_fourth rfl)⟩

/-- The fourth request is left behind. -/
theorem request_left_behind :
    ¬∀ num_qps ls s, (system num_qps).run (init num_qps) ls = some s →
      (system num_qps).Throughout NoneLeftBehind (init num_qps) ls := by
  intro h
  have hend := (h 1 (fourth_waits ++ [.poll_wq 0]) _ rfl).last rfl
  exact hend (drained_of_fourth rfl) ⟨⟨3, by decide +kernel⟩, by decide +kernel⟩

end Loop

end Sonuma
