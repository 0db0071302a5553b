import AdvCompArch.Sonuma.CompletionQueue
import Mathlib.Data.List.Infix
import Mathlib.Data.List.Nodup

/-! # Dispatch of remote procedure calls

    The loop of the daemon enters every request and response that comes over a socket in the
    shared receive queue.  A response goes to the queue pair that it names; a request makes
    the daemon look for a core with few requests, to which it gives the entry at
    `dispatch_slot`.  The application frees a slot by a replenish entry of its work queue. -/

namespace Sonuma

open Function Transition Option List

def REQ_THRESHOLD : ℤ := 2

/-- What an `'s'` message is: a new request of a queue pair, or the response to one. -/
inductive SendKind where
  | request (senders_qp : ℕ)
  /-- With terminate flag `'t'`. -/
  | response (qp_to_terminate : ℕ)
  deriving DecidableEq

/-- A message that is entered in the shared receive queue. -/
structure Arrival where
  sending_nid : ℕ
  kind : SendKind
  payload_len : ℕ
  deriving DecidableEq

namespace Arrival

/-- The sending queue pair is set for a request only. -/
def newEntry (a : Arrival) : RpcSrqEntry :=
  match a.kind with
  | .request qp => ⟨a.sending_nid, some qp, 0, a.payload_len, false⟩
  | .response _ => ⟨a.sending_nid, none, 0, a.payload_len, false⟩

def isRequest (a : Arrival) : Bool :=
  match a.kind with
  | .request _ => true
  | .response _ => false

def isResponse (a : Arrival) : Bool := !a.isRequest

/-! ### Requests and responses among messages -/

/-- The numbers of the requests, in the order of their arrival. -/
def requests (l : List Arrival) : List ℕ :=
  l.zipIdx.filterMap fun p => if p.1.isRequest then some p.2 else none

/-- The queue pairs named in the responses, and their numbers. -/
def responses (l : List Arrival) : List (ℕ × ℕ) :=
  l.zipIdx.filterMap fun p =>
    match p.1.kind with
    | .request _ => none
    | .response qp => some (qp, p.2)

/-- The number of responses among the first `n` messages. -/
def responsesBefore (l : List Arrival) (n : ℕ) : ℕ := (l.take n).countP isResponse

theorem requests_snoc (l : List Arrival) (a : Arrival) :
    requests (l ++ [a]) = requests l ++ if a.isRequest then [l.length] else [] := by
  unfold requests
  rw [zipIdx_append, filterMap_append]
  cases ha : a.isRequest <;> simp [ha]

theorem responses_snoc (l : List Arrival) (a : Arrival) :
    responses (l ++ [a]) = responses l ++
      match a.kind with
      | .request _ => []
      | .response qp => [(qp, l.length)] := by
  unfold responses
  rw [zipIdx_append, filterMap_append]
  cases ha : a.kind <;> simp [ha]

theorem lt_of_mem_requests {l : List Arrival} {n : ℕ} (h : n ∈ requests l) : n < l.length := by
  obtain ⟨⟨a, m⟩, hm, heq⟩ := mem_filterMap.mp h
  obtain ⟨-, rfl⟩ := ite_some_none_eq_some.mp heq
  simpa using (mem_zipIdx hm).2.1

theorem pairwise_requests (l : List Arrival) : (requests l).Pairwise (· < ·) := by
  induction l using reverseRecOn with
  | nil => exact List.Pairwise.nil
  | append_singleton l a ih =>
    rw [requests_snoc]
    apply pairwise_append.mpr
    refine ⟨ih, by split <;> simp, ?_⟩
    intro n hn m hm
    split at hm
    · rw [mem_singleton.mp hm]
      exact lt_of_mem_requests hn
    · cases hm

/-- A message is a request or a response. -/
theorem countP_add_length_requests (l : List Arrival) :
    l.countP isResponse + (requests l).length = l.length := by
  induction l using reverseRecOn with
  | nil => rfl
  | append_singleton l a ih =>
    rw [requests_snoc, countP_append, length_append, length_append, ← ih]
    cases ha : a.isRequest <;> simp [isResponse, ha] <;> omega

theorem responsesBefore_add {l : List Arrival} {d n : ℕ} (h : (requests l)[d]? = some n) :
    responsesBefore l n + d = n := by
  unfold responsesBefore
  induction l using reverseRecOn with
  | nil => simp [requests] at h
  | append_singleton l a ih =>
    rw [requests_snoc] at h
    by_cases hd : d < (requests l).length
    · rw [getElem?_append_left hd] at h
      have hn := lt_of_mem_requests (mem_of_getElem? h)
      rw [take_append_of_le_length (le_of_lt hn)]
      exact ih h
    · -- the last message is the request
      rw [getElem?_append_right (by omega)] at h
      cases ha : a.isRequest with
      | false => simp [ha] at h
      | true =>
        rw [ha, if_pos rfl, getElem?_singleton] at h
        obtain ⟨hz, rfl⟩ := ite_some_none_eq_some.mp h
        rw [take_left]
        have := countP_add_length_requests l
        omega

end Arrival

structure Daemon where
  rpc_srq : RpcSrq
  rpcs_per_core : ℕ → ℤ
  rpc_cores : ℕ
  /-- The events told to each completion queue. -/
  cqs : ℕ → List CqEvent
  /-- All messages that were entered in the shared receive queue. -/
  entered : List Arrival
  /-- The number, in `entered`, of the message that a slot was given to last. -/
  holder : ℕ → ℕ
  /-- The dispatches of requests: the core, and the number of the message in the slot. -/
  dispatched : List (ℕ × ℕ)
  /-- The deliveries of responses, alike. -/
  responded : List (ℕ × ℕ)
  /-- The slots told to a queue pair and not yet freed by it. -/
  held : List (ℕ × ℕ)
  /-- An assertion has failed. -/
  aborted : Bool

namespace Daemon

inductive Label where
  | request (sending_nid senders_qp payload_len : ℕ)
  | response (sending_nid qp_to_terminate payload_len : ℕ)
  | nack (sending_nid qp_to_terminate : ℕ)
  /-- A `'g'` entry of the work queue. -/
  | replenish (qp_num slot_idx : ℕ) (dispatch_on_recv : Bool)
  deriving DecidableEq

variable (s : Daemon)

def get_avail_core : Option ℕ :=
  (range s.rpc_cores).find? fun i => s.rpcs_per_core i ≤ REQ_THRESHOLD

def decrement_core_occupancy (core_id : ℕ) : Daemon :=
  { s with rpcs_per_core := Function.update s.rpcs_per_core core_id (s.rpcs_per_core core_id - 1) }

def increment_core_occupancy (core_id : ℕ) : Daemon :=
  { s with rpcs_per_core := Function.update s.rpcs_per_core core_id (s.rpcs_per_core core_id + 1) }

/-- An entry of a completion queue is written. -/
def tell (qp : ℕ) (ev : CqEvent) : Daemon :=
  { s with cqs := Function.update s.cqs qp (s.cqs qp ++ [ev]) }

/-- A message is entered in the shared receive queue and copied into the slot. -/
def enter (a : Arrival) : Daemon :=
  { s with
    rpc_srq := (s.rpc_srq.enqueue_in_srq a.newEntry).2
    entered := s.entered ++ [a]
    holder := Function.update s.holder s.rpc_srq.head s.entered.length }

/-- The head of the queue is dispatched to a core. -/
def dispatch (dispatch_core_id : ℕ) : Daemon :=
  match s.rpc_srq.get_dispatch_entry_from_srq with
  | some (some e, srq) =>
    { s with
      rpc_srq := srq
      dispatched := s.dispatched ++ [(dispatch_core_id, s.holder s.rpc_srq.dispatch_slot)]
      held := s.held ++ [(dispatch_core_id, e.slot_idx)] }
    |>.tell dispatch_core_id (.request e.sending_nid e.sending_qp e.slot_idx e.length)
    |>.increment_core_occupancy dispatch_core_id
  -- nothing was written to `rpc_to_dispatch`, or the assertion failed
  | _ => { s with aborted := true }

def receive_request (sending_nid senders_qp payload_len : ℕ) : Daemon :=
  if !s.rpc_srq.srq_full then
    let t := s.enter ⟨sending_nid, .request senders_qp, payload_len⟩
    match t.get_avail_core with
    | some dispatch_core_id => t.dispatch dispatch_core_id
    | none => t
  else s -- a NACK goes back

def receive_response (sending_nid qp_to_terminate payload_len : ℕ) : Daemon :=
  if !s.rpc_srq.srq_full then
    let t := s.enter ⟨sending_nid, .response qp_to_terminate, payload_len⟩
    { t with
      responded := t.responded ++ [(qp_to_terminate, s.entered.length)]
      held := t.held ++ [(qp_to_terminate, s.rpc_srq.head)] }
    |>.tell qp_to_terminate (.response sending_nid s.rpc_srq.head payload_len)
  else { s with aborted := true }

def process_replenish (qp_num slot_idx : ℕ) (dispatch_on_recv : Bool) : Daemon :=
  let t := if dispatch_on_recv then s.decrement_core_occupancy qp_num else s
  match t.rpc_srq.reset_srq_entry_invalid slot_idx with
  | some (true, srq) => { t with rpc_srq := srq, held := t.held.erase (qp_num, slot_idx) }
  | _ => { t with aborted := true }

/-- The loop is left where an assertion fails.  A queue pair frees the slots that it was told. -/
def next (l : Label) : Option Daemon :=
  if s.aborted then none
  else match l with
    | .request nid qp len => some (s.receive_request nid qp len)
    | .response nid qp len => if qp < s.rpc_cores then some (s.receive_response nid qp len) else none
    | .nack nid qp => if qp < s.rpc_cores then some (s.tell qp (.nack nid)) else none
    | .replenish qp slot dispatch =>
      if (qp, slot) ∈ s.held then some (s.process_replenish qp slot dispatch) else none

def init (num_qps : ℕ) : Daemon :=
  ⟨RpcSrq.srq_init, fun _ => 0, num_qps, fun _ => [], [], fun _ => 0, [], [], [], false⟩

def system (num_qps : ℕ) : Transition.System Daemon Label where
  init := init num_qps
  next := next

open Arrival

/-! ### The ring against the messages entered -/

/-- A valid slot holds a message of its place in the ring, and the slots that the queue pairs hold
    are valid ones. -/
structure Queued : Prop where
  srq : s.rpc_srq.Inv
  head : s.rpc_srq.head = s.entered.length % MAX_NUM_SRQ_SLOTS
  slots : ∀ i < MAX_NUM_SRQ_SLOTS, (s.rpc_srq.q i).valid = true →
    s.holder i % MAX_NUM_SRQ_SLOTS = i ∧ (s.rpc_srq.q i).slot_idx = i
  held_valid : ∀ p ∈ s.held, p.2 < MAX_NUM_SRQ_SLOTS ∧ (s.rpc_srq.q p.2).valid = true
  held_nodup : (s.held.map Prod.snd).Nodup

/-- The dispatched messages are the oldest requests, and the slots of the others still hold them. -/
structure InOrder : Prop where
  slot : s.rpc_srq.dispatch_slot = s.dispatched.length % MAX_NUM_SRQ_SLOTS
  order : s.dispatched.map Prod.snd = (requests s.entered).take s.dispatched.length
  waiting : ∀ n ∈ (requests s.entered).drop s.dispatched.length,
    (s.rpc_srq.q (n % MAX_NUM_SRQ_SLOTS)).valid = true ∧ s.holder (n % MAX_NUM_SRQ_SLOTS) = n ∧
      ∀ p ∈ s.held, p.2 ≠ n % MAX_NUM_SRQ_SLOTS
  responded : s.responded = responses s.entered
  running : s.aborted = false

variable {s} {s' : Daemon} {a : Arrival} {num_qps : ℕ}

theorem init_queued : (init num_qps).Queued where
  srq := RpcSrq.init_inv
  head := rfl
  slots := by intro i _ h; cases h
  held_valid := by simp [init]
  held_nodup := by simp [init]

theorem init_inOrder : (init num_qps).InOrder where
  slot := rfl
  order := rfl
  waiting := by simp [init, requests]
  responded := rfl
  running := rfl

theorem InOrder.dispatched_le (ho : s.InOrder) :
    s.dispatched.length ≤ (requests s.entered).length := by
  have := congrArg length ho.order
  rw [length_map, length_take] at this
  omega

/-! ### A message is entered -/

theorem enter_eq (hf : s.rpc_srq.full = false) : s.enter a =
    { s with
      rpc_srq := { s.rpc_srq with
        q := update s.rpc_srq.q s.rpc_srq.head (s.rpc_srq.placed a.newEntry)
        head := (s.rpc_srq.head + 1) % MAX_NUM_SRQ_SLOTS
        full := (s.rpc_srq.head + 1) % MAX_NUM_SRQ_SLOTS == s.rpc_srq.tail }
      entered := s.entered ++ [a]
      holder := update s.holder s.rpc_srq.head s.entered.length } := by
  simp [enter, RpcSrq.enqueue_in_srq, RpcSrq.srq_full, hf, RpcSrq.advance_srq_head]

/-- The slot at the head is free. -/
theorem Queued.head_free (hq : s.Queued) (hf : s.rpc_srq.full = false) {i : ℕ}
    (hv : (s.rpc_srq.q i).valid = true) : i ≠ s.rpc_srq.head := by
  rintro rfl
  have := hq.srq.full_iff.mpr hv
  rw [RpcSrq.srq_full, hf] at this
  cases this

theorem nodup_hold {held : List (ℕ × ℕ)} (hnodup : (held.map Prod.snd).Nodup) {qp slot : ℕ}
    (hfree : ∀ p ∈ held, p.2 ≠ slot) : ((held ++ [(qp, slot)]).map Prod.snd).Nodup := by
  rw [map_append, map_singleton, nodup_append]
  refine ⟨hnodup, nodup_singleton _, ?_⟩
  intro i hi j hj
  obtain ⟨p, hp, rfl⟩ := mem_map.mp hi
  rw [mem_singleton.mp hj]
  exact hfree p hp

theorem enter_queued (hq : s.Queued) (hf : s.rpc_srq.full = false) (a : Arrival) :
    (s.enter a).Queued := by
  have hsrq : (s.enter a).rpc_srq.Inv := RpcSrq.enqueue_inv hq.srq a.newEntry
  rw [enter_eq hf] at hsrq ⊢
  constructor
  case srq => exact hsrq
  case head =>
    simp only [length_append, length_singleton, hq.head]
    rw [Nat.mod_add_mod]
  case slots =>
    intro i hi hv
    by_cases hih : i = s.rpc_srq.head
    · subst hih
      simp [RpcSrq.placed, hq.head]
    · simp only [update_of_ne hih] at hv ⊢
      exact hq.slots i hi hv
  case held_valid =>
    intro p hp
    obtain ⟨hlt, hv⟩ := hq.held_valid p hp
    simp only [update_of_ne (hq.head_free hf hv)]
    exact ⟨hlt, hv⟩
  case held_nodup => exact hq.held_nodup

theorem enter_waiting (hq : s.Queued) (ho : s.InOrder) (hf : s.rpc_srq.full = false) {n : ℕ}
    (hn : n ∈ (requests s.entered).drop s.dispatched.length) :
    n % MAX_NUM_SRQ_SLOTS ≠ s.rpc_srq.head ∧
    ((s.enter a).rpc_srq.q (n % MAX_NUM_SRQ_SLOTS)).valid = true ∧
    (s.enter a).holder (n % MAX_NUM_SRQ_SLOTS) = n := by
  obtain ⟨hv, hholder, -⟩ := ho.waiting n hn
  have hne := hq.head_free hf hv
  rw [enter_eq hf]
  simp only [update_of_ne hne]
  exact ⟨hne, hv, hholder⟩

theorem enter_inOrder (hq : s.Queued) (ho : s.InOrder) (hf : s.rpc_srq.full = false)
    (nid qp len : ℕ) : (s.enter ⟨nid, .request qp, len⟩).InOrder := by
  have hreq : requests (s.entered ++ [⟨nid, .request qp, len⟩]) =
      requests s.entered ++ [s.entered.length] := requests_snoc _ _
  have hle := ho.dispatched_le
  constructor
  case slot =>
    rw [enter_eq hf]
    exact ho.slot
  case order =>
    change s.dispatched.map Prod.snd = (requests (s.entered ++ [_])).take s.dispatched.length
    rw [hreq, take_append_of_le_length hle]
    exact ho.order
  case waiting =>
    intro n hn
    change n ∈ (requests (s.entered ++ [_])).drop s.dispatched.length at hn
    rw [hreq, drop_append_of_le_length hle, mem_append, mem_singleton] at hn
    rcases hn with hn | rfl
    · obtain ⟨-, hv, hholder⟩ := enter_waiting hq ho hf hn
      exact ⟨hv, hholder, (ho.waiting n hn).2.2⟩
    · -- the new request has the slot at the head, which nobody held
      rw [enter_eq hf]
      simp only [← hq.head, update_self, RpcSrq.placed, true_and]
      intro p hp
      exact hq.head_free hf (hq.held_valid p hp).2
  case responded =>
    change s.responded = responses (s.entered ++ [_])
    rw [responses_snoc, ho.responded]
    simp
  case running => exact ho.running

/-- **A response** is entered and told to its queue pair. -/
theorem receive_response_inv (hq : s.Queued) (ho : s.InOrder) (hf : s.rpc_srq.full = false)
    (nid qp len : ℕ) :
    (s.receive_response nid qp len).Queued ∧ (s.receive_response nid qp len).InOrder := by
  have hq' := enter_queued hq hf ⟨nid, .response qp, len⟩
  have hreq : requests (s.entered ++ [⟨nid, .response qp, len⟩]) = requests s.entered := by
    rw [requests_snoc]
    simp [isRequest]
  unfold receive_response RpcSrq.srq_full
  rw [hf, Bool.not_false, if_pos rfl]
  constructor
  · constructor
    case srq => exact hq'.srq
    case head => exact hq'.head
    case slots => exact hq'.slots
    case held_valid =>
      intro p hp
      rcases mem_append.mp hp with hp | hp
      · exact hq'.held_valid p hp
      · obtain rfl := mem_singleton.mp hp
        refine ⟨hq.srq.head_lt, ?_⟩
        simp [tell, enter_eq hf, RpcSrq.placed]
    case held_nodup =>
      exact nodup_hold hq.held_nodup fun p hp => hq.head_free hf (hq.held_valid p hp).2
  · constructor
    case slot =>
      change (s.enter _).rpc_srq.dispatch_slot = _
      rw [enter_eq hf]
      exact ho.slot
    case order =>
      change s.dispatched.map Prod.snd = (requests (s.entered ++ [_])).take s.dispatched.length
      rw [hreq]
      exact ho.order
    case waiting =>
      intro n hn
      change n ∈ (requests (s.entered ++ [_])).drop s.dispatched.length at hn
      rw [hreq] at hn
      obtain ⟨hne, hv, hholder⟩ := enter_waiting hq ho hf hn
      refine ⟨hv, hholder, ?_⟩
      intro p hp
      rcases mem_append.mp hp with hp | hp
      · exact (ho.waiting n hn).2.2 p hp
      · obtain rfl := mem_singleton.mp hp
        exact Ne.symm hne
    case responded =>
      change s.responded ++ [(qp, s.entered.length)] = responses (s.entered ++ [_])
      rw [responses_snoc, ho.responded]
    case running => exact ho.running

/-! ### A dispatch -/

/-- The oldest request that was not dispatched. -/
def oldest (s : Daemon) : Option ℕ := (requests s.entered)[s.dispatched.length]?

theorem oldest_waits {n : ℕ} (hn : s.oldest = some n) :
    n ∈ (requests s.entered).drop s.dispatched.length := by
  apply mem_iff_getElem?.mpr
  exact ⟨0, by rw [getElem?_drop, add_zero, ← hn, oldest]⟩

theorem dispatch_eq (hq : s.Queued) (hlt : s.rpc_srq.dispatch_slot < MAX_NUM_SRQ_SLOTS)
    (hv : (s.rpc_srq.q s.rpc_srq.dispatch_slot).valid = true) (core : ℕ) :
    ∃ cqs rpcs_per_core, s.dispatch core =
      { s with
        rpc_srq := s.rpc_srq.advance_dispatch_slot
        dispatched := s.dispatched ++ [(core, s.holder s.rpc_srq.dispatch_slot)]
        held := s.held ++ [(core, s.rpc_srq.dispatch_slot)]
        cqs := cqs
        rpcs_per_core := rpcs_per_core } := by
  have hne : s.rpc_srq.srq_empty = false := by
    by_contra hempty
    rw [hq.srq.empty_iff.mp (by simpa using hempty) _ hlt] at hv
    cases hv
  have hslot := (hq.slots _ hlt hv).2
  simp only [dispatch, RpcSrq.get_dispatch_entry_from_srq, hne, hv, Bool.not_false, if_true]
  rw [hslot]
  exact ⟨_, _, rfl⟩

/-- **A dispatch takes the oldest request** when the responses before it are a multiple of the
    ring, that is, when its place is the one of `dispatch_slot`. -/
theorem dispatch_inOrder (hq : s.Queued) (ho : s.InOrder) {n : ℕ} (hn : s.oldest = some n)
    (hplace : n % MAX_NUM_SRQ_SLOTS = s.rpc_srq.dispatch_slot) (core : ℕ) :
    (s.dispatch core).Queued ∧ (s.dispatch core).InOrder := by
  obtain ⟨hv, hholder, hfree⟩ := ho.waiting n (oldest_waits hn)
  rw [hplace] at hv hholder hfree
  have hlt : s.rpc_srq.dispatch_slot < MAX_NUM_SRQ_SLOTS := by
    rw [← hplace]
    exact Nat.mod_lt _ (by decide)
  obtain ⟨cqs, rpcs_per_core, heq⟩ := dispatch_eq hq hlt hv core
  have hlen : s.dispatched.length < (requests s.entered).length :=
    (List.getElem?_eq_some_iff.mp hn).1
  rw [heq, hholder]
  constructor
  · constructor
    case srq =>
      exact ⟨hq.srq.head_lt, hq.srq.tail_lt, hq.srq.full_eq, hq.srq.tail_valid, hq.srq.inside,
        hq.srq.last_valid⟩
    case head => exact hq.head
    case slots => exact hq.slots
    case held_valid =>
      intro p hp
      rcases mem_append.mp hp with hp | hp
      · exact hq.held_valid p hp
      · obtain rfl := mem_singleton.mp hp
        exact ⟨hlt, hv⟩
    case held_nodup =>
      exact nodup_hold hq.held_nodup hfree
  · constructor
    case slot =>
      simp only [RpcSrq.advance_dispatch_slot, length_append, length_singleton, ho.slot]
      rw [Nat.mod_add_mod]
    case order =>
      simp only [map_append, map_singleton, length_append, length_singleton]
      rw [ho.order, take_add_one, show (requests s.entered)[s.dispatched.length]? = some n from hn]
      rfl
    case waiting =>
      simp only [length_append, length_singleton]
      intro m hm
      have hm' : m ∈ (requests s.entered).drop s.dispatched.length := by
        rw [drop_eq_getElem_cons hlen]
        exact mem_cons_of_mem _ hm
      obtain ⟨hvm, hholderm, hfreem⟩ := ho.waiting m hm'
      refine ⟨hvm, hholderm, ?_⟩
      intro p hp
      rcases mem_append.mp hp with hp | hp
      · exact hfreem p hp
      · obtain rfl := mem_singleton.mp hp
        -- two requests that wait are in different slots
        intro hsame
        simp only at hsame
        rw [← hsame, hholder] at hholderm
        subst hholderm
        have hsorted := (pairwise_requests s.entered).drop (i := s.dispatched.length)
        rw [List.drop_eq_getElem_cons hlen, (List.getElem?_eq_some_iff.mp hn).2] at hsorted
        exact lt_irrefl _ ((pairwise_cons.mp hsorted).1 n hm)
    case responded => exact ho.responded
    case running => exact ho.running

/-! ### A slot is freed -/

theorem replenish_eq (hq : s.Queued) {qp slot : ℕ} (hheld : (qp, slot) ∈ s.held)
    (dispatch_on_recv : Bool) :
    ∃ rpcs_per_core, s.process_replenish qp slot dispatch_on_recv =
      { s with
        rpc_srq := (s.rpc_srq.invalidate slot).advance_srq_tail_multiple
        held := s.held.erase (qp, slot)
        rpcs_per_core := rpcs_per_core } := by
  obtain ⟨hlt, hv⟩ := hq.held_valid _ hheld
  have hreset := hq.srq.reset_eq hlt hv
  cases dispatch_on_recv <;>
    simp only [process_replenish, decrement_core_occupancy, if_true, if_false, Bool.false_eq_true,
      hreset] <;>
    exact ⟨_, rfl⟩

/-- **A queue pair frees a slot** that it was told, in a ring that is not full. -/
theorem replenish_queued (hq : s.Queued) (hf : s.rpc_srq.full = false) {qp slot : ℕ}
    (hheld : (qp, slot) ∈ s.held) (dispatch_on_recv : Bool) :
    (s.process_replenish qp slot dispatch_on_recv).Queued ∧
    (s.InOrder → (s.process_replenish qp slot dispatch_on_recv).InOrder) := by
  obtain ⟨hlt, hv⟩ := hq.held_valid _ hheld
  obtain ⟨hsrq, -⟩ := RpcSrq.reset_inv hq.srq hf hv
  obtain ⟨rpcs_per_core, heq⟩ := replenish_eq hq hheld dispatch_on_recv
  -- the ring after the free, but for its tail
  have hring : (s.rpc_srq.invalidate slot).advance_srq_tail_multiple =
      { s.rpc_srq.invalidate slot with
        tail := (RpcSrq.skip_invalid MAX_NUM_SRQ_SLOTS (s.rpc_srq.invalidate slot)).tail
        full := false } := by
    rw [RpcSrq.advance_srq_tail_multiple, RpcSrq.skip_invalid_eq]
  have hkeep {i : ℕ} (hi : i ≠ slot) :
      ((s.rpc_srq.invalidate slot).advance_srq_tail_multiple.q i) = s.rpc_srq.q i := by
    rw [hring]
    simp [RpcSrq.invalidate, update_of_ne hi]
  have hgone : ((s.rpc_srq.invalidate slot).advance_srq_tail_multiple.q slot).valid = false := by
    rw [hring]
    simp [RpcSrq.invalidate]
  rw [heq]
  constructor
  · constructor
    case srq => exact hsrq
    case head =>
      rw [hring]
      exact hq.head
    case slots =>
      intro i hi hvi
      have hne : i ≠ slot := by
        rintro rfl
        rw [hgone] at hvi
        cases hvi
      rw [hkeep hne] at hvi ⊢
      exact hq.slots i hi hvi
    case held_valid =>
      intro p hp
      have hmem := mem_of_mem_erase hp
      have hne : p.2 ≠ slot := by
        intro heq
        have hpair : p = (qp, slot) :=
          inj_on_of_nodup_map hq.held_nodup hmem hheld heq
        rw [hpair] at hp
        exact (hq.held_nodup.of_map Prod.snd).not_mem_erase hp
      rw [hkeep hne]
      exact hq.held_valid p hmem
    case held_nodup =>
      exact hq.held_nodup.sublist (erase_sublist.map Prod.snd)
  · intro ho
    constructor
    case slot =>
      rw [hring]
      exact ho.slot
    case order => exact ho.order
    case waiting =>
      intro n hn
      obtain ⟨hvn, hholder, hfree⟩ := ho.waiting n hn
      rw [hkeep (Ne.symm (hfree _ hheld))]
      exact ⟨hvn, hholder, fun p hp => hfree p (mem_of_mem_erase hp)⟩
    case responded => exact ho.responded
    case running => exact ho.running

/-! ### The law -/

/-- The dispatched messages are the oldest requests, each of them once and in the order of their
    arrival; each response was told to the queue pair that it names, once; and no assertion has
    failed. -/
structure ExactlyOnce (s : Daemon) : Prop where
  in_order : s.dispatched.map Prod.snd <+: requests s.entered
  responded : s.responded = responses s.entered
  running : s.aborted = false

/-- When a request comes while a core is available, a multiple of `MAX_NUM_SRQ_SLOTS` responses
    has been entered before the oldest request that is not dispatched. -/
def DispatchesOldest (s : Daemon) : Label → Prop
  | .request nid qp len =>
    let t := s.enter ⟨nid, .request qp, len⟩
    s.get_avail_core.isSome → ∀ n ∈ t.oldest, responsesBefore t.entered n % MAX_NUM_SRQ_SLOTS = 0
  | _ => True

instance : ∀ (s : Daemon) (l : Label), Decidable (s.DispatchesOldest l)
  | s, .request nid qp len =>
    inferInstanceAs (Decidable (s.get_avail_core.isSome → ∀ n ∈ (s.enter ⟨nid, .request qp, len⟩).oldest,
      responsesBefore (s.enter ⟨nid, .request qp, len⟩).entered n % MAX_NUM_SRQ_SLOTS = 0))
  | _, .response _ _ _ | _, .nack _ _ | _, .replenish _ _ _ => inferInstanceAs (Decidable True)

theorem InOrder.exactlyOnce (ho : s.InOrder) : s.ExactlyOnce where
  in_order := by
    rw [ho.order]
    exact take_prefix _ _
  responded := ho.responded
  running := ho.running

/-- The oldest request is at the place of `dispatch_slot` exactly when the responses before it are
    a multiple of the ring. -/
theorem place_oldest_iff {n : ℕ} (hslot : s.rpc_srq.dispatch_slot = s.dispatched.length % MAX_NUM_SRQ_SLOTS)
    (hn : s.oldest = some n) :
    n % MAX_NUM_SRQ_SLOTS = s.rpc_srq.dispatch_slot ↔
      responsesBefore s.entered n % MAX_NUM_SRQ_SLOTS = 0 := by
  have hadd := responsesBefore_add hn
  rw [hslot]
  simp only [MAX_NUM_SRQ_SLOTS]
  omega

theorem dispatch_other (hq : s.Queued) {n core : ℕ} (hn : s.oldest = some n)
    (hlt : s.rpc_srq.dispatch_slot < MAX_NUM_SRQ_SLOTS)
    (hplace : n % MAX_NUM_SRQ_SLOTS ≠ s.rpc_srq.dispatch_slot) :
    ¬(s.dispatch core).ExactlyOnce := by
  intro hex
  by_cases hv : (s.rpc_srq.q s.rpc_srq.dispatch_slot).valid = true
  · obtain ⟨cqs, rpcs_per_core, heq⟩ := dispatch_eq hq hlt hv core
    have hpre := hex.in_order
    rw [heq] at hpre
    simp only [map_append, map_singleton] at hpre
    obtain ⟨t, ht⟩ := hpre
    have hn' : s.oldest = some (s.holder s.rpc_srq.dispatch_slot) := by
      rw [oldest, ← ht]
      simp
    obtain rfl := some.inj (hn.symm.trans hn')
    exact hplace (hq.slots _ hlt hv).1
  · have habort : (s.dispatch core).aborted = true := by
      unfold dispatch RpcSrq.get_dispatch_entry_from_srq
      cases s.rpc_srq.srq_empty <;> simp [hv]
    rw [hex.running] at habort
    cases habort

theorem oldest_of_enter (ho : s.InOrder) (nid qp len : ℕ) :
    ∃ n, (s.enter ⟨nid, .request qp, len⟩).oldest = some n := by
  have hle := ho.dispatched_le
  have hlt : s.dispatched.length < (requests (s.entered ++ [⟨nid, .request qp, len⟩])).length := by
    rw [requests_snoc]
    simp only [isRequest, if_true, length_append, length_singleton]
    omega
  exact ⟨_, getElem?_eq_getElem hlt⟩

theorem receive_request_eq (hf : s.rpc_srq.full = false) {nid qp len : ℕ} :
    s.receive_request nid qp len =
      match s.get_avail_core with
      | some core => (s.enter ⟨nid, .request qp, len⟩).dispatch core
      | none => s.enter ⟨nid, .request qp, len⟩ := by
  simp only [receive_request, RpcSrq.srq_full, hf, Bool.not_false, if_true]
  rfl

/-- **Every step** that finds the ring not full and dispatches the oldest request, if any, keeps
    the order. -/
theorem next_inv {l : Label} (hq : s.Queued) (ho : s.InOrder) (hf : s.rpc_srq.full = false)
    (holdest : s.DispatchesOldest l) (h : s.next l = some s') : s'.Queued ∧ s'.InOrder := by
  obtain ⟨-, h⟩ := ite_none_left_eq_some.mp h
  cases l with
  | request nid qp len =>
    cases h
    have hq' := enter_queued hq hf ⟨nid, .request qp, len⟩
    have ho' := enter_inOrder hq ho hf nid qp len
    rw [receive_request_eq hf]
    cases hcore : s.get_avail_core with
    | none => exact ⟨hq', ho'⟩
    | some core =>
      obtain ⟨n, hn⟩ := oldest_of_enter ho nid qp len
      have hcount := holdest (by simp [hcore]) n hn
      exact dispatch_inOrder hq' ho' hn ((place_oldest_iff ho'.slot hn).mpr hcount) core
  | response nid qp len =>
    obtain ⟨-, rfl⟩ := ite_some_none_eq_some.mp h
    exact receive_response_inv hq ho hf nid qp len
  | nack nid qp =>
    obtain ⟨-, rfl⟩ := ite_some_none_eq_some.mp h
    exact ⟨⟨hq.srq, hq.head, hq.slots, hq.held_valid, hq.held_nodup⟩,
      ⟨ho.slot, ho.order, ho.waiting, ho.responded, ho.running⟩⟩
  | replenish qp slot dispatch_on_recv =>
    obtain ⟨hheld, rfl⟩ := ite_some_none_eq_some.mp h
    obtain ⟨hq', ho'⟩ := replenish_queued hq hf hheld dispatch_on_recv
    exact ⟨hq', ho' ho⟩

theorem next_other {l : Label} (hq : s.Queued) (ho : s.InOrder) (hf : s.rpc_srq.full = false)
    (hother : ¬s.DispatchesOldest l) (h : s.next l = some s') : ¬s'.ExactlyOnce := by
  obtain ⟨-, h⟩ := ite_none_left_eq_some.mp h
  cases l with
  | request nid qp len =>
    cases h
    simp only [DispatchesOldest, Classical.not_forall] at hother
    obtain ⟨hsome, n, hn, hcount⟩ := hother
    obtain ⟨core, hcore⟩ := isSome_iff_exists.mp hsome
    have hq' := enter_queued hq hf ⟨nid, .request qp, len⟩
    have ho' := enter_inOrder hq ho hf nid qp len
    rw [receive_request_eq hf, hcore]
    apply dispatch_other hq' hn
    · rw [ho'.slot]
      exact Nat.mod_lt _ (by decide)
    · rw [Ne, place_oldest_iff ho'.slot hn]
      exact hcount
  | response nid qp len | nack nid qp | replenish qp slot dispatch_on_recv =>
    exact absurd trivial hother

/-- **Requests are dispatched once and in order**, and responses go where they are to go, in
    exactly the runs, of those in which the ring is never full, all of whose dispatches find a
    multiple of `MAX_NUM_SRQ_SLOTS` responses before the oldest request. -/
theorem dispatch_exactly_once_iff {ls : List Label}
    (hrun : (system num_qps).run (init num_qps) ls = some s)
    (hfull : (system num_qps).Always (fun s _ => s.rpc_srq.srq_full = false) (init num_qps) ls) :
    (system num_qps).Throughout ExactlyOnce (init num_qps) ls ↔
      (system num_qps).Always DispatchesOldest (init num_qps) ls := by
  have h : (system num_qps).Throughout ExactlyOnce (init num_qps) ls ∧
      (system num_qps).Always (fun _ _ => True) (init num_qps) ls ↔
      (system num_qps).Always DispatchesOldest (init num_qps) ls := by
    apply System.throughout_iff_always_of
      (fun s (hi : s.Queued ∧ s.InOrder) => hi.2.exactlyOnce)
    case hstep => exact fun s l s' hi hf ho hnext => ⟨next_inv hi.1 hi.2 hf ho hnext, trivial⟩
    case hbad => exact fun s l s' hi hf ho hnext hbad => next_other hi.1 hi.2 hf ho hnext hbad.2
    case hs => exact ⟨init_queued, init_inOrder⟩
    case hA => exact hfull
    case hrun => exact hrun
  rw [← h]
  exact ⟨fun hG => ⟨hG, System.always_true _ _⟩, And.left⟩

/-- Two requests are dispatched, the first is answered and freed, and a response comes. -/
theorem dispatch_exactly_once_three :
    let ls : List Label := [.request 1 0 64, .request 2 1 64, .replenish 0 0 true, .response 1 1 64]
    (system 2).Throughout ExactlyOnce (init 2) ls :=
  (dispatch_exactly_once_iff rfl (by decide +kernel)).mpr (by decide +kernel)

/-- A response comes, and then a request: the slot of the response is dispatched as a request. -/
theorem response_dispatched :
    ¬∀ num_qps ls s, (system num_qps).run (init num_qps) ls = some s →
      (system num_qps).Always (fun s _ => s.rpc_srq.srq_full = false) (init num_qps) ls →
      (system num_qps).Throughout ExactlyOnce (init num_qps) ls := by
  intro h
  have hbad := (h 1 [.response 1 0 64, .request 2 0 64] _ rfl (by decide +kernel)).last rfl
  exact absurd hbad.in_order (by decide +kernel)

end Daemon

end Sonuma
