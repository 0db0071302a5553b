import AdvCompArch.Grappa.StealQueue
import AdvCompArch.Lib.Census
import AdvCompArch.Lib.Transition
import Mathlib.Algebra.BigOperators.Fin

/-! # Work stealing conserves the tasks

    A core that steals sends a request; its victim reserves a segment of its stack and
    sends a reply whose payload is that piece of memory.  The reply's message object
    goes the way of every message (`Transport`): the payload is read when some core
    delivers or serializes it, and the count of the victim goes down with the final
    `mark_sent` on the victim.

    `StealInv` relates the count of each queue to the replies that are on their way and
    says that what they point to has not changed.  `steal_queue_conservation` is what
    follows for every interleaving. -/

namespace Grappa

open Function Option Multiset List

/-- What a reply's payload pointer denotes: `amt` tasks from index `start` of the victim's stack. -/
structure Segment where
  start : ℕ
  amt : ℕ
  deriving DecidableEq

/-- A steal request on its way to its victim. -/
structure StealRequest (n : ℕ) where
  victim : Fin n
  origin : Fin n
  max_steal : ℤ

/-- The message object of a successful reply.  `stolen` is for the proofs: the tasks that were
    reserved. -/
structure StealReply (n : ℕ) (T : Type) where
  victim : Fin n
  origin : Fin n
  msg : Transport Segment
  stolen : List T

/-- A serialized reply on its way to the origin. -/
structure StealCopy (n : ℕ) (T : Type) where
  origin : Fin n
  stealAmt : ℕ
  payload : List T

/-- The queues of all cores and the messages in flight.  `pushed` and `popped` are for the
    statement: all tasks that were pushed and popped by the owners. -/
structure StealState (n : ℕ) (T : Type) where
  queue : Fin n → Queue T
  requests : List (StealRequest n)
  replies : List (StealReply n T)
  copies : List (StealCopy n T)
  pushed : Multiset T
  popped : Multiset T

inductive StealLabel (n : ℕ) (T : Type) where
  | push (c : Fin n) (t : T)
  | pop (c : Fin n)
  | steal_locally (c victim : Fin n) (max_steal : ℤ)
  /-- A request is delivered to its victim. -/
  | request (i : ℕ)
  /-- A step on the message object of a reply. -/
  | reply (i : ℕ) (l : TransportLabel)
  /-- A serialized reply is received by its origin. -/
  | receive (i : ℕ)

namespace StealState

variable {n : ℕ} {T : Type}

/-- The message made by `send_heap_message`, as enqueued by core `mycore`. -/
def send_heap_message (mycore dest : Core) (seg : Segment) : Transport Segment :=
  Transport.enqueue mycore dest .coreData
    ⟨{ MessageBase.make dest with delete_after_send := true }, seg, .idle⟩

/-- The request on the victim. -/
def serve (s : StealState n T) (r : StealRequest n) : StealState n T :=
  let q := s.queue r.victim
  let stealAmt := q.stealAmt r.max_steal
  if 0 < stealAmt then
    let start := (toInt q.bottom).toNat
    { s with
      queue := Function.update s.queue r.victim (q.reserve (q.stealEnd stealAmt))
      replies := s.replies ++ [⟨r.victim, r.origin,
        send_heap_message r.victim r.origin ⟨start, stealAmt.toNat⟩,
        segment q.stack start stealAmt.toNat⟩] }
  else s

/-- The payload of a reply, as it is in the victim's memory now. -/
def payload (s : StealState n T) (r : StealReply n T) : List T :=
  segment (s.queue r.victim).stack r.msg.storage.start r.msg.storage.amt

/-- What a step on a reply's message object does to the rest: the functor runs on the origin, a
    copy is written to a buffer, or `ExternalCountPayloadMessage::mark_sent` decrements the
    count on the victim. -/
def applyEvent (p : StealParams) (r : StealReply n T) (s : StealState n T) :
    TransportEvent Segment → Option (StealState n T)
  | .ran _ seg =>
    ((s.queue r.origin).receive_reply p seg.amt (s.payload r) (seg.amt * p.sizeofT)).map fun q =>
      { s with queue := Function.update s.queue r.origin q }
  | .sent _ seg => some { s with copies := s.copies ++ [⟨r.origin, seg.amt, s.payload r⟩] }
  | .final _ =>
    let q := s.queue r.victim
    if q.numVictimSegments > 0 then
      some { s with
        queue := Function.update s.queue r.victim
          { q with numVictimSegments := q.numVictimSegments - 1 } }
    else none

/-- One step.  A step whose `CHECK` fails is not possible: the program ends there. -/
def step (p : StealParams) (locale_of : Core → ℤ) (s : StealState n T) :
    StealLabel n T → Option (StealState n T)
  | .push c t =>
    ((s.queue c).push p t).map fun q =>
      { s with queue := Function.update s.queue c q, pushed := t ::ₘ s.pushed }
  | .pop c =>
    (s.queue c).pop.map fun r =>
      { s with queue := Function.update s.queue c r.2, popped := r.1 ::ₘ s.popped }
  | .steal_locally c victim max_steal =>
    -- the amount is the `int` of a flag
    if victim ≠ c ∧ -2 ^ 31 ≤ max_steal ∧ max_steal < 2 ^ 31 then
      some { s with
        queue := Function.update s.queue c (s.queue c).try_reclaim
        requests := s.requests ++ [⟨victim, c, max_steal⟩] }
    else none
  | .request i =>
    match s.requests[i]? with
    | none => none
    | some r => some ({ s with requests := s.requests.eraseIdx i }.serve r)
  | .reply i l =>
    match s.replies[i]? with
    | none => none
    | some r =>
      match r.msg.step locale_of l with
      | none => none
      | some (m, es) =>
        (es.foldlM (applyEvent p r) s).map fun s =>
          { s with replies := s.replies.set i { r with msg := m } }
  | .receive i =>
    match s.copies[i]? with
    | none => none
    | some m =>
      -- the length of the payload went through a 16-bit field
      ((s.queue m.origin).receive_reply p m.stealAmt m.payload
          (Int.bmod (m.stealAmt * p.sizeofT) (2 ^ 16))).map fun q =>
        { s with queue := Function.update s.queue m.origin q, copies := s.copies.eraseIdx i }

/-- Empty queues, whatever is in their memory. -/
def start (memory : Fin n → ℕ → T) : StealState n T :=
  ⟨fun c => ⟨0, 0, 0, memory c⟩, [], [], [], 0, 0⟩

end StealState

/-- Work stealing between `n` cores. -/
def stealing {n : ℕ} {T : Type} (p : StealParams) (locale_of : Core → ℤ)
    (memory : Fin n → ℕ → T) : Transition.System (StealState n T) (StealLabel n T) :=
  ⟨.start memory, StealState.step p locale_of⟩

/-- The reply's payload has not been read yet. -/
def StealReply.outbound {n : ℕ} {T : Type} (r : StealReply n T) : Bool :=
  !r.msg.msg.is_sent && r.msg.msg.destination == r.origin

namespace StealState

variable {n : ℕ} {T : Type}

/-- The tasks in `[bottom, top)` of all queues. -/
def stored (s : StealState n T) : Multiset T := ∑ c, ((s.queue c).tasks : Multiset T)

/-- The tasks that a reply's message object carries, as they are in memory. -/
def carriedBy (s : StealState n T) (r : StealReply n T) : List T :=
  if r.outbound then s.payload r else []

/-- The tasks of the steal replies in flight. -/
def carried (s : StealState n T) : Multiset T :=
  (s.replies.map fun r => (s.carriedBy r : Multiset T)).sum +
    (s.copies.map fun m => (m.payload : Multiset T)).sum

/-- What work stealing is to keep: no task is lost or doubled; the count of a queue is that of the
    replies that are not marked sent for good; and a segment that is still to be read is below
    `bottom` and as it was when it was reserved. -/
structure Conserved (s : StealState n T) : Prop where
  tasks : s.stored + s.carried + s.popped = s.pushed
  nodup : s.pushed.Nodup → (s.stored + s.carried).Nodup
  counts : ∀ v, (s.queue v).numVictimSegments =
    s.replies.countP fun r => r.victim = v ∧ r.msg.msg.is_sent = false
  segments : ∀ r ∈ s.replies, r.outbound = true →
    r.msg.storage.start + r.msg.storage.amt ≤ (s.queue r.victim).bottom ∧ s.payload r = r.stolen

/-! ### The invariant -/

/-- The tasks that a reply still owes to its origin. -/
def owed (r : StealReply n T) : Multiset T := if r.outbound then (r.stolen : Multiset T) else 0

/-- One reply and the queues. -/
structure ReplyOk (queue : Fin n → Queue T) (r : StealReply n T) : Prop where
  ne : r.victim ≠ r.origin
  length : r.stolen.length = r.msg.storage.amt
  kept : r.outbound = true →
    r.msg.storage.start + r.msg.storage.amt ≤ (queue r.victim).bottom ∧
      segment (queue r.victim).stack r.msg.storage.start r.msg.storage.amt = r.stolen

/-- The invariant, up to the places of the message objects. -/
structure StealInv (p : StealParams) (s : StealState n T) : Prop where
  bounds : ∀ c, (s.queue c).InBounds p
  replies : ∀ r ∈ s.replies, ReplyOk s.queue r
  counts : ∀ v, (s.queue v).numVictimSegments =
    s.replies.countP fun r => r.victim = v ∧ r.msg.msg.is_sent = false
  copies : ∀ m ∈ s.copies, m.payload.length = m.stealAmt
  requests : ∀ r ∈ s.requests, r.victim ≠ r.origin ∧ -2 ^ 31 ≤ r.max_steal
  tasks : s.stored + (s.replies.map owed).sum +
    (s.copies.map fun m => (m.payload : Multiset T)).sum + s.popped = s.pushed

/-- Every message object is in one of the phases of its life. -/
def Phases (locale_of : Core → ℤ) (s : StealState n T) : Prop :=
  ∀ r ∈ s.replies, ∃ ph, Transport.InPhase locale_of r.victim r.origin ph r.msg

theorem sum_update (queue : Fin n → Queue T) (c : Fin n) (q : Queue T) :
    (∑ k, ((Function.update queue c q k).tasks : Multiset T)) + ((queue c).tasks : Multiset T) =
      (∑ k, ((queue k).tasks : Multiset T)) + (q.tasks : Multiset T) := by
  have hsum := Census.sum_add_of_eq_off (Finset.mem_univ c)
    (g := fun k => ((update queue c q k).tasks : Multiset T))
    (f := fun k => ((queue k).tasks : Multiset T)) fun k _ hk => by rw [update_of_ne hk]
  rwa [update_self] at hsum

theorem sum_update_append {queue : Fin n → Queue T} {c : Fin n} {q : Queue T} {ts : List T}
    (h : q.tasks = (queue c).tasks ++ ts) :
    (∑ k, ((Function.update queue c q k).tasks : Multiset T)) =
      (∑ k, ((queue k).tasks : Multiset T)) + (ts : Multiset T) := by
  have hsum := sum_update queue c q
  rw [h, ← coe_add, add_comm ((queue c).tasks : Multiset T), ← add_assoc] at hsum
  exact add_right_cancel hsum

theorem exists_split {α : Type} {l : List α} {i : ℕ} {a : α} (h : l[i]? = some a) :
    ∃ l₁ l₂, l = l₁ ++ a :: l₂ ∧ (∀ b, l.set i b = l₁ ++ b :: l₂) ∧ l.eraseIdx i = l₁ ++ l₂ := by
  obtain ⟨hi, ha⟩ := List.getElem?_eq_some_iff.mp h
  refine ⟨l.take i, l.drop (i + 1), ?_, ?_, ?_⟩
  · rw [← ha, ← drop_eq_getElem_cons hi, take_append_drop]
  · intro b
    rw [set_eq_take_append_cons_drop, if_pos hi]
  · exact eraseIdx_eq_take_drop_succ l i

variable {p : StealParams} {s s' : StealState n T}

theorem StealInv.count_ne_zero (h : StealInv p s) {r : StealReply n T} (hr : r ∈ s.replies)
    (hsent : r.msg.msg.is_sent = false) : (s.queue r.victim).numVictimSegments ≠ 0 := by
  rw [h.counts]
  apply ne_of_gt
  exact countP_pos_iff.mpr ⟨r, hr, by simp [hsent]⟩

theorem sent_of_outbound {r : StealReply n T} (h : r.outbound = true) :
    r.msg.msg.is_sent = false := by
  unfold StealReply.outbound at h
  simp only [Bool.and_eq_true, Bool.not_eq_true'] at h
  exact h.1

/-- **What the other operations leave alone**: an operation on one queue that keeps the segments
    keeps the bounds, the replies and the counts. -/
theorem StealInv.keeps (h : StealInv p s) {c : Fin n} {q : Queue T} (hq : (s.queue c).Keeps p q) :
    (∀ k, (Function.update s.queue c q k).InBounds p) ∧
      (∀ r ∈ s.replies, ReplyOk (Function.update s.queue c q) r) ∧
      ∀ v, (Function.update s.queue c q v).numVictimSegments =
        s.replies.countP fun r => r.victim = v ∧ r.msg.msg.is_sent = false := by
  refine ⟨?_, ?_, ?_⟩
  · intro k
    by_cases hk : k = c
    · rw [hk, update_self]
      exact hq.bounds
    · rw [update_of_ne hk]
      exact h.bounds k
  · intro r hr
    obtain ⟨hne, hlen, hkept⟩ := h.replies r hr
    refine ⟨hne, hlen, ?_⟩
    intro hout
    obtain ⟨hle, hseg⟩ := hkept hout
    by_cases hv : r.victim = c
    · -- the reply is counted, so nothing below `bottom` changes
      obtain ⟨hbottom, hsame⟩ := hq.below (hv ▸ h.count_ne_zero hr (sent_of_outbound hout))
      rw [hv] at hle hseg
      rw [hv, update_self]
      refine ⟨hle.trans hbottom, ?_⟩
      rw [← hseg]
      apply Queue.segment_congr
      intro i _ hi
      exact hsame i (by omega)
    · rw [update_of_ne hv]
      exact ⟨hle, hseg⟩
  · intro v
    by_cases hv : v = c
    · rw [hv, update_self, hq.count]
      exact h.counts c
    · rw [update_of_ne hv]
      exact h.counts v

/-! ### Every step keeps the invariant -/

theorem stealInv_push (h : StealInv p s) {c : Fin n} {t : T} {q : Queue T}
    (hq : (s.queue c).push p t = some q) :
    StealInv p { s with queue := update s.queue c q, pushed := t ::ₘ s.pushed } := by
  obtain ⟨hkeeps, htasks⟩ := Queue.push_spec (h.bounds c) hq
  obtain ⟨hbounds, hreplies, hcounts⟩ := h.keeps hkeeps
  refine ⟨hbounds, hreplies, hcounts, h.copies, h.requests, ?_⟩
  unfold stored
  simp only
  rw [sum_update_append htasks, ← h.tasks, ← singleton_add, ← coe_singleton]
  unfold stored
  abel

theorem stealInv_pop (h : StealInv p s) {c : Fin n} {t : T} {q : Queue T}
    (hq : (s.queue c).pop = some (t, q)) :
    StealInv p { s with queue := update s.queue c q, popped := t ::ₘ s.popped } := by
  obtain ⟨hkeeps, htasks⟩ := Queue.pop_spec (h.bounds c) hq
  obtain ⟨hbounds, hreplies, hcounts⟩ := h.keeps hkeeps
  refine ⟨hbounds, hreplies, hcounts, h.copies, h.requests, ?_⟩
  have hsum := sum_update s.queue c q
  rw [htasks, ← coe_add, coe_singleton] at hsum
  -- the popped task moves from the queue to the popped ones
  have hstored : (∑ k, ((update s.queue c q k).tasks : Multiset T)) + {t} = s.stored := by
    apply add_right_cancel (b := (q.tasks : Multiset T))
    unfold stored
    rw [← hsum]
    abel
  rw [← h.tasks, ← hstored, ← singleton_add]
  unfold stored
  simp only
  abel

theorem stealInv_steal_locally (h : StealInv p s) {c victim : Fin n} {max_steal : ℤ}
    (hne : victim ≠ c) (hmax : -2 ^ 31 ≤ max_steal) :
    StealInv p { s with
      queue := update s.queue c (s.queue c).try_reclaim
      requests := s.requests ++ [⟨victim, c, max_steal⟩] } := by
  obtain ⟨hkeeps, htasks⟩ := Queue.try_reclaim_spec (h.bounds c)
  obtain ⟨hbounds, hreplies, hcounts⟩ := h.keeps hkeeps
  refine ⟨hbounds, hreplies, hcounts, h.copies, ?_, ?_⟩
  · intro r hr
    rcases mem_append.mp hr with hr | hr
    · exact h.requests r hr
    · obtain rfl := List.mem_singleton.mp hr
      exact ⟨hne, hmax⟩
  · have hstored := sum_update_append
      (show (s.queue c).try_reclaim.tasks = (s.queue c).tasks ++ [] by rw [htasks, append_nil])
    rw [coe_nil, add_zero] at hstored
    unfold stored
    simp only
    rw [hstored]
    exact h.tasks

theorem outbound_send_heap_message {victim origin : Fin n} {seg : Segment} {ts : List T} :
    StealReply.outbound ⟨victim, origin, send_heap_message victim origin seg, ts⟩ = true := by
  simp [StealReply.outbound, send_heap_message, Transport.enqueue, MessageBase.enqueue,
    MessageBase.make]

theorem stealInv_serve (h : StealInv p s) {r : StealRequest n} (hne : r.victim ≠ r.origin)
    (hmax : -2 ^ 31 ≤ r.max_steal) : StealInv p (s.serve r) := by
  unfold serve
  simp only
  split_ifs with hok
  · obtain ⟨amt, hamt, hstart, hstop, hbounds, htasks⟩ :=
      Queue.reserve_spec hmax (h.bounds r.victim) hok
    rw [hamt, Int.toNat_natCast, hstart, hstop]
    refine ⟨?_, ?_, ?_, h.copies, h.requests, ?_⟩
    · intro k
      by_cases hk : k = r.victim
      · simp only [hk, update_self]
        exact hbounds
      · simp only [update_of_ne hk]
        exact h.bounds k
    · intro r' hr'
      rcases mem_append.mp hr' with hr' | hr'
      · -- `bottom` only moves up, and the memory is the same
        obtain ⟨hne', hlen, hkept⟩ := h.replies r' hr'
        refine ⟨hne', hlen, ?_⟩
        intro hout
        obtain ⟨hle, hseg⟩ := hkept hout
        by_cases hv : r'.victim = r.victim
        · rw [hv] at hle hseg ⊢
          simp only [update_self]
          exact ⟨hle.trans (Nat.le_add_right _ _), hseg⟩
        · simp only [update_of_ne hv]
          exact ⟨hle, hseg⟩
      · obtain rfl := List.mem_singleton.mp hr'
        refine ⟨hne, Queue.length_segment _ _ _, ?_⟩
        intro _
        simp only [update_self]
        exact ⟨le_refl _, rfl⟩
    · intro v
      simp only [countP_append, countP_singleton]
      by_cases hv : v = r.victim
      · rw [hv]
        simp only [update_self]
        rw [← h.counts r.victim]
        simp [Queue.reserve, send_heap_message, Transport.enqueue, MessageBase.enqueue,
          MessageBase.make]
      · simp only [update_of_ne hv, Ne.symm hv, false_and, decide_false,
          Bool.false_eq_true, if_false, add_zero]
        exact h.counts v
    · -- the reserved tasks move from the queue to the reply
      have hsum := sum_update s.queue r.victim
        ((s.queue r.victim).reserve ((s.queue r.victim).bottom + amt))
      rw [htasks, ← coe_add, ← add_assoc] at hsum
      have hstored := add_right_cancel hsum
      rw [← h.tasks]
      unfold stored at hstored ⊢
      rw [← hstored]
      simp only [List.map_append, List.map_cons, List.map_nil, List.sum_append, List.sum_cons,
        sum_nil, owed, outbound_send_heap_message, if_true]
      abel
  · exact h

/-- The same reply, with nothing left to read. -/
structure IsRead (r r' : StealReply n T) : Prop where
  victim : r'.victim = r.victim
  origin : r'.origin = r.origin
  storage : r'.msg.storage = r.msg.storage
  stolen : r'.stolen = r.stolen
  outbound : r'.outbound = false

theorem ReplyOk.read {queue : Fin n → Queue T} {r r' : StealReply n T} (h : ReplyOk queue r)
    (hr : IsRead r r') : ReplyOk queue r' := by
  refine ⟨by rw [hr.victim, hr.origin]; exact h.ne, by rw [hr.stolen, hr.storage]; exact h.length, ?_⟩
  intro hout
  rw [hr.outbound] at hout
  cases hout

/-- The replies and the counts after the payload of one was read. -/
theorem StealInv.set_read {queue : Fin n → Queue T} {replies : List (StealReply n T)}
    (hreplies : ∀ r ∈ replies, ReplyOk queue r)
    (hcounts : ∀ v, (queue v).numVictimSegments =
      replies.countP fun r => r.victim = v ∧ r.msg.msg.is_sent = false)
    {i : ℕ} {r r' : StealReply n T} (hi : replies[i]? = some r) (hread : IsRead r r')
    (hsent : r.msg.msg.is_sent = false) (hsent' : r'.msg.msg.is_sent = false) :
    (∀ r ∈ replies.set i r', ReplyOk queue r) ∧
      ∀ v, (queue v).numVictimSegments =
        (replies.set i r').countP fun r => r.victim = v ∧ r.msg.msg.is_sent = false := by
  obtain ⟨l₁, l₂, hl, hset, -⟩ := exists_split hi
  rw [hset]
  rw [hl] at hreplies hcounts
  refine ⟨?_, ?_⟩
  · intro x hx
    simp only [List.mem_append, List.mem_cons] at hx
    rcases hx with hx | hx | hx
    · exact hreplies x (by simp [hx])
    · rw [hx]
      exact (hreplies r (by simp)).read hread
    · exact hreplies x (by simp [hx])
  · intro v
    rw [hcounts]
    simp only [List.countP_append, List.countP_cons, hread.victim, hsent, hsent']

theorem StealInv.payload_eq (h : StealInv p s) {i : ℕ} {r : StealReply n T}
    (hi : s.replies[i]? = some r) (hout : r.outbound = true) :
    s.payload r = r.stolen ∧ r.stolen.length = r.msg.storage.amt := by
  have hok := h.replies r (mem_of_getElem? hi)
  exact ⟨(hok.kept hout).2, hok.length⟩

theorem stealInv_ran (h : StealInv p s) {i : ℕ} {r r' : StealReply n T}
    (hi : s.replies[i]? = some r) (hout : r.outbound = true) (hread : IsRead r r')
    (hsent' : r'.msg.msg.is_sent = false) {q : Queue T} {size : ℤ}
    (hq : (s.queue r.origin).receive_reply p r.msg.storage.amt (s.payload r) size = some q) :
    StealInv p { s with
      queue := update s.queue r.origin q, replies := s.replies.set i r' } := by
  obtain ⟨hpayload, hlen⟩ := h.payload_eq hi hout
  rw [hpayload] at hq
  obtain ⟨hkeeps, htasks⟩ := Queue.receive_reply_spec (h.bounds r.origin) hlen hq
  obtain ⟨hbounds, hreplies, hcounts⟩ := h.keeps hkeeps
  obtain ⟨hreplies', hcounts'⟩ :=
    StealInv.set_read hreplies hcounts hi hread (sent_of_outbound hout) hsent'
  refine ⟨hbounds, hreplies', hcounts', h.copies, h.requests, ?_⟩
  obtain ⟨l₁, l₂, hl, hset, -⟩ := exists_split hi
  rw [← h.tasks, hset]
  unfold stored
  simp only
  rw [sum_update_append htasks, hl]
  simp only [List.map_append, List.map_cons, List.sum_append, List.sum_cons, owed, hout,
    hread.outbound, if_true, Bool.false_eq_true, if_false]
  abel

theorem stealInv_sent (h : StealInv p s) {i : ℕ} {r r' : StealReply n T}
    (hi : s.replies[i]? = some r) (hout : r.outbound = true) (hread : IsRead r r')
    (hsent' : r'.msg.msg.is_sent = false) :
    StealInv p { s with
      copies := s.copies ++ [⟨r.origin, r.msg.storage.amt, s.payload r⟩]
      replies := s.replies.set i r' } := by
  obtain ⟨hpayload, hlen⟩ := h.payload_eq hi hout
  obtain ⟨hreplies', hcounts'⟩ :=
    StealInv.set_read h.replies h.counts hi hread (sent_of_outbound hout) hsent'
  refine ⟨h.bounds, hreplies', hcounts', ?_, h.requests, ?_⟩
  · intro m hm
    rcases mem_append.mp hm with hm | hm
    · exact h.copies m hm
    · obtain rfl := List.mem_singleton.mp hm
      rw [hpayload]
      exact hlen
  · obtain ⟨l₁, l₂, hl, hset, -⟩ := exists_split hi
    rw [← h.tasks, hset, hpayload, hl]
    simp only [stored, List.map_append, List.map_cons, List.map_nil, List.sum_append,
      List.sum_cons, List.sum_nil, owed, hout, hread.outbound, if_true, Bool.false_eq_true,
      if_false]
    abel

/-- **The final `mark_sent`**: the count goes down with the reply that is not counted any more. -/
theorem stealInv_final (h : StealInv p s) {i : ℕ} {r r' : StealReply n T}
    (hi : s.replies[i]? = some r) (hout : r.outbound = false) (hread : IsRead r r')
    (hsent : r.msg.msg.is_sent = false) (hsent' : r'.msg.msg.is_sent = true) :
    (s.queue r.victim).numVictimSegments > 0 ∧
    StealInv p { s with
      queue := update s.queue r.victim
        { s.queue r.victim with
          numVictimSegments := (s.queue r.victim).numVictimSegments - 1 }
      replies := s.replies.set i r' } := by
  have hpos := Nat.pos_of_ne_zero (h.count_ne_zero (mem_of_getElem? hi) hsent)
  have hsame : ∀ k, (update s.queue r.victim { s.queue r.victim with
        numVictimSegments := (s.queue r.victim).numVictimSegments - 1 } k).bottom =
          (s.queue k).bottom ∧
      (update s.queue r.victim { s.queue r.victim with
        numVictimSegments := (s.queue r.victim).numVictimSegments - 1 } k).top =
          (s.queue k).top ∧
      (update s.queue r.victim { s.queue r.victim with
        numVictimSegments := (s.queue r.victim).numVictimSegments - 1 } k).stack =
          (s.queue k).stack := by
    intro k
    by_cases hk : k = r.victim
    · rw [hk, update_self]
      exact ⟨rfl, rfl, rfl⟩
    · rw [update_of_ne hk]
      exact ⟨rfl, rfl, rfl⟩
  obtain ⟨l₁, l₂, hl, hset, -⟩ := exists_split hi
  refine ⟨hpos, ⟨?_, ?_, ?_, h.copies, h.requests, ?_⟩⟩
  · intro k
    obtain ⟨hb, ht, -⟩ := hsame k
    show _ ≤ _ ∧ _ ≤ _
    rw [hb, ht]
    exact h.bounds k
  · intro x hx
    have hx' : ReplyOk s.queue x := by
      rw [hset] at hx
      simp only [List.mem_append, List.mem_cons] at hx
      rcases hx with hx | hx | hx
      · exact h.replies x (by simp [hl, hx])
      · rw [hx]
        exact (h.replies r (by simp [hl])).read hread
      · exact h.replies x (by simp [hl, hx])
    refine ⟨hx'.ne, hx'.length, ?_⟩
    obtain ⟨hb, -, hst⟩ := hsame x.victim
    simp only [hb, hst]
    exact hx'.kept
  · intro v
    have hold := h.counts v
    rw [hl] at hold
    rw [hset]
    simp only [List.countP_append, List.countP_cons, hread.victim, hsent, hsent'] at hold ⊢
    by_cases hv : v = r.victim
    · rw [hv] at hold ⊢
      simp only [update_self]
      simp only [true_and, decide_true, if_true, Bool.true_eq_false, decide_false,
        Bool.false_eq_true, if_false] at hold ⊢
      omega
    · simp only [update_of_ne hv]
      simp only [Ne.symm hv, false_and, decide_false, Bool.false_eq_true, if_false] at hold ⊢
      exact hold
  · have hstored : (∑ k, ((update s.queue r.victim { s.queue r.victim with
        numVictimSegments := (s.queue r.victim).numVictimSegments - 1 } k).tasks : Multiset T)) =
        s.stored := by
      apply Finset.sum_congr rfl
      intro k _
      obtain ⟨hb, ht, hst⟩ := hsame k
      unfold Queue.tasks
      rw [hb, ht, hst]
    rw [← h.tasks, hset, ← hstored, hl]
    simp only [stored, List.map_append, List.map_cons, List.sum_append, List.sum_cons, owed, hout,
      hread.outbound, Bool.false_eq_true, if_false]

theorem stealInv_receive (h : StealInv p s) {i : ℕ} {m : StealCopy n T}
    (hi : s.copies[i]? = some m) {q : Queue T} {size : ℤ}
    (hq : (s.queue m.origin).receive_reply p m.stealAmt m.payload size = some q) :
    StealInv p { s with
      queue := update s.queue m.origin q, copies := s.copies.eraseIdx i } := by
  have hlen := h.copies m (mem_of_getElem? hi)
  obtain ⟨hkeeps, htasks⟩ := Queue.receive_reply_spec (h.bounds m.origin) hlen hq
  obtain ⟨hbounds, hreplies, hcounts⟩ := h.keeps hkeeps
  obtain ⟨l₁, l₂, hl, -, herase⟩ := exists_split hi
  refine ⟨hbounds, hreplies, hcounts, ?_, h.requests, ?_⟩
  · intro x hx
    apply h.copies x
    rw [hl]
    simp only [herase, mem_append] at hx
    simp only [List.mem_append, List.mem_cons]
    tauto
  · rw [← h.tasks, herase, hl]
    unfold stored
    simp only
    rw [sum_update_append htasks]
    simp only [List.map_append, List.map_cons, List.sum_append, List.sum_cons]
    abel

/-! ### The message objects -/

section phases

variable {locale_of : Core → ℤ} {r : StealReply n T} {m : Transport Segment}

theorem natCast_ne {v o : Fin n} (h : v ≠ o) : ((v : ℕ) : Core) ≠ (o : ℕ) := by
  intro heq
  exact h (Fin.ext (Int.ofNat_inj.mp heq))

theorem outbound_of_phase (h : Transport.InPhase locale_of r.victim r.origin .outbound m) :
    StealReply.outbound { r with msg := m } = true ∧ m.msg.is_sent = false := by
  have hsent : m.msg.is_sent = false := by simpa using h.sent
  refine ⟨?_, hsent⟩
  unfold StealReply.outbound
  simp only [hsent, (h.outbound rfl).1]
  simp

theorem returning_of_phase (hne : r.victim ≠ r.origin)
    (h : Transport.InPhase locale_of r.victim r.origin .returning m) :
    StealReply.outbound { r with msg := m } = false ∧ m.msg.is_sent = false := by
  have hsent : m.msg.is_sent = false := by simpa using h.sent
  refine ⟨?_, hsent⟩
  unfold StealReply.outbound
  simp only [(h.returning rfl).1]
  simp [natCast_ne hne]

theorem done_of_phase (h : Transport.InPhase locale_of r.victim r.origin .done m) :
    StealReply.outbound { r with msg := m } = false ∧ m.msg.is_sent = true := by
  have hsent : m.msg.is_sent = true := by simpa using h.sent
  refine ⟨?_, hsent⟩
  unfold StealReply.outbound
  simp [hsent]

theorem stealInv_set (h : StealInv p s) {i : ℕ} {r r' : StealReply n T}
    (hi : s.replies[i]? = some r) (hr' : r' = { r with msg := r'.msg })
    (hstorage : r'.msg.storage = r.msg.storage) (hout : r'.outbound = r.outbound)
    (hsent : r'.msg.msg.is_sent = r.msg.msg.is_sent) :
    StealInv p { s with replies := s.replies.set i r' } := by
  obtain ⟨l₁, l₂, hl, hset, -⟩ := exists_split hi
  have hvictim : r'.victim = r.victim := by rw [hr']
  have horigin : r'.origin = r.origin := by rw [hr']
  have hstolen : r'.stolen = r.stolen := by rw [hr']
  refine ⟨h.bounds, ?_, ?_, h.copies, h.requests, ?_⟩
  · intro x hx
    simp only [hset, List.mem_append, List.mem_cons] at hx
    rcases hx with hx | hx | hx
    · exact h.replies x (by simp [hl, hx])
    · obtain ⟨hne, hlen, hkept⟩ := h.replies r (by simp [hl])
      rw [hx]
      refine ⟨?_, ?_, ?_⟩
      · rw [hvictim, horigin]
        exact hne
      · rw [hstolen, hstorage]
        exact hlen
      · rw [hout, hvictim, hstorage, hstolen]
        exact hkept
    · exact h.replies x (by simp [hl, hx])
  · intro v
    have hold := h.counts v
    rw [hl] at hold
    simp only [hset, List.countP_append, List.countP_cons, hvictim, hsent] at hold ⊢
    exact hold
  · rw [← h.tasks, hset, hl]
    simp only [stored, List.map_append, List.map_cons, List.sum_append, List.sum_cons, owed, hout,
      hstolen]

theorem stealInv_read (h : StealInv p s) {i : ℕ} {r r' : StealReply n T}
    (hi : s.replies[i]? = some r) (hout : r.outbound = true) (hread : IsRead r r')
    (hsent' : r'.msg.msg.is_sent = false) {e : TransportEvent Segment}
    (he : e = .ran r.origin r.msg.storage ∨ e = .sent r.origin r.msg.storage)
    (happly : applyEvent p r s e = some s') :
    s'.replies = s.replies ∧ StealInv p { s' with replies := s.replies.set i r' } := by
  rcases he with rfl | rfl
  · obtain ⟨q, hq, rfl⟩ := map_eq_some_iff.mp happly
    exact ⟨rfl, stealInv_ran h hi hout hread hsent' hq⟩
  · cases happly
    exact ⟨rfl, stealInv_sent h hi hout hread hsent'⟩

theorem applyEvent_final {c : Core} (hpos : (s.queue r.victim).numVictimSegments > 0)
    (h : applyEvent p r s (.final c) = some s') :
    s' = { s with
      queue := update s.queue r.victim
        { s.queue r.victim with
          numVictimSegments := (s.queue r.victim).numVictimSegments - 1 } } := by
  unfold applyEvent at h
  simp only [if_pos hpos] at h
  exact (some.inj h).symm

/-- **A step on a reply's message object** keeps the invariant, whatever it does. -/
theorem stealInv_reply (h : StealInv p s) {i : ℕ} {r : StealReply n T}
    (hi : s.replies[i]? = some r) {ph : Transport.Phase}
    (hph : Transport.InPhase locale_of r.victim r.origin ph r.msg) {l : TransportLabel}
    {m : Transport Segment} {es : List (TransportEvent Segment)}
    (hstep : r.msg.step locale_of l = some (m, es))
    (happly : es.foldlM (applyEvent p r) s = some s') :
    s'.replies = s.replies ∧ StealInv p { s' with replies := s.replies.set i { r with msg := m } } := by
  have hne := (h.replies r (mem_of_getElem? hi)).ne
  cases ph with
  | outbound =>
    obtain ⟨hout, hsent⟩ := outbound_of_phase hph
    obtain ⟨hstorage, ⟨hm, rfl⟩ | ⟨e, he, ⟨hm, rfl⟩ | ⟨hm, rfl⟩⟩⟩ :=
      Transport.step_outbound hph hstep
    · -- still on its way
      cases happly
      obtain ⟨hout', hsent'⟩ := outbound_of_phase hm
      exact ⟨rfl, stealInv_set h hi rfl hstorage (hout'.trans hout.symm) (hsent'.trans hsent.symm)⟩
    · obtain ⟨hout', hsent'⟩ := returning_of_phase hne hm
      have happly' : applyEvent p r s e = some s' := by simpa using happly
      exact stealInv_read h hi hout ⟨rfl, rfl, hstorage, rfl, hout'⟩ hsent' he happly'
    · -- the source itself read it: as if it had come back first
      obtain ⟨hout', hsent'⟩ := done_of_phase hm
      obtain ⟨s₁, happly₁, hfinal⟩ : ∃ s₁, applyEvent p r s e = some s₁ ∧
          applyEvent p r s₁ (.final r.victim) = some s' := by
        simpa [foldlM, bind_eq_some_iff] using happly
      obtain ⟨back, hback⟩ : ∃ back : StealReply n T, back =
          { r with msg := { r.msg with msg := { r.msg.msg with destination := r.victim } } } :=
        ⟨_, rfl⟩
      have hbackout : back.outbound = false := by
        rw [hback]
        simp [StealReply.outbound, natCast_ne hne]
      have hbacksent : back.msg.msg.is_sent = false := by
        rw [hback]
        exact hsent
      have hread : IsRead r back := by
        rw [hback] at hbackout ⊢
        exact ⟨rfl, rfl, rfl, rfl, hbackout⟩
      have hread' : IsRead back { r with msg := m } := by
        rw [hback]
        exact ⟨rfl, rfl, hstorage, rfl, hout'⟩
      obtain ⟨hreplies₁, hinv₁⟩ := stealInv_read h hi hout hread hbacksent he happly₁
      have hi₁ : (s.replies.set i back)[i]? = some back :=
        List.getElem?_set_self (List.getElem?_eq_some_iff.mp hi).1
      obtain ⟨hpos, hinv⟩ := stealInv_final hinv₁ hi₁ hbackout hread' hbacksent hsent'
      rw [hread.victim] at hpos hinv
      rw [set_set] at hinv
      have hpos₁ : (s₁.queue r.victim).numVictimSegments > 0 := hpos
      obtain rfl := applyEvent_final hpos₁ hfinal
      exact ⟨hreplies₁, hinv⟩
  | returning =>
    obtain ⟨hout, hsent⟩ := returning_of_phase hne hph
    obtain ⟨hstorage, ⟨hm, rfl⟩ | ⟨hm, rfl⟩⟩ := Transport.step_returning hph hstep
    · cases happly
      obtain ⟨hout', hsent'⟩ := returning_of_phase hne hm
      exact ⟨rfl, stealInv_set h hi rfl hstorage (hout'.trans hout.symm) (hsent'.trans hsent.symm)⟩
    · -- back at its source
      obtain ⟨hout', hsent'⟩ := done_of_phase hm
      have hfinal : applyEvent p r s (.final r.victim) = some s' := by simpa using happly
      have hread : IsRead r { r with msg := m } := ⟨rfl, rfl, hstorage, rfl, hout'⟩
      obtain ⟨hpos, hinv⟩ := stealInv_final h hi hout hread hsent hsent'
      obtain rfl := applyEvent_final hpos hfinal
      exact ⟨rfl, hinv⟩
  | done =>
    rw [Transport.step_done hph] at hstep
    cases hstep

theorem exists_phase_step {v o : Core} {x : Transport Segment} {ph : Transport.Phase}
    (hph : Transport.InPhase locale_of v o ph x) {l : TransportLabel}
    {es : List (TransportEvent Segment)} (hstep : x.step locale_of l = some (m, es)) :
    ∃ ph, Transport.InPhase locale_of v o ph m := by
  cases ph with
  | outbound =>
    obtain ⟨-, ⟨hm, -⟩ | ⟨e, -, ⟨hm, -⟩ | ⟨hm, -⟩⟩⟩ := Transport.step_outbound hph hstep
    · exact ⟨_, hm⟩
    · exact ⟨_, hm⟩
    · exact ⟨_, hm⟩
  | returning =>
    obtain ⟨-, ⟨hm, -⟩ | ⟨hm, -⟩⟩ := Transport.step_returning hph hstep
    · exact ⟨_, hm⟩
    · exact ⟨_, hm⟩
  | done =>
    rw [Transport.step_done hph] at hstep
    cases hstep

theorem phase_send_heap_message {victim origin : Fin n} (seg : Segment) :
    Transport.InPhase locale_of victim origin .outbound (send_heap_message victim origin seg) := by
  apply Transport.enqueue_outbound rfl rfl rfl
  exact nofun

/-- **Invariant step.** -/
theorem stealInv_step (h : StealInv p s) (hph : Phases locale_of s) {l : StealLabel n T}
    (hstep : s.step p locale_of l = some s') : StealInv p s' ∧ Phases locale_of s' := by
  cases l with
  | push c t =>
    obtain ⟨q, hq, rfl⟩ := map_eq_some_iff.mp hstep
    exact ⟨stealInv_push h hq, hph⟩
  | pop c =>
    obtain ⟨⟨t, q⟩, hq, rfl⟩ := map_eq_some_iff.mp hstep
    exact ⟨stealInv_pop h hq, hph⟩
  | steal_locally c victim max_steal =>
    obtain ⟨⟨hne, hmax, -⟩, rfl⟩ := ite_some_none_eq_some.mp hstep
    exact ⟨stealInv_steal_locally h hne hmax, hph⟩
  | request i =>
    unfold step at hstep
    cases hi : s.requests[i]? with
    | none => simp [hi] at hstep
    | some r =>
      simp only [hi, some.injEq] at hstep
      obtain ⟨hne, hmax⟩ := h.requests r (mem_of_getElem? hi)
      have hless : StealInv p { s with requests := s.requests.eraseIdx i } :=
        ⟨h.bounds, h.replies, h.counts, h.copies,
          fun r' hr' => h.requests r' (mem_of_mem_eraseIdx hr'), h.tasks⟩
      subst hstep
      refine ⟨stealInv_serve hless hne hmax, ?_⟩
      unfold serve
      simp only
      split_ifs
      · intro r' hr'
        rcases mem_append.mp hr' with hr' | hr'
        · exact hph r' hr'
        · obtain rfl := List.mem_singleton.mp hr'
          exact ⟨.outbound, phase_send_heap_message _⟩
      · exact hph
  | reply i l =>
    unfold step at hstep
    cases hi : s.replies[i]? with
    | none => simp [hi] at hstep
    | some r =>
      obtain ⟨ph, hr⟩ := hph r (mem_of_getElem? hi)
      cases hl : r.msg.step locale_of l with
      | none => simp [hi, hl] at hstep
      | some me =>
        obtain ⟨m, es⟩ := me
        simp only [hi, hl, map_eq_some_iff] at hstep
        obtain ⟨t, happly, rfl⟩ := hstep
        obtain ⟨hreplies, hinv⟩ := stealInv_reply h hi hr hl happly
        rw [hreplies]
        refine ⟨hinv, ?_⟩
        intro r' hr'
        rcases mem_or_eq_of_mem_set hr' with hr' | rfl
        · exact hph r' hr'
        · exact exists_phase_step hr hl
  | receive i =>
    unfold step at hstep
    cases hi : s.copies[i]? with
    | none => simp [hi] at hstep
    | some m =>
      simp only [hi, map_eq_some_iff] at hstep
      obtain ⟨q, hq, rfl⟩ := hstep
      exact ⟨stealInv_receive h hi hq, hph⟩

end phases

theorem StealInv.conserved (h : StealInv p s) : Conserved s := by
  have hseg : ∀ r ∈ s.replies, r.outbound = true →
      r.msg.storage.start + r.msg.storage.amt ≤ (s.queue r.victim).bottom ∧
        s.payload r = r.stolen := by
    intro r hr hout
    exact (h.replies r hr).kept hout
  have hcarried : s.carried = (s.replies.map owed).sum +
      (s.copies.map fun m => (m.payload : Multiset T)).sum := by
    unfold carried
    congr 2
    apply map_congr_left
    intro r hr
    unfold carriedBy owed
    split_ifs with hout
    · rw [(hseg r hr hout).2]
    · rfl
  have htasks : s.stored + s.carried + s.popped = s.pushed := by
    rw [hcarried, ← h.tasks]
    abel
  refine ⟨htasks, ?_, h.counts, hseg⟩
  intro hnodup
  apply nodup_of_le _ hnodup
  rw [← htasks]
  exact le_add_right _ _

theorem stealInv_start (memory : Fin n → ℕ → T) : StealInv p (start memory) := by
  refine ⟨?_, ?_, ?_, ?_, ?_, ?_⟩
  · intro c
    exact ⟨Nat.le_refl 0, Nat.zero_le _⟩
  · intro r hr
    cases hr
  · intro v
    rfl
  · intro m hm
    cases hm
  · intro r hr
    cases hr
  · have hstored : (start memory).stored = 0 := Finset.sum_eq_zero fun c _ => rfl
    rw [hstored]
    rfl

end StealState

/-- **Work stealing conserves the tasks**: in every state that the cores can reach by pushing,
    popping, stealing, moving message objects and receiving copies in any order. -/
theorem steal_queue_conservation {n : ℕ} {T : Type} (p : StealParams) (locale_of : Core → ℤ)
    (memory : Fin n → ℕ → T) (s : StealState n T)
    (hs : (stealing p locale_of memory).Reachable s) : s.Conserved := by
  have hinv : StealState.StealInv p s ∧ StealState.Phases locale_of s := by
    apply hs.invariant fun s => StealState.StealInv p s ∧ StealState.Phases locale_of s
    · refine ⟨StealState.stealInv_start memory, ?_⟩
      intro r hr
      cases hr
    · intro s l s' h hstep
      exact StealState.stealInv_step h.1 h.2 hstep
  exact hinv.1.conserved

/-- Two cores, in two locales, with queues of 16 tasks. -/
def twoQueues : Transition.System (StealState 2 ℕ) (StealLabel 2 ℕ) :=
  stealing ⟨16, by norm_num, 8⟩ (fun c => c) fun _ _ => 0

theorem steal_queue_conservation_two_cores :
    ∃ s, twoQueues.run twoQueues.init [.push 0 10, .push 0 11, .push 0 12, .push 0 13,
        .steal_locally 1 0 5, .request 0, .pop 0, .reply 0 .publish, .reply 0 (.grab 0),
        .reply 0 (.serialize_to true), .receive 0, .pop 1] = some s ∧ s.Conserved := by
  have hsome : (twoQueues.run twoQueues.init [.push 0 10, .push 0 11, .push 0 12, .push 0 13,
      .steal_locally 1 0 5, .request 0, .pop 0, .reply 0 .publish, .reply 0 (.grab 0),
      .reply 0 (.serialize_to true), .receive 0, .pop 1]).isSome = true := by
    decide
  obtain ⟨s, hs⟩ := isSome_iff_exists.mp hsome
  exact ⟨s, hs, steal_queue_conservation _ _ _ s ⟨_, hs⟩⟩

end Grappa
