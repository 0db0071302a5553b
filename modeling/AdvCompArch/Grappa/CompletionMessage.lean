import AdvCompArch.Grappa.MessageBase
import AdvCompArch.Lib.Product
import Mathlib.Algebra.BigOperators.Fin
import Mathlib.Algebra.Order.BigOperators.Group.Finset

/-! # Flattened completions

    Each core keeps one `CompletionMessage` for each owner.  `send_completion` sends it,
    or, while it is still on its way, adds to `completes_to_send`, which the message's
    `mark_sent` sends later.

    The two paths do not account alike: a completion that is sent directly carries its
    decrement, one that is flattened counts as one.  `conserved_iff` says when the
    decrements are conserved all the same. -/

namespace Grappa

open Transition List

/-- The completion message of one core towards one owner, with the copies in flight.  The
    last three fields are for the proofs: the decrements asked for, those delivered to the
    owner's `complete`, and those that flattening has dropped. -/
@[ext] structure CompletionCell where
  cm : Transport ℤ
  completes_to_send : ℤ
  in_flight : List ℤ
  requested : ℤ
  delivered : ℤ
  lost : ℤ
  deriving DecidableEq

inductive CompletionLabel where
  | send_completion (dec : ℤ)
  /-- A step on the message object. -/
  | transport (l : TransportLabel)
  /-- A copy carrying `dec` is received by the owner. -/
  | receive (dec : ℤ)
  deriving DecidableEq

/-- A label's decrement is at least one. -/
def CompletionLabel.Positive : CompletionLabel → Prop
  | .send_completion dec => 1 ≤ dec
  | _ => True

namespace CompletionCell

/-- `CompletionMessage(c)`: constructed without a destination. -/
def fresh : CompletionCell := ⟨.make (-1) 0, 0, [], 0, 0, 0⟩

/-- What `CompletionMessage::mark_sent` adds to the inherited `mark_sent` on core `k`.  After a
    re-enqueue `k` is not the source, so only the final `mark_sent` gets here. -/
def mark_sent (owner k : Core) (c : CompletionCell) : CompletionCell :=
  if k = c.cm.msg.source then
    let cm : Transport ℤ := { c.cm with msg := c.cm.msg.reset, place := .idle }
    if c.completes_to_send > 0 then
      { c with
        cm := { cm with storage := c.completes_to_send }.enqueue k owner .coreData
        completes_to_send := 0 }
    else { c with cm := cm }
  else c

/-- The effect of a transport step: the functor `DoComplete` passes its decrement to the
    owner's `complete`. -/
def record (owner : Core) (c : CompletionCell) : TransportEvent ℤ → CompletionCell
  | .ran _ dec => { c with delivered := c.delivered + dec }
  | .sent _ dec => { c with in_flight := c.in_flight ++ [dec] }
  | .final k => c.mark_sent owner k

/-- `send_completion(owner, dec)` on core `me`; `none` if its `CHECK` fails. -/
def send_completion (me owner : Core) (dec : ℤ) (c : CompletionCell) : Option CompletionCell :=
  if owner = me then
    some { c with requested := c.requested + dec, delivered := c.delivered + dec }
  else if c.cm.msg.waiting_to_send then
    some { c with
      completes_to_send := c.completes_to_send + 1
      requested := c.requested + dec
      lost := c.lost + (dec - 1) }
  else if c.completes_to_send = 0 then
    some { c with
      cm := { c.cm with storage := dec }.enqueue me owner .coreData
      requested := c.requested + dec }
  else none

def next (locale_of : Core → ℤ) (me owner : Core) (c : CompletionCell) :
    CompletionLabel → Option CompletionCell
  | .send_completion dec => c.send_completion me owner dec
  | .transport l =>
    match c.cm.step locale_of l with
    | some (cm, es) => some (es.foldl (record owner) { c with cm := cm })
    | none => none
  | .receive dec =>
    if dec ∈ c.in_flight then
      some { c with in_flight := c.in_flight.erase dec, delivered := c.delivered + dec }
    else none

/-- The completion message from `me` to `owner` as a system of its own. -/
def machine (locale_of : Core → ℤ) (me owner : Core) :
    Transition.System CompletionCell CompletionLabel :=
  ⟨fresh, next locale_of me owner⟩

/-- The decrement that the message object still has to deliver. -/
def carried (c : CompletionCell) : ℤ :=
  if c.cm.msg.waiting_to_send = true ∧
      ¬ (c.cm.msg.is_delivered = true ∧ c.cm.msg.destination = c.cm.msg.source) then
    c.cm.storage
  else 0

/-- Everything that was asked for and is still pending or in flight. -/
def pending (c : CompletionCell) : ℤ :=
  c.carried + c.completes_to_send + c.in_flight.sum

/-- What was asked for and has neither left the message object nor been dropped. -/
def owed (c : CompletionCell) : ℤ :=
  c.requested - c.delivered - c.in_flight.sum - c.lost

/-- The step is a `send_completion` that finds the message waiting to be sent. -/
def Flattened (me owner : Core) (c : CompletionCell) (l : CompletionLabel) (dec : ℤ) : Prop :=
  l = .send_completion dec ∧ owner ≠ me ∧ c.cm.msg.waiting_to_send = true

/-- Flattened completions decrement by one. -/
def FlattensOne (me owner : Core) (c : CompletionCell) (l : CompletionLabel) : Prop :=
  ∀ dec, Flattened me owner c l dec → dec = 1

/-! ### The invariant of one completion message -/

variable {locale_of : Core → ℤ} {me owner : Core} {c c' : CompletionCell}

/-- The message object is at rest with nothing accumulated, or on its way to the owner or back. -/
def ObjectInv (locale_of : Core → ℤ) (me owner : Core) (c : CompletionCell) : Prop :=
  (c.cm.place = .idle ∧ c.cm.msg.is_enqueued = false ∧ c.cm.msg.is_sent = false ∧
    c.cm.msg.is_delivered = false ∧ c.completes_to_send = 0) ∨
  (owner ≠ me ∧ ∃ ph, ph ≠ .done ∧ c.cm.InPhase locale_of me owner ph)

structure Inv (locale_of : Core → ℤ) (me owner : Core) (c : CompletionCell) : Prop where
  object : ObjectInv locale_of me owner c
  completes_nonneg : 0 ≤ c.completes_to_send
  owed_eq : c.owed = c.carried + c.completes_to_send

theorem Inv.conserved (h : Inv locale_of me owner c) :
    c.delivered + c.pending = c.requested - c.lost := by
  have := h.owed_eq
  unfold owed at this
  unfold pending
  omega

theorem carried_of_not_enqueued (h : c.cm.msg.is_enqueued = false) : c.carried = 0 := by
  simp [carried, MessageBase.waiting_to_send, h]

theorem carried_of_outbound (hne : owner ≠ me) (h : c.cm.InPhase locale_of me owner .outbound) :
    c.carried = c.cm.storage := by
  have hdest := (h.outbound rfl).1
  have hsent := h.sent
  simp [carried, MessageBase.waiting_to_send, h.enqueued, hdest, h.source, hne, hsent]

theorem carried_of_returning (h : c.cm.InPhase locale_of me owner .returning) : c.carried = 0 := by
  obtain ⟨hdest, hdel, -⟩ := h.returning rfl
  simp [carried, hdest, hdel, h.source]

theorem waiting_of_inPhase {ph : Transport.Phase} (hph : ph ≠ .done)
    (h : c.cm.InPhase locale_of me owner ph) : c.cm.msg.waiting_to_send = true := by
  simp [MessageBase.waiting_to_send, h.enqueued, h.sent, hph]

/-- The override of `mark_sent` sends what was accumulated, or leaves the message at rest. -/
theorem mark_sent_done (hne : owner ≠ me) (h : c.cm.InPhase locale_of me owner .done)
    (hnn : 0 ≤ c.completes_to_send) (howed : c.owed = c.completes_to_send) :
    Inv locale_of me owner (c.mark_sent owner me) ∧ (c.mark_sent owner me).lost = c.lost := by
  have hsrc := h.source
  by_cases hpos : c.completes_to_send > 0
  · have hout : (c.mark_sent owner me).cm.InPhase locale_of me owner .outbound := by
      simp only [mark_sent, hsrc, if_true, hpos]
      exact Transport.enqueue_outbound rfl rfl rfl .coreData (by simp)
    have hcts : (c.mark_sent owner me).completes_to_send = 0 := by simp [mark_sent, hsrc, hpos]
    refine ⟨⟨Or.inr ⟨hne, .outbound, by simp, hout⟩, hcts.ge, ?_⟩, ?_⟩
    · rw [carried_of_outbound hne hout, hcts]
      simp only [owed] at howed
      simp [mark_sent, hsrc, hpos, Transport.enqueue, owed, howed]
    · simp [mark_sent, hsrc, hpos]
  · have hzero : c.completes_to_send = 0 := by omega
    have hrest : (c.mark_sent owner me).cm.msg.is_enqueued = false := by
      simp [mark_sent, hsrc, hzero, MessageBase.reset]
    have hcts : (c.mark_sent owner me).completes_to_send = 0 := by simp [mark_sent, hsrc, hzero]
    refine ⟨⟨Or.inl ⟨?_, hrest, ?_, ?_, hcts⟩, hcts.ge, ?_⟩, ?_⟩
    · simp [mark_sent, hsrc, hzero]
    · simp [mark_sent, hsrc, hzero, MessageBase.reset]
    · simp [mark_sent, hsrc, hzero, MessageBase.reset]
    · rw [carried_of_not_enqueued hrest, hcts]
      simp only [owed] at howed
      simp [mark_sent, hsrc, hzero, owed, howed]
    · simp [mark_sent, hsrc, hzero]

theorem record_owed {e : TransportEvent ℤ} {dec : ℤ} (he : e = .ran owner dec ∨ e = .sent owner dec) :
    (c.record owner e).owed = c.owed - dec ∧ (c.record owner e).cm = c.cm ∧
      (c.record owner e).completes_to_send = c.completes_to_send ∧
      (c.record owner e).lost = c.lost := by
  rcases he with rfl | rfl
  · refine ⟨?_, rfl, rfl, rfl⟩
    simp only [owed, record]
    omega
  · refine ⟨?_, rfl, rfl, rfl⟩
    simp only [owed, record, sum_append, sum_singleton]
    omega

theorem transport_spec (hinv : Inv locale_of me owner c) {l : TransportLabel} {cm : Transport ℤ}
    {es : List (TransportEvent ℤ)} (hstep : c.cm.step locale_of l = some (cm, es)) :
    Inv locale_of me owner (es.foldl (record owner) { c with cm := cm }) ∧
      (es.foldl (record owner) { c with cm := cm }).lost = c.lost := by
  obtain ⟨hobj, hnn, howed⟩ := hinv
  rcases hobj with ⟨hidle, henq, -⟩ | ⟨hne, ph, hph, h⟩
  · -- at rest nothing can happen to the object
    exfalso
    cases l <;> simp [Transport.step, hidle, MessageBase.waiting_to_send, henq] at hstep
  have hsame : ({ c with cm := cm } : CompletionCell).owed = c.owed := rfl
  cases ph with
  | outbound =>
    rw [carried_of_outbound hne h] at howed
    obtain ⟨hst, ⟨hy, rfl⟩ | ⟨e, he, ⟨hy, rfl⟩ | ⟨hy, rfl⟩⟩⟩ := Transport.step_outbound h hstep
    · refine ⟨⟨Or.inr ⟨hne, .outbound, by simp, hy⟩, hnn, ?_⟩, rfl⟩
      show c.owed = carried { c with cm := cm } + c.completes_to_send
      rw [carried_of_outbound hne hy, howed]
      show _ = cm.storage + _
      rw [hst]
    · -- delivered or serialized by a foreign core: the decrement has left the object
      obtain ⟨ho, hcm, hcts, hlo⟩ := record_owed (c := { c with cm := cm }) he
      have hy' : (record owner { c with cm := cm } e).cm.InPhase locale_of me owner .returning := by
        rw [hcm]
        exact hy
      refine ⟨⟨Or.inr ⟨hne, .returning, by simp, hy'⟩, ?_, ?_⟩, hlo⟩
      · show 0 ≤ (record owner { c with cm := cm } e).completes_to_send
        rw [hcts]
        exact hnn
      · show (record owner { c with cm := cm } e).owed = carried (record owner { c with cm := cm } e) +
          (record owner { c with cm := cm } e).completes_to_send
        rw [carried_of_returning hy', ho, hcts, hsame, howed]
        show _ = 0 + c.completes_to_send
        omega
    · -- delivered or serialized by the source itself, which then runs the override
      obtain ⟨ho, hcm, hcts, hlo⟩ := record_owed (c := { c with cm := cm }) he
      have hy' : (record owner { c with cm := cm } e).cm.InPhase locale_of me owner .done := by
        rw [hcm]
        exact hy
      have hnn' : 0 ≤ (record owner { c with cm := cm } e).completes_to_send := by
        rw [hcts]
        exact hnn
      have ho' : (record owner { c with cm := cm } e).owed =
          (record owner { c with cm := cm } e).completes_to_send := by
        rw [ho, hcts, hsame, howed]
        show _ = c.completes_to_send
        omega
      obtain ⟨hinv, hlost⟩ := mark_sent_done hne hy' hnn' ho'
      exact ⟨hinv, hlost.trans hlo⟩
  | returning =>
    rw [carried_of_returning h, zero_add] at howed
    obtain ⟨-, ⟨hy, rfl⟩ | ⟨hy, rfl⟩⟩ := Transport.step_returning h hstep
    · refine ⟨⟨Or.inr ⟨hne, .returning, by simp, hy⟩, hnn, ?_⟩, rfl⟩
      show c.owed = carried { c with cm := cm } + c.completes_to_send
      rw [carried_of_returning hy, howed, zero_add]
    · exact mark_sent_done (c := { c with cm := cm }) hne hy hnn howed
  | done => exact absurd rfl hph

/-- The `CHECK` of `send_completion` never fails, and a call keeps the invariant; it drops
    decrements exactly when it is flattened with a decrement other than one. -/
theorem send_completion_spec (hinv : Inv locale_of me owner c) (dec : ℤ) :
    ∃ c', c.send_completion me owner dec = some c' ∧ Inv locale_of me owner c' ∧
      c'.lost = c.lost +
        if owner ≠ me ∧ c.cm.msg.waiting_to_send = true then dec - 1 else 0 := by
  obtain ⟨hobj, hnn, howed⟩ := hinv
  unfold send_completion
  by_cases hself : owner = me
  · -- completed locally
    refine ⟨_, if_pos hself, ⟨?_, hnn, ?_⟩, by simp [hself]⟩
    · exact hobj
    · show _ = c.carried + c.completes_to_send
      rw [← howed]
      simp only [owed]
      omega
  rw [if_neg hself]
  by_cases hwait : c.cm.msg.waiting_to_send = true
  · -- flattened: accumulated as one, whatever `dec` is
    refine ⟨_, if_pos hwait, ⟨?_, ?_, ?_⟩, by simp [hself, hwait]⟩
    · rcases hobj with ⟨-, henq, -⟩ | h
      · simp [MessageBase.waiting_to_send, henq] at hwait
      · exact Or.inr h
    · show 0 ≤ c.completes_to_send + 1
      omega
    · show _ = c.carried + (c.completes_to_send + 1)
      rw [← add_assoc, ← howed]
      simp only [owed]
      omega
  · -- sent directly: the message is at rest
    rw [if_neg hwait]
    obtain ⟨hidle, henq, hsent, hdel, hzero⟩ := hobj.resolve_right fun h => by
      obtain ⟨-, ph, hph, hin⟩ := h
      exact hwait (waiting_of_inPhase hph hin)
    have hout : (({ c.cm with storage := dec } : Transport ℤ).enqueue me owner .coreData).InPhase
        locale_of me owner .outbound :=
      Transport.enqueue_outbound (x := { c.cm with storage := dec }) henq hsent hdel .coreData (by simp)
    refine ⟨_, if_pos hzero, ⟨Or.inr ⟨hself, .outbound, by simp, hout⟩, hnn, ?_⟩, by simp [hwait]⟩
    rw [carried_of_not_enqueued henq, hzero] at howed
    rw [carried_of_outbound hself hout]
    show _ = dec + c.completes_to_send
    rw [hzero]
    simp only [owed] at howed ⊢
    omega

theorem receive_spec (hinv : Inv locale_of me owner c) {dec : ℤ} (hmem : dec ∈ c.in_flight) :
    Inv locale_of me owner
      { c with in_flight := c.in_flight.erase dec, delivered := c.delivered + dec } := by
  obtain ⟨hobj, hnn, howed⟩ := hinv
  refine ⟨hobj, hnn, ?_⟩
  have hsum : c.in_flight.sum = dec + (c.in_flight.erase dec).sum := by
    rw [(perm_cons_erase hmem).sum_eq, sum_cons]
  show _ = c.carried + c.completes_to_send
  rw [← howed]
  simp only [owed, hsum]
  omega

/-- What a flattened completion drops. -/
def dropped (me owner : Core) (c : CompletionCell) : CompletionLabel → ℤ
  | .send_completion dec => if owner ≠ me ∧ c.cm.msg.waiting_to_send = true then dec - 1 else 0
  | _ => 0

/-- One step keeps the invariant and drops what its label says. -/
theorem next_spec (hinv : Inv locale_of me owner c) {l : CompletionLabel}
    (h : next locale_of me owner c l = some c') :
    Inv locale_of me owner c' ∧ c'.lost = c.lost + dropped me owner c l := by
  cases l with
  | send_completion dec =>
    obtain ⟨d, hd, hinv', hlost⟩ := send_completion_spec hinv dec
    obtain rfl : d = c' := Option.some.inj (hd.symm.trans h)
    exact ⟨hinv', hlost⟩
  | transport l =>
    simp only [next] at h
    cases hstep : c.cm.step locale_of l with
    | none => simp [hstep] at h
    | some r =>
      simp only [hstep] at h
      cases h
      obtain ⟨hinv', hlost⟩ := transport_spec hinv hstep
      exact ⟨hinv', by rw [hlost]; simp [dropped]⟩
  | receive dec =>
    obtain ⟨hmem, rfl⟩ := Option.ite_some_none_eq_some.mp h
    exact ⟨receive_spec hinv hmem, by simp [dropped]⟩

theorem fresh_inv (locale_of : Core → ℤ) (me owner : Core) : Inv locale_of me owner fresh :=
  ⟨Or.inl ⟨rfl, rfl, rfl, rfl, rfl⟩, le_rfl, rfl⟩

theorem dropped_nonneg (me owner : Core) (c : CompletionCell) {l : CompletionLabel}
    (hpos : l.Positive) : 0 ≤ dropped me owner c l := by
  cases l with
  | send_completion dec =>
    have : 1 ≤ dec := hpos
    simp only [dropped]
    split_ifs <;> omega
  | transport l => exact le_rfl
  | receive dec => exact le_rfl

theorem dropped_eq_zero (me owner : Core) (c : CompletionCell) (l : CompletionLabel) :
    dropped me owner c l = 0 ↔ FlattensOne me owner c l := by
  cases l with
  | send_completion dec =>
    simp only [dropped, FlattensOne, Flattened, CompletionLabel.send_completion.injEq]
    constructor
    · rintro h d ⟨rfl, hne, hwait⟩
      rw [if_pos ⟨hne, hwait⟩] at h
      omega
    · intro h
      split_ifs with hc
      · have := h dec ⟨rfl, hc.1, hc.2⟩
        omega
      · rfl
  | transport l => simp [dropped, FlattensOne, Flattened]
  | receive dec => simp [dropped, FlattensOne, Flattened]

/-- A run keeps the invariant, drops a non-negative amount, and drops nothing exactly when each
    of its steps flattens only decrements of one. -/
theorem cell_run_spec (hinv : Inv locale_of me owner c) {ls : List CompletionLabel}
    (hpos : ∀ l ∈ ls, l.Positive) (hrun : (machine locale_of me owner).run c ls = some c') :
    Inv locale_of me owner c' ∧ c.lost ≤ c'.lost ∧
      (c'.lost = c.lost ↔ (machine locale_of me owner).Always (FlattensOne me owner) c ls) := by
  induction ls generalizing c with
  | nil =>
    obtain rfl : c = c' := by simpa using hrun
    exact ⟨hinv, le_rfl, fun _ => trivial, fun _ => rfl⟩
  | cons l ls ih =>
    obtain ⟨d, hl, hd⟩ := System.run_cons.mp hrun
    obtain ⟨hinvd, hlost⟩ := next_spec hinv hl
    have hnn := dropped_nonneg me owner c (hpos l (by simp))
    obtain ⟨hinv', hle, hiff⟩ := ih hinvd (fun l hl => hpos l (by simp [hl])) hd
    refine ⟨hinv', by omega, ?_⟩
    have hzero := dropped_eq_zero me owner c l
    constructor
    · intro heq
      refine ⟨hzero.mp (by omega), fun d' hd' => ?_⟩
      obtain rfl : d = d' := Option.some.inj (hl.symm.trans hd')
      exact hiff.mp (by omega)
    · rintro ⟨hone, htail⟩
      have h1 := hzero.mpr hone
      have h2 := hiff.mpr (htail d hl)
      omega

/-! ### Positive decrements

    Where every decrement is at least one, so is everything the message delivers, and what is
    pending is never negative. -/

/-- Everything under way is at least one. -/
structure Positive (c : CompletionCell) : Prop where
  in_flight : ∀ dec ∈ c.in_flight, 1 ≤ dec
  storage : c.cm.msg.is_enqueued = true → 1 ≤ c.cm.storage

/-- What the event delivers or sends is at least one. -/
def PositiveEvent : TransportEvent ℤ → Prop
  | .ran _ dec => 1 ≤ dec
  | .sent _ dec => 1 ≤ dec
  | .final _ => True

theorem mark_sent_positive (owner : Core) (h : c.Positive) (k : Core) :
    (c.mark_sent owner k).Positive ∧ (c.mark_sent owner k).requested = c.requested ∧
      (c.mark_sent owner k).delivered = c.delivered := by
  unfold mark_sent
  split_ifs with hsrc hcts
  · -- the accumulated completions are sent next
    exact ⟨⟨h.in_flight, fun _ => hcts⟩, rfl, rfl⟩
  · refine ⟨⟨h.in_flight, fun henq => ?_⟩, rfl, rfl⟩
    simp [MessageBase.reset] at henq
  · exact ⟨h, rfl, rfl⟩

/-- Recording events asks for nothing more, and takes back nothing that was delivered. -/
theorem foldl_record_positive (owner : Core) {es : List (TransportEvent ℤ)} (hes : ∀ e ∈ es, PositiveEvent e)
    (h : c.Positive) :
    (es.foldl (record owner) c).Positive ∧
      (es.foldl (record owner) c).requested = c.requested ∧
      c.delivered ≤ (es.foldl (record owner) c).delivered := by
  induction es generalizing c with
  | nil => exact ⟨h, rfl, le_rfl⟩
  | cons e es ih =>
    have he := hes e (by simp)
    have hstep : (c.record owner e).Positive ∧ (c.record owner e).requested = c.requested ∧
        c.delivered ≤ (c.record owner e).delivered := by
      cases e with
      | ran k dec =>
        have hdec : 1 ≤ dec := he
        exact ⟨⟨h.in_flight, h.storage⟩, rfl, by simp only [record]; omega⟩
      | sent k dec =>
        refine ⟨⟨fun d hd => ?_, h.storage⟩, rfl, le_rfl⟩
        rcases mem_append.mp hd with hd | hd
        · exact h.in_flight d hd
        · rw [mem_singleton.mp hd]
          exact he
      | final k =>
        obtain ⟨hpos, hreq, hdel⟩ := mark_sent_positive owner h k
        exact ⟨hpos, hreq, hdel.ge⟩
    obtain ⟨hpos, hreq, hdel⟩ := hstep
    obtain ⟨hpos', hreq', hdel'⟩ := ih (fun e he => hes e (by simp [he])) hpos
    exact ⟨hpos', hreq'.trans hreq, hdel.trans hdel'⟩

theorem transport_events (hobj : ObjectInv locale_of me owner c) (hpos : c.Positive)
    {l : TransportLabel} {cm : Transport ℤ} {es : List (TransportEvent ℤ)}
    (hstep : c.cm.step locale_of l = some (cm, es)) :
    1 ≤ cm.storage ∧ ∀ e ∈ es, PositiveEvent e := by
  rcases hobj with ⟨hidle, henq, -⟩ | ⟨-, ph, hph, h⟩
  · exfalso
    cases l <;> simp [Transport.step, hidle, MessageBase.waiting_to_send, henq] at hstep
  have hone := hpos.storage h.enqueued
  cases ph with
  | outbound =>
    obtain ⟨hst, ⟨-, rfl⟩ | ⟨e, he, hes⟩⟩ := Transport.step_outbound h hstep
    · exact ⟨by rw [hst]; exact hone, by simp⟩
    · have hpe : PositiveEvent e := by
        rcases he with rfl | rfl <;> exact hone
      refine ⟨by rw [hst]; exact hone, ?_⟩
      rcases hes with ⟨-, rfl⟩ | ⟨-, rfl⟩
      · simpa using hpe
      · simpa [PositiveEvent] using hpe
  | returning =>
    obtain ⟨hst, ⟨-, rfl⟩ | ⟨-, rfl⟩⟩ := Transport.step_returning h hstep
    · exact ⟨by rw [hst]; exact hone, by simp⟩
    · exact ⟨by rw [hst]; exact hone, by simp [PositiveEvent]⟩
  | done => exact absurd rfl hph

/-- What a label asks for. -/
def asked : CompletionLabel → ℤ
  | .send_completion dec => dec
  | _ => 0

theorem next_positive (hinv : Inv locale_of me owner c) (hpos : c.Positive) {l : CompletionLabel}
    (hl : l.Positive) (h : next locale_of me owner c l = some c') :
    c'.Positive ∧ c'.requested = c.requested + asked l ∧ c.delivered ≤ c'.delivered := by
  cases l with
  | send_completion dec =>
    have hdec : 1 ≤ dec := hl
    simp only [next, send_completion] at h
    split_ifs at h with hself hwait hzero
    · cases h
      exact ⟨⟨hpos.in_flight, hpos.storage⟩, rfl, by simp only; omega⟩
    · cases h
      exact ⟨⟨hpos.in_flight, hpos.storage⟩, rfl, le_rfl⟩
    · cases h
      exact ⟨⟨hpos.in_flight, fun _ => hdec⟩, rfl, le_rfl⟩
  | transport l =>
    simp only [next] at h
    cases hstep : c.cm.step locale_of l with
    | none => simp [hstep] at h
    | some r =>
      obtain ⟨cm, es⟩ := r
      simp only [hstep] at h
      cases h
      obtain ⟨hst, hes⟩ := transport_events hinv.object hpos hstep
      obtain ⟨hpos', hreq, hdel⟩ :=
        foldl_record_positive (c := { c with cm := cm }) owner hes
          ⟨hpos.in_flight, fun _ => hst⟩
      exact ⟨hpos', by rw [hreq]; simp [asked], hdel⟩
  | receive dec =>
    obtain ⟨hmem, rfl⟩ := Option.ite_some_none_eq_some.mp h
    have hdec := hpos.in_flight dec hmem
    refine ⟨⟨fun d hd => hpos.in_flight d (mem_of_mem_erase hd), hpos.storage⟩, ?_, ?_⟩
    · simp [asked]
    · simp only
      omega

theorem pending_nonneg (hinv : Inv locale_of me owner c) (hpos : c.Positive) : 0 ≤ c.pending := by
  have hcts := hinv.completes_nonneg
  have hsum : 0 ≤ c.in_flight.sum :=
    sum_nonneg fun dec hdec => by have := hpos.in_flight dec hdec; omega
  have hcarried : 0 ≤ c.carried := by
    unfold carried
    split_ifs with hc
    · have := hpos.storage (by
        have := hc.1
        simp only [MessageBase.waiting_to_send, Bool.and_eq_true] at this
        exact this.1)
      omega
    · exact le_rfl
  unfold pending
  omega

theorem fresh_positive : fresh.Positive := ⟨by simp [fresh], nofun⟩

/-- **What is pending is exactly what was asked for and not delivered**, step by step, where
    only decrements of one are flattened. -/
theorem next_pending (hinv : Inv locale_of me owner c) (hpos : c.Positive) {l : CompletionLabel}
    (hl : l.Positive) (hone : FlattensOne me owner c l)
    (h : next locale_of me owner c l = some c') :
    c'.pending = c.pending + asked l - (c'.delivered - c.delivered) := by
  obtain ⟨hinv', hlost⟩ := next_spec hinv h
  obtain ⟨-, hreq, -⟩ := next_positive hinv hpos hl h
  rw [(dropped_eq_zero me owner c l).mpr hone] at hlost
  have h1 := hinv.conserved
  have h2 := hinv'.conserved
  omega

end CompletionCell

/-! ### All completion messages -/

section all

variable {n : ℕ}

/-- The completion messages of all cores towards all owners. -/
def completionSystem (n : ℕ) (locale_of : Core → ℤ) :
    Transition.System (Fin n × Fin n → CompletionCell) ((Fin n × Fin n) × CompletionLabel) :=
  Transition.System.product fun p =>
    CompletionCell.machine locale_of (p.1 : ℕ) (p.2 : ℕ)

/-- What the claim of conservation says about one owner: what was delivered to it and what is
    pending for it is what was requested for it. -/
def Conserved (S : Fin n × Fin n → CompletionCell) (owner : Fin n) : Prop :=
  ∑ me, (S (me, owner)).delivered + ∑ me, (S (me, owner)).pending = ∑ me, (S (me, owner)).requested

/-- **Flattened completions conserve the count exactly when they decrement by one.**  In every
    run of the completion messages of all cores, with decrements of at least one, the sum of
    what is delivered and pending is the sum of what was requested, for every owner, if and only
    if every `send_completion` of the run that finds its message waiting to be sent has
    `dec = 1`. -/
theorem conserved_iff (n : ℕ) (locale_of : Core → ℤ)
    (ls : List ((Fin n × Fin n) × CompletionLabel)) (hpos : ∀ l ∈ ls, l.2.Positive)
    (S : Fin n × Fin n → CompletionCell)
    (hrun : (completionSystem n locale_of).run (completionSystem n locale_of).init ls = some S) :
    (∀ owner, Conserved S owner) ↔
      (completionSystem n locale_of).Always
        (fun S l => CompletionCell.FlattensOne (l.1.1 : ℕ) (l.1.2 : ℕ) (S l.1) l.2)
        (completionSystem n locale_of).init ls := by
  have hspec := fun p : Fin n × Fin n => CompletionCell.cell_run_spec
    (CompletionCell.fresh_inv locale_of (p.1 : ℕ) (p.2 : ℕ))
    (fun l hl => by
      obtain ⟨q, hq, hql⟩ := mem_filterMap.mp hl
      split_ifs at hql
      cases hql
      exact hpos q hq)
    (System.run_proj hrun p)
  have hlost : ∀ owner, Conserved S owner ↔ ∑ me, (S (me, owner)).lost = 0 := by
    intro owner
    have hsum : ∑ me, (S (me, owner)).delivered + ∑ me, (S (me, owner)).pending =
        ∑ me, (S (me, owner)).requested - ∑ me, (S (me, owner)).lost := by
      rw [← Finset.sum_add_distrib, ← Finset.sum_sub_distrib]
      exact Finset.sum_congr rfl fun me _ => (hspec (me, owner)).1.conserved
    unfold Conserved
    omega
  refine Iff.trans ?_ (System.always_proj
    (P := fun p c l => CompletionCell.FlattensOne (p.1 : ℕ) (p.2 : ℕ) c l) hrun).symm
  constructor
  · intro h p
    have hzero := (Finset.sum_eq_zero_iff_of_nonneg fun me _ => (hspec (me, p.2)).2.1).mp
      ((hlost p.2).mp (h p.2)) p.1 (Finset.mem_univ _)
    exact (hspec p).2.2.mp hzero
  · intro h owner
    refine (hlost owner).mpr (Finset.sum_eq_zero fun me _ => ?_)
    exact (hspec (me, owner)).2.2.mpr (h (me, owner))

end all

/-- Core 0 completes 1 and then 5 towards core 1 of another locale; the second call finds the
    message still waiting to be sent. -/
def flattenedRun : List ((Fin 2 × Fin 2) × CompletionLabel) :=
  let pair : Fin 2 × Fin 2 := (⟨0, Nat.two_pos⟩, ⟨1, Nat.one_lt_two⟩)
  [(pair, .send_completion 1), (pair, .send_completion 5), (pair, .transport .publish),
    (pair, .transport (.grab 0)), (pair, .transport (.serialize_to true)),
    (pair, .transport .publish), (pair, .transport (.grab 0)),
    (pair, .transport (.serialize_to true)), (pair, .receive 1), (pair, .receive 1)]

/-- Of the decrements 1 and 5 only 2 arrive, although nothing is pending any more. -/
theorem flattened_completion_lost :
    ∃ S, (completionSystem 2 id).run (completionSystem 2 id).init flattenedRun = some S ∧
      (∀ l ∈ flattenedRun, l.2.Positive) ∧ ¬ Conserved S 1 ∧ ∑ me, (S (me, 1)).pending = 0 ∧
      ∑ me, (S (me, 1)).delivered = 2 ∧ ∑ me, (S (me, 1)).requested = 6 := by
  refine ⟨_, rfl, ?_, ?_, ?_, ?_, ?_⟩
  · simp [flattenedRun, CompletionLabel.Positive]
  all_goals simp only [Conserved, Fin.sum_univ_two]; decide

/-- Such a run flattens a decrement other than one. -/
theorem conserved_iff_flattenedRun :
    ¬ (completionSystem 2 id).Always
      (fun S l => CompletionCell.FlattensOne (l.1.1 : ℕ) (l.1.2 : ℕ) (S l.1) l.2)
      (completionSystem 2 id).init flattenedRun := by
  intro halways
  have hpos : ∀ l ∈ flattenedRun, l.2.Positive := by
    simp [flattenedRun, CompletionLabel.Positive]
  have hconserved := (conserved_iff 2 id flattenedRun hpos _ rfl).mpr halways 1
  revert hconserved
  simp only [Conserved, Fin.sum_univ_two]
  decide

end Grappa
