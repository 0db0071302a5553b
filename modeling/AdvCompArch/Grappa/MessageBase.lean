import AdvCompArch.Grappa.Addressing

/-! # Messages and their transport

    A message object lives in memory that all cores of its locale share.  Its source
    enqueues it; any core of the locale may take it from its list, deliver or serialize
    it and call `mark_sent`.  On a foreign core `mark_sent` turns the very same object
    into the carrier of the notification back to the source. -/

namespace Grappa

open Option

/-- Flags of a message.  `cv_waiters` counts the tasks blocked in `block_until_sent`. -/
@[ext] structure MessageBase where
  is_enqueued : Bool
  is_sent : Bool
  is_delivered : Bool
  delete_after_send : Bool
  source : Core
  destination : Core
  cv_waiters : ℕ
  deriving DecidableEq

namespace MessageBase

/-- A message as constructed for the core `dest`. -/
def make (dest : Core) : MessageBase := ⟨false, false, false, false, -1, dest, 0⟩

/-- `enqueue(c)` on core `mycore`, up to handing the message to the aggregator. -/
def enqueue (mycore c : Core) (m : MessageBase) : MessageBase :=
  { m with
    destination := c
    source := if m.is_enqueued then m.source else mycore
    is_enqueued := true }

def waiting_to_send (m : MessageBase) : Bool := m.is_enqueued && !m.is_sent

/-- The two outcomes of `mark_sent`. -/
inductive MarkSent where
  /-- Re-enqueued to the source. -/
  | requeued
  /-- The final one: sent, waiters released, and deleted if asked for. -/
  | final
  deriving DecidableEq

/-- `mark_sent()` on core `mycore`. -/
def mark_sent (mycore : Core) (m : MessageBase) : MessageBase × MarkSent :=
  if m.is_delivered = true ∧ mycore ≠ m.source then (m.enqueue mycore m.source, .requeued)
  else ({ m with is_sent := true, cv_waiters := 0 }, .final)

/-- `reset()`, once the message is not waiting to be sent. -/
def reset (m : MessageBase) : MessageBase :=
  { m with
    source := -1
    destination := -1
    is_enqueued := false
    is_sent := false
    is_delivered := false }

end MessageBase

/-! ### Transport -/

/-- Which of its lists the aggregator puts a message on: the sender's list for the
    destination core, or the destination core's own locale list. -/
inductive Via where
  | coreData
  | localeCoreData
  deriving DecidableEq

/-- Where the aggregator has a message object. -/
inductive Place where
  /-- Not handed to the aggregator. -/
  | idle
  /-- Core `k` is inside the aggregator's `enqueue`, before the compare-and-swap. -/
  | publishing (k : Core) (via : Via)
  /-- On a list of core `k`'s locale, for the message's destination. -/
  | listed (k : Core) (via : Via)
  /-- On a list that core `k` has grabbed. -/
  | held (k : Core)
  /-- After the final `mark_sent`. -/
  | done
  deriving DecidableEq

/-- A message object with its contents. -/
@[ext] structure Transport (T : Type*) where
  msg : MessageBase
  storage : T
  place : Place
  deriving DecidableEq

/-- What a step does to the rest of the world. -/
inductive TransportEvent (T : Type*) where
  /-- The functor runs on core `c`. -/
  | ran (c : Core) (t : T)
  /-- A copy of the functor is written to a buffer for core `c`. -/
  | sent (c : Core) (t : T)
  /-- The final `mark_sent` on core `c`. -/
  | final (c : Core)
  deriving DecidableEq

/-- Steps of cores on one message object. -/
inductive TransportLabel where
  /-- The compare-and-swap that puts the message on its list. -/
  | publish
  /-- Core `k` grabs the list the message is on. -/
  | grab (k : Core)
  /-- The holder delivers the message to itself. -/
  | deliver_locally
  /-- The holder serializes the message; `fits` says whether the buffer has room. -/
  | serialize_to (fits : Bool)
  /-- A task of the source blocks until the message is sent. -/
  | block_until_sent
  deriving DecidableEq

/-- Steps that move a message on.  A buffer without room and a task that starts waiting do not. -/
def TransportLabel.progress : TransportLabel → Bool
  | .serialize_to false => false
  | .block_until_sent => false
  | _ => true

namespace Transport

variable {T : Type*}

/-- A message object as constructed for the core `dest`. -/
def make (dest : Core) (t : T) : Transport T := ⟨.make dest, t, .idle⟩

/-- `enqueue(c)` or `locale_enqueue(c)` by core `mycore`. -/
def enqueue (mycore c : Core) (via : Via) (x : Transport T) : Transport T :=
  { x with msg := x.msg.enqueue mycore c, place := .publishing mycore via }

/-- `is_delivered_ = true`. -/
def set_delivered (x : Transport T) : Transport T :=
  { x with msg := { x.msg with is_delivered := true } }

/-- `mark_sent()` by core `k`; re-enqueueing goes through the core lists. -/
def mark_sent (k : Core) (x : Transport T) : Transport T × List (TransportEvent T) :=
  match x.msg.mark_sent k with
  | (m, .requeued) => ({ x with msg := m, place := .publishing k .coreData }, [])
  | (m, .final) => ({ x with msg := m, place := .done }, [.final k])

/-- One step on a message object.  `locale_of` maps a core to its locale. -/
def step (locale_of : Core → ℤ) (x : Transport T) :
    TransportLabel → Option (Transport T × List (TransportEvent T))
  | .publish =>
    match x.place with
    | .publishing k via => some ({ x with place := .listed k via }, [])
    | _ => none
  | .grab k =>
    match x.place with
    | .listed k' via =>
      -- the lists are in the shared memory of the locale; locale lists and lists for the
      -- grabbing core itself are polled by that core, the others are grabbed for sending
      if locale_of k = locale_of k' ∧
          (k = x.msg.destination ∨ via = .coreData ∧ locale_of x.msg.destination ≠ locale_of k) then
        some ({ x with place := .held k }, [])
      else none
    | _ => none
  | .deliver_locally =>
    match x.place with
    | .held k =>
      if k = x.msg.destination then
        let ran := if x.msg.is_delivered then [] else [.ran k x.storage]
        let r := x.set_delivered.mark_sent k
        some (r.1, ran ++ r.2)
      else none
    | _ => none
  | .serialize_to fits =>
    match x.place with
    | .held k =>
      if locale_of x.msg.destination ≠ locale_of k then
        if fits then
          let r := x.set_delivered.mark_sent k
          some (r.1, .sent x.msg.destination x.storage :: r.2)
        else some (x.set_delivered, [])
      else none
    | _ => none
  | .block_until_sent =>
    if x.msg.waiting_to_send && !x.msg.delete_after_send then
      some ({ x with msg := { x.msg with cv_waiters := x.msg.cv_waiters + 1 } }, [])
    else none

/-! ### Phases -/

/-- The phases of one life of a message from `s` to `d`. -/
inductive Phase where
  | outbound
  | returning
  | done
  deriving DecidableEq

/-- The message is in the given phase. -/
structure InPhase (locale_of : Core → ℤ) (s d : Core) (ph : Phase) (x : Transport T) : Prop where
  enqueued : x.msg.is_enqueued = true
  source : x.msg.source = s
  sent : x.msg.is_sent = decide (ph = .done)
  /-- Outbound, it aims at `d`, and only a core that serializes it may hold it while it is
      already flagged as delivered. -/
  outbound : ph = .outbound → x.msg.destination = d ∧
    ((∃ via, (x.place = .publishing s via ∨ x.place = .listed s via) ∧
        x.msg.is_delivered = false ∧ (via = .localeCoreData → locale_of d = locale_of s)) ∨
      (∃ k, x.place = .held k ∧ locale_of k = locale_of s ∧
        (k = d ∧ x.msg.is_delivered = false ∨ locale_of d ≠ locale_of k)))
  /-- Returning, it is flagged as delivered and aims at its source. -/
  returning : ph = .returning → x.msg.destination = s ∧ x.msg.is_delivered = true ∧
    ((∃ k, (x.place = .publishing k .coreData ∨ x.place = .listed k .coreData) ∧
        locale_of k = locale_of s) ∨
      x.place = .held s)
  done : ph = .done → x.place = .done ∧ x.msg.cv_waiters = 0

variable {locale_of : Core → ℤ} {s d : Core} {x y : Transport T}
  {es : List (TransportEvent T)} {l : TransportLabel}

/-- Enqueueing a message that is not enqueued starts its outbound phase. -/
theorem enqueue_outbound (hx : x.msg.is_enqueued = false) (hsent : x.msg.is_sent = false)
    (hdel : x.msg.is_delivered = false) (via : Via)
    (hvia : via = .localeCoreData → locale_of d = locale_of s) :
    InPhase locale_of s d .outbound (x.enqueue s d via) := by
  refine ⟨rfl, ?_, ?_, ?_, nofun, nofun⟩
  · simp [enqueue, MessageBase.enqueue, hx]
  · simp [enqueue, MessageBase.enqueue, hsent]
  · intro _
    exact ⟨rfl, Or.inl ⟨via, Or.inl rfl, hdel, hvia⟩⟩

/-- `mark_sent` by a core of the locale, on a message that was delivered or serialized: the
    message returns to its source, or, on the source, is done. -/
theorem mark_sent_cases (henq : x.msg.is_enqueued = true) (hsent : x.msg.is_sent = false)
    (hsrc : x.msg.source = s) {k : Core} (hk : locale_of k = locale_of s) :
    (k ≠ s ∧ InPhase locale_of s d .returning (x.set_delivered.mark_sent k).1 ∧
      (x.set_delivered.mark_sent k).2 = []) ∨
    (k = s ∧ InPhase locale_of s d .done (x.set_delivered.mark_sent k).1 ∧
      (x.set_delivered.mark_sent k).2 = [.final s]) := by
  by_cases hks : k = s
  · subst hks
    refine Or.inr ⟨rfl, ?_, ?_⟩
    · constructor <;> simp [mark_sent, set_delivered, MessageBase.mark_sent, hsrc, henq]
    · simp [mark_sent, set_delivered, MessageBase.mark_sent, hsrc]
  · refine Or.inl ⟨hks, ?_, ?_⟩
    · constructor <;> simp [mark_sent, set_delivered, MessageBase.mark_sent, MessageBase.enqueue,
        hsrc, henq, hks, hsent, hk]
    · simp [mark_sent, set_delivered, MessageBase.mark_sent, hsrc, hks]

@[simp] theorem mark_sent_storage (k : Core) :
    (x.set_delivered.mark_sent k).1.storage = x.storage := by
  unfold mark_sent
  split <;> rfl

/-- **What a step can do to an outbound message**: move it on towards its destination without
    any effect, or deliver it to `d` or send a copy to `d`, after which it is on its way back
    to the source or, if the source did it, done. -/
theorem step_outbound (hx : InPhase locale_of s d .outbound x)
    (h : x.step locale_of l = some (y, es)) :
    y.storage = x.storage ∧
    ((InPhase locale_of s d .outbound y ∧ es = []) ∨
    ∃ e, (e = .ran d x.storage ∨ e = .sent d x.storage) ∧
      ((InPhase locale_of s d .returning y ∧ es = [e]) ∨
        (InPhase locale_of s d .done y ∧ es = [e, .final s]))) := by
  obtain ⟨henq, hsrc, hsent, hout, -, -⟩ := hx
  obtain ⟨hdest, hplace⟩ := hout rfl
  have hns : x.msg.is_sent = false := by simpa using hsent
  cases l with
  | publish =>
    rcases hplace with ⟨via, hp | hp, hdel, hvia⟩ | ⟨k, hp, hk, hkd⟩
    · simp only [step, hp] at h
      cases h
      exact ⟨rfl, Or.inl ⟨⟨henq, hsrc, hsent, fun _ => ⟨hdest, Or.inl ⟨via, Or.inr rfl, hdel, hvia⟩⟩,
        nofun, nofun⟩, rfl⟩⟩
    · simp [step, hp] at h
    · simp [step, hp] at h
  | grab k =>
    rcases hplace with ⟨via, hp | hp, hdel, hvia⟩ | ⟨k', hp, hk, hkd⟩
    · simp [step, hp] at h
    · simp only [step, hp, hdest, ite_none_right_eq_some, some.injEq,
        Prod.mk.injEq] at h
      obtain ⟨⟨hloc, hkd⟩, rfl, rfl⟩ := h
      refine ⟨rfl, Or.inl ⟨⟨henq, hsrc, hsent, fun _ => ⟨hdest, Or.inr ⟨k, rfl, hloc, ?_⟩⟩,
        nofun, nofun⟩, rfl⟩⟩
      rcases hkd with hkd | ⟨-, hne⟩
      · exact Or.inl ⟨hkd, hdel⟩
      · exact Or.inr hne
    · simp [step, hp] at h
  | deliver_locally =>
    rcases hplace with ⟨via, hp | hp, hdel, hvia⟩ | ⟨k, hp, hk, hkd⟩
    · simp [step, hp] at h
    · simp [step, hp] at h
    · simp only [step, hp, hdest, ite_none_right_eq_some, some.injEq,
        Prod.mk.injEq] at h
      obtain ⟨rfl, rfl, rfl⟩ := h
      -- the holder is the destination, so the message was not flagged before
      obtain ⟨-, hdel⟩ : k = k ∧ x.msg.is_delivered = false :=
        hkd.resolve_right fun hne => hne rfl
      refine ⟨by simp, Or.inr ⟨.ran k x.storage, Or.inl rfl, ?_⟩⟩
      rcases mark_sent_cases (d := k) henq hns hsrc hk with
        ⟨-, hph, hev⟩ | ⟨-, hph, hev⟩
      · exact Or.inl ⟨hph, by simp [hev, hdel]⟩
      · exact Or.inr ⟨hph, by simp [hev, hdel]⟩
  | serialize_to fits =>
    rcases hplace with ⟨via, hp | hp, hdel, hvia⟩ | ⟨k, hp, hk, hkd⟩
    · simp [step, hp] at h
    · simp [step, hp] at h
    · simp only [step, hp, hdest, ite_none_right_eq_some] at h
      obtain ⟨hne, h⟩ := h
      cases fits with
      | false =>
        -- no room: the message is flagged, and stays with the core that serializes it
        simp only [Bool.false_eq_true, if_false] at h
        cases h
        exact ⟨rfl, Or.inl ⟨⟨henq, hsrc, hsent, fun _ => ⟨hdest, Or.inr
          ⟨k, hp, hk, Or.inr hne⟩⟩, nofun, nofun⟩, rfl⟩⟩
      | true =>
        simp only [if_true] at h
        cases h
        refine ⟨by simp, Or.inr ⟨.sent d x.storage, Or.inr rfl, ?_⟩⟩
        rcases mark_sent_cases (d := d) henq hns hsrc hk with
          ⟨-, hph, hev⟩ | ⟨-, hph, hev⟩
        · exact Or.inl ⟨hph, by rw [hev]⟩
        · exact Or.inr ⟨hph, by rw [hev]⟩
  | block_until_sent =>
    simp only [step, ite_none_right_eq_some, some.injEq, Prod.mk.injEq] at h
    obtain ⟨-, rfl, rfl⟩ := h
    exact ⟨rfl, Or.inl ⟨⟨henq, hsrc, hsent, fun _ => ⟨hdest, hplace⟩, nofun, nofun⟩, rfl⟩⟩

/-- **What a step can do to a returning message**: move it on towards its source without any
    effect, or mark it sent there for good. -/
theorem step_returning (hx : InPhase locale_of s d .returning x)
    (h : x.step locale_of l = some (y, es)) :
    y.storage = x.storage ∧
    ((InPhase locale_of s d .returning y ∧ es = []) ∨
      (InPhase locale_of s d .done y ∧ es = [.final s])) := by
  obtain ⟨henq, hsrc, hsent, -, hret, -⟩ := hx
  obtain ⟨hdest, hdel, hplace⟩ := hret rfl
  have hns : x.msg.is_sent = false := by simpa using hsent
  cases l with
  | publish =>
    rcases hplace with ⟨k, hp | hp, hk⟩ | hp
    · simp only [step, hp] at h
      cases h
      exact ⟨rfl, Or.inl ⟨⟨henq, hsrc, hsent, nofun,
        fun _ => ⟨hdest, hdel, Or.inl ⟨k, Or.inr rfl, hk⟩⟩, nofun⟩, rfl⟩⟩
    · simp [step, hp] at h
    · simp [step, hp] at h
  | grab k =>
    rcases hplace with ⟨k', hp | hp, hk⟩ | hp
    · simp [step, hp] at h
    · simp only [step, hp, hdest, ite_none_right_eq_some, some.injEq,
        Prod.mk.injEq] at h
      obtain ⟨⟨hloc, hks⟩, rfl, rfl⟩ := h
      -- the source is in this locale, so only the source itself grabs the list
      obtain rfl : k = s := hks.resolve_right fun hne => hne.2 (hk ▸ hloc.symm)
      exact ⟨rfl, Or.inl ⟨⟨henq, hsrc, hsent, nofun, fun _ => ⟨hdest, hdel, Or.inr rfl⟩, nofun⟩, rfl⟩⟩
    · simp [step, hp] at h
  | deliver_locally =>
    rcases hplace with ⟨k, hp | hp, hk⟩ | hp
    · simp [step, hp] at h
    · simp [step, hp] at h
    · simp only [step, hp, hdest, if_true, hdel] at h
      cases h
      refine ⟨by simp, Or.inr ?_⟩
      rcases mark_sent_cases (d := d) henq hns hsrc (rfl : locale_of s = locale_of s) with
        ⟨hne, -, -⟩ | ⟨-, hph, hev⟩
      · exact absurd rfl hne
      · exact ⟨hph, by simp [hev]⟩
  | serialize_to fits =>
    rcases hplace with ⟨k, hp | hp, hk⟩ | hp
    · simp [step, hp] at h
    · simp [step, hp] at h
    · simp [step, hp, hdest] at h
  | block_until_sent =>
    simp only [step, ite_none_right_eq_some, some.injEq, Prod.mk.injEq] at h
    obtain ⟨-, rfl, rfl⟩ := h
    exact ⟨rfl, Or.inl ⟨⟨henq, hsrc, hsent, nofun, fun _ => ⟨hdest, hdel, hplace⟩, nofun⟩, rfl⟩⟩

theorem step_done (hx : InPhase locale_of s d .done x) (l : TransportLabel) :
    x.step locale_of l = none := by
  have hsent : x.msg.is_sent = true := by simpa using hx.sent
  obtain ⟨hp, -⟩ := hx.done rfl
  cases l <;> simp [step, hp, MessageBase.waiting_to_send, hsent]

theorem InPhase.held_locale {ph : Phase} (hx : InPhase locale_of s d ph x) {k : Core}
    (hp : x.place = .held k) : locale_of k = locale_of s := by
  cases ph with
  | outbound =>
    rcases (hx.outbound rfl).2 with ⟨via, hp' | hp', -⟩ | ⟨k', hp', hk, -⟩
    · simp [hp'] at hp
    · simp [hp'] at hp
    · obtain rfl : k' = k := by simpa [hp'] using hp
      exact hk
  | returning =>
    rcases (hx.returning rfl).2.2 with ⟨k', hp' | hp', -⟩ | hp'
    · simp [hp'] at hp
    · simp [hp'] at hp
    · obtain rfl : s = k := by simpa [hp'] using hp
      rfl
  | done => simp [(hx.done rfl).1] at hp

/-! ### Progress -/

/-- How many steps a message object is away from its final `mark_sent`, at most. -/
def rank (x : Transport T) : ℕ :=
  (if x.msg.is_delivered = true ∧ x.msg.destination = x.msg.source then 0 else 8) +
    match x.place with
    | .idle => 5
    | .publishing _ _ => 4
    | .listed _ _ => 3
    | .held _ => 2
    | .done => 0

/-- The number of copies a step sends. -/
def copiesSent (es : List (TransportEvent T)) : ℕ :=
  es.countP fun e => match e with
    | .sent _ _ => true
    | _ => false

/-- A step that moves a message on brings it closer to its end, also counting the copies. -/
theorem step_rank (henq : x.msg.is_enqueued = true)
    (hheld : ∀ k, x.place = .held k → locale_of k = locale_of x.msg.source)
    (h : x.step locale_of l = some (y, es)) :
    y.rank + copiesSent es + (if l.progress then 1 else 0) ≤ x.rank := by
  cases l with
  | publish =>
    simp only [step] at h
    split at h
    · next k via hp =>
      cases h
      simp [rank, hp, copiesSent, TransportLabel.progress]
    · cases h
  | grab k =>
    simp only [step] at h
    split at h
    · next k' via hp =>
      obtain ⟨-, h⟩ := ite_none_right_eq_some.mp h
      cases h
      simp [rank, hp, copiesSent, TransportLabel.progress]
    · cases h
  | deliver_locally =>
    simp only [step] at h
    split at h
    · next k hp =>
      obtain ⟨hk, h⟩ := ite_none_right_eq_some.mp h
      cases h
      by_cases hks : k = x.msg.source
      · -- the source delivers: the message is done
        have hdest : x.msg.destination = x.msg.source := hk.symm.trans hks
        cases hdel : x.msg.is_delivered <;>
          simp [rank, hp, mark_sent, set_delivered, MessageBase.mark_sent, hks, hdest, copiesSent,
            TransportLabel.progress, hdel]
      · have hdest : x.msg.destination ≠ x.msg.source := hk ▸ hks
        cases hdel : x.msg.is_delivered <;>
          simp [rank, hp, mark_sent, set_delivered, MessageBase.mark_sent, MessageBase.enqueue, hks,
            henq, hdest, copiesSent, TransportLabel.progress, hdel]
    · cases h
  | serialize_to fits =>
    simp only [step] at h
    split at h
    · next k hp =>
      obtain ⟨hne, h⟩ := ite_none_right_eq_some.mp h
      have hdest : x.msg.destination ≠ x.msg.source := fun heq => hne (heq ▸ (hheld k hp).symm)
      cases fits with
      | false =>
        cases h
        simp [rank, hp, set_delivered, hdest, copiesSent, TransportLabel.progress]
      | true =>
        cases h
        by_cases hks : k = x.msg.source <;>
          simp [rank, hp, mark_sent, set_delivered, MessageBase.mark_sent, MessageBase.enqueue, hks,
            henq, hdest, copiesSent, TransportLabel.progress]
    · cases h
  | block_until_sent =>
    simp only [step] at h
    obtain ⟨-, h⟩ := ite_none_right_eq_some.mp h
    cases h
    simp [rank, copiesSent, TransportLabel.progress]

theorem InPhase.exists_progress {ph : Phase} (hx : InPhase locale_of s d ph x) (hph : ph ≠ .done) :
    ∃ l : TransportLabel, l.progress = true ∧ x.step locale_of l ≠ none := by
  cases ph with
  | outbound =>
    obtain ⟨hdest, hplace⟩ := hx.outbound rfl
    rcases hplace with ⟨via, hp | hp, -, hvia⟩ | ⟨k, hp, hk, hkd⟩
    · exact ⟨.publish, rfl, by simp [step, hp]⟩
    · -- the destination polls its lists; the source may send what goes elsewhere
      by_cases hloc : locale_of d = locale_of s
      · exact ⟨.grab d, rfl, by simp [step, hp, hdest, hloc]⟩
      · cases via with
        | coreData => exact ⟨.grab s, rfl, by simp [step, hp, hdest, hloc]⟩
        | localeCoreData => exact absurd (hvia rfl) hloc
    · rcases hkd with ⟨rfl, -⟩ | hne
      · exact ⟨.deliver_locally, rfl, by simp [step, hp, hdest]⟩
      · exact ⟨.serialize_to true, rfl, by simp [step, hp, hdest, hne]⟩
  | returning =>
    obtain ⟨hdest, -, hplace⟩ := hx.returning rfl
    rcases hplace with ⟨k, hp | hp, hk⟩ | hp
    · exact ⟨.publish, rfl, by simp [step, hp]⟩
    · exact ⟨.grab s, rfl, by simp [step, hp, hdest, hk]⟩
    · exact ⟨.deliver_locally, rfl, by simp [step, hp, hdest]⟩
  | done => exact absurd rfl hph

end Transport

end Grappa
