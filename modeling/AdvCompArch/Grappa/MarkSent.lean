import AdvCompArch.Grappa.MessageBase
import AdvCompArch.Lib.Product

/-! # The `mark_sent` protocol

    Any number of messages, each enqueued by its source and then moved by whichever
    cores of the locale get hold of it; serialized copies travel to their destination
    on their own.  Messages share nothing, so the system is the product of one small
    machine per message.

    The main result, `mark_sent_exactly_once`, collects what holds of every message in
    every interleaving. -/

namespace Grappa

open Transition List

/-- What is fixed about one message when it is enqueued.  `locale_enqueue` is for cores of
    the source's own locale. -/
structure Envelope (locale_of : Core → ℤ) (T : Type*) where
  source : Core
  dest : Core
  storage : T
  delete_after_send : Bool
  via : Via
  via_ok : via = .localeCoreData → locale_of dest = locale_of source

/-- One message and its traces: copies in flight, runs of the functor, and the cores that
    executed the final `mark_sent`. -/
structure MessageState (T : Type*) where
  obj : Transport T
  copies : List (Core × T)
  ran : List (Core × T)
  finals : List Core
  deriving DecidableEq

inductive MessageLabel where
  /-- The source enqueues the message. -/
  | enqueue
  /-- A step on the message object. -/
  | transport (l : TransportLabel)
  /-- A copy is received on its core and its functor runs. -/
  | receive
  deriving DecidableEq

namespace MessageState

variable {T : Type*} {locale_of : Core → ℤ}

/-- Add the effect of a transport step to the traces. -/
def record (m : MessageState T) : TransportEvent T → MessageState T
  | .ran c t => { m with ran := m.ran ++ [(c, t)] }
  | .sent c t => { m with copies := m.copies ++ [(c, t)] }
  | .final c => { m with finals := m.finals ++ [c] }

def next (e : Envelope locale_of T) (m : MessageState T) :
    MessageLabel → Option (MessageState T)
  | .enqueue =>
    match m.obj.place with
    | .idle => some { m with obj := m.obj.enqueue e.source e.dest e.via }
    | _ => none
  | .transport l =>
    match m.obj.step locale_of l with
    | some (obj, es) => some (es.foldl record { m with obj := obj })
    | none => none
  | .receive =>
    match m.copies with
    | (c, t) :: rest => some { m with copies := rest, ran := m.ran ++ [(c, t)] }
    | [] => none

/-- The message as its source constructs it. -/
def fresh (e : Envelope locale_of T) : MessageState T :=
  ⟨⟨{ MessageBase.make e.dest with delete_after_send := e.delete_after_send }, e.storage, .idle⟩,
    [], [], []⟩

/-- The machine of one message. -/
def machine (e : Envelope locale_of T) :
    Transition.System (MessageState T) MessageLabel :=
  ⟨fresh e, next e⟩

/-! ### The invariant of one message -/

variable {e : Envelope locale_of T} {m m' : MessageState T}

/-- The message was handed to the aggregator and is in phase `ph`, with the traces that
    belong to it: the functor has run, or a copy is on its way, exactly from the returning
    phase on, and the final `mark_sent` was executed exactly in the last phase. -/
structure InPhase (e : Envelope locale_of T) (ph : Transport.Phase)
    (m : MessageState T) : Prop where
  obj : m.obj.InPhase locale_of e.source e.dest ph
  storage : m.obj.storage = e.storage
  runs : m.ran ++ m.copies = if ph = .outbound then [] else [(e.dest, e.storage)]
  finals : m.finals = if ph = .done then [e.source] else []

/-- In every reachable state a message is fresh or in one of its phases. -/
def Inv (e : Envelope locale_of T) (m : MessageState T) : Prop :=
  m = fresh e ∨ ∃ ph, InPhase e ph m

theorem next_transport {l : TransportLabel} (h : next e m (.transport l) = some m') :
    ∃ obj es, m.obj.step locale_of l = some (obj, es) ∧
      m' = es.foldl record { m with obj := obj } := by
  simp only [next] at h
  cases hstep : m.obj.step locale_of l with
  | none => simp [hstep] at h
  | some r =>
    simp only [hstep, Option.some.injEq] at h
    exact ⟨r.1, r.2, rfl, h.symm⟩

theorem next_receive (h : next e m .receive = some m') :
    ∃ c t rest, m.copies = (c, t) :: rest ∧
      m' = { m with copies := rest, ran := m.ran ++ [(c, t)] } := by
  simp only [next] at h
  cases hc : m.copies with
  | nil => simp [hc] at h
  | cons p rest =>
    simp only [hc, Option.some.injEq] at h
    exact ⟨p.1, p.2, rest, rfl, h.symm⟩

/-- No transport step is possible on a message that was not enqueued. -/
theorem step_fresh (l : TransportLabel) : (fresh e).obj.step locale_of l = none := by
  cases l <;> rfl

theorem InPhase.place_ne_idle {ph : Transport.Phase} (h : InPhase e ph m) :
    m.obj.place ≠ .idle := by
  intro hidle
  cases ph with
  | outbound =>
    rcases (h.obj.outbound rfl).2 with ⟨via, hp | hp, -⟩ | ⟨k, hp, -⟩ <;> simp [hp] at hidle
  | returning =>
    rcases (h.obj.returning rfl).2.2 with ⟨k, hp | hp, -⟩ | hp <;> simp [hp] at hidle
  | done => simp [(h.obj.done rfl).1] at hidle

theorem InPhase.receive {ph : Transport.Phase} (h : InPhase e ph m) {c : Core} {t : T}
    {rest : List (Core × T)} (hc : m.copies = (c, t) :: rest) :
    InPhase e ph { m with copies := rest, ran := m.ran ++ [(c, t)] } := by
  refine ⟨h.obj, h.storage, ?_, h.finals⟩
  rw [← h.runs, hc]
  simp

/-- A transport step keeps the phase and the traces, or moves on to the next phase with the
    traces that belong to it. -/
theorem InPhase.transport {ph : Transport.Phase} (h : InPhase e ph m)
    {l : TransportLabel} {obj : Transport T} {es : List (TransportEvent T)}
    (hstep : m.obj.step locale_of l = some (obj, es)) :
    ∃ ph', InPhase e ph' (es.foldl record { m with obj := obj }) := by
  obtain ⟨hobj, hst, hruns, hfin⟩ := h
  cases ph with
  | outbound =>
    obtain ⟨hs, ⟨hph, rfl⟩ | ⟨ev, hev, ⟨hph, rfl⟩ | ⟨hph, rfl⟩⟩⟩ :=
      Transport.step_outbound hobj hstep
    · exact ⟨.outbound, hph, hs.trans hst, hruns, hfin⟩
    all_goals
      obtain ⟨hran, hcop⟩ : m.ran = [] ∧ m.copies = [] := by simpa using hruns
      rw [hst] at hev
    · refine ⟨.returning, ?_, ?_, ?_, ?_⟩
      all_goals rcases hev with rfl | rfl <;> simp_all [record]
    · refine ⟨.done, ?_, ?_, ?_, ?_⟩
      all_goals rcases hev with rfl | rfl <;> simp_all [record]
  | returning =>
    obtain ⟨hs, ⟨hph, rfl⟩ | ⟨hph, rfl⟩⟩ := Transport.step_returning hobj hstep
    · exact ⟨.returning, hph, hs.trans hst, hruns, hfin⟩
    · exact ⟨.done, hph, hs.trans hst, by simpa [record] using hruns,
        by simp [record, hfin]⟩
  | done =>
    rw [Transport.step_done hobj l] at hstep
    cases hstep

theorem Inv.preserved (h : Inv e m) {l : MessageLabel}
    (hstep : next e m l = some m') : Inv e m' := by
  cases l with
  | enqueue =>
    rcases h with rfl | ⟨ph, h⟩
    · cases hstep
      exact Or.inr ⟨.outbound, Transport.enqueue_outbound rfl rfl rfl e.via e.via_ok, rfl, rfl,
        rfl⟩
    · simp only [next] at hstep
      split at hstep
      · next hidle => exact absurd hidle h.place_ne_idle
      · cases hstep
  | transport l =>
    obtain ⟨obj, es, hx, rfl⟩ := next_transport hstep
    rcases h with rfl | ⟨ph, h⟩
    · rw [step_fresh] at hx
      cases hx
    · exact Or.inr (h.transport hx)
  | receive =>
    obtain ⟨c, t, rest, hc, rfl⟩ := next_receive hstep
    rcases h with rfl | ⟨ph, h⟩
    · simp [fresh] at hc
    · exact Or.inr ⟨ph, h.receive hc⟩

theorem reachable_inv (h : (machine e).Reachable m) : Inv e m :=
  h.invariant (Inv e) (Or.inl rfl) fun _ _ _ hinv hstep => hinv.preserved hstep

/-! ### Progress -/

/-- Steps that bring a message closer to its end. -/
def progress : MessageLabel → Bool
  | .transport l => l.progress
  | _ => true

/-- How many such steps are left, at most. -/
def rank (m : MessageState T) : ℕ := m.obj.rank + m.copies.length

theorem length_copies_foldl (es : List (TransportEvent T)) (m : MessageState T) :
    (es.foldl record m).copies.length = m.copies.length + Transport.copiesSent es := by
  induction es generalizing m with
  | nil => rfl
  | cons ev es ih =>
    rw [foldl_cons, ih]
    cases ev with
    | ran c t => simp [record, Transport.copiesSent]
    | sent c t =>
      simp [record, Transport.copiesSent]
      omega
    | final c => simp [record, Transport.copiesSent]

theorem obj_foldl (es : List (TransportEvent T)) (m : MessageState T) :
    (es.foldl record m).obj = m.obj := by
  induction es generalizing m with
  | nil => rfl
  | cons ev es ih =>
    rw [foldl_cons, ih]
    cases ev <;> rfl

theorem Inv.next_rank (h : Inv e m) {l : MessageLabel} (hstep : next e m l = some m') :
    m'.rank + (if progress l then 1 else 0) ≤ m.rank := by
  cases l with
  | enqueue =>
    simp only [next] at hstep
    split at hstep
    · next hidle =>
      cases hstep
      rcases h with rfl | ⟨ph, h⟩
      · simp [rank, fresh, Transport.rank, Transport.enqueue, MessageBase.make, MessageBase.enqueue,
          progress]
      · exact absurd hidle h.place_ne_idle
    · cases hstep
  | transport l =>
    obtain ⟨obj, es, hx, rfl⟩ := next_transport hstep
    rcases h with rfl | ⟨ph, h⟩
    · rw [step_fresh] at hx
      cases hx
    · have hsrc := h.obj.source
      have hle := Transport.step_rank h.obj.enqueued
        (fun k hp => hsrc.symm ▸ h.obj.held_locale hp) hx
      unfold rank
      rw [obj_foldl, length_copies_foldl]
      show obj.rank + (m.copies.length + _) + (if l.progress = true then 1 else 0) ≤ _
      omega
  | receive =>
    obtain ⟨c, t, rest, hc, rfl⟩ := next_receive hstep
    simp only [rank, hc, length_cons, progress, if_true]
    omega

/-- A run contains at most `rank` steps that bring a message closer to its end. -/
theorem Inv.run_rank (h : Inv e m) {ls : List MessageLabel}
    (hrun : (machine e).run m ls = some m') : ls.countP progress ≤ m.rank := by
  induction ls generalizing m with
  | nil => simp
  | cons l ls ih =>
    obtain ⟨t, hl, ht⟩ := System.run_cons.mp hrun
    have hle := h.next_rank hl
    have hrest := ih (h.preserved hl) ht
    rw [countP_cons]
    split_ifs at hle ⊢ <;> omega

theorem Inv.complete (h : Inv e m) (hstuck : ∀ l, progress l = true → next e m l = none) :
    m.ran = [(e.dest, e.storage)] ∧ m.finals = [e.source] := by
  rcases h with rfl | ⟨ph, h⟩
  · have := hstuck .enqueue rfl
    simp [next, fresh] at this
  by_cases hph : ph = .done
  · subst hph
    have hcopies : m.copies = [] := by
      cases hc : m.copies with
      | nil => rfl
      | cons p rest =>
        have := hstuck .receive rfl
        simp [next, hc] at this
    have hruns := h.runs
    rw [hcopies, append_nil] at hruns
    exact ⟨hruns, h.finals⟩
  · obtain ⟨l, hl, hne⟩ := h.obj.exists_progress hph
    have hnone := hstuck (.transport l) hl
    cases hx : m.obj.step locale_of l with
    | none => exact absurd hx hne
    | some r => simp [next, hx] at hnone

/-- After the final `mark_sent` the message object does not change any more, and the only
    steps left are receptions of its copy. -/
theorem InPhase.done_run (h : InPhase e .done m) {ls : List MessageLabel}
    (hrun : (machine e).run m ls = some m') : m'.obj = m.obj ∧ ∀ l ∈ ls, l = .receive := by
  induction ls generalizing m with
  | nil =>
    obtain rfl : m = m' := by simpa using hrun
    exact ⟨rfl, nofun⟩
  | cons l ls ih =>
    obtain ⟨t, hl, ht⟩ := System.run_cons.mp hrun
    cases l with
    | enqueue =>
      simp only [machine, next, (h.obj.done rfl).1] at hl
      cases hl
    | transport l =>
      obtain ⟨obj, es, hx, -⟩ := next_transport (e := e) hl
      rw [Transport.step_done h.obj l] at hx
      cases hx
    | receive =>
      obtain ⟨c, t', rest, hc, rfl⟩ := next_receive (e := e) hl
      obtain ⟨hobj, hall⟩ := ih (h.receive hc) ht
      refine ⟨hobj, fun l hl => ?_⟩
      rcases mem_cons.mp hl with rfl | hl
      · rfl
      · exact hall l hl

end MessageState

/-! ### All messages -/

/-- Any number of messages side by side. -/
def messageSystem {ι T : Type*} [DecidableEq ι] {locale_of : Core → ℤ}
    (env : ι → Envelope locale_of T) : Transition.System (ι → MessageState T) (ι × MessageLabel) :=
  Transition.System.product fun i => MessageState.machine (env i)

/-- **The `mark_sent` protocol.**  In every interleaving, for every message: its functor runs at
    most once, on its destination; the final `mark_sent` is executed at most once, on its source,
    only after the functor has run or was serialized for the destination, it is the step that
    sets `is_sent`, and no task is left waiting; afterwards no step touches the message object.
    Every run contains at most 14 steps that move the message on, and when none is possible both
    the functor and the final `mark_sent` have been executed. -/
theorem mark_sent_exactly_once {ι T : Type*} [DecidableEq ι] {locale_of : Core → ℤ}
    (env : ι → Envelope locale_of T) (S : ι → MessageState T)
    (hS : (messageSystem env).Reachable S) (i : ι) :
    let m := S i
    let e := env i
    (m.ran = [] ∨ m.ran = [(e.dest, e.storage)]) ∧
    (m.finals = [] ∨ m.finals = [e.source]) ∧
    (m.finals = [e.source] → m.ran ++ m.copies = [(e.dest, e.storage)]) ∧
    (m.obj.msg.is_sent = true ↔ m.finals = [e.source]) ∧
    (m.finals = [e.source] → m.obj.msg.is_enqueued = true ∧ m.obj.msg.cv_waiters = 0) ∧
    (m.finals = [e.source] → ∀ ls S', (messageSystem env).run S ls = some S' →
      (S' i).obj = m.obj ∧ ∀ l ∈ System.proj i ls, l = .receive) ∧
    (∀ ls S', (messageSystem env).run (messageSystem env).init ls = some S' →
      (System.proj i ls).countP MessageState.progress ≤ 14) ∧
    ((∀ l, MessageState.progress l = true → (MessageState.machine e).next m l = none) →
      m.ran = [(e.dest, e.storage)] ∧ m.finals = [e.source]) := by
  intro m e
  have hinv : MessageState.Inv e m := MessageState.reachable_inv (hS.proj i)
  have hbound : ∀ ls S', (messageSystem env).run (messageSystem env).init ls = some S' →
      (System.proj i ls).countP MessageState.progress ≤ 14 := by
    intro ls S' hrun
    have hle := MessageState.Inv.run_rank (Or.inl rfl) (System.run_proj hrun i)
    refine hle.trans ?_
    show (MessageState.fresh e).rank ≤ 14
    simp [MessageState.rank, MessageState.fresh, Transport.rank, MessageBase.make]
  have hcomplete := hinv.complete
  rcases hinv with hfresh | ⟨ph, h⟩
  · rw [hfresh] at hcomplete ⊢
    refine ⟨Or.inl rfl, Or.inl rfl, ?_, ?_, ?_, ?_, hbound, hcomplete⟩ <;>
      simp [MessageState.fresh, MessageBase.make]
  have hruns := h.runs
  have hfin := h.finals
  have hsent := h.obj.sent
  by_cases hph : ph = .done
  · subst hph
    simp only [reduceCtorEq, if_false, if_true, decide_true] at hruns hfin hsent
    have hran : m.ran = [] ∨ m.ran = [(e.dest, e.storage)] := by
      rcases append_eq_singleton_iff.mp hruns with ⟨hr, -⟩ | ⟨hr, -⟩
      · exact Or.inl hr
      · exact Or.inr hr
    refine ⟨hran, Or.inr hfin, fun _ => hruns, ⟨fun _ => hfin, fun _ => hsent⟩,
      fun _ => ⟨h.obj.enqueued, (h.obj.done rfl).2⟩, fun _ ls S' hrun => ?_, hbound, hcomplete⟩
    exact h.done_run (System.run_proj hrun i)
  · -- before the last phase nothing was finally marked sent
    have hnone : m.finals ≠ [e.source] := by simp [hfin, hph]
    have hns : m.obj.msg.is_sent ≠ true := by simp [hsent, hph]
    have hran : m.ran = [] ∨ m.ran = [(e.dest, e.storage)] := by
      split_ifs at hruns
      · exact Or.inl (append_eq_nil_iff.mp hruns).1
      · rcases append_eq_singleton_iff.mp hruns with ⟨hr, -⟩ | ⟨hr, -⟩
        · exact Or.inl hr
        · exact Or.inr hr
    exact ⟨hran, Or.inl (by simp [hfin, hph]), fun h => absurd h hnone,
      ⟨fun h => absurd h hns, fun h => absurd h hnone⟩, fun h => absurd h hnone,
      fun h => absurd h hnone, hbound, hcomplete⟩

/-- Core 1 serializes a message from core 0 to core 2 of the next locale; the message returns to
    core 0, which marks it sent, and the copy runs on core 2. -/
theorem mark_sent_exactly_once_foreign_core :
    let env : Unit → Envelope (fun c => c / 2) ℕ := fun _ => ⟨0, 2, 7, true, .coreData, nofun⟩
    ∃ S, (messageSystem env).Reachable S ∧ (S ()).finals = [0] ∧
      (S ()).ran ++ (S ()).copies = [(2, 7)] := by
  intro env
  have hreach : (messageSystem env).Reachable _ :=
    ⟨[((), .enqueue), ((), .transport .publish), ((), .transport (.grab 1)),
      ((), .transport (.serialize_to false)), ((), .transport (.serialize_to true)),
      ((), .transport .publish), ((), .transport (.grab 0)), ((), .transport .deliver_locally),
      ((), .receive)], rfl⟩
  exact ⟨_, hreach, rfl, (mark_sent_exactly_once env _ hreach ()).2.2.1 rfl⟩

end Grappa
