import AdvCompArch.Grappa.GceLedger

/-! # The counts of the global completion event

    Every state has a ledger (`GceState.ledger`).  A step of the event is a step of its
    ledger, or leaves it as it is, so the ledger's invariant is one of the event.

    A handler runs on a state from which its message has been taken.  What is known is the
    invariant of the state in which the message is still in flight, `s.post m`; a call of a
    task to its own core is treated the same way.

    `count_step`: every step that meets `CountCond` keeps `CountInv`. -/

namespace Grappa

open Census Option Multiset Function CompletionCell

variable {n : ℕ}

/-- Whether the message is part of the reset of a phase. -/
def WakeMsg.resets : WakeMsg n → ℤ
  | .reset _ _ => 1
  | .reset_done _ => 1
  | _ => 0

theorem WakeMsg.resets_nonneg (m : WakeMsg n) : 0 ≤ m.resets := by
  cases m <;> simp [resets]

theorem weigh_toAll {f : WakeMsg n → ℤ} {m : Fin (n + 1) → WakeMsg n} {k : ℤ}
    (hf : ∀ c, f (m c) = k) : weigh f (toAll m) = (n + 1 : ℕ) * k := by
  unfold toAll
  rw [weigh_map_list, List.map_congr_left fun c _ => hf c]
  simp

namespace GceState

/-- What the counts of a state depend on. -/
def ledger (s : GceState n) : Ledger n where
  count c := (s.gce c).count
  cores_out := (s.gce master_core).cores_out
  awaited := (s.gce master_core).temporary_waking_cores_out
  units := s.units
  pending c := ∑ source, (s.completion_msgs (source, c)).pending
  counting := s.counting
  resets := weigh WakeMsg.resets s.waking
  opened := s.opened
  stamp := s.stamp
  clock := s.clock

structure CountInv (cfg : GceConfig) (s : GceState n) : Prop where
  cells : ∀ p : Fin (n + 1) × Fin (n + 1),
    CompletionCell.Inv cfg.locale_of (p.1 : ℕ) (p.2 : ℕ) (s.completion_msgs p)
  cells_pos : ∀ p, (s.completion_msgs p).Positive
  ledger : s.ledger.Inv

variable {cfg : GceConfig} {s s' t : GceState n}

/-! ### Updates and the ledger -/

@[simp] theorem update_gce_self (c : Fin (n + 1)) (f : Gce → Gce) (s : GceState n) :
    (s.update c f).gce c = f (s.gce c) :=
  update_self _ _ _

theorem update_gce_ne {c d : Fin (n + 1)} (h : d ≠ c) (f : Gce → Gce) (s : GceState n) :
    (s.update c f).gce d = s.gce d :=
  update_of_ne h _ _

theorem update_field {α : Type} (field : Gce → α) {f : Gce → Gce}
    (hf : ∀ g, field (f g) = field g) (c d : Fin (n + 1)) (s : GceState n) :
    field ((s.update c f).gce d) = field (s.gce d) := by
  by_cases h : d = c
  · subst h
    rw [update_gce_self, hf]
  · rw [update_gce_ne h]

@[simp] theorem ledger_post (m : CountMsg n) (s : GceState n) :
    (s.post m).ledger = s.ledger.post m := rfl

@[simp] theorem ledger_postWake (m : WakeMsg n) (s : GceState n) :
    (s.postWake m).ledger = { s.ledger with resets := m.resets + s.ledger.resets } := by
  simp [ledger, postWake]

theorem ledger_update (c : Fin (n + 1)) (f : Gce → Gce) (s : GceState n) :
    (s.update c f).ledger = { s.ledger with
      count := Function.update s.ledger.count c (f (s.gce c)).count
      cores_out := ((s.update c f).gce master_core).cores_out
      awaited := ((s.update c f).gce master_core).temporary_waking_cores_out } := by
  apply Ledger.ext
  case count =>
    funext d
    show ((s.update c f).gce d).count = Function.update s.ledger.count c (f (s.gce c)).count d
    by_cases h : d = c
    · subst h
      rw [update_gce_self, update_self]
    · rw [update_gce_ne h, update_of_ne h]
      rfl
  all_goals rfl

theorem ledger_update_eq {f : Gce → Gce} (hcount : ∀ g, (f g).count = g.count)
    (hout : ∀ g, (f g).cores_out = g.cores_out)
    (hawaited : ∀ g, (f g).temporary_waking_cores_out = g.temporary_waking_cores_out)
    (c : Fin (n + 1)) (s : GceState n) : (s.update c f).ledger = s.ledger := by
  rw [ledger_update, update_field Gce.cores_out hout,
    update_field Gce.temporary_waking_cores_out hawaited, hcount]
  show { s.ledger with count := Function.update s.ledger.count c (s.ledger.count c) } = s.ledger
  rw [update_eq_self]

theorem ledger_setInProgress (c : Fin (n + 1)) (s : GceState n) :
    (s.setInProgress c).ledger = s.ledger :=
  ledger_update_eq (f := fun g => { g with event_in_progress := true }) (fun _ => rfl)
    (fun _ => rfl) (fun _ => rfl) c s

theorem ledger_setRecurring (call : EnrollCall n) (s : GceState n) :
    (s.setRecurring call).ledger = s.ledger :=
  ledger_update_eq (f := fun g => { g with reenroll_count := toInt call.inc }) (fun _ => rfl)
    (fun _ => rfl) (fun _ => rfl) call.core s

theorem ledger_suspend (c : Fin (n + 1)) (w : ℕ) (s : GceState n) :
    (s.suspend c w).ledger = s.ledger :=
  ledger_update_eq (f := Gce.enqueueWaiter w) (fun _ => rfl) (fun _ => rfl)
    (fun _ => rfl) c s

theorem ledger_conservativeCheck (c : Fin (n + 1)) (w : ℕ) (co : ℤ) (s : GceState n) :
    (s.conservativeCheck c w co).ledger = s.ledger := by
  unfold conservativeCheck
  split_ifs
  · exact ledger_suspend c w s
  · rfl

theorem ledger_wakeCore (c : Fin (n + 1)) (s : GceState n) : (s.wakeCore c).ledger = s.ledger :=
  ledger_update_eq (f := Gce.emptyTemporary) (fun _ => rfl)
    (fun _ => rfl) (fun _ => rfl) c s

theorem ledger_cancelBarrier (s : GceState n) :
    s.cancelBarrier.ledger = { s.ledger with cores_out := s.ledger.cores_out + 1 } := by
  unfold cancelBarrier
  rw [ledger_update, update_gce_self]
  show { s.ledger with
    count := Function.update s.ledger.count master_core (s.ledger.count master_core)
    cores_out := s.ledger.cores_out + 1 } = _
  rw [update_eq_self]

theorem ledger_setAwaited (k : ℤ) (s : GceState n) :
    (s.update master_core (Gce.awaitResets k)).ledger =
      { s.ledger with awaited := k } := by
  rw [ledger_update, update_field Gce.cores_out (fun _ => by rfl), update_gce_self]
  show { s.ledger with
    count := Function.update s.ledger.count master_core (s.ledger.count master_core)
    awaited := k } = _
  rw [update_eq_self]

theorem ledger_complete (c : Fin (n + 1)) (dec : ℤ) (s : GceState n) :
    (s.complete c dec).ledger = s.ledger.complete c dec := by
  have hupdate : (s.update c fun g => { g with count := g.count - dec }).ledger =
      { s.ledger with count := Function.update s.ledger.count c (s.ledger.count c - dec) } := by
    rw [ledger_update, update_field Gce.cores_out (fun _ => by rfl),
      update_field Gce.temporary_waking_cores_out (fun _ => by rfl)]
    rfl
  unfold complete Ledger.complete
  simp only [update_gce_self]
  by_cases hzero : (s.gce c).count - dec = 0
  · rw [if_pos hzero, if_pos (show s.ledger.count c - dec = 0 from hzero)]
    rw [ledger_post, hupdate]
    rfl
  · rw [if_neg hzero, if_neg (show ¬ s.ledger.count c - dec = 0 from hzero), hupdate, zero_add]

/-! ### Enrolling -/

theorem release_units (parent : Option (Fin (n + 1))) (s : GceState n) (d : Fin (n + 1)) :
    ((s.release parent).units d : ℤ) = s.units d + if parent = some d then 1 else 0 := by
  cases parent with
  | none => simp [release]
  | some o =>
    simp only [release, some.injEq]
    by_cases hd : o = d
    · subst hd
      rw [update_self, if_pos rfl]
      push_cast
      rfl
    · rw [update_of_ne (Ne.symm hd), if_neg hd, add_zero]

theorem enrolled_units (call : EnrollCall n) (s : GceState n) (d : Fin (n + 1)) :
    ((s.enrolled call).units d : ℤ) = s.units d + call.owes d := by
  unfold enrolled EnrollCall.owes
  rw [release_units, ← add_assoc]
  congr 1
  simp only
  by_cases hd : call.core = d
  · subst hd
    rw [update_self, if_pos rfl]
    push_cast
    rfl
  · rw [update_of_ne (Ne.symm hd), if_neg hd, add_zero]

theorem ledger_enrolled (call : EnrollCall n) (s : GceState n) :
    (s.enrolled call).ledger = { s.ledger with units := (s.enrolled call).units } := by
  unfold enrolled release
  cases call.parent <;> rfl

theorem enrolled_completion_msgs (call : EnrollCall n) (s : GceState n) :
    (s.enrolled call).completion_msgs = s.completion_msgs := by
  unfold enrolled release
  cases call.parent <;> rfl

theorem ledger_addCount (call : EnrollCall n) (s : GceState n) :
    (s.addCount call).ledger = { s.ledger with
      count := Function.update s.ledger.count call.core (s.ledger.count call.core + call.inc)
      opened := true } := by
  have hupdate : (s.update call.core fun g => { g with count := g.count + call.inc }).ledger =
      { s.ledger with
        count := Function.update s.ledger.count call.core (s.ledger.count call.core + call.inc) } := by
    rw [ledger_update, update_field Gce.cores_out (fun _ => by rfl),
      update_field Gce.temporary_waking_cores_out (fun _ => by rfl)]
    rfl
  exact congrArg (fun L : Ledger n => { L with opened := true }) hupdate

theorem ledger_leftZero (call : EnrollCall n) (s : GceState n) :
    (s.leftZero call).ledger = { s.ledger with
      stamp := Function.update s.ledger.stamp call.core s.ledger.clock
      clock := s.ledger.clock + 1 } :=
  congrArg (fun L : Ledger n => { L with
    stamp := Function.update s.ledger.stamp call.core s.ledger.clock
    clock := s.ledger.clock + 1 }) (ledger_setInProgress call.core s)

theorem hold_cases {parent : Option (Fin (n + 1))} (h : s.hold parent = some t) :
    t = { s with units := t.units } ∧
      ∀ d, (t.units d : ℤ) + (if parent = some d then 1 else 0) = s.units d := by
  cases parent with
  | none =>
    cases h
    exact ⟨rfl, fun d => by simp⟩
  | some o =>
    obtain ⟨ho, rfl⟩ := ite_some_none_eq_some.mp h
    refine ⟨rfl, ?_⟩
    intro d
    simp only [some.injEq]
    by_cases hd : o = d
    · subst hd
      rw [update_self, if_pos rfl]
      omega
    · rw [update_of_ne (Ne.symm hd), if_neg hd, add_zero]

namespace CountInv

theorem congr (h : CountInv cfg s) (hcells : s'.completion_msgs = s.completion_msgs)
    (hledger : s'.ledger = s.ledger) : CountInv cfg s' where
  cells := by
    rw [hcells]
    exact h.cells
  cells_pos := by
    rw [hcells]
    exact h.cells_pos
  ledger := by
    rw [hledger]
    exact h.ledger

theorem of_ledger (h : CountInv cfg s) (hcells : s'.completion_msgs = s.completion_msgs)
    (hledger : s'.ledger.Inv) : CountInv cfg s' where
  cells := by
    rw [hcells]
    exact h.cells
  cells_pos := by
    rw [hcells]
    exact h.cells_pos
  ledger := hledger

variable {m : CountMsg n} {call : EnrollCall n}

theorem ledger_post (h : CountInv cfg (s.post m)) : (s.ledger.post m).Inv := h.ledger

theorem finishEnroll (h : CountInv cfg (s.post m)) (hcall : m.resumes = some call)
    (hnot : ¬ m.IsCancel) (hstep : s.finishEnroll call = some s') : CountInv cfg s' := by
  obtain ⟨-, rfl⟩ := ite_some_none_eq_some.mp hstep
  apply h.of_ledger (enrolled_completion_msgs call s)
  rw [ledger_enrolled]
  exact h.ledger_post.return_call hcall hnot (enrolled_units call s)

theorem awaitAll (h : CountInv cfg (s.post m)) (hcall : m.resumes = some call)
    (hnot : ¬ m.IsCancel) {to_set : List (Fin (n + 1))} {acks : ℕ}
    (hstep : s.awaitAll call to_set acks = some s') : CountInv cfg s' := by
  unfold GceState.awaitAll at hstep
  split_ifs at hstep with hdone hprogress
  · -- everybody has answered
    exact h.finishEnroll hcall hnot hstep
  · cases hstep
    refine h.of_ledger (by rfl) ?_
    have hmove := h.ledger_post.move_on hcall
      (show (CountMsg.all_cores call to_set acks).resumes = some call from rfl) (fun hc => hc)
    rw [CountMsg.cancelsAt_of_not hnot, add_zero] at hmove
    exact hmove

theorem setInProgress (h : CountInv cfg s) (c : Fin (n + 1)) : CountInv cfg (s.setInProgress c) :=
  h.congr rfl (ledger_setInProgress c s)

theorem cancelled (h : CountInv cfg (s.post m)) (hcall : m.resumes = some call)
    (hnot : ¬ m.IsCancel) {co : ℤ} (hstep : s.cancelled call co = some s') : CountInv cfg s' := by
  unfold GceState.cancelled at hstep
  split_ifs at hstep with hone
  · exact (show CountInv cfg ((s.setInProgress call.core).post m) from
      h.setInProgress call.core).awaitAll hcall hnot hstep
  · exact h.finishEnroll hcall hnot hstep

theorem cancelBarrier (h : CountInv cfg (s.post (.cancel call))) (co : ℤ) :
    CountInv cfg (s.cancelBarrier.post (.cancel_reply call co)) := by
  refine h.of_ledger (by rfl) ?_
  rw [GceState.ledger_post, ledger_cancelBarrier]
  have hmove := h.ledger_post.move_on rfl
    (show (CountMsg.cancel_reply call co).resumes = some call from rfl) (fun hc => hc)
  simpa [CountMsg.cancelsAt] using hmove

/-- The first enroll of a phase may come from any task, the others from a unit of work. -/
theorem addWork (h : CountInv cfg s) (hinc : 1 ≤ call.inc) (hhold : s.hold call.parent = some t)
    (hparent : call.parent = none → s.opened = false) (hstep : t.addWork call = some s') :
    CountInv cfg s' := by
  obtain ⟨ht, hunits⟩ := hold_cases hhold
  have hgce : t.gce = s.gce := by rw [ht]
  have hledger : t.ledger = { s.ledger with units := t.units } := by
    rw [ht]
    rfl
  have hcells : t.completion_msgs = s.completion_msgs := by rw [ht]
  have hcount : ((t.addCount call).gce call.core).count = (s.gce call.core).count + call.inc := by
    unfold addCount
    simp only [update_gce_self, hgce]
  unfold GceState.addWork at hstep
  simp only [hcount] at hstep
  by_cases hzero : (s.gce call.core).count = 0
  · -- the core leaves zero
    rw [if_pos (by rw [hzero, zero_add])] at hstep
    have hleft : CountInv cfg (((t.addCount call).leftZero call).post (.cancel call)) := by
      refine h.of_ledger hcells ?_
      rw [GceState.ledger_post, ledger_leftZero, ledger_addCount, hledger]
      exact h.ledger.leave_zero hinc hzero hunits hparent
    unfold leaveZero at hstep
    simp only at hstep
    split_ifs at hstep with hmaster
    · have hcancel := hleft.cancelBarrier
        (((t.addCount call).leftZero call).cancelBarrier.gce master_core).cores_out
      exact hcancel.cancelled rfl (fun hc => hc) hstep
    · cases hstep
      exact hleft
  · -- the core has work already, so the enroll is not the first
    rw [if_neg (by omega)] at hstep
    cases hstep
    have hpos : 0 < (s.gce call.core).count := by
      have hnn : 0 ≤ (s.gce call.core).count := h.ledger.count_nonneg call.core
      omega
    cases hp : call.parent with
    | none =>
      obtain ⟨hq, hempty⟩ := h.ledger.idle (hparent hp)
      exact absurd (h.ledger.count_of_quiet hq hempty call.core) hzero
    | some o =>
      have ho : 1 ≤ s.units o := by
        have := hunits o
        rw [if_pos hp] at this
        omega
      -- the unit that was held is given back
      have hback : ((t.addCount call).enrolled call).units =
          Function.update s.units call.core (s.units call.core + call.inc) := by
        funext d
        have hd := enrolled_units call (t.addCount call) d
        have hu := hunits d
        change _ = (t.units d : ℤ) + call.owes d at hd
        unfold EnrollCall.owes at hd
        by_cases hdc : d = call.core
        · subst hdc
          rw [update_self]
          rw [if_pos rfl] at hd
          omega
        · rw [update_of_ne hdc]
          rw [if_neg (Ne.symm hdc)] at hd
          omega
      refine h.of_ledger ((enrolled_completion_msgs call _).trans hcells) ?_
      rw [ledger_enrolled, ledger_addCount, hledger, hback]
      exact h.ledger.enroll_more ho hpos

/-! ### Completing -/

theorem deliver_complete {c : Fin (n + 1)} {dec : ℤ} (h : CountInv cfg (s.post (.complete c dec))) :
    CountInv cfg (s.complete c dec) := by
  refine h.of_ledger ?_ ?_
  · unfold complete
    simp only
    split_ifs <;> rfl
  · rw [ledger_complete]
    exact h.ledger_post.deliver_complete

theorem ledger_setCell (source owner : Fin (n + 1)) (cell : CompletionCell) (s : GceState n) :
    ({ s with completion_msgs := Function.update s.completion_msgs (source, owner) cell } :
      GceState n).ledger = { s.ledger with
        pending := Function.update s.ledger.pending owner (s.ledger.pending owner -
          (s.completion_msgs (source, owner)).pending + cell.pending) } := by
  apply Ledger.ext
  case pending =>
    funext c
    show ∑ k, (Function.update s.completion_msgs (source, owner) cell (k, c)).pending =
      Function.update s.ledger.pending owner _ c
    by_cases hc : c = owner
    · subst hc
      rw [update_self,
        sum_eq_of_eq_off (f := fun k => (s.completion_msgs (k, c)).pending) (c := source)]
      · rw [update_self]
        rfl
      · intro k hk
        rw [update_of_ne]
        intro heq
        exact hk (Prod.mk.inj heq).1
    · rw [update_of_ne hc]
      show _ = ∑ k, (s.completion_msgs (k, c)).pending
      apply Finset.sum_congr rfl
      intro k _
      rw [update_of_ne]
      intro heq
      exact hc (Prod.mk.inj heq).2
  all_goals rfl

/-- A step of a completion message.  `units` are those of the owner before the step, which is
    asked to complete the difference to what they are now. -/
theorem completionStep {source owner : Fin (n + 1)} {l : CompletionLabel} (units : ℕ)
    (h : CountInv cfg { s with units := Function.update s.units owner units })
    (hunits : (units : ℤ) = s.units owner + asked l) (hl : l.Positive)
    (hone : CompletionCell.FlattensOne (source : ℕ) (owner : ℕ)
      (s.completion_msgs (source, owner)) l)
    (hstep : s.completionStep cfg source owner l = some s') : CountInv cfg s' := by
  unfold GceState.completionStep at hstep
  have hinv := h.cells (source, owner)
  have hpos := h.cells_pos (source, owner)
  simp only at hinv hpos
  cases hnext : CompletionCell.next cfg.locale_of (source : ℕ) (owner : ℕ)
      (s.completion_msgs (source, owner)) l with
  | none => simp [hnext] at hstep
  | some cell =>
    simp only [hnext] at hstep
    obtain ⟨hinv', -⟩ := next_spec hinv hnext
    obtain ⟨hpos', -, hdelivered⟩ := next_positive hinv hpos hl hnext
    have hpending := next_pending hinv hpos hl hone hnext
    generalize hdec : cell.delivered - (s.completion_msgs (source, owner)).delivered = dec at *
    generalize ht : ({ s with
      completion_msgs := Function.update s.completion_msgs (source, owner) cell } : GceState n) = t
      at hstep
    have hcells : ∀ p : Fin (n + 1) × Fin (n + 1),
        CompletionCell.Inv cfg.locale_of (p.1 : ℕ) (p.2 : ℕ) (t.completion_msgs p) ∧
          (t.completion_msgs p).Positive := by
      intro p
      rw [← ht]
      show CompletionCell.Inv _ _ _ (Function.update s.completion_msgs (source, owner) cell p) ∧
        (Function.update s.completion_msgs (source, owner) cell p).Positive
      by_cases hp : p = (source, owner)
      · subst hp
        rw [update_self]
        exact ⟨hinv', hpos'⟩
      · rw [update_of_ne hp]
        exact ⟨h.cells p, h.cells_pos p⟩
    -- what is pending for the owner takes over what it is asked, less what is delivered
    have hledger := ledger_setCell source owner cell s
    rw [ht] at hledger
    generalize hp : s.ledger.pending owner -
      (s.completion_msgs (source, owner)).pending + cell.pending = p at hledger
    have hnonneg : 0 ≤ p := by
      have hsum : 0 ≤ ∑ k, (t.completion_msgs (k, owner)).pending := Finset.sum_nonneg fun k _ =>
        pending_nonneg (hcells (k, owner)).1 (hcells (k, owner)).2
      have hp' : t.ledger.pending owner = p := by
        rw [hledger]
        exact update_self _ _ _
      rw [← hp']
      exact hsum
    have hbefore : ({ s.ledger with units := Function.update s.units owner units } :
      Ledger n).Inv := h.ledger
    have hunits' : ∀ d, d ≠ owner → s.units d = Function.update s.units owner units d :=
      fun d hd => (update_of_ne hd _ _).symm
    have hpending' : ∀ d, d ≠ owner →
        Function.update s.ledger.pending owner p d = s.ledger.pending d :=
      fun d hd => update_of_ne hd _ _
    split_ifs at hstep with hzero
    · cases hstep
      refine ⟨fun p => (hcells p).1, fun p => (hcells p).2, ?_⟩
      rw [hledger]
      apply hbefore.transfer (c := owner) hunits' hpending'
      · rw [update_self]
        exact hnonneg
      · simp only [update_self]
        omega
    · cases hstep
      apply deliver_complete
      refine ⟨fun p => (hcells p).1, fun p => (hcells p).2, ?_⟩
      rw [GceState.ledger_post, hledger]
      apply hbefore.post_complete (c := owner) hunits' hpending'
      · rw [update_self]
        exact hnonneg
      · omega
      · simp only [update_self]
        omega

theorem completeTarget {c owner : Fin (n + 1)} {dec : ℕ} (h : CountInv cfg s)
    (hone : cfg.flatten_completions = true → c ≠ owner →
      (s.completion_msgs (c, owner)).cm.msg.waiting_to_send = true → dec = 1)
    (hstep : s.completeTarget cfg c owner dec = some s') : CountInv cfg s' := by
  obtain ⟨⟨hdec, hle⟩, hstep⟩ := ite_none_right_eq_some.mp hstep
  have hpost : CountInv cfg ({ s with
      units := Function.update s.units owner (s.units owner - dec) }.post (.complete owner dec)) := by
    refine h.of_ledger (by rfl) ?_
    show (({ s.ledger with units := Function.update s.units owner (s.units owner - dec) } :
      Ledger n).post (.complete owner dec)).Inv
    apply h.ledger.post_complete (c := owner)
    · intro d hd
      exact update_of_ne hd _ _
    · intro d _
      rfl
    · exact h.ledger.pending_nonneg owner
    · omega
    · show ((Function.update s.units owner (s.units owner - dec) owner : ℕ) : ℤ) +
        s.ledger.pending owner + dec = s.units owner + s.ledger.pending owner
      rw [update_self]
      omega
  split_ifs at hstep with hlocal hflat
  · cases hstep
    exact hpost.deliver_complete
  · refine completionStep (s.units owner) ?_ ?_ ?_ ?_ hstep
    · simp only [update_idem, update_eq_self]
      exact h
    · simp only [update_self, asked]
      omega
    · show (1 : ℤ) ≤ dec
      omega
    · intro dec' hflattened
      obtain ⟨heq, -, hwait⟩ := hflattened
      obtain rfl := CompletionLabel.send_completion.inj heq
      rw [hone hflat hlocal hwait]
      rfl
  · cases hstep
    exact hpost

/-! ### The end of a phase -/

theorem enterBarrier (h : CountInv cfg (s.post .enter))
    (hawaited : (s.gce master_core).cores_out = 1 →
      (s.gce master_core).temporary_waking_cores_out = 0)
    (hstep : s.enterBarrier = some s') : CountInv cfg s' := by
  have hleft : (s.update master_core Gce.enter).ledger =
      { s.ledger with cores_out := s.ledger.cores_out - 1 } := by
    rw [ledger_update, update_gce_self]
    show { s.ledger with
      count := Function.update s.ledger.count master_core (s.ledger.count master_core)
      cores_out := s.ledger.cores_out - 1 } = _
    rw [update_eq_self]
  unfold GceState.enterBarrier at hstep
  simp only [update_gce_self] at hstep
  split_ifs at hstep with hzero hcheck
  · cases hstep
    refine h.of_ledger (by rfl) ?_
    have hone : (s.gce master_core).cores_out = 1 := by
      change (s.gce master_core).cores_out - 1 = 0 at hzero
      omega
    have hend := (h.ledger_post.end_phase hone (hawaited hone) (n + 1 : ℕ)).1
    show ({ ((s.update master_core Gce.enter).update master_core
        (Gce.awaitResets (n + 1 : ℕ))).ledger with
      resets := weigh WakeMsg.resets (toAll _ + s.waking)
      opened := false } : Ledger n).Inv
    rw [ledger_setAwaited, hleft, weigh_add, weigh_toAll (k := 1) fun c => by rfl, mul_one]
    exact hend
  · cases hstep
    refine h.of_ledger (by rfl) ?_
    rw [hleft]
    exact h.ledger_post.deliver_enter

theorem resetCore {c : Fin (n + 1)} {re : ℤ} (h : CountInv cfg (s.postWake (.reset c re)))
    (hout : c = master_core → (s.gce master_core).cores_out = 0)
    (hstep : s.resetCore c re = some s') : CountInv cfg s' := by
  obtain ⟨hcount, hstep⟩ := ite_none_right_eq_some.mp hstep
  -- the reset writes what is there already
  have hsame : (s.update c Gce.captureAndReset).ledger = s.ledger := by
    have hout' : ((s.update c Gce.captureAndReset).gce master_core).cores_out =
        s.ledger.cores_out := by
      by_cases hc : c = master_core
      · subst hc
        rw [update_gce_self]
        exact (hout rfl).symm
      · rw [update_gce_ne (Ne.symm hc)]
        rfl
    rw [ledger_update, hout', update_field Gce.temporary_waking_cores_out (fun _ => by rfl)]
    show { s.ledger with count := Function.update s.ledger.count c 0 } = _
    have hzero : s.ledger.count c = 0 := hcount
    rw [← hzero, update_eq_self]
  cases hstep
  by_cases hre : re ≠ 0
  · simp only [if_pos hre]
    refine h.congr (by rfl) ?_
    rw [ledger_postWake, ledger_postWake, ledger_setInProgress, hsame]
    rfl
  · simp only [if_neg hre]
    refine h.congr (by rfl) ?_
    rw [ledger_postWake, ledger_postWake, hsame]
    rfl

theorem resetDone {re : ℤ} (h : CountInv cfg (s.postWake (.reset_done re)))
    (hclosed : (s.gce master_core).temporary_waking_cores_out = 1 → re ≠ 0 →
      s.opened = false ∧ 0 < re) : CountInv cfg (s.resetDone re) := by
  have hledger := h.ledger
  rw [ledger_postWake] at hledger
  have hawaited : s.ledger.awaited = 1 + s.ledger.resets := hledger.resets_eq
  -- one answer fewer is awaited, and one fewer is in flight
  have hinv := hledger.with_resets (s.ledger.awaited - 1)
  have hresets : s.ledger.resets = s.ledger.awaited - 1 := by omega
  generalize ht : s.update master_core
    (fun g => g.awaitResets (g.temporary_waking_cores_out - 1)) = t
  have htl : t.ledger = { s.ledger with awaited := s.ledger.awaited - 1 } := by
    rw [← ht, ledger_update, update_field Gce.cores_out (fun _ => by rfl), update_gce_self]
    show { s.ledger with
      count := Function.update s.ledger.count master_core (s.ledger.count master_core)
      awaited := s.ledger.awaited - 1 } = _
    rw [update_eq_self]
  have htc : t.completion_msgs = s.completion_msgs := by rw [← ht]; rfl
  have htinv : t.ledger.Inv := by
    rw [htl]
    simp only [← hresets] at hinv ⊢
    exact hinv
  have htw : (t.gce master_core).temporary_waking_cores_out = s.ledger.awaited - 1 := by
    rw [← ht, update_gce_self]
    rfl
  unfold GceState.resetDone
  simp only [ht, htw]
  split_ifs with hlast hre
  · -- the master enrolls again, and everybody is woken
    have hone : (s.gce master_core).temporary_waking_cores_out = 1 := by
      change (s.gce master_core).temporary_waking_cores_out - 1 = 0 at hlast
      omega
    obtain ⟨hclosed', hpos⟩ := hclosed hone hre
    have htopened : t.ledger.opened = false := by
      rw [htl]
      exact hclosed'
    refine h.of_ledger htc ?_
    have hre' := htinv.reenroll htopened hpos
    have hgce : (t.update master_core (Gce.reenroll re)).ledger =
        { t.ledger with
          count := Function.update t.ledger.count master_core re
          cores_out := 1 } := by
      rw [ledger_update, update_field Gce.temporary_waking_cores_out (fun _ => by rfl),
        update_gce_self]
      rfl
    show ({ (t.update master_core (Gce.reenroll re)).ledger with
      units := Function.update t.ledger.units master_core (t.ledger.units master_core + re.toNat)
      opened := true
      resets := weigh WakeMsg.resets (toAll .wake + t.waking) } : Ledger n).Inv
    rw [hgce, weigh_add, weigh_toAll (k := 0) fun c => by rfl, mul_zero, zero_add]
    exact hre'
  · refine h.of_ledger htc ?_
    show ({ t.ledger with resets := weigh WakeMsg.resets (toAll .wake + t.waking) } : Ledger n).Inv
    rw [weigh_add, weigh_toAll (k := 0) fun c => by rfl, mul_zero, zero_add]
    exact htinv
  · exact h.of_ledger htc htinv

/-! ### Messages -/

theorem taken (h : CountInv cfg s) (hm : m ∈ s.counting) :
    CountInv cfg ({ s with counting := s.counting.erase m }.post m) := by
  unfold post
  simp only [cons_erase hm]
  exact h

theorem takenWake (h : CountInv cfg s) {w : WakeMsg n} (hw : w ∈ s.waking) :
    CountInv cfg ({ s with waking := s.waking.erase w }.postWake w) := by
  unfold postWake
  simp only [cons_erase hw]
  exact h

theorem dropWake {w : WakeMsg n} (h : CountInv cfg (s.postWake w)) (hw : w.resets = 0) :
    CountInv cfg s := by
  refine h.congr (by rfl) ?_
  rw [ledger_postWake, hw, zero_add]

theorem postWake (h : CountInv cfg s) {w : WakeMsg n} (hw : w.resets = 0) :
    CountInv cfg (s.postWake w) := by
  refine h.congr (by rfl) ?_
  rw [ledger_postWake, hw, zero_add]

theorem conservativeCheck (h : CountInv cfg s) (c : Fin (n + 1)) (w : ℕ) (co : ℤ) :
    CountInv cfg (s.conservativeCheck c w co) := by
  refine h.congr ?_ (ledger_conservativeCheck c w co s)
  unfold GceState.conservativeCheck
  split_ifs <;> rfl

theorem wait (h : CountInv cfg s) (c : Fin (n + 1)) : CountInv cfg (s.wait c) := by
  unfold GceState.wait
  split_ifs
  · exact h.congr rfl (ledger_suspend c s.phase s)
  · exact h.conservativeCheck c s.phase _
  · exact h.postWake rfl

end CountInv

/-! ### The system -/

/-- What a step must not do to the counts: begin a phase with a task that is no unit of work
    while another phase is open; flatten a decrement other than one; end a phase, reset the
    master or enroll again while the phase before or after is in the way. -/
def CountCond (cfg : GceConfig) (s : GceState n) : GceLabel n → Prop
  | .enroll _ call => call.inc ≠ 0 → call.parent = none → s.opened = false
  | .complete c owner dec => cfg.flatten_completions = true → c ≠ owner →
      (s.completion_msgs (c, owner)).cm.msg.waiting_to_send = true → dec = 1
  | .deliver .enter => (s.gce master_core).cores_out = 1 →
      (s.gce master_core).temporary_waking_cores_out = 0
  | .deliver_wake (.reset c _) => c = master_core → (s.gce master_core).cores_out = 0
  | .deliver_wake (.reset_done re) => (s.gce master_core).temporary_waking_cores_out = 1 →
      re ≠ 0 → s.opened = false ∧ 0 < re
  | _ => True

theorem init_pending (n : ℕ) (c : Fin (n + 1)) : (init n).ledger.pending c = 0 := by
  show ∑ source, ((init n).completion_msgs (source, c)).pending = 0
  exact Finset.sum_eq_zero fun _ _ => rfl

theorem init_countInv (n : ℕ) (cfg : GceConfig) : CountInv cfg (init n) where
  cells p := fresh_inv cfg.locale_of _ _
  cells_pos _ := fresh_positive
  ledger :=
  { pending_nonneg := fun c => (init_pending n c).ge
    positive := fun m hm => absurd hm (notMem_zero m)
    owed := by
      intro c
      rw [init_pending]
      simp [GceState.ledger, init, Gce.fresh]
    out := by
      simp [GceState.ledger, init, Gce.fresh, Ledger.counted]
    one_call := by
      intro c
      simp [GceState.ledger, init]
    stamps := fun c => Nat.zero_lt_one
    causes := fun call hcall => absurd hcall (notMem_zero _)
    first := fun m hm => absurd hm (notMem_zero m)
    idle := by
      intro _
      exact ⟨⟨fun _ => rfl, init_pending n⟩, rfl⟩
    resets_eq := rfl }

/-- `enroll(0)` does nothing, and any other `enroll` adds work. -/
theorem enroll_cases {recurring : Bool} {call : EnrollCall n}
    (hstep : s.enroll recurring call = some s') :
    ∃ u, (u = s ∨ recurring = true ∧ call.core = master_core ∧ u = s.setRecurring call) ∧
      (call.inc = 0 ∧ s' = u ∨
        call.inc ≠ 0 ∧ ∃ v, u.hold call.parent = some v ∧ v.addWork call = some s') := by
  unfold enroll at hstep
  by_cases hmaster : recurring = true ∧ call.core ≠ master_core
  · rw [if_pos hmaster] at hstep
    exact absurd hstep (by simp)
  rw [if_neg hmaster] at hstep
  generalize ht : (if recurring = true then s.setRecurring call else s) = t at hstep
  refine ⟨t, ?_, ?_⟩
  · rw [← ht]
    by_cases hrec : recurring = true
    · rw [if_pos hrec]
      exact Or.inr ⟨hrec, by_contra fun hne => hmaster ⟨hrec, hne⟩, rfl⟩
    · rw [if_neg hrec]
      exact Or.inl rfl
  · simp only at hstep
    split_ifs at hstep with hinc
    · exact Or.inl ⟨hinc, (some.inj hstep).symm⟩
    · exact Or.inr ⟨hinc, bind_eq_some_iff.mp hstep⟩

theorem enroll_countInv (h : CountInv cfg s) {recurring : Bool} {call : EnrollCall n}
    (hparent : call.inc ≠ 0 → call.parent = none → s.opened = false)
    (hstep : s.enroll recurring call = some s') : CountInv cfg s' := by
  obtain ⟨u, hu, hcase⟩ := enroll_cases hstep
  have huinv : CountInv cfg u ∧ u.opened = s.opened := by
    rcases hu with rfl | ⟨-, -, rfl⟩
    · exact ⟨h, rfl⟩
    · exact ⟨h.congr rfl (ledger_setRecurring call s), rfl⟩
  rcases hcase with ⟨-, rfl⟩ | ⟨hinc, v, hhold, hadd⟩
  · exact huinv.1
  · refine huinv.1.addWork (by omega) hhold ?_ hadd
    rw [huinv.2]
    exact hparent hinc

theorem deliver_countInv (h : CountInv cfg s) {m : CountMsg n}
    (hcond : CountCond cfg s (.deliver m)) (hstep : s.takeCount m deliverCount = some s') :
    CountInv cfg s' := by
  obtain ⟨hm, hstep⟩ := ite_none_right_eq_some.mp hstep
  have htaken := h.taken hm
  cases m with
  | cancel call =>
    cases hstep
    exact htaken.cancelBarrier _
  | cancel_reply call co => exact htaken.cancelled rfl (fun hc => hc) hstep
  | all_cores call to_set acks => exact absurd hstep (by simp [deliverCount])
  | complete owner dec =>
    cases hstep
    exact htaken.deliver_complete
  | enter => exact htaken.enterBarrier hcond hstep

theorem deliverWake_countInv (h : CountInv cfg s) {w : WakeMsg n}
    (hcond : CountCond cfg s (.deliver_wake w)) (hstep : s.takeWake w deliverWake = some s') :
    CountInv cfg s' := by
  obtain ⟨hw, hstep⟩ := ite_none_right_eq_some.mp hstep
  have htaken := h.takenWake hw
  cases w with
  | reset c re => exact htaken.resetCore hcond hstep
  | reset_done re =>
    cases hstep
    exact htaken.resetDone hcond
  | wake c =>
    cases hstep
    exact (htaken.dropWake rfl).congr rfl (ledger_wakeCore c _)
  | query c w =>
    cases hstep
    exact (htaken.dropWake rfl).postWake rfl
  | query_reply c w co =>
    cases hstep
    exact (htaken.dropWake rfl).conservativeCheck c w co

theorem count_step (h : CountInv cfg s) {l : GceLabel n} (hcond : CountCond cfg s l)
    (hstep : s.next cfg l = some s') : CountInv cfg s' := by
  cases l with
  | enroll recurring call => exact enroll_countInv h hcond hstep
  | complete c owner dec => exact h.completeTarget hcond hstep
  | completion_msg source owner l =>
    refine CountInv.completionStep (s.units owner) ?_ ?_ (by trivial) ?_ hstep
    · rw [Function.update_eq_self]
      exact h
    · simp [asked]
    · intro dec hflat
      exact absurd hflat.1 (by simp)
  | completion_received source owner dec =>
    refine CountInv.completionStep (s.units owner) ?_ ?_ (by trivial) ?_ hstep
    · rw [update_eq_self]
      exact h
    · simp [asked]
    · intro dec hflat
      exact absurd hflat.1 (by simp)
  | wait c =>
    cases hstep
    exact h.wait c
  | deliver m => exact deliver_countInv h hcond hstep
  | deliver_in_progress m c =>
    obtain ⟨hm, hstep⟩ := ite_none_right_eq_some.mp hstep
    have htaken := h.taken hm
    cases m with
    | all_cores call to_set acks =>
      obtain ⟨-, hstep⟩ := ite_none_right_eq_some.mp hstep
      have hset : CountInv cfg (GceState.post (.all_cores call to_set acks)
          (GceState.setInProgress c { s with
            counting := s.counting.erase (.all_cores call to_set acks) })) :=
        htaken.setInProgress c
      exact hset.awaitAll rfl (fun hc => hc) hstep
    | _ => exact absurd hstep (by simp [deliverInProgress])
  | deliver_ack m =>
    obtain ⟨hm, hstep⟩ := ite_none_right_eq_some.mp hstep
    have htaken := h.taken hm
    cases m with
    | all_cores call to_set acks =>
      obtain ⟨-, hstep⟩ := ite_none_right_eq_some.mp hstep
      exact htaken.awaitAll rfl (fun hc => hc) hstep
    | _ => exact absurd hstep (by simp [deliverAck])
  | deliver_wake w => exact deliverWake_countInv h hcond hstep

end GceState

end Grappa
