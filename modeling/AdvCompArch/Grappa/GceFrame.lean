import AdvCompArch.Grappa.GceCounts

/-! # What counting leaves alone

    Enrolling and completing touch the waiters of an event in one way only: they set it in
    progress.  `Frame` says so for each of the operations, so that an invariant of the
    phases or of the waiters has to be looked at where they change. -/

namespace Grappa

open Census Option

variable {n : ℕ}

namespace GceState

variable {cfg : GceConfig} {s s' t : GceState n}

/-- A step that only counts: phases, waiters and wake messages stay as they are, no cancel is
    taken from the network, and no event is set in progress except on the cores of `P`. -/
structure Frame (P : Fin (n + 1) → Prop) (s s' : GceState n) : Prop where
  phase : s'.phase = s.phase
  opened : s'.opened = s.opened
  waking : s'.waking = s.waking
  suspended : s'.suspended = s.suspended
  cancels : ∀ call, .cancel call ∈ s.counting → .cancel call ∈ s'.counting
  cv : ∀ c, (s'.gce c).cv = (s.gce c).cv
  temporary_waking_cv : ∀ c, (s'.gce c).temporary_waking_cv = (s.gce c).temporary_waking_cv
  reenroll_count : ∀ c, (s'.gce c).reenroll_count = (s.gce c).reenroll_count
  awaited : ∀ c, (s'.gce c).temporary_waking_cores_out = (s.gce c).temporary_waking_cores_out
  cores_out : ∀ c, (s.gce c).cores_out ≤ (s'.gce c).cores_out
  in_progress : ∀ c, (s'.gce c).event_in_progress = true →
    (s.gce c).event_in_progress = true ∨ P c

/-- What such a step may do to one replica. -/
structure Gce.Counts (g g' : Gce) : Prop where
  cv : g'.cv = g.cv
  temporary_waking_cv : g'.temporary_waking_cv = g.temporary_waking_cv
  reenroll_count : g'.reenroll_count = g.reenroll_count
  awaited : g'.temporary_waking_cores_out = g.temporary_waking_cores_out
  cores_out : g.cores_out ≤ g'.cores_out

namespace Frame

variable {P Q : Fin (n + 1) → Prop}

theorem of_gce (hgce : s'.gce = s.gce) (hphase : s'.phase = s.phase)
    (hopened : s'.opened = s.opened) (hwaking : s'.waking = s.waking)
    (hsuspended : s'.suspended = s.suspended)
    (hcancels : ∀ call, .cancel call ∈ s.counting → .cancel call ∈ s'.counting) :
    Frame P s s' where
  phase := hphase
  opened := hopened
  waking := hwaking
  suspended := hsuspended
  cancels := hcancels
  cv c := by rw [hgce]
  temporary_waking_cv c := by rw [hgce]
  reenroll_count c := by rw [hgce]
  awaited c := by rw [hgce]
  cores_out c := by rw [hgce]
  in_progress c hc := by
    rw [hgce] at hc
    exact Or.inl hc

theorem refl (s : GceState n) : Frame P s s :=
  of_gce rfl rfl rfl rfl rfl fun _ h => h

theorem trans (h : Frame P s t) (h' : Frame P t s') : Frame P s s' where
  phase := h'.phase.trans h.phase
  opened := h'.opened.trans h.opened
  waking := h'.waking.trans h.waking
  suspended := h'.suspended.trans h.suspended
  cancels call hcall := h'.cancels call (h.cancels call hcall)
  cv c := (h'.cv c).trans (h.cv c)
  temporary_waking_cv c := (h'.temporary_waking_cv c).trans (h.temporary_waking_cv c)
  reenroll_count c := (h'.reenroll_count c).trans (h.reenroll_count c)
  awaited c := (h'.awaited c).trans (h.awaited c)
  cores_out c := (h.cores_out c).trans (h'.cores_out c)
  in_progress c hc := (h'.in_progress c hc).elim (h.in_progress c) Or.inr

theorem update {f : Gce → Gce} (c : Fin (n + 1)) (s : GceState n)
    (hf : ∀ g, Gce.Counts g (f g))
    (hevent : ∀ g, (f g).event_in_progress = g.event_in_progress ∨ P c) :
    Frame P s (s.update c f) where
  phase := rfl
  opened := rfl
  waking := rfl
  suspended := rfl
  cancels _ h := h
  cv d := update_field Gce.cv (fun g => (hf g).cv) c d s
  temporary_waking_cv d :=
    update_field Gce.temporary_waking_cv (fun g => (hf g).temporary_waking_cv) c d s
  reenroll_count d := update_field Gce.reenroll_count (fun g => (hf g).reenroll_count) c d s
  awaited d := update_field Gce.temporary_waking_cores_out (fun g => (hf g).awaited) c d s
  cores_out d := by
    by_cases hdc : d = c
    · subst hdc
      rw [update_gce_self]
      exact (hf (s.gce d)).cores_out
    · rw [update_gce_ne hdc]
  in_progress d hd := by
    by_cases hdc : d = c
    · subst hdc
      rw [update_gce_self] at hd
      rcases hevent (s.gce d) with heq | hP
      · rw [heq] at hd
        exact Or.inl hd
      · exact Or.inr hP
    · rw [update_gce_ne hdc] at hd
      exact Or.inl hd

theorem post (h : Frame P s t) (m : CountMsg n) : Frame P s (t.post m) :=
  h.trans (of_gce rfl rfl rfl rfl rfl fun _ h => Multiset.mem_cons_of_mem h)

theorem enrolled (call : EnrollCall n) (s : GceState n) : Frame P s (s.enrolled call) := by
  unfold GceState.enrolled release
  cases call.parent <;> exact of_gce rfl rfl rfl rfl rfl fun _ h => h

theorem setInProgress {c : Fin (n + 1)} (hc : P c) (s : GceState n) :
    Frame P s (s.setInProgress c) :=
  update c s (fun _ => ⟨rfl, rfl, rfl, rfl, le_rfl⟩) fun _ => Or.inr hc

theorem finishEnroll {call : EnrollCall n} (hstep : s.finishEnroll call = some s') :
    Frame P s s' := by
  obtain ⟨-, rfl⟩ := ite_some_none_eq_some.mp hstep
  exact enrolled call s

theorem awaitAll {call : EnrollCall n} {to_set : List (Fin (n + 1))} {acks : ℕ}
    (hstep : s.awaitAll call to_set acks = some s') : Frame P s s' := by
  unfold GceState.awaitAll at hstep
  split_ifs at hstep
  · exact finishEnroll hstep
  · cases hstep
    exact (refl s).post _

theorem cancelled {call : EnrollCall n} (hc : P call.core) {co : ℤ}
    (hstep : s.cancelled call co = some s') : Frame P s s' := by
  unfold GceState.cancelled at hstep
  split_ifs at hstep
  · exact (setInProgress hc s).trans (awaitAll hstep)
  · exact finishEnroll hstep

theorem cancelBarrier (s : GceState n) : Frame P s s.cancelBarrier := by
  refine update master_core s (fun g => ⟨rfl, rfl, rfl, rfl, ?_⟩) fun _ => Or.inl rfl
  show g.cores_out ≤ g.cores_out + 1
  omega

theorem leftZero {call : EnrollCall n} (hc : P call.core) (s : GceState n) :
    Frame P s (s.leftZero call) :=
  (setInProgress hc s).trans (of_gce rfl rfl rfl rfl rfl fun _ h => h)

theorem leaveZero {call : EnrollCall n} (hc : P call.core)
    (hstep : s.leaveZero call = some s') : Frame P s s' := by
  unfold GceState.leaveZero at hstep
  simp only at hstep
  split_ifs at hstep
  · exact (leftZero hc s).trans ((cancelBarrier _).trans (cancelled hc hstep))
  · cases hstep
    exact (leftZero hc s).post _

theorem complete (c : Fin (n + 1)) (dec : ℤ) (s : GceState n) : Frame P s (s.complete c dec) := by
  have hupdate : Frame P s (s.update c fun g => { g with count := g.count - dec }) :=
    update c s (fun _ => ⟨rfl, rfl, rfl, rfl, le_rfl⟩) fun _ => Or.inl rfl
  unfold GceState.complete
  simp only
  split_ifs
  · exact hupdate.post _
  · exact hupdate

theorem completionStep {source owner : Fin (n + 1)} {l : CompletionLabel}
    (hstep : s.completionStep cfg source owner l = some s') : Frame P s s' := by
  unfold GceState.completionStep at hstep
  cases hnext : CompletionCell.next cfg.locale_of (source : ℕ) (owner : ℕ)
      (s.completion_msgs (source, owner)) l with
  | none => simp [hnext] at hstep
  | some cell =>
    have hcell : Frame P s { s with
        completion_msgs := Function.update s.completion_msgs (source, owner) cell } :=
      of_gce rfl rfl rfl rfl rfl fun _ h => h
    simp only [hnext] at hstep
    split_ifs at hstep
    · cases hstep
      exact hcell
    · cases hstep
      exact hcell.trans (complete _ _ _)

theorem completeTarget {c owner : Fin (n + 1)} {dec : ℕ}
    (hstep : s.completeTarget cfg c owner dec = some s') : Frame P s s' := by
  obtain ⟨-, hstep⟩ := ite_none_right_eq_some.mp hstep
  have hunits : Frame P s { s with
      units := Function.update s.units owner (s.units owner - dec) } :=
    of_gce rfl rfl rfl rfl rfl fun _ h => h
  split_ifs at hstep
  · cases hstep
    exact hunits.trans (complete _ _ _)
  · exact hunits.trans (completionStep hstep)
  · cases hstep
    exact hunits.post _

theorem addWork {call : EnrollCall n} (hc : (s.gce call.core).count = 0 → P call.core)
    (hhold : s.hold call.parent = some t) (hstep : t.addWork call = some s') :
    Frame P { s with opened := true } s' := by
  obtain ⟨ht, -⟩ := hold_cases hhold
  have hgce : t.gce = s.gce := by rw [ht]
  have hupdate : Frame P { s with units := t.units, opened := true }
      (GceState.update call.core (fun g => { g with count := g.count + call.inc })
        { s with units := t.units, opened := true }) :=
    update call.core _ (fun _ => ⟨rfl, rfl, rfl, rfl, le_rfl⟩) fun _ => Or.inl rfl
  have hcount : Frame P { s with opened := true } (t.addCount call) := by
    rw [ht]
    exact ⟨hupdate.phase, hupdate.opened, hupdate.waking, hupdate.suspended, hupdate.cancels,
      hupdate.cv, hupdate.temporary_waking_cv, hupdate.reenroll_count, hupdate.awaited,
      hupdate.cores_out, hupdate.in_progress⟩
  unfold GceState.addWork at hstep
  simp only at hstep
  split_ifs at hstep with hzero
  · refine hcount.trans (leaveZero (hc ?_) hstep)
    simp only [addCount, update_gce_self, hgce] at hzero
    omega
  · cases hstep
    exact hcount.trans (enrolled call _)

theorem take (m : CountMsg n) (hm : ¬ m.IsCancel) (s : GceState n) :
    Frame P s { s with counting := s.counting.erase m } := by
  refine of_gce rfl rfl rfl rfl rfl fun call hcall => ?_
  refine (Multiset.mem_erase_of_ne ?_).mpr hcall
  rintro rfl
  exact hm trivial

theorem deliverInProgress {c : Fin (n + 1)} {m : CountMsg n} (hc : P c)
    (hstep : s.takeCount m (deliverInProgress c) = some s') : Frame P s s' := by
  obtain ⟨-, hstep⟩ := ite_none_right_eq_some.mp hstep
  cases m with
  | all_cores call to_set acks =>
    obtain ⟨-, hstep⟩ := ite_none_right_eq_some.mp hstep
    exact (take (.all_cores call to_set acks) (fun h => h) s).trans ((setInProgress hc _).trans (awaitAll hstep))
  | _ => exact absurd hstep (by simp [GceState.deliverInProgress])

theorem deliverAck {m : CountMsg n} (hstep : s.takeCount m deliverAck = some s') :
    Frame P s s' := by
  obtain ⟨-, hstep⟩ := ite_none_right_eq_some.mp hstep
  cases m with
  | all_cores call to_set acks =>
    obtain ⟨-, hstep⟩ := ite_none_right_eq_some.mp hstep
    exact (take (.all_cores call to_set acks) (fun h => h) s).trans (awaitAll hstep)
  | _ => exact absurd hstep (by simp [GceState.deliverAck])

end Frame

end GceState

end Grappa
