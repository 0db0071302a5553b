import AdvCompArch.Grappa.GceFrame

/-! # The waiters of the global completion event

    A task suspends on the condition variable of its core while the event is in progress.
    The reset at the end of the phase moves the waiters to `temporary_waking_cv`, and the
    wake message that follows wakes those.

    What is parked in `temporary_waking_cv` is only safe until the next reset of the core,
    and nothing makes that reset wait for the wake message: `lost_wakeup` is a run in which
    it overtakes it.  Where no step does this, nor lets two phases or a late answer of the
    master run into each other (`Orderly`), nobody is forgotten (`no_lost_wakeup`). -/

namespace Grappa

open Census Option Gce
open Multiset (mem_add mem_coe mem_cons mem_cons_of_mem mem_cons_self mem_erase_of_ne
  mem_of_mem_erase notMem_zero)

variable {n : ℕ}

/-- The re-enroll count that a reset or its answer carries. -/
def WakeMsg.reenrolls : WakeMsg n → Option ℤ
  | .reset _ re => some re
  | .reset_done re => some re
  | _ => none

/-- The message is a reset of core `c`. -/
def WakeMsg.IsReset (c : Fin (n + 1)) : WakeMsg n → Prop
  | .reset d _ => d = c
  | _ => False

instance (c : Fin (n + 1)) (w : WakeMsg n) : Decidable (w.IsReset c) := by
  unfold WakeMsg.IsReset
  split <;> infer_instance

namespace GceState

/-- A reset of core `c` is in flight. -/
def ResetComing (s : GceState n) (c : Fin (n + 1)) : Prop := ∃ w ∈ s.waking, w.IsReset c

instance (s : GceState n) (c : Fin (n + 1)) : Decidable (s.ResetComing c) :=
  Multiset.decidableExistsMultiset

/-- Something will end the wait on core `c`: a phase is open, or will be when a cancel or a
    re-enrollment arrives, or the core is about to be reset. -/
def Busy (s : GceState n) (c : Fin (n + 1)) : Prop :=
  0 < (s.gce master_core).cores_out ∨ s.ResetComing c ∨
    (∃ call : EnrollCall n, .cancel call ∈ s.counting ∧ call.core = c) ∨
    ∃ w ∈ s.waking, ∃ re, w.reenrolls = some re ∧ re ≠ 0

/-- Where the waiters are, and why they will be woken. -/
structure WaitInv (s : GceState n) : Prop where
  suspended : ∀ c, s.suspended c =
    ((s.gce c).cv : Multiset ℕ) + ((s.gce c).temporary_waking_cv : Multiset ℕ)
  tags : ∀ c, ∀ w ∈ (s.gce c).cv, w ≤ s.phase ∧ (w < s.phase → s.ResetComing c)
  busy : ∀ c, (s.gce c).event_in_progress = true ∨ (s.gce c).cv ≠ [] → s.Busy c
  parked : ∀ c, (s.gce c).temporary_waking_cv ≠ [] →
    0 < (s.gce master_core).temporary_waking_cores_out ∨ .wake c ∈ s.waking
  same_reenroll : ∀ w ∈ s.waking, ∀ v ∈ s.waking, ∀ re re',
    w.reenrolls = some re → v.reenrolls = some re' → re = re'
  reenroll_nonneg : 0 ≤ (s.gce master_core).reenroll_count ∧
    ∀ w ∈ s.waking, ∀ re, w.reenrolls = some re → 0 ≤ re
  questions : ∀ c w, .query c w ∈ s.waking → w ≤ s.phase
  /-- An answer that says "wait" is true as long as the phase lasts. -/
  answers : ∀ c w co, .query_reply c w co ∈ s.waking →
    w ≤ s.phase ∧ (0 < co → w = s.phase → 0 < (s.gce master_core).cores_out)

variable {cfg : GceConfig} {s s' t : GceState n}

theorem busy_of_cores_out (h : 0 < (s.gce master_core).cores_out) (c : Fin (n + 1)) : s.Busy c :=
  Or.inl h

theorem busy_of_reset {c : Fin (n + 1)} (h : s.ResetComing c) : s.Busy c := Or.inr (Or.inl h)

theorem busy_of_cancel {call : EnrollCall n} (h : .cancel call ∈ s.counting) : s.Busy call.core :=
  Or.inr (Or.inr (Or.inl ⟨call, h, rfl⟩))

/-- What is busy stays busy when nothing that makes it so goes away. -/
theorem Busy.mono {c : Fin (n + 1)} (h : s.Busy c)
    (hout : 0 < (s.gce master_core).cores_out → 0 < (s'.gce master_core).cores_out)
    (hcancels : ∀ call, .cancel call ∈ s.counting → .cancel call ∈ s'.counting)
    (hwaking : ∀ w ∈ s.waking, w.reenrolls ≠ none → w ∈ s'.waking) : s'.Busy c := by
  rcases h with h | ⟨w, hw, hreset⟩ | ⟨call, hcall, hcore⟩ | ⟨w, hw, re, hre, hne⟩
  · exact Or.inl (hout h)
  · refine Or.inr (Or.inl ⟨w, hwaking w hw ?_, hreset⟩)
    cases w with
    | reset d re => simp [WakeMsg.reenrolls]
    | _ => exact absurd hreset (fun h => h)
  · exact Or.inr (Or.inr (Or.inl ⟨call, hcancels call hcall, hcore⟩))
  · exact Or.inr (Or.inr (Or.inr ⟨w, hwaking w hw (by rw [hre]; exact some_ne_none _), re,
      hre, hne⟩))

theorem mem_toAll {m : Fin (n + 1) → WakeMsg n} (c : Fin (n + 1)) : m c ∈ toAll m := by
  unfold toAll
  exact Multiset.mem_coe.mpr (List.mem_map.mpr ⟨c, List.mem_finRange c, rfl⟩)

theorem exists_of_mem_toAll {m : Fin (n + 1) → WakeMsg n} {w : WakeMsg n} (h : w ∈ toAll m) :
    ∃ c, m c = w := by
  unfold toAll at h
  obtain ⟨c, -, rfl⟩ := List.mem_map.mp h
  exact ⟨c, rfl⟩

theorem no_reenrolls {ms : Multiset (WakeMsg n)} (h : weigh WakeMsg.resets ms = 0) {w : WakeMsg n}
    (hw : w ∈ ms) (re : ℤ) : w.reenrolls ≠ some re := by
  intro hre
  have hle := le_weigh_of_mem (fun k _ => WakeMsg.resets_nonneg k) hw
  cases w with
  | reset c r => simp only [WakeMsg.resets] at hle; omega
  | reset_done r => simp only [WakeMsg.resets] at hle; omega
  | _ => exact absurd hre (by simp [WakeMsg.reenrolls])

namespace WaitInv

theorem of_still (h : WaitInv s) (hsuspended : s'.suspended = s.suspended)
    (hphase : s'.phase = s.phase) (hcv : ∀ c, (s'.gce c).cv = (s.gce c).cv)
    (htemp : ∀ c, (s'.gce c).temporary_waking_cv = (s.gce c).temporary_waking_cv)
    (hreset : ∀ c, s.ResetComing c → s'.ResetComing c)
    (hbusy : ∀ c, (s'.gce c).event_in_progress = true ∨ (s'.gce c).cv ≠ [] → s'.Busy c)
    (hparked : ∀ c, (s'.gce c).temporary_waking_cv ≠ [] →
      0 < (s'.gce master_core).temporary_waking_cores_out ∨ .wake c ∈ s'.waking)
    (hre : 0 ≤ (s'.gce master_core).reenroll_count)
    (hwaking : ∀ w ∈ s'.waking, w ∈ s.waking ∨ ∃ c, w = .wake c)
    (hout : 0 < (s.gce master_core).cores_out → 0 < (s'.gce master_core).cores_out) :
    WaitInv s' where
  suspended := by
    intro c
    rw [hsuspended, hcv, htemp]
    exact h.suspended c
  tags := by
    intro c w hw
    rw [hcv] at hw
    rw [hphase]
    exact ⟨(h.tags c w hw).1, fun hlt => hreset c ((h.tags c w hw).2 hlt)⟩
  busy := hbusy
  parked := hparked
  same_reenroll := by
    intro w hw v hv re re' hr hr'
    rcases hwaking w hw with hw | ⟨c, rfl⟩
    · rcases hwaking v hv with hv | ⟨c, rfl⟩
      · exact h.same_reenroll w hw v hv re re' hr hr'
      · exact absurd hr' (by simp [WakeMsg.reenrolls])
    · exact absurd hr (by simp [WakeMsg.reenrolls])
  reenroll_nonneg := by
    refine ⟨hre, fun w hw re hr => ?_⟩
    rcases hwaking w hw with hw | ⟨c, rfl⟩
    · exact h.reenroll_nonneg.2 w hw re hr
    · exact absurd hr (by simp [WakeMsg.reenrolls])
  questions := by
    intro c w hw
    rw [hphase]
    exact h.questions c w ((hwaking _ hw).resolve_right (by simp))
  answers := by
    intro c w co hw
    rw [hphase]
    obtain ⟨hle, hpos⟩ := h.answers c w co ((hwaking _ hw).resolve_right (by simp))
    exact ⟨hle, fun hco heq => hout (hpos hco heq)⟩

theorem of_frame (h : WaitInv s) {P : Fin (n + 1) → Prop} (hf : Frame P s s')
    (hP : ∀ c, P c → s'.Busy c) : WaitInv s' := by
  have hpos : 0 < (s.gce master_core).cores_out → 0 < (s'.gce master_core).cores_out := by
    have := hf.cores_out master_core
    omega
  apply h.of_still hf.suspended hf.phase hf.cv hf.temporary_waking_cv
  · intro c hc
    unfold ResetComing
    rw [hf.waking]
    exact hc
  · intro c hc
    have hmono : s.Busy c → s'.Busy c := by
      intro hb
      refine hb.mono hpos hf.cancels fun w hw _ => ?_
      rw [hf.waking]
      exact hw
    rw [hf.cv] at hc
    rcases hc with hevent | hcv
    · rcases hf.in_progress c hevent with hold | hset
      · exact hmono (h.busy c (Or.inl hold))
      · exact hP c hset
    · exact hmono (h.busy c (Or.inr hcv))
  · intro c hc
    rw [hf.temporary_waking_cv] at hc
    rw [hf.awaited, hf.waking]
    exact h.parked c hc
  · rw [hf.reenroll_count]
    exact h.reenroll_nonneg.1
  · intro w hw
    rw [hf.waking] at hw
    exact Or.inl hw
  · exact hpos

theorem congr (h : WaitInv s) (hwaking : s'.waking = s.waking) (hphase : s'.phase = s.phase)
    (hsuspended : s'.suspended = s.suspended)
    (hcv : ∀ c, (s'.gce c).cv = (s.gce c).cv)
    (htemp : ∀ c, (s'.gce c).temporary_waking_cv = (s.gce c).temporary_waking_cv)
    (hre : (s'.gce master_core).reenroll_count = (s.gce master_core).reenroll_count)
    (hawaited : (s'.gce master_core).temporary_waking_cores_out =
      (s.gce master_core).temporary_waking_cores_out)
    (hout : 0 < (s'.gce master_core).cores_out) : WaitInv s' := by
  apply h.of_still hsuspended hphase hcv htemp
  · intro c hc
    unfold ResetComing
    rw [hwaking]
    exact hc
  · exact fun c _ => busy_of_cores_out hout c
  · intro c hc
    rw [htemp] at hc
    rw [hawaited, hwaking]
    exact h.parked c hc
  · rw [hre]
    exact h.reenroll_nonneg.1
  · intro w hw
    rw [hwaking] at hw
    exact Or.inl hw
  · exact fun _ => hout

/-! ### Counting steps -/

theorem setRecurring (h : WaitInv s) {call : EnrollCall n} (hinc : call.inc < 2 ^ 31) :
    WaitInv (s.setRecurring call) := by
  have hint : toInt call.inc = call.inc := toInt_of_range (by omega) (by exact_mod_cast hinc)
  have hfield : ∀ {α : Type} (field : Gce → α) (hf : ∀ g r, field { g with reenroll_count := r } =
      field g) (c : Fin (n + 1)), field ((s.setRecurring call).gce c) = field (s.gce c) := by
    intro α field hf c
    exact update_field field (fun g => hf g _) call.core c s
  have hre : 0 ≤ ((s.setRecurring call).gce master_core).reenroll_count := by
    unfold GceState.setRecurring
    by_cases hc : master_core = call.core
    · rw [hc, update_gce_self, hint]
      exact Int.natCast_nonneg _
    · rw [update_gce_ne hc]
      exact h.reenroll_nonneg.1
  exact
  { suspended := by
      intro c
      rw [hfield cv (fun _ _ => rfl), hfield temporary_waking_cv (fun _ _ => rfl)]
      exact h.suspended c
    tags := by
      intro c
      rw [hfield cv (fun _ _ => rfl)]
      exact h.tags c
    busy := by
      intro c hc
      rw [hfield cv (fun _ _ => rfl), hfield event_in_progress (fun _ _ => rfl)] at hc
      refine (h.busy c hc).mono ?_ (fun _ hcall => hcall) fun w hw _ => hw
      rw [hfield cores_out (fun _ _ => rfl)]
      exact fun hpos => hpos
    parked := by
      intro c
      rw [hfield temporary_waking_cv (fun _ _ => rfl),
        hfield temporary_waking_cores_out (fun _ _ => rfl)]
      exact h.parked c
    same_reenroll := h.same_reenroll
    reenroll_nonneg := ⟨hre, h.reenroll_nonneg.2⟩
    questions := h.questions
    answers := by
      rw [hfield cores_out (fun _ _ => rfl)]
      exact h.answers }

theorem leaveZero_busy (hnonneg : 0 ≤ (s.gce master_core).cores_out) {call : EnrollCall n}
    (hstep : s.leaveZero call = some s') : s'.Busy call.core := by
  unfold GceState.leaveZero at hstep
  simp only at hstep
  split_ifs at hstep
  · apply busy_of_cores_out
    have hf : Frame (fun _ => True) (s.leftZero call).cancelBarrier s' :=
      Frame.cancelled trivial hstep
    have hout := hf.cores_out master_core
    have hcancel : ((s.leftZero call).cancelBarrier.gce master_core).cores_out =
        ((s.leftZero call).gce master_core).cores_out + 1 := by
      unfold GceState.cancelBarrier
      rw [update_gce_self]
    have hleft : Frame (fun _ => True) s (s.leftZero call) := Frame.leftZero trivial s
    have hle := hleft.cores_out master_core
    omega
  · cases hstep
    exact busy_of_cancel (mem_cons_self _ _)

theorem enroll (h : WaitInv s) (hcounts : CountInv cfg s) {recurring : Bool} {call : EnrollCall n}
    (hinc : recurring = true → call.inc < 2 ^ 31) (hstep : s.enroll recurring call = some s') :
    WaitInv s' := by
  obtain ⟨u, hu, hcase⟩ := enroll_cases hstep
  have huinv : WaitInv u ∧ CountInv cfg u := by
    rcases hu with rfl | ⟨hrec, -, rfl⟩
    · exact ⟨h, hcounts⟩
    · exact ⟨h.setRecurring (hinc hrec), hcounts.congr rfl (ledger_setRecurring call s)⟩
  rcases hcase with ⟨-, rfl⟩ | ⟨-, v, hhold, hadd⟩
  · exact huinv.1
  · have hopen : WaitInv { u with opened := true } :=
      ⟨huinv.1.suspended, huinv.1.tags, huinv.1.busy, huinv.1.parked, huinv.1.same_reenroll,
        huinv.1.reenroll_nonneg, huinv.1.questions, huinv.1.answers⟩
    refine hopen.of_frame (Frame.addWork (P := fun c => s'.Busy c) ?_ hhold hadd) fun _ hb => hb
    intro hzero
    have hnonneg : 0 ≤ (u.gce master_core).cores_out := huinv.2.ledger.cores_out_nonneg
    obtain ⟨hv, -⟩ := hold_cases hhold
    have hvgce : v.gce = u.gce := by rw [hv]
    unfold GceState.addWork at hadd
    simp only [addCount, update_gce_self, hvgce, hzero, zero_add, if_true] at hadd
    refine leaveZero_busy ?_ hadd
    show 0 ≤ ((v.update call.core fun g => { g with count := g.count + call.inc }).gce
      master_core).cores_out
    rw [update_field cores_out (fun _ => by rfl), hvgce]
    exact hnonneg

/-! ### Messages that count -/

theorem end_phase (h : WaitInv s) (re : ℤ) (hre : 0 ≤ re)
    (hnone : weigh WakeMsg.resets s.waking = 0)
    (hgce : ∀ c, (s'.gce c).cv = (s.gce c).cv ∧
      (s'.gce c).temporary_waking_cv = (s.gce c).temporary_waking_cv)
    (hcount : 0 ≤ (s'.gce master_core).reenroll_count)
    (hawaited : 0 < (s'.gce master_core).temporary_waking_cores_out)
    (hsuspended : s'.suspended = s.suspended) (hphase : s'.phase = s.phase + 1)
    (hwaking : s'.waking = toAll (fun c => .reset c re) + s.waking) : WaitInv s' := by
  have hreset : ∀ c, s'.ResetComing c := by
    intro c
    refine ⟨.reset c re, ?_, rfl⟩
    rw [hwaking]
    exact Multiset.mem_add.mpr (Or.inl (mem_toAll c))
  -- the resets of this phase are the only ones
  have hall : ∀ w ∈ s'.waking, ∀ r, w.reenrolls = some r → r = re := by
    intro w hw r hr
    rw [hwaking] at hw
    rcases Multiset.mem_add.mp hw with hw | hw
    · obtain ⟨c, rfl⟩ := exists_of_mem_toAll hw
      exact (some.inj hr).symm
    · exact absurd hr (no_reenrolls hnone hw r)
  exact
  { suspended := by
      intro c
      rw [hsuspended, (hgce c).1, (hgce c).2]
      exact h.suspended c
    tags := by
      intro c w hw
      rw [(hgce c).1] at hw
      have := (h.tags c w hw).1
      rw [hphase]
      exact ⟨by omega, fun _ => hreset c⟩
    busy := fun c _ => busy_of_reset (hreset c)
    parked := fun c _ => Or.inl hawaited
    same_reenroll := by
      intro w hw v hv r r' hr hr'
      rw [hall w hw r hr, hall v hv r' hr']
    reenroll_nonneg := by
      refine ⟨hcount, ?_⟩
      intro w hw r hr
      rw [hall w hw r hr]
      exact hre
    questions := by
      intro c w hw
      rw [hwaking] at hw
      rcases Multiset.mem_add.mp hw with hw | hw
      · obtain ⟨d, hd⟩ := exists_of_mem_toAll hw
        exact absurd hd (by simp)
      · have := h.questions c w hw
        omega
    answers := by
      intro c w co hw
      rw [hwaking] at hw
      rcases Multiset.mem_add.mp hw with hw | hw
      · obtain ⟨d, hd⟩ := exists_of_mem_toAll hw
        exact absurd hd (by simp)
      · have := (h.answers c w co hw).1
        rw [hphase]
        exact ⟨by omega, fun _ heq => by omega⟩ }

theorem enterBarrier (h : WaitInv s) (hcounts' : CountInv cfg s')
    (hnone : (s.gce master_core).cores_out = 1 → weigh WakeMsg.resets s.waking = 0)
    (hstep : s.enterBarrier = some s') : WaitInv s' := by
  have hnonneg : 0 ≤ (s'.gce master_core).cores_out := hcounts'.ledger.cores_out_nonneg
  unfold GceState.enterBarrier at hstep
  simp only [update_gce_self] at hstep
  split_ifs at hstep with hzero hcheck
  · cases hstep
    change (s.gce master_core).cores_out - 1 = 0 at hzero
    have hfield : ∀ {α : Type} (field : Gce → α) (henter : ∀ g, field (enter g) = field g)
        (hawait : ∀ g, field (awaitResets (n + 1 : ℕ) g) = field g) (c : Fin (n + 1)),
        field (((s.update master_core enter).update master_core
          (awaitResets (n + 1 : ℕ))).gce c) = field (s.gce c) := by
      intro α field henter hawait c
      exact (update_field field hawait master_core c _).trans
        (update_field field henter master_core c s)
    refine h.end_phase (s.gce master_core).reenroll_count h.reenroll_nonneg.1 (hnone (by omega))
      ?_ ?_ ?_ rfl rfl rfl
    · intro c
      exact ⟨hfield cv (fun _ => rfl) (fun _ => rfl) c,
        hfield temporary_waking_cv (fun _ => rfl) (fun _ => rfl) c⟩
    · exact h.reenroll_nonneg.1.trans
        (hfield reenroll_count (fun _ => rfl) (fun _ => rfl) master_core).ge
    · show 0 < (((s.update master_core enter).update master_core
        (awaitResets (n + 1 : ℕ))).gce master_core).temporary_waking_cores_out
      rw [update_gce_self]
      exact Int.natCast_pos.mpr (Nat.succ_pos n)
  · -- other cores are still out
    cases hstep
    rw [update_gce_self] at hnonneg
    have hfield : ∀ {α : Type} (field : Gce → α) (henter : ∀ g, field (enter g) = field g)
        (c : Fin (n + 1)), field ((s.update master_core enter).gce c) = field (s.gce c) :=
      fun field henter c => update_field field henter master_core c s
    refine h.congr rfl rfl rfl (hfield cv fun _ => rfl)
      (hfield temporary_waking_cv fun _ => rfl) (hfield reenroll_count (fun _ => rfl) _)
      (hfield temporary_waking_cores_out (fun _ => rfl) _) ?_
    rw [update_gce_self]
    omega

theorem deliver (h : WaitInv s) (hcounts : CountInv cfg s) (hcounts' : CountInv cfg s')
    {m : CountMsg n} (hcond : CountCond cfg s (.deliver m))
    (hstep : s.takeCount m deliverCount = some s') : WaitInv s' := by
  obtain ⟨hm, hstep⟩ := ite_none_right_eq_some.mp hstep
  cases m with
  | cancel call =>
    cases hstep
    have hnonneg : 0 ≤ (s.gce master_core).cores_out := hcounts.ledger.cores_out_nonneg
    have hf : Frame (fun _ => False) s (s.cancelBarrier) := Frame.cancelBarrier s
    refine h.congr rfl rfl rfl hf.cv hf.temporary_waking_cv (hf.reenroll_count _) (hf.awaited _) ?_
    show 0 < (s.cancelBarrier.gce master_core).cores_out
    unfold GceState.cancelBarrier
    rw [update_gce_self]
    show 0 < (s.gce master_core).cores_out + 1
    omega
  | cancel_reply call co =>
    -- the call has cancelled the barrier, so every core is busy
    have hpos : 0 < (s.gce master_core).cores_out :=
      hcounts.ledger.cores_out_pos hm rfl (fun hc => hc)
    have hf : Frame (fun _ => True) s s' :=
      (Frame.take (.cancel_reply call co) (fun hc => hc) s).trans (Frame.cancelled trivial hstep)
    refine h.of_frame hf fun c _ => busy_of_cores_out ?_ c
    have := hf.cores_out master_core
    omega
  | all_cores call to_set acks => exact absurd hstep (by simp [deliverCount])
  | complete owner dec =>
    cases hstep
    have hf := (Frame.take (P := fun _ => False) (.complete owner dec) (fun hc => hc) s).trans
      (Frame.complete owner dec _)
    exact h.of_frame hf fun _ hfalse => hfalse.elim
  | enter =>
    have htaken : WaitInv { s with counting := s.counting.erase .enter } :=
      h.of_frame (Frame.take (P := fun _ => False) .enter (fun hc => hc) s) fun _ hf => hf.elim
    refine htaken.enterBarrier hcounts' ?_ hstep
    intro hone
    exact hcounts.ledger.resets_eq.symm.trans (hcond hone)

theorem deliverInProgress (h : WaitInv s) (hcounts : CountInv cfg s) {m : CountMsg n}
    {c : Fin (n + 1)} (hstep : s.takeCount m (deliverInProgress c) = some s') : WaitInv s' := by
  have hf : Frame (fun _ => True) s s' := Frame.deliverInProgress trivial hstep
  obtain ⟨hm, hstep⟩ := ite_none_right_eq_some.mp hstep
  cases m with
  | all_cores call to_set acks =>
    have hpos : 0 < (s.gce master_core).cores_out :=
      hcounts.ledger.cores_out_pos hm rfl (fun hc => hc)
    refine h.of_frame hf fun d _ => busy_of_cores_out ?_ d
    have := hf.cores_out master_core
    omega
  | _ => exact absurd hstep (by simp [GceState.deliverInProgress])

/-! ### Waiting -/

theorem of_waking (h : WaitInv s) {ms : Multiset (WakeMsg n)}
    (hresets : ∀ w ∈ s.waking, w.reenrolls ≠ none → w ∈ ms)
    (hwakes : ∀ c, .wake c ∈ s.waking → (s.gce c).temporary_waking_cv ≠ [] → .wake c ∈ ms)
    (hnew : ∀ w ∈ ms, w ∈ s.waking ∨ (∃ c, w = .wake c) ∨ (∃ c, w = .query c s.phase) ∨
      ∃ c k, k ≤ s.phase ∧ w = .query_reply c k (s.gce master_core).cores_out) :
    WaitInv { s with waking := ms } := by
  have hre : ∀ w ∈ ms, ∀ re, w.reenrolls = some re → w ∈ s.waking := by
    intro w hw re hr
    rcases hnew w hw with hold | ⟨c, rfl⟩ | ⟨c, rfl⟩ | ⟨c, k, -, rfl⟩
    · exact hold
    · exact absurd hr (by simp [WakeMsg.reenrolls])
    · exact absurd hr (by simp [WakeMsg.reenrolls])
    · exact absurd hr (by simp [WakeMsg.reenrolls])
  exact
  { suspended := h.suspended
    tags := by
      intro c w hw
      refine ⟨(h.tags c w hw).1, fun hlt => ?_⟩
      obtain ⟨v, hv, hreset⟩ := (h.tags c w hw).2 hlt
      refine ⟨v, hresets v hv ?_, hreset⟩
      cases v with
      | reset d re => simp [WakeMsg.reenrolls]
      | _ => exact absurd hreset (fun h => h)
    busy := fun c hc => (h.busy c hc).mono (fun hpos => hpos) (fun _ hcall => hcall) hresets
    parked := fun c hc => (h.parked c hc).imp id fun hwake => hwakes c hwake hc
    same_reenroll := fun w hw v hv re re' hr hr' =>
      h.same_reenroll w (hre w hw re hr) v (hre v hv re' hr') re re' hr hr'
    reenroll_nonneg := ⟨h.reenroll_nonneg.1, fun w hw re hr =>
      h.reenroll_nonneg.2 w (hre w hw re hr) re hr⟩
    questions := by
      intro c w hw
      rcases hnew _ hw with hold | ⟨d, hd⟩ | ⟨d, hd⟩ | ⟨d, k, -, hd⟩
      · exact h.questions c w hold
      · exact absurd hd (by simp)
      · obtain ⟨-, rfl⟩ := WakeMsg.query.inj hd
        exact le_rfl
      · exact absurd hd (by simp)
    answers := by
      intro c w co hw
      rcases hnew _ hw with hold | ⟨d, hd⟩ | ⟨d, hd⟩ | ⟨d, k, hk, hd⟩
      · exact h.answers c w co hold
      · exact absurd hd (by simp)
      · exact absurd hd (by simp)
      · obtain ⟨-, rfl, rfl⟩ := WakeMsg.query_reply.inj hd
        exact ⟨hk, fun hpos _ => hpos⟩ }

theorem suspend (h : WaitInv s) {c : Fin (n + 1)} {w : ℕ} (hbusy : s.Busy c) (hw : w ≤ s.phase)
    (hreset : w < s.phase → s.ResetComing c) : WaitInv (s.suspend c w) := by
  have hfield : ∀ {α : Type} (field : Gce → α) (hf : ∀ g, field (enqueueWaiter w g) = field g)
      (d : Fin (n + 1)), field ((s.suspend c w).gce d) = field (s.gce d) :=
    fun field hf d => update_field field hf c d s
  have hcv : ∀ d, ((s.suspend c w).gce d).cv = if d = c then w :: (s.gce d).cv else (s.gce d).cv := by
    intro d
    show ((s.update c (enqueueWaiter w)).gce d).cv = _
    by_cases hd : d = c
    · subst hd
      rw [if_pos rfl, update_gce_self]
      rfl
    · rw [if_neg hd, update_gce_ne hd]
  have hmono : ∀ d, s.Busy d → (s.suspend c w).Busy d := by
    intro d hd
    refine hd.mono (fun hpos => ?_) (fun _ hcall => hcall) fun v hv _ => hv
    rw [hfield cores_out (fun _ => rfl)]
    exact hpos
  exact
  { suspended := by
      intro d
      rw [hcv, hfield temporary_waking_cv (fun _ => rfl)]
      show Function.update s.suspended c (w ::ₘ s.suspended c) d = _
      by_cases hd : d = c
      · subst hd
        rw [Function.update_self, if_pos rfl, h.suspended d]
        rfl
      · rw [Function.update_of_ne hd, if_neg hd]
        exact h.suspended d
    tags := by
      intro d v hv
      rw [hcv] at hv
      split_ifs at hv with hd
      · rcases List.mem_cons.mp hv with rfl | hv
        · subst hd
          exact ⟨hw, hreset⟩
        · exact h.tags d v hv
      · exact h.tags d v hv
    busy := by
      intro d hd
      apply hmono d
      by_cases hdc : d = c
      · subst hdc
        exact hbusy
      · rw [hcv, if_neg hdc, hfield event_in_progress (fun _ => rfl)] at hd
        exact h.busy d hd
    parked := by
      intro d hd
      rw [hfield temporary_waking_cv (fun _ => rfl)] at hd
      rw [hfield temporary_waking_cores_out (fun _ => rfl)]
      exact h.parked d hd
    same_reenroll := h.same_reenroll
    reenroll_nonneg := by
      rw [hfield reenroll_count (fun _ => rfl)]
      exact h.reenroll_nonneg
    questions := h.questions
    answers := by
      rw [hfield cores_out (fun _ => rfl)]
      exact h.answers }

theorem wait (h : WaitInv s) (c : Fin (n + 1)) : WaitInv (s.wait c) := by
  unfold GceState.wait
  split_ifs with hevent hmaster
  · exact h.suspend (h.busy c (Or.inl hevent)) le_rfl fun hlt => absurd hlt (lt_irrefl _)
  · unfold conservativeCheck
    split_ifs with hout
    · exact h.suspend (busy_of_cores_out hout c) le_rfl fun hlt => absurd hlt (lt_irrefl _)
    · exact h
  · refine h.of_waking (fun w hw _ => mem_cons_of_mem hw)
      (fun d hd _ => mem_cons_of_mem hd) ?_
    intro w hw
    rcases Multiset.mem_cons.mp hw with rfl | hw
    · exact Or.inr (Or.inr (Or.inl ⟨c, rfl⟩))
    · exact Or.inl hw

/-! ### The end of a phase -/

/-- A core has reset itself: it has parked its waiters and answers the master. -/
structure HasReset (s s' : GceState n) (c : Fin (n + 1)) (re : ℤ) : Prop where
  self : s'.gce c = { captureAndReset (s.gce c) with event_in_progress := decide (re ≠ 0) }
  ne : ∀ d, d ≠ c → s'.gce d = s.gce d
  waking : s'.waking = .reset_done re ::ₘ s.waking.erase (.reset c re)
  suspended : s'.suspended = s.suspended
  phase : s'.phase = s.phase
  counting : s'.counting = s.counting

theorem resetCore_spec {c : Fin (n + 1)} {re : ℤ}
    (hstep : ({ s with waking := s.waking.erase (.reset c re) } : GceState n).resetCore c re =
      some s') : HasReset s s' c re := by
  obtain ⟨-, hstep⟩ := ite_none_right_eq_some.mp hstep
  cases hstep
  by_cases hre : re = 0
  · subst hre
    exact ⟨update_gce_self .., fun d hd => Function.update_of_ne hd .., rfl, rfl, rfl, rfl⟩
  · simp only [hre, ne_eq, not_false_eq_true, if_true]
    refine ⟨?_, fun d hd => ?_, rfl, rfl, rfl, rfl⟩
    · simp only [decide_eq_true hre]
      show Function.update (Function.update s.gce c _) c _ c = _
      rw [Function.update_self, update_gce_self]
    · exact (Function.update_of_ne hd ..).trans (Function.update_of_ne hd ..)

theorem resets_awaited (hcounts : CountInv cfg s) {c : Fin (n + 1)} {re : ℤ}
    (hm : .reset c re ∈ s.waking) : 0 < (s.gce master_core).temporary_waking_cores_out := by
  have heq : (s.gce master_core).temporary_waking_cores_out = weigh WakeMsg.resets s.waking :=
    hcounts.ledger.resets_eq
  rw [heq]
  exact lt_of_lt_of_le Int.zero_lt_one (le_weigh_of_mem (fun k _ => WakeMsg.resets_nonneg k) hm)

/-- Once an answer has arrived, one message fewer is awaited. -/
theorem answers_left (hcounts : CountInv cfg s) {re : ℤ} (hm : .reset_done re ∈ s.waking) :
    (s.gce master_core).temporary_waking_cores_out - 1 =
      weigh WakeMsg.resets (s.waking.erase (.reset_done re)) := by
  have heq : (s.gce master_core).temporary_waking_cores_out = weigh WakeMsg.resets s.waking :=
    hcounts.ledger.resets_eq
  have hcons := weigh_cons WakeMsg.resets (.reset_done re) (s.waking.erase (.reset_done re))
  rw [Multiset.cons_erase hm] at hcons
  rw [heq, hcons]
  simp only [WakeMsg.resets]
  omega

/-- An awaited message carries the count to enroll again. -/
theorem exists_reenrolls {ws : Multiset (WakeMsg n)} (hmore : weigh WakeMsg.resets ws ≠ 0) :
    ∃ w ∈ ws, ∃ re, w.reenrolls = some re := by
  obtain ⟨w, hw, hresets⟩ : ∃ w ∈ ws, w.resets ≠ 0 := by
    by_contra hno
    push Not at hno
    exact hmore (weigh_eq_zero hno)
  refine ⟨w, hw, ?_⟩
  cases w with
  | reset d re => exact ⟨re, rfl⟩
  | reset_done re => exact ⟨re, rfl⟩
  | _ => exact absurd rfl hresets

section reset

variable {c : Fin (n + 1)} {re : ℤ} (hr : HasReset s s' c re)

include hr

theorem HasReset.mem {w : WakeMsg n} (hw : w ∈ s'.waking) : w = .reset_done re ∨ w ∈ s.waking := by
  rw [hr.waking] at hw
  exact (Multiset.mem_cons.mp hw).imp id mem_of_mem_erase

theorem HasReset.replies : WakeMsg.reset_done re ∈ s'.waking := by
  rw [hr.waking]
  exact mem_cons_self _ _

theorem HasReset.reset {d : Fin (n + 1)} (hd : d ≠ c) (h : s.ResetComing d) : s'.ResetComing d := by
  obtain ⟨w, hw, hwd⟩ := h
  refine ⟨w, ?_, hwd⟩
  rw [hr.waking]
  refine mem_cons_of_mem ((mem_erase_of_ne ?_).mpr hw)
  rintro rfl
  exact hd hwd.symm

/-- The master's own reset finds `cores_out` at zero. -/
theorem HasReset.cores_out (hout : c = master_core → (s.gce master_core).cores_out = 0) :
    (s'.gce master_core).cores_out = (s.gce master_core).cores_out := by
  by_cases hc : master_core = c
  · rw [hout hc.symm, hc, hr.self]
    rfl
  · rw [hr.ne _ hc]

theorem HasReset.awaited :
    (s'.gce master_core).temporary_waking_cores_out =
      (s.gce master_core).temporary_waking_cores_out := by
  by_cases hc : master_core = c
  · rw [hc, hr.self]
    rfl
  · rw [hr.ne _ hc]

theorem HasReset.busy (h : WaitInv s) (hm : .reset c re ∈ s.waking)
    (hout : c = master_core → (s.gce master_core).cores_out = 0) (d : Fin (n + 1))
    (hevent : (s'.gce d).event_in_progress = true ∨ (s'.gce d).cv ≠ []) : s'.Busy d := by
  by_cases hd : d = c
  · -- the reset leaves the event in progress only to enroll again
    subst hd
    rw [hr.self] at hevent
    have hre : re ≠ 0 := by
      rcases hevent with hset | hcv
      · simpa using hset
      · exact absurd rfl hcv
    exact Or.inr (Or.inr (Or.inr ⟨_, hr.replies, re, rfl, hre⟩))
  · rw [hr.ne d hd] at hevent
    rcases h.busy d hevent with hpos | hcoming | ⟨call, hcall, hcore⟩ | ⟨w, hw, r, hwr, hr0⟩
    · exact busy_of_cores_out (by rw [hr.cores_out hout]; exact hpos) d
    · exact busy_of_reset (hr.reset hd hcoming)
    · exact Or.inr (Or.inr (Or.inl ⟨call, by rw [hr.counting]; exact hcall, hcore⟩))
    · obtain rfl : r = re := h.same_reenroll w hw _ hm r re hwr rfl
      exact Or.inr (Or.inr (Or.inr ⟨_, hr.replies, r, rfl, hr0⟩))

end reset

/-- A reset that finds nobody parked parks the waiters of its core. -/
theorem resetCore (h : WaitInv s) (hcounts : CountInv cfg s) {c : Fin (n + 1)} {re : ℤ}
    (hm : .reset c re ∈ s.waking) (hout : c = master_core → (s.gce master_core).cores_out = 0)
    (htemp : (s.gce c).temporary_waking_cv = [])
    (hstep : ({ s with waking := s.waking.erase (.reset c re) } : GceState n).resetCore c re =
      some s') : WaitInv s' := by
  have hr := resetCore_spec hstep
  have hall : ∀ w ∈ s'.waking, ∀ r, w.reenrolls = some r → r = re := by
    intro w hw r hwr
    rcases hr.mem hw with rfl | hw
    · exact (some.inj hwr).symm
    · exact h.same_reenroll w hw _ hm r re hwr rfl
  constructor
  case suspended =>
    intro d
    rw [hr.suspended, h.suspended d]
    by_cases hd : d = c
    · subst hd
      rw [hr.self, htemp]
      exact add_comm _ _
    · rw [hr.ne d hd]
  case tags =>
    intro d w hw
    by_cases hd : d = c
    · subst hd
      rw [hr.self] at hw
      exact absurd hw List.not_mem_nil
    · rw [hr.ne d hd] at hw
      rw [hr.phase]
      exact ⟨(h.tags d w hw).1, fun hlt => hr.reset hd ((h.tags d w hw).2 hlt)⟩
  case busy => exact hr.busy h hm hout
  case parked => exact fun d _ => Or.inl (hr.awaited ▸ resets_awaited hcounts hm)
  case same_reenroll =>
    intro w hw v hv r r' hwr hvr
    rw [hall w hw r hwr, hall v hv r' hvr]
  case reenroll_nonneg =>
    constructor
    · by_cases hc : master_core = c
      · rw [hc, hr.self]
        exact le_refl (0 : ℤ)
      · rw [hr.ne _ hc]
        exact h.reenroll_nonneg.1
    · intro w hw r hwr
      rw [hall w hw r hwr]
      exact h.reenroll_nonneg.2 _ hm re rfl
  case questions =>
    intro d w hw
    rw [hr.phase]
    exact h.questions d w ((hr.mem hw).resolve_left (by simp))
  case answers =>
    intro d w co hw
    rw [hr.phase, hr.cores_out hout]
    exact h.answers d w co ((hr.mem hw).resolve_left (by simp))

/-- A core stays busy after an answer that is not the last, or that enrolls nobody. -/
theorem busy_answered (h : WaitInv s) {re : ℤ} (hm : .reset_done re ∈ s.waking)
    {u : GceState n} {c : Fin (n + 1)} (hb : s.Busy c)
    (hcase : weigh WakeMsg.resets (s.waking.erase (.reset_done re)) ≠ 0 ∨ re = 0)
    (hout : 0 < (s.gce master_core).cores_out → 0 < (u.gce master_core).cores_out)
    (hcounting : u.counting = s.counting) (hwaking : u.waking = s.waking.erase (.reset_done re)) :
    u.Busy c := by
  rcases hb with hpos | ⟨w, hw, hwc⟩ | ⟨call, hcall, hcore⟩ | ⟨w, hw, r, hr, hr0⟩
  · exact busy_of_cores_out (hout hpos) c
  · refine busy_of_reset ⟨w, ?_, hwc⟩
    rw [hwaking]
    refine (mem_erase_of_ne ?_).mpr hw
    rintro rfl
    exact hwc
  · exact Or.inr (Or.inr (Or.inl ⟨call, by rw [hcounting]; exact hcall, hcore⟩))
  · obtain rfl : r = re := h.same_reenroll w hw _ hm r re hr rfl
    -- another message of the same phase carries the same count
    obtain ⟨v, hv, r', hr'⟩ := exists_reenrolls (hcase.resolve_right hr0)
    obtain rfl := h.same_reenroll v (mem_of_mem_erase hv) w hw r' r hr' hr
    exact Or.inr (Or.inr (Or.inr ⟨v, by rw [hwaking]; exact hv, r', hr', hr0⟩))

/-- The state `u` after the master has counted an answer to its resets. -/
structure Answered (s u : GceState n) (re : ℤ) : Prop where
  field : ∀ {α : Type} (f : Gce → α), (∀ g k, f (awaitResets k g) = f g) →
    ∀ c, f (u.gce c) = f (s.gce c)
  awaited : (u.gce master_core).temporary_waking_cores_out = weigh WakeMsg.resets u.waking
  suspended : u.suspended = s.suspended
  phase : u.phase = s.phase
  counting : u.counting = s.counting
  waking : u.waking = s.waking.erase (.reset_done re)

theorem answered (hcounts : CountInv cfg s) {re : ℤ} (hm : .reset_done re ∈ s.waking) :
    Answered s (({ s with waking := s.waking.erase (.reset_done re) } : GceState n).update master_core
      fun g => g.awaitResets (g.temporary_waking_cores_out - 1)) re where
  field f hf c := update_field f (fun g => hf g _) master_core c _
  awaited := by
    rw [update_gce_self]
    exact answers_left hcounts hm
  suspended := rfl
  phase := rfl
  counting := rfl
  waking := rfl

section answered

variable {u : GceState n} {re : ℤ} (ha : Answered s u re)

include ha

theorem Answered.reset {c : Fin (n + 1)} (hc : s.ResetComing c) : u.ResetComing c := by
  obtain ⟨w, hw, hwc⟩ := hc
  refine ⟨w, ?_, hwc⟩
  rw [ha.waking]
  refine (mem_erase_of_ne ?_).mpr hw
  rintro rfl
  exact hwc

/-- What is in flight once the wake messages are sent. -/
theorem Answered.wakes {w : WakeMsg n} (hw : w ∈ toAll .wake + u.waking) :
    w ∈ s.waking ∨ ∃ c, w = .wake c := by
  rcases mem_add.mp hw with hw | hw
  · obtain ⟨c, rfl⟩ := exists_of_mem_toAll hw
    exact Or.inr ⟨c, rfl⟩
  · rw [ha.waking] at hw
    exact Or.inl (mem_of_mem_erase hw)

theorem Answered.busy (h : WaitInv s) (hm : .reset_done re ∈ s.waking)
    (hcase : weigh WakeMsg.resets u.waking ≠ 0 ∨ re = 0) {c : Fin (n + 1)}
    (hc : (u.gce c).event_in_progress = true ∨ (u.gce c).cv ≠ []) : u.Busy c := by
  rw [ha.field event_in_progress (fun _ _ => rfl), ha.field cv (fun _ _ => rfl)] at hc
  refine h.busy_answered hm (h.busy c hc) (by rwa [← ha.waking]) ?_ ha.counting ha.waking
  rw [ha.field cores_out (fun _ _ => rfl)]
  exact id

/-- Other cores have still to answer. -/
theorem Answered.waits (h : WaitInv s) (hm : .reset_done re ∈ s.waking)
    (hmore : weigh WakeMsg.resets u.waking ≠ 0) : WaitInv u := by
  apply h.of_still ha.suspended ha.phase (ha.field cv (fun _ _ => rfl))
    (ha.field temporary_waking_cv (fun _ _ => rfl)) (fun _ => ha.reset)
    (fun _ => ha.busy h hm (Or.inl hmore))
  · intro c _
    have hnonneg : 0 ≤ weigh WakeMsg.resets u.waking := weigh_nonneg fun w _ => w.resets_nonneg
    have := ha.awaited
    omega
  · exact h.reenroll_nonneg.1.trans (ha.field reenroll_count (fun _ _ => rfl) _).ge
  · exact fun w hw => ha.wakes (mem_add.mpr (Or.inr hw))
  · exact fun hpos => hpos.trans_eq (ha.field cores_out (fun _ _ => rfl) _).symm

/-- Nobody enrolls again, and all are woken. -/
theorem Answered.wakeAll (h : WaitInv s) (hm : .reset_done re ∈ s.waking) (hre : re = 0) :
    WaitInv { u with waking := toAll .wake + u.waking } := by
  have hsent : ∀ w ∈ u.waking, w ∈ toAll .wake + u.waking := fun w hw => mem_add.mpr (Or.inr hw)
  apply h.of_still
  · exact ha.suspended
  · exact ha.phase
  · exact ha.field cv (fun _ _ => rfl)
  · exact ha.field temporary_waking_cv (fun _ _ => rfl)
  · exact fun c hc => (ha.reset hc).imp fun w hw => ⟨hsent w hw.1, hw.2⟩
  · exact fun c hc => (ha.busy h hm (Or.inr hre) hc).mono (fun hpos => hpos) (fun _ hcall => hcall)
      fun w hw _ => hsent w hw
  · exact fun c _ => Or.inr (mem_add.mpr (Or.inl (mem_toAll c)))
  · exact h.reenroll_nonneg.1.trans (ha.field reenroll_count (fun _ _ => rfl) _).ge
  · exact fun w hw => ha.wakes hw
  · exact fun hpos => hpos.trans_eq (ha.field cores_out (fun _ _ => rfl) _).symm

/-- The master enrolls again, so every core is busy. -/
theorem Answered.enrollAgain (h : WaitInv s) (hm : .reset_done re ∈ s.waking)
    {units : Fin (n + 1) → ℕ} {opened : Bool} :
    WaitInv { u.update master_core (reenroll re) with
      units := units, opened := opened, waking := toAll .wake + u.waking } := by
  have hout : 0 < ((u.update master_core (reenroll re)).gce master_core).cores_out := by
    rw [update_gce_self]
    exact Int.zero_lt_one
  apply h.of_still
  · exact ha.suspended
  · exact ha.phase
  · exact fun c => (update_field (f := reenroll re) cv (fun _ => rfl) master_core c u).trans
      (ha.field cv (fun _ _ => rfl) c)
  · exact fun c => (update_field (f := reenroll re) temporary_waking_cv (fun _ => rfl) master_core
      c u).trans (ha.field temporary_waking_cv (fun _ _ => rfl) c)
  · exact fun c hc => (ha.reset hc).imp fun w hw => ⟨mem_add.mpr (Or.inr hw.1), hw.2⟩
  · exact fun c _ => Or.inl hout
  · exact fun c _ => Or.inr (mem_add.mpr (Or.inl (mem_toAll c)))
  · show 0 ≤ ((u.update master_core (reenroll re)).gce master_core).reenroll_count
    rw [update_gce_self]
    exact h.reenroll_nonneg.2 _ hm re rfl
  · exact fun w hw => ha.wakes hw
  · exact fun _ => hout

end answered

/-- The answer to a reset; the last one sends the wake messages. -/
theorem resetDone (h : WaitInv s) (hcounts : CountInv cfg s) {re : ℤ}
    (hm : .reset_done re ∈ s.waking) :
    WaitInv (({ s with waking := s.waking.erase (.reset_done re) } : GceState n).resetDone re) := by
  have ha := answered hcounts hm
  unfold GceState.resetDone
  generalize GceState.update master_core _ _ = u at ha ⊢
  simp only [ha.awaited]
  split_ifs with hlast hre
  · exact ha.enrollAgain h hm
  · exact ha.wakeAll h hm (by simpa using hre)
  · exact ha.waits h hm hlast

theorem wakeCore (h : WaitInv s) (c : Fin (n + 1)) :
    WaitInv (({ s with waking := s.waking.erase (.wake c) } : GceState n).wakeCore c) := by
  have hfield : ∀ {α : Type} (field : Gce → α) (hf : ∀ g, field (emptyTemporary g) = field g)
      (d : Fin (n + 1)), field ((s.wakeCore c).gce d) = field (s.gce d) :=
    fun field hf d => update_field field hf c d s
  have htemp : ∀ d, d ≠ c → ((s.wakeCore c).gce d).temporary_waking_cv =
      (s.gce d).temporary_waking_cv :=
    fun d hd => congrArg temporary_waking_cv (update_gce_ne hd emptyTemporary s)
  have hself : ((s.wakeCore c).gce c).temporary_waking_cv = [] :=
    congrArg temporary_waking_cv (update_gce_self c emptyTemporary s)
  have hwoken : WaitInv (s.wakeCore c) :=
  { suspended := by
      intro d
      rw [hfield cv (fun _ => rfl)]
      show Function.update s.suspended c _ d = _
      by_cases hd : d = c
      · subst hd
        rw [Function.update_self, hself, h.suspended d, Multiset.add_sub_cancel_right]
        exact (add_zero _).symm
      · rw [Function.update_of_ne hd, htemp d hd]
        exact h.suspended d
    tags := by
      intro d
      rw [hfield cv (fun _ => rfl)]
      exact h.tags d
    busy := by
      intro d hd
      rw [hfield cv (fun _ => rfl), hfield event_in_progress (fun _ => rfl)] at hd
      refine (h.busy d hd).mono ?_ (fun _ hcall => hcall) fun w hw _ => hw
      rw [hfield cores_out (fun _ => rfl)]
      exact fun hpos => hpos
    parked := by
      intro d hd
      by_cases hdc : d = c
      · subst hdc
        exact absurd hself hd
      · rw [htemp d hdc] at hd
        rw [hfield temporary_waking_cores_out (fun _ => rfl)]
        exact h.parked d hd
    same_reenroll := h.same_reenroll
    reenroll_nonneg := by
      rw [hfield reenroll_count (fun _ => rfl)]
      exact h.reenroll_nonneg
    questions := h.questions
    answers := by
      rw [hfield cores_out (fun _ => rfl)]
      exact h.answers }
  apply hwoken.of_waking
  · intro w hw hre
    refine (mem_erase_of_ne ?_).mpr hw
    rintro rfl
    exact hre rfl
  · intro d hd hparked
    refine (mem_erase_of_ne ?_).mpr hd
    rintro heq
    obtain rfl := WakeMsg.wake.inj heq
    exact hparked hself
  · exact fun w hw => Or.inl (mem_of_mem_erase hw)

theorem takeQuestion (h : WaitInv s) {m : WakeMsg n} (hm : m.reenrolls = none)
    (hwake : ∀ c, m ≠ .wake c) : WaitInv { s with waking := s.waking.erase m } := by
  apply h.of_waking
  · intro w hw hre
    refine (mem_erase_of_ne ?_).mpr hw
    rintro rfl
    exact hre hm
  · intro c hc _
    exact (mem_erase_of_ne (hwake c).symm).mpr hc
  · exact fun w hw => Or.inl (mem_of_mem_erase hw)

end WaitInv

/-! ### Runs -/

/-- A step that does not let two phases run into each other: only the first enroll of a phase is
    made by a task that is no unit of work, `enroll_recurring` fits into an `int`, a flattened
    completion has `dec = 1`; a phase does not end before every core has answered the reset of
    the one before, the master is not reset after a core has cancelled the barrier, and does not
    enroll again after somebody else has; **a reset finds nobody parked in
    `temporary_waking_cv`**; and a task is not told to wait when its phase has ended and its
    core has been reset. -/
def Orderly (cfg : GceConfig) (s : GceState n) : GceLabel n → Prop
  | .enroll recurring call => (call.inc ≠ 0 → call.parent = none → s.opened = false) ∧
      (recurring = true → call.inc < 2 ^ 31)
  | .complete c owner dec => cfg.flatten_completions = true → c ≠ owner →
      (s.completion_msgs (c, owner)).cm.msg.waiting_to_send = true → dec = 1
  | .deliver .enter => (s.gce master_core).cores_out = 1 →
      (s.gce master_core).temporary_waking_cores_out = 0
  | .deliver_wake (.reset c _) => (c = master_core → (s.gce master_core).cores_out = 0) ∧
      (s.gce c).temporary_waking_cv = []
  | .deliver_wake (.reset_done re) => (s.gce master_core).temporary_waking_cores_out = 1 →
      re ≠ 0 → s.opened = false
  | .deliver_wake (.query_reply c w co) => 0 < co → w = s.phase ∨ s.ResetComing c
  | _ => True

instance (cfg : GceConfig) (s : GceState n) : ∀ l, Decidable (Orderly cfg s l)
  | .enroll _ _ | .deliver_wake (.reset _ _) => inferInstanceAs (Decidable (_ ∧ _))
  | .complete _ _ _ | .deliver_wake (.reset_done _) => inferInstanceAs (Decidable (_ → _ → _))
  | .deliver .enter | .deliver_wake (.query_reply _ _ _) => inferInstanceAs (Decidable (_ → _))
  | .deliver (.cancel _) | .deliver (.cancel_reply _ _) | .deliver (.all_cores _ _ _)
  | .deliver (.complete _ _) | .completion_msg _ _ _ | .completion_received _ _ _ | .wait _
  | .deliver_in_progress _ _ | .deliver_ack _ | .deliver_wake (.wake _)
  | .deliver_wake (.query _ _) => isTrue trivial

theorem Orderly.countCond (h : WaitInv s) {l : GceLabel n} (hl : Orderly cfg s l)
    (henabled : s.next cfg l ≠ none) : CountCond cfg s l := by
  cases l with
  | enroll recurring call => exact hl.1
  | complete c owner dec => exact hl
  | deliver m =>
    cases m with
    | enter => exact hl
    | _ => trivial
  | deliver_wake w =>
    cases w with
    | reset c re => exact hl.1
    | reset_done re =>
      intro hlast hre
      have hw : WakeMsg.reset_done re ∈ s.waking := by
        by_contra hw
        exact henabled (if_neg hw)
      have := h.reenroll_nonneg.2 _ hw re rfl
      exact ⟨hl hlast hre, by omega⟩
    | _ => trivial
  | _ => trivial

theorem deliverWake_waitInv (h : WaitInv s) (hcounts : CountInv cfg s) {m : WakeMsg n}
    (hl : Orderly cfg s (.deliver_wake m)) (hstep : s.takeWake m deliverWake = some s') :
    WaitInv s' := by
  obtain ⟨hm, hstep⟩ := ite_none_right_eq_some.mp hstep
  cases m with
  | reset c re => exact h.resetCore hcounts hm hl.1 hl.2 hstep
  | reset_done re =>
    cases hstep
    exact h.resetDone hcounts hm
  | wake c =>
    cases hstep
    exact h.wakeCore c
  | query c w =>
    cases hstep
    apply h.of_waking
    · intro v hv hre
      refine mem_cons_of_mem ((mem_erase_of_ne ?_).mpr hv)
      rintro rfl
      exact hre rfl
    · intro d hd _
      exact mem_cons_of_mem ((mem_erase_of_ne (by simp)).mpr hd)
    · intro v hv
      rcases Multiset.mem_cons.mp hv with rfl | hv
      · exact Or.inr (Or.inr (Or.inr ⟨c, w, h.questions c w hm, rfl⟩))
      · exact Or.inl (mem_of_mem_erase hv)
  | query_reply c w co =>
    cases hstep
    have htaken := h.takeQuestion (m := .query_reply c w co) rfl (by simp)
    unfold conservativeCheck
    split_ifs with hco
    · have hreset : s.ResetComing c → ({ s with
          waking := s.waking.erase (.query_reply c w co) } : GceState n).ResetComing c := by
        rintro ⟨v, hv, hvc⟩
        refine ⟨v, (mem_erase_of_ne ?_).mpr hv, hvc⟩
        rintro rfl
        exact hvc
      obtain ⟨hle, hout⟩ := h.answers c w co hm
      -- the answer is still true, or the reset that ends its phase is on its way
      rcases hl hco with heq | hcoming
      · refine htaken.suspend (Or.inl (hout hco heq)) hle fun hlt => ?_
        exact absurd hlt (by rw [heq]; exact lt_irrefl _)
      · exact htaken.suspend (busy_of_reset (hreset hcoming)) hle fun _ => hreset hcoming
    · exact htaken

theorem wait_step (h : WaitInv s) (hcounts : CountInv cfg s) {l : GceLabel n}
    (hl : Orderly cfg s l) (hstep : s.next cfg l = some s') : WaitInv s' ∧ CountInv cfg s' := by
  have hcond := hl.countCond h (by rw [hstep]; exact some_ne_none _)
  have hcounts' := count_step hcounts hcond hstep
  refine ⟨?_, hcounts'⟩
  have hframe : Frame (fun _ => False) s s' → WaitInv s' :=
    fun hf => h.of_frame hf fun _ hfalse => hfalse.elim
  cases l with
  | enroll recurring call => exact h.enroll hcounts hl.2 hstep
  | complete c owner dec => exact hframe (Frame.completeTarget hstep)
  | completion_msg source owner l => exact hframe (Frame.completionStep hstep)
  | completion_received source owner dec => exact hframe (Frame.completionStep hstep)
  | wait c =>
    cases hstep
    exact h.wait c
  | deliver m => exact h.deliver hcounts hcounts' hcond hstep
  | deliver_in_progress m c => exact h.deliverInProgress hcounts hstep
  | deliver_ack m => exact hframe (Frame.deliverAck hstep)
  | deliver_wake m => exact deliverWake_waitInv h hcounts hl hstep

theorem init_waitInv (n : ℕ) : WaitInv (init n) where
  suspended _ := rfl
  tags _ _ hw := absurd hw List.not_mem_nil
  busy _ hc := by
    rcases hc with hc | hc
    · exact absurd hc (by simp [init, fresh])
    · exact absurd rfl hc
  parked _ hc := absurd rfl hc
  same_reenroll _ hw := absurd hw (notMem_zero _)
  reenroll_nonneg := ⟨le_rfl, fun _ hw => absurd hw (notMem_zero _)⟩
  questions _ _ hw := absurd hw (notMem_zero _)
  answers _ _ _ hw := absurd hw (notMem_zero _)

/-- No message is in flight. -/
def NothingInFlight (s : GceState n) : Prop :=
  s.counting = 0 ∧ s.waking = 0 ∧ ∀ p, (s.completion_msgs p).pending = 0

/-- When nothing is in flight, a task is suspended only for the phase that is open, and some of
    the work of that phase is not completed. -/
def NoLostWakeup (s : GceState n) : Prop :=
  s.NothingInFlight → ∀ c, ∀ w ∈ s.suspended c, w = s.phase ∧ ∃ o, 0 < s.units o

/-- Who waits when nothing is in flight waits for work. -/
theorem WaitInv.noLostWakeup (h : WaitInv s) (hcounts : CountInv cfg s) : s.NoLostWakeup := by
  rintro ⟨hcounting, hwaking, hpending⟩ c w hw
  have hnot : ∀ m : WakeMsg n, m ∉ s.waking := by
    intro m
    rw [hwaking]
    exact notMem_zero m
  -- nobody is parked, for the wake messages have arrived
  have htemp : (s.gce c).temporary_waking_cv = [] := by
    by_contra hne
    rcases h.parked c hne with hpos | hwake
    · have heq : (s.gce master_core).temporary_waking_cores_out =
          weigh WakeMsg.resets s.waking := hcounts.ledger.resets_eq
      rw [heq, hwaking, weigh_zero] at hpos
      exact absurd hpos (lt_irrefl _)
    · exact hnot _ hwake
  have hcv : w ∈ (s.gce c).cv := by
    rw [h.suspended c, htemp] at hw
    simpa using hw
  obtain ⟨hle, hlate⟩ := h.tags c w hcv
  have hphase : w = s.phase := by
    by_contra hne
    obtain ⟨m, hm, -⟩ := hlate (by omega)
    exact hnot m hm
  refine ⟨hphase, ?_⟩
  -- the core is busy because a core is out, and that core has work
  have hout : 0 < (s.gce master_core).cores_out := by
    rcases h.busy c (Or.inr (List.ne_nil_of_mem hcv)) with hpos | ⟨m, hm, -⟩ | ⟨call, hcall, -⟩ |
      ⟨m, hm, -⟩
    · exact hpos
    · exact absurd hm (hnot m)
    · rw [hcounting] at hcall
      exact absurd hcall (notMem_zero _)
    · exact absurd hm (hnot m)
  have hsum : (s.gce master_core).cores_out = ∑ o, Census.busy (s.gce o).count := by
    have hledger := hcounts.ledger.out
    simp only [Ledger.counted, ledger, hcounting, weigh_zero, sub_zero, add_zero] at hledger
    exact hledger
  by_contra hno
  push Not at hno
  have hzero : ∀ o, Census.busy (s.gce o).count = 0 := by
    intro o
    have howed := hcounts.ledger.owed o
    have hpend : s.ledger.pending o = 0 := by
      show ∑ source, (s.completion_msgs (source, o)).pending = 0
      exact Finset.sum_eq_zero fun source _ => hpending (source, o)
    have hunits : s.units o = 0 := Nat.le_zero.mp (hno o)
    rw [hpend] at howed
    simp only [ledger, hcounting, weigh_zero, hunits] at howed
    rw [howed]
    rfl
  rw [hsum, Finset.sum_eq_zero fun o _ => hzero o] at hout
  exact absurd hout (lt_irrefl _)

end GceState

open GceState

/-- **No wakeup is lost in an orderly run.**  On any number of cores, in every run (any number of
    phases) whose steps are all orderly, when nothing is in flight no task is suspended for a
    phase whose work has all completed. -/
theorem no_lost_wakeup (n : ℕ) (cfg : GceConfig) (ls : List (GceLabel n)) (s : GceState n)
    (horderly : (gceSystem n cfg).Always (Orderly cfg) (gceSystem n cfg).init ls)
    (hrun : (gceSystem n cfg).run (gceSystem n cfg).init ls = some s) : s.NoLostWakeup := by
  have hinv : WaitInv s ∧ CountInv cfg s := Transition.System.invariant_under
    (fun s => WaitInv s ∧ CountInv cfg s) (fun s l s' h hl hstep => wait_step h.1 h.2 hl hstep)
    ⟨init_waitInv n, init_countInv n cfg⟩ horderly hrun
  exact hinv.1.noLostWakeup hinv.2

/-- The first phase of two cores: a task on core 1 waits while core 0 has work, which completes;
    every reset is delivered, and the wake message for core 0. -/
def firstPhase : List (GceLabel 1) :=
  let call : EnrollCall 1 := ⟨master_core, 1, none⟩
  let other : Fin 2 := ⟨1, Nat.one_lt_two⟩
  [.enroll false call, .deliver_in_progress (.all_cores call [other] 0) other,
    .deliver_ack (.all_cores call [] 1), .wait other, .complete master_core master_core 1,
    .wait master_core, .deliver .enter, .deliver_wake (.reset master_core 0),
    .deliver_wake (.reset other 0), .deliver_wake (.reset_done 0), .deliver_wake (.reset_done 0),
    .deliver_wake (.wake master_core)]

theorem no_lost_wakeup_two_cores :
    ∃ s, (gceSystem 1 ⟨true, id⟩).run (gceSystem 1 ⟨true, id⟩).init
      (firstPhase ++ [.deliver_wake (.wake 1)]) = some s ∧ s.NoLostWakeup := by
  have hrun : ((gceSystem 1 ⟨true, id⟩).run (gceSystem 1 ⟨true, id⟩).init
      (firstPhase ++ [.deliver_wake (.wake 1)])).isSome := by decide
  obtain ⟨s, hs⟩ := isSome_iff_exists.mp hrun
  exact ⟨s, hs, no_lost_wakeup 1 ⟨true, id⟩ _ s (by decide) hs⟩

/-- The woken task enrolls and completes again, and the reset of the second phase reaches core 1
    before the wake message of the first. -/
def overtakingRun : List (GceLabel 1) :=
  let call : EnrollCall 1 := ⟨master_core, 1, none⟩
  let other : Fin 2 := ⟨1, Nat.one_lt_two⟩
  firstPhase ++ [.enroll false call, .deliver_in_progress (.all_cores call [other] 0) other,
    .deliver_ack (.all_cores call [] 1), .complete master_core master_core 1, .deliver .enter,
    .deliver_wake (.reset other 0), .deliver_wake (.reset master_core 0),
    .deliver_wake (.reset_done 0), .deliver_wake (.reset_done 0),
    .deliver_wake (.wake master_core), .deliver_wake (.wake other), .deliver_wake (.wake other)]

/-- The task on core 1 is never woken. -/
theorem lost_wakeup :
    ∃ s, (gceSystem 1 ⟨true, id⟩).run (gceSystem 1 ⟨true, id⟩).init overtakingRun = some s ∧
      s.suspended 1 = {0} ∧ s.phase = 2 ∧ ¬ s.NoLostWakeup := by
  have hrun : ((gceSystem 1 ⟨true, id⟩).run (gceSystem 1 ⟨true, id⟩).init overtakingRun).any
      (fun s => decide (s.suspended 1 = {0} ∧ s.phase = 2 ∧ s.counting = 0 ∧ s.waking = 0 ∧
        ∀ p, (s.completion_msgs p).pending = 0)) = true := by decide
  obtain ⟨s, hs, hend⟩ := (any_eq_true _ _).mp hrun
  obtain ⟨hsuspended, hphase, hcounting, hwaking, hpending⟩ := of_decide_eq_true hend
  refine ⟨s, hs, hsuspended, hphase, fun hno => ?_⟩
  have hmem : (0 : ℕ) ∈ s.suspended 1 := by rw [hsuspended]; exact Multiset.mem_singleton_self 0
  have := (hno ⟨hcounting, hwaking, hpending⟩ 1 0 hmem).1
  omega

end Grappa
