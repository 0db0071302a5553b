import AdvCompArch.Grappa.GceFrame

/-! # One phase of the global completion event

    In a single phase all the work descends from one enroll.  The conditions that the
    counts need then hold by themselves: nothing is reset before the phase has ended, and
    nobody enrolls afterwards (`OnePhaseInv`).

    `one_phase_safety`: when `cores_out` reaches zero all work is done, and no
    `CHECK_EQ(count, 0)` fails. -/

namespace Grappa

open Census Option

variable {n : ℕ}

namespace GceState

variable {cfg : GceConfig} {s s' t : GceState n}

theorem resetDone_phase (re : ℤ) (s : GceState n) : (s.resetDone re).phase = s.phase := by
  unfold resetDone
  simp only
  split_ifs <;> rfl

theorem resetDone_opened {re : ℤ}
    (hre : (s.gce master_core).temporary_waking_cores_out = 1 → re = 0) :
    (s.resetDone re).opened = s.opened := by
  unfold resetDone
  simp only [update_gce_self]
  split_ifs with hlast hne
  · change (s.gce master_core).temporary_waking_cores_out - 1 = 0 at hlast
    exact absurd (hre (by omega)) hne
  · rfl
  · rfl

theorem conservativeCheck_same (c : Fin (n + 1)) (w : ℕ) (co : ℤ) (s : GceState n) :
    (s.conservativeCheck c w co).phase = s.phase ∧
      (s.conservativeCheck c w co).opened = s.opened ∧
      (s.conservativeCheck c w co).waking = s.waking := by
  unfold conservativeCheck
  split_ifs <;> exact ⟨rfl, rfl, rfl⟩

theorem wait_same (c : Fin (n + 1)) (s : GceState n) :
    (s.wait c).phase = s.phase ∧ (s.wait c).opened = s.opened ∧
      weigh WakeMsg.resets (s.wait c).waking = weigh WakeMsg.resets s.waking := by
  unfold wait
  split_ifs
  · exact ⟨rfl, rfl, rfl⟩
  · obtain ⟨hphase, hopened, hwaking⟩ :=
      conservativeCheck_same c s.phase (s.gce master_core).cores_out s
    exact ⟨hphase, hopened, by rw [hwaking]⟩
  · exact ⟨rfl, rfl, (weigh_cons _ _ _).trans (zero_add _)⟩

/-! ### One phase -/

/-- A step of one phase: only the first enroll is made by a task that is no unit of work, a
    completion has `dec = 1` or is not flattened, and the master does not enroll again. -/
def OnePhase (cfg : GceConfig) (s : GceState n) : GceLabel n → Prop
  | .enroll _ call => call.inc ≠ 0 → call.parent = none → s.phase = 0 ∧ s.opened = false
  | .complete c owner dec => cfg.flatten_completions = true → c ≠ owner →
      (s.completion_msgs (c, owner)).cm.msg.waiting_to_send = true → dec = 1
  | .deliver_wake (.reset_done re) => (s.gce master_core).temporary_waking_cores_out = 1 → re = 0
  | _ => True

instance (cfg : GceConfig) (s : GceState n) : ∀ l, Decidable (OnePhase cfg s l)
  | .enroll _ _ | .complete _ _ _ => inferInstanceAs (Decidable (_ → _ → _))
  | .deliver_wake (.reset_done _) => inferInstanceAs (Decidable (_ → _))
  | .completion_msg _ _ _ | .completion_received _ _ _ | .wait _ | .deliver _
  | .deliver_in_progress _ _ | .deliver_ack _ | .deliver_wake (.reset _ _)
  | .deliver_wake (.wake _) | .deliver_wake (.query _ _) | .deliver_wake (.query_reply _ _ _) =>
    isTrue trivial

/-- Nobody holds a unit of work, and no enroll, completion or message about one is under way. -/
def NoWork (s : GceState n) : Prop :=
  (∀ c, s.units c = 0) ∧ (∀ p, (s.completion_msgs p).pending = 0) ∧
    ∀ m ∈ s.counting, m = .enter

/-- The invariant of one phase: nothing is reset before it has ended, and afterwards nobody
    enrolls. -/
structure OnePhaseInv (cfg : GceConfig) (s : GceState n) : Prop where
  counts : CountInv cfg s
  before : s.phase = 0 → weigh WakeMsg.resets s.waking = 0
  after : s.phase ≠ 0 → s.opened = false

theorem CountInv.pending_eq_zero (h : CountInv cfg s) (hq : s.ledger.Quiet)
    (p : Fin (n + 1) × Fin (n + 1)) : (s.completion_msgs p).pending = 0 := by
  obtain ⟨source, owner⟩ := p
  have hsum : ∑ k, (s.completion_msgs (k, owner)).pending = 0 := hq.2 owner
  exact (Finset.sum_eq_zero_iff_of_nonneg fun k _ =>
    CompletionCell.pending_nonneg (h.cells (k, owner)) (h.cells_pos (k, owner))).mp hsum source
      (Finset.mem_univ _)

theorem resets_pos {w : WakeMsg n} (hw : w ∈ s.waking) (hone : w.resets = 1) :
    0 < weigh WakeMsg.resets s.waking := by
  have hle := le_weigh_of_mem (fun k _ => WakeMsg.resets_nonneg k) hw
  omega

namespace OnePhaseInv

theorem countCond (h : OnePhaseInv cfg s) {l : GceLabel n} (hl : OnePhase cfg s l)
    (henabled : s.next cfg l ≠ none) : CountCond cfg s l := by
  cases l with
  | enroll recurring call => exact fun hinc hnone => (hl hinc hnone).2
  | complete c owner dec => exact hl
  | deliver m =>
    cases m with
    | enter =>
      intro _
      -- an enter message is sent before the phase has ended, and before that nothing is reset
      have hm : CountMsg.enter ∈ s.counting := by
        by_contra hm
        exact henabled (if_neg hm)
      have hzero : s.phase = 0 := by
        by_contra hne
        have hempty : s.counting = 0 := (h.counts.ledger.idle (h.after hne)).2
        rw [hempty] at hm
        exact Multiset.notMem_zero _ hm
      exact h.counts.ledger.resets_eq.trans (h.before hzero)
    | _ => trivial
  | deliver_wake w =>
    cases w with
    | reset c re =>
      intro _
      -- once the phase has ended `cores_out` stays at zero
      have hw : WakeMsg.reset c re ∈ s.waking := by
        by_contra hw
        exact henabled (if_neg hw)
      have hne : s.phase ≠ 0 := by
        intro hzero
        have := h.before hzero
        have := resets_pos hw rfl
        omega
      obtain ⟨hq, hempty⟩ := h.counts.ledger.idle (h.after hne)
      have hcount := h.counts.ledger.count_of_quiet hq hempty
      have hout := h.counts.ledger.out
      simp only [Ledger.counted, hcount, hempty, weigh_zero, busy_zero, sub_zero,
        Finset.sum_const_zero, add_zero] at hout
      exact hout
    | reset_done re => exact fun hone hre => absurd (hl hone) hre
    | _ => trivial
  | _ => trivial

theorem of_frame (h : OnePhaseInv cfg s) (hcounts : CountInv cfg s')
    (hphase : s'.phase = s.phase) (hopened : s.phase ≠ 0 → s'.opened = s.opened)
    (hresets : weigh WakeMsg.resets s'.waking = weigh WakeMsg.resets s.waking) :
    OnePhaseInv cfg s' where
  counts := hcounts
  before := by
    rw [hphase, hresets]
    exact h.before
  after := by
    rw [hphase]
    intro hne
    exact (hopened hne).trans (h.after hne)

theorem no_enroll (h : OnePhaseInv cfg s) (hne : s.phase ≠ 0) {parent : Option (Fin (n + 1))}
    (hparent : parent ≠ none) (hhold : s.hold parent = some t) : False := by
  cases parent with
  | none => exact hparent rfl
  | some o =>
    obtain ⟨ho, -⟩ := ite_none_right_eq_some.mp hhold
    have hq : s.units o = 0 := (h.counts.ledger.idle (h.after hne)).1.1 o
    omega

theorem enroll (h : OnePhaseInv cfg s) {recurring : Bool} {call : EnrollCall n}
    (hl : call.inc ≠ 0 → call.parent = none → s.phase = 0 ∧ s.opened = false)
    (hcounts : CountInv cfg s') (hstep : s.enroll recurring call = some s') :
    OnePhaseInv cfg s' := by
  obtain ⟨u, hu, hcase⟩ := enroll_cases hstep
  have huinv : OnePhaseInv cfg u ∧ u.phase = s.phase := by
    rcases hu with rfl | ⟨-, -, rfl⟩
    · exact ⟨h, rfl⟩
    · exact ⟨⟨h.counts.congr rfl (ledger_setRecurring call s), h.before, h.after⟩, rfl⟩
  rcases hcase with ⟨-, rfl⟩ | ⟨hinc, v, hhold, hadd⟩
  · exact huinv.1
  · have hframe := Frame.addWork (P := fun _ => True) (fun _ => trivial) hhold hadd
    refine huinv.1.of_frame hcounts hframe.phase ?_ (by rw [hframe.waking])
    intro hne
    refine absurd (huinv.1.no_enroll hne ?_ hhold) (fun h => h)
    intro hnone
    rw [huinv.2] at hne
    exact hne (hl hinc hnone).1

theorem deliver (h : OnePhaseInv cfg s) {m : CountMsg n} (hcounts : CountInv cfg s')
    (hstep : s.takeCount m deliverCount = some s') : OnePhaseInv cfg s' := by
  obtain ⟨hm, hstep⟩ := ite_none_right_eq_some.mp hstep
  have hframe : ∀ {u : GceState n}, Frame (fun _ => True) s u → Frame (fun _ => True) u s' →
      OnePhaseInv cfg s' := by
    intro u hu hu'
    have hf := hu.trans hu'
    exact h.of_frame hcounts hf.phase (fun _ => hf.opened) (by rw [hf.waking])
  cases m with
  | cancel call =>
    cases hstep
    exact h.of_frame hcounts rfl (fun _ => rfl) rfl
  | cancel_reply call co =>
    exact hframe (Frame.take (.cancel_reply call co) (fun h => h) s) (Frame.cancelled trivial hstep)
  | all_cores call to_set acks => exact absurd hstep (by simp [deliverCount])
  | complete owner dec =>
    cases hstep
    exact hframe (Frame.take (.complete owner dec) (fun h => h) s) (Frame.complete _ _ _)
  | enter =>
    unfold deliverCount enterBarrier at hstep
    simp only at hstep
    split_ifs at hstep with hzero hcheck
    · -- the phase ends
      cases hstep
      refine ⟨hcounts, fun hphase => ?_, fun _ => rfl⟩
      exact absurd hphase (Nat.succ_ne_zero _)
    · cases hstep
      exact h.of_frame hcounts rfl (fun _ => rfl) rfl

theorem deliverWake (h : OnePhaseInv cfg s) {w : WakeMsg n}
    (hl : OnePhase cfg s (.deliver_wake w)) (hcounts : CountInv cfg s')
    (hstep : s.takeWake w deliverWake = some s') : OnePhaseInv cfg s' := by
  obtain ⟨hw, hstep⟩ := ite_none_right_eq_some.mp hstep
  have htake : weigh WakeMsg.resets s.waking =
      w.resets + weigh WakeMsg.resets (s.waking.erase w) := by
    rw [← weigh_cons, Multiset.cons_erase hw]
  cases w with
  | reset c re =>
    obtain ⟨-, rfl⟩ := ite_some_none_eq_some.mp hstep
    by_cases hre : re ≠ 0
    · simp only [if_pos hre] at hcounts ⊢
      refine h.of_frame hcounts rfl (fun _ => rfl) ?_
      rw [htake]
      exact weigh_cons _ _ _
    · simp only [if_neg hre] at hcounts ⊢
      refine h.of_frame hcounts rfl (fun _ => rfl) ?_
      rw [htake]
      exact weigh_cons _ _ _
  | reset_done re =>
    cases hstep
    -- answers are on the way only after the phase has ended
    have hne : s.phase ≠ 0 := by
      intro hzero
      have := h.before hzero
      have := resets_pos hw rfl
      omega
    refine ⟨hcounts, ?_, ?_⟩
    · intro hzero
      exact absurd hzero (by rw [resetDone_phase]; exact hne)
    · intro _
      rw [resetDone_opened (s := { s with waking := s.waking.erase (.reset_done re) }) hl]
      exact h.after hne
  | wake c =>
    cases hstep
    refine h.of_frame hcounts rfl (fun _ => rfl) ?_
    rw [htake]
    exact (zero_add _).symm
  | query c w =>
    cases hstep
    refine h.of_frame hcounts rfl (fun _ => rfl) ?_
    rw [htake]
    exact weigh_cons _ _ _
  | query_reply c w co =>
    cases hstep
    obtain ⟨hphase, hopened, hwaking⟩ := conservativeCheck_same c w co
      { s with waking := s.waking.erase (.query_reply c w co) }
    refine h.of_frame hcounts hphase (fun _ => hopened) ?_
    rw [hwaking, htake]
    exact (zero_add _).symm

theorem step (h : OnePhaseInv cfg s) {l : GceLabel n} (hl : OnePhase cfg s l)
    (hstep : s.next cfg l = some s') : OnePhaseInv cfg s' := by
  have hcounts : CountInv cfg s' :=
    count_step h.counts (h.countCond hl (by rw [hstep]; exact some_ne_none _)) hstep
  have hframe : Frame (fun _ => True) s s' → OnePhaseInv cfg s' := by
    intro hf
    exact h.of_frame hcounts hf.phase (fun _ => hf.opened) (by rw [hf.waking])
  cases l with
  | enroll recurring call => exact h.enroll hl hcounts hstep
  | complete c owner dec => exact hframe (Frame.completeTarget hstep)
  | completion_msg source owner l => exact hframe (Frame.completionStep hstep)
  | completion_received source owner dec => exact hframe (Frame.completionStep hstep)
  | wait c =>
    cases hstep
    obtain ⟨hphase, hopened, hresets⟩ := wait_same c s
    exact h.of_frame hcounts hphase (fun _ => hopened) hresets
  | deliver m => exact h.deliver hcounts hstep
  | deliver_in_progress m c => exact hframe (Frame.deliverInProgress trivial hstep)
  | deliver_ack m => exact hframe (Frame.deliverAck hstep)
  | deliver_wake w => exact h.deliverWake hl hcounts hstep

end OnePhaseInv

theorem init_onePhaseInv (n : ℕ) (cfg : GceConfig) : OnePhaseInv cfg (init n) :=
  ⟨init_countInv n cfg, fun _ => rfl, fun hne => absurd rfl hne⟩

end GceState

open GceState

/-- **The barrier of one phase is safe.**  On any number of cores, in every run of one phase
    from the reset state (whatever the order of the tasks and messages), when an enter message
    is about to take `cores_out` to zero every count is zero and no work is outstanding
    anywhere; and the `CHECK_EQ(count, 0)` of no reset or last enter message can fail. -/
theorem one_phase_safety (n : ℕ) (cfg : GceConfig) (ls : List (GceLabel n)) (s : GceState n)
    (hphase : (gceSystem n cfg).Always (OnePhase cfg) (gceSystem n cfg).init ls)
    (hrun : (gceSystem n cfg).run (gceSystem n cfg).init ls = some s) :
    (.enter ∈ s.counting → (s.gce master_core).cores_out - 1 = 0 →
      (∀ c, (s.gce c).count = 0) ∧ s.NoWork ∧ s.takeCount .enter deliverCount ≠ none) ∧
    ∀ c re, .reset c re ∈ s.waking →
      (s.gce c).count = 0 ∧ s.takeWake (.reset c re) deliverWake ≠ none := by
  have hinv : OnePhaseInv cfg s := Transition.System.invariant_under (OnePhaseInv cfg)
    (fun s l s' h hl hstep => h.step hl hstep) (init_onePhaseInv n cfg) hphase hrun
  constructor
  · intro henter hout
    have hzero : ∀ c, (s.gce c).count = 0 :=
      hinv.counts.ledger.all_zero henter (show (s.gce master_core).cores_out = 1 by omega)
    have hq := hinv.counts.ledger.quiet_of_zero hzero
    refine ⟨hzero, ⟨hq.1, hinv.counts.pending_eq_zero hq, ?_⟩, ?_⟩
    · exact hinv.counts.ledger.only_enters hzero
    · -- the `CHECK_EQ` holds on the master
      have hmaster : (s.gce master_core).count = 0 := hzero master_core
      unfold takeCount
      rw [if_pos henter]
      show enterBarrier _ ≠ none
      unfold enterBarrier
      simp only [update_gce_self]
      rw [if_pos (show (Gce.enter (s.gce master_core)).cores_out = 0 from hout),
        if_pos (show (Gce.enter (s.gce master_core)).count = 0 from hmaster)]
      exact some_ne_none _
  · intro c re hreset
    -- a reset is in flight only after the phase has ended
    have hne : s.phase ≠ 0 := by
      intro hfirst
      have := hinv.before hfirst
      have := resets_pos hreset rfl
      omega
    obtain ⟨hq, hempty⟩ := hinv.counts.ledger.idle (hinv.after hne)
    have hzero : (s.gce c).count = 0 := hinv.counts.ledger.count_of_quiet hq hempty c
    refine ⟨hzero, ?_⟩
    unfold takeWake
    rw [if_pos hreset]
    show resetCore c re _ ≠ none
    unfold resetCore
    rw [if_pos hzero]
    exact some_ne_none _

/-- A phase on two cores: a unit of core 0 enrolls one on core 1, and both complete. -/
def onePhaseRun : List (GceLabel 1) :=
  let other : Fin 2 := ⟨1, Nat.one_lt_two⟩
  let first : EnrollCall 1 := ⟨master_core, 1, none⟩
  let second : EnrollCall 1 := ⟨other, 1, some master_core⟩
  [.enroll false first, .deliver_in_progress (.all_cores first [other] 0) other,
    .deliver_ack (.all_cores first [] 1), .enroll false second, .deliver (.cancel second),
    .deliver (.cancel_reply second 2), .complete other master_core 1,
    .deliver (.complete master_core 1), .deliver .enter, .complete other other 1]

theorem one_phase_safety_two_cores :
    ∃ s, (gceSystem 1 ⟨false, id⟩).run (gceSystem 1 ⟨false, id⟩).init onePhaseRun = some s ∧
      (.enter ∈ s.counting → (s.gce master_core).cores_out - 1 = 0 →
        (∀ c, (s.gce c).count = 0) ∧ s.NoWork ∧ s.takeCount .enter deliverCount ≠ none) ∧
      ∀ c re, .reset c re ∈ s.waking →
        (s.gce c).count = 0 ∧ s.takeWake (.reset c re) deliverWake ≠ none := by
  have hrun : ((gceSystem 1 ⟨false, id⟩).run (gceSystem 1 ⟨false, id⟩).init onePhaseRun).isSome := by
    decide
  obtain ⟨s, hs⟩ := isSome_iff_exists.mp hrun
  exact ⟨s, hs, one_phase_safety 1 ⟨false, id⟩ onePhaseRun s (by decide) hs⟩

end Grappa
