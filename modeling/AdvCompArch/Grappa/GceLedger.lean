import AdvCompArch.Grappa.GlobalCompletionEvent
import AdvCompArch.Lib.Census

/-! # The ledger of the global completion event

    The count of a core is made up of the units of work enrolled on it, of the calls of
    `enroll` that have not returned, and of the completions on their way to it.
    `cores_out` counts the cores that are not at zero and whose cancel has arrived, and
    the enter messages in flight.

    A cancel can be late: a core may have left zero while `cores_out` does not count it.
    The task that enrolled there is a unit of another core, which cannot enter the barrier
    before the call has returned.  Following these parents leads from core to core, each
    of which left zero earlier than the one before (`Ledger.Inv.causes`), so one of them is
    counted. -/

namespace Grappa

open Census Function Multiset CountMsg
open Finset (mem_univ sum_nonneg sum_sub_distrib univ)

variable {n : ℕ}

/-! ### What a message stands for -/

/-- The units of core `c` that a call stands for: those it enrolls, and the one that makes it. -/
def EnrollCall.owes (c : Fin (n + 1)) (call : EnrollCall n) : ℤ :=
  (if call.core = c then (call.inc : ℤ) else 0) + if call.parent = some c then 1 else 0

namespace CountMsg

/-- The blocked call that the message will resume. -/
def resumes : CountMsg n → Option (EnrollCall n)
  | .cancel call => some call
  | .cancel_reply call _ => some call
  | .all_cores call _ _ => some call
  | _ => none

/-- The units of core `c` that the message stands for. -/
def owes (c : Fin (n + 1)) : CountMsg n → ℤ
  | .cancel call => call.owes c
  | .cancel_reply call _ => call.owes c
  | .all_cores call _ _ => call.owes c
  | .complete owner dec => if owner = c then dec else 0
  | .enter => 0

/-- Whether the message resumes a call on core `c`. -/
def callsAt (c : Fin (n + 1)) (m : CountMsg n) : ℤ :=
  if m.resumes.map EnrollCall.core = some c then 1 else 0

/-- Whether the message is the cancel of core `c`. -/
def cancelsAt (c : Fin (n + 1)) : CountMsg n → ℤ
  | .cancel call => if call.core = c then 1 else 0
  | _ => 0

def enters : CountMsg n → ℤ
  | .enter => 1
  | _ => 0

def IsCancel : CountMsg n → Prop
  | .cancel _ => True
  | _ => False

/-- What the message enrolls or completes is at least one. -/
def Positive : CountMsg n → Prop
  | .complete _ dec => 1 ≤ dec
  | m => ∀ call, m.resumes = some call → 1 ≤ call.inc

variable {m : CountMsg n} {call : EnrollCall n}

theorem owes_of_resumes (h : m.resumes = some call) (c : Fin (n + 1)) : m.owes c = call.owes c := by
  cases m <;> simp_all [resumes, owes]

theorem Positive.inc (hpos : m.Positive) (h : m.resumes = some call) : 1 ≤ call.inc := by
  cases m with
  | complete owner dec => simp [resumes] at h
  | cancel call' => exact hpos call h
  | cancel_reply call' co => exact hpos call h
  | all_cores call' to_set acks => exact hpos call h
  | enter => exact hpos call h

theorem positive_of_resumes (h : m.resumes = some call) (hinc : 1 ≤ call.inc) : m.Positive := by
  have hall : ∀ call', m.resumes = some call' → 1 ≤ call'.inc := by
    intro call' hcall'
    obtain rfl := Option.some.inj (hcall'.symm.trans h)
    exact hinc
  cases m with
  | complete owner dec => simp [resumes] at h
  | cancel call' => exact hall
  | cancel_reply call' co => exact hall
  | all_cores call' to_set acks => exact hall
  | enter => exact hall

theorem callsAt_of_resumes (h : m.resumes = some call) (c : Fin (n + 1)) :
    m.callsAt c = if call.core = c then 1 else 0 := by
  simp [callsAt, h]

theorem callsAt_of_none (h : m.resumes = none) (c : Fin (n + 1)) : m.callsAt c = 0 := by
  simp [callsAt, h]

theorem cancelsAt_of_not (h : ¬ m.IsCancel) (c : Fin (n + 1)) : m.cancelsAt c = 0 := by
  cases m <;> simp_all [IsCancel, cancelsAt]

theorem callsAt_nonneg (c : Fin (n + 1)) (m : CountMsg n) : 0 ≤ m.callsAt c := by
  unfold callsAt
  split_ifs <;> omega

theorem cancelsAt_le_callsAt (c : Fin (n + 1)) (m : CountMsg n) : m.cancelsAt c ≤ m.callsAt c := by
  cases m with
  | cancel call => simp [cancelsAt, callsAt, resumes]
  | _ => exact callsAt_nonneg c _

theorem cancelsAt_nonneg (c : Fin (n + 1)) (m : CountMsg n) : 0 ≤ m.cancelsAt c := by
  cases m with
  | cancel call => simp only [cancelsAt]; split_ifs <;> omega
  | _ => exact le_rfl

theorem cancelsAt_of_ne (h : m.resumes = some call) {c : Fin (n + 1)} (hc : c ≠ call.core) :
    m.cancelsAt c = 0 := by
  cases m with
  | cancel call' =>
    cases h
    exact if_neg (Ne.symm hc)
  | _ => rfl

theorem sum_cancelsAt (h : m.resumes = some call) : ∑ c, m.cancelsAt c = m.cancelsAt call.core :=
  Finset.sum_eq_single call.core (fun _ _ hc => cancelsAt_of_ne h hc) (by simp)

theorem enters_nonneg (m : CountMsg n) : 0 ≤ m.enters := by
  cases m <;> simp [enters]

theorem enters_of_resumes (h : m.resumes = some call) : m.enters = 0 := by
  cases m <;> simp_all [resumes, enters]

theorem owes_call_nonneg (c : Fin (n + 1)) (call : EnrollCall n) : 0 ≤ call.owes c := by
  unfold EnrollCall.owes
  split_ifs <;> omega

theorem owes_nonneg (c : Fin (n + 1)) (hpos : m.Positive) : 0 ≤ m.owes c := by
  cases m with
  | complete owner dec =>
    have : 1 ≤ dec := hpos
    simp only [owes]
    split_ifs <;> omega
  | enter => exact le_rfl
  | _ => exact owes_call_nonneg c _

/-- A call stands for at least one unit of its core. -/
theorem one_le_owes_core (hpos : m.Positive) (h : m.resumes = some call) : 1 ≤ m.owes call.core := by
  have := hpos.inc h
  rw [owes_of_resumes h]
  simp only [EnrollCall.owes, if_true]
  split_ifs <;> omega

theorem one_le_owes_parent (h : m.resumes = some call) {o : Fin (n + 1)}
    (ho : call.parent = some o) : 1 ≤ m.owes o := by
  rw [owes_of_resumes h]
  simp only [EnrollCall.owes, ho, if_true]
  split_ifs <;> omega

end CountMsg

/-! ### The ledger -/

/-- The part of a state that the counts depend on: the replicas' counts, `cores_out` and
    `temporary_waking_cores_out` of the master, the units of work and where they are. -/
@[ext] structure Ledger (n : ℕ) where
  count : Fin (n + 1) → ℤ
  cores_out : ℤ
  awaited : ℤ
  units : Fin (n + 1) → ℕ
  /-- The decrements on their way to a core in completion messages. -/
  pending : Fin (n + 1) → ℤ
  counting : Multiset (CountMsg n)
  /-- The number of resets and of their answers in flight. -/
  resets : ℤ
  opened : Bool
  stamp : Fin (n + 1) → ℕ
  clock : ℕ

namespace Ledger

/-- Put a message on its way. -/
def post (m : CountMsg n) (L : Ledger n) : Ledger n := { L with counting := m ::ₘ L.counting }

/-- Whether `cores_out` counts core `c`. -/
def counted (L : Ledger n) (c : Fin (n + 1)) : ℤ :=
  busy (L.count c) - weigh (cancelsAt c) L.counting

/-- No task holds a unit of work, and no completion is waiting to be sent or delivered. -/
def Quiet (L : Ledger n) : Prop := (∀ c, L.units c = 0) ∧ ∀ c, L.pending c = 0

/-- What relates the counts to the work enrolled and to the messages in flight. -/
structure Inv (L : Ledger n) : Prop where
  pending_nonneg : ∀ c, 0 ≤ L.pending c
  positive : ∀ m ∈ L.counting, m.Positive
  owed : ∀ c, L.count c = L.units c + L.pending c + weigh (owes c) L.counting
  out : L.cores_out = ∑ c, L.counted c + weigh enters L.counting
  /-- Only the call that took a core away from zero blocks. -/
  one_call : ∀ c, weigh (callsAt c) L.counting ≤ 1
  stamps : ∀ c, L.stamp c < L.clock
  causes : ∀ call, .cancel call ∈ L.counting → ∀ o, call.parent = some o →
    L.stamp o < L.stamp call.core
  /-- While the first call of a phase is blocked, there is nothing else. -/
  first : ∀ m ∈ L.counting, ∀ call, m.resumes = some call → call.parent = none →
    L.Quiet ∧ L.counting = {m}
  idle : L.opened = false → L.Quiet ∧ L.counting = 0
  resets_eq : L.awaited = L.resets

namespace Inv

variable {L : Ledger n}

theorem owes_nonneg (h : L.Inv) (c : Fin (n + 1)) :
    ∀ m ∈ L.counting, 0 ≤ owes c m :=
  fun m hm => CountMsg.owes_nonneg c (h.positive m hm)

theorem weigh_owes_nonneg (h : L.Inv) (c : Fin (n + 1)) :
    0 ≤ weigh (owes c) L.counting :=
  weigh_nonneg (h.owes_nonneg c)

theorem units_le_count (h : L.Inv) (c : Fin (n + 1)) : (L.units c : ℤ) ≤ L.count c := by
  have := h.owed c
  have := h.pending_nonneg c
  have := h.weigh_owes_nonneg c
  omega

theorem count_nonneg (h : L.Inv) (c : Fin (n + 1)) : 0 ≤ L.count c := by
  have := h.units_le_count c
  omega

theorem owes_le_count (h : L.Inv) (c : Fin (n + 1)) {m : CountMsg n}
    (hm : m ∈ L.counting) : m.owes c ≤ L.count c := by
  have := h.owed c
  have := h.pending_nonneg c
  have := le_weigh_of_mem (h.owes_nonneg c) hm
  omega

theorem count_pos_of_resumes (h : L.Inv) {m : CountMsg n} (hm : m ∈ L.counting)
    {call : EnrollCall n} (hcall : m.resumes = some call) : 0 < L.count call.core := by
  have := one_le_owes_core (h.positive m hm) hcall
  have := h.owes_le_count call.core hm
  omega

theorem count_pos_of_parent (h : L.Inv) {m : CountMsg n} (hm : m ∈ L.counting)
    {call : EnrollCall n} (hcall : m.resumes = some call) {o : Fin (n + 1)}
    (ho : call.parent = some o) : 0 < L.count o := by
  have := one_le_owes_parent hcall ho
  have := h.owes_le_count o hm
  omega

theorem nothing_owed (h : L.Inv) {c : Fin (n + 1)} (hc : L.count c = 0) :
    L.units c = 0 ∧ L.pending c = 0 ∧ ∀ m ∈ L.counting, m.owes c = 0 := by
  have := h.owed c
  have := h.pending_nonneg c
  have := h.weigh_owes_nonneg c
  refine ⟨by omega, by omega, ?_⟩
  intro m hm
  have := h.owes_nonneg c m hm
  have := h.owes_le_count c hm
  omega

theorem quiet_of_zero (h : L.Inv) (hzero : ∀ c, L.count c = 0) : L.Quiet := by
  constructor
  · intro c
    exact (h.nothing_owed (hzero c)).1
  · intro c
    exact (h.nothing_owed (hzero c)).2.1

theorem count_of_quiet (h : L.Inv) (hq : L.Quiet) (hnone : L.counting = 0)
    (c : Fin (n + 1)) : L.count c = 0 := by
  rw [h.owed c, hq.1 c, hq.2 c, hnone, weigh_zero]
  simp

theorem no_calls (h : L.Inv) {c : Fin (n + 1)} (hc : L.count c = 0) :
    weigh (callsAt c) L.counting = 0 := by
  apply weigh_eq_zero
  intro m hm
  cases hcall : m.resumes with
  | none => exact callsAt_of_none hcall c
  | some call =>
    rw [callsAt_of_resumes hcall]
    apply if_neg
    rintro rfl
    have := h.count_pos_of_resumes hm hcall
    omega

theorem cancels_nonneg (L : Ledger n) (c : Fin (n + 1)) :
    0 ≤ weigh (cancelsAt c) L.counting :=
  weigh_nonneg fun m _ => cancelsAt_nonneg c m

theorem cancels_le_calls (L : Ledger n) (c : Fin (n + 1)) :
    weigh (cancelsAt c) L.counting ≤ weigh (callsAt c) L.counting :=
  weigh_mono fun m _ => cancelsAt_le_callsAt c m

theorem counted_nonneg (h : L.Inv) (c : Fin (n + 1)) : 0 ≤ L.counted c := by
  have hle := cancels_le_calls L c
  unfold counted
  by_cases hpos : 0 < L.count c
  · have := h.one_call c
    rw [busy_of_pos hpos]
    omega
  · have hzero : L.count c = 0 := by
      have := h.count_nonneg c
      omega
    have := h.no_calls hzero
    rw [hzero, busy_zero]
    omega

theorem enters_nonneg (L : Ledger n) : 0 ≤ weigh enters L.counting :=
  weigh_nonneg fun m _ => CountMsg.enters_nonneg m

theorem cores_out_nonneg (h : L.Inv) : 0 ≤ L.cores_out := by
  rw [h.out]
  have := sum_nonneg fun c (_ : c ∈ univ) => h.counted_nonneg c
  have := enters_nonneg L
  omega

theorem cores_out_pos (h : L.Inv) {m : CountMsg n} (hm : m ∈ L.counting)
    {call : EnrollCall n} (hcall : m.resumes = some call) (hnot : ¬ m.IsCancel) :
    0 < L.cores_out := by
  have hcounted : L.counted call.core = 1 := by
    obtain ⟨ms, hms⟩ := exists_cons_of_mem hm
    have hone := h.one_call call.core
    have hle := cancels_le_calls { L with counting := ms } call.core
    have hnn := cancels_nonneg { L with counting := ms } call.core
    simp only at hle hnn
    rw [hms, weigh_cons, callsAt_of_resumes hcall, if_pos rfl] at hone
    unfold counted
    rw [busy_of_pos (h.count_pos_of_resumes hm hcall), hms, weigh_cons,
      cancelsAt_of_not hnot]
    omega
  rw [h.out]
  have hsum : L.counted call.core ≤ ∑ c, L.counted c :=
    Finset.single_le_sum (fun c _ => h.counted_nonneg c) (mem_univ _)
  have := enters_nonneg L
  omega

/-- **The barrier is complete only when all work is.**  When an enter message will take
    `cores_out` to zero, every count is zero. -/
theorem all_zero (h : L.Inv) (henter : .enter ∈ L.counting)
    (hout : L.cores_out = 1) (c : Fin (n + 1)) : L.count c = 0 := by
  -- the enter message is what `cores_out` counts, so it counts no core
  have hcounted : ∀ d, L.counted d = 0 := by
    have hle := le_weigh_of_mem (f := CountMsg.enters) (fun m _ => CountMsg.enters_nonneg m) henter
    have hsum := h.out
    rw [hout] at hsum
    have hnn := sum_nonneg fun c (_ : c ∈ univ) => h.counted_nonneg c
    have hone : enters (.enter : CountMsg n) = 1 := rfl
    have hzero : ∑ c, L.counted c = 0 := by omega
    intro d
    exact (Finset.sum_eq_zero_iff_of_nonneg fun k _ => h.counted_nonneg k).mp hzero d
      (mem_univ _)
  -- a core that is not at zero has its cancel in flight, made by a unit of an earlier such core
  have hempty : Finset.univ.filter (fun d => 0 < L.count d) = ∅ := by
    apply eq_empty_of_causes L.stamp
    intro d hd
    have hpos : 0 < L.count d := (Finset.mem_filter.mp hd).2
    have hcancel : weigh (cancelsAt d) L.counting ≠ 0 := by
      have := hcounted d
      unfold counted at this
      rw [busy_of_pos hpos] at this
      omega
    obtain ⟨m, hm, hne⟩ : ∃ m ∈ L.counting, cancelsAt d m ≠ 0 := by
      by_contra hno
      push Not at hno
      exact hcancel (weigh_eq_zero hno)
    cases m with
    | cancel call =>
      obtain rfl : call.core = d := by
        by_contra hcd
        simp [cancelsAt, hcd] at hne
      cases hparent : call.parent with
      | none =>
        -- the first call of a phase does not go together with an enter message
        obtain ⟨-, hsingle⟩ := h.first _ hm call rfl hparent
        rw [hsingle] at henter
        simp at henter
      | some o =>
        have hopos := h.count_pos_of_parent hm rfl hparent
        exact ⟨o, by simpa using hopos, h.causes call hm o hparent⟩
    | _ => simp [cancelsAt] at hne
  have hnn := h.count_nonneg c
  have hnot : c ∉ Finset.univ.filter (fun d => 0 < L.count d) := by simp [hempty]
  have : ¬ 0 < L.count c := by simpa using hnot
  omega

/-! ### Steps -/

theorem not_first (h : L.Inv) {m k : CountMsg n} (hm : m ∈ L.counting) (hk : k ∈ L.counting)
    (hne : m ≠ k) {call : EnrollCall n} (hcall : m.resumes = some call) : call.parent ≠ none := by
  intro hnone
  obtain ⟨-, hsingle⟩ := h.first m hm call hcall hnone
  rw [hsingle] at hk
  exact hne (mem_singleton.mp hk).symm

theorem of_work (h : L.Inv) {o : Fin (n + 1)} (ho : (L.units o : ℤ) + L.pending o ≠ 0) :
    L.opened = true ∧ ∀ m ∈ L.counting, ∀ call, m.resumes = some call → call.parent ≠ none := by
  have hnot : ¬ L.Quiet := by
    intro hq
    rw [hq.1 o, hq.2 o] at ho
    exact ho rfl
  constructor
  · by_contra hclosed
    exact hnot (h.idle (by simpa using hclosed)).1
  · intro m hm call hcall hnone
    exact hnot (h.first m hm call hcall hnone).1

theorem transfer (h : L.Inv) {c : Fin (n + 1)} {units : Fin (n + 1) → ℕ} {pending : Fin (n + 1) → ℤ}
    (hunits : ∀ d, d ≠ c → units d = L.units d) (hpending : ∀ d, d ≠ c → pending d = L.pending d)
    (hnonneg : 0 ≤ pending c) (hsum : units c + pending c = L.units c + L.pending c) :
    { L with units := units, pending := pending }.Inv := by
  have hquiet : L.Quiet → (∀ d, units d = 0) ∧ ∀ d, pending d = 0 := by
    intro hq
    have hu := hq.1 c
    have hp := hq.2 c
    constructor
    · intro d
      by_cases hd : d = c
      · subst hd
        omega
      · rw [hunits d hd, hq.1 d]
    · intro d
      by_cases hd : d = c
      · subst hd
        omega
      · rw [hpending d hd, hq.2 d]
  exact
  { h with
    pending_nonneg := by
      intro d
      by_cases hd : d = c
      · subst hd
        exact hnonneg
      · show 0 ≤ pending d
        rw [hpending d hd]
        exact h.pending_nonneg d
    owed := by
      intro d
      have := h.owed d
      simp only
      by_cases hd : d = c
      · subst hd
        omega
      · rw [hunits d hd, hpending d hd]
        exact this
    first := by
      intro m hm call hcall hnone
      obtain ⟨hq, hsingle⟩ := h.first m hm call hcall hnone
      exact ⟨hquiet hq, hsingle⟩
    idle := by
      intro hclosed
      obtain ⟨hq, hnone⟩ := h.idle hclosed
      exact ⟨hquiet hq, hnone⟩ }

theorem post_complete (h : L.Inv) {c : Fin (n + 1)} {units : Fin (n + 1) → ℕ}
    {pending : Fin (n + 1) → ℤ} {dec : ℤ} (hunits : ∀ d, d ≠ c → units d = L.units d)
    (hpending : ∀ d, d ≠ c → pending d = L.pending d) (hnonneg : 0 ≤ pending c) (hdec : 1 ≤ dec)
    (hsum : units c + pending c + dec = L.units c + L.pending c) :
    ({ L with units := units, pending := pending }.post (.complete c dec)).Inv := by
  obtain ⟨hopen, hfirst⟩ := h.of_work (o := c) (by omega)
  exact
  { pending_nonneg := by
      intro d
      show 0 ≤ pending d
      by_cases hd : d = c
      · subst hd
        exact hnonneg
      · rw [hpending d hd]
        exact h.pending_nonneg d
    positive := by
      intro m hm
      rcases mem_cons.mp hm with rfl | hm
      · exact hdec
      · exact h.positive m hm
    owed := by
      intro d
      have := h.owed d
      simp only [post, weigh_cons, owes]
      by_cases hd : d = c
      · subst hd
        rw [if_pos rfl]
        omega
      · rw [hunits d hd, hpending d hd, if_neg (Ne.symm hd)]
        omega
    out := by
      have hout := h.out
      simp only [post, counted, weigh_cons, cancelsAt, enters, zero_add]
      exact hout
    one_call := by
      intro d
      simp only [post, weigh_cons, callsAt_of_none (m := .complete c dec) rfl, zero_add]
      exact h.one_call d
    stamps := h.stamps
    causes := by
      intro call hcall
      rcases mem_cons.mp hcall with heq | hcall
      · exact absurd heq (by simp)
      · exact h.causes call hcall
    first := by
      intro m hm call hcall hnone
      rcases mem_cons.mp hm with rfl | hm
      · simp [resumes] at hcall
      · exact absurd hnone (hfirst m hm call hcall)
    idle := by
      intro hclosed
      exact absurd (hopen.symm.trans hclosed) (by simp)
    resets_eq := h.resets_eq }

end Inv

/-- `complete(dec)` on core `c`. -/
def complete (c : Fin (n + 1)) (dec : ℤ) (L : Ledger n) : Ledger n :=
  { L with
    count := Function.update L.count c (L.count c - dec)
    counting := (if L.count c - dec = 0 then {.enter} else 0) + L.counting }

namespace Inv

variable {L : Ledger n}

theorem deliver_complete {c : Fin (n + 1)} {dec : ℤ} (h : (L.post (.complete c dec)).Inv) :
    (L.complete c dec).Inv := by
  have hmem : .complete c dec ∈ (L.post (.complete c dec)).counting := mem_cons_self _ _
  have hdec : 1 ≤ dec := h.positive _ hmem
  have hle : dec ≤ L.count c := by
    have := h.owes_le_count c hmem
    simpa [owes, post] using this
  generalize hnew : (if L.count c - dec = 0 then {.enter} else 0 : Multiset (CountMsg n)) = new
  have hall : ∀ m ∈ new, m = .enter := by
    intro m hm
    rw [← hnew] at hm
    split_ifs at hm with hz
    · simpa using hm
    · exact absurd hm (notMem_zero m)
  -- the enter message accounts for a core that arrives at zero
  have henters : weigh enters new = busy (L.count c) - busy (L.count c - dec) := by
    rw [← hnew, busy_of_pos (x := L.count c) (by omega)]
    split_ifs with hz
    · rw [hz]
      rfl
    · rw [busy_of_pos (by omega)]
      rfl
  have hother : ∀ f : CountMsg n → ℤ, f .enter = 0 →
      weigh f (new + L.counting) = weigh f L.counting := by
    intro f hf
    rw [weigh_add, weigh_eq_zero fun m hm => by rw [hall m hm, hf], zero_add]
  have hold : ∀ m ∈ new + L.counting, m = .enter ∨ m ∈ L.counting := by
    intro m hm
    exact (mem_add.mp hm).imp (hall m) id
  unfold complete
  rw [hnew]
  exact
  { pending_nonneg := h.pending_nonneg
    positive := by
      intro m hm
      rcases hold m hm with rfl | hm
      · intro call hcall
        simp [resumes] at hcall
      · exact h.positive m (mem_cons_of_mem hm)
    owed := by
      intro d
      have hd := h.owed d
      simp only [post, weigh_cons, owes] at hd
      simp only [hother (owes d) rfl]
      by_cases hdc : d = c
      · subst hdc
        simp only [if_true] at hd
        rw [update_self]
        omega
      · simp only [Ne.symm hdc, if_false] at hd
        rw [update_of_ne hdc]
        omega
    out := by
      have hout := h.out
      simp only [post, counted, weigh_cons, cancelsAt, enters, zero_add] at hout
      simp only [counted, hother (cancelsAt _) rfl, weigh_add, henters, sum_busy_update]
      rw [hout]
      ring
    one_call := by
      intro d
      have hone := h.one_call d
      simp only [post, weigh_cons, callsAt_of_none (m := .complete c dec) rfl,
        zero_add] at hone
      simp only [hother (callsAt d) rfl]
      exact hone
    stamps := h.stamps
    causes := by
      intro call hcall
      rcases hold _ hcall with heq | hcall
      · exact absurd heq (by simp)
      · exact h.causes call (mem_cons_of_mem hcall)
    first := by
      intro m hm call hcall hnone
      rcases hold m hm with rfl | hm
      · simp [resumes] at hcall
      · have hne : m ≠ .complete c dec := by
          intro heq
          rw [heq] at hcall
          simp [resumes] at hcall
        exact absurd hnone (h.not_first (mem_cons_of_mem hm) hmem hne hcall)
    idle := by
      intro hclosed
      rw [(h.idle hclosed).2] at hmem
      exact absurd hmem (notMem_zero _)
    resets_eq := h.resets_eq }

theorem enroll_more (h : L.Inv) {c o : Fin (n + 1)} {inc : ℕ} (ho : 1 ≤ L.units o)
    (hc : 0 < L.count c) :
    { L with
      count := update L.count c (L.count c + inc)
      units := update L.units c (L.units c + inc)
      opened := true }.Inv := by
  have hwork : (L.units o : ℤ) + L.pending o ≠ 0 := by
    have := h.pending_nonneg o
    omega
  obtain ⟨-, hfirst⟩ := h.of_work hwork
  exact
  { h with
    owed := by
      intro d
      have := h.owed d
      by_cases hd : d = c
      · subst hd
        simp only [update_self]
        push_cast
        omega
      · simp only [update_of_ne hd]
        exact this
    out := by
      have hout := h.out
      simp only [counted] at hout
      simp only [counted, sum_busy_update]
      rw [busy_of_pos hc, busy_of_pos (by omega), hout]
      ring
    first := by
      intro m hm call hcall hnone
      exact absurd hnone (hfirst m hm call hcall)
    idle := nofun }

/-- An `enroll` that takes its core away from zero blocks, with its cancel on the way.  `units`
    are the units left while the calling task is busy with it. -/
theorem leave_zero (h : L.Inv) {call : EnrollCall n} {units : Fin (n + 1) → ℕ}
    (hinc : 1 ≤ call.inc) (hcount : L.count call.core = 0)
    (hunits : ∀ d, (units d : ℤ) + (if call.parent = some d then 1 else 0) = L.units d)
    (hparent : call.parent = none → L.opened = false) :
    ({ L with
      count := update L.count call.core (L.count call.core + call.inc)
      units := units
      opened := true
      stamp := update L.stamp call.core L.clock
      clock := L.clock + 1 }.post (.cancel call)).Inv := by
  -- the core of the task that makes the call has work, so it is another one
  have hother : ∀ o, call.parent = some o → 1 ≤ L.units o ∧ o ≠ call.core := by
    intro o ho
    have hone := hunits o
    rw [if_pos ho] at hone
    have hle := h.units_le_count o
    refine ⟨by omega, ?_⟩
    rintro rfl
    omega
  have hfirst : ∀ o, call.parent = some o →
      ∀ m ∈ L.counting, ∀ call', m.resumes = some call' → call'.parent ≠ none := by
    intro o ho
    have hwork : (L.units o : ℤ) + L.pending o ≠ 0 := by
      have := h.pending_nonneg o
      have := (hother o ho).1
      omega
    exact (h.of_work hwork).2
  exact
  { pending_nonneg := h.pending_nonneg
    positive := by
      intro m hm
      rcases mem_cons.mp hm with rfl | hm
      · intro call' hcall'
        cases hcall'
        exact hinc
      · exact h.positive m hm
    owed := by
      intro d
      have hd := h.owed d
      have hu := hunits d
      simp only [post, weigh_cons, owes, EnrollCall.owes]
      by_cases hdc : d = call.core
      · subst hdc
        rw [update_self, if_pos rfl]
        omega
      · rw [update_of_ne hdc, if_neg (Ne.symm hdc)]
        omega
    out := by
      have hout := h.out
      simp only [counted] at hout
      simp only [post, counted, sum_busy_update, weigh_cons, enters, zero_add]
      rw [hcount, busy_of_pos (x := 0 + (call.inc : ℤ)) (by omega), hout]
      simp only [cancelsAt, sum_sub_distrib, Finset.sum_add_distrib,
        Finset.sum_ite_eq, mem_univ, if_true, busy_zero]
      ring
    one_call := by
      intro d
      simp only [post, weigh_cons]
      rw [callsAt_of_resumes (show (cancel call).resumes = some call from rfl)]
      by_cases hd : call.core = d
      · subst hd
        rw [if_pos rfl, h.no_calls hcount]
        omega
      · rw [if_neg hd, zero_add]
        exact h.one_call d
    stamps := by
      intro d
      show update L.stamp call.core L.clock d < L.clock + 1
      by_cases hd : d = call.core
      · subst hd
        rw [update_self]
        omega
      · rw [update_of_ne hd]
        have := h.stamps d
        omega
    causes := by
      intro call' hcall' o ho
      show update L.stamp call.core L.clock o <
        update L.stamp call.core L.clock call'.core
      rcases mem_cons.mp hcall' with heq | hcall'
      · obtain rfl : call' = call := by simpa using heq
        rw [update_self, update_of_ne (hother o ho).2]
        exact h.stamps o
      · -- the cores of an older cancel have kept their stamps
        have hpos := h.count_pos_of_resumes hcall'
          (show (cancel call').resumes = some call' from rfl)
        have hpos' := h.count_pos_of_parent hcall' rfl ho
        rw [update_of_ne, update_of_ne]
        · exact h.causes call' hcall' o ho
        · intro heq
          rw [heq] at hpos
          omega
        · rintro rfl
          omega
    first := by
      intro m hm call' hcall' hnone
      cases hcp : call.parent with
      | none =>
        -- the phase starts with this call
        obtain ⟨hq, hempty⟩ := h.idle (hparent hcp)
        have hm' : m ∈ cancel call ::ₘ L.counting := hm
        rw [hempty] at hm'
        obtain rfl : m = .cancel call := by simpa using hm'
        refine ⟨⟨?_, hq.2⟩, ?_⟩
        · intro d
          have hu := hunits d
          have hz := hq.1 d
          simp only [hcp, reduceCtorEq, if_false] at hu
          show units d = 0
          omega
        · show cancel call ::ₘ L.counting = _
          rw [hempty]
          rfl
      | some o =>
        rcases mem_cons.mp hm with rfl | hm
        · cases hcall'
          rw [hcp] at hnone
          exact absurd hnone (by simp)
        · exact absurd hnone (hfirst o hcp m hm call' hcall')
    idle := nofun
    resets_eq := h.resets_eq }

/-- A blocked call moves on.  From the cancel on, its core is counted. -/
theorem move_on {m m' : CountMsg n} (h : (L.post m).Inv) {call : EnrollCall n}
    (hcall : m.resumes = some call) (hcall' : m'.resumes = some call) (hnot : ¬ m'.IsCancel) :
    ({ L with cores_out := L.cores_out + m.cancelsAt call.core }.post m').Inv := by
  have hmem : m ∈ (L.post m).counting := mem_cons_self _ _
  have howes : ∀ d, m'.owes d = m.owes d := by
    intro d
    rw [owes_of_resumes hcall, owes_of_resumes hcall']
  have hcalls : ∀ d, m'.callsAt d = m.callsAt d := by
    intro d
    rw [callsAt_of_resumes hcall, callsAt_of_resumes hcall']
  exact
  { pending_nonneg := h.pending_nonneg
    positive := by
      intro k hk
      rcases mem_cons.mp hk with rfl | hk
      · exact positive_of_resumes hcall' ((h.positive m hmem).inc hcall)
      · exact h.positive k (mem_cons_of_mem hk)
    owed := by
      intro d
      have := h.owed d
      simp only [post, weigh_cons] at this
      simp only [post, weigh_cons, howes]
      exact this
    out := by
      have hout := h.out
      simp only [post, counted, weigh_cons, enters_of_resumes hcall,
        sum_sub_distrib, Finset.sum_add_distrib, sum_cancelsAt hcall] at hout
      simp only [post, counted, weigh_cons, enters_of_resumes hcall',
        cancelsAt_of_not hnot, sum_sub_distrib, zero_add]
      rw [hout]
      ring
    one_call := by
      intro d
      have := h.one_call d
      simp only [post, weigh_cons] at this
      simp only [post, weigh_cons, hcalls]
      exact this
    stamps := h.stamps
    causes := by
      intro call' hcancel
      rcases mem_cons.mp hcancel with heq | hcancel
      · rw [← heq] at hnot
        exact absurd trivial hnot
      · exact h.causes call' (mem_cons_of_mem hcancel)
    first := by
      intro k hk call' hk' hnone
      rcases mem_cons.mp hk with rfl | hk
      · obtain rfl := Option.some.inj (hcall'.symm.trans hk')
        obtain ⟨hq, hsingle⟩ := h.first m hmem call hcall hnone
        refine ⟨hq, ?_⟩
        have hempty : L.counting = 0 := by
          have : m ::ₘ L.counting = m ::ₘ 0 := hsingle
          exact (cons_inj_right m).mp this
        show k ::ₘ L.counting = {k}
        rw [hempty]
        rfl
      · by_cases hne : k = m
        · -- two calls on one core
          subst hne
          have hone := h.one_call call.core
          have hle := le_weigh_of_mem (fun k _ => callsAt_nonneg call.core k) hk
          simp only [post, weigh_cons] at hone hle
          rw [callsAt_of_resumes hcall, if_pos rfl] at hone hle
          omega
        · exact absurd hnone (h.not_first (mem_cons_of_mem hk) hmem hne hk')
    idle := by
      intro hclosed
      rw [(h.idle hclosed).2] at hmem
      exact absurd hmem (notMem_zero _)
    resets_eq := h.resets_eq }

theorem return_call {m : CountMsg n} (h : (L.post m).Inv) {call : EnrollCall n}
    (hcall : m.resumes = some call) (hnot : ¬ m.IsCancel) {units : Fin (n + 1) → ℕ}
    (hunits : ∀ d, (units d : ℤ) = L.units d + call.owes d) :
    { L with units := units }.Inv := by
  have hmem : m ∈ (L.post m).counting := mem_cons_self _ _
  exact
  { pending_nonneg := h.pending_nonneg
    positive := by
      intro k hk
      exact h.positive k (mem_cons_of_mem hk)
    owed := by
      intro d
      have hd := h.owed d
      simp only [post, weigh_cons, owes_of_resumes hcall] at hd
      have := hunits d
      simp only
      omega
    out := by
      have hout := h.out
      simp only [post, counted, weigh_cons, enters_of_resumes hcall,
        cancelsAt_of_not hnot, zero_add] at hout
      exact hout
    one_call := by
      intro d
      have hone := h.one_call d
      have hnn := callsAt_nonneg d m
      simp only [post, weigh_cons] at hone
      simp only
      omega
    stamps := h.stamps
    causes := by
      intro call' hcancel
      exact h.causes call' (mem_cons_of_mem hcancel)
    first := by
      intro k hk call' hk' hnone
      obtain ⟨-, hsingle⟩ := h.first k (mem_cons_of_mem hk) call' hk' hnone
      have hempty : L.counting = 0 := by
        have hcard := congrArg card hsingle
        simpa [post] using hcard
      rw [hempty] at hk
      exact absurd hk (notMem_zero _)
    idle := by
      intro hclosed
      rw [(h.idle hclosed).2] at hmem
      exact absurd hmem (notMem_zero _)
    resets_eq := h.resets_eq }

theorem deliver_enter (h : (L.post .enter).Inv) : { L with cores_out := L.cores_out - 1 }.Inv := by
  have hmem : .enter ∈ (L.post .enter).counting := mem_cons_self _ _
  exact
  { pending_nonneg := h.pending_nonneg
    positive := by
      intro k hk
      exact h.positive k (mem_cons_of_mem hk)
    owed := by
      intro d
      have := h.owed d
      simpa only [post, weigh_cons, owes, zero_add] using this
    out := by
      have hout := h.out
      simp only [post, counted, weigh_cons, enters, cancelsAt, zero_add] at hout
      simp only [counted]
      rw [hout]
      ring
    one_call := by
      intro d
      have hone := h.one_call d
      simp only [post, weigh_cons, callsAt_of_none (m := .enter) rfl, zero_add] at hone
      exact hone
    stamps := h.stamps
    causes := by
      intro call' hcancel
      exact h.causes call' (mem_cons_of_mem hcancel)
    first := by
      intro k hk call' hk' hnone
      have hne : k ≠ .enter := by
        rintro rfl
        simp [resumes] at hk'
      exact absurd hnone (h.not_first (mem_cons_of_mem hk) hmem hne hk')
    idle := by
      intro hclosed
      rw [(h.idle hclosed).2] at hmem
      exact absurd hmem (notMem_zero _)
    resets_eq := h.resets_eq }

theorem only_enters (h : L.Inv) (hzero : ∀ c, L.count c = 0) : ∀ m ∈ L.counting, m = .enter := by
  intro m hm
  have hno : m.resumes = none := by
    cases hcall : m.resumes with
    | none => rfl
    | some call =>
      have := h.count_pos_of_resumes hm hcall
      have := hzero call.core
      omega
  cases m with
  | complete owner dec =>
    have hdec : 1 ≤ dec := h.positive _ hm
    have := (h.nothing_owed (hzero owner)).2.2 _ hm
    simp only [owes, if_true] at this
    omega
  | enter => rfl
  | _ => simp [resumes] at hno

theorem end_phase (h : (L.post .enter).Inv) (hout : L.cores_out = 1) (hawaited : L.awaited = 0)
    (k : ℤ) :
    { L with
      cores_out := L.cores_out - 1
      opened := false
      awaited := k
      resets := k + L.resets }.Inv ∧ ∀ c, L.count c = 0 := by
  have hmem : .enter ∈ (L.post .enter).counting := mem_cons_self _ _
  have hzero : ∀ c, L.count c = 0 := h.all_zero hmem hout
  have h' := h.deliver_enter
  have hquiet := h'.quiet_of_zero hzero
  have honly := h'.only_enters hzero
  -- no core is counted, so there is no other enter message either
  have hempty : L.counting = 0 := by
    have hsum := h'.out
    have hnn := sum_nonneg fun c (_ : c ∈ univ) => h'.counted_nonneg c
    apply eq_zero_of_forall_notMem
    intro m hm
    have hle := le_weigh_of_mem (fun m _ => CountMsg.enters_nonneg m) hm
    rw [honly m hm] at hle
    simp only [enters] at hle
    simp only at hsum
    omega
  refine ⟨?_, hzero⟩
  exact
  { h' with
    first := by
      intro m hm call hcall hnone
      have hm : m ∈ L.counting := hm
      rw [hempty] at hm
      exact absurd hm (notMem_zero _)
    idle := fun _ => ⟨hquiet, hempty⟩
    resets_eq := by
      have : L.awaited = L.resets := h.resets_eq
      simp only
      omega }

theorem with_resets (h : L.Inv) (k : ℤ) : { L with awaited := k, resets := k }.Inv :=
  { h with resets_eq := rfl }

theorem reenroll (h : L.Inv) (hclosed : L.opened = false) {re : ℤ} (hre : 0 < re) :
    { L with
      count := update L.count master_core re
      cores_out := 1
      units := update L.units master_core (L.units master_core + re.toNat)
      opened := true }.Inv := by
  obtain ⟨hq, hempty⟩ := h.idle hclosed
  have hzero := h.count_of_quiet hq hempty
  exact
  { h with
    owed := by
      intro d
      have := h.owed d
      by_cases hd : d = master_core
      · subst hd
        simp only [update_self]
        have := hzero master_core
        push_cast
        omega
      · simp only [update_of_ne hd]
        exact this
    out := by
      simp only [counted, sum_busy_update, hempty, weigh_zero]
      simp [hzero, busy_of_pos hre]
    first := by
      intro m hm call hcall hnone
      have hm : m ∈ L.counting := hm
      rw [hempty] at hm
      exact absurd hm (notMem_zero _)
    idle := nofun }

end Inv

end Ledger

end Grappa
