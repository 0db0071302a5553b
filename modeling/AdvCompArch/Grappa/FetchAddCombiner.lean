import AdvCompArch.Lib.Consecutive
import AdvCompArch.Lib.Transition

/-! # Combining fetch-and-adds

    The tasks of a core add to one word of the global memory.  A task promises its
    `fetch_and_add` and makes it later; the increments are summed up until enough tasks
    take part or no promise is open.  The last one to join then adds the sum with one
    delegate, and the tasks take their parts from the value that comes back.  Meanwhile
    no other task may join.

    A task with two open promises waits for itself (`second_promise_waits`), so
    `fetch_and_add_tiles` is about runs in which a task has one at a time. -/

namespace Grappa

open Option List

/-- `T` and `U`. -/
abbrev AddWord := BitVec 64

structure FetchAddConfig where
  flush_threshold : ℕ
  initVal : AddWord
  /-- `target.core() == mycore()`. -/
  targetHere : Bool
  deriving DecidableEq

/-- The delegate of a flush: on its way, on its way back, and after the caller was woken. -/
inductive AddDelegate where
  | request (increment_total : AddWord)
  | reply (r : AddWord)
  | answered (r : AddWord)
  deriving DecidableEq

/-- A call of `fetch_and_add`: the task and its increment. -/
abbrev AddCall := ℕ × AddWord

structure FetchAddRun where
  result : AddWord
  increment : AddWord
  committed : ℕ
  participant_count : ℕ
  ready_waiters : ℕ
  outstanding : Bool
  /-- `*target`. -/
  target : AddWord
  /-- The tasks that have promised a call and not made it. -/
  promised : List ℕ
  /-- The waiters of `untilNotOutstanding`. -/
  blocked : List AddCall
  /-- Those of them that were woken and have yet to run. -/
  unblocked : List AddCall
  /-- The waiters of `untilReceived`. -/
  joined : List AddCall
  /-- Those of them that were woken and have yet to run. -/
  received : List AddCall
  /-- The call that flushes, and its delegate. -/
  flushing : Option (AddCall × AddDelegate)
  /-- The values returned, with the increments; the last first. -/
  returned : List (AddWord × AddWord)
  /-- The `CHECK` has failed. -/
  aborted : Bool
  deriving DecidableEq

namespace FetchAddRun

inductive Label where
  | promise (t : ℕ)
  | fetch_and_add (t : ℕ) (inc : AddWord)
  /-- The woken waiter of `untilNotOutstanding` at this place runs. -/
  | unblock (i : ℕ)
  /-- The delegate runs on the core of the target. -/
  | execute
  /-- Its answer arrives and wakes the caller. -/
  | answer
  /-- The caller of the delegate runs. -/
  | resume
  /-- The woken waiter of `untilReceived` at this place runs. -/
  | receive (i : ℕ)
  deriving DecidableEq

variable (c : FetchAddConfig) (s : FetchAddRun)

/-- The calls in `block_until_ready`. -/
def callers : List AddCall := s.blocked ++ s.unblocked

/-- The calls that take part in the round. -/
def participants : List AddCall := s.joined ++ s.received ++ s.flushing.toList.map Prod.fst

/-- The tasks in a call. -/
def calling : List ℕ := (s.callers ++ s.participants).map Prod.fst

/-- The tasks that have promised and whose call has not returned. -/
def tasks : List ℕ := s.promised ++ s.calling

def set_ready : FetchAddRun :=
  { s with outstanding := false, unblocked := s.unblocked ++ s.blocked, blocked := [] }

def set_not_ready : FetchAddRun := { s with outstanding := true }

/-- A call takes its part of the result and returns it. -/
def leave (p : AddCall) : FetchAddRun :=
  { s with
    result := s.result + p.2
    participant_count := s.participant_count - 1
    increment := s.increment - p.2
    returned := (s.result, p.2) :: s.returned }

/-- The end of `fetch_and_add`. -/
def take (p : AddCall) : FetchAddRun :=
  if (s.leave p).participant_count = 0 then
    { s.leave p with aborted := s.aborted || (s.leave p).increment != 0 }.set_ready
  else s.leave p

/-- The result of the delegate is there: the flusher tells the others and goes on. -/
def broadcastResult (p : AddCall) (r : AddWord) : FetchAddRun :=
  { s with result := r, received := s.received ++ s.joined, joined := [] }.take p

/-- The function of the delegate, except for its result `*p`. -/
def addTotal (increment_total : AddWord) : FetchAddRun :=
  { s with target := s.target + increment_total }

/-- The sum is added to the target: at once, when the target is on this core. -/
def flush (p : AddCall) : FetchAddRun :=
  if c.targetHere then (s.set_not_ready.addTotal s.increment).broadcastResult p s.target
  else { s.set_not_ready with flushing := some (p, .request s.increment) }

/-- The fetch add unit is aggregating, so the call adds its increment. -/
def participate (p : AddCall) : FetchAddRun :=
  { s with
    participant_count := s.participant_count + 1
    committed := s.committed - 1
    increment := s.increment + p.2 }

/-- The call that was the last one to join starts the flush. -/
def MustFlush : Prop :=
  s.ready_waiters = 0 ∧ (c.flush_threshold ≤ s.participant_count ∨ s.committed = 0)

instance : Decidable (s.MustFlush c) := inferInstanceAs (Decidable (_ ∧ _))

/-- Someone else will start the flush. -/
def wait (p : AddCall) : FetchAddRun := { s with joined := p :: s.joined }

/-- The call takes part. -/
def join (p : AddCall) : FetchAddRun :=
  if (s.participate p).MustFlush c then (s.participate p).flush c p
  else (s.participate p).wait p

/-- A round of the loop in `block_until_ready`, and what follows it. -/
def enter (p : AddCall) : FetchAddRun :=
  if s.outstanding then
    { s with ready_waiters := s.ready_waiters + 1, blocked := p :: s.blocked }
  else s.join c p

def next : Label → Option FetchAddRun
  -- a task does nothing else before its call returns
  | .promise t =>
    if t ∈ s.calling then none
    else some { s with committed := s.committed + 1, promised := t :: s.promised }
  | .fetch_and_add t inc =>
    if t ∈ s.promised ∧ t ∉ s.calling then some ({ s with promised := s.promised.erase t }.enter c (t, inc))
    else none
  | .unblock i => (s.unblocked[i]?).map fun p =>
      { s with
        unblocked := s.unblocked.eraseIdx i
        ready_waiters := s.ready_waiters - 1 }.enter c p
  | .execute =>
    match s.flushing with
    | some (p, .request total) =>
      some { s.addTotal total with flushing := some (p, .reply s.target) }
    | _ => none
  | .answer =>
    match s.flushing with
    | some (p, .reply r) => some { s with flushing := some (p, .answered r) }
    | _ => none
  | .resume =>
    match s.flushing with
    | some (p, .answered r) => some ({ s with flushing := none }.broadcastResult p r)
    | _ => none
  | .receive i => (s.received[i]?).map fun p =>
      { s with received := s.received.eraseIdx i }.take p

variable (old : AddWord)

/-- The combiner after its constructor, with `old` at its target. -/
def init : FetchAddRun :=
  ⟨0, c.initVal, 0, 0, 0, false, old, [], [], [], [], [], none, [], false⟩

def system : Transition.System FetchAddRun Label where
  init := init c old
  next := next c

/-! ### What is to hold -/

/-- A task promises only when it has kept its last promise. -/
def OnePromise (s : FetchAddRun) : Label → Prop
  | .promise t => t ∉ s.promised
  | _ => True

instance (s : FetchAddRun) (l : Label) : Decidable (OnePromise s l) := by
  cases l <;> unfold OnePromise <;> infer_instance

/-- The task waits on a condition variable, or for its delegate. -/
def Waiting (t : ℕ) : Prop :=
  t ∈ (s.blocked ++ s.joined).map Prod.fst ∨
    ∃ inc d, s.flushing = some ((t, inc), d) ∧ ∀ r, d ≠ .answered r

/-- The task is outside the combiner, or it was woken. -/
def Runnable (t : ℕ) : Prop :=
  (t ∈ s.promised ∧ ¬s.Waiting t) ∨ t ∈ (s.unblocked ++ s.received).map Prod.fst ∨
    ∃ inc r, s.flushing = some ((t, inc), .answered r)

/-- The delegate of a flush is on its way. -/
def InFlight : Prop := ∃ p d, s.flushing = some (p, d) ∧ ∀ r, d ≠ .answered r

/-- A task is left waiting. -/
def Stuck : Prop := (∀ t, ¬s.Runnable t) ∧ ¬s.InFlight ∧ ∃ t, s.Waiting t

/-- The values returned and their increments, the first first. -/
def intervals : List (AddWord × AddWord) := s.returned.reverse

/-! ### The invariant -/

/-- What the counters count, while some calls are between `block_until_ready` and their
    increment, and some are about to take their parts. -/
structure Counted (entering taking : List AddCall) : Prop where
  committed : s.committed = s.promised.length + s.callers.length + entering.length
  ready_waiters : s.ready_waiters = s.callers.length
  participant_count : s.participant_count = (taking ++ s.participants).length
  increment : s.increment = ((taking ++ s.participants).map Prod.snd).sum
  distinct : (s.tasks ++ (entering ++ taking).map Prod.fst).Nodup
  checked : s.aborted = false

/-- Increments are collected, and nobody is blocked. -/
structure Aggregating : Prop where
  outstanding : s.outstanding = false
  blocked : s.blocked = []
  received : s.received = []
  flushing : s.flushing = none
  target : Consecutive old s.intervals s.target

/-- Where the target stands while the delegate is on its way. -/
def Promises (d : AddDelegate) : Prop :=
  match d with
  | .request total => total = s.increment ∧ Consecutive old s.intervals s.target
  | .reply r | .answered r => Consecutive old s.intervals r ∧ s.target = r + s.increment

/-- The flusher waits for its delegate. -/
structure Flushing : Prop where
  outstanding : s.outstanding = true
  unblocked : s.unblocked = []
  received : s.received = []
  flushing : ∃ p d, s.flushing = some (p, d) ∧ s.Promises old d

/-- The participants take their parts. -/
structure Distributing : Prop where
  outstanding : s.outstanding = true
  unblocked : s.unblocked = []
  joined : s.joined = []
  flushing : s.flushing = none
  intervals : Consecutive old s.intervals s.result
  target : s.target = s.result + s.increment

/-- Where the round is.  A call that waits for the flush waits for one that is committed. -/
def Phase : Prop :=
  (s.Aggregating old ∧ (s.joined ≠ [] → s.committed ≠ 0)) ∨ s.Flushing old ∨ (s.Distributing old ∧ s.received ≠ [])

structure Inv : Prop where
  counted : s.Counted [] []
  phase : s.Phase old

variable {c old s} {s' : FetchAddRun} {l : Label} {p : AddCall} {entering taking : List AddCall}

/-! ### The counters -/

theorem Counted.promise (h : s.Counted [] []) {t : ℕ} (ht : t ∉ s.tasks) :
    Counted { s with committed := s.committed + 1, promised := t :: s.promised } [] [] where
  committed := by
    have := h.committed
    simp only [callers, length_cons] at this ⊢
    omega
  ready_waiters := h.ready_waiters
  participant_count := h.participant_count
  increment := h.increment
  distinct := by
    have := h.distinct
    simp only [append_nil, map_nil] at this ⊢
    exact nodup_cons.mpr ⟨ht, this⟩
  checked := h.checked

theorem Counted.call (h : s.Counted [] []) {t : ℕ} (ht : t ∈ s.promised) (inc : AddWord) :
    Counted { s with promised := s.promised.erase t } [(t, inc)] [] where
  committed := by
    have hpos := length_pos_of_mem ht
    have := h.committed
    simp only [callers, length_erase_of_mem ht, length_cons, length_nil] at this ⊢
    omega
  ready_waiters := h.ready_waiters
  participant_count := h.participant_count
  increment := h.increment
  distinct := by
    apply (List.Perm.nodup_iff _).mpr h.distinct
    apply perm_iff_count.mpr
    intro u
    have := (perm_cons_erase ht).count_eq u
    simp only [tasks, calling, callers, participants, count_append, map_append, map_cons,
      map_nil, append_nil, count_cons, count_nil] at this ⊢
    omega
  checked := h.checked

theorem Counted.unblock (h : s.Counted [] []) {i : ℕ} (hi : s.unblocked[i]? = some p) :
    Counted { s with
      unblocked := s.unblocked.eraseIdx i
      ready_waiters := s.ready_waiters - 1 } [p] [] where
  committed := by
    have := h.committed
    have hlt := (List.getElem?_eq_some_iff.mp hi).1
    simp only [callers, length_append, length_eraseIdx_of_lt hlt, length_cons,
      length_nil] at this ⊢
    omega
  ready_waiters := by
    have := h.ready_waiters
    have hlt := (List.getElem?_eq_some_iff.mp hi).1
    simp only [callers, length_append, length_eraseIdx_of_lt hlt] at this ⊢
    omega
  participant_count := h.participant_count
  increment := h.increment
  distinct := by
    obtain ⟨hlt, hget⟩ := List.getElem?_eq_some_iff.mp hi
    have hperm := getElem_cons_eraseIdx_perm hlt
    rw [hget] at hperm
    apply (List.Perm.nodup_iff _).mpr h.distinct
    apply perm_iff_count.mpr
    intro u
    have := (hperm.map Prod.fst).count_eq u
    simp only [tasks, calling, callers, participants, count_append, map_append, map_cons,
      map_nil, append_nil, count_cons, count_nil] at this ⊢
    omega
  checked := h.checked

theorem Counted.block (h : s.Counted [p] []) :
    Counted { s with ready_waiters := s.ready_waiters + 1, blocked := p :: s.blocked } [] [] where
  committed := by
    have := h.committed
    simp only [callers, cons_append, length_cons, length_nil] at this ⊢
    omega
  ready_waiters := by
    have := h.ready_waiters
    simp only [callers, cons_append, length_cons] at this ⊢
    omega
  participant_count := h.participant_count
  increment := h.increment
  distinct := by
    apply (List.Perm.nodup_iff _).mpr h.distinct
    apply perm_iff_count.mpr
    intro u
    simp only [tasks, calling, callers, participants, count_append, map_append, map_cons,
      map_nil, append_nil, count_cons, count_nil]
    omega
  checked := h.checked

theorem Counted.participate (h : s.Counted [p] []) :
    (s.participate p).Counted [] [p] where
  committed := by
    have := h.committed
    simp only [FetchAddRun.participate, callers, length_cons, length_nil] at this ⊢
    omega
  ready_waiters := h.ready_waiters
  participant_count := by
    have := h.participant_count
    simp only [FetchAddRun.participate, participants, cons_append, nil_append,
      length_cons] at this ⊢
    omega
  increment := by
    have := h.increment
    simp only [FetchAddRun.participate, participants, cons_append, nil_append, map_cons,
      sum_cons] at this ⊢
    rw [this, add_comm]
  distinct := by
    have := h.distinct
    simpa [FetchAddRun.participate, tasks, calling, callers, participants] using this
  checked := h.checked

theorem Counted.wait (h : s.Counted [] [p]) : (s.wait p).Counted [] [] where
  committed := h.committed
  ready_waiters := h.ready_waiters
  participant_count := h.participant_count
  increment := h.increment
  distinct := by
    apply (List.Perm.nodup_iff _).mpr h.distinct
    apply perm_iff_count.mpr
    intro u
    simp only [FetchAddRun.wait, tasks, calling, callers, participants, count_append, map_append,
      map_cons, map_nil, append_nil, nil_append, count_cons,
      count_nil]
    omega
  checked := h.checked

theorem Counted.reorder (h : s.Counted [] taking) {taking' : List AddCall}
    (hcommitted : s'.committed = s.committed) (hready : s'.ready_waiters = s.ready_waiters)
    (hcount : s'.participant_count = s.participant_count) (hinc : s'.increment = s.increment)
    (hpromised : s'.promised = s.promised) (hcallers : s'.callers = s.callers)
    (haborted : s'.aborted = s.aborted)
    (hperm : (taking' ++ s'.participants).Perm (taking ++ s.participants)) :
    s'.Counted [] taking' where
  committed := by rw [hcommitted, hpromised, hcallers, h.committed]
  ready_waiters := by rw [hready, hcallers, h.ready_waiters]
  participant_count := by rw [hcount, hperm.length_eq, h.participant_count]
  increment := by rw [hinc, (hperm.map _).sum_eq, h.increment]
  distinct := by
    apply (List.Perm.nodup_iff _).mpr h.distinct
    apply perm_iff_count.mpr
    intro u
    have := (hperm.map Prod.fst).count_eq u
    simp only [tasks, calling, hpromised, hcallers, count_append, map_append,
      nil_append] at this ⊢
    omega
  checked := by rw [haborted, h.checked]

/-! ### The phases of a round -/

theorem Counted.leave (h : s.Counted [] [p]) : (s.leave p).Counted [] [] where
  committed := h.committed
  ready_waiters := h.ready_waiters
  participant_count := by
    have := h.participant_count
    simp only [FetchAddRun.leave, participants, cons_append, nil_append, length_cons] at this ⊢
    omega
  increment := by
    have := h.increment
    simp only [FetchAddRun.leave, participants, cons_append, nil_append, map_cons,
      sum_cons] at this ⊢
    rw [this, add_sub_cancel_left]
  distinct := by
    have := h.distinct
    simp only [FetchAddRun.leave, tasks, calling, callers, participants, nil_append, append_nil,
      map_nil] at this ⊢
    exact this.of_append_left
  checked := h.checked

theorem Distributing.take (hd : s.Distributing old) (hc : s.Counted [] [p]) :
    (s.take p).Inv old := by
  have hleave := hc.leave
  have hinc : s.increment = (s.leave p).increment + p.2 := (sub_add_cancel ..).symm
  have hintervals : (s.leave p).intervals = s.intervals ++ [(s.result, p.2)] :=
    reverse_cons
  have hchain : Consecutive old (s.leave p).intervals (s.leave p).result :=
    hintervals ▸ hd.intervals.snoc p.2
  unfold FetchAddRun.take
  split
  · rename_i hzero
    -- nobody takes part any more, so nothing is left of the increment
    have hnone : (s.leave p).participants = [] :=
      eq_nil_of_length_eq_zero (hleave.participant_count.symm.trans hzero)
    have hrec : (s.leave p).received = [] := (append_eq_nil_iff.mp
      (append_eq_nil_iff.mp hnone).1).2
    have hrest : (s.leave p).increment = 0 := by
      rw [hleave.increment, hnone]
      rfl
    have hunblocked : (s.leave p).unblocked = [] := hd.unblocked
    constructor
    · apply hleave.reorder
      case hcallers => simp [set_ready, callers, hunblocked]
      case haborted => simp [set_ready, hrest, hc.checked, hleave.checked]
      case hperm => exact List.Perm.refl _
      all_goals rfl
    · left
      constructor
      · constructor
        case outstanding => rfl
        case blocked => rfl
        case received => exact hrec
        case flushing => exact hd.flushing
        case target =>
          have htarget : s.target = (s.leave p).result := by
            rw [hd.target, hinc, hrest, zero_add]
            rfl
          exact htarget ▸ hchain
      · intro hne
        exact absurd hd.joined hne
  · rename_i hpos
    refine ⟨hleave, .inr (.inr ⟨?_, ?_⟩)⟩
    · constructor
      case outstanding => exact hd.outstanding
      case unblocked => exact hd.unblocked
      case joined => exact hd.joined
      case flushing => exact hd.flushing
      case intervals => exact hchain
      case target =>
        simp only [FetchAddRun.leave]
        rw [hd.target, add_assoc, add_sub_cancel]
    · intro hnil
      apply hpos
      have hparts : (s.leave p).participants = [] := by
        have hjoined : (s.leave p).joined = [] := hd.joined
        have hflushing : (s.leave p).flushing = none := hd.flushing
        simp [participants, hnil, hjoined, hflushing]
      rw [hleave.participant_count, hparts]
      rfl

theorem broadcastResult_inv {r : AddWord} (hc : s.Counted [] [p]) (hout : s.outstanding = true)
    (hunblocked : s.unblocked = []) (hflushing : s.flushing = none)
    (hchain : Consecutive old s.intervals r) (htarget : s.target = r + s.increment) :
    (s.broadcastResult p r).Inv old := by
  apply Distributing.take
  · exact
      { outstanding := hout
        unblocked := hunblocked
        joined := rfl
        flushing := hflushing
        intervals := hchain
        target := htarget }
  · apply hc.reorder
    case hperm =>
      apply perm_iff_count.mpr
      intro u
      simp only [participants, count_append, count_nil]
      omega
    all_goals rfl

theorem Aggregating.flush (ha : s.Aggregating old) (hc : s.Counted [] [p])
    (hready : s.ready_waiters = 0) : (s.flush c p).Inv old := by
  have hcallers : s.callers = [] :=
    eq_nil_of_length_eq_zero (hc.ready_waiters.symm.trans hready)
  have hunblocked : s.unblocked = [] := (append_eq_nil_iff.mp hcallers).2
  unfold FetchAddRun.flush
  split
  · -- the target is here: the word is incremented at once
    apply broadcastResult_inv
    case hc =>
      apply hc.reorder
      case hperm => exact List.Perm.refl _
      all_goals rfl
    case hout => rfl
    case hunblocked => exact hunblocked
    case hflushing => exact ha.flushing
    case hchain => exact ha.target
    case htarget => rfl
  · constructor
    · apply hc.reorder
      case hperm =>
        apply perm_iff_count.mpr
        intro u
        simp only [participants, set_not_ready, ha.flushing, toList, map_cons,
          map_nil, count_append, count_cons, count_nil]
        omega
      all_goals rfl
    · right
      left
      exact
        { outstanding := rfl
          unblocked := hunblocked
          received := ha.received
          flushing := ⟨p, _, rfl, rfl, ha.target⟩ }

theorem Phase.congr (h : s.Phase old) (houtstanding : s'.outstanding = s.outstanding)
    (hblocked : s'.blocked = s.blocked) (hunblocked : s.unblocked = [] → s'.unblocked = [])
    (hjoined : s'.joined = s.joined) (hreceived : s'.received = s.received)
    (hflushing : s'.flushing = s.flushing) (hintervals : s'.intervals = s.intervals)
    (htarget : s'.target = s.target) (hresult : s'.result = s.result)
    (hincrement : s'.increment = s.increment)
    (hcommitted : s.committed ≠ 0 → s'.committed ≠ 0) : s'.Phase old := by
  obtain ⟨ha, hawaited⟩ | hf | ⟨hd, hrec⟩ := h
  · left
    constructor
    · constructor
      case outstanding => rw [houtstanding, ha.outstanding]
      case blocked => rw [hblocked, ha.blocked]
      case received => rw [hreceived, ha.received]
      case flushing => rw [hflushing, ha.flushing]
      case target => rw [hintervals, htarget]; exact ha.target
    · rw [hjoined]
      exact fun hne => hcommitted (hawaited hne)
  · right
    left
    obtain ⟨p, d, hpd, hpromises⟩ := hf.flushing
    constructor
    case outstanding => rw [houtstanding, hf.outstanding]
    case unblocked => exact hunblocked hf.unblocked
    case received => rw [hreceived, hf.received]
    case flushing =>
      refine ⟨p, d, hflushing ▸ hpd, ?_⟩
      cases d <;> simpa only [Promises, hintervals, htarget, hincrement] using hpromises
  · right
    right
    constructor
    · constructor
      case outstanding => rw [houtstanding, hd.outstanding]
      case unblocked => exact hunblocked hd.unblocked
      case joined => rw [hjoined, hd.joined]
      case flushing => rw [hflushing, hd.flushing]
      case intervals => rw [hintervals, hresult]; exact hd.intervals
      case target => rw [htarget, hresult, hincrement]; exact hd.target
    · rw [hreceived]
      exact hrec

theorem Aggregating.join (ha : s.Aggregating old) (hc : s.Counted [p] []) :
    (s.join c p).Inv old := by
  have hpart := hc.participate
  have ha' : (s.participate p).Aggregating old :=
    ⟨ha.outstanding, ha.blocked, ha.received, ha.flushing, ha.target⟩
  unfold FetchAddRun.join
  split
  · rename_i hlast
    exact ha'.flush hpart hlast.1
  · rename_i hmore
    refine ⟨hpart.wait, .inl ⟨?_, ?_⟩⟩
    · exact ⟨ha'.outstanding, ha'.blocked, ha'.received, ha'.flushing, ha'.target⟩
    · intro _ hzero
      -- without a committed call there is none in `block_until_ready`
      have hcommitted := hpart.committed
      have hready := hpart.ready_waiters
      have hzero' : (s.participate p).committed = 0 := hzero
      exact hmore ⟨by omega, .inr hzero'⟩

theorem enter_inv (hc : s.Counted [p] []) (hphase : s.Phase old) : (s.enter c p).Inv old := by
  unfold enter
  split
  · rename_i hout
    refine ⟨hc.block, ?_⟩
    obtain ⟨ha, -⟩ | hf | ⟨hd, hrec⟩ := hphase
    · rw [ha.outstanding] at hout
      cases hout
    · exact .inr (.inl ⟨hf.outstanding, hf.unblocked, hf.received, hf.flushing⟩)
    · exact .inr (.inr ⟨⟨hd.outstanding, hd.unblocked, hd.joined, hd.flushing, hd.intervals,
        hd.target⟩, hrec⟩)
  · rename_i hout
    obtain ⟨ha, -⟩ | hf | ⟨hd, -⟩ := hphase
    · exact ha.join hc
    · exact absurd hf.outstanding hout
    · exact absurd hd.outstanding hout

/-! ### The steps -/

/-- **Every step keeps the invariant.** -/
theorem next_inv (hi : s.Inv old) (hone : OnePromise s l) (h : s.next c l = some s') :
    s'.Inv old := by
  have hphase := hi.phase
  cases l with
  | promise t =>
    obtain ⟨ht, rfl⟩ := ite_none_left_eq_some.mp h |>.imp_right some.inj
    refine ⟨hi.counted.promise (not_mem_append hone ht), ?_⟩
    apply hphase.congr
    case hunblocked => exact id
    case hcommitted => exact fun _ => Nat.succ_ne_zero _
    all_goals rfl
  | fetch_and_add t inc =>
    obtain ⟨ht, rfl⟩ := ite_some_none_eq_some.mp h
    apply enter_inv (hi.counted.call ht.1 inc)
    apply hphase.congr
    case hunblocked => exact id
    case hcommitted => exact id
    all_goals rfl
  | unblock i =>
    obtain ⟨p, hp, rfl⟩ := map_eq_some_iff.mp h
    apply enter_inv (hi.counted.unblock hp)
    apply hphase.congr
    case hunblocked =>
      intro hnil
      simp [hnil]
    case hcommitted => exact id
    all_goals rfl
  | execute =>
    obtain ⟨ha, -⟩ | hf | ⟨hd, -⟩ := hphase
    · simp [next, ha.flushing] at h
    · obtain ⟨p, d, hpd, hpromises⟩ := hf.flushing
      cases d with
      | request total =>
        simp only [next, hpd, some.injEq] at h
        obtain ⟨rfl, hchain⟩ := hpromises
        subst h
        constructor
        · apply hi.counted.reorder
          case hperm => simp [participants, addTotal, hpd]
          all_goals rfl
        · right
          left
          exact
            { outstanding := hf.outstanding
              unblocked := hf.unblocked
              received := hf.received
              flushing := ⟨p, _, rfl, hchain, rfl⟩ }
      | reply r | answered r => simp [next, hpd] at h
    · simp [next, hd.flushing] at h
  | answer =>
    obtain ⟨ha, -⟩ | hf | ⟨hd, -⟩ := hphase
    · simp [next, ha.flushing] at h
    · obtain ⟨p, d, hpd, hpromises⟩ := hf.flushing
      cases d with
      | reply r =>
        simp only [next, hpd] at h
        cases h
        constructor
        · apply hi.counted.reorder
          case hperm => simp [participants, hpd]
          all_goals rfl
        · right
          left
          exact
            { outstanding := hf.outstanding
              unblocked := hf.unblocked
              received := hf.received
              flushing := ⟨p, _, rfl, hpromises⟩ }
      | request r | answered r => simp [next, hpd] at h
    · simp [next, hd.flushing] at h
  | resume =>
    obtain ⟨ha, -⟩ | hf | ⟨hd, -⟩ := hphase
    · simp [next, ha.flushing] at h
    · obtain ⟨p, d, hpd, hpromises⟩ := hf.flushing
      cases d with
      | answered r =>
        simp only [next, hpd] at h
        cases h
        apply broadcastResult_inv
        case hc =>
          apply hi.counted.reorder
          case hperm =>
            simp only [participants, hpd, toList, map_cons, map_nil,
              append_nil, nil_append]
            exact (perm_append_singleton p _).symm
          all_goals rfl
        case hout => exact hf.outstanding
        case hunblocked => exact hf.unblocked
        case hflushing => rfl
        case hchain => exact hpromises.1
        case htarget => exact hpromises.2
      | request r | reply r => simp [next, hpd] at h
    · simp [next, hd.flushing] at h
  | receive i =>
    obtain ⟨p, hp, rfl⟩ := map_eq_some_iff.mp h
    obtain ⟨ha, -⟩ | hf | ⟨hd, -⟩ := hphase
    · simp [ha.received] at hp
    · simp [hf.received] at hp
    · apply Distributing.take
      · exact ⟨hd.outstanding, hd.unblocked, hd.joined, hd.flushing, hd.intervals, hd.target⟩
      · obtain ⟨hlt, hget⟩ := List.getElem?_eq_some_iff.mp hp
        have hperm := getElem_cons_eraseIdx_perm hlt
        rw [hget] at hperm
        apply hi.counted.reorder
        case hperm => simpa [participants, hd.joined, hd.flushing] using hperm
        all_goals rfl

theorem init_inv (hinit : c.initVal = 0) : (init c old).Inv old where
  counted := by
    constructor
    case increment => exact hinit
    case distinct => exact nodup_nil
    all_goals rfl
  phase := by
    left
    constructor
    · constructor <;> rfl
    · intro h
      exact absurd rfl h

/-! ### What the calls return -/

theorem Inv.chain (hi : s.Inv old) :
    Consecutive old s.intervals (old + (s.intervals.map Prod.snd).sum) := by
  have hsome : ∃ b, Consecutive old s.intervals b := by
    obtain ⟨ha, -⟩ | hf | ⟨hd, -⟩ := hi.phase
    · exact ⟨_, ha.target⟩
    · obtain ⟨p, d, -, hpromises⟩ := hf.flushing
      cases d with
      | request total => exact ⟨_, hpromises.2⟩
      | reply r | answered r => exact ⟨_, hpromises.1⟩
    · exact ⟨_, hd.intervals⟩
  obtain ⟨b, hb⟩ := hsome
  exact hb.end_eq ▸ hb

theorem Inv.target_of_done (hi : s.Inv old) (hdone : s.participants = []) :
    s.target = old + (s.intervals.map Prod.snd).sum := by
  obtain ⟨hnone, hflushing⟩ := append_eq_nil_iff.mp hdone
  obtain ⟨ha, -⟩ | hf | ⟨-, hrec⟩ := hi.phase
  · exact ha.target.end_eq
  · obtain ⟨p, d, hpd, -⟩ := hf.flushing
    simp [hpd] at hflushing
  · exact absurd (append_eq_nil_iff.mp hnone).2 hrec

theorem Inv.promised_not_waiting (hi : s.Inv old) {t : ℕ} (ht : t ∈ s.promised) :
    ¬s.Waiting t := by
  have hdistinct := hi.counted.distinct
  simp only [append_nil, map_nil, tasks, calling] at hdistinct
  have hnot := (nodup_append.mp hdistinct).2.2 t ht
  rintro (hw | ⟨inc, d, hd, -⟩)
  · apply hnot t _ rfl
    simp only [callers, participants, map_append, mem_append] at hw ⊢
    tauto
  · apply hnot t _ rfl
    simp [callers, participants, hd]

theorem Inv.not_stuck (hi : s.Inv old) : ¬s.Stuck := by
  intro hstuck
  obtain ⟨hidle, hflight, t, ht⟩ := hstuck
  have hpromised : s.promised = [] := by
    apply eq_nil_iff_forall_not_mem.mpr
    intro u hu
    exact hidle u (.inl ⟨hu, hi.promised_not_waiting hu⟩)
  have hwoken : s.unblocked ++ s.received = [] := by
    apply eq_nil_iff_forall_not_mem.mpr
    intro q hq
    exact hidle q.1 (.inr (.inl (mem_map_of_mem hq)))
  obtain ⟨hunblocked, hreceived⟩ := append_eq_nil_iff.mp hwoken
  obtain ⟨ha, hawaited⟩ | hf | ⟨-, hrec⟩ := hi.phase
  · -- with nobody committed, nobody has joined either
    have hzero : s.committed = 0 := by
      rw [hi.counted.committed, hpromised, callers, ha.blocked, hunblocked]
      rfl
    have hjoined : s.joined = [] := by
      by_contra hne
      exact hawaited hne hzero
    simp [Waiting, ha.blocked, hjoined, ha.flushing] at ht
  · obtain ⟨p, d, hpd, -⟩ := hf.flushing
    cases d with
    | answered r => exact hidle p.1 (.inr (.inr ⟨p.2, r, hpd⟩))
    | request r | reply r =>
      apply hflight
      exact ⟨p, _, hpd, by simp⟩
  · exact hrec hreceived

/-- The intervals of the values returned do not meet and are together the range of their sum
    from `old` on; each starts at the sum of the increments before it. -/
structure Tiles (old : AddWord) (l : List (AddWord × AddWord)) : Prop where
  starts : ∀ i r inc, l[i]? = some (r, inc) → r = old + ((l.take i).map Prod.snd).sum
  disjoint : Consecutive.size l ≤ 2 ^ 64 →
    l.Pairwise fun p q => Disjoint (Consecutive.arc p.1 p.2) (Consecutive.arc q.1 q.2)
  covers : Consecutive.size l ≤ 2 ^ 64 → ∀ x,
    (∃ p ∈ l, x ∈ Consecutive.arc p.1 p.2) ↔ (x - old).toNat < Consecutive.size l

/-- **What the combiner is for**, in every state that tasks and delegates lead to in any order,
    if no task has two open promises: the calls that have returned divide up the range from
    `old` on (as long as the sum of their increments is not more than there are words); when no
    call takes part in a round the target has exactly their sum more than at the start; the
    `CHECK` has not failed, and no task is left waiting. -/
theorem fetch_and_add_tiles (c : FetchAddConfig) (old : AddWord) (hinit : c.initVal = 0)
    (ls : List Label) (hone : (system c old).Always OnePromise (init c old) ls) (s : FetchAddRun)
    (hs : (system c old).run (init c old) ls = some s) :
    Tiles old s.intervals ∧
    (s.participants = [] → s.target = old + (s.intervals.map Prod.snd).sum) ∧
    s.aborted = false ∧ ¬s.Stuck := by
  have hi : s.Inv old := Transition.System.invariant_under (P := OnePromise)
    (fun s => s.Inv old) (fun s l s' h hP hnext => next_inv h hP hnext) (init_inv hinit) hone hs
  refine ⟨?_, hi.target_of_done, hi.counted.checked, hi.not_stuck⟩
  constructor
  case starts => exact fun i r inc hget => hi.chain.start_eq hget
  case disjoint => exact fun hsize => hi.chain.pairwise_disjoint hsize
  case covers => exact fun hsize x => hi.chain.mem_iff hsize

/-- Task 1 adds 5 and task 2 adds 7 in one round: task 2 flushes, and takes the first part. -/
theorem fetch_and_add_two_calls : ∃ s, (system ⟨2, 0, false⟩ 100).Reachable s ∧
    s.intervals = [(100, 7), (107, 5)] ∧ s.target = 112 ∧ Tiles 100 s.intervals := by
  have hrun : ∃ s, (system ⟨2, 0, false⟩ 100).run (init ⟨2, 0, false⟩ 100)
      [.promise 1, .promise 2, .fetch_and_add 1 5, .fetch_and_add 2 7, .execute, .answer,
        .resume, .receive 0] = some s ∧ s.intervals = [(100, 7), (107, 5)] ∧ s.target = 112 :=
    ⟨_, rfl, rfl, rfl⟩
  obtain ⟨s, hs, hintervals, htarget⟩ := hrun
  exact ⟨s, ⟨_, hs⟩, hintervals, htarget,
    (fetch_and_add_tiles _ 100 rfl _ (by decide +kernel) s hs).1⟩

/-- A task that promises twice waits in its first call for the second one. -/
theorem second_promise_waits : ¬∀ s, (system ⟨2, 0, false⟩ 100).Reachable s → ¬s.Stuck := by
  intro h
  have hrun : ∃ s, (system ⟨2, 0, false⟩ 100).run (init ⟨2, 0, false⟩ 100)
      [.promise 1, .promise 1, .fetch_and_add 1 5] = some s ∧ s.promised = [1] ∧
        s.joined = [(1, 5)] ∧ s.unblocked ++ s.received = [] ∧ s.flushing = none :=
    ⟨_, rfl, rfl, rfl, rfl, rfl⟩
  obtain ⟨s, hs, hpromised, hjoined, hwoken, hflushing⟩ := hrun
  apply h s ⟨_, hs⟩
  have hwaiting : s.Waiting 1 := .inl (by simp [hjoined])
  refine ⟨?_, ?_, 1, hwaiting⟩
  · rintro t (⟨ht, hnot⟩ | hwoke | ⟨inc, r, hd⟩)
    · rw [hpromised, mem_singleton] at ht
      exact hnot (ht ▸ hwaiting)
    · simp [hwoken] at hwoke
    · simp [hflushing] at hd
  · rintro ⟨p, d, hd, -⟩
    simp [hflushing] at hd

end FetchAddRun

end Grappa
