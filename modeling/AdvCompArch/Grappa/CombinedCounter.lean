import Mathlib.Algebra.BigOperators.Group.Multiset.Basic
import Mathlib.Algebra.Order.BigOperators.Group.Multiset
import Mathlib.Algebra.Order.Ring.Nat
import Mathlib.Tactic.Abel

/-! # Combiners of several cores on one counter

    Each core has a combiner of its own, and all of them add to one counter of core 0.
    Here the tasks are free in what they promise: a promise that nobody keeps stays in
    `committed` for ever. -/

namespace Grappa

namespace CombinedCounter

open Multiset

structure Combiner where
  result : ℕ
  increment : ℕ
  committed : ℕ
  participant_count : ℕ
  ready_waiters : ℕ
  outstanding : Bool
  /-- How often `untilNotOutstanding` was broadcast. -/
  untilNotOutstanding : ℕ
  /-- How often `untilReceived` was broadcast. -/
  untilReceived : ℕ
  /-- The `CHECK` has failed. -/
  aborted : Bool
  deriving DecidableEq

/-- Where a call of `fetch_and_add` is.  A waiter has seen the broadcasts before it, and goes
    on after one it has not seen. -/
inductive Stage where
  | call
  /-- In `block_until_ready`. -/
  | notReady (seen : ℕ)
  | notReceived (seen : ℕ)
  /-- The delegate of the flush, on its way to the counter. -/
  | request (increment_total : ℕ)
  | reply (r : ℕ)
  deriving DecidableEq

inductive Outcome where
  | goesOn (st : Stage)
  | returns (my_start : ℕ)
  deriving DecidableEq

/-- What a call leaves behind when it gives up the core: its combiner, the counter, itself. -/
structure After where
  combiner : Combiner
  target : ℕ
  outcome : Outcome
  deriving DecidableEq

namespace Combiner

/-- The constructor. -/
def new : Combiner := ⟨0, 0, 0, 0, 0, false, 0, 0, false⟩

variable (flush_threshold : ℕ) (here : Bool) (f : Combiner) (target inc : ℕ)

def promise : Combiner := { f with committed := f.committed + 1 }

def set_ready : Combiner :=
  { f with outstanding := false, untilNotOutstanding := f.untilNotOutstanding + 1 }

def set_not_ready : Combiner := { f with outstanding := true }

/-- A participant takes its part of the result. -/
def leave : Combiner :=
  { f with
    result := f.result + inc
    participant_count := f.participant_count - 1
    increment := f.increment - inc }

/-- The end of `fetch_and_add`. -/
def take : Combiner :=
  if (f.leave inc).participant_count = 0 then
    { f.leave inc with aborted := f.aborted || (f.leave inc).increment != 0 }.set_ready
  else f.leave inc

/-- The result has arrived: the flusher tells the others and takes its own part. -/
def broadcastResult (r : ℕ) : Combiner :=
  { f with result := r, untilReceived := f.untilReceived + 1 }.take inc

def participate : Combiner :=
  { f with
    participant_count := f.participant_count + 1
    committed := f.committed - 1
    increment := f.increment + inc }

def MustFlush : Prop :=
  f.ready_waiters = 0 ∧ (flush_threshold ≤ f.participant_count ∨ f.committed = 0)

instance : Decidable (f.MustFlush flush_threshold) := inferInstanceAs (Decidable (_ ∧ _))

/-- The call to the core of the counter, which is run at once when that is this one. -/
def flush : After :=
  if here then
    ⟨f.set_not_ready.broadcastResult inc target, target + f.increment, .returns target⟩
  else ⟨f.set_not_ready, target, .goesOn (.request f.increment)⟩

def join : After :=
  if (f.participate inc).MustFlush flush_threshold then (f.participate inc).flush here target inc
  else ⟨f.participate inc, target, .goesOn (.notReceived f.untilReceived)⟩

/-- A round of the loop in `block_until_ready`, and what follows it. -/
def enter : After :=
  if f.outstanding then
    ⟨{ f with ready_waiters := f.ready_waiters + 1 }, target, .goesOn (.notReady f.untilNotOutstanding)⟩
  else f.join flush_threshold here target inc

/-- `fetch_and_add` from one suspension to the next. -/
def step : Stage → Option After
  | .call => some (f.enter flush_threshold here target inc)
  | .notReady seen =>
    if seen < f.untilNotOutstanding then
      some ({ f with ready_waiters := f.ready_waiters - 1 }.enter flush_threshold here target inc)
    else none
  | .notReceived seen =>
    if seen < f.untilReceived then some ⟨f.take inc, target, .returns f.result⟩ else none
  | .request increment_total => some ⟨f, target + increment_total, .goesOn (.reply target)⟩
  | .reply r => some ⟨f.broadcastResult inc r, target, .returns r⟩

end Combiner

/-! ### What is to hold -/

namespace Stage

/-- One for a call in `block_until_ready`. -/
def blocked : Stage → ℕ
  | notReady _ => 1
  | _ => 0

/-- One for a call that takes part in the round. -/
def joined : Stage → ℕ
  | notReceived _ | request _ | reply _ => 1
  | _ => 0

/-- The call is not waiting, or it was woken. -/
def Ready (f : Combiner) : Stage → Prop
  | notReady seen => seen < f.untilNotOutstanding
  | notReceived seen => seen < f.untilReceived
  | _ => True

/-- While increments are collected, or with the flusher left out, until the result is there. -/
def Awaits (f : Combiner) : Stage → Prop
  | call => True
  | notReady seen => seen ≤ f.untilNotOutstanding
  | notReceived seen => seen = f.untilReceived
  | request _ | reply _ => False

/-- While the participants take their parts. -/
def Leaves (f : Combiner) : Stage → Prop
  | call => True
  | notReady seen => seen ≤ f.untilNotOutstanding
  | notReceived seen => seen < f.untilReceived
  | request _ | reply _ => False

end Stage

/-- The calls of a combiner, each with its increment. -/
abbrev Calls := Multiset (ℕ × Stage)

namespace Calls

variable (calls : Calls)

def blocked : ℕ := (calls.map fun x => x.2.blocked).sum

def joined : ℕ := (calls.map fun x => x.2.joined).sum

def increments : ℕ := (calls.map fun x => x.2.joined * x.1).sum

end Calls

namespace Outcome

variable (inc : ℕ)

/-- What is left of the call. -/
def calls : Outcome → Calls
  | goesOn st => {(inc, st)}
  | returns _ => 0

/-- The values that the call has got. -/
def values : Outcome → Multiset ℕ
  | goesOn _ => 0
  | returns my_start => List.range' my_start inc

end Outcome

/-- What the fields count. -/
structure Counted (f : Combiner) (calls : Calls) : Prop where
  ready_waiters : f.ready_waiters = calls.blocked
  participant_count : f.participant_count = calls.joined
  increment : f.increment = calls.increments
  checked : f.aborted = false

/-- Where the round is, and the values that the combiner has taken from the counter and not
    handed out. -/
inductive Phase (f : Combiner) (calls : Calls) : Multiset ℕ → Prop
  | aggregating (houtstanding : f.outstanding = false) (hall : ∀ x ∈ calls, x.2.Awaits f)
      (hwoken : ∀ x ∈ calls, x.2.blocked = 1 → x.2.Ready f) : Phase f calls 0
  | flushing {inc : ℕ} {rest : Calls} (houtstanding : f.outstanding = true)
      (hcalls : calls = (inc, .request f.increment) ::ₘ rest) (hall : ∀ x ∈ rest, x.2.Awaits f) :
      Phase f calls 0
  | replied {inc r : ℕ} {rest : Calls} (houtstanding : f.outstanding = true)
      (hcalls : calls = (inc, .reply r) ::ₘ rest) (hall : ∀ x ∈ rest, x.2.Awaits f) :
      Phase f calls (List.range' r f.increment)
  | distributing (houtstanding : f.outstanding = true) (hall : ∀ x ∈ calls, x.2.Leaves f)
      (hpos : calls.joined ≠ 0) : Phase f calls (List.range' f.result f.increment)

structure Inv (f : Combiner) (calls : Calls) (spare : Multiset ℕ) : Prop where
  counted : Counted f calls
  phase : Phase f calls spare

/-- A round in which increments are collected is not left to its sleeping participants: some
    woken call is to come. -/
def Prompt (f : Combiner) : Prop :=
  f.outstanding = false → f.participant_count ≠ 0 → f.ready_waiters ≠ 0

variable {flush_threshold : ℕ} {here : Bool} {f : Combiner} {target inc r : ℕ} {st : Stage}
  {calls rest : Calls} {spare : Multiset ℕ} {a : After}

section sums

variable (x : ℕ × Stage)

@[simp] theorem blocked_cons : Calls.blocked (x ::ₘ calls) = x.2.blocked + calls.blocked := by
  simp [Calls.blocked]

@[simp] theorem joined_cons : Calls.joined (x ::ₘ calls) = x.2.joined + calls.joined := by
  simp [Calls.joined]

@[simp] theorem increments_cons :
    Calls.increments (x ::ₘ calls) = x.2.joined * x.1 + calls.increments := by
  simp [Calls.increments]

@[simp] theorem calls_goesOn : (Outcome.goesOn st).calls inc + rest = (inc, st) ::ₘ rest :=
  singleton_add _ _

end sums

theorem increments_eq_zero (h : calls.joined = 0) : calls.increments = 0 := by
  unfold Calls.increments
  refine sum_eq_zero fun n hn => ?_
  obtain ⟨x, hx, rfl⟩ := mem_map.mp hn
  have hle : x.2.joined ≤ calls.joined :=
    single_le_sum (fun _ _ => Nat.zero_le _) _ (mem_map_of_mem _ hx)
  have hzero : x.2.joined = 0 := by omega
  rw [hzero, zero_mul]

theorem joined_eq_zero_of_mem (h : calls.joined = 0) {x : ℕ × Stage} (hx : x ∈ calls) :
    x.2.joined = 0 := by
  have hle : x.2.joined ≤ calls.joined :=
    single_le_sum (fun _ _ => Nat.zero_le _) _ (mem_map_of_mem _ hx)
  omega

theorem exists_blocked (h : calls.blocked ≠ 0) : ∃ x ∈ calls, x.2.blocked = 1 := by
  by_contra hnone
  apply h
  refine sum_eq_zero fun n hn => ?_
  obtain ⟨x, hx, rfl⟩ := mem_map.mp hn
  have hne : x.2.blocked ≠ 1 := fun heq => hnone ⟨x, hx, heq⟩
  cases hst : x.2 <;> simp_all [Stage.blocked]

theorem exists_joined (h : calls.joined ≠ 0) : ∃ x ∈ calls, x.2.joined = 1 := by
  by_contra hnone
  apply h
  refine sum_eq_zero fun n hn => ?_
  obtain ⟨x, hx, rfl⟩ := mem_map.mp hn
  have hne : x.2.joined ≠ 1 := fun heq => hnone ⟨x, hx, heq⟩
  cases hst : x.2 <;> simp_all [Stage.joined]

theorem eq_cons_of_ne {x y : ℕ × Stage} {rest' : Calls} (hne : x ≠ y)
    (h : x ::ₘ rest = y ::ₘ rest') : ∃ others, rest = y ::ₘ others ∧ rest' = x ::ₘ others := by
  obtain ⟨heq, -⟩ | ⟨-, others, h1, h2⟩ := cons_eq_cons.mp h
  · exact absurd heq hne
  · exact ⟨others, h1, h2⟩

theorem values_add {n : ℕ} (h : inc ≤ n) :
    (List.range' r inc : Multiset ℕ) + (List.range' (r + inc) (n - inc) : Multiset ℕ) =
      (List.range' r n : Multiset ℕ) := by
  rw [coe_add, List.range'_append_1, Nat.add_sub_cancel' h]

/-! ### The end of a round -/

/-- A participant takes its part and leaves the others theirs. -/
theorem take_inv (hc : Counted f ((inc, st) ::ₘ rest)) (hst : st.joined = 1)
    (houtstanding : f.outstanding = true) (hall : ∀ x ∈ rest, x.2.Leaves f) :
    ∃ spare, Inv (f.take inc) rest spare ∧
      (List.range' f.result inc : Multiset ℕ) + spare = List.range' f.result f.increment := by
  have hready := hc.ready_waiters
  have hcount := hc.participant_count
  have hincrement := hc.increment
  have hblocked : st.blocked = 0 := by
    cases st <;> first | rfl | cases hst
  simp only [blocked_cons, joined_cons, increments_cons, hst, hblocked, one_mul, zero_add]
    at hready hcount hincrement
  unfold Combiner.take
  have hleft : (f.leave inc).participant_count = rest.joined := by
    simp only [Combiner.leave]
    omega
  have hinc : (f.leave inc).increment = rest.increments := by
    simp only [Combiner.leave]
    omega
  split
  · -- the last one: there is nothing left to hand out
    rename_i hlast
    have hnone : rest.joined = 0 := hleft.symm.trans hlast
    have hzero := increments_eq_zero hnone
    refine ⟨0, ⟨⟨hready, hleft, hinc, ?_⟩, Phase.aggregating rfl ?_ ?_⟩, ?_⟩
    · simp [Combiner.set_ready, hc.checked, hinc, hzero]
    · intro x hx
      have hx' := hall x hx
      have hxjoined := joined_eq_zero_of_mem hnone hx
      cases hst' : x.2 with
      | call => trivial
      | notReady seen =>
        rw [hst'] at hx'
        exact Nat.le_succ_of_le hx'
      | notReceived seen | request total | reply r =>
        rw [hst'] at hxjoined
        cases hxjoined
    · intro x hx hb
      have hx' := hall x hx
      cases hst' : x.2 with
      | notReady seen =>
        rw [hst'] at hx'
        exact Nat.lt_succ_of_le hx'
      | call | notReceived seen | request total | reply r =>
        rw [hst'] at hb
        cases hb
    · rw [hincrement, hzero, add_zero, add_zero]
  · rename_i hmore
    have hpos : rest.joined ≠ 0 := by
      rw [← hleft]
      exact hmore
    refine ⟨_, ⟨⟨hready, hleft, hinc, hc.checked⟩, Phase.distributing houtstanding hall hpos⟩, ?_⟩
    apply values_add
    omega

theorem broadcastResult_inv (hc : Counted f ((inc, st) ::ₘ rest)) (hst : st.joined = 1)
    (houtstanding : f.outstanding = true) (hall : ∀ x ∈ rest, x.2.Awaits f) :
    ∃ spare, Inv (f.broadcastResult inc r) rest spare ∧
      (List.range' r inc : Multiset ℕ) + spare = List.range' r f.increment := by
  unfold Combiner.broadcastResult
  refine take_inv (?_ : Counted _ ((inc, st) ::ₘ rest)) ?_ ?_ ?_
  · exact ⟨hc.ready_waiters, hc.participant_count, hc.increment, hc.checked⟩
  · exact hst
  · exact houtstanding
  · intro x hx
    have hx' := hall x hx
    cases hst' : x.2 with
    | call => trivial
    | notReady seen =>
      rw [hst'] at hx'
      exact hx'
    | notReceived seen =>
      -- the broadcast wakes all that wait for the result
      rw [hst'] at hx'
      exact Nat.lt_succ_of_le (le_of_eq hx')
    | request total | reply r =>
      rw [hst'] at hx'
      exact hx'.elim

/-! ### The start of a round -/

theorem participate_counted (hc : Counted f rest) (hst : st.joined = 1) :
    Counted (f.participate inc) ((inc, st) ::ₘ rest) := by
  have hblocked : st.blocked = 0 := by
    cases st <;> first | rfl | cases hst
  constructor
  case ready_waiters =>
    simp only [blocked_cons, hblocked, zero_add]
    exact hc.ready_waiters
  case participant_count =>
    simp only [joined_cons, hst, Combiner.participate, hc.participant_count]
    omega
  case increment =>
    simp only [increments_cons, hst, Combiner.participate, hc.increment]
    omega
  case checked => exact hc.checked

/-- What a step of a call gives: the invariant with what is left of the call, and the values that
    were taken from the counter, handed out or kept. -/
def Kept (rest : Calls) (spare : Multiset ℕ) (target inc : ℕ) (a : After) : Prop :=
  target ≤ a.target ∧ ∃ spare', Inv a.combiner (a.outcome.calls inc + rest) spare' ∧
    a.outcome.values inc + spare' =
      spare + (List.range' target (a.target - target) : Multiset ℕ)

theorem flush_kept (hc : Counted f ((inc, .request f.increment) ::ₘ rest))
    (hall : ∀ x ∈ rest, x.2.Awaits f) : Kept rest 0 target inc (f.flush here target inc) := by
  unfold Combiner.flush
  have hc' : Counted f.set_not_ready ((inc, .request f.increment) ::ₘ rest) :=
    ⟨hc.ready_waiters, hc.participant_count, hc.increment, hc.checked⟩
  split
  · obtain ⟨spare, hinv, hvalues⟩ := broadcastResult_inv (r := target) hc' rfl rfl hall
    refine ⟨Nat.le_add_right _ _, spare, ?_, ?_⟩
    · rw [Outcome.calls, zero_add]
      exact hinv
    · rw [Outcome.values, hvalues, zero_add, Nat.add_sub_cancel_left]
      rfl
  · refine ⟨le_refl _, 0, ⟨?_, ?_⟩, ?_⟩
    · rw [calls_goesOn]
      exact hc'
    · rw [calls_goesOn]
      exact Phase.flushing rfl rfl hall
    · rw [Nat.sub_self]
      rfl

theorem join_kept (hc : Counted f rest) (houtstanding : f.outstanding = false)
    (hall : ∀ x ∈ rest, x.2.Awaits f) (hwoken : ∀ x ∈ rest, x.2.blocked = 1 → x.2.Ready f) :
    Kept rest 0 target inc (f.join flush_threshold here target inc) := by
  unfold Combiner.join
  split
  · exact flush_kept (participate_counted hc rfl) hall
  · refine ⟨le_refl _, 0, ⟨?_, ?_⟩, ?_⟩
    · rw [calls_goesOn]
      exact participate_counted hc rfl
    · rw [calls_goesOn]
      refine Phase.aggregating houtstanding ?_ ?_
      · exact forall_mem_cons.mpr ⟨rfl, hall⟩
      · refine forall_mem_cons.mpr ⟨fun h => ?_, hwoken⟩
        cases h
    · rw [Nat.sub_self]
      rfl

/-- The phase says nothing about a call that is outside. -/
theorem Phase.drop (h : Phase f ((inc, st) ::ₘ rest) spare) (hst : st.joined = 0) :
    Phase f rest spare := by
  cases h with
  | aggregating houtstanding hall hwoken =>
    exact .aggregating houtstanding (fun x hx => hall x (mem_cons_of_mem hx))
      fun x hx => hwoken x (mem_cons_of_mem hx)
  | flushing houtstanding hcalls hall =>
    obtain ⟨others, rfl, rfl⟩ := eq_cons_of_ne (by rintro ⟨⟩; cases hst) hcalls
    exact .flushing houtstanding rfl fun x hx => hall x (mem_cons_of_mem hx)
  | replied houtstanding hcalls hall =>
    obtain ⟨others, rfl, rfl⟩ := eq_cons_of_ne (by rintro ⟨⟩; cases hst) hcalls
    exact .replied houtstanding rfl fun x hx => hall x (mem_cons_of_mem hx)
  | distributing houtstanding hall hpos =>
    refine .distributing houtstanding (fun x hx => hall x (mem_cons_of_mem hx)) ?_
    rwa [joined_cons, hst, zero_add] at hpos

theorem Phase.block (h : Phase f rest spare) (houtstanding : f.outstanding = true) :
    Phase { f with ready_waiters := f.ready_waiters + 1 }
      ((inc, .notReady f.untilNotOutstanding) ::ₘ rest) spare := by
  cases h with
  | aggregating hout =>
    rw [houtstanding] at hout
    cases hout
  | @flushing inc' others hout hcalls hall =>
    have hcalls' : (inc, Stage.notReady f.untilNotOutstanding) ::ₘ rest =
        (inc', .request f.increment) ::ₘ (inc, .notReady f.untilNotOutstanding) ::ₘ others := by
      rw [hcalls]
      exact cons_swap _ _ _
    exact .flushing hout hcalls' (forall_mem_cons.mpr ⟨le_refl f.untilNotOutstanding, hall⟩)
  | @replied inc' r others hout hcalls hall =>
    have hcalls' : (inc, Stage.notReady f.untilNotOutstanding) ::ₘ rest =
        (inc', .reply r) ::ₘ (inc, .notReady f.untilNotOutstanding) ::ₘ others := by
      rw [hcalls]
      exact cons_swap _ _ _
    exact .replied hout hcalls' (forall_mem_cons.mpr ⟨le_refl f.untilNotOutstanding, hall⟩)
  | distributing hout hall hpos =>
    refine .distributing hout ?_ ?_
    · exact forall_mem_cons.mpr ⟨le_refl f.untilNotOutstanding, hall⟩
    · rw [joined_cons]
      omega

theorem enter_kept (hc : Counted f rest) (hphase : Phase f rest spare) :
    Kept rest spare target inc (f.enter flush_threshold here target inc) := by
  unfold Combiner.enter
  split
  · rename_i hout
    refine ⟨le_refl _, spare, ⟨?_, ?_⟩, ?_⟩
    · rw [calls_goesOn]
      constructor
      case ready_waiters => simp [Stage.blocked, hc.ready_waiters, add_comm]
      case participant_count => simpa [Stage.joined] using hc.participant_count
      case increment => simpa [Stage.joined] using hc.increment
      case checked => exact hc.checked
    · rw [calls_goesOn]
      exact hphase.block hout
    · rw [Nat.sub_self]
      exact add_comm _ _
  · rename_i hout
    cases hphase with
    | aggregating houtstanding hall hwoken => exact join_kept hc houtstanding hall hwoken
    | flushing houtstanding => exact absurd houtstanding hout
    | replied houtstanding => exact absurd houtstanding hout
    | distributing houtstanding => exact absurd houtstanding hout

/-! ### The steps -/

theorem Phase.fields (h : Phase f calls spare) (m n : ℕ) :
    Phase { f with committed := m, ready_waiters := n } calls spare := by
  cases h with
  | aggregating hout hall hwoken => exact .aggregating hout hall hwoken
  | flushing hout hcalls hall => exact .flushing hout hcalls hall
  | replied hout hcalls hall => exact .replied hout hcalls hall
  | distributing hout hall hpos => exact .distributing hout hall hpos

theorem Inv.promise (h : Inv f calls spare) : Inv f.promise calls spare :=
  ⟨⟨h.counted.ready_waiters, h.counted.participant_count, h.counted.increment, h.counted.checked⟩,
    h.phase.fields (f.committed + 1) f.ready_waiters⟩

theorem Inv.call (h : Inv f calls spare) : Inv f ((inc, .call) ::ₘ calls) spare := by
  constructor
  · exact ⟨by simpa [Stage.blocked] using h.counted.ready_waiters,
      by simpa [Stage.joined] using h.counted.participant_count,
      by simpa [Stage.joined] using h.counted.increment, h.counted.checked⟩
  · cases h.phase with
    | aggregating hout hall hwoken =>
      refine .aggregating hout ?_ ?_
      · exact forall_mem_cons.mpr ⟨trivial, hall⟩
      · exact forall_mem_cons.mpr ⟨fun _ => trivial, hwoken⟩
    | @flushing inc' others hout hcalls hall =>
      have hcalls' : (inc, Stage.call) ::ₘ calls =
          (inc', .request f.increment) ::ₘ (inc, .call) ::ₘ others := by
        rw [hcalls]
        exact cons_swap _ _ _
      exact .flushing hout hcalls' (forall_mem_cons.mpr ⟨trivial, hall⟩)
    | @replied inc' r others hout hcalls hall =>
      have hcalls' : (inc, Stage.call) ::ₘ calls =
          (inc', .reply r) ::ₘ (inc, .call) ::ₘ others := by
        rw [hcalls]
        exact cons_swap _ _ _
      exact .replied hout hcalls' (forall_mem_cons.mpr ⟨trivial, hall⟩)
    | distributing hout hall hpos =>
      refine .distributing hout ?_ ?_
      · exact forall_mem_cons.mpr ⟨trivial, hall⟩
      · simpa [Stage.joined] using hpos

theorem Inv.of_call (h : Inv f ((inc, .call) ::ₘ rest) spare) : Inv f rest spare :=
  ⟨⟨by simpa [Stage.blocked] using h.counted.ready_waiters,
    by simpa [Stage.joined] using h.counted.participant_count,
    by simpa [Stage.joined] using h.counted.increment, h.counted.checked⟩, h.phase.drop rfl⟩

theorem Inv.spare_eq_zero (h : Inv f 0 spare) : spare = 0 := by
  cases h.phase with
  | aggregating => rfl
  | flushing _ hcalls => exact absurd hcalls.symm cons_ne_zero
  | replied _ hcalls => exact absurd hcalls.symm cons_ne_zero
  | distributing _ _ hpos => exact absurd rfl hpos

theorem eq_of_awaits {st' : Stage} {inc' : ℕ} {rest' : Calls} (hst : ¬st.Awaits f)
    (hcalls : (inc, st) ::ₘ rest = (inc', st') ::ₘ rest') (hall : ∀ x ∈ rest', x.2.Awaits f) :
    inc = inc' ∧ st = st' ∧ rest = rest' := by
  obtain ⟨heq, hrest⟩ | ⟨-, others, -, rfl⟩ := cons_eq_cons.mp hcalls
  · exact ⟨congrArg Prod.fst heq, congrArg Prod.snd heq, hrest⟩
  · exact absurd (hall _ (mem_cons_self _ _)) hst

theorem Phase.distributing_of_woken {seen : ℕ} (h : Phase f ((inc, .notReceived seen) ::ₘ rest) spare)
    (hseen : seen < f.untilReceived) :
    f.outstanding = true ∧ (∀ x ∈ rest, x.2.Leaves f) ∧
      spare = List.range' f.result f.increment := by
  have hself : ¬(Stage.notReceived seen).Awaits f := fun h => absurd h (ne_of_lt hseen)
  cases h with
  | aggregating hout hall => exact absurd (hall _ (mem_cons_self _ _)) hself
  | flushing hout hcalls hall => cases (eq_of_awaits hself hcalls hall).2.1
  | replied hout hcalls hall => cases (eq_of_awaits hself hcalls hall).2.1
  | distributing hout hall =>
    exact ⟨hout, fun x hx => hall x (mem_cons_of_mem hx), rfl⟩

theorem Phase.flushing_of_request {total : ℕ} (h : Phase f ((inc, .request total) ::ₘ rest) spare) :
    f.outstanding = true ∧ total = f.increment ∧ (∀ x ∈ rest, x.2.Awaits f) ∧ spare = 0 := by
  have hself : ¬(Stage.request total).Awaits f := id
  cases h with
  | aggregating hout hall => exact (hall _ (mem_cons_self _ _)).elim
  | flushing hout hcalls hall =>
    obtain ⟨-, heq, rfl⟩ := eq_of_awaits hself hcalls hall
    exact ⟨hout, Stage.request.inj heq, hall, rfl⟩
  | replied hout hcalls hall => cases (eq_of_awaits hself hcalls hall).2.1
  | distributing hout hall => exact (hall _ (mem_cons_self _ _)).elim

theorem Phase.replied_of_reply (h : Phase f ((inc, .reply r) ::ₘ rest) spare) :
    f.outstanding = true ∧ (∀ x ∈ rest, x.2.Awaits f) ∧ spare = List.range' r f.increment := by
  have hself : ¬(Stage.reply r).Awaits f := id
  cases h with
  | aggregating hout hall => exact (hall _ (mem_cons_self _ _)).elim
  | flushing hout hcalls hall => cases (eq_of_awaits hself hcalls hall).2.1
  | replied hout hcalls hall =>
    obtain ⟨-, heq, rfl⟩ := eq_of_awaits hself hcalls hall
    obtain rfl := Stage.reply.inj heq
    exact ⟨hout, hall, rfl⟩
  | distributing hout hall => exact (hall _ (mem_cons_self _ _)).elim

/-- **A call keeps the invariant**, and what is taken from the counter is handed out or kept. -/
theorem step_inv (h : Inv f ((inc, st) ::ₘ rest) spare)
    (hstep : f.step flush_threshold here target inc st = some a) : Kept rest spare target inc a := by
  have hc := h.counted
  cases st with
  | call =>
    cases hstep
    exact enter_kept h.of_call.counted h.of_call.phase
  | notReady seen =>
    obtain ⟨-, rfl⟩ := Option.ite_some_none_eq_some.mp hstep
    apply enter_kept
    · refine ⟨?_, by simpa [Stage.joined] using hc.participant_count,
        by simpa [Stage.joined] using hc.increment, hc.checked⟩
      have hready := hc.ready_waiters
      simp only [blocked_cons, Stage.blocked] at hready
      simp only
      omega
    · exact (h.phase.drop rfl).fields f.committed (f.ready_waiters - 1)
  | notReceived seen =>
    obtain ⟨hseen, rfl⟩ := Option.ite_some_none_eq_some.mp hstep
    obtain ⟨hout, hall, rfl⟩ := h.phase.distributing_of_woken hseen
    obtain ⟨spare, hinv, hvalues⟩ := take_inv hc rfl hout hall
    refine ⟨le_refl _, spare, ?_, ?_⟩
    · rw [Outcome.calls, zero_add]
      exact hinv
    · rw [Outcome.values, hvalues, Nat.sub_self]
      exact (add_zero _).symm
  | request total =>
    cases hstep
    obtain ⟨hout, rfl, hall, rfl⟩ := h.phase.flushing_of_request
    refine ⟨Nat.le_add_right _ _, List.range' target f.increment, ⟨?_, ?_⟩, ?_⟩
    · rw [calls_goesOn]
      exact ⟨by simpa [Stage.blocked] using hc.ready_waiters,
        by simpa [Stage.joined] using hc.participant_count,
        by simpa [Stage.joined] using hc.increment, hc.checked⟩
    · rw [calls_goesOn]
      exact .replied hout rfl hall
    · rw [Outcome.values, Nat.add_sub_cancel_left]
  | reply r =>
    cases hstep
    obtain ⟨hout, hall, rfl⟩ := h.phase.replied_of_reply
    obtain ⟨spare, hinv, hvalues⟩ := broadcastResult_inv (r := r) hc rfl hout hall
    refine ⟨le_refl _, spare, ?_, ?_⟩
    · rw [Outcome.calls, zero_add]
      exact hinv
    · rw [Outcome.values, hvalues, Nat.sub_self]
      exact (add_zero _).symm

/-! ### Somebody can go on -/

theorem step_ne_none (h : st.Ready f) : f.step flush_threshold here target inc st ≠ none := by
  cases st with
  | notReady seen | notReceived seen =>
    have hseen : seen < _ := h
    simp [Combiner.step, hseen]
  | call | request total | reply r => simp [Combiner.step]

theorem Inv.exists_ready (h : Inv f calls spare) (hprompt : Prompt f) (hne : calls ≠ 0) :
    ∃ x ∈ calls, x.2.Ready f := by
  cases h.phase with
  | aggregating hout hall hwoken =>
    by_cases hjoined : calls.joined = 0
    · obtain ⟨x, hx⟩ := exists_mem_of_ne_zero hne
      refine ⟨x, hx, ?_⟩
      have hxjoined := joined_eq_zero_of_mem hjoined hx
      cases hst : x.2 with
      | notReady seen => exact hst ▸ hwoken x hx (by rw [hst]; rfl)
      | notReceived seen =>
        rw [hst] at hxjoined
        cases hxjoined
      | call | request total | reply r => trivial
    · -- the participants wait for a call that was woken
      have hblocked : calls.blocked ≠ 0 := by
        rw [← h.counted.ready_waiters]
        exact hprompt hout (by rwa [h.counted.participant_count])
      obtain ⟨x, hx, hxb⟩ := exists_blocked hblocked
      exact ⟨x, hx, hwoken x hx hxb⟩
  | flushing hout hcalls hall =>
    rw [hcalls]
    exact ⟨_, mem_cons_self _ _, trivial⟩
  | replied hout hcalls hall =>
    rw [hcalls]
    exact ⟨_, mem_cons_self _ _, trivial⟩
  | distributing hout hall hpos =>
    obtain ⟨x, hx, hxj⟩ := exists_joined hpos
    refine ⟨x, hx, ?_⟩
    have hx' := hall x hx
    cases hst : x.2 with
    | notReceived seen =>
      rw [hst] at hx'
      exact hx'
    | call | request total | reply r => trivial
    | notReady seen =>
      rw [hst] at hxj
      cases hxj

theorem take_prompt (hout : f.outstanding = true) : Prompt (f.take inc) := by
  unfold Combiner.take
  split
  · rename_i hlast
    exact fun _ hne => absurd hlast hne
  · intro hfalse
    have : f.outstanding = false := hfalse
    rw [hout] at this
    cases this

theorem enter_prompt (hthreshold : flush_threshold ≤ 1) :
    Prompt (f.enter flush_threshold here target inc).combiner := by
  unfold Combiner.enter
  split
  · rename_i hout
    intro hfalse
    have : f.outstanding = false := hfalse
    rw [hout] at this
    cases this
  · unfold Combiner.join
    split
    · unfold Combiner.flush
      split
      · exact take_prompt rfl
      · intro hfalse
        cases hfalse
    · rename_i hmore
      intro _ _ hready
      have hpart : (f.participate inc).participant_count = f.participant_count + 1 := rfl
      exact hmore ⟨hready, .inl (by omega)⟩

theorem step_prompt (hthreshold : flush_threshold ≤ 1) (h : Inv f ((inc, st) ::ₘ rest) spare)
    (hprompt : Prompt f) (hstep : f.step flush_threshold here target inc st = some a) :
    Prompt a.combiner := by
  cases st with
  | call =>
    cases hstep
    exact enter_prompt hthreshold
  | notReady seen =>
    obtain ⟨-, rfl⟩ := Option.ite_some_none_eq_some.mp hstep
    exact enter_prompt hthreshold
  | notReceived seen =>
    obtain ⟨hseen, rfl⟩ := Option.ite_some_none_eq_some.mp hstep
    exact take_prompt (h.phase.distributing_of_woken hseen).1
  | request total =>
    cases hstep
    exact hprompt
  | reply r =>
    cases hstep
    exact take_prompt h.phase.replied_of_reply.1

theorem new_inv : Inv Combiner.new 0 0 :=
  ⟨⟨rfl, rfl, rfl, rfl⟩, .aggregating rfl (fun _ h => absurd h (notMem_zero _))
    fun _ h => absurd h (notMem_zero _)⟩

end CombinedCounter

end Grappa
