import AdvCompArch.Grappa.CompletionMessage
import AdvCompArch.Grappa.StealQueue

/-! # The global completion event

    A `GlobalCompletionEvent` has a replica on each core.  A core counts the work enrolled
    on it; the master counts in `cores_out` the cores that have some.  A core whose count
    leaves zero cancels the barrier with a blocking call to the master, one whose count
    returns to zero enters it with a message.  When `cores_out` reaches zero the master
    resets every core, and when all have answered it wakes the waiters.

    The model is one transition system for all cores.  A label says which task takes a
    step or which message is delivered.  A task that is blocked in a call is part of the
    message that will resume it. -/

namespace Grappa

/-- `FLAGS_flatten_completions`, and where the cores are. -/
structure GceConfig where
  flatten_completions : Bool
  locale_of : Core → ℤ

/-- The event on one core.  A waiter is known by the number of phases that had ended when it
    called `wait`. -/
@[ext] structure Gce where
  count : ℤ
  cv : List ℕ
  event_in_progress : Bool
  cores_out : ℤ
  reenroll_count : ℤ
  temporary_waking_cv : List ℕ
  temporary_waking_cores_out : ℤ
  deriving DecidableEq

namespace Gce

/-- What the constructor leaves. -/
def fresh : Gce := ⟨0, [], false, 0, 0, [], 0⟩

def reset (g : Gce) : Gce :=
  { g with count := 0, cv := [], cores_out := 0, reenroll_count := 0, event_in_progress := false }

/-- The waiters are kept aside for the wake message. -/
def captureAndReset (g : Gce) : Gce := ({ g with temporary_waking_cv := g.cv } : Gce).reset

/-- `Grappa::wait(&cv)`. -/
def enqueueWaiter (w : ℕ) (g : Gce) : Gce := { g with cv := w :: g.cv }

/-- `temporary_waking_cv.waiters_ = 0`. -/
def emptyTemporary (g : Gce) : Gce := { g with temporary_waking_cv := [] }

/-- A core has entered the barrier. -/
def enter (g : Gce) : Gce := { g with cores_out := g.cores_out - 1 }

def awaitResets (k : ℤ) (g : Gce) : Gce := { g with temporary_waking_cores_out := k }

/-- `re` units are expected again on the master, which has outstanding tasks. -/
def reenroll (re : ℤ) (g : Gce) : Gce :=
  { g with count := re, cores_out := 1, reenroll_count := re }

end Gce

/-- A call of `enroll(inc)` on `core` that blocks.  `parent` is the core that enrolled the unit
    of work making the call, if it is one. -/
structure EnrollCall (n : ℕ) where
  core : Fin (n + 1)
  inc : ℕ
  parent : Option (Fin (n + 1))
  deriving DecidableEq

/-- The messages that the counts depend on. -/
inductive CountMsg (n : ℕ) where
  /-- The delegate that increments `cores_out`, on its way to the master. -/
  | cancel (call : EnrollCall n)
  | cancel_reply (call : EnrollCall n) (co : ℤ)
  /-- A `call_on_all_cores` that has still to reach the cores `to_set`, with `acks` of its
      `ce.complete()` on their way back. -/
  | all_cores (call : EnrollCall n) (to_set : List (Fin (n + 1))) (acks : ℕ)
  | complete (owner : Fin (n + 1)) (dec : ℤ)
  | enter
  deriving DecidableEq

/-- The messages that end a phase, and the question `wait` asks. -/
inductive WakeMsg (n : ℕ) where
  | reset (c : Fin (n + 1)) (re : ℤ)
  | reset_done (re : ℤ)
  | wake (c : Fin (n + 1))
  | query (c : Fin (n + 1)) (w : ℕ)
  | query_reply (c : Fin (n + 1)) (w : ℕ) (cores_out : ℤ)
  deriving DecidableEq

/-- All replicas and everything in flight.  The fields from `units` on are for the proofs: the
    units of work of each core that are enrolled and not completed, the waiters suspended on
    each core, the number of phases that have ended, whether work was enrolled since, and the
    order in which the cores have left zero. -/
structure GceState (n : ℕ) where
  gce : Fin (n + 1) → Gce
  /-- The completion message of a source towards an owner. -/
  completion_msgs : Fin (n + 1) × Fin (n + 1) → CompletionCell
  counting : Multiset (CountMsg n)
  waking : Multiset (WakeMsg n)
  units : Fin (n + 1) → ℕ
  suspended : Fin (n + 1) → Multiset ℕ
  phase : ℕ
  opened : Bool
  stamp : Fin (n + 1) → ℕ
  clock : ℕ

/-- The master core. -/
def master_core {n : ℕ} : Fin (n + 1) := 0

/-- A message for each core. -/
def toAll {n : ℕ} (m : Fin (n + 1) → WakeMsg n) : Multiset (WakeMsg n) :=
  (List.finRange (n + 1)).map m

namespace GceState

variable {n : ℕ}

def init (n : ℕ) : GceState n where
  gce _ := .fresh
  completion_msgs _ := .fresh
  counting := 0
  waking := 0
  units _ := 0
  suspended _ := 0
  phase := 0
  opened := false
  stamp _ := 0
  clock := 1

/-- Run `f` on the replica of core `c`. -/
def update (c : Fin (n + 1)) (f : Gce → Gce) (s : GceState n) : GceState n :=
  { s with gce := Function.update s.gce c (f (s.gce c)) }

/-- Put a message on its way. -/
def post (m : CountMsg n) (s : GceState n) : GceState n := { s with counting := m ::ₘ s.counting }

def postWake (m : WakeMsg n) (s : GceState n) : GceState n := { s with waking := m ::ₘ s.waking }

/-- The calling task is busy with the call: its own unit of work cannot be completed. -/
def hold (s : GceState n) (parent : Option (Fin (n + 1))) : Option (GceState n) :=
  match parent with
  | none => some s
  | some o =>
    if 1 ≤ s.units o then some { s with units := Function.update s.units o (s.units o - 1) }
    else none

/-- The calling task goes on. -/
def release (parent : Option (Fin (n + 1))) (s : GceState n) : GceState n :=
  match parent with
  | none => s
  | some o => { s with units := Function.update s.units o (s.units o + 1) }

/-- `enroll` returns: the `inc` units are enrolled. -/
def enrolled (call : EnrollCall n) (s : GceState n) : GceState n :=
  release call.parent
    { s with units := Function.update s.units call.core (s.units call.core + call.inc) }

/-- `wait` on a condition variable of core `c`. -/
def suspend (c : Fin (n + 1)) (w : ℕ) (s : GceState n) : GceState n :=
  { s.update c (Gce.enqueueWaiter w) with
    suspended := Function.update s.suspended c (w ::ₘ s.suspended c) }

def setInProgress (c : Fin (n + 1)) (s : GceState n) : GceState n :=
  s.update c fun g => { g with event_in_progress := true }

/-! ### Enrolling -/

/-- The body of the delegate on the master. -/
def cancelBarrier (s : GceState n) : GceState n :=
  s.update master_core fun g => { g with cores_out := g.cores_out + 1 }

/-- The end of `enroll` after the barrier is cancelled, with its `CHECK`s. -/
def finishEnroll (call : EnrollCall n) (s : GceState n) : Option (GceState n) :=
  if 0 < (s.gce call.core).count then some (s.enrolled call) else none

/-- `ce.wait()` in `call_on_all_cores` returns when every other core has answered. -/
def awaitAll (call : EnrollCall n) (to_set : List (Fin (n + 1))) (acks : ℕ) (s : GceState n) :
    Option (GceState n) :=
  if to_set = [] ∧ acks = 0 then
    if (s.gce call.core).event_in_progress then s.finishEnroll call else none
  else some (s.post (.all_cores call to_set acks))

/-- `enroll` after the call to the master has returned `co`. -/
def cancelled (call : EnrollCall n) (co : ℤ) (s : GceState n) : Option (GceState n) :=
  if co = 1 then
    (s.setInProgress call.core).awaitAll call
      ((List.finRange (n + 1)).filter fun c => c ≠ call.core) 0
  else s.finishEnroll call

/-- The core of the call has work from now on; `enroll` saves `wait` the question. -/
def leftZero (call : EnrollCall n) (s : GceState n) : GceState n :=
  { s.setInProgress call.core with
    stamp := Function.update s.stamp call.core s.clock
    clock := s.clock + 1 }

/-- The core leaves zero, so it cancels the barrier. -/
def leaveZero (call : EnrollCall n) (s : GceState n) : Option (GceState n) :=
  let s := s.leftZero call
  if call.core = master_core then
    -- a call to one's own core is short-circuited
    s.cancelBarrier.cancelled call (s.cancelBarrier.gce master_core).cores_out
  else some (s.post (.cancel call))

def addCount (call : EnrollCall n) (s : GceState n) : GceState n :=
  { s.update call.core fun g => { g with count := g.count + call.inc } with opened := true }

/-- The body of `enroll` for `inc ≠ 0`. -/
def addWork (call : EnrollCall n) (s : GceState n) : Option (GceState n) :=
  let s := s.addCount call
  if (s.gce call.core).count = (call.inc : ℤ) then s.leaveZero call else some (s.enrolled call)

/-- `enroll_recurring` stores its argument in an `int`, on the master only. -/
def setRecurring (call : EnrollCall n) (s : GceState n) : GceState n :=
  s.update call.core fun g => { g with reenroll_count := toInt call.inc }

/-- `enroll(inc)`, or `enroll_recurring(inc)`.  A negative `inc` fails its `CHECK_GE`. -/
def enroll (recurring : Bool) (call : EnrollCall n) (s : GceState n) : Option (GceState n) :=
  if recurring ∧ call.core ≠ master_core then none
  else
    let s := if recurring then s.setRecurring call else s
    if call.inc = 0 then some s else (s.hold call.parent).bind (addWork call)

/-! ### Completing -/

/-- `complete(dec)` on core `c`. -/
def complete (c : Fin (n + 1)) (dec : ℤ) (s : GceState n) : GceState n :=
  let s := s.update c fun g => { g with count := g.count - dec }
  if (s.gce c).count = 0 then s.post .enter else s

/-- One step of the completion message of `source` towards `owner`.  What it delivers is passed
    to the owner's `complete`. -/
def completionStep (cfg : GceConfig) (source owner : Fin (n + 1)) (l : CompletionLabel)
    (s : GceState n) : Option (GceState n) :=
  match CompletionCell.next cfg.locale_of (source : ℕ) (owner : ℕ)
      (s.completion_msgs (source, owner)) l with
  | none => none
  | some cell =>
    let dec := cell.delivered - (s.completion_msgs (source, owner)).delivered
    let s := { s with completion_msgs := Function.update s.completion_msgs (source, owner) cell }
    if dec = 0 then some s else some (s.complete owner dec)

/-- A task on core `c` completes `dec` units of `owner`. -/
def completeTarget (cfg : GceConfig) (c owner : Fin (n + 1)) (dec : ℕ) (s : GceState n) :
    Option (GceState n) :=
  if 1 ≤ dec ∧ dec ≤ s.units owner then
    let s := { s with units := Function.update s.units owner (s.units owner - dec) }
    if c = owner then some (s.complete owner dec)
    else if cfg.flatten_completions then s.completionStep cfg c owner (.send_completion dec)
    else some (s.post (.complete owner dec))
  else none

/-- A core enters the barrier.  The last one in ends the phase. -/
def enterBarrier (s : GceState n) : Option (GceState n) :=
  let s := s.update master_core Gce.enter
  if (s.gce master_core).cores_out = 0 then
    if (s.gce master_core).count = 0 then
      let re := (s.gce master_core).reenroll_count
      let s := s.update master_core (Gce.awaitResets (n + 1 : ℕ))
      some { s with
        waking := toAll (fun c => .reset c re) + s.waking
        phase := s.phase + 1
        opened := false }
    else none
  else some s

/-- The reset of core `c`. -/
def resetCore (c : Fin (n + 1)) (re : ℤ) (s : GceState n) : Option (GceState n) :=
  if (s.gce c).count = 0 then
    let s := s.update c Gce.captureAndReset
    let s := if re ≠ 0 then s.setInProgress c else s
    some (s.postWake (.reset_done re))
  else none

/-- A core has answered that it is reset.  The last answer re-enrolls and wakes everybody. -/
def resetDone (re : ℤ) (s : GceState n) : GceState n :=
  let s := s.update master_core fun g => g.awaitResets (g.temporary_waking_cores_out - 1)
  if (s.gce master_core).temporary_waking_cores_out = 0 then
    let s := if re ≠ 0 then
        { s.update master_core (Gce.reenroll re) with
          units := Function.update s.units master_core (s.units master_core + re.toNat)
          opened := true }
      else s
    { s with waking := toAll .wake + s.waking }
  else s

/-- `broadcast(&temporary_waking_cv)` on core `c`. -/
def wakeCore (c : Fin (n + 1)) (s : GceState n) : GceState n :=
  { s.update c Gce.emptyTemporary with
    suspended := Function.update s.suspended c
      (s.suspended c - ((s.gce c).temporary_waking_cv : Multiset ℕ)) }

/-! ### Waiting -/

/-- `wait()` after the master has answered. -/
def conservativeCheck (c : Fin (n + 1)) (w : ℕ) (cores_out : ℤ) (s : GceState n) : GceState n :=
  if cores_out > 0 then s.suspend c w else s

/-- `wait()` on core `c`. -/
def wait (c : Fin (n + 1)) (s : GceState n) : GceState n :=
  if (s.gce c).event_in_progress then s.suspend c s.phase
  else if c = master_core then s.conservativeCheck c s.phase (s.gce master_core).cores_out
  else s.postWake (.query c s.phase)

/-! ### Messages -/

/-- The handler of a message that has been taken out of the network. -/
def deliverCount : CountMsg n → GceState n → Option (GceState n)
  | .cancel call, s =>
    some (s.cancelBarrier.post (.cancel_reply call (s.cancelBarrier.gce master_core).cores_out))
  | .cancel_reply call co, s => s.cancelled call co
  -- delivered one by one
  | .all_cores _ _ _, _ => none
  | .complete owner dec, s => some (s.complete owner dec)
  | .enter, s => s.enterBarrier

/-- The message of a `call_on_all_cores` to core `c`. -/
def deliverInProgress (c : Fin (n + 1)) : CountMsg n → GceState n → Option (GceState n)
  | .all_cores call to_set acks, s =>
    if c ∈ to_set then (s.setInProgress c).awaitAll call (to_set.erase c) (acks + 1) else none
  | _, _ => none

/-- The answer of a core in a `call_on_all_cores`. -/
def deliverAck : CountMsg n → GceState n → Option (GceState n)
  | .all_cores call to_set acks, s => if 1 ≤ acks then s.awaitAll call to_set (acks - 1) else none
  | _, _ => none

def deliverWake : WakeMsg n → GceState n → Option (GceState n)
  | .reset c re, s => s.resetCore c re
  | .reset_done re, s => some (s.resetDone re)
  | .wake c, s => some (s.wakeCore c)
  | .query c w, s => some (s.postWake (.query_reply c w (s.gce master_core).cores_out))
  | .query_reply c w co, s => some (s.conservativeCheck c w co)

/-- Take a message out of the network and hand it to `f`. -/
def takeCount (m : CountMsg n) (f : CountMsg n → GceState n → Option (GceState n))
    (s : GceState n) : Option (GceState n) :=
  if m ∈ s.counting then f m { s with counting := s.counting.erase m } else none

def takeWake (m : WakeMsg n) (f : WakeMsg n → GceState n → Option (GceState n))
    (s : GceState n) : Option (GceState n) :=
  if m ∈ s.waking then f m { s with waking := s.waking.erase m } else none

end GceState

inductive GceLabel (n : ℕ) where
  | enroll (recurring : Bool) (call : EnrollCall n)
  | complete (c owner : Fin (n + 1)) (dec : ℕ)
  /-- The completion message of `source` towards `owner` is moved. -/
  | completion_msg (source owner : Fin (n + 1)) (l : TransportLabel)
  /-- A copy of it carrying `dec` is received. -/
  | completion_received (source owner : Fin (n + 1)) (dec : ℤ)
  | wait (c : Fin (n + 1))
  | deliver (m : CountMsg n)
  | deliver_in_progress (m : CountMsg n) (c : Fin (n + 1))
  | deliver_ack (m : CountMsg n)
  | deliver_wake (m : WakeMsg n)

namespace GceState

variable {n : ℕ}

def next (cfg : GceConfig) (s : GceState n) : GceLabel n → Option (GceState n)
  | .enroll recurring call => s.enroll recurring call
  | .complete c owner dec => s.completeTarget cfg c owner dec
  | .completion_msg source owner l => s.completionStep cfg source owner (.transport l)
  | .completion_received source owner dec => s.completionStep cfg source owner (.receive dec)
  | .wait c => some (s.wait c)
  | .deliver m => s.takeCount m deliverCount
  | .deliver_in_progress m c => s.takeCount m (deliverInProgress c)
  | .deliver_ack m => s.takeCount m deliverAck
  | .deliver_wake m => s.takeWake m deliverWake

end GceState

/-- The global completion event on `n + 1` cores. -/
def gceSystem (n : ℕ) (cfg : GceConfig) : Transition.System (GceState n) (GceLabel n) :=
  ⟨.init n, GceState.next cfg⟩

end Grappa
