import AdvCompArch.Lib.Transition
import Mathlib.Data.Finset.Card

/-! # Flat combining

    The tasks of a core put their requests into one combined object, the `id` of the
    current `Flusher`, and wait until some task has synced it.  `combine` runs up to the
    first point at which the task suspends: in `wait`, or in the `sync()` of its flush.
    From there the task goes on when it was woken (`resume`), or when its `sync()` has
    returned (`sync_done`).  Tasks are not preempted elsewhere.

    The `Flusher` objects are on a heap: `flushers` by address, with `allocated` the next
    address that `new` gives out.  What no code reads is kept apart under `history`: the
    calls that each object holds, those that were synced and those that returned. -/

namespace Grappa

inductive FCStatus where
  | SATISFIED
  | BLOCKED
  | MATCHED
  deriving DecidableEq

abbrev Worker := ℕ

/-- What a functor does to the combined object: its status, the object afterwards, what it wrote
    elsewhere, and the call it was matched with. -/
structure Answer (σ Out : Type) where
  status : FCStatus
  id : σ
  outs : List Out
  partner : Option ℕ

/-- The combined type `T`: its functors, each run for a call of `combine`, and the members that
    `FlatCombiner` uses.  What a `sync()` writes depends on the answers it gets. -/
structure Combined (σ Req Out Env : Type) where
  func : ℕ → Req → σ → Answer σ Out
  is_full : σ → Bool
  clear : σ → σ
  clone_fresh : σ → σ
  sync : σ → Env → List Out

structure Flusher (σ : Type) where
  id : σ
  sender : Option Worker
  /-- `cv.waiters_`, the last waiter first. -/
  waiters : List Worker
  /-- The calls whose requests `id` holds. -/
  batch : List ℕ

/-- Where a task is: not in `combine`, in `wait` on a flusher, woken from there, or in the `sync()`
    of a flusher; with the number of its call. -/
inductive TaskState where
  | idle
  | waiting (s call : ℕ)
  | woken (s call : ℕ)
  | syncing (s call : ℕ)
  deriving DecidableEq

/-- What has happened. -/
structure CombinerHistory (Req Out : Type) where
  /-- The requests of the calls of `combine`, in order. -/
  requests : List Req
  /-- The calls whose requests each `sync()` was started with. -/
  syncs : List (List ℕ)
  /-- The calls whose request a `sync()` that returned had included, or a functor satisfied. -/
  satisfied : List ℕ
  returned : List ℕ
  outs : List Out

structure FlatCombiner (σ Req Out : Type) where
  flushers : ℕ → Flusher σ
  allocated : ℕ
  current : ℕ
  inflight : ℕ
  freelist : List ℕ
  tasks : Worker → TaskState
  history : CombinerHistory Req Out

namespace FlatCombiner

variable {σ Req Out Env : Type} (C : Combined σ Req Out Env) (fc : FlatCombiner σ Req Out)

/-- Change the flusher at an address. -/
def setFlusher (s : ℕ) (f : Flusher σ) : FlatCombiner σ Req Out :=
  { fc with flushers := Function.update fc.flushers s f }

def setTask (t : Worker) (p : TaskState) : FlatCombiner σ Req Out :=
  { fc with tasks := Function.update fc.tasks t p }

/-- `Flusher::clear`. -/
def clear_flusher (f : Flusher σ) : Flusher σ := ⟨C.clear f.id, none, [], []⟩

/-- `get_flusher(s)`: the address, and the combiner afterwards. -/
def get_flusher (s : ℕ) : ℕ × FlatCombiner σ Req Out :=
  match fc.freelist with
  | r :: rest =>
    (r, { fc.setFlusher r (clear_flusher C (fc.flushers r)) with freelist := rest })
  | [] =>
    (fc.allocated, { fc.setFlusher fc.allocated
      ⟨C.clear (C.clone_fresh (fc.flushers s).id), none, [], []⟩ with
        allocated := fc.allocated + 1 })

/-- `current = get_flusher(s)`. -/
def swap (s : ℕ) : FlatCombiner σ Req Out :=
  let r := fc.get_flusher C s
  { r.2 with current := r.1 }

/-- `free_flusher(s)`. -/
def free_flusher (s : ℕ) : FlatCombiner σ Req Out := { fc with freelist := s :: fc.freelist }

/-- A call of `combine` is over. -/
def ret (t : Worker) (call : ℕ) : FlatCombiner σ Req Out :=
  { fc.setTask t .idle with
    history := { fc.history with returned := call :: fc.history.returned } }

/-- `flush(s)` up to its `sync()`. -/
def begin_flush (t : Worker) (call s : ℕ) : FlatCombiner σ Req Out :=
  let fc := (fc.setFlusher s { fc.flushers s with sender := some t }).setTask t (.syncing s call)
  { fc with history := { fc.history with syncs := (fc.flushers s).batch :: fc.history.syncs } }

/-- `Grappa::wait(&s->cv)`. -/
def wait (t : Worker) (call s : ℕ) : FlatCombiner σ Req Out :=
  (fc.setFlusher s { fc.flushers s with waiters := t :: (fc.flushers s).waiters }).setTask t
    (.waiting s call)

/-- A task that waited on a flusher can run again. -/
def thread_wake : TaskState → TaskState
  | .waiting s call => .woken s call
  | p => p

/-- `Grappa::signal(&s->cv)`. -/
def signal (s : ℕ) : FlatCombiner σ Req Out :=
  match (fc.flushers s).waiters with
  | [] => fc
  | w :: ws =>
    (fc.setFlusher s { fc.flushers s with waiters := ws }).setTask w (thread_wake (fc.tasks w))

/-- `broadcast(&s->cv)`. -/
def broadcast (s : ℕ) : FlatCombiner σ Req Out :=
  { fc.setFlusher s { fc.flushers s with waiters := [] } with
    tasks := fun t => if t ∈ (fc.flushers s).waiters then thread_wake (fc.tasks t) else fc.tasks t }

/-- The number of the next call. -/
def call (fc : FlatCombiner σ Req Out) : ℕ := fc.history.requests.length

/-- The functor of the next call has run on the current object. -/
def run_functor (r : Req) (a : Answer σ Out) : FlatCombiner σ Req Out :=
  let s := fc.current
  let f := fc.flushers s
  let h := { fc.history with requests := fc.history.requests ++ [r], outs := a.outs ++ fc.history.outs }
  match a.status with
  | .SATISFIED =>
    { fc.setFlusher s { f with id := a.id } with
      history := { h with satisfied := fc.call :: h.satisfied } }
  | .MATCHED =>
    -- the request of the partner is not in the object any more
    { fc.setFlusher s { f with id := a.id, batch := f.batch.filter fun c => some c ≠ a.partner } with
      history := { h with satisfied := fc.call :: a.partner.toList ++ h.satisfied } }
  | .BLOCKED =>
    { fc.setFlusher s { f with id := a.id, batch := fc.call :: f.batch } with history := h }

/-- `combine(func)`, called by a task, up to where the task suspends or returns. -/
def combine (t : Worker) (r : Req) : FlatCombiner σ Req Out :=
  let s := fc.current
  let call := fc.call
  let a := C.func call r (fc.flushers s).id
  let fc := fc.run_functor r a
  match a.status with
  | .SATISFIED => fc.ret t call
  | .MATCHED => (fc.signal s).ret t call
  | .BLOCKED =>
    if C.is_full a.id then
      let fc := fc.swap C s
      if (fc.flushers s).sender = none then
        { fc with inflight := fc.inflight + 1 }.begin_flush t call s
      else fc.wait t call s
    else if fc.inflight = 0 then
      -- always need at least one in flight
      let fc := { fc with inflight := fc.inflight + 1 }
      if (fc.flushers s).sender = none then (fc.swap C s).begin_flush t call s
      else fc.wait t call s
    else fc.wait t call s

/-- A task goes on after its `wait`. -/
def resume (t : Worker) (s call : ℕ) : FlatCombiner σ Req Out :=
  if some t = (fc.flushers s).sender then
    let fc := if s = fc.current then fc.swap C s else fc
    fc.begin_flush t call s
  else fc.ret t call

/-- Wake a waiter of the current flusher to send it. -/
def appoint : FlatCombiner σ Req Out :=
  let n := fc.current
  let fc := fc.swap C n
  let fc := fc.setFlusher n { fc.flushers n with sender := (fc.flushers n).waiters.head? }
  fc.signal n

/-- `flush(s)` after its `sync()`, up to the broadcast. -/
def wake_batch (s : ℕ) (e : Env) : FlatCombiner σ Req Out :=
  broadcast { fc with
    history := { fc.history with
      satisfied := (fc.flushers s).batch ++ fc.history.satisfied
      outs := C.sync (fc.flushers s).id e ++ fc.history.outs } } s

/-- The current batch gets a sender if someone waits for it; else one less is in flight. -/
def hand_over : FlatCombiner σ Req Out :=
  if (fc.flushers fc.current).waiters ≠ [] ∧ (fc.flushers fc.current).sender = none then
    fc.appoint C
  else { fc with inflight := fc.inflight - 1 }

/-- The end of `flush(s)`; the requests of the batch are done with. -/
def retire (t : Worker) (s call : ℕ) : FlatCombiner σ Req Out :=
  let fc := fc.setFlusher s { fc.flushers s with sender := none, batch := [] }
  (fc.free_flusher s).ret t call

/-- The rest of `flush(s)`, after its `sync()`. -/
def sync_done (t : Worker) (s call : ℕ) (e : Env) : FlatCombiner σ Req Out :=
  ((fc.wake_batch C s e).hand_over C).retire t s call

/-- One step: a task calls `combine`, goes on after a `wait`, or its `sync()` returns. -/
inductive Label (Req Env : Type) where
  | combine (t : Worker) (r : Req)
  | resume (t : Worker)
  | sync_done (t : Worker) (e : Env)

def next : Label Req Env → Option (FlatCombiner σ Req Out)
  | .combine t r => if fc.tasks t = .idle then some (fc.combine C t r) else none
  | .resume t =>
    match fc.tasks t with
    | .woken s call => some (fc.resume C t s call)
    | _ => none
  | .sync_done t e =>
    match fc.tasks t with
    | .syncing s call => some (fc.sync_done C t s call e)
    | _ => none

/-- `FlatCombiner(initial)`. -/
def new (initial : σ) : FlatCombiner σ Req Out where
  flushers := fun _ => ⟨C.clear initial, none, [], []⟩
  allocated := 1
  current := 0
  inflight := 0
  freelist := []
  tasks := fun _ => .idle
  history := ⟨[], [], [], [], []⟩

def system (initial : σ) : Transition.System (FlatCombiner σ Req Out) (Label Req Env) :=
  ⟨new C initial, fun fc l => fc.next C l⟩

end FlatCombiner

end Grappa
