import AdvCompArch.Lib.Chunks
import AdvCompArch.Lib.Totals
import AdvCompArch.Lib.Transition
import Mathlib.Data.List.ProdSigma

/-! # In-place reductions

    `allreduce_inplace` is called on all cores.  The cores other than the home core send
    their arrays to it in messages of limited size; when it has added them all, it sends the
    totals back, in messages that it allocates from a pool on its stack. -/

namespace Grappa

open Chunks Totals

/-! ### The pool -/

structure PoolAllocator where
  buffer_size : ℕ
  allocated : ℕ
  deriving DecidableEq

/-- `allocate`; `none` where its `CHECK` fails. -/
def PoolAllocator.allocate (p : PoolAllocator) (sz : ℕ) : Option PoolAllocator :=
  let allocated := p.allocated + sz
  if allocated ≤ p.buffer_size then some { p with allocated := allocated } else none

/-- Several allocations of one size. -/
def PoolAllocator.allocateAll (p : PoolAllocator) (sz : ℕ) : ℕ → Option PoolAllocator
  | 0 => some p
  | k + 1 => (p.allocate sz).bind fun p' => p'.allocateAll sz k

theorem PoolAllocator.allocateAll_isSome {sz : ℕ} (k : ℕ) {p : PoolAllocator}
    (hp : p.allocated ≤ p.buffer_size) :
    (p.allocateAll sz k).isSome ↔ p.allocated + k * sz ≤ p.buffer_size := by
  induction k generalizing p with
  | zero => simp [allocateAll, hp]
  | succ k ih =>
    simp only [allocateAll, allocate]
    split
    · rename_i hle
      rw [Option.bind_some, ih hle]
      simp only [Nat.succ_mul]
      omega
    · rename_i hgt
      simp only [Option.bind_none, Option.isSome_none, Bool.false_eq_true, false_iff, Nat.succ_mul]
      omega

/-- The base of a message: its table of virtual functions, two pointers, the list of waiters and
    the flags. -/
def MESSAGE_BASE_SIZE : ℕ := 5 * 8

/-- `sizeof(PayloadMessage<F>)` for a functor of this size: the functor, the pointer to the
    payload, its size and a flag follow the base, and messages are aligned to 64 bytes. -/
def payloadMessageSize (functor : ℕ) : ℕ := (MESSAGE_BASE_SIZE + functor + 8 + 8 + 1 + 63) / 64 * 64

/-- The captures of the functor that carries the totals: `this` and `k`. -/
def CAPTURES_SIZE : ℕ := 2 * 8

/-- `sizeof(std::function<void(decltype(this),size_t)>)`. -/
def STD_FUNCTION_SIZE : ℕ := 32

def MAX_MESSAGE_SIZE : ℕ := 3192

/-! ### The collective -/

/-- A call on `others + 1` cores. -/
structure InplaceConfig (T : Type) where
  others : ℕ
  size : ℕ
  nelem : ℕ
  ReduceOp : T → T → T
  /-- The arrays with which the cores call. -/
  input : Fin (others + 1) → ℕ → T

namespace InplaceConfig

variable {T : Type} (cfg : InplaceConfig T)

/-- The number of cores. -/
abbrev cores : ℕ := cfg.others + 1

def HOME_CORE : Fin cfg.cores := 0

def n_per_msg : ℕ := MAX_MESSAGE_SIZE / cfg.size

def nmsg : ℕ := cfg.nelem / cfg.n_per_msg + if cfg.nelem % cfg.n_per_msg ≠ 0 then 1 else 0

def nmsg_total : ℕ := cfg.nmsg * (cfg.cores - 1)

/-- The starts and lengths of the messages of one array. -/
def pieces : List (ℕ × ℕ) := chunks cfg.n_per_msg 0 cfg.nelem

/-- All cores but the home core, in order. -/
def peers : List (Fin cfg.cores) := (List.finRange cfg.others).map Fin.succ

/-- The pool on the stack of the home core. -/
def pool : PoolAllocator where
  buffer_size := (cfg.cores - 1) * payloadMessageSize STD_FUNCTION_SIZE
  allocated := 0

/-- The pool after a message for each piece and peer. -/
def poolAfter : Option PoolAllocator :=
  cfg.pool.allocateAll (payloadMessageSize CAPTURES_SIZE) (cfg.peers.length * cfg.pieces.length)

end InplaceConfig

/-- A message: a piece of the array of a core for the home core, or of the totals for a core. -/
inductive ArrayMessage (cores : ℕ) where
  | contribution (core : Fin cores) (k n : ℕ)
  | totals (core : Fin cores) (k n : ℕ)
  deriving DecidableEq

/-- The messages with totals, for one peer after the other. -/
def InplaceConfig.totalsMessages {T : Type} (cfg : InplaceConfig T) :
    List (ArrayMessage cfg.cores) :=
  cfg.peers.flatMap fun c => cfg.pieces.map fun p => .totals c p.1 p.2

/-- Where a core is in `call_allreduce`. -/
inductive CallPhase where
  | start
  /-- In the barrier, its completion event set up. -/
  | barrier
  /-- In the wait for its completion event. -/
  | waiting
  /-- The home core, in the destructor of its pool. -/
  | sending
  | done
  deriving DecidableEq

structure InplaceRun (cores : ℕ) (T : Type) where
  array : Fin cores → ℕ → T
  phase : Fin cores → CallPhase
  /-- The count of the completion event of each core. -/
  count : Fin cores → ℕ
  /-- The messages whose payload has yet to be copied. -/
  queued : List (ArrayMessage cores)
  /-- The messages on their way, with their payload. -/
  sent : List (ArrayMessage cores × List T)
  /-- A core stopped the program: a failed `CHECK`, or a division by zero. -/
  aborted : Bool

namespace InplaceRun

variable {T : Type} {cfg : InplaceConfig T}

/-- A core enters the call, leaves the barrier or goes on from its wait; a message is sent or
    arrives; the home core leaves the destructor of its pool. -/
inductive Label (cores : ℕ) where
  | enter (c : Fin cores)
  | leave (c : Fin cores)
  | wake (c : Fin cores)
  | send (i : ℕ)
  | deliver (i : ℕ)
  | finish
  deriving DecidableEq

/-- The payload of a message. -/
def payload (array : ℕ → T) (k n : ℕ) : List T := (List.range n).map fun i => array (k + i)

/-- `total[i] = ReduceOp(total[i], in_array[i])` for the elements of a payload. -/
def reduceFrom (op : T → T → T) (array : ℕ → T) (k : ℕ) (in_array : List T) : ℕ → T :=
  fun j => if k ≤ j then
    match in_array[j - k]? with
    | some x => op (array j) x
    | none => array j
  else array j

/-- `this->array[k+i] = total_k[i]` for the elements of a payload. -/
def copyFrom (array : ℕ → T) (k : ℕ) (total_k : List T) : ℕ → T :=
  fun j => if k ≤ j then (total_k[j - k]?).getD (array j) else array j

def setPhase (s : InplaceRun cfg.cores T) (c : Fin cfg.cores) (p : CallPhase) :
    InplaceRun cfg.cores T :=
  { s with phase := Function.update s.phase c p }

def setArray (s : InplaceRun cfg.cores T) (c : Fin cfg.cores) (a : ℕ → T) :
    InplaceRun cfg.cores T :=
  { s with array := Function.update s.array c a }

/-- `ce->complete()` on a core. -/
def complete (s : InplaceRun cfg.cores T) (c : Fin cfg.cores) : InplaceRun cfg.cores T :=
  { s with count := Function.update s.count c (s.count c - 1) }

/-- The payload of a message at this moment. -/
def content (s : InplaceRun cfg.cores T) : ArrayMessage cfg.cores → List T
  | .contribution core k n => payload (s.array core) k n
  | .totals _ k n => payload (s.array cfg.HOME_CORE) k n

/-- A message is handled. -/
def handle (s : InplaceRun cfg.cores T) (data : List T) :
    ArrayMessage cfg.cores → InplaceRun cfg.cores T
  | .contribution _ k _ =>
    (s.setArray cfg.HOME_CORE
      (reduceFrom cfg.ReduceOp (s.array cfg.HOME_CORE) k data)).complete cfg.HOME_CORE
  | .totals core k _ =>
    (s.setArray core (copyFrom (s.array core) k data)).complete core

/-- The call up to the barrier. -/
def enter (s : InplaceRun cfg.cores T) (c : Fin cfg.cores) : InplaceRun cfg.cores T :=
  if cfg.n_per_msg = 0 then { s with aborted := true }
  else
    let enrolled := if c = cfg.HOME_CORE then cfg.nmsg_total else cfg.nmsg
    { s.setPhase c .barrier with count := Function.update s.count c enrolled }

/-- From the barrier to the wait. -/
def leave (s : InplaceRun cfg.cores T) (c : Fin cfg.cores) : InplaceRun cfg.cores T :=
  let contributions :=
    if c = cfg.HOME_CORE then [] else cfg.pieces.map fun p => .contribution c p.1 p.2
  { s.setPhase c .waiting with queued := s.queued ++ contributions }

/-- From the wait on. -/
def wake (s : InplaceRun cfg.cores T) (c : Fin cfg.cores) : InplaceRun cfg.cores T :=
  if c = cfg.HOME_CORE then
    match cfg.poolAfter with
    | none => { s with aborted := true }
    | some _ => { s.setPhase c .sending with queued := s.queued ++ cfg.totalsMessages }
  else s.setPhase c .done

/-- The message is one of the pool. -/
def ofPool : ArrayMessage cfg.cores → Bool
  | .contribution _ _ _ => false
  | .totals _ _ _ => true

def step (s : InplaceRun cfg.cores T) : Label cfg.cores → Option (InplaceRun cfg.cores T)
  | .enter c => if s.phase c = .start then some (s.enter c) else none
  | .leave c =>
    -- the barrier opens when all cores are in it
    if s.phase c = .barrier ∧ ∀ d, s.phase d ≠ .start then some (s.leave c) else none
  | .wake c => if s.phase c = .waiting ∧ s.count c = 0 then some (s.wake c) else none
  | .send i => (s.queued[i]?).map fun m =>
      { s with queued := s.queued.eraseIdx i, sent := s.sent ++ [(m, s.content m)] }
  | .deliver i => (s.sent[i]?).map fun m =>
      handle { s with sent := s.sent.eraseIdx i } m.2 m.1
  | .finish =>
    if s.phase cfg.HOME_CORE = .sending ∧ s.queued.all fun m => !ofPool m then
      some (s.setPhase cfg.HOME_CORE .done)
    else none

/-- Nothing happens after an abort. -/
def next (s : InplaceRun cfg.cores T) (l : Label cfg.cores) : Option (InplaceRun cfg.cores T) :=
  if s.aborted then none else s.step l

def init (cfg : InplaceConfig T) : InplaceRun cfg.cores T where
  array := cfg.input
  phase := fun _ => .start
  count := fun _ => 0
  queued := []
  sent := []
  aborted := false

def system (cfg : InplaceConfig T) : Transition.System (InplaceRun cfg.cores T) (Label cfg.cores) where
  init := init cfg
  next := next

end InplaceRun

end Grappa
