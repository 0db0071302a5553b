import AdvCompArch.Lib.Transition
import Mathlib.Algebra.Group.Int.Defs
import Mathlib.Algebra.Group.Nat.Defs

/-! # The master of a global vector

    Pushes, pops and dequeues of all cores are requests that the `MASTER` core queues and
    grants, each with a place in the backing array.  `master_combine` grants what is queued
    in two phases, with a continuation after each, that it registers with a
    `CompletionEvent` of the requests whose data is still under way.

    A continuation that is invoked may register the next one, or start `master_combine`
    again, while `broadcast` goes on with the waiters it finds.  So what runs on the master
    is a stack of calls (`Frame`), and a step runs the topmost of them up to its next call
    or loop iteration.  No message is handled in between. -/

namespace Grappa

namespace GlobalVector

inductive Choice where
  | POP
  | DEQ
  | PUSH
  deriving DecidableEq

/-- The continuations of `master_combine`: after pushes and dequeues, after pops, and the one of
    `FLAGS_flat_combining_local_only`. -/
inductive Continuation where
  | after_pushes
  | after_pops
  | woken (c : Choice)
  deriving DecidableEq

/-- A queued request for `n` elements; `id` names it. -/
structure Request where
  id : ℕ
  n : ℕ
  deriving DecidableEq

/-- The answer to a request: its data is at `slot`. -/
structure Grant where
  choice : Choice
  id : ℕ
  n : ℕ
  slot : ℕ
  deriving DecidableEq

structure Master where
  head : ℕ
  head_allocator : ℕ
  tail : ℕ
  tail_allocator : ℕ
  size : ℕ
  combining : Bool
  /-- `ce.count`. -/
  count : ℕ
  /-- `ce.cv`, the last waiter first. -/
  waiters : List Continuation
  push_q : List Request
  pop_q : List Request
  deq_q : List Request
  deriving DecidableEq

/-- What runs on the master: the parts of `master_combine`, and the calls they make. -/
inductive Frame where
  | master_combine
  | pushes
  | deqs
  | pops
  | wait (c : Continuation)
  | invoke (c : Continuation)
  | broadcast
  deriving DecidableEq

/-- `incr_with_wrap`: `val` is a `long`, which is compared with `capacity` as a `size_t`. -/
def incr_with_wrap (capacity i : ℕ) (incr : ℤ) : ℕ :=
  let val := Int.bmod (i + incr) (2 ^ 64)
  let u := (val % 2 ^ 64).toNat
  if capacity ≤ u then u % capacity
  else if val < 0 then (u + capacity) % 2 ^ 64
  else u

namespace Master

/-- `Master()`. -/
def clear : Master := ⟨0, 0, 0, 0, 0, false, 0, [], [], [], []⟩

variable (capacity : ℕ) (m : Master)

def has_requests : Bool := !m.push_q.isEmpty || !m.pop_q.isEmpty || !m.deq_q.isEmpty

/-- The request of `Master::push`. -/
def push (r : Request) : Master × Grant :=
  ({ m with
      tail_allocator := incr_with_wrap capacity m.tail_allocator r.n
      size := (m.size + r.n) % 2 ^ 64 },
    ⟨.PUSH, r.id, r.n, m.tail_allocator⟩)

/-- The request of `Master::pop`. -/
def pop (r : Request) : Master × Grant :=
  let tail := incr_with_wrap capacity m.tail (0 - r.n)
  ({ m with tail := tail, size := ((m.size - r.n : ℤ) % 2 ^ 64).toNat },
    ⟨.POP, r.id, r.n, tail⟩)

/-- The request of `Master::dequeue`. -/
def dequeue (r : Request) : Master × Grant :=
  let head := incr_with_wrap capacity m.head r.n
  ({ m with head := head, size := ((m.size - r.n : ℤ) % 2 ^ 64).toNat },
    ⟨.DEQ, r.id, r.n, head⟩)

/-- `ce.enroll()`. -/
def enroll : Master := { m with count := m.count + 1 }

/-- `ce.enroll(); invoke(push_q.pop())`, if there is one. -/
def grant_push : Option (Master × Grant) :=
  match m.push_q with
  | r :: q => some ({ m with push_q := q }.enroll.push capacity r)
  | [] => none

def grant_deq : Option (Master × Grant) :=
  match m.deq_q with
  | r :: q => some ({ m with deq_q := q }.enroll.dequeue capacity r)
  | [] => none

def grant_pop : Option (Master × Grant) :=
  match m.pop_q with
  | r :: q => some ({ m with pop_q := q }.enroll.pop capacity r)
  | [] => none

/-- With `FLAGS_flat_combining_local_only`, one request at a time. -/
def grant_one : Option (Master × Grant) :=
  (m.grant_push capacity).or ((m.grant_pop capacity).or (m.grant_deq capacity))

/-- The end of a round: find a new combiner. -/
def again : Master × List Frame :=
  if m.has_requests then (m, [.master_combine]) else ({ m with combining := false }, [])

/-- Run the topmost call up to its next call or iteration: the master afterwards, what is to be run
    instead, and the request that was granted. -/
def step (local_only : Bool) : Frame → Master × List Frame × Option Grant
  | .master_combine =>
    let m := { m with combining := true }
    if local_only then
      match m.grant_one capacity with
      | some (m, g) => (m, [.wait (.woken g.choice)], some g)
      | none => (m, [], none)
    else (m, [.pushes], none)
  | .pushes =>
    match m.grant_push capacity with
    | some (m, g) => (m, [.pushes], some g)
    | none => (m, [.deqs], none)
  | .deqs =>
    match m.grant_deq capacity with
    | some (m, g) => (m, [.deqs], some g)
    | none => (m, [.wait .after_pushes], none)
  | .pops =>
    match m.grant_pop capacity with
    | some (m, g) => (m, [.pops], some g)
    | none => (m, [.wait .after_pops], none)
  | .wait c =>
    if 0 < m.count then ({ m with waiters := c :: m.waiters }, [], none)
    else (m, [.invoke c], none)
  | .invoke .after_pushes =>
    ({ m with tail := m.tail_allocator, head := m.head_allocator }, [.pops], none)
  | .invoke .after_pops =>
    let r := { m with tail_allocator := m.tail }.again
    (r.1, r.2, none)
  | .invoke (.woken c) =>
    let m := match c with
      | .PUSH => { m with tail := m.tail_allocator }
      | .POP => { m with tail_allocator := m.tail }
      | .DEQ => { m with head := m.head_allocator }
    let r := m.again
    (r.1, r.2, none)
  | .broadcast =>
    match m.waiters with
    | c :: ws => ({ m with waiters := ws }, [.invoke c, .broadcast], none)
    | [] => (m, [], none)

/-- A request arrives: it is queued, and tries to become the combiner. -/
def request (c : Choice) (r : Request) : Master × List Frame :=
  let m := match c with
    | .PUSH => { m with push_q := m.push_q ++ [r] }
    | .POP => { m with pop_q := m.pop_q ++ [r] }
    | .DEQ => { m with deq_q := m.deq_q ++ [r] }
  (m, if m.combining then [] else [.master_combine])

/-- `ce.complete()`. -/
def complete : Master × List Frame :=
  let m := { m with count := m.count - 1 }
  (m, if m.count = 0 then [.broadcast] else [])

/-- How many requests are queued. -/
def queued : ℕ := m.push_q.length + m.pop_q.length + m.deq_q.length

variable {m} in
theorem queued_eq_zero : m.queued = 0 ↔ m.push_q = [] ∧ m.pop_q = [] ∧ m.deq_q = [] := by
  simp only [queued, Nat.add_eq_zero_iff, List.length_eq_zero_iff, and_assoc]

end Master

end GlobalVector

end Grappa
