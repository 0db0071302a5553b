import AdvCompArch.Grappa.GlobalVector
import AdvCompArch.Grappa.VectorProxy

/-! # The operations of a global vector

    One operation at a time, of any task of any core: its call of `combine` on the flat
    combiner of the core, the `sync()` of the proxy with its calls of `Master::push`,
    `Master::pop` and `Master::dequeue`, the request on the `MASTER` core, the transfer of
    the data between the buffer and the backing array, and the `ce.complete()` message.
    The next operation may be called while that message is still in flight. -/

namespace Grappa

namespace GlobalVector

open VectorProxy (VectorRequest VectorEvent Proxy Delivery proxy)

variable {V : Type}

/-- The slots of the backing array that a cached range covers, each with its place in the buffer. -/
def cache_with_wraparound (capacity start nelem : ℕ) : List (ℕ × ℕ) :=
  if start + nelem ≤ capacity then (List.range nelem).map fun i => (start + i, i)
  else
    let stop := (start + nelem) % capacity
    (List.range stop).map (fun i => (i, i)) ++
      (List.range (capacity - start)).map fun i => (start + i, stop + i)

/-- The buffer is written to the array. -/
def write_back (base buffer : ℕ → V) (range : List (ℕ × ℕ)) : ℕ → V :=
  range.foldl (fun b place => Function.update b place.1 (buffer place.2)) base

/-- The array is read into the buffer. -/
def read_in (base buffer : ℕ → V) (range : List (ℕ × ℕ)) : ℕ → V :=
  range.foldl (fun b place => Function.update b place.2 (base place.1)) buffer

/-- A push writes its buffer to the array; the others read theirs from it. -/
def base_after (base buffer : ℕ → V) (range : List (ℕ × ℕ)) : Choice → ℕ → V
  | .PUSH => write_back base buffer range
  | _ => base

def buffer_after (base buffer : ℕ → V) (range : List (ℕ × ℕ)) : Choice → ℕ → V
  | .PUSH => buffer
  | _ => read_in base buffer range

/-- What the slots of the proxy get from the buffer. -/
def delivery_after (d : Delivery V) (buffer : ℕ → V) : Choice → Delivery V
  | .PUSH => d
  | .POP => { d with popped := buffer }
  | .DEQ => { d with dequeued := buffer }

/-- The calls that `Proxy::sync` makes. -/
def master_calls (p : Proxy V) : List (Choice × ℕ) :=
  (if p.buffer ≠ [] then [(.PUSH, p.buffer.length)]
    else if p.pops ≠ [] then [(.POP, p.pops.length)]
    else []) ++
  if p.deqs ≠ [] then [(.DEQ, p.deqs.length)] else []

/-- The array `buffer` of a proxy; `fresh` is what it held before. -/
def buffer_of (fresh : ℕ → V) (p : Proxy V) (i : ℕ) : V :=
  match p.buffer.reverse[i]? with
  | some x => x.2
  | none => fresh i

/-- The value in the result slot of a call. -/
def slot_value (outs : List (VectorEvent V)) (call : ℕ) : Option V :=
  outs.findSome? fun
    | .handed _ c v => if c = call then some v else none
    | .received c v => if c = call then some v else none
    | _ => none

/-- The flags, and the sizes of the vector. -/
structure Config (V : Type) where
  capacity : ℕ
  /-- A linear address has 63 bits. -/
  capacity_lt : capacity < 2 ^ 63
  BUFFER_CAPACITY : ℕ+
  flat_combining : Bool
  flat_combining_local_only : Bool
  /-- What a buffer holds before anything is written to it. -/
  fresh : ℕ → V

/-- How far a call of `Master::push`, `pop` or `dequeue` has come. -/
inductive Stage where
  | sending
  | queued
  | granted (slot : ℕ)
  deriving DecidableEq

/-- An operation that was called. -/
structure Running (V : Type) where
  core : ℕ
  task : Worker
  request : VectorRequest V
  /-- The calls on the master that are left; the first is under way. -/
  calls : List (Choice × ℕ)
  stage : Stage
  buffer : ℕ → V
  delivery : Delivery V

structure VectorRun (V : Type) where
  master : Master
  stack : List Frame
  /-- The backing array. -/
  base : ℕ → V
  proxies : ℕ → FlatCombiner (Proxy V) (VectorRequest V) (VectorEvent V)
  running : Option (Running V)
  /-- The number of `ce.complete()` messages in flight. -/
  completions : ℕ
  /-- The operations that returned, with what they returned; the last first. -/
  history : List (VectorRequest V × Option V)

namespace VectorRun

variable (cfg : Config V) (s : VectorRun V)

/-- An operation is called, its request arrives, what runs on the master runs on, the data of the
    operation is transferred, or a `ce.complete()` message is handled. -/
inductive Label (V : Type) where
  | call (core : ℕ) (t : Worker) (r : VectorRequest V)
  | request
  | run
  | transfer
  | complete
  deriving DecidableEq

/-- An operation up to its first call on the master: `combine`, or without flat combining the
    call itself. -/
def call (core : ℕ) (t : Worker) (r : VectorRequest V) : Option (VectorRun V) :=
  if cfg.flat_combining then
    ((s.proxies core).next (proxy V cfg.BUFFER_CAPACITY) (.combine t r)).bind fun fc =>
      match fc.tasks t with
      | .syncing f _ =>
        let p := (fc.flushers f).id
        some { s with
          proxies := Function.update s.proxies core fc
          running := some ⟨core, t, r, master_calls p, .sending, buffer_of cfg.fresh p,
            ⟨cfg.fresh, cfg.fresh⟩⟩ }
      | _ => none
  else
    let (c, buffer) := match r with
      | .push e => (Choice.PUSH, fun _ => e)
      | .pop => (Choice.POP, cfg.fresh)
      | .dequeue => (Choice.DEQ, cfg.fresh)
    some { s with
      running := some ⟨core, t, r, [(c, 1)], .sending, buffer, ⟨cfg.fresh, cfg.fresh⟩⟩ }

/-- The end of an operation: the rest of the flush, and the result. -/
def finish (o : Running V) : Option (VectorRun V) :=
  if cfg.flat_combining then
    match (s.proxies o.core).tasks o.task with
    | .syncing _ call =>
      ((s.proxies o.core).next (proxy V cfg.BUFFER_CAPACITY) (.sync_done o.task o.delivery)).map
        fun fc =>
          { s with
            proxies := Function.update s.proxies o.core fc
            running := none
            history := (o.request, slot_value fc.history.outs call) :: s.history }
    | _ => none
  else
    let result := match o.request with
      | .push _ => none
      | _ => some (o.buffer 0)
    some { s with running := none, history := (o.request, result) :: s.history }

/-- The data of a granted call is transferred, and the `ce.complete()` message is sent. -/
def transfer (o : Running V) (c : Choice) (n slot : ℕ) (calls : List (Choice × ℕ)) :
    Option (VectorRun V) :=
  let range := cache_with_wraparound cfg.capacity slot n
  let buffer := buffer_after s.base o.buffer range c
  let delivery := delivery_after o.delivery buffer c
  let base := base_after s.base o.buffer range c
  let o := { o with calls := calls, stage := .sending, buffer := buffer, delivery := delivery }
  let s := { s with base := base, completions := s.completions + 1, running := some o }
  if calls = [] then s.finish cfg o else some s

def next : Label V → Option (VectorRun V)
  | .call core t r =>
    match s.running with
    | none => s.call cfg core t r
    | some _ => none
  | .request =>
    match s.running with
    | some ⟨core, t, r, (c, n) :: calls, .sending, buffer, delivery⟩ =>
      if s.stack = [] then
        let m := s.master.request c ⟨s.history.length, n⟩
        some { s with
          master := m.1
          stack := m.2
          running := some ⟨core, t, r, (c, n) :: calls, .queued, buffer, delivery⟩ }
      else none
    | _ => none
  | .run =>
    match s.stack with
    | f :: stack =>
      let r := s.master.step cfg.capacity cfg.flat_combining_local_only f
      some { s with
        master := r.1
        stack := r.2.1 ++ stack
        running := match r.2.2 with
          | some g => s.running.map fun o => { o with stage := .granted g.slot }
          | none => s.running }
    | [] => none
  | .transfer =>
    match s.running with
    | some o =>
      match o.stage, o.calls with
      | .granted slot, (c, n) :: calls =>
        -- `CHECK_LT(start, capacity)`
        if slot < cfg.capacity then s.transfer cfg o c n slot calls else none
      | _, _ => none
    | none => none
  | .complete =>
    if s.stack = [] ∧ 0 < s.completions then
      let m := s.master.complete
      some { s with master := m.1, stack := m.2, completions := s.completions - 1 }
    else none

/-- A vector in which nothing is under way: its positions, and what the array holds. -/
def init (head tail : ℕ) (base : ℕ → V) : VectorRun V where
  master := { Master.clear with head := head, tail := tail, tail_allocator := tail }
  stack := []
  base := base
  proxies := fun _ => .new (proxy V cfg.BUFFER_CAPACITY) ⟨[], [], []⟩
  running := none
  completions := 0
  history := []

def system (head tail : ℕ) (base : ℕ → V) : Transition.System (VectorRun V) (Label V) :=
  ⟨init cfg head tail base, fun s l => s.next cfg l⟩

end VectorRun

end GlobalVector

end Grappa
