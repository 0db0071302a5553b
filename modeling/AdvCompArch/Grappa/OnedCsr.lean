import AdvCompArch.Grappa.BlockDistribution
import AdvCompArch.Grappa.BucketSort
import Mathlib.Order.Lattice.Nat

/-! # The graph of the Graph500 benchmark

    `create_graph_from_edgelist`, called any number of times in one process.  A call finds the
    largest vertex, counts the degrees, adds them up to offsets, scatters the edges to the ranges of
    their two ends, and then sorts each range and removes the duplicates.

    The starts and the ends of the ranges are interleaved in `xoff`.  The static variables keep
    their values from one call to the next.  The numbers are small enough for an `int64_t`.  An array
    that is left is taken as a failed check. -/

namespace Grappa

namespace OnedCsr

open BucketSort (forall_count)

def MINVECT_SIZE : ℕ := 2

/-- Where the start of the range of a vertex is in `xoff`. -/
def XOFF (k : ℕ) : ℕ := 2 * k

def XENDOFF (k : ℕ) : ℕ := 1 + 2 * k

/-! ### State -/

/-- The edges of a call, and the cores that they are on. -/
structure Call (n : ℕ) where
  edges : List (ℕ × ℕ)
  edge_core : ℕ → Fin (n + 1)
  /-- What the memory of `prefix_temp_base` holds. -/
  memory : ℕ → ℕ

/-- The loops of a call. -/
inductive Pass
  | start
  | find_nv
  | degree
  | minvect
  | gather
  | sum
  | scan
  | xendoff
  | scatter
  | pack
  deriving DecidableEq

structure State (n : ℕ) where
  maxvtx : Fin (n + 1) → ℕ
  prefix_temp_base : Fin (n + 1) → List ℕ
  prefix_count : Fin (n + 1) → ℕ
  /-- The `local_sum` of `prefix_sum`, at the barrier. -/
  local_sum : Fin (n + 1) → ℕ
  total_sum : ℕ
  nv : ℕ
  nadj : ℕ
  xoff : List ℕ
  xadjstore : List ℤ
  /-- The call that is under way, and those to come. -/
  tg : Call n
  later : List (Call n)
  /-- A check has failed. -/
  failed : Bool
  pass : Pass

/-- The iterations of the loops, and the delegates. -/
inductive Item (n : ℕ)
  | find_nv (i : ℕ)
  | degree (i : ℕ)
  | increment (a : ℕ)
  | minvect (i : ℕ)
  | gather (index : ℕ)
  | store (block : Fin (n + 1)) (offset val : ℕ)
  | sum (c : Fin (n + 1))
  /-- On the `prefix_count` of a core. -/
  | fetch_and_add (c : Fin (n + 1)) (local_sum : ℕ)
  | scan (c : Fin (n + 1))
  | put_back (c : Fin (n + 1)) (i : ℕ)
  /-- To `xoff`. -/
  | write (a val : ℕ)
  | xendoff (v : ℕ)
  | scatter (i : ℕ)
  | scatter_edge (i j : ℕ)
  /-- To `xadj`. -/
  | write_adj (k : ℕ) (j : ℤ)
  | pack (v : ℕ)
  deriving DecidableEq

/-! ### The ranges -/

def i64cmp (a b : ℤ) : ℤ := if a < b then -1 else if a > b then 1 else 0

def qsort (buf : List ℤ) : List ℤ := buf.mergeSort fun a b => i64cmp a b ≤ 0

/-- The loop that moves each value that is new behind the ones before it, with `left` iterations to
    go; the values, and the last `kcur`. -/
def unique (cadj : List ℤ) (kcur k : ℕ) : ℕ → List ℤ × ℕ
  | 0 => (cadj, kcur)
  | left + 1 =>
    if cadj.getD k 0 ≠ cadj.getD kcur 0 then
      unique (cadj.set (kcur + 1) (cadj.getD k 0)) (kcur + 1) (k + 1) left
    else unique cadj kcur (k + 1) left

/-- What a range becomes, and how many values are left in it. -/
def pack_vtx_edges (buf : List ℤ) : List ℤ × ℕ :=
  let (cadj, kcur) := unique (qsort buf) 0 1 (buf.length - 1)
  (cadj.mapIdx fun k x => if kcur + 1 ≤ k then -1 else x, kcur + 1)

/-! ### Steps -/

variable {n : ℕ}

def State.fail (s : State n) : State n × List (Item n) := ({ s with failed := true }, [])

/-- The block of a core in a distribution of the vertices. -/
def State.block (s : State n) (c : Fin (n + 1)) : BlockRange := blockDist 0 s.nv c (n + 1)

/-- What an edge does to the `maxvtx` of its core. -/
def find_max (maxvtx : ℕ) (e : ℕ × ℕ) : ℕ :=
  if e.1 > maxvtx then e.1 else if e.2 > maxvtx then e.2 else maxvtx

def Item.exec (s : State n) : Item n → State n × List (Item n)
  | .find_nv i =>
    match s.tg.edges[i]? with
    | some e =>
      let c := s.tg.edge_core i
      ({ s with maxvtx := Function.update s.maxvtx c (find_max (s.maxvtx c) e) }, [])
    | none => s.fail
  | .degree i =>
    match s.tg.edges[i]? with
    | some (v0, v1) =>
      if v0 ≠ v1 then (s, [.increment (XOFF v0), .increment (XOFF v1)]) else (s, [])
    | none => s.fail
  | .increment a =>
    if a < s.xoff.length then ({ s with xoff := s.xoff.modify a (· + 1) }, []) else s.fail
  | .minvect i =>
    if i < s.xoff.length then
      ({ s with xoff := s.xoff.modify i fun vo => if vo < MINVECT_SIZE then MINVECT_SIZE else vo }, [])
    else s.fail
  | .gather index =>
    match BlockDistribution.exactIndexToBlock index s.nv (n + 1 : ℕ), s.xoff[XOFF index]? with
    | some b, some val =>
      if h : b.block.toNat < n + 1 then (s, [.store ⟨b.block.toNat, h⟩ b.offset.toNat val])
      else s.fail
    | _, _ => s.fail
  | .store b offset val =>
    if offset < (s.prefix_temp_base b).length then
      ({ s with
        prefix_temp_base :=
          Function.update s.prefix_temp_base b ((s.prefix_temp_base b).set offset val) }, [])
    else s.fail
  | .sum c =>
    let local_sum := (s.prefix_temp_base c).sum
    ({ s with local_sum := Function.update s.local_sum c local_sum },
      ((List.finRange (n + 1)).filter (c < ·)).map (.fetch_and_add · local_sum))
  | .fetch_and_add c local_sum =>
    ({ s with prefix_count := Function.update s.prefix_count c (s.prefix_count c + local_sum) }, [])
  | .scan c =>
    ({ s with
      prefix_temp_base := Function.update s.prefix_temp_base c
        (BucketSort.prefix_sums (s.prefix_count c) (s.prefix_temp_base c))
      total_sum :=
        if c = Fin.last n then s.prefix_count c + s.local_sum c + MINVECT_SIZE else s.total_sum },
      (List.range (forall_count ((s.block c).stop - (s.block c).start))).map (.put_back c))
  | .put_back c i =>
    match (s.prefix_temp_base c)[i]? with
    | some val => (s, [.write (XOFF ((s.block c).start + i)) val])
    | none => s.fail
  | .write a val => if a < s.xoff.length then ({ s with xoff := s.xoff.set a val }, []) else s.fail
  | .xendoff v =>
    match s.xoff[XOFF v]? with
    | some start =>
      if XENDOFF v < s.xoff.length then ({ s with xoff := s.xoff.set (XENDOFF v) start }, [])
      else s.fail
    | none => s.fail
  | .scatter i =>
    match s.tg.edges[i]? with
    | some (v0, v1) =>
      if v0 ≠ v1 then (s, [.scatter_edge v0 v1, .scatter_edge v1 v0]) else (s, [])
    | none => s.fail
  | .scatter_edge i j =>
    match s.xoff[XENDOFF i]? with
    | some k => ({ s with xoff := s.xoff.set (XENDOFF i) (k + 1) }, [.write_adj k j])
    | none => s.fail
  | .write_adj k j =>
    if MINVECT_SIZE + k < s.xadjstore.length then
      ({ s with xadjstore := s.xadjstore.set (MINVECT_SIZE + k) j }, [])
    else s.fail
  | .pack v =>
    match s.xoff[XOFF v]?, s.xoff[XENDOFF v]? with
    | some xoi, some xei =>
      if xoi + 1 ≥ xei then (s, [])
      else if MINVECT_SIZE + xei ≤ s.xadjstore.length then
        let (cadj, kcur) :=
          pack_vtx_edges ((s.xadjstore.drop (MINVECT_SIZE + xoi)).take (xei - xoi))
        (s, (cadj.mapIdx fun k j => .write_adj (xoi + k) j) ++ [.write (XENDOFF v) (xoi + kcur)])
      else s.fail
    | _, _ => s.fail

/-- `allreduce` with `collective_max`. -/
def State.allreduce_max (s : State n) : ℕ := Finset.univ.sup s.maxvtx

/-- The next call starts, if there is one. -/
def State.enter (s : State n) : Option (State n × List (Item n)) :=
  match s.later with
  | [] => none
  | tg :: later =>
    some ({ s with tg := tg, later := later, pass := .find_nv },
      (List.range (forall_count tg.edges.length)).map .find_nv)

/-- The main task between two loops. -/
def State.advance (s : State n) : Option (State n × List (Item n)) :=
  match s.pass with
  | .start => s.enter
  | .find_nv =>
    let nv := s.allreduce_max + 1
    some ({ s with
      pass := .degree
      maxvtx := fun _ => s.allreduce_max
      nv := nv
      xoff := List.replicate (2 * nv + 2) 0 },
      (List.range (forall_count s.tg.edges.length)).map .degree)
  | .degree => some ({ s with pass := .minvect }, (List.range (forall_count s.nv)).map .minvect)
  | .minvect =>
    some ({ s with
      pass := .gather
      prefix_temp_base := fun c =>
        (List.range ((s.block c).stop - (s.block c).start)).map s.tg.memory
      total_sum := 0 }, (List.range (forall_count s.nv)).map .gather)
  | .gather => some ({ s with pass := .sum }, (List.finRange (n + 1)).map .sum)
  | .sum => some ({ s with pass := .scan }, (List.finRange (n + 1)).map .scan)
  | .scan => some ({ s with pass := .xendoff }, (List.range (forall_count s.nv)).map .xendoff)
  | .xendoff =>
    some ({ s with
      pass := .scatter
      xoff := s.xoff.set (XOFF s.nv) s.total_sum
      nadj := s.total_sum + MINVECT_SIZE
      xadjstore := List.replicate (s.total_sum + MINVECT_SIZE) 0 },
      (List.range (forall_count s.tg.edges.length)).map .scatter)
  | .scatter => some ({ s with pass := .pack }, (List.range (forall_count s.nv)).map .pack)
  | .pack => s.enter

/-- The calls.  Nothing goes on after a failed check. -/
def create_graph_from_edgelist : Phased.Program (State n) (Item n) where
  exec := fun s x => if s.failed then none else some (x.exec s)
  advance := fun s => if s.failed then none else s.advance

/-- Before the first call. -/
def init (calls : List (Call n)) : State n where
  maxvtx := fun _ => 0
  prefix_temp_base := fun _ => []
  prefix_count := fun _ => 0
  local_sum := fun _ => 0
  total_sum := 0
  nv := 0
  nadj := 0
  xoff := []
  xadjstore := []
  tg := ⟨[], fun _ => ⟨0, n.succ_pos⟩, fun _ => 0⟩
  later := calls
  failed := false
  pass := .start

end OnedCsr

end Grappa
