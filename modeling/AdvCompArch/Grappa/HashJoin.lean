import AdvCompArch.Lib.Equijoin
import AdvCompArch.Lib.Phased
import Mathlib.Data.Fin.Basic

/-! # Hash join

    `HashJoinContext` of the join application.  The bodies of the caller's foralls send left and
    right values to the reducers by asynchronous delegates, which are enrolled in
    `default_join_left_gce` and `default_join_right_gce`; a forall waits for its own event, and
    `reduceExecute` for `default_join_reduce_gce`.  The counts of the two events, and the `CHECK`
    that can end the program when they are reset, are left out: what is said about the end of
    `reduceExecute` is said about runs that return.

    `Prompt` is what decides whether the results are those of the equijoin. -/

namespace Grappa

namespace HashJoin

open Equijoin

/-! ### The code -/

/-- The reducers and their layout, and the functions of the user. -/
structure HashJoinContext (K VL VR OutType : Type) (n : ℕ) where
  num_reducers : ℕ
  reducer_core : ℕ → Fin (n + 1)
  hash : K → ℕ
  /-- The order in which an `unordered_map` is gone through. -/
  iterate : List ((_ : K) × List VL) → List ((_ : K) × List VL)
  combine : VL → VR → OutType

structure JoinReducer (K VL VR OutType : Type) where
  groupsL : Groups K VL
  groupsR : Groups K VR
  result : List OutType

/-- A call of `emitIntermediateLeft` or `emitIntermediateRight`. -/
inductive Emission (K VL VR : Type)
  | left (key : K) (val : VL)
  | right (key : K) (val : VR)
  deriving DecidableEq

/-- The body of an iteration of a forall: the core that it runs on, and its calls. -/
structure Body (K VL VR : Type) (n : ℕ) where
  core : Fin (n + 1)
  calls : List (Emission K VL VR)
  deriving DecidableEq

inductive Phase
  | start
  | foralls
  | reduce
  | returned
  deriving DecidableEq

structure State (K VL VR OutType : Type) (n : ℕ) where
  reducers : ℕ → JoinReducer K VL VR OutType
  /-- The foralls that are still to be started. -/
  rest : List (List (Body K VL VR n))
  /-- The iterations of the current loop that are not done. -/
  active : ℕ
  phase : Phase
  /-- History: the reducers that `reduceExecute` has been through. -/
  joined : List ℕ

inductive Item (K VL VR : Type) (n : ℕ)
  | body (b : Body K VL VR n)
  /-- `reducer_append_left` or `reducer_append_right` on its way. -/
  | append (r : ℕ) (e : Emission K VL VR)
  | reduce (r : ℕ)
  /-- The main task, waiting for a forall. -/
  | main
  /-- The main task, waiting for the loop over the reducers. -/
  | reduceExecute
  deriving DecidableEq

section code

variable {K VL VR OutType : Type} {n : ℕ} [DecidableEq K] (ctx : HashJoinContext K VL VR OutType n)

def Emission.key : Emission K VL VR → K
  | .left key _ => key
  | .right key _ => key

/-- `std::hash<K>()(key) % num_reducers` -/
def HashJoinContext.index (key : K) : ℕ := ctx.hash key % ctx.num_reducers

def JoinReducer.append (r : JoinReducer K VL VR OutType) : Emission K VL VR →
    JoinReducer K VL VR OutType
  | .left key val => { r with groupsL := r.groupsL.push key val }
  | .right key val => { r with groupsR := r.groupsR.push key val }

def State.append (s : State K VL VR OutType n) (r : ℕ) (e : Emission K VL VR) :
    State K VL VR OutType n :=
  { s with reducers := Function.update s.reducers r ((s.reducers r).append e) }

/-- The calls of a body on core `c`; a delegate to the own core is called at once. -/
def emit (c : Fin (n + 1)) : List (Emission K VL VR) → State K VL VR OutType n →
    State K VL VR OutType n × List (Item K VL VR n)
  | [], s => (s, [])
  | e :: es, s =>
    let r := ctx.index e.key
    if ctx.reducer_core r = c then emit c es (s.append r e)
    else
      let others := emit c es s
      (others.1, .append r e :: others.2)

/-- What `reduceExecute` does with a reducer.  Looking up a key on the right side creates its group,
    which is empty and cleared with the others. -/
def JoinReducer.reduce (r : JoinReducer K VL VR OutType) : JoinReducer K VL VR OutType where
  groupsL := ∅
  groupsR := ∅
  result := r.result ++ (ctx.iterate r.groupsL.entries).flatMap fun e =>
    (r.groupsR.slot e.1).flatMap fun right => e.2.map fun left => ctx.combine left right

def exec (s : State K VL VR OutType n) :
    Item K VL VR n → Option (State K VL VR OutType n × List (Item K VL VR n))
  | .body b =>
    let sent := emit ctx b.core b.calls s
    some ({ sent.1 with active := s.active - 1 }, sent.2)
  | .append r e => some (s.append r e, [])
  | .reduce r =>
    some ({ s with
      reducers := Function.update s.reducers r ((s.reducers r).reduce ctx)
      active := s.active - 1
      joined := r :: s.joined }, [])
  | .main =>
    if s.active = 0 then
      match s.rest with
      | [] => some ({ s with active := ctx.num_reducers, phase := .reduce },
          (List.range ctx.num_reducers).map .reduce ++ [.reduceExecute])
      | bodies :: rest => some ({ s with rest, active := bodies.length }, bodies.map .body ++ [.main])
    else none
  | .reduceExecute => if s.active = 0 then some ({ s with phase := .returned }, []) else none

def State.advance (s : State K VL VR OutType n) :
    Option (State K VL VR OutType n × List (Item K VL VR n)) :=
  match s.phase with
  | .start => some ({ s with phase := .foralls }, [.main])
  | .foralls | .reduce | .returned => none

def join : Phased.Program (State K VL VR OutType n) (Item K VL VR n) := ⟨exec ctx, State.advance⟩

/-- After `allocateJoinReducers`, before the foralls. -/
def init (foralls : List (List (Body K VL VR n))) : State K VL VR OutType n :=
  ⟨fun _ => ⟨∅, ∅, []⟩, foralls, 0, .start, []⟩

/-- The results of all reducers together. -/
def results (s : State K VL VR OutType n) : List OutType :=
  (List.range ctx.num_reducers).flatMap fun r => (s.reducers r).result

def lefts (es : List (Emission K VL VR)) : List (K × VL) :=
  es.filterMap fun
    | .left key val => some (key, val)
    | .right _ _ => none

def rights (es : List (Emission K VL VR)) : List (K × VR) :=
  es.filterMap fun
    | .left _ _ => none
    | .right key val => some (key, val)

/-- The calls of the foralls. -/
def emissions (foralls : List (List (Body K VL VR n))) : List (Emission K VL VR) :=
  foralls.flatMap fun bodies => bodies.flatMap Body.calls

/-- Every left emission with every right emission of its key. -/
def HashJoinContext.pairs (es : List (Emission K VL VR)) : List OutType :=
  (lefts es).flatMap fun l => ((rights es).filter fun r => r.1 = l.1).map fun r => ctx.combine l.2 r.2

/-- Nothing is under way to the reducer that has a partner on the other side: neither one that it
    has, nor one under way. -/
structure Settled (s : State K VL VR OutType n) (pool : Multiset (Item K VL VR n)) (r : ℕ) :
    Prop where
  left : ∀ key val, .append r (.left key val) ∈ pool →
    (s.reducers r).groupsR.slot key = [] ∧ ∀ val', .append r (.right key val') ∉ pool
  right : ∀ key val, .append r (.right key val) ∈ pool →
    (s.reducers r).groupsL.slot key = [] ∧ ∀ val', .append r (.left key val') ∉ pool

/-- If the step takes `reduceExecute` through a reducer, that is settled. -/
def Prompt (s : Phased.State (State K VL VR OutType n) (Item K VL VR n)) : Phased.Label → Prop
  | .item k => ∀ r, s.pool[k]? = some (.reduce r) → Settled s.shared s.pool r
  | .advance => True

end code

end HashJoin

end Grappa
