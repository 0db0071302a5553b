import AdvCompArch.Lib.Groups
import AdvCompArch.Lib.Phased
import Mathlib.Data.Fintype.Basic

/-! # MapReduce

    `CombiningMapReduceJobExecute` and `MapReduceJobExecute` of the join application.  The combiners
    send their values to the reducers by delegates that are enrolled in `default_mr_gce`, for which
    `combineExecute` does not wait: its `on_all_cores` waits for the loops over the combiners alone.

    A `wait` for the event is taken to wait for all that is enrolled.  Its `CHECK_EQ(count, 0)`,
    which ends the program where a reset meets a core that has enrolled again, is left out: a run
    that it ends is the beginning of one here that never has `Ended`.  The functions of the user
    are pure, and emit lists. -/

namespace Grappa

namespace MapReduce

/-! ### Jobs -/

/-- The input, the layout over the cores, and the functions of the user. -/
structure Job (T K V OutType : Type) (n : ℕ) where
  keyvals : List T
  keyval_core : ℕ → Fin (n + 1)
  num_reducers : ℕ
  reducer_core : ℕ → Fin (n + 1)
  hash : K → ℕ
  /-- The order in which an `unordered_map` is gone through. -/
  iterate : List ((_ : K) × List V) → List ((_ : K) × List V)
  mf : T → List (K × V)
  cf : K → List V → List (K × V)
  rf : K → List V → List OutType

/-- `std::hash<K>()(key) % num_reducers` -/
def Job.index {T K V OutType : Type} {n : ℕ} (job : Job T K V OutType n) (key : K) : ℕ :=
  job.hash key % job.num_reducers

/-- A `Reducer`. -/
structure Reducer (K V OutType : Type) where
  groups : Groups K V
  result : List OutType

inductive Phase
  | start
  | clear_reducers
  | clear_combiners
  | map
  /-- `combineExecute`, and `reduceExecute` after it. -/
  | combine
  | reduce
  deriving DecidableEq

structure State (K V OutType : Type) (n : ℕ) where
  reducers : ℕ → Reducer K V OutType
  combiners : Fin (n + 1) → Groups K V
  /-- The cores on which the loop of `combineExecute` is not done. -/
  combining : ℕ
  phase : Phase
  /-- History: the calls of `emitCombinedIntermediate`. -/
  emitted : List (K × V)

/-- The iterations of the loops, the main task in `combineExecute`, and the delegates. -/
inductive Item (K V : Type) (n : ℕ)
  | clear_reducer (r : ℕ)
  | clear_combiner (c : Fin (n + 1))
  | map (i : ℕ)
  | combine (c : Fin (n + 1))
  /-- The loop of a core, at the keys that are left. -/
  | combine_keys (c : Fin (n + 1)) (keys : List K)
  /-- The main task, waiting for the loops. -/
  | reduceExecute
  | reduce (r : ℕ)
  | reducer_append (r : ℕ) (key : K) (val : V)
  deriving DecidableEq

/-! ### Steps -/

variable {T K V OutType : Type} {n : ℕ} [DecidableEq K] (job : Job T K V OutType n)

def State.append (s : State K V OutType n) (r : ℕ) (key : K) (val : V) : State K V OutType n :=
  { s with
    reducers := Function.update s.reducers r
      { s.reducers r with groups := (s.reducers r).groups.push key val } }

/-- A delegate to the own core is called at once. -/
def reducer_append (c : Fin (n + 1)) (r : ℕ) (key : K) (val : V) (s : State K V OutType n) :
    State K V OutType n × List (Item K V n) :=
  if job.reducer_core r = c then (s.append r key val, []) else (s, [.reducer_append r key val])

/-- Of a `MapperContext`. -/
def emitIntermediate (c : Fin (n + 1)) : List (K × V) → State K V OutType n →
    State K V OutType n × List (Item K V n)
  | [], s => (s, [])
  | (key, val) :: rest, s =>
    let sent := reducer_append job c (job.index key) key val s
    let others := emitIntermediate c rest sent.1
    (others.1, sent.2 ++ others.2)

/-- Of a `CombiningMapperContext`: to the combiner of the own core. -/
def combiner_append (c : Fin (n + 1)) (s : State K V OutType n) (e : K × V) : State K V OutType n :=
  { s with combiners := Function.update s.combiners c ((s.combiners c).push e.1 e.2) }

def emitCombinedIntermediate (c : Fin (n + 1)) (es : List (K × V)) (s : State K V OutType n) :
    State K V OutType n × List (Item K V n) :=
  let sent := emitIntermediate job c es s
  ({ sent.1 with emitted := s.emitted ++ es }, sent.2)

def combineDoneWithKey (c : Fin (n + 1)) (key : K) (s : State K V OutType n) : State K V OutType n :=
  { s with combiners := Function.update s.combiners c ((s.combiners c).clear key) }

/-- With which keys and values the reduce function is called. -/
def State.calls (s : State K V OutType n) (r : ℕ) : List ((_ : K) × List V) :=
  job.iterate (s.reducers r).groups.entries

/-- The iterations of the loops that both jobs have. -/
def exec (mapped : ℕ → State K V OutType n → State K V OutType n × List (Item K V n))
    (s : State K V OutType n) : Item K V n → Option (State K V OutType n × List (Item K V n))
  | .clear_reducer r => some ({ s with reducers := Function.update s.reducers r ⟨∅, []⟩ }, [])
  | .clear_combiner c => some ({ s with combiners := Function.update s.combiners c ∅ }, [])
  | .map i => some (mapped i s)
  | .combine c =>
    some (s, [.combine_keys c ((job.iterate (s.combiners c).entries).map Sigma.fst)])
  | .combine_keys _ [] => some ({ s with combining := s.combining - 1 }, [])
  | .combine_keys c (key :: keys) =>
    let sent := emitCombinedIntermediate job c (job.cf key ((s.combiners c).slot key)) s
    some (combineDoneWithKey c key sent.1, sent.2 ++ [.combine_keys c keys])
  | .reduceExecute =>
    if s.combining = 0 then some (s, (List.range job.num_reducers).map .reduce) else none
  | .reduce r =>
    let result := (s.reducers r).result ++ (s.calls job r).flatMap fun e => job.rf e.1 e.2
    some ({ s with reducers := Function.update s.reducers r ⟨∅, result⟩ }, [])
  | .reducer_append r key val => some (s.append r key val, [])

/-- The map function on an element, with a `MapperContext`. -/
def map_to_reducers (i : ℕ) (s : State K V OutType n) : State K V OutType n × List (Item K V n) :=
  emitIntermediate job (job.keyval_core i) ((job.keyvals[i]?.map job.mf).getD []) s

/-- The same with a `CombiningMapperContext`. -/
def map_to_combiners (i : ℕ) (s : State K V OutType n) : State K V OutType n × List (Item K V n) :=
  (((job.keyvals[i]?.map job.mf).getD []).foldl (combiner_append (job.keyval_core i)) s, [])

/-- `CombiningMapReduceJobExecute` between two loops. -/
def State.advance_combining (s : State K V OutType n) :
    Option (State K V OutType n × List (Item K V n)) :=
  match s.phase with
  | .start => some ({ s with phase := .clear_reducers }, (List.range job.num_reducers).map .clear_reducer)
  | .clear_reducers =>
    some ({ s with phase := .clear_combiners }, (List.finRange (n + 1)).map .clear_combiner)
  | .clear_combiners =>
    some ({ s with phase := .map }, (List.range job.keyvals.length).map .map)
  | .map =>
    some ({ s with phase := .combine, combining := n + 1 },
      (List.finRange (n + 1)).map .combine ++ [.reduceExecute])
  | .combine | .reduce => none

/-- `MapReduceJobExecute` between two loops. -/
def State.advance (s : State K V OutType n) : Option (State K V OutType n × List (Item K V n)) :=
  match s.phase with
  | .start => some ({ s with phase := .clear_reducers }, (List.range job.num_reducers).map .clear_reducer)
  | .clear_reducers => some ({ s with phase := .map }, (List.range job.keyvals.length).map .map)
  | .map => some ({ s with phase := .reduce }, (List.range job.num_reducers).map .reduce)
  | .clear_combiners | .combine | .reduce => none

def CombiningMapReduceJobExecute : Phased.Program (State K V OutType n) (Item K V n) where
  exec := exec job (map_to_combiners job)
  advance := State.advance_combining job

def MapReduceJobExecute : Phased.Program (State K V OutType n) (Item K V n) where
  exec := exec job (map_to_reducers job)
  advance := State.advance job

/-- Before a job: reducers and combiners may be left from a previous one. -/
def init (reducers : ℕ → Reducer K V OutType) (combiners : Fin (n + 1) → Groups K V) :
    State K V OutType n :=
  ⟨reducers, combiners, 0, .start, []⟩

end MapReduce

end Grappa
