import AdvCompArch.Grappa.CombinedCounter
import AdvCompArch.Lib.Phased
import AdvCompArch.Lib.TaskPool
import Mathlib.Algebra.BigOperators.Group.Finset.Basic
import Mathlib.Data.Fintype.Basic

/-! # Generation of an unbalanced tree

    A tree is given by a function that says how many children a vertex has.  It is written
    to two arrays of the global memory: `Vertex` has the number of children of a vertex and
    where they are listed, and `Child` lists their ids.  The task of a vertex takes as many
    ids from one counter, and as many places of `Child` from another, as the vertex has
    children, and then spawns a task for each child, which can be stolen by any core.

    The seed that a vertex is made from comes down to its path: the child numbers on the
    way from the root, the last first. -/

namespace Grappa

namespace TreeGeneration

open CombinedCounter

/-- What of a `uts::Node` makes the tree: the path stands for type, height and seed. -/
structure Node where
  path : List ℕ
  id : ℕ
  deriving DecidableEq

structure vertex_t where
  numChildren : ℕ
  childIndex : ℕ
  deriving DecidableEq

/-- The counters of core 0. -/
inductive Counter where
  | global_id
  | global_child_index
  deriving DecidableEq

def CREATE_THRESHOLD : ℕ := 1

/-- The input, the flags, and the core that runs a half of a loop that was spawned, its own or
    one that has stolen it.  The half is told by the id of the parent and its first child. -/
structure Config (n : ℕ) where
  uts_numChildren : List ℕ → ℕ
  flat_combine : Bool
  flat_combine_threshold : ℕ
  runs_on : ℕ → ℕ → Fin (n + 1)

structure State (n : ℕ) where
  /-- The main task has called `par_create_tree`. -/
  started : Bool
  counter : Counter → ℕ
  /-- The combiners of each core, `global_id_ga_FC` and `global_child_index_ga_FC`. -/
  combiner : Counter → Fin (n + 1) → Combiner
  Vertex : ℕ → vertex_t
  Child : ℕ → ℕ
  Tree_Nodes : ℕ → Node
  uts_num_gen_nodes : Fin (n + 1) → ℕ
  /-- The vertices that have been written to `Vertex`, the last first. -/
  stored : List Node

/-- A task, or what is left of one after it was suspended, with its core. -/
inductive Item (n : ℕ) where
  /-- `loop_decomposition` of the children of a vertex. -/
  | range (c : Fin (n + 1)) (parent_id start iterations : ℕ)
  /-- `tj_create_vertex` of one child. -/
  | vertex (c : Fin (n + 1)) (parent_id childnum : ℕ)
  /-- The same after it has read where the children are listed. -/
  | child (c : Fin (n + 1)) (parent_id childnum p_childIndex : ℕ)
  /-- `tj_create_children` in `fetch_and_add` on `global_id`. -/
  | ids (c : Fin (n + 1)) (v : Node) (st : Stage)
  /-- The same on `global_child_index`. -/
  | places (c : Fin (n + 1)) (v : Node) (childid0 : ℕ) (st : Stage)
  /-- The same with both. -/
  | store (c : Fin (n + 1)) (v : Node) (childid0 index : ℕ)
  deriving DecidableEq

variable {n : ℕ}

namespace State

variable (s : State n) (k : Counter) (c : Fin (n + 1))

def setCombiner (f : Combiner) : State n :=
  { s with combiner := Function.update s.combiner k (Function.update (s.combiner k) c f) }

def setCounter (m : ℕ) : State n := { s with counter := Function.update s.counter k m }

def promise : State n := s.setCombiner k c (s.combiner k c).promise

/-- `tj_create_vertex` and `tj_create_children` promise to both combiners. -/
def promiseBoth : State n := (s.promise .global_id c).promise .global_child_index c

variable (cfg : Config n)

/-- `fetch_and_add` of the combiner, or of `delegate`, from one suspension to the next. -/
def fetch_and_add (inc : ℕ) (st : Stage) : Option (State n × Outcome) :=
  if cfg.flat_combine then
    ((s.combiner k c).step cfg.flat_combine_threshold (c.val = 0) (s.counter k) inc st).map fun a =>
      ((s.setCombiner k c a.combiner).setCounter k a.target, a.outcome)
  else match st with
    | .call => some (s.setCounter k (s.counter k + inc), .returns (s.counter k))
    | _ => none

/-- `tj_create_children` up to its first suspension. -/
def tj_create_children (v : Node) : State n × List (Item n) :=
  let s' := { s with
    uts_num_gen_nodes := Function.update s.uts_num_gen_nodes c (s.uts_num_gen_nodes c + 1)
    Tree_Nodes := Function.update s.Tree_Nodes v.id v }
  if 0 < cfg.uts_numChildren v.path then (s'.promiseBoth c, [.ids c v .call])
  else (s', [.store c v 0 0])

/-- The vertex and the ids of its children are written and released. -/
def write (v : Node) (childid0 index : ℕ) : State n :=
  let numChildren := cfg.uts_numChildren v.path
  { s with
    Vertex := Function.update s.Vertex v.id ⟨numChildren, index⟩
    Child := fun j => if index ≤ j ∧ j < index + numChildren then childid0 + (j - index) else s.Child j
    stored := v :: s.stored }

end State

variable (cfg : Config n)

/-- With a threshold of one iteration, each child is a body of its own. -/
def loop_decomposition (c : Fin (n + 1)) (parent_id start iterations : ℕ) : List (Item n) :=
  if iterations = 0 then []
  else if iterations ≤ CREATE_THRESHOLD then [.vertex c parent_id start]
  else
    let rstart := start + (iterations + 1) / 2
    [.range (cfg.runs_on parent_id rstart) parent_id rstart (iterations / 2),
      .range c parent_id start ((iterations + 1) / 2)]

namespace Item

def exec (s : State n) : Item n → Option (State n × List (Item n))
  | range c parent_id start iterations =>
    some (s, loop_decomposition cfg c parent_id start iterations)
  | vertex c parent_id childnum =>
    some (s.promiseBoth c, [.child c parent_id childnum (s.Vertex parent_id).childIndex])
  | child c parent_id childnum p_childIndex =>
    some (s.tj_create_children c cfg
      ⟨childnum :: (s.Tree_Nodes parent_id).path, s.Child p_childIndex + childnum⟩)
  | ids c v st =>
    (s.fetch_and_add .global_id c cfg (cfg.uts_numChildren v.path) st).map fun r =>
      match r.2 with
      | .goesOn st' => (r.1, [.ids c v st'])
      | .returns childid0 => (r.1, [.places c v childid0 .call])
  | places c v childid0 st =>
    (s.fetch_and_add .global_child_index c cfg (cfg.uts_numChildren v.path) st).map fun r =>
      match r.2 with
      | .goesOn st' => (r.1, [.places c v childid0 st'])
      | .returns index => (r.1, [.store c v childid0 index])
  | store c v childid0 index =>
    some (s.write cfg v childid0 index, [.range c v.id 0 (cfg.uts_numChildren v.path)])

end Item

def root : Node := ⟨[], 0⟩

/-- The main task calls `tj_create_children` for the root and waits for `joiner`. -/
def State.advance (s : State n) : Option (State n × List (Item n)) :=
  if s.started then none
  else some ({ s.setCounter .global_id 1 with started := true }.tj_create_children
    ⟨0, Nat.succ_pos n⟩ cfg root)

def par_create_tree : Phased.Program (State n) (Item n) := ⟨Item.exec cfg, State.advance cfg⟩

/-- What the arrays hold before. -/
structure Memory where
  Vertex : ℕ → vertex_t
  Child : ℕ → ℕ
  Tree_Nodes : ℕ → Node

/-- The counters and combiners after their initialization. -/
def init (m : Memory) : State n where
  started := false
  counter := fun _ => 0
  combiner := fun _ _ => .new
  Vertex := m.Vertex
  Child := m.Child
  Tree_Nodes := m.Tree_Nodes
  uts_num_gen_nodes := fun _ => 0
  stored := []

/-! ### The search -/

inductive SearchItem where
  | search_vertex (id : ℕ)
  /-- `loop_decomposition` of a part of `Child`. -/
  | range (start iterations : ℕ)
  deriving DecidableEq

/-- `par_search_tree`: it puts out the vertices that it counts.  The body of a loop spawns the
    searches of its children, but for the last, which it makes itself. -/
def par_search_tree (FLAGS_loop_threshold : ℕ) (s : State n) : TaskPool.Program SearchItem ℕ where
  exec
    | .search_vertex id => ([id], [.range (s.Vertex id).childIndex (s.Vertex id).numChildren])
    | .range start iterations =>
      ([], if iterations = 0 then []
        else if iterations ≤ FLAGS_loop_threshold then
          (List.range' start iterations).map fun j => .search_vertex (s.Child j)
        else [.range (start + (iterations + 1) / 2) (iterations / 2),
          .range start ((iterations + 1) / 2)])

/-! ### What is to hold -/

/-- The vertices of the tree, by their paths. -/
def IsVertex (uts_numChildren : List ℕ → ℕ) : List ℕ → Prop
  | [] => True
  | i :: p => i < uts_numChildren p ∧ IsVertex uts_numChildren p

/-- Tasks are enrolled, and none of them can go on, nor is a message on its way. -/
def Deadlock (s : Phased.State (State n) (Item n)) : Prop :=
  s.pool ≠ [] ∧ ∀ x ∈ s.pool, x.exec cfg s.shared = none

namespace State

variable (s : State n)

/-- The vertices that were counted on all cores. -/
def generated : ℕ := ∑ c, s.uts_num_gen_nodes c

/-- The part of `Child` that a vertex has. -/
def segment (v : Node) : List ℕ :=
  List.range' (s.Vertex v.id).childIndex (s.Vertex v.id).numChildren

/-- The arrays hold the tree: the vertices have the ids up to their number, `Child` lists each
    but the root, and the segment of a vertex lists its own children. -/
structure HoldsTree : Prop where
  paths : (s.stored.map Node.path).Nodup ∧ ∀ p, p ∈ s.stored.map Node.path ↔ IsVertex cfg.uts_numChildren p
  ids : (s.stored.map Node.id).Perm (List.range s.generated)
  child : ((List.range (s.generated - 1)).map s.Child).Perm (List.range' 1 (s.generated - 1))
  segments : s.stored.Pairwise fun v w => List.Disjoint (s.segment v) (s.segment w)
  own : ∀ v ∈ s.stored, (s.Vertex v.id).numChildren = cfg.uts_numChildren v.path ∧
    ∀ i < cfg.uts_numChildren v.path,
      ⟨i :: v.path, s.Child ((s.Vertex v.id).childIndex + i)⟩ ∈ s.stored

/-- The search from vertex 0 ends, and then it has visited each vertex once. -/
def SearchedOnce (FLAGS_loop_threshold : ℕ) : Prop :=
  let sys := (par_search_tree FLAGS_loop_threshold s).system [.search_vertex 0]
  sys.Terminates sys.init ∧ ∀ t, sys.Reachable t → (∀ l, sys.next t l = none) →
    t.pool = [] ∧ t.log.Perm (List.range s.generated)

end State

/-- What the generation is for, in every state that its tasks lead to in any order: they are never
    left waiting for each other, and when it returns the tree is there and can be searched. -/
def Correct (cfg : Config n) : Prop :=
  ∀ m s, ((par_create_tree cfg).system (init m)).Reachable s →
    ¬Deadlock cfg s ∧
    ((par_create_tree cfg).Ended s →
      s.shared.HoldsTree cfg ∧
      ∀ FLAGS_loop_threshold, 0 < FLAGS_loop_threshold →
        s.shared.SearchedOnce FLAGS_loop_threshold)

end TreeGeneration

end Grappa
