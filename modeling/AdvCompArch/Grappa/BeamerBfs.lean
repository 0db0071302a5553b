import AdvCompArch.Grappa.AppGraph
import AdvCompArch.Grappa.GlobalCompletionEvent
import AdvCompArch.Lib.Layers
import AdvCompArch.Lib.Phased

/-! # Direction-optimizing breadth-first search

    `bfs` of `nativegraph/bfs/bfs_beamer.cpp` for one root: a loop over the levels, each of them
    top-down over the frontier or bottom-up over the vertices without a level.

    The bottom-up loop is a `forall` over the graph, which holds its completion event until every
    core has spawned its share.  The top-down loop is the one of `GlobalBag`, in which nothing is
    enrolled before a share comes to its first vertex: the event can run out while other shares have
    not started, and is then reset under them.  The model has the counts of that event, its barrier
    at the master and the resets, with their checks, and so the halves into which its loops are cut. -/

namespace Grappa

namespace BeamerBfs

/-- `BFSData`, as far as the search uses it. -/
structure VertexData where
  parent : ℤ
  level : ℤ
  deriving DecidableEq

/-- Where the main task is. -/
inductive Phase
  | start
  | test
  | top_down
  | bottom_up
  deriving DecidableEq

structure State (nv n : ℕ) where
  vertex : Fin nv → VertexData
  current_depth : ℤ
  /-- The storage of the bags on each core. -/
  frontier : Fin (n + 1) → List (Fin nv)
  next : Fin (n + 1) → List (Fin nv)
  /-- `local_gce`: its count on each core, and what the master knows. -/
  count : Fin (n + 1) → ℤ
  cores_out : ℤ
  temporary_waking_cores_out : ℕ
  /-- A `CHECK` has failed. -/
  aborted : Bool
  /-- The levels that are done. -/
  levels : ℕ
  phase : Phase

/-- The tasks and messages of a level. -/
inductive Item (nv n : ℕ) (E : Type)
  /-- The share of a core in the loop over the frontier, or a half that was spawned. -/
  | share (c : Fin (n + 1)) (spawned : Bool) (todo : List (Fin nv))
  /-- The same in the call with which its first enrollment cancels the barrier. -/
  | cancel (c : Fin (n + 1)) (spawned : Bool) (i : Fin nv) (todo : List (Fin nv))
  /-- The loop over the edges of a vertex of the frontier, or a half of it. -/
  | visit (c : Fin (n + 1)) (i : Fin nv) (edges : List (Fin nv × E))
  /-- The delegate to a vertex of another core. -/
  | claim (c : Fin (n + 1)) (i j : Fin nv)
  | completion (c : Fin (n + 1))
  /-- A core has no more work, and enters the barrier. -/
  | enter
  | reset (c : Fin (n + 1))
  /-- A vertex of the bottom-up loop, one of its edges, and the messages there and back. -/
  | search (v : Fin nv)
  | search_edge (v u : Fin nv)
  | probe (v u : Fin nv)
  | found (v u : Fin nv)

variable {E : Type} (g : AppGraph E) (n : ℕ)

/-- The core of a vertex, from that of the first one on. -/
def vertex_core (first : Fin (n + 1)) (v : g.V) : Fin (n + 1) :=
  ⟨(first + v) % (n + 1), Nat.mod_lt _ n.succ_pos⟩

/-- `l_capacity` of a bag that is created for all the vertices. -/
def capacity : ℕ := g.nv / (n + 1) + g.nv % (n + 1)

variable {g n}

section

variable (first : Fin (n + 1)) (loop_threshold : ℕ)

/-- `next->add(v)` with its check, and what the vertex is given. -/
def State.discover (s : State g.nv n) (parent v : g.V) : State g.nv n :=
  let c := vertex_core g n first v
  if (s.next c).length < capacity g n then
    { s with
      next := Function.update s.next c (s.next c ++ [v])
      vertex := Function.update s.vertex v { parent := parent.val, level := s.current_depth } }
  else { s with aborted := true }

/-- The delegate of the top-down loop. -/
def State.claim (s : State g.nv n) (i j : g.V) : State g.nv n :=
  if (s.vertex j).parent = -1 then s.discover first i j else s

def State.enroll (s : State g.nv n) (c : Fin (n + 1)) : State g.nv n :=
  { s with count := Function.update s.count c (s.count c + 1) }

/-- `complete`: a core that has no more work says so to the master. -/
def State.complete (s : State g.nv n) (c : Fin (n + 1)) : State g.nv n × List (Item g.nv n E) :=
  ({ s with count := Function.update s.count c (s.count c - 1) }, if s.count c = 1 then [.enter] else [])

/-- `loop_decomposition` of a share after an enrollment, which is that of a half or of a vertex. -/
def loop_decomposition (c : Fin (n + 1)) (spawned : Bool) (i : g.V) (todo : List g.V) :
    List (Item g.nv n E) :=
  let l := i :: todo
  if loop_threshold < l.length then
    [.share c true (l.drop ((l.length + 1) / 2)), .share c spawned (l.take ((l.length + 1) / 2))]
  else [.visit c i (g.adj i), .share c spawned todo]

def Item.exec (s : State g.nv n) : Item g.nv n E → Option (State g.nv n × List (Item g.nv n E))
  | .share c spawned [] => some (if spawned then s.complete c else (s, []))
  | .share c spawned (i :: todo) =>
    some (s.enroll c,
      if s.count c = 0 then [.cancel c spawned i todo]
      else loop_decomposition loop_threshold c spawned i todo)
  | .cancel c spawned i todo =>
    some ({ s with cores_out := s.cores_out + 1 }, loop_decomposition loop_threshold c spawned i todo)
  | .visit c i edges =>
    if loop_threshold < edges.length then
      some (s.enroll c, [.visit c i (edges.drop ((edges.length + 1) / 2)),
        .visit c i (edges.take ((edges.length + 1) / 2))])
    else match edges with
      | e :: edges =>
        if vertex_core g n first e.1 = c then some (s.claim first i e.1, [.visit c i edges])
        else some (s.enroll c, [.claim c i e.1, .visit c i edges])
      | [] => some (s.complete c)
  | .claim c i j => some (s.claim first i j, [.completion c])
  | .completion c => some (s.complete c)
  | .enter =>
    if s.cores_out = 1 then
      if s.count master_core = 0 then
        some ({ s with cores_out := 0, temporary_waking_cores_out := n + 1 },
          (List.finRange (n + 1)).map .reset)
      else some ({ s with aborted := true }, [])
    else some ({ s with cores_out := s.cores_out - 1 }, [])
  | .reset c =>
    if s.count c = 0 then
      some ({ s with
        cores_out := if c = master_core then 0 else s.cores_out
        temporary_waking_cores_out := s.temporary_waking_cores_out - 1 }, [])
    else some ({ s with aborted := true }, [])
  | .search v =>
    some (s, if (s.vertex v).level = -1 then (g.adj v).map fun e => .search_edge v e.1 else [])
  | .search_edge v u => some (s, if (s.vertex v).level = -1 then [.probe v u] else [])
  | .probe v u =>
    some (s, if (s.vertex u).level ≠ -1 ∧ (s.vertex u).level < s.current_depth then [.found v u] else [])
  | .found v u => some (if (s.vertex v).level = -1 then s.discover first u v else s, [])

/-- The main task between the loops; `directions` says which levels are top-down. -/
def State.advance (directions : ℕ → Bool) (root : g.V) (s : State g.nv n) :
    Option (State g.nv n × List (Item g.nv n E)) :=
  match s.phase with
  | .start =>
    let initialized : g.V → VertexData :=
      fun v => if g.valid v then { parent := -1, level := -1 } else s.vertex v
    some ({ s with
      vertex := Function.update initialized root { parent := root.val, level := 0 }
      next := fun _ => []
      frontier := fun c => if c = vertex_core g n first root then [root] else []
      levels := 0
      phase := .test }, [])
  | .test =>
    if ∀ c, s.frontier c = [] then none
    else if s.levels = 0 ∨ directions s.levels = true then
      some ({ s with phase := .top_down },
        (List.finRange (n + 1)).map fun c => .share c false (s.frontier c))
    else some ({ s with phase := .bottom_up }, g.visited.map .search)
  | .top_down | .bottom_up =>
    some ({ s with
      current_depth := s.current_depth + 1
      frontier := s.next
      next := fun _ => []
      levels := s.levels + 1
      phase := .test }, [])

/-- The search from a root. -/
def bfs (directions : ℕ → Bool) (root : g.V) : Phased.Program (State g.nv n) (Item g.nv n E) where
  exec := fun s x => if s.aborted then none else x.exec first loop_threshold s
  advance := fun s => if s.aborted then none else s.advance first directions root

end

/-- The event of the top-down loop is not taken as complete while a core is enrolled, and no share
    enrolls while it is being reset. -/
def Held (s : State g.nv n) : Item g.nv n E → Prop
  | .share _ _ (_ :: _) => s.temporary_waking_cores_out = 0
  | .enter => s.cores_out = 1 → ∀ c, s.count c = 0
  | _ => True

instance (s : State g.nv n) : ∀ x : Item g.nv n E, Decidable (Held s x)
  | .share _ _ (_ :: _) => inferInstanceAs (Decidable (s.temporary_waking_cores_out = 0))
  | .enter => inferInstanceAs (Decidable (s.cores_out = 1 → ∀ c, s.count c = 0))
  | .share _ _ [] | .cancel _ _ _ _ | .visit _ _ _ | .claim _ _ _ | .completion _ | .reset _ | .search _
  | .search_edge _ _ | .probe _ _ | .found _ _ => inferInstanceAs (Decidable True)

end BeamerBfs

end Grappa
