import AdvCompArch.Lib.Phased
import Mathlib.Data.List.FinRange
import Mathlib.Order.WellFounded

/-! # The split-vertex GraphLab engine

    The edges are cut into parts, one for each core.  A vertex has a mirror on every core that
    stores one of its edges, and one of all its copies is the master.  `run_sync` gathers into the
    caches of the mirrors, sends these to the masters, applies there, copies the result to the
    mirrors, and scatters between the mirrors of a core; what has arrived at a mirror is then sent
    to its master again.  Each of these is a `forall` with asynchronous delegates.

    `SingleCopy.after` is the loop over a single copy of each vertex that the engine is to be
    like. -/

namespace Grappa

open List

namespace SplitEngine

variable {VertexID V E S G : Type}

structure Edge (VertexID E : Type) where
  src : VertexID
  dst : VertexID
  data : E
  deriving DecidableEq

/-- The program object of a vertex: the user's part of it, and the `cache`. -/
structure Prog (S G : Type) where
  state : S
  cache : G
  deriving DecidableEq

namespace Prog

variable [AddCommMonoid G]

def post_delta (p : Prog S G) (delta : G) : Prog S G := { p with cache := p.cache + delta }

def reset (p : Prog S G) : Prog S G := { p with cache := 0 }

end Prog

/-- A `GraphlabVertexProgram`.  The constant parts of a vertex, its id and degrees, come with the
    id. -/
structure Program (VertexID V E S G : Type) where
  construct : VertexID → V → S
  /-- From the program object, the vertex, the edge, and the data of its source. -/
  gather : S → VertexID → V → Edge VertexID E → V → G
  apply : Prog S G → VertexID → V → Prog S G × V
  scatter_edges : Prog S G → VertexID → V → Bool
  /-- From the program object, the edge, and the data of its ends: the delta, and whether
      `activate` was called on the target. -/
  scatter : S → Edge VertexID E → V → V → G × Bool

/-- A delta other than `Gather()` goes to a vertex that was activated. -/
def Program.Activates [Zero G] (prog : Program VertexID V E S G) : Prop :=
  ∀ p e source target, (prog.scatter p e source target).1 ≠ 0 →
    (prog.scatter p e source target).2 = true

/-- A vertex-cut graph on `n` cores. -/
structure Graph (VertexID E : Type) (n : ℕ) where
  l_edges : Fin n → List (Edge VertexID E)
  l_verts : Fin n → List VertexID
  l_master_verts : Fin n → List VertexID
  /-- `master_info->mirror_verts`: the cores of the mirrors. -/
  mirror_verts : VertexID → List (Fin n)
  nodup_verts : ∀ c, (l_verts c).Nodup
  mem_verts : ∀ c v, v ∈ l_verts c ↔ ∃ e ∈ l_edges c, e.src = v ∨ e.dst = v
  nodup_masters : ((finRange n).flatMap l_master_verts).Nodup
  mem_masters : ∀ v, v ∈ (finRange n).flatMap l_master_verts ↔ ∃ c, v ∈ l_verts c
  mem_mirrors : ∀ v c, c ∈ mirror_verts v ↔ v ∈ l_verts c
  nodup_mirrors : ∀ v, (mirror_verts v).Nodup

namespace Graph

variable {n : ℕ} (g : Graph VertexID E n)

/-- All masters. -/
def masters : List VertexID := (finRange n).flatMap g.l_master_verts

/-- All edges. -/
def edges : List (Edge VertexID E) := (finRange n).flatMap g.l_edges

variable [DecidableEq VertexID]

/-- The edges from `l_out` on, `l_nout` of them. -/
def out (c : Fin n) (v : VertexID) : List (Edge VertexID E) :=
  (g.l_edges c).filter fun e => e.src = v

/-- The ends of some edges. -/
def ends (l : List (Edge VertexID E)) : List VertexID := (l.flatMap fun e => [e.src, e.dst]).dedup

theorem mem_ends {l : List (Edge VertexID E)} {v : VertexID} :
    v ∈ ends l ↔ ∃ e ∈ l, e.src = v ∨ e.dst = v := by
  simp [ends, eq_comm]

/-- However the edges are cut there is a graph: the first mirror of a vertex can be on the core of
    the master. -/
def cut (l_edges : Fin n → List (Edge VertexID E)) : Graph VertexID E n where
  l_edges := l_edges
  l_verts c := ends (l_edges c)
  l_master_verts c := (ends (l_edges c)).filter fun v =>
    (finRange n).all fun c' => c ≤ c' || v ∉ ends (l_edges c')
  mirror_verts v := (finRange n).filter fun c => v ∈ ends (l_edges c)
  nodup_verts _ := nodup_dedup _
  mem_verts _ _ := mem_ends
  nodup_masters := by
    refine nodup_flatMap.mpr ⟨fun c _ => (nodup_dedup _).filter _, ?_⟩
    refine (nodup_finRange n).imp fun {c c'} hne v hv hv' => ?_
    simp only [mem_filter, all_eq_true, mem_finRange, Bool.or_eq_true,
      decide_eq_true_eq, true_imp_iff] at hv hv'
    have hle : c ≤ c' := (hv.2 c').resolve_right fun h => h hv'.1
    have hge : c' ≤ c := (hv'.2 c).resolve_right fun h => h hv.1
    exact hne (le_antisymm hle hge)
  mem_masters v := by
    simp only [mem_flatMap, mem_filter, all_eq_true, mem_finRange,
      Bool.or_eq_true, decide_eq_true_eq, true_imp_iff, true_and]
    constructor
    · rintro ⟨c, hv, -⟩
      exact ⟨c, hv⟩
    · rintro ⟨c, hv⟩
      obtain ⟨least, hmem, hleast⟩ :=
        (wellFounded_lt (α := Fin n)).has_min {c | v ∈ ends (l_edges c)} ⟨c, hv⟩
      refine ⟨least, hmem, fun c' => ?_⟩
      by_cases hc' : v ∈ ends (l_edges c')
      · exact .inl (not_lt.mp (hleast c' hc'))
      · exact .inr hc'
  mem_mirrors v c := by simp
  nodup_mirrors v := (nodup_finRange n).filter _

end Graph

/-- A vertex or mirror. -/
structure Vertex (V S G : Type) where
  data : V
  active : Bool
  active_minor_step : Bool
  prog : Prog S G
  deriving DecidableEq

/-- Which `forall` of `run_sync` the main task waits for; `head` is the condition of the loop. -/
inductive Phase
  | head
  | gather
  | collect
  | apply
  | scatter
  | send
  | spread
  deriving DecidableEq

structure State (VertexID V S G : Type) (n : ℕ) where
  phase : Phase
  iteration : ℕ
  /-- The sum of the reducer. -/
  total_active : ℤ
  master : VertexID → Vertex V S G
  mirror : Fin n → VertexID → Vertex V S G

/-- The bodies of the `forall`s, and the delegates that they call. -/
inductive Item (VertexID V E S G : Type) (n : ℕ)
  | gather (c : Fin n) (e : Edge VertexID E)
  | collect (c : Fin n) (v : VertexID)
  /-- To a master, with what a mirror has gathered. -/
  | total (m : VertexID) (accum : G)
  | apply (m : VertexID)
  /-- To a mirror, with what the master has become. -/
  | copy (c : Fin n) (v : VertexID) (data : V) (do_scatter : Bool) (p_copy : Prog S G)
  | scatter (c : Fin n) (v : VertexID)
  | send (c : Fin n) (v : VertexID)
  /-- To a master, with what was scattered to a mirror. -/
  | wake (m : VertexID) (delta : G)
  /-- The same without delta caching. -/
  | rewake (m : VertexID)
  | spread (m : VertexID)
  /-- To a mirror of an active master. -/
  | awake (c : Fin n) (v : VertexID)

variable [DecidableEq VertexID] {n : ℕ}

namespace State

variable (s : State VertexID V S G n)

def setMaster (m : VertexID) (x : Vertex V S G) : State VertexID V S G n :=
  { s with master := Function.update s.master m x }

def setMirror (c : Fin n) (v : VertexID) (x : Vertex V S G) : State VertexID V S G n :=
  { s with mirror := Function.update s.mirror c (Function.update (s.mirror c) v x) }

/-- `m.activate()` at a master. -/
def activate (m : VertexID) : State VertexID V S G n :=
  if (s.master m).active then s
  else { s.setMaster m { s.master m with active := true } with total_active := s.total_active + 1 }

/-- `m.deactivate()` at a master. -/
def deactivate (m : VertexID) : State VertexID V S G n :=
  if (s.master m).active then
    { s.setMaster m { s.master m with active := false } with total_active := s.total_active - 1 }
  else s

end State

section

variable [AddCommMonoid G] (prog : Program VertexID V E S G) (g : Graph VertexID E n)
  (delta_caching : Bool)

/-- A round of the loop over the edges from a mirror. -/
def State.scatter_edge (c : Fin n) (p : S) (s : State VertexID V S G n) (e : Edge VertexID E) :
    State VertexID V S G n :=
  let target := s.mirror c e.dst
  let r := prog.scatter p e (s.mirror c e.src).data target.data
  s.setMirror c e.dst
    { target with
      active := target.active || r.2
      prog := if delta_caching then target.prog.post_delta r.1 else target.prog }

def Item.exec (s : State VertexID V S G n) :
    Item VertexID V E S G n → State VertexID V S G n × List (Item VertexID V E S G n)
  | .gather c e =>
    let v := s.mirror c e.dst
    if v.active then
      let delta := prog.gather v.prog.state e.dst v.data e (s.mirror c e.src).data
      (s.setMirror c e.dst { v with prog := v.prog.post_delta delta }, [])
    else (s, [])
  | .collect c v =>
    let x := s.mirror c v
    if x.active then
      (s.setMirror c v { x with active := false, prog := x.prog.reset }, [.total v x.prog.cache])
    else (s, [])
  | .total m accum =>
    (s.setMaster m { s.master m with prog := (s.master m).prog.post_delta accum }, [])
  | .apply m =>
    if (s.master m).active then
      let s := s.deactivate m
      let x := s.master m
      let r := prog.apply x.prog m x.data
      let do_scatter := prog.scatter_edges r.1 m r.2
      (s.setMaster m { x with data := r.2, prog := r.1 },
        (g.mirror_verts m).map fun c => .copy c m r.2 do_scatter r.1)
    else (s, [])
  | .copy c v data do_scatter p_copy =>
    (s.setMirror c v { s.mirror c v with
      data := data, active_minor_step := do_scatter, prog := p_copy.reset }, [])
  | .scatter c v =>
    let x := s.mirror c v
    if x.active_minor_step then
      let s := s.setMirror c v { x with active_minor_step := false }
      ((g.out c v).foldl (State.scatter_edge prog delta_caching c x.prog.state) s, [])
    else (s, [])
  | .send c v =>
    let x := { s.mirror c v with active_minor_step := false }
    if x.active then
      if delta_caching then
        (s.setMirror c v { x with active := false }, [.wake v x.prog.cache])
      else (s.setMirror c v x, [.rewake v])
    else (s.setMirror c v x, [])
  | .wake m delta =>
    let s := s.activate m
    (s.setMaster m { s.master m with prog := (s.master m).prog.post_delta delta }, [])
  | .rewake m =>
    let s := s.activate m
    (s.setMaster m { s.master m with prog := (s.master m).prog.reset }, [])
  | .spread m =>
    if (s.master m).active then (s, (g.mirror_verts m).map fun c => .awake c m) else (s, [])
  | .awake c v => (s.setMirror c v { s.mirror c v with active := true }, [])

/-- A body for every mirror. -/
def Graph.forMirrors (body : Fin n → VertexID → Item VertexID V E S G n) :
    List (Item VertexID V E S G n) :=
  (finRange n).flatMap fun c => (g.l_verts c).map (body c)

/-- `run_sync` between its loops. -/
def State.advance (max_iterations : ℕ) (s : State VertexID V S G n) :
    Option (State VertexID V S G n × List (Item VertexID V E S G n)) :=
  match s.phase with
  | .head =>
    if 0 < s.total_active ∧ s.iteration < max_iterations then
      if !delta_caching || s.iteration = 0 then
        some ({ s with phase := .gather },
          (finRange n).flatMap fun c => (g.l_edges c).map (.gather c))
      else some ({ s with phase := .apply }, g.masters.map .apply)
    else none
  | .gather => some ({ s with phase := .collect }, g.forMirrors .collect)
  | .collect => some ({ s with phase := .apply }, g.masters.map .apply)
  | .apply => some ({ s with phase := .scatter }, g.forMirrors .scatter)
  | .scatter => some ({ s with phase := .send }, g.forMirrors .send)
  | .send =>
    if delta_caching then some ({ s with phase := .head, iteration := s.iteration + 1 }, [])
    else some ({ s with phase := .spread }, g.masters.map .spread)
  | .spread => some ({ s with phase := .head, iteration := s.iteration + 1 }, [])

def run_sync (max_iterations : ℕ) :
    Phased.Program (State VertexID V S G n) (Item VertexID V E S G n) :=
  ⟨fun s x => some (x.exec prog g delta_caching s), State.advance g delta_caching max_iterations⟩

/-- After `activate_all`, with the program objects made. -/
def activated (data : VertexID → V) : State VertexID V S G n :=
  let x := fun v => ⟨data v, true, false, ⟨prog.construct v (data v), 0⟩⟩
  { phase := .head
    iteration := 0
    total_active := g.masters.length
    master := x
    mirror := fun _ => x }

end

/-! ### The sequential loop -/

namespace SingleCopy

variable [AddCommMonoid G] (prog : Program VertexID V E S G) (s : VertexID → Vertex V S G)

/-- What is gathered along an edge. -/
def gathered (e : Edge VertexID E) : G :=
  prog.gather (s e.dst).prog.state e.dst (s e.dst).data e (s e.src).data

/-- What is scattered along an edge. -/
def scattered (e : Edge VertexID E) : G × Bool :=
  prog.scatter (s e.src).prog.state e (s e.src).data (s e.dst).data

def gather (e : Edge VertexID E) : VertexID → Vertex V S G :=
  if (s e.dst).active then
    Function.update s e.dst
      { s e.dst with prog := (s e.dst).prog.post_delta (gathered prog s e) }
  else s

def apply (v : VertexID) : VertexID → Vertex V S G :=
  if (s v).active then
    let r := prog.apply (s v).prog v (s v).data
    Function.update s v
      { data := r.2, active := false, active_minor_step := prog.scatter_edges r.1 v r.2,
        prog := r.1 }
  else s

def scatter (e : Edge VertexID E) : VertexID → Vertex V S G :=
  if (s e.src).active_minor_step then
    Function.update s e.dst
      { s e.dst with
        active := (s e.dst).active || (scattered prog s e).2
        prog := (s e.dst).prog.post_delta (scattered prog s e).1 }
  else s

variable (g : Graph VertexID E n)

/-- One iteration; only the first one gathers. -/
def round (first : Bool) : VertexID → Vertex V S G :=
  let s := if first then g.edges.foldl (gather prog) s else s
  let s := g.masters.foldl (apply prog) s
  let s := g.edges.foldl (scatter prog) s
  fun v => { s v with active_minor_step := false }

/-- After a number of iterations, from all vertices active. -/
def after (data : VertexID → V) : ℕ → VertexID → Vertex V S G
  | 0 => fun v => ⟨data v, true, false, ⟨prog.construct v (data v), 0⟩⟩
  | k + 1 => round prog (after data k) g (k = 0)

end SingleCopy

end SplitEngine

end Grappa
