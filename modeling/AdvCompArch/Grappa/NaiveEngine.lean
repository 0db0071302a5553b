import AdvCompArch.Grappa.AppGraph
import AdvCompArch.Lib.Phased
import Mathlib.Algebra.Order.BigOperators.Group.Finset

/-! # The naive GraphLab engine

    `NaiveGraphlabEngine::run_sync` for any vertex program: the gathers into the caches, and then
    rounds of an apply and a scatter, each a `forall` over the graph whose gathers and scatters
    are asynchronous delegates.  A vertex is handled by the tasks and messages of its own core
    one at a time, so the core that a vertex is on makes no difference. -/

namespace Grappa

open Finset

/-- A vertex program: `D` is the user's part of the vertex data, `P` that of the program object,
    `G` the `Gather` type. -/
structure VertexProgram (D P E G : Type) where
  /-- The constructor, over what the memory of the object held. -/
  construct : D → P → P
  gather_edges : D → P → Bool
  gather : D → P → E → G
  apply : D → P → G → D × P
  scatter_edges : D → P → Bool
  /-- The data of the target afterwards, whether `activate` was called on it, and the delta. -/
  scatter : P → E → D → D × Bool × G
  /-- `Gather()` -/
  zero : G
  /-- `operator+=` of `Gather` -/
  add : G → G → G

/-- A vertex with its `GraphlabVertexData` and its program object. -/
structure EngineVertex (D P G : Type) where
  data : D
  active : Bool
  active_minor_step : Bool
  prog : P
  cache : G
  deriving DecidableEq

/-- Which `forall` of `run_sync` was the last one. -/
inductive EnginePhase
  | start
  | constructed
  | gathered
  | applied
  | scattered
  deriving DecidableEq

structure EngineState (nv : ℕ) (D P G : Type) where
  vertex : Fin nv → EngineVertex D P G
  total_active : ℤ
  ct : ℕ
  iteration : ℕ
  phase : EnginePhase

open EngineState

/-- The tasks and the delegates of a `forall` of `run_sync`. -/
inductive EngineItem (nv : ℕ) (P E G : Type)
  | construct (v : Fin nv)
  | gather (v : Fin nv)
  | gather_edge (v u : Fin nv) (e : E)
  | post_delta (u : Fin nv) (delta : G)
  | apply (v : Fin nv)
  | scatter (v : Fin nv)
  | scatter_edge (prog_copy : P) (u : Fin nv) (e : E)

namespace EngineState

variable {nv : ℕ} {D P E G : Type}

def setVertex (s : EngineState nv D P G) (v : Fin nv) (x : EngineVertex D P G) :
    EngineState nv D P G :=
  { s with vertex := Function.update s.vertex v x }

/-- `v->activate()` -/
def activate (s : EngineState nv D P G) (v : Fin nv) : EngineState nv D P G :=
  if (s.vertex v).active then s
  else { s.setVertex v { s.vertex v with active := true } with total_active := s.total_active + 1 }

/-- `v->deactivate()` -/
def deactivate (s : EngineState nv D P G) (v : Fin nv) : EngineState nv D P G :=
  if (s.vertex v).active then
    { s.setVertex v { s.vertex v with active := false } with total_active := s.total_active - 1 }
  else s

/-- `prog(v).post_delta(delta)` -/
def post_delta (prog : VertexProgram D P E G) (s : EngineState nv D P G) (v : Fin nv) (delta : G) :
    EngineState nv D P G :=
  s.setVertex v { s.vertex v with cache := prog.add (s.vertex v).cache delta }

end EngineState

section

variable {D P E G : Type} (prog : VertexProgram D P E G) (g : AppGraph E)

/-- One task or delegate. -/
def EngineItem.exec (s : EngineState g.nv D P G) :
    EngineItem g.nv P E G → EngineState g.nv D P G × List (EngineItem g.nv P E G)
  | .construct v =>
    let x := s.vertex v
    let p := prog.construct x.data x.prog
    let s := s.setVertex v { x with prog := p, cache := prog.zero }
    ({ s with ct := if prog.gather_edges x.data p then s.ct + 1 else s.ct }, [])
  | .gather v => (s, (g.adj v).map fun e => .gather_edge v e.1 e.2)
  | .gather_edge v u e => (s, [.post_delta u (prog.gather (s.vertex v).data (s.vertex v).prog e)])
  | .post_delta u delta => (s.post_delta prog u delta, [])
  | .apply v =>
    if (s.vertex v).active then
      let s := s.deactivate v
      let x := s.vertex v
      let r := prog.apply x.data x.prog x.cache
      (s.setVertex v { x with data := r.1, prog := r.2, active_minor_step := prog.scatter_edges r.1 r.2 },
        [])
    else (s, [])
  | .scatter v =>
    let x := s.vertex v
    if x.active_minor_step then
      (s.setVertex v { x with active_minor_step := false },
        (g.adj v).map fun e => .scatter_edge x.prog e.1 e.2)
    else (s, [])
  | .scatter_edge prog_copy u e =>
    let r := prog.scatter prog_copy e (s.vertex u).data
    let s := s.setVertex u { s.vertex u with data := r.1 }
    let s := if r.2.1 then s.activate u else s
    (s.post_delta prog u r.2.2, [])

/-- `active > 0 && iteration < FLAGS_max_iterations`; `none` for no cap. -/
def EngineState.goes_on (max_iterations : Option ℕ) (s : EngineState g.nv D P G) : Bool :=
  s.total_active ≠ 0 && max_iterations.all (s.iteration < ·)

/-- `run_sync` between its loops. -/
def EngineState.advance (max_iterations : Option ℕ) (s : EngineState g.nv D P G) :
    Option (EngineState g.nv D P G × List (EngineItem g.nv P E G)) :=
  match s.phase with
  | .start => some ({ s with ct := 0, phase := .constructed }, g.visited.map .construct)
  | .constructed =>
    some ({ s with iteration := 0, phase := .gathered }, if 0 < s.ct then g.visited.map .gather else [])
  | .applied => some ({ s with iteration := s.iteration + 1, phase := .scattered }, g.visited.map .scatter)
  | .gathered | .scattered =>
    if s.goes_on g max_iterations then some ({ s with phase := .applied }, g.visited.map .apply) else none

def naiveEngine (max_iterations : Option ℕ) :
    Phased.Program (EngineState g.nv D P G) (EngineItem g.nv P E G) where
  exec := fun s x => some (x.exec prog g s)
  advance := fun s => s.advance g max_iterations

end

/-! ### The number of active vertices -/

namespace EngineState

variable {nv : ℕ} {D P E G : Type} {s : EngineState nv D P G} {u v : Fin nv}
  {x : EngineVertex D P G} {prog : VertexProgram D P E G} {delta : G}

@[simp] theorem setVertex_self : (s.setVertex v x).vertex v = x := by
  simp [setVertex]

theorem setVertex_ne (h : u ≠ v) : (s.setVertex v x).vertex u = s.vertex u := by
  simp [setVertex, h]

theorem setVertex_apply : (s.setVertex v x).vertex u = if u = v then x else s.vertex u := by
  simp [setVertex, Function.update_apply]

@[simp] theorem setVertex_total_active : (s.setVertex v x).total_active = s.total_active := rfl
@[simp] theorem setVertex_phase : (s.setVertex v x).phase = s.phase := rfl
@[simp] theorem setVertex_ct : (s.setVertex v x).ct = s.ct := rfl

@[simp] theorem post_delta_phase : (s.post_delta prog v delta).phase = s.phase := rfl
@[simp] theorem post_delta_ct : (s.post_delta prog v delta).ct = s.ct := rfl

@[simp] theorem activate_phase : (s.activate v).phase = s.phase := by
  unfold activate
  split <;> rfl

@[simp] theorem deactivate_phase : (s.deactivate v).phase = s.phase := by
  unfold deactivate
  split <;> rfl

theorem activate_vertex :
    (s.activate v).vertex u = { s.vertex u with active := (s.vertex u).active || u = v } := by
  unfold activate
  split
  · rename_i h
    by_cases huv : u = v
    · subst huv
      simp [← h]
    · simp [huv]
  · show (s.setVertex v _).vertex u = _
    rw [setVertex_apply]
    by_cases huv : u = v
    · subst huv
      simp
    · simp [huv]

theorem deactivate_vertex :
    (s.deactivate v).vertex u = { s.vertex u with active := (s.vertex u).active && u ≠ v } := by
  unfold deactivate
  split
  · show (s.setVertex v _).vertex u = _
    rw [setVertex_apply]
    by_cases huv : u = v
    · subst huv
      simp
    · simp [huv]
  · rename_i h
    by_cases huv : u = v
    · subst huv
      simp only [Bool.not_eq_true] at h
      simp [← h]
    · simp [huv]

theorem post_delta_vertex :
    (s.post_delta prog v delta).vertex u =
      { s.vertex u with cache := if u = v then prog.add (s.vertex u).cache delta else (s.vertex u).cache } := by
  unfold post_delta
  rw [setVertex_apply]
  by_cases huv : u = v
  · subst huv
    simp
  · simp [huv]

/-- `total_active` is the number of active vertices, up to a number that does not change. -/
def Counted (k : ℤ) (s : EngineState nv D P G) : Prop :=
  s.total_active + k = ((Finset.univ.filter fun v => (s.vertex v).active = true).card : ℤ)

variable {k : ℤ}

theorem Counted.congr {t : EngineState nv D P G} (h : s.Counted k)
    (hactive : ∀ u, (t.vertex u).active = (s.vertex u).active)
    (htotal : t.total_active = s.total_active) : t.Counted k := by
  unfold Counted
  rw [htotal, h]
  simp only [hactive]

theorem Counted.setVertex (h : s.Counted k) (hx : x.active = (s.vertex v).active) :
    (s.setVertex v x).Counted k := by
  refine h.congr (fun u => ?_) rfl
  rw [setVertex_apply]
  split
  · rename_i huv
    rw [huv, hx]
  · rfl

theorem Counted.activate (h : s.Counted k) : (s.activate v).Counted k := by
  by_cases hv : (s.vertex v).active = true
  · rwa [EngineState.activate, if_pos hv]
  · have hset : (univ.filter fun u => ((s.activate v).vertex u).active = true) =
        insert v (univ.filter fun u => (s.vertex u).active = true) := by
      ext u
      simp [activate_vertex, or_comm]
    have htotal : (s.activate v).total_active = s.total_active + 1 := by
      rw [EngineState.activate, if_neg hv]
    unfold Counted at h ⊢
    rw [hset, card_insert_of_notMem (by simpa using hv), htotal]
    push_cast
    omega

theorem Counted.deactivate (h : s.Counted k) : (s.deactivate v).Counted k := by
  by_cases hv : (s.vertex v).active = true
  · have hset : (univ.filter fun u => ((s.deactivate v).vertex u).active = true) =
        (univ.filter fun u => (s.vertex u).active = true).erase v := by
      ext u
      simp [deactivate_vertex, and_comm]
    have hcard : (univ.filter fun u => ((s.deactivate v).vertex u).active = true).card + 1 =
        (univ.filter fun u => (s.vertex u).active = true).card := by
      rw [hset]
      exact card_erase_add_one (by simpa using hv)
    have htotal : (s.deactivate v).total_active = s.total_active - 1 := by
      rw [EngineState.deactivate, if_pos hv]
    unfold Counted at h ⊢
    rw [← hcard] at h
    rw [htotal]
    push_cast at h
    omega
  · rwa [EngineState.deactivate, if_neg hv]

theorem Counted.post_delta (h : s.Counted k) : (s.post_delta prog v delta).Counted k :=
  h.setVertex rfl

/-- Where some are active for good, nobody else is when the count is zero. -/
theorem Counted.inactive {S : Finset (Fin nv)} (h : s.Counted S.card) (hzero : s.total_active = 0)
    (hS : ∀ v ∈ S, (s.vertex v).active = true) (hv : v ∉ S) : (s.vertex v).active = false := by
  unfold Counted at h
  rw [hzero, zero_add, Int.natCast_inj] at h
  have hsubset : S ⊆ univ.filter fun v => (s.vertex v).active = true := by
    intro u hu
    simpa using hS u hu
  have heq := eq_of_subset_of_card_le hsubset h.ge
  by_contra hact
  exact hv (by rw [heq]; simpa using hact)

theorem Counted.exists_active {S : Finset (Fin nv)} (h : s.Counted S.card)
    (hne : s.total_active ≠ 0) (hS : ∀ v ∈ S, (s.vertex v).active = true) :
    ∃ v ∉ S, (s.vertex v).active = true := by
  by_contra hno
  push Not at hno
  have heq : (univ.filter fun v => (s.vertex v).active = true) = S := by
    ext v
    simp only [mem_filter, mem_univ, true_and]
    exact ⟨fun hv => by_contra fun hvS => hno v hvS hv, hS v⟩
  unfold Counted at h
  rw [heq] at h
  omega

end EngineState

section

variable {D P E G : Type} {prog : VertexProgram D P E G} {g : AppGraph E}
  {s : EngineState g.nv D P G}

theorem EngineItem.counted_exec {k : ℤ} (h : s.Counted k) (x : EngineItem g.nv P E G) :
    (x.exec prog g s).1.Counted k := by
  cases x with
  | construct v => exact h.setVertex rfl
  | gather v | gather_edge v u e => exact h
  | post_delta u delta => exact h.post_delta
  | apply v =>
    simp only [EngineItem.exec]
    split
    · exact h.deactivate.setVertex rfl
    · exact h
  | scatter v =>
    simp only [EngineItem.exec]
    split
    · exact h.setVertex rfl
    · exact h
  | scatter_edge p u e =>
    have hset : (s.setVertex u { s.vertex u with
        data := (prog.scatter p e (s.vertex u).data).1 }).Counted k := h.setVertex rfl
    simp only [EngineItem.exec]
    split
    · exact hset.activate.post_delta
    · exact hset.post_delta

/-! ### What the items do to the vertices -/

/-- A vertex after its apply. -/
def EngineVertex.applied (prog : VertexProgram D P E G) (x : EngineVertex D P G) :
    EngineVertex D P G :=
  let r := prog.apply x.data x.prog x.cache
  { data := r.1, active := false, active_minor_step := prog.scatter_edges r.1 r.2,
    prog := r.2, cache := x.cache }

/-- A vertex after a scatter to it. -/
def EngineVertex.scattered (prog : VertexProgram D P E G) (prog_copy : P) (e : E)
    (x : EngineVertex D P G) : EngineVertex D P G :=
  let r := prog.scatter prog_copy e x.data
  { x with data := r.1, active := x.active || r.2.1, cache := prog.add x.cache r.2.2 }

@[simp] theorem EngineItem.exec_phase (x : EngineItem g.nv P E G) :
    (x.exec prog g s).1.phase = s.phase := by
  cases x with
  | construct v | gather v | gather_edge v u e | post_delta u delta => rfl
  | apply v =>
    simp only [EngineItem.exec]
    split
    · simp
    · rfl
  | scatter v =>
    simp only [EngineItem.exec]
    split <;> rfl
  | scatter_edge p u e =>
    simp only [EngineItem.exec]
    split <;> simp

theorem exec_construct_vertex (v u : g.V) :
    ((EngineItem.construct v).exec prog g s).1.vertex u =
      if u = v then { s.vertex v with
        prog := prog.construct (s.vertex v).data (s.vertex v).prog, cache := prog.zero }
      else s.vertex u := by
  simp only [EngineItem.exec]
  exact setVertex_apply

theorem exec_apply_vertex {v : g.V} (hv : (s.vertex v).active = true) (u : g.V) :
    ((EngineItem.apply v).exec prog g s).1.vertex u =
      if u = v then (s.vertex v).applied prog else s.vertex u := by
  simp only [EngineItem.exec, if_pos hv, setVertex_apply, deactivate_vertex]
  split
  · simp [EngineVertex.applied]
  · rename_i huv
    simp [huv]

theorem exec_apply_inactive {v : g.V} (hv : (s.vertex v).active = false) :
    (EngineItem.apply v).exec prog g s = (s, []) := by
  simp [EngineItem.exec, hv]

theorem exec_apply_spawns (v : g.V) : ((EngineItem.apply v).exec prog g s).2 = [] := by
  simp only [EngineItem.exec]
  split <;> rfl

theorem exec_scatter_spawns (v : g.V) :
    ((EngineItem.scatter v).exec prog g s).2 =
      if (s.vertex v).active_minor_step then
        (g.adj v).map fun e => EngineItem.scatter_edge (s.vertex v).prog e.1 e.2
      else [] := by
  simp only [EngineItem.exec]
  split <;> rfl

theorem exec_scatter_vertex {v : g.V} (u : g.V) :
    ((EngineItem.scatter v).exec prog g s).1.vertex u =
      { s.vertex u with active_minor_step := (s.vertex u).active_minor_step && u ≠ v } := by
  simp only [EngineItem.exec]
  by_cases huv : u = v
  · subst huv
    split
    · simp
    · rename_i h
      simp only [Bool.not_eq_true] at h
      simp [← h]
  · split
    · rw [setVertex_ne huv]
      simp [huv]
    · simp [huv]

theorem exec_scatter_edge_vertex (p : P) (v : g.V) (e : E) (u : g.V) :
    ((EngineItem.scatter_edge p v e).exec prog g s).1.vertex u =
      if u = v then (s.vertex v).scattered prog p e else s.vertex u := by
  simp only [EngineItem.exec]
  by_cases huv : u = v
  · subst huv
    split
    · rename_i hact
      simp [EngineVertex.scattered, post_delta_vertex, activate_vertex, hact]
    · rename_i hact
      simp [EngineVertex.scattered, post_delta_vertex, hact]
  · split
    · simp [post_delta_vertex, activate_vertex, huv,
        setVertex_ne huv]
    · simp [post_delta_vertex, huv, setVertex_ne huv]

theorem EngineState.counted_advance {k : ℤ} (h : s.Counted k) {max_iterations : Option ℕ}
    {s' : EngineState g.nv D P G} {new : List (EngineItem g.nv P E G)}
    (hadv : s.advance g max_iterations = some (s', new)) : s'.Counted k := by
  unfold advance at hadv
  split at hadv
  case h_4 | h_5 =>
    split at hadv
    · cases hadv
      exact h.congr (fun _ => rfl) rfl
    · cases hadv
  all_goals
    cases hadv
    exact h.congr (fun _ => rfl) rfl

end

end Grappa
