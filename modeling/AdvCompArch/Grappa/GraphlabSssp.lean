import AdvCompArch.Grappa.EngineRelaxation
import AdvCompArch.Lib.Walks
import Mathlib.Tactic.Linarith

/-! # Shortest paths on the naive engine

    The vertex program of `graphlab/sssp.cpp`, with exact distances.  A scatter writes `new_dist`
    of its target without looking at the one that waits there, so that of two neighbours that
    scatter in one round the last one wins.

    In the runs where no scatter makes a waiting distance worse, the engine stops with shortest
    distances (`dist_shortest`); `overwritten_dist` is a run where one does. -/

namespace Grappa

namespace GraphlabSssp

open Multiset Walks

/-- `std::numeric_limits<float>::max()` -/
def max_dist : ℚ := ((2 ^ 24 - 1) * 2 ^ 104 : ℕ)

/-- `SSSPVertexData`, without the part of `GraphlabVertexData`. -/
structure VertexData where
  dist : ℚ
  new_dist : ℚ
  deriving DecidableEq

/-- The program object, without its cache. -/
structure Prog where
  changed : Bool
  min_dist : ℚ
  deriving DecidableEq

/-- The weight of an edge is `EdgeDistance::dist`; `Gather` is `bool`. -/
def program : VertexProgram VertexData Prog ℚ≥0 Bool where
  construct := fun _ p => p
  gather_edges := fun _ _ => false
  gather := fun _ _ _ => false
  apply := fun v _ _ =>
    if v.new_dist < v.dist then
      ({ v with dist := v.new_dist }, { changed := true, min_dist := v.new_dist })
    else (v, { changed := false, min_dist := v.dist })
  scatter_edges := fun _ p => p.changed
  scatter := fun p e target =>
    let new_dist := p.min_dist + e
    if new_dist < target.dist then ({ target with new_dist := new_dist }, true, false)
    else (target, false, false)
  zero := false
  add := fun a b => a || b

variable {g : AppGraph ℚ≥0}

variable (g) in
abbrev State := EngineState g.nv VertexData Prog Bool

variable (g) in
abbrev Item := EngineItem g.nv Prog ℚ≥0 Bool

abbrev Vertex := EngineVertex VertexData Prog Bool

/-- `new (&v.data) SSSPVertexData()`: `active_minor_step` is what the memory held. -/
def Vertex.construct (x : Vertex) : Vertex :=
  { x with data := { dist := max_dist, new_dist := 0 }, active := false }

/-- The `forall` of `main` that constructs the vertex data, and `activate(g->vs+root)`. -/
def setup (root : g.V) (s : State g) : State g :=
  (g.visited.foldl (fun s v => s.setVertex v (Vertex.construct (s.vertex v))) s).activate root

variable (g) in
/-- The edges with their weights. -/
def edge (u v : g.V) (w : ℚ) : Prop := ∃ e, (v, e) ∈ g.adj u ∧ w = e

/-- A scatter to a vertex that waits for its apply does not overwrite a lesser distance. -/
def Improves (s : State g) : Item g → Prop
  | .scatter_edge p v e =>
    (s.vertex v).active = true → p.min_dist + e < (s.vertex v).data.dist →
      p.min_dist + e ≤ (s.vertex v).data.new_dist
  | _ => True

instance (s : State g) : ∀ x, Decidable (Improves s x)
  | .scatter_edge p v e => inferInstanceAs (Decidable ((s.vertex v).active = true →
      p.min_dist + e < (s.vertex v).data.dist → p.min_dist + e ≤ (s.vertex v).data.new_dist))
  | .construct _ | .gather _ | .gather_edge _ _ _ | .post_delta _ _ | .apply _ | .scatter _ =>
    inferInstanceAs (Decidable True)

/-! ### Distances as values of a relaxation -/

/-- What holds of a visited vertex. -/
structure Sound (root v : g.V) (x : Vertex) : Prop where
  le : x.data.dist ≤ max_dist
  dist : x.data.dist = max_dist ∨ Walks.Walk (edge g) root v x.data.dist
  waits : x.active = true → Walks.Walk (edge g) root v x.data.new_dist
  root : v = root → x.data.dist = 0 ∨ x.active = true ∧ x.data.new_dist = 0

theorem applied_cases (x : Vertex) :
    x.data.new_dist < x.data.dist ∧ x.applied program =
      { data := ⟨x.data.new_dist, x.data.new_dist⟩, active := false, active_minor_step := true,
        prog := ⟨true, x.data.new_dist⟩, cache := x.cache } ∨
    x.data.dist ≤ x.data.new_dist ∧ x.applied program =
      { x with active := false, active_minor_step := false, prog := ⟨false, x.data.dist⟩ } := by
  by_cases hlt : x.data.new_dist < x.data.dist
  · refine .inl ⟨hlt, ?_⟩
    simp [EngineVertex.applied, program, hlt]
  · refine .inr ⟨not_lt.mp hlt, ?_⟩
    simp [EngineVertex.applied, program, hlt]

theorem scattered_cases (p : Prog) (e : ℚ≥0) (x : Vertex) :
    p.min_dist + e < x.data.dist ∧ x.scattered program p e =
      { x with data := { x.data with new_dist := p.min_dist + e }, active := true } ∨
    x.data.dist ≤ p.min_dist + e ∧ x.scattered program p e = x := by
  by_cases hlt : p.min_dist + e < x.data.dist
  · refine .inl ⟨hlt, ?_⟩
    simp [EngineVertex.scattered, program, hlt]
  · refine .inr ⟨not_lt.mp hlt, ?_⟩
    simp [EngineVertex.scattered, program, hlt]

theorem edge_nonneg (u v : g.V) (w : ℚ) (h : edge g u v w) : 0 ≤ w := by
  obtain ⟨e, _, rfl⟩ := h
  exact e.2

theorem max_dist_pos : 0 < max_dist := by norm_num [max_dist]

theorem Sound.dist_nonneg {root v : g.V} {x : Vertex} (h : Sound root v x) : 0 ≤ x.data.dist := by
  rcases h.dist with hmax | hwalk
  · rw [hmax]
    exact max_dist_pos.le
  · exact hwalk.nonneg edge_nonneg

theorem Sound.applied {root v : g.V} {x : Vertex} (h : Sound root v x) (hx : x.active = true) :
    Sound root v (x.applied program) := by
  rcases applied_cases x with ⟨hlt, heq⟩ | ⟨hle, heq⟩ <;> rw [heq]
  · refine ⟨le_trans hlt.le h.le, .inr (h.waits hx), fun hno => (by cases hno), fun hv => ?_⟩
    rcases h.root hv with hzero | ⟨_, hzero⟩
    · have hnonneg := (h.waits hx).nonneg edge_nonneg
      linarith
    · exact .inl hzero
  · refine ⟨h.le, h.dist, fun hno => (by cases hno), fun hv => ?_⟩
    rcases h.root hv with hzero | ⟨_, hzero⟩
    · exact .inl hzero
    · rw [hzero] at hle
      exact .inl (le_antisymm hle h.dist_nonneg)

theorem Sound.scattered {root v : g.V} {x : Vertex} {p : Prog} {e : ℚ≥0} (h : Sound root v x)
    (hknown : Walks.Walk (edge g) root v (p.min_dist + e))
    (himproves : x.active = true → (x.scattered program p e).data.new_dist ≤ x.data.new_dist) :
    Sound root v (x.scattered program p e) := by
  have hnonneg := hknown.nonneg edge_nonneg
  rcases scattered_cases p e x with ⟨hlt, heq⟩ | ⟨_, heq⟩
  · rw [heq] at himproves ⊢
    refine ⟨h.le, h.dist, fun _ => hknown, fun hv => ?_⟩
    rcases h.root hv with hzero | ⟨hact, hzero⟩
    · exact .inl hzero
    · have hle := himproves hact
      rw [hzero] at hle
      exact .inr ⟨rfl, le_antisymm hle hnonneg⟩
  · rw [heq]
    exact h

/-- The distances as values of a relaxation: an edge costs its weight. -/
def relaxation (root : g.V) : Relaxation program g ℚ where
  cur := fun x => x.dist
  wait := fun x _ => x.new_dist
  out := fun p => p.min_dist
  cost := fun e d => d + e
  Known := Walks.Walk (edge g) root
  Sound := Sound root
  cost_mono := fun _ _ _ h => add_le_add_left h _
  applied_cur := by
    intro x
    rcases applied_cases x with ⟨hlt, heq⟩ | ⟨hle, heq⟩ <;> rw [heq]
    · exact (min_eq_right hlt.le).symm
    · exact (min_eq_left hle).symm
  applied_out := by
    intro x hstep
    rcases applied_cases x with ⟨_, heq⟩ | ⟨_, heq⟩ <;> rw [heq]
  applied_same := by
    intro x hstep
    rcases applied_cases x with ⟨_, heq⟩ | ⟨_, heq⟩ <;> rw [heq] at hstep ⊢
    cases hstep
  scattered_cur := by
    intro p e x
    rcases scattered_cases p e x with ⟨_, heq⟩ | ⟨_, heq⟩ <;> rw [heq]
  scattered_wait := by
    intro p e x
    rcases scattered_cases p e x with ⟨_, heq⟩ | ⟨hle, _⟩
    · rw [heq]
      exact .inr ⟨rfl, le_rfl⟩
    · exact .inl hle
  sound_applied := fun v x h hx => h.applied hx
  sound_scattered := fun v p e x h hknown himproves => h.scattered hknown himproves
  sound_minor := fun v x b h => ⟨h.le, h.dist, h.waits, h.root⟩
  known_applied := by
    intro u v e x he h hx hstep
    rcases applied_cases x with ⟨_, heq⟩ | ⟨_, heq⟩ <;> rw [heq] at hstep ⊢
    · exact .snoc (h.waits hx) ⟨e, he, rfl⟩
    · cases hstep

theorem Improves.relaxation {root : g.V} {s : State g} {x : Item g} (h : Improves s x) :
    (relaxation root).Improves s x := by
  cases x with
  | scatter_edge p v e =>
    intro hact
    show ((s.vertex v).scattered program p e).data.new_dist ≤ (s.vertex v).data.new_dist
    rcases scattered_cases p e (s.vertex v) with ⟨hlt, heq⟩ | ⟨_, heq⟩ <;> rw [heq]
    exact h hact hlt
  | construct v | gather v | gather_edge v u e | post_delta u delta | apply v | scatter v => trivial

/-! ### The phases -/

/-- Before the first round. -/
structure Ready (root : g.V) (memory : g.V → Vertex) (s : State g) : Prop where
  frame : ∀ v, g.valid v = false → s.vertex v = memory v
  data : ∀ v, g.valid v = true → (s.vertex v).data = ⟨max_dist, 0⟩
  active : ∀ v, g.valid v = true → (s.vertex v).active = decide (v = root)
  minor : ∀ v, g.valid v = true → v ≠ root → (s.vertex v).active_minor_step = false

/-- What holds of the last phase. -/
def InPhase (root : g.V) (memory : g.V → Vertex) (s : State g) (pool : Multiset (Item g)) : Prop :=
  match s.phase with
  | .start => pool = 0 ∧ Ready root memory s
  | .constructed => (∀ x ∈ pool, ∃ v, x = .construct v ∧ g.valid v = true) ∧ s.ct = 0 ∧
      Ready root memory s
  | .gathered => pool = 0 ∧ Ready root memory s
  | .applied => (relaxation root).Applying memory s pool
  | .scattered => (relaxation root).Scattering memory s pool

variable {root : g.V} {memory : g.V → Vertex} {s s' : State g} {rest : Multiset (Item g)} {x : Item g}

theorem Ready.construct {v : g.V} (hv : g.valid v = true) (h : Ready root memory s) :
    Ready root memory ((EngineItem.construct v).exec program g s).1 := by
  have hvertex : ∀ u, (((EngineItem.construct v).exec program g s).1.vertex u).data = (s.vertex u).data ∧
      (((EngineItem.construct v).exec program g s).1.vertex u).active = (s.vertex u).active ∧
      (((EngineItem.construct v).exec program g s).1.vertex u).active_minor_step =
        (s.vertex u).active_minor_step := by
    intro u
    rw [exec_construct_vertex]
    split
    · rename_i huv
      rw [huv]
      exact ⟨rfl, rfl, rfl⟩
    · exact ⟨rfl, rfl, rfl⟩
  refine ⟨fun u hu => ?_, fun u hu => ?_, fun u hu => ?_, fun u hu hne => ?_⟩
  · rw [exec_construct_vertex, if_neg (by rintro rfl; rw [hv] at hu; cases hu)]
    exact h.frame u hu
  · exact (hvertex u).1.trans (h.data u hu)
  · exact (hvertex u).2.1.trans (h.active u hu)
  · exact (hvertex u).2.2.trans (h.minor u hu hne)

theorem Ready.advance (h : Ready root memory s) :
    (relaxation root).Applying memory { s with phase := .applied }
      ((g.visited.map .apply : List (Item g)) : Multiset (Item g)) := by
  have hdata : ∀ v, g.valid v = true → (s.vertex v).data = ⟨max_dist, 0⟩ := h.data
  refine ⟨?_, h.frame, fun v hv => ?_, fun v hv _ => Relaxation.mem_visited_map hv,
    fun v hv hno hstep => ?_, fun u e he => .inl (.inl ?_)⟩
  · intro x hx
    obtain ⟨v, hv, rfl⟩ := List.mem_map.mp hx
    exact ⟨v, rfl, AppGraph.mem_visited.mp hv⟩
  · show Sound root v (s.vertex v)
    have hactive := h.active v hv
    refine ⟨?_, ?_, fun hact => ?_, fun hroot => .inr ⟨?_, ?_⟩⟩
    · rw [hdata v hv]
    · rw [hdata v hv]
      exact .inl rfl
    · rw [hact] at hactive
      rw [hdata v hv, of_decide_eq_true hactive.symm]
      exact .nil
    · rw [hactive, hroot, decide_eq_true_eq]
    · rw [hdata v hv]
  · have hne : v ≠ root := by
      rintro rfl
      have hactive := h.active v hv
      rw [show (s.vertex v).active = false from hno] at hactive
      simp at hactive
    have hminor := h.minor v hv hne
    rw [show (s.vertex v).active_minor_step = true from hstep] at hminor
    cases hminor
  · obtain ⟨hu, hv⟩ := g.valid_of_adj u e he
    show (s.vertex e.1).data.dist ≤ (s.vertex u).data.dist + e.2
    rw [hdata u hu, hdata e.1 hv]
    exact le_add_of_nonneg_right e.2.2

theorem InPhase.exec (h : InPhase root memory s (x ::ₘ rest)) (himproves : Improves s x) :
    InPhase root memory (x.exec program g s).1 (rest + (x.exec program g s).2) := by
  unfold InPhase at h ⊢
  rw [EngineItem.exec_phase]
  split at h
  case h_1 => exact absurd h.1 cons_ne_zero
  case h_2 =>
    obtain ⟨hitems, hct, hready⟩ := h
    obtain ⟨v, rfl, hv⟩ := hitems _ (mem_cons_self _ _)
    refine ⟨fun y hy => ?_, hct, hready.construct hv⟩
    rcases mem_add.mp hy with hy | hy
    · exact hitems y (mem_cons_of_mem hy)
    · cases hy
  case h_3 => exact absurd h.1 cons_ne_zero
  case h_4 => exact h.exec
  case h_5 => exact h.exec himproves.relaxation

theorem InPhase.advance {max_iterations : Option ℕ} {new : List (Item g)}
    (h : InPhase root memory s 0) (hadv : s.advance g max_iterations = some (s', new)) :
    InPhase root memory s' new := by
  unfold InPhase at h
  unfold EngineState.advance at hadv
  split at h <;> rename_i hp <;> rw [hp] at hadv
  · cases hadv
    obtain ⟨_, hready⟩ := h
    refine ⟨?_, rfl, hready.frame, hready.data, hready.active, hready.minor⟩
    intro x hx
    obtain ⟨v, hv, rfl⟩ := List.mem_map.mp hx
    exact ⟨v, rfl, AppGraph.mem_visited.mp hv⟩
  · obtain ⟨_, hct, hready⟩ := h
    simp only [hct, lt_irrefl, if_false] at hadv
    cases hadv
    exact ⟨rfl, hready.frame, hready.data, hready.active, hready.minor⟩
  · simp only at hadv
    split at hadv
    · cases hadv
      exact h.2.advance
    · cases hadv
  · cases hadv
    exact h.advance
  · simp only at hadv
    split at hadv
    · cases hadv
      exact h.advance
    · cases hadv

/-! ### The start -/

/-- Vertices that no `forall` visits and whose memory says that they are active. -/
def stray (s : State g) : Finset g.V :=
  Finset.univ.filter fun v => g.valid v = false ∧ (s.vertex v).active = true

theorem construct_fold (l : List g.V) (s : State g) :
    let s' := l.foldl (fun s v => s.setVertex v (Vertex.construct (s.vertex v))) s
    s'.phase = s.phase ∧ s'.total_active = s.total_active ∧
      ∀ u, s'.vertex u = if u ∈ l then Vertex.construct (s.vertex u) else s.vertex u := by
  induction l generalizing s with
  | nil => simp
  | cons v l ih =>
    obtain ⟨hphase, htotal, hvertex⟩ := ih (s.setVertex v (Vertex.construct (s.vertex v)))
    refine ⟨hphase, htotal, fun u => ?_⟩
    rw [List.foldl_cons, hvertex u, EngineState.setVertex_apply]
    by_cases huv : u = v
    · subst huv
      simp [Vertex.construct]
    · simp [huv]

variable (root s) in
theorem setup_vertex (u : g.V) :
    (setup root s).vertex u =
      if g.valid u = true then
        { Vertex.construct (s.vertex u) with active := decide (u = root) }
      else { s.vertex u with active := (s.vertex u).active || decide (u = root) } := by
  obtain ⟨-, -, hvertex⟩ := construct_fold g.visited s
  unfold setup
  rw [EngineState.activate_vertex, hvertex]
  by_cases hu : g.valid u = true
  · simp [hu, Vertex.construct]
  · simp [hu]

theorem counted_setup (htotal : s.total_active = 0) : (setup root s).Counted (stray s).card := by
  obtain ⟨-, htotal', hvertex⟩ := construct_fold g.visited s
  refine EngineState.Counted.activate ?_
  unfold EngineState.Counted
  rw [htotal', htotal, zero_add]
  congr 2
  ext u
  simp only [stray, Finset.mem_filter, Finset.mem_univ, true_and]
  rw [hvertex u]
  by_cases hu : g.valid u = true
  · simp [hu, Vertex.construct]
  · simp [hu]

theorem ready_setup (hroot : g.valid root = true)
    (hminor : ∀ v, g.valid v = true → v ≠ root → (s.vertex v).active_minor_step = false) :
    Ready root s.vertex (setup root s) := by
  refine ⟨fun v hv => ?_, fun v hv => ?_, fun v hv => ?_, fun v hv hne => ?_⟩
  · have hne : v ≠ root := by
      rintro rfl
      rw [hroot] at hv
      cases hv
    rw [setup_vertex]
    simp [hv, hne]
  · rw [setup_vertex, if_pos hv]
    rfl
  · rw [setup_vertex, if_pos hv]
  · rw [setup_vertex, if_pos hv]
    exact hminor v hv hne

/-! ### Results -/

theorem InPhase.frame {pool : Multiset (Item g)} (h : InPhase root memory s pool) {v : g.V}
    (hv : g.valid v = false) : s.vertex v = memory v := by
  unfold InPhase at h
  split at h
  · exact h.2.frame v hv
  · exact h.2.2.frame v hv
  · exact h.2.frame v hv
  · exact h.frame v hv
  · exact h.frame v hv

/-- Where the engine stops because nobody is active, no edge can improve a distance. -/
theorem InPhase.relaxed (h : InPhase root memory s 0) (hroot : g.valid root = true)
    (hoff : ∀ v, g.valid v = true → (s.vertex v).active = false) {max_iterations : Option ℕ}
    (hret : s.advance g max_iterations = none) :
    (∀ v, g.valid v = true → Sound root v (s.vertex v)) ∧
      ∀ u, ∀ e ∈ g.adj u, (s.vertex e.1).data.dist ≤ (s.vertex u).data.dist + e.2 := by
  unfold InPhase at h
  unfold EngineState.advance at hret
  split at h <;> rename_i hp <;> rw [hp] at hret <;> simp only [reduceCtorEq] at hret
  · -- the root is active before the first round
    have hactive := h.2.active root hroot
    rw [hoff root hroot] at hactive
    simp at hactive
  · refine ⟨h.sound, fun u e he => ?_⟩
    rcases h.settled he with hle | ⟨hact, _⟩
    · exact hle
    · rw [hoff e.1 (g.valid_of_adj u e he).2] at hact
      cases hact

/-- **Shortest distances**: in every run of the engine from a new `SSSPVertexData` at every vertex
    that is visited, if no scatter overwrites a lesser distance and the engine stops because nobody
    is active, the distances are the least totals.

    Apart from the scatters this takes flags `active_minor_step` that are not set in the memory,
    `max_dist` in the memory of the vertices without edges, and totals within `max_dist`. -/
theorem dist_shortest {root : g.V} {s : State g} {max_iterations : Option ℕ}
    (hphase : s.phase = .start) (htotal : s.total_active = 0) (hroot : g.valid root = true)
    (hminor : ∀ v, g.valid v = true → v ≠ root → (s.vertex v).active_minor_step = false)
    (hmemory : ∀ v, g.valid v = false → (s.vertex v).data.dist = max_dist)
    (hbound : ∀ v d, Walks.Walk (edge g) root v d → ∃ d' ≤ max_dist, Walks.Walk (edge g) root v d')
    {ls : List Phased.Label} {t : Phased.State (State g) (Item g)}
    (hrun : ((naiveEngine program g max_iterations).system (setup root s)).run
      ⟨setup root s, []⟩ ls = some t)
    (himproves : ((naiveEngine program g max_iterations).system (setup root s)).Always
      (Phased.Program.Meets Improves) ⟨setup root s, []⟩ ls)
    (hended : (naiveEngine program g max_iterations).Ended t) (hstop : t.shared.total_active = 0)
    (v : g.V) :
    Walks.Shortest (edge g) root max_dist v (t.shared.vertex v).data.dist := by
  have hphase' : (setup root s).phase = .start := by
    unfold setup
    rw [EngineState.activate_phase, (construct_fold g.visited s).1, hphase]
  have hinit : (setup root s).Counted (stray s).card ∧
      InPhase root s.vertex (setup root s) (0 : Multiset (Item g)) := by
    refine ⟨counted_setup htotal, ?_⟩
    unfold InPhase
    rw [hphase']
    exact ⟨rfl, ready_setup hroot hminor⟩
  obtain ⟨hcount, hinv⟩ : t.shared.Counted (stray s).card ∧
      InPhase root s.vertex t.shared (t.pool : Multiset (Item g)) := by
    refine Phased.Program.run_inv (P := Improves)
      (fun t pool => t.Counted (stray s).card ∧ InPhase root s.vertex t pool) hinit ?_ ?_ himproves hrun
    · rintro t x rest t' new ⟨hcount, hinv⟩ himp hx
      obtain ⟨rfl, rfl⟩ := Prod.mk.inj (Option.some.inj hx)
      exact ⟨EngineItem.counted_exec hcount x, hinv.exec himp⟩
    · rintro t t' new ⟨hcount, hinv⟩ hadv
      exact ⟨EngineState.counted_advance hcount hadv, hinv.advance hadv⟩
  obtain ⟨hpool, hret⟩ := hended
  rw [hpool] at hinv
  have hstray : ∀ v ∈ stray s, (t.shared.vertex v).active = true := by
    intro v hv
    obtain ⟨hvalid, hact⟩ : g.valid v = false ∧ (s.vertex v).active = true := by
      simpa [stray] using hv
    rw [hinv.frame hvalid]
    exact hact
  have hoff : ∀ v, g.valid v = true → (t.shared.vertex v).active = false := by
    intro v hv
    refine hcount.inactive hstop hstray ?_
    simp [stray, hv]
  obtain ⟨hsound, hrelaxed⟩ := hinv.relaxed hroot hoff hret
  refine shortest_of_relaxed (fun v => (t.shared.vertex v).data.dist) ?_ ?_ ?_ hbound v
  · rcases (hsound root hroot).root rfl with hzero | ⟨hact, _⟩
    · exact hzero.le
    · rw [hoff root hroot] at hact
      cases hact
  · rintro u v w ⟨e, he, rfl⟩
    exact hrelaxed u (v, e) he
  · intro v
    by_cases hv : g.valid v = true
    · exact (hsound v hv).dist
    · rw [hinv.frame (by simpa using hv)]
      exact .inl (hmemory v (by simpa using hv))

/-! ### Two neighbours in one round -/

/-- From 0 to 3 there are a way over 1 and one over 2. -/
def two_ways (a b : ℚ≥0) : AppGraph ℚ≥0 :=
  .ofEdges 4 AppGraph.four_lt [(0, 1, 1), (0, 2, 1), (1, 3, a), (2, 3, b)]

/-- The memory of a new graph, all zero. -/
def fresh (g : AppGraph ℚ≥0) : State g :=
  ⟨fun _ => ⟨⟨0, 0⟩, false, false, ⟨false, 0⟩, false⟩, 0, 0, 0, .start⟩

/-- All the items of a phase in the order in which they were spawned. -/
def phase_labels (items : ℕ) : List Phased.Label := .advance :: List.replicate items (.item 0)

/-- Construction, no gathers, and three rounds. -/
def two_ways_labels : List Phased.Label :=
  [4, 0, 4, 6, 4, 6, 4, 4].flatMap phase_labels

/-- What is left to do at the end of a run, whether the engine goes on, and the last distance. -/
def two_ways_end (a b : ℚ≥0) : Option (ℕ × EnginePhase × ℤ × ℚ) :=
  (((naiveEngine program (two_ways a b) none).system (setup (0 : Fin 4) (fresh (two_ways a b)))).run
    ⟨setup (0 : Fin 4) (fresh (two_ways a b)), []⟩ two_ways_labels).map fun t =>
      (t.pool.length, t.shared.phase, t.shared.total_active, (t.shared.vertex (3 : Fin 4)).data.dist)

theorem ended_of_phase {g : AppGraph ℚ≥0} {t : Phased.State (State g) (Item g)}
    (hpool : t.pool.length = 0) (hphase : t.shared.phase = .scattered)
    (htotal : t.shared.total_active = 0) : (naiveEngine program g none).Ended t := by
  refine ⟨List.eq_nil_of_length_eq_zero hpool, ?_⟩
  show t.shared.advance g none = none
  simp [EngineState.advance, hphase, EngineState.goes_on, htotal]

/-- **An overwritten distance**: vertex 3 is left with the longer way of two of the same round. -/
theorem overwritten_dist :
    let g := two_ways 1 5
    ∃ ls t, ((naiveEngine program g none).system (setup (0 : Fin 4) (fresh g))).run
        ⟨setup (0 : Fin 4) (fresh g), []⟩ ls = some t ∧
      (naiveEngine program g none).Ended t ∧ t.shared.total_active = 0 ∧
      ¬Walks.Shortest (edge g) (0 : Fin 4) max_dist (3 : Fin 4)
        (t.shared.vertex (3 : Fin 4)).data.dist := by
  have hend : two_ways_end 1 5 = some (0, .scattered, 0, 6) := by decide +kernel
  obtain ⟨t, hrun, ht⟩ := Option.map_eq_some_iff.mp hend
  obtain ⟨hpool, hphase, htotal, hdist⟩ : t.pool.length = 0 ∧ t.shared.phase = .scattered ∧
      t.shared.total_active = 0 ∧ (t.shared.vertex (3 : Fin 4)).data.dist = 6 := by
    simpa using ht
  refine ⟨two_ways_labels, t, hrun, ended_of_phase hpool hphase htotal, htotal, fun hshort => ?_⟩
  have hone : Walk (edge (two_ways 1 5)) (0 : Fin 4) (1 : Fin 4) (0 + 1) :=
    .snoc .nil ⟨1, AppGraph.adj_ofEdges.mpr (by simp), by norm_num⟩
  have htwo : Walk (edge (two_ways 1 5)) (0 : Fin 4) (3 : Fin 4) (0 + 1 + 1) :=
    .snoc hone ⟨1, AppGraph.adj_ofEdges.mpr (by simp), by norm_num⟩
  have hle := (hshort.1 ⟨_, htwo⟩).2 htwo
  rw [hdist] at hle
  norm_num at hle

/-- The shorter way comes last. -/
theorem dist_shortest_two_ways :
    let g := two_ways 5 1
    ∃ t, ((naiveEngine program g none).system (setup (0 : Fin 4) (fresh g))).run
        ⟨setup (0 : Fin 4) (fresh g), []⟩ two_ways_labels = some t ∧
      Walks.Shortest (edge g) (0 : Fin 4) max_dist (3 : Fin 4)
        (t.shared.vertex (3 : Fin 4)).data.dist := by
  intro g
  have hend : two_ways_end 5 1 = some (0, .scattered, 0, 2) := by decide +kernel
  obtain ⟨t, hrun, ht⟩ := Option.map_eq_some_iff.mp hend
  obtain ⟨hpool, hphase, htotal, -⟩ : t.pool.length = 0 ∧ t.shared.phase = .scattered ∧
      t.shared.total_active = 0 ∧ _ := by simpa using ht
  have hvalid : ∀ v : Fin 4, g.valid v = true := by
    intro v
    match v with
    | 0 | 1 | 2 | 3 => rfl
  have hwalk : ∀ v : Fin 4, ∃ d' ≤ max_dist, Walk (edge g) (0 : Fin 4) v d' := by
    have hmax : (0 + 1 + 1 : ℚ) ≤ max_dist := by norm_num [max_dist]
    have hone : Walk (edge g) (0 : Fin 4) (1 : Fin 4) (0 + 1) :=
      .snoc .nil ⟨1, AppGraph.adj_ofEdges.mpr (by simp), by norm_num⟩
    have htwo : Walk (edge g) (0 : Fin 4) (2 : Fin 4) (0 + 1) :=
      .snoc .nil ⟨1, AppGraph.adj_ofEdges.mpr (by simp), by norm_num⟩
    intro v
    match v with
    | 0 => exact ⟨0, max_dist_pos.le, .nil⟩
    | 1 => exact ⟨0 + 1, by linarith, hone⟩
    | 2 => exact ⟨0 + 1, by linarith, htwo⟩
    | 3 => exact ⟨0 + 1 + 1, hmax, .snoc htwo ⟨1, AppGraph.adj_ofEdges.mpr (by simp), by norm_num⟩⟩
  refine ⟨t, hrun, dist_shortest (s := fresh g) rfl rfl (hvalid 0) (fun v _ _ => rfl)
    (fun v hv => ?_) (fun v d _ => hwalk v) hrun (by decide +kernel)
    (ended_of_phase hpool hphase htotal) htotal (3 : Fin 4)⟩
  rw [hvalid v] at hv
  cases hv

end GraphlabSssp

end Grappa
