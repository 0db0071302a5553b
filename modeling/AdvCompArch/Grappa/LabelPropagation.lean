import AdvCompArch.Grappa.EngineRelaxation
import AdvCompArch.Lib.Components
import AdvCompArch.Lib.Subtasks

/-! # Connected components by label propagation

    The vertex program of `graphlab/cc.cpp` on the naive engine: every vertex keeps the least
    label that it has heard of, and passes a new one on to its neighbours.

    On an undirected graph the engine stops, and then the label of every vertex that the graph
    iterates over is the least id of its component (`labels_settle`), in whatever order gathers
    and scatters are delivered. -/

namespace Grappa

namespace LabelPropagation

open Multiset Phased EngineItem EngineState

/-- The label of `MinLabel()`. -/
def max_label : ℕ := 2 ^ 64 - 1

/-- The program object, without its cache. -/
structure Prog where
  do_scatter : Bool
  tmp_label : ℕ
  deriving DecidableEq

def program (E : Type) : VertexProgram ℕ Prog E ℕ where
  construct := fun _ p => { p with tmp_label := max_label }
  gather_edges := fun _ _ => true
  gather := fun label _ _ => label
  apply := fun label p min_label =>
    if min_label < label then (min_label, { do_scatter := true, tmp_label := min_label })
    else (label, { p with do_scatter := false })
  scatter_edges := fun _ p => p.do_scatter
  scatter := fun p _ label =>
    if p.tmp_label < label then (label, true, p.tmp_label) else (label, false, max_label)
  zero := max_label
  add := min

variable {E : Type} {g : AppGraph E}

variable (g) in
abbrev State := EngineState g.nv ℕ Prog ℕ

variable (g) in
abbrev Item := EngineItem g.nv Prog E ℕ

/-- The `forall` of `main` before `run_sync`: `v->label = i; v->activate();` -/
def setup (s : State g) : State g :=
  g.visited.foldl (fun s v => (s.setVertex v { s.vertex v with data := v }).activate v) s

/-- The `forall` of `main` after it, for a vertex: `if (v->label == i) nc++;` -/
def ncomponents (s : State g) : ℕ :=
  (g.visited.filter fun v => (s.vertex v).data = v).length

/-- `run_sync` is called with every vertex of the graph active and labelled by itself. -/
structure Started (s : State g) : Prop where
  phase : s.phase = .start
  counted : s.Counted 0
  active : ∀ v, (s.vertex v).active = g.valid v
  label : ∀ v, g.valid v = true → (s.vertex v).data = v

theorem setup_step {s : State g} {v : g.V} (u : g.V) :
    (((s.setVertex v { s.vertex v with data := v }).activate v).vertex u).active =
      ((s.vertex u).active || u = v) ∧
    (((s.setVertex v { s.vertex v with data := v }).activate v).vertex u).data =
      if u = v then u.val else (s.vertex u).data := by
  rw [activate_vertex, setVertex_apply]
  by_cases huv : u = v
  · subst huv
    simp
  · simp [huv]

theorem setup_fold (l : List g.V) (s : State g) :
    let s' := l.foldl (fun s v => (s.setVertex v { s.vertex v with data := v }).activate v) s
    s'.phase = s.phase ∧ (s.Counted 0 → s'.Counted 0) ∧
      ∀ u, (s'.vertex u).active = ((s.vertex u).active || u ∈ l) ∧
        (s'.vertex u).data = if u ∈ l then u.val else (s.vertex u).data := by
  induction l generalizing s with
  | nil => simp
  | cons v l ih =>
    obtain ⟨hphase, hcount, hvertex⟩ := ih ((s.setVertex v { s.vertex v with data := v }).activate v)
    simp only [List.foldl_cons]
    refine ⟨?_, fun h => hcount ?_, fun u => ?_⟩
    · rw [hphase, activate_phase, setVertex_phase]
    · have hset : (s.setVertex v { s.vertex v with data := v }).Counted 0 := h.setVertex rfl
      exact hset.activate
    · obtain ⟨hactive, hdata⟩ := setup_step (s := s) (v := v) u
      rw [(hvertex u).1, (hvertex u).2, hactive, hdata]
      by_cases huv : u = v
      · subst huv
        simp
      · simp [huv]

/-- `main` starts the engine as it should be. -/
theorem started_setup {s : State g} (hphase : s.phase = .start) (hcount : s.Counted 0)
    (hoff : ∀ v, (s.vertex v).active = false) : Started (setup s) := by
  obtain ⟨hphase', hcount', hvertex⟩ := setup_fold g.visited s
  refine ⟨hphase'.trans hphase, hcount' hcount, fun v => ?_, fun v hv => ?_⟩
  · unfold setup
    rw [(hvertex v).1, hoff v, Bool.false_or, Bool.eq_iff_iff, decide_eq_true_eq]
    exact AppGraph.mem_visited
  · unfold setup
    rw [(hvertex v).2, if_pos (AppGraph.mem_visited.mpr hv)]

/-! ### Labels of a component -/

variable (g) in
/-- `n` is the id of a vertex in the component of `v`, or no id. -/
def Known (v : g.V) (n : ℕ) : Prop := n = max_label ∨ ∃ w, g.Connected v w ∧ n = w.val

theorem Known.min {v : g.V} {m n : ℕ} (hm : Known g v m) (hn : Known g v n) :
    Known g v (min m n) := by
  rcases le_total m n with h | h
  · rwa [min_eq_left h]
  · rwa [min_eq_right h]

theorem Known.of_adj (hg : g.Undirected) {u v : g.V} (h : g.Adj u v) {n : ℕ} (hn : Known g u n) :
    Known g v n := by
  rcases hn with rfl | ⟨w, hw, rfl⟩
  · exact .inl rfl
  · exact .inr ⟨w, .head (hg u v h) hw, rfl⟩

/-- What holds of a visited vertex from its construction on. -/
structure Sound (v : g.V) (x : EngineVertex ℕ Prog ℕ) : Prop where
  le : x.data ≤ v
  label : Known g v x.data
  cache : Known g v x.cache
  tmp : Known g v x.prog.tmp_label

/-- An apply takes over the cached label if it is less, and lets it be scattered. -/
theorem applied_cases (x : EngineVertex ℕ Prog ℕ) :
    x.cache < x.data ∧ x.applied (program E) =
      { data := x.cache, active := false, active_minor_step := true, prog := ⟨true, x.cache⟩,
        cache := x.cache } ∨
    x.data ≤ x.cache ∧ x.applied (program E) =
      { x with active := false, active_minor_step := false, prog := ⟨false, x.prog.tmp_label⟩ } := by
  by_cases hlt : x.cache < x.data
  · refine .inl ⟨hlt, ?_⟩
    simp [EngineVertex.applied, program, hlt]
  · refine .inr ⟨not_lt.mp hlt, ?_⟩
    simp [EngineVertex.applied, program, hlt]

theorem scattered_cases (p : Prog) (e : E) (x : EngineVertex ℕ Prog ℕ) :
    p.tmp_label < x.data ∧ x.scattered (program E) p e =
      { x with active := true, cache := min x.cache p.tmp_label } ∨
    x.data ≤ p.tmp_label ∧ x.scattered (program E) p e =
      { x with cache := min x.cache max_label } := by
  by_cases hlt : p.tmp_label < x.data
  · refine .inl ⟨hlt, ?_⟩
    simp [EngineVertex.scattered, program, hlt]
  · refine .inr ⟨not_lt.mp hlt, ?_⟩
    simp [EngineVertex.scattered, program, hlt]

theorem Sound.applied {v : g.V} {x : EngineVertex ℕ Prog ℕ} (h : Sound v x) :
    Sound v (x.applied (program E)) := by
  rcases applied_cases (E := E) x with ⟨hlt, heq⟩ | ⟨_, heq⟩ <;> rw [heq]
  · exact ⟨le_trans hlt.le h.le, h.cache, h.cache, h.cache⟩
  · exact ⟨h.le, h.label, h.cache, h.tmp⟩

/-- The labels as values of a relaxation without cost. -/
def relaxation (hg : g.Undirected) : Relaxation (program E) g ℕ where
  cur := fun label => label
  wait := fun _ cache => cache
  out := fun p => p.tmp_label
  cost := fun _ label => label
  Known := Known g
  Sound := Sound
  cost_mono := fun _ _ _ h => h
  applied_cur := by
    intro x
    rcases applied_cases (E := E) x with ⟨hlt, heq⟩ | ⟨hle, heq⟩ <;> rw [heq]
    · exact (min_eq_right hlt.le).symm
    · exact (min_eq_left hle).symm
  applied_out := by
    intro x hstep
    rcases applied_cases (E := E) x with ⟨_, heq⟩ | ⟨_, heq⟩ <;> rw [heq] at hstep ⊢
    cases hstep
  applied_same := by
    intro x hstep
    rcases applied_cases (E := E) x with ⟨_, heq⟩ | ⟨_, heq⟩ <;> rw [heq] at hstep ⊢
    cases hstep
  scattered_cur := by
    intro p e x
    rcases scattered_cases p e x with ⟨_, heq⟩ | ⟨_, heq⟩ <;> rw [heq]
  scattered_wait := by
    intro p e x
    rcases scattered_cases p e x with ⟨_, heq⟩ | ⟨hle, _⟩
    · rw [heq]
      exact .inr ⟨rfl, min_le_right _ _⟩
    · exact .inl hle
  sound_applied := fun v x h _ => h.applied
  sound_scattered := by
    intro v p e x h hknown _
    rcases scattered_cases p e x with ⟨_, heq⟩ | ⟨_, heq⟩ <;> rw [heq]
    · exact ⟨h.le, h.label, h.cache.min hknown, h.tmp⟩
    · exact ⟨h.le, h.label, h.cache.min (.inl rfl), h.tmp⟩
  sound_minor := fun v x b h => ⟨h.le, h.label, h.cache, h.tmp⟩
  known_applied := fun u v e x he h _ _ => h.applied.label.of_adj hg ⟨e, he⟩

/-- The cache is a minimum, so that no scatter makes it worse. -/
theorem improves (hg : g.Undirected) (s : State g) (x : Item g) : (relaxation hg).Improves s x := by
  cases x with
  | scatter_edge p v e =>
    intro _
    rcases scattered_cases p e (s.vertex v) with ⟨_, heq⟩ | ⟨_, heq⟩
    · show ((s.vertex v).scattered (program E) p e).cache ≤ (s.vertex v).cache
      rw [heq]
      exact min_le_left _ _
    · show ((s.vertex v).scattered (program E) p e).cache ≤ (s.vertex v).cache
      rw [heq]
      exact min_le_left _ _
  | construct v | gather v | gather_edge v u e | post_delta u delta | apply v | scatter v => trivial

/-! ### The phases -/

/-- Until the program objects are constructed. -/
structure Constructing (memory : g.V → EngineVertex ℕ Prog ℕ) (s : State g)
    (pool : Multiset (Item g)) : Prop where
  items : ∀ x ∈ pool, ∃ v, x = .construct v ∧ g.valid v = true
  frame : ∀ v, g.valid v = false → s.vertex v = memory v
  active : ∀ v, g.valid v = true → (s.vertex v).active = true
  label : ∀ v, g.valid v = true → (s.vertex v).data = v
  constructed : ∀ v, g.valid v = true → .construct v ∈ pool ∨
    (s.vertex v).cache = max_label ∧ (s.vertex v).prog.tmp_label = max_label ∧ 0 < s.ct

/-- The items of the gather phase. -/
def Gathers : Item g → Prop
  | .gather _ => True
  | .gather_edge v u _ => g.Adj v u
  | .post_delta u delta => g.valid u = true ∧ Known g u delta
  | _ => False

/-- Until the labels are gathered: an edge is still to be done, or its target knows the label. -/
structure Gathering (memory : g.V → EngineVertex ℕ Prog ℕ) (s : State g)
    (pool : Multiset (Item g)) : Prop where
  items : ∀ x ∈ pool, Gathers x
  frame : ∀ v, g.valid v = false → s.vertex v = memory v
  active : ∀ v, g.valid v = true → (s.vertex v).active = true
  sound : ∀ v, g.valid v = true → Sound v (s.vertex v)
  edge : ∀ u, ∀ e ∈ g.adj u, .gather u ∈ pool ∨ .gather_edge u e.1 e.2 ∈ pool ∨
    .post_delta e.1 (s.vertex u).data ∈ pool ∨ (s.vertex e.1).cache ≤ (s.vertex u).data

/-- What holds of the last phase. -/
def InPhase (hg : g.Undirected) (memory : g.V → EngineVertex ℕ Prog ℕ) (s : State g)
    (pool : Multiset (Item g)) : Prop :=
  match s.phase with
  | .start => pool = 0 ∧ Started s ∧ s.vertex = memory
  | .constructed => Constructing memory s pool
  | .gathered => Gathering memory s pool
  | .applied => (relaxation hg).Applying memory s pool
  | .scattered => (relaxation hg).Scattering memory s pool

/-! ### Items -/

variable {s s' : State g} {pool rest : Multiset (Item g)} {x : Item g}
  {memory : g.V → EngineVertex ℕ Prog ℕ}

theorem Constructing.exec (h : Constructing memory s (x ::ₘ rest)) :
    Constructing memory (x.exec (program E) g s).1 (rest + (x.exec (program E) g s).2) := by
  obtain ⟨v, rfl, hvalid⟩ := h.items _ (mem_cons_self _ _)
  have hnew : ((construct v).exec (program E) g s).2 = [] := rfl
  have hct : ((construct v).exec (program E) g s).1.ct = s.ct + 1 := by
    simp [exec, program]
  rw [hnew, coe_nil, add_zero]
  constructor
  · intro x hx
    exact h.items x (mem_cons_of_mem hx)
  · intro u hu
    rw [exec_construct_vertex, if_neg (by rintro rfl; rw [hvalid] at hu; cases hu)]
    exact h.frame u hu
  · intro u hu
    rw [exec_construct_vertex]
    split
    · exact h.active v hvalid
    · exact h.active u hu
  · intro u hu
    rw [exec_construct_vertex]
    split
    · rename_i huv
      rw [← h.label u hu, huv]
    · exact h.label u hu
  · intro u hu
    rw [exec_construct_vertex, hct]
    by_cases huv : u = v
    · rw [if_pos huv]
      exact .inr ⟨rfl, rfl, by omega⟩
    · rw [if_neg huv]
      rcases h.constructed u hu with hmem | ⟨hcache, htmp, _⟩
      · exact .inl ((mem_cons.mp hmem).resolve_left (by simpa using huv))
      · exact .inr ⟨hcache, htmp, by omega⟩

theorem Gathering.exec (hg : g.Undirected) (h : Gathering memory s (x ::ₘ rest)) :
    Gathering memory (x.exec (program E) g s).1 (rest + (x.exec (program E) g s).2) := by
  have hitem := h.items _ (mem_cons_self _ _)
  have hrest : ∀ y ∈ rest, Gathers y := fun y hy => h.items y (mem_cons_of_mem hy)
  cases x with
  | construct v | apply v | scatter v | scatter_edge p u e => cases hitem
  | gather v =>
    show Gathering memory s
      (rest + ((g.adj v).map fun e => gather_edge v e.1 e.2 : List (Item g)))
    refine ⟨?_, h.frame, h.active, h.sound, ?_⟩
    · intro y hy
      rcases mem_add.mp hy with hy | hy
      · exact hrest y hy
      · obtain ⟨e, he, rfl⟩ := List.mem_map.mp hy
        exact ⟨e.2, he⟩
    · intro u e he
      rcases h.edge u e he with hmem | hmem | hmem | hle
      · by_cases huv : u = v
        · -- the edge is one of those that `u` now goes through
          subst huv
          exact .inr (.inl (mem_add.mpr (.inr (List.mem_map.mpr ⟨e, he, rfl⟩))))
        · exact .inl (Relaxation.mem_stays hmem (by simpa using huv))
      · exact .inr (.inl (Relaxation.mem_stays hmem (by simp)))
      · exact .inr (.inr (.inl (Relaxation.mem_stays hmem (by simp))))
      · exact .inr (.inr (.inr hle))
  | gather_edge v w e =>
    have hadj : g.Adj v w := hitem
    show Gathering memory s (rest + ([.post_delta w (s.vertex v).data] : List (Item g)))
    refine ⟨?_, h.frame, h.active, h.sound, ?_⟩
    · intro y hy
      rcases mem_add.mp hy with hy | hy
      · exact hrest y hy
      · obtain rfl := List.mem_singleton.mp hy
        exact ⟨hadj.valid_right, (h.sound v hadj.valid_left).label.of_adj hg hadj⟩
    · intro u e' he'
      rcases h.edge u e' he' with hmem | hmem | hmem | hle
      · exact .inl (Relaxation.mem_stays hmem (by simp))
      · by_cases heq : (gather_edge u e'.1 e'.2 : Item g) = .gather_edge v w e
        · obtain ⟨rfl, rfl, rfl⟩ := gather_edge.inj heq
          exact .inr (.inr (.inl (mem_add.mpr (.inr (List.mem_singleton_self _)))))
        · exact .inr (.inl (Relaxation.mem_stays hmem heq))
      · exact .inr (.inr (.inl (Relaxation.mem_stays hmem (by simp))))
      · exact .inr (.inr (.inr hle))
  | post_delta w delta =>
    obtain ⟨hvalid, hknown⟩ := hitem
    have hnew : ((post_delta w delta).exec (program E) g s).2 = [] := rfl
    have hvertex : ∀ u, ((post_delta w delta).exec (program E) g s).1.vertex u =
        { s.vertex u with cache := if u = w then min (s.vertex u).cache delta else (s.vertex u).cache } :=
      fun u => post_delta_vertex
    rw [hnew]
    refine ⟨?_, ?_, ?_, ?_, ?_⟩
    · intro y hy
      exact hrest y (by simpa using hy)
    · intro u hu
      rw [hvertex, if_neg (by rintro rfl; rw [hvalid] at hu; cases hu)]
      exact h.frame u hu
    · intro u hu
      rw [hvertex]
      exact h.active u hu
    · intro u hu
      have hsound := h.sound u hu
      rw [hvertex]
      refine ⟨hsound.le, hsound.label, ?_, hsound.tmp⟩
      show Known g u (if u = w then min (s.vertex u).cache delta else (s.vertex u).cache)
      split
      · rename_i huw
        subst huw
        exact hsound.cache.min hknown
      · exact hsound.cache
    · intro u e he
      rw [hvertex, hvertex]
      rcases h.edge u e he with hmem | hmem | hmem | hle
      · exact .inl (Relaxation.mem_stays hmem (by simp))
      · exact .inr (.inl (Relaxation.mem_stays hmem (by simp)))
      · by_cases heq : (post_delta e.1 (s.vertex u).data : Item g) = .post_delta w delta
        · obtain ⟨rfl, rfl⟩ := post_delta.inj heq
          refine .inr (.inr (.inr ?_))
          rw [if_pos rfl]
          exact min_le_right _ _
        · exact .inr (.inr (.inl (Relaxation.mem_stays hmem heq)))
      · refine .inr (.inr (.inr ?_))
        show (if e.1 = w then min (s.vertex e.1).cache delta else (s.vertex e.1).cache) ≤ (s.vertex u).data
        split
        · exact le_trans (min_le_left _ _) hle
        · exact hle

/-! ### The invariant -/

/-- What every reachable state satisfies. -/
def Inv (hg : g.Undirected) (memory : g.V → EngineVertex ℕ Prog ℕ) (s : State g)
    (pool : Multiset (Item g)) : Prop := s.Counted 0 ∧ InPhase hg memory s pool

variable {hg : g.Undirected}

theorem Inv.exec (h : Inv hg memory s (x ::ₘ rest)) :
    Inv hg memory (x.exec (program E) g s).1 (rest + (x.exec (program E) g s).2) := by
  obtain ⟨hcount, hphase⟩ := h
  refine ⟨counted_exec hcount x, ?_⟩
  unfold InPhase at hphase ⊢
  rw [exec_phase]
  split at hphase
  case h_1 => exact absurd hphase.1 (cons_ne_zero)
  case h_2 => exact hphase.exec
  case h_3 => exact hphase.exec hg
  case h_4 => exact hphase.exec
  case h_5 => exact hphase.exec (improves hg s x)

theorem Constructing.advance (h : Constructing memory s 0) :
    Gathering memory { s with iteration := 0, phase := .gathered }
      ((if 0 < s.ct then g.visited.map .gather else [] : List (Item g)) : Multiset (Item g)) := by
  have hdone : ∀ v, g.valid v = true →
      (s.vertex v).cache = max_label ∧ (s.vertex v).prog.tmp_label = max_label ∧ 0 < s.ct :=
    fun v hv => (h.constructed v hv).resolve_left (notMem_zero _)
  refine ⟨?_, h.frame, h.active, fun v hv => ?_, fun u e he => ?_⟩
  · intro x hx
    split at hx
    · obtain ⟨v, _, rfl⟩ := List.mem_map.mp hx
      trivial
    · cases hx
  · obtain ⟨hcache, htmp, _⟩ := hdone v hv
    exact ⟨(h.label v hv).le, .inr ⟨v, .refl, h.label v hv⟩, .inl hcache, .inl htmp⟩
  · have hu := (g.valid_of_adj u e he).1
    rw [if_pos (hdone u hu).2.2]
    exact .inl (Relaxation.mem_visited_map hu)

theorem Gathering.advance (h : Gathering memory s 0) :
    (relaxation hg).Applying memory { s with phase := .applied }
      ((g.visited.map .apply : List (Item g)) : Multiset (Item g)) := by
  refine ⟨?_, h.frame, h.sound, fun v hv _ => Relaxation.mem_visited_map hv,
    fun v hv hno => ?_, fun u e he => ?_⟩
  · intro x hx
    obtain ⟨v, hv, rfl⟩ := List.mem_map.mp hx
    exact ⟨v, rfl, AppGraph.mem_visited.mp hv⟩
  · have hact := h.active v hv
    rw [show (s.vertex v).active = false from hno] at hact
    cases hact
  · rcases h.edge u e he with hmem | hmem | hmem | hle
    · cases hmem
    · cases hmem
    · cases hmem
    · exact .inl (.inr ⟨h.active e.1 (g.valid_of_adj u e he).2, hle⟩)

theorem Inv.advance {new : List (Item g)} (h : Inv hg memory s 0)
    (hadv : s.advance g none = some (s', new)) : Inv hg memory s' new := by
  obtain ⟨hcount, hphase⟩ := h
  refine ⟨counted_advance hcount hadv, ?_⟩
  unfold InPhase at hphase
  unfold EngineState.advance at hadv
  split at hphase <;> rename_i hp <;> rw [hp] at hadv
  · cases hadv
    obtain ⟨_, hstart, hmemory⟩ := hphase
    refine ⟨?_, fun v _ => by rw [← hmemory], fun v hv => ?_, hstart.label,
      fun v hv => .inl (Relaxation.mem_visited_map hv)⟩
    · intro x hx
      obtain ⟨v, hv, rfl⟩ := List.mem_map.mp hx
      exact ⟨v, rfl, AppGraph.mem_visited.mp hv⟩
    · exact (hstart.active v).trans hv
  · cases hadv
    exact hphase.advance
  · simp only at hadv
    split at hadv
    · cases hadv
      exact hphase.advance
    · cases hadv
  · cases hadv
    exact hphase.advance
  · simp only at hadv
    split at hadv
    · cases hadv
      exact hphase.advance
    · cases hadv

/-! ### Termination

    Labels only get less, and a round in which none does is the last one: what it has applied is
    not active any more, and nothing is scattered. -/

def rank : EnginePhase → ℕ
  | .start => 3
  | .constructed => 2
  | .gathered => 1
  | .applied | .scattered => 0

/-- A scatter may still activate somebody, or has. -/
def Unrest (s : State g) (pool : Multiset (Item g)) : Prop :=
  (∃ v, g.valid v = true ∧ (s.vertex v).active_minor_step = true) ∨
    (∃ p u e, scatter_edge p u e ∈ pool) ∨
    ∃ v, g.valid v = true ∧ (s.vertex v).active = true

open Classical in
/-- How often the phase can change before the next label does. -/
noncomputable def unrest (s : State g) (pool : Multiset (Item g)) : ℕ :=
  match s.phase with
  | .applied => if ∃ v, g.valid v = true ∧ (s.vertex v).active_minor_step = true then 3 else 1
  | .scattered => if Unrest s pool then 2 else 0
  | _ => 0

/-- What an item spawns is lesser. -/
def itemRank : Item g → ℕ
  | .gather _ => 2
  | .gather_edge _ _ _ | .scatter _ => 1
  | _ => 0

noncomputable def left (s : State g) (pool : Multiset (Item g)) : ℕ ×ₗ ℕ ×ₗ ℕ :=
  toLex (rank s.phase, toLex (∑ v, (s.vertex v).data, unrest s pool))

theorem exec_lesser (x : Item g) : ∀ y ∈ (x.exec (program E) g s).2, itemRank y < itemRank x := by
  cases x with
  | construct v | post_delta u delta | scatter_edge p u e =>
    exact fun _ hy => absurd hy List.not_mem_nil
  | gather v =>
    intro y hy
    obtain ⟨e, -, rfl⟩ := List.mem_map.mp hy
    simp [itemRank]
  | gather_edge v u e => simp [exec, itemRank]
  | apply v =>
    rw [exec_apply_spawns]
    exact fun _ hy => absurd hy List.not_mem_nil
  | scatter v =>
    rw [exec_scatter_spawns]
    intro y hy
    obtain ⟨e, -, rfl⟩ := List.mem_map.mp (List.mem_ite_nil_right.mp hy).2
    exact Nat.one_pos

/-- A label changes only by an apply, and then it gets less. -/
theorem data_exec (x : Item g) (u : g.V) :
    ((x.exec (program E) g s).1.vertex u).data ≤ (s.vertex u).data := by
  cases x with
  | construct v =>
    rw [exec_construct_vertex]
    split
    · rename_i huv
      rw [huv]
    · rfl
  | gather v | gather_edge v w e => rfl
  | post_delta w delta =>
    simp only [exec]
    rw [post_delta_vertex]
  | apply v =>
    by_cases hv : (s.vertex v).active = true
    · rw [exec_apply_vertex hv]
      split
      · rename_i huv
        rw [huv]
        rcases applied_cases (E := E) (s.vertex v) with ⟨hlt, heq⟩ | ⟨_, heq⟩ <;> rw [heq]
        exact hlt.le
      · exact le_rfl
    · rw [exec_apply_inactive (by simpa using hv)]
  | scatter v => rw [exec_scatter_vertex]
  | scatter_edge p w e =>
    rw [exec_scatter_edge_vertex]
    split
    · rename_i huw
      rw [huw]
      rcases scattered_cases p e (s.vertex w) with ⟨_, heq⟩ | ⟨_, heq⟩ <;> rw [heq]
    · exact le_rfl

theorem sum_data_exec (x : Item g) :
    ∑ u, ((x.exec (program E) g s).1.vertex u).data ≤ ∑ u, (s.vertex u).data :=
  Finset.sum_le_sum fun u _ => data_exec x u

theorem minor_apply {v : g.V} (hv : (s.vertex v).active = true)
    (heq : ∑ u, (((apply v).exec (program E) g s).1.vertex u).data =
      ∑ u, (s.vertex u).data) {u : g.V}
    (hstep : (((apply v).exec (program E) g s).1.vertex u).active_minor_step = true) :
    (s.vertex u).active_minor_step = true := by
  rw [exec_apply_vertex hv] at hstep
  split at hstep
  · rename_i huv
    subst huv
    rcases applied_cases (E := E) (s.vertex u) with ⟨hlt, happ⟩ | ⟨_, happ⟩
    · have hless : (((apply u).exec (program E) g s).1.vertex u).data < (s.vertex u).data := by
        rw [exec_apply_vertex hv, if_pos rfl, happ]
        exact hlt
      exact absurd heq (Finset.sum_lt_sum (fun w _ => data_exec (.apply u) w)
        ⟨u, Finset.mem_univ u, hless⟩).ne
    · rw [happ] at hstep
      cases hstep
  · exact hstep

theorem Unrest.of_exec (h : (relaxation hg).Scattering memory s (x ::ₘ rest))
    (hU : Unrest (x.exec (program E) g s).1 (rest + (x.exec (program E) g s).2)) :
    Unrest s (x ::ₘ rest) := by
  have hitem := h.items _ (mem_cons_self _ _)
  cases x with
  | construct v | gather v | gather_edge v u e | post_delta u delta | apply v => cases hitem
  | scatter v =>
    rw [exec_scatter_spawns] at hU
    rcases hU with ⟨u, hu, hstep⟩ | ⟨p, u, e, hmem⟩ | ⟨u, hu, hact⟩
    · rw [exec_scatter_vertex] at hstep
      exact .inl ⟨u, hu, (Bool.and_eq_true_iff.mp hstep).1⟩
    · rcases mem_add.mp hmem with hmem | hmem
      · exact .inr (.inl ⟨p, u, e, mem_cons_of_mem hmem⟩)
      · split at hmem
        · rename_i hstep
          exact .inl ⟨v, hitem, hstep⟩
        · cases hmem
    · rw [exec_scatter_vertex] at hact
      exact .inr (.inr ⟨u, hu, hact⟩)
  | scatter_edge p w e => exact .inr (.inl ⟨p, w, e, mem_cons_self _ _⟩)

theorem unrest_exec (h : InPhase hg memory s (x ::ₘ rest))
    (heq : ∑ u, ((x.exec (program E) g s).1.vertex u).data = ∑ u, (s.vertex u).data) :
    unrest (x.exec (program E) g s).1 (rest + (x.exec (program E) g s).2) ≤
      unrest s (x ::ₘ rest) := by
  unfold InPhase at h
  unfold unrest
  rw [exec_phase]
  split at h <;> rename_i hp <;> rw [hp] <;> simp only
  · obtain ⟨v, rfl, _⟩ := h.items _ (mem_cons_self _ _)
    by_cases hv : (s.vertex v).active = true
    · split
      · rename_i hex
        obtain ⟨u, hu, hstep⟩ := hex
        rw [if_pos ⟨u, hu, minor_apply hv heq hstep⟩]
      · split <;> omega
    · rw [exec_apply_inactive (by simpa using hv)]
  · split
    · rename_i hU
      rw [if_pos (hU.of_exec h)]
    · exact Nat.zero_le _

theorem left_exec (h : InPhase hg memory s (x ::ₘ rest)) :
    left (x.exec (program E) g s).1 (rest + (x.exec (program E) g s).2) < left s (x ::ₘ rest) ∨
      left (x.exec (program E) g s).1 (rest + (x.exec (program E) g s).2) = left s (x ::ₘ rest) := by
  unfold left
  rw [exec_phase]
  rcases (sum_data_exec (s := s) x).lt_or_eq with hlt | heq
  · exact .inl (Prod.Lex.toLex_lt_toLex.mpr (.inr ⟨rfl, Prod.Lex.toLex_lt_toLex.mpr (.inl hlt)⟩))
  · rw [heq]
    rcases (unrest_exec h heq).lt_or_eq with hlt | heq'
    · exact .inl (Prod.Lex.toLex_lt_toLex.mpr (.inr ⟨rfl, Prod.Lex.toLex_lt_toLex.mpr
        (.inr ⟨rfl, hlt⟩)⟩))
    · exact .inr (by rw [heq'])

theorem left_lt_of_rank {new : List (Item g)} (h : rank s'.phase < rank s.phase) :
    left s' new < left s pool := Prod.Lex.toLex_lt_toLex.mpr (.inl h)

theorem left_lt_of_unrest {new : List (Item g)} (hrank : rank s'.phase = rank s.phase)
    (hvertex : s'.vertex = s.vertex) (h : unrest s' new < unrest s pool) :
    left s' new < left s pool := by
  unfold left
  rw [hvertex, hrank]
  exact Prod.Lex.toLex_lt_toLex.mpr (.inr ⟨rfl, Prod.Lex.toLex_lt_toLex.mpr (.inr ⟨rfl, h⟩)⟩)

theorem unrest_applied (h : (relaxation hg).Applying memory s 0) (hp : s.phase = .applied) :
    unrest { s with iteration := s.iteration + 1, phase := .scattered }
      ((g.visited.map .scatter : List (Item g)) : Multiset (Item g)) < unrest s 0 := by
  unfold unrest
  rw [hp]
  simp only
  by_cases hex : ∃ v, g.valid v = true ∧ (s.vertex v).active_minor_step = true
  · rw [if_pos hex]
    split <;> omega
  · rw [if_neg hex, if_neg]
    · omega
    · rintro (hstep | ⟨p, u, e, hmem⟩ | ⟨v, hv, hact⟩)
      · exact hex hstep
      · obtain ⟨v, _, heq⟩ := List.mem_map.mp hmem
        cases heq
      · have hno := h.inactive hv
        rw [show (s.vertex v).active = true from hact] at hno
        cases hno

theorem unrest_scattered (h : (relaxation hg).Scattering memory s 0) (hp : s.phase = .scattered)
    (hact : ∃ v, g.valid v = true ∧ (s.vertex v).active = true) :
    unrest { s with phase := .applied } ((g.visited.map .apply : List (Item g)) : Multiset (Item g)) <
      unrest s 0 := by
  have hU : Unrest s 0 := .inr (.inr hact)
  unfold unrest
  rw [hp]
  simp only
  rw [if_pos hU, if_neg]
  · omega
  · rintro ⟨v, hv, hstep⟩
    rw [h.no_minor hv] at hstep
    cases hstep

theorem left_advance (hoff : ∀ v, g.valid v = false → (memory v).active = false) {new : List (Item g)}
    (h : Inv hg memory s 0) (hadv : s.advance g none = some (s', new)) : left s' new < left s 0 := by
  obtain ⟨hcount, hphase⟩ := h
  unfold InPhase at hphase
  unfold advance at hadv
  split at hphase <;> rename_i hp <;> rw [hp] at hadv
  · cases hadv
    exact left_lt_of_rank (by simp [hp, rank])
  · cases hadv
    exact left_lt_of_rank (by simp [hp, rank])
  · simp only at hadv
    split at hadv
    · cases hadv
      exact left_lt_of_rank (by simp [hp, rank])
    · cases hadv
  · cases hadv
    exact left_lt_of_unrest (by simp [hp, rank]) rfl (unrest_applied hphase hp)
  · simp only at hadv
    split at hadv
    · rename_i hgo
      cases hadv
      have hne : s.total_active ≠ 0 := by simpa [goes_on] using hgo
      obtain ⟨v, _, hact⟩ := EngineState.Counted.exists_active (S := ∅) hcount hne (by simp)
      have hv : g.valid v = true := by
        by_contra hv
        rw [hphase.frame v (by simpa using hv), hoff v (by simpa using hv)] at hact
        cases hact
      exact left_lt_of_unrest (by simp [hp, rank]) rfl (unrest_scattered hphase hp ⟨v, hv, hact⟩)
    · cases hadv

/-! ### Results -/

theorem Started.inv (h : Started s) : Inv hg s.vertex s (0 : Multiset (Item g)) := by
  refine ⟨h.counted, ?_⟩
  unfold InPhase
  rw [h.phase]
  exact ⟨rfl, h, rfl⟩

theorem Inv.data_le (h : Inv hg memory s (0 : Multiset (Item g))) (hret : s.advance g none = none) :
    (∀ v, g.valid v = true → Sound v (s.vertex v)) ∧
      ∀ u v, g.Adj u v → (s.vertex v).data ≤ (s.vertex u).data := by
  obtain ⟨hcount, hphase⟩ := h
  have hoff : s.total_active = 0 → ∀ v, (s.vertex v).active = false := fun hzero v =>
    EngineState.Counted.inactive (S := ∅) hcount hzero (by simp) (Finset.notMem_empty v)
  unfold InPhase at hphase
  unfold EngineState.advance at hret
  split at hphase <;> rename_i hp <;> rw [hp] at hret <;>
    simp only [reduceCtorEq, ite_eq_right_iff, imp_false, goes_on, Option.all_none,
      Bool.and_true, ne_eq, decide_eq_true_eq, not_not] at hret
  · refine ⟨hphase.sound, fun u v huv => ?_⟩
    have hv := hphase.active v huv.valid_right
    rw [hoff hret v] at hv
    cases hv
  · refine ⟨hphase.sound, fun u v ⟨e, he⟩ => ?_⟩
    rcases hphase.settled he with hle | ⟨hact, _⟩
    · exact hle
    · rw [hoff hret v] at hact
      cases hact

theorem data_le_of_connected (h : ∀ u v, g.Adj u v → (s.vertex v).data ≤ (s.vertex u).data)
    {u v : g.V} (huv : g.Connected u v) : (s.vertex v).data ≤ (s.vertex u).data := by
  induction huv with
  | refl => exact le_rfl
  | tail _ hadj ih => exact le_trans (h _ _ hadj) ih

theorem isLeast_of_data_le (hg : g.Undirected)
    (hsound : ∀ v, g.valid v = true → Sound v (s.vertex v))
    (h : ∀ u v, g.Adj u v → (s.vertex v).data ≤ (s.vertex u).data) {v : g.V}
    (hv : g.valid v = true) :
    IsLeast {n | ∃ w, g.Connected v w ∧ n = w.val} (s.vertex v).data := by
  constructor
  · rcases (hsound v hv).label with hmax | hknown
    · have hle := (hsound v hv).le
      have hnv := g.nv_lt
      unfold max_label at hmax
      omega
    · exact hknown
  · rintro n ⟨w, hw, rfl⟩
    exact le_trans (data_le_of_connected h (hw.symm hg)) (hsound w (hw.valid hv)).le

theorem ncomponents_eq (hg : g.Undirected)
    (h : ∀ v, g.valid v = true → IsLeast {n | ∃ w, g.Connected v w ∧ n = w.val} (s.vertex v).data) :
    ncomponents s = (Components.classes g.Connected {v | g.valid v = true}).ncard := by
  -- a vertex is represented by the one its label names
  let rep : g.V → g.V := fun v => ⟨min (s.vertex v).data v, lt_of_le_of_lt (min_le_right _ _) v.isLt⟩
  have hrep : ∀ v, g.valid v = true → (rep v).val = (s.vertex v).data := by
    intro v hv
    exact min_eq_left ((h v hv).2 ⟨v, .refl, rfl⟩)
  have hconn : ∀ v, g.valid v = true → g.Connected v (rep v) := by
    intro v hv
    obtain ⟨w, hw, heq⟩ := (h v hv).1
    rwa [show rep v = w from Fin.ext ((hrep v hv).trans heq)]
  have hset : ((g.visited.filter fun v => (s.vertex v).data = v).toFinset : Set g.V) =
      {v | v ∈ {v | g.valid v = true} ∧ rep v = v} := by
    ext v
    simp only [List.coe_toFinset, List.mem_filter, AppGraph.mem_visited, decide_eq_true_eq,
      Set.mem_ofPred_eq]
    refine and_congr_right fun hv => ?_
    rw [← hrep v hv, Fin.ext_iff]
  have hnodup : (g.visited.filter fun v => (s.vertex v).data = v).Nodup :=
    ((List.nodup_finRange _).filter _).filter _
  have hconst : ∀ v ∈ {v | g.valid v = true}, ∀ w, g.Connected v w → rep w = rep v := by
    intro v hv w hw
    have hvalid := hw.valid hv
    have hsame : {n | ∃ u, g.Connected w u ∧ n = u.val} = {n | ∃ u, g.Connected v u ∧ n = u.val} := by
      ext n
      constructor
      · rintro ⟨u, hu, hn⟩
        exact ⟨u, hw.trans hu, hn⟩
      · rintro ⟨u, hu, hn⟩
        exact ⟨u, (hw.symm hg).trans hu, hn⟩
    have hw' := h w hvalid
    rw [hsame] at hw'
    apply Fin.ext
    rw [hrep w hvalid, hrep v hv]
    exact hw'.unique (h v hv)
  have hcount := Components.ncard_classes hg.setoid.iseqv (S := {v | g.valid v = true})
    (fun v hv => (hconn v hv).valid hv) hconn hconst
  rw [← hset, Set.ncard_coe_finset, List.toFinset_card_of_nodup hnodup] at hcount
  exact hcount.symm

/-- **Label propagation** stops, and then every vertex of the graph is labelled with the least id
    of its component; `main` then counts the components. -/
theorem labels_settle (hg : g.Undirected) (hstart : Started s) :
    ((naiveEngine (program E) g none).system s).Terminates ⟨s, []⟩ ∧
    ∀ t, ((naiveEngine (program E) g none).system s).Reachable t →
      (∀ l, (naiveEngine (program E) g none).next t l = none) →
      (∀ v, g.valid v = true →
        IsLeast {n | ∃ w, g.Connected v w ∧ n = w.val} (t.shared.vertex v).data) ∧
      ncomponents t.shared = (Components.classes g.Connected {v | g.valid v = true}).ncard := by
  have hoff : ∀ v, g.valid v = false → (s.vertex v).active = false :=
    fun v hv => (hstart.active v).trans hv
  have hexec : ∀ (t : State g) (x : Item g) rest t' (new : List (Item g)), Inv hg s.vertex t (x ::ₘ rest) →
      (naiveEngine (program E) g none).exec t x = some (t', new) →
      Inv hg s.vertex t' (rest + new) ∧ (left t' (rest + new) < left t (x ::ₘ rest) ∨
        left t' (rest + new) = left t (x ::ₘ rest) ∧ ∀ y ∈ new, itemRank y < itemRank x) := by
    intro t x rest t' new h hx
    obtain ⟨rfl, rfl⟩ := Prod.mk.inj (Option.some.inj hx)
    exact ⟨h.exec, (left_exec h.2).imp_right fun heq => ⟨heq, exec_lesser x⟩⟩
  have hadvance : ∀ (t t' : State g) (new : List (Item g)), Inv hg s.vertex t 0 →
      (naiveEngine (program E) g none).advance t = some (t', new) →
      Inv hg s.vertex t' new ∧ left t' new < left t 0 :=
    fun t t' new h hadv => ⟨h.advance hadv, left_advance hoff h hadv⟩
  refine ⟨Program.terminates_of_rank (Inv hg s.vertex) itemRank left hstart.inv hexec
    hadvance, fun t ht hstuck => ?_⟩
  have hinv : Inv hg s.vertex t.shared (t.pool : Multiset (Item g)) :=
    Program.Reachable.inv (Inv hg s.vertex) hstart.inv (fun t x rest t' new h hx => (hexec t x rest t' new h hx).1)
      (fun t t' new h hadv => (hadvance t t' new h hadv).1) ht
  obtain ⟨hpool, hret⟩ := Program.ended_of_stuck (fun _ _ => Option.some_ne_none _) hstuck
  rw [hpool] at hinv
  obtain ⟨hsound, hle⟩ := hinv.data_le hret
  have hleast : ∀ v, g.valid v = true →
      IsLeast {n | ∃ w, g.Connected v w ∧ n = w.val} (t.shared.vertex v).data :=
    fun v hv => isLeast_of_data_le hg hsound hle hv
  exact ⟨hleast, ncomponents_eq hg hleast⟩

/-! ### Vertices without edges -/

/-- An edge between the vertices 0 and 2, and a vertex without edges. -/
def edge_and_vertex : AppGraph Unit :=
  .ofEdges 3 AppGraph.three_lt
    [(⟨0, AppGraph.first_of_three⟩, ⟨2, AppGraph.last_of_three⟩, ()),
      (⟨2, AppGraph.last_of_three⟩, ⟨0, AppGraph.first_of_three⟩, ())]

/-- The memory of a new graph. -/
def fresh (g : AppGraph Unit) : State g :=
  ⟨fun _ => ⟨0, false, false, ⟨false, 0⟩, 0⟩, 0, 0, 0, .start⟩

theorem labels_settle_edge_and_vertex :
    ((naiveEngine (program Unit) edge_and_vertex none).system
      (setup (fresh edge_and_vertex))).Terminates ⟨setup (fresh edge_and_vertex), []⟩ ∧
    ∀ t, ((naiveEngine (program Unit) edge_and_vertex none).system
        (setup (fresh edge_and_vertex))).Reachable t →
      (∀ l, (naiveEngine (program Unit) edge_and_vertex none).next t l = none) →
      (∀ v, edge_and_vertex.valid v = true →
        IsLeast {n | ∃ w, edge_and_vertex.Connected v w ∧ n = w.val} (t.shared.vertex v).data) ∧
      ncomponents t.shared = (Components.classes edge_and_vertex.Connected
        {v | edge_and_vertex.valid v = true}).ncard := by
  have hg : edge_and_vertex.Undirected := AppGraph.undirected_ofEdges (by decide)
  have hstart : Started (setup (fresh edge_and_vertex)) :=
    started_setup rfl (by simp [EngineState.Counted, fresh]) fun _ => rfl
  exact labels_settle hg hstart

/-- An active vertex that no `apply` reaches is active for good. -/
theorem active_exec {v : g.V} {x : Item g} (hx : x ≠ .apply v) (h : (s.vertex v).active = true) :
    ((x.exec (program E) g s).1.vertex v).active = true := by
  cases x with
  | construct u =>
    rw [exec_construct_vertex]
    split <;> simp_all
  | gather u | gather_edge u w e => exact h
  | post_delta u delta =>
    show ((s.post_delta (program E) u delta).vertex v).active = true
    rw [post_delta_vertex]
    exact h
  | apply u =>
    have hvu : v ≠ u := fun heq => hx (heq ▸ rfl)
    simp only [exec]
    split
    · rw [setVertex_ne hvu, deactivate_vertex]
      simp [h, hvu]
    · exact h
  | scatter u =>
    rw [exec_scatter_vertex]
    exact h
  | scatter_edge p u e =>
    rw [exec_scatter_edge_vertex]
    split
    · simp_all [EngineVertex.scattered]
    · exact h

theorem apply_notMem_exec {v : g.V} (x : Item g) : .apply v ∉ (x.exec (program E) g s).2 := by
  cases x with
  | scatter u =>
    rw [exec_scatter_spawns]
    split <;> simp
  | apply u => simp [exec_apply_spawns]
  | _ => simp [exec]

/-- `run_sync` does not stop while a vertex that the graph does not iterate over is active. -/
theorem never_stops (hcount : s.Counted 0) {v : g.V} (hvalid : g.valid v = false)
    (hactive : (s.vertex v).active = true) :
    ¬((naiveEngine (program E) g none).system s).Terminates ⟨s, []⟩ := by
  intro hterm
  obtain ⟨ls, t, hrun, hend⟩ := hterm.exists_end
  have hinv : t.shared.Counted 0 ∧ (t.shared.vertex v).active = true ∧
      apply v ∉ (t.pool : Multiset (Item g)) := by
    refine Program.Reachable.inv (fun s pool => s.Counted 0 ∧ (s.vertex v).active = true ∧
      apply v ∉ pool) ⟨hcount, hactive, Multiset.notMem_zero _⟩ ?_ ?_ ⟨ls, hrun⟩
    · rintro s x rest s' new ⟨hcount, hactive, hno⟩ hx
      obtain ⟨rfl, rfl⟩ := Prod.mk.inj (Option.some.inj hx)
      have hne : x ≠ .apply v := fun heq => hno (heq ▸ mem_cons_self _ _)
      refine ⟨counted_exec hcount x, active_exec hne hactive, fun hmem => ?_⟩
      rcases Multiset.mem_add.mp hmem with hmem | hmem
      · exact hno (mem_cons_of_mem hmem)
      · exact apply_notMem_exec x hmem
    · rintro s s' new ⟨hcount, hactive, -⟩ hadv
      have hnot : v ∉ g.visited := by simp [AppGraph.mem_visited, hvalid]
      refine ⟨counted_advance hcount hadv, ?_⟩
      change s.advance g none = some (s', new) at hadv
      unfold advance at hadv
      split at hadv
      case h_4 | h_5 =>
        split at hadv
        · cases hadv
          exact ⟨hactive, by simpa using hnot⟩
        · cases hadv
      case h_2 =>
        cases hadv
        refine ⟨hactive, ?_⟩
        split <;> simp
      all_goals
        cases hadv
        exact ⟨hactive, by simp⟩
  obtain ⟨-, hret⟩ := Program.ended_of_stuck (fun _ _ => Option.some_ne_none _) hend
  have hzero : t.shared.total_active = 0 := by
    change t.shared.advance g none = none at hret
    unfold advance at hret
    split at hret <;> simp_all [goes_on]
  have hoff := EngineState.Counted.inactive (S := ∅) hinv.1 hzero (by simp) (Finset.notMem_empty v)
  rw [hinv.2.1] at hoff
  cases hoff

/-- Every vertex active and labelled by itself, as no `forall` could make it. -/
def all_active (g : AppGraph Unit) : State g :=
  ⟨fun v => ⟨v, true, false, ⟨false, 0⟩, 0⟩, g.nv, 0, 0, .start⟩

/-- The tasks and delegates of the four phases of a run, in the order in which they are spawned. -/
def edge_and_vertex_labels : List Phased.Label :=
  [2, 6, 2, 3].flatMap fun items => .advance :: List.replicate items (.item 0)

/-- **Vertices without edges** are left out: started by `main` the engine stops without a label
    for vertex 1, and with one component counted; if all the vertices were active it would not
    stop. -/
theorem labels_without_edges :
    (∃ t, ((naiveEngine (program Unit) edge_and_vertex none).system
        (setup (fresh edge_and_vertex))).run ⟨setup (fresh edge_and_vertex), []⟩
          edge_and_vertex_labels = some t ∧
      (∀ l, (naiveEngine (program Unit) edge_and_vertex none).next t l = none) ∧
      (t.shared.vertex ⟨1, by decide⟩).data = 0 ∧ ncomponents t.shared = 1) ∧
    ¬((naiveEngine (program Unit) edge_and_vertex none).system
      (all_active edge_and_vertex)).Terminates ⟨all_active edge_and_vertex, []⟩ := by
  constructor
  · refine ⟨_, rfl, ?_, rfl, rfl⟩
    intro l
    cases l <;> rfl
  · exact never_stops (v := ⟨1, by decide⟩) rfl rfl rfl

end LabelPropagation

end Grappa
