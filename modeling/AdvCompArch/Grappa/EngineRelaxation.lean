import AdvCompArch.Grappa.NaiveEngine

/-! # Relaxation on the naive engine

    What label propagation and shortest paths have in common: every vertex has a value that only
    gets less, and a value that waits for its next apply; a new value is scattered along the edges
    at a cost.  `Relaxation` states what the functions of the vertex program have to do for that.

    In the apply and the scatter of a round every edge is either `Settled` or about to be
    (`Applying`, `Scattering`), as long as no scatter makes a waiting value worse (`Improves`). -/

namespace Grappa

open Multiset EngineItem

variable {D P E G K : Type} {prog : VertexProgram D P E G} {g : AppGraph E}

/-- The values of a vertex program, and what is known of them. -/
structure Relaxation (prog : VertexProgram D P E G) (g : AppGraph E) (K : Type) [LinearOrder K] where
  cur : D → K
  wait : D → G → K
  out : P → K
  cost : E → K → K
  /-- What may be sent to a vertex. -/
  Known : g.V → K → Prop
  /-- What holds of a vertex. -/
  Sound : g.V → EngineVertex D P G → Prop
  cost_mono : ∀ e a b, a ≤ b → cost e a ≤ cost e b
  applied_cur : ∀ x : EngineVertex D P G, cur (x.applied prog).data = min (cur x.data) (wait x.data x.cache)
  applied_out : ∀ x : EngineVertex D P G, (x.applied prog).active_minor_step = true →
    out (x.applied prog).prog = cur (x.applied prog).data
  applied_same : ∀ x : EngineVertex D P G, (x.applied prog).active_minor_step = false →
    cur (x.applied prog).data = cur x.data
  scattered_cur : ∀ p e (x : EngineVertex D P G), cur (x.scattered prog p e).data = cur x.data
  scattered_wait : ∀ p e (x : EngineVertex D P G), cur x.data ≤ cost e (out p) ∨
    (x.scattered prog p e).active = true ∧
      wait (x.scattered prog p e).data (x.scattered prog p e).cache ≤ cost e (out p)
  sound_applied : ∀ v x, Sound v x → x.active = true → Sound v (x.applied prog)
  sound_scattered : ∀ v p e x, Sound v x → Known v (cost e (out p)) →
    (x.active = true → wait (x.scattered prog p e).data (x.scattered prog p e).cache ≤
      wait x.data x.cache) → Sound v (x.scattered prog p e)
  sound_minor : ∀ v x b, Sound v x → Sound v { x with active_minor_step := b }
  known_applied : ∀ u v e x, (v, e) ∈ g.adj u → Sound u x → x.active = true →
    (x.applied prog).active_minor_step = true → Known v (cost e (cur (x.applied prog).data))

namespace Relaxation

variable [LinearOrder K] (R : Relaxation prog g K)

/-- The value of a vertex. -/
def value (s : EngineState g.nv D P G) (v : g.V) : K := R.cur (s.vertex v).data

/-- The value that a vertex will have after an apply, if it is less. -/
def waiting (s : EngineState g.nv D P G) (v : g.V) : K := R.wait (s.vertex v).data (s.vertex v).cache

/-- `v` has a value that is no worse than what `u` has to offer, or will have when it is applied. -/
def Settled (s : EngineState g.nv D P G) (u v : g.V) (e : E) : Prop :=
  R.value s v ≤ R.cost e (R.value s u) ∨
    (s.vertex v).active = true ∧ R.waiting s v ≤ R.cost e (R.value s u)

/-- A scatter to a vertex that is active already does not make its waiting value worse. -/
def Improves (s : EngineState g.nv D P G) : EngineItem g.nv P E G → Prop
  | .scatter_edge p v e => (s.vertex v).active = true →
      let x := (s.vertex v).scattered prog p e
      R.wait x.data x.cache ≤ R.waiting s v
  | _ => True

/-- While the active vertices are applied: an edge is settled, or its source has a new value. -/
structure Applying (memory : g.V → EngineVertex D P G) (s : EngineState g.nv D P G)
    (pool : Multiset (EngineItem g.nv P E G)) : Prop where
  items : ∀ x ∈ pool, ∃ v, x = .apply v ∧ g.valid v = true
  frame : ∀ v, g.valid v = false → s.vertex v = memory v
  sound : ∀ v, g.valid v = true → R.Sound v (s.vertex v)
  pending : ∀ v, g.valid v = true → (s.vertex v).active = true → .apply v ∈ pool
  minor : ∀ v, g.valid v = true → (s.vertex v).active = false →
    (s.vertex v).active_minor_step = true → R.out (s.vertex v).prog = R.value s v ∧
      ∀ e ∈ g.adj v, R.Known e.1 (R.cost e.2 (R.value s v))
  edge : ∀ u, ∀ e ∈ g.adj u, R.Settled s u e.1 e.2 ∨
    (s.vertex u).active = false ∧ (s.vertex u).active_minor_step = true

/-- The items of the scatter phase. -/
def Scatters : EngineItem g.nv P E G → Prop
  | .scatter v => g.valid v = true
  | .scatter_edge p v e => g.valid v = true ∧ R.Known v (R.cost e (R.out p))
  | _ => False

/-- While the new values are scattered: an edge is settled, or the value is on its way. -/
structure Scattering (memory : g.V → EngineVertex D P G) (s : EngineState g.nv D P G)
    (pool : Multiset (EngineItem g.nv P E G)) : Prop where
  items : ∀ x ∈ pool, R.Scatters x
  frame : ∀ v, g.valid v = false → s.vertex v = memory v
  sound : ∀ v, g.valid v = true → R.Sound v (s.vertex v)
  minor : ∀ v, g.valid v = true → (s.vertex v).active_minor_step = true → .scatter v ∈ pool ∧
    R.out (s.vertex v).prog = R.value s v ∧ ∀ e ∈ g.adj v, R.Known e.1 (R.cost e.2 (R.value s v))
  edge : ∀ u, ∀ e ∈ g.adj u, R.Settled s u e.1 e.2 ∨ (s.vertex u).active_minor_step = true ∨
    ∃ p, .scatter_edge p e.1 e.2 ∈ pool ∧ R.out p ≤ R.value s u

variable {R} {s : EngineState g.nv D P G} {rest : Multiset (EngineItem g.nv P E G)}
  {x : EngineItem g.nv P E G} {memory : g.V → EngineVertex D P G}

theorem mem_stays {y : EngineItem g.nv P E G} {new : Multiset (EngineItem g.nv P E G)}
    (h : y ∈ x ::ₘ rest) (hne : y ≠ x) : y ∈ rest + new :=
  mem_add.mpr (.inl ((mem_cons.mp h).resolve_left hne))

theorem mem_visited_map {f : g.V → EngineItem g.nv P E G} {v : g.V} (h : g.valid v = true) :
    f v ∈ ((g.visited.map f : List (EngineItem g.nv P E G)) : Multiset (EngineItem g.nv P E G)) :=
  List.mem_map.mpr ⟨v, AppGraph.mem_visited.mpr h, rfl⟩

/-! ### Applying -/

theorem applied_value {v : g.V} (hv : (s.vertex v).active = true) (u : g.V) :
    R.value ((apply v).exec prog g s).1 u =
      if u = v then min (R.value s v) (R.waiting s v) else R.value s u := by
  unfold value
  rw [exec_apply_vertex hv]
  split
  · exact R.applied_cur _
  · rfl

theorem Settled.apply {v u w : g.V} {e : E} (h : R.Settled s u w e)
    (hv : (s.vertex v).active = true)
    (hsame : R.value ((apply v).exec prog g s).1 u = R.value s u) :
    R.Settled ((apply v).exec prog g s).1 u w e := by
  unfold Settled
  rw [hsame]
  by_cases hwv : w = v
  · subst hwv
    rw [applied_value hv, if_pos rfl]
    rcases h with h | ⟨_, h⟩
    · exact .inl (le_trans (min_le_left _ _) h)
    · exact .inl (le_trans (min_le_right _ _) h)
  · have hw : ((EngineItem.apply v).exec prog g s).1.vertex w = s.vertex w := by
      rw [exec_apply_vertex hv, if_neg hwv]
    unfold waiting
    rw [applied_value hv, if_neg hwv, hw]
    exact h

theorem Applying.exec (h : R.Applying memory s (x ::ₘ rest)) :
    R.Applying memory (x.exec prog g s).1 (rest + (x.exec prog g s).2) := by
  obtain ⟨v, rfl, hvalid⟩ := h.items _ (mem_cons_self _ _)
  have hrest : ∀ y ∈ rest, ∃ v, y = .apply v ∧ g.valid v = true :=
    fun y hy => h.items y (mem_cons_of_mem hy)
  have hstay : ∀ u, u ≠ v → g.valid u = true → (s.vertex u).active = true →
      apply u ∈ rest := fun u hu hval hact =>
    (mem_cons.mp (h.pending u hval hact)).resolve_left (by simpa using hu)
  rw [exec_apply_spawns, coe_nil, add_zero]
  by_cases hv : (s.vertex v).active = true
  swap
  · simp only [Bool.not_eq_true] at hv
    rw [exec_apply_inactive hv]
    refine ⟨hrest, h.frame, h.sound, fun u hval hact => hstay u ?_ hval hact, h.minor, h.edge⟩
    rintro rfl
    rw [hv] at hact
    cases hact
  · have hself : ((apply v).exec prog g s).1.vertex v = (s.vertex v).applied prog := by
      rw [exec_apply_vertex hv, if_pos rfl]
    have hne : ∀ u, u ≠ v → ((apply v).exec prog g s).1.vertex u = s.vertex u := by
      intro u hu
      rw [exec_apply_vertex hv, if_neg hu]
    have hsound := h.sound v hvalid
    refine ⟨hrest, ?_, ?_, ?_, ?_, ?_⟩
    · intro u hu
      rw [hne u (by rintro rfl; rw [hvalid] at hu; cases hu)]
      exact h.frame u hu
    · intro u hu
      by_cases huv : u = v
      · subst huv
        rw [hself]
        exact R.sound_applied u _ hsound hv
      · rw [hne u huv]
        exact h.sound u hu
    · intro u hu hact
      by_cases huv : u = v
      · subst huv
        rw [hself] at hact
        cases hact
      · rw [hne u huv] at hact
        exact hstay u huv hu hact
    · intro u hu hact hstep
      by_cases huv : u = v
      · subst huv
        rw [hself] at hstep
        unfold value
        rw [hself]
        exact ⟨R.applied_out _ hstep, fun e he => R.known_applied u e.1 e.2 _ he hsound hv hstep⟩
      · unfold value
        rw [hne u huv] at hact hstep ⊢
        exact h.minor u hu hact hstep
    · intro u e he
      by_cases huv : u = v
      · subst huv
        by_cases hstep : ((s.vertex u).applied prog).active_minor_step = true
        · refine .inr ?_
          rw [hself]
          exact ⟨rfl, hstep⟩
        · -- the value of `u` stays as it is
          have hsame : R.value ((apply u).exec prog g s).1 u = R.value s u := by
            unfold value
            rw [hself]
            exact R.applied_same _ (by simpa using hstep)
          rcases h.edge u e he with hset | ⟨hno, _⟩
          · exact .inl (hset.apply hv hsame)
          · rw [hv] at hno
            cases hno
      · rcases h.edge u e he with hset | hnew
        · refine .inl (hset.apply hv ?_)
          unfold value
          rw [hne u huv]
        · refine .inr ?_
          rw [hne u huv]
          exact hnew

theorem Applying.inactive (h : R.Applying memory s 0) {v : g.V} (hv : g.valid v = true) :
    (s.vertex v).active = false := by
  by_contra hact
  cases h.pending v hv (by simpa using hact)

theorem Applying.advance (h : R.Applying memory s 0) :
    R.Scattering memory { s with iteration := s.iteration + 1, phase := .scattered }
      ((g.visited.map .scatter : List (EngineItem g.nv P E G)) : Multiset _) := by
  refine ⟨?_, h.frame, h.sound, fun v hv hstep => ?_, fun u e he => ?_⟩
  · intro x hx
    obtain ⟨v, hv, rfl⟩ := List.mem_map.mp hx
    exact AppGraph.mem_visited.mp hv
  · exact ⟨mem_visited_map hv, h.minor v hv (h.inactive hv) hstep⟩
  · rcases h.edge u e he with hset | ⟨_, hstep⟩
    · exact .inl hset
    · exact .inr (.inl hstep)

/-! ### Scattering -/

theorem scattered_value (p : P) (v : g.V) (e : E) (u : g.V) :
    R.value ((scatter_edge p v e).exec prog g s).1 u = R.value s u := by
  unfold value
  rw [exec_scatter_edge_vertex]
  split
  · rename_i huv
    rw [huv]
    exact R.scattered_cur _ _ _
  · rfl

theorem scattered_minor (p : P) (v : g.V) (e : E) (u : g.V) :
    (((scatter_edge p v e).exec prog g s).1.vertex u).active_minor_step =
      (s.vertex u).active_minor_step ∧
    (((scatter_edge p v e).exec prog g s).1.vertex u).prog = (s.vertex u).prog := by
  rw [exec_scatter_edge_vertex]
  split
  · rename_i huv
    rw [huv]
    exact ⟨rfl, rfl⟩
  · exact ⟨rfl, rfl⟩

theorem Settled.scatter_edge {p : P} {v u w : g.V} {e e' : E} (h : R.Settled s u w e')
    (himproves : R.Improves s (.scatter_edge p v e)) :
    R.Settled ((scatter_edge p v e).exec prog g s).1 u w e' := by
  unfold Settled
  rw [scattered_value, scattered_value]
  rcases h with h | ⟨hact, hle⟩
  · exact .inl h
  · refine .inr ?_
    unfold waiting
    rw [exec_scatter_edge_vertex]
    split
    · rename_i hwv
      subst hwv
      refine ⟨?_, le_trans (himproves hact) hle⟩
      simp [EngineVertex.scattered, hact]
    · exact ⟨hact, hle⟩

theorem Scattering.exec (h : R.Scattering memory s (x ::ₘ rest)) (himproves : R.Improves s x) :
    R.Scattering memory (x.exec prog g s).1 (rest + (x.exec prog g s).2) := by
  have hitem := h.items _ (mem_cons_self _ _)
  have hrest : ∀ y ∈ rest, R.Scatters y := fun y hy => h.items y (mem_cons_of_mem hy)
  cases x with
  | construct v | gather v | gather_edge v u e | post_delta u delta | apply v => cases hitem
  | scatter v =>
    have hvalid : g.valid v = true := hitem
    have hvalue : ∀ u, R.value ((scatter v).exec prog g s).1 u = R.value s u := by
      intro u
      unfold value
      rw [exec_scatter_vertex]
    rw [exec_scatter_spawns]
    refine ⟨?_, ?_, ?_, ?_, ?_⟩
    · intro y hy
      rcases mem_add.mp hy with hy | hy
      · exact hrest y hy
      · split at hy
        · rename_i hstep
          obtain ⟨e, he, rfl⟩ := List.mem_map.mp hy
          obtain ⟨_, hout, hknown⟩ := h.minor v hvalid hstep
          refine ⟨(g.valid_of_adj v e he).2, ?_⟩
          rw [hout]
          exact hknown e he
        · cases hy
    · intro u hu
      rw [exec_scatter_vertex]
      have hne : u ≠ v := by
        rintro rfl
        rw [hvalid] at hu
        cases hu
      rw [← h.frame u hu]
      simp [hne]
    · intro u hu
      rw [exec_scatter_vertex]
      exact R.sound_minor u _ _ (h.sound u hu)
    · intro u hu hstep
      rw [exec_scatter_vertex] at hstep
      obtain ⟨hstep, huv⟩ := Bool.and_eq_true_iff.mp hstep
      obtain ⟨hmem, hout⟩ := h.minor u hu hstep
      rw [hvalue, exec_scatter_vertex]
      exact ⟨mem_stays hmem (by simpa using huv), hout⟩
    · intro u e he
      unfold Settled waiting
      rw [hvalue, hvalue, exec_scatter_vertex, exec_scatter_vertex]
      rcases h.edge u e he with hset | hstep | ⟨p, hmem, hle⟩
      · exact .inl hset
      · by_cases huv : u = v
        · -- the value of `u` goes out along the edge
          subst huv
          rw [if_pos hstep]
          have hout := (h.minor u hvalid hstep).2.1
          exact .inr (.inr ⟨(s.vertex u).prog,
            mem_add.mpr (.inr (List.mem_map.mpr ⟨e, he, rfl⟩)), hout.le⟩)
        · exact .inr (.inl (by simp [hstep, huv]))
      · exact .inr (.inr ⟨p, mem_stays hmem (by simp), hle⟩)
  | scatter_edge p w e =>
    obtain ⟨hvalid, hknown⟩ := hitem
    have hnew : ((scatter_edge p w e).exec prog g s).2 = [] := rfl
    rw [hnew, coe_nil, add_zero]
    refine ⟨hrest, ?_, ?_, ?_, ?_⟩
    · intro u hu
      rw [exec_scatter_edge_vertex, if_neg (by rintro rfl; rw [hvalid] at hu; cases hu)]
      exact h.frame u hu
    · intro u hu
      rw [exec_scatter_edge_vertex]
      split
      · rename_i huw
        rw [huw]
        exact R.sound_scattered w p e _ (h.sound w hvalid) hknown himproves
      · exact h.sound u hu
    · intro u hu hstep
      obtain ⟨hminor, hprog⟩ := scattered_minor (s := s) p w e u
      rw [hminor] at hstep
      rw [scattered_value, hprog]
      obtain ⟨hmem, hout⟩ := h.minor u hu hstep
      exact ⟨(mem_cons.mp hmem).resolve_left (by simp), hout⟩
    · intro u e' he'
      rcases h.edge u e' he' with hset | hstep | ⟨p', hmem, hle⟩
      · exact .inl (hset.scatter_edge himproves)
      · exact .inr (.inl ((scattered_minor p w e u).1.trans hstep))
      · by_cases heq : (scatter_edge p' e'.1 e'.2 : EngineItem g.nv P E G) =
            .scatter_edge p w e
        · obtain ⟨rfl, rfl, rfl⟩ := scatter_edge.inj heq
          -- either the value of the target is no worse, or it is activated with the new one
          refine .inl ?_
          have hcost := R.cost_mono e'.2 _ _ hle
          unfold Settled waiting
          rw [scattered_value, scattered_value, exec_scatter_edge_vertex, if_pos rfl]
          rcases R.scattered_wait p' e'.2 (s.vertex e'.1) with hno | ⟨hact, hyes⟩
          · exact .inl (le_trans hno hcost)
          · exact .inr ⟨hact, le_trans hyes hcost⟩
        · refine .inr (.inr ⟨p', (mem_cons.mp hmem).resolve_left heq, ?_⟩)
          rw [scattered_value]
          exact hle

theorem Scattering.no_minor (h : R.Scattering memory s 0) {v : g.V} (hv : g.valid v = true) :
    (s.vertex v).active_minor_step = false := by
  by_contra hstep
  cases (h.minor v hv (by simpa using hstep)).1

theorem Scattering.settled (h : R.Scattering memory s 0) {u : g.V} {e : g.V × E}
    (he : e ∈ g.adj u) : R.Settled s u e.1 e.2 := by
  rcases h.edge u e he with hset | hstep | ⟨p, hmem, _⟩
  · exact hset
  · rw [h.no_minor (g.valid_of_adj u e he).1] at hstep
    cases hstep
  · cases hmem

theorem Scattering.advance (h : R.Scattering memory s 0) :
    R.Applying memory { s with phase := .applied }
      ((g.visited.map .apply : List (EngineItem g.nv P E G)) : Multiset _) := by
  refine ⟨?_, h.frame, h.sound, fun v hv _ => mem_visited_map hv,
    fun v hv _ hstep => ?_, fun u e he => .inl (h.settled he)⟩
  · intro x hx
    obtain ⟨v, hv, rfl⟩ := List.mem_map.mp hx
    exact ⟨v, rfl, AppGraph.mem_visited.mp hv⟩
  · have hno := h.no_minor hv
    rw [show (s.vertex v).active_minor_step = true from hstep] at hno
    cases hno

end Relaxation

end Grappa
