import AdvCompArch.Grappa.Graph
import Mathlib.Algebra.Order.Ring.Nat
import Mathlib.Data.Fintype.Basic

/-! # The graphs of the applications

    What `forall` over a graph and `adj` present to an application: the vertices that are
    iterated over, and the edges of each of them.  `Graph.app` reads it off a `Graph`. -/

namespace Grappa

structure AppGraph (E : Type) where
  nv : ℕ
  /-- The type of `nv` is `int64_t`. -/
  nv_lt : nv < 2 ^ 63
  /-- A vertex that is not `valid` is skipped by `forall`; only vertices without edges are. -/
  valid : Fin nv → Bool
  adj : Fin nv → List (Fin nv × E)
  valid_of_adj : ∀ u, ∀ e ∈ adj u, valid u = true ∧ valid e.1 = true

namespace AppGraph

variable {E : Type} (g : AppGraph E)

abbrev V := Fin g.nv

/-- The vertices of a `forall` over the graph. -/
def visited : List g.V := (List.finRange g.nv).filter g.valid

/-- There is an edge from `u` to `v`. -/
def Adj (u v : g.V) : Prop := ∃ e, (v, e) ∈ g.adj u

/-- As `Graph::Undirected` makes them. -/
def Undirected : Prop := ∀ u v, g.Adj u v → g.Adj v u

/-- There is a path from `u` to `v`. -/
def Connected : g.V → g.V → Prop := Relation.ReflTransGen g.Adj

/-- The graph with the given edges, without duplicates; a vertex that has none is not valid. -/
def ofEdges (nv : ℕ) (hnv : nv < 2 ^ 63) (edges : List (Fin nv × Fin nv × E)) : AppGraph E where
  nv := nv
  nv_lt := hnv
  valid := fun v => edges.any fun e => e.1 = v || e.2.1 = v
  adj := fun u => (edges.filter fun e => e.1 = u).map Prod.snd
  valid_of_adj := by
    intro u e he
    obtain ⟨e', he', rfl⟩ := List.mem_map.mp he
    obtain ⟨hmem, hu⟩ := List.mem_filter.mp he'
    simp only [decide_eq_true_eq] at hu
    constructor
    · exact List.any_eq_true.mpr ⟨e', hmem, by simp [hu]⟩
    · exact List.any_eq_true.mpr ⟨e', hmem, by simp⟩

theorem adj_ofEdges {nv : ℕ} {hnv : nv < 2 ^ 63} {edges : List (Fin nv × Fin nv × E)} {u v : Fin nv}
    {e : E} : (v, e) ∈ (ofEdges nv hnv edges).adj u ↔ (u, v, e) ∈ edges := by
  constructor
  · intro h
    obtain ⟨e', he', heq⟩ := List.mem_map.mp h
    obtain ⟨hmem, hu⟩ := List.mem_filter.mp he'
    have hu' : e'.1 = u := by simpa using hu
    rw [← heq, ← hu']
    exact hmem
  · intro h
    exact List.mem_map.mpr ⟨(u, v, e), List.mem_filter.mpr ⟨h, by simp⟩, rfl⟩

theorem undirected_ofEdges {nv : ℕ} {hnv : nv < 2 ^ 63} {edges : List (Fin nv × Fin nv × E)}
    (h : ∀ e ∈ edges, (e.2.1, e.1, e.2.2) ∈ edges) : (ofEdges nv hnv edges).Undirected := by
  rintro u v ⟨e, he⟩
  exact ⟨e, adj_ofEdges.mpr (h _ (adj_ofEdges.mp he))⟩

theorem two_lt : 2 < 2 ^ 63 := by omega

theorem three_lt : 3 < 2 ^ 63 := by omega

theorem first_of_three : 0 < 3 := by omega

theorem last_of_three : 2 < 3 := by omega

theorem four_lt : 4 < 2 ^ 63 := by omega

variable {g} {u v : g.V}

@[simp] theorem mem_visited : v ∈ g.visited ↔ g.valid v = true := by
  simp [visited]

theorem Adj.valid_left (h : g.Adj u v) : g.valid u = true := by
  obtain ⟨e, he⟩ := h
  exact (g.valid_of_adj u _ he).1

theorem Adj.valid_right (h : g.Adj u v) : g.valid v = true := by
  obtain ⟨e, he⟩ := h
  exact (g.valid_of_adj u _ he).2

theorem Connected.symm (hg : g.Undirected) (h : g.Connected u v) : g.Connected v u := by
  induction h with
  | refl => exact .refl
  | tail _ hadj ih => exact .head (hg _ _ hadj) ih

/-- The relation of being in one component. -/
def Undirected.setoid (hg : g.Undirected) : Setoid g.V :=
  ⟨g.Connected, fun _ => .refl, fun h => h.symm hg, fun h h' => h.trans h'⟩

theorem Connected.valid (h : g.Connected u v) (hu : g.valid u = true) : g.valid v = true := by
  induction h with
  | refl => exact hu
  | tail _ hadj _ => exact hadj.valid_right

end AppGraph

namespace Graph

variable {D E : Type}

/-- A vertex id that is in range, with the state of its edge. -/
def target? (g : Graph D E) (e : VertexID × E) : Option (Fin g.nv × E) :=
  if h : 0 ≤ e.1 ∧ e.1.toNat < g.nv then some (⟨e.1.toNat, h.2⟩, e.2) else none

/-- The graph as the applications see it. -/
def app (g : Graph D E) (hnv : g.nv < 2 ^ 63)
    (hvalid : ∀ u : Fin g.nv, ∀ e ∈ (g.adj u).zip (g.edgeStates u), ∀ e' ∈ g.target? e,
      (g.vs u).valid = true ∧ (g.vs e'.1).valid = true) : AppGraph E where
  nv := g.nv
  nv_lt := hnv
  valid := fun v => (g.vs v).valid
  adj := fun v => ((g.adj v).zip (g.edgeStates v)).filterMap g.target?
  valid_of_adj := by
    intro u e' he'
    obtain ⟨e, he, htarget⟩ := List.mem_filterMap.mp he'
    exact hvalid u e he e' htarget

end Graph

end Grappa
