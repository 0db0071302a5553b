import AdvCompArch.Lib.Assignment
import Mathlib.Data.Int.Notation

/-! # Graphs

    A `Graph` is a global array of vertices, with the adjacencies and edge states of the
    vertices of a core in two buffers of that core.  The data of a vertex is a field of it
    if it fits in the block, else it is in the locale-shared heap. -/

namespace Grappa

abbrev VertexID := ℤ

/-! ### The locale-shared heap -/

/-- The objects in the heap, by address. -/
abbrev LocaleHeap (C : Type) := List (ℕ × C)

namespace LocaleHeap

variable {C : Type} (h : LocaleHeap C)

/-- `locale_free`; `none` where the address is not that of an object. -/
def free (a : ℕ) : Option (LocaleHeap C) :=
  if a ∈ h.map Prod.fst then some (h.filter fun o => o.1 ≠ a) else none

theorem mem_of_free {h' : LocaleHeap C} {a b : ℕ} (hf : h.free a = some h')
    (hb : b ∈ h'.map Prod.fst) : b ∈ h.map Prod.fst ∧ b ≠ a := by
  unfold free at hf
  split at hf
  · cases hf
    obtain ⟨o, ho, rfl⟩ := List.mem_map.mp hb
    obtain ⟨hmem, hne⟩ := List.mem_filter.mp ho
    exact ⟨List.mem_map_of_mem hmem, by simpa using hne⟩
  · cases hf

theorem lookup_eq_none {a : ℕ} (ha : a ∉ h.map Prod.fst) : h.lookup a = none := by
  rw [List.lookup_eq_none_iff]
  intro o ho
  have hne : a ≠ o.1 := by
    rintro rfl
    exact ha (List.mem_map_of_mem ho)
  simpa using hne

end LocaleHeap

/-! ### Vertices -/

/-- The `data` of a vertex: a field, or a reference into the heap. -/
inductive VertexData (D : Type) where
  | inline (d : D)
  | ref (a : ℕ)
  deriving DecidableEq

def BLOCK_SIZE : ℕ := 64

/-- `sizeof(VertexBase)`: the flag, a pointer and two counts. -/
def VERTEX_BASE_SIZE : ℕ := 4 * 8

/-- The default for `HeapData`, for data of this size. -/
def heap_data (size : ℕ) : Bool := size > BLOCK_SIZE - VERTEX_BASE_SIZE - 8

/-- A vertex; its pointers are offsets in the buffers of its core. -/
structure Vertex (D : Type) where
  valid : Bool
  local_adj : ℕ
  nadj : ℕ
  local_sz : ℕ
  data : VertexData D
  local_edge_state : ℕ
  deriving DecidableEq

namespace Vertex

variable {D C : Type}

/-- The data of a vertex, where it is alive. -/
def read (out : C → Option D) (h : LocaleHeap C) (v : Vertex D) : Option D :=
  match v.data with
  | .inline d => some d
  | .ref a => (h.lookup a).bind out

/-- The destructor: data in the heap is freed. -/
def destroy (h : LocaleHeap C) (v : Vertex D) : Option (LocaleHeap C) :=
  match v.data with
  | .inline _ => some h
  | .ref a => h.free a

/-- The copy constructor: that of `VertexBase` sets `valid`. -/
def copy (v : Vertex D) : Vertex D := { v with valid := true }

variable {v : Vertex D} {d : D} {a : ℕ}

theorem read_inline (hd : v.data = .inline d) (out : C → Option D) (h : LocaleHeap C) :
    v.read out h = some d := by
  simp [read, hd]

theorem read_ref (hd : v.data = .ref a) (out : C → Option D) (h : LocaleHeap C) :
    v.read out h = (h.lookup a).bind out := by
  simp [read, hd]

theorem destroy_inline (hd : v.data = .inline d) (h : LocaleHeap C) : v.destroy h = some h := by
  simp [destroy, hd]

theorem destroy_ref (hd : v.data = .ref a) (h : LocaleHeap C) : v.destroy h = h.free a := by
  simp [destroy, hd]

end Vertex

/-! ### Graphs -/

structure Graph (D E : Type) where
  nv : ℕ
  vs : ℕ → Vertex D
  /-- The core of each vertex. -/
  core : ℕ → ℕ
  adj_buf : ℕ → List VertexID
  edge_storage : ℕ → List E

namespace Graph

variable {D E : Type} (g : Graph D E)

/-- The adjacency list of a vertex. -/
def adj (i : ℕ) : List VertexID :=
  ((g.adj_buf (g.core i)).drop (g.vs i).local_adj).take (g.vs i).nadj

/-- The states of the edges of a vertex. -/
def edgeStates (i : ℕ) : List E :=
  ((g.edge_storage (g.core i)).drop (g.vs i).local_edge_state).take (g.vs i).nadj

/-- The vertices that a `forall` over a graph visits. -/
def visited : List ℕ := (List.range g.nv).filter fun i => (g.vs i).valid

/-- The edges that a `forall` over a graph visits, with their source. -/
def visitedEdges : List (ℕ × VertexID × E) :=
  g.visited.flatMap fun i => ((g.adj i).zip (g.edgeStates i)).map fun e => (i, e.1, e.2)

end Graph

end Grappa
