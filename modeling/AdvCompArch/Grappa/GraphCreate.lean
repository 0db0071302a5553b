import AdvCompArch.Grappa.AdjacencyDedup
import AdvCompArch.Grappa.EdgeRedistribution
import AdvCompArch.Lib.Consecutive
import AdvCompArch.Lib.Totals

/-! # Constructing a graph

    `Graph::create` goes over the edges three times: for the largest vertex id, to count the
    adjacencies of every vertex, and to scatter them into an array for each vertex.  The
    delegates that count and scatter run in any order.  Then every vertex sorts its array
    and removes the duplicates, and every core puts the arrays of its vertices into one
    buffer, in the order of the vertices.  With `solo_invalid` only the vertices with an
    edge are valid at the end.

    The module has the passes, and one lemma for what each of them leaves. -/

namespace Grappa

open Function List

open TupleGraph (Edge)
open Totals (total)

/-- What a graph is constructed from. -/
structure GraphInput (m : Machine) (D E : Type) where
  /-- The edges of the `TupleGraph` that each core has. -/
  local_edges : Fin m.cores → List Edge
  exists_edge : ∃ c e, e ∈ local_edges c
  ids_nonneg : ∀ c, ∀ e ∈ local_edges c, 0 ≤ e.v0 ∧ 0 ≤ e.v1
  directed : Bool
  solo_invalid : Bool
  /-- The array of vertices that is allocated, and the size of a vertex. -/
  vs : GlobalAddress
  is_linear : vs.is_linear = true
  vertex_size : ℕ
  /-- What the constructor of a vertex makes of its data. -/
  data : ℕ → VertexData D
  /-- A default-initialized edge. -/
  edge : E
  /-- What a new array for the adjacencies of a vertex has in it. -/
  fresh : ℕ → ℕ → VertexID
  /-- The words that follow that array in the memory of the core. -/
  after : ℕ → List VertexID

namespace GraphInput

variable {m : Machine} {D E : Type} (g : GraphInput m D E)

def edges : List Edge := (List.finRange m.cores).flatMap g.local_edges

/-! ### The largest id -/

/-- `g->nv` after another edge. -/
def widen (nv : ℤ) (e : Edge) : ℤ :=
  let nv := if e.v0 > nv then e.v0 else nv
  if e.v1 > nv then e.v1 else nv

/-- `g->nv` of a core after its edges. -/
def local_nv (c : Fin m.cores) : ℤ := (g.local_edges c).foldl widen 0

/-- `g->nv` after the `allreduce`. -/
def nv : ℕ := ((total max ((List.finRange m.cores).map g.local_nv)).getD 0 + 1).toNat

/-! ### Counting -/

/-- The vertices that an edge is counted at, each with the other end. -/
def ends (e : Edge) : List (VertexID × VertexID) :=
  if g.directed then [(e.v0, e.v1)] else [(e.v0, e.v1), (e.v1, e.v0)]

/-- The messages of the passes that count and scatter. -/
def messages : List (VertexID × VertexID) := g.edges.flatMap g.ends

/-- `local_sz` of every vertex when these messages have arrived. -/
def count (arrivals : List (VertexID × VertexID)) : ℕ → ℕ :=
  arrivals.foldl (fun local_sz p => Function.update local_sz p.1.toNat (local_sz p.1.toNat + 1))
    fun _ => 0

/-! ### Scattering -/

/-- The arrays of the vertices, and how far they are filled. -/
structure Arrays where
  nadj : ℕ → ℕ
  local_adj : ℕ → List VertexID

/-- The arrays are allocated. -/
def allocate (local_sz : ℕ → ℕ) : Arrays where
  nadj := fun _ => 0
  local_adj := fun v => (List.range (local_sz v)).map (g.fresh v)

/-- `v.local_adj[v.nadj++] = adj`. -/
def Arrays.store (a : Arrays) (p : VertexID × VertexID) : Arrays :=
  let v := p.1.toNat
  { local_adj := Function.update a.local_adj v ((a.local_adj v).set (a.nadj v) p.2)
    nadj := Function.update a.nadj v (a.nadj v + 1) }

def scatter (arrivals : List (VertexID × VertexID)) (a : Arrays) : Arrays :=
  arrivals.foldl Arrays.store a

/-! ### Sorting and removing duplicates -/

/-- The array of vertex `v` afterwards, and its `nadj`; `none` if the check fails or the
    program reads beyond its memory. -/
def sort_dedup (local_sz : ℕ → ℕ) (a : Arrays) (v : ℕ) : Option (List VertexID × ℕ) :=
  if a.nadj v = local_sz v then
    Dedup.dedup (((a.local_adj v).insertionSort (· ≤ ·)) ++ g.after v) (a.nadj v)
  else none

/-! ### Compacting -/

/-- The core of a vertex. -/
def core (v : ℕ) : ℕ := ((g.vs.element g.vertex_size v).core m).toNat

/-- `iterate_local(g->vs, g->nv)`. -/
def local_vertices (c : ℕ) : List ℕ := (List.range g.nv).filter fun v => g.core v = c

/-- The buffer of a core as far as it is filled, and the vertices. -/
structure Compacted (D : Type) where
  adj_buf : List VertexID
  offset : ℕ
  vs : ℕ → Vertex D

/-- A vertex gets its part of the buffers. -/
def Compacted.put (data : ℕ → VertexData D) (arrays : ℕ → List VertexID × ℕ) (s : Compacted D)
    (v : ℕ) : Compacted D where
  -- the parts before this one are filled, so the copy goes to their end
  adj_buf := s.adj_buf ++ (arrays v).1.take (arrays v).2
  offset := s.offset + (arrays v).2
  vs := Function.update s.vs v
    { valid := true, local_adj := s.offset, nadj := (arrays v).2, local_sz := (arrays v).2,
      data := data v, local_edge_state := s.offset }

/-- A vertex as it is constructed. -/
def new_vertex (v : ℕ) : Vertex D :=
  { valid := true, local_adj := 0, nadj := 0, local_sz := 0, data := g.data v,
    local_edge_state := 0 }

def compact (arrays : ℕ → List VertexID × ℕ) (c : ℕ) : Compacted D :=
  (g.local_vertices c).foldl (Compacted.put g.data arrays) ⟨[], 0, g.new_vertex⟩

/-- `g->nadj_local` of a core. -/
def nadj_local (arrays : ℕ → List VertexID × ℕ) (c : ℕ) : ℕ :=
  ((g.local_vertices c).map fun v => (arrays v).2).sum

/-- The graph after all cores have compacted their vertices. -/
def compacted (arrays : ℕ → List VertexID × ℕ) : Graph D E where
  nv := g.nv
  vs := fun v => (g.compact arrays (g.core v)).vs v
  core := g.core
  adj_buf := fun c => (g.compact arrays c).adj_buf
  edge_storage := fun c => List.replicate (g.nadj_local arrays c) g.edge

/-- `g->nadj` after the `allreduce`. -/
def nadj (arrays : ℕ → List VertexID × ℕ) : ℕ :=
  ((List.range m.cores).map (g.nadj_local arrays)).sum

/-! ### Valid vertices -/

/-- The vertices with outgoing edges are active. -/
def markSources (G : Graph D E) : Graph D E :=
  { G with vs := fun v => { G.vs v with valid := 0 < (G.vs v).nadj } }

/-- A vertex is found at the end of an edge. -/
def mark (G : Graph D E) (w : VertexID) : Graph D E :=
  { G with vs := Function.update G.vs w.toNat { G.vs w.toNat with valid := true } }

/-- The messages of the last pass.  A vertex that becomes valid during the pass has no edges. -/
def targets (G : Graph D E) : List VertexID := G.visitedEdges.map fun e => e.2.1

/-! ### All passes -/

/-- What the passes up to the last but one leave: the arrays of the vertices. -/
def sorted (counts scatters : List (VertexID × VertexID)) (v : ℕ) : Option (List VertexID × ℕ) :=
  g.sort_dedup (count counts) (scatter scatters (g.allocate (count counts))) v

/-- The arrays of all vertices, when every vertex has one. -/
def arrays (counts scatters : List (VertexID × VertexID)) (v : ℕ) : List VertexID × ℕ :=
  (g.sorted counts scatters v).getD ([], 0)

/-- The graph before the vertices without edges are found, and its `nadj`; `none` if a check
    fails or the program reads beyond its memory. -/
def build (counts scatters : List (VertexID × VertexID)) : Option (Graph D E × ℕ) :=
  if (∀ e ∈ g.edges, e.v0 < g.nv ∧ e.v1 < g.nv) ∧
      (∀ v < g.nv, (g.sorted counts scatters v).isSome) ∧
      ∀ c < m.cores, (g.compact (g.arrays counts scatters) c).offset =
        g.nadj_local (g.arrays counts scatters) c then
    some (g.compacted (g.arrays counts scatters), g.nadj (g.arrays counts scatters))
  else none

/-- The messages of the last pass, if there is one. -/
def marks (G : Graph D E) : List VertexID :=
  if g.solo_invalid then targets (markSources G) else []

/-- The graph at the end, when the messages of the last pass have arrived in some order. -/
def finish (G : Graph D E) (arrivals : List VertexID) : Graph D E :=
  if g.solo_invalid then arrivals.foldl mark (markSources G) else G

variable {g}

/-! ### What the passes leave -/

section ids

variable {n : ℤ} {e : Edge} {l : List Edge}

theorem le_widen : n ≤ widen n e ∧ e.v0 ≤ widen n e ∧ e.v1 ≤ widen n e := by
  simp only [widen]
  split_ifs <;> omega

theorem widen_cases : widen n e = n ∨ widen n e = e.v0 ∨ widen n e = e.v1 := by
  simp only [widen]
  split_ifs <;> simp

theorem le_foldl_widen : n ≤ l.foldl widen n ∧
    ∀ e ∈ l, e.v0 ≤ l.foldl widen n ∧ e.v1 ≤ l.foldl widen n := by
  induction l generalizing n with
  | nil => simp
  | cons e l ih =>
    obtain ⟨hnv, hl⟩ := ih (n := widen n e)
    have hwiden := le_widen (n := n) (e := e)
    simp only [foldl_cons]
    refine ⟨hwiden.1.trans hnv, ?_⟩
    intro d hd
    rcases mem_cons.mp hd with rfl | hd
    · exact ⟨hwiden.2.1.trans hnv, hwiden.2.2.trans hnv⟩
    · exact hl d hd

theorem foldl_widen_cases : l.foldl widen n = n ∨
    ∃ e ∈ l, l.foldl widen n = e.v0 ∨ l.foldl widen n = e.v1 := by
  induction l generalizing n with
  | nil => simp
  | cons e l ih =>
    simp only [foldl_cons]
    obtain heq | ⟨d, hd, hcases⟩ := ih (n := widen n e)
    · rcases widen_cases (n := n) (e := e) with hw | hw
      · exact .inl (heq.trans hw)
      · exact .inr ⟨e, mem_cons_self, by rwa [heq]⟩
    · exact .inr ⟨d, mem_cons_of_mem _ hd, hcases⟩

end ids

theorem exists_total_max {l : List ℤ} (hl : l ≠ []) :
    ∃ x ∈ l, total max l = some x ∧ ∀ y ∈ l, y ≤ x := by
  cases l with
  | nil => exact absurd rfl hl
  | cons a l =>
    rw [Totals.total_cons]
    clear hl
    induction l generalizing a with
    | nil => exact ⟨a, by simp, rfl, by simp⟩
    | cons b l ih =>
      obtain ⟨x, hx, htotal, hle⟩ := ih (max a b)
      refine ⟨x, ?_, htotal, ?_⟩
      · rcases mem_cons.mp hx with rfl | hx
        · rcases max_choice a b with h | h <;> simp [h]
        · simp [hx]
      · have hmax := hle _ mem_cons_self
        intro y hy
        simp only [mem_cons] at hy
        rcases hy with rfl | rfl | hy
        · exact (le_max_left ..).trans hmax
        · exact (le_max_right ..).trans hmax
        · exact hle y (mem_cons_of_mem _ hy)

theorem mem_edges {e : Edge} : e ∈ g.edges ↔ ∃ c, e ∈ g.local_edges c := by
  simp [edges]

/-- **The first pass**: `nv` is one more than the largest id. -/
theorem nv_spec (g : GraphInput m D E) :
    (∀ e ∈ g.edges, e.v0 < g.nv ∧ e.v1 < g.nv) ∧
      ∃ e ∈ g.edges, e.v0 + 1 = g.nv ∨ e.v1 + 1 = g.nv := by
  have hcores : (finRange m.cores).map g.local_nv ≠ [] := by
    intro h
    have := congrArg length h
    have hpos := m.cores_pos
    simp at this
    omega
  obtain ⟨x, hx, htotal, hle⟩ := exists_total_max hcores
  obtain ⟨c, -, rfl⟩ := mem_map.mp hx
  have hall : ∀ e ∈ g.edges, e.v0 ≤ g.local_nv c ∧ e.v1 ≤ g.local_nv c := by
    intro e he
    obtain ⟨d, hd⟩ := mem_edges.mp he
    have hmax := hle _ (mem_map_of_mem (mem_finRange d))
    have hup : e.v0 ≤ g.local_nv d ∧ e.v1 ≤ g.local_nv d := le_foldl_widen.2 e hd
    exact ⟨hup.1.trans hmax, hup.2.trans hmax⟩
  have hzero : 0 ≤ g.local_nv c := le_foldl_widen.1
  have hnv : (g.nv : ℤ) = g.local_nv c + 1 := by
    rw [nv, htotal, Option.getD_some]
    omega
  constructor
  · intro e he
    have := hall e he
    omega
  · rcases foldl_widen_cases (n := 0) (l := g.local_edges c) with heq | ⟨e, he, hcases⟩
    · -- no id is larger than the one that every core starts with
      obtain ⟨d, e, he⟩ := g.exists_edge
      refine ⟨e, mem_edges.mpr ⟨d, he⟩, .inl ?_⟩
      have hup := (hall e (mem_edges.mpr ⟨d, he⟩)).1
      have hlo := (g.ids_nonneg d e he).1
      have : g.local_nv c = 0 := heq
      omega
    · refine ⟨e, mem_edges.mpr ⟨c, he⟩, ?_⟩
      have : g.local_nv c = e.v0 ∨ g.local_nv c = e.v1 := hcases
      omega

/-- How often a vertex is counted. -/
def degree (arrivals : List (VertexID × VertexID)) (v : ℕ) : ℕ :=
  arrivals.countP fun p => p.1.toNat = v

/-- What is sent to a vertex. -/
def sent (arrivals : List (VertexID × VertexID)) (v : ℕ) : List VertexID :=
  (arrivals.filter fun p => p.1.toNat = v).map Prod.snd

@[simp] theorem length_sent (arrivals : List (VertexID × VertexID)) (v : ℕ) :
    (sent arrivals v).length = degree arrivals v := by
  rw [sent, length_map, degree, countP_eq_length_filter]

/-- **The second pass** counts what is sent to each vertex. -/
theorem count_eq (arrivals : List (VertexID × VertexID)) : count arrivals = degree arrivals := by
  have hfoldl : ∀ (l : List (VertexID × VertexID)) (start : ℕ → ℕ),
      l.foldl (fun sz p => update sz p.1.toNat (sz p.1.toNat + 1)) start =
        fun v => start v + degree l v := by
    intro l
    induction l with
    | nil => simp [degree]
    | cons p l ih =>
      intro start
      rw [foldl_cons, ih]
      funext v
      by_cases hv : p.1.toNat = v
      · subst hv
        simp [degree]
        omega
      · simp [degree, hv, update_of_ne (Ne.symm hv)]
  rw [count, hfoldl]
  simp

/-- **The third pass** fills the arrays in the order in which the messages arrive. -/
theorem scatter_eq {arrivals : List (VertexID × VertexID)} {a : Arrays}
    (filled space : ℕ → List VertexID) (harray : ∀ v, a.local_adj v = filled v ++ space v)
    (hnadj : ∀ v, a.nadj v = (filled v).length)
    (hspace : ∀ v, (space v).length = degree arrivals v) :
    ∀ v, (scatter arrivals a).local_adj v = filled v ++ sent arrivals v ∧
      (scatter arrivals a).nadj v = (filled v).length + degree arrivals v := by
  induction arrivals generalizing a filled space with
  | nil =>
    intro v
    have hnil : space v = [] := eq_nil_of_length_eq_zero (hspace v)
    simp [scatter, sent, degree, harray v, hnadj v, hnil]
  | cons p l ih =>
    have hdegree : ∀ v, degree (p :: l) v = degree l v + if p.1.toNat = v then 1 else 0 := by
      intro v
      simp [degree, countP_cons]
    -- one place of the vertex is filled
    obtain ⟨x, rest, hrest⟩ : ∃ x rest, space p.1.toNat = x :: rest := by
      have := hspace p.1.toNat
      rw [hdegree, if_pos rfl] at this
      exact exists_cons_of_length_pos (by omega)
    have hstep := @ih (a.store p) (update filled p.1.toNat (filled p.1.toNat ++ [p.2]))
      (update space p.1.toNat rest) ?_ ?_ ?_
    · intro v
      obtain ⟨hadj, hn⟩ := hstep v
      simp only [scatter, foldl_cons] at hadj hn ⊢
      rw [hadj, hn, hdegree]
      by_cases hv : p.1.toNat = v
      · subst hv
        simp [sent]
        omega
      · simp [sent, hv, update_of_ne (Ne.symm hv)]
    · intro v
      by_cases hv : p.1.toNat = v
      · subst hv
        simp [Arrays.store, harray, hrest, hnadj]
      · simp [Arrays.store, harray, update_of_ne (Ne.symm hv)]
    · intro v
      by_cases hv : p.1.toNat = v
      · subst hv
        simp [Arrays.store, hnadj]
      · simp [Arrays.store, hnadj, update_of_ne (Ne.symm hv)]
    · intro v
      have := hspace v
      rw [hdegree] at this
      by_cases hv : p.1.toNat = v
      · subst hv
        rw [hrest] at this
        simpa using this
      · simpa [hv, update_of_ne (Ne.symm hv)] using this

/-- The part of the buffer that a vertex gets. -/
def part (arrays : ℕ → List VertexID × ℕ) (v : ℕ) : List VertexID := (arrays v).1.take (arrays v).2

/-- What compacting makes of the vertices of `L`, behind a buffer that is filled up to `offset`. -/
structure PutSpec (data : ℕ → VertexData D) (arrays : ℕ → List VertexID × ℕ) (L : List ℕ)
    (s s' : Compacted D) : Prop where
  adj_buf : s'.adj_buf = s.adj_buf ++ L.flatMap (part arrays)
  offset : s'.offset = s'.adj_buf.length
  other : ∀ v, v ∉ L → s'.vs v = s.vs v
  slices : Consecutive s.offset (L.map fun v => ((s'.vs v).local_adj, (arrays v).2)) s'.offset
  adj : ∀ v ∈ L, (s'.adj_buf.drop (s'.vs v).local_adj).take (arrays v).2 = part arrays v
  vertex : ∀ v ∈ L, s'.vs v =
    { valid := true, local_adj := (s'.vs v).local_adj, nadj := (arrays v).2, local_sz := (arrays v).2,
      data := data v, local_edge_state := (s'.vs v).local_adj }

/-- **Compacting** puts the arrays of the vertices one behind the other. -/
theorem foldl_put {data : ℕ → VertexData D} {arrays : ℕ → List VertexID × ℕ} {L : List ℕ}
    (hL : L.Nodup) (hlen : ∀ v ∈ L, (part arrays v).length = (arrays v).2) (s : Compacted D)
    (hoff : s.offset = s.adj_buf.length) :
    PutSpec data arrays L s (L.foldl (Compacted.put data arrays) s) := by
  induction L generalizing s with
  | nil =>
    constructor
    case adj_buf => simp
    case offset => exact hoff
    case other => exact fun v _ => rfl
    case slices => exact rfl
    case adj | vertex =>
      intro v hv
      cases hv
  | cons u L ih =>
    obtain ⟨hu, hL⟩ := nodup_cons.mp hL
    have hpart := hlen u mem_cons_self
    have hput : (Compacted.put data arrays s u).offset =
        (Compacted.put data arrays s u).adj_buf.length := by
      simp only [Compacted.put, length_append, hoff]
      exact congrArg _ hpart.symm
    have hrest := ih hL (fun v hv => hlen v (mem_cons_of_mem _ hv)) _ hput
    rw [foldl_cons]
    generalize L.foldl (Compacted.put data arrays) (Compacted.put data arrays s u) = s' at hrest ⊢
    have hvertex : s'.vs u =
        { valid := true, local_adj := s.offset, nadj := (arrays u).2, local_sz := (arrays u).2,
          data := data u, local_edge_state := s.offset } := by
      rw [hrest.other u hu]
      exact update_self ..
    have hbuf : s'.adj_buf = s.adj_buf ++ (part arrays u ++ L.flatMap (part arrays)) := by
      rw [hrest.adj_buf, ← append_assoc]
      rfl
    constructor
    case adj_buf => exact hbuf
    case offset => exact hrest.offset
    case other =>
      intro v hv
      obtain ⟨hvu, hvL⟩ := not_or.mp (mt mem_cons.mpr hv)
      rw [hrest.other v hvL]
      exact update_of_ne hvu ..
    case slices =>
      refine ⟨?_, hrest.slices⟩
      rw [hvertex]
    case adj =>
      intro v hv
      rcases mem_cons.mp hv with rfl | hv
      · rw [hvertex, hbuf, hoff, drop_left, take_left' hpart]
      · exact hrest.adj v hv
    case vertex =>
      intro v hv
      rcases mem_cons.mp hv with rfl | hv
      · rw [hvertex]
      · exact hrest.vertex v hv

end GraphInput

end Grappa
