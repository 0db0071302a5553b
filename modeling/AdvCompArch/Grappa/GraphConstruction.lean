import AdvCompArch.Grappa.AppGraph
import AdvCompArch.Grappa.GraphCreate

/-! # What a constructed graph is

    The graph that `Graph::create` constructs has the adjacency lists of its edges, whatever
    the order in which the delegates of its passes run: sorted, without duplicates, and one
    behind the other in the buffers of the cores.

    It is constructed exactly if the loop that removes the duplicates of a vertex finds a
    word that is not the last adjacency before the memory behind the array ends
    (`create_iff`). -/

namespace Grappa

open List GlobalAddress

open TupleGraph (Edge)

namespace GraphInput

variable {m : Machine} {D E : Type} (g : GraphInput m D E)

/-- There is an edge from `v` to `w`, in some direction when the graph is not directed. -/
def Neighbour (v : ℕ) (w : VertexID) : Prop :=
  ∃ e ∈ g.edges, (e.v0 = v ∧ e.v1 = w) ∨ (g.directed = false ∧ e.v1 = v ∧ e.v0 = w)

/-- Some word that follows the array of `v` is not its largest adjacency. -/
def Guarded (v : ℕ) : Prop :=
  ∀ w, g.Neighbour v w → (∀ w', g.Neighbour v w' → w' ≤ w) → ∃ y ∈ g.after v, y ≠ w

/-- The graph of the edges. -/
structure Constructed (G : Graph D E) (nadj : ℕ) : Prop where
  /-- The number of vertices is one more than the largest id. -/
  bounds : ∀ e ∈ g.edges, e.v0 < G.nv ∧ e.v1 < G.nv
  attained : ∃ e ∈ g.edges, e.v0 + 1 = G.nv ∨ e.v1 + 1 = G.nv
  placed : ∀ v < G.nv, G.core v < m.cores
  increasing : ∀ v < G.nv, (G.adj v).Pairwise (· < ·)
  mem_adj : ∀ v < G.nv, ∀ w, w ∈ G.adj v ↔ g.Neighbour v w
  /-- The adjacencies of the vertices of a core fill its buffer, one behind the other. -/
  slices : ∀ c, Consecutive 0 (((List.range G.nv).filter fun v => G.core v = c).map fun v =>
    ((G.vs v).local_adj, (G.vs v).nadj)) (G.adj_buf c).length
  edge_slices : ∀ c, Consecutive 0 (((List.range G.nv).filter fun v => G.core v = c).map fun v =>
    ((G.vs v).local_edge_state, (G.vs v).nadj)) (G.edge_storage c).length
  disjoint : ∀ c, ((List.range G.nv).filter fun v => G.core v = c).Pairwise fun u v =>
    (G.vs u).local_adj + (G.vs u).nadj ≤ (G.vs v).local_adj ∧
      (G.vs u).local_edge_state + (G.vs u).nadj ≤ (G.vs v).local_edge_state
  total : nadj = ((List.range m.cores).map fun c => (G.adj_buf c).length).sum
  valid : ∀ v < G.nv, (G.vs v).valid = true ↔
    (g.solo_invalid = true → ∃ e ∈ g.edges, e.v0 = v ∨ e.v1 = v)

variable {g} {v : ℕ} {w : VertexID} {arrivals counts scatters : List (VertexID × VertexID)}

/-! ### The array of a vertex -/

theorem mem_messages {p : VertexID × VertexID} : p ∈ g.messages ↔
    ∃ e ∈ g.edges, p = (e.v0, e.v1) ∨ (g.directed = false ∧ p = (e.v1, e.v0)) := by
  simp only [messages, mem_flatMap, ends]
  cases g.directed <;> simp

theorem ids_nonneg' {e : Edge} (he : e ∈ g.edges) : 0 ≤ e.v0 ∧ 0 ≤ e.v1 := by
  obtain ⟨c, hc⟩ := mem_edges.mp he
  exact g.ids_nonneg c e hc

theorem mem_sent (harrivals : arrivals.Perm g.messages) :
    w ∈ sent arrivals v ↔ g.Neighbour v w := by
  simp only [sent, mem_map, mem_filter, decide_eq_true_eq, harrivals.mem_iff,
    mem_messages, Neighbour]
  constructor
  · intro h
    obtain ⟨p, ⟨⟨e, he, hp⟩, hv⟩, rfl⟩ := h
    have hnonneg := ids_nonneg' he
    refine ⟨e, he, ?_⟩
    rcases hp with rfl | ⟨hd, rfl⟩
    · exact .inl ⟨by simp only at hv; omega, rfl⟩
    · exact .inr ⟨hd, by simp only at hv; omega, rfl⟩
  · intro h
    obtain ⟨e, he, ⟨hv, rfl⟩ | ⟨hd, hv, rfl⟩⟩ := h
    · exact ⟨(e.v0, e.v1), ⟨⟨e, he, .inl rfl⟩, by simp only; omega⟩, rfl⟩
    · exact ⟨(e.v1, e.v0), ⟨⟨e, he, .inr ⟨hd, rfl⟩⟩, by simp only; omega⟩, rfl⟩

/-- The adjacencies of a vertex when they are sorted. -/
def sortedAdj (arrivals : List (VertexID × VertexID)) (v : ℕ) : List VertexID :=
  (sent arrivals v).insertionSort (· ≤ ·)

/-- **Up to the removal of duplicates** the array of a vertex has what is sent to it, sorted. -/
theorem sorted_eq (hcounts : counts.Perm g.messages) (hscatters : scatters.Perm g.messages) :
    g.sorted counts scatters v =
      Dedup.dedup (sortedAdj scatters v ++ g.after v) (sortedAdj scatters v).length := by
  have hdegree : ∀ u, degree counts u = degree scatters u := fun u =>
    (hcounts.trans hscatters.symm).countP_eq _
  have hspace : ∀ u, ((g.allocate (count counts)).local_adj u).length = degree scatters u := by
    intro u
    simp [allocate, count_eq, hdegree]
  obtain ⟨hadj, hnadj⟩ := @scatter_eq scatters (g.allocate (count counts)) (fun _ => [])
    (g.allocate (count counts)).local_adj (fun _ => rfl) (fun _ => rfl) hspace v
  have hlen : (sortedAdj scatters v).length = degree scatters v := by
    rw [sortedAdj, length_insertionSort, length_sent]
  simp only [nil_append, length_nil, zero_add] at hadj hnadj
  rw [sorted, sort_dedup, hadj, hnadj, if_pos (by rw [count_eq, hdegree]), hlen]
  rfl

theorem pairwise_sortedAdj : (sortedAdj arrivals v).Pairwise (· ≤ ·) :=
  pairwise_insertionSort _ _

theorem mem_sortedAdj (harrivals : arrivals.Perm g.messages) :
    w ∈ sortedAdj arrivals v ↔ g.Neighbour v w := by
  rw [sortedAdj, mem_insertionSort, mem_sent harrivals]

theorem ends_iff (harrivals : arrivals.Perm g.messages) :
    Dedup.Ends (sortedAdj arrivals v) (g.after v) ↔ g.Guarded v := by
  have hlast : ∀ x, (sortedAdj arrivals v).getLast? = some x →
      ∀ y ∈ sortedAdj arrivals v, y ≤ x := by
    intro x hx y hy
    obtain ⟨front, hfront⟩ := getLast?_eq_some_iff.mp hx
    have hsorted : (sortedAdj arrivals v).Pairwise (· ≤ ·) := pairwise_sortedAdj
    rw [hfront] at hsorted hy
    rcases mem_append.mp hy with hy | hy
    · exact (pairwise_append.mp hsorted).2.2 y hy x (mem_singleton_self x)
    · exact (mem_singleton.mp hy).le
  constructor
  · intro hends w hw hlargest
    obtain ⟨x, hx⟩ := Option.ne_none_iff_exists'.mp
      (mt getLast?_eq_none_iff.mp (ne_nil_of_mem ((mem_sortedAdj harrivals).mpr hw)))
    have hle := hlast x hx w ((mem_sortedAdj harrivals).mpr hw)
    have hge := hlargest x ((mem_sortedAdj harrivals).mp (mem_of_getLast? hx))
    exact le_antisymm hge hle ▸ hends x hx
  · intro hguard x hx
    apply hguard x ((mem_sortedAdj harrivals).mp (mem_of_getLast? hx))
    intro w' hw'
    exact hlast x hx w' ((mem_sortedAdj harrivals).mpr hw')

theorem part_arrays (hcounts : counts.Perm g.messages) (hscatters : scatters.Perm g.messages)
    (hguard : g.Guarded v) :
    (g.sorted counts scatters v).isSome ∧
      (part (g.arrays counts scatters) v).length = (g.arrays counts scatters v).2 ∧
      (part (g.arrays counts scatters) v).Pairwise (· < ·) ∧
      ∀ w, w ∈ part (g.arrays counts scatters) v ↔ g.Neighbour v w := by
  obtain ⟨u, words, hu, hdedup, htake⟩ :=
    (Dedup.dedup_eq pairwise_sortedAdj).1 ((ends_iff hscatters).mpr hguard)
  have hsorted : g.sorted counts scatters v = some (words, u.length) :=
    (sorted_eq hcounts hscatters).trans hdedup
  have harrays : g.arrays counts scatters v = (words, u.length) := by
    rw [arrays, hsorted, Option.getD_some]
  have hpart : part (g.arrays counts scatters) v = u := by
    rw [part, harrays, htake]
  rw [hpart, harrays, hsorted]
  refine ⟨rfl, rfl, hu.increasing, ?_⟩
  intro w
  rw [hu.mem_iff, mem_sortedAdj hscatters]

theorem sorted_eq_none (hcounts : counts.Perm g.messages) (hscatters : scatters.Perm g.messages)
    (hguard : ¬g.Guarded v) : g.sorted counts scatters v = none := by
  rw [sorted_eq hcounts hscatters]
  exact (Dedup.dedup_eq pairwise_sortedAdj).2 (mt (ends_iff hscatters).mp hguard)

/-! ### The buffers -/

theorem core_lt (g : GraphInput m D E) (v : ℕ) : g.core v < m.cores := by
  obtain ⟨s, hs⟩ := exists_nat_of_is_linear g.is_linear
  rw [core, hs, element_natCast, core_natCast, Int.toNat_natCast]
  exact BlockCyclic.owner_lt m.cores_pos _

section buffers

variable {arrays : ℕ → List VertexID × ℕ}

theorem mem_local_vertices {c : ℕ} : v ∈ g.local_vertices c ↔ v < g.nv ∧ g.core v = c := by
  simp [local_vertices]

theorem compact_spec (hlen : ∀ v < g.nv, (part arrays v).length = (arrays v).2) (c : ℕ) :
    PutSpec g.data arrays (g.local_vertices c) ⟨[], 0, g.new_vertex⟩ (g.compact arrays c) := by
  apply foldl_put
  · exact nodup_range.filter _
  · intro v hv
    exact hlen v (mem_local_vertices.mp hv).1
  · rfl

theorem offset_eq (hlen : ∀ v < g.nv, (part arrays v).length = (arrays v).2) (c : ℕ) :
    (g.compact arrays c).offset = g.nadj_local arrays c := by
  have hend := (compact_spec hlen c).slices.end_eq
  rw [hend, map_map]
  simp [nadj_local, Function.comp_def]

/-- Where the vertices end up. -/
structure Placed (G : Graph D E) (arrays : ℕ → List VertexID × ℕ) : Prop where
  nv : G.nv = g.nv
  core : G.core = g.core
  buffer : ∀ c, (G.adj_buf c).length = g.nadj_local arrays c
  storage : ∀ c, (G.edge_storage c).length = g.nadj_local arrays c
  vertex : ∀ v < g.nv, (G.vs v).nadj = (arrays v).2 ∧
    (G.vs v).local_edge_state = (G.vs v).local_adj
  slices : ∀ c, Consecutive 0 ((g.local_vertices c).map fun v =>
    ((G.vs v).local_adj, (G.vs v).nadj)) (g.nadj_local arrays c)
  adj : ∀ v < g.nv, G.adj v = part arrays v

/-- **Compacting** leaves every vertex its part of the buffer of its core. -/
theorem placed_compacted (hlen : ∀ v < g.nv, (part arrays v).length = (arrays v).2) :
    Placed (g := g) (g.compacted arrays) arrays ∧
      ∀ v < g.nv, ((g.compacted arrays).vs v).valid = true := by
  have hvertex : ∀ v < g.nv, (g.compacted arrays).vs v =
      { valid := true, local_adj := ((g.compacted arrays).vs v).local_adj, nadj := (arrays v).2,
        local_sz := (arrays v).2, data := g.data v,
        local_edge_state := ((g.compacted arrays).vs v).local_adj } := by
    intro v hv
    exact (compact_spec hlen (g.core v)).vertex v (mem_local_vertices.mpr ⟨hv, rfl⟩)
  have hnadj : ∀ v < g.nv, ((g.compacted arrays).vs v).nadj = (arrays v).2 := by
    intro v hv
    rw [hvertex v hv]
  constructor
  · constructor
    case nv => rfl
    case core => rfl
    case buffer =>
      intro c
      rw [← offset_eq hlen]
      exact (compact_spec hlen c).offset.symm
    case storage =>
      intro c
      exact length_replicate
    case vertex =>
      intro v hv
      rw [hvertex v hv]
      exact ⟨rfl, rfl⟩
    case slices =>
      intro c
      have hmap : ((g.local_vertices c).map fun v =>
          (((g.compacted arrays).vs v).local_adj, ((g.compacted arrays).vs v).nadj)) =
          (g.local_vertices c).map fun v =>
            (((g.compact arrays c).vs v).local_adj, (arrays v).2) := by
        apply map_congr_left
        intro v hv
        obtain ⟨hnv, hcore⟩ := mem_local_vertices.mp hv
        rw [hnadj v hnv, ← hcore]
        rfl
      rw [hmap, ← offset_eq hlen]
      exact (compact_spec hlen c).slices
    case adj =>
      intro v hv
      rw [Graph.adj, hnadj v hv]
      exact (compact_spec hlen (g.core v)).adj v (mem_local_vertices.mpr ⟨hv, rfl⟩)
  · intro v hv
    rw [hvertex v hv]

end buffers

/-! ### Valid vertices -/

/-- The graph with other flags. -/
def withValid (G : Graph D E) (valid : ℕ → Bool) : Graph D E :=
  { G with vs := fun v => { G.vs v with valid := valid v } }

theorem mark_withValid (G : Graph D E) (valid : ℕ → Bool) (w : VertexID) :
    mark (withValid G valid) w = withValid G (Function.update valid w.toNat true) := by
  simp only [mark, withValid]
  congr 1
  funext v
  by_cases hv : v = w.toNat
  · subst hv
    simp
  · simp [Function.update_of_ne hv]

theorem foldl_mark (G : Graph D E) (valid : ℕ → Bool) (l : List VertexID) :
    l.foldl mark (withValid G valid) =
      withValid G fun v => valid v || l.any fun w => decide (w.toNat = v) := by
  induction l generalizing valid with
  | nil => simp
  | cons w l ih =>
    rw [foldl_cons, mark_withValid, ih]
    congr 1
    funext v
    by_cases hv : v = w.toNat
    · subst hv
      simp
    · simp [Function.update_of_ne hv, Ne.symm hv]

theorem mem_targets {G : Graph D E} {arrays : ℕ → List VertexID × ℕ}
    (hG : Placed (g := g) G arrays) :
    w ∈ targets (markSources G) ↔ ∃ u < g.nv, w ∈ G.adj u := by
  have hstates : ∀ u < g.nv, (G.adj u).length ≤ ((markSources G).edgeStates u).length := by
    intro u hu
    have hmem : ((G.vs u).local_adj, (G.vs u).nadj) ∈ (g.local_vertices (g.core u)).map fun v =>
        ((G.vs v).local_adj, (G.vs v).nadj) :=
      mem_map_of_mem (f := fun v => ((G.vs v).local_adj, (G.vs v).nadj))
        (mem_local_vertices.mpr ⟨hu, rfl⟩)
    have hle := (hG.slices (g.core u)).le_end hmem
    have hstate : (G.vs u).local_edge_state = (G.vs u).local_adj := (hG.vertex u hu).2
    have hstorage := hG.storage (g.core u)
    rw [← hG.core] at hstorage hle
    simp only [Graph.adj, Graph.edgeStates, markSources, length_take, length_drop,
      hstate, hstorage]
    omega
  have hvisited : ∀ u, u ∈ (markSources G).visited ↔ u < g.nv ∧ 0 < (G.vs u).nadj := by
    intro u
    simp [Graph.visited, markSources, hG.nv]
  simp only [targets, Graph.visitedEdges, map_flatMap, map_map, mem_flatMap, hvisited]
  have hfst : ∀ u < g.nv, (((markSources G).adj u).zip ((markSources G).edgeStates u)).map
      ((fun e : ℕ × VertexID × E => e.2.1) ∘ fun e => (u, e.1, e.2)) = G.adj u := by
    intro u hu
    exact map_fst_zip (hstates u hu)
  constructor
  · intro h
    obtain ⟨u, ⟨hu, -⟩, hw⟩ := h
    rw [hfst u hu] at hw
    exact ⟨u, hu, hw⟩
  · intro h
    obtain ⟨u, hu, hw⟩ := h
    refine ⟨u, ⟨hu, ?_⟩, ?_⟩
    · -- a list of no adjacencies has none
      by_contra hnone
      have hzero : (G.vs u).nadj = 0 := by omega
      simp [Graph.adj, hzero] at hw
    · rwa [hfst u hu]

theorem Placed.withValid {G : Graph D E} {arrays : ℕ → List VertexID × ℕ}
    (hG : Placed (g := g) G arrays) (valid : ℕ → Bool) :
    Placed (g := g) (withValid G valid) arrays := by
  constructor
  case nv => exact hG.nv
  case core => exact hG.core
  case buffer => exact hG.buffer
  case storage => exact hG.storage
  case vertex => exact hG.vertex
  case slices => exact hG.slices
  case adj => exact hG.adj

theorem exists_vertex {e : Edge} (he : e ∈ g.edges) :
    (∃ u < g.nv, (u : ℤ) = e.v0) ∧ ∃ u < g.nv, (u : ℤ) = e.v1 := by
  have hlt := g.nv_spec.1 e he
  have hnonneg := ids_nonneg' he
  exact ⟨⟨e.v0.toNat, by omega, by omega⟩, ⟨e.v1.toNat, by omega, by omega⟩⟩

/-- A vertex with an edge has a neighbour or is one. -/
theorem endpoint_iff : (∃ e ∈ g.edges, e.v0 = v ∨ e.v1 = v) ↔
    (∃ w, g.Neighbour v w) ∨ ∃ u < g.nv, g.Neighbour u v := by
  constructor
  · intro h
    obtain ⟨e, he, hv | hv⟩ := h
    · exact .inl ⟨e.v1, e, he, .inl ⟨hv, rfl⟩⟩
    · obtain ⟨u, hu, hsource⟩ := (exists_vertex he).1
      exact .inr ⟨u, hu, e, he, .inl ⟨hsource.symm, hv⟩⟩
  · intro h
    obtain ⟨w, e, he, ⟨hv, -⟩ | ⟨-, hv, -⟩⟩ | ⟨u, -, e, he, ⟨-, hv⟩ | ⟨-, -, hv⟩⟩ := h
    · exact ⟨e, he, .inl hv⟩
    · exact ⟨e, he, .inr hv⟩
    · exact ⟨e, he, .inr hv⟩
    · exact ⟨e, he, .inl hv⟩

/-- **The last pass** only changes the flags. -/
theorem exists_finish {G : Graph D E} {arrays : ℕ → List VertexID × ℕ} {messages : List VertexID}
    (hG : Placed (g := g) G arrays) (hvalid : ∀ v < g.nv, (G.vs v).valid = true)
    (hlen : ∀ v < g.nv, (part arrays v).length = (arrays v).2)
    (hadj : ∀ v < g.nv, ∀ w, w ∈ G.adj v ↔ g.Neighbour v w)
    (hmessages : messages.Perm (g.marks G)) :
    ∃ valid, g.finish G messages = withValid G valid ∧ ∀ v < g.nv,
      (valid v = true ↔ (g.solo_invalid = true → ∃ e ∈ g.edges, e.v0 = v ∨ e.v1 = v)) := by
  cases hsolo : g.solo_invalid with
  | false =>
    refine ⟨fun v => (G.vs v).valid, ?_, ?_⟩
    · simp [finish, hsolo, withValid]
    · intro v hv
      simp [hvalid v hv]
  | true =>
    have hperm : messages.Perm (targets (markSources G)) := by
      simpa [marks, hsolo] using hmessages
    have hfinish : g.finish G messages = messages.foldl mark
        (withValid G fun v => decide (0 < (G.vs v).nadj)) := by
      rw [finish, if_pos hsolo]
      rfl
    refine ⟨_, hfinish.trans (foldl_mark ..), ?_⟩
    intro v hv
    have hsource : 0 < (G.vs v).nadj ↔ ∃ w, g.Neighbour v w := by
      have hlength : (G.adj v).length = (G.vs v).nadj := by
        rw [hG.adj v hv, hlen v hv, (hG.vertex v hv).1]
      rw [← hlength, length_pos_iff_exists_mem]
      exact exists_congr (hadj v hv)
    have htarget : (∃ w ∈ messages, w.toNat = v) ↔ ∃ u < g.nv, g.Neighbour u v := by
      constructor
      · intro h
        obtain ⟨w, hw, hwv⟩ := h
        obtain ⟨u, hu, hmem⟩ := (mem_targets hG).mp (hperm.mem_iff.mp hw)
        have hneighbour := (hadj u hu w).mp hmem
        have hnonneg : 0 ≤ w := by
          obtain ⟨e, he, ⟨-, rfl⟩ | ⟨-, -, rfl⟩⟩ := hneighbour
          · exact (ids_nonneg' he).2
          · exact (ids_nonneg' he).1
        refine ⟨u, hu, ?_⟩
        rwa [← hwv, Int.toNat_of_nonneg hnonneg]
      · intro h
        obtain ⟨u, hu, hneighbour⟩ := h
        have hmem := (mem_targets hG).mpr ⟨u, hu, (hadj u hu v).mpr hneighbour⟩
        exact ⟨v, hperm.mem_iff.mpr hmem, Int.toNat_natCast v⟩
    rw [endpoint_iff, ← hsource, ← htarget]
    simp

/-! ### All passes -/

/-- **A graph is constructed** if every vertex is guarded. -/
theorem build_eq_some (hcounts : counts.Perm g.messages) (hscatters : scatters.Perm g.messages)
    (hguard : ∀ v < g.nv, g.Guarded v) :
    ∃ G nadj, g.build counts scatters = some (G, nadj) ∧
      ∀ messages, messages.Perm (g.marks G) → g.Constructed (g.finish G messages) nadj := by
  have hpart := fun v hv => part_arrays (v := v) hcounts hscatters (hguard v hv)
  have hlen := fun v hv => (hpart v hv).2.1
  have hbuild : g.build counts scatters =
      some (g.compacted (g.arrays counts scatters), g.nadj (g.arrays counts scatters)) := by
    rw [build, if_pos]
    exact ⟨g.nv_spec.1, fun v hv => (hpart v hv).1, fun c _ => offset_eq hlen c⟩
  refine ⟨_, _, hbuild, ?_⟩
  intro messages hmessages
  obtain ⟨hplaced, hvalid⟩ := placed_compacted hlen
  have hadj : ∀ v < g.nv, ∀ w,
      w ∈ (g.compacted (g.arrays counts scatters)).adj v ↔ g.Neighbour v w := by
    intro v hv
    rw [hplaced.adj v hv]
    exact (hpart v hv).2.2.2
  obtain ⟨valid, hfinish, hflags⟩ := exists_finish hplaced hvalid hlen hadj hmessages
  rw [hfinish]
  have hG := hplaced.withValid valid
  have hmap : ∀ c, ((g.local_vertices c).map fun v =>
      (((withValid (g.compacted (g.arrays counts scatters)) valid).vs v).local_edge_state,
        ((withValid (g.compacted (g.arrays counts scatters)) valid).vs v).nadj)) =
      (g.local_vertices c).map fun v =>
        (((withValid (g.compacted (g.arrays counts scatters)) valid).vs v).local_adj,
          ((withValid (g.compacted (g.arrays counts scatters)) valid).vs v).nadj) := by
    intro c
    apply map_congr_left
    intro v hv
    rw [(hG.vertex v (mem_local_vertices.mp hv).1).2]
  constructor
  case bounds => exact g.nv_spec.1
  case attained => exact g.nv_spec.2
  case placed =>
    intro v _
    exact g.core_lt v
  case increasing =>
    intro v hv
    rw [hG.adj v hv]
    exact (hpart v hv).2.2.1
  case mem_adj => exact hadj
  case slices =>
    intro c
    rw [hG.buffer]
    exact hG.slices c
  case edge_slices =>
    intro c
    rw [hG.storage]
    have hslices := hG.slices c
    rw [← hmap c] at hslices
    exact hslices
  case disjoint =>
    intro c
    have hslices := (hG.slices c).pairwise_le
    rw [pairwise_map] at hslices
    apply hslices.imp_of_mem
    intro u v hu hv hle
    have hstate : ∀ x ∈ g.local_vertices c, _ := fun x hx =>
      (hG.vertex x (mem_local_vertices.mp hx).1).2
    refine ⟨hle, ?_⟩
    rw [hstate u hu, hstate v hv]
    exact hle
  case total =>
    have hbuffer : ∀ c, ((withValid (g.compacted (g.arrays counts scatters)) valid).adj_buf c).length =
        g.nadj_local (g.arrays counts scatters) c := hG.buffer
    simp only [hbuffer]
    rfl
  case valid => exact hflags

section app

variable {G : Graph D E} {nadj : ℕ}

theorem target?_spec {e : VertexID × E} {e' : Fin G.nv × E} (h : e' ∈ G.target? e) :
    e.1 = (e'.1 : ℕ) := by
  obtain ⟨⟨hw, hlt⟩, heq⟩ := Option.dite_none_right_eq_some.mp h
  cases heq
  exact (Int.toNat_of_nonneg hw).symm

theorem Constructed.length_edgeStates (h : g.Constructed G nadj) {v : ℕ} (hv : v < G.nv) :
    (G.edgeStates v).length = (G.adj v).length := by
  have hmem : v ∈ (range G.nv).filter fun u => G.core u = G.core v := by simp [hv]
  have hadj := (h.slices (G.core v)).le_end (mem_map_of_mem hmem)
  have hedge := (h.edge_slices (G.core v)).le_end (mem_map_of_mem hmem)
  simp only [Graph.edgeStates, Graph.adj, length_take, length_drop]
  omega

theorem Constructed.valid_of_adj (h : g.Constructed G nadj) (u : Fin G.nv) :
    ∀ e ∈ (G.adj u).zip (G.edgeStates u), ∀ e' ∈ G.target? e,
      (G.vs u).valid = true ∧ (G.vs e'.1).valid = true := by
  rintro ⟨w, x⟩ he e' he'
  obtain ⟨e, hmem, hends⟩ := (h.mem_adj u u.isLt w).mp (of_mem_zip he).1
  have hw : w = (e'.1 : ℕ) := target?_spec he'
  refine ⟨(h.valid u u.isLt).mpr fun _ => ⟨e, hmem, ?_⟩,
    (h.valid _ e'.1.isLt).mpr fun _ => ⟨e, hmem, ?_⟩⟩
  · exact hends.imp And.left fun hback => hback.2.1
  · rw [← hw]
    exact (hends.imp And.right fun hback => hback.2.2).symm

/-- The applications find the edges that were given. -/
theorem Constructed.app_adj (h : g.Constructed G nadj) (hnv : G.nv < 2 ^ 63) (u v : Fin G.nv) :
    (G.app hnv h.valid_of_adj).Adj u v ↔ g.Neighbour u v := by
  rw [← h.mem_adj u u.isLt v]
  constructor
  · rintro ⟨x, hx⟩
    obtain ⟨⟨w, y⟩, he, htarget⟩ := mem_filterMap.mp hx
    have hw : w = (v : ℕ) := target?_spec htarget
    exact hw ▸ (of_mem_zip he).1
  · intro hv
    rw [← map_fst_zip (h.length_edgeStates u.isLt).ge] at hv
    obtain ⟨e, he, hw⟩ := mem_map.mp hv
    exact ⟨e.2, mem_filterMap.mpr ⟨e, he, by simp [Graph.target?, hw]; rfl⟩⟩

theorem Constructed.app_undirected (h : g.Constructed G nadj) (hnv : G.nv < 2 ^ 63)
    (hd : g.directed = false) : (G.app hnv h.valid_of_adj).Undirected := by
  intro u v huv
  obtain ⟨e, he, hends⟩ := (h.app_adj hnv u v).mp huv
  refine (h.app_adj hnv v u).mpr ⟨e, he, ?_⟩
  rcases hends with hends | hends
  · exact .inr ⟨hd, hends.symm⟩
  · exact .inl hends.2.symm

end app

/-- One edge, from vertex `1` to vertex `0`, on one core.  Every word that is mapped behind the
    array of vertex `1` is zero. -/
def before_zeros : GraphInput ⟨1, Nat.one_pos, 0⟩ Unit Unit where
  local_edges := fun _ => [⟨1, 0⟩]
  exists_edge := ⟨0, ⟨1, 0⟩, List.mem_singleton_self _⟩
  ids_nonneg := by
    intro c e he
    obtain rfl := List.mem_singleton.mp he
    decide
  directed := true
  solo_invalid := false
  vs := ⟨0⟩
  is_linear := GlobalAddress.is_linear_zero
  vertex_size := 64
  data := fun _ => .inline ()
  edge := ()
  fresh := fun _ _ => 5
  after := fun _ => [0, 0, 0]

/-- On two cores an edge that comes twice, and a loop; another word is among those behind the
    arrays. -/
def before_five : GraphInput ⟨2, Nat.two_pos, 0⟩ Unit Unit where
  local_edges := fun c => if c.val = 0 then [⟨1, 0⟩, ⟨1, 1⟩] else [⟨1, 0⟩, ⟨2, 0⟩]
  exists_edge := ⟨⟨0, Nat.two_pos⟩, ⟨1, 0⟩, List.mem_cons_self⟩
  ids_nonneg := by decide
  directed := false
  solo_invalid := true
  vs := ⟨0⟩
  is_linear := GlobalAddress.is_linear_zero
  vertex_size := 64
  data := fun _ => .inline ()
  edge := ()
  fresh := fun _ _ => 5
  after := fun _ => [0, 5]

end GraphInput

end Grappa
