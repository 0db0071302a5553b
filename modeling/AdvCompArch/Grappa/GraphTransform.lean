import AdvCompArch.Grappa.Graph
import Mathlib.Algebra.Order.BigOperators.Group.List
import Mathlib.Algebra.Order.Ring.Nat

/-! # Changing the data of the vertices of a graph

    `transform` visits the whole vertex array, and makes each vertex anew in its place: it
    destroys the old one, copies it, constructs one of the new type from the copy, and
    gives it the new data.  The copy is destroyed at the end.

    A copy is always valid, and a copy of a vertex with data in the heap has the same
    reference as the vertex that was destroyed. -/

namespace Grappa

open List Function Option

open Assignment (assign)

/-- The two types of data, and the heap. -/
structure TransformConfig (V VV : Type) where
  sizeofV : ℕ
  sizeofVV : ℕ
  /-- The address of the next object that is allocated. -/
  locale_alloc : LocaleHeap (V ⊕ VV) → ℕ
  /-- An object is allocated where there is none. -/
  alloc_fresh : ∀ h : LocaleHeap (V ⊕ VV), locale_alloc h ∉ h.map Prod.fst
  /-- What a default-initialized object holds. -/
  fresh : VV
  /-- The new data of a vertex, from its old data. -/
  f : ℕ → V → VV

variable {V VV E : Type}

/-- The vertex array while it is changed: what is old, what is new, and the heap. -/
structure TransformRun (V VV : Type) where
  old : ℕ → Vertex V
  new : ℕ → Option (Vertex VV)
  heap : LocaleHeap (V ⊕ VV)

namespace TransformRun

variable (cfg : TransformConfig V VV)

/-- The converting constructor: data in the heap is allocated. -/
def construct (h : LocaleHeap (V ⊕ VV)) (b : Vertex V) : LocaleHeap (V ⊕ VV) × Vertex VV :=
  if heap_data cfg.sizeofVV then
    let a := cfg.locale_alloc h
    ((a, .inr cfg.fresh) :: h,
      { valid := true, local_adj := b.local_adj, nadj := b.nadj, local_sz := b.local_sz,
        data := .ref a, local_edge_state := 0 })
  else
    (h,
      { valid := true, local_adj := b.local_adj, nadj := b.nadj, local_sz := b.local_sz,
        data := .inline cfg.fresh, local_edge_state := 0 })

/-- `vv->data = d`. -/
def setData (h : LocaleHeap (V ⊕ VV)) (v : Vertex VV) (d : VV) :
    LocaleHeap (V ⊕ VV) × Vertex VV :=
  match v.data with
  | .inline _ => (h, { v with data := .inline d })
  | .ref a => (assign h a (.inr d), v)

/-- The body of the loop over the vertex array. -/
def body (s : TransformRun V VV) (i : ℕ) : Option (TransformRun V VV) := do
  let v := s.old i
  let d ← (v.read Sum.getLeft? s.heap).map (cfg.f i)
  let heap ← v.destroy s.heap
  let b := v.copy
  let (heap, vv) := construct cfg heap b
  let (heap, vv) := setData heap vv d
  let vv := { vv with local_edge_state := b.local_edge_state }
  let heap ← b.destroy heap
  some { s with new := Function.update s.new i (some vv), heap := heap }

/-- The loop, in the order in which it comes to the vertices. -/
def loop (s : TransformRun V VV) : List ℕ → Option (TransformRun V VV)
  | [] => some s
  | i :: order => (body cfg s i).bind fun s' => s'.loop order

end TransformRun

/-- A graph with its heap. -/
structure GraphInHeap (D E C : Type) where
  graph : Graph D E
  heap : LocaleHeap C

/-- `transform`, for an order in which the vertices are visited. -/
def transform (cfg : TransformConfig V VV) (g : GraphInHeap V E (V ⊕ VV)) (order : List ℕ) :
    Option (GraphInHeap VV E (V ⊕ VV)) :=
  ((⟨g.graph.vs, fun _ => none, g.heap⟩ : TransformRun V VV).loop cfg order).map fun s =>
    { graph :=
        { nv := g.graph.nv
          vs := fun i => (s.new i).getD ⟨true, 0, 0, 0, .inline cfg.fresh, 0⟩
          core := g.graph.core
          adj_buf := g.graph.adj_buf
          edge_storage := g.graph.edge_storage }
      heap := s.heap }

/-- The data of the vertices are where data of this size are. -/
def GraphInHeap.Placed {D C : Type} (size : ℕ) (g : GraphInHeap D E C) : Prop :=
  ∀ i, match (g.graph.vs i).data with
    | .inline _ => heap_data size = false
    | .ref _ => heap_data size = true

/-- The new graph has the vertices, edges and flags of the old one, and the new data. -/
structure Preserved (cfg : TransformConfig V VV) (g : GraphInHeap V E (V ⊕ VV))
    (g' : GraphInHeap VV E (V ⊕ VV)) : Prop where
  nv : g'.graph.nv = g.graph.nv
  adj : ∀ i < g.graph.nv, g'.graph.adj i = g.graph.adj i
  edgeStates : ∀ i < g.graph.nv, g'.graph.edgeStates i = g.graph.edgeStates i
  valid : ∀ i < g.graph.nv, (g'.graph.vs i).valid = (g.graph.vs i).valid
  data : ∀ i < g.graph.nv, ∃ d, (g.graph.vs i).read Sum.getLeft? g.heap = some d ∧
    (g'.graph.vs i).read Sum.getRight? g'.heap = some (cfg.f i d)
  visited : g'.graph.visited = g.graph.visited
  visitedEdges : g'.graph.visitedEdges = g.graph.visitedEdges

/-! ### Data in the vertices -/

namespace TransformRun

variable {cfg : TransformConfig V VV} {s s' : TransformRun V VV}

/-- The vertex that `transform` makes of `v`, where its data is `d` in this heap. -/
def MadeFrom (h : LocaleHeap (V ⊕ VV)) (v : Vertex V) (d : VV) (vv : Vertex VV) : Prop :=
  vv.valid = true ∧ vv.local_adj = v.local_adj ∧ vv.nadj = v.nadj ∧
    vv.local_edge_state = v.local_edge_state ∧ vv.read Sum.getRight? h = some d

/-- New vertices do not lose their data to objects that are allocated later. -/
theorem MadeFrom.alloc {h : LocaleHeap (V ⊕ VV)} {v : Vertex V} {d d' : VV} {vv : Vertex VV} {a : ℕ}
    (hm : MadeFrom h v d vv) (ha : a ∉ h.map Prod.fst) :
    MadeFrom (assign ((a, .inr cfg.fresh) :: h) a (.inr d')) v d vv := by
  obtain ⟨hvalid, hadj, hnadj, hstate, hread⟩ := hm
  refine ⟨hvalid, hadj, hnadj, hstate, ?_⟩
  cases hdata : vv.data with
  | inline e => rwa [Vertex.read_inline hdata] at hread ⊢
  | ref b =>
    rw [Vertex.read_ref hdata] at hread ⊢
    -- its address is in the heap, so it is another one
    have hne : b ≠ a := by
      rintro rfl
      rw [LocaleHeap.lookup_eq_none h ha] at hread
      cases hread
    have hlookup : (assign ((a, Sum.inr cfg.fresh) :: h) a (.inr d')).lookup b = h.lookup b := by
      have hbeq : (b == a) = false := beq_eq_false_iff_ne.mpr hne
      rw [Assignment.lookup_assign_of_ne _ hne, lookup_cons, hbeq]
    rwa [hlookup]

variable (cfg) in
theorem body_inline {i : ℕ} {d : V} (hdata : (s.old i).data = .inline d) :
    ∃ h vv, s.body cfg i = some { s with new := update s.new i (some vv), heap := h } ∧
      MadeFrom h (s.old i) (cfg.f i d) vv ∧
      ∀ v e w, MadeFrom s.heap v e w → MadeFrom h v e w := by
  have hread : (s.old i).read Sum.getLeft? s.heap = some d := Vertex.read_inline hdata _ _
  have hdestroy := Vertex.destroy_inline (C := V ⊕ VV) hdata
  have hcopy := Vertex.destroy_inline (C := V ⊕ VV) (v := (s.old i).copy) hdata
  by_cases hheap : heap_data cfg.sizeofVV = true
  · refine ⟨_, _, by
      simp only [body, hread, hdestroy, hcopy, construct, hheap, if_true, setData, map_some,
        bind_eq_bind, bind_some]
      rfl, ?_, ?_⟩
    · refine ⟨rfl, rfl, rfl, rfl, ?_⟩
      simp [Vertex.read]
    · intro v e w hm
      exact hm.alloc (cfg.alloc_fresh s.heap)
  · refine ⟨_, _, by
      simp only [body, hread, hdestroy, hcopy, construct, hheap, if_false, setData, map_some,
        bind_eq_bind, bind_some, Bool.false_eq_true]
      rfl, ?_, ?_⟩
    · exact ⟨rfl, rfl, rfl, rfl, rfl⟩
    · exact fun _ _ _ hm => hm

variable (cfg) in
theorem loop_inline (data : ℕ → V) (hdata : ∀ i, (s.old i).data = .inline (data i))
    (order : List ℕ) :
    ∃ s', s.loop cfg order = some s' ∧ s'.old = s.old ∧
      (∀ i ∈ order, ∃ vv, s'.new i = some vv ∧ MadeFrom s'.heap (s.old i) (cfg.f i (data i)) vv) ∧
      (∀ i, i ∉ order → s'.new i = s.new i) ∧
      ∀ v e w, MadeFrom s.heap v e w → MadeFrom s'.heap v e w := by
  induction order generalizing s with
  | nil => exact ⟨s, rfl, rfl, by simp, fun _ _ => rfl, fun _ _ _ h => h⟩
  | cons i order ih =>
    obtain ⟨h, vv, hbody, hmade, hkeep⟩ := body_inline cfg (hdata i)
    obtain ⟨s', hloop, hold, hnew, hother, hrest⟩ :=
      ih (s := { s with new := update s.new i (some vv), heap := h }) hdata
    refine ⟨s', by rw [loop, hbody]; exact hloop, hold, ?_, ?_, ?_⟩
    · intro j hj
      by_cases hjo : j ∈ order
      · exact hnew j hjo
      · -- visited now, and not again
        obtain rfl : j = i := (mem_cons.mp hj).resolve_right hjo
        refine ⟨vv, ?_, hrest _ _ _ hmade⟩
        rw [hother j hjo]
        exact update_self ..
    · intro j hj
      rw [mem_cons, not_or] at hj
      rw [hother j hj.2]
      exact update_of_ne hj.1 ..
    · exact fun v e w hm => hrest v e w (hkeep v e w hm)

/-! ### Data in the heap -/

/-- **One vertex**, where the old data are in the heap: the copy frees what the vertex has freed,
    and that succeeds only if it is by then the data of the new vertex. -/
theorem body_ref {i a : ℕ} (hdata : (s.old i).data = .ref a) (hbody : s.body cfg i = some s') :
    s'.old = s.old ∧ (∀ b ∈ s'.heap.map Prod.fst, b ∈ s.heap.map Prod.fst) ∧
      (∀ j, j ≠ i → s'.new j = s.new j) ∧
      ∃ vv, s'.new i = some vv ∧ vv.data = .ref a ∧ a ∉ s'.heap.map Prod.fst := by
  simp only [body, bind_eq_bind, bind_eq_some_iff, some.injEq] at hbody
  obtain ⟨d, -, h₁, hfree, h₂, hfree₂, rfl⟩ := hbody
  have hcopy : (s.old i).copy.data = .ref a := hdata
  rw [Vertex.destroy_ref hdata] at hfree
  rw [Vertex.destroy_ref hcopy] at hfree₂
  have hgone : a ∉ h₁.map Prod.fst := fun h => (LocaleHeap.mem_of_free _ hfree h).2 rfl
  by_cases hheap : heap_data cfg.sizeofVV = true
  · simp only [construct, hheap, if_true, setData] at hfree₂ ⊢
    have hkeys : (assign ((cfg.locale_alloc h₁, Sum.inr cfg.fresh) :: h₁) (cfg.locale_alloc h₁)
        (Sum.inr d)).map Prod.fst = cfg.locale_alloc h₁ :: h₁.map Prod.fst := by
      simp [assign]
    -- the second free succeeds, so the new data are at the old address
    have hsame : cfg.locale_alloc h₁ = a := by
      by_contra hne
      unfold LocaleHeap.free at hfree₂
      rw [hkeys, if_neg] at hfree₂
      · cases hfree₂
      · rw [mem_cons, not_or]
        exact ⟨Ne.symm hne, hgone⟩
    refine ⟨trivial, ?_, ?_, _, update_self .., by rw [hsame], ?_⟩
    · intro b hb
      obtain ⟨hb, hne⟩ := LocaleHeap.mem_of_free _ hfree₂ hb
      rw [hkeys, mem_cons, hsame] at hb
      exact (LocaleHeap.mem_of_free _ hfree (hb.resolve_left hne)).1
    · exact fun j hj => update_of_ne hj ..
    · exact fun hb => (LocaleHeap.mem_of_free _ hfree₂ hb).2 rfl
  · -- nothing is allocated, so the second free fails
    simp only [construct, hheap, setData, Bool.false_eq_true, if_false] at hfree₂
    unfold LocaleHeap.free at hfree₂
    rw [if_neg hgone] at hfree₂
    cases hfree₂

theorem loop_ref (hdata : ∀ i, ∃ a, (s.old i).data = .ref a) {order : List ℕ}
    (hloop : s.loop cfg order = some s') :
    (∀ b ∈ s'.heap.map Prod.fst, b ∈ s.heap.map Prod.fst) ∧
      (∀ i, i ∉ order → s'.new i = s.new i) ∧
      ∀ i ∈ order, ∃ vv a, s'.new i = some vv ∧ vv.data = .ref a ∧ a ∉ s'.heap.map Prod.fst := by
  induction order generalizing s with
  | nil =>
    obtain rfl : s = s' := by simpa [loop] using hloop
    simp
  | cons i order ih =>
    obtain ⟨t, hbody, hrest⟩ := bind_eq_some_iff.mp hloop
    obtain ⟨a, ha⟩ := hdata i
    obtain ⟨hold, hkeys, hother, vv, hvv, href, hgone⟩ := body_ref ha hbody
    obtain ⟨hkeys', hother', hnew⟩ := ih (s := t) (by rw [hold]; exact hdata) hrest
    refine ⟨fun b hb => hkeys b (hkeys' b hb), ?_, ?_⟩
    · intro j hj
      rw [mem_cons, not_or] at hj
      rw [hother' j hj.2, hother j hj.1]
    · intro j hj
      by_cases hjo : j ∈ order
      · exact hnew j hjo
      · obtain rfl : j = i := (mem_cons.mp hj).resolve_right hjo
        exact ⟨vv, a, by rw [hother' j hjo, hvv], href, fun hb => hgone (hkeys' a hb)⟩

end TransformRun

/-! ### The law -/

section Law

variable {cfg : TransformConfig V VV} {g : GraphInHeap V E (V ⊕ VV)} {order : List ℕ}

theorem transform_inline (hplaced : g.Placed cfg.sizeofV) (hinline : heap_data cfg.sizeofV = false)
    (horder : order.Perm (List.range g.graph.nv)) :
    ∃ g', transform cfg g order = some g' ∧ g'.graph.nv = g.graph.nv ∧
      g'.graph.core = g.graph.core ∧ g'.graph.adj_buf = g.graph.adj_buf ∧
      g'.graph.edge_storage = g.graph.edge_storage ∧
      ∀ i < g.graph.nv, ∃ d, (g.graph.vs i).read Sum.getLeft? g.heap = some d ∧
        TransformRun.MadeFrom g'.heap (g.graph.vs i) (cfg.f i d) (g'.graph.vs i) := by
  have hdata : ∀ i, ∃ d, (g.graph.vs i).data = .inline d := by
    intro i
    have := hplaced i
    cases h : (g.graph.vs i).data with
    | inline d => exact ⟨d, rfl⟩
    | ref a =>
      rw [h] at this
      exact absurd (hinline.symm.trans this) (by decide)
  choose data hdata using hdata
  obtain ⟨s', hloop, -, hnew, -, -⟩ := TransformRun.loop_inline cfg
    (s := ⟨g.graph.vs, fun _ => none, g.heap⟩) data hdata order
  refine ⟨_, by rw [transform, hloop]; rfl, rfl, rfl, rfl, rfl, ?_⟩
  intro i hi
  obtain ⟨vv, hvv, hmade⟩ := hnew i (horder.mem_iff.mpr (mem_range.mpr hi))
  refine ⟨data i, Vertex.read_inline (hdata i) _ _, ?_⟩
  simp only [hvv, getD_some]
  exact hmade

/-- **`transform` preserves the graph** exactly when there is no vertex, or when the old data are in
    the vertices and all vertices are valid. -/
theorem transform_preserves_iff (hplaced : g.Placed cfg.sizeofV)
    (horder : order.Perm (List.range g.graph.nv)) :
    (∃ g', transform cfg g order = some g' ∧ Preserved cfg g g') ↔
      g.graph.nv = 0 ∨ heap_data cfg.sizeofV = false ∧ ∀ i < g.graph.nv, (g.graph.vs i).valid := by
  constructor
  · rintro ⟨g', htransform, hpreserved⟩
    rcases Nat.eq_zero_or_pos g.graph.nv with hnv | hpos
    · exact .inl hnv
    cases hheap : heap_data cfg.sizeofV with
    | true =>
      -- vertex 0 has no live data
      have hdata : ∀ i, ∃ a, (g.graph.vs i).data = .ref a := by
        intro i
        have := hplaced i
        cases h : (g.graph.vs i).data with
        | inline d =>
          rw [h] at this
          exact absurd (hheap.symm.trans this) (by decide)
        | ref a => exact ⟨a, rfl⟩
      obtain ⟨s', hloop, rfl⟩ := map_eq_some_iff.mp htransform
      obtain ⟨-, -, hnew⟩ := TransformRun.loop_ref hdata hloop
      obtain ⟨vv, a, hvv, href, hgone⟩ :=
        hnew 0 (horder.mem_iff.mpr (mem_range.mpr hpos))
      obtain ⟨d, -, hread⟩ := hpreserved.data 0 hpos
      simp only [hvv, getD_some] at hread
      rw [Vertex.read_ref href, LocaleHeap.lookup_eq_none _ hgone] at hread
      cases hread
    | false =>
      refine .inr ⟨rfl, fun i hi => ?_⟩
      obtain ⟨g'', htransform', -, -, -, -, hmade⟩ := transform_inline hplaced hheap horder
      obtain rfl : g'' = g' := some.inj (htransform'.symm.trans htransform)
      obtain ⟨d, -, hvalid, -⟩ := hmade i hi
      rw [← hpreserved.valid i hi, hvalid]
  · rintro (hnv | ⟨hinline, hvalid⟩)
    · -- there is nothing to visit
      have hnil : order = [] := by
        rw [hnv] at horder
        exact horder.eq_nil
      subst hnil
      refine ⟨_, rfl, ?_⟩
      constructor <;> simp [hnv, Graph.visited, Graph.visitedEdges]
    · obtain ⟨g', htransform, hnv, hcore, hadj_buf, hstorage, hmade⟩ :=
        transform_inline hplaced hinline horder
      have hadj : ∀ i < g.graph.nv, g'.graph.adj i = g.graph.adj i := by
        intro i hi
        obtain ⟨d, -, -, hadj, hnadj, -, -⟩ := hmade i hi
        rw [Graph.adj, Graph.adj, hcore, hadj_buf, hadj, hnadj]
      have hstates : ∀ i < g.graph.nv, g'.graph.edgeStates i = g.graph.edgeStates i := by
        intro i hi
        obtain ⟨d, -, -, -, hnadj, hstate, -⟩ := hmade i hi
        rw [Graph.edgeStates, Graph.edgeStates, hcore, hstorage, hstate, hnadj]
      have hflag : ∀ i < g.graph.nv, (g'.graph.vs i).valid = (g.graph.vs i).valid := by
        intro i hi
        obtain ⟨d, -, hvalid', -⟩ := hmade i hi
        rw [hvalid', hvalid i hi]
      have hvisited : g'.graph.visited = g.graph.visited := by
        rw [Graph.visited, Graph.visited, hnv]
        apply filter_congr
        intro i hi
        rw [hflag i (mem_range.mp hi)]
      refine ⟨g', htransform, ?_⟩
      exact
        { nv := hnv
          adj := hadj
          edgeStates := hstates
          valid := hflag
          data := fun i hi => by
            obtain ⟨d, hread, -, -, -, -, hnew⟩ := hmade i hi
            exact ⟨d, hread, hnew⟩
          visited := hvisited
          visitedEdges := by
            rw [Graph.visitedEdges, Graph.visitedEdges, hvisited]
            apply flatMap_congr
            intro i hi
            have hlt : i < g.graph.nv := mem_range.mp (mem_of_mem_filter hi)
            rw [hadj i hlt, hstates i hlt] }

end Law

/-- An address above all that are in use. -/
def nextAddress {C : Type} (h : LocaleHeap C) : ℕ := (h.map Prod.fst).sum + 1

theorem nextAddress_fresh {C : Type} (h : LocaleHeap C) : nextAddress h ∉ h.map Prod.fst := by
  intro hmem
  have := single_le_sum (fun x _ => Nat.zero_le x) _ hmem
  unfold nextAddress at this
  omega

/-- Numbers of 8 bytes, which are increased. -/
def increase : TransformConfig ℕ ℕ where
  sizeofV := 8
  sizeofVV := 8
  locale_alloc := nextAddress
  alloc_fresh := nextAddress_fresh
  fresh := 0
  f := fun _ d => d + 1

/-- An edge between the vertices 0 and 2, in both directions and with states, and a vertex without
    edges. -/
def edgeAndVertex (valid : Bool) : GraphInHeap ℕ ℕ (ℕ ⊕ ℕ) where
  graph :=
    { nv := 3
      vs := fun i => ⟨i != 1 || valid, i / 2, if i = 1 then 0 else 1, 0, .inline (5 + i), i / 2⟩
      core := fun _ => 0
      adj_buf := fun _ => [2, 0]
      edge_storage := fun _ => [7, 8] }
  heap := []

theorem transform_valid_vertices_preserves :
    ∃ g', transform increase (edgeAndVertex true) [2, 0, 1] = some g' ∧
      Preserved increase (edgeAndVertex true) g' :=
  (transform_preserves_iff (fun _ => rfl) (by decide)).mpr
    (.inr ⟨by decide, fun _ _ => Bool.or_true _⟩)

/-- A vertex that is not valid is valid afterwards. -/
theorem transform_invalid_vertex_visited :
    ¬∃ g', transform increase (edgeAndVertex false) [0, 1, 2] = some g' ∧
      Preserved increase (edgeAndVertex false) g' := by
  rintro ⟨g', htransform, hpreserved⟩
  have hnew : (transform increase (edgeAndVertex false) [0, 1, 2]).map
      (fun g => (g.graph.vs 1).valid) = some true := by decide
  rw [htransform, map_some, some.injEq, hpreserved.valid 1 (by decide)] at hnew
  cases hnew

end Grappa
