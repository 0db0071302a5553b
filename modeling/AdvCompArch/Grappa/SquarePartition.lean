import AdvCompArch.Grappa.Hypercube
import AdvCompArch.Grappa.SquareQuery
import AdvCompArch.Lib.Exchange
import AdvCompArch.Lib.Groups

/-! # The partitioned plans

    `SquarePartition4way` and `SquarePartitionBushy4way` send every edge to four slices of a cube
    of cores, one for each atom of the query that the edge can be, and then every core joins what
    it has got.  The first plan walks the local edges, the second builds the set of pairs
    `(a, c)` and probes it.

    A square has a core, its `home`, whose coordinates are the hashes of its vertices.  It is the
    only core that gets all four edges in their atoms (`received_iff`). -/

namespace Grappa

open FourCycles Odometer List Distribute

/-! ### Local graphs -/

/-- The iteration orders of the standard library's unordered containers. -/
structure Unordered where
  /-- The elements of an `unordered_set` that these have been inserted into. -/
  set : List (ℕ × ℕ) → List (ℕ × ℕ)
  set_perm : ∀ l, (set l).Perm l.dedup
  map : Groups ℕ ℕ → List ((_ : ℕ) × List ℕ)
  map_perm : ∀ g, (map g).Perm g.entries

/-- The containers in the order of their contents. -/
def inOrder : Unordered :=
  ⟨List.dedup, fun l => List.Perm.refl l.dedup, AList.entries, fun g => List.Perm.refl g.entries⟩

namespace LocalAdjListGraph

def construct (edges : List (ℕ × ℕ)) : Groups ℕ ℕ :=
  edges.foldl (fun adjs e => adjs.push e.1 e.2) ∅

/-- The adjacencies of a vertex; a vertex that is looked up gets an entry, without adjacencies. -/
def neighbors (adjs : Groups ℕ ℕ) (root : ℕ) : List ℕ := adjs.slot root

/-- The loop over the vertices and, for each of them, over its adjacencies. -/
def scan (u : Unordered) (adjs : Groups ℕ ℕ) : List (ℕ × ℕ) :=
  (u.map adjs).flatMap fun xy => xy.2.map fun y => (xy.1, y)

theorem slot_foldl (edges : List (ℕ × ℕ)) (g : Groups ℕ ℕ) (v : ℕ) :
    (edges.foldl (fun adjs e => adjs.push e.1 e.2) g).slot v =
      g.slot v ++ (edges.filter fun e => e.1 = v).map Prod.snd := by
  induction edges generalizing g with
  | nil => simp
  | cons e edges ih =>
    rw [foldl_cons, ih, Groups.slot_push]
    by_cases he : v = e.1
    · subst he
      simp
    · simp [he, Ne.symm he]

theorem neighbors_construct (edges : List (ℕ × ℕ)) (v : ℕ) :
    neighbors (construct edges) v = (edges.filter fun e => e.1 = v).map Prod.snd := by
  rw [neighbors, construct, slot_foldl, Groups.slot_empty, nil_append]

theorem mem_neighbors {edges : List (ℕ × ℕ)} {v w : ℕ} :
    w ∈ neighbors (construct edges) v ↔ (v, w) ∈ edges := by
  rw [neighbors_construct]
  simp

theorem nodup_neighbors {edges : List (ℕ × ℕ)} (h : edges.Nodup) (v : ℕ) :
    (neighbors (construct edges) v).Nodup := by
  rw [neighbors_construct]
  refine List.Nodup.map_on ?_ (h.filter _)
  intro e he d hd heq
  have h1 : e.1 = v := by simpa using (mem_filter.mp he).2
  have h2 : d.1 = v := by simpa using (mem_filter.mp hd).2
  exact Prod.ext (h1.trans h2.symm) heq

end LocalAdjListGraph

namespace LocalMapGraph

/-- The adjacencies of a vertex are a set. -/
def construct (edges : List (ℕ × ℕ)) : Groups ℕ ℕ :=
  edges.foldl (fun adjs e => adjs.insert e.1 ((adjs.slot e.1).insert e.2)) ∅

def inNeighborhood (adjs : Groups ℕ ℕ) (root queried : ℕ) : Bool := queried ∈ adjs.slot root

theorem inNeighborhood_construct {edges : List (ℕ × ℕ)} {v w : ℕ} :
    inNeighborhood (construct edges) v w = true ↔ (v, w) ∈ edges := by
  have hfoldl : ∀ (edges : List (ℕ × ℕ)) (g : Groups ℕ ℕ), w ∈ (edges.foldl (fun adjs e =>
      adjs.insert e.1 ((adjs.slot e.1).insert e.2)) g).slot v ↔ w ∈ g.slot v ∨ (v, w) ∈ edges := by
    intro edges
    induction edges with
    | nil => simp
    | cons e edges ih =>
      intro g
      rw [foldl_cons, ih, Groups.slot_insert, mem_cons]
      by_cases he : v = e.1
      · subst he
        rw [if_pos rfl, mem_insert_iff, Prod.ext_iff]
        tauto
      · have hne : (v, w) ≠ e := fun h => he (congrArg Prod.fst h)
        rw [if_neg he]
        tauto
  rw [inNeighborhood, decide_eq_true_eq, construct, hfoldl]
  simp

end LocalMapGraph

/-! ### The slices of an edge -/

/-- The atoms of the query. -/
inductive Atom
  | ab
  | bc
  | cd
  | da
  deriving DecidableEq

/-- Which dimensions of the cube an edge fixes in an atom. -/
def replicandIds (hf : ℕ → ℕ) : Atom → ℕ × ℕ → List (Option ℕ)
  | .ab, (src, dst) => [some (hf src), some (hf dst), none, none]
  | .bc, (src, dst) => [none, some (hf src), some (hf dst), none]
  | .cd, (src, dst) => [none, none, some (hf src), some (hf dst)]
  | .da, (src, dst) => [some (hf dst), none, none, some (hf src)]

/-- The cores that an edge is sent to in an atom. -/
def locs (sidelength : ℕ) (a : Atom) (e : ℕ × ℕ) : List ℕ :=
  (Hypercube.slice [sidelength, sidelength, sidelength, sidelength]
    (replicandIds (Hypercube.makeHash sidelength) a e)).getD []

/-! ### The plans -/

structure SquarePartition where
  cores : ℕ
  index : EdgeIndex
  unordered : Unordered

namespace SquarePartition

variable (p : SquarePartition)

def sidelength : ℕ := (Hypercube.fourth_root p.cores).getD 0

/-- What the body of the forall sends.  The delegates run on their cores in any order. -/
def replicate (i : ℕ) : List ((Atom × ℕ) × (ℕ × ℕ)) :=
  (p.index.adj i).flatMap fun dest => [Atom.ab, .bc, .cd, .da].flatMap fun a =>
    (locs p.sidelength a (i, dest)).map fun l => ((a, l), (i, dest))

/-- The body of both plans, with what they compute locally. -/
def plan {β : Type} (compute : Unordered → (Atom → List (ℕ × ℕ)) → List β) :
    Exchange.Plan ℕ (Atom × ℕ) (ℕ × ℕ) β where
  parties := p.cores
  roots := List.range p.index.nv
  step := fun i => ([], p.replicate i)
  count := fun c localAssignedEdges => compute p.unordered fun a => localAssignedEdges (a, c)

end SquarePartition

namespace SquarePartition4way

/-- The squares that a core counts. -/
def squares (u : Unordered) (localAssignedEdges : Atom → List (ℕ × ℕ)) : List Square :=
  let R1 := LocalAdjListGraph.construct (u.set (localAssignedEdges .ab))
  let R2 := LocalAdjListGraph.construct (u.set (localAssignedEdges .bc))
  let R3 := LocalAdjListGraph.construct (u.set (localAssignedEdges .cd))
  let R4 := LocalMapGraph.construct (u.set (localAssignedEdges .da))
  (LocalAdjListGraph.scan u R1).flatMap fun xy =>
    (LocalAdjListGraph.neighbors R2 xy.2).flatMap fun z =>
      (LocalAdjListGraph.neighbors R3 z).flatMap fun t =>
        if LocalMapGraph.inNeighborhood R4 t xy.1 then [(xy.1, xy.2, z, t)] else []

/-- `SquarePartition4way::execute`. -/
def execute (p : SquarePartition) := (p.plan squares).program.system Exchange.init

end SquarePartition4way

namespace SquarePartitionBushy4way

/-- The paths that a core counts, without the vertex `y` that it does not know any more. -/
def squares (u : Unordered) (localAssignedEdges : Atom → List (ℕ × ℕ)) : List (ℕ × ℕ × ℕ) :=
  let R1 := LocalAdjListGraph.construct (u.set (localAssignedEdges .ab))
  let R2 := LocalAdjListGraph.construct (u.set (localAssignedEdges .bc))
  let R3 := LocalAdjListGraph.construct (u.set (localAssignedEdges .cd))
  let R4 := LocalAdjListGraph.construct (u.set (localAssignedEdges .da))
  -- the pairs that are inserted into `ac_b`
  let ac_b := (LocalAdjListGraph.scan u R1).flatMap fun xy =>
    (LocalAdjListGraph.neighbors R2 xy.2).map fun z => (xy.1, z)
  (LocalAdjListGraph.scan u R3).flatMap fun zt =>
    (LocalAdjListGraph.neighbors R4 zt.2).flatMap fun x =>
      if ac_b.contains (x, zt.1) then [(zt.1, zt.2, x)] else []

/-- `SquarePartitionBushy4way::execute`. -/
def execute (p : SquarePartition) := (p.plan squares).program.system Exchange.init

end SquarePartitionBushy4way

/-! ### What a core computes -/

section compute

variable {u : Unordered} {L : Atom → List (ℕ × ℕ)} {x y z t : ℕ}

theorem Unordered.mem_set {l : List (ℕ × ℕ)} {e : ℕ × ℕ} : e ∈ u.set l ↔ e ∈ l := by
  rw [(u.set_perm l).mem_iff, mem_dedup]

theorem Unordered.nodup_set (l : List (ℕ × ℕ)) : (u.set l).Nodup :=
  (u.set_perm l).nodup_iff.mpr (nodup_dedup l)

theorem mem_scan {l : List (ℕ × ℕ)} :
    (x, y) ∈ LocalAdjListGraph.scan u (LocalAdjListGraph.construct (u.set l)) ↔ (x, y) ∈ l := by
  simp only [LocalAdjListGraph.scan, mem_flatMap, mem_map, (u.map_perm _).mem_iff,
    Prod.mk.injEq]
  constructor
  · intro h
    obtain ⟨xy, hxy, y, hy, rfl, rfl⟩ := h
    rw [← Groups.slot_of_mem hxy] at hy
    exact u.mem_set.mp (LocalAdjListGraph.mem_neighbors.mp hy)
  · intro h
    have hy := LocalAdjListGraph.mem_neighbors.mpr (u.mem_set.mpr h)
    have hkey : x ∈ LocalAdjListGraph.construct (u.set l) := by
      by_contra hnot
      rw [LocalAdjListGraph.neighbors, Groups.slot_eq_nil hnot] at hy
      cases hy
    obtain ⟨e, he, rfl⟩ := mem_map.mp (AList.mem_keys.mp hkey)
    rw [LocalAdjListGraph.neighbors, Groups.slot_of_mem he] at hy
    exact ⟨e, he, y, hy, rfl, rfl⟩

theorem nodup_scan (u : Unordered) (l : List (ℕ × ℕ)) :
    (LocalAdjListGraph.scan u (LocalAdjListGraph.construct (u.set l))).Nodup := by
  have hkeys : (u.map (LocalAdjListGraph.construct (u.set l))).Pairwise fun e d => e.1 ≠ d.1 := by
    have hnodup := (LocalAdjListGraph.construct (u.set l)).keys_nodup
    rw [AList.keys, keys, List.Nodup, pairwise_map] at hnodup
    exact ((u.map_perm _).pairwise_iff fun h => h.symm).mpr hnodup
  rw [LocalAdjListGraph.scan, nodup_flatMap]
  constructor
  · intro xy hxy
    have hslot := Groups.slot_of_mem ((u.map_perm _).mem_iff.mp hxy)
    rw [← hslot]
    exact (LocalAdjListGraph.nodup_neighbors (u.nodup_set l) xy.1).map
      fun y y' h => congrArg Prod.snd h
  · apply hkeys.imp
    intro e d hne r hr hr'
    obtain ⟨y, -, rfl⟩ := mem_map.mp hr
    obtain ⟨y', -, heq⟩ := mem_map.mp hr'
    exact hne (congrArg Prod.fst heq).symm

/-- **The squares of a core** are those of its edges. -/
theorem mem_squares : (x, y, z, t) ∈ SquarePartition4way.squares u L ↔
    (x, y) ∈ L .ab ∧ (y, z) ∈ L .bc ∧ (z, t) ∈ L .cd ∧ (t, x) ∈ L .da := by
  simp only [SquarePartition4way.squares, mem_flatMap, Prod.exists, mem_scan,
    LocalAdjListGraph.mem_neighbors, u.mem_set, mem_ite_nil_right,
    LocalMapGraph.inNeighborhood_construct, mem_singleton]
  constructor
  · intro h
    obtain ⟨x', y', hxy, z', hyz, t', hzt, htx, heq⟩ := h
    obtain ⟨rfl, rfl, rfl, rfl⟩ : x = x' ∧ y = y' ∧ z = z' ∧ t = t' := by simpa using heq
    exact ⟨hxy, hyz, hzt, htx⟩
  · intro h
    exact ⟨x, y, h.1, z, h.2.1, t, h.2.2.1, h.2.2.2, rfl⟩

theorem nodup_squares : (SquarePartition4way.squares u L).Nodup := by
  apply nodup_flatMap_of_tag (fun r => (r.1, r.2.1)) (nodup_scan u _)
  · intro xy _
    apply nodup_flatMap_of_tag (fun r => r.2.2.1)
      (LocalAdjListGraph.nodup_neighbors (u.nodup_set _) xy.2)
    · intro z _
      apply nodup_flatMap_of_tag (fun r => r.2.2.2)
        (LocalAdjListGraph.nodup_neighbors (u.nodup_set _) z)
      · intro t _
        split_ifs <;> simp
      · intro t r hr
        split_ifs at hr
        · rw [mem_singleton.mp hr]
        · cases hr
    · intro z r hr
      obtain ⟨t, -, ht⟩ := mem_flatMap.mp hr
      split_ifs at ht
      · rw [mem_singleton.mp ht]
      · cases ht
  · intro xy r hr
    obtain ⟨z, -, hz⟩ := mem_flatMap.mp hr
    obtain ⟨t, -, ht⟩ := mem_flatMap.mp hz
    split_ifs at ht
    · rw [mem_singleton.mp ht]
    · cases ht

theorem mem_bushy_squares : (z, t, x) ∈ SquarePartitionBushy4way.squares u L ↔
    (z, t) ∈ L .cd ∧ (t, x) ∈ L .da ∧ ∃ y, (x, y) ∈ L .ab ∧ (y, z) ∈ L .bc := by
  simp only [SquarePartitionBushy4way.squares, contains_iff_mem, mem_flatMap, Prod.exists,
    mem_scan, mem_map, LocalAdjListGraph.mem_neighbors, u.mem_set, mem_ite_nil_right,
    mem_singleton, Prod.mk.injEq]
  constructor
  · intro h
    obtain ⟨z', t', hzt, x', htx, ⟨x'', y, hxy, z'', hyz, rfl, rfl⟩, rfl, rfl, rfl⟩ := h
    exact ⟨hzt, htx, y, hxy, hyz⟩
  · intro h
    obtain ⟨hzt, htx, y, hxy, hyz⟩ := h
    exact ⟨z, t, hzt, x, htx, ⟨x, y, hxy, z, hyz, rfl, rfl⟩, rfl, rfl, rfl⟩

theorem nodup_bushy_squares : (SquarePartitionBushy4way.squares u L).Nodup := by
  apply nodup_flatMap_of_tag (fun r => (r.1, r.2.1)) (nodup_scan u _)
  · intro zt _
    apply nodup_flatMap_of_tag (fun r => r.2.2)
      (LocalAdjListGraph.nodup_neighbors (u.nodup_set _) zt.2)
    · intro x _
      split_ifs <;> simp
    · intro x r hr
      split_ifs at hr
      · rw [mem_singleton.mp hr]
      · cases hr
  · intro zt r hr
    obtain ⟨x, -, hx⟩ := mem_flatMap.mp hr
    split_ifs at hx
    · rw [mem_singleton.mp hx]
    · cases hx

end compute

end Grappa
