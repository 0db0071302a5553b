import AdvCompArch.Grappa.SquarePartition
import AdvCompArch.Lib.Triangles

/-! # Triangles on a cube of cores

    `triangles` of `triangles_partition.cpp` arranges the cores in a cube and sends every edge
    to the three lines of cores that its hashes fix: as an edge from x to y, from y to z and from
    z to x.  All of them go to one relation, so that a core has the edges of the three sides of
    its coordinates (`mem_lines`).  It then looks for triangles whose corners have more and more
    edges on the core (`mem_emitted`). -/

namespace Grappa

open Odometer Triangles List Distribute LocalAdjListGraph

/-! ### Lines of cores -/

/-- A line in a cube of cores, of which one coordinate is `ALL`. -/
structure Loc3d where
  dim : ℤ
  x : ℤ
  y : ℤ
  z : ℤ

namespace Loc3d

def ALL : ℤ := -1

structure Iter where
  pos : ℤ
  stride : ℤ
  fixed : ℤ
  deriving DecidableEq

def Iter.new (x y z dim : ℤ) (atEnd : Bool) : Iter :=
  let it : Iter :=
    if x = ALL then ⟨0, 1, y * dim + z * dim * dim⟩
    else if y = ALL then ⟨0, dim, x + z * dim * dim⟩
    else ⟨0, dim * dim, x + y * dim⟩
  if atEnd then { it with pos := it.pos + it.stride * dim } else it

/-- `operator++`. -/
def Iter.next (it : Iter) : Iter := { it with pos := it.pos + it.stride }

/-- `operator*`. -/
def Iter.core (it : Iter) : ℤ := it.pos + it.fixed

/-- The cores that a loop comes by until it is at the end; `none` if it is not there after so many
    turns. -/
def walk (last : Iter) : ℕ → Iter → Option (List ℤ)
  | 0, it => if it = last then some [] else none
  | fuel + 1, it => if it = last then some [] else (walk last fuel it.next).map (it.core :: ·)

/-- The cores of a line. -/
def locs (l : Loc3d) : List ℤ :=
  (walk (Iter.new l.x l.y l.z l.dim true) l.dim.toNat (Iter.new l.x l.y l.z l.dim false)).getD []

end Loc3d

/-! ### The program -/

/-- The relations of the query. -/
inductive Side
  | xy
  | yz
  | zx
  deriving DecidableEq

/-- The line that an edge is sent to. -/
def line (sidelength : ℕ) : Side → ℕ × ℕ → Loc3d
  | .xy, (src, dst) =>
    ⟨sidelength, Hypercube.makeHash sidelength src, Hypercube.makeHash sidelength dst, Loc3d.ALL⟩
  | .yz, (src, dst) =>
    ⟨sidelength, Loc3d.ALL, Hypercube.makeHash sidelength src, Hypercube.makeHash sidelength dst⟩
  | .zx, (src, dst) =>
    ⟨sidelength, Hypercube.makeHash sidelength dst, Loc3d.ALL, Hypercube.makeHash sidelength src⟩

/-- `LocalMapGraph::nadj`. -/
def LocalMapGraph.nadj (adjs : Groups ℕ ℕ) (root : ℕ) : ℕ := (adjs.slot root).length

/-- The side comes from `cbrt`, whose last bit is open: a cube of that side is in the cores. -/
structure PartitionedTriangles where
  cores : ℕ
  sidelength : ℕ
  sidelength_pos : 0 < sidelength
  cube_le : sidelength * sidelength * sidelength ≤ cores
  g : EdgeIndex
  unordered : Unordered

namespace PartitionedTriangles

variable (p : PartitionedTriangles)

/-- What the body of the forall sends.  The delegates run on their cores in any order. -/
def replicate (i : ℕ) : List (ℤ × (ℕ × ℕ)) :=
  (p.g.adj i).flatMap fun dst => [Side.xy, .yz, .zx].flatMap fun s =>
    (line p.sidelength s (i, dst)).locs.map fun l => (l, (i, dst))

/-- The triples that a core emits. -/
def emitted (u : Unordered) (localAssignedEdges_R1 : List (ℕ × ℕ)) : List (ℕ × ℕ × ℕ) :=
  let R1_dedup := u.set localAssignedEdges_R1
  let R1 := construct R1_dedup
  -- the relations are not different: R2 is a copy of R1, and R3 has the same edges
  let R2 := R1
  let R3 := LocalMapGraph.construct R1_dedup
  (u.map R1).flatMap fun xy =>
    let xadj := xy.2
    xadj.flatMap fun y =>
      let yadj := neighbors R2 y
      if xadj.length < yadj.length then
        yadj.flatMap fun z =>
          if yadj.length < LocalMapGraph.nadj R3 z then
            if LocalMapGraph.inNeighborhood R3 z xy.1 then [(xy.1, y, z)] else []
          else []
      else []

def plan : Exchange.Plan ℕ ℤ (ℕ × ℕ) (ℕ × ℕ × ℕ) where
  parties := p.cores
  roots := List.range p.g.nv
  step := fun i => ([], p.replicate i)
  count := fun c localAssignedEdges_R1 => emitted p.unordered (localAssignedEdges_R1 c)

def triangles := p.plan.program.system Exchange.init

end PartitionedTriangles

/-- `triangle_count` of a core. -/
def triangle_count (results : ℕ → List (ℕ × ℕ × ℕ)) (c : ℕ) : ℕ := (results c).length

/-! ### What a core emits -/

section emitted

variable {u : Unordered} {L : List (ℕ × ℕ)} {v x y z : ℕ}

/-- How many edges leave a vertex. -/
def degree (E : Finset (ℕ × ℕ)) (v : ℕ) : ℕ := (E.filter fun e => e.1 = v).card

theorem length_neighbors :
    (neighbors (construct (u.set L)) v).length =
      degree L.toFinset v := by
  have hset : L.toFinset.filter (fun e => e.1 = v) =
      ((u.set L).filter fun e => e.1 = v).toFinset := by
    ext e
    simp [u.mem_set]
  rw [neighbors_construct, length_map, degree, hset,
    toFinset_card_of_nodup ((u.nodup_set L).filter _)]

theorem LocalMapGraph.nodup_slot (edges : List (ℕ × ℕ)) (v : ℕ) :
    ((LocalMapGraph.construct edges).slot v).Nodup := by
  have hfoldl : ∀ (edges : List (ℕ × ℕ)) (g : Groups ℕ ℕ), (∀ v, (g.slot v).Nodup) →
      ∀ v, ((edges.foldl (fun adjs e => adjs.insert e.1 ((adjs.slot e.1).insert e.2)) g).slot
        v).Nodup := by
    intro edges
    induction edges with
    | nil => exact fun g hg => hg
    | cons e edges ih =>
      intro g hg
      apply ih
      intro v
      rw [Groups.slot_insert]
      split_ifs
      · exact (hg e.1).insert
      · exact hg v
  exact hfoldl edges ∅ (fun _ => nodup_nil) v

theorem nadj_eq : LocalMapGraph.nadj (LocalMapGraph.construct (u.set L)) v =
    degree L.toFinset v := by
  rw [← @length_neighbors u, LocalMapGraph.nadj]
  apply List.Perm.length_eq
  rw [perm_ext_iff_of_nodup (LocalMapGraph.nodup_slot _ v)
    (nodup_neighbors (u.nodup_set L) v)]
  intro w
  have hmem := @LocalMapGraph.inNeighborhood_construct (u.set L) v w
  rw [LocalMapGraph.inNeighborhood, decide_eq_true_eq] at hmem
  rw [hmem, mem_neighbors]

theorem emitted_eq : PartitionedTriangles.emitted u L =
    (scan u (construct (u.set L))).flatMap fun xy =>
      if degree L.toFinset xy.1 < degree L.toFinset xy.2 then
        (neighbors (construct (u.set L)) xy.2).flatMap fun z =>
          if degree L.toFinset xy.2 < degree L.toFinset z ∧ (z, xy.1) ∈ L
          then [(xy.1, xy.2, z)] else []
      else [] := by
  rw [PartitionedTriangles.emitted, scan, flatMap_assoc]
  apply flatMap_congr
  intro xy hxy
  have hslot := Groups.slot_of_mem ((u.map_perm _).mem_iff.mp hxy)
  have hlength : xy.2.length = degree L.toFinset xy.1 := by
    rw [← hslot]
    exact length_neighbors
  rw [flatMap_map]
  apply flatMap_congr
  intro y _
  dsimp only
  rw [hlength, length_neighbors]
  split_ifs with hlt
  · apply flatMap_congr
    intro z _
    have hin := @LocalMapGraph.inNeighborhood_construct (u.set L) z xy.1
    rw [u.mem_set] at hin
    simp only [nadj_eq, hin, ite_and]
  · rfl

theorem mem_emitted {t : ℕ × ℕ × ℕ} : t ∈ PartitionedTriangles.emitted u L ↔
    Triangles.Cycle L.toFinset t ∧ Ascending (degree L.toFinset) t := by
  obtain ⟨x, y, z⟩ := t
  simp only [emitted_eq, mem_flatMap, Prod.exists, mem_scan, mem_ite_nil_right,
    mem_neighbors, u.mem_set, mem_singleton, Triangles.Cycle, Ascending,
    mem_toFinset]
  constructor
  · intro h
    obtain ⟨x', y', hxy, hlt, z', hyz, ⟨hlt', hzx⟩, heq⟩ := h
    obtain ⟨rfl, rfl, rfl⟩ : x = x' ∧ y = y' ∧ z = z' := by simpa using heq
    exact ⟨⟨hxy, hyz, hzx⟩, hlt, hlt'⟩
  · intro h
    obtain ⟨⟨hxy, hyz, hzx⟩, hlt, hlt'⟩ := h
    exact ⟨x, y, hxy, hlt, z, hyz, ⟨hlt', hzx⟩, rfl⟩

theorem nodup_emitted (u : Unordered) (L : List (ℕ × ℕ)) :
    (PartitionedTriangles.emitted u L).Nodup := by
  rw [emitted_eq]
  apply nodup_flatMap_of_tag (fun t => (t.1, t.2.1)) (nodup_scan u L)
  · intro xy _
    split_ifs
    · apply nodup_flatMap_of_tag (fun t => t.2.2)
        (nodup_neighbors (u.nodup_set L) xy.2)
      · intro z _
        split_ifs <;> simp
      · intro z t ht
        split_ifs at ht
        · rw [mem_singleton.mp ht]
        · cases ht
    · exact nodup_nil
  · intro xy t ht
    split_ifs at ht
    · obtain ⟨z, -, hz⟩ := mem_flatMap.mp ht
      split_ifs at hz
      · rw [mem_singleton.mp hz]
      · cases hz
    · cases ht

end emitted

/-! ### The cores of a line -/

namespace Loc3d

variable {stride fixed : ℤ} {k n fuel dim x y z : ℕ} {l : ℤ}

theorem walk_eq (hstride : 0 < stride) (hfuel : n ≤ fuel) :
    walk ⟨stride * (k + n : ℕ), stride, fixed⟩ fuel ⟨stride * k, stride, fixed⟩ =
      some ((List.range' k n).map fun j : ℕ => stride * j + fixed) := by
  induction n generalizing k fuel with
  | zero => cases fuel <;> exact if_pos rfl
  | succ n ih =>
    obtain ⟨fuel, rfl⟩ : ∃ m, fuel = m + 1 := ⟨fuel - 1, by omega⟩
    have hne : (⟨stride * k, stride, fixed⟩ : Iter) ≠
        ⟨stride * (k + (n + 1) : ℕ), stride, fixed⟩ := by
      intro heq
      have hk := Int.eq_of_mul_eq_mul_left hstride.ne' (Iter.mk.inj heq).1
      omega
    have hnext : Iter.next ⟨stride * k, stride, fixed⟩ =
        ⟨stride * (k + 1 : ℕ), stride, fixed⟩ := by
      rw [Iter.next, Nat.cast_succ, Int.mul_add, Int.mul_one]
    have hlast : k + (n + 1) = k + 1 + n := by omega
    rw [walk, if_neg hne, hnext, hlast, ih (Nat.le_of_succ_le_succ hfuel)]
    rfl

theorem mem_walk (hstride : 0 < stride) : l ∈ (walk ⟨0 + stride * dim, stride, fixed⟩ dim
    ⟨0, stride, fixed⟩).getD [] ↔ ∃ j < dim, l = stride * j + fixed := by
  have hwalk := @walk_eq stride fixed 0 dim dim hstride le_rfl
  rw [Nat.cast_zero, Int.mul_zero, zero_add] at hwalk
  rw [Int.zero_add, hwalk, Option.getD_some, mem_map]
  simp only [mem_range'_1, zero_le, true_and, zero_add, eq_comm]

theorem mem_locs_x :
    l ∈ locs ⟨dim, ALL, y, z⟩ ↔ ∃ j < dim, l = j + (y * dim + z * dim * dim) := by
  have hloop := @mem_walk 1 (y * dim + z * dim * dim) dim l Int.one_pos
  simpa [locs, Iter.new] using hloop

theorem mem_locs_y (hdim : 0 < dim) :
    l ∈ locs ⟨dim, x, ALL, z⟩ ↔ ∃ j < dim, l = dim * j + (x + z * dim * dim) := by
  have hx : (x : ℤ) ≠ ALL := by
    rw [ALL]
    omega
  have hloop := @mem_walk dim (x + z * dim * dim) dim l (by omega)
  simpa [locs, Iter.new, hx] using hloop

theorem mem_locs_z (hdim : 0 < dim) :
    l ∈ locs ⟨dim, x, y, ALL⟩ ↔ ∃ j < dim, l = dim * dim * j + (x + y * dim) := by
  have hx : (x : ℤ) ≠ ALL := by
    rw [ALL]
    omega
  have hy : (y : ℤ) ≠ ALL := by
    rw [ALL]
    omega
  have hpos : (0 : ℤ) < dim * dim := Int.mul_pos (by omega) (by omega)
  have hloop := @mem_walk (dim * dim) (x + y * dim) dim l hpos
  simpa [locs, Iter.new, hx, hy] using hloop

end Loc3d

/-! ### The cores of an edge -/

section cube

variable {d : ℕ} {q q' : ℕ × ℕ × ℕ} {e : ℕ × ℕ} {l : ℤ}

/-- Coordinates in the cube. -/
def InCube (d : ℕ) (q : ℕ × ℕ × ℕ) : Prop := q.1 < d ∧ q.2.1 < d ∧ q.2.2 < d

/-- The core with these coordinates. -/
def number (d : ℕ) (q : ℕ × ℕ × ℕ) : ℕ := q.1 + q.2.1 * d + q.2.2 * d * d

/-- The hashes of the edges that a core gets. -/
def sides (q : ℕ × ℕ × ℕ) : List (ℕ × ℕ) := [(q.1, q.2.1), (q.2.1, q.2.2), (q.2.2, q.1)]

theorem number_eq_value : number d q = value [q.1, q.2.1, q.2.2] [d, d, d] := by
  simp only [number, value]
  ring

theorem InCube.within (h : InCube d q) : Within [q.1, q.2.1, q.2.2] [d, d, d] := by
  simpa [Within, InCube] using h

theorem number_lt (h : InCube d q) : number d q < d * d * d := by
  have hlt := value_lt h.within
  rw [← number_eq_value] at hlt
  simpa [mul_assoc] using hlt

theorem number_injective (h : InCube d q) (h' : InCube d q') (heq : number d q = number d q') :
    q = q' := by
  rw [number_eq_value, number_eq_value] at heq
  have hlist := value_injective h.within h'.within heq
  simpa [Prod.ext_iff] using hlist

/-- **Who gets an edge**: the cores of which it is a side. -/
theorem mem_lines (hd : 0 < d) : (∃ s, l ∈ (line d s e).locs) ↔
    ∃ q, InCube d q ∧ (number d q : ℤ) = l ∧ (e.1 % d, e.2 % d) ∈ sides q := by
  obtain ⟨src, dst⟩ := e
  have hsrc := Nat.mod_lt src hd
  have hdst := Nat.mod_lt dst hd
  constructor
  · intro h
    obtain ⟨s, hs⟩ := h
    cases s with
    | xy =>
      obtain ⟨j, hj, rfl⟩ := (Loc3d.mem_locs_z hd).mp hs
      refine ⟨(src % d, dst % d, j), ⟨hsrc, hdst, hj⟩, ?_, mem_cons_self⟩
      simp only [number, Hypercube.makeHash, Nat.cast_add, Nat.cast_mul]
      ring
    | yz =>
      obtain ⟨j, hj, rfl⟩ := Loc3d.mem_locs_x.mp hs
      refine ⟨(j, src % d, dst % d), ⟨hj, hsrc, hdst⟩, ?_, by simp [sides]⟩
      simp only [number, Hypercube.makeHash, Nat.cast_add, Nat.cast_mul]
      ring
    | zx =>
      obtain ⟨j, hj, rfl⟩ := (Loc3d.mem_locs_y hd).mp hs
      refine ⟨(dst % d, j, src % d), ⟨hdst, hj, hsrc⟩, ?_, by simp [sides]⟩
      simp only [number, Hypercube.makeHash, Nat.cast_add, Nat.cast_mul]
      ring
  · intro h
    obtain ⟨⟨a, b, c⟩, ⟨ha, hb, hc⟩, rfl, hside⟩ := h
    simp only [sides, mem_cons, not_mem_nil, or_false, Prod.mk.injEq] at hside
    rcases hside with ⟨rfl, rfl⟩ | ⟨rfl, rfl⟩ | ⟨rfl, rfl⟩
    · refine ⟨.xy, (Loc3d.mem_locs_z hd).mpr ⟨c, hc, ?_⟩⟩
      simp only [number, Hypercube.makeHash, Nat.cast_add, Nat.cast_mul]
      ring
    · refine ⟨.yz, Loc3d.mem_locs_x.mpr ⟨a, ha, ?_⟩⟩
      simp only [number, Hypercube.makeHash, Nat.cast_add, Nat.cast_mul]
      ring
    · refine ⟨.zx, (Loc3d.mem_locs_y hd).mpr ⟨b, hb, ?_⟩⟩
      simp only [number, Hypercube.makeHash, Nat.cast_add, Nat.cast_mul]
      ring

end cube

end Grappa
