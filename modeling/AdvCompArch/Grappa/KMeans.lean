import AdvCompArch.Grappa.MapReduceTermination
import AdvCompArch.Lib.Moments

/-! # An iteration of k-means

    `kmeans` maps every point to the mean that is closest to it, with a MapReduce job, and takes
    the average of the points of a mean for its new value.  With `FLAGS_combiner` every core takes
    the average of its own points first, and the reducers the average of these averages.

    The new means are then written to all cores, by delegates in any order (`Broadcast`).  Points
    are vectors of exact numbers here; only the bound that `find_cluster` starts with is that of a
    `double`. -/

namespace Grappa

namespace KMeans

open MapReduce List

/-- The coordinates of a point. -/
abbrev Vector (Size : ℕ) := Fin Size → ℚ

variable {Size n : ℕ}

def sq_dist (p m : Vector Size) : ℚ := ∑ i, (p i - m i) ^ 2

/-! ### The closest mean -/

/-- `std::numeric_limits<double>::max()` -/
def max_double : ℚ := ((2 ^ 53 - 1) * 2 ^ 971 : ℕ)

theorem le_max_double : ((2 ^ 53 - 1 : ℕ) : ℚ) ≤ max_double :=
  Nat.cast_le.mpr (Nat.le_mul_of_pos_right _ (Nat.two_pow_pos _))

/-- The variables of `find_cluster`. -/
structure Search where
  min_dist : ℚ
  argmin_idx : ℤ
  c : ℤ

/-- The body of the loop, if all centers are compared. -/
def Search.compare (p : Vector Size) (s : Search) (m : Vector Size) : Search :=
  let cur_dist := sq_dist p m
  if cur_dist < s.min_dist then ⟨cur_dist, s.c, s.c + 1⟩ else { s with c := s.c + 1 }

def find_cluster (means : List (Vector Size)) (p : Vector Size) : ℤ :=
  (means.foldl (Search.compare p) ⟨max_double, -1, 0⟩).argmin_idx

/-! ### The job -/

structure Cluster (Size : ℕ) where
  center : Vector Size
  id : ℤ

/-- The loop over the points of a key, and the division after it. -/
def average (points : List (Vector Size)) : Vector Size :=
  let center := points.foldl (· + ·) 0
  fun i => center i / points.length

/-- The points on their cores, the layout of the job, and the current means of every core. -/
structure Step (n Size : ℕ) where
  points : List (Vector Size)
  point_core : ℕ → Fin (n + 1)
  numred : ℕ
  reducer_core : ℕ → Fin (n + 1)
  /-- The order in which an `unordered_map` is gone through. -/
  iterate : List ((_ : ℤ) × List (Vector Size)) → List ((_ : ℤ) × List (Vector Size))
  iterate_perm : ∀ l, (iterate l).Perm l
  means : List (Vector Size)

variable (k : Step n Size)

def Step.KMeansMap (p : Vector Size) : List (ℤ × Vector Size) := [(find_cluster k.means p, p)]

def KMeansCombine (id : ℤ) (points : List (Vector Size)) : List (ℤ × Vector Size) :=
  [(id, average points)]

def KMeansReduce (id : ℤ) (points : List (Vector Size)) : List (Cluster Size) :=
  [⟨average points, id⟩]

/-- The hash of an `int32_t` is its value as a `size_t`. -/
def Step.job : Job (Vector Size) ℤ (Vector Size) (Cluster Size) n where
  keyvals := k.points
  keyval_core := k.point_core
  num_reducers := k.numred
  reducer_core := k.reducer_core
  hash := fun id => (id % 2 ^ 64).toNat
  iterate := k.iterate
  mf := k.KMeansMap
  cf := KMeansCombine
  rf := KMeansReduce

/-- A job that has ended.  With combiners, every value has reached its reducer before this is
    reduced. -/
def Step.Executes (combiner : Bool) (t : Phased.State (State ℤ (Vector Size) (Cluster Size) n)
    (MapReduce.Item ℤ (Vector Size) n)) : Prop :=
  ∃ reducers combiners, if combiner then
    ∃ ls, ((CombiningMapReduceJobExecute k.job).system (init reducers combiners)).run
        ⟨init reducers combiners, []⟩ ls = some t ∧
      ((CombiningMapReduceJobExecute k.job).system (init reducers combiners)).Always Quiet
        ⟨init reducers combiners, []⟩ ls ∧ (CombiningMapReduceJobExecute k.job).Ended t
  else ((MapReduceJobExecute k.job).system (init reducers combiners)).Reachable t ∧
    (MapReduceJobExecute k.job).Ended t

/-! ### The broadcast -/

inductive Phase
  | start
  | send
  | returned
  deriving DecidableEq

structure Broadcast (n Size : ℕ) where
  means : Fin (n + 1) → List (Vector Size)
  /-- A mean has been written that the vector does not have. -/
  outside : Bool
  phase : Phase

inductive Item (n Size : ℕ)
  /-- An iteration of the forall over the reducers. -/
  | look (r : ℕ)
  /-- The delegate that saves a cluster on a core. -/
  | save (c : Fin (n + 1)) (clust : Cluster Size)

/-- `means->means[clust.id] = clust.center` -/
def Broadcast.write (s : Broadcast n Size) (c : Fin (n + 1)) (clust : Cluster Size) :
    Broadcast n Size :=
  if 0 ≤ clust.id ∧ clust.id < (s.means c).length then
    { s with means := Function.update s.means c ((s.means c).set clust.id.toNat clust.center) }
  else { s with outside := true }

variable (numred : ℕ) (result : ℕ → List (Cluster Size))

def Item.exec (s : Broadcast n Size) : Item n Size → Option (Broadcast n Size × List (Item n Size))
  | .look r => some (s, (result r).flatMap fun clust => (finRange (n + 1)).map (.save · clust))
  | .save c clust => some (s.write c clust, [])

def Broadcast.advance (s : Broadcast n Size) : Option (Broadcast n Size × List (Item n Size)) :=
  match s.phase with
  | .start => some ({ s with phase := .send }, (range numred).map .look)
  | .send => some ({ s with phase := .returned }, [])
  | .returned => none

def broadcast : Phased.Program (Broadcast n Size) (Item n Size) :=
  ⟨Item.exec result, Broadcast.advance numred⟩

/-- All cores have the same means. -/
def Broadcast.init (n : ℕ) (means : List (Vector Size)) : Broadcast n Size :=
  ⟨fun _ => means, false, .start⟩

/-- An iteration of the loop of `kmeans`, with or without combiners, leaves these means. -/
def Step.Iterates (combiner : Bool) (s : Broadcast n Size) : Prop :=
  ∃ t, k.Executes combiner t ∧ ∃ u,
    ((broadcast k.numred fun r => (t.shared.reducers r).result).system
      (.init n k.means)).Reachable u ∧ u.shared = s ∧ u.pool = [] ∧ s.phase = .returned

/-! ### What the search finds -/

section search

variable {means : List (Vector Size)} {p : Vector Size} {id id' : ℕ}

/-- The mean with this id is the closest to a point, and the first of those that are. -/
def Closest (means : List (Vector Size)) (p : Vector Size) (id : ℕ) : Prop :=
  ∃ m ∈ means[id]?, ∀ j, ∀ m' ∈ means[j]?,
    sq_dist p m ≤ sq_dist p m' ∧ (j < id → sq_dist p m < sq_dist p m')

theorem Closest.lt (h : Closest means p id) : id < means.length := by
  obtain ⟨m, hm, -⟩ := h
  exact (List.getElem?_eq_some_iff.mp hm).1

theorem Closest.unique (h : Closest means p id) (h' : Closest means p id') : id = id' := by
  obtain ⟨m, hm, hmin⟩ := h
  obtain ⟨m', hm', hmin'⟩ := h'
  rcases Nat.lt_trichotomy id id' with hlt | heq | hlt
  · exact absurd ((hmin' id m hm).2 hlt) (not_lt_of_ge (hmin id' m' hm').1)
  · exact heq
  · exact absurd ((hmin id' m' hm').2 hlt) (not_lt_of_ge (hmin' id m hm).1)

/-- What the loop has found among the means that it has come by. -/
structure Search.Found (p : Vector Size) (means : List (Vector Size)) (s : Search) : Prop where
  c : s.c = means.length
  argmin : (s.argmin_idx = -1 ∧ s.min_dist = max_double ∧ ∀ m ∈ means, max_double ≤ sq_dist p m) ∨
    ∃ id : ℕ, s.argmin_idx = id ∧ Closest means p id ∧ s.min_dist < max_double ∧
      ∀ m ∈ means[id]?, s.min_dist = sq_dist p m

/-- **The search**: it finds the closest mean, if one is near enough. -/
theorem search_found (p : Vector Size) (means : List (Vector Size)) :
    (means.foldl (Search.compare p) ⟨max_double, -1, 0⟩).Found p means := by
  induction means using reverseRecOn with
  | nil => exact ⟨rfl, .inl ⟨rfl, rfl, fun m hm => absurd hm not_mem_nil⟩⟩
  | append_singleton means m ih =>
    rw [foldl_append, foldl_cons, foldl_nil]
    obtain ⟨hc, hargmin⟩ := ih
    generalize foldl (Search.compare p) ⟨max_double, -1, 0⟩ means = s at hc hargmin
    have hlast : (means ++ [m])[means.length]? = some m := getElem?_concat_length
    have hcases : ∀ j, ∀ m' ∈ (means ++ [m])[j]?, m' ∈ means[j]? ∨ j = means.length ∧ m' = m := by
      intro j m' hm'
      rw [Option.mem_def, getElem?_append] at hm'
      split_ifs at hm' with hj
      · exact .inl hm'
      · obtain ⟨hlt, hget⟩ := List.getElem?_eq_some_iff.mp hm'
        rw [length_singleton, Nat.lt_one_iff] at hlt
        simp only [hlt, getElem_cons_zero] at hget
        exact .inr ⟨by omega, hget.symm⟩
    have hlt : ∀ j, ∀ m' ∈ means[j]?, j < means.length :=
      fun j m' hm' => (List.getElem?_eq_some_iff.mp hm').1
    rw [Search.compare]
    refine ⟨?_, ?_⟩
    · rw [length_append, length_singleton, Nat.cast_succ, ← hc]
      split_ifs <;> rfl
    · split_ifs with hnear
      · -- this mean is closer than all before it
        have hmin : ∀ m' ∈ means, sq_dist p m < sq_dist p m' := by
          intro m' hm'
          rcases hargmin with ⟨-, hdist, hfar⟩ | ⟨id, -, ⟨best, hbest, hclosest⟩, -, hdist⟩
          · exact (hdist ▸ hnear).trans_le (hfar m' hm')
          · obtain ⟨j, hj⟩ := mem_iff_getElem?.mp hm'
            exact (hdist best hbest ▸ hnear).trans_le (hclosest j m' hj).1
        refine .inr ⟨means.length, hc, ⟨m, hlast, fun j m' hm' => ?_⟩, ?_, fun m' hm' => ?_⟩
        · rcases hcases j m' hm' with hm' | ⟨rfl, rfl⟩
          · have hless := hmin m' (mem_of_getElem? hm')
            exact ⟨hless.le, fun _ => hless⟩
          · exact ⟨le_rfl, fun hj => absurd hj (lt_irrefl _)⟩
        · rcases hargmin with ⟨-, hdist, -⟩ | ⟨-, -, -, hbound, -⟩
          · exact hdist ▸ hnear
          · exact hnear.trans hbound
        · rw [hlast] at hm'
          rw [Option.some.inj hm']
      · rcases hargmin with ⟨hidx, hdist, hfar⟩ | ⟨id, hidx, ⟨best, hbest, hclosest⟩, hbound, hdist⟩
        · refine .inl ⟨hidx, hdist, fun m' hm' => ?_⟩
          rcases mem_append.mp hm' with hm' | hm'
          · exact hfar m' hm'
          · rw [mem_singleton.mp hm', ← hdist]
            exact not_lt.mp hnear
        · have hid := hlt id best hbest
          have hget : (means ++ [m])[id]? = some best := by
            rw [getElem?_append_left hid]
            exact hbest
          refine .inr ⟨id, hidx, ⟨best, hget, fun j m' hm' => ?_⟩, hbound, fun m' hm' => ?_⟩
          · rcases hcases j m' hm' with hm' | ⟨rfl, rfl⟩
            · exact hclosest j m' hm'
            · rw [← hdist best hbest]
              exact ⟨not_lt.mp hnear, fun hj => absurd (hid.trans hj) (lt_irrefl _)⟩
          · rw [hget] at hm'
            rw [hdist best hbest, Option.some.inj hm']

theorem find_cluster_near (h : ∃ m ∈ means, sq_dist p m < max_double) :
    ∃ id : ℕ, find_cluster means p = id ∧ Closest means p id := by
  rcases (search_found p means).argmin with ⟨-, -, hfar⟩ | ⟨id, hidx, hclosest, -⟩
  · obtain ⟨m, hm, hlt⟩ := h
    exact absurd hlt (not_lt_of_ge (hfar m hm))
  · exact ⟨id, hidx, hclosest⟩

theorem find_cluster_far (h : ¬∃ m ∈ means, sq_dist p m < max_double) :
    find_cluster means p = -1 := by
  rcases (search_found p means).argmin with ⟨hidx, -⟩ | ⟨id, -, ⟨m, hm, -⟩, hbound, hdist⟩
  · exact hidx
  · exact absurd ⟨m, mem_of_getElem? hm, hdist m hm ▸ hbound⟩ h

theorem find_cluster_eq_iff (h : ∃ m ∈ means, sq_dist p m < max_double) (id : ℤ) :
    find_cluster means p = id ↔ ∃ i : ℕ, id = i ∧ Closest means p i := by
  obtain ⟨i, hfind, hclosest⟩ := find_cluster_near h
  rw [hfind]
  constructor
  · rintro rfl
    exact ⟨i, rfl, hclosest⟩
  · intro h
    obtain ⟨j, rfl, hj⟩ := h
    rw [hclosest.unique hj]

end search

end KMeans

end Grappa
