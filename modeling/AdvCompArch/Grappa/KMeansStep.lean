import AdvCompArch.Grappa.KMeansBroadcast

/-! # What an iteration of k-means computes

    The clusters of the reducers come from the values that were sent to them (`executes_yields`):
    from all points of the cluster without combiners, and from one average of each core with them.

    So an iteration without combiners computes the means that it should, as long as `find_cluster`
    finds a mean for every point.  One with combiners does so only if the average of the averages
    is the average of all, for every cluster (`kmeans_step_iff`). -/

namespace Grappa

namespace KMeans

open MapReduce
open Multiset (bind_map card_map coe_eq_zero map_coe map_eq_zero map_map mem_coe notMem_zero
  sum_coe)
open Finset (card_val filter_val mem_filter mem_range range sum_congr sum_empty val_eq_zero)

variable {Size n : ℕ}

/-! ### Averages -/

def averageOf (points : Multiset (Vector Size)) : Vector Size :=
  fun j => Moments.mean (points.map (· j))

theorem average_eq (points : List (Vector Size)) : average points = averageOf points := by
  have hfoldl : ∀ (points : List (Vector Size)) (center : Vector Size) (j : Fin Size),
      points.foldl (· + ·) center j = center j + (points.map (· j)).sum := by
    intro points
    induction points with
    | nil => simp
    | cons p points ih =>
      intro center j
      rw [List.foldl_cons, ih, List.map_cons, List.sum_cons, Pi.add_apply, add_assoc]
  funext j
  rw [averageOf, Moments.mean, map_coe, sum_coe, Multiset.coe_card,
    List.length_map, average]
  dsimp only
  rw [hfoldl, Pi.zero_apply, zero_add]

/-! ### The values of a cluster -/

section values

variable (k : Step n Size)

def Step.point (i : ℕ) : Vector Size := k.points.getD i 0

/-- The points that are mapped to an id. -/
def Step.found (id : ℤ) : Finset ℕ :=
  (Finset.range k.points.length).filter fun i => find_cluster k.means (k.point i) = id

theorem bind_ite {α β : Type} (l : Multiset α) (P : α → Prop) [DecidablePred P] (f : α → β) :
    (l.bind fun i => if P i then {f i} else 0) = (l.filter P).map f := by
  induction l using Multiset.induction with
  | empty => rfl
  | cons i l ih =>
    rw [Multiset.cons_bind, ih]
    by_cases hi : P i
    · rw [if_pos hi, Multiset.filter_cons_of_pos _ hi, Multiset.map_cons, Multiset.singleton_add]
    · rw [if_neg hi, Multiset.filter_cons_of_neg _ hi, zero_add]

theorem maps_eq {i : ℕ} (hi : i < k.points.length) (id : ℤ) :
    (vals id (k.job.emits i) : Multiset (Vector Size)) =
      if find_cluster k.means (k.point i) = id then {k.point i} else 0 := by
  have hget : k.job.keyvals[i]? = some (k.point i) := by
    rw [Step.point, List.getD_eq_getElem?_getD, List.getElem?_eq_getElem hi, Option.getD_some]
    exact List.getElem?_eq_getElem hi
  have hemits : k.job.emits i = [(find_cluster k.means (k.point i), k.point i)] := by
    rw [Job.emits, hget]
    rfl
  rw [hemits, vals_cons, vals_nil]
  split_ifs <;> rfl

theorem raw_eq (id : ℤ) : k.job.raw id = (k.found id).val.map k.point := by
  rw [Job.raw, ← map_coe, bind_map, Step.found, filter_val, ← bind_ite]
  exact Multiset.bind_congr fun i hi => maps_eq k (List.mem_range.mp (Multiset.mem_coe.mp hi)) id

theorem rawOn_eq (c : Fin (n + 1)) (id : ℤ) : k.job.rawOn c id =
    ((k.found id).filter fun i => k.point_core i = c).val.map k.point := by
  rw [Job.rawOn, ← map_coe, bind_map, filter_val, Step.found,
    filter_val, Multiset.filter_filter, ← bind_ite]
  apply Multiset.bind_congr
  intro i hi
  show (if k.point_core i = c then _ else _) = _
  rw [maps_eq k (List.mem_range.mp (Multiset.mem_coe.mp hi)), ite_and]

/-- What is sent to the reducers for an id: with combiners, an average of each core that has points
    with it. -/
def Step.sent : Bool → ℤ → Multiset (Vector Size)
  | true, id => ∑ c, if k.job.rawOn c id = 0 then 0 else {averageOf (k.job.rawOn c id)}
  | false, id => k.job.raw id

/-- Something is sent for an id if a point has it. -/
theorem sent_eq_zero_iff (combiner : Bool) (id : ℤ) :
    k.sent combiner id = 0 ↔ k.found id = ∅ := by
  have hraw : k.job.raw id = 0 ↔ k.found id = ∅ := by
    rw [raw_eq, map_eq_zero, val_eq_zero]
  rw [← hraw]
  cases combiner with
  | false => exact Iff.rfl
  | true =>
    rw [Step.sent, ← sum_rawOn, Finset.sum_eq_zero_iff, Finset.sum_eq_zero_iff]
    apply forall₂_congr
    intro c _
    split_ifs with hc
    · exact iff_of_true rfl hc
    · exact iff_of_false (Multiset.singleton_ne_zero _) hc

end values

/-! ### The clusters -/

section clusters

variable {k : Step n Size} {sent : ℤ → Multiset (Vector Size)}
  {t : Phased.State (State ℤ (Vector Size) (Cluster Size) n) (MapReduce.Item ℤ (Vector Size) n)}

/-- The results are the averages of what is sent for each id. -/
def Step.Yields (k : Step n Size) (result : ℕ → List (Cluster Size))
    (sent : ℤ → Multiset (Vector Size)) : Prop :=
  ∀ clust, Results k.numred result clust ↔
    sent clust.id ≠ 0 ∧ clust.center = averageOf (sent clust.id)

theorem yields_of_done (hnum : 0 < k.numred) {s : State ℤ (Vector Size) (Cluster Size) n}
    {pool : Multiset (MapReduce.Item ℤ (Vector Size) n)}
    (h : ∀ r < k.numred, Done k.job sent s pool r) :
    k.Yields (fun r => (s.reducers r).result) sent := by
  have horder : ∀ (id : ℤ) (values values' : List (Vector Size)), List.Perm values values' →
      (k.job.rf id values).Perm (k.job.rf id values') := by
    intro id values values' hperm
    have heq : average values = average values' := by
      rw [average_eq, average_eq, Multiset.coe_eq_coe.mpr hperm]
    show ([⟨average values, id⟩] : List (Cluster Size)).Perm [⟨average values', id⟩]
    rw [heq]
  intro clust
  constructor
  · intro hclust
    obtain ⟨r, hr, hmem⟩ := hclust
    obtain ⟨id, values, -, hne, hvalues, hrf⟩ := ((h r hr).mem_result horder).mp hmem
    obtain rfl := List.mem_singleton.mp hrf
    dsimp only
    rw [← hvalues, average_eq]
    exact ⟨fun hzero => hne ((coe_eq_zero _).mp hzero), rfl⟩
  · intro hclust
    obtain ⟨hne, hcenter⟩ := hclust
    obtain ⟨values, hvalues⟩ := Quot.exists_rep (sent clust.id)
    have hr : k.job.index clust.id < k.numred := k.job.index_lt hnum clust.id
    refine ⟨_, hr, ((h _ hr).mem_result horder).mpr ⟨clust.id, values, rfl, ?_, hvalues, ?_⟩⟩
    · rintro rfl
      exact hne hvalues.symm
    · have haverage : average values = clust.center := by
        rw [average_eq, hcenter]
        exact congrArg averageOf hvalues
      show clust ∈ [_]
      rw [List.mem_singleton, haverage]

/-- **What the job leaves**, with or without combiners. -/
theorem executes_yields (hnum : 0 < k.numred) {combiner : Bool} (h : k.Executes combiner t) :
    k.Yields (fun r => (t.shared.reducers r).result) (k.sent combiner) := by
  obtain ⟨reducers, combiners, h⟩ := h
  cases combiner with
  | false =>
    obtain ⟨ht, hended⟩ := h
    have hinv := reachable_inv k.iterate_perm hnum ht
    rw [hended.1] at hinv
    exact yields_of_done hnum (hinv.done hended.2)
  | true =>
    obtain ⟨ls, hrun, hquiet, hended⟩ := h
    obtain ⟨hinv, hsettled⟩ := quiet_run k.iterate_perm hnum hquiet hrun
    rw [hended.1] at hinv hsettled
    obtain ⟨G, hG, hsent, hdone⟩ := hsettled.done hinv hended.2
    have hvals : (fun id => (vals id t.shared.emitted : Multiset (Vector Size))) = k.sent true := by
      funext id
      rw [hsent id, Step.sent]
      apply sum_congr rfl
      intro c _
      have hown : ∀ id values, ∀ e ∈ k.job.cf id values, e.1 = id :=
        fun id values e he => congrArg Prod.fst (List.mem_singleton.mp he)
      rw [combined_eq hown (hG.full c), ← hG.own c id]
      simp only [coe_eq_zero]
      split_ifs
      · rfl
      · rw [← average_eq]
        rfl
    rw [hvals] at hdone
    exact yields_of_done hnum hdone

/-- **What an iteration leaves**: the averages of what is sent, on every core. -/
theorem iterates_spec (hnum : 0 < k.numred) {combiner : Bool} {s : Broadcast n Size}
    (h : k.Iterates combiner s) :
    (s.outside = false ↔ ∀ id : ℤ, k.sent combiner id ≠ 0 → 0 ≤ id ∧ id < k.means.length) ∧
    ∀ c, (s.means c).length = k.means.length ∧ ∀ id : ℕ, id < k.means.length →
      (s.means c)[id]? = if k.sent combiner id = 0 then k.means[id]?
        else some (averageOf (k.sent combiner id)) := by
  obtain ⟨t, ht, u, hu, rfl, -, hret⟩ := h
  have hyields := executes_yields hnum ht
  have hfunction : ∀ clust clust', Results k.numred (fun r => (t.shared.reducers r).result) clust →
      Results k.numred (fun r => (t.shared.reducers r).result) clust' → clust.id = clust'.id →
        clust.center = clust'.center := by
    intro clust clust' h h' hid
    rw [((hyields clust).mp h).2, ((hyields clust').mp h').2, hid]
  have hcluster : ∀ id, k.sent combiner id ≠ 0 → Results k.numred
      (fun r => (t.shared.reducers r).result) ⟨averageOf (k.sent combiner id), id⟩ :=
    fun id hne => (hyields ⟨_, id⟩).mpr ⟨hne, rfl⟩
  have hdue : ∀ c clust, ¬Due (fun r => (t.shared.reducers r).result)
      (0 : Multiset (Item n Size)) c clust := by
    intro c clust hdue
    rcases hdue with ⟨r, hr, -⟩ | hsave
    · exact notMem_zero _ hr
    · exact notMem_zero _ hsave
  obtain ⟨-, hlength, hsaved, hkept, houtside⟩ := broadcast_spec hfunction hu hret
  refine ⟨⟨fun hfalse id hne => ?_, fun hinside => ?_⟩, fun c => ⟨hlength c, fun id hid => ?_⟩⟩
  · by_contra hnot
    have hdone := (hsaved 0 _ (hcluster id hne)).resolve_left (hdue _ _)
    have hinside : ¬(⟨averageOf (k.sent combiner id), id⟩ : Cluster Size).Inside k.means.length :=
      hnot
    rw [if_neg hinside, hfalse] at hdone
    exact Bool.false_ne_true hdone
  · by_contra hne
    obtain ⟨clust, hclust, hnot⟩ := houtside (by simpa using hne)
    exact hnot (hinside clust.id ((hyields clust).mp hclust).1)
  · split_ifs with hzero
    · apply hkept
      intro clust hclust heq
      rw [← heq] at hzero
      exact ((hyields clust).mp hclust).1 hzero
    · have hdone := (hsaved c _ (hcluster id hzero)).resolve_left (hdue _ _)
      have hinside : (⟨averageOf (k.sent combiner id), id⟩ : Cluster Size).Inside k.means.length :=
        ⟨Int.natCast_nonneg id, Int.ofNat_lt.mpr hid⟩
      rwa [if_pos hinside] at hdone

end clusters

/-! ### The step of k-means -/

section step

variable (k : Step n Size)

open Classical in
/-- The points whose closest mean is this. -/
noncomputable def Step.members (id : ℕ) : Finset ℕ :=
  (Finset.range k.points.length).filter fun i => Closest k.means (k.point i) id

/-- The exact mean of the points whose closest mean is this, if there is one. -/
noncomputable def Step.newMean (id : ℕ) : Vector Size :=
  if k.members id = ∅ then k.means.getD id 0 else averageOf ((k.members id).val.map k.point)

/-- Every core has the new means, and nothing else has been written. -/
def Step.Right (s : Broadcast n Size) : Prop :=
  s.outside = false ∧ ∀ c, (s.means c).length = k.means.length ∧
    ∀ id < k.means.length, (s.means c)[id]? = some (k.newMean id)

/-- The step is right, with and without combiners, and both give the same. -/
structure Step.Correct : Prop where
  off : ∀ s, k.Iterates false s → k.Right s
  on : ∀ s, k.Iterates true s → k.Right s
  same : ∀ s s', k.Iterates true s → k.Iterates false s' → s.means = s'.means

/-- The search finds a mean for every point: one is nearer than the largest `double`. -/
def Step.Near : Prop := ∀ i < k.points.length, ∃ m ∈ k.means, sq_dist (k.point i) m < max_double

/-- The cores that have points of a cluster. -/
noncomputable def Step.holders (id : ℕ) : Finset (Fin (n + 1)) :=
  (k.members id).image k.point_core

/-- The points of a cluster on a core. -/
noncomputable def Step.membersOn (id : ℕ) (c : Fin (n + 1)) : Finset ℕ :=
  (k.members id).filter fun i => k.point_core i = c

/-- The points of every cluster, weighted with the number of cores that hold some of them, less the
    ratio between all of them and those on the core of the point, add up to zero. -/
def Step.Balanced : Prop :=
  ∀ id j, ∑ i ∈ k.members id, ((k.holders id).card -
    (k.members id).card / (k.membersOn id (k.point_core i)).card : ℚ) * k.point i j = 0

variable {k}

theorem mem_members {i id : ℕ} :
    i ∈ k.members id ↔ i < k.points.length ∧ Closest k.means (k.point i) id := by
  classical
  rw [Step.members, mem_filter, mem_range]

theorem found_eq_members (h : k.Near) (id : ℕ) : k.found id = k.members id := by
  ext i
  rw [Step.found, mem_filter, mem_members, mem_range]
  apply and_congr_right
  intro hi
  rw [find_cluster_eq_iff (h i hi)]
  simp

/-- **Every id is that of a mean** just if the search finds a mean for every point. -/
theorem inside_iff_near (combiner : Bool) :
    (∀ id : ℤ, k.sent combiner id ≠ 0 → 0 ≤ id ∧ id < k.means.length) ↔ k.Near := by
  simp only [ne_eq, sent_eq_zero_iff]
  constructor
  · intro h i hi
    by_contra hfar
    -- a point that is too far from all means has the id -1
    have hmem : i ∈ k.found (-1) :=
      Finset.mem_filter.mpr ⟨Finset.mem_range.mpr hi, find_cluster_far hfar⟩
    have hneg := (h (-1) (Finset.ne_empty_of_mem hmem)).1
    omega
  · intro h id hne
    obtain ⟨i, hi⟩ := Finset.nonempty_iff_ne_empty.mpr hne
    obtain ⟨hlt, hfind⟩ := Finset.mem_filter.mp hi
    obtain ⟨m, rfl, hclosest⟩ :=
      (find_cluster_eq_iff (h i (Finset.mem_range.mp hlt)) id).mp hfind
    exact ⟨Int.natCast_nonneg m, Int.ofNat_lt.mpr hclosest.lt⟩

theorem right_iff (hnum : 0 < k.numred) {combiner : Bool} {s : Broadcast n Size}
    (h : k.Iterates combiner s) : k.Right s ↔ k.Near ∧ ∀ id : ℕ, k.members id ≠ ∅ →
      averageOf (k.sent combiner id) = averageOf ((k.members id).val.map k.point) := by
  obtain ⟨houtside, hmeans⟩ := iterates_spec hnum h
  rw [Step.Right, houtside, inside_iff_near]
  apply and_congr_right
  intro hnear
  have hvalue : ∀ c, ∀ id < k.means.length, ((s.means c)[id]? = some (k.newMean id) ↔
      (k.members id ≠ ∅ →
        averageOf (k.sent combiner id) = averageOf ((k.members id).val.map k.point))) := by
    intro c id hid
    rw [(hmeans c).2 id hid, Step.newMean]
    simp only [sent_eq_zero_iff, found_eq_members hnear]
    split_ifs with hempty
    · refine iff_of_true ?_ fun hne => absurd hempty hne
      rw [List.getD_eq_getElem?_getD, List.getElem?_eq_getElem hid, Option.getD_some]
    · rw [Option.some_inj]
      exact ⟨fun heq _ => heq, fun himp => himp hempty⟩
  constructor
  · intro hright id hne
    obtain ⟨i, hi⟩ := Finset.nonempty_iff_ne_empty.mpr hne
    have hid : id < k.means.length := (mem_members.mp hi).2.lt
    exact (hvalue 0 id hid).mp ((hright 0).2 id hid) hne
  · exact fun haverage c => ⟨(hmeans c).1, fun id hid => (hvalue c id hid).mpr (haverage id)⟩

/-- **The average of the averages** of the cores. -/
theorem sent_average_iff (hnear : k.Near) (id : ℕ) :
    averageOf (k.sent true id) = averageOf ((k.members id).val.map k.point) ↔
      ∀ j, ∑ i ∈ k.members id, ((k.holders id).card -
        (k.members id).card / (k.membersOn id (k.point_core i)).card : ℚ) * k.point i j = 0 := by
  have hrawOn : ∀ c, k.job.rawOn c id = (k.membersOn id c).val.map k.point := by
    intro c
    rw [rawOn_eq, found_eq_members hnear]
    rfl
  have hnonempty : ∀ c, k.job.rawOn c id = 0 ↔ c ∉ k.holders id := by
    intro c
    rw [hrawOn, map_eq_zero, val_eq_zero, Step.membersOn,
      Finset.filter_eq_empty_iff, Step.holders, Finset.mem_image]
    push Not
    rfl
  have hsent : k.sent true id = (k.holders id).val.map fun c => averageOf (k.job.rawOn c id) := by
    simp only [Step.sent, hnonempty, ite_not]
    rw [Finset.sum_ite_mem, Finset.univ_inter,
      ← Multiset.sum_map_singleton ((k.holders id).val.map fun c => averageOf (k.job.rawOn c id)),
      map_map]
    rfl
  have hall : (k.members id).val.map k.point = ∑ c ∈ k.holders id, k.job.rawOn c id := by
    rw [← found_eq_members hnear, ← raw_eq, ← sum_rawOn]
    refine (Finset.sum_subset (Finset.subset_univ _) fun c _ hc => ?_).symm
    exact (hnonempty c).mpr hc
  rw [funext_iff]
  apply forall_congr'
  intro j
  -- the coordinates of the points on each core
  let parts : Fin (n + 1) → Multiset ℚ := fun c => (k.job.rawOn c id).map (· j)
  have hparts : ∀ c ∈ k.holders id, parts c ≠ 0 := by
    intro c hc hzero
    exact (hnonempty c).mp (Multiset.map_eq_zero.mp hzero) hc
  have hcard : ∀ c, (parts c).card = (k.membersOn id c).card := by
    intro c
    simp only [parts, hrawOn, card_map, card_val]
  have hsum : ∀ c, (parts c).sum = ∑ i ∈ k.membersOn id c, k.point i j := by
    intro c
    simp only [parts, hrawOn, map_map]
    rfl
  have htotal : ((k.members id).val.map k.point).map (· j) = ∑ c ∈ k.holders id, parts c := by
    rw [hall]
    exact map_sum (Multiset.mapAddMonoidHom fun p : Vector Size => p j) _ _
  have hsize : (∑ c ∈ k.holders id, parts c).card = (k.members id).card := by
    rw [← htotal, card_map, card_map, card_val]
  rw [averageOf, averageOf, hsent, htotal, map_map]
  refine (Moments.mean_means_eq_iff (k.holders id) parts hparts).trans ?_
  -- from the cores to their points
  have hpoints : ∑ c ∈ k.holders id, (((k.holders id).card : ℚ) -
      (∑ c ∈ k.holders id, parts c).card / (parts c).card) * (parts c).sum =
        ∑ i ∈ k.members id, ((k.holders id).card -
          (k.members id).card / (k.membersOn id (k.point_core i)).card : ℚ) * k.point i j := by
    rw [← Finset.sum_fiberwise_of_maps_to (fun i hi => Finset.mem_image_of_mem k.point_core hi)]
    apply sum_congr rfl
    intro c _
    rw [hsize, hcard, hsum, Finset.mul_sum]
    apply sum_congr rfl
    intro i hi
    rw [(Finset.mem_filter.mp hi).2]
  rw [hpoints]

variable (k) in
theorem exists_iterates (hnum : 0 < k.numred) (combiner : Bool) : ∃ s, k.Iterates combiner s := by
  let reducers : ℕ → MapReduce.Reducer ℤ (Vector Size) (Cluster Size) := fun _ => ⟨∅, []⟩
  let combiners : Fin (n + 1) → Groups ℤ (Vector Size) := fun _ => ∅
  have hexecutes : ∃ t, k.Executes combiner t := by
    cases combiner with
    | false =>
      obtain ⟨ls, t, hrun, hstuck⟩ := (terminates k.job reducers combiners).exists_end
      exact ⟨t, reducers, combiners, ⟨ls, hrun⟩,
        ended_of_stuck k.iterate_perm hnum ⟨ls, hrun⟩ hstuck⟩
    | true =>
      have hiterate : ∀ l, (k.job.iterate l).Perm l := k.iterate_perm
      obtain ⟨ls, t, hrun, hquiet, hended⟩ := exists_quiet_run reducers combiners hiterate hnum
      exact ⟨t, reducers, combiners, ls, hrun, hquiet, hended⟩
  obtain ⟨t, ht⟩ := hexecutes
  obtain ⟨u, hu, hpool, hret⟩ :=
    exists_broadcast n k.numred (fun r => (t.shared.reducers r).result) k.means
  exact ⟨u.shared, t, ht, u, hu, rfl, hpool, hret⟩

theorem Right.means_eq {s s' : Broadcast n Size} (h : k.Right s) (h' : k.Right s') :
    s.means = s'.means := by
  funext c
  obtain ⟨hlength, hget⟩ := h.2 c
  obtain ⟨hlength', hget'⟩ := h'.2 c
  apply List.ext_getElem?
  intro id
  by_cases hid : id < k.means.length
  · rw [hget id hid, hget' id hid]
  · rw [List.getElem?_eq_none (by omega), List.getElem?_eq_none (by omega)]

theorem step_correct_iff (hnum : 0 < k.numred) : k.Correct ↔ k.Near ∧ k.Balanced := by
  constructor
  · intro h
    obtain ⟨s, hs⟩ := exists_iterates k hnum true
    obtain ⟨hnear, haverage⟩ := (right_iff hnum hs).mp (h.on s hs)
    refine ⟨hnear, fun id => ?_⟩
    by_cases hempty : k.members id = ∅
    · intro j
      rw [hempty, sum_empty]
    · exact (sent_average_iff hnear id).mp (haverage id hempty)
  · intro h
    obtain ⟨hnear, hbalanced⟩ := h
    have hoff : ∀ s, k.Iterates false s → k.Right s := by
      intro s hs
      refine (right_iff hnum hs).mpr ⟨hnear, fun id _ => ?_⟩
      rw [Step.sent, raw_eq, found_eq_members hnear]
    have hon : ∀ s, k.Iterates true s → k.Right s := fun s hs =>
      (right_iff hnum hs).mpr ⟨hnear, fun id _ => (sent_average_iff hnear id).mpr (hbalanced id)⟩
    exact ⟨hoff, hon, fun s s' hs hs' => Right.means_eq (hon s hs) (hoff s' hs')⟩

end step

/-! ### Points on two cores -/

/-- One mean, at 0, and points on two cores. -/
def twoCores (points : List (Vector 1)) (point_core : ℕ → Fin 2) : Step 1 1 where
  points := points
  point_core := point_core
  numred := 1
  reducer_core := fun _ => ⟨0, Nat.two_pos⟩
  iterate := id
  iterate_perm := fun _ => List.Perm.refl _
  means := [0]

section twoCores

variable {points : List (Vector 1)} {point_core : ℕ → Fin 2}

theorem twoCores_members (id : ℕ) : (twoCores points point_core).members id =
    if id = 0 then Finset.range points.length else ∅ := by
  ext i
  rw [mem_members]
  have hclosest : Closest [(0 : Vector 1)] ((twoCores points point_core).point i) id ↔ id = 0 := by
    constructor
    · exact fun h => Nat.lt_one_iff.mp h.lt
    · rintro rfl
      refine ⟨0, rfl, fun j m hm => ?_⟩
      obtain rfl := Nat.lt_one_iff.mp (List.getElem?_eq_some_iff.mp hm).1
      cases hm
      exact ⟨le_rfl, fun h => absurd h (lt_irrefl 0)⟩
  show i < points.length ∧ Closest [(0 : Vector 1)] _ id ↔ _
  rw [hclosest]
  split_ifs with hid
  · simp [hid]
  · simp [hid]

theorem twoCores_near (h : ∀ p ∈ points, sq_dist p 0 < (2 ^ 53 - 1 : ℕ)) :
    (twoCores points point_core).Near := by
  intro i hi
  have hmem : (twoCores points point_core).point i ∈ points := by
    rw [Step.point, List.getD_eq_getElem?_getD, List.getElem?_eq_getElem hi]
    exact List.getElem_mem hi
  exact ⟨0, List.mem_singleton_self _, (h _ hmem).trans_le le_max_double⟩

theorem twoCores_balanced_iff : (twoCores points point_core).Balanced ↔
    ∑ i ∈ Finset.range points.length, ((((Finset.range points.length).image point_core).card : ℚ) -
      points.length / ((Finset.range points.length).filter fun i' =>
        point_core i' = point_core i).card) * points.getD i 0 0 = 0 := by
  have hzero : ∑ i ∈ (twoCores points point_core).members 0,
      (((twoCores points point_core).holders 0).card -
        ((twoCores points point_core).members 0).card /
          ((twoCores points point_core).membersOn 0 (point_core i)).card : ℚ) *
            points.getD i 0 0 =
      ∑ i ∈ range points.length,
        ((((range points.length).image point_core).card : ℚ) - points.length /
          ((range points.length).filter fun i' => point_core i' = point_core i).card) *
            points.getD i 0 0 := by
    simp only [Step.holders, Step.membersOn, twoCores_members, if_true, Finset.card_range]
    rfl
  rw [← hzero]
  constructor
  · exact fun h => h 0 0
  · intro h id j
    rw [Subsingleton.elim j 0]
    by_cases hid : id = 0
    · rw [hid]
      exact h
    · rw [twoCores_members, if_neg hid, sum_empty]

end twoCores

end KMeans

end Grappa
