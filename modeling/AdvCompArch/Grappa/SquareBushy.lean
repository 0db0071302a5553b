import AdvCompArch.Grappa.SquarePlans

/-! # The bushy plans

    `SquareBushyPlan` and `SquarePartitionBushy4way` join the pairs `(a, c)` with a way
    `a → b → c` and the ways `c → d → a`.  Both keep the pairs in a set, so that all `b` of a
    pair count as one; the partitioned plan has such a set on each core, and the `b` of a pair with
    different hashes are on different cores, where the ways back are counted by the classes of
    their middles (`classes`).  In the plan without partitions the loop over the edges of an `a` has
    no completion event, so what its spawned halves find may come too late.
    `bushy_plans_exact_iff` says when the plans find all squares. -/

namespace Grappa

open FourCycles Finset Distribute Function

/-! ### The plan without partitions -/

/-- The two halves of a square. -/
inductive Half
  | abc
  | cda
  deriving DecidableEq

structure SquareBushyPlan where
  cores : ℕ
  E1_index : EdgeIndex
  E2_index : EdgeIndex
  E3_index : EdgeIndex
  E4_index : EdgeIndex
  loop_threshold : ℕ
  /-- The edges `a → b` that a half that nobody waits for comes to after the final join. -/
  late : ℕ → ℕ → Bool

namespace SquareBushyPlan

inductive Task
  /-- The task that is spawned for a half. -/
  | half (side : Half)
  /-- The body of its forall. -/
  | scan (side : Half) (x : ℕ)
  /-- An iteration of the loop over the adjacencies of `x`. -/
  | edge_xy (side : Half) (x y : ℕ)
  /-- The task that looks up `y`. -/
  | lookup_y (side : Half) (x y : ℕ)
  | edge_yz (side : Half) (x y z : ℕ)
  deriving DecidableEq

variable (b : SquareBushyPlan)

/-- The core of a pair `(a, c)`. -/
def h (a c : ℕ) : ℕ := (179425579 * a + c) % b.cores

def first_index : Half → EdgeIndex
  | .abc => b.E1_index
  | .cda => b.E3_index

def second_index : Half → EdgeIndex
  | .abc => b.E2_index
  | .cda => b.E4_index

/-- How many iterations of a loop its own task makes: it spawns the right half as long as there are
    more than the threshold. -/
def own_iterations (loop_threshold : ℕ) : ℕ → ℕ → ℕ
  | 0, iterations => iterations
  | fuel + 1, iterations =>
    if iterations ≤ loop_threshold then iterations
    else own_iterations loop_threshold fuel ((iterations + 1) / 2)

/-- The edges of `x` that its own task goes through. -/
def own_part (x : ℕ) : List ℕ :=
  (b.E1_index.adj x).take
    (own_iterations b.loop_threshold (b.E1_index.adj x).length (b.E1_index.adj x).length)

/-- The edges of `x` that are gone through before the final join. -/
def in_time : Half → ℕ → List ℕ
  -- `forall_here<async>` has no completion event
  | .abc, x => (b.E1_index.adj x).filter fun y => y ∈ b.own_part x || !b.late x y
  | .cda, x => b.E3_index.adj x

/-- The core that the ends of a half are sent to. -/
def owner : Half → ℕ → ℕ → ℕ
  | .abc, a, c => b.h a c
  | .cda, c, a => b.h a c

/-- What a task spawns, and what it sends. -/
def step : Task → List Task × List ((Half × ℕ) × (ℕ × ℕ))
  | .half side => ((List.range (b.first_index side).nv).map (Task.scan side), [])
  | .scan side x => ((b.in_time side x).map (Task.edge_xy side x), [])
  | .edge_xy side x y => ([.lookup_y side x y], [])
  | .lookup_y side x y => (((b.second_index side).adj y).map (Task.edge_yz side x y), [])
  | .edge_yz side x _ z => ([], [((side, b.owner side x z), (x, z))])

/-- The final join of a core: the edges of `cda` whose pair is in the set of those of `abc`. -/
def join (localAssignedEdges_abc localAssignedEdges_cda : List (ℕ × ℕ)) : List (ℕ × ℕ) :=
  localAssignedEdges_cda.filter fun e => localAssignedEdges_abc.contains (e.2, e.1)

def plan : Exchange.Plan Task (Half × ℕ) (ℕ × ℕ) (ℕ × ℕ) where
  parties := b.cores
  roots := [.half .abc, .half .cda]
  step := b.step
  count := fun c boxes => join (boxes (.abc, c)) (boxes (.cda, c))

/-- `SquareBushyPlan::execute`. -/
def execute := b.plan.program.system Exchange.init

/-! ### What the halves send -/

/-- What is sent for a way `x → y → z`. -/
def message (side : Half) (w : ℕ × ℕ × ℕ) : (Half × ℕ) × (ℕ × ℕ) :=
  ((side, b.owner side w.1 w.2.2), (w.1, w.2.2))

def ways_y (side : Half) (x y : ℕ) : List (ℕ × ℕ × ℕ) :=
  ((b.second_index side).adj y).map fun z => (x, y, z)

def ways_x (side : Half) (x : ℕ) : List (ℕ × ℕ × ℕ) :=
  (b.in_time side x).flatMap (b.ways_y side x)

def ways (side : Half) : List (ℕ × ℕ × ℕ) :=
  (List.range (b.first_index side).nv).flatMap (b.ways_x side)

/-- The ways that a task and the tasks that it spawns go. -/
def Task.ways : Task → List (ℕ × ℕ × ℕ)
  | .half side => b.ways side
  | .scan side x => b.ways_x side x
  | .edge_xy side x y => b.ways_y side x y
  | .lookup_y side x y => b.ways_y side x y
  | .edge_yz _ x y z => [(x, y, z)]

def Task.side : Task → Half
  | .half side => side
  | .scan side _ => side
  | .edge_xy side _ _ => side
  | .lookup_y side _ _ => side
  | .edge_yz side _ _ _ => side

def Task.messages (task : Task) : Multiset ((Half × ℕ) × (ℕ × ℕ)) :=
  (task.ways b).map (b.message task.side)

/-- How deep the loops are from a task on. -/
def Task.rank : Task → ℕ
  | .half _ => 4
  | .scan .. => 3
  | .edge_xy .. => 2
  | .lookup_y .. => 1
  | .edge_yz .. => 0

variable {b}

theorem shrinks_rank : Exchange.Shrinks b.plan Task.rank := by
  intro task
  cases task <;> simp [plan, step, Task.rank]

theorem sends_messages : Exchange.Sends b.plan (Task.messages b) := by
  have hloop : ∀ (l : List ℕ) (f : ℕ → Task) (side : Half), (∀ x, (f x).side = side) →
      ((l.map f).map (Task.messages b)).sum =
        ((l.flatMap fun x => (f x).ways b).map (b.message side) :
          List ((Half × ℕ) × (ℕ × ℕ))) := by
    intro l f side hside
    rw [List.map_flatMap, ← sum_map_coe, List.map_map]
    simp [comp_def, Task.messages, hside]
  intro task
  cases task with
  | half side =>
    dsimp only [plan, step]
    rw [hloop _ _ side fun _ => rfl, Multiset.coe_nil, add_zero]
    rfl
  | scan side x =>
    dsimp only [plan, step]
    rw [hloop _ _ side fun _ => rfl, Multiset.coe_nil, add_zero]
    rfl
  | lookup_y side x y =>
    dsimp only [plan, step]
    rw [hloop _ _ side fun _ => rfl, Multiset.coe_nil, add_zero]
    simp only [Task.ways, ← List.map_eq_flatMap]
    rfl
  | edge_xy side x y => simp [plan, step, Task.messages, Task.ways, Task.side]
  | edge_yz side x y z => simp [plan, step, Task.messages, Task.ways, Task.side, message]

theorem mem_ways_y {side : Half} {x y : ℕ} {w : ℕ × ℕ × ℕ} : w ∈ b.ways_y side x y ↔
    ∃ z ∈ (b.second_index side).adj y, w = (x, y, z) := by
  simp [ways_y, eq_comm]

theorem mem_ways_x {side : Half} {x : ℕ} {w : ℕ × ℕ × ℕ} : w ∈ b.ways_x side x ↔
    ∃ y ∈ b.in_time side x, ∃ z ∈ (b.second_index side).adj y, w = (x, y, z) := by
  simp [ways_x, mem_ways_y]

theorem in_time_sublist (b : SquareBushyPlan) (side : Half) (x : ℕ) :
    (b.in_time side x).Sublist ((b.first_index side).adj x) := by
  cases side with
  | abc => exact List.filter_sublist
  | cda => exact List.Sublist.refl _

/-- **A half goes every way once** whose first edge is in time. -/
theorem ways_eq {R : Finset (ℕ × ℕ)} {side : Half} (h1 : (b.first_index side).IsIndex R)
    (h2 : (b.second_index side).IsIndex R) : (b.ways side : Multiset (ℕ × ℕ × ℕ)) =
      ((paths R).filter fun w => w.2.1 ∈ b.in_time side w.1).val := by
  apply (Multiset.Nodup.ext ?_ (Finset.nodup _)).mpr
  · rintro ⟨x, y, z⟩
    rw [mem_val, mem_filter, mem_paths, Multiset.mem_coe, ways, List.mem_flatMap]
    simp only [mem_ways_x, List.mem_range, h2.mem_adj]
    constructor
    · intro h
      obtain ⟨x', -, y', hxy, z', hyz, heq⟩ := h
      obtain ⟨rfl, rfl, rfl⟩ : x = x' ∧ y = y' ∧ z = z' := by simpa using heq
      exact ⟨⟨(h1.mem_adj x y).mp ((b.in_time_sublist side x).mem hxy), hyz⟩, hxy⟩
    · intro h
      exact ⟨x, h1.lt_nv x y h.1.1, y, h.2, z, h.1.2, rfl⟩
  · rw [Multiset.coe_nodup]
    apply nodup_flatMap_of_tag (fun w => w.1) List.nodup_range
    · intro x _
      apply nodup_flatMap_of_tag (fun w => w.2.1) ((h1.nodup x).sublist (b.in_time_sublist side x))
      · intro y _
        exact (h2.nodup y).map fun z z' h => (Prod.mk.inj (Prod.mk.inj h).2).2
      · intro y w hw
        obtain ⟨z, -, rfl⟩ := mem_ways_y.mp hw
        rfl
    · intro x w hw
      obtain ⟨y, -, z, -, rfl⟩ := mem_ways_x.mp hw
      rfl

/-- The plan has made its indices of the tuples. -/
structure Indexed (b : SquareBushyPlan) (tuples : List (ℕ × ℕ)) : Prop where
  E1 : b.E1_index.Of tuples
  E2 : b.E2_index.Of tuples
  E3 : b.E3_index.Of tuples
  E4 : b.E4_index.Of tuples

variable {tuples : List (ℕ × ℕ)}

theorem Indexed.ways_eq (h : b.Indexed tuples) (side : Half) :
    (b.ways side : Multiset (ℕ × ℕ × ℕ)) =
      ((paths tuples.toFinset).filter fun w => w.2.1 ∈ b.in_time side w.1).val := by
  cases side with
  | abc => exact SquareBushyPlan.ways_eq h.E1.isIndex h.E2.isIndex
  | cda => exact SquareBushyPlan.ways_eq h.E3.isIndex h.E4.isIndex

/-- **What has come to a core** in the end, of one half. -/
theorem Indexed.boxes (h : b.Indexed tuples)
    {t : Phased.State (Exchange.State (Half × ℕ) (ℕ × ℕ) (ℕ × ℕ))
      (Exchange.Item Task (Half × ℕ) (ℕ × ℕ))}
    (ht : b.execute.Reachable t) (hret : t.shared.phase = .returned) (side : Half) (c : ℕ) :
    (t.shared.boxes (side, c) : Multiset (ℕ × ℕ)) =
      (((paths tuples.toFinset).filter fun w => w.2.1 ∈ b.in_time side w.1).val.filter
        fun w => b.owner side w.1 w.2.2 = c).map fun w => (w.1, w.2.2) := by
  have hmessages : ∀ side, Task.messages b (.half side) =
      ((paths tuples.toFinset).filter fun w => w.2.1 ∈ b.in_time side w.1).val.map
        (b.message side) := by
    intro side
    rw [← h.ways_eq side]
    rfl
  rw [(Exchange.returned_spec sends_messages ht hret).1 (side, c), Exchange.Plan.sent, plan,
    List.map_cons, List.map_cons, List.map_nil, List.sum_cons, List.sum_cons, List.sum_nil,
    add_zero, Exchange.part_add, hmessages, hmessages]
  have hpart : ∀ side',
      Exchange.part (side, c) (((paths tuples.toFinset).filter fun w =>
          w.2.1 ∈ b.in_time side' w.1).val.map (b.message side')) =
        if side' = side then (((paths tuples.toFinset).filter fun w =>
          w.2.1 ∈ b.in_time side w.1).val.filter fun w => b.owner side w.1 w.2.2 = c).map
            fun w => (w.1, w.2.2) else 0 := by
    intro side'
    rw [Exchange.part, Multiset.filter_map, Multiset.map_map]
    split_ifs with hside
    · subst hside
      simp [message, comp_def]
    · simp [message, comp_def, hside]
  rw [hpart, hpart]
  cases side <;> simp

/-- **What the plan counts**: each way back once, if it has a middle that is in time. -/
theorem Indexed.total (h : b.Indexed tuples) (hcores : 0 < b.cores)
    {t : Phased.State (Exchange.State (Half × ℕ) (ℕ × ℕ) (ℕ × ℕ))
      (Exchange.Item Task (Half × ℕ) (ℕ × ℕ))}
    (ht : b.execute.Reachable t) (hret : t.shared.phase = .returned) :
    ∑ c ∈ Finset.range b.cores, (t.shared.results c).length =
      ((paths tuples.toFinset).filter fun w => ∃ y ∈ middles tuples.toFinset w.2.2 w.1,
        y ∈ (b.in_time .abc w.2.2).toFinset).card := by
  have hboxes := h.boxes ht hret
  -- all of `cda` is waited for
  have hback : ((paths tuples.toFinset).filter fun w => w.2.1 ∈ b.in_time .cda w.1) =
      paths tuples.toFinset := by
    apply filter_true_of_mem
    rintro ⟨x, y, z⟩ hw
    exact (h.E3.isIndex.mem_adj x y).mpr (mem_paths.mp hw).1
  have hresults : ∀ c < b.cores, (t.shared.results c).length =
      (((paths tuples.toFinset).filter fun w => ∃ y ∈ middles tuples.toFinset w.2.2 w.1,
        y ∈ (b.in_time .abc w.2.2).toFinset).filter fun w => b.h w.2.2 w.1 = c).card := by
    intro c hc
    have hmem : ∀ a d, (a, d) ∈ t.shared.boxes (.abc, c) ↔ b.h a d = c ∧
        ∃ y ∈ middles tuples.toFinset a d, y ∈ (b.in_time .abc a).toFinset := by
      intro a d
      rw [← Multiset.mem_coe, hboxes]
      simp only [Multiset.mem_map, Multiset.mem_filter, mem_val, mem_filter, Prod.exists,
        Prod.mk.injEq, List.mem_toFinset]
      constructor
      · intro h
        obtain ⟨x, y, z, ⟨⟨hpath, hin⟩, howner⟩, rfl, rfl⟩ := h
        exact ⟨howner, y, mem_middles.mpr (mem_paths.mp hpath), hin⟩
      · intro h
        obtain ⟨howner, y, hy, hin⟩ := h
        exact ⟨a, y, d, ⟨⟨mem_paths.mpr (mem_middles.mp hy), hin⟩, howner⟩, rfl, rfl⟩
    have hspec : t.shared.results c =
        if c < b.cores then join (t.shared.boxes (.abc, c)) (t.shared.boxes (.cda, c)) else [] :=
      (Exchange.returned_spec sends_messages ht hret).2 c
    rw [if_pos hc] at hspec
    simp only [hspec, join, List.contains_eq_mem]
    rw [card, ← Multiset.coe_card, ← Multiset.filter_coe, hboxes, hback, Multiset.filter_map,
      Multiset.card_map, Multiset.filter_filter]
    congr 1
    simp only [filter_val, Multiset.filter_filter]
    refine Multiset.filter_congr fun w _ => ?_
    simp only [comp_apply, hmem]
    show _ ∧ b.h w.2.2 w.1 = c ↔ _
    tauto
  rw [sum_congr rfl fun c hc => hresults c (mem_range.mp hc), ← card_eq_sum_card_fiberwise]
  intro w _
  exact mem_coe.mpr (mem_range.mpr (Nat.mod_lt _ hcores))

end SquareBushyPlan

/-! ### The partitioned plan -/

/-- The cores that see a way back, for some vertex in the middle. -/
def seenBy (R : Finset (ℕ × ℕ)) (k : ℕ) (w : ℕ × ℕ × ℕ) : Finset ℕ :=
  (middles R w.2.2 w.1).image fun y => home k (w.2.2, y, w.1, w.2.1)

theorem card_seenBy (R : Finset (ℕ × ℕ)) {k : ℕ} (hk : 0 < k) (w : ℕ × ℕ × ℕ) :
    (seenBy R k w).card = ((middles R w.2.2 w.1).image (Hypercube.makeHash k)).card := by
  have hfactor : seenBy R k w = ((middles R w.2.2 w.1).image (Hypercube.makeHash k)).image
      fun y => Odometer.value [w.2.2 % k, y, w.1 % k, w.2.1 % k] [k, k, k, k] := by
    rw [image_image]
    rfl
  rw [hfactor, card_image_of_injective]
  intro y y' heq
  simp only [Odometer.value] at heq
  have hmul := Nat.eq_of_mul_eq_mul_left hk (add_left_cancel heq)
  exact add_right_cancel hmul

/-- **What the partitioned plan counts**: each way back once for each hash of a middle. -/
theorem SquarePartitionBushy4way.total {tuples : List (ℕ × ℕ)} {p : SquarePartition}
    (hcores : 1 ≤ p.cores) (hindex : p.index.Of tuples)
    {t : Phased.State (Exchange.State (Atom × ℕ) (ℕ × ℕ) (ℕ × ℕ × ℕ))
      (Exchange.Item ℕ (Atom × ℕ) (ℕ × ℕ))}
    (ht : (execute p).Reachable t) (hret : t.shared.phase = .returned) :
    ∑ c ∈ Finset.range p.cores, (t.shared.results c).length =
      classes (Hypercube.makeHash p.sidelength) tuples.toFinset := by
  obtain ⟨hk, hle, hcube⟩ := SquarePartition.sidelength_spec hcores
  have hspec := SquarePartition.results_eq ht hret
  have hreceived := SquarePartition.received hindex.isIndex ht hret
  have hresults : ∀ c < p.cores, (t.shared.results c).length =
      ∑ w ∈ paths tuples.toFinset, if c ∈ seenBy tuples.toFinset p.sidelength w then 1 else 0 := by
    intro c hc
    rw [hspec c, if_pos hc, ← List.toFinset_card_of_nodup nodup_bushy_squares, ← card_filter]
    congr 1
    ext ⟨z, t', x⟩
    rw [List.mem_toFinset, mem_bushy_squares, mem_filter, mem_paths, seenBy,
      mem_image]
    simp only [hreceived, mem_middles, ← received_iff hk hle]
    constructor
    · intro h
      obtain ⟨⟨hzt, hcd⟩, ⟨htx, hda⟩, y, ⟨hxy, hab⟩, hyz, hbc⟩ := h
      exact ⟨⟨hzt, htx⟩, y, ⟨hxy, hyz⟩, hab, hbc, hcd, hda⟩
    · intro h
      obtain ⟨⟨hzt, htx⟩, y, ⟨hxy, hyz⟩, hab, hbc, hcd, hda⟩ := h
      exact ⟨⟨hzt, hcd⟩, ⟨htx, hda⟩, y, ⟨hxy, hab⟩, hyz, hbc⟩
  rw [sum_congr rfl fun c hc => hresults c (mem_range.mp hc), sum_comm,
    classes]
  refine sum_congr rfl fun w _ => ?_
  rw [← card_seenBy _ hk, ← card_filter]
  congr 1
  ext c
  rw [mem_filter, mem_range, and_iff_right_iff_imp]
  intro hc
  obtain ⟨y, -, rfl⟩ := mem_image.mp hc
  exact (home_lt hk _).trans_le hcube

/-! ### When the bushy plans find all squares -/

/-- The pair of two opposite vertices of a square determines the vertex between them. -/
def UniqueMiddles (tuples : List (ℕ × ℕ)) : Prop :=
  ∀ a c d, (c, d) ∈ tuples → (d, a) ∈ tuples → ∀ b b', (a, b) ∈ tuples → (b, c) ∈ tuples →
    (a, b') ∈ tuples → (b', c) ∈ tuples → b = b'

/-- The edges `a → b` of all squares are in time. -/
def SquareBushyPlan.InTime (b : SquareBushyPlan) (tuples : List (ℕ × ℕ)) : Prop :=
  ∀ x y z w, (x, y) ∈ tuples → (y, z) ∈ tuples → (z, w) ∈ tuples → (w, x) ∈ tuples →
    y ∈ b.in_time .abc x

/-- Whatever else comes late, the part of a loop that its own task goes through is in time. -/
theorem SquareBushyPlan.inTime_iff {b : SquareBushyPlan} {tuples : List (ℕ × ℕ)} :
    (∀ late, { b with late }.InTime tuples) ↔
      ∀ x y z w, (x, y) ∈ tuples → (y, z) ∈ tuples → (z, w) ∈ tuples → (w, x) ∈ tuples →
        y ∈ b.own_part x := by
  constructor
  · intro h x y z w hxy hyz hzw hwx
    have hin := (List.mem_filter.mp (h (fun _ _ => true) x y z w hxy hyz hzw hwx)).2
    simp only [Bool.not_true, Bool.or_false] at hin
    exact of_decide_eq_true hin
  · intro h late x y z w hxy hyz hzw hwx
    have hown := h x y z w hxy hyz hzw hwx
    have hadj : y ∈ b.E1_index.adj x := List.mem_of_mem_take hown
    exact List.mem_filter.mpr ⟨hadj, Bool.or_eq_true_iff.mpr (.inl (decide_eq_true hown))⟩

theorem SquareBushyPlan.terminates (b : SquareBushyPlan) :
    b.execute.Terminates b.execute.init :=
  Exchange.terminates shrinks_rank

/-- Two ways from 0 to 3, and one back. -/
def diamond : List (ℕ × ℕ) := [(0, 1), (0, 2), (1, 3), (2, 3), (3, 4), (4, 0)]

def diamond_index : EdgeIndex :=
  (EdgeIndex.create diamond diamond fun _ => [5]).getD ⟨0, fun _ => []⟩

end Grappa
