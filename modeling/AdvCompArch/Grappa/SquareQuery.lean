import AdvCompArch.Grappa.EdgeIndex
import AdvCompArch.Lib.Distribute
import AdvCompArch.Lib.FourCycles
import AdvCompArch.Lib.TaskPool
import AdvCompArch.Lib.Termination

/-! # The pipelined plan

    `SquareQuery::execute` looks for the squares of a relation by walking its edges.  The forall
    over the vertices `a` spawns a loop over the adjacencies of `a`, which sends a task to each
    `b`, which spawns a loop over the adjacencies of `b`, and so on.  The core of `d` counts when
    it finds that `d` leads back to `a`.

    All of these tasks are enrolled with the event that the forall waits for.  They run in any
    order, and so the plan is a pool of tasks.  `Item.squares` is what a task will find
    together with those that it spawns. -/

namespace Grappa

open FourCycles List Transition Distribute

abbrev Square := ℕ × ℕ × ℕ × ℕ

structure SquareQuery where
  cores : ℕ
  E1_index : EdgeIndex
  E2_index : EdgeIndex
  E3_index : EdgeIndex
  E4_index : EdgeIndex
  /-- The core of a vertex of `E4_index`. -/
  core : ℕ → ℕ
  core_lt : ∀ v, core v < cores

/-- A core counts a square. -/
structure Found where
  core : ℕ
  square : Square
  deriving DecidableEq

namespace SquareQuery

inductive Item
  /-- The body of the forall. -/
  | scan (a : ℕ)
  /-- An iteration of the loop over the adjacencies of `a`. -/
  | edge_ab (a b : ℕ)
  /-- The task that looks up `b`. -/
  | lookup_b (a b : ℕ)
  | edge_bc (a b c : ℕ)
  | lookup_c (a b c : ℕ)
  | edge_cd (a b c d : ℕ)
  | lookup_d (a b c d : ℕ)
  | edge_da (a b c d aprime : ℕ)
  deriving DecidableEq

variable (q : SquareQuery)

/-- What a task counts, and what it spawns. -/
def exec : Item → List Found × List Item
  | .scan a => ([], (q.E1_index.adj a).map (Item.edge_ab a))
  | .edge_ab a b => ([], [.lookup_b a b])
  | .lookup_b a b => ([], (q.E2_index.adj b).map (Item.edge_bc a b))
  | .edge_bc a b c => ([], [.lookup_c a b c])
  | .lookup_c a b c => ([], (q.E3_index.adj c).map (Item.edge_cd a b c))
  | .edge_cd a b c d => ([], [.lookup_d a b c d])
  | .lookup_d a b c d => ([], (q.E4_index.adj d).map (Item.edge_da a b c d))
  -- check if the a's match
  | .edge_da a b c d aprime => (if aprime = a then [⟨q.core d, (a, b, c, d)⟩] else [], [])

/-- `SquareQuery::execute`, with the event of the forall. -/
def execute : Transition.System (TaskPool.State Item Found) ℕ :=
  TaskPool.Program.system ⟨q.exec⟩ ((List.range q.E1_index.nv).map Item.scan)

/-- The squares that a core has counted. -/
def counted (s : TaskPool.State Item Found) (c : ℕ) : List Square :=
  (s.log.filter fun f => f.core = c).map Found.square

/-- `results_count` of a core. -/
def results_count (s : TaskPool.State Item Found) (c : ℕ) : ℕ := (counted s c).length

/-! ### What a task finds -/

def at_d (a b c d : ℕ) : List Square :=
  (q.E4_index.adj d).flatMap fun aprime => if aprime = a then [(a, b, c, d)] else []

def at_c (a b c : ℕ) : List Square := (q.E3_index.adj c).flatMap (q.at_d a b c)

def at_b (a b : ℕ) : List Square := (q.E2_index.adj b).flatMap (q.at_c a b)

def at_a (a : ℕ) : List Square := (q.E1_index.adj a).flatMap (q.at_b a)

def Item.squares : Item → List Square
  | .scan a => q.at_a a
  | .edge_ab a b => q.at_b a b
  | .lookup_b a b => q.at_b a b
  | .edge_bc a b c => q.at_c a b c
  | .lookup_c a b c => q.at_c a b c
  | .edge_cd a b c d => q.at_d a b c d
  | .lookup_d a b c d => q.at_d a b c d
  | .edge_da a b c d aprime => if aprime = a then [(a, b, c, d)] else []

/-- How many tasks there will be of a task. -/
def Item.size : Item → ℕ
  | .scan a => ((q.E1_index.adj a).map fun b => ((q.E2_index.adj b).map fun c =>
      ((q.E3_index.adj c).map fun d => (q.E4_index.adj d).length + 2).sum + 2).sum + 2).sum + 1
  | .edge_ab _ b => ((q.E2_index.adj b).map fun c =>
      ((q.E3_index.adj c).map fun d => (q.E4_index.adj d).length + 2).sum + 2).sum + 2
  | .lookup_b _ b => ((q.E2_index.adj b).map fun c =>
      ((q.E3_index.adj c).map fun d => (q.E4_index.adj d).length + 2).sum + 2).sum + 1
  | .edge_bc _ _ c => ((q.E3_index.adj c).map fun d => (q.E4_index.adj d).length + 2).sum + 2
  | .lookup_c _ _ c => ((q.E3_index.adj c).map fun d => (q.E4_index.adj d).length + 2).sum + 1
  | .edge_cd _ _ _ d => (q.E4_index.adj d).length + 2
  | .lookup_d _ _ _ d => (q.E4_index.adj d).length + 1
  | .edge_da .. => 1

variable {q}

theorem size_lt (item : Item) : ((q.exec item).2.map (Item.size q)).sum < item.size q := by
  cases item <;> simp [exec, Item.size, Function.comp_def]

/-- The squares of a task are those that it counts, and those of the tasks that it spawns. -/
theorem squares_eq (item : Item) : (item.squares q : Multiset Square) =
    ((q.exec item).1.map fun f => ({f.square} : Multiset Square)).sum +
      ((q.exec item).2.map fun i => (i.squares q : Multiset Square)).sum := by
  have hloop : ∀ (l : List ℕ) (f : ℕ → Item),
      ((l.map f).map fun i => (i.squares q : Multiset Square)).sum =
        (l.flatMap fun x => (f x).squares q : List Square) := by
    intro l f
    rw [← sum_map_coe, map_map]
    rfl
  cases item with
  | scan a => rw [exec, hloop, map_nil, sum_nil, zero_add]; rfl
  | lookup_b a b => rw [exec, hloop, map_nil, sum_nil, zero_add]; rfl
  | lookup_c a b c => rw [exec, hloop, map_nil, sum_nil, zero_add]; rfl
  | lookup_d a b c d => rw [exec, hloop, map_nil, sum_nil, zero_add]; rfl
  | edge_ab a b => simp [exec, Item.squares]
  | edge_bc a b c => simp [exec, Item.squares]
  | edge_cd a b c d => simp [exec, Item.squares]
  | edge_da a b c d aprime =>
    simp only [exec, Item.squares]
    split_ifs <;> rfl

/-! ### All squares -/

section relation

variable {R : Finset (ℕ × ℕ)} (h1 : q.E1_index.IsIndex R) (h2 : q.E2_index.IsIndex R)
  (h3 : q.E3_index.IsIndex R) (h4 : q.E4_index.IsIndex R)

theorem mem_at_d {a b c d : ℕ} {s : Square} : s ∈ q.at_d a b c d ↔
    s = (a, b, c, d) ∧ a ∈ q.E4_index.adj d := by
  simp only [at_d, mem_flatMap, mem_ite_nil_right, mem_singleton]
  constructor
  · intro h
    obtain ⟨aprime, hmem, rfl, rfl⟩ := h
    exact ⟨rfl, hmem⟩
  · intro h
    exact ⟨a, h.2, rfl, h.1⟩

theorem mem_at_c {a b c : ℕ} {s : Square} : s ∈ q.at_c a b c ↔
    ∃ d, d ∈ q.E3_index.adj c ∧ s = (a, b, c, d) ∧ a ∈ q.E4_index.adj d := by
  simp [at_c, mem_at_d]

theorem mem_at_b {a b : ℕ} {s : Square} : s ∈ q.at_b a b ↔
    ∃ c ∈ q.E2_index.adj b, ∃ d ∈ q.E3_index.adj c, s = (a, b, c, d) ∧ a ∈ q.E4_index.adj d := by
  simp [at_b, mem_at_c]

theorem mem_at_a {a : ℕ} {s : Square} : s ∈ q.at_a a ↔
    ∃ b ∈ q.E1_index.adj a, ∃ c ∈ q.E2_index.adj b, ∃ d ∈ q.E3_index.adj c,
      s = (a, b, c, d) ∧ a ∈ q.E4_index.adj d := by
  simp [at_a, mem_at_b]

include h1 h2 h3 h4 in
theorem walks_perm : ((List.range q.E1_index.nv).flatMap q.at_a : Multiset Square) =
    (quadruples R).val := by
  apply (Multiset.Nodup.ext ?_ (quadruples R).nodup).mpr
  · rintro ⟨a, b, c, d⟩
    rw [Finset.mem_val, mem_quadruples, Multiset.mem_coe, mem_flatMap]
    simp only [mem_at_a, mem_range, h1.mem_adj, h2.mem_adj, h3.mem_adj, h4.mem_adj]
    constructor
    · intro h
      obtain ⟨a', -, b', hab, c', hbc, d', hcd, heq, hda⟩ := h
      obtain ⟨rfl, rfl, rfl, rfl⟩ : a = a' ∧ b = b' ∧ c = c' ∧ d = d' := by simpa using heq
      exact ⟨hab, hbc, hcd, hda⟩
    · intro h
      exact ⟨a, h1.lt_nv a b h.1, b, h.1, c, h.2.1, d, h.2.2.1, rfl, h.2.2.2⟩
  · rw [Multiset.coe_nodup]
    apply nodup_flatMap_of_tag (fun s => s.1) nodup_range
    · intro a _
      apply nodup_flatMap_of_tag (fun s => s.2.1) (h1.nodup a)
      · intro b _
        apply nodup_flatMap_of_tag (fun s => s.2.2.1) (h2.nodup b)
        · intro c _
          apply nodup_flatMap_of_tag (fun s => s.2.2.2) (h3.nodup c)
          · intro d _
            apply nodup_flatMap_of_tag (fun s => s.1) (h4.nodup d)
            · intro x _
              split_ifs <;> simp
            · intro x s hs
              split_ifs at hs with hx
              · rw [mem_singleton.mp hs, hx]
              · cases hs
          · intro d s hs
            rw [(mem_at_d.mp hs).1]
        · intro c s hs
          obtain ⟨d, -, rfl, -⟩ := mem_at_c.mp hs
          rfl
      · intro b s hs
        obtain ⟨c, -, d, -, rfl, -⟩ := mem_at_b.mp hs
        rfl
    · intro a s hs
      obtain ⟨b, -, c, -, d, -, rfl, -⟩ := mem_at_a.mp hs
      rfl

theorem counted_core {s : TaskPool.State Item Found} (hs : q.execute.Reachable s) :
    ∀ f ∈ s.log, f.core = q.core f.square.2.2.2 := by
  apply System.Reachable.invariant (fun s => ∀ f ∈ s.log, f.core = q.core f.square.2.2.2)
    _ _ hs
  · intro f hf
    cases hf
  · intro s k s' h hstep f hf
    obtain ⟨item, -, -, -, hlog⟩ := TaskPool.Program.next_cases hstep
    rw [hlog, mem_append] at hf
    rcases hf with hf | hf
    · exact h f hf
    · cases item with
      | edge_da a b c d aprime =>
        simp only [exec] at hf
        split_ifs at hf
        · rw [mem_singleton.mp hf]
        · cases hf
      | _ => cases hf

include h1 h2 h3 h4 in
theorem log_squares {s : TaskPool.State Item Found} (hs : q.execute.Reachable s)
    (hpool : s.pool = []) : (s.log.map Found.square : Multiset Square) = (quadruples R).val := by
  have hsum : (s.log.map fun f => ({f.square} : Multiset Square)).sum =
      (s.log.map Found.square : List Square) := by
    have hmap : s.log.map Found.square = s.log.flatMap fun f => [f.square] := map_eq_flatMap
    rw [hmap, ← sum_map_coe]
    rfl
  have hroots : (((range q.E1_index.nv).map Item.scan).map fun i =>
      (i.squares q : Multiset Square)).sum =
        ((range q.E1_index.nv).flatMap q.at_a : List Square) := by
    rw [← sum_map_coe, map_map]
    rfl
  have hcons := @TaskPool.Program.conserved _ _ _ ⟨q.exec⟩ (fun _ => True) _ _ _
    (fun _ _ _ _ => trivial) (fun item _ => squares_eq item) _ (fun _ _ => trivial) _ hs
  rw [hpool, map_nil, sum_nil, add_zero, hsum, hroots] at hcons
  rw [hcons, walks_perm h1 h2 h3 h4]

end relation

theorem counted_perm {s : TaskPool.State Item Found} (hs : q.execute.Reachable s) :
    ((List.range q.cores).flatMap (counted s)).Perm (s.log.map Found.square) := by
  have hlt : ∀ f ∈ s.log, f.core < q.cores := by
    intro f hf
    rw [counted_core hs f hf]
    exact q.core_lt _
  exact flatMap_filter_perm _ nodup_range Found.core Found.square s.log
    fun f hf => mem_range.mpr (hlt f hf)

theorem terminates (q : SquareQuery) : q.execute.Terminates q.execute.init := by
  apply System.terminates_of_measure (fun _ => True)
    (fun s => (s.pool.map (Item.size q)).sum) _ trivial
  intro s k s' _ hstep
  exact ⟨trivial, @TaskPool.Program.next_size _ _ ⟨q.exec⟩ (fun _ => True) _
    (fun item _ => size_lt item) _ _ _ (fun _ _ => trivial) hstep⟩

theorem returns {s : TaskPool.State Item Found} (hstuck : ∀ k, q.execute.next s k = none) :
    s.pool = [] := TaskPool.Program.drains hstuck

end SquareQuery

end Grappa
