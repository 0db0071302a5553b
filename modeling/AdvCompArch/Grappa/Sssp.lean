import AdvCompArch.Grappa.AppGraph
import AdvCompArch.Lib.Subtasks
import AdvCompArch.Lib.Walks
import Mathlib.Algebra.Order.BigOperators.Group.Multiset
import Mathlib.Tactic.Linarith

/-! # Shortest paths on the native graph

    `do_sssp` of `nativegraph/sssp/sssp.cpp`, with exact distances.  Its inner loop over the edges
    of a vertex is a blocking `forall`: it waits for `local_gce` inside a task of the outer `forall`
    that is itself enrolled in `local_gce`.

    So the call comes back only where the outer loop visits no vertex with a distance, which takes
    a root without edges (`sssp_correct_iff`). -/

namespace Grappa

namespace Sssp

open Multiset Phased Function

/-- `std::numeric_limits<double>::max()` -/
def max_dist : ℚ := ((2 ^ 53 - 1) * 2 ^ 971 : ℕ)

/-- `SSSPData`, as far as `do_sssp` uses it. -/
structure VertexData where
  dist : ℚ
  parent : ℤ
  deriving DecidableEq

/-- `v->init(v.nadj)` -/
def VertexData.init (v : VertexData) : VertexData := { v with dist := max_dist }

/-- Where `do_sssp` is. -/
inductive Phase
  | start
  | test
  | round
  deriving DecidableEq

structure State (nv cores : ℕ) where
  vertex : Fin nv → VertexData
  global_complete : Bool
  local_complete : Fin cores → Bool
  /-- What is enrolled in `local_gce`, on all cores together. -/
  incomplete : ℤ
  phase : Phase

/-- The tasks and the delegates of a round. -/
inductive Item (nv : ℕ)
  /-- A piece of the outer loop. -/
  | task (vertices : List (Fin nv))
  /-- The same after the inner loop of a vertex, in `local_gce.wait()`. -/
  | waiting (vertices : List (Fin nv))
  | relax (u vsid : Fin nv) (sum : ℚ)
  deriving DecidableEq

/-- Where the vertices are, and the pieces into which the cores cut the outer loop. -/
structure Layout (g : AppGraph ℚ≥0) (cores : ℕ) where
  core : g.V → Fin cores
  pieces : List (List g.V)
  perm : pieces.flatten.Perm (List.finRange g.nv)

variable {g : AppGraph ℚ≥0} {cores : ℕ} (layout : Layout g cores)

/-- The delegate for an edge, at the vertex where it ends. -/
def relax (s : State g.nv cores) (u vsid : g.V) (sum : ℚ) : State g.nv cores :=
  if sum < (s.vertex u).dist then
    { s with
      vertex := Function.update s.vertex u { dist := sum, parent := vsid.val }
      local_complete := Function.update s.local_complete (layout.core u) false }
  else s

/-- The inner loop, which is not cut into tasks here: a delegate to the own core is called at once, the
    others are enrolled. -/
def visit (vsid : g.V) (dist : ℚ) (s : State g.nv cores) :
    List (g.V × ℚ≥0) → State g.nv cores × List (Item g.nv)
  | [] => (s, [])
  | e :: es =>
    let sum := dist + e.2
    if layout.core e.1 = layout.core vsid then visit vsid dist (relax layout s e.1 vsid sum) es
    else
      let r := visit vsid dist { s with incomplete := s.incomplete + 1 } es
      (r.1, .relax e.1 vsid sum :: r.2)

def Item.exec (s : State g.nv cores) : Item g.nv → Option (State g.nv cores × List (Item g.nv))
  | .task [] => some ({ s with incomplete := s.incomplete - 1 }, [])
  | .task (vsid :: vertices) =>
    if g.valid vsid && (s.vertex vsid).dist ≠ max_dist then
      let r := visit layout vsid (s.vertex vsid).dist { s with incomplete := s.incomplete + 1 } (g.adj vsid)
      some (r.1, .waiting vertices :: r.2)
    else some (s, [.task vertices])
  | .waiting vertices =>
    if s.incomplete = 0 then some ({ s with incomplete := s.incomplete - 1 }, [.task vertices]) else none
  | .relax u vsid sum =>
    let s := Sssp.relax layout s u vsid sum
    some ({ s with incomplete := s.incomplete - 1 }, [])

/-- `do_sssp` between its loops. -/
def State.advance (root : g.V) (s : State g.nv cores) : Option (State g.nv cores × List (Item g.nv)) :=
  match s.phase with
  | .start =>
    let initialized : g.V → VertexData :=
      fun v => if g.valid v then (s.vertex v).init else s.vertex v
    some ({ s with
      vertex := Function.update initialized root { dist := 0, parent := root.val }, phase := .test }, [])
  | .test =>
    if s.global_complete then none
    else
      some ({ s with
        global_complete := true, local_complete := fun _ => true,
        incomplete := s.incomplete + layout.pieces.length, phase := .round },
        layout.pieces.map .task)
  | .round => some ({ s with global_complete := decide (∀ c, s.local_complete c = true), phase := .test }, [])

def do_sssp (root : g.V) : Phased.Program (State g.nv cores) (Item g.nv) where
  exec := fun s x => x.exec layout s
  advance := fun s => s.advance layout root

/-- The first call, with what the memory of the vertices holds. -/
def first_call (memory : g.V → VertexData) (local_complete : Fin cores → Bool) : State g.nv cores :=
  ⟨memory, false, local_complete, 0, .start⟩

variable (g) in
/-- The edges with their weights. -/
def edge (u v : g.V) (w : ℚ) : Prop := ∃ e, (v, e) ∈ g.adj u ∧ w = e

/-- Every run of the first call comes to an end where it returns, with shortest distances and with
    parents that the distances are reached by. -/
def Correct (root : g.V) (s : State g.nv cores) : Prop :=
  ((do_sssp layout root).system s).Terminates ⟨s, []⟩ ∧
    ∀ t, ((do_sssp layout root).system s).Reachable t →
      (∀ l, (do_sssp layout root).next t l = none) →
      (do_sssp layout root).Ended t ∧
      (∀ v, Walks.Shortest (edge g) root max_dist v (t.shared.vertex v).dist) ∧
      ∀ v ≠ root, (∃ d, Walks.Walk (edge g) root v d) →
        ∃ u w, edge g u v w ∧ (t.shared.vertex v).parent = u.val ∧
          (t.shared.vertex v).dist = (t.shared.vertex u).dist + w

variable {layout} {root : g.V} {s s' : State g.nv cores} {rest : Multiset (Item g.nv)} {x : Item g.nv}
  {memory : g.V → VertexData}

/-! ### The loops -/

theorem max_dist_pos : 0 < max_dist :=
  Nat.cast_pos.mpr (mul_pos (by decide) (Nat.pow_pos (by decide)))

variable (layout) in
theorem relax_dist_le (s : State g.nv cores) (u vsid : g.V) (sum : ℚ) (v : g.V) :
    ((relax layout s u vsid sum).vertex v).dist ≤ (s.vertex v).dist := by
  unfold relax
  split
  · rename_i hlt
    show (update s.vertex u _ v).dist ≤ _
    by_cases hvu : v = u
    · subst hvu
      rw [update_self]
      exact hlt.le
    · rw [update_of_ne hvu]
  · exact le_rfl

variable (layout) in
theorem relax_frame (s : State g.nv cores) (u vsid : g.V) (sum : ℚ) :
    (relax layout s u vsid sum).incomplete = s.incomplete ∧
      (relax layout s u vsid sum).phase = s.phase := by
  unfold relax
  split <;> exact ⟨rfl, rfl⟩

variable (layout) in
theorem visit_spec (vsid : g.V) (dist : ℚ) (es : List (g.V × ℚ≥0)) (s : State g.nv cores) :
    (visit layout vsid dist s es).1.incomplete = s.incomplete + (visit layout vsid dist s es).2.length ∧
      (visit layout vsid dist s es).1.phase = s.phase ∧
      (∀ v, ((visit layout vsid dist s es).1.vertex v).dist ≤ (s.vertex v).dist) ∧
      ∀ x ∈ (visit layout vsid dist s es).2, ∃ u sum, x = .relax u vsid sum := by
  induction es generalizing s with
  | nil => simp [visit]
  | cons e es ih =>
    unfold visit
    split
    · obtain ⟨hinc, hphase, hdist, hitems⟩ := ih (relax layout s e.1 vsid (dist + e.2))
      obtain ⟨hinc', hphase'⟩ := relax_frame layout s e.1 vsid (dist + e.2)
      exact ⟨by rw [hinc, hinc'], by rw [hphase, hphase'],
        fun v => le_trans (hdist v) (relax_dist_le layout s e.1 vsid _ v), hitems⟩
    · obtain ⟨hinc, hphase, hdist, hitems⟩ := ih { s with incomplete := s.incomplete + 1 }
      refine ⟨?_, hphase, hdist, ?_⟩
      · simp only [hinc, List.length_cons, Nat.cast_add, Nat.cast_one]
        omega
      · intro x hx
        rcases List.mem_cons.mp hx with rfl | hx
        · exact ⟨e.1, dist + e.2, rfl⟩
        · exact hitems x hx

/-! ### A root with edges

    The task that comes to the root waits for what it is enrolled in. -/

/-- What an item has enrolled. -/
def units : Item g.nv → ℤ
  | .task _ => 1
  | .waiting _ => 2
  | .relax _ _ _ => 1

/-- The root is still to be visited, or a task is waiting after a visit. -/
structure Held (root : g.V) (s : State g.nv cores) (pool : Multiset (Item g.nv)) : Prop where
  incomplete : s.incomplete = (pool.map units).sum
  idle : s.phase ≠ .round → pool = 0
  complete : s.phase ≠ .round → s.global_complete = false
  dist : s.phase ≠ .start → (s.vertex root).dist ≤ 0
  held : s.phase = .round →
    (∃ vertices, .task vertices ∈ pool ∧ root ∈ vertices) ∨ ∃ vertices, .waiting vertices ∈ pool

theorem units_nonneg (pool : Multiset (Item g.nv)) : 0 ≤ (pool.map units).sum := by
  refine sum_nonneg fun n hn => ?_
  obtain ⟨x, _, rfl⟩ := mem_map.mp hn
  cases x <;> simp [units]

theorem units_relax {l : List (Item g.nv)} (h : ∀ x ∈ l, ∃ u vsid sum, x = .relax u vsid sum) :
    (l.map units).sum = l.length := by
  induction l with
  | nil => rfl
  | cons x l ih =>
    obtain ⟨u, vsid, sum, rfl⟩ := h x List.mem_cons_self
    simp only [List.map_cons, List.sum_cons, units, List.length_cons, Nat.cast_add, Nat.cast_one]
    rw [ih fun y hy => h y (List.mem_cons_of_mem _ hy)]
    omega

theorem units_add (rest : Multiset (Item g.nv)) (new : List (Item g.nv)) :
    ((rest + (new : Multiset (Item g.nv))).map units).sum = (rest.map units).sum + (new.map units).sum := by
  rw [map_add, sum_add, map_coe, sum_coe]

theorem Held.stays {new : List (Item g.nv)} (h : Held root s (x ::ₘ rest))
    (htask : ∀ vertices, x = .task vertices → root ∉ vertices) (hwait : ∀ vertices, x ≠ .waiting vertices)
    (hround : s.phase = .round) :
    (∃ vertices, .task vertices ∈ rest + (new : Multiset (Item g.nv)) ∧ root ∈ vertices) ∨
      ∃ vertices, .waiting vertices ∈ rest + (new : Multiset (Item g.nv)) := by
  rcases h.held hround with ⟨vertices, hmem, hin⟩ | ⟨vertices, hmem⟩
  · rcases mem_cons.mp hmem with heq | hmem
    · exact absurd hin (htask vertices heq.symm)
    · exact .inl ⟨vertices, mem_add.mpr (.inl hmem), hin⟩
  · rcases mem_cons.mp hmem with heq | hmem
    · exact absurd heq.symm (hwait vertices)
    · exact .inr ⟨vertices, mem_add.mpr (.inl hmem)⟩

theorem Held.exec (hroot : g.valid root = true) {new : List (Item g.nv)}
    (h : Held root s (x ::ₘ rest)) (hx : x.exec layout s = some (s', new)) :
    Held root s' (rest + new) := by
  have hround : s.phase = .round := by
    by_contra hne
    exact cons_ne_zero (h.idle hne)
  have hinc := h.incomplete
  have hrest := units_nonneg rest
  have hdist := h.dist (by rw [hround]; decide)
  rw [map_cons, sum_cons] at hinc
  cases x with
  | task vertices =>
    cases vertices with
    | nil =>
      cases hx
      refine ⟨?_, fun hne => absurd hround hne, fun hne => absurd hround hne, fun _ => hdist, fun _ => ?_⟩
      · rw [units_add]
        simp only [units] at hinc
        simp only [List.map_nil, List.sum_nil]
        omega
      · refine h.stays ?_ (by simp) hround
        rintro vertices ⟨⟩
        exact List.not_mem_nil
    | cons vsid vertices =>
      simp only [Item.exec] at hx
      split at hx
      · -- the task goes through the edges of the vertex, and waits
        cases hx
        obtain ⟨hinc', hphase', hdist', hitems⟩ := visit_spec layout vsid
          (s.vertex vsid).dist (g.adj vsid) { s with incomplete := s.incomplete + 1 }
        have hunits := units_relax fun x hx => (hitems x hx).imp fun u ⟨sum, h⟩ => ⟨vsid, sum, h⟩
        have hround' := hphase'.trans hround
        refine ⟨?_, fun hne => absurd hround' hne, fun hne => absurd hround' hne,
          fun _ => le_trans (hdist' root) hdist, fun _ => .inr ⟨vertices, ?_⟩⟩
        · rw [units_add, List.map_cons, List.sum_cons, hunits, hinc']
          simp only [units] at hinc ⊢
          omega
        · exact mem_add.mpr (.inr (mem_coe.mpr List.mem_cons_self))
      · rename_i hno
        cases hx
        refine ⟨?_, fun hne => absurd hround hne, fun hne => absurd hround hne, fun _ => hdist, fun _ => ?_⟩
        · rw [units_add]
          simp only [units, List.map_cons, List.map_nil, List.sum_cons, List.sum_nil] at hinc ⊢
          omega
        · by_cases hin : root ∈ vsid :: vertices
          · refine .inl ⟨vertices, mem_add.mpr (.inr (mem_coe.mpr
              (List.mem_singleton_self _))), ?_⟩
            rcases List.mem_cons.mp hin with heq | hin
            · -- the root is visited, since it has a distance
              refine absurd ?_ hno
              rw [← heq, hroot, Bool.true_and, decide_eq_true_eq]
              exact (lt_of_le_of_lt hdist max_dist_pos).ne
            · exact hin
          · refine h.stays ?_ (by simp) hround
            rintro vertices' ⟨⟩
            exact hin
  | waiting vertices =>
    simp only [Item.exec] at hx
    split at hx
    · simp only [units] at hinc
      omega
    · cases hx
  | relax u vsid sum =>
    cases hx
    obtain ⟨hinc', hphase'⟩ := relax_frame layout s u vsid sum
    have hround' := hphase'.trans hround
    refine ⟨?_, fun hne => absurd hround' hne, fun hne => absurd hround' hne,
      fun _ => le_trans (relax_dist_le layout s u vsid sum root) hdist, fun _ => ?_⟩
    · rw [units_add]
      simp only [units] at hinc
      simp only [List.map_nil, List.sum_nil, hinc']
      omega
    · exact h.stays (by simp) (by simp) hround

theorem Held.advance {new : List (Item g.nv)} (h : Held root s 0)
    (hadv : s.advance layout root = some (s', new)) : Held root s' new := by
  have hinc : s.incomplete = 0 := by simpa using h.incomplete
  unfold State.advance at hadv
  split at hadv <;> rename_i hp
  · cases hadv
    refine ⟨by simpa using hinc, fun _ => rfl, fun _ => h.complete (by rw [hp]; decide), fun _ => ?_,
      fun hno => (by cases hno)⟩
    simp
  · split at hadv
    · cases hadv
    · cases hadv
      refine ⟨?_, fun hno => absurd rfl hno, fun hno => absurd rfl hno,
        fun _ => h.dist (by rw [hp]; decide), fun _ => .inl ?_⟩
      · have hmap : layout.pieces.map (units ∘ Item.task) = layout.pieces.map fun _ => 1 := rfl
        rw [map_coe, List.map_map, sum_coe, hmap]
        simp [hinc]
      · have hin : root ∈ layout.pieces.flatten := layout.perm.mem_iff.mpr (List.mem_finRange root)
        obtain ⟨vertices, hmem, hin⟩ := List.mem_flatten.mp hin
        exact ⟨vertices, List.mem_map_of_mem hmem, hin⟩
  · rcases h.held hp with ⟨vertices, hmem, _⟩ | ⟨vertices, hmem⟩
    · cases hmem
    · cases hmem

theorem not_ended (hroot : g.valid root = true) {local_complete : Fin cores → Bool}
    {t : Phased.State (State g.nv cores) (Item g.nv)}
    (ht : ((do_sssp layout root).system (first_call memory local_complete)).Reachable t) :
    ¬(do_sssp layout root).Ended t := by
  have hheld : Held root t.shared (t.pool : Multiset (Item g.nv)) := by
    refine Program.Reachable.inv (Held root) ?_ ?_ ?_ ht
    · exact ⟨rfl, fun _ => rfl, fun _ => rfl, fun hno => absurd rfl hno, fun hno => (by cases hno)⟩
    · exact fun s x rest s' new h hx => h.exec hroot hx
    · exact fun s s' new h hadv => h.advance hadv
  rintro ⟨hpool, hret⟩
  rw [hpool] at hheld
  change t.shared.advance layout root = none at hret
  unfold State.advance at hret
  split at hret <;> rename_i hp
  · cases hret
  · rw [hheld.complete (by rw [hp]; decide)] at hret
    cases hret
  · cases hret

/-! ### A root without edges

    No vertex is visited, and the first round is the last one. -/

/-- No distance is found. -/
structure Quiet (root : g.V) (memory : g.V → VertexData) (s : State g.nv cores)
    (pool : Multiset (Item g.nv)) : Prop where
  items : ∀ x ∈ pool, ∃ vertices, x = .task vertices
  valid : s.phase ≠ .start → ∀ v, g.valid v = true → (s.vertex v).dist = max_dist
  memory : ∀ v, g.valid v = false → v ≠ root → (s.vertex v).dist = (memory v).dist
  root : s.phase ≠ .start → (s.vertex root).dist = 0
  complete : s.phase = .round → s.global_complete = true ∧ ∀ c, s.local_complete c = true

def rank (s : State g.nv cores) : ℕ :=
  match s.phase with
  | .start => 3
  | .test => if s.global_complete then 0 else 2
  | .round => 1

/-- The vertices that a task has left. -/
def Item.left : Item g.nv → ℕ
  | .task vertices => vertices.length
  | _ => 0

theorem Quiet.exec {new : List (Item g.nv)} (h : Quiet root memory s (x ::ₘ rest))
    (hphase : s.phase ≠ .start) (hx : x.exec layout s = some (s', new)) :
    Quiet root memory s' (rest + new) ∧ s'.phase = s.phase ∧
      rank s' = rank s ∧ ∀ y ∈ new, y.left < x.left := by
  obtain ⟨vertices, rfl⟩ := h.items _ (mem_cons_self _ _)
  have hrest : ∀ x ∈ rest, ∃ vertices, x = .task vertices :=
    fun x hx => h.items x (mem_cons_of_mem hx)
  cases vertices with
  | nil =>
    cases hx
    refine ⟨⟨fun x hx => ?_, h.valid, h.memory, h.root, h.complete⟩, rfl, rfl, by simp⟩
    exact hrest x (by simpa using hx)
  | cons v vertices =>
    simp only [Item.exec] at hx
    split at hx
    · -- no valid vertex has a distance
      rename_i hvisit
      obtain ⟨hv, hne⟩ := Bool.and_eq_true_iff.mp hvisit
      exact absurd (h.valid hphase v hv) (of_decide_eq_true hne)
    · cases hx
      refine ⟨⟨fun x hx => ?_, h.valid, h.memory, h.root, h.complete⟩, rfl, rfl,
        by simp [Item.left]⟩
      rcases mem_add.mp hx with hx | hx
      · exact hrest x hx
      · exact ⟨vertices, List.mem_singleton.mp hx⟩

theorem Quiet.advance (hroot : g.valid root = false) {new : List (Item g.nv)}
    (h : Quiet root memory s 0) (hadv : s.advance layout root = some (s', new)) :
    Quiet root memory s' new ∧ (s'.phase = .start → new = []) ∧ rank s' < rank s := by
  unfold State.advance at hadv
  split at hadv <;> rename_i hp
  · cases hadv
    refine ⟨⟨by simp, fun _ v hv => ?_, fun v hv hne => ?_, fun _ => by simp,
      fun hno => (by cases hno)⟩, fun hno => (by cases hno), ?_⟩
    · have hne : v ≠ root := by
        rintro rfl
        rw [hroot] at hv
        cases hv
      simp [hne, hv, VertexData.init]
    · simp only [update_of_ne hne, hv]
      exact h.memory v hv hne
    · unfold rank
      rw [hp]
      simp only
      split <;> omega
  · split at hadv
    · cases hadv
    · rename_i hno
      have hphase : s.phase ≠ .start := by rw [hp]; decide
      cases hadv
      refine ⟨⟨fun x hx => ?_, fun _ => h.valid hphase, h.memory, fun _ => h.root hphase,
        fun _ => ⟨rfl, fun _ => rfl⟩⟩, fun hno => (by cases hno), ?_⟩
      · obtain ⟨vertices, _, rfl⟩ := List.mem_map.mp hx
        exact ⟨vertices, rfl⟩
      · unfold rank
        rw [hp]
        simp [hno]
  · obtain ⟨_, hlocal⟩ := h.complete hp
    have hphase : s.phase ≠ .start := by rw [hp]; decide
    cases hadv
    refine ⟨⟨by simp, fun _ => h.valid hphase, h.memory, fun _ => h.root hphase,
      fun hno => (by cases hno)⟩, fun hno => (by cases hno), ?_⟩
    unfold rank
    rw [hp]
    simp [hlocal]

/-- An isolated root is reached by nothing and reaches nothing. -/
theorem walk_isolated (hroot : g.valid root = false) {v : g.V} {d : ℚ}
    (h : Walks.Walk (edge g) root v d) : v = root ∧ d = 0 := by
  induction h with
  | nil => exact ⟨rfl, rfl⟩
  | snoc _ hedge ih =>
    obtain ⟨e, he, _⟩ := hedge
    rw [ih.1] at he
    have hvalid := (g.valid_of_adj _ _ he).1
    rw [hroot] at hvalid
    cases hvalid

variable (layout memory) in
/-- **With a root that has no edges** the call returns, with the distances that were there. -/
theorem quiet_run (local_complete : Fin cores → Bool) (hroot : g.valid root = false) :
    ((do_sssp layout root).system (first_call memory local_complete)).Terminates
        ⟨first_call memory local_complete, []⟩ ∧
      ∀ t, ((do_sssp layout root).system (first_call memory local_complete)).Reachable t →
        (∀ l, (do_sssp layout root).next t l = none) → (do_sssp layout root).Ended t ∧
          (t.shared.vertex root).dist = 0 ∧
          (∀ v, g.valid v = true → (t.shared.vertex v).dist = max_dist) ∧
          ∀ v, g.valid v = false → v ≠ root → (t.shared.vertex v).dist = (memory v).dist := by
  let Inv : State g.nv cores → Multiset (Item g.nv) → Prop := fun s pool =>
    Quiet root memory s pool ∧ (s.phase = .start → pool = 0)
  have hinit : Inv (first_call memory local_complete) 0 :=
    ⟨⟨by simp, fun hno => absurd rfl hno, fun _ _ _ => rfl, fun hno => absurd rfl hno,
      fun hno => (by cases hno)⟩, fun _ => rfl⟩
  have hexec : ∀ s x rest s' (new : List (Item g.nv)), Inv s (x ::ₘ rest) →
      (do_sssp layout root).exec s x = some (s', new) →
      Inv s' (rest + new) ∧ (rank s' < rank s ∨ rank s' = rank s ∧ ∀ y ∈ new, y.left < x.left) := by
    intro s x rest s' new h hx
    have hphase : s.phase ≠ .start := fun hp => cons_ne_zero (h.2 hp)
    obtain ⟨hquiet, hsame, hlesser⟩ := h.1.exec hphase hx
    exact ⟨⟨hquiet, fun hp => absurd (hsame.symm.trans hp) hphase⟩, .inr hlesser⟩
  have hadvance : ∀ s s' (new : List (Item g.nv)), Inv s 0 →
      (do_sssp layout root).advance s = some (s', new) → Inv s' new ∧ rank s' < rank s := by
    intro s s' new h hadv
    obtain ⟨hquiet, hstart, hlt⟩ := h.1.advance hroot hadv
    exact ⟨⟨hquiet, fun hp => by rw [hstart hp]; rfl⟩, hlt⟩
  refine ⟨Program.terminates_of_rank Inv Item.left (fun s _ => rank s) hinit hexec hadvance,
    fun t ht hstuck => ?_⟩
  have hinv : Inv t.shared t.pool := Program.Reachable.inv Inv hinit
    (fun s x rest s' new h hx => (hexec s x rest s' new h hx).1)
    (fun s s' new h hadv => (hadvance s s' new h hadv).1) ht
  have hended : (do_sssp layout root).Ended t := by
    refine Program.ended_of_stuck (fun x hx => ?_) hstuck
    obtain ⟨vertices, rfl⟩ := hinv.1.items x (mem_coe.mpr hx)
    cases vertices with
    | nil => simp [do_sssp, Item.exec]
    | cons v vertices =>
      simp only [do_sssp, Item.exec]
      split <;> simp
  have hphase : t.shared.phase ≠ .start := by
    intro hp
    have hret := hended.2
    change t.shared.advance layout root = none at hret
    unfold State.advance at hret
    rw [hp] at hret
    cases hret
  exact ⟨hended, hinv.1.root hphase, hinv.1.valid hphase, hinv.1.memory⟩

/-! ### Results -/

/-- **Exactly when the first call is right**: the root has no edges, and the other vertices without
    edges hold the maximum already. -/
theorem sssp_correct_iff (layout : Layout g cores) (root : g.V) (memory : g.V → VertexData)
    (local_complete : Fin cores → Bool) :
    Correct layout root (first_call memory local_complete) ↔
      g.valid root = false ∧ ∀ v, g.valid v = false → v ≠ root → (memory v).dist = max_dist := by
  constructor
  · rintro ⟨hterm, hall⟩
    obtain ⟨ls, t, hrun, hstuck⟩ := hterm.exists_end
    obtain ⟨hended, hshort, _⟩ := hall t ⟨ls, hrun⟩ hstuck
    have hroot : g.valid root = false := by
      by_contra hroot
      exact not_ended (by simpa using hroot) ⟨ls, hrun⟩ hended
    refine ⟨hroot, fun v hv hne => ?_⟩
    obtain ⟨_, _, _, hmemory⟩ := (quiet_run layout memory local_complete hroot).2 t ⟨ls, hrun⟩ hstuck
    rw [← hmemory v hv hne]
    exact (hshort v).2 fun ⟨d, hd⟩ => hne (walk_isolated hroot hd).1
  · rintro ⟨hroot, hmemory⟩
    obtain ⟨hterm, hall⟩ := quiet_run layout memory local_complete hroot
    refine ⟨hterm, fun t ht hstuck => ?_⟩
    obtain ⟨hended, hzero, hvalid, hinvalid⟩ := hall t ht hstuck
    refine ⟨hended, fun v => ⟨?_, fun hno => ?_⟩, fun v hne hwalk => ?_⟩
    · rintro ⟨d, hd⟩
      obtain ⟨rfl, _⟩ := walk_isolated hroot hd
      rw [hzero]
      exact ⟨.nil, fun d' hd' => (walk_isolated hroot hd').2.ge⟩
    · have hne : v ≠ root := by
        rintro rfl
        exact hno ⟨0, .nil⟩
      by_cases hv : g.valid v = true
      · exact hvalid v hv
      · have hv' : g.valid v = false := by simpa using hv
        rw [hinvalid v hv' hne, hmemory v hv' hne]
    · obtain ⟨d, hd⟩ := hwalk
      exact absurd (walk_isolated hroot hd).1 hne

variable (g) in
/-- One core, and the outer loop in one piece. -/
def Layout.one_core : Layout g 1 := ⟨fun _ => Fin.last 0, [List.finRange g.nv], by simp⟩

/-- Two neighbours. -/
def two_neighbours : AppGraph ℚ≥0 :=
  .ofEdges 2 AppGraph.two_lt
    [(⟨0, Nat.two_pos⟩, ⟨1, Nat.one_lt_two⟩, 1), (⟨1, Nat.one_lt_two⟩, ⟨0, Nat.two_pos⟩, 1)]

/-- **The inner loop waits for its own task**: with two neighbours and one core the first call does
    not return. -/
theorem sssp_blocks :
    ¬Correct (Layout.one_core two_neighbours) (0 : Fin 2)
      (first_call (fun _ => ⟨0, 0⟩) fun _ => false) := by
  rintro ⟨hterm, hall⟩
  obtain ⟨ls, t, hrun, hstuck⟩ := hterm.exists_end
  have hroot : two_neighbours.valid (0 : Fin 2) = true := rfl
  exact not_ended hroot ⟨ls, hrun⟩ (hall t ⟨ls, hrun⟩ hstuck).1

end Sssp

end Grappa
