import AdvCompArch.Grappa.Addressing
import AdvCompArch.Grappa.LoopDecomposition
import AdvCompArch.Lib.TaskPool

/-! # What a decomposed loop executes

    The tasks of one `loop_decomposition` form a pool that is worked off in any order, with a
    spawned half possibly stolen by another core.  Whatever the order, the leaves are the
    iteration range cut in pieces, and every enrollment is followed by a completion sent to
    the core that enrolled (`loop_decomposition_partition`).

    The starts of the spawned halves are cut to 48 bits, so the pieces are known modulo `2^48`
    only, and exactly where the range fits those fields. -/

namespace Grappa

open List

open List (map_cons map_id map_nil mem_cons mem_singleton sum_cons sum_nil)

/-- What the tasks of a loop do: enroll with the completion event on a core, call
    `loop_body(start, iterations)`, send a completion to a core. -/
inductive LoopEvent where
  | enroll (core : Core)
  | body (start iterations : ℤ)
  | complete (target : Core)
  deriving DecidableEq

/-- A task of the loop at its current call: the core it runs on and, for a spawned task, the core
    that the completion goes to at its end. -/
structure LoopTask where
  loop : Loop
  mycore : Core
  origin : Option Core
  deriving DecidableEq

/-- The parameters of one loop. -/
structure Decomposition where
  threshold : LoopThreshold
  /-- Whether a completion event is given. -/
  C : Bool
  /-- The core on which a spawned half comes to run: any core for tasks that can be stolen. -/
  place : Loop → Core

namespace Decomposition

variable (d : Decomposition)

/-- What ends a task. -/
def completion (origin : Option Core) : List LoopEvent :=
  if d.C then (origin.map LoopEvent.complete).toList else []

/-- One call of `loop_decomposition`. -/
def exec (task : LoopTask) : List LoopEvent × List LoopTask :=
  match loop_decomposition d.threshold task.loop with
  | .done => (d.completion task.origin, [])
  | .leaf s n => (.body s n :: d.completion task.origin, [])
  | .split right left =>
    (if d.C then [.enroll task.mycore] else [],
      [⟨right, d.place right, some task.mycore⟩, ⟨left, task.mycore, task.origin⟩])

/-- `loop_decomposition(start, iterations, loop_body)`, called on core `mycore`. -/
def system (start iterations : ℤ) (mycore : Core) :
    Transition.System (TaskPool.State LoopTask LoopEvent) ℕ :=
  TaskPool.Program.system ⟨d.exec⟩ [⟨⟨start, iterations⟩, mycore, none⟩]

end Decomposition

/-- The iterations of a range. -/
def Loop.range (l : Loop) : List ℤ := (List.range l.iterations.toNat).map fun j : ℕ => l.start + j

/-- The ranges handed to the body. -/
def leaves (log : List LoopEvent) : List Loop :=
  log.filterMap fun e => match e with
    | .body s n => some ⟨s, n⟩
    | _ => none

/-- What a loop over `l` is to have executed at its end. -/
structure Partitioned (t : LoopThreshold) (l : Loop) (log : List LoopEvent) : Prop where
  sizes : ∀ leaf ∈ leaves log, 1 ≤ leaf.iterations ∧ leaf.iterations ≤ t.effective
  modulo : (((leaves log).flatMap Loop.range).map bits48).Perm (l.range.map bits48)
  exact_range : (-2 ^ 47 ≤ l.start ∧ l.start + l.iterations ≤ 2 ^ 47) ∨ l.iterations ≤ t.effective →
    ((leaves log).flatMap Loop.range).Perm l.range
  balanced : ∀ c, log.count (.enroll c) = log.count (.complete c)

/-- One call, whatever the start: nothing, a leaf, or two halves that both have iterations; the
    start of the right one is cut to its field. -/
theorem loop_decomposition_any_start {t : LoopThreshold} (ht : 1 ≤ t.effective) {l : Loop}
    (h0 : 0 ≤ l.iterations) (hmax : l.iterations < 2 ^ 47) :
    (l.iterations = 0 ∧ loop_decomposition t l = .done) ∨
    ((1 ≤ l.iterations ∧ l.iterations ≤ t.effective) ∧
      loop_decomposition t l = .leaf l.start l.iterations) ∨
    (∃ a b : ℤ, (1 ≤ a ∧ 1 ≤ b ∧ l.iterations = a + b) ∧ t.effective < l.iterations ∧
      loop_decomposition t l = .split ⟨bits48 (l.start + a), b⟩ ⟨l.start, a⟩) := by
  by_cases hz : l.iterations = 0
  · exact .inl ⟨hz, by simp [loop_decomposition, hz]⟩
  have hleaf : ((t.Threshold = USE_LOOP_THRESHOLD_FLAG ∧ l.iterations ≤ t.FLAGS_loop_threshold) ∨
      l.iterations ≤ t.Threshold) ↔ l.iterations ≤ t.effective := by
    unfold LoopThreshold.effective USE_LOOP_THRESHOLD_FLAG
    split_ifs with hflag
    · rw [hflag]
      constructor
      · intro h
        rcases h with h | h
        · exact h.2
        · omega
      · intro h
        exact .inl ⟨rfl, h⟩
    · simp [hflag]
  by_cases hle : l.iterations ≤ t.effective
  · refine .inr (.inl ⟨⟨by omega, hle⟩, ?_⟩)
    unfold loop_decomposition
    rw [if_neg hz, if_pos (hleaf.mpr hle)]
  · have hdiv1 : (l.iterations + 1).tdiv 2 = (l.iterations + 1) / 2 :=
      Int.tdiv_eq_ediv_of_nonneg (by omega)
    have hdiv2 : l.iterations.tdiv 2 = l.iterations / 2 := Int.tdiv_eq_ediv_of_nonneg h0
    have hi : bits48 (l.iterations / 2) = l.iterations / 2 := bits48_of_lt (by omega) (by omega)
    refine .inr (.inr ⟨(l.iterations + 1) / 2, l.iterations / 2, ⟨by omega, by omega, by omega⟩,
      by omega, ?_⟩)
    unfold loop_decomposition
    rw [if_neg hz, if_neg (fun h => hle (hleaf.mp h))]
    simp only [hdiv1, hdiv2, hi]

namespace Decomposition

variable {d : Decomposition}

/-- The tasks that can come up. -/
def Ok (task : LoopTask) : Prop := 0 ≤ task.loop.iterations ∧ task.loop.iterations < 2 ^ 47

theorem exec_cases (ht : 1 ≤ d.threshold.effective) {task : LoopTask} (hok : Ok task) :
    (task.loop.iterations = 0 ∧ d.exec task = (d.completion task.origin, [])) ∨
    ((1 ≤ task.loop.iterations ∧ task.loop.iterations ≤ d.threshold.effective) ∧
      d.exec task =
        (.body task.loop.start task.loop.iterations :: d.completion task.origin, [])) ∨
    (∃ a b : ℤ, (1 ≤ a ∧ 1 ≤ b ∧ task.loop.iterations = a + b) ∧
      d.threshold.effective < task.loop.iterations ∧
      d.exec task = (if d.C then [.enroll task.mycore] else [],
        [⟨⟨bits48 (task.loop.start + a), b⟩, d.place ⟨bits48 (task.loop.start + a), b⟩,
            some task.mycore⟩,
          ⟨⟨task.loop.start, a⟩, task.mycore, task.origin⟩])) := by
  rcases loop_decomposition_any_start ht hok.1 hok.2 with
    ⟨hz, hx⟩ | ⟨hsize, hx⟩ | ⟨a, b, hab, hlt, hx⟩
  · exact .inl ⟨hz, by simp only [exec, hx]⟩
  · exact .inr (.inl ⟨hsize, by simp only [exec, hx]⟩)
  · exact .inr (.inr ⟨a, b, hab, hlt, by simp only [exec, hx]⟩)

/-! ### What is conserved -/

/-- The iterations of a range, seen through `f`. -/
def positions (f : ℤ → ℤ) (l : Loop) : Multiset ℤ := (l.range.map f : List ℤ)

/-- The two halves together are the range, if `f` does not see the cut to 48 bits. -/
theorem positions_halves {f : ℤ → ℤ} {start a b : ℤ} (ha : 0 ≤ a) (hb : 0 ≤ b)
    (hf : ∀ j : ℤ, 0 ≤ j → j < b → f (bits48 (start + a) + j) = f (start + a + j)) :
    positions f ⟨start, a + b⟩ =
      positions f ⟨bits48 (start + a), b⟩ + positions f ⟨start, a⟩ := by
  obtain ⟨m, rfl⟩ : ∃ m : ℕ, a = m := ⟨a.toNat, by omega⟩
  obtain ⟨n, rfl⟩ : ∃ n : ℕ, b = n := ⟨b.toNat, by omega⟩
  unfold positions Loop.range
  rw [← Nat.cast_add, Int.toNat_natCast, Int.toNat_natCast, Int.toNat_natCast, range_add]
  simp only [map_append, map_map]
  rw [← Multiset.coe_add, add_comm]
  congr 2
  apply map_congr_left
  intro j hj
  have hj := mem_range.mp hj
  simp only [Function.comp_apply]
  rw [hf j (by omega) (by omega), Nat.cast_add, add_assoc]

/-- The iterations that an event executes. -/
def executed (f : ℤ → ℤ) : LoopEvent → Multiset ℤ
  | .body s n => positions f ⟨s, n⟩
  | _ => 0

theorem sum_executed (f : ℤ → ℤ) (log : List LoopEvent) :
    (log.map (executed f)).sum = ((((leaves log).flatMap Loop.range).map f : List ℤ) : Multiset ℤ) := by
  induction log with
  | nil => rfl
  | cons e log ih =>
    rw [map_cons, sum_cons, ih]
    cases e with
    | body s n => simp [executed, positions, leaves]
    | enroll c => simp [executed, leaves]
    | complete c => simp [executed, leaves]

theorem leaves_append (l₁ l₂ : List LoopEvent) : leaves (l₁ ++ l₂) = leaves l₁ ++ leaves l₂ :=
  filterMap_append

theorem leaves_completion (origin : Option Core) : leaves (d.completion origin) = [] := by
  unfold completion
  split_ifs
  · cases origin with
    | none => rfl
    | some c => rfl
  · rfl

theorem executed_completion (f : ℤ → ℤ) (origin : Option Core) :
    ((d.completion origin).map (executed f)).sum = 0 := by
  unfold completion
  split_ifs
  · cases origin with
    | none => rfl
    | some c => rfl
  · rfl

theorem executed_enroll (f : ℤ → ℤ) (c : Core) :
    ((if d.C then [LoopEvent.enroll c] else []).map (executed f)).sum = 0 := by
  split_ifs <;> rfl

/-- Enrollments count up and completions down. -/
def enrolled (c : Core) : LoopEvent → ℤ
  | .enroll core => if core = c then 1 else 0
  | .complete target => if target = c then -1 else 0
  | .body _ _ => 0

theorem sum_enrolled (c : Core) (log : List LoopEvent) :
    (log.map (enrolled c)).sum = (log.count (.enroll c) : ℤ) - log.count (.complete c) := by
  induction log with
  | nil => rfl
  | cons e log ih =>
    rw [map_cons, sum_cons, ih]
    cases e with
    | body s n => simp [enrolled]
    | enroll core =>
      by_cases h : core = c
      · simp [enrolled, h]
        ring
      · simp [enrolled, h]
    | complete target =>
      by_cases h : target = c
      · simp [enrolled, h]
        ring
      · simp [enrolled, h]

/-- The completion that a task still owes to core `c`. -/
def owed (d : Decomposition) (c : Core) (task : LoopTask) : ℤ :=
  ((d.completion task.origin).map (enrolled c)).sum

/-- A larger range has more calls to make. -/
def size (task : LoopTask) : ℕ := max 1 (2 * task.loop.iterations.toNat - 1)

section step

variable (ht : 1 ≤ d.threshold.effective) {task : LoopTask}
include ht

theorem exec_ok (hok : Ok task) : ∀ child ∈ (d.exec task).2, Ok child := by
  intro child hchild
  have hmax := hok.2
  rcases exec_cases ht hok with ⟨-, hx⟩ | ⟨-, hx⟩ | ⟨a, b, ⟨ha, hb, hab⟩, -, hx⟩
  · simp [hx] at hchild
  · simp [hx] at hchild
  · simp only [hx, mem_cons, not_mem_nil, or_false] at hchild
    rcases hchild with rfl | rfl
    · exact ⟨by simp only; omega, by simp only; omega⟩
    · exact ⟨by simp only; omega, by simp only; omega⟩

theorem exec_size (hok : Ok task) : ((d.exec task).2.map size).sum < size task := by
  rcases exec_cases ht hok with ⟨-, hx⟩ | ⟨-, hx⟩ | ⟨a, b, ⟨ha, hb, hab⟩, -, hx⟩
  · simp [hx, size]
  · simp [hx, size]
  · simp only [hx, size, map_cons, map_nil, sum_cons, sum_nil]
    omega

/-- A call passes its iterations on. -/
theorem exec_positions {f : ℤ → ℤ} (hok : Ok task)
    (hf : d.threshold.effective < task.loop.iterations → ∀ a b : ℤ, 1 ≤ a → 1 ≤ b →
      task.loop.iterations = a + b → ∀ j : ℤ, 0 ≤ j → j < b →
        f (bits48 (task.loop.start + a) + j) = f (task.loop.start + a + j)) :
    positions f task.loop = ((d.exec task).1.map (executed f)).sum +
      ((d.exec task).2.map fun child => positions f child.loop).sum := by
  rcases exec_cases ht hok with ⟨hz, hx⟩ | ⟨-, hx⟩ | ⟨a, b, ⟨ha, hb, hab⟩, hlt, hx⟩
  · simp [hx, executed_completion, positions, Loop.range, hz]
  · simp [hx, executed_completion, executed]
  · have hloop : task.loop = ⟨task.loop.start, a + b⟩ := Loop.ext rfl hab
    rw [hx]
    simp only [executed_enroll, map_cons, map_nil, sum_cons, sum_nil, zero_add,
      add_zero]
    rw [hloop]
    exact positions_halves (by omega) (by omega) (hf hlt a b ha hb hab)

theorem exec_owed (c : Core) (hok : Ok task) :
    owed d c task = ((d.exec task).1.map (enrolled c)).sum +
      ((d.exec task).2.map (owed d c)).sum := by
  rcases exec_cases ht hok with ⟨-, hx⟩ | ⟨-, hx⟩ | ⟨a, b, -, -, hx⟩
  · simp [hx, owed]
  · simp [hx, owed, enrolled]
  · rw [hx]
    simp only [map_cons, map_nil, sum_cons, sum_nil, add_zero]
    unfold owed completion
    split_ifs with hC
    · by_cases hc : task.mycore = c
      · simp [enrolled, hc]
      · simp [enrolled, hc]
    · simp

theorem exec_leaves (hok : Ok task) : ∀ leaf ∈ leaves (d.exec task).1,
    1 ≤ leaf.iterations ∧ leaf.iterations ≤ d.threshold.effective := by
  intro leaf hleaf
  rcases exec_cases ht hok with ⟨-, hx⟩ | ⟨hsize, hx⟩ | ⟨a, b, -, -, hx⟩
  · rw [hx, leaves_completion] at hleaf
    cases hleaf
  · rw [hx] at hleaf
    simp only [leaves, filterMap_cons] at hleaf
    rw [← leaves, leaves_completion] at hleaf
    obtain rfl := mem_singleton.mp hleaf
    exact hsize
  · rw [hx] at hleaf
    simp only at hleaf
    split_ifs at hleaf
    · cases hleaf
    · cases hleaf

end step

/-- The tasks whose starts fit the 48-bit fields, or that are not cut any further. -/
def Fits (t : LoopThreshold) (task : LoopTask) : Prop :=
  (-2 ^ 47 ≤ task.loop.start ∧ task.loop.start + task.loop.iterations ≤ 2 ^ 47) ∨
    task.loop.iterations ≤ t.effective

theorem Fits.bits48_eq {t : LoopThreshold} {task : LoopTask} (h : Fits t task)
    (hlt : t.effective < task.loop.iterations) {a b : ℤ} (ha : 1 ≤ a) (hb : 1 ≤ b)
    (hab : task.loop.iterations = a + b) :
    bits48 (task.loop.start + a) = task.loop.start + a := by
  obtain ⟨hlo, hhi⟩ := h.resolve_right (by omega)
  exact Int.bmod_eq_of_le (by norm_num; omega) (by norm_num; omega)

theorem Fits.child (ht : 1 ≤ d.threshold.effective) {task : LoopTask} (hok : Ok task)
    (h : Fits d.threshold task) : ∀ child ∈ (d.exec task).2, Fits d.threshold child := by
  intro child hchild
  rcases exec_cases ht hok with ⟨-, hx⟩ | ⟨-, hx⟩ | ⟨a, b, ⟨ha, hb, hab⟩, hlt, hx⟩
  · simp [hx] at hchild
  · simp [hx] at hchild
  · obtain ⟨hlo, hhi⟩ := h.resolve_right (by omega)
    simp only [hx, h.bits48_eq hlt ha hb hab, mem_cons, not_mem_nil, or_false] at hchild
    left
    rcases hchild with rfl | rfl
    · exact ⟨by simp only; omega, by simp only; omega⟩
    · exact ⟨by simp only; omega, by simp only; omega⟩

/-! ### Runs -/

section runs

variable (ht : 1 ≤ d.threshold.effective) {start iterations : ℤ} {mycore : Core}
  (h0 : 0 ≤ iterations) (hmax : iterations < 2 ^ 47)

include h0 hmax

theorem init_ok : ∀ task ∈ [(⟨⟨start, iterations⟩, mycore, none⟩ : LoopTask)], Ok task := by
  intro task htask
  obtain rfl := mem_singleton.mp htask
  exact ⟨h0, hmax⟩

include ht

theorem leaves_sizes {s : TaskPool.State LoopTask LoopEvent}
    (hs : (d.system start iterations mycore).Reachable s) :
    ∀ leaf ∈ leaves s.log, 1 ≤ leaf.iterations ∧ leaf.iterations ≤ d.threshold.effective := by
  have hinv := Transition.System.Reachable.invariant
    (fun s : TaskPool.State LoopTask LoopEvent => (∀ task ∈ s.pool, Ok task) ∧
      ∀ leaf ∈ leaves s.log, 1 ≤ leaf.iterations ∧ leaf.iterations ≤ d.threshold.effective)
    ⟨init_ok h0 hmax, by simp [leaves, system, TaskPool.Program.system]⟩ (fun s k s' hinv hstep => by
      refine ⟨TaskPool.Program.next_ok (fun _ h => exec_ok ht h) hinv.1 hstep, ?_⟩
      obtain ⟨task, rest, hpool, -, hlog⟩ := TaskPool.Program.next_cases hstep
      have hok : Ok task := hinv.1 task (hpool.mem_iff.mpr mem_cons_self)
      intro leaf hleaf
      rw [hlog, leaves_append] at hleaf
      rcases mem_append.mp hleaf with hold | hnew
      · exact hinv.2 leaf hold
      · exact exec_leaves ht hok leaf hnew) hs
  exact hinv.2

/-- At the end the leaves are the range, seen through a function that does not see the cuts. -/
theorem ended_positions {f : ℤ → ℤ} {Fits : LoopTask → Prop}
    (hfits : Fits ⟨⟨start, iterations⟩, mycore, none⟩)
    (hchild : ∀ task, Ok task → Fits task → ∀ child ∈ (d.exec task).2, Fits child)
    (hf : ∀ task, Ok task → Fits task → d.threshold.effective < task.loop.iterations →
      ∀ a b : ℤ, 1 ≤ a → 1 ≤ b → task.loop.iterations = a + b → ∀ j : ℤ, 0 ≤ j → j < b →
        f (bits48 (task.loop.start + a) + j) = f (task.loop.start + a + j))
    {s : TaskPool.State LoopTask LoopEvent}
    (hs : (d.system start iterations mycore).Reachable s) (hpool : s.pool = []) :
    (((leaves s.log).flatMap Loop.range).map f).Perm
      ((Loop.range ⟨start, iterations⟩).map f) := by
  have hcons := @TaskPool.Program.conserved _ _ _ ⟨d.exec⟩ (fun task => Ok task ∧ Fits task) _
    (executed f) (fun task => positions f task.loop)
    (fun task h child hc => ⟨exec_ok ht h.1 child hc, hchild task h.1 h.2 child hc⟩)
    (fun task h => exec_positions ht h.1 (hf task h.1 h.2)) _
    (fun task htask => ⟨init_ok h0 hmax task htask, by
      obtain rfl := mem_singleton.mp htask
      exact hfits⟩) _ hs
  rw [sum_executed, hpool, map_nil, sum_nil, add_zero, map_singleton,
    sum_singleton] at hcons
  exact Multiset.coe_eq_coe.mp hcons

theorem ended_balanced {s : TaskPool.State LoopTask LoopEvent}
    (hs : (d.system start iterations mycore).Reachable s) (hpool : s.pool = []) (c : Core) :
    s.log.count (.enroll c) = s.log.count (.complete c) := by
  have hcons := TaskPool.Program.conserved (w := enrolled c) (v := owed d c)
    (fun task h => exec_ok ht h) (fun task h => exec_owed ht c h) (init_ok h0 hmax) hs
  rw [sum_enrolled, hpool, map_nil, sum_nil, add_zero, map_singleton,
    sum_singleton] at hcons
  have howed : owed d c ⟨⟨start, iterations⟩, mycore, none⟩ = 0 := by
    unfold owed completion
    split_ifs <;> rfl
  rw [howed] at hcons
  omega

end runs

/-- **`loop_decomposition` partitions the iteration range** in every order of its tasks: no run is
    longer than a bound, a run that cannot go on has no task left, and then the leaves are the
    range in pieces, and each core has been sent as many completions as it enrolled. -/
theorem loop_decomposition_partition (d : Decomposition) (ht : 1 ≤ d.threshold.effective)
    (start iterations : ℤ) (h0 : 0 ≤ iterations) (hmax : iterations < 2 ^ 47) (mycore : Core) :
    let sys := d.system start iterations mycore
    (∃ bound, ∀ ls s, sys.run sys.init ls = some s → ls.length ≤ bound) ∧
    ∀ s, sys.Reachable s → (∀ l, sys.next s l = none) →
      s.pool = [] ∧ Partitioned d.threshold ⟨start, iterations⟩ s.log := by
  intro sys
  refine ⟨⟨_, fun ls s hrun => TaskPool.Program.length_le_of_run (fun _ h => exec_ok ht h)
    (fun _ h => exec_size ht h) (init_ok h0 hmax) hrun⟩, ?_⟩
  intro s hs hstuck
  have hpool : s.pool = [] := TaskPool.Program.drains hstuck
  refine ⟨hpool, leaves_sizes ht h0 hmax hs, ?_, ?_, ended_balanced ht h0 hmax hs hpool⟩
  · apply @ended_positions d ht start iterations mycore h0 hmax _ (fun _ => True) trivial _ _ s hs hpool
    · intros
      trivial
    · intro task _ _ _ a b _ _ _ j _ _
      exact Int.bmod_add_bmod
  · intro hfits
    have hperm := @ended_positions d ht start iterations mycore h0 hmax id (Fits d.threshold) hfits
      (fun _ hok h => h.child ht hok) (fun _ hok h hlt a b ha hb hab j _ _ => by
        rw [id, id, h.bits48_eq hlt ha hb hab]) s hs hpool
    rwa [map_id, map_id] at hperm

/-- Sixteen iterations in leaves of two, on one core. -/
theorem loop_decomposition_partition_sixteen :
    (∃ bound, ∀ ls s,
      (Decomposition.system ⟨⟨2, 0⟩, true, fun _ => 0⟩ 0 16 0).run
        (Decomposition.system ⟨⟨2, 0⟩, true, fun _ => 0⟩ 0 16 0).init ls = some s →
      ls.length ≤ bound) ∧
    ∀ s, (Decomposition.system ⟨⟨2, 0⟩, true, fun _ => 0⟩ 0 16 0).Reachable s →
      (∀ l, (Decomposition.system ⟨⟨2, 0⟩, true, fun _ => 0⟩ 0 16 0).next s l = none) →
      s.pool = [] ∧ Partitioned ⟨2, 0⟩ ⟨0, 16⟩ s.log :=
  loop_decomposition_partition ⟨⟨2, 0⟩, true, fun _ => 0⟩ (by decide) 0 16 (by decide) (by decide) 0

/-- Two iterations from `2^47` on: the right half starts at `-2^47 + 1`. -/
theorem loop_decomposition_wraps :
    ∃ s, (Decomposition.system ⟨⟨1, 0⟩, true, fun _ => 0⟩ (2 ^ 47) 2 0).Reachable s ∧ s.pool = [] ∧
      leaves s.log = [⟨-2 ^ 47 + 1, 1⟩, ⟨2 ^ 47, 1⟩] ∧
      ¬ ((leaves s.log).flatMap Loop.range).Perm (Loop.range ⟨2 ^ 47, 2⟩) := by
  refine ⟨⟨[], [.enroll 0, .body (-2 ^ 47 + 1) 1, .complete 0, .body (2 ^ 47) 1]⟩,
    ⟨[0, 0, 0], by decide +kernel⟩, rfl, by decide, ?_⟩
  intro hperm
  have hmem : (-2 ^ 47 + 1 : ℤ) ∈ Loop.range ⟨2 ^ 47, 2⟩ := hperm.mem_iff.mp (by decide +kernel)
  exact absurd hmem (by decide +kernel)

end Decomposition

end Grappa
