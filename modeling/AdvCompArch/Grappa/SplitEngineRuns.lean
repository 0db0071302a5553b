import AdvCompArch.Grappa.SplitEngineScatter
import AdvCompArch.Lib.Subtasks

/-! # Runs of the split-vertex engine

    With delta caching, all copies of a vertex are at the end of an iteration what the sequential
    loop makes of it. -/

namespace Grappa

namespace SplitEngine

open Multiset Phased

variable {VertexID V E S G : Type} {n : ℕ} [DecidableEq VertexID] [AddCommMonoid G]
  {prog : Program VertexID V E S G} {g : Graph VertexID E n} {data : VertexID → V}
  {max_iterations k : ℕ} {s s' : State VertexID V S G n} {v m : VertexID} {c : Fin n}
  {pool rest : Multiset (Item VertexID V E S G n)} {y : Item VertexID V E S G n}

/-! ### The sequential loop within an iteration -/

namespace SingleCopy

variable (prog g data)

/-- Before the masters take their turns. -/
def before_apply (k : ℕ) : VertexID → Vertex V S G :=
  if k = 0 then g.edges.foldl (gather prog) (after prog g data k) else after prog g data k

/-- After it. -/
def after_apply (k : ℕ) : VertexID → Vertex V S G :=
  g.masters.foldl (apply prog) (before_apply prog g data k)

theorem after_succ : after prog g data (k + 1) v =
    (mastered (after_apply prog g data k v)).receive
      (received g.edges (signal prog (after_apply prog g data k)) v) := by
  have hround : after prog g data (k + 1) v =
      mastered (g.edges.foldl (scatter prog) (after_apply prog g data k) v) := by
    simp only [after, round, decide_eq_true_eq, after_apply, before_apply]
    rfl
  rw [hround, foldl_scatter]
  rfl

theorem after_minor (k : ℕ) (v : VertexID) :
    (after prog g data k v).active_minor_step = false := by
  cases k with
  | zero => rfl
  | succ k => rfl

theorem before_apply_minor (k : ℕ) (v : VertexID) :
    (before_apply prog g data k v).active_minor_step = false := by
  unfold before_apply
  split
  · rw [foldl_gather]
    split
    · exact after_minor prog g data k v
    · exact after_minor prog g data k v
  · exact after_minor prog g data k v

theorem before_apply_zero : before_apply prog g data 0 v =
    { after prog g data 0 v with
      prog := (after prog g data 0 v).prog.post_delta
        (received g.edges (gathered prog (after prog g data 0)) v) } := by
  rw [before_apply, if_pos rfl, foldl_gather]
  rfl

theorem after_apply_eq (hv : v ∈ g.masters) :
    after_apply prog g data k v = applied prog v (before_apply prog g data k v) := by
  exact (foldl_apply g.nodup_masters v).trans (if_pos hv)

end SingleCopy

open SingleCopy

/-! ### Between the iterations -/

/-- The copies are those of the sequential loop.  The mirrors are active only at first, and have
    a delta in their caches only if the master is active. -/
structure Synced (g : Graph VertexID E n) (σ : VertexID → Vertex V S G) (first : Bool)
    (s : State VertexID V S G n) : Prop where
  master : ∀ v ∈ g.masters, s.master v = σ v
  mirror : ∀ c, ∀ v ∈ g.l_verts c, ∃ cache,
    s.mirror c v = ⟨(σ v).data, first, false, ⟨(σ v).prog.state, cache⟩⟩ ∧
      (first = true ∨ (σ v).active = false → cache = 0)

theorem Synced.activated : Synced g (after prog g data 0) true (activated prog g data) :=
  ⟨fun _ _ => rfl, fun _ _ _ => ⟨0, rfl, fun _ => rfl⟩⟩

theorem Synced.gather (h : Synced g (after prog g data 0) true s) :
    Gathering prog g (after prog g data 0) s
      ((List.finRange n).flatMap fun c => (g.l_edges c).map (.gather c) :
        List (Item VertexID V E S G n)) := by
  refine Gathering.start h.master fun c v hv => ?_
  obtain ⟨cache, hcopy, hcache⟩ := h.mirror c v hv
  rw [hcopy, hcache (.inl rfl)]

/-- Later iterations do not gather. -/
theorem Synced.apply (h : Synced g (after prog g data k) false s) (hk : k ≠ 0) :
    Applying prog g (before_apply prog g data k) s
      (g.masters.map .apply : List (Item VertexID V E S G n)) := by
  have heq : before_apply prog g data k = after prog g data k := if_neg hk
  rw [heq]
  refine Applying.start (after_minor prog g data k) h.master fun c v hv => ?_
  obtain ⟨cache, hcopy, hcache⟩ := h.mirror c v hv
  exact ⟨cache, hcopy, fun hact => hcache (.inr hact)⟩

theorem Collecting.apply (h : Collecting prog g (after prog g data 0) s 0) :
    Applying prog g (before_apply prog g data 0) s
      (g.masters.map .apply : List (Item VertexID V E S G n)) := by
  refine Applying.start (before_apply_minor prog g data 0) (fun v hv => ?_) fun c v hv => ?_
  · obtain ⟨cache, hcopy, hsum⟩ := h.master v hv
    rw [map_zero, sum_zero, add_zero] at hsum
    rw [hcopy, before_apply_zero, hsum]
    rfl
  · rw [before_apply_zero]
    exact ⟨0, h.empty c v hv (notMem_zero _), fun _ => rfl⟩

theorem Applying.scatter (h : Applying prog g (before_apply prog g data k) s 0) :
    Scattering prog g (after_apply prog g data k) s
      (g.forMirrors .scatter : List (Item VertexID V E S G n)) := by
  refine Scattering.start (fun v hv => ?_) fun c v hv => ?_
  · rw [h.after v hv (notMem_zero _), after_apply_eq prog g data hv]
  · rw [after_apply_eq prog g data (mem_masters_of_mirror hv)]
    rcases h.mirror c v hv with hcopy | hmem | ⟨hmem, -⟩
    · exact hcopy
    · exact absurd hmem (notMem_zero _)
    · exact absurd hmem (notMem_zero _)

theorem sent_eq_zero (hactivates : prog.Activates)
    (h : (after prog g data (k + 1) v).active = false) :
    (sent prog g (after_apply prog g data k) c v).1 = 0 := by
  rw [after_succ, Vertex.receive, Bool.or_eq_false_iff, decide_eq_false_iff_not, not_not,
    received_edges] at h
  have hsum := map_list_sum (AddMonoidHom.snd G ℕ)
    ((List.finRange n).map fun c => sent prog g (after_apply prog g data k) c v)
  rw [AddMonoidHom.coe_snd, List.map_map] at hsum
  have hzero := List.sum_eq_zero_iff_forall_eq_nat.mp (hsum.symm.trans h.2)
    (sent prog g (after_apply prog g data k) c v).2
    (List.mem_map.mpr ⟨c, List.mem_finRange c, rfl⟩)
  exact received_fst_eq_zero hactivates hzero

theorem Sending.synced (hactivates : prog.Activates)
    (h : Sending prog g (after_apply prog g data k) s 0) :
    Synced g (SingleCopy.after prog g data (k + 1)) false s := by
  constructor
  case master =>
    intro v hv
    obtain ⟨d, hcopy, hsum⟩ := h.master v hv
    rw [map_zero, sum_zero, add_zero] at hsum
    rw [hcopy, hsum, receive_notices hactivates, after_succ]
  case mirror =>
    intro c v hv
    refine ⟨_, (h.after c v hv (notMem_zero _)).trans (by rw [after_succ]; rfl), ?_⟩
    rintro (hfirst | hact)
    · cases hfirst
    · exact sent_eq_zero hactivates hact

/-! ### Tasks and messages -/

theorem foldl_scatter_edge_frame {dc : Bool} {p : S} (l : List (Edge VertexID E)) :
    (l.foldl (State.scatter_edge prog dc c p) s).phase = s.phase ∧
    (l.foldl (State.scatter_edge prog dc c p) s).iteration = s.iteration ∧
    (l.foldl (State.scatter_edge prog dc c p) s).total_active = s.total_active ∧
    (l.foldl (State.scatter_edge prog dc c p) s).master = s.master := by
  induction l generalizing s with
  | nil => exact ⟨rfl, rfl, rfl, rfl⟩
  | cons e l ih => exact ih

omit [AddCommMonoid G] in
theorem activate_frame :
    (s.activate m).phase = s.phase ∧ (s.activate m).iteration = s.iteration := by
  unfold State.activate
  split
  · exact ⟨rfl, rfl⟩
  · exact ⟨rfl, rfl⟩

omit [AddCommMonoid G] in
theorem deactivate_frame :
    (s.deactivate m).phase = s.phase ∧ (s.deactivate m).iteration = s.iteration := by
  unfold State.deactivate
  split
  · exact ⟨rfl, rfl⟩
  · exact ⟨rfl, rfl⟩

variable (prog g s) in
theorem Item.exec_frame (y : Item VertexID V E S G n) (dc : Bool) :
    (y.exec prog g dc s).1.phase = s.phase ∧ (y.exec prog g dc s).1.iteration = s.iteration := by
  cases y with
  | total m accum | copy c v data do_scatter p_copy | awake c v => exact ⟨rfl, rfl⟩
  | gather c e | collect c v | spread m =>
    simp only [Item.exec]
    split
    · exact ⟨rfl, rfl⟩
    · exact ⟨rfl, rfl⟩
  | apply m =>
    simp only [Item.exec]
    split
    · exact deactivate_frame
    · exact ⟨rfl, rfl⟩
  | scatter c v =>
    simp only [Item.exec]
    split
    · exact ⟨(foldl_scatter_edge_frame _).1, (foldl_scatter_edge_frame _).2.1⟩
    · exact ⟨rfl, rfl⟩
  | send c v =>
    simp only [Item.exec]
    split
    · split
      · exact ⟨rfl, rfl⟩
      · exact ⟨rfl, rfl⟩
    · exact ⟨rfl, rfl⟩
  | wake m delta | rewake m => exact activate_frame

/-- The master that a task or message can activate or deactivate. -/
def Item.switches : Item VertexID V E S G n → Option VertexID
  | .apply m | .wake m _ | .rewake m => some m
  | _ => none

theorem Counted.exec (h : Counted g s) (dc : Bool) (hy : ∀ m ∈ y.switches, m ∈ g.masters) :
    Counted g (y.exec prog g dc s).1 := by
  have hset : ∀ (t : State VertexID V S G n) (m : VertexID) (x : Vertex V S G), Counted g t →
      x.active = (t.master m).active → Counted g (t.setMaster m x) := by
    intro t m x ht hx
    refine ht.congr (fun u => ?_) rfl
    rw [setMaster_master]
    split
    · rename_i hu
      rw [hx, hu]
    · rfl
  cases y with
  | total m accum => exact hset s m _ h rfl
  | copy c v data do_scatter p_copy | awake c v => exact h
  | gather c e | collect c v | spread m =>
    simp only [Item.exec]
    split
    · exact h
    · exact h
  | apply m =>
    simp only [Item.exec]
    split
    · exact hset _ m _ (h.deactivate (hy m rfl)) rfl
    · exact h
  | scatter c v =>
    simp only [Item.exec]
    split
    · refine h.congr (fun u => ?_) (foldl_scatter_edge_frame _).2.2.1
      rw [(foldl_scatter_edge_frame _).2.2.2]
      rfl
    · exact h
  | send c v =>
    simp only [Item.exec]
    split
    · split
      · exact h
      · exact h
    · exact h
  | wake m delta | rewake m => exact hset _ m _ (h.activate (hy m rfl)) rfl

/-! ### The invariant -/

variable (prog g data max_iterations)

/-- The loop has been entered with an active vertex. -/
def Running (s : State VertexID V S G n) : Prop :=
  s.iteration < max_iterations ∧ ∃ v ∈ g.masters, (after prog g data s.iteration v).active = true

/-- What holds in the phase of the main task. -/
def InPhase (s : State VertexID V S G n) (pool : Multiset (Item VertexID V E S G n)) : Prop :=
  match s.phase with
  | .head => pool = 0 ∧ Synced g (after prog g data s.iteration) (s.iteration = 0) s
  | .gather => s.iteration = 0 ∧ Gathering prog g (after prog g data 0) s pool
  | .collect => s.iteration = 0 ∧ Collecting prog g (after prog g data 0) s pool
  | .apply => Applying prog g (before_apply prog g data s.iteration) s pool
  | .scatter => Scattering prog g (after_apply prog g data s.iteration) s pool
  | .send => Sending prog g (after_apply prog g data s.iteration) s pool
  | .spread => False

structure Inv (s : State VertexID V S G n) (pool : Multiset (Item VertexID V E S G n)) : Prop where
  le : s.iteration ≤ max_iterations
  running : s.phase ≠ .head → Running prog g data max_iterations s
  active : ∀ j < s.iteration, ∃ v ∈ g.masters, (after prog g data j v).active = true
  counted : Counted g s
  phase : InPhase prog g data s pool

variable {prog g data max_iterations}

theorem inv_init : Inv prog g data max_iterations (activated prog g data) 0 where
  le := Nat.zero_le _
  running := fun h => absurd rfl h
  active := fun _ hj => absurd hj (Nat.not_lt_zero _)
  counted := by
    have hcard : g.masters.toFinset.card = g.masters.length :=
      List.toFinset_card_of_nodup g.nodup_masters
    simp [Counted, activated, hcard]
  phase := ⟨rfl, Synced.activated⟩

theorem InPhase.switches (h : InPhase prog g data s (y ::ₘ rest)) :
    ∀ m ∈ y.switches, m ∈ g.masters := by
  have hy := mem_cons_self y rest
  unfold InPhase at h
  intro m hm
  split at h
  · exact absurd h.1 cons_ne_zero
  · obtain ⟨c, e, -, rfl⟩ := h.2.items y hy
    cases hm
  · rcases h.2.items y hy with ⟨c, v, -, rfl⟩ | ⟨v, -, accum, rfl⟩
    · cases hm
    · cases hm
  · rcases h.items y hy with ⟨v, hv, rfl⟩ | ⟨c, v, -, rfl⟩
    · cases hm
      exact hv
    · cases hm
  · obtain ⟨c, v, -, rfl⟩ := h.items y hy
    cases hm
  · rcases h.items y hy with ⟨c, v, -, rfl⟩ | ⟨v, hv, delta, rfl⟩
    · cases hm
    · cases hm
      exact hv
  · exact h.elim

theorem InPhase.exec (h : InPhase prog g data s (y ::ₘ rest)) :
    InPhase prog g data (y.exec prog g true s).1
      (rest + ((y.exec prog g true s).2 : List (Item VertexID V E S G n))) := by
  obtain ⟨hphase, hiteration⟩ := y.exec_frame prog g s true
  unfold InPhase at h ⊢
  rw [hphase, hiteration]
  split at h
  · exact absurd h.1 cons_ne_zero
  · exact ⟨h.1, h.2.exec⟩
  · exact ⟨h.1, h.2.exec⟩
  · exact h.exec (before_apply_minor prog g data _)
  · exact h.exec
  · exact h.exec
  · exact h.elim

theorem Inv.exec (h : Inv prog g data max_iterations s (y ::ₘ rest)) :
    Inv prog g data max_iterations (y.exec prog g true s).1
      (rest + ((y.exec prog g true s).2 : List (Item VertexID V E S G n))) := by
  obtain ⟨hphase, hiteration⟩ := y.exec_frame prog g s true
  constructor
  case le => exact hiteration ▸ h.le
  case running =>
    intro hne
    rw [hphase] at hne
    unfold Running
    rw [hiteration]
    exact h.running hne
  case active => exact hiteration ▸ h.active
  case counted => exact h.counted.exec true h.phase.switches
  case phase => exact h.phase.exec

theorem Inv.advance (hactivates : prog.Activates) (h : Inv prog g data max_iterations s 0)
    {new : List (Item VertexID V E S G n)}
    (hx : s.advance g true max_iterations = some (s', new)) :
    Inv prog g data max_iterations s' new := by
  obtain ⟨hle, hrunning, hactive, hcounted, hphase⟩ := h
  unfold InPhase at hphase
  unfold State.advance at hx
  split at hphase
  case h_1 heq =>
    obtain ⟨-, hsynced⟩ := hphase
    simp only [heq] at hx
    split at hx
    · rename_i hgo
      have hrun : Running prog g data max_iterations s := by
        obtain ⟨v, hv, hact⟩ := hcounted.pos_iff.mp hgo.1
        exact ⟨hgo.2, v, hv, by rw [← hsynced.master v hv, hact]⟩
      split at hx
      · rename_i hfirst
        have hzero : s.iteration = 0 := by simpa using hfirst
        cases hx
        refine ⟨hle, fun _ => hrun, hactive, hcounted, hzero, ?_⟩
        rw [hzero] at hsynced
        exact Synced.gather ⟨hsynced.master, hsynced.mirror⟩
      · rename_i hlater
        have hne : s.iteration ≠ 0 := by simpa using hlater
        cases hx
        refine ⟨hle, fun _ => hrun, hactive, hcounted, ?_⟩
        rw [decide_eq_false hne] at hsynced
        exact Synced.apply ⟨hsynced.master, hsynced.mirror⟩ hne
    · cases hx
  case h_2 heq =>
    obtain ⟨hzero, hgathering⟩ := hphase
    simp only [heq] at hx
    cases hx
    have hcollect := hgathering.collect
    exact ⟨hle, fun _ => hrunning (by simp [heq]), hactive, hcounted, hzero, hcollect.items,
      hcollect.keys, hcollect.full, hcollect.empty, hcollect.master⟩
  case h_3 heq =>
    obtain ⟨hzero, hcollecting⟩ := hphase
    simp only [heq] at hx
    cases hx
    have happly := hcollecting.apply
    rw [← hzero] at happly
    exact ⟨hle, fun _ => hrunning (by simp [heq]), hactive, hcounted, happly.items,
      happly.turns, happly.before, happly.after, happly.inactive, happly.mirror⟩
  case h_4 heq =>
    simp only [heq] at hx
    cases hx
    have hscatter := hphase.scatter
    exact ⟨hle, fun _ => hrunning (by simp [heq]), hactive, hcounted, hscatter.items,
      hscatter.keys, hscatter.master, hscatter.mirror, hscatter.pending⟩
  case h_5 heq =>
    simp only [heq] at hx
    cases hx
    have hsend := hphase.send
    exact ⟨hle, fun _ => hrunning (by simp [heq]), hactive, hcounted, hsend.items, hsend.keys,
      hsend.before, hsend.after, hsend.master⟩
  case h_6 heq =>
    obtain ⟨hlt, hsome⟩ := hrunning (by simp [heq])
    simp only [heq, if_true] at hx
    cases hx
    obtain ⟨hmaster, hmirror⟩ := hphase.synced hactivates
    refine ⟨hlt, fun hne => absurd rfl hne, fun j hj => ?_, hcounted, rfl, hmaster, hmirror⟩
    rcases Nat.lt_succ_iff_lt_or_eq.mp hj with hj | rfl
    · exact hactive j hj
    · exact hsome
  case h_7 => exact hphase.elim

/-! ### Termination -/

/-- The phases that are left in an iteration. -/
def Phase.left : Phase → ℕ
  | .head => 6
  | .gather => 5
  | .collect => 4
  | .apply => 3
  | .scatter => 2
  | .send => 1
  | .spread => 0

/-- A task sends only messages. -/
def Item.rank : Item VertexID V E S G n → ℕ
  | .gather _ _ | .collect _ _ | .apply _ | .scatter _ _ | .send _ _ | .spread _ => 1
  | _ => 0

def left (max_iterations : ℕ) (s : State VertexID V S G n) : ℕ ×ₗ ℕ :=
  toLex (max_iterations - s.iteration, s.phase.left)

variable (prog g s) in
theorem exec_lesser (y : Item VertexID V E S G n) (dc : Bool) :
    left max_iterations (y.exec prog g dc s).1 = left max_iterations s ∧
      ∀ z ∈ (y.exec prog g dc s).2, z.rank < y.rank := by
  obtain ⟨hphase, hiteration⟩ := y.exec_frame prog g s dc
  refine ⟨by simp only [left, hphase, hiteration], ?_⟩
  cases y with
  | total m accum | copy c v data do_scatter p_copy | wake m delta | rewake m | awake c v =>
    exact fun _ hz => absurd hz List.not_mem_nil
  | gather c e | scatter c v | collect c v | apply m | spread m | send c v =>
    simp only [Item.exec]
    repeat' split
    all_goals simp [Item.rank]

theorem left_advance (h : Inv prog g data max_iterations s 0) {new : List (Item VertexID V E S G n)}
    (hx : s.advance g true max_iterations = some (s', new)) :
    left max_iterations s' < left max_iterations s := by
  unfold State.advance at hx
  split at hx
  case h_1 heq =>
    split at hx
    · split at hx
      · cases hx
        refine Prod.Lex.toLex_lt_toLex.mpr (.inr ⟨rfl, ?_⟩)
        simp [heq, Phase.left]
      · cases hx
        refine Prod.Lex.toLex_lt_toLex.mpr (.inr ⟨rfl, ?_⟩)
        simp [heq, Phase.left]
    · cases hx
  case h_6 heq =>
    obtain ⟨hlt, -⟩ := h.running (by simp [heq])
    simp only [if_true] at hx
    cases hx
    refine Prod.Lex.toLex_lt_toLex.mpr (.inl ?_)
    simp only
    omega
  case h_7 heq =>
    have hphase := h.phase
    simp only [InPhase, heq] at hphase
  all_goals
    rename_i heq
    cases hx
    refine Prod.Lex.toLex_lt_toLex.mpr (.inr ⟨rfl, ?_⟩)
    simp [heq, Phase.left]

/-! ### Results -/

/-- The copies have the data, and the masters the activity, of a single copy of each vertex. -/
def Agrees (g : Graph VertexID E n) (σ : VertexID → Vertex V S G) (s : State VertexID V S G n) :
    Prop :=
  (∀ v ∈ g.masters, (s.master v).data = (σ v).data ∧ (s.master v).active = (σ v).active) ∧
    ∀ c, ∀ v ∈ g.l_verts c, (s.mirror c v).data = (σ v).data

omit [DecidableEq VertexID] in
theorem Synced.agrees {σ : VertexID → Vertex V S G} {first : Bool} (h : Synced g σ first s) :
    Agrees g σ s := by
  refine ⟨fun v hv => ?_, fun c v hv => ?_⟩
  · rw [h.master v hv]
    exact ⟨rfl, rfl⟩
  · obtain ⟨cache, hcopy, -⟩ := h.mirror c v hv
    rw [hcopy]

/-- **Refinement**: in every order of the tasks and messages the engine comes to its end, and
    whenever it is between two iterations it agrees with the sequential loop after as many.  It
    goes on as long as that loop does. -/
theorem run_sync_refines (prog : Program VertexID V E S G) (g : Graph VertexID E n)
    (data : VertexID → V) (max_iterations : ℕ) (hactivates : prog.Activates) :
    ((run_sync prog g true max_iterations).system (activated prog g data)).Terminates
      ⟨activated prog g data, []⟩ ∧
    ∀ t, ((run_sync prog g true max_iterations).system (activated prog g data)).Reachable t →
      (t.shared.phase = .head →
        Agrees g (after prog g data t.shared.iteration) t.shared ∧
        t.shared.iteration ≤ max_iterations ∧
        ∀ j < t.shared.iteration, ∃ v ∈ g.masters, (after prog g data j v).active = true) ∧
      ((∀ l, (run_sync prog g true max_iterations).next t l = none) →
        (run_sync prog g true max_iterations).Ended t ∧ t.shared.phase = .head ∧
          (t.shared.iteration = max_iterations ∨
            ∀ v ∈ g.masters, (after prog g data t.shared.iteration v).active = false)) := by
  have hexec : ∀ (t : State VertexID V S G n) (y : Item VertexID V E S G n) rest t' new,
      Inv prog g data max_iterations t (y ::ₘ rest) →
      (run_sync prog g true max_iterations).exec t y = some (t', new) →
      Inv prog g data max_iterations t' (rest + new) ∧
        (left max_iterations t' < left max_iterations t ∨
          left max_iterations t' = left max_iterations t ∧ ∀ z ∈ new, z.rank < y.rank) := by
    intro t y rest t' new h hx
    obtain ⟨rfl, rfl⟩ := Prod.mk.inj (Option.some.inj hx)
    exact ⟨h.exec, .inr (exec_lesser prog g t y true)⟩
  have hadvance : ∀ (t t' : State VertexID V S G n) new,
      Inv prog g data max_iterations t 0 →
      (run_sync prog g true max_iterations).advance t = some (t', new) →
      Inv prog g data max_iterations t' new ∧
        left max_iterations t' < left max_iterations t :=
    fun t t' new h hx => ⟨h.advance hactivates hx, left_advance h hx⟩
  refine ⟨Program.terminates_of_rank (Inv prog g data max_iterations) Item.rank
    (fun s _ => left max_iterations s) inv_init hexec hadvance, fun t ht => ?_⟩
  have hinv : Inv prog g data max_iterations t.shared t.pool :=
    Program.Reachable.inv (Inv prog g data max_iterations) inv_init
      (fun t y rest t' new h hx => (hexec t y rest t' new h hx).1)
      (fun t t' new h hx => (hadvance t t' new h hx).1) ht
  have hphase := hinv.phase
  constructor
  · intro hhead
    simp only [InPhase, hhead] at hphase
    exact ⟨hphase.2.agrees, hinv.le, hinv.active⟩
  · intro hstuck
    have hended : (run_sync prog g true max_iterations).Ended t :=
      Program.ended_of_stuck (fun y _ => by simp [run_sync]) hstuck
    have hret : t.shared.advance g true max_iterations = none := hended.2
    unfold State.advance at hret
    split at hret
    case h_1 heq =>
      simp only [InPhase, heq] at hphase
      refine ⟨hended, heq, ?_⟩
      split at hret
      · split at hret
        · cases hret
        · cases hret
      · rename_i hstop
        by_cases hlt : t.shared.iteration < max_iterations
        · refine .inr fun v hv => ?_
          by_contra hact
          rw [Bool.not_eq_false, ← hphase.2.master v hv] at hact
          exact hstop ⟨hinv.counted.pos_iff.mpr ⟨v, hv, hact⟩, hlt⟩
        · exact .inl (by have hle := hinv.le; omega)
    case h_7 heq =>
      simp only [InPhase, heq] at hphase
    all_goals cases hret

/-- Adds up what reaches a vertex, and sends it on while it is small. -/
def addUp : Program ℕ ℕ Unit Unit ℕ where
  construct _ _ := ()
  gather _ _ _ _ source := source
  apply p _ data := (p.reset, data + p.cache)
  scatter_edges _ _ data := data < 10
  scatter _ _ source _ := (source, true)

/-- Two edges in a row, each on a core of its own. -/
def cutPath : Graph ℕ Unit 2 :=
  Graph.cut fun c => if c.val = 0 then [⟨0, 1, ()⟩] else [⟨1, 2, ()⟩]

theorem run_sync_refines_path :
    ((run_sync addUp cutPath true 4).system (activated addUp cutPath fun v => v + 1)).Terminates
      ⟨activated addUp cutPath fun v => v + 1, []⟩ ∧
    ∀ t, ((run_sync addUp cutPath true 4).system
        (activated addUp cutPath fun v => v + 1)).Reachable t →
      (t.shared.phase = .head →
        Agrees cutPath (after addUp cutPath (fun v => v + 1) t.shared.iteration) t.shared ∧
        t.shared.iteration ≤ 4 ∧
        ∀ j < t.shared.iteration, ∃ v ∈ cutPath.masters,
          (after addUp cutPath (fun v => v + 1) j v).active = true) ∧
      ((∀ l, (run_sync addUp cutPath true 4).next t l = none) →
        (run_sync addUp cutPath true 4).Ended t ∧ t.shared.phase = .head ∧
          (t.shared.iteration = 4 ∨ ∀ v ∈ cutPath.masters,
            (after addUp cutPath (fun v => v + 1) t.shared.iteration v).active = false)) :=
  run_sync_refines addUp cutPath _ 4 fun _ _ _ _ _ => rfl

/-- The two vertices with edges into them are active after an iteration. -/
example : [0, 1, 2].map (fun v =>
    ((after addUp cutPath (fun v => v + 1) 1 v).data,
      (after addUp cutPath (fun v => v + 1) 1 v).active)) =
    [(1, false), (3, true), (5, true)] := by decide +kernel

end SplitEngine

end Grappa
