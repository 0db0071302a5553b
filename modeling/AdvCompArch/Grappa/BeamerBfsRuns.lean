import AdvCompArch.Grappa.BeamerBfsInvariant
import AdvCompArch.Lib.Subtasks

/-! # Runs of the breadth-first search

    The main task takes the search from level to level (`Base.advance`).  A level ends, as its items
    spawn lesser ones, and so does the search, as a level that is not the last finds a
    vertex.  `bfs_correct` says what the search leaves behind. -/

namespace Grappa

namespace BeamerBfs

open Function Multiset Phased

variable {E : Type} {g : AppGraph E} {n : ℕ} {first : Fin (n + 1)} {loop_threshold : ℕ}
  {root : g.V} {k : ℕ} {s s' : State g.nv n} {rest : Multiset (Item g.nv n E)} {x : Item g.nv n E}
  {directions : ℕ → Bool} {memory : g.V → ℤ}

/-! ### From level to level -/

theorem base_zero (hroot : g.valid root = true) (haborted : s.aborted = false)
    (hdepth : 0 ≤ s.current_depth) {new : List (Item g.nv n E)} (hphase : s.phase = .start)
    (hx : s.advance first directions root = some (s', new)) :
    Base first root 0 s' ∧ (∀ c, s'.next c = []) ∧ s'.levels = 0 ∧ s'.phase = .test ∧ new = [] := by
  unfold State.advance at hx
  rw [hphase] at hx
  cases hx
  have hself : ∀ v, g.valid v = true → v ≠ root → (update
      (fun v => if g.valid v then ({ parent := -1, level := -1 } : VertexData) else s.vertex v) root
      { parent := root.val, level := 0 } v) = { parent := -1, level := -1 } := by
    intro v hv hne
    rw [update_of_ne hne, if_pos hv]
  refine ⟨⟨haborted, hdepth, ?_, fun v hv => ?_, fun v hv => ?_, fun hk => absurd hk (lt_irrefl 0),
    fun v hv hp => ?_, fun v hv hp => ?_, fun c v => ?_, fun c v hv => ?_, fun c => List.nodup_nil⟩,
    fun c => rfl, rfl, rfl, rfl⟩
  · simp only [update_self]
  · by_cases hne : v = root
    · subst hne
      simp only [update_self]
      constructor <;> intro hneg <;> omega
    · simp only [hself v hv hne]
  · obtain rfl := Layers.within_zero.mp hv
    simp only [update_self]
    omega
  · by_cases hne : v = root
    · exact .inl (Layers.within_zero.mpr hne)
    · simp only [hself v hv hne] at hp
      exact absurd rfl hp
  · by_cases hne : v = root
    · subst hne
      exact .inl ⟨rfl, by simp only [update_self]⟩
    · simp only [hself v hv hne] at hp
      exact absurd rfl hp
  · rw [Layers.at_zero]
    by_cases hc : c = vertex_core g n first root
    · simp only [if_pos hc, List.mem_singleton]
      exact ⟨fun h => ⟨by rw [h, hc], h⟩, fun h => h.2⟩
    · simp only [if_neg hc, List.not_mem_nil, false_iff]
      rintro ⟨hcore, rfl⟩
      exact hc hcore.symm
  · cases hv

theorem Base.level (h : Base first root s.levels s)
    {new : List (Item g.nv n E)} (hphase : s.phase = .test)
    (hx : s.advance first directions root = some (s', new)) :
    Level first root s'.levels s' (new : Multiset (Item g.nv n E)) ∧
      (s'.phase = .top_down ∨ s'.phase = .bottom_up) ∧ s'.next = s.next := by
  unfold State.advance at hx
  rw [hphase] at hx
  simp only at hx
  split at hx
  · cases hx
  · split at hx
    · cases hx
      refine ⟨⟨h.congr rfl rfl rfl rfl rfl, fun y hy => ?_, fun u v hu huv => .inr ?_⟩, .inl rfl, rfl⟩
      · obtain ⟨c, _, rfl⟩ := List.mem_map.mp hy
        exact fun i hi => ((h.frontier c i).mp hi).2
      · exact ⟨_, mem_coe.mpr (List.mem_map_of_mem (List.mem_finRange (vertex_core g n first u))),
          (h.frontier _ u).mpr ⟨rfl, hu⟩⟩
    · rename_i hlevels
      cases hx
      refine ⟨⟨h.congr rfl rfl rfl rfl rfl, fun y hy => ?_, fun u v hu huv => .inr ?_⟩, .inr rfl, rfl⟩
      · obtain ⟨v, hv, rfl⟩ := List.mem_map.mp hy
        have hpos : 0 < s.levels := by
          by_contra hzero
          exact hlevels (.inl (by omega))
        exact ⟨hpos, AppGraph.mem_visited.mp hv⟩
      · exact ⟨_, mem_coe.mpr
          (List.mem_map_of_mem (AppGraph.mem_visited.mpr huv.valid_right)), rfl⟩

theorem Level.advance (hroot : g.valid root = true) (h : Level first root s.levels s 0)
    {new : List (Item g.nv n E)} (hphase : s.phase = .top_down ∨ s.phase = .bottom_up)
    (hx : s.advance first directions root = some (s', new)) :
    Base first root s'.levels s' ∧ (∀ c, s'.next c = []) ∧ s'.frontier = s.next ∧
      s'.phase = .test ∧ new = [] := by
  have hadv : some ({ s with
      current_depth := s.current_depth + 1
      frontier := s.next
      next := fun _ => []
      levels := s.levels + 1
      phase := .test }, []) = some (s', new) := by
    rw [← hx]
    unfold State.advance
    rcases hphase with hphase | hphase <;> rw [hphase]
  cases hadv
  have hbase := h.base
  have hdepth := hbase.depth
  have hwithin : ∀ v, Layers.Within g.Adj root (s.levels + 1) v → (s.vertex v).parent ≠ -1 := by
    intro v hv
    rcases Layers.within_succ.mp hv with hv | ⟨u, hu, huv⟩
    · exact hbase.within v hv
    · rcases h.pending u v hu huv with hp | ⟨x, hx, _⟩
      · exact hp
      · exact absurd hx (notMem_zero x)
  refine ⟨⟨hbase.aborted, by simp only; omega, hbase.root_level, hbase.parent_iff, hwithin,
    fun _ v hv => ?_, fun v hv hp => .inl ?_, hbase.placed, fun c v => ⟨fun hv => ?_, ?_⟩,
    fun c v hv => absurd hv List.not_mem_nil, fun c => List.nodup_nil⟩, fun c => rfl, rfl, rfl, rfl⟩
  · rcases hbase.found v (valid_of_within hroot hv) (hwithin v hv) with hold | ⟨_, hlevel⟩
    · rcases Nat.eq_zero_or_pos s.levels with hzero | hpos
      · rw [hzero] at hold
        obtain rfl := Layers.within_zero.mp hold
        have hlevel := hbase.root_level
        simp only
        omega
      · have hlt := hbase.level_lt hpos v hold
        simp only
        omega
    · simp only
      omega
  · rcases hbase.found v hv hp with hold | ⟨hmem, _⟩
    · exact hold.mono (Nat.le_succ _)
    · exact (hbase.next _ v hmem).2.2.within
  · obtain ⟨hcore, _, hat⟩ := hbase.next c v hv
    exact ⟨hcore, hat⟩
  · rintro ⟨rfl, hat⟩
    rcases hbase.found v (valid_of_within hroot hat.within) (hwithin v hat.within) with
      ⟨m, hm, hpath⟩ | ⟨hmem, _⟩
    · have hle : s.levels + 1 ≤ m := hat.2 hpath
      omega
    · exact hmem

/-! ### Every level ends -/

/-- What a step does to the vertices: at most one that had no parent is given one. -/
structure Step (s s' : State g.nv n) : Prop where
  phase : s'.phase = s.phase
  levels : s'.levels = s.levels
  vertex : s'.vertex = s.vertex ∧ s'.next = s.next ∨
    ∃ u v : g.V, ∃ level, g.valid v = true ∧ (s.vertex v).parent = -1 ∧
      s'.vertex = Function.update s.vertex v { parent := u.val, level := level }

theorem Step.same (hphase : s'.phase = s.phase) (hlevels : s'.levels = s.levels)
    (hvertex : s'.vertex = s.vertex) (hnext : s'.next = s.next) : Step s s' :=
  ⟨hphase, hlevels, .inl ⟨hvertex, hnext⟩⟩

theorem step_discover {u v : g.V} (hv : g.valid v = true) (hp : (s.vertex v).parent = -1) :
    Step s (s.discover first u v) := by
  simp only [State.discover]
  split
  · exact ⟨rfl, rfl, .inr ⟨u, v, s.current_depth, hv, hp, rfl⟩⟩
  · exact .same rfl rfl rfl rfl

theorem step_claim {u v : g.V} (hv : g.valid v = true) : Step s (s.claim first u v) := by
  unfold State.claim
  split
  · rename_i hp
    exact step_discover hv hp
  · exact .same rfl rfl rfl rfl

theorem Item.exec_step (hitem : Allowed root k x) (hbase : Base first root k s)
    {new : List (Item g.nv n E)} (hx : x.exec first loop_threshold s = some (s', new)) : Step s s' := by
  cases x with
  | share c spawned todo =>
    cases todo with
    | nil => cases spawned <;> obtain ⟨rfl, rfl⟩ := Prod.mk.inj (Option.some.inj hx) <;>
        exact .same rfl rfl rfl rfl
    | cons i todo =>
      cases hx
      exact .same rfl rfl rfl rfl
  | visit c i edges =>
    simp only [Item.exec] at hx
    split at hx
    · cases hx
      exact .same rfl rfl rfl rfl
    · cases edges with
      | nil =>
        cases hx
        exact .same rfl rfl rfl rfl
      | cons e edges =>
        simp only at hx
        split at hx
        · cases hx
          exact step_claim (g.valid_of_adj i e (hitem.2 e List.mem_cons_self)).2
        · cases hx
          exact .same rfl rfl rfl rfl
  | claim c i j =>
    cases hx
    exact step_claim hitem.2.valid_right
  | enter =>
    simp only [Item.exec] at hx
    split at hx
    · split at hx <;> obtain ⟨rfl, rfl⟩ := Prod.mk.inj (Option.some.inj hx) <;>
        exact .same rfl rfl rfl rfl
    · cases hx
      exact .same rfl rfl rfl rfl
  | reset c =>
    simp only [Item.exec] at hx
    split at hx <;> obtain ⟨rfl, rfl⟩ := Prod.mk.inj (Option.some.inj hx) <;>
      exact .same rfl rfl rfl rfl
  | found v u =>
    cases hx
    split
    · rename_i hlevel
      have hv := hitem.2.valid_right
      exact step_discover hv ((hbase.parent_iff v hv).mpr hlevel)
    · exact .same rfl rfl rfl rfl
  | cancel c spawned i todo | completion c | search v | search_edge v u | probe v u =>
    cases hx
    exact .same rfl rfl rfl rfl

theorem Step.stray (h : Step s s') {v : g.V} (hv : g.valid v = false) :
    (s'.vertex v).parent = (s.vertex v).parent := by
  rcases h.vertex with ⟨hsame, _⟩ | ⟨u, w, level, hw, _, hvertex⟩
  · rw [hsame]
  · have hne : v ≠ w := by
      rintro rfl
      rw [hv] at hw
      cases hw
    rw [hvertex, update_of_ne hne]

/-- The number of vertices that are not found. -/
def unfound (s : State g.nv n) : ℕ := (Finset.univ.filter fun v => (s.vertex v).parent = -1).card

theorem Step.unfound (h : Step s s') :
    s'.next = s.next ∧ unfound s' = unfound s ∨ unfound s' < unfound s := by
  rcases h.vertex with ⟨hsame, hnext⟩ | ⟨u, v, level, _, hp, hvertex⟩
  · refine .inl ⟨hnext, ?_⟩
    unfold BeamerBfs.unfound
    rw [hsame]
  · refine .inr (Finset.card_lt_card ⟨fun w hw => ?_, fun hsubset => ?_⟩)
    · rw [Finset.mem_filter, hvertex] at hw
      by_cases hwv : w = v
      · rw [hwv]
        simpa using hp
      · rw [update_of_ne hwv] at hw
        simpa using hw.2
    · have hmem := hsubset (Finset.mem_filter.mpr ⟨Finset.mem_univ v, hp⟩)
      rw [Finset.mem_filter, hvertex, update_self] at hmem
      have hneg : (u.val : ℤ) = -1 := hmem.2
      omega

/-- The rank of an item: that of its kind, and what is left of its loop. -/
def Item.rank : Item g.nv n E → ℕ ×ₗ ℕ
  | .share _ _ todo => toLex (5, 2 * todo.length + 1)
  | .cancel _ _ _ todo => toLex (5, 2 * todo.length + 2)
  | .visit _ _ edges => toLex (4, edges.length)
  | .claim _ _ _ | .search _ => toLex (3, 0)
  | .completion _ | .search_edge _ _ => toLex (2, 0)
  | .enter | .probe _ _ => toLex (1, 0)
  | .reset _ | .found _ _ => toLex (0, 0)

theorem half_lt {loop_threshold d : ℕ} (ht : 0 < loop_threshold) (hd : loop_threshold < d) :
    0 < (d + 1) / 2 ∧ (d + 1) / 2 < d := by
  omega

theorem loop_decomposition_rank (ht : 0 < loop_threshold) (c : Fin (n + 1)) (spawned : Bool)
    (i : g.V) (todo : List g.V) : ∀ y ∈ loop_decomposition (E := E) loop_threshold c spawned i todo,
      y.rank < toLex (5, 2 * todo.length + 2) := by
  intro y hy
  simp only [loop_decomposition] at hy
  split at hy
  · rename_i hlt
    obtain ⟨h0, hm⟩ := half_lt ht hlt
    rw [List.length_cons] at h0 hm
    rcases List.mem_pair.mp hy with rfl | rfl <;> simp [Item.rank, Prod.Lex.toLex_lt_toLex] <;> omega
  · rcases List.mem_pair.mp hy with rfl | rfl <;> simp [Item.rank, Prod.Lex.toLex_lt_toLex]

theorem Item.rank_lt (ht : 0 < loop_threshold) {new : List (Item g.nv n E)}
    (hx : x.exec first loop_threshold s = some (s', new)) : ∀ y ∈ new, y.rank < x.rank := by
  cases x with
  | share c spawned todo =>
    cases todo with
    | nil =>
      cases spawned <;> cases hx
      · simp
      · split <;> simp [rank, Prod.Lex.toLex_lt_toLex]
    | cons i todo =>
      cases hx
      have hlt : (toLex (5, 2 * todo.length + 2) : ℕ ×ₗ ℕ) < toLex (5, 2 * (todo.length + 1) + 1) :=
        Prod.Lex.toLex_lt_toLex.mpr (.inr ⟨rfl, Nat.lt_succ_self _⟩)
      split
      · simpa [rank] using hlt
      · exact fun y hy => (loop_decomposition_rank ht c spawned i todo y hy).trans hlt
  | cancel c spawned i todo =>
    cases hx
    exact loop_decomposition_rank ht c spawned i todo
  | visit c i edges =>
    simp only [Item.exec] at hx
    split at hx
    · rename_i hlt
      cases hx
      obtain ⟨h0, hm⟩ := half_lt ht hlt
      intro y hy
      rcases List.mem_pair.mp hy with rfl | rfl <;> simp [rank, Prod.Lex.toLex_lt_toLex] <;> omega
    · cases edges with
      | nil =>
        cases hx
        split <;> simp [rank, Prod.Lex.toLex_lt_toLex]
      | cons e edges =>
        simp only at hx
        split at hx <;> cases hx <;> simp [rank, Prod.Lex.toLex_lt_toLex]
  | enter | reset c =>
    simp only [Item.exec] at hx
    repeat' split at hx
    all_goals
      cases hx
      simp [rank, Prod.Lex.toLex_lt_toLex]
  | search v =>
    cases hx
    intro y hy
    obtain ⟨e, -, rfl⟩ := List.mem_map.mp (List.mem_ite_nil_right.mp hy).2
    simp [rank, Prod.Lex.toLex_lt_toLex]
  | completion c | search_edge v u | probe v u =>
    cases hx
    split <;> simp [rank, Prod.Lex.toLex_lt_toLex]
  | claim c i j | found v u =>
    cases hx
    simp [rank, Prod.Lex.toLex_lt_toLex]

/-! ### The whole search -/

/-- No search is in progress, and the completion event is idle. -/
structure Ready (s : State g.nv n) : Prop where
  aborted : s.aborted = false
  depth : 0 ≤ s.current_depth
  count : ∀ c, s.count c = 0
  cores_out : s.cores_out = 0
  temporary_waking_cores_out : s.temporary_waking_cores_out = 0

/-- What holds in the phases. -/
def InPhase (first : Fin (n + 1)) (root : g.V) (s : State g.nv n)
    (pool : Multiset (Item g.nv n E)) : Prop :=
  match s.phase with
  | .start => pool = 0 ∧ s.aborted = false ∧ 0 ≤ s.current_depth
  | .test => pool = 0 ∧ Base first root s.levels s ∧ ∀ c, s.next c = []
  | .top_down | .bottom_up => Level first root s.levels s pool

/-- What holds between any two steps. -/
structure Inv (first : Fin (n + 1)) (root : g.V) (memory : g.V → ℤ) (s : State g.nv n)
    (pool : Multiset (Item g.nv n E)) : Prop where
  counts : Counts s pool
  stray : ∀ v, g.valid v = false → (s.vertex v).parent = memory v
  phase : InPhase first root s pool

theorem Inv.level (h : Inv first root memory s (x ::ₘ rest)) :
    (s.phase = .top_down ∨ s.phase = .bottom_up) ∧ Level first root s.levels s (x ::ₘ rest) := by
  have hphase := h.phase
  unfold InPhase at hphase
  split at hphase
  · exact absurd hphase.1 cons_ne_zero
  · exact absurd hphase.1 cons_ne_zero
  · rename_i heq
    exact ⟨.inl heq, hphase⟩
  · rename_i heq
    exact ⟨.inr heq, hphase⟩

theorem Inv.of_level {pool : Multiset (Item g.nv n E)} (hcounts : Counts s pool)
    (hstray : ∀ v, g.valid v = false → (s.vertex v).parent = memory v)
    (hphase : s.phase = .top_down ∨ s.phase = .bottom_up) (hlevel : Level first root s.levels s pool) :
    Inv first root memory s pool := by
  refine ⟨hcounts, hstray, ?_⟩
  unfold InPhase
  rcases hphase with hphase | hphase <;> rw [hphase] <;> exact hlevel

theorem Counts.reset (h : Counts s (x ::ₘ rest)) {c : Fin (n + 1)} (hx : x = .reset c) :
    s.count c = 0 := by
  subst hx
  refine (h.idle ?_).1 c
  rw [h.resets, map_cons, sum_cons]
  simp only [Item.resets]
  omega

theorem Inv.exec (hg : g.Undirected) (h : Inv first root memory s (x ::ₘ rest)) (hheld : Held s x)
    {new : List (Item g.nv n E)} (hx : x.exec first loop_threshold s = some (s', new)) :
    Inv first root memory s' (rest + new) := by
  obtain ⟨hphase, hlevel⟩ := h.level
  have hstep := Item.exec_step (hlevel.items x (mem_cons_self x rest)) hlevel.base hx
  refine .of_level (h.counts.exec hheld hx) (fun v hv => ?_) ?_ ?_
  · rw [hstep.stray hv]
    exact h.stray v hv
  · rw [hstep.phase]
    exact hphase
  · rw [hstep.levels]
    refine hlevel.exec hg ?_ (fun c hc => h.counts.reset hc) hx
    rintro rfl hout
    exact hheld hout master_core

theorem Counts.spawn (h : Counts s (0 : Multiset (Item g.nv n E)))
    (hsame : s'.count = s.count ∧ s'.cores_out = s.cores_out ∧
      s'.temporary_waking_cores_out = s.temporary_waking_cores_out) {new : List (Item g.nv n E)}
    (hnew : ∀ y ∈ new, (∀ c, y.units c = 0) ∧ y.out = 0 ∧ y.resets = 0) :
    Counts s' (new : Multiset (Item g.nv n E)) := by
  obtain ⟨hcount, hcores, hresets⟩ := hsame
  have hworking : working s' = working s := by
    unfold working
    rw [hcount]
  refine ⟨fun c => ?_, ?_, ?_, ?_⟩
  · rw [hcount, h.count c, map_zero, sum_zero, map_coe, sum_coe]
    refine (List.sum_eq_zero fun m hm => ?_).symm
    obtain ⟨y, hy, rfl⟩ := List.mem_map.mp hm
    exact (hnew y hy).1 c
  · rw [hcores, hworking, h.out, map_zero, sum_zero, map_coe,
      sum_coe]
    refine congrArg (working s + ·) (List.sum_eq_zero fun m hm => ?_).symm
    obtain ⟨y, hy, rfl⟩ := List.mem_map.mp hm
    exact (hnew y hy).2.1
  · rw [hresets, h.resets, map_zero, sum_zero, map_coe, sum_coe]
    refine (List.sum_eq_zero fun m hm => ?_).symm
    obtain ⟨y, hy, rfl⟩ := List.mem_map.mp hm
    exact (hnew y hy).2.2
  · rw [hresets, hcount, hcores]
    exact h.idle

theorem State.advance_counts {new : List (Item g.nv n E)} (h : Counts s (0 : Multiset (Item g.nv n E)))
    (hx : s.advance first directions root = some (s', new)) :
    Counts s' (new : Multiset (Item g.nv n E)) := by
  obtain ⟨hsame, hnew⟩ : (s'.count = s.count ∧ s'.cores_out = s.cores_out ∧
      s'.temporary_waking_cores_out = s.temporary_waking_cores_out) ∧
      ∀ y ∈ new, (∀ c, y.units c = 0) ∧ y.out = 0 ∧ y.resets = 0 := by
    unfold State.advance at hx
    split at hx
    · cases hx
      exact ⟨⟨rfl, rfl, rfl⟩, by simp⟩
    · split at hx
      · cases hx
      · split at hx
        · cases hx
          refine ⟨⟨rfl, rfl, rfl⟩, fun y hy => ?_⟩
          obtain ⟨c, _, rfl⟩ := List.mem_map.mp hy
          exact ⟨fun c => rfl, rfl, rfl⟩
        · cases hx
          refine ⟨⟨rfl, rfl, rfl⟩, fun y hy => ?_⟩
          obtain ⟨v, _, rfl⟩ := List.mem_map.mp hy
          exact ⟨fun c => rfl, rfl, rfl⟩
    · cases hx
      exact ⟨⟨rfl, rfl, rfl⟩, by simp⟩
    · cases hx
      exact ⟨⟨rfl, rfl, rfl⟩, by simp⟩
  exact h.spawn hsame hnew

theorem State.advance_stray (hroot : g.valid root = true) {new : List (Item g.nv n E)}
    (hx : s.advance first directions root = some (s', new)) {v : g.V} (hv : g.valid v = false) :
    (s'.vertex v).parent = (s.vertex v).parent := by
  have hne : v ≠ root := by
    rintro rfl
    rw [hv] at hroot
    cases hroot
  unfold State.advance at hx
  split at hx
  · cases hx
    simp only [update_of_ne hne, hv]
    rfl
  · split at hx
    · cases hx
    · split at hx <;> obtain ⟨rfl, rfl⟩ := Prod.mk.inj (Option.some.inj hx) <;> rfl
  · cases hx
    rfl
  · cases hx
    rfl

theorem Inv.advance (hroot : g.valid root = true) (h : Inv first root memory s 0)
    {new : List (Item g.nv n E)} (hx : s.advance first directions root = some (s', new)) :
    Inv first root memory s' new := by
  have hcounts := State.advance_counts h.counts hx
  have hstray : ∀ v, g.valid v = false → (s'.vertex v).parent = memory v := by
    intro v hv
    rw [State.advance_stray hroot hx hv]
    exact h.stray v hv
  have hphase := h.phase
  unfold InPhase at hphase
  split at hphase
  · rename_i heq
    obtain ⟨hbase, hnext, hlevels, hphase', rfl⟩ := base_zero hroot hphase.2.1 hphase.2.2 heq hx
    refine ⟨hcounts, hstray, ?_⟩
    unfold InPhase
    rw [hphase']
    exact ⟨rfl, by rw [hlevels]; exact hbase, hnext⟩
  · rename_i heq
    obtain ⟨hlevel, hphase', _⟩ := hphase.2.1.level heq hx
    exact .of_level hcounts hstray hphase' hlevel
  all_goals
    rename_i heq
    obtain ⟨hbase, hnext, _, hphase', rfl⟩ := hphase.advance hroot (by simp [heq]) hx
    refine ⟨hcounts, hstray, ?_⟩
    unfold InPhase
    rw [hphase']
    exact ⟨rfl, hbase, hnext⟩

/-- What is left to do before the search, what there is to find, and whether this level is the
    last. -/
def left (s : State g.nv n) : ℕ ×ₗ ℕ ×ₗ ℕ :=
  toLex (if s.phase = .start then 1 else 0, toLex (unfound s, match s.phase with
    | .start => 0
    | .test => if ∀ c, s.frontier c = [] then 0 else 2
    | .top_down | .bottom_up => if ∀ c, s.next c = [] then 1 else 3))

/-- A vertex is found, or as much is left as before. -/
theorem left_exec (h : Inv first root memory s (x ::ₘ rest)) {new : List (Item g.nv n E)}
    (hx : x.exec first loop_threshold s = some (s', new)) : left s' < left s ∨ left s' = left s := by
  obtain ⟨hphase, hlevel⟩ := h.level
  have hstep := Item.exec_step (hlevel.items x (mem_cons_self x rest)) hlevel.base hx
  unfold left
  rw [hstep.phase]
  rcases hstep.unfound with ⟨hnext, hsame⟩ | hlt
  · right
    rw [hnext, hsame]
    rcases hphase with hphase | hphase <;> rw [hphase]
  · exact .inl (Prod.Lex.toLex_lt_toLex.mpr (.inr ⟨rfl, Prod.Lex.toLex_lt_toLex.mpr (.inl hlt)⟩))

theorem State.advance_unfound {new : List (Item g.nv n E)} (hphase : s.phase ≠ .start)
    (hx : s.advance first directions root = some (s', new)) : unfound s' = unfound s := by
  unfold State.advance at hx
  split at hx
  · contradiction
  · split at hx
    · cases hx
    · split at hx <;> obtain ⟨rfl, rfl⟩ := Prod.mk.inj (Option.some.inj hx) <;> rfl
  · cases hx
    rfl
  · cases hx
    rfl

theorem left_advance (hroot : g.valid root = true) (h : Inv first root memory s 0)
    {new : List (Item g.nv n E)} (hx : s.advance first directions root = some (s', new)) :
    left s' < left s := by
  have hphase := h.phase
  unfold InPhase at hphase
  split at hphase
  · rename_i heq
    obtain ⟨_, _, _, hphase', _⟩ := base_zero hroot hphase.2.1 hphase.2.2 heq hx
    refine Prod.Lex.toLex_lt_toLex.mpr (.inl ?_)
    rw [heq, hphase']
    simp
  · rename_i heq
    obtain ⟨_, hphase', hnext'⟩ := hphase.2.1.level heq hx
    have hunfound := State.advance_unfound (by simp [heq]) hx
    have hfrontier : ¬∀ c, s.frontier c = [] := by
      intro hempty
      unfold State.advance at hx
      rw [heq] at hx
      simp [hempty] at hx
    have hnext : ∀ c, s'.next c = [] := by
      rw [hnext']
      exact hphase.2.2
    unfold left
    rw [hunfound, heq]
    -- the level is taken for the last one until something is found
    rcases hphase' with hphase' | hphase' <;> rw [hphase'] <;>
      refine Prod.Lex.toLex_lt_toLex.mpr (.inr ⟨rfl, Prod.Lex.toLex_lt_toLex.mpr (.inr ⟨rfl, ?_⟩)⟩) <;>
      simp only [if_neg hfrontier, if_pos hnext] <;> omega
  all_goals
    rename_i heq
    obtain ⟨_, _, hfrontier, hphase', rfl⟩ := hphase.advance hroot (by simp [heq]) hx
    have hunfound := State.advance_unfound (by simp [heq]) hx
    unfold left
    rw [hunfound, heq, hphase', hfrontier]
    refine Prod.Lex.toLex_lt_toLex.mpr (.inr ⟨rfl, Prod.Lex.toLex_lt_toLex.mpr (.inr ⟨rfl, ?_⟩)⟩)
    by_cases hempty : ∀ c, s.next c = []
    · simp only [if_pos hempty]
      omega
    · simp only [if_neg hempty]
      omega

/-- An item can go on if it is `Held`; where none is, some core is enrolled or is being reset, and
    the item that is to end that is itself `Held`. -/
theorem Counts.exists_held {pool : Multiset (Item g.nv n E)} (h : Counts s pool) (hpool : pool ≠ 0) :
    ∃ x ∈ pool, Held s x := by
  by_contra hnone
  push Not at hnone
  obtain ⟨x, hx⟩ := exists_mem_of_ne_zero hpool
  have hidle : s.temporary_waking_cores_out = 0 := by
    rw [h.resets]
    refine sum_eq_zero fun m hm => ?_
    obtain ⟨y, hy, rfl⟩ := mem_map.mp hm
    cases y with
    | reset c => exact absurd trivial (hnone _ hy)
    | share c spawned todo | cancel c spawned i todo | visit c i edges | claim c i j | completion c | enter | search v
    | search_edge v u | probe v u | found v u => rfl
  have henter : ∀ y ∈ pool, y = .enter := by
    intro y hy
    have hnot := hnone y hy
    cases y with
    | enter => rfl
    | share c spawned todo =>
      cases todo with
      | nil => exact absurd trivial hnot
      | cons i todo => exact absurd hidle hnot
    | cancel c spawned i todo | visit c i edges | claim c i j | completion c | reset c | search v
    | search_edge v u | probe v u | found v u => exact absurd trivial hnot
  have hzero : ∀ c, s.count c = 0 := by
    intro c
    rw [h.count c]
    refine sum_eq_zero fun m hm => ?_
    obtain ⟨y, hy, rfl⟩ := mem_map.mp hm
    rw [henter y hy]
    rfl
  have hnot := hnone x hx
  rw [henter x hx] at hnot
  exact hnot fun _ => hzero

theorem Item.exec_ne_none (first : Fin (n + 1)) (loop_threshold : ℕ) (s : State g.nv n)
    (x : Item g.nv n E) : x.exec first loop_threshold s ≠ none := by
  cases x with
  | share c spawned todo => cases todo <;> simp [Item.exec]
  | visit c i edges =>
    simp only [Item.exec]
    split
    · simp
    · cases edges with
      | nil => simp
      | cons e edges =>
        simp only
        split <;> simp
  | enter =>
    simp only [Item.exec]
    split
    · split <;> simp
    · simp
  | reset c =>
    simp only [Item.exec]
    split <;> simp
  | cancel c spawned i todo | claim c i j | completion c | search v | search_edge v u | probe v u | found v u =>
    simp [Item.exec]

/-! ### Results -/

/-- What a search is to leave behind. -/
structure Searched (root : g.V) (s : State g.nv n) : Prop where
  parent_root : (s.vertex root).parent = root.val
  unreached : ∀ v, (s.vertex v).parent = -1 ↔ ¬g.Connected root v
  reached : ∀ v, v ≠ root → g.Connected root v → ∃ u m, (s.vertex v).parent = u.val ∧ g.Adj v u ∧
    Layers.At g.Adj root m u ∧ Layers.At g.Adj root (m + 1) v

theorem Inv.aborted {pool : Multiset (Item g.nv n E)} (h : Inv first root memory s pool) :
    s.aborted = false := by
  have hphase := h.phase
  unfold InPhase at hphase
  split at hphase
  · exact hphase.2.1
  · exact hphase.2.1.aborted
  · exact hphase.base.aborted
  · exact hphase.base.aborted

theorem Inv.searched (hg : g.Undirected) (hroot : g.valid root = true)
    (hmemory : ∀ v, g.valid v = false → memory v = -1) (h : Inv first root memory s 0)
    (hret : s.advance first directions root = none) : Searched root s ∧ Ready s := by
  have hphase := h.phase
  unfold InPhase at hphase
  unfold State.advance at hret
  split at hphase
  case h_2 heq =>
    obtain ⟨_, hbase, hnext⟩ := hphase
    rw [heq] at hret
    have hfrontier : ∀ c, s.frontier c = [] := by
      by_contra hne
      simp only [if_neg hne] at hret
      split at hret <;> cases hret
    have hempty : ∀ u, ¬Layers.At g.Adj root s.levels u := by
      intro u hu
      have hmem := (hbase.frontier (vertex_core g n first u) u).mpr ⟨rfl, hu⟩
      rw [hfrontier] at hmem
      cases hmem
    have hfound : ∀ v, g.Connected root v → (s.vertex v).parent ≠ -1 := by
      intro v hv
      obtain ⟨m, hpath⟩ := Layers.exists_path.mpr hv
      exact hbase.within v (hpath.within_of_empty hempty)
    have hvalid : ∀ v, g.Connected root v → g.valid v = true := fun v hv => hv.valid hroot
    refine ⟨⟨?_, fun v => ⟨fun hp hv => hfound v hv hp, fun hv => ?_⟩, fun v hne hv => ?_⟩, ?_⟩
    · rcases hbase.placed root hroot (hfound root .refl) with ⟨_, hp⟩ | ⟨hne, _⟩
      · exact hp
      · exact absurd rfl hne
    · by_contra hp
      by_cases hval : g.valid v = true
      · rcases hbase.placed v hval hp with ⟨rfl, _⟩ | ⟨_, u, m, _, _, _, hat⟩
        · exact hv .refl
        · exact hv (Layers.exists_path.mp ⟨m + 1, hat.1⟩)
      · have hval' : g.valid v = false := by simpa using hval
        rw [h.stray v hval', hmemory v hval'] at hp
        exact hp rfl
    · rcases hbase.placed v (hvalid v hv) (hfound v hv) with ⟨heq, _⟩ | ⟨_, u, m, hp, huv, hu, hat⟩
      · exact absurd heq hne
      · exact ⟨u, m, hp, hg u v huv, hu, hat⟩
    · have hcount : ∀ c, s.count c = 0 := fun c => by simpa using h.counts.count c
      have hout := h.counts.out
      rw [working_eq_zero hcount] at hout
      exact ⟨hbase.aborted, hbase.depth, hcount, by simpa using hout, by simpa using h.counts.resets⟩
  all_goals
    rename_i heq
    rw [heq] at hret
    cases hret

/-- **Breadth-first search** from a root that has a neighbour: whenever the event of the top-down
    loop is `Held`, every order of the visits ends, with the parents on shortest paths, and the next
    search can begin.

    The vertices that `forall` does not visit hold their `-1` from before. -/
theorem bfs_correct (directions : ℕ → Bool) (hthreshold : 0 < loop_threshold)
    (hg : g.Undirected) (hroot : ∃ v, g.Adj root v)
    (hready : Ready s) (hphase : s.phase = .start)
    (hmemory : ∀ v, g.valid v = false → (s.vertex v).parent = -1) :
    (((bfs first loop_threshold directions root).restrict Held).system s).Terminates ⟨s, []⟩ ∧
    ∀ t, (((bfs first loop_threshold directions root).restrict Held).system s).Reachable t →
      t.shared.aborted = false ∧
      ((∀ l, ((bfs first loop_threshold directions root).restrict Held).next t l = none) →
        (bfs first loop_threshold directions root).Ended t ∧ Searched root t.shared ∧ Ready t.shared) := by
  obtain ⟨w, hw⟩ := hroot
  have hroot : g.valid root = true := hw.valid_left
  let memory : g.V → ℤ := fun v => (s.vertex v).parent
  have hinit : Inv first root memory s (0 : Multiset (Item g.nv n E)) := by
    refine ⟨⟨fun c => ?_, ?_, ?_, fun _ => ⟨hready.count, hready.cores_out⟩⟩, fun v _ => rfl, ?_⟩
    · simpa using hready.count c
    · simpa [working_eq_zero hready.count] using hready.cores_out
    · simpa using hready.temporary_waking_cores_out
    · unfold InPhase
      rw [hphase]
      exact ⟨rfl, hready.aborted, hready.depth⟩
  have hexec : ∀ (t : State g.nv n) (x : Item g.nv n E) rest t' (new : List (Item g.nv n E)),
      Inv first root memory t (x ::ₘ rest) →
      ((bfs first loop_threshold directions root).restrict Held).exec t x = some (t', new) →
      Inv first root memory t' (rest + new) ∧
        (left t' < left t ∨ left t' = left t ∧ ∀ y ∈ new, y.rank < x.rank) := by
    intro t x rest t' new h hx
    simp only [Program.restrict, bfs, h.aborted, Bool.false_eq_true, if_false] at hx
    split at hx
    · rename_i hheld
      exact ⟨h.exec hg hheld hx,
        (left_exec h hx).imp_right fun heq => ⟨heq, Item.rank_lt hthreshold hx⟩⟩
    · cases hx
  have hadvance : ∀ (t t' : State g.nv n) (new : List (Item g.nv n E)),
      Inv first root memory t 0 →
      ((bfs first loop_threshold directions root).restrict Held).advance t = some (t', new) →
      Inv first root memory t' new ∧ left t' < left t := by
    intro t t' new h hx
    simp only [Program.restrict, bfs, h.aborted, Bool.false_eq_true, if_false] at hx
    exact ⟨h.advance hroot hx, left_advance hroot h hx⟩
  refine ⟨Program.terminates_of_rank (Inv first root memory) Item.rank (fun s _ => left s)
    hinit hexec hadvance, fun t ht => ?_⟩
  have hinv : Inv first root memory t.shared (t.pool : Multiset (Item g.nv n E)) :=
    Program.Reachable.inv (Inv first root memory) hinit
      (fun t x rest t' new h hx => (hexec t x rest t' new h hx).1)
      (fun t t' new h hx => (hadvance t t' new h hx).1) ht
  refine ⟨hinv.aborted, fun hstuck => ?_⟩
  have hpool : t.pool = [] := by
    by_contra hne
    obtain ⟨x, hx, hheld⟩ := hinv.counts.exists_held (by simpa using hne)
    obtain ⟨r, hr⟩ := Option.ne_none_iff_exists'.mp 
      (Item.exec_ne_none first loop_threshold t.shared x)
    have hexec : ((bfs first loop_threshold directions root).restrict Held).exec t.shared x = some r := by
      simp only [Program.restrict, bfs, hinv.aborted, Bool.false_eq_true, if_false]
      rw [if_pos hheld, hr]
    obtain ⟨l, hl⟩ := Program.exists_next_of_mem (mem_coe.mp hx) hexec
    exact hl (hstuck (.item l))
  have hret : (bfs first loop_threshold directions root).advance t.shared = none := by
    have hnext := hstuck .advance
    simpa [Program.next, hpool, Program.restrict] using hnext
  have hret' : t.shared.advance (E := E) first directions root = none := by
    simpa only [bfs, hinv.aborted, Bool.false_eq_true, if_false] using hret
  rw [hpool] at hinv
  exact ⟨⟨hpool, hret⟩, hinv.searched hg hroot hmemory hret'⟩

/-! ### Two cores -/

/-- Vertex 0 is on core 0 with its neighbour 2; its neighbour 1 is on core 1. -/
def star : AppGraph Unit :=
  .ofEdges 3 AppGraph.three_lt [(0, 1, ()), (1, 0, ()), (0, 2, ()), (2, 0, ())]

/-- Before the first search. -/
def fresh (g : AppGraph Unit) (n : ℕ) : State g.nv n :=
  ⟨fun _ => ⟨-1, -1⟩, 0, fun _ => [], fun _ => [], fun _ => 0, 0, 0, false, 0, .start⟩

theorem fresh_ready (g : AppGraph Unit) (n : ℕ) : Ready (fresh g n) :=
  ⟨rfl, le_rfl, fun _ => rfl, rfl, rfl⟩

theorem star_undirected : star.Undirected := AppGraph.undirected_ofEdges (by decide)

theorem star_adj : star.Adj (0 : Fin 3) (1 : Fin 3) := ⟨(), AppGraph.adj_ofEdges.mpr (by simp)⟩

theorem bfs_correct_star :
    (((bfs 0 16 (fun _ => true) (0 : Fin 3)).restrict Held).system (fresh star 1)).Terminates
      ⟨fresh star 1, []⟩ ∧
    ∀ t, (((bfs 0 16 (fun _ => true) (0 : Fin 3)).restrict Held).system (fresh star 1)).Reachable t →
      t.shared.aborted = false ∧
      ((∀ l, ((bfs (g := star) 0 16 (fun _ => true) (0 : Fin 3)).restrict Held).next t l = none) →
        (bfs (g := star) 0 16 (fun _ => true) (0 : Fin 3)).Ended t ∧
          Searched (g := star) (0 : Fin 3) t.shared ∧ Ready t.shared) :=
  bfs_correct (g := star) (s := fresh star 1) (fun _ => true) (by omega)
    star_undirected ⟨(1 : Fin 3), star_adj⟩ (fresh_ready star 1) rfl fun _ _ => rfl

/-- Level 0 and then core 0 in level 1, where core 1 starts its share between the end of the event
    and its own reset. -/
def late_share_labels : List Phased.Label :=
  [.advance, .advance] ++ List.replicate 12 (.item 0) ++ [.advance, .advance, .item 0] ++
    List.replicate 5 (.item 1) ++ [.item 0, .item 1]

/-- **A late share**: the event is reset on a core that has enrolled, and its check stops the
    program. -/
theorem late_share :
    star.Undirected ∧ (∃ v, star.Adj (0 : Fin 3) v) ∧ Ready (fresh star 1) ∧
    ∃ t, ((bfs 0 16 (fun _ => true) (0 : Fin 3)).system (fresh star 1)).run
        ⟨fresh star 1, []⟩ late_share_labels = some t ∧
      t.shared.aborted = true ∧
      ∀ l, (bfs (g := star) 0 16 (fun _ => true) (0 : Fin 3)).next t l = none := by
  have hend : (((bfs 0 16 (fun _ => true) (0 : Fin 3)).system (fresh star 1)).run
      ⟨fresh star 1, []⟩ late_share_labels).map (fun t => t.shared.aborted) = some true := by
    decide +kernel
  obtain ⟨t, hrun, ht⟩ := Option.map_eq_some_iff.mp hend
  refine ⟨star_undirected, ⟨(1 : Fin 3), star_adj⟩, fresh_ready star 1, t, hrun, ht, fun l => ?_⟩
  cases l with
  | item k => simp [Program.next, bfs, ht]
  | advance => simp [Program.next, bfs, ht]

end BeamerBfs

end Grappa
