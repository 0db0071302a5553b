import AdvCompArch.Grappa.TreeGenerationRuns

/-! # When the tree generation stalls

    Each child of the root can be stolen by a core of its own.  There it has promised two calls of
    the combiner when it makes the first, so that it joins the round and waits for the second,
    which nobody makes. -/

namespace Grappa

namespace TreeGeneration

open CombinedCounter Phased Multiset
open Multiset (add_bind coe_add coe_nil cons_bind cons_coe map_add map_coe mem_add mem_coe
  mem_singleton_self notMem_zero singleton_bind sum_add sum_coe zero_le)

variable {n : ℕ} {cfg : Config n} {spare : Counter → Fin (n + 1) → Multiset ℕ} {s s' : State n}
  {x y : Item n} {rest pool : Multiset (Item n)} {new : List (Item n)} {k : Counter}
  {c : Fin (n + 1)} {i j : ℕ}

/-! ### The root -/

theorem create_inner {v : Node} (hinner : 0 < cfg.uts_numChildren v.path) :
    (s.tj_create_children c cfg v).2 = [.ids c v .call] ∧
      ∀ k c', (s.tj_create_children c cfg v).1.combiner k c' =
        if c' = c then (s.combiner k c').promise else s.combiner k c' := by
  rw [State.tj_create_children, if_pos hinner]
  exact ⟨rfl, promiseBoth_combiner⟩

theorem reachable_only {m : Memory} (hs : ((par_create_tree cfg).system (init m)).Reachable ⟨s, [x]⟩)
    (h : x.exec cfg s = some (s', new)) :
    ((par_create_tree cfg).system (init m)).Reachable ⟨s', new⟩ := by
  refine hs.next (l := .item 0) ?_
  have hexec : (par_create_tree cfg).exec s x = some (s', new) := h
  simp [Program.system, Program.next, hexec]

theorem exists_root_calls (hpos : 0 < cfg.uts_numChildren []) (m : Memory) :
    ∃ s, ((par_create_tree cfg).system (init m)).Reachable ⟨s, [.ids 0 root .call]⟩ ∧
      (∀ k, Idle (s.combiner k 0) 1) ∧ ∀ k, ∀ c ≠ 0, Idle (s.combiner k c) 0 := by
  obtain ⟨s₀, hs₀, hadvance⟩ : ∃ s₀ : State n, (∀ k c, s₀.combiner k c = .new) ∧
      State.advance cfg (init m) = some (s₀.tj_create_children 0 cfg root) :=
    ⟨_, fun _ _ => rfl, rfl⟩
  obtain ⟨hnew, hcombiner⟩ := create_inner (c := 0) (s := s₀) (v := root) hpos
  refine ⟨(s₀.tj_create_children 0 cfg root).1, ?_, fun k => ?_, fun k c hc => ?_⟩
  · have hstart : ((par_create_tree cfg).system (init m)).Reachable ⟨init m, []⟩ := ⟨[], rfl⟩
    have hexec : (par_create_tree cfg).advance (init m) = _ := hadvance
    refine hstart.next (l := .advance) ?_
    simp [Program.system, Program.next, hexec, hnew]
  · rw [hcombiner, if_pos rfl, hs₀]
    exact new_idle.promise
  · rw [hcombiner, if_neg hc, hs₀]
    exact new_idle

theorem exists_root_stored (hflat : cfg.flat_combine = true) (hpos : 0 < cfg.uts_numChildren [])
    (m : Memory) :
    ∃ s, ((par_create_tree cfg).system (init m)).Reachable
        ⟨s, [.range 0 0 0 (cfg.uts_numChildren [])]⟩ ∧
      (∀ c, Idle (s.combiner .global_id c) 0) ∧ root ∈ s.stored := by
  obtain ⟨s, hstart, hidle, hother⟩ := exists_root_calls hpos m
  obtain ⟨f, t, hids, hf⟩ := fetch_alone hflat rfl (hidle .global_id) (cfg.uts_numChildren [])
  set s₁ := (s.setCombiner .global_id 0 f).setCounter .global_id t with hs₁
  have hcombiner : ∀ k c, s₁.combiner k c = (s.setCombiner .global_id 0 f).combiner k c :=
    fun _ _ => rfl
  have hplace : Idle (s₁.combiner .global_child_index 0) 1 := by
    rw [hcombiner, setCombiner_ne f (by simp)]
    exact hidle _
  obtain ⟨f', t', hplaces, -⟩ := fetch_alone hflat rfl hplace (cfg.uts_numChildren [])
  have hexec₁ : (Item.ids 0 root .call).exec cfg s = _ := congrArg (Option.map _) hids
  have hexec₂ : (Item.places 0 root (s.counter .global_id) .call).exec cfg s₁ = _ :=
    congrArg (Option.map _) hplaces
  have hcalls := reachable_only (reachable_only hstart hexec₁) hexec₂
  refine ⟨_, reachable_only hcalls rfl, fun c => ?_, List.mem_cons_self⟩
  show Idle ((s₁.setCombiner .global_child_index 0 f').combiner .global_id c) 0
  rw [setCombiner_ne f' (by simp), hcombiner]
  by_cases hc : c = 0
  · rw [hc, setCombiner_self]
    exact hf
  · rw [setCombiner_ne f (by simp [hc])]
    exact hother _ c hc

/-! ### The children of the root -/

theorem enter_waits {f : Combiner} {T inc target : ℕ} {here : Bool} (h : Idle f 2) (hT : 2 ≤ T) :
    f.enter T here target inc =
      ⟨f.participate inc, target, .goesOn (.notReceived f.untilReceived)⟩ := by
  have hout : ¬f.outstanding = true := by simp [h.outstanding]
  have hmore : ¬(f.participate inc).MustFlush T := by
    rintro ⟨-, hfew | hnone⟩
    · have hcount : (f.participate inc).participant_count = f.participant_count + 1 := rfl
      rw [hcount, h.participant_count] at hfew
      omega
    · have hcommitted : (f.participate inc).committed = f.committed - 1 := rfl
      rw [hcommitted, h.committed] at hnone
      cases hnone
  rw [Combiner.enter, if_neg hout, Combiner.join, if_neg hmore]

/-- The core that has stolen a child of the root. -/
def thief (n j : ℕ) : Fin (n + 1) :=
  if h : j < n + 1 then ⟨j, h⟩ else ⟨0, Nat.succ_pos n⟩

theorem thief_injective {i j : ℕ} (hi : i ≤ n) (hj : j ≤ n) (h : thief n i = thief n j) : i = j := by
  rw [thief, thief, dif_pos (Nat.lt_succ_of_le hi), dif_pos (Nat.lt_succ_of_le hj)] at h
  exact congrArg Fin.val h

namespace Item

/-- The children of the root that a task is at, or is to make. -/
def numbers : Item n → Multiset ℕ
  | range _ _ start iterations => List.range' start iterations
  | vertex _ _ childnum | child _ _ childnum _ => {childnum}
  | ids _ v _ => v.path
  | _ => 0

/-- A task of children of the root, each on the core that has stolen it, and what that core has
    promised. -/
def Alone (cfg : Config n) (s : State n) : Item n → Prop
  | range c parent_id start iterations =>
    iterations = 0 ∨ parent_id = 0 ∧ c = thief n start ∧
      ∀ j, start ≤ j → j < start + iterations → Idle (s.combiner .global_id (thief n j)) 0
  | vertex c parent_id childnum =>
    parent_id = 0 ∧ c = thief n childnum ∧ Idle (s.combiner .global_id (thief n childnum)) 0
  | child c parent_id childnum _ =>
    parent_id = 0 ∧ c = thief n childnum ∧ Idle (s.combiner .global_id (thief n childnum)) 1
  | ids c v st => ∃ j, v.path = [j] ∧ c = thief n j ∧
    ((st = .call ∧ Idle (s.combiner .global_id (thief n j)) 2) ∨
      st = .notReceived (s.combiner .global_id (thief n j)).untilReceived)
  | places _ _ _ _ => False
  | store _ v _ _ => cfg.uts_numChildren v.path = 0

/-- The steps that a task can still make. -/
def steps : Item n → ℕ
  | range _ _ _ iterations => if iterations = 0 then 1 else 8 * iterations - 1
  | vertex _ _ _ => 6
  | child _ _ _ _ => 5
  | ids _ _ .call => 3
  | store _ _ _ _ => 2
  | _ => 0

end Item

theorem Item.Alone.congr (h : y.Alone cfg s)
    (hsame : ∀ j ∈ y.numbers,
      s'.combiner .global_id (thief n j) = s.combiner .global_id (thief n j)) :
    y.Alone cfg s' := by
  cases y with
  | range c parent_id start iterations =>
    rcases h with hzero | ⟨hparent, hcore, hidle⟩
    · exact .inl hzero
    · refine .inr ⟨hparent, hcore, fun j hlo hhi => ?_⟩
      rw [hsame j (mem_coe.mpr (List.mem_range'_1.mpr ⟨hlo, hhi⟩))]
      exact hidle j hlo hhi
  | vertex c parent_id childnum | child c parent_id childnum p_childIndex =>
    obtain ⟨hparent, hcore, hidle⟩ := h
    refine ⟨hparent, hcore, ?_⟩
    rw [hsame childnum (mem_singleton_self _)]
    exact hidle
  | ids c v st =>
    obtain ⟨j, hpath, hcore, hst⟩ := h
    refine ⟨j, hpath, hcore, ?_⟩
    rw [hsame j (by simp [Item.numbers, hpath])]
    exact hst
  | places _ _ _ _ => exact h
  | store _ _ _ _ => exact h

/-- What a task does that is alone on its core. -/
structure Lone (cfg : Config n) (s s' : State n) (x : Item n) (new : List (Item n)) : Prop where
  alone : ∀ y ∈ new, y.Alone cfg s'
  numbers : (new : Multiset (Item n)).bind Item.numbers = x.numbers ∨
    (new : Multiset (Item n)).bind Item.numbers = 0 ∧
      ∀ j ∈ x.numbers, cfg.uts_numChildren [j] = 0
  other : ∀ c, (∀ j ∈ x.numbers, c ≠ thief n j) → s'.combiner .global_id c = s.combiner .global_id c
  steps : (new.map Item.steps).sum < x.steps
  stored : ∀ v ∈ s.stored, v ∈ s'.stored

theorem Lone.range {parent_id start iterations : ℕ}
    (hsteals : ∀ parent_id j, cfg.runs_on parent_id j = thief n j)
    (h : (Item.range c parent_id start iterations).Alone cfg s) :
    Lone cfg s s (.range c parent_id start iterations)
      (loop_decomposition cfg c parent_id start iterations) := by
  have hstored : ∀ v ∈ s.stored, v ∈ s.stored := fun v hv => hv
  unfold loop_decomposition
  split_ifs with hzero hone
  · subst hzero
    exact ⟨by simp, .inl rfl, fun _ _ => rfl, by simp [Item.steps], hstored⟩
  · -- the body of one child
    obtain rfl : iterations = 1 := by
      unfold CREATE_THRESHOLD at hone
      omega
    obtain ⟨hparent, hcore, hidle⟩ := h.resolve_left hzero
    refine ⟨?_, .inl (singleton_bind _ _), fun _ _ => rfl, by simp [Item.steps], hstored⟩
    intro y hy
    obtain rfl := List.mem_singleton.mp hy
    exact ⟨hparent, hcore, hidle start (le_refl _) (by omega)⟩
  · unfold CREATE_THRESHOLD at hone
    obtain ⟨hparent, hcore, hidle⟩ := h.resolve_left hzero
    refine ⟨?_, .inl ?_, fun _ _ => rfl, ?_, hstored⟩
    · intro y hy
      simp only [List.mem_cons, List.not_mem_nil, or_false] at hy
      rcases hy with rfl | rfl
      · exact .inr ⟨hparent, hsteals _ _, fun j hlo hhi => hidle j (by omega) (by omega)⟩
      · exact .inr ⟨hparent, hcore, fun j hlo hhi => hidle j hlo (by omega)⟩
    · have hsum : (iterations + 1) / 2 + iterations / 2 = iterations := by omega
      rw [← cons_coe, ← cons_coe, cons_bind, cons_bind,
        coe_nil, zero_bind, add_zero]
      simp only [Item.numbers]
      rw [add_comm, coe_add, List.range'_append_1, hsum]
    · have hleft : (iterations + 1) / 2 ≠ 0 := by omega
      have hright : iterations / 2 ≠ 0 := by omega
      simp only [List.map_cons, List.map_nil, List.sum_cons, List.sum_nil, Item.steps, hzero, hleft,
        hright, if_false]
      omega

theorem Lone.child {childnum p_childIndex : ℕ} (hroot : (s.Tree_Nodes 0).path = [])
    (hidle : Idle (s.combiner .global_id (thief n childnum)) 1)
    (hx : (Item.child (thief n childnum) 0 childnum p_childIndex).exec cfg s = some (s', new)) :
    Lone cfg s s' (.child (thief n childnum) 0 childnum p_childIndex) new := by
  set v : Node := ⟨childnum :: (s.Tree_Nodes 0).path, s.Child p_childIndex + childnum⟩ with hv
  have hpath : v.path = [childnum] := by rw [hv, hroot]
  have hmade : s.tj_create_children (thief n childnum) cfg v = (s', new) := Option.some.inj hx
  have hstored : ∀ w ∈ s.stored, w ∈ (s.tj_create_children (thief n childnum) cfg v).1.stored := by
    intro w hw
    rw [State.tj_create_children]
    split
    · exact hw
    · exact hw
  rw [hmade] at hstored
  by_cases hinner : 0 < cfg.uts_numChildren v.path
  · obtain ⟨hnew, hcombiner⟩ := create_inner (s := s) (c := thief n childnum) hinner
    rw [hmade] at hnew hcombiner
    obtain rfl : new = [.ids (thief n childnum) v .call] := hnew
    have hpromised : ∀ k c', s'.combiner k c' = if c' = thief n childnum then
      (s.combiner k c').promise else s.combiner k c' := hcombiner
    constructor
    case alone =>
      intro y hy
      obtain rfl := List.mem_singleton.mp hy
      refine ⟨childnum, hpath, rfl, .inl ⟨rfl, ?_⟩⟩
      rw [hpromised, if_pos rfl]
      exact hidle.promise
    case numbers =>
      refine .inl ?_
      rw [coe_singleton, singleton_bind]
      show (v.path : Multiset ℕ) = {childnum}
      rw [hpath]
      rfl
    case other =>
      intro c hc
      rw [hpromised, if_neg (hc childnum (mem_singleton_self _))]
    case steps => simp [Item.steps]
    case stored => exact hstored
  · have hleaf : cfg.uts_numChildren v.path = 0 := by omega
    have hcreate : s.tj_create_children (thief n childnum) cfg v =
        (_, [.store (thief n childnum) v 0 0]) := if_neg hinner
    obtain ⟨rfl, rfl⟩ := Prod.mk.inj (hmade.symm.trans hcreate)
    constructor
    case alone =>
      intro y hy
      obtain rfl := List.mem_singleton.mp hy
      exact hleaf
    case numbers =>
      refine .inr ⟨singleton_bind _ _, fun j hj => ?_⟩
      obtain rfl := mem_singleton.mp hj
      rw [← hpath]
      exact hleaf
    case other => exact fun _ _ => rfl
    case steps => simp [Item.steps]
    case stored => exact hstored

theorem Lone.ids {v : Node} {st : Stage} (hflat : cfg.flat_combine = true)
    (hthreshold : 2 ≤ cfg.flat_combine_threshold) (h : (Item.ids c v st).Alone cfg s)
    (hx : (Item.ids c v st).exec cfg s = some (s', new)) : Lone cfg s s' (.ids c v st) new := by
  obtain ⟨j, hpath, rfl, ⟨rfl, hidle⟩ | rfl⟩ := h
  · have hfetch : s.fetch_and_add .global_id (thief n j) cfg (cfg.uts_numChildren v.path) .call =
        some ((s.setCombiner .global_id (thief n j) ((s.combiner .global_id (thief n j)).participate
          (cfg.uts_numChildren v.path))).setCounter .global_id (s.counter .global_id),
          .goesOn (.notReceived (s.combiner .global_id (thief n j)).untilReceived)) := by
      rw [State.fetch_and_add, if_pos hflat]
      simp [Combiner.step, enter_waits hidle hthreshold]
    have hexec : (Item.ids (thief n j) v .call).exec cfg s = _ := congrArg (Option.map _) hfetch
    obtain ⟨rfl, rfl⟩ := Prod.mk.inj (Option.some.inj (hexec.symm.trans hx))
    constructor
    case alone =>
      intro y hy
      obtain rfl := List.mem_singleton.mp hy
      refine ⟨j, hpath, rfl, .inr ?_⟩
      show Stage.notReceived _ = .notReceived ((s.setCombiner .global_id (thief n j)
        _).combiner .global_id (thief n j)).untilReceived
      rw [setCombiner_self]
      rfl
    case numbers => exact .inl (singleton_bind _ _)
    case other =>
      intro c hc
      have hother : ¬(Counter.global_id = .global_id ∧ c = thief n j) := by
        rintro ⟨-, hsame⟩
        exact hc j (by simp [Item.numbers, hpath]) hsame
      show (s.setCombiner .global_id (thief n j) _).combiner .global_id c = _
      rw [setCombiner_ne _ hother]
    case steps => simp [Item.steps]
    case stored => exact fun w hw => hw
  · -- nobody has told the others
    simp [Item.exec, State.fetch_and_add, hflat, Combiner.step] at hx

theorem Lone.exec (hflat : cfg.flat_combine = true) (hthreshold : 2 ≤ cfg.flat_combine_threshold)
    (hsteals : ∀ parent_id j, cfg.runs_on parent_id j = thief n j)
    (hroot : (s.Tree_Nodes 0).path = []) (h : x.Alone cfg s)
    (hx : x.exec cfg s = some (s', new)) : Lone cfg s s' x new := by
  cases x with
  | range c parent_id start iterations =>
    cases hx
    exact .range hsteals h
  | vertex c parent_id childnum =>
    cases hx
    obtain ⟨rfl, rfl, hidle⟩ := h
    constructor
    case alone =>
      intro y hy
      obtain rfl := List.mem_singleton.mp hy
      refine ⟨rfl, rfl, ?_⟩
      rw [promiseBoth_combiner, if_pos rfl]
      exact hidle.promise
    case numbers => exact .inl (singleton_bind _ _)
    case other =>
      intro c hc
      rw [promiseBoth_combiner, if_neg (hc childnum (mem_singleton_self _))]
    case steps => simp [Item.steps]
    case stored => exact fun v hv => hv
  | child c parent_id childnum p_childIndex =>
    obtain ⟨rfl, rfl, hidle⟩ := h
    exact .child hroot hidle hx
  | ids c v st => exact .ids hflat hthreshold h hx
  | places _ _ _ _ => exact h.elim
  | store c v childid0 index =>
    cases hx
    have hleaf : cfg.uts_numChildren v.path = 0 := h
    constructor
    case alone =>
      intro y hy
      obtain rfl := List.mem_singleton.mp hy
      exact .inl hleaf
    case numbers =>
      refine .inl ?_
      simp [Item.numbers, hleaf]
    case other => exact fun _ _ => rfl
    case steps => simp [Item.steps, hleaf]
    case stored => exact fun w hw => List.mem_cons_of_mem _ hw

/-- The children of the root are each on a core of its own, and child `i` is not stored. -/
structure Stalling (cfg : Config n) (m : Memory) (i : ℕ) (s : State n)
    (pool : Multiset (Item n)) : Prop where
  reached : Reached cfg m s pool
  rooted : root ∈ s.stored
  alone : ∀ x ∈ pool, x.Alone cfg s
  nodup : (pool.bind Item.numbers).Nodup
  bounded : ∀ j ∈ pool.bind Item.numbers, j ≤ n
  left : i ∈ pool.bind Item.numbers

theorem Stalling.exec {m : Memory} (hflat : cfg.flat_combine = true)
    (hthreshold : 2 ≤ cfg.flat_combine_threshold)
    (hsteals : ∀ parent_id j, cfg.runs_on parent_id j = thief n j)
    (hinner : 0 < cfg.uts_numChildren [i]) (h : Stalling cfg m i s (x ::ₘ rest))
    (hx : x.exec cfg s = some (s', new)) :
    Stalling cfg m i s' (rest + new) ∧
      ((rest + new).map Item.steps).sum < ((x ::ₘ rest).map Item.steps).sum := by
  have hroot : (s.Tree_Nodes 0).path = [] := by
    obtain ⟨-, hzero⟩ | ⟨spare, hinv⟩ := h.reached
    · exact absurd hzero cons_ne_zero
    · exact congrArg Node.path (hinv.stored root h.rooted).node
  have hlone := Lone.exec hflat hthreshold hsteals hroot (h.alone x (mem_cons_self _ _)) hx
  have hnodup := h.nodup
  have hbounded := h.bounded
  have hleft := h.left
  rw [cons_bind] at hnodup hbounded hleft
  have hle : (new : Multiset (Item n)).bind Item.numbers ≤ x.numbers := by
    rcases hlone.numbers with heq | ⟨hzero, -⟩
    · exact heq.le
    · rw [hzero]
      exact zero_le _
  have hmem : (rest + new).bind Item.numbers ≤ x.numbers + rest.bind Item.numbers := by
    rw [add_bind, add_comm]
    exact Multiset.add_le_add_right hle
  refine ⟨?_, ?_⟩
  · constructor
    case reached => exact h.reached.exec hx
    case rooted => exact hlone.stored root h.rooted
    case alone =>
      intro y hy
      rcases mem_add.mp hy with hy | hy
      · -- the task is on another core
        refine (h.alone y (mem_cons_of_mem hy)).congr fun j hj => hlone.other _ ?_
        intro j' hj' hsame
        have hrest : j ∈ rest.bind Item.numbers := mem_bind.mpr ⟨y, hy, hj⟩
        have heq := thief_injective (hbounded j (mem_add.mpr (.inr hrest)))
          (hbounded j' (mem_add.mpr (.inl hj'))) hsame
        exact disjoint_left.mp (nodup_add.mp hnodup).2.2 hj' (heq ▸ hrest)
      · exact hlone.alone y hy
    case nodup => exact nodup_of_le hmem hnodup
    case bounded => exact fun j hj => hbounded j (mem_of_le hmem hj)
    case left =>
      rw [add_bind]
      rcases mem_add.mp hleft with hx | hrest
      · rcases hlone.numbers with heq | ⟨-, hleaves⟩
        · exact mem_add.mpr (.inr (heq ▸ hx))
        · exact absurd (hleaves i hx) (by omega)
      · exact mem_add.mpr (.inl hrest)
  · have hsteps := hlone.steps
    rw [map_add, sum_add, Multiset.map_cons, Multiset.sum_cons, map_coe,
      sum_coe]
    omega

/-- **The generation stalls** when every child of the root runs on a core of its own. -/
theorem not_correct {uts_numChildren : List ℕ → ℕ} {flat_combine_threshold : ℕ}
    (hthreshold : 2 ≤ flat_combine_threshold) (hi : i < uts_numChildren [])
    (hinner : 0 < uts_numChildren [i]) :
    ¬Correct (n := uts_numChildren [])
      ⟨uts_numChildren, true, flat_combine_threshold, fun _ j => thief _ j⟩ := by
  set n := uts_numChildren [] with hn
  set cfg : Config n := ⟨uts_numChildren, true, flat_combine_threshold, fun _ j => thief n j⟩
  intro hcorrect
  have hmem : Memory := ⟨fun _ => ⟨0, 0⟩, fun _ => 0, fun _ => root⟩
  have hpos : 0 < cfg.uts_numChildren [] := Nat.zero_lt_of_lt hi
  obtain ⟨s, hs, hidle, hroot⟩ := exists_root_stored rfl hpos hmem
  have hstart : Stalling cfg hmem i s ([.range 0 0 0 n] : List (Item n)) := by
    have hnumbers : (([.range 0 0 0 n] : List (Item n)) : Multiset (Item n)).bind Item.numbers =
        List.range' 0 n := singleton_bind _ _
    constructor
    case reached => exact reachable hs
    case rooted => exact hroot
    case alone =>
      intro x hx
      obtain rfl := List.mem_singleton.mp hx
      exact .inr ⟨rfl, rfl, fun j _ _ => hidle _⟩
    case nodup => exact hnumbers ▸ nodup_range' _ _
    case bounded =>
      intro j hj
      rw [hnumbers] at hj
      have := (List.mem_range'_1.mp (mem_coe.mp hj)).2
      omega
    case left =>
      rw [hnumbers]
      exact mem_coe.mpr (List.mem_range'_1.mpr ⟨by omega, by omega⟩)
  obtain ⟨ls, t, hrun, hstalling, hstuck⟩ : ∃ ls t,
      ((par_create_tree cfg).system (init hmem)).run ⟨s, _⟩ ls = some t ∧
      Stalling cfg hmem i t.shared t.pool ∧ ∀ l, (par_create_tree cfg).next t l = none :=
    Program.run_to_halt (μ := fun _ pool => (pool.map Item.steps).sum) hstart
    (fun _ _ _ _ _ h hx => h.exec rfl hthreshold (fun _ _ => rfl) hinner hx)
    (fun _ _ _ h _ => absurd h.left (notMem_zero i))
  refine (hcorrect hmem t (hs.run hrun)).1 ⟨fun hnil => ?_, fun x hx => ?_⟩
  · have hleft := hstalling.left
    rw [hnil] at hleft
    exact notMem_zero i hleft
  · exact Program.exec_eq_none_of_stuck hx hstuck

/-- **The generation is correct**, on all cores and with all steals, just when the combiners are
    not used, flush at once, or only the root has children. -/
theorem generation_correct_iff (uts_numChildren : List ℕ → ℕ) (flat_combine : Bool)
    (flat_combine_threshold : ℕ) :
    (∀ n (runs_on : ℕ → ℕ → Fin (n + 1)),
      Correct ⟨uts_numChildren, flat_combine, flat_combine_threshold, runs_on⟩) ↔
      flat_combine = false ∨ flat_combine_threshold ≤ 1 ∨ OnlyRoot uts_numChildren := by
  constructor
  · intro hcorrect
    by_contra hunsafe
    simp only [not_or, OnlyRoot, not_forall, Bool.not_eq_false] at hunsafe
    obtain ⟨rfl, hthreshold, i, hi, hinner⟩ := hunsafe
    exact not_correct (by omega) hi (by omega) (hcorrect _ _)
  · intro hsafe n runs_on
    exact correct_of_safe (by rwa [Unshared, or_assoc])

/-- The root has a child, and the child has one. -/
def chain (p : List ℕ) : ℕ := if p.length < 2 then 1 else 0

/-- The child waits for a second call: its own, which nobody makes. -/
theorem chain_stalls : ¬Correct (n := 1) ⟨chain, true, 2, fun _ j => thief 1 j⟩ :=
  not_correct (i := 0) (le_refl 2) (by decide) (by decide)

end TreeGeneration

end Grappa
