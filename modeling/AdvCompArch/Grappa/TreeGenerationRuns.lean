import AdvCompArch.Grappa.GeneratedTree

/-! # Runs of the tree generation

    The tasks can wait for each other, since a vertex with children promises two calls of
    each counter and makes one. -/

namespace Grappa

namespace TreeGeneration

open CombinedCounter Multiset

variable {n : ℕ} {cfg : Config n} {spare : Counter → Fin (n + 1) → Multiset ℕ} {s s' : State n}
  {x y : Item n} {rest pool : Multiset (Item n)} {new : List (Item n)} {due : Multiset Node}
  {k : Counter} {c : Fin (n + 1)} {v : Node}

/-! ### Somebody can go on -/

/-- The rounds of all combiners are prompt. -/
def Prompts (s : State n) : Prop := ∀ k c, Prompt (s.combiner k c)

theorem fetch_ne_none {inc : ℕ} {st : Stage} (hcall : cfg.flat_combine = false → st = .call)
    (hready : st.Ready (s.combiner k c)) : s.fetch_and_add k c cfg inc st ≠ none := by
  unfold State.fetch_and_add
  split
  · simpa using step_ne_none hready
  · rename_i hoff
    rw [hcall (by simpa using hoff)]
    simp

/-- A task whose call is ready can go on. -/
theorem go_of_call {a : ℕ × Stage} (hok : y.Ok cfg s) (ha : a ∈ y.calls cfg k c)
    (hready : a.2.Ready (s.combiner k c)) : y.exec cfg s ≠ none := by
  cases y with
  | range _ _ _ _ | vertex _ _ _ | child _ _ _ _ | store _ _ _ _ => simp [Item.exec]
  | ids c' v st =>
    simp only [Item.calls] at ha
    split_ifs at ha with hat
    · obtain ⟨rfl, rfl⟩ := hat
      rw [mem_singleton.mp ha] at hready
      simpa [Item.exec] using fetch_ne_none hok.2 hready
    · exact absurd ha (notMem_zero _)
  | places c' v childid0 st =>
    simp only [Item.calls] at ha
    split_ifs at ha with hat
    · obtain ⟨rfl, rfl⟩ := hat
      rw [mem_singleton.mp ha] at hready
      simpa [Item.exec] using fetch_ne_none hok.2 hready
    · exact absurd ha (notMem_zero _)

theorem Inv.can_go (h : Inv cfg spare due s pool) (hprompt : Prompts s) (hx : x ∈ pool) :
    ∃ y ∈ pool, y.exec cfg s ≠ none := by
  have hcalling : ∀ k c, x.calls cfg k c ≠ 0 → ∃ y ∈ pool, y.exec cfg s ≠ none := by
    intro k c hne
    obtain ⟨a, ha⟩ := exists_mem_of_ne_zero hne
    have hbind : pool.bind (Item.calls cfg k c) ≠ 0 := by
      intro hzero
      exact notMem_zero a (hzero ▸ mem_bind.mpr ⟨x, hx, ha⟩)
    obtain ⟨b, hb, hready⟩ := (h.combiner k c).exists_ready (hprompt k c) hbind
    obtain ⟨y, hy, hby⟩ := mem_bind.mp hb
    exact ⟨y, hy, go_of_call (h.items y hy) hby hready⟩
  cases x with
  | range _ _ _ _ | vertex _ _ _ | child _ _ _ _ | store _ _ _ _ =>
    exact ⟨_, hx, by simp [Item.exec]⟩
  | ids c v st => exact hcalling .global_id c (by simp [Item.calls])
  | places c v childid0 st => exact hcalling .global_child_index c (by simp [Item.calls])

theorem promiseBoth_prompts (hprompt : Prompts s) (c : Fin (n + 1)) : Prompts (s.promiseBoth c) := by
  intro k c'
  rw [promiseBoth_combiner]
  split
  · exact hprompt k c'
  · exact hprompt k c'

theorem create_prompts (hprompt : Prompts s) (c : Fin (n + 1)) (v : Node) :
    Prompts (s.tj_create_children c cfg v).1 := by
  simp only [State.tj_create_children]
  split
  · exact promiseBoth_prompts hprompt c
  · exact hprompt

/-- The combiners are not used, or flush at once. -/
def Unshared (cfg : Config n) : Prop := cfg.flat_combine = false ∨ cfg.flat_combine_threshold ≤ 1

theorem fetch_prompts {inc : ℕ} {st : Stage} {others : Calls} {spare : Multiset ℕ} {out : Outcome}
    (hsafe : Unshared cfg)
    (h : CombinedCounter.Inv (s.combiner k c) ((inc, st) ::ₘ others) spare) (hprompt : Prompts s)
    (hx : s.fetch_and_add k c cfg inc st = some (s', out)) : Prompts s' := by
  unfold State.fetch_and_add at hx
  split at hx
  · rename_i hflat
    obtain ⟨a, ha, heq⟩ := Option.map_eq_some_iff.mp hx
    cases heq
    have hthreshold : cfg.flat_combine_threshold ≤ 1 :=
      hsafe.resolve_left fun hoff => by simp [hoff] at hflat
    intro k' c'
    by_cases hsame : k' = k ∧ c' = c
    · obtain ⟨rfl, rfl⟩ := hsame
      show Prompt ((s.setCombiner k' c' a.combiner).combiner k' c')
      rw [setCombiner_self]
      exact step_prompt hthreshold h (hprompt k' c') ha
    · show Prompt ((s.setCombiner k c a.combiner).combiner k' c')
      rw [setCombiner_ne _ hsame]
      exact hprompt k' c'
  · cases st with
    | call =>
      cases hx
      exact hprompt
    | notReady _ | notReceived _ | request _ | reply _ => cases hx

theorem Inv.fetch_prompts {inc : ℕ} {st : Stage} {out : Outcome} (hsafe : Unshared cfg)
    (h : Inv cfg spare due s (x ::ₘ rest)) (hprompt : Prompts s)
    (hcalls : x.calls cfg k c = {(inc, st)})
    (hx : s.fetch_and_add k c cfg inc st = some (s', out)) : Prompts s' := by
  have hinv := h.combiner k c
  rw [cons_bind, hcalls, singleton_add] at hinv
  exact TreeGeneration.fetch_prompts hsafe hinv hprompt hx

/-- **The rounds stay prompt.** -/
theorem Inv.exec_prompts (hsafe : Unshared cfg)
    (h : Inv cfg spare due s (x ::ₘ rest)) (hprompt : Prompts s)
    (hx : x.exec cfg s = some (s', new)) : Prompts s' := by
  cases x with
  | range c parent_id start iterations =>
    cases hx
    exact hprompt
  | vertex c parent_id childnum =>
    cases hx
    exact promiseBoth_prompts hprompt c
  | child c parent_id childnum p_childIndex =>
    obtain ⟨rfl, -⟩ := Prod.mk.inj (Option.some.inj hx)
    exact create_prompts hprompt c _
  | store c v childid0 index =>
    cases hx
    exact hprompt
  | ids c v st =>
    obtain ⟨⟨s₁, out⟩, hfetch, heq⟩ := Option.map_eq_some_iff.mp hx
    have hs₁ := h.fetch_prompts hsafe hprompt (if_pos ⟨rfl, rfl⟩) hfetch
    cases out with
    | goesOn st' =>
      obtain ⟨rfl, -⟩ := Prod.mk.inj heq
      exact hs₁
    | returns childid0 =>
      obtain ⟨rfl, -⟩ := Prod.mk.inj heq
      exact hs₁
  | places c v childid0 st =>
    obtain ⟨⟨s₁, out⟩, hfetch, heq⟩ := Option.map_eq_some_iff.mp hx
    have hs₁ := h.fetch_prompts hsafe hprompt (if_pos ⟨rfl, rfl⟩) hfetch
    cases out with
    | goesOn st' =>
      obtain ⟨rfl, -⟩ := Prod.mk.inj heq
      exact hs₁
    | returns index =>
      obtain ⟨rfl, -⟩ := Prod.mk.inj heq
      exact hs₁

/-! ### Only the root has children -/

/-- Nobody is in a call of the combiner. -/
structure Idle (f : Combiner) (committed : ℕ) : Prop where
  outstanding : f.outstanding = false
  participant_count : f.participant_count = 0
  ready_waiters : f.ready_waiters = 0
  committed : f.committed = committed

theorem new_idle : Idle .new 0 := ⟨rfl, rfl, rfl, rfl⟩

theorem Idle.promise {f : Combiner} {m : ℕ} (h : Idle f m) : Idle f.promise (m + 1) :=
  ⟨h.outstanding, h.participant_count, h.ready_waiters, congrArg (· + 1) h.committed⟩

theorem enter_alone {f : Combiner} (T inc target : ℕ) (h : Idle f 1) :
    ∃ f' t, f.enter T true target inc = ⟨f', t, .returns target⟩ ∧ Idle f' 0 := by
  have hnone : (f.participate inc).committed = 0 := by
    show f.committed - 1 = 0
    rw [h.committed]
  have hflush : (f.participate inc).MustFlush T := ⟨h.ready_waiters, .inr hnone⟩
  have hempty : f.participant_count + 1 - 1 = 0 := by rw [h.participant_count]
  have hout : ¬f.outstanding = true := by simp [h.outstanding]
  rw [Combiner.enter, if_neg hout, Combiner.join, if_pos hflush, Combiner.flush, if_pos rfl]
  refine ⟨_, _, rfl, ?_⟩
  rw [Combiner.broadcastResult, Combiner.take]
  split
  · exact ⟨rfl, hempty, h.ready_waiters, hnone⟩
  · rename_i hmore
    exact absurd hempty hmore

theorem fetch_alone (hflat : cfg.flat_combine = true) (hc : c.val = 0)
    (h : Idle (s.combiner k c) 1) (inc : ℕ) :
    ∃ f t, s.fetch_and_add k c cfg inc .call =
      some ((s.setCombiner k c f).setCounter k t, .returns (s.counter k)) ∧ Idle f 0 := by
  obtain ⟨f, t, henter, hidle⟩ := enter_alone cfg.flat_combine_threshold inc (s.counter k) h
  refine ⟨f, t, ?_, hidle⟩
  have hhere : decide (c.val = 0) = true := decide_eq_true hc
  rw [State.fetch_and_add, if_pos hflat, hhere, Combiner.step, henter]
  rfl

/-- The task of the root, when it has promised its calls to combiners that nobody uses. -/
def RootCalls (s : State n) : Item n → Prop
  | .ids c v st => c.val = 0 ∧ v = root ∧ st = .call ∧ ∀ k, Idle (s.combiner k c) 1
  | .places c v _ st =>
    c.val = 0 ∧ v = root ∧ st = .call ∧ Idle (s.combiner .global_child_index c) 1
  | _ => False

def Calling : Item n → Prop
  | .ids _ _ _ | .places _ _ _ _ => True
  | _ => False

/-- The root calls, and there is no other task yet; or nobody calls. -/
def Quiet (s : State n) (pool : Multiset (Item n)) : Prop :=
  (∃ x, pool = {x} ∧ RootCalls s x) ∨ ∀ x ∈ pool, ¬Calling x

theorem RootCalls.exec (hflat : cfg.flat_combine = true) (h : RootCalls s x) :
    ∃ s' y, x.exec cfg s = some (s', [y]) ∧ (RootCalls s' y ∨ ¬Calling y) := by
  cases x with
  | range _ _ _ _ | vertex _ _ _ | child _ _ _ _ | store _ _ _ _ => exact h.elim
  | ids c v st =>
    obtain ⟨hc, rfl, rfl, hidle⟩ := h
    obtain ⟨f, t, hfetch, -⟩ := fetch_alone hflat hc (hidle .global_id) (cfg.uts_numChildren [])
    refine ⟨_, _, congrArg (Option.map _) hfetch, .inl ⟨hc, rfl, rfl, ?_⟩⟩
    show Idle ((s.setCombiner .global_id c f).combiner .global_child_index c) 1
    rw [setCombiner_ne f (by simp)]
    exact hidle _
  | places c v childid0 st =>
    obtain ⟨hc, rfl, rfl, hidle⟩ := h
    obtain ⟨f, t, hfetch, -⟩ := fetch_alone hflat hc hidle (cfg.uts_numChildren [])
    exact ⟨_, _, congrArg (Option.map _) hfetch, .inr id⟩

/-- The children of the root have no children. -/
def OnlyRoot (f : List ℕ → ℕ) : Prop := ∀ i < f [], f [i] = 0

theorem leaf_of_isVertex {f : List ℕ → ℕ} (hroot : OnlyRoot f) {i : ℕ} (hp : IsVertex f (i :: p)) :
    f (i :: p) = 0 := by
  induction p generalizing i with
  | nil => exact hroot i hp.1
  | cons j p ih =>
    have hleaf := ih hp.2
    have hlt := hp.1
    omega

theorem create_leaf (hleaf : cfg.uts_numChildren v.path = 0) :
    (s.tj_create_children c cfg v).2 = [.store c v 0 0] := by
  simp [State.tj_create_children, hleaf]

theorem Inv.exec_quiet (hflat : cfg.flat_combine = true)
    (hroot : OnlyRoot cfg.uts_numChildren) (h : Inv cfg spare due s (x ::ₘ rest))
    (hquiet : Quiet s (x ::ₘ rest)) (hx : x.exec cfg s = some (s', new)) :
    Quiet s' (rest + new) := by
  rcases hquiet with ⟨y, hy, hcalls⟩ | hnone
  · obtain ⟨rfl, rfl⟩ := (singleton_eq_cons_iff _).mp hy.symm
    obtain ⟨s₁, z, hexec, hnext⟩ := hcalls.exec hflat
    obtain ⟨rfl, rfl⟩ := Prod.mk.inj (Option.some.inj (hexec.symm.trans hx))
    rw [zero_add]
    rcases hnext with hcalls | hdone
    · exact .inl ⟨z, rfl, hcalls⟩
    · refine .inr fun y hy => ?_
      rw [mem_singleton.mp hy]
      exact hdone
  · have hrest : ∀ y ∈ rest, ¬Calling y := fun y hy => hnone y (mem_cons_of_mem hy)
    suffices hnew : ∀ y ∈ new, ¬Calling y by
      refine .inr fun y hy => ?_
      rcases mem_add.mp hy with hy | hy
      · exact hrest y hy
      · exact hnew y hy
    cases x with
    | ids _ _ _ | places _ _ _ _ => exact absurd trivial (hnone _ (mem_cons_self _ _))
    | range c parent_id start iterations =>
      cases hx
      unfold loop_decomposition
      split_ifs <;> simp [Calling]
    | vertex c parent_id childnum =>
      cases hx
      simp [Calling]
    | store c v childid0 index =>
      cases hx
      simp [Calling]
    | child c parent_id childnum p_childIndex =>
      obtain ⟨-, w, hw, rfl, hlt⟩ := h.items _ (mem_cons_self _ _)
      have hpath : (s.Tree_Nodes w.id).path = w.path := congrArg Node.path (h.stored w hw).node
      have hleaf : cfg.uts_numChildren (childnum :: (s.Tree_Nodes w.id).path) = 0 := by
        rw [hpath]
        exact leaf_of_isVertex hroot ⟨hlt, h.isVertex (mem_all_of_stored hw)⟩
      obtain rfl : new = _ := (congrArg Prod.snd (Option.some.inj hx)).symm.trans (create_leaf hleaf)
      simp [Calling]

theorem root_quiet (hc : c.val = 0) (hidle : ∀ k, Idle (s.combiner k c) 0) :
    Quiet (s.tj_create_children c cfg root).1 (s.tj_create_children c cfg root).2 := by
  simp only [State.tj_create_children]
  split
  · refine .inl ⟨_, rfl, hc, rfl, rfl, fun k => ?_⟩
    rw [promiseBoth_combiner, if_pos rfl]
    exact (hidle k).promise
  · exact .inr (by simp [Calling])

theorem Quiet.can_go (hflat : cfg.flat_combine = true) (h : Quiet s pool) (hx : x ∈ pool) :
    ∃ y ∈ pool, y.exec cfg s ≠ none := by
  rcases h with ⟨y, rfl, hcalls⟩ | hnone
  · obtain ⟨s', z, hexec, -⟩ := hcalls.exec hflat
    refine ⟨y, mem_singleton_self y, ?_⟩
    rw [hexec]
    exact Option.some_ne_none _
  · refine ⟨x, hx, ?_⟩
    cases x with
    | ids _ _ _ | places _ _ _ _ => exact absurd trivial (hnone _ hx)
    | range _ _ _ _ | vertex _ _ _ | child _ _ _ _ | store _ _ _ _ => simp [Item.exec]

/-! ### Nobody is left waiting -/

/-- What holds of every state, with what keeps the tasks going. -/
structure Live (cfg : Config n) (m : Memory) (s : State n) (pool : Multiset (Item n)) : Prop where
  reached : Reached cfg m s pool
  prompts : Unshared cfg → Prompts s
  quiet : cfg.flat_combine = true → OnlyRoot cfg.uts_numChildren → Quiet s pool

theorem Live.exec {m : Memory} (h : Live cfg m s (x ::ₘ rest))
    (hx : x.exec cfg s = some (s', new)) : Live cfg m s' (rest + new) := by
  refine ⟨h.reached.exec hx, ?_, ?_⟩
  all_goals
    obtain ⟨-, hzero⟩ | ⟨spare, hinv⟩ := h.reached
    · exact absurd hzero cons_ne_zero
  · exact fun hsafe => hinv.exec_prompts hsafe (h.prompts hsafe) hx
  · exact fun hflat hroot => hinv.exec_quiet hflat hroot (h.quiet hflat hroot) hx

theorem Live.advance {m : Memory} (h : Live cfg m s 0)
    (hx : s.advance cfg = some (s', new)) : Live cfg m s' new := by
  have hreached := h.reached.advance hx
  obtain ⟨rfl, -⟩ | ⟨spare, hinv⟩ := h.reached
  · have heq : (s', new) = State.tj_create_children _ _ cfg root := (Option.some.inj hx).symm
    obtain ⟨rfl, rfl⟩ := Prod.mk.inj heq
    refine ⟨hreached, fun _ => ?_, fun _ _ => ?_⟩
    · exact create_prompts (fun _ _ _ hne => absurd rfl hne) _ root
    · exact root_quiet rfl fun _ => new_idle
  · simp [State.advance, hinv.started] at hx

/-- **No task is left waiting**, and at the end the tree is there. -/
theorem correct_of_safe (hsafe : Unshared cfg ∨ OnlyRoot cfg.uts_numChildren) : Correct cfg := by
  intro m t ht
  have hlive : Live cfg m t.shared t.pool := Phased.Program.Reachable.inv (Live cfg m)
    ⟨.inl ⟨rfl, rfl⟩, fun _ _ _ _ hne => absurd rfl hne, fun _ _ => .inr (by simp)⟩
    (fun _ _ _ _ _ h hx => h.exec hx) (fun _ _ _ h hx => h.advance hx) ht
  refine ⟨fun ⟨hne, hstuck⟩ => ?_, fun ⟨hpool, hended⟩ => ?_⟩
  · obtain ⟨x, hx⟩ := List.exists_mem_of_ne_nil _ hne
    obtain ⟨-, hzero⟩ | ⟨spare, hinv⟩ := hlive.reached
    · exact absurd ((coe_eq_zero _).mp hzero) hne
    have hgo : ∃ y ∈ (t.pool : Multiset (Item n)), y.exec cfg t.shared ≠ none := by
      by_cases hunshared : Unshared cfg
      · exact hinv.can_go (hlive.prompts hunshared) (mem_coe.mpr hx)
      · have hflat : cfg.flat_combine = true := by
          by_contra hoff
          exact hunshared (.inl (by simpa using hoff))
        have hroot := hsafe.resolve_left hunshared
        exact (hlive.quiet hflat hroot).can_go hflat (mem_coe.mpr hx)
    obtain ⟨y, hy, hyx⟩ := hgo
    exact hyx (hstuck y (mem_coe.mp hy))
  · obtain ⟨heq, -⟩ | ⟨spare, hinv⟩ := hlive.reached
    · rw [heq] at hended
      cases hended
    · rw [hpool] at hinv
      exact ⟨hinv.holdsTree, fun T hT => hinv.searchedOnce hT⟩

end TreeGeneration

end Grappa
