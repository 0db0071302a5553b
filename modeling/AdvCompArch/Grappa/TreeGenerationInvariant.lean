import AdvCompArch.Grappa.TreeGeneration
import AdvCompArch.Lib.Census

/-! # Invariant of the tree generation

    Every vertex of the tree that a task is to make is the child of one that is stored: it
    is owed.  With the vertices that are stored and those that tasks are at, the owed ones
    are the root and all children of stored vertices, each with an id of its own; and the
    ids and places of the stored vertices, those that tasks hold and those that combiners
    have to hand out are what was taken from the counters. -/

namespace Grappa

namespace TreeGeneration

open CombinedCounter Function Multiset Item

variable {n : ℕ} (cfg : Config n)

/-- The first value that a counter gives out. -/
def Counter.base : Counter → ℕ
  | .global_id => 1
  | .global_child_index => 0

namespace State

variable (s : State n)

/-- A child of a stored vertex, by its number. -/
def heir (parent_id childnum : ℕ) : Node :=
  ⟨childnum :: (s.Tree_Nodes parent_id).path, s.Child ((s.Vertex parent_id).childIndex + childnum)⟩

def children (v : Node) : Multiset Node :=
  ((List.range (cfg.uts_numChildren v.path)).map (s.heir v.id) : List Node)

/-- The places of a stored vertex in `Child`. -/
def places (v : Node) : Multiset ℕ :=
  List.range' (s.Vertex v.id).childIndex (cfg.uts_numChildren v.path)

/-- What the stored vertices have from a counter. -/
def given : Counter → Multiset ℕ
  | .global_id => ((s.stored : Multiset Node).bind (s.children cfg)).map Node.id
  | .global_child_index => (s.stored : Multiset Node).bind (s.places cfg)

/-- What a stored vertex has in the arrays. -/
structure Stored (v : Node) : Prop where
  node : s.Tree_Nodes v.id = v
  numChildren : (s.Vertex v.id).numChildren = cfg.uts_numChildren v.path
  child : ∀ i < cfg.uts_numChildren v.path,
    s.Child ((s.Vertex v.id).childIndex + i) = s.Child (s.Vertex v.id).childIndex + i

end State

namespace Item

/-- The call of the combiner of a core that the task is in. -/
def calls (k : Counter) (c : Fin (n + 1)) : Item n → Calls
  | ids c' v st => if k = .global_id ∧ c = c' then {(cfg.uts_numChildren v.path, st)} else 0
  | places c' v _ st => if k = .global_child_index ∧ c = c' then {(cfg.uts_numChildren v.path, st)} else 0
  | _ => 0

/-- What the task has got from a counter. -/
def held : Counter → Item n → Multiset ℕ
  | .global_id, places _ v childid0 _ | .global_id, store _ v childid0 _ =>
    List.range' childid0 (cfg.uts_numChildren v.path)
  | .global_child_index, store _ v _ index => List.range' index (cfg.uts_numChildren v.path)
  | _, _ => 0

/-- The vertex that the task is at. -/
def nodes : Item n → Multiset Node
  | ids _ v _ | places _ v _ _ | store _ v _ _ => {v}
  | _ => 0

/-- The vertices that the task is to make. -/
def owed (s : State n) : Item n → Multiset Node
  | range _ parent_id start iterations => ((List.range' start iterations).map (s.heir parent_id) : List Node)
  | vertex _ parent_id childnum | child _ parent_id childnum _ => {s.heir parent_id childnum}
  | _ => 0

/-- What a task knows. -/
def Ok (s : State n) : Item n → Prop
  | range _ parent_id start iterations =>
    ∃ v ∈ s.stored, v.id = parent_id ∧ start + iterations ≤ cfg.uts_numChildren v.path
  | vertex _ parent_id childnum =>
    ∃ v ∈ s.stored, v.id = parent_id ∧ childnum < cfg.uts_numChildren v.path
  | child _ parent_id childnum p_childIndex =>
    p_childIndex = (s.Vertex parent_id).childIndex ∧
      ∃ v ∈ s.stored, v.id = parent_id ∧ childnum < cfg.uts_numChildren v.path
  | ids _ v st | places _ v _ st =>
    s.Tree_Nodes v.id = v ∧ (cfg.flat_combine = false → st = .call)
  | store _ v _ _ => s.Tree_Nodes v.id = v

end Item

/-- `due` are the vertices that a task is making just now. -/
structure Inv (spare : Counter → Fin (n + 1) → Multiset ℕ) (due : Multiset Node) (s : State n)
    (pool : Multiset (Item n)) : Prop where
  started : s.started = true
  stored : ∀ v ∈ s.stored, s.Stored cfg v
  items : ∀ x ∈ pool, x.Ok cfg s
  vertices : (s.stored : Multiset Node) + pool.bind nodes + pool.bind (owed s) + due =
    {root} + (s.stored : Multiset Node).bind (s.children cfg)
  combiner : ∀ k c, CombinedCounter.Inv (s.combiner k c) (pool.bind (calls cfg k c)) (spare k c)
  counter : ∀ k, k.base ≤ s.counter k
  tiles : ∀ k, s.given cfg k + pool.bind (held cfg k) + ∑ c, spare k c =
    (List.range' k.base (s.counter k - k.base) : Multiset ℕ)
  generated : s.generated = s.stored.length + (pool.bind nodes).card

variable {cfg} {spare : Counter → Fin (n + 1) → Multiset ℕ} {s s' : State n} {x y : Item n}
  {rest pool new : Multiset (Item n)} {due : Multiset Node} {k : Counter} {c : Fin (n + 1)} {v : Node}

/-! ### Distinct ids and places -/

theorem nodup_range' (a m : ℕ) : (List.range' a m : Multiset ℕ).Nodup :=
  coe_nodup.mpr List.nodup_range'

theorem Inv.nodup_tiles (h : Inv cfg spare due s pool) (k : Counter) :
    (s.given cfg k + pool.bind (held cfg k)).Nodup :=
  nodup_of_le (le_add_right _ _) (h.tiles k ▸ nodup_range' _ _)

theorem Inv.nodup_ids (h : Inv cfg spare due s pool) :
    (((s.stored : Multiset Node) + pool.bind nodes + pool.bind (owed s) + due).map
      Node.id).Nodup := by
  have hgiven : (s.given cfg .global_id).Nodup :=
    nodup_of_le (le_add_right _ _) (h.nodup_tiles .global_id)
  rw [h.vertices, map_add]
  refine nodup_add.mpr ⟨?_, hgiven, ?_⟩
  · exact nodup_singleton _
  · -- the root has an id from before the counter
    refine disjoint_left.mpr @fun a ha hmem => ?_
    have ha0 : a = 0 := by simpa [root] using ha
    have hle : s.given cfg .global_id ≤
        (List.range' Counter.global_id.base (s.counter .global_id - Counter.global_id.base) : Multiset ℕ) := by
      rw [← h.tiles, add_assoc]
      exact le_add_right _ _
    have hge := (List.mem_range'_1.mp (mem_coe.mp (mem_of_le hle hmem))).1
    simp only [Counter.base] at hge
    omega

/-! ### What the arrays keep -/

/-- The arrays have what they had for the stored vertices. -/
structure Agrees (cfg : Config n) (s s' : State n) (v : Node) : Prop where
  node : s'.Tree_Nodes v.id = s.Tree_Nodes v.id
  vertex : s'.Vertex v.id = s.Vertex v.id
  child : ∀ i < cfg.uts_numChildren v.path,
    s'.Child ((s.Vertex v.id).childIndex + i) = s.Child ((s.Vertex v.id).childIndex + i)

namespace Agrees

theorem heir (h : Agrees cfg s s' v) {i : ℕ} (hi : i < cfg.uts_numChildren v.path) :
    s'.heir v.id i = s.heir v.id i := by
  rw [State.heir, State.heir, h.node, h.vertex, h.child i hi]

theorem children (h : Agrees cfg s s' v) : s'.children cfg v = s.children cfg v := by
  unfold State.children
  congr 1
  exact List.map_congr_left fun i hi => h.heir (List.mem_range.mp hi)

theorem places (h : Agrees cfg s s' v) : s'.places cfg v = s.places cfg v := by
  rw [State.places, State.places, h.vertex]

theorem stored (h : Agrees cfg s s' v) (hv : s.Stored cfg v) : s'.Stored cfg v where
  node := h.node.trans hv.node
  numChildren := by
    rw [h.vertex]
    exact hv.numChildren
  child := by
    intro i hi
    have hfirst := h.child 0 (by omega)
    rw [add_zero] at hfirst
    rw [h.vertex, h.child i hi, hfirst]
    exact hv.child i hi

end Agrees

theorem owed_congr (h : ∀ v ∈ s.stored, Agrees cfg s s' v) (hx : x.Ok cfg s) :
    x.owed s' = x.owed s := by
  cases x with
  | range c parent_id start iterations =>
    obtain ⟨v, hv, rfl, hle⟩ := hx
    simp only [owed]
    congr 1
    refine List.map_congr_left fun i hi => (h v hv).heir ?_
    have := (List.mem_range'_1.mp hi).2
    omega
  | vertex c parent_id childnum =>
    obtain ⟨v, hv, rfl, hlt⟩ := hx
    simp only [owed, (h v hv).heir hlt]
  | child c parent_id childnum p_childIndex =>
    obtain ⟨-, v, hv, rfl, hlt⟩ := hx
    simp only [owed, (h v hv).heir hlt]
  | ids c v st | places c v childid0 st | store c v childid0 index => rfl

theorem ok_congr (h : ∀ v ∈ s.stored, Agrees cfg s s' v) (hstored : ∀ v ∈ s.stored, v ∈ s'.stored)
    (hnode : ∀ v ∈ x.nodes, s'.Tree_Nodes v.id = s.Tree_Nodes v.id) (hx : x.Ok cfg s) :
    x.Ok cfg s' := by
  cases x with
  | range c parent_id start iterations =>
    obtain ⟨v, hv, hid, hle⟩ := hx
    exact ⟨v, hstored v hv, hid, hle⟩
  | vertex c parent_id childnum =>
    obtain ⟨v, hv, hid, hlt⟩ := hx
    exact ⟨v, hstored v hv, hid, hlt⟩
  | child c parent_id childnum p_childIndex =>
    obtain ⟨hindex, v, hv, rfl, hlt⟩ := hx
    exact ⟨by rw [(h v hv).vertex, hindex], v, hstored v hv, rfl, hlt⟩
  | ids c v st | places c v childid0 st =>
    exact ⟨(hnode v (mem_singleton_self v)).trans hx.1, hx.2⟩
  | store c v childid0 index => exact (hnode v (mem_singleton_self v)).trans hx

theorem children_congr (h : ∀ v ∈ s.stored, Agrees cfg s s' v) :
    (s.stored : Multiset Node).bind (s'.children cfg) =
      (s.stored : Multiset Node).bind (s.children cfg) :=
  bind_congr fun v hv => (h v hv).children

theorem places_congr (h : ∀ v ∈ s.stored, Agrees cfg s s' v) :
    (s.stored : Multiset Node).bind (s'.places cfg) =
      (s.stored : Multiset Node).bind (s.places cfg) :=
  bind_congr fun v hv => (h v hv).places

/-! ### Steps that leave the arrays as they are -/

/-- Only counters and combiners have changed, and the tasks that go on know and owe the same. -/
theorem Inv.move (h : Inv cfg spare due s (x ::ₘ rest)) {counter' : Counter → ℕ}
    {combiner' : Counter → Fin (n + 1) → Combiner} {spare' : Counter → Fin (n + 1) → Multiset ℕ}
    (hok : ∀ y ∈ new, y.Ok cfg s) (hnodes : new.bind nodes = x.nodes)
    (howed : new.bind (owed s) = x.owed s)
    (hcombiner : ∀ k c, CombinedCounter.Inv (combiner' k c)
      ((rest + new).bind (calls cfg k c)) (spare' k c))
    (hcounter : ∀ k, s.counter k ≤ counter' k)
    (htiles : ∀ k, new.bind (held cfg k) + ∑ c, spare' k c =
      x.held cfg k + ∑ c, spare k c + (List.range' (s.counter k) (counter' k - s.counter k) : Multiset ℕ)) :
    Inv cfg spare' due { s with counter := counter', combiner := combiner' } (rest + new) := by
  constructor
  case started => exact h.started
  case stored => exact fun v hv => ⟨(h.stored v hv).node, (h.stored v hv).numChildren, (h.stored v hv).child⟩
  case items =>
    intro y hy
    rcases mem_add.mp hy with hrest | hnew
    · exact h.items y (mem_cons_of_mem hrest)
    · exact hok y hnew
  case vertices =>
    have hv := h.vertices
    rw [cons_bind, cons_bind, ← hnodes, ← howed] at hv
    rw [add_bind, add_bind]
    refine Eq.trans ?_ hv
    show (s.stored : Multiset Node) + (rest.bind nodes + new.bind nodes) +
      (rest.bind (owed s) + new.bind (owed s)) + due = _
    abel
  case combiner => exact hcombiner
  case counter => exact fun k => (h.counter k).trans (hcounter k)
  case tiles =>
    intro k
    have ht := h.tiles k
    have hk := h.counter k
    rw [cons_bind] at ht
    rw [add_bind]
    calc s.given cfg k + (rest.bind (held cfg k) + new.bind (held cfg k)) + ∑ c, spare' k c
        = s.given cfg k + rest.bind (held cfg k) +
            (new.bind (held cfg k) + ∑ c, spare' k c) := by abel
      _ = (s.given cfg k + (x.held cfg k + rest.bind (held cfg k)) + ∑ c, spare k c) +
            (List.range' (s.counter k) (counter' k - s.counter k) : Multiset ℕ) := by
          rw [htiles k]
          abel
      _ = (List.range' k.base (counter' k - k.base) : Multiset ℕ) := by
          rw [ht]
          have hle := hcounter k
          have hstart : s.counter k = k.base + (s.counter k - k.base) := by omega
          have hlen : counter' k - k.base = (s.counter k - k.base) + (counter' k - s.counter k) := by omega
          rw [hlen, ← List.range'_append_1, ← hstart, coe_add]
  case generated =>
    rw [add_bind, hnodes, add_comm (rest.bind nodes), ← cons_bind]
    exact h.generated

theorem Inv.stay (h : Inv cfg spare due s (x ::ₘ rest))
    {combiner' : Counter → Fin (n + 1) → Combiner} (hok : ∀ y ∈ new, y.Ok cfg s)
    (hnodes : new.bind nodes = x.nodes) (howed : new.bind (owed s) = x.owed s)
    (hcombiner : ∀ k c, CombinedCounter.Inv (combiner' k c)
      ((rest + new).bind (calls cfg k c)) (spare k c))
    (hheld : ∀ k, new.bind (held cfg k) = x.held cfg k) :
    Inv cfg spare due { s with combiner := combiner' } (rest + new) := by
  show Inv cfg spare due { s with counter := s.counter, combiner := combiner' } (rest + new)
  refine h.move hok hnodes howed hcombiner (fun k => le_refl _) fun k => ?_
  rw [hheld, Nat.sub_self]
  exact (add_zero _).symm

/-! ### Counters and combiners -/

theorem setCombiner_self (f : Combiner) : (s.setCombiner k c f).combiner k c = f := by
  simp [State.setCombiner]

theorem setCombiner_ne (f : Combiner) {k' : Counter} {c' : Fin (n + 1)} (h : ¬(k' = k ∧ c' = c)) :
    (s.setCombiner k c f).combiner k' c' = s.combiner k' c' := by
  simp only [State.setCombiner, update_apply]
  by_cases hk : k' = k
  · subst hk
    have hc : c' ≠ c := fun hc => h ⟨rfl, hc⟩
    simp [update_of_ne hc]
  · simp [hk]

theorem fetch_and_add_spec {inc : ℕ} {st : Stage} {others : Calls} {spare : Multiset ℕ} {out : Outcome}
    (h : CombinedCounter.Inv (s.combiner k c) ((inc, st) ::ₘ others) spare)
    (hcall : cfg.flat_combine = false → st = .call)
    (hx : s.fetch_and_add k c cfg inc st = some (s', out)) :
    ∃ f t, s' = (s.setCombiner k c f).setCounter k t ∧
      Kept others spare (s.counter k) inc ⟨f, t, out⟩ := by
  unfold State.fetch_and_add at hx
  split at hx
  · rename_i hflat
    obtain ⟨a, ha, heq⟩ := Option.map_eq_some_iff.mp hx
    cases heq
    exact ⟨_, _, rfl, step_inv h ha⟩
  · rename_i hflat
    obtain rfl := hcall (by simpa using hflat)
    cases hx
    refine ⟨s.combiner k c, s.counter k + inc, ?_, Nat.le_add_right _ _, spare, ?_, ?_⟩
    · simp [State.setCombiner]
    · rw [Outcome.calls, zero_add]
      exact h.of_call
    · rw [Outcome.values, Nat.add_sub_cancel_left, add_comm]

theorem fetch_goesOn {inc : ℕ} {st st' : Stage} (hcall : cfg.flat_combine = false → st = .call)
    (hoff : cfg.flat_combine = false) (hx : s.fetch_and_add k c cfg inc st = some (s', .goesOn st')) :
    st' = .call := by
  rw [hcall hoff, State.fetch_and_add, hoff] at hx
  cases (Prod.mk.inj (Option.some.inj hx)).2

/-- A task goes on in a call of `fetch_and_add`, or with what the call has returned. -/
theorem Inv.fetch (h : Inv cfg spare due s (x ::ₘ rest)) {inc : ℕ} {st : Stage} {out : Outcome}
    (hcall : cfg.flat_combine = false → st = .call)
    (hx : s.fetch_and_add k c cfg inc st = some (s', out))
    (hcalls : x.calls cfg k c = {(inc, st)}) (hcalls' : y.calls cfg k c = out.calls inc)
    (hother : ∀ k' c', ¬(k' = k ∧ c' = c) → x.calls cfg k' c' = 0 ∧
      (y.calls cfg k' c' = 0 ∨ y.calls cfg k' c' = {(inc, .call)}))
    (hheld : y.held cfg k = x.held cfg k + out.values inc)
    (hheld' : ∀ k' ≠ k, y.held cfg k' = x.held cfg k')
    (hnodes : y.nodes = x.nodes) (howed : y.owed s = x.owed s) (hok : y.Ok cfg s) :
    ∃ spare', Inv cfg spare' due s' (rest + {y}) := by
  have hc := h.combiner k c
  rw [cons_bind, hcalls, singleton_add] at hc
  obtain ⟨f, t, rfl, hle, kept, hinv, hvalues⟩ := fetch_and_add_spec hc hcall hx
  refine ⟨update spare k (update (spare k) c kept), ?_⟩
  apply h.move
  · intro z hz
    rw [mem_singleton.mp hz]
    exact hok
  · rw [singleton_bind, hnodes]
  · rw [singleton_bind, howed]
  · intro k' c'
    rw [add_bind, singleton_bind]
    by_cases hsame : k' = k ∧ c' = c
    · obtain ⟨rfl, rfl⟩ := hsame
      rw [setCombiner_self, hcalls', add_comm, update_self, update_self]
      exact hinv
    · -- another combiner, at which the task may arrive
      have hspare : update spare k (update (spare k) c kept) k' c' = spare k' c' := by
        by_cases hk : k' = k
        · subst hk
          rw [update_self, update_of_ne fun hc => hsame ⟨rfl, hc⟩]
        · rw [update_of_ne hk]
      have hold := h.combiner k' c'
      rw [cons_bind, (hother k' c' hsame).1, zero_add] at hold
      rw [setCombiner_ne f hsame, hspare]
      rcases (hother k' c' hsame).2 with hzero | hone
      · rw [hzero, add_zero]
        exact hold
      · rw [hone, add_comm, singleton_add]
        exact hold.call
  · intro k'
    by_cases hk : k' = k
    · subst hk
      simpa using hle
    · simp [update_of_ne hk, State.setCombiner]
  · intro k'
    rw [singleton_bind]
    by_cases hk : k' = k
    · subst hk
      -- the other combiners keep what they have
      have hold : ∑ c', spare k' c' = spare k' c + ∑ c' ∈ Finset.univ.erase c, spare k' c' :=
        (Finset.add_sum_erase _ _ (Finset.mem_univ c)).symm
      have hnew : ∑ c', update (spare k') c kept c' =
          kept + ∑ c' ∈ Finset.univ.erase c, spare k' c' := by
        rw [Finset.sum_update_of_mem (Finset.mem_univ c), Finset.sdiff_singleton_eq_erase]
      simp only [update_self] at hvalues ⊢
      rw [hheld, hnew, hold]
      calc x.held cfg k' + out.values inc + (kept + ∑ c' ∈ Finset.univ.erase c, spare k' c')
          = x.held cfg k' + (out.values inc + kept) + ∑ c' ∈ Finset.univ.erase c, spare k' c' := by abel
        _ = _ := by
          rw [hvalues]
          abel
    · simp [update_of_ne hk, State.setCombiner, hheld' k' hk]

/-! ### The steps -/

section steps

variable {st : Stage} {childid0 : ℕ} {new : List (Item n)}

theorem Inv.ids (h : Inv cfg spare due s (.ids c v st ::ₘ rest))
    (hx : (Item.ids c v st).exec cfg s = some (s', new)) :
    ∃ spare', Inv cfg spare' due s' (rest + new) := by
  obtain ⟨hnode, hcall⟩ := h.items _ (mem_cons_self _ _)
  obtain ⟨⟨s₁, out⟩, hfetch, heq⟩ := Option.map_eq_some_iff.mp hx
  have hcalls : (Item.ids c v st).calls cfg .global_id c = {(cfg.uts_numChildren v.path, st)} :=
    if_pos ⟨rfl, rfl⟩
  cases out with
  | goesOn st' =>
    cases heq
    rw [coe_singleton]
    apply h.fetch hcall hfetch hcalls
    case hcalls' => exact if_pos ⟨rfl, rfl⟩
    case hother => exact fun k' c' hne => ⟨if_neg hne, .inl (if_neg hne)⟩
    case hheld => rfl
    case hheld' =>
      intro k' _
      cases k' with
      | global_id => rfl
      | global_child_index => rfl
    case hnodes => rfl
    case howed => rfl
    case hok => exact ⟨hnode, fun hoff => fetch_goesOn hcall hoff hfetch⟩
  | returns childid0 =>
    cases heq
    rw [coe_singleton]
    apply h.fetch hcall hfetch hcalls
    case hcalls' => simp [calls, Outcome.calls]
    case hother =>
      intro k' c' hne
      refine ⟨if_neg hne, ?_⟩
      by_cases hplace : k' = .global_child_index ∧ c' = c
      · exact .inr (if_pos hplace)
      · exact .inl (if_neg hplace)
    case hheld => exact (zero_add _).symm
    case hheld' =>
      intro k' hk
      cases k' with
      | global_id => exact absurd rfl hk
      | global_child_index => rfl
    case hnodes => rfl
    case howed => rfl
    case hok => exact ⟨hnode, fun _ => rfl⟩

theorem Inv.places (h : Inv cfg spare due s (.places c v childid0 st ::ₘ rest))
    (hx : (Item.places c v childid0 st).exec cfg s = some (s', new)) :
    ∃ spare', Inv cfg spare' due s' (rest + new) := by
  obtain ⟨hnode, hcall⟩ := h.items _ (mem_cons_self _ _)
  obtain ⟨⟨s₁, out⟩, hfetch, heq⟩ := Option.map_eq_some_iff.mp hx
  have hcalls : (Item.places c v childid0 st).calls cfg .global_child_index c =
      {(cfg.uts_numChildren v.path, st)} := if_pos ⟨rfl, rfl⟩
  cases out with
  | goesOn st' =>
    cases heq
    rw [coe_singleton]
    apply h.fetch hcall hfetch hcalls
    case hcalls' => exact if_pos ⟨rfl, rfl⟩
    case hother => exact fun k' c' hne => ⟨if_neg hne, .inl (if_neg hne)⟩
    case hheld => rfl
    case hheld' =>
      intro k' _
      cases k' with
      | global_id => rfl
      | global_child_index => rfl
    case hnodes => rfl
    case howed => rfl
    case hok => exact ⟨hnode, fun hoff => fetch_goesOn hcall hoff hfetch⟩
  | returns index =>
    cases heq
    rw [coe_singleton]
    apply h.fetch hcall hfetch hcalls
    case hcalls' => rfl
    case hother => exact fun k' c' hne => ⟨if_neg hne, .inl rfl⟩
    case hheld => exact (zero_add _).symm
    case hheld' =>
      intro k' hk
      cases k' with
      | global_id => rfl
      | global_child_index => exact absurd rfl hk
    case hnodes => rfl
    case howed => rfl
    case hok => exact hnode

theorem promiseBoth_combiner (k : Counter) (c' : Fin (n + 1)) :
    (s.promiseBoth c).combiner k c' =
      if c' = c then (s.combiner k c').promise else s.combiner k c' := by
  by_cases hc : c' = c
  · subst hc
    cases k <;> simp [State.promiseBoth, State.promise, State.setCombiner]
  · cases k <;> simp [State.promiseBoth, State.promise, State.setCombiner, hc]

theorem promiseBoth_inv {calls : Calls} {spare : Multiset ℕ} {c' : Fin (n + 1)}
    (h : CombinedCounter.Inv (s.combiner k c') calls spare) :
    CombinedCounter.Inv ((s.promiseBoth c).combiner k c') calls spare := by
  rw [promiseBoth_combiner]
  split
  · exact h.promise
  · exact h

theorem Inv.vertex {parent_id childnum : ℕ}
    (h : Inv cfg spare due s (.vertex c parent_id childnum ::ₘ rest))
    (hx : (vertex c parent_id childnum).exec cfg s = some (s', new)) :
    Inv cfg spare due s' (rest + new) := by
  obtain ⟨v, hv, hid, hlt⟩ := h.items _ (mem_cons_self _ _)
  cases hx
  rw [coe_singleton]
  apply h.stay
  case hok =>
    intro y hy
    rw [mem_singleton.mp hy]
    exact ⟨rfl, v, hv, hid, hlt⟩
  case hnodes => rfl
  case howed => rfl
  case hcombiner =>
    intro k c'
    have hold := h.combiner k c'
    rw [cons_bind] at hold
    show CombinedCounter.Inv ((s.promiseBoth c).combiner k c') _ _
    rw [add_bind, singleton_bind, add_comm (rest.bind _)]
    exact promiseBoth_inv hold
  case hheld =>
    intro k
    cases k with
    | global_id => rfl
    | global_child_index => rfl

theorem loop_decomposition_spec {parent_id start iterations : ℕ}
    (hok : (range c parent_id start iterations).Ok cfg s) :
    (∀ y ∈ loop_decomposition cfg c parent_id start iterations, y.Ok cfg s) ∧
    ((loop_decomposition cfg c parent_id start iterations : Multiset (Item n)).bind nodes = 0) ∧
    ((loop_decomposition cfg c parent_id start iterations : Multiset (Item n)).bind (owed s) =
      (range c parent_id start iterations).owed s) ∧
    (∀ k c', (loop_decomposition cfg c parent_id start iterations : Multiset (Item n)).bind
      (calls cfg k c') = 0) ∧
    ∀ k, (loop_decomposition cfg c parent_id start iterations : Multiset (Item n)).bind
      (held cfg k) = 0 := by
  obtain ⟨v, hv, hid, hle⟩ := hok
  unfold loop_decomposition
  split_ifs with hzero hone
  · subst hzero
    exact ⟨fun y hy => absurd hy List.not_mem_nil, rfl, rfl, fun _ _ => rfl, fun _ => rfl⟩
  · -- one iteration
    obtain rfl : iterations = 1 := by
      unfold CREATE_THRESHOLD at hone
      omega
    refine ⟨?_, rfl, rfl, fun _ _ => rfl, fun k => by cases k <;> rfl⟩
    intro y hy
    obtain rfl := List.mem_singleton.mp hy
    exact ⟨v, hv, hid, by omega⟩
  · refine ⟨?_, rfl, ?_, fun _ _ => rfl, fun k => by cases k <;> rfl⟩
    · intro y hy
      simp only [List.mem_cons, List.not_mem_nil, or_false] at hy
      rcases hy with rfl | rfl
      · exact ⟨v, hv, hid, by omega⟩
      · exact ⟨v, hv, hid, by omega⟩
    · -- the left half comes first
      have hsum : (iterations + 1) / 2 + iterations / 2 = iterations := by omega
      let part := fun a m => (((List.range' a m).map (s.heir parent_id) : List Node) : Multiset Node)
      calc part (start + (iterations + 1) / 2) (iterations / 2) + (part start ((iterations + 1) / 2) + 0)
          = part start ((iterations + 1) / 2) + part (start + (iterations + 1) / 2) (iterations / 2) := by
            rw [add_zero, add_comm]
        _ = part start iterations := by
            simp only [part]
            rw [coe_add, ← List.map_append, List.range'_append_1, hsum]

theorem Inv.range {parent_id start iterations : ℕ}
    (h : Inv cfg spare due s (.range c parent_id start iterations ::ₘ rest))
    (hx : (range c parent_id start iterations).exec cfg s = some (s', new)) :
    Inv cfg spare due s' (rest + new) := by
  cases hx
  obtain ⟨hok, hnodes, howed, hcalls, hheld⟩ :=
    loop_decomposition_spec (h.items _ (mem_cons_self _ _))
  refine h.stay hok hnodes howed (fun k c' => ?_) fun k => ?_
  · have hold := h.combiner k c'
    have hnone : (range c parent_id start iterations).calls cfg k c' = 0 := rfl
    rw [cons_bind, hnone, zero_add] at hold
    rw [add_bind, hcalls, add_zero]
    exact hold
  · rw [hheld]
    cases k with
    | global_id => rfl
    | global_child_index => rfl

theorem Inv.due_fresh (h : Inv cfg spare {v} s pool) :
    (∀ w ∈ s.stored, w.id ≠ v.id) ∧ ∀ w ∈ pool.bind nodes, w.id ≠ v.id := by
  have hnodup := h.nodup_ids
  rw [map_add, nodup_add] at hnodup
  have hother : ∀ w ∈ (s.stored : Multiset Node) + pool.bind nodes + pool.bind (owed s),
      w.id ≠ v.id := by
    intro w hw heq
    refine disjoint_left.mp hnodup.2.2 (mem_map_of_mem _ hw) ?_
    rw [heq]
    exact mem_singleton_self _
  constructor
  · intro w hw
    exact hother w (by simp [hw])
  · intro w hw
    refine hother w ?_
    rw [mem_add, mem_add]
    exact .inl (.inr hw)

theorem Inv.create (h : Inv cfg spare {v} s pool)
    {combiner' : Counter → Fin (n + 1) → Combiner} (hok : ∀ s : State n, s.Tree_Nodes v.id = v → y.Ok cfg s)
    (hnodes : y.nodes = {v}) (howed : ∀ s, y.owed s = 0)
    (hcombiner : ∀ k c, CombinedCounter.Inv (combiner' k c)
      ((pool + {y}).bind (calls cfg k c)) (spare k c))
    (hheld : ∀ k, y.held cfg k = 0) :
    Inv cfg spare 0
      { s with
        combiner := combiner'
        uts_num_gen_nodes := update s.uts_num_gen_nodes c (s.uts_num_gen_nodes c + 1)
        Tree_Nodes := update s.Tree_Nodes v.id v }
      (pool + {y}) := by
  obtain ⟨hstored, htasks⟩ := h.due_fresh
  set s₁ : State n := { s with
    combiner := combiner'
    uts_num_gen_nodes := update s.uts_num_gen_nodes c (s.uts_num_gen_nodes c + 1)
    Tree_Nodes := update s.Tree_Nodes v.id v } with hs₁
  have hagrees : ∀ w ∈ s.stored, Agrees cfg s s₁ w := by
    intro w hw
    exact ⟨update_of_ne (hstored w hw) _ _, rfl, fun _ _ => rfl⟩
  constructor
  case started => exact h.started
  case stored => exact fun w hw => (hagrees w hw).stored (h.stored w hw)
  case items =>
    intro x hx
    rcases mem_add.mp hx with hx | hx
    · refine ok_congr hagrees (fun w hw => hw) (fun w hw => ?_) (h.items x hx)
      exact update_of_ne (htasks w (mem_bind.mpr ⟨x, hx, hw⟩)) _ _
    · rw [mem_singleton.mp hx]
      exact hok _ (update_self ..)
  case vertices =>
    have hv := h.vertices
    rw [add_bind, add_bind, singleton_bind, singleton_bind, hnodes,
      howed, children_congr hagrees,
      bind_congr fun x hx => owed_congr hagrees (h.items x hx), ← hv]
    abel
  case combiner => exact hcombiner
  case counter => exact h.counter
  case tiles =>
    intro k
    have ht := h.tiles k
    have hchildren := children_congr hagrees
    have hplaces := places_congr hagrees
    have hgiven : s₁.given cfg k = s.given cfg k := by
      cases k with
      | global_id => exact congrArg (map Node.id) hchildren
      | global_child_index => exact hplaces
    rw [add_bind, singleton_bind, hheld, add_zero, hgiven]
    exact ht
  case generated =>
    have hsum : s₁.generated = s.generated + 1 :=
      Census.sum_eq_add (update_self c (s.uts_num_gen_nodes c + 1) s.uts_num_gen_nodes)
        fun d hd => update_of_ne hd ..
    rw [hsum, h.generated, add_bind, singleton_bind, hnodes, card_add,
      card_singleton]
    rfl

theorem Inv.tj_create_children (h : Inv cfg spare {v} s pool) :
    Inv cfg spare 0 (s.tj_create_children c cfg v).1
      (pool + (s.tj_create_children c cfg v).2) := by
  simp only [State.tj_create_children]
  split
  · -- the task has promised, and is about to call
    rw [coe_singleton]
    refine h.create ?_ rfl (fun _ => rfl) ?_ ?_
    · exact fun s hnode => ⟨hnode, fun _ => rfl⟩
    · intro k c'
      have hinv := promiseBoth_inv (c := c) (h.combiner k c')
      rw [add_bind, singleton_bind]
      by_cases hcall : k = .global_id ∧ c' = c
      · have hone : (Item.ids c v .call).calls cfg k c' = {(cfg.uts_numChildren v.path, .call)} :=
          if_pos hcall
        rw [hone, add_comm (pool.bind _), singleton_add]
        exact hinv.call
      · have hnone : (Item.ids c v .call).calls cfg k c' = 0 := if_neg hcall
        rw [hnone, add_zero]
        exact hinv
    · intro k
      cases k with
      | global_id => rfl
      | global_child_index => rfl
  · rename_i hleaf
    have hzero : cfg.uts_numChildren v.path = 0 := by omega
    rw [coe_singleton]
    refine h.create ?_ rfl (fun _ => rfl) ?_ ?_
    · exact fun s hnode => hnode
    · intro k c'
      rw [add_bind, singleton_bind]
      exact (add_zero (pool.bind _)).symm ▸ h.combiner k c'
    · intro k
      cases k with
      | global_id => simp [held, hzero]
      | global_child_index => simp [held, hzero]

theorem Inv.child {parent_id childnum p_childIndex : ℕ}
    (h : Inv cfg spare 0 s (.child c parent_id childnum p_childIndex ::ₘ rest))
    (hx : (child c parent_id childnum p_childIndex).exec cfg s = some (s', new)) :
    Inv cfg spare 0 s' (rest + new) := by
  obtain ⟨rfl, w, hw, rfl, hlt⟩ := h.items _ (mem_cons_self _ _)
  -- the vertex that is made is the one that was owed
  have hmade : (⟨childnum :: (s.Tree_Nodes w.id).path,
      s.Child (s.Vertex w.id).childIndex + childnum⟩ : Node) = s.heir w.id childnum := by
    rw [State.heir, (h.stored w hw).child childnum hlt]
  have heq : s.tj_create_children c cfg (s.heir w.id childnum) = (s', new) :=
    hmade ▸ Option.some.inj hx
  have hdue : Inv cfg spare {s.heir w.id childnum} s rest := by
    constructor
    case started => exact h.started
    case stored => exact h.stored
    case items => exact fun x hx => h.items x (mem_cons_of_mem hx)
    case vertices =>
      have hv := h.vertices
      have hnodes : (Item.child c w.id childnum (s.Vertex w.id).childIndex).nodes = 0 := rfl
      have howed : (Item.child c w.id childnum (s.Vertex w.id).childIndex).owed s =
        {s.heir w.id childnum} := rfl
      rw [cons_bind, cons_bind, hnodes, howed] at hv
      rw [← hv]
      abel
    case combiner =>
      intro k c'
      have hold := h.combiner k c'
      have hnone : (Item.child c w.id childnum (s.Vertex w.id).childIndex).calls cfg k c' = 0 := rfl
      rw [cons_bind, hnone, zero_add] at hold
      exact hold
    case counter => exact h.counter
    case tiles =>
      intro k
      have ht := h.tiles k
      have hnone : (Item.child c w.id childnum (s.Vertex w.id).childIndex).held cfg k = 0 := by
        cases k with
        | global_id => rfl
        | global_child_index => rfl
      rw [cons_bind, hnone, zero_add] at ht
      exact ht
    case generated =>
      have hg := h.generated
      have hnodes : (Item.child c w.id childnum (s.Vertex w.id).childIndex).nodes = 0 := rfl
      rw [cons_bind, hnodes, zero_add] at hg
      exact hg
  have hcreate := hdue.tj_create_children (c := c)
  rw [heq] at hcreate
  exact hcreate

section store

variable {index : ℕ}

theorem Inv.id_ne (h : Inv cfg spare due s (.store c v childid0 index ::ₘ rest)) :
    ∀ w ∈ s.stored, w.id ≠ v.id := by
  have hat : (store c v childid0 index).nodes = {v} := rfl
  have hnodup := h.nodup_ids
  rw [cons_bind, hat, map_add, map_add, map_add, map_add,
    nodup_add, nodup_add, nodup_add] at hnodup
  intro w hw heq
  refine disjoint_left.mp hnodup.1.1.2.2 (mem_map_of_mem _ (mem_coe.mpr hw)) ?_
  rw [heq]
  exact mem_add.mpr (.inl (mem_map_of_mem _ (mem_singleton_self v)))

theorem Inv.place_ne (h : Inv cfg spare due s (.store c v childid0 index ::ₘ rest)) :
    ∀ w ∈ s.stored, ∀ i < cfg.uts_numChildren w.path,
      ¬(index ≤ (s.Vertex w.id).childIndex + i ∧
        (s.Vertex w.id).childIndex + i < index + cfg.uts_numChildren v.path) := by
  have hnodup := h.nodup_tiles .global_child_index
  rw [cons_bind, nodup_add] at hnodup
  intro w hw i hi hin
  have hgiven : (s.Vertex w.id).childIndex + i ∈ s.given cfg .global_child_index := by
    refine mem_bind.mpr ⟨w, mem_coe.mpr hw, ?_⟩
    exact mem_coe.mpr (List.mem_range'_1.mpr ⟨by omega, by omega⟩)
  refine disjoint_left.mp hnodup.2.2 hgiven (mem_add.mpr (.inl ?_))
  exact mem_coe.mpr (List.mem_range'_1.mpr hin)

theorem Inv.agrees_write (h : Inv cfg spare due s (.store c v childid0 index ::ₘ rest)) :
    ∀ w ∈ s.stored, Agrees cfg s (s.write cfg v childid0 index) w := by
  intro w hw
  exact ⟨rfl, update_of_ne (h.id_ne w hw) _ _, fun i hi => if_neg (h.place_ne w hw i hi)⟩

theorem vertex_write : (s.write cfg v childid0 index).Vertex v.id =
    ⟨cfg.uts_numChildren v.path, index⟩ :=
  update_self ..

theorem child_write {i : ℕ} (hi : i < cfg.uts_numChildren v.path) :
    (s.write cfg v childid0 index).Child (index + i) = childid0 + i := by
  have hin : index ≤ index + i ∧ index + i < index + cfg.uts_numChildren v.path := by omega
  have heq : (s.write cfg v childid0 index).Child (index + i) = childid0 + (index + i - index) :=
    if_pos hin
  rw [heq, Nat.add_sub_cancel_left]

theorem stored_write (hnode : s.Tree_Nodes v.id = v) :
    (s.write cfg v childid0 index).Stored cfg v := by
  refine ⟨hnode, by rw [vertex_write], fun i hi => ?_⟩
  have hfirst : (s.write cfg v childid0 index).Child (index + 0) = childid0 + 0 :=
    child_write (by omega)
  rw [add_zero] at hfirst
  rw [vertex_write, child_write hi, hfirst, add_zero]

theorem Inv.given_write (h : Inv cfg spare due s (.store c v childid0 index ::ₘ rest)) (k : Counter) :
    (s.write cfg v childid0 index).given cfg k =
      (store c v childid0 index).held cfg k + s.given cfg k := by
  have hstored : ((s.write cfg v childid0 index).stored : Multiset Node) = v ::ₘ s.stored := rfl
  cases k with
  | global_id =>
    have hids : ((s.write cfg v childid0 index).children cfg v).map Node.id =
        (List.range' childid0 (cfg.uts_numChildren v.path) : Multiset ℕ) := by
      rw [State.children, map_coe, List.map_map, List.range'_eq_map_range]
      congr 1
      refine List.map_congr_left fun i hi => ?_
      show (s.write cfg v childid0 index).Child
        (((s.write cfg v childid0 index).Vertex v.id).childIndex + i) = childid0 + i
      rw [vertex_write, child_write (List.mem_range.mp hi)]
    simp only [State.given]
    rw [hstored, cons_bind, children_congr h.agrees_write, map_add, hids]
    rfl
  | global_child_index =>
    have hplaces : (s.write cfg v childid0 index).places cfg v =
        (List.range' index (cfg.uts_numChildren v.path) : Multiset ℕ) := by
      rw [State.places, vertex_write]
    simp only [State.given]
    rw [hstored, cons_bind, places_congr h.agrees_write, hplaces]
    rfl

theorem Inv.store (h : Inv cfg spare due s (.store c v childid0 index ::ₘ rest))
    (hx : (store c v childid0 index).exec cfg s = some (s', new)) :
    Inv cfg spare due s' (rest + new) := by
  have hnode : s.Tree_Nodes v.id = v := h.items _ (mem_cons_self _ _)
  cases hx
  rw [coe_singleton]
  have hagrees := h.agrees_write
  set s₁ := s.write cfg v childid0 index with hs₁
  have hat : (store c v childid0 index).nodes = {v} := rfl
  have hstored : (s₁.stored : Multiset Node) = v ::ₘ s.stored := rfl
  have hchildren : (Item.range c v.id 0 (cfg.uts_numChildren v.path)).owed s₁ = s₁.children cfg v := by
    rw [State.children, List.range_eq_range']
    rfl
  constructor
  case started => exact h.started
  case stored =>
    intro w hw
    rcases List.mem_cons.mp hw with rfl | hw
    · exact stored_write hnode
    · exact (hagrees w hw).stored (h.stored w hw)
  case items =>
    intro x hx
    rcases mem_add.mp hx with hx | hx
    · exact ok_congr hagrees (fun w hw => List.mem_cons_of_mem _ hw) (fun w _ => rfl)
        (h.items x (mem_cons_of_mem hx))
    · rw [mem_singleton.mp hx]
      exact ⟨v, List.mem_cons_self, rfl, by omega⟩
  case vertices =>
    have hv := h.vertices
    have howed : (store c v childid0 index).owed s = 0 := rfl
    have hnone : (Item.range c v.id 0 (cfg.uts_numChildren v.path)).nodes = 0 := rfl
    have hrest : rest.bind (owed s₁) = rest.bind (owed s) :=
      bind_congr fun x hx => owed_congr hagrees (h.items x (mem_cons_of_mem hx))
    rw [cons_bind, cons_bind, hat, howed] at hv
    rw [add_bind, add_bind, singleton_bind, singleton_bind, hnone,
      hchildren, hrest, hstored, cons_bind, children_congr hagrees, ← singleton_add]
    calc {v} + (s.stored : Multiset Node) + (rest.bind nodes + 0) +
          (rest.bind (owed s) + s₁.children cfg v) + due
        = s.stored + ({v} + rest.bind nodes) + (0 + rest.bind (owed s)) + due +
            s₁.children cfg v := by abel
      _ = _ := by
        rw [hv]
        abel
  case combiner =>
    intro k c'
    have hold := h.combiner k c'
    have hnone : (store c v childid0 index).calls cfg k c' = 0 := rfl
    have hnone' : (Item.range c v.id 0 (cfg.uts_numChildren v.path)).calls cfg k c' = 0 := rfl
    rw [cons_bind, hnone, zero_add] at hold
    rw [add_bind, singleton_bind, hnone', add_zero]
    exact hold
  case counter => exact h.counter
  case tiles =>
    intro k
    have ht := h.tiles k
    have hnone : (Item.range c v.id 0 (cfg.uts_numChildren v.path)).held cfg k = 0 := by
      cases k with
      | global_id => rfl
      | global_child_index => rfl
    rw [cons_bind] at ht
    rw [add_bind, singleton_bind, hnone, h.given_write]
    refine Eq.trans ?_ ht
    abel
  case generated =>
    have hg := h.generated
    have hnone : (Item.range c v.id 0 (cfg.uts_numChildren v.path)).nodes = 0 := rfl
    have hsame : s₁.generated = s.generated := rfl
    have hlength : s₁.stored.length = s.stored.length + 1 := rfl
    rw [cons_bind, hat, card_add, card_singleton] at hg
    rw [add_bind, singleton_bind, hnone, add_zero, hsame, hlength]
    omega

end store

theorem Inv.exec (h : Inv cfg spare 0 s (x ::ₘ rest)) (hx : x.exec cfg s = some (s', new)) :
    ∃ spare', Inv cfg spare' 0 s' (rest + new) := by
  cases x with
  | range c parent_id start iterations => exact ⟨spare, h.range hx⟩
  | vertex c parent_id childnum => exact ⟨spare, h.vertex hx⟩
  | child c parent_id childnum p_childIndex => exact ⟨spare, h.child hx⟩
  | ids c v st => exact h.ids hx
  | places c v childid0 st => exact h.places hx
  | store c v childid0 index => exact ⟨spare, h.store hx⟩

end steps

/-! ### The main task -/

theorem root_inv (m : Memory) :
    Inv cfg (fun _ _ => 0) {root} { (init (n := n) m).setCounter .global_id 1 with started := true } 0 where
  started := rfl
  stored := fun v hv => absurd hv List.not_mem_nil
  items := fun x hx => absurd hx (notMem_zero x)
  vertices := rfl
  combiner := fun _ _ => new_inv
  counter := by
    intro k
    cases k with
    | global_id => exact le_refl _
    | global_child_index => exact le_refl _
  tiles := by
    intro k
    rw [Finset.sum_const_zero]
    cases k with
    | global_id => rfl
    | global_child_index => rfl
  generated := Finset.sum_const_zero

/-- What holds of every state that the tasks lead to: nothing has begun, or the invariant. -/
def Reached (cfg : Config n) (m : Memory) (s : State n) (pool : Multiset (Item n)) : Prop :=
  (s = init m ∧ pool = 0) ∨ ∃ spare, Inv cfg spare 0 s pool

theorem Reached.exec {m : Memory} {new : List (Item n)} (h : Reached cfg m s (x ::ₘ rest))
    (hx : x.exec cfg s = some (s', new)) : Reached cfg m s' (rest + new) := by
  obtain ⟨-, hnone⟩ | ⟨spare, hinv⟩ := h
  · exact absurd hnone cons_ne_zero
  · exact .inr (hinv.exec hx)

theorem Reached.advance {m : Memory} {new : List (Item n)} (h : Reached cfg m s 0)
    (hx : s.advance cfg = some (s', new)) : Reached cfg m s' new := by
  obtain ⟨rfl, -⟩ | ⟨spare, hinv⟩ := h
  · have heq : (s', new) = _ := (Option.some.inj hx).symm
    have hroot : Inv cfg _ {root} _ 0 := root_inv m
    have hcreate : Inv cfg _ 0 (State.tj_create_children _ ⟨0, Nat.succ_pos n⟩ cfg root).1 (0 + _) :=
      hroot.tj_create_children
    rw [zero_add] at hcreate
    obtain ⟨rfl, rfl⟩ := Prod.mk.inj heq
    exact .inr ⟨_, hcreate⟩
  · simp [State.advance, hinv.started] at hx

theorem reachable {m : Memory} {t : Phased.State (State n) (Item n)}
    (ht : ((par_create_tree cfg).system (init m)).Reachable t) :
    Reached cfg m t.shared t.pool :=
  Phased.Program.Reachable.inv (Reached cfg m) (.inl ⟨rfl, rfl⟩)
    (fun _ _ _ _ _ h hx => h.exec hx) (fun _ _ _ h hx => h.advance hx) ht

end TreeGeneration

end Grappa
