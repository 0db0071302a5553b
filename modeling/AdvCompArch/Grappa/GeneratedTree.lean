import AdvCompArch.Grappa.TreeGenerationInvariant
import AdvCompArch.Lib.PathTree

/-! # The generated tree

    When the tasks are done, the invariant says that the arrays hold the tree: what the
    combiners took from the counters is with the stored vertices, and the stored vertices
    are the root and all their children.  The search then goes through the tree. -/

namespace Grappa

namespace TreeGeneration

open CombinedCounter Multiset SearchItem

variable {n : ℕ} {cfg : Config n} {spare : Counter → Fin (n + 1) → Multiset ℕ} {s s' : State n}
  {x y : Item n} {rest pool new : Multiset (Item n)} {due : Multiset Node} {k : Counter}
  {c : Fin (n + 1)} {v w : Node} {p : List ℕ}

/-! ### Paths -/

/-- All vertices that there are, or that are to be made. -/
def all (s : State n) (pool : Multiset (Item n)) (due : Multiset Node) : Multiset Node :=
  s.stored + pool.bind Item.nodes + pool.bind (Item.owed s) + due

theorem mem_all_of_stored (hv : v ∈ s.stored) : v ∈ all s pool due := by
  simp [all, hv]

/-- A vertex is the root or the child of a stored one. -/
theorem Inv.vertex_cases (h : Inv cfg spare due s pool) (hv : v ∈ all s pool due) :
    v = root ∨ ∃ w ∈ s.stored, ∃ i < cfg.uts_numChildren w.path, v = s.heir w.id i ∧
      v.path = i :: w.path := by
  rw [all, h.vertices] at hv
  rcases mem_add.mp hv with hroot | hchild
  · exact .inl (mem_singleton.mp hroot)
  · obtain ⟨w, hw, hchild⟩ := mem_bind.mp hchild
    obtain ⟨i, hi, rfl⟩ := List.mem_map.mp hchild
    refine .inr ⟨w, hw, i, List.mem_range.mp hi, rfl, ?_⟩
    rw [State.heir, (h.stored w hw).node]

theorem Inv.isVertex (h : Inv cfg spare due s pool) (hv : v ∈ all s pool due) :
    IsVertex cfg.uts_numChildren v.path := by
  induction hp : v.path generalizing v with
  | nil => trivial
  | cons i p ih =>
    rcases h.vertex_cases hv with rfl | ⟨w, hw, j, hj, -, hpath⟩
    · cases hp
    · obtain ⟨rfl, rfl⟩ := List.cons.inj (hp.symm.trans hpath)
      exact ⟨hj, ih (mem_all_of_stored hw) rfl⟩

theorem Inv.path_inj (h : Inv cfg spare due s pool) (hv : v ∈ all s pool due)
    (hw : w ∈ all s pool due) (heq : v.path = w.path) : v = w := by
  induction hp : v.path generalizing v w with
  | nil =>
    rcases h.vertex_cases hv with rfl | ⟨v', -, i, -, -, hpath⟩
    · rcases h.vertex_cases hw with rfl | ⟨w', -, i, -, -, hpath⟩
      · rfl
      · rw [← heq] at hpath
        cases hpath
    · rw [hp] at hpath
      cases hpath
  | cons i p ih =>
    rcases h.vertex_cases hv with rfl | ⟨v', hv', j, -, hvj, hvpath⟩
    · cases hp
    rcases h.vertex_cases hw with rfl | ⟨w', hw', j', -, hwj, hwpath⟩
    · rw [heq] at hp
      cases hp
    obtain ⟨rfl, hp'⟩ := List.cons.inj (hp.symm.trans hvpath)
    obtain ⟨rfl, hq'⟩ := List.cons.inj ((hp.symm.trans heq).trans hwpath)
    have hsame := ih (mem_all_of_stored hv') (mem_all_of_stored hw') (hp'.symm.trans hq') hp'.symm
    rw [hvj, hwj, hsame]

theorem Inv.nodup_stored (h : Inv cfg spare due s pool) : (s.stored.map Node.id).Nodup := by
  have hnodup := h.nodup_ids
  rw [map_add, map_add, map_add] at hnodup
  have hle : ((s.stored : Multiset Node).map Node.id) ≤ (s.stored : Multiset Node).map Node.id +
      (pool.bind Item.nodes).map Node.id + (pool.bind (Item.owed s)).map Node.id +
      due.map Node.id := by
    rw [add_assoc, add_assoc]
    exact le_add_right _ _
  exact coe_nodup.mp (nodup_of_le hle hnodup)

/-! ### The arrays at the end -/

section ended

variable (h : Inv cfg spare 0 s 0)

include h

theorem Inv.stored_eq : (s.stored : Multiset Node) =
    {root} + (s.stored : Multiset Node).bind (s.children cfg) := by
  simpa using h.vertices

theorem Inv.heir_mem (hv : v ∈ s.stored) {i : ℕ} (hi : i < cfg.uts_numChildren v.path) :
    s.heir v.id i ∈ s.stored := by
  rw [← mem_coe, h.stored_eq]
  refine mem_add.mpr (.inr (mem_bind.mpr ⟨v, hv, ?_⟩))
  exact mem_coe.mpr (List.mem_map.mpr ⟨i, List.mem_range.mpr hi, rfl⟩)

theorem Inv.root_mem : root ∈ s.stored := by
  rw [← mem_coe, h.stored_eq]
  exact mem_add.mpr (.inl (mem_singleton_self _))

theorem Inv.exists_stored (hp : IsVertex cfg.uts_numChildren p) : ∃ v ∈ s.stored, v.path = p := by
  induction p with
  | nil => exact ⟨root, h.root_mem, rfl⟩
  | cons i p ih =>
    obtain ⟨v, hv, rfl⟩ := ih hp.2
    refine ⟨_, h.heir_mem hv hp.1, ?_⟩
    rw [State.heir, (h.stored v hv).node]

theorem Inv.given_eq (k : Counter) :
    s.given cfg k = (List.range' k.base (s.counter k - k.base) : Multiset ℕ) := by
  have hspare : ∀ c, spare k c = 0 := fun c => (h.combiner k c).spare_eq_zero
  rw [← h.tiles k]
  simp [hspare]

theorem Inv.ids_eq : (s.stored.map Node.id).Perm (List.range (s.counter .global_id)) := by
  have hids := congrArg (map Node.id) h.stored_eq
  rw [map_add] at hids
  have hgiven := h.given_eq .global_id
  have hpos : 1 ≤ s.counter .global_id := h.counter .global_id
  refine coe_eq_coe.mp ?_
  calc ((s.stored.map Node.id : List ℕ) : Multiset ℕ)
      = {0} + s.given cfg .global_id := hids
    _ = ((0 :: List.range' 1 (s.counter .global_id - 1) : List ℕ) : Multiset ℕ) := by
        rw [hgiven]
        rfl
    _ = (List.range (s.counter .global_id) : Multiset ℕ) := by
        obtain ⟨m, hm⟩ := Nat.exists_eq_add_of_le' hpos
        rw [hm, Nat.add_sub_cancel, List.range_eq_range', List.range'_succ]

theorem Inv.generated_eq : s.generated = s.counter .global_id := by
  have hlen := h.ids_eq.length_eq
  have hgen := h.generated
  rw [List.length_map, List.length_range] at hlen
  simp only [zero_bind, card_zero, add_zero] at hgen
  omega

theorem Inv.child_eq :
    ((List.range (s.generated - 1)).map s.Child).Perm (List.range' 1 (s.generated - 1)) := by
  have hchildren : (s.given cfg .global_child_index).map s.Child = s.given cfg .global_id := by
    simp only [State.given, map_bind]
    refine bind_congr fun v hv => ?_
    rw [State.places, State.children, List.range'_eq_map_range, map_coe, map_coe,
      List.map_map, List.map_map]
    rfl
  have hids := h.given_eq .global_id
  have hplaces := h.given_eq .global_child_index
  have hgen := h.generated_eq
  rw [hplaces, hids] at hchildren
  have hcard := congrArg card hchildren
  simp only [Counter.base, card_map, coe_card, List.length_range'] at hcard
  have hsub : s.counter .global_child_index - 0 = s.generated - 1 := by omega
  simp only [Counter.base] at hchildren
  rw [hsub, ← hgen, map_coe, coe_eq_coe, ← List.range_eq_range'] at hchildren
  exact hchildren

theorem Inv.segment_eq (hv : v ∈ s.stored) :
    s.segment v = List.range' (s.Vertex v.id).childIndex (cfg.uts_numChildren v.path) := by
  rw [State.segment, (h.stored v hv).numChildren]

theorem Inv.holdsTree : s.HoldsTree cfg where
  paths := by
    refine ⟨?_, fun p => ⟨?_, ?_⟩⟩
    · refine (List.Nodup.of_map _ h.nodup_stored).map_on fun v hv w hw heq => ?_
      exact h.path_inj (mem_all_of_stored hv) (mem_all_of_stored hw) heq
    · intro hp
      obtain ⟨v, hv, rfl⟩ := List.mem_map.mp hp
      exact h.isVertex (mem_all_of_stored hv)
    · intro hp
      obtain ⟨v, hv, rfl⟩ := h.exists_stored hp
      exact List.mem_map_of_mem hv
  ids := h.generated_eq ▸ h.ids_eq
  child := h.child_eq
  segments := by
    have hnodup : (s.given cfg .global_child_index).Nodup := by
      rw [h.given_eq]
      exact nodup_range' _ _
    have hflat : s.given cfg .global_child_index = (s.stored.flatMap fun v =>
        List.range' (s.Vertex v.id).childIndex (cfg.uts_numChildren v.path) : List ℕ) :=
      coe_bind _ _
    rw [hflat, coe_nodup, List.nodup_flatMap] at hnodup
    refine hnodup.2.imp_of_mem fun {v w} hv hw hdisjoint => ?_
    rw [h.segment_eq hv, h.segment_eq hw]
    exact hdisjoint
  own := by
    intro v hv
    refine ⟨(h.stored v hv).numChildren, fun i hi => ?_⟩
    have hheir := h.heir_mem hv hi
    rw [State.heir, (h.stored v hv).node] at hheir
    exact hheir

end ended

/-! ### The search -/

theorem isVertex_of_suffix {f : List ℕ → ℕ} {p q : List ℕ} (hpq : p <:+ q) (hq : IsVertex f q) :
    IsVertex f p := by
  obtain ⟨l, rfl⟩ := hpq
  induction l with
  | nil => exact hq
  | cons i l ih => exact ih hq.2

namespace SearchItem

/-- The sum of a weight over the vertices that are visited for an item. -/
def sum {M : Type*} [AddCommMonoid M] (s : State n) (g : Node → M) : SearchItem → M
  | search_vertex id => PathTree.below s.stored Node.path g (s.Tree_Nodes id).path
  | range start iterations => ((List.range' start iterations).map fun j =>
      PathTree.below s.stored Node.path g (s.Tree_Nodes (s.Child j)).path).sum

/-- The ids are those of stored vertices. -/
def Ok (s : State n) : SearchItem → Prop
  | search_vertex id => ∃ v ∈ s.stored, v.id = id
  | range start iterations =>
    ∀ j, start ≤ j → j < start + iterations → ∃ v ∈ s.stored, v.id = s.Child j

/-- The splits of a loop are counted in advance. -/
def splits : SearchItem → ℕ
  | search_vertex _ => 0
  | range _ iterations => if iterations = 0 then 1 else 2 * iterations - 1

/-- Room for the vertices and for the splits of their loops. -/
def size (cfg : Config n) (s : State n) (item : SearchItem) : ℕ :=
  item.sum s (fun v => 2 * cfg.uts_numChildren v.path + 2) + item.splits

theorem sum_range_split {M : Type*} [AddCommMonoid M] (s : State n) (g : Node → M)
    {start a b iterations : ℕ} (hab : a + b = iterations) :
    (range start iterations).sum s g = (range (start + a) b).sum s g + (range start a).sum s g := by
  simp only [sum]
  rw [← hab, ← List.range'_append_1, List.map_append, List.sum_append, add_comm]

end SearchItem

section search

variable (h : Inv cfg spare 0 s 0) {T : ℕ}

include h

/-- **A visit** counts the vertex and what is visited from it. -/
theorem Inv.search_vertex_sum {M : Type*} [AddCommMonoid M] (g : Node → M) (hv : v ∈ s.stored) :
    (search_vertex v.id).sum s g = g v +
      (SearchItem.range (s.Vertex v.id).childIndex (s.Vertex v.id).numChildren).sum s g := by
  have hbelow : PathTree.below s.stored Node.path g v.path = g v +
      ((List.range (cfg.uts_numChildren v.path)).map fun i =>
        PathTree.below s.stored Node.path g (i :: v.path)).sum := by
    refine PathTree.below_eq (List.Nodup.of_map _ h.nodup_stored) hv ?_ ?_
    · exact fun w hw heq => h.path_inj (mem_all_of_stored hw) (mem_all_of_stored hv) heq
    · exact fun w hw i hi => (isVertex_of_suffix hi (h.isVertex (mem_all_of_stored hw))).1
  simp only [SearchItem.sum]
  rw [(h.stored v hv).node, hbelow, (h.stored v hv).numChildren, List.range'_eq_map_range,
    List.map_map]
  congr 2
  refine List.map_congr_left fun i hi => ?_
  have hheir := h.heir_mem hv (List.mem_range.mp hi)
  have hnode : s.Tree_Nodes (s.Child ((s.Vertex v.id).childIndex + i)) = s.heir v.id i :=
    (h.stored _ hheir).node
  have hpath : (s.heir v.id i).path = i :: v.path := by rw [State.heir, (h.stored v hv).node]
  rw [Function.comp_apply, hnode, hpath]

theorem Inv.search_ok (item : SearchItem) (hok : item.Ok s) :
    ∀ j ∈ ((par_search_tree T s).exec item).2, j.Ok s := by
  cases item with
  | search_vertex id =>
    obtain ⟨v, hv, rfl⟩ := hok
    intro j hj
    obtain rfl := List.mem_singleton.mp hj
    intro i hlo hhi
    rw [(h.stored v hv).numChildren] at hhi
    obtain ⟨d, rfl⟩ := Nat.exists_eq_add_of_le hlo
    exact ⟨_, h.heir_mem hv (by omega), rfl⟩
  | range start iterations =>
    intro j hj
    simp only [par_search_tree] at hj
    split_ifs at hj
    · cases hj
    · obtain ⟨i, hi, rfl⟩ := List.mem_map.mp hj
      have hbounds := List.mem_range'_1.mp hi
      exact hok i hbounds.1 hbounds.2
    · simp only [List.mem_cons, List.not_mem_nil, or_false] at hj
      rcases hj with rfl | rfl
      · exact fun i hlo hhi => hok i (by omega) (by omega)
      · exact fun i hlo hhi => hok i hlo (by omega)

theorem Inv.search_exec {M : Type*} [AddCommMonoid M] (g : ℕ → M) (item : SearchItem)
    (hok : item.Ok s) : item.sum s (fun v => g v.id) =
      (((par_search_tree T s).exec item).1.map g).sum +
        (((par_search_tree T s).exec item).2.map (SearchItem.sum s fun v => g v.id)).sum := by
  cases item with
  | search_vertex id =>
    obtain ⟨v, hv, rfl⟩ := hok
    rw [h.search_vertex_sum _ hv]
    simp [par_search_tree]
  | range start iterations =>
    simp only [par_search_tree, List.map_nil, List.sum_nil, zero_add]
    split_ifs with hzero hfew
    · subst hzero
      rfl
    · rw [List.map_map]
      rfl
    · have hsum : (iterations + 1) / 2 + iterations / 2 = iterations := by omega
      simp only [List.map_cons, List.map_nil, List.sum_cons, List.sum_nil, add_zero]
      exact sum_range_split s _ hsum

theorem Inv.search_size (hT : 0 < T) (item : SearchItem) (hok : item.Ok s) :
    (((par_search_tree T s).exec item).2.map (size cfg s)).sum < item.size cfg s := by
  cases item with
  | search_vertex id =>
    obtain ⟨v, hv, rfl⟩ := hok
    simp only [par_search_tree, List.map_cons, List.map_nil, List.sum_cons, List.sum_nil,
      size, h.search_vertex_sum _ hv, splits, (h.stored v hv).numChildren]
    split_ifs <;> omega
  | range start iterations =>
    simp only [par_search_tree]
    split_ifs with hzero hfew
    · simp [size, splits, hzero]
    · have hvisits : (((List.range' start iterations).map fun j =>
          search_vertex (s.Child j)).map (size cfg s)).sum =
          (SearchItem.range start iterations).sum s
            fun v => 2 * cfg.uts_numChildren v.path + 2 := by
        rw [List.map_map]
        rfl
      rw [hvisits]
      simp only [size, splits, hzero, if_false]
      omega
    · have hsum : (iterations + 1) / 2 + iterations / 2 = iterations := by omega
      have hleft : (iterations + 1) / 2 ≠ 0 := by omega
      have hright : iterations / 2 ≠ 0 := by omega
      simp only [List.map_cons, List.map_nil, List.sum_cons, List.sum_nil, size,
        splits, hzero, hleft, hright, if_false,
        sum_range_split s _ hsum]
      omega

theorem Inv.searchedOnce (hT : 0 < T) : s.SearchedOnce T := by
  have hinit : ∀ item ∈ [search_vertex 0], item.Ok s := by
    intro item hitem
    obtain rfl := List.mem_singleton.mp hitem
    exact ⟨root, h.root_mem, rfl⟩
  refine ⟨?_, fun t ht hstuck => ?_⟩
  · refine Transition.System.terminates_of_measure (fun t => ∀ item ∈ t.pool, item.Ok s)
      (fun t => (t.pool.map (size cfg s)).sum) (fun t l t' hok hstep => ?_) hinit
    exact ⟨TaskPool.Program.next_ok h.search_ok hok hstep,
      TaskPool.Program.next_size (h.search_size hT) hok hstep⟩
  · have hpool := TaskPool.Program.drains hstuck
    have hlog := TaskPool.Program.conserved h.search_ok
      (h.search_exec fun id => ({id} : Multiset ℕ)) hinit ht
    refine ⟨hpool, ?_⟩
    have hroot : (s.Tree_Nodes 0).path = [] := congrArg Node.path (h.stored root h.root_mem).node
    have hall : (t.log.map fun id => ({id} : Multiset ℕ)).sum =
        (s.stored.map fun v => ({v.id} : Multiset ℕ)).sum := by
      simpa [hpool, SearchItem.sum, hroot, PathTree.below_nil] using hlog
    have hsum : ∀ l : List ℕ, (l.map fun id => ({id} : Multiset ℕ)).sum = (l : Multiset ℕ) := by
      intro l
      simpa using sum_map_singleton (l : Multiset ℕ)
    have hids := hsum (s.stored.map Node.id)
    rw [List.map_map] at hids
    have heq : (t.log : Multiset ℕ) = (s.stored.map Node.id : List ℕ) :=
      ((hsum t.log).symm.trans hall).trans hids
    exact (coe_eq_coe.mp heq).trans (h.generated_eq ▸ h.ids_eq)

end search

end TreeGeneration

end Grappa
