import AdvCompArch.Grappa.OnedCsrOffsets
import AdvCompArch.Grappa.OnedCsrPack

/-! # Edges in the ranges

    `gather_edges` scatters the edges: the other end of an edge gets the next place in the range of
    its vertex, and the write of it arrives at any time (`Scatter`).  Then each range is packed, and
    no write for one vertex goes to the range of another (`Pack`). -/

namespace Grappa

namespace OnedCsr

open Function Multiset

open BucketSort (forall_count)

variable {n : ℕ} {s s' : State n} {pool rest : Multiset (Item n)} {x : Item n} {new : List (Item n)}
  {tg : Call n} {nv total_sum : ℕ} {off z : ℕ → ℕ}

theorem Layout.eq_of_add_eq (h : Layout tg nv total_sum off z) {v w t u : ℕ} (hv : v < nv) (hw : w < nv)
    (ht : t < z v) (hu : u < z w) (heq : off v + t = off w + u) : v = w ∧ t = u := by
  rcases lt_trichotomy v w with hlt | rfl | hgt
  · have := h.order v w hlt hw
    omega
  · exact ⟨rfl, by omega⟩
  · have := h.order w v hgt hv
    omega

/-! ### Writes to the store -/

/-- A value is at its place, or on its way to it. -/
def Lands (s : State n) (pool : Multiset (Item n)) (k : ℕ) (j : ℤ) : Prop :=
  s.xadjstore[MINVECT_SIZE + k]? = some j ∨ .write_adj k j ∈ pool

theorem Lands.keep {k : ℕ} {j : ℤ} (h : Lands s (x ::ₘ rest) k j) (hx : ∀ k j, x ≠ .write_adj k j)
    (hstore : s'.xadjstore = s.xadjstore) : Lands s' (rest + pool) k j := by
  rcases h with hdone | hmem
  · exact .inl (hstore ▸ hdone)
  · have hmem' := (mem_cons.mp hmem).resolve_left fun hitem => hx k j hitem.symm
    exact .inr (mem_add.mpr (.inl hmem'))

theorem Lands.arrive {k k' : ℕ} {j j' : ℤ} (hlt : MINVECT_SIZE + k' < s.xadjstore.length)
    (hsame : k = k' → j = j') (h : Lands s (.write_adj k' j' ::ₘ rest) k j) :
    Lands { s with xadjstore := s.xadjstore.set (MINVECT_SIZE + k') j' } rest k j := by
  by_cases hk : k = k'
  · left
    show (s.xadjstore.set (MINVECT_SIZE + k') j')[MINVECT_SIZE + k]? = some j
    rw [hk, hsame hk, List.getElem?_set_self hlt]
  · rcases h with hdone | hmem
    · left
      show (s.xadjstore.set (MINVECT_SIZE + k') j')[MINVECT_SIZE + k]? = some j
      rw [List.getElem?_set_ne (by omega)]
      exact hdone
    · right
      exact (mem_cons.mp hmem).resolve_left fun hitem => hk (Item.write_adj.inj hitem).1

/-! ### Scattering -/

/-- What an item will add to the range of a vertex. -/
def Item.brings (tg : Call n) (v : ℕ) : Item n → Multiset ℕ
  | .scatter i => match tg.edges[i]? with
    | some e => (OnedCsr.ends v e : Multiset ℕ)
    | none => 0
  | .scatter_edge i j => if i = v then {j} else 0
  | _ => 0

/-- The edges are scattered to the ranges, in which the places of `l` are taken. -/
structure Scatter (off z : ℕ → ℕ) (l : ℕ → List ℕ) (s : State n) (pool : Multiset (Item n)) :
    Prop where
  items : ∀ x ∈ pool, (∃ i < s.tg.edges.length, x = .scatter i) ∨
    (∃ v < s.nv, ∃ w, x = .scatter_edge v w) ∨
    ∃ v < s.nv, ∃ t, ∃ w : ℕ, (l v)[t]? = some w ∧ x = .write_adj (off v + t) w
  length : s.xoff.length = 2 * s.nv + 2
  layout : Layout s.tg s.nv s.total_sum off z
  store : s.xadjstore.length = s.total_sum + MINVECT_SIZE
  offset : ∀ v < s.nv, s.offset v = off v
  endoff : ∀ v < s.nv, s.endoff v = off v + (l v).length
  ends : ∀ v < s.nv, (l v : Multiset ℕ) + (pool.map (Item.brings s.tg v)).sum = s.tg.ends v
  placed : ∀ v < s.nv, ∀ t, ∀ w : ℕ, (l v)[t]? = some w → Lands s pool (off v + t) w

theorem Xendoff.scatter (h : Xendoff z s 0) :
    Scatter s.offset z (fun _ => [])
      { s with
        pass := .scatter
        xoff := s.xoff.set (XOFF s.nv) s.total_sum
        nadj := s.total_sum + MINVECT_SIZE
        xadjstore := List.replicate (s.total_sum + MINVECT_SIZE) 0 }
      ((List.range s.tg.edges.length).map .scatter : List (Item n)) := by
  refine ⟨fun y hy => .inl ?_, by simpa using h.length, h.layout, List.length_replicate,
    fun v hv => ?_, fun v hv => ?_, fun v hv => ?_, fun v hv t w hw => ?_⟩
  · obtain ⟨i, hi, rfl⟩ := List.mem_map.mp hy
    exact ⟨i, List.mem_range.mp hi, rfl⟩
  · have hne : XOFF s.nv ≠ XOFF v := fun heq => hv.ne' (XOFF_inj.mp heq)
    simp only [State.offset, List.getD_eq_getElem?_getD, List.getElem?_set_ne hne]
  · rw [List.length_nil, add_zero, ← h.loop.finish hv]
    simp only [State.endoff, List.getD_eq_getElem?_getD,
      List.getElem?_set_ne (XOFF_ne_XENDOFF s.nv v)]
  · have hsum : (List.range s.tg.edges.length).map (Item.brings s.tg v ∘ .scatter) =
        s.tg.edges.map fun e => (OnedCsr.ends v e : Multiset ℕ) :=
      map_getElem?_range s.tg.edges fun e => match e with
        | some e => (OnedCsr.ends v e : Multiset ℕ)
        | none => 0
    have hbind : ∀ edges : List (ℕ × ℕ), (edges.map fun e => (OnedCsr.ends v e : Multiset ℕ)).sum =
        (edges.flatMap (OnedCsr.ends v) : List ℕ) := by
      intro edges
      induction edges with
      | nil => rfl
      | cons e edges ih =>
        rw [List.map_cons, List.sum_cons, ih, List.flatMap_cons, coe_add]
    rw [map_coe, sum_coe, List.map_map, hsum, hbind, coe_nil, zero_add]
    rfl
  · rw [List.getElem?_nil] at hw
    cases hw

theorem coe_ends (v : ℕ) {e : ℕ × ℕ} (he : e.1 ≠ e.2) :
    (ends v e : Multiset ℕ) = (if e.1 = v then {e.2} else 0) + if e.2 = v then {e.1} else 0 := by
  unfold ends
  rw [if_pos he, ← coe_add]
  split_ifs <;> rfl

section scatter

variable {l : ℕ → List ℕ}

theorem Scatter.length_le (h : Scatter off z l s pool) {v : ℕ} (hv : v < s.nv) :
    (l v).length ≤ z v := by
  have hcard := congrArg card (h.ends v hv)
  rw [card_add, coe_card, coe_card] at hcard
  have := h.layout.degrees v hv
  omega

theorem Scatter.exec_scatter (hnv : s.nv = s.tg.largest + 1) {i : ℕ} (hi : i < s.tg.edges.length)
    (h : Scatter off z l s (.scatter i ::ₘ rest)) (hx : (Item.scatter i).exec s = (s', new)) :
    Scatter off z l s' (rest + new) ∧ s'.failed = s.failed := by
  have he := List.getElem?_eq_getElem hi
  have hle := s.tg.le_largest (List.getElem_mem hi)
  have hold : ∀ v < s.nv, (l v : Multiset ℕ) + (OnedCsr.ends v s.tg.edges[i] +
      (rest.map (Item.brings s.tg v)).sum) = s.tg.ends v := by
    intro v hv
    have hends := h.ends v hv
    simpa only [map_cons, sum_cons, Item.brings, he] using hends
  by_cases hne : s.tg.edges[i].1 ≠ s.tg.edges[i].2
  · simp only [Item.exec, he, if_pos hne] at hx
    cases hx
    refine ⟨⟨fun y hy => ?_, h.length, h.layout, h.store, h.offset, h.endoff, fun v hv => ?_,
      fun v hv t w hw => ?_⟩, rfl⟩
    · rcases mem_add.mp hy with hy | hy
      · exact h.items y (mem_cons_of_mem hy)
      · simp only [mem_coe, List.mem_cons, List.not_mem_nil, or_false] at hy
        rcases hy with rfl | rfl
        · exact .inr (.inl ⟨_, by omega, _, rfl⟩)
        · exact .inr (.inl ⟨_, by omega, _, rfl⟩)
    · rw [← hold v hv, coe_ends v hne, map_add, sum_add, map_coe,
        sum_coe]
      simp only [List.map_cons, List.map_nil, List.sum_cons, List.sum_nil, add_zero, Item.brings]
      rw [add_comm ((rest.map _).sum)]
    · exact (h.placed v hv t w hw).keep (fun _ _ => by simp) rfl
  · simp only [Item.exec, he, if_neg hne] at hx
    cases hx
    refine ⟨⟨fun y hy => ?_, h.length, h.layout, h.store, h.offset, h.endoff, fun v hv => ?_,
      fun v hv t w hw => ?_⟩, rfl⟩
    · rw [coe_nil, add_zero] at hy
      exact h.items y (mem_cons_of_mem hy)
    · -- a self loop brings nothing
      have hends := hold v hv
      rw [coe_nil, add_zero]
      simpa [OnedCsr.ends, hne] using hends
    · exact (h.placed v hv t w hw).keep (fun _ _ => by simp) rfl

theorem Scatter.exec_scatter_edge {v w : ℕ} (hv : v < s.nv)
    (h : Scatter off z l s (.scatter_edge v w ::ₘ rest))
    (hx : (Item.scatter_edge v w).exec s = (s', new)) :
    Scatter off z (Function.update l v (l v ++ [w])) s' (rest + new) ∧ s'.failed = s.failed := by
  have hlt := XENDOFF_lt h.length hv
  simp only [Item.exec, getElem?_XENDOFF h.length hv, h.endoff v hv] at hx
  cases hx
  -- a place that was taken keeps its value
  have hgrow : ∀ u, ∀ t y : ℕ, (l u)[t]? = some y → (update l v (l v ++ [w]) u)[t]? = some y := by
    intro u t y hy
    by_cases hu : u = v
    · subst hu
      rw [update_self]
      exact List.getElem?_append_left (List.getElem?_eq_some_iff.mp hy).1 ▸ hy
    · rw [update_of_ne hu]
      exact hy
  have hlast : (update l v (l v ++ [w]) v)[(l v).length]? = some w := by
    rw [update_self, List.getElem?_concat_length]
  refine ⟨⟨fun y hy => ?_, by simpa using h.length, h.layout, h.store, fun u hu => ?_,
    fun u hu => ?_, fun u hu => ?_, fun u hu t y hy => ?_⟩, rfl⟩
  · rcases mem_add.mp hy with hy | hy
    · rcases h.items y (mem_cons_of_mem hy) with hitem | hitem | ⟨u, hu, t, b, hb, rfl⟩
      · exact .inl hitem
      · exact .inr (.inl hitem)
      · exact .inr (.inr ⟨u, hu, t, b, hgrow u t b hb, rfl⟩)
    · obtain rfl := List.mem_singleton.mp hy
      exact .inr (.inr ⟨v, hv, (l v).length, w, hlast, rfl⟩)
  · rw [← h.offset u hu]
    simp only [State.offset, List.getD_eq_getElem?_getD,
      List.getElem?_set_ne (XOFF_ne_XENDOFF u v).symm]
  · by_cases huv : u = v
    · subst huv
      simp only [State.endoff, List.getD_eq_getElem?_getD, List.getElem?_set_self hlt,
        update_self, List.length_append, List.length_singleton]
      rfl
    · have hne : XENDOFF v ≠ XENDOFF u := fun heq => huv (XENDOFF_inj.mp heq).symm
      rw [update_of_ne huv, ← h.endoff u hu]
      simp only [State.endoff, List.getD_eq_getElem?_getD, List.getElem?_set_ne hne]
  · have hold := h.ends u hu
    rw [map_cons, sum_cons] at hold
    rw [map_add, sum_add, map_coe, sum_coe, ← hold]
    simp only [List.map_cons, List.map_nil, List.sum_cons, List.sum_nil, add_zero, Item.brings]
    by_cases huv : u = v
    · subst huv
      rw [update_self, if_pos rfl, ← coe_add, add_assoc]
      rfl
    · rw [update_of_ne huv, if_neg (Ne.symm huv), zero_add]
  · by_cases hat : u = v ∧ t = (l v).length
    · obtain ⟨rfl, rfl⟩ := hat
      rw [hlast] at hy
      cases hy
      exact .inr (mem_add.mpr (.inr (by simp)))
    · have hy' : (l u)[t]? = some y := by
        by_cases huv : u = v
        · subst huv
          rw [update_self] at hy
          have htlt : t < (l u ++ [w]).length := (List.getElem?_eq_some_iff.mp hy).1
          have hne : t ≠ (l u).length := fun heq => hat ⟨rfl, heq⟩
          rw [List.length_append, List.length_singleton] at htlt
          rwa [List.getElem?_append_left (by omega)] at hy
        · rwa [update_of_ne huv] at hy
      exact (h.placed u hu t y hy').keep (fun _ _ => by simp) rfl

theorem Scatter.exec_write_adj {v t w : ℕ} (hv : v < s.nv) (ht : (l v)[t]? = some w)
    (h : Scatter off z l s (.write_adj (off v + t) w ::ₘ rest))
    (hx : (Item.write_adj (off v + t) w).exec s = (s', new)) :
    Scatter off z l s' (rest + new) ∧ s'.failed = s.failed := by
  have hin : ∀ {u i b}, u < s.nv → (l u)[i]? = some b → i < z u := by
    intro u i b hu hi
    exact (List.getElem?_eq_some_iff.mp hi).1.trans_le (h.length_le hu)
  have hbound := h.layout.bound v hv
  have htz := hin hv ht
  have hlt : MINVECT_SIZE + (off v + t) < s.xadjstore.length := by
    rw [h.store]
    omega
  simp only [Item.exec, if_pos hlt] at hx
  cases hx
  rw [coe_nil, add_zero]
  refine ⟨⟨fun y hy => h.items y (mem_cons_of_mem hy), h.length, h.layout,
    by simpa using h.store, h.offset, h.endoff, fun u hu => ?_, fun u hu i b hb => ?_⟩, rfl⟩
  · have hnone : (Item.write_adj (n := n) (off v + t) w).brings s.tg u = 0 := rfl
    have hold := h.ends u hu
    rwa [map_cons, sum_cons, hnone, zero_add] at hold
  · refine (h.placed u hu i b hb).arrive hlt fun heq => ?_
    obtain ⟨rfl, rfl⟩ := h.layout.eq_of_add_eq hu hv (hin hu hb) htz heq
    rw [hb] at ht
    rw [Option.some.inj ht]

theorem Scatter.exec (hnv : s.nv = s.tg.largest + 1) (h : Scatter off z l s (x ::ₘ rest))
    (hx : x.exec s = (s', new)) :
    (∃ l', Scatter off z l' s' (rest + new)) ∧ s'.failed = s.failed := by
  rcases h.items x (mem_cons_self x rest) with ⟨i, hi, rfl⟩ | ⟨v, hv, w, rfl⟩ |
    ⟨v, hv, t, w, ht, rfl⟩
  · exact (h.exec_scatter hnv hi hx).imp_left fun h' => ⟨l, h'⟩
  · exact (h.exec_scatter_edge hv hx).imp_left fun h' => ⟨_, h'⟩
  · exact (h.exec_write_adj hv ht hx).imp_left fun h' => ⟨l, h'⟩

end scatter

/-! ### Packing -/

/-- The ranges, which held the values of `l`, are packed. -/
structure Pack (off z : ℕ → ℕ) (l : ℕ → List ℤ) (s : State n) (pool : Multiset (Item n)) :
    Prop where
  items : ∀ x ∈ pool, (∃ v < s.nv, x = .pack v) ∨ ∃ v < s.nv, .pack v ∉ pool ∧
    ((∃ t j, (packed (l v)).1[t]? = some j ∧ x = .write_adj (off v + t) j) ∨
      x = .write (XENDOFF v) (off v + (packed (l v)).2))
  once : ∀ v, pool.count (.pack v) ≤ 1
  length : s.xoff.length = 2 * s.nv + 2
  layout : Layout s.tg s.nv s.total_sum off z
  store : s.xadjstore.length = s.total_sum + MINVECT_SIZE
  offset : ∀ v < s.nv, s.offset v = off v
  ends : ∀ v < s.nv, (l v).Perm ((s.tg.ends v).map Nat.cast)
  before : ∀ v < s.nv, .pack v ∈ pool → s.endoff v = off v + (l v).length ∧
    ∀ t j, (l v)[t]? = some j → s.xadjstore[MINVECT_SIZE + (off v + t)]? = some j
  after : ∀ v < s.nv, .pack v ∉ pool →
    (s.endoff v = off v + (packed (l v)).2 ∨
      .write (XENDOFF v) (off v + (packed (l v)).2) ∈ pool) ∧
    ∀ t j, (packed (l v)).1[t]? = some j → Lands s pool (off v + t) j

theorem Scatter.pack {l : ℕ → List ℕ} (h : Scatter off z l s 0) :
    Pack off z (fun v => (l v).map Nat.cast) { s with pass := .pack }
      ((List.range s.nv).map .pack : List (Item n)) := by
  refine ⟨fun y hy => .inl ?_, fun v => ?_, h.length, h.layout, h.store, h.offset, fun v hv => ?_,
    fun v hv _ => ⟨?_, fun t j hj => ?_⟩, fun v hv hout => absurd ?_ hout⟩
  · obtain ⟨v, hv, rfl⟩ := List.mem_map.mp hy
    exact ⟨v, List.mem_range.mp hv, rfl⟩
  · have hnodup : ((List.range s.nv).map (.pack : ℕ → Item n)).Nodup :=
      List.nodup_range.map fun _ _ => Item.pack.inj
    exact nodup_iff_count_le_one.mp (coe_nodup.mpr hnodup) _
  · have hends := h.ends v hv
    rw [map_zero, sum_zero, add_zero, coe_eq_coe] at hends
    exact hends.map _
  · rw [List.length_map]
    exact h.endoff v hv
  · rw [List.getElem?_map] at hj
    obtain ⟨w, hw, rfl⟩ := Option.map_eq_some_iff.mp hj
    exact (h.placed v hv t w hw).resolve_right (notMem_zero _)
  · exact List.mem_map_of_mem (List.mem_range.mpr hv)

section pack

variable {l : ℕ → List ℤ}

theorem Pack.lt_of_mem (h : Pack off z l s pool) {v t : ℕ} {j : ℤ} (hv : v < s.nv)
    (hj : (packed (l v)).1[t]? = some j) : t < z v := by
  have ht := (List.getElem?_eq_some_iff.mp hj).1
  have hle := h.layout.degrees v hv
  have hlength := (h.ends v hv).length_eq
  rw [(packed_spec (l v)).1, hlength, List.length_map] at ht
  omega

theorem Pack.acquire (h : Pack off z l s pool) {v : ℕ} (hv : v < s.nv) (hmem : .pack v ∈ pool) :
    (s.xadjstore.drop (MINVECT_SIZE + off v)).take (l v).length = l v := by
  apply List.ext_getElem?
  intro t
  by_cases ht : t < (l v).length
  · have hget := (h.before v hv hmem).2 t _ (List.getElem?_eq_getElem ht)
    rw [List.getElem?_take_of_lt ht, List.getElem?_drop, add_assoc, hget,
      List.getElem?_eq_getElem ht]
  · rw [List.getElem?_take, if_neg ht, List.getElem?_eq_none (by omega)]

theorem Pack.exec_pack {v : ℕ} (hv : v < s.nv) (h : Pack off z l s (.pack v ::ₘ rest))
    (hx : (Item.pack v).exec s = (s', new)) :
    Pack off z l s' (rest + new) ∧ s'.failed = s.failed := by
  have hout : .pack v ∉ rest := by
    have hcount := h.once v
    rw [count_cons_self] at hcount
    exact count_eq_zero.mp (by omega)
  obtain ⟨hendoff, hrange⟩ := h.before v hv (mem_cons_self _ rest)
  have hlength := (h.ends v hv).length_eq
  have hdegree := h.layout.degrees v hv
  have hbound := h.layout.bound v hv
  rw [List.length_map] at hlength
  -- the same for both branches: the new items are writes for this vertex, and bring what it becomes
  have hkey : ∀ new : List (Item n),
      (∀ y ∈ new, (∃ t j, (packed (l v)).1[t]? = some j ∧ y = .write_adj (off v + t) j) ∨
        y = .write (XENDOFF v) (off v + (packed (l v)).2)) →
      (s.endoff v = off v + (packed (l v)).2 ∨
        .write (XENDOFF v) (off v + (packed (l v)).2) ∈ rest + new) →
      (∀ t j, (packed (l v)).1[t]? = some j → Lands s (rest + new) (off v + t) j) →
      Pack off z l s (rest + new) := by
    intro new hnew hend hlands
    have hpack : ∀ w, .pack w ∈ rest + (new : Multiset (Item n)) ↔ .pack w ∈ rest := by
      intro w
      rw [mem_add, or_iff_left_of_imp]
      intro hmem
      rcases hnew _ (mem_coe.mp hmem) with ⟨t, j, _, hitem⟩ | hitem <;> cases hitem
    have hother : ∀ w, w ≠ v → (.pack w ∈ Item.pack v ::ₘ rest ↔ .pack w ∈ rest) := by
      intro w hw
      simp [hw]
    refine ⟨fun y hy => ?_, fun w => ?_, h.length, h.layout, h.store, h.offset, h.ends,
      fun w hw hmem => ?_, fun w hw hnot => ?_⟩
    · rcases mem_add.mp hy with hy | hy
      · rcases h.items y (mem_cons_of_mem hy) with hitem | ⟨w, hw, hnot, hitem⟩
        · exact .inl hitem
        · refine .inr ⟨w, hw, fun hmem => hnot ?_, hitem⟩
          exact mem_cons_of_mem ((hpack w).mp hmem)
      · exact .inr ⟨v, hv, fun hmem => hout ((hpack v).mp hmem), hnew y (mem_coe.mp hy)⟩
    · have hzero : count (.pack w) (new : Multiset (Item n)) = 0 := by
        refine count_eq_zero.mpr fun hmem => ?_
        rcases hnew _ (mem_coe.mp hmem) with ⟨t, j, _, hitem⟩ | hitem <;> cases hitem
      rw [count_add, hzero, add_zero]
      exact (count_le_of_le _ (le_cons_self rest _)).trans (h.once w)
    · exact h.before w hw (mem_cons_of_mem ((hpack w).mp hmem))
    · by_cases hwv : w = v
      · subst hwv
        exact ⟨hend, hlands⟩
      · have hnot' : .pack w ∉ Item.pack v ::ₘ rest := fun hmem =>
          hnot ((hpack w).mpr ((hother w hwv).mp hmem))
        obtain ⟨hend, hlands⟩ := h.after w hw hnot'
        refine ⟨hend.imp_right fun hmem => ?_, fun t j hj => ?_⟩
        · have hmem' := (mem_cons.mp hmem).resolve_left fun hitem => by cases hitem
          exact mem_add.mpr (.inl hmem')
        · exact (hlands t j hj).keep (fun _ _ => by simp) rfl
  simp only [Item.exec, getElem?_XOFF h.length hv, getElem?_XENDOFF h.length hv, h.offset v hv,
    hendoff] at hx
  by_cases hshort : off v + 1 ≥ off v + (l v).length
  · rw [if_pos hshort] at hx
    cases hx
    have hpacked : packed (l v) = (l v, (l v).length) := if_pos (by omega)
    rw [hpacked] at hkey
    exact ⟨hkey [] (fun y hy => by cases hy) (.inl hendoff) fun t j hj => .inl (hrange t j hj), rfl⟩
  · have hin : MINVECT_SIZE + (off v + (l v).length) ≤ s.xadjstore.length := by
      rw [h.store]
      omega
    have hpacked : pack_vtx_edges (l v) = packed (l v) := (if_neg (by omega)).symm
    rw [if_neg hshort, if_pos hin, Nat.add_sub_cancel_left,
      h.acquire hv (mem_cons_self _ rest), hpacked] at hx
    cases hx
    refine ⟨hkey _ (fun y hy => ?_) (.inr ?_) fun t j hj => .inr ?_, rfl⟩
    · rcases List.mem_append.mp hy with hy | hy
      · obtain ⟨t, ht, rfl⟩ := List.mem_mapIdx.mp hy
        exact .inl ⟨t, _, List.getElem?_eq_getElem ht, rfl⟩
      · exact .inr (List.mem_singleton.mp hy)
    · simp
    · obtain ⟨ht, rfl⟩ := List.getElem?_eq_some_iff.mp hj
      refine mem_add.mpr (.inr (mem_coe.mpr (List.mem_append_left _ ?_)))
      exact List.mem_mapIdx.mpr ⟨t, ht, rfl⟩

theorem Pack.exec_write_adj {v t : ℕ} {j : ℤ} (hv : v < s.nv)
    (hout : .pack v ∉ Item.write_adj (off v + t) j ::ₘ rest) (hj : (packed (l v)).1[t]? = some j)
    (h : Pack off z l s (.write_adj (off v + t) j ::ₘ rest))
    (hx : (Item.write_adj (off v + t) j).exec s = (s', new)) :
    Pack off z l s' (rest + new) ∧ s'.failed = s.failed := by
  have hbound := h.layout.bound v hv
  have htz := h.lt_of_mem hv hj
  have hlt : MINVECT_SIZE + (off v + t) < s.xadjstore.length := by
    rw [h.store]
    omega
  simp only [Item.exec, if_pos hlt] at hx
  cases hx
  rw [coe_nil, add_zero]
  have hpack : ∀ w, .pack w ∈ Item.write_adj (off v + t) j ::ₘ rest ↔ .pack w ∈ rest := by
    intro w
    simp
  refine ⟨⟨fun y hy => ?_, fun w => ?_, h.length, h.layout, by simpa using h.store, h.offset, h.ends,
    fun w hw hmem => ?_, fun w hw hnot => ?_⟩, rfl⟩
  · have hitem := h.items y (mem_cons_of_mem hy)
    simpa only [hpack] using hitem
  · exact (count_le_of_le _ (le_cons_self rest _)).trans (h.once w)
  · obtain ⟨hendoff, hrange⟩ := h.before w hw ((hpack w).mpr hmem)
    refine ⟨hendoff, fun u b hb => ?_⟩
    -- the range of a vertex that is not packed yet is another one
    have hne : off v + t ≠ off w + u := by
      intro heq
      have hlength := (h.ends w hw).length_eq
      have hdegree := h.layout.degrees w hw
      have hu := (List.getElem?_eq_some_iff.mp hb).1
      rw [List.length_map] at hlength
      obtain ⟨rfl, _⟩ := h.layout.eq_of_add_eq hv hw htz (by omega) heq
      exact hout ((hpack v).mpr hmem)
    show (s.xadjstore.set (MINVECT_SIZE + (off v + t)) j)[MINVECT_SIZE + (off w + u)]? = some b
    rw [List.getElem?_set_ne (by omega)]
    exact hrange u b hb
  · obtain ⟨hend, hlands⟩ := h.after w hw fun hmem => hnot ((hpack w).mp hmem)
    refine ⟨hend.imp_right fun hmem => ?_, fun u b hb => ?_⟩
    · exact (mem_cons.mp hmem).resolve_left fun hitem => by cases hitem
    · refine (hlands u b hb).arrive hlt fun heq => ?_
      obtain ⟨rfl, rfl⟩ := h.layout.eq_of_add_eq hw hv (h.lt_of_mem hw hb) htz heq
      rw [hb] at hj
      exact Option.some.inj hj

theorem Pack.exec_write {v : ℕ} (hv : v < s.nv)
    (hout : .pack v ∉ Item.write (XENDOFF v) (off v + (packed (l v)).2) ::ₘ rest)
    (h : Pack off z l s (.write (XENDOFF v) (off v + (packed (l v)).2) ::ₘ rest))
    (hx : (Item.write (XENDOFF v) (off v + (packed (l v)).2)).exec s = (s', new)) :
    Pack off z l s' (rest + new) ∧ s'.failed = s.failed := by
  have hlt := XENDOFF_lt h.length hv
  simp only [Item.exec, if_pos hlt] at hx
  cases hx
  rw [coe_nil, add_zero]
  have hpack : ∀ w, .pack w ∈ Item.write (XENDOFF v) (off v + (packed (l v)).2) ::ₘ rest ↔
      .pack w ∈ rest := by
    intro w
    simp
  have hother : ∀ w, w ≠ v → (s.xoff.set (XENDOFF v) (off v + (packed (l v)).2)).getD (XENDOFF w) 0 =
      s.endoff w := by
    intro w hw
    rw [State.endoff, List.getD_eq_getElem?_getD, List.getD_eq_getElem?_getD,
      List.getElem?_set_ne fun heq => hw (XENDOFF_inj.mp heq).symm]
  refine ⟨⟨fun y hy => ?_, fun w => ?_, by simpa using h.length, h.layout, h.store, fun w hw => ?_,
    h.ends, fun w hw hmem => ?_, fun w hw hnot => ?_⟩, rfl⟩
  · have hitem := h.items y (mem_cons_of_mem hy)
    simpa only [hpack] using hitem
  · exact (count_le_of_le _ (le_cons_self rest _)).trans (h.once w)
  · rw [← h.offset w hw]
    simp only [State.offset, List.getD_eq_getElem?_getD,
      List.getElem?_set_ne (XOFF_ne_XENDOFF w v).symm]
  · obtain ⟨hendoff, hrange⟩ := h.before w hw ((hpack w).mpr hmem)
    have hwv : w ≠ v := by
      rintro rfl
      exact hout ((hpack w).mpr hmem)
    exact ⟨(hother w hwv).trans hendoff, hrange⟩
  · obtain ⟨hend, hlands⟩ := h.after w hw fun hmem => hnot ((hpack w).mp hmem)
    refine ⟨?_, fun u b hb => ?_⟩
    · by_cases hwv : w = v
      · subst hwv
        left
        simp only [State.endoff, List.getD_eq_getElem?_getD, List.getElem?_set_self hlt]
        rfl
      · refine hend.imp (fun hdone => (hother w hwv).trans hdone) fun hmem => ?_
        refine (mem_cons.mp hmem).resolve_left fun hitem => hwv ?_
        exact XENDOFF_inj.mp (Item.write.inj hitem).1
    · have hkept : Lands { s with xoff := s.xoff.set (XENDOFF v) (off v + (packed (l v)).2) }
          (rest + 0) (off w + u) b := (hlands u b hb).keep (fun _ _ => by simp) rfl
      rwa [add_zero] at hkept

theorem Pack.exec (h : Pack off z l s (x ::ₘ rest)) (hx : x.exec s = (s', new)) :
    Pack off z l s' (rest + new) ∧ s'.failed = s.failed := by
  rcases h.items x (mem_cons_self x rest) with ⟨v, hv, rfl⟩ |
    ⟨v, hv, hout, ⟨t, j, hj, rfl⟩ | rfl⟩
  · exact h.exec_pack hv hx
  · exact h.exec_write_adj hv hout hj hx
  · exact h.exec_write hv hout hx

end pack

end OnedCsr

end Grappa
