import AdvCompArch.Grappa.OnedCsrPasses

/-! # Runs of the graph construction

    A sequence of calls makes the graphs of its edges in every run exactly when each call
    `Call.Finds` its largest vertex, after the largest vertex of the call before (`csr_correct_iff`).
    Otherwise `find_nv` misses it in some order of the edges, and the number of vertices is wrong. -/

namespace Grappa

open List

namespace OnedCsr

variable {n : ℕ} {s s' : State n} {pool rest : Multiset (Item n)} {x : Item n} {new : List (Item n)}
  {tg : Call n} {calls : List (Call n)} {off z : ℕ → ℕ} {m : ℕ}

/-! ### The graph -/

/-- An edge joins the two vertices, in one direction or the other, and they are not the same. -/
def Call.Adjacent (tg : Call n) (v w : ℕ) : Prop :=
  v ≠ w ∧ ((v, w) ∈ tg.edges ∨ (w, v) ∈ tg.edges)

theorem mem_ends {v w : ℕ} : w ∈ tg.ends v ↔ tg.Adjacent v w := by
  have hone : ∀ e : ℕ × ℕ, w ∈ ends v e ↔ v ≠ w ∧ (e = (v, w) ∨ e = (w, v)) := by
    rintro ⟨a, b⟩
    unfold ends
    split_ifs <;> simp <;> omega
  unfold Call.ends Call.Adjacent
  rw [mem_flatMap]
  constructor
  · rintro ⟨e, he, hw⟩
    obtain ⟨hne, rfl | rfl⟩ := (hone e).mp hw
    · exact ⟨hne, .inl he⟩
    · exact ⟨hne, .inr he⟩
  · rintro ⟨hne, he | he⟩
    · exact ⟨_, he, (hone _).mpr ⟨hne, .inl rfl⟩⟩
    · exact ⟨_, he, (hone _).mpr ⟨hne, .inr rfl⟩⟩

/-- The range of a vertex in `xadj`. -/
def State.range (s : State n) (v : ℕ) : List ℤ :=
  (s.xadjstore.drop (MINVECT_SIZE + s.offset v)).take (s.endoff v - s.offset v)

/-- The graph of the edges: the ranges of the vertices are in the store and apart from each other,
    and each has the neighbours of its vertex in order, once each. -/
structure IsGraph (s : State n) : Prop where
  nv : s.nv = s.tg.largest + 1
  inside : ∀ v < s.nv, s.offset v ≤ s.endoff v ∧ MINVECT_SIZE + s.endoff v ≤ s.xadjstore.length
  disjoint : ∀ v < s.nv, ∀ w < s.nv, v ≠ w →
    Disjoint (Set.Ico (s.offset v) (s.endoff v)) (Set.Ico (s.offset w) (s.endoff w))
  increasing : ∀ v < s.nv, (s.range v).Pairwise (· < ·)
  mem_range : ∀ v < s.nv, ∀ j, j ∈ s.range v ↔ ∃ w : ℕ, s.tg.Adjacent v w ∧ (w : ℤ) = j

/-- **When all ranges are packed**. -/
theorem Pack.isGraph {l : ℕ → List ℤ} (h : Pack off z l s 0) (hnv : s.nv = s.tg.largest + 1) :
    IsGraph s := by
  have hend : ∀ v < s.nv, s.endoff v = s.offset v + (packed (l v)).2 := by
    intro v hv
    rw [h.offset v hv]
    exact (h.after v hv (Multiset.notMem_zero _)).1.resolve_right (Multiset.notMem_zero _)
  have hfits : ∀ v < s.nv, (packed (l v)).2 ≤ z v := by
    intro v hv
    have hlength := (h.ends v hv).length_eq
    rw [length_map] at hlength
    have hdegree := h.layout.degrees v hv
    have hle := (packed_spec (l v)).2.1
    omega
  have hrange : ∀ v < s.nv, s.range v = (packed (l v)).1.take (packed (l v)).2 := by
    intro v hv
    unfold State.range
    rw [hend v hv, Nat.add_sub_cancel_left, h.offset v hv]
    apply ext_getElem?
    intro t
    by_cases ht : t < (packed (l v)).2
    · have hlt : t < (packed (l v)).1.length := by
        have hspec := packed_spec (l v)
        omega
      have hget := (h.after v hv (Multiset.notMem_zero _)).2 t _ (getElem?_eq_getElem hlt)
      rw [getElem?_take_of_lt ht, getElem?_take_of_lt ht, getElem?_drop, add_assoc,
        getElem?_eq_getElem hlt]
      exact hget.resolve_right (Multiset.notMem_zero _)
    · rw [getElem?_take, if_neg ht, getElem?_take, if_neg ht]
  refine ⟨hnv, fun v hv => ⟨?_, ?_⟩, fun v hv w hw hne => ?_, fun v hv => ?_, fun v hv j => ?_⟩
  · rw [hend v hv]
    exact Nat.le_add_right _ _
  · have hbound := h.layout.bound v hv
    have hle := hfits v hv
    rw [hend v hv, h.offset v hv, h.store]
    omega
  · rw [Set.disjoint_left]
    intro k hkv hkw
    rw [hend v hv, h.offset v hv, Set.mem_Ico] at hkv
    rw [hend w hw, h.offset w hw, Set.mem_Ico] at hkw
    have hv' := hfits v hv
    have hw' := hfits w hw
    refine hne (h.layout.eq_of_add_eq (t := k - off v) (u := k - off w) hv hw ?_ ?_ ?_).1 <;> omega
  · rw [hrange v hv]
    exact (packed_spec (l v)).2.2.increasing
  · rw [hrange v hv, (packed_spec (l v)).2.2.mem_iff, (h.ends v hv).mem_iff, mem_map]
    simp only [mem_ends]

theorem Inv.isGraph (h : Inv s 0) (hpass : s.pass = .pack) : IsGraph s := by
  have hold := h.pass
  unfold InPass at hold
  rw [hpass] at hold
  obtain ⟨off, z, l, hold⟩ := hold
  exact hold.isGraph (h.nv (by simp [hpass]) (by simp [hpass]))

/-! ### Termination -/

/-- An item spawns only items of lower rank. -/
def Item.rank : Item n → ℕ
  | .scan _ | .scatter _ => 2
  | .degree _ | .gather _ | .sum _ | .put_back _ _ | .scatter_edge _ _ | .pack _ => 1
  | _ => 0

def Pass.left : Pass → ℕ
  | .find_nv => 8
  | .degree => 7
  | .minvect => 6
  | .gather => 5
  | .sum => 4
  | .scan => 3
  | .xendoff => 2
  | .scatter => 1
  | .start | .pack => 0

/-- How many passes are left. -/
def State.left (s : State n) : ℕ := 9 * s.later.length + s.pass.left

theorem rank_lt (hx : x.exec s = (s', new)) : ∀ y ∈ new, y.rank < x.rank := by
  cases x with
  | sum c =>
    obtain ⟨_, rfl⟩ := Prod.mk.inj hx
    intro y hy
    obtain ⟨d, _, rfl⟩ := mem_map.mp hy
    exact Nat.zero_lt_one
  | scan c =>
    obtain ⟨_, rfl⟩ := Prod.mk.inj hx
    intro y hy
    obtain ⟨i, _, rfl⟩ := mem_map.mp hy
    exact Nat.one_lt_two
  | pack v =>
    simp only [Item.exec, State.fail] at hx
    repeat' split at hx
    all_goals
      obtain ⟨_, rfl⟩ := Prod.mk.inj hx
      intro y hy
      simp only [mem_append, mem_mapIdx, mem_singleton, not_mem_nil] at hy
    rcases hy with ⟨k, _, rfl⟩ | rfl <;> exact Nat.zero_lt_one
  | find_nv i | degree i | increment a | minvect i | gather index | store b offset val
  | fetch_and_add c local_sum | put_back c i | write a val | xendoff v | scatter i
  | scatter_edge i j | write_adj k j =>
    simp only [Item.exec, State.fail] at hx
    repeat' split at hx
    all_goals
      obtain ⟨_, rfl⟩ := Prod.mk.inj hx
      simp [Item.rank]

theorem left_lt (hx : s.advance = some (s', new)) : s'.left < s.left := by
  have henter : s.enter = some (s', new) → s'.left < s.left := by
    intro hx
    unfold State.enter at hx
    split at hx
    · cases hx
    · rename_i heq
      cases hx
      simp only [State.left, heq, length_cons, Pass.left]
      omega
  unfold State.advance at hx
  split at hx <;> rename_i heq
  case h_1 => exact henter hx
  case h_10 => exact henter hx
  all_goals
    cases hx
    simp [State.left, heq, Pass.left]

theorem exec_eq (hx : create_graph_from_edgelist.exec s x = some (s', new)) :
    s.failed = false ∧ x.exec s = (s', new) := by
  simp only [create_graph_from_edgelist] at hx
  split at hx
  · cases hx
  · rename_i hfailed
    exact ⟨by simpa using hfailed, Option.some.inj hx⟩

theorem advance_eq (hx : create_graph_from_edgelist.advance s = some (s', new)) :
    s.failed = false ∧ s.advance = some (s', new) := by
  simp only [create_graph_from_edgelist] at hx
  split at hx
  · cases hx
  · rename_i hfailed
    exact ⟨by simpa using hfailed, hx⟩

theorem terminates_from (calls : List (Call n)) (t : Phased.State (State n) (Item n)) :
    (create_graph_from_edgelist.system (init calls)).Terminates t := by
  refine Phased.Program.terminates_of_rank (fun _ _ => True) Item.rank (fun s _ => s.left) trivial
    (fun s x _ s' new _ hx => ⟨trivial, .inr ⟨?_, rank_lt (exec_eq hx).2⟩⟩)
    fun s s' new _ hx => ⟨trivial, left_lt (advance_eq hx).2⟩
  obtain ⟨_, hlater, hpass, _⟩ := exec_frame (exec_eq hx).2
  unfold State.left
  rw [hlater, hpass]

/-! ### What the calls are to do -/

/-- Every run ends, no check fails, at the end of each call there is the graph of its edges, and all
    calls are made. -/
structure Correct (calls : List (Call n)) : Prop where
  terminates : (create_graph_from_edgelist.system (init calls)).Terminates ⟨init calls, []⟩
  checks : ∀ t, (create_graph_from_edgelist.system (init calls)).Reachable t → t.shared.failed = false
  graph : ∀ t, (create_graph_from_edgelist.system (init calls)).Reachable t →
    t.shared.pass = .pack → t.pool = [] → IsGraph t.shared
  ended : ∀ t, (create_graph_from_edgelist.system (init calls)).Reachable t →
    (∀ l, create_graph_from_edgelist.next t l = none) →
    create_graph_from_edgelist.Ended t ∧ t.shared.later = []

/-- Each call finds its largest vertex, when the maximum was `m` before the first. -/
def Finds : ℕ → List (Call n) → Prop
  | _, [] => True
  | m, tg :: later => tg.Finds m ∧ Finds tg.largest later

/-- The main task returns only when there is no other call. -/
theorem later_of_advance (hfailed : s.failed = false)
    (hx : create_graph_from_edgelist.advance s = none) :
    (s.pass = .start ∨ s.pass = .pack) ∧ s.later = [] := by
  have henter : s.enter = none → s.later = [] := by
    unfold State.enter
    split
    · exact fun _ => ‹_›
    · exact fun h => by cases h
  simp only [create_graph_from_edgelist, hfailed, Bool.false_eq_true, if_false, State.advance] at hx
  split at hx <;> rename_i heq
  case h_1 => exact ⟨.inl heq, henter hx⟩
  case h_10 => exact ⟨.inr heq, henter hx⟩
  all_goals cases hx

/-! ### Where all are found -/

theorem Inv.step (h : Inv s 0 ∧ Finds s.tg.largest s.later) (hx : s.advance = some (s', new)) :
    Inv s' new ∧ Finds s'.tg.largest s'.later := by
  obtain ⟨hinv, hfinds⟩ := h
  by_cases hpass : s.pass = .start ∨ s.pass = .pack
  · cases hlater : s.later with
    | nil =>
      have hnone : s.advance = none := by
        rcases hpass with heq | heq <;> simp only [State.advance, State.enter, heq, hlater]
      rw [hnone] at hx
      cases hx
    | cons tg later =>
      rw [hlater] at hfinds
      obtain ⟨hinv', htg, hlater'⟩ := hinv.enter hpass hlater hfinds.1 hx
      rw [htg, hlater']
      exact ⟨hinv', hfinds.2⟩
  · obtain ⟨hstart, hpack⟩ := not_or.mp hpass
    obtain ⟨hinv', htg, hlater⟩ := hinv.advance hstart hpack hx
    rw [htg, hlater]
    exact ⟨hinv', hfinds⟩

theorem Finds.correct (hcalls : ∀ tg ∈ calls, tg.Valid) (h : Finds 0 calls) : Correct calls := by
  have hinv : ∀ t, (create_graph_from_edgelist.system (init calls)).Reachable t →
      Inv t.shared t.pool ∧ Finds t.shared.tg.largest t.shared.later := by
    intro t ht
    refine Phased.Program.Reachable.inv
      (fun s pool => Inv s pool ∧ Finds s.tg.largest s.later) ⟨inv_init hcalls, h⟩ ?_ ?_ ht
    · rintro s x rest s' new ⟨hinv, hfinds⟩ hx
      obtain ⟨htg, hlater, _⟩ := exec_frame (exec_eq hx).2
      rw [htg, hlater]
      exact ⟨hinv.exec (exec_eq hx).2, hfinds⟩
    · exact fun s s' new hs hx => Inv.step hs (advance_eq hx).2
  refine ⟨terminates_from calls _, fun t ht => (hinv t ht).1.failed, fun t ht hpass hpool => ?_,
    fun t ht hstuck => ?_⟩
  · have hdone := (hinv t ht).1
    rw [hpool] at hdone
    exact hdone.isGraph hpass
  · have hfailed := (hinv t ht).1.failed
    have hended : create_graph_from_edgelist.Ended t := by
      refine Phased.Program.ended_of_stuck (fun x _ => ?_) hstuck
      simp [create_graph_from_edgelist, hfailed]
    exact ⟨hended, (later_of_advance hfailed hended.2).2⟩

/-! ### Where one is missed -/

theorem advance_pass (hx : s.advance = some (s', new)) : s'.pass ≠ .start := by
  intro hstart
  unfold State.advance State.enter at hx
  repeat' split at hx
  all_goals cases hx <;> cases hstart

theorem next_eq {t : Phased.State (State n) (Item n)} (hfailed : t.shared.failed = false)
    (hpool : t.pool = []) (hx : t.shared.advance = some (s', new)) :
    (create_graph_from_edgelist.system (init calls)).next t .advance = some ⟨s', new⟩ := by
  show create_graph_from_edgelist.next t .advance = some ⟨s', new⟩
  simp [Phased.Program.next, create_graph_from_edgelist, hpool, hfailed, hx]

theorem Correct.run_call (h : Correct calls) {K : State n → Multiset (Item n) → Prop}
    (hexec : ∀ s x rest s' new, K s (x ::ₘ rest) → x.exec s = (s', new) → K s' (rest + new))
    (hadvance : ∀ s s' new, K s 0 → s.pass ≠ .start → s.pass ≠ .pack →
      s.advance = some (s', new) → K s' new)
    {t : Phased.State (State n) (Item n)}
    (ht : (create_graph_from_edgelist.system (init calls)).Reachable t)
    (hK : K t.shared t.pool) (hstart : t.shared.pass ≠ .start) :
    ∃ t', (create_graph_from_edgelist.system (init calls)).Reachable t' ∧ K t'.shared 0 ∧
      t'.shared.pass = .pack ∧ t'.pool = [] := by
  let Under (u : Phased.State (State n) (Item n)) : Prop :=
    (create_graph_from_edgelist.system (init calls)).Reachable u ∧ K u.shared u.pool ∧
      u.shared.pass ≠ .start
  have hstep : ∀ u l u', Under u → ¬(u.shared.pass = .pack ∧ u.pool = []) →
      create_graph_from_edgelist.next u l = some u' → Under u' := by
    rintro u l u' ⟨hu, hK, hstart⟩ hrunning hl
    refine ⟨hu.next hl, ?_⟩
    cases l with
    | item k =>
      obtain ⟨x, _, rest, new, hpool, hx, hpool'⟩ := Phased.Program.next_item hl
      rw [hpool] at hK
      rw [hpool', (exec_frame (exec_eq hx).2).2.2.1]
      exact ⟨hexec _ x rest _ new hK (exec_eq hx).2, hstart⟩
    | advance =>
      obtain ⟨hpool, new, hx, hpool'⟩ := Phased.Program.next_advance hl
      rw [hpool] at hK
      rw [hpool']
      exact ⟨hadvance _ _ new hK hstart (fun hpack => hrunning ⟨hpack, hpool⟩) (advance_eq hx).2,
        advance_pass (advance_eq hx).2⟩
  have hgo : ∀ u, Under u → ¬(u.shared.pass = .pack ∧ u.pool = []) →
      ∃ l, create_graph_from_edgelist.next u l ≠ none := by
    rintro u ⟨hu, _, hstart⟩ hrunning
    by_contra hstuck
    push Not at hstuck
    obtain ⟨hpool, hret⟩ := (h.ended u hu hstuck).1
    obtain ⟨hpass, _⟩ := later_of_advance (h.checks u hu) hret
    exact hrunning ⟨hpass.resolve_left hstart, hpool⟩
  obtain ⟨ls, t', _, ⟨ht', hK', _⟩, hpass, hpool⟩ :=
    (terminates_from calls t).run_until hstep hgo ⟨ht, hK, hstart⟩
  rw [hpool] at hK'
  exact ⟨t', ht', hK', hpass, hpool⟩

theorem Correct.allreduce_max (h : Correct calls) {t : Phased.State (State n) (Item n)}
    (ht : (create_graph_from_edgelist.system (init calls)).Reachable t)
    (hpass : t.shared.pass = .find_nv) (hpool : t.pool = []) :
    t.shared.allreduce_max = t.shared.tg.largest := by
  cases hadv : t.shared.advance with
  | none =>
    simp only [State.advance, hpass] at hadv
    cases hadv
  | some r =>
    obtain ⟨s', new⟩ := r
    -- the number of vertices stays as it is
    let K (s : State n) (_ : Multiset (Item n)) : Prop :=
      s.tg = t.shared.tg ∧ s.nv = t.shared.allreduce_max + 1 ∧ s.pass ≠ .find_nv
    have hK : K s' new := by
      simp only [State.advance, hpass, Option.some.injEq] at hadv
      cases hadv
      exact ⟨rfl, rfl, by simp⟩
    have hexec : ∀ s x rest s' new, K s (x ::ₘ rest) → x.exec s = (s', new) → K s' (rest + new) := by
      rintro s x rest s' new ⟨htg, hnv, hfind⟩ hx
      obtain ⟨htg', _, hpass', hnv'⟩ := exec_frame hx
      exact ⟨htg'.trans htg, hnv'.trans hnv, hpass' ▸ hfind⟩
    have hadvance : ∀ s s' new, K s 0 → s.pass ≠ .start → s.pass ≠ .pack →
        s.advance = some (s', new) → K s' new := by
      rintro s s' new ⟨htg, hnv, hfind⟩ hstart hpack hx
      unfold State.advance at hx
      split at hx <;> rename_i heq
      case h_1 => exact absurd heq hstart
      case h_2 => exact absurd heq hfind
      case h_10 => exact absurd heq hpack
      all_goals
        cases hx
        exact ⟨htg, hnv, by simp⟩
    obtain ⟨t', ht', ⟨htg, hnv, _⟩, hpass', hpool'⟩ :=
      h.run_call hexec hadvance (ht.next (next_eq (h.checks t ht) hpool hadv)) hK (advance_pass hadv)
    have hgraph := (h.graph t' ht' hpass' hpool').nv
    rw [htg, hnv] at hgraph
    exact Nat.succ.inj hgraph

theorem le_foldl_maxvtx (l : List (Item n)) (s : State n) (c : Fin (n + 1)) :
    s.maxvtx c ≤ (l.foldl (fun t x => (x.exec t).1) s).maxvtx c := by
  induction l generalizing s with
  | nil => exact le_rfl
  | cons x l ih =>
    refine le_trans ?_ (ih _)
    by_cases hx : ∃ i, x = .find_nv i
    · obtain ⟨i, rfl⟩ := hx
      cases he : s.tg.edges[i]? with
      | none => simp [Item.exec, State.fail, he]
      | some e =>
        show s.maxvtx c ≤ ((Item.find_nv i).exec s).1.maxvtx c
        rw [exec_find_nv he]
        by_cases hc : c = s.tg.edge_core i
        · subst hc
          rw [State.visit_self]
          exact le_find_max _ e
        · rw [State.visit_ne s e hc]
    · have hsame : (x.exec s).1.maxvtx = s.maxvtx :=
        exec_maxvtx (Prod.mk.eta).symm fun i hi => hx ⟨i, hi⟩
      rw [hsame]

/-- **A call finds its largest vertex** if the calls are right. -/
theorem Correct.finds (h : Correct calls) {t : Phased.State (State n) (Item n)}
    (ht : (create_graph_from_edgelist.system (init calls)).Reachable t)
    (hpass : t.shared.pass = .find_nv)
    (hpool : t.pool = (range t.shared.tg.edges.length).map .find_nv)
    (hm : ∀ c, t.shared.maxvtx c = m) : t.shared.tg.Finds m := by
  -- the edges in any order
  have horder : ∀ l : List ℕ, l.Perm (range t.shared.tg.edges.length) →
      ((l.map Item.find_nv).foldl (fun t x => (x.exec t).1) t.shared).allreduce_max =
        t.shared.tg.largest := by
    intro l hl
    have hrun : ∃ ls, (create_graph_from_edgelist.system (init calls)).run t ls =
        some ⟨(l.map Item.find_nv).foldl (fun t x => (x.exec t).1) t.shared, []⟩ := by
      refine Phased.Program.run_items
        (fun u => u.failed = false ∧ u.pass = .find_nv ∧ u.tg = t.shared.tg) _ (fun u hu x hx => ?_)
        ⟨h.checks t ht, hpass, rfl⟩ ?_
      · obtain ⟨hfailed, hpass', htg⟩ := hu
        obtain ⟨i, hi, rfl⟩ := mem_map.mp hx
        have hlt : i < u.tg.edges.length := by
          rw [htg]
          exact mem_range.mp (hl.mem_iff.mp hi)
        have hexec := exec_find_nv (getElem?_eq_getElem hlt)
        simp only [create_graph_from_edgelist, hfailed, Bool.false_eq_true, if_false, hexec]
        exact ⟨trivial, hfailed, hpass', htg⟩
      · rw [hpool]
        exact (hl.map _).symm
    obtain ⟨ls, hls⟩ := hrun
    have hsame : ∀ (l : List ℕ) (s : State n),
        ((l.map Item.find_nv).foldl (fun t x => (x.exec t).1) s).tg = s.tg ∧
          ((l.map Item.find_nv).foldl (fun t x => (x.exec t).1) s).pass = s.pass := by
      intro l
      induction l with
      | nil => exact fun s => ⟨rfl, rfl⟩
      | cons i l ih =>
        intro s
        obtain ⟨htg, _, hpass, _⟩ := exec_frame (x := .find_nv i) (s := s) (Prod.mk.eta).symm
        obtain ⟨htg', hpass'⟩ := ih ((Item.find_nv i).exec s).1
        exact ⟨htg'.trans htg, hpass'.trans hpass⟩
    obtain ⟨htg, hpass'⟩ := hsame l t.shared
    rw [← htg]
    exact h.allreduce_max (ht.run hls) (hpass'.trans hpass) rfl
  have hle : m ≤ t.shared.tg.largest := by
    rw [← horder _ (List.Perm.refl _), ← hm 0]
    exact (le_foldl_maxvtx _ _ 0).trans (Finset.le_sup (f := State.maxvtx _) (Finset.mem_univ 0))
  refine Call.Finds.of_not_missing hm hle fun hmissing => ?_
  have hlt : (((t.shared.tg.worst).map Item.find_nv).foldl (fun t x => (x.exec t).1)
      t.shared).allreduce_max < t.shared.tg.largest := by
    refine (Finset.sup_lt_iff ?_).mpr fun c _ => hmissing.foldl_lt c
    exact Nat.zero_lt_of_lt (hmissing.lt 0)
  exact absurd (horder _ (worst_perm _)) hlt.ne

theorem Correct.finds_later (h : Correct calls) (later : List (Call n))
    {t : Phased.State (State n) (Item n)}
    (ht : (create_graph_from_edgelist.system (init calls)).Reachable t) (hinv : Inv t.shared 0)
    (hpool : t.pool = []) (hpass : t.shared.pass = .start ∨ t.shared.pass = .pack)
    (hlater : t.shared.later = later) : Finds t.shared.tg.largest later := by
  induction later generalizing t with
  | nil => trivial
  | cons tg later ih =>
    have hvalid := hinv.later tg (hlater ▸ mem_cons_self)
    have hfound := hinv.found (by rcases hpass with heq | heq <;> simp [heq])
    have hadv := advance_enter hpass hlater hvalid
    have hnext := ht.next (next_eq hinv.failed hpool hadv)
    have hfinds : tg.Finds t.shared.tg.largest := h.finds hnext rfl rfl hfound
    obtain ⟨hinv', htg, hlater'⟩ := hinv.enter hpass hlater hfinds hadv
    -- the call is run to its end
    let K (s : State n) (pool : Multiset (Item n)) : Prop := Inv s pool ∧ s.tg = tg ∧ s.later = later
    have hexec : ∀ s x rest s' new, K s (x ::ₘ rest) → x.exec s = (s', new) → K s' (rest + new) := by
      rintro s x rest s' new ⟨hs, htg, hlater⟩ hx
      obtain ⟨htg', hlater', _⟩ := exec_frame hx
      exact ⟨hs.exec hx, htg'.trans htg, hlater'.trans hlater⟩
    have hadvance : ∀ s s' new, K s 0 → s.pass ≠ .start → s.pass ≠ .pack →
        s.advance = some (s', new) → K s' new := by
      rintro s s' new ⟨hs, htg, hlater⟩ hstart hpack hx
      obtain ⟨hs', htg', hlater'⟩ := hs.advance hstart hpack hx
      exact ⟨hs', htg'.trans htg, hlater'.trans hlater⟩
    obtain ⟨t', ht', ⟨hinv'', htg'', hlater''⟩, hpass', hpool'⟩ :=
      h.run_call hexec hadvance hnext ⟨hinv', htg, hlater'⟩ (advance_pass hadv)
    have hrest := ih ht' hinv'' hpool' (.inr hpass') hlater''
    rw [htg''] at hrest
    exact ⟨hfinds, hrest⟩

theorem Correct.all_find (hcalls : ∀ tg ∈ calls, tg.Valid) (h : Correct calls) : Finds 0 calls :=
  h.finds_later calls ⟨[], rfl⟩ (inv_init hcalls) rfl (.inl rfl) rfl

/-- **Graph construction**: with fewer than `2 ^ 47` edges and vertices in each call, the calls make
    the graphs of their edges in every run if and only if each finds its largest vertex. -/
theorem csr_correct_iff (calls : List (Call n)) (hcalls : ∀ tg ∈ calls, tg.Valid) :
    Correct calls ↔ Finds 0 calls :=
  ⟨fun h => h.all_find hcalls, fun h => h.correct hcalls⟩

/-! ### Two calls -/

/-- First a self loop and an edge in both directions, then an edge twice on a core. -/
def two_calls : List (Call 1) :=
  [⟨[(3, 1), (1, 3), (2, 2), (0, 3)], fun i => if i = 0 then ⟨0, Nat.two_pos⟩ else ⟨1, Nat.one_lt_two⟩,
      fun _ => 9⟩,
    ⟨[(5, 7), (0, 3), (5, 7)], fun _ => ⟨1, Nat.one_lt_two⟩, fun _ => 7⟩]

theorem correct_two_calls : Correct two_calls := by
  refine (csr_correct_iff two_calls fun tg htg => ?_).mpr ?_
  · simp only [two_calls, mem_cons, not_mem_nil, or_false] at htg
    rcases htg with rfl | rfl <;> exact ⟨by decide, by decide, by decide⟩
  · refine ⟨⟨by decide, .inr (.inl ⟨(3, 1), by decide, by decide⟩)⟩,
      ⟨by decide, .inr (.inr (.inr ⟨0, 2, 5, by decide, rfl, rfl, rfl⟩))⟩, trivial⟩

/-! ### One edge -/

/-- The second end of the only edge is the largest vertex. -/
def one_edge : Call 0 := ⟨[(1, 5)], fun _ => 0, fun _ => 0⟩

/-- There are two vertices, not six. -/
theorem one_edge_not_correct : one_edge.edges ≠ [] ∧ ¬Correct [one_edge] := by
  refine ⟨by decide, fun h => ?_⟩
  have hvalid : ∀ tg ∈ [one_edge], tg.Valid := by
    intro tg htg
    obtain rfl := mem_singleton.mp htg
    exact ⟨by decide, by decide, by decide⟩
  obtain ⟨⟨_, hfinds⟩, _⟩ := h.all_find hvalid
  have hlargest : one_edge.largest = 5 := by decide
  rw [hlargest] at hfinds
  rcases hfinds with heq | ⟨e, he, heq⟩ | ⟨e, he, heq, hle⟩ | ⟨i, j, a, hij, hi, hj, _⟩
  · cases heq
  · obtain rfl := mem_singleton.mp he
    cases heq
  · obtain rfl := mem_singleton.mp he
    exact absurd hle (by decide)
  · have hone : ∀ k, one_edge.edges[k]? = some (a, 5) → k = 0 := by
      intro k hk
      exact Nat.lt_one_iff.mp (List.getElem?_eq_some_iff.mp hk).1
    exact hij ((hone i hi).trans (hone j hj).symm)

end OnedCsr

end Grappa
