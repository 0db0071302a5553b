import AdvCompArch.Grappa.OnedCsr
import AdvCompArch.Lib.Subtasks

/-! # The largest vertex of an edge list

    `find_nv` does not look at the second end of an edge whose first end is a new maximum, and
    `maxvtx` keeps the maximum of the call before.  `Call.Finds` says when the largest vertex is
    found all the same: `FindNv.allreduce_max` in every order, and otherwise there is an order that
    misses it (`Missing.foldl_lt`). -/

namespace Grappa

namespace OnedCsr

open Multiset List

variable {n : ℕ} {s s' : State n} {rest : Multiset (Item n)} {x : Item n} {new : List (Item n)}
  {tg : Call n} {m : ℕ}

/-! ### The largest vertex -/

/-- The largest vertex of the edges. -/
def Call.largest (tg : Call n) : ℕ := tg.edges.foldr (fun e m => max (max e.1 e.2) m) 0

theorem le_foldr_max {l : List (ℕ × ℕ)} {e : ℕ × ℕ} (he : e ∈ l) :
    e.1 ≤ l.foldr (fun e m => max (max e.1 e.2) m) 0 ∧
      e.2 ≤ l.foldr (fun e m => max (max e.1 e.2) m) 0 := by
  induction l with
  | nil => cases he
  | cons a l ih =>
    rw [List.foldr_cons]
    rcases mem_cons.mp he with rfl | he
    · omega
    · have := ih he
      omega

theorem exists_foldr_max {l : List (ℕ × ℕ)} (hl : l ≠ []) :
    ∃ e ∈ l, e.1 = l.foldr (fun e m => max (max e.1 e.2) m) 0 ∨
      e.2 = l.foldr (fun e m => max (max e.1 e.2) m) 0 := by
  induction l with
  | nil => exact absurd rfl hl
  | cons a l ih =>
    rw [List.foldr_cons]
    by_cases hle : l.foldr (fun e m => max (max e.1 e.2) m) 0 ≤ max a.1 a.2
    · exact ⟨a, mem_cons_self, by omega⟩
    · have hne : l ≠ [] := by
        rintro rfl
        exact hle (Nat.zero_le _)
      obtain ⟨e, he, heq⟩ := ih hne
      refine ⟨e, mem_cons_of_mem a he, ?_⟩
      omega

namespace Call

theorem le_largest {e : ℕ × ℕ} (he : e ∈ tg.edges) : e.1 ≤ tg.largest ∧ e.2 ≤ tg.largest :=
  le_foldr_max he

theorem exists_largest (h : tg.edges ≠ []) : ∃ e ∈ tg.edges, e.1 = tg.largest ∨ e.2 = tg.largest :=
  exists_foldr_max h

/-- The largest vertex is found in every order, when the maximum was `m` before: no larger vertex was
    there before, and it is found already, or it is the first end of an edge, or the second end of
    one whose first end is not a new maximum, or of two edges of a core with the same first end. -/
def Finds (tg : Call n) (m : ℕ) : Prop :=
  m ≤ tg.largest ∧
    (m = tg.largest ∨ (∃ e ∈ tg.edges, e.1 = tg.largest) ∨
      (∃ e ∈ tg.edges, e.2 = tg.largest ∧ e.1 ≤ m) ∨
      ∃ i j a, i ≠ j ∧ tg.edges[i]? = some (a, tg.largest) ∧ tg.edges[j]? = some (a, tg.largest) ∧
        tg.edge_core i = tg.edge_core j)

end Call

/-! ### One edge -/

theorem le_find_max (m : ℕ) (e : ℕ × ℕ) : m ≤ find_max m e := by
  unfold find_max
  split_ifs <;> omega

theorem fst_le_find_max (m : ℕ) (e : ℕ × ℕ) : e.1 ≤ find_max m e := by
  unfold find_max
  split_ifs <;> omega

theorem find_max_le {e : ℕ × ℕ} (he : e ∈ tg.edges) (h : m ≤ tg.largest) :
    find_max m e ≤ tg.largest := by
  have hle := tg.le_largest he
  unfold find_max
  split_ifs <;> omega

theorem find_max_eq {e : ℕ × ℕ} (he : e ∈ tg.edges) (h : m ≤ tg.largest)
    (hfinds : e.1 = tg.largest ∨ e.2 = tg.largest ∧ e.1 ≤ m) : find_max m e = tg.largest := by
  have hle := tg.le_largest he
  unfold find_max
  split_ifs <;> omega

/-! ### In every order -/

/-- A core has the largest vertex, or edges that will find it. -/
def Sure (s : State n) (pool : Multiset (Item n)) (c : Fin (n + 1)) : Prop :=
  s.maxvtx c = s.tg.largest ∨
    (∃ i e, .find_nv i ∈ pool ∧ s.tg.edges[i]? = some e ∧ s.tg.edge_core i = c ∧
      (e.1 = s.tg.largest ∨ e.2 = s.tg.largest ∧ e.1 ≤ s.maxvtx c)) ∨
    ∃ i j a, i ≠ j ∧ .find_nv i ∈ pool ∧ .find_nv j ∈ pool ∧
      s.tg.edges[i]? = some (a, s.tg.largest) ∧ s.tg.edges[j]? = some (a, s.tg.largest) ∧
      s.tg.edge_core i = c ∧ s.tg.edge_core j = c

/-- The edges are gone through. -/
structure FindNv (s : State n) (pool : Multiset (Item n)) : Prop where
  items : ∀ x ∈ pool, ∃ i < s.tg.edges.length, x = .find_nv i
  le : ∀ c, s.maxvtx c ≤ s.tg.largest
  sure : ∃ c, Sure s pool c

/-- After an edge of a core. -/
def State.visit (s : State n) (c : Fin (n + 1)) (e : ℕ × ℕ) : State n :=
  { s with maxvtx := Function.update s.maxvtx c (find_max (s.maxvtx c) e) }

@[simp] theorem State.visit_tg (s : State n) (c : Fin (n + 1)) (e : ℕ × ℕ) : (s.visit c e).tg = s.tg := rfl

@[simp] theorem State.visit_self (s : State n) (c : Fin (n + 1)) (e : ℕ × ℕ) :
    (s.visit c e).maxvtx c = find_max (s.maxvtx c) e := Function.update_self ..

@[simp] theorem State.visit_ne (s : State n) {c d : Fin (n + 1)} (e : ℕ × ℕ) (h : d ≠ c) :
    (s.visit c e).maxvtx d = s.maxvtx d := Function.update_of_ne h ..

theorem exec_find_nv {i : ℕ} {e : ℕ × ℕ} (he : s.tg.edges[i]? = some e) :
    (Item.find_nv i).exec s = (s.visit (s.tg.edge_core i) e, []) := by
  simp only [Item.exec, he]
  rfl

theorem Sure.exec {i : ℕ} {e : ℕ × ℕ} {c : Fin (n + 1)} (hle : s.maxvtx c ≤ s.tg.largest)
    (he : s.tg.edges[i]? = some e) (h : Sure s (.find_nv i ::ₘ rest) c) :
    Sure (s.visit (s.tg.edge_core i) e) rest c := by
  have hmem : e ∈ s.tg.edges := mem_of_getElem? he
  unfold Sure
  rw [State.visit_tg]
  by_cases hc : s.tg.edge_core i = c
  · subst hc
    rw [State.visit_self]
    have hmono := le_find_max (s.maxvtx (s.tg.edge_core i)) e
    have hbound := find_max_le hmem hle
    rcases h with heq | ⟨j, d, hj, hd, hcore, hfinds⟩ | ⟨j, k, a, hjk, hj, hk, hd, hd', hcore, hcore'⟩
    · exact .inl (by omega)
    · rcases mem_cons.mp hj with hitem | hj'
      · -- the edge that finds it
        obtain rfl := Item.find_nv.inj hitem
        rw [he] at hd
        cases hd
        exact .inl (find_max_eq hmem hle hfinds)
      · exact .inr (.inl ⟨j, d, hj', hd, hcore, hfinds.imp_right fun h => ⟨h.1, h.2.trans hmono⟩⟩)
    · rcases mem_cons.mp hj with hitem | hj'
      · -- one of the two edges: now the other one finds it
        obtain rfl := Item.find_nv.inj hitem
        have hk := (mem_cons.mp hk).resolve_left fun h => hjk (Item.find_nv.inj h).symm
        rw [he] at hd
        cases hd
        exact .inr (.inl ⟨k, _, hk, hd', hcore', .inr ⟨rfl, fst_le_find_max _ (a, _)⟩⟩)
      · rcases mem_cons.mp hk with hitem | hk'
        · obtain rfl := Item.find_nv.inj hitem
          rw [he] at hd'
          cases hd'
          exact .inr (.inl ⟨j, _, hj', hd, hcore, .inr ⟨rfl, fst_le_find_max _ (a, _)⟩⟩)
        · exact .inr (.inr ⟨j, k, a, hjk, hj', hk', hd, hd', hcore, hcore'⟩)
  · -- another core
    rw [State.visit_ne s e (Ne.symm hc)]
    have hrest : ∀ j, s.tg.edge_core j = c → .find_nv j ∈ Item.find_nv i ::ₘ rest → .find_nv j ∈ rest := by
      intro j hj hmem
      refine (mem_cons.mp hmem).resolve_left fun hitem => hc ?_
      rw [← hj, Item.find_nv.inj hitem]
    rcases h with heq | ⟨j, d, hj, hd, hcore, hfinds⟩ | ⟨j, k, a, hjk, hj, hk, hd, hd', hcore, hcore'⟩
    · exact .inl heq
    · exact .inr (.inl ⟨j, d, hrest j hcore hj, hd, hcore, hfinds⟩)
    · exact .inr (.inr ⟨j, k, a, hjk, hrest j hcore hj, hrest k hcore' hk, hd, hd', hcore, hcore'⟩)

theorem FindNv.exec (h : FindNv s (x ::ₘ rest)) (hx : x.exec s = (s', new)) :
    FindNv s' (rest + new) ∧ s'.failed = s.failed := by
  obtain ⟨i, hi, rfl⟩ := h.items x (mem_cons_self x rest)
  have he := getElem?_eq_getElem hi
  rw [exec_find_nv he] at hx
  cases hx
  rw [coe_nil, add_zero]
  refine ⟨⟨fun y hy => h.items y (mem_cons_of_mem hy), fun c => ?_, ?_⟩, rfl⟩
  · by_cases hc : c = s.tg.edge_core i
    · subst hc
      rw [State.visit_self]
      exact find_max_le (getElem_mem hi) (h.le _)
    · rw [State.visit_ne s _ hc]
      exact h.le c
  · obtain ⟨c, hsure⟩ := h.sure
    exact ⟨c, hsure.exec (h.le c) he⟩

theorem Call.Finds.start (h : s.tg.Finds m) (hm : ∀ c, s.maxvtx c = m) :
    FindNv s ((List.range s.tg.edges.length).map .find_nv : List (Item n)) := by
  have hpool : ∀ {i e}, s.tg.edges[i]? = some e →
      .find_nv i ∈ (((List.range s.tg.edges.length).map .find_nv : List (Item n)) : Multiset (Item n)) := by
    intro i e he
    obtain ⟨hi, _⟩ := List.getElem?_eq_some_iff.mp he
    exact List.mem_map_of_mem (List.mem_range.mpr hi)
  obtain ⟨hle, hfinds⟩ := h
  refine ⟨fun y hy => ?_, fun c => (hm c).trans_le hle, ?_⟩
  · obtain ⟨i, hi, rfl⟩ := List.mem_map.mp hy
    exact ⟨i, List.mem_range.mp hi, rfl⟩
  · rcases hfinds with heq | ⟨e, he, heq⟩ | ⟨e, he, heq, hlow⟩ | ⟨i, j, a, hij, hi, hj, hcore⟩
    · exact ⟨0, .inl ((hm 0).trans heq)⟩
    · obtain ⟨i, hi⟩ := mem_iff_getElem?.mp he
      exact ⟨s.tg.edge_core i, .inr (.inl ⟨i, e, hpool hi, hi, rfl, .inl heq⟩)⟩
    · obtain ⟨i, hi⟩ := mem_iff_getElem?.mp he
      refine ⟨s.tg.edge_core i, .inr (.inl ⟨i, e, hpool hi, hi, rfl, .inr ⟨heq, ?_⟩⟩)⟩
      rw [hm]
      exact hlow
    · exact ⟨s.tg.edge_core i, .inr (.inr ⟨i, j, a, hij, hpool hi, hpool hj, hi, hj, rfl, hcore.symm⟩)⟩

theorem FindNv.allreduce_max (h : FindNv s 0) : s.allreduce_max = s.tg.largest := by
  obtain ⟨c, hsure⟩ := h.sure
  have heq : s.maxvtx c = s.tg.largest := by
    rcases hsure with heq | ⟨i, e, hmem, _⟩ | ⟨i, j, a, _, hmem, _⟩
    · exact heq
    · exact absurd hmem (notMem_zero _)
    · exact absurd hmem (notMem_zero _)
  apply le_antisymm
  · exact Finset.sup_le fun c _ => h.le c
  · rw [← heq]
    exact Finset.le_sup (f := s.maxvtx) (Finset.mem_univ c)

/-! ### In some order -/

/-- First the edges whose second end is the largest vertex, by their first end. -/
def Call.delay (tg : Call n) (i : ℕ) : ℕ :=
  match tg.edges[i]? with
  | some e => if e.2 = tg.largest then e.1 else tg.largest
  | none => tg.largest

/-- The edges in the order that misses the largest vertex if one does. -/
def Call.worst (tg : Call n) : List ℕ :=
  (List.range tg.edges.length).mergeSort fun i j => tg.delay i ≤ tg.delay j

theorem worst_perm (tg : Call n) : tg.worst.Perm (range tg.edges.length) :=
  List.mergeSort_perm _ _

theorem worst_pairwise (tg : Call n) : tg.worst.Pairwise fun i j => tg.delay i ≤ tg.delay j := by
  have hsorted : tg.worst.Pairwise fun i j => decide (tg.delay i ≤ tg.delay j) = true :=
    List.pairwise_mergeSort (fun i j k hij hjk => ?_) (fun i j => ?_) _
  · exact hsorted.imp fun h => of_decide_eq_true h
  · simp only [decide_eq_true_eq] at hij hjk ⊢
    exact hij.trans hjk
  · simp only [Bool.or_eq_true, decide_eq_true_eq]
    exact le_total _ _

/-- The largest vertex is not found by the edges that are left, in this order. -/
structure Missing (s : State n) (l : List ℕ) : Prop where
  lt : ∀ c, s.maxvtx c < s.tg.largest
  edges : ∀ i ∈ l, ∃ e, s.tg.edges[i]? = some e ∧ e.1 < s.tg.largest ∧ e.2 ≤ s.tg.largest ∧
    (e.2 = s.tg.largest → s.maxvtx (s.tg.edge_core i) < e.1)
  distinct : l.Pairwise fun i j => s.tg.edge_core i = s.tg.edge_core j → ∀ a,
    s.tg.edges[i]? = some (a, s.tg.largest) → s.tg.edges[j]? ≠ some (a, s.tg.largest)
  sorted : l.Pairwise fun i j => s.tg.delay i ≤ s.tg.delay j

theorem delay_eq {i : ℕ} {e : ℕ × ℕ} (he : tg.edges[i]? = some e) :
    tg.delay i = if e.2 = tg.largest then e.1 else tg.largest := by
  simp only [Call.delay, he]

theorem Missing.visit {i : ℕ} {l : List ℕ} {e : ℕ × ℕ} (he : s.tg.edges[i]? = some e)
    (h : Missing s (i :: l)) : Missing (s.visit (s.tg.edge_core i) e) l := by
  obtain ⟨hdistinct, hdistinct'⟩ := pairwise_cons.mp h.distinct
  obtain ⟨hsorted, hsorted'⟩ := pairwise_cons.mp h.sorted
  obtain ⟨d, hd, hfst, hsnd, habove⟩ := h.edges i mem_cons_self
  rw [he] at hd
  cases hd
  refine ⟨fun c => ?_, fun j hj => ?_, hdistinct', hsorted'⟩
  · by_cases hc : c = s.tg.edge_core i
    · subst hc
      have hlt := h.lt (s.tg.edge_core i)
      rw [State.visit_self, State.visit_tg]
      unfold find_max
      split_ifs <;> omega
    · rw [State.visit_ne s e hc]
      exact h.lt c
  · obtain ⟨d, hd, hfst', hsnd', habove'⟩ := h.edges j (mem_cons_of_mem i hj)
    refine ⟨d, hd, hfst', hsnd', fun heq => ?_⟩
    rw [State.visit_tg] at heq ⊢
    by_cases hc : s.tg.edge_core j = s.tg.edge_core i
    · -- the first ends of such edges go up
      have hdelay := hsorted j hj
      rw [delay_eq he, delay_eq hd, if_pos heq] at hdelay
      have hlast : e.2 = s.tg.largest := by
        by_contra hne
        rw [if_neg hne] at hdelay
        omega
      rw [if_pos hlast] at hdelay
      have hne : e.1 ≠ d.1 := by
        intro hfst
        refine hdistinct j hj hc.symm e.1 ?_ ?_
        · rw [he, ← hlast]
        · rw [hd, ← heq, hfst]
      have hvisit := habove hlast
      rw [hc, State.visit_self]
      unfold find_max
      split_ifs <;> omega
    · rw [State.visit_ne s e hc]
      exact habove' heq

/-- **The largest vertex is missed**. -/
theorem Missing.foldl_lt {l : List ℕ} (h : Missing s l) (c : Fin (n + 1)) :
    ((l.map Item.find_nv).foldl (fun t x => (x.exec t).1) s).maxvtx c < s.tg.largest := by
  induction l generalizing s with
  | nil => exact h.lt c
  | cons i l ih =>
    obtain ⟨e, he, _⟩ := h.edges i mem_cons_self
    rw [List.map_cons, List.foldl_cons, exec_find_nv he]
    exact ih (h.visit he)

theorem Call.Finds.of_not_missing (hm : ∀ c, s.maxvtx c = m) (hle : m ≤ s.tg.largest)
    (h : ¬Missing s s.tg.worst) : s.tg.Finds m := by
  refine ⟨hle, ?_⟩
  by_contra hnot
  push Not at hnot
  obtain ⟨hne, hfst, hsnd, htwo⟩ := hnot
  refine h ⟨fun c => ?_, fun i hi => ?_, ?_, worst_pairwise s.tg⟩
  · rw [hm]
    omega
  · have hlt := List.mem_range.mp ((worst_perm s.tg).mem_iff.mp hi)
    have hmem := getElem_mem hlt
    have hbound := s.tg.le_largest hmem
    have hbelow := hfst _ hmem
    refine ⟨s.tg.edges[i], getElem?_eq_getElem hlt, by omega, hbound.2, fun heq => ?_⟩
    rw [hm]
    exact hsnd _ hmem heq
  · have hnodup : s.tg.worst.Nodup := (worst_perm s.tg).nodup_iff.mpr nodup_range
    exact hnodup.imp fun hij hcore a hi hj => htwo _ _ a hij hi hj hcore

end OnedCsr

end Grappa
