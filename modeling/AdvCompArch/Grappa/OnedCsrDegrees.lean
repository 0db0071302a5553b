import AdvCompArch.Grappa.OnedCsrMaximum

/-! # Degrees of the vertices

    `setup_deg_off` counts the degrees of the vertices, where both ends of an edge count, and makes
    the smaller ones larger.  That pass goes through the first half of `xoff` only, in which the ends
    are as well; so the degrees of the later vertices stay what they are, and nothing relies on
    more. -/

namespace Grappa

namespace OnedCsr

open Multiset

variable {n : ℕ} {s s' : State n} {rest : Multiset (Item n)} {x : Item n} {new : List (Item n)}
  {tg : Call n}

/-! ### Edges at a vertex -/

/-- The other ends of an edge at a vertex. -/
def ends (v : ℕ) (e : ℕ × ℕ) : List ℕ :=
  if e.1 ≠ e.2 then (if e.1 = v then [e.2] else []) ++ (if e.2 = v then [e.1] else []) else []

/-- The other ends of all edges at a vertex. -/
def Call.ends (tg : Call n) (v : ℕ) : List ℕ := tg.edges.flatMap (OnedCsr.ends v)

theorem XOFF_inj {v w : ℕ} : XOFF v = XOFF w ↔ v = w := by
  unfold XOFF
  omega

theorem XENDOFF_inj {v w : ℕ} : XENDOFF v = XENDOFF w ↔ v = w := by
  unfold XENDOFF
  omega

theorem XOFF_ne_XENDOFF (v w : ℕ) : XOFF v ≠ XENDOFF w := by
  unfold XOFF XENDOFF
  omega

/-! ### Counting the degrees -/

/-- What `XOFF(v)` is. -/
def State.offset (s : State n) (v : ℕ) : ℕ := s.xoff.getD (XOFF v) 0

/-- What `XENDOFF(v)` is. -/
def State.endoff (s : State n) (v : ℕ) : ℕ := s.xoff.getD (XENDOFF v) 0

/-- What an iteration or an increment adds to the degree of a vertex. -/
def Item.adds (tg : Call n) (v : ℕ) : Item n → ℕ
  | .degree i => match tg.edges[i]? with
    | some e => (OnedCsr.ends v e).length
    | none => 0
  | .increment a => if a = XOFF v then 1 else 0
  | _ => 0

/-- The degrees are counted. -/
structure Degree (s : State n) (pool : Multiset (Item n)) : Prop where
  items : ∀ x ∈ pool, (∃ i < s.tg.edges.length, x = .degree i) ∨ ∃ v < s.nv, x = .increment (XOFF v)
  length : s.xoff.length = 2 * s.nv + 2
  counts : ∀ v < s.nv, s.offset v + (pool.map (Item.adds s.tg v)).sum = (s.tg.ends v).length

/-- The degrees are made larger. -/
structure Minvect (s : State n) (pool : Multiset (Item n)) : Prop where
  items : ∀ x ∈ pool, ∃ i < s.nv, x = .minvect i
  length : s.xoff.length = 2 * s.nv + 2
  degrees : ∀ v < s.nv, (s.tg.ends v).length ≤ s.offset v

theorem map_getElem?_range {α β : Type*} (l : List α) (f : Option α → β) :
    ((List.range l.length).map fun i => f l[i]?) = l.map fun a => f (some a) := by
  apply List.ext_getElem (by simp)
  intro i hi _
  have hlt : i < l.length := by simpa using hi
  simp [List.getElem?_eq_getElem hlt]

theorem XOFF_lt {v : ℕ} (hlength : s.xoff.length = 2 * s.nv + 2) (hv : v < s.nv) :
    XOFF v < s.xoff.length := by
  unfold XOFF
  omega

theorem XENDOFF_lt {v : ℕ} (hlength : s.xoff.length = 2 * s.nv + 2) (hv : v < s.nv) :
    XENDOFF v < s.xoff.length := by
  unfold XENDOFF
  omega

theorem Degree.start (hxoff : s.xoff = List.replicate (2 * s.nv + 2) 0) :
    Degree s ((List.range s.tg.edges.length).map .degree : List (Item n)) := by
  refine ⟨fun y hy => .inl ?_, by simp [hxoff], fun v hv => ?_⟩
  · obtain ⟨i, hi, rfl⟩ := List.mem_map.mp hy
    exact ⟨i, List.mem_range.mp hi, rfl⟩
  · have hlt : XOFF v < 2 * s.nv + 2 := by
      unfold XOFF
      omega
    have hzero : s.offset v = 0 := by
      simp [State.offset, hxoff, List.getD_eq_getElem?_getD, hlt]
    have hsum : ((List.range s.tg.edges.length).map (Item.adds s.tg v ∘ .degree)) =
        s.tg.edges.map fun e => (OnedCsr.ends v e).length :=
      map_getElem?_range s.tg.edges fun e => match e with
        | some e => (OnedCsr.ends v e).length
        | none => 0
    rw [hzero, zero_add, map_coe, sum_coe, List.map_map, hsum, Call.ends,
      List.length_flatMap]

theorem length_ends (v : ℕ) {e : ℕ × ℕ} (he : e.1 ≠ e.2) :
    (ends v e).length = (if XOFF e.1 = XOFF v then 1 else 0) + if XOFF e.2 = XOFF v then 1 else 0 := by
  unfold ends
  rw [if_pos he]
  simp only [XOFF_inj, List.length_append]
  split_ifs <;> rfl

theorem Degree.exec (hnv : s.nv = s.tg.largest + 1) (h : Degree s (x ::ₘ rest))
    (hx : x.exec s = (s', new)) : Degree s' (rest + new) ∧ s'.failed = s.failed := by
  have hrest : ∀ y ∈ rest, (∃ i < s.tg.edges.length, y = .degree i) ∨
      ∃ v < s.nv, y = .increment (XOFF v) := fun y hy => h.items y (mem_cons_of_mem hy)
  rcases h.items x (mem_cons_self x rest) with ⟨i, hi, rfl⟩ | ⟨w, hw, rfl⟩
  · have he := List.getElem?_eq_getElem hi
    have hle := s.tg.le_largest (List.getElem_mem hi)
    have hcounts : ∀ v < s.nv, s.offset v + ((OnedCsr.ends v s.tg.edges[i]).length +
        (rest.map (Item.adds s.tg v)).sum) = (s.tg.ends v).length := by
      intro v hv
      have hold := h.counts v hv
      simpa only [map_cons, sum_cons, Item.adds, he] using hold
    by_cases hne : s.tg.edges[i].1 ≠ s.tg.edges[i].2
    · simp only [Item.exec, he, if_pos hne] at hx
      cases hx
      refine ⟨⟨fun y hy => ?_, h.length, fun v hv => ?_⟩, rfl⟩
      · rcases mem_add.mp hy with hy | hy
        · exact hrest y hy
        · simp only [mem_coe, List.mem_cons, List.not_mem_nil, or_false] at hy
          rcases hy with rfl | rfl
          · exact .inr ⟨_, by omega, rfl⟩
          · exact .inr ⟨_, by omega, rfl⟩
      · rw [← hcounts v hv, length_ends v hne]
        simp [Item.adds]
        omega
    · simp only [Item.exec, he, if_neg hne] at hx
      cases hx
      rw [coe_nil, add_zero]
      refine ⟨⟨hrest, h.length, fun v hv => ?_⟩, rfl⟩
      -- a self loop has no ends
      have hcount := hcounts v hv
      simpa [OnedCsr.ends, hne] using hcount
  · have hlt := XOFF_lt h.length hw
    simp only [Item.exec, if_pos hlt] at hx
    cases hx
    rw [coe_nil, add_zero]
    refine ⟨⟨hrest, by simpa using h.length, fun v hv => ?_⟩, rfl⟩
    have hold := h.counts v hv
    rw [map_cons, sum_cons] at hold
    rw [← hold]
    simp only [State.offset, List.getD_eq_getElem?_getD, List.getElem?_modify, Item.adds]
    by_cases heq : XOFF w = XOFF v
    · simp [heq, List.getElem?_eq_getElem (heq ▸ hlt)]
      omega
    · simp [heq]

theorem Degree.minvect (h : Degree s 0) :
    Minvect { s with pass := .minvect } ((List.range s.nv).map .minvect : List (Item n)) := by
  refine ⟨fun y hy => ?_, h.length, fun v hv => ?_⟩
  · obtain ⟨i, hi, rfl⟩ := List.mem_map.mp hy
    exact ⟨i, List.mem_range.mp hi, rfl⟩
  · have hcounts := h.counts v hv
    simp only [map_zero, sum_zero, add_zero] at hcounts
    exact hcounts.ge

theorem Minvect.exec (h : Minvect s (x ::ₘ rest)) (hx : x.exec s = (s', new)) :
    Minvect s' (rest + new) ∧ s'.failed = s.failed := by
  obtain ⟨i, hi, rfl⟩ := h.items x (mem_cons_self x rest)
  have hlt : i < s.xoff.length := by
    rw [h.length]
    omega
  simp only [Item.exec, if_pos hlt] at hx
  cases hx
  rw [coe_nil, add_zero]
  refine ⟨⟨fun y hy => h.items y (mem_cons_of_mem hy), by simpa using h.length,
    fun v hv => ?_⟩, rfl⟩
  refine (h.degrees v hv).trans ?_
  simp only [State.offset, List.getD_eq_getElem?_getD, List.getElem?_modify]
  have hget := List.getElem?_eq_getElem (XOFF_lt h.length hv)
  by_cases heq : i = XOFF v
  · simp only [if_pos heq, hget, Option.map_eq_map, Option.map_some, Option.getD_some]
    split_ifs <;> omega
  · simp [heq]

end OnedCsr

end Grappa
