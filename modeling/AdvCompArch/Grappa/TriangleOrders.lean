import AdvCompArch.Grappa.PartitionedTriangles

/-! # Which of the six orders is emitted

    A triangle is to be emitted on one core, in one of its six orders, and the comparison of the
    degrees on the core is to select it.  The cores `(a, b, c)`, `(b, c, a)` and `(c, a, b)` have
    the same edges, however, and so they emit the same triangles (`emits_rotate`).  A triangle
    that only one core emits is therefore emitted by a core `(α, α, α)`, which has edges between
    vertices with the hash `α` only.

    So the count is right just if for every triangle the hashes of its corners are equal, the
    numbers of their neighbours with this hash are pairwise different, and no other hash tells
    the corners apart in this way (`partitioned_triangles_iff`). -/

namespace Grappa

open Triangles Finset

/-! ### What a core sees -/

section orders

variable {R : Finset (ℕ × ℕ)} {d α β v : ℕ} {q : ℕ × ℕ × ℕ} {T : Finset ℕ} {t : ℕ × ℕ × ℕ}

local instance lawfulBEq_edge : LawfulBEq (ℕ × ℕ) := inferInstance

/-- The edges of a core. -/
def assigned (R : Finset (ℕ × ℕ)) (d : ℕ) (q : ℕ × ℕ × ℕ) : Finset (ℕ × ℕ) :=
  R.filter fun e => (e.1 % d, e.2 % d) ∈ sides q

/-- The core emits this order of a triangle. -/
def Emits (R : Finset (ℕ × ℕ)) (d : ℕ) (q t : ℕ × ℕ × ℕ) : Prop :=
  Cycle (assigned R d q) t ∧ Ascending (degree (assigned R d q)) t

/-- The core emits the triangle. -/
def EmitsTriangle (R : Finset (ℕ × ℕ)) (d : ℕ) (q : ℕ × ℕ × ℕ) (T : Finset ℕ) : Prop :=
  ∃ t, corners t = T ∧ Emits R d q t

/-- How many neighbours with one of these hashes a vertex has. -/
def neighborsIn (R : Finset (ℕ × ℕ)) (d : ℕ) (hashes : Finset ℕ) (v : ℕ) : ℕ :=
  (R.filter fun e => e.1 = v ∧ e.2 % d ∈ hashes).card

/-- The corners of a triangle have one hash, the numbers of their neighbours with this hash are
    different, and with any other hash in addition two of these numbers are equal. -/
def OneOrder (R : Finset (ℕ × ℕ)) (d : ℕ) (T : Finset ℕ) : Prop :=
  ∃ α, (∀ v ∈ T, v % d = α) ∧ Set.InjOn (neighborsIn R d {α}) T ∧
    ∀ β < d, β ≠ α → ¬Set.InjOn (neighborsIn R d {α, β}) T

theorem assigned_rotate (a b c : ℕ) : assigned R d (b, c, a) = assigned R d (a, b, c) := by
  ext e
  simp only [assigned, mem_filter, sides, List.mem_cons, List.not_mem_nil, or_false]
  tauto

/-- **Three cores** emit the same. -/
theorem emits_rotate (a b c : ℕ) :
    EmitsTriangle R d (b, c, a) T ↔ EmitsTriangle R d (a, b, c) T := by
  rw [EmitsTriangle, EmitsTriangle]
  simp only [Emits, assigned_rotate a b c]

theorem degree_assigned (hv : v % d = α) :
    degree (assigned R d (α, α, β)) v = neighborsIn R d {α, β} v := by
  rw [degree, neighborsIn, assigned, filter_filter]
  congr 1
  apply filter_congr
  intro e _
  simp only [sides, List.mem_cons, List.not_mem_nil, or_false, Prod.mk.injEq, mem_insert,
    mem_singleton]
  constructor
  · rintro ⟨hside, rfl⟩
    refine ⟨rfl, ?_⟩
    rcases hside with h | h | h
    · exact .inl h.2
    · exact .inr h.2
    · exact .inl h.2
  · rintro ⟨rfl, hhash⟩
    exact ⟨hhash.imp (fun h => ⟨hv, h⟩) fun h => .inl ⟨hv, h⟩, rfl⟩

theorem mem_corners : t.1 ∈ corners t ∧ t.2.1 ∈ corners t ∧ t.2.2 ∈ corners t := by
  simp [corners]

theorem emits_iff_injOn (hT : T ∈ triangles R) (hα : ∀ v ∈ T, v % d = α) :
    EmitsTriangle R d (α, α, β) T ↔ Set.InjOn (neighborsIn R d {α, β}) T := by
  rw [← exists_ascending_iff (mem_triangles.mp hT).1]
  apply exists_congr
  intro t
  apply and_congr_right
  rintro rfl
  obtain ⟨hx, hy, hz⟩ := @mem_corners t
  rw [Emits, Ascending, Ascending, degree_assigned (hα _ hx), degree_assigned (hα _ hy),
    degree_assigned (hα _ hz), and_iff_right_iff_imp]
  intro _
  -- all edges of the triangle are between vertices of this hash
  have hside : ∀ u ∈ corners t, ∀ v ∈ corners t, (u, v) ∈ R → (u, v) ∈ assigned R d (α, α, β) := by
    intro u hu v hv huv
    refine mem_filter.mpr ⟨huv, ?_⟩
    rw [hα u hu, hα v hv]
    exact List.mem_cons_self
  obtain ⟨hxy, hyz, hzx⟩ := cycle_of_corners hT rfl
  exact ⟨hside _ hx _ hy hxy, hside _ hy _ hz hyz, hside _ hz _ hx hzx⟩

theorem EmitsTriangle.hashes (h : EmitsTriangle R d q T) :
    ∃ x y z, T = {x, y, z} ∧ (x % d, y % d) ∈ sides q ∧ (y % d, z % d) ∈ sides q ∧
      (z % d, x % d) ∈ sides q := by
  obtain ⟨⟨x, y, z⟩, rfl, ⟨hxy, hyz, hzx⟩, -⟩ := h
  exact ⟨x, y, z, rfl, (mem_filter.mp hxy).2, (mem_filter.mp hyz).2,
    (mem_filter.mp hzx).2⟩

/-- **The cores of a triangle**: exactly one core emits it just if there is one order. -/
theorem existsUnique_emits_iff (hd : 0 < d) (hT : T ∈ triangles R) :
    (∃! q, InCube d q ∧ EmitsTriangle R d q T) ↔ OneOrder R d T := by
  constructor
  · intro h
    obtain ⟨⟨a, b, c⟩, ⟨⟨ha, hb, hc⟩, hemits⟩, hunique⟩ := h
    -- the other two cores with the same edges are this one
    have hrotate := hunique (b, c, a) ⟨⟨hb, hc, ha⟩, (emits_rotate a b c).mpr hemits⟩
    obtain ⟨rfl, rfl, -⟩ : b = a ∧ c = b ∧ a = c := by simpa using hrotate
    have hclass : ∀ v ∈ T, v % d = c := by
      obtain ⟨x, y, z, rfl, hxy, hyz, hzx⟩ := hemits.hashes
      simp [sides] at hxy hyz
      simp [hxy, hyz]
    refine ⟨c, hclass, ?_, fun β hβ hne hinj => ?_⟩
    · have hinj := (emits_iff_injOn hT hclass).mp hemits
      rwa [insert_eq_of_mem (mem_singleton_self c)] at hinj
    · have heq := hunique (c, c, β) ⟨⟨ha, hb, hβ⟩, (emits_iff_injOn hT hclass).mpr hinj⟩
      exact hne (congrArg (fun q : ℕ × ℕ × ℕ => q.2.2) heq)
  · intro h
    obtain ⟨α, hclass, hinj, htied⟩ := h
    have hlt : α < d := by
      obtain ⟨v, hv⟩ : T.Nonempty := card_pos.mp (by rw [(mem_triangles.mp hT).1]; omega)
      rw [← hclass v hv]
      exact Nat.mod_lt v hd
    have hemits : EmitsTriangle R d (α, α, α) T := by
      rw [emits_iff_injOn hT hclass, insert_eq_of_mem (mem_singleton_self α)]
      exact hinj
    have htwice : ∀ β < d, EmitsTriangle R d (α, α, β) T → β = α := by
      intro β hβ hemits
      by_contra hne
      exact htied β hβ hne ((emits_iff_injOn hT hclass).mp hemits)
    refine ⟨(α, α, α), ⟨⟨hlt, hlt, hlt⟩, hemits⟩, ?_⟩
    rintro ⟨a, b, c⟩ ⟨⟨ha, hb, hc⟩, hemits'⟩
    obtain ⟨x, y, z, rfl, hxy, -, -⟩ := hemits'.hashes
    rw [hclass x (by simp), hclass y (by simp)] at hxy
    simp only [sides, List.mem_cons, List.not_mem_nil, or_false, Prod.mk.injEq] at hxy
    -- a core with the side from `α` to `α` is `(α, α, β)`, turned round
    rcases hxy with ⟨rfl, rfl⟩ | ⟨rfl, rfl⟩ | ⟨rfl, rfl⟩
    · rw [htwice c hc hemits']
    · rw [htwice a ha ((emits_rotate a _ _).mpr hemits')]
    · have hturned := (emits_rotate α b α).mpr hemits'
      rw [htwice b hb ((emits_rotate b α α).mpr hturned)]

end orders

/-! ### What the cores have emitted -/

/-- The cores have counted the triangles, and each of them has been emitted once, on one core. -/
structure CountsTriangles (R : Finset (ℕ × ℕ)) (cores : ℕ) (results : ℕ → List (ℕ × ℕ × ℕ)) :
    Prop where
  total : ∑ c ∈ Finset.range cores, triangle_count results c = (triangles R).card
  once : ∀ T ∈ triangles R, ∃ c < cores, (results c).countP (fun t => corners t = T) = 1 ∧
    ∀ c' < cores, c' ≠ c → (results c').countP (fun t => corners t = T) = 0

/-- If each triangle is emitted once, and nothing else is, then the triangles are counted. -/
theorem countsTriangles_of_once {R : Finset (ℕ × ℕ)} {cores : ℕ}
    {results : ℕ → List (ℕ × ℕ × ℕ)}
    (htriangle : ∀ c < cores, ∀ t ∈ results c, corners t ∈ triangles R)
    (honce : ∀ T ∈ triangles R, ∃ c < cores, (results c).countP (fun t => corners t = T) = 1 ∧
      ∀ c' < cores, c' ≠ c → (results c').countP (fun t => corners t = T) = 0) :
    CountsTriangles R cores results := by
  refine ⟨?_, honce⟩
  have hsum : ∀ c < cores, triangle_count results c =
      ∑ T ∈ triangles R, (results c).countP fun t => corners t = T := by
    intro c hc
    have hmaps : ∀ T ∈ ((results c).map corners : Multiset (Finset ℕ)), T ∈ triangles R := by
      intro T hT
      obtain ⟨t, ht, rfl⟩ := List.mem_map.mp hT
      exact htriangle c hc t ht
    have hcard := Multiset.sum_count_eq_card hmaps
    rw [Multiset.coe_card, List.length_map] at hcard
    rw [triangle_count, ← hcard]
    apply sum_congr rfl
    intro T _
    rw [Multiset.coe_count, List.count, List.countP_map]
    rfl
  have hcount : ∀ T ∈ triangles R,
      ∑ c ∈ range cores, (results c).countP (fun t => corners t = T) = 1 := by
    intro T hT
    obtain ⟨c, hc, hone, hothers⟩ := honce T hT
    rw [sum_eq_single c, hone]
    · exact fun c' hc' hne => hothers c' (mem_range.mp hc') hne
    · exact fun hnot => absurd (mem_range.mpr hc) hnot
  rw [sum_congr rfl fun c hc => hsum c (mem_range.mp hc), sum_comm,
    sum_congr rfl hcount, card_eq_sum_ones]

namespace PartitionedTriangles

variable {p : PartitionedTriangles} {R : Finset (ℕ × ℕ)}
  {s : Phased.State (Exchange.State ℤ (ℕ × ℕ) (ℕ × ℕ × ℕ)) (Exchange.Item ℕ ℤ (ℕ × ℕ))}

theorem sends_replicate : Exchange.Sends p.plan
    fun i => (p.replicate i : Multiset (ℤ × (ℕ × ℕ))) := by
  intro i
  simp [plan]

theorem shrinks_replicate : Exchange.Shrinks p.plan fun _ => 0 := by
  intro i
  simp [plan]

theorem received (hindex : p.g.IsIndex R) (hs : p.triangles.Reachable s)
    (hret : s.shared.phase = .returned) (l : ℤ) (e : ℕ × ℕ) :
    e ∈ s.shared.boxes l ↔ e ∈ R ∧ ∃ q, InCube p.sidelength q ∧
      (number p.sidelength q : ℤ) = l ∧ (e.1 % p.sidelength, e.2 % p.sidelength) ∈ sides q := by
  have hboxes := (Exchange.returned_spec sends_replicate hs hret).1 l
  obtain ⟨v, w⟩ := e
  rw [← Multiset.mem_coe, hboxes, Exchange.mem_part, Exchange.Plan.sent, plan,
    Distribute.sum_map_coe, Multiset.mem_coe, ← mem_lines p.sidelength_pos]
  simp only [List.mem_flatMap, List.mem_range, replicate, List.mem_map, Prod.mk.injEq]
  constructor
  · intro h
    obtain ⟨i, -, dst, hdst, side, -, l, hl, rfl, rfl, rfl⟩ := h
    exact ⟨(hindex.mem_adj i dst).mp hdst, side, hl⟩
  · intro h
    obtain ⟨hvw, side, hl⟩ := h
    refine ⟨v, hindex.lt_nv v w hvw, w, (hindex.mem_adj v w).mpr hvw, side, ?_, l, hl, rfl, rfl, rfl⟩
    cases side <;> simp

theorem boxes_eq (hindex : p.g.IsIndex R) (hs : p.triangles.Reachable s)
    (hret : s.shared.phase = .returned) {q : ℕ × ℕ × ℕ} (hq : InCube p.sidelength q) :
    (s.shared.boxes (number p.sidelength q)).toFinset = assigned R p.sidelength q := by
  ext e
  rw [List.mem_toFinset, received hindex hs hret, assigned, mem_filter]
  apply and_congr_right
  intro _
  constructor
  · intro h
    obtain ⟨q', hq', hnumber, hside⟩ := h
    rwa [← number_injective hq' hq (by exact_mod_cast hnumber)]
  · exact fun hside => ⟨q, hq, rfl, hside⟩

theorem mem_results (hindex : p.g.IsIndex R)
    (hs : p.triangles.Reachable s) (hret : s.shared.phase = .returned) {c : ℕ} {t : ℕ × ℕ × ℕ} :
    t ∈ s.shared.results c ↔
      ∃ q, InCube p.sidelength q ∧ number p.sidelength q = c ∧ Emits R p.sidelength q t := by
  have hresults := (Exchange.returned_spec sends_replicate hs hret).2 c
  constructor
  · intro h
    rw [hresults] at h
    split_ifs at h with hc
    · obtain ⟨hcycle, hascending⟩ := mem_emitted.mp h
      -- the core has coordinates, as it has got an edge
      obtain ⟨-, q, hq, hnumber, -⟩ :=
        (received hindex hs hret c _).mp (List.mem_toFinset.mp hcycle.1)
      obtain rfl : number p.sidelength q = c := by exact_mod_cast hnumber
      rw [boxes_eq hindex hs hret hq] at hcycle hascending
      exact ⟨q, hq, rfl, hcycle, hascending⟩
    · cases h
  · intro h
    obtain ⟨q, hq, rfl, hemits⟩ := h
    have hlt : number p.sidelength q < p.cores := (number_lt hq).trans_le p.cube_le
    rw [hresults, if_pos (show number p.sidelength q < p.plan.parties from hlt)]
    exact mem_emitted.mpr (by rwa [boxes_eq hindex hs hret hq])

theorem corners_of_mem_results (hindex : p.g.IsIndex R)
    (hsymm : ∀ u v, (u, v) ∈ R → (v, u) ∈ R) (hloop : ∀ v, (v, v) ∉ R)
    (hs : p.triangles.Reachable s) (hret : s.shared.phase = .returned) {c : ℕ} {t : ℕ × ℕ × ℕ}
    (ht : t ∈ s.shared.results c) : corners t ∈ Triangles.triangles R := by
  obtain ⟨q, -, -, ⟨hxy, hyz, hzx⟩, -⟩ := (mem_results hindex hs hret).mp ht
  exact corners_mem_triangles hsymm hloop ⟨(mem_filter.mp hxy).1, (mem_filter.mp hyz).1,
    (mem_filter.mp hzx).1⟩

theorem countP_results (hindex : p.g.IsIndex R)
    (hs : p.triangles.Reachable s) (hret : s.shared.phase = .returned) {q : ℕ × ℕ × ℕ}
    (hq : InCube p.sidelength q) (T : Finset ℕ) [Decidable (EmitsTriangle R p.sidelength q T)] :
    (s.shared.results (number p.sidelength q)).countP (fun t => corners t = T) =
      if EmitsTriangle R p.sidelength q T then 1 else 0 := by
  have hmem : ∀ t, t ∈ s.shared.results (number p.sidelength q) ↔ Emits R p.sidelength q t := by
    intro t
    rw [mem_results hindex hs hret]
    constructor
    · intro h
      obtain ⟨q', hq', hnumber, hemits⟩ := h
      rwa [← number_injective hq' hq hnumber]
    · exact fun hemits => ⟨q, hq, rfl, hemits⟩
  split_ifs with htriangle
  · obtain ⟨t, rfl, hemits⟩ := htriangle
    have hnodup : (s.shared.results (number p.sidelength q)).Nodup := by
      rw [(Exchange.returned_spec sends_replicate hs hret).2]
      split_ifs
      · exact nodup_emitted _ _
      · exact List.nodup_nil
    rw [← List.count_eq_one_of_mem hnodup ((hmem t).mpr hemits), List.count]
    apply List.countP_congr
    intro t' ht'
    rw [decide_eq_true_eq, beq_iff_eq]
    exact ⟨fun heq => ((hmem t').mp ht').2.unique hemits.2 heq, fun heq => congrArg corners heq⟩
  · rw [List.countP_eq_zero]
    intro t ht heq
    exact htriangle ⟨t, of_decide_eq_true heq, (hmem t).mp ht⟩

/-- **What is counted** are triangles, by no core twice. -/
theorem emitted_triangles (hindex : p.g.IsIndex R)
    (hsymm : ∀ u v, (u, v) ∈ R → (v, u) ∈ R) (hloop : ∀ v, (v, v) ∉ R)
    (hs : p.triangles.Reachable s) (hret : s.shared.phase = .returned) (c : ℕ) :
    (∀ t ∈ s.shared.results c, corners t ∈ Triangles.triangles R) ∧
      ∀ T, (s.shared.results c).countP (fun t => corners t = T) ≤ 1 := by
  classical
  refine ⟨fun t => corners_of_mem_results hindex hsymm hloop hs hret, fun T => ?_⟩
  by_contra hmany
  obtain ⟨t, ht, -⟩ := List.countP_pos_iff.mp (Nat.zero_lt_of_lt (Nat.not_le.mp hmany))
  -- a core that has counted something has coordinates
  obtain ⟨q, hq, rfl, -⟩ := (mem_results hindex hs hret).mp ht
  rw [countP_results hindex hs hret hq] at hmany
  split_ifs at hmany <;> omega

theorem countsTriangles_iff (hindex : p.g.IsIndex R)
    (hsymm : ∀ u v, (u, v) ∈ R → (v, u) ∈ R) (hloop : ∀ v, (v, v) ∉ R)
    (hs : p.triangles.Reachable s) (hret : s.shared.phase = .returned) :
    CountsTriangles R p.cores s.shared.results ↔
      ∀ T ∈ Triangles.triangles R, OneOrder R p.sidelength T := by
  classical
  have hcount := fun q hq T => @countP_results p R s hindex hs hret q hq T _
  have hlt : ∀ q, InCube p.sidelength q → number p.sidelength q < p.cores :=
    fun q hq => (number_lt hq).trans_le p.cube_le
  constructor
  · intro h T hT
    rw [← existsUnique_emits_iff p.sidelength_pos hT]
    obtain ⟨c, -, hone, hothers⟩ := h.once T hT
    obtain ⟨t, ht, hcorners⟩ := List.countP_pos_iff.mp (by rw [hone]; exact Nat.one_pos)
    obtain ⟨q, hq, rfl, hemits⟩ := (mem_results hindex hs hret).mp ht
    refine ⟨q, ⟨hq, t, of_decide_eq_true hcorners, hemits⟩, fun q' hq' => ?_⟩
    by_contra hne
    -- another core would have emitted it, too
    have hnumber : number p.sidelength q' ≠ number p.sidelength q :=
      fun heq => hne (number_injective hq'.1 hq heq)
    have hzero := hothers _ (hlt q' hq'.1) hnumber
    rw [hcount q' hq'.1, if_pos hq'.2] at hzero
    omega
  · intro h
    apply countsTriangles_of_once
    · exact fun c _ t ht => corners_of_mem_results hindex hsymm hloop hs hret ht
    · intro T hT
      obtain ⟨q, ⟨hq, hemits⟩, hunique⟩ := (existsUnique_emits_iff p.sidelength_pos hT).mpr (h T hT)
      refine ⟨number p.sidelength q, hlt q hq, ?_, fun c _ hne => ?_⟩
      · rw [hcount q hq, if_pos hemits]
      · rw [List.countP_eq_zero]
        intro t ht hcorners
        obtain ⟨q', hq', rfl, hemits'⟩ := (mem_results hindex hs hret).mp ht
        exact hne (by rw [hunique q' ⟨hq', t, of_decide_eq_true hcorners, hemits'⟩])

theorem terminates (p : PartitionedTriangles) : p.triangles.Terminates p.triangles.init :=
  Exchange.terminates shrinks_replicate

/-- **The partitioned triangle count**: every run ends, and in the end the triangles have been
    counted, each of them on one core, just if every triangle of the graph has one order. -/
theorem partitioned_triangles_iff {R : Finset (ℕ × ℕ)} (p : PartitionedTriangles)
    (hindex : p.g.IsIndex R) (hsymm : ∀ u v, (u, v) ∈ R → (v, u) ∈ R)
    (hloop : ∀ v, (v, v) ∉ R) :
    let run := p.triangles
    (run.Terminates run.init ∧ ∀ s, run.Reachable s → (∀ l, run.next s l = none) →
      s.shared.phase = .returned) ∧
    ∀ s, run.Reachable s → s.shared.phase = .returned →
      (CountsTriangles R p.cores s.shared.results ↔
        ∀ T ∈ Triangles.triangles R, OneOrder R p.sidelength T) := by
  intro run
  refine ⟨⟨p.terminates, fun s _ hstuck => Exchange.returns_of_stuck hstuck⟩, ?_⟩
  exact fun s hs hret => countsTriangles_iff hindex hsymm hloop hs hret

/-! ### Two graphs -/

/-- Both directions of these edges. -/
def undirected (edges : List (ℕ × ℕ)) : Finset (ℕ × ℕ) := (edges ++ edges.map Prod.swap).toFinset

theorem undirected_symm {edges : List (ℕ × ℕ)} (u v : ℕ) (h : (u, v) ∈ undirected edges) :
    (v, u) ∈ undirected edges := by
  simp only [undirected, List.mem_toFinset, List.mem_append, List.mem_map] at h ⊢
  rcases h with h | ⟨e, he, heq⟩
  · exact .inr ⟨(u, v), h, rfl⟩
  · obtain ⟨rfl, rfl⟩ : e.2 = u ∧ e.1 = v := by simpa [Prod.ext_iff] using heq
    exact .inl he

/-- A graph with these edges, on a cube of cores. -/
def onCube (d : ℕ) (hd : 0 < d) (nv : ℕ) (edges : List (ℕ × ℕ)) : PartitionedTriangles :=
  ⟨d * d * d, d, hd, le_rfl, ⟨nv, fun v => (List.range nv).filter fun w => (v, w) ∈ undirected edges⟩, inOrder⟩

theorem undirected_loop {edges : List (ℕ × ℕ)} (h : ∀ e ∈ undirected edges, e.1 ≠ e.2) (v : ℕ) :
    (v, v) ∉ undirected edges := fun hv => h _ hv rfl

theorem onCube_isIndex {d : ℕ} {hd : 0 < d} {nv : ℕ} {edges : List (ℕ × ℕ)}
    (h : ∀ e ∈ undirected edges, e.1 < nv ∧ e.2 < nv) :
    (onCube d hd nv edges).g.IsIndex (undirected edges) := by
  refine ⟨fun v => List.nodup_range.filter _, fun v w => ?_, fun v w hvw => (h _ hvw).1⟩
  simp only [onCube, List.mem_filter, List.mem_range, decide_eq_true_eq, and_iff_right_iff_imp]
  exact fun hvw => (h _ hvw).2

/-- Eight cores; the corners 0, 2 and 4 have 2, 3 and 4 even neighbours, and 0 has an odd one. -/
theorem partitioned_triangles_counted :
    let edges := [(0, 2), (2, 4), (4, 0), (2, 6), (4, 8), (4, 10), (0, 1)]
    ∃ s, (onCube 2 two_pos 11 edges).triangles.Reachable s ∧ s.shared.phase = .returned ∧
      CountsTriangles (undirected edges) 8 s.shared.results ∧
      (Triangles.triangles (undirected edges)).card = 1 := by
  intro edges
  obtain ⟨⟨hend, hreturns⟩, hcounts⟩ := partitioned_triangles_iff (onCube 2 two_pos 11 edges)
    (onCube_isIndex (by decide)) undirected_symm (undirected_loop (by decide))
  obtain ⟨ls, s, hrun, hstuck⟩ := hend.exists_end
  have hret := hreturns s ⟨ls, hrun⟩ hstuck
  have hone : Triangles.triangles (undirected edges) = {{0, 2, 4}} := by decide
  refine ⟨s, ⟨ls, hrun⟩, hret, (hcounts s ⟨ls, hrun⟩ hret).mpr fun T hT => ?_, by rw [hone]; rfl⟩
  obtain rfl := mem_singleton.mp (hone ▸ hT)
  refine ⟨0, by decide, ?_, ?_⟩
  · have hdegrees : ∀ u ∈ ({0, 2, 4} : Finset ℕ), ∀ v ∈ ({0, 2, 4} : Finset ℕ),
      neighborsIn (undirected edges) 2 {0} u = neighborsIn (undirected edges) 2 {0} v → u = v := by
      decide +kernel
    exact fun u hu v hv => hdegrees u hu v hv
  · intro β hβ hne hinj
    obtain rfl : β = 1 := by
      have hlt : β < 2 := hβ
      omega
    have htied : neighborsIn (undirected edges) 2 {0, 1} 0 =
        neighborsIn (undirected edges) 2 {0, 1} 2 := by decide +kernel
    exact absurd (hinj (by decide) (by decide) htied) (by decide)

/-- The corners of the triangle have different hashes. -/
theorem emitted_triangles_eight_cores :
    let edges := [(0, 1), (1, 2), (2, 0), (1, 3), (2, 4), (2, 5)]
    ∃ s, (onCube 2 two_pos 6 edges).triangles.Reachable s ∧
      (∀ t ∈ s.shared.results 0, corners t ∈ Triangles.triangles (undirected edges)) ∧
      ∀ T, (s.shared.results 0).countP (fun t => corners t = T) ≤ 1 := by
  intro edges
  obtain ⟨ls, s, hrun, hstuck⟩ := (onCube 2 two_pos 6 edges).terminates.exists_end
  exact ⟨s, ⟨ls, hrun⟩, emitted_triangles (onCube_isIndex (by decide)) undirected_symm
    (undirected_loop (by decide)) ⟨ls, hrun⟩ (Exchange.returns_of_stuck hstuck) 0⟩

/-- The corners of a triangle without further edges have two neighbours each; it is not
    emitted. -/
theorem partitioned_triangles_misses :
    let edges := [(0, 1), (1, 2), (2, 0)]
    ∃ s, (onCube 1 one_pos 3 edges).triangles.Reachable s ∧ s.shared.phase = .returned ∧
      s.shared.results 0 = [] ∧ (Triangles.triangles (undirected edges)).card = 1 ∧
      ¬CountsTriangles (undirected edges) 1 s.shared.results := by
  intro edges
  obtain ⟨ls, s, hrun, hstuck⟩ := (onCube 1 one_pos 3 edges).terminates.exists_end
  have hret := Exchange.returns_of_stuck hstuck
  have hone : (Triangles.triangles (undirected edges)).card = 1 := by decide
  have hempty : s.shared.results 0 = [] := by
    rw [List.eq_nil_iff_forall_not_mem]
    intro t ht
    obtain ⟨⟨a, b, c⟩, ⟨ha, hb, hc⟩, -, hemits⟩ :=
      (mem_results (onCube_isIndex (by decide)) ⟨ls, hrun⟩ hret).mp ht
    have hside : (onCube 1 one_pos 3 edges).sidelength = 1 := by decide
    rw [hside] at ha hb hc hemits
    obtain ⟨rfl, rfl, rfl⟩ : a = 0 ∧ b = 0 ∧ c = 0 := by
      dsimp only at ha hb hc
      omega
    obtain ⟨hxy, hyz, hzx⟩ := hemits.1
    have htriangle := corners_mem_triangles undirected_symm (undirected_loop (by decide))
      ⟨(mem_filter.mp hxy).1, (mem_filter.mp hyz).1, (mem_filter.mp hzx).1⟩
    have hinj := (emits_iff_injOn htriangle fun v _ => Nat.mod_one v).mp ⟨t, rfl, hemits⟩
    have htied : ∀ T ∈ Triangles.triangles (undirected edges), ∃ u ∈ T, ∃ v ∈ T, u ≠ v ∧
        neighborsIn (undirected edges) 1 {0, 0} u = neighborsIn (undirected edges) 1 {0, 0} v := by
      decide +kernel
    obtain ⟨u, hu, v, hv, hne, heq⟩ := htied _ htriangle
    exact hne (hinj hu hv heq)
  refine ⟨s, ⟨ls, hrun⟩, hret, hempty, hone, fun hcounts => ?_⟩
  have htotal := hcounts.total
  rw [hone, sum_range_one, triangle_count, hempty] at htotal
  exact absurd htotal (by decide)

end PartitionedTriangles

end Grappa
