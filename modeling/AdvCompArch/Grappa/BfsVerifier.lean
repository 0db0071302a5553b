import AdvCompArch.Lib.ParentTree
import AdvCompArch.Grappa.EdgeRedistribution

/-! # The verifier of breadth-first search

    After a search its parents are checked against the edge list: both ends of an edge are in
    the tree or none is, their levels differ by one at most, and every vertex of the tree has
    the edge to its parent.  The levels are not computed before; they are all 0, as they were
    initialized. -/

namespace Grappa.BfsVerifier

open TupleGraph (Edge)
open ParentTree (Chain Walk)

/-- The additional data of a vertex. -/
structure BFSData where
  parent : ℤ
  level : ℤ
  seen : Bool
  deriving DecidableEq

def BFSData.init (v : BFSData) : BFSData := { v with parent := -1, level := 0, seen := false }

/-- The vertices are `0, …, nv - 1`; those with an edge are valid. -/
structure Graph where
  nv : ℕ
  edges : List Edge
  valid : ℤ → Bool
  valid_of_edge : ∀ e ∈ edges, valid e.v0 = true ∧ valid e.v1 = true

abbrev Vertices := ℤ → BFSData

structure Verifier where
  vs : Vertices
  nedge_traversed : ℕ

/-- `v->seen = true` -/
def mark_seen (vs : Vertices) (i : ℤ) : Vertices :=
  Function.update vs i { vs i with seen := true }

/-- Vertex `i` is marked if its parent is `j`. -/
def mark_child (vs : Vertices) (i j : ℤ) : Vertices :=
  if (vs i).parent = j then mark_seen vs i else vs

/-- Mark seen tree edges. -/
def mark_tree_edges (vs : Vertices) (i j : ℤ) : Vertices :=
  if i ≠ j then mark_child (mark_child vs i j) j i else vs

/-- The body of the loop over the edges; `none` if a check fails. -/
def verify_edge (nv : ℕ) (s : Verifier) (e : Edge) : Option Verifier :=
  let max_bfsvtx : ℤ := nv - 1
  if e.v0 < 0 ∨ e.v1 < 0 then some s
  else if e.v0 > max_bfsvtx ∧ e.v1 ≤ max_bfsvtx then none
  else if e.v1 > max_bfsvtx ∧ e.v0 ≤ max_bfsvtx then none
  -- both are on the same side of max_bfsvtx
  else if e.v0 > max_bfsvtx then some s
  else
    let ti := (s.vs e.v0).parent
    let tj := (s.vs e.v1).parent
    -- All neighbors must be in the tree.
    if ti ≥ 0 ∧ tj < 0 then none
    else if tj ≥ 0 ∧ ti < 0 then none
    else if ti < 0 then some s
    else
      let vs := mark_tree_edges s.vs e.v0 e.v1
      let lvldiff := FixedWidth.int64 ((vs e.v0).level - (vs e.v1).level)
      -- Check that the levels differ by no more than one.
      if lvldiff > 1 ∨ lvldiff < -1 then none
      else some ⟨vs, s.nedge_traversed + 1⟩

/-- The body of the loop over the valid vertices. -/
def verify_vertex (root : ℤ) (vs : Vertices) (i : ℤ) : Bool :=
  i = root || (!((vs i).parent ≥ 0 && !(vs i).seen) && (vs i).parent ≠ i)

/-- The number of traversed edges. -/
def verify (g : Graph) (vs : Vertices) (root : ℤ) : Option ℕ :=
  if (vs root).parent = root then do
    let s ← g.edges.foldlM (verify_edge g.nv) ⟨vs, 0⟩
    if (List.range g.nv).all fun i : ℕ => !g.valid i || verify_vertex root s.vs i then
      some s.nedge_traversed
    else none
  else none

/-! ### The graph and the tree -/

variable (g : Graph)

/-- The vertices with these ids are in the graph. -/
def Graph.Has (i : ℤ) : Prop := 0 ≤ i ∧ i < g.nv

/-- There is an edge between two vertices of the graph. -/
def Graph.Adj (i j : ℤ) : Prop := (⟨i, j⟩ ∈ g.edges ∨ ⟨j, i⟩ ∈ g.edges) ∧ g.Has i ∧ g.Has j

/-- The parents are a breadth-first tree: from every vertex that has one they lead to the root in
    as many steps as the shortest walk from there has edges, and every vertex that can be reached
    has one. -/
def Graph.BfsTree (vs : Vertices) (root : ℤ) : Prop :=
  (∀ v, g.Has v → 0 ≤ (vs v).parent → ∃ k, Chain (fun v => (vs v).parent) root v k ∧
    IsLeast {d | Walk g.Adj root v d} k) ∧
  ∀ v d, Walk g.Adj root v d → 0 ≤ (vs v).parent

/-- Levels that belong to the parents and would pass the check of the edges. -/
structure Graph.Leveled (vs : Vertices) (root : ℤ) (level : ℤ → ℕ) : Prop where
  level_root : level root = 0
  parent : ∀ v, g.Has v → 0 ≤ (vs v).parent → v ≠ root → level v = level (vs v).parent + 1
  differ : ∀ i j, g.Adj i j → 0 ≤ (vs i).parent → level j ≤ level i + 1

/-! ### What the verifier finds -/

section spec

variable {g} {vs : Vertices} {root i j : ℤ} {s s' : Verifier} {e : Edge} {nv : ℕ}

theorem mark_seen_parent (v : ℤ) : (mark_seen vs i v).parent = (vs v).parent := by
  rw [mark_seen, Function.update_apply]
  split_ifs with h
  · rw [h]
  · rfl

theorem mark_seen_level (v : ℤ) : (mark_seen vs i v).level = (vs v).level := by
  rw [mark_seen, Function.update_apply]
  split_ifs with h
  · rw [h]
  · rfl

theorem seen_of_mark_seen {v : ℤ} (h : (mark_seen vs i v).seen = true) :
    (vs v).seen = true ∨ v = i := by
  by_cases hv : v = i
  · exact .inr hv
  · rw [mark_seen, Function.update_of_ne hv] at h
    exact .inl h

/-- What marking leaves: nothing but marks is changed, and a mark is at a vertex whose parent is
    the other end. -/
structure Marked (vs vs' : Vertices) (i j : ℤ) : Prop where
  parent : ∀ v, (vs' v).parent = (vs v).parent
  level : ∀ v, (vs' v).level = (vs v).level
  seen : ∀ v, (vs' v).seen = true → (vs v).seen = true ∨
    v = i ∧ (vs v).parent = j ∨ v = j ∧ (vs v).parent = i

theorem mark_child_spec (vs : Vertices) (i j : ℤ) : Marked vs (mark_child vs i j) i j := by
  rw [mark_child]
  split_ifs with hi
  · refine ⟨mark_seen_parent, mark_seen_level, fun v hv => ?_⟩
    rcases seen_of_mark_seen hv with hv | rfl
    · exact .inl hv
    · exact .inr (.inl ⟨rfl, hi⟩)
  · exact ⟨fun _ => rfl, fun _ => rfl, fun _ hv => .inl hv⟩

theorem mark_tree_edges_spec (vs : Vertices) (i j : ℤ) :
    Marked vs (mark_tree_edges vs i j) i j := by
  have hfirst := mark_child_spec vs i j
  have hsecond := mark_child_spec (mark_child vs i j) j i
  rw [mark_tree_edges]
  split_ifs
  · refine ⟨fun v => (hsecond.parent v).trans (hfirst.parent v),
      fun v => (hsecond.level v).trans (hfirst.level v), fun v hv => ?_⟩
    have hmark := hsecond.seen v hv
    rw [hfirst.parent] at hmark
    rcases hmark with hv | hj | hi
    · exact hfirst.seen v hv
    · exact .inr (.inr hj)
    · exact .inr (.inl hi)
  · exact ⟨fun _ => rfl, fun _ => rfl, fun _ hv => .inl hv⟩

/-- Both ends of an edge are in the graph. -/
def Inside (nv : ℕ) (e : Edge) : Prop := (0 ≤ e.v0 ∧ e.v0 < nv) ∧ 0 ≤ e.v1 ∧ e.v1 < nv

instance : Decidable (Inside nv e) := inferInstanceAs (Decidable (_ ∧ _))

/-- The edge is in the graph, and in the tree. -/
def Traversed (nv : ℕ) (vs : Vertices) (e : Edge) : Prop := Inside nv e ∧ 0 ≤ (vs e.v0).parent

instance : Decidable (Traversed nv vs e) := inferInstanceAs (Decidable (_ ∧ _))

/-- What is asked of an edge. -/
@[mk_iff] structure EdgeOk (nv : ℕ) (vs : Vertices) (e : Edge) : Prop where
  ends : 0 ≤ e.v0 → 0 ≤ e.v1 → (e.v0 < nv ↔ e.v1 < nv)
  tree : Inside nv e → (0 ≤ (vs e.v0).parent ↔ 0 ≤ (vs e.v1).parent)
  /-- The difference wraps around. -/
  differ : Traversed nv vs e → |FixedWidth.int64 ((vs e.v0).level - (vs e.v1).level)| ≤ 1

/-- What an edge that passes its checks leaves. -/
def after_edge (nv : ℕ) (s : Verifier) (e : Edge) : Verifier :=
  if Traversed nv s.vs e then ⟨mark_tree_edges s.vs e.v0 e.v1, s.nedge_traversed + 1⟩ else s

theorem verify_edge_iff :
    verify_edge nv s e = some s' ↔ EdgeOk nv s.vs e ∧ s' = after_edge nv s e := by
  have hlevel := (mark_tree_edges_spec s.vs e.v0 e.v1).level
  simp only [verify_edge, hlevel, edgeOk_iff, after_edge, Traversed, Inside, abs_le]
  split_ifs <;> (simp only [Option.some.injEq, eq_comm, false_iff]; grind)

theorem after_edge_parent (v : ℤ) : ((after_edge nv s e).vs v).parent = (s.vs v).parent := by
  unfold after_edge
  split_ifs
  · exact (mark_tree_edges_spec _ _ _).parent v
  · rfl

theorem after_edge_level (v : ℤ) : ((after_edge nv s e).vs v).level = (s.vs v).level := by
  unfold after_edge
  split_ifs
  · exact (mark_tree_edges_spec _ _ _).level v
  · rfl

theorem traversed_after_edge {e' : Edge} :
    Traversed nv (after_edge nv s e).vs e' ↔ Traversed nv s.vs e' := by
  rw [Traversed, Traversed, after_edge_parent]

theorem edgeOk_after_edge {e' : Edge} :
    EdgeOk nv (after_edge nv s e).vs e' ↔ EdgeOk nv s.vs e' := by
  simp only [edgeOk_iff, traversed_after_edge, after_edge_parent, after_edge_level]

theorem verify_edges_iff {edges : List Edge} : edges.foldlM (verify_edge nv) s = some s' ↔
    (∀ e ∈ edges, EdgeOk nv s.vs e) ∧ s' = edges.foldl (after_edge nv) s := by
  induction edges generalizing s with
  | nil => exact ⟨fun h => ⟨fun e he => absurd he List.not_mem_nil, (Option.some.inj h).symm⟩,
      fun h => congrArg some h.2.symm⟩
  | cons e edges ih =>
    rw [List.foldlM_cons, List.forall_mem_cons, and_assoc, List.foldl_cons]
    refine Option.bind_eq_some_iff.trans ?_
    simp only [verify_edge_iff, and_assoc, exists_and_left, exists_eq_left, ih,
      edgeOk_after_edge]

theorem mark_child_seen {v : ℤ} : ((mark_child vs i j) v).seen = true ↔
    (vs v).seen = true ∨ v = i ∧ (vs v).parent = j := by
  unfold mark_child mark_seen
  split_ifs with hi
  · by_cases hv : v = i
    · simp [hv, hi]
    · simp [hv]
  · grind

/-- The edge joins `v` to its parent. -/
def ToParent (vs : Vertices) (v : ℤ) (e : Edge) : Prop :=
  v = e.v0 ∧ (vs v).parent = e.v1 ∨ v = e.v1 ∧ (vs v).parent = e.v0

theorem mark_tree_edges_seen {v : ℤ} : ((mark_tree_edges vs e.v0 e.v1) v).seen = true ↔
    (vs v).seen = true ∨ e.v0 ≠ e.v1 ∧ ToParent vs v e := by
  rw [mark_tree_edges, ToParent]
  split_ifs with hne
  · simp only [mark_child_seen, (mark_child_spec vs e.v0 e.v1).parent, or_assoc, hne,
      ne_eq, not_false_eq_true, true_and]
  · simp [hne]

/-- The marks, and the number of edges, when the loop ends. -/
theorem verify_edges_seen {edges : List Edge} {v : ℤ} :
    (((edges.foldl (after_edge nv) s).vs v).parent = (s.vs v).parent) ∧
    (((edges.foldl (after_edge nv) s).vs v).seen = true ↔ (s.vs v).seen = true ∨
      ∃ e ∈ edges, Traversed nv s.vs e ∧ e.v0 ≠ e.v1 ∧ ToParent s.vs v e) ∧
    (edges.foldl (after_edge nv) s).nedge_traversed =
      s.nedge_traversed + edges.countP fun e => Traversed nv s.vs e := by
  induction edges generalizing s with
  | nil => simp
  | cons e edges ih =>
    obtain ⟨hparent, hseen, hcount⟩ := @ih (after_edge nv s e)
    -- what is asked of the later edges does not depend on the marks of the first
    have hto e' : ToParent (after_edge nv s e).vs v e' ↔ ToParent s.vs v e' := by
      rw [ToParent, ToParent, after_edge_parent]
    simp only [traversed_after_edge, hto] at hseen hcount
    rw [List.foldl_cons]
    refine ⟨hparent.trans (after_edge_parent v), ?_, ?_⟩
    · rw [hseen, List.exists_mem_cons_iff, ← or_assoc]
      refine or_congr_left ?_
      unfold after_edge
      split_ifs with htraversed
      · simp only [mark_tree_edges_seen, htraversed, true_and]
      · simp only [htraversed, false_and, or_false]
    · rw [hcount, List.countP_cons]
      unfold after_edge
      split_ifs <;> simp_all; omega

theorem verify_vertex_iff : verify_vertex root vs i = true ↔
    (i ≠ root → (vs i).parent ≠ i ∧ (0 ≤ (vs i).parent → (vs i).seen = true)) := by
  simp only [verify_vertex, Bool.or_eq_true, decide_eq_true_eq, Bool.and_eq_true,
    Bool.not_eq_true', Bool.and_eq_false_iff, decide_eq_false_iff_not, Bool.not_eq_false']
  grind

theorem adj_parent_iff {v : ℤ} (hedges : ∀ e ∈ g.edges, EdgeOk g.nv vs e)
    (hne : (vs v).parent ≠ v) (hpos : 0 ≤ (vs v).parent) :
    (∃ e ∈ g.edges, Traversed g.nv vs e ∧ e.v0 ≠ e.v1 ∧ ToParent vs v e) ↔
      g.Adj (vs v).parent v := by
  constructor
  · rintro ⟨e, hmem, ⟨⟨h0, h1⟩, -⟩, -, ⟨rfl, hp⟩ | ⟨rfl, hp⟩⟩
    · rw [hp]
      exact ⟨.inr hmem, h1, h0⟩
    · rw [hp]
      exact ⟨.inl hmem, h0, h1⟩
  · rintro ⟨hmem | hmem, hp, hv⟩
    · have hin : Inside g.nv ⟨(vs v).parent, v⟩ := ⟨hp, hv⟩
      exact ⟨_, hmem, ⟨hin, ((hedges _ hmem).tree hin).mpr hpos⟩, hne, .inr ⟨rfl, rfl⟩⟩
    · exact ⟨_, hmem, ⟨⟨hv, hp⟩, hpos⟩, hne.symm, .inl ⟨rfl, rfl⟩⟩

theorem verify_vertex_after (hedges : ∀ e ∈ g.edges, EdgeOk g.nv vs e) (v : ℤ) :
    verify_vertex root (g.edges.foldl (after_edge g.nv) ⟨vs, 0⟩).vs v = true ↔
      (v ≠ root → (vs v).parent ≠ v ∧
        (0 ≤ (vs v).parent → (vs v).seen = true ∨ g.Adj (vs v).parent v)) := by
  obtain ⟨hparent, hmarks, -⟩ := @verify_edges_seen ⟨vs, 0⟩ g.nv g.edges v
  rw [verify_vertex_iff, hparent, hmarks]
  refine imp_congr_right fun _ => and_congr_right fun hself => imp_congr_right fun hpos => ?_
  exact or_congr_right (adj_parent_iff hedges hself hpos)

theorem verify_spec {n : ℕ} (hseen : ∀ v, (vs v).seen = false) (h : verify g vs root = some n) :
    (vs root).parent = root ∧
    (∀ i j, g.Adj i j → (0 ≤ (vs i).parent ↔ 0 ≤ (vs j).parent)) ∧
    ∀ v, g.Has v → g.valid v = true → v ≠ root → 0 ≤ (vs v).parent →
      g.Adj (vs v).parent v := by
  rw [verify] at h
  split_ifs at h with hroot
  obtain ⟨s', hfold, hvertices⟩ := Option.bind_eq_some_iff.mp h
  split_ifs at hvertices with hall
  obtain ⟨hedges, rfl⟩ := verify_edges_iff.mp hfold
  refine ⟨hroot, ?_, ?_⟩
  · intro i j hij
    obtain ⟨hmem | hmem, hi, hj⟩ := hij
    · exact (hedges _ hmem).tree ⟨hi, hj⟩
    · exact ((hedges _ hmem).tree ⟨hj, hi⟩).symm
  · intro v hv hvalid hne hpos
    obtain ⟨i, rfl⟩ := Int.eq_ofNat_of_zero_le hv.1
    have hcheck := List.all_eq_true.mp hall i (List.mem_range.mpr (by have := hv.2; omega))
    rw [hvalid, Bool.not_true, Bool.false_or, verify_vertex_after hedges] at hcheck
    exact ((hcheck hne).2 hpos).resolve_left (by rw [hseen]; exact Bool.false_ne_true)

/-- **The verifier**, as a condition on what it is given, for a root that it may read. -/
theorem verify_iff (g : Graph) (vs : Vertices) (root : ℤ) (_hroot : g.Has root) (n : ℕ) :
    verify g vs root = some n ↔
      (vs root).parent = root ∧ (∀ e ∈ g.edges, EdgeOk g.nv vs e) ∧
      (∀ v, g.Has v → g.valid v = true → v ≠ root → (vs v).parent ≠ v ∧
        (0 ≤ (vs v).parent → (vs v).seen = true ∨ g.Adj (vs v).parent v)) ∧
      n = g.edges.countP fun e => Traversed g.nv vs e := by
  rw [verify]
  split_ifs with hroot
  · simp only [hroot, true_and]
    refine Option.bind_eq_some_iff.trans ?_
    simp only [verify_edges_iff, and_assoc, exists_and_left, exists_eq_left]
    refine and_congr_right fun hedges => ?_
    have hcount := (@verify_edges_seen ⟨vs, 0⟩ g.nv g.edges root).2.2
    rw [hcount, Nat.zero_add, ite_eq_iff]
    simp only [Option.some.injEq, reduceCtorEq, and_false, or_false, @eq_comm _ n]
    refine and_congr_left fun _ => ?_
    simp only [List.all_eq_true, List.mem_range, Bool.or_eq_true, Bool.not_eq_true',
      verify_vertex_after hedges]
    constructor
    · intro hall v hv hvalid
      obtain ⟨i, rfl⟩ := Int.eq_ofNat_of_zero_le hv.1
      exact (hall i (by have := hv.2; omega)).resolve_left (by rw [hvalid]; simp)
    · intro hall i hi
      cases hvalid : g.valid i with
      | false => exact .inl rfl
      | true => exact .inr (hall i ⟨Int.natCast_nonneg i, by exact_mod_cast hi⟩ hvalid)
  · simp [hroot]

/-- A vertex without edges has no parent. -/
def Graph.Confined (g : Graph) (vs : Vertices) (root : ℤ) : Prop :=
  ∀ v, g.Has v → g.valid v = false → v ≠ root → (vs v).parent < 0

theorem Graph.Adj.symm (h : g.Adj i j) : g.Adj j i := ⟨h.1.symm, h.2.2, h.2.1⟩

theorem Graph.Adj.valid (h : g.Adj i j) : g.valid i = true := by
  rcases h.1 with h | h
  · exact (g.valid_of_edge _ h).1
  · exact (g.valid_of_edge _ h).2

/-- The vertices with a parent are a tree as the verifier left it. -/
theorem members_of_verify {n : ℕ} (hroot : g.Has root) (hseen : ∀ v, (vs v).seen = false)
    (hconf : g.Confined vs root) (h : verify g vs root = some n) :
    ParentTree.Members g.Adj (fun v => (vs v).parent) root
      (fun v => g.Has v ∧ 0 ≤ (vs v).parent) := by
  obtain ⟨hself, hboth, hedge⟩ := verify_spec hseen h
  refine ⟨⟨hroot, hroot.1.trans_eq hself.symm⟩, fun u v huv => huv.symm, ?_, ?_⟩
  · intro u v huv hu
    exact ⟨huv.2.2, (hboth u v huv).mp hu.2⟩
  · intro v hv hne
    cases hvalid : g.valid v with
    | false => exact absurd (hconf v hv.1 hvalid hne) (Int.not_lt.mpr hv.2)
    | true => exact hedge v hv.1 hvalid hne hv.2

theorem valid_of_walk {d : ℕ} {v : ℤ} (h : Walk g.Adj root v d) (hne : v ≠ root) :
    g.valid v = true := by
  cases h with
  | nil => exact absurd rfl hne
  | snoc _ huv => exact huv.1.symm.valid

theorem Graph.Leveled.chain {level : ℤ → ℕ} (hl : g.Leveled vs root level)
    (hm : ParentTree.Members g.Adj (fun v => (vs v).parent) root
      (fun v => g.Has v ∧ 0 ≤ (vs v).parent)) (v : ℤ) (hv : g.Has v ∧ 0 ≤ (vs v).parent) :
    Chain (fun v => (vs v).parent) root v (level v) := by
  induction hk : level v generalizing v with
  | zero =>
    by_cases hne : v = root
    · subst hne
      exact .root
    · have := hl.parent v hv.1 hv.2 hne
      omega
  | succ k ih =>
    have hne : v ≠ root := by
      rintro rfl
      have := hl.level_root
      omega
    have hlevel := hl.parent v hv.1 hv.2 hne
    have hup := hm.neighbour _ _ (hm.symm _ _ (hm.parent v hv hne)) hv
    exact .step hne (ih _ hup (by omega))

/-- **Soundness of the verifier**: when it has been content with parents whose levels are all
    0, they are a breadth-first tree if and only if the vertices without edges, which it does not
    look at, have none, and there are levels that belong to the parents and differ by one at most
    along each edge. -/
theorem verify_sound_iff (g : Graph) (vs : Vertices) (root : ℤ) (n : ℕ) (hroot : g.Has root)
    (hinit : ∀ v, (vs v).level = 0 ∧ (vs v).seen = false) (h : verify g vs root = some n) :
    g.BfsTree vs root ↔ g.Confined vs root ∧ ∃ level, g.Leveled vs root level := by
  have hseen := fun v => (hinit v).2
  constructor
  · intro htree
    have hconf : g.Confined vs root := by
      intro v hv hvalid hne
      by_contra hpos
      obtain ⟨k, -, hwalk, -⟩ := htree.1 v hv (Int.not_lt.mp hpos)
      rw [valid_of_walk hwalk hne] at hvalid
      exact absurd hvalid Bool.true_eq_false.mp
    have hm := members_of_verify hroot hseen hconf h
    obtain ⟨hreach, hdiffer⟩ := hm.shortest_iff.mp fun v hv => htree.1 v hv.1 hv.2
    refine ⟨hconf, ?_⟩
    -- the level of a vertex of the tree is the number of steps to the root
    choose! level hlevel using hreach
    refine ⟨level, (hlevel root hm.root_mem).unique .root, ?_, ?_⟩
    · intro v hv hpos hne
      have hup := hm.neighbour _ _ (hm.symm _ _ (hm.parent v ⟨hv, hpos⟩ hne)) ⟨hv, hpos⟩
      exact (hlevel v ⟨hv, hpos⟩).unique (.step hne (hlevel _ hup))
    · intro i j hij hpos
      have hi : g.Has i ∧ 0 ≤ (vs i).parent := ⟨hij.2.1, hpos⟩
      exact hdiffer i j _ _ hi hij (hlevel i hi) (hlevel j (hm.neighbour i j hij hi))
  · rintro ⟨hconf, level, hl⟩
    have hm := members_of_verify hroot hseen hconf h
    have hchain := hl.chain hm
    have hshort := hm.shortest_iff.mpr ⟨fun v hv => ⟨_, hchain v hv⟩,
      fun u v k k' hu huv hk hk' => ?_⟩
    · exact ⟨fun v hv hpos => hshort v ⟨hv, hpos⟩, fun v d hwalk => (hm.of_walk hwalk).2⟩
    · rw [hk.unique (hchain u hu), hk'.unique (hchain v (hm.neighbour u v huv hu))]
      exact hl.differ u v huv hu.2

/-! ### A path, and a cycle of two -/

/-- `0 - 1 - 2`, searched from 0. -/
def path : Graph where
  nv := 3
  edges := [⟨0, 1⟩, ⟨1, 2⟩]
  valid _ := true
  valid_of_edge _ _ := ⟨rfl, rfl⟩

def path_parents : Vertices := fun v => ⟨if v = 2 then 1 else 0, 0, false⟩

theorem verify_sound_path : path.BfsTree path_parents 0 ↔
    path.Confined path_parents 0 ∧ ∃ level, path.Leveled path_parents 0 level :=
  verify_sound_iff path path_parents 0 2 (by unfold Graph.Has; decide) (fun _ => ⟨rfl, rfl⟩)
    (by decide +kernel)

/-- The path is accepted, and its two edges are counted. -/
theorem verify_path : verify path path_parents 0 = some 2 := by
  have hhas : path.Has 0 := by
    unfold Graph.Has
    decide
  refine (verify_iff path path_parents 0 hhas 2).mpr ⟨rfl, ?_, ?_, by decide⟩
  · intro e he
    rw [edgeOk_iff]
    revert e
    decide
  · intro v hv _ hne
    obtain ⟨hlo, hhi⟩ := hv
    obtain rfl | rfl : v = 1 ∨ v = 2 := by
      simp only [path] at hhi
      omega
    all_goals
      refine ⟨by decide, fun _ => .inr ?_⟩
      unfold Graph.Adj Graph.Has
      decide

/-- `0 - 3` and `1 - 2`. -/
def two_edges : Graph where
  nv := 4
  edges := [⟨0, 3⟩, ⟨1, 2⟩]
  valid _ := true
  valid_of_edge _ _ := ⟨rfl, rfl⟩

/-- The parents of 1 and 2 are each other. -/
def cycle_parents : Vertices := fun v => ⟨if v = 1 then 2 else if v = 2 then 1 else 0, 0, false⟩

theorem not_chain_of_cycle {v : ℤ} {k : ℕ} (h : Chain (fun v => (cycle_parents v).parent) 0 v k)
    (hv : v = 1 ∨ v = 2) : False := by
  induction h with
  | root => omega
  | @step v k _ _ ih =>
    rcases hv with rfl | rfl
    · exact ih (.inr rfl)
    · exact ih (.inl rfl)

/-- The verifier is content with a cycle of two vertices that the root does not reach. -/
theorem verify_not_sound : verify two_edges cycle_parents 0 = some 2 ∧
    (∀ v, (cycle_parents v).level = 0 ∧ (cycle_parents v).seen = false) ∧
    ¬two_edges.BfsTree cycle_parents 0 := by
  refine ⟨by decide +kernel, fun v => ⟨rfl, rfl⟩, ?_⟩
  intro htree
  have hhas : two_edges.Has 1 := by
    unfold Graph.Has
    decide
  have hpos : 0 ≤ (cycle_parents 1).parent := by decide
  obtain ⟨k, hk, -⟩ := htree.1 1 hhas hpos
  exact not_chain_of_cycle hk (.inl rfl)

end spec

end Grappa.BfsVerifier
