import AdvCompArch.Lib.Walks
import Mathlib.Algebra.Order.Ring.Nat

/-! # Trees of parent pointers

    A set of vertices with a parent for each of them is a breadth-first tree if the parents
    lead to the root in as many steps as the shortest walk has edges.  Where the parents are
    neighbours and all of them lead to the root, this is a local matter: the numbers of steps
    of two neighbours differ by one at most. -/

namespace ParentTree

variable {V : Type*} {up : V → V} {root u v : V} {k k' d : ℕ}

/-- The parents lead from a vertex to the root, which they reach after `k` steps. -/
inductive Chain (up : V → V) (root : V) : V → ℕ → Prop
  | root : Chain up root root 0
  | step {v : V} {k : ℕ} : v ≠ root → Chain up root (up v) k → Chain up root v (k + 1)

theorem Chain.unique (h : Chain up root v k) (h' : Chain up root v k') : k = k' := by
  induction h generalizing k' with
  | root =>
    cases h' with
    | root => rfl
    | step hne _ => exact absurd rfl hne
  | step hne _ ih =>
    cases h' with
    | root => exact absurd rfl hne
    | step _ h' => rw [ih h']

/-- A walk along edges, with their number. -/
abbrev Walk (adj : V → V → Prop) (root : V) : V → ℕ → Prop :=
  Walks.Walk (fun u v w => adj u v ∧ w = 1) root

theorem Walk.cons {adj : V → V → Prop} (h : Walk adj root u d) (huv : adj u v) :
    Walk adj root v (d + 1) := h.snoc ⟨huv, rfl⟩

/-- The members of a tree: with a vertex its neighbours, and with a vertex other than the root an
    edge from its parent. -/
structure Members (adj : V → V → Prop) (up : V → V) (root : V) (tree : V → Prop) : Prop where
  root_mem : tree root
  symm : ∀ u v, adj u v → adj v u
  neighbour : ∀ u v, adj u v → tree u → tree v
  parent : ∀ v, tree v → v ≠ root → adj (up v) v

section

variable {adj : V → V → Prop} {tree : V → Prop} (hm : Members adj up root tree)

include hm

/-- Whatever can be reached is in the tree. -/
theorem Members.of_walk (h : Walk adj root v d) : tree v := by
  induction h with
  | nil => exact hm.root_mem
  | snoc _ huv ih => exact hm.neighbour _ _ huv.1 ih

theorem Members.walk (h : Chain up root v k) (hv : tree v) : Walk adj root v k := by
  induction h with
  | root => exact .nil
  | @step v k hne _ ih =>
    have hadj := hm.parent v hv hne
    exact (ih (hm.neighbour _ _ (hm.symm _ _ hadj) hv)).cons hadj

theorem Members.le_walk (hreach : ∀ v, tree v → ∃ k, Chain up root v k)
    (hclose : ∀ u v k k', tree u → adj u v → Chain up root u k → Chain up root v k' → k' ≤ k + 1)
    (h : Walk adj root v d) (hk : Chain up root v k) : k ≤ d := by
  induction h generalizing k with
  | nil => rw [hk.unique .root]
  | @snoc u v d w hwalk huv ih =>
    have hu := hm.of_walk hwalk
    obtain ⟨k', hk'⟩ := hreach u hu
    have hle := ih hk'
    have hstep := hclose u v k' k hu huv.1 hk' hk
    rw [huv.2]
    exact hstep.trans (Nat.add_le_add_right hle 1)

/-- **The parents are shortest walks** if and only if they all lead to the root, and neighbours
    differ by one step at most. -/
theorem Members.shortest_iff :
    (∀ v, tree v → ∃ k, Chain up root v k ∧ IsLeast {d | Walk adj root v d} k) ↔
      (∀ v, tree v → ∃ k, Chain up root v k) ∧
        ∀ u v k k', tree u → adj u v → Chain up root u k → Chain up root v k' → k' ≤ k + 1 := by
  constructor
  · intro h
    refine ⟨fun v hv => (h v hv).imp fun k hk => hk.1, ?_⟩
    intro u v k k' hu huv hk hk'
    obtain ⟨d, hd, hleast⟩ := h v (hm.neighbour u v huv hu)
    rw [hk'.unique hd]
    exact hleast.2 ((hm.walk hk hu).cons huv)
  · intro h v hv
    obtain ⟨k, hk⟩ := h.1 v hv
    exact ⟨k, hk, hm.walk hk hv, fun d hd => hm.le_walk h.1 h.2 hd hk⟩

end

end ParentTree
