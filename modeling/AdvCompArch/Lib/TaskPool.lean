import AdvCompArch.Lib.Transition
import Mathlib.Algebra.Order.BigOperators.Group.List
import Mathlib.Tactic.Abel

/-! # Pools of spawned work

    A program takes one item of work, emits some outputs and spawns more items.
    The pool executes its items one at a time in any order.

    * `conserved`: a weight that every execution passes on from the item to its
      outputs and its children is conserved by every run.
    * `length_le_of_run`: if every item is larger than its children together, runs
      are bounded by the size of the initial pool.
    * `drains`: a run that cannot be continued has emptied the pool. -/

namespace TaskPool

variable {Item Out M : Type*}

/-- What executing one item of work emits and spawns. -/
structure Program (Item Out : Type*) where
  exec : Item → List Out × List Item

structure State (Item Out : Type*) where
  pool : List Item
  log : List Out
  deriving DecidableEq

namespace Program

variable (prog : Program Item Out)

/-- Execute the item at index `k` of the pool. -/
def next (s : State Item Out) (k : ℕ) : Option (State Item Out) :=
  match s.pool[k]? with
  | none => none
  | some item => some ⟨s.pool.eraseIdx k ++ (prog.exec item).2, s.log ++ (prog.exec item).1⟩

/-- The pool `items` as a system: its labels choose the next item by index. -/
def system (items : List Item) : Transition.System (State Item Out) ℕ :=
  ⟨⟨items, []⟩, prog.next⟩

variable {prog}

/-- What a step does: it takes out one item and appends the outputs and the children. -/
theorem next_cases {s s' : State Item Out} {k : ℕ} (h : prog.next s k = some s') :
    ∃ item rest, s.pool.Perm (item :: rest) ∧ s'.pool.Perm (rest ++ (prog.exec item).2) ∧
      s'.log = s.log ++ (prog.exec item).1 := by
  unfold next at h
  cases hk : s.pool[k]? with
  | none => simp [hk] at h
  | some item =>
    simp only [hk] at h
    cases h
    obtain ⟨hlt, hget⟩ := List.getElem?_eq_some_iff.mp hk
    refine ⟨item, s.pool.eraseIdx k, ?_, List.Perm.refl _, rfl⟩
    rw [← hget]
    exact (List.getElem_cons_eraseIdx_perm hlt).symm

/-! ### Invariants of the items -/

variable {Ok : Item → Prop}

theorem next_ok (hchild : ∀ item, Ok item → ∀ j ∈ (prog.exec item).2, Ok j)
    {s s' : State Item Out} {k : ℕ} (hok : ∀ item ∈ s.pool, Ok item)
    (h : prog.next s k = some s') : ∀ item ∈ s'.pool, Ok item := by
  intro j hj
  obtain ⟨item, rest, hpool, hpool', -⟩ := next_cases h
  have hitem : Ok item := hok item (hpool.mem_iff.mpr (by simp))
  rcases List.mem_append.mp (hpool'.mem_iff.mp hj) with hrest | hnew
  · exact hok j (hpool.mem_iff.mpr (by simp [hrest]))
  · exact hchild item hitem j hnew

/-! ### Conservation -/

section conservation

variable [AddCommMonoid M] {w : Out → M} {v : Item → M}

/-- The weight of a state: what was emitted and what is still to be done. -/
def weight (w : Out → M) (v : Item → M) (s : State Item Out) : M :=
  (s.log.map w).sum + (s.pool.map v).sum

theorem next_weight
    (hexec : ∀ item, Ok item →
      v item = ((prog.exec item).1.map w).sum + ((prog.exec item).2.map v).sum)
    {s s' : State Item Out} {k : ℕ} (hok : ∀ item ∈ s.pool, Ok item)
    (h : prog.next s k = some s') : weight w v s' = weight w v s := by
  obtain ⟨item, rest, hpool, hpool', hlog⟩ := next_cases h
  have hitem : Ok item := hok item (hpool.mem_iff.mpr (by simp))
  unfold weight
  rw [hlog, (hpool.map v).sum_eq, (hpool'.map v).sum_eq]
  simp only [List.map_append, List.sum_append, List.map_cons, List.sum_cons]
  rw [hexec item hitem]
  abel

/-- **Conservation**: the outputs of a run and the work left in the pool together weigh
    what the initial pool weighed. -/
theorem conserved (hchild : ∀ item, Ok item → ∀ j ∈ (prog.exec item).2, Ok j)
    (hexec : ∀ item, Ok item →
      v item = ((prog.exec item).1.map w).sum + ((prog.exec item).2.map v).sum)
    {items : List Item} (hok : ∀ item ∈ items, Ok item) {s : State Item Out}
    (hs : (prog.system items).Reachable s) :
    (s.log.map w).sum + (s.pool.map v).sum = (items.map v).sum := by
  have hinv := Transition.System.Reachable.invariant
    (fun s => (∀ item ∈ s.pool, Ok item) ∧ weight w v s = (items.map v).sum)
    ⟨hok, by simp [weight, system]⟩
    (fun _ _ _ hinv hstep =>
      ⟨next_ok hchild hinv.1 hstep, (next_weight hexec hinv.1 hstep).trans hinv.2⟩) hs
  exact hinv.2

end conservation

/-! ### Termination -/

theorem next_size {size : Item → ℕ}
    (hsize : ∀ item, Ok item → ((prog.exec item).2.map size).sum < size item)
    {s s' : State Item Out} {k : ℕ} (hok : ∀ item ∈ s.pool, Ok item)
    (h : prog.next s k = some s') : (s'.pool.map size).sum < (s.pool.map size).sum := by
  obtain ⟨item, rest, hpool, hpool', -⟩ := next_cases h
  have hlt := hsize item (hok item (hpool.mem_iff.mpr (by simp)))
  rw [(hpool.map size).sum_eq, (hpool'.map size).sum_eq]
  simp only [List.map_append, List.sum_append, List.map_cons, List.sum_cons]
  omega

theorem length_le_of_run {size : Item → ℕ}
    (hchild : ∀ item, Ok item → ∀ j ∈ (prog.exec item).2, Ok j)
    (hsize : ∀ item, Ok item → ((prog.exec item).2.map size).sum < size item)
    {items : List Item} (hok : ∀ item ∈ items, Ok item) {ks : List ℕ} {s' : State Item Out}
    (hrun : (prog.system items).run (prog.system items).init ks = some s') :
    ks.length ≤ (items.map size).sum := by
  have hgen : ∀ (ks : List ℕ) (s : State Item Out), (∀ item ∈ s.pool, Ok item) →
      (prog.system items).run s ks = some s' → ks.length ≤ (s.pool.map size).sum := by
    intro ks
    induction ks with
    | nil => intros; simp
    | cons k ks ih =>
      intro s hs hrun
      obtain ⟨t, hk, ht⟩ := Transition.System.run_cons.mp hrun
      have hlt := next_size hsize hs hk
      have hle := ih t (next_ok hchild hs hk) ht
      rw [List.length_cons]
      omega
  exact hgen ks _ hok hrun

theorem drains {s : State Item Out} (hstuck : ∀ k, prog.next s k = none) : s.pool = [] := by
  cases hp : s.pool with
  | nil => rfl
  | cons item rest =>
    have h0 := hstuck 0
    simp [next, hp] at h0

end Program

end TaskPool
