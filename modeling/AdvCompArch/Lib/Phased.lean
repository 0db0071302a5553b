import AdvCompArch.Lib.Termination
import Mathlib.Algebra.BigOperators.Group.Multiset.Basic

/-! # Programs in phases

    A main task spawns work, waits until all of it is done, and then spawns more or returns.
    The work of a phase is a pool of items over a shared state: an item that can go on changes
    the state and spawns further items, and any item of the pool can be the next.

    * `Reachable.inv`: what the items and the main task keep holds in every reachable state.
    * `run_inv`: the same along a run whose items meet a condition.
    * `terminates`: a measure that the items and the main task make smaller bounds every run.
    * `run_to_halt`: some run from a state then ends.
    * `ended_of_stuck`: where every item can go on, a run can only end with the main task.

    The rules see the pool as a multiset, so that no invariant depends on its order. -/

namespace Phased

open Transition

variable {σ Item α : Type*}

structure Program (σ Item : Type*) where
  /-- The state after an item, and what it spawns; `none` while the item cannot go on. -/
  exec : σ → Item → Option (σ × List Item)
  /-- What the main task does when all is done; `none` when it returns. -/
  advance : σ → Option (σ × List Item)

structure State (σ Item : Type*) where
  shared : σ
  pool : List Item

/-- The item at an index of the pool goes on, or the main task. -/
inductive Label
  | item (k : ℕ)
  | advance
  deriving DecidableEq

namespace Program

variable (prog : Program σ Item)

def next (s : State σ Item) : Label → Option (State σ Item)
  | .item k =>
    s.pool[k]?.bind fun x => (prog.exec s.shared x).map fun r => ⟨r.1, s.pool.eraseIdx k ++ r.2⟩
  | .advance =>
    if s.pool.isEmpty then (prog.advance s.shared).map fun r => ⟨r.1, r.2⟩ else none

/-- The program, from a state of the main task with nothing spawned yet. -/
def system (init : σ) : Transition.System (State σ Item) Label := ⟨⟨init, []⟩, prog.next⟩

/-- Nothing is left to do, and the main task has returned. -/
def Ended (s : State σ Item) : Prop := s.pool = [] ∧ prog.advance s.shared = none

/-- The runs in which every item meets `P` when it goes on. -/
def restrict (P : σ → Item → Prop) [∀ t x, Decidable (P t x)] : Program σ Item where
  exec := fun t x => if P t x then prog.exec t x else none
  advance := prog.advance

variable {prog} {s s' : State σ Item} {init : σ}

/-- The item that goes on, if it is one, meets `P` in the state before. -/
def Meets (P : σ → Item → Prop) (s : State σ Item) : Label → Prop
  | .item k => ∀ x ∈ s.pool[k]?, P s.shared x
  | .advance => True

instance {P : σ → Item → Prop} [∀ t x, Decidable (P t x)] (s : State σ Item) :
    ∀ l, Decidable (Meets P s l)
  | .item k => inferInstanceAs (Decidable (∀ x ∈ s.pool[k]?, P s.shared x))
  | .advance => inferInstanceAs (Decidable True)

/-! ### Steps -/

theorem next_item {k : ℕ} (h : prog.next s (.item k) = some s') :
    ∃ x ∈ s.pool[k]?, ∃ rest new, (s.pool : Multiset Item) = x ::ₘ rest ∧
      prog.exec s.shared x = some (s'.shared, new) ∧ (s'.pool : Multiset Item) = rest + new := by
  obtain ⟨x, hx, hmap⟩ := Option.bind_eq_some_iff.mp h
  obtain ⟨r, hr, rfl⟩ := Option.map_eq_some_iff.mp hmap
  obtain ⟨hlt, hget⟩ := List.getElem?_eq_some_iff.mp hx
  refine ⟨x, hx, s.pool.eraseIdx k, r.2, ?_, hr, ?_⟩
  · rw [← hget, Multiset.cons_coe, Multiset.coe_eq_coe]
    exact (List.getElem_cons_eraseIdx_perm hlt).symm
  · rw [Multiset.coe_add]

theorem next_advance (h : prog.next s .advance = some s') :
    s.pool = [] ∧ ∃ new, prog.advance s.shared = some (s'.shared, new) ∧ s'.pool = new := by
  simp only [next] at h
  split at h
  · rename_i hempty
    obtain ⟨r, hr, rfl⟩ := Option.map_eq_some_iff.mp h
    exact ⟨List.isEmpty_iff.mp hempty, r.2, hr, rfl⟩
  · cases h

/-- An item that is in the pool and can go on gives a step. -/
theorem exists_next_of_mem {x : Item} (hx : x ∈ s.pool) {r : σ × List Item}
    (hr : prog.exec s.shared x = some r) : ∃ k, prog.next s (.item k) ≠ none := by
  obtain ⟨k, hk, rfl⟩ := List.getElem_of_mem hx
  refine ⟨k, ?_⟩
  simp [next, hk, hr]

/-! ### Rules -/

section rules

variable {Inv : σ → Multiset Item → Prop}

/-- **Step rule**: what the items that meet a condition and the main task keep is kept by every
    step whose item meets it. -/
theorem next_inv {P : σ → Item → Prop}
    (hexec : ∀ t x rest t' new, Inv t (x ::ₘ rest) → P t x → prog.exec t x = some (t', new) →
      Inv t' (rest + new))
    (hadvance : ∀ t t' new, Inv t 0 → prog.advance t = some (t', new) → Inv t' new)
    {l : Label} (hs : Inv s.shared s.pool) (hP : Meets P s l) (h : prog.next s l = some s') :
    Inv s'.shared s'.pool := by
  cases l with
  | item k =>
    obtain ⟨x, hget, rest, new, hpool, hx, hpool'⟩ := next_item h
    rw [hpool] at hs
    rw [hpool']
    exact hexec _ x rest _ new hs (hP x hget) hx
  | advance =>
    obtain ⟨hpool, new, hx, hpool'⟩ := next_advance h
    rw [hpool] at hs
    rw [hpool']
    exact hadvance _ _ new hs hx

variable (Inv) in
theorem Reachable.inv (hinit : Inv init 0)
    (hexec : ∀ t x rest t' new, Inv t (x ::ₘ rest) → prog.exec t x = some (t', new) →
      Inv t' (rest + new))
    (hadvance : ∀ t t' new, Inv t 0 → prog.advance t = some (t', new) → Inv t' new)
    (hs : (prog.system init).Reachable s) : Inv s.shared s.pool :=
  System.Reachable.invariant (fun s => Inv s.shared s.pool) hinit
    (fun _ l _ h => next_inv (P := fun _ _ => True) (fun t x rest t' new h _ => hexec t x rest t' new h)
      hadvance h (by cases l <;> simp [Meets])) hs

variable (Inv) in
theorem run_inv {P : σ → Item → Prop} (hinit : Inv init 0)
    (hexec : ∀ t x rest t' new, Inv t (x ::ₘ rest) → P t x → prog.exec t x = some (t', new) →
      Inv t' (rest + new))
    (hadvance : ∀ t t' new, Inv t 0 → prog.advance t = some (t', new) → Inv t' new)
    {ls : List Label} (hP : (prog.system init).Always (Meets P) ⟨init, []⟩ ls)
    (hrun : (prog.system init).run ⟨init, []⟩ ls = some s) : Inv s.shared s.pool :=
  System.invariant_under (fun s => Inv s.shared s.pool)
    (fun _ _ _ h hP => next_inv hexec hadvance h hP) hinit hP hrun

/-- **Measure rule**: a measure that the items and the main task make smaller is made smaller by
    every step. -/
theorem next_lt [LT α] {μ : σ → Multiset Item → α}
    (hexec : ∀ t x rest t' new, Inv t (x ::ₘ rest) → prog.exec t x = some (t', new) →
      Inv t' (rest + new) ∧ μ t' (rest + new) < μ t (x ::ₘ rest))
    (hadvance : ∀ t t' new, Inv t 0 → prog.advance t = some (t', new) →
      Inv t' new ∧ μ t' new < μ t 0)
    {l : Label} (hs : Inv s.shared s.pool) (h : prog.next s l = some s') :
    Inv s'.shared s'.pool ∧ μ s'.shared s'.pool < μ s.shared s.pool := by
  cases l with
  | item k =>
    obtain ⟨x, -, rest, new, hpool, hx, hpool'⟩ := next_item h
    rw [hpool] at hs
    rw [hpool, hpool']
    exact hexec _ x rest _ new hs hx
  | advance =>
    obtain ⟨hpool, new, hx, hpool'⟩ := next_advance h
    rw [hpool] at hs
    rw [hpool, hpool']
    exact hadvance _ _ new hs hx

/-- **Termination rule**: the items and the main task keep an invariant and make a measure
    smaller. -/
theorem terminates [LT α] [WellFoundedLT α] (μ : σ → Multiset Item → α) (hinit : Inv init 0)
    (hexec : ∀ t x rest t' new, Inv t (x ::ₘ rest) → prog.exec t x = some (t', new) →
      Inv t' (rest + new) ∧ μ t' (rest + new) < μ t (x ::ₘ rest))
    (hadvance : ∀ t t' new, Inv t 0 → prog.advance t = some (t', new) →
      Inv t' new ∧ μ t' new < μ t 0) :
    (prog.system init).Terminates (prog.system init).init :=
  System.terminates_of_measure (fun s => Inv s.shared s.pool)
    (fun s => μ s.shared s.pool) (fun _ _ _ hs h => next_lt hexec hadvance hs h) hinit

theorem run_to_halt {μ : σ → Multiset Item → ℕ} (hs : Inv s.shared s.pool)
    (hexec : ∀ t x rest t' new, Inv t (x ::ₘ rest) → prog.exec t x = some (t', new) →
      Inv t' (rest + new) ∧ μ t' (rest + new) < μ t (x ::ₘ rest))
    (hadvance : ∀ t t' new, Inv t 0 → prog.advance t = some (t', new) →
      Inv t' new ∧ μ t' new < μ t 0) :
    ∃ ls s', (prog.system init).run s ls = some s' ∧ Inv s'.shared s'.pool ∧
      ∀ l, prog.next s' l = none :=
  (prog.system init).run_to_halt (fun s => Inv s.shared s.pool) (fun s => μ s.shared s.pool)
    (fun _ _ _ hs h => next_lt hexec hadvance hs h) hs

end rules

theorem exec_eq_none_of_stuck {x : Item} (hx : x ∈ s.pool) (hstuck : ∀ l, prog.next s l = none) :
    prog.exec s.shared x = none := by
  by_contra hgo
  obtain ⟨r, hr⟩ := Option.ne_none_iff_exists'.mp hgo
  obtain ⟨k, hk⟩ := exists_next_of_mem hx hr
  exact hk (hstuck (.item k))

theorem ended_of_stuck (hgo : ∀ x ∈ s.pool, prog.exec s.shared x ≠ none)
    (hstuck : ∀ l, prog.next s l = none) : prog.Ended s := by
  have hpool : s.pool = [] :=
    List.eq_nil_iff_forall_not_mem.mpr fun x hx => hgo x hx (exec_eq_none_of_stuck hx hstuck)
  refine ⟨hpool, ?_⟩
  have h := hstuck .advance
  simpa [next, hpool] using h

end Program

end Phased
