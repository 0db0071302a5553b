import AdvCompArch.Lib.Subtasks
import Mathlib.Algebra.Order.BigOperators.Group.Multiset
import Mathlib.Data.Multiset.Fintype
import Mathlib.Tactic.Abel

/-! # Exchange, then count

    A program in two phases.  First tasks spawn further tasks and send entries to boxes, and all
    of this runs in any order.  When nothing is left of it, each of a number of parties counts
    something in the boxes.

    * `returned_spec`: in the end each box has what the tasks send to it, in some order, and each
      party has counted once, in these boxes.
    * `terminates`, `returns_of_stuck`: every run comes to this end. -/

namespace Exchange

open Phased Multiset Function

structure Plan (τ κ ε β : Type) where
  parties : ℕ
  roots : List τ
  /-- What a task spawns, and the entries that it sends, each to a box. -/
  step : τ → List τ × List (κ × ε)
  /-- What a party finds in the boxes. -/
  count : ℕ → (κ → List ε) → List β

inductive Phase
  | start
  | exchange
  | count
  | returned
  deriving DecidableEq

structure State (κ ε β : Type) where
  phase : Phase
  boxes : κ → List ε
  results : ℕ → List β

inductive Item (τ κ ε : Type)
  | task (t : τ)
  | deliver (k : κ) (e : ε)
  | count (c : ℕ)

variable {τ κ ε β : Type} [DecidableEq κ]

namespace Plan

variable (plan : Plan τ κ ε β)

def exec (s : State κ ε β) : Item τ κ ε → Option (State κ ε β × List (Item τ κ ε))
  | .task t =>
    some (s, (plan.step t).1.map Item.task ++ (plan.step t).2.map fun m => Item.deliver m.1 m.2)
  | .deliver k e => some ({ s with boxes := Function.update s.boxes k (s.boxes k ++ [e]) }, [])
  | .count c =>
    some ({ s with
      results := Function.update s.results c (s.results c ++ plan.count c s.boxes) }, [])

def advance (s : State κ ε β) : Option (State κ ε β × List (Item τ κ ε)) :=
  match s.phase with
  | .start => some ({ s with phase := .exchange }, plan.roots.map Item.task)
  | .exchange => some ({ s with phase := .count }, (List.range plan.parties).map Item.count)
  | .count => some ({ s with phase := .returned }, [])
  | .returned => none

def program : Program (State κ ε β) (Item τ κ ε) := ⟨plan.exec, plan.advance⟩

end Plan

/-- Nothing has been sent and nothing counted. -/
def init : State κ ε β := ⟨.start, fun _ => [], fun _ => []⟩

variable {plan : Plan τ κ ε β}

/-! ### What is sent -/

/-- The entries for a box. -/
def part (k : κ) (ms : Multiset (κ × ε)) : Multiset ε :=
  (ms.filter fun m => m.1 = k).map Prod.snd

@[simp] theorem part_zero (k : κ) : part k (0 : Multiset (κ × ε)) = 0 := rfl

@[simp] theorem part_add (k : κ) (ms ms' : Multiset (κ × ε)) :
    part k (ms + ms') = part k ms + part k ms' := by
  rw [part, filter_add, map_add]
  rfl

theorem part_singleton (k k' : κ) (e : ε) :
    part k {(k', e)} = if k' = k then {e} else 0 := by
  rw [part, filter_singleton]
  split_ifs <;> rfl

theorem mem_part {k : κ} {e : ε} {ms : Multiset (κ × ε)} : e ∈ part k ms ↔ (k, e) ∈ ms := by
  simp [part]

/-- What a task and the tasks that it spawns send together. -/
def Sends (plan : Plan τ κ ε β) (messages : τ → Multiset (κ × ε)) : Prop :=
  ∀ t, messages t = ((plan.step t).1.map messages).sum + ((plan.step t).2 : Multiset (κ × ε))

/-- What is still to be sent, or on its way. -/
def Item.messages (messages : τ → Multiset (κ × ε)) : Item τ κ ε → Multiset (κ × ε)
  | .task t => messages t
  | .deliver k e => {(k, e)}
  | .count _ => 0

section conservation

variable (messages : τ → Multiset (κ × ε))

def pending (pool : Multiset (Item τ κ ε)) : Multiset (κ × ε) :=
  (pool.map (Item.messages messages)).sum

/-- All that the plan sends. -/
def Plan.sent (plan : Plan τ κ ε β) : Multiset (κ × ε) := (plan.roots.map messages).sum

omit [DecidableEq κ] in
@[simp] theorem pending_zero : pending messages (0 : Multiset (Item τ κ ε)) = 0 := rfl

omit [DecidableEq κ] in
@[simp] theorem pending_cons (x : Item τ κ ε) (pool : Multiset (Item τ κ ε)) :
    pending messages (x ::ₘ pool) = x.messages messages + pending messages pool := by
  simp [pending]

omit [DecidableEq κ] in
@[simp] theorem pending_add (pool pool' : Multiset (Item τ κ ε)) :
    pending messages (pool + pool') = pending messages pool + pending messages pool' := by
  simp [pending]

omit [DecidableEq κ] in
theorem pending_tasks (ts : List τ) :
    pending messages ((ts.map Item.task : List (Item τ κ ε)) : Multiset (Item τ κ ε)) =
      (ts.map messages).sum := by
  simp [pending, comp_def, Item.messages]

omit [DecidableEq κ] in
theorem pending_deliveries (ms : List (κ × ε)) :
    pending messages ((ms.map fun m => (Item.deliver m.1 m.2 : Item τ κ ε) : List (Item τ κ ε)) :
      Multiset (Item τ κ ε)) = ms := by
  induction ms with
  | nil => rfl
  | cons m ms ih =>
    rw [List.map_cons, ← cons_coe, pending_cons, ih, ← cons_coe]
    rfl

omit [DecidableEq κ] in
theorem pending_step (h : Sends plan messages) (t : τ) :
    pending messages (((plan.step t).1.map Item.task ++
      (plan.step t).2.map fun m => Item.deliver m.1 m.2 : List (Item τ κ ε)) :
        Multiset (Item τ κ ε)) = messages t := by
  rw [← coe_add, pending_add, pending_tasks, pending_deliveries, ← h t]

end conservation

/-! ### The invariant -/

/-- Each box has what has been sent to it and is not still to come. -/
def Filled (plan : Plan τ κ ε β) (messages : τ → Multiset (κ × ε)) (boxes : κ → List ε)
    (pool : Multiset (Item τ κ ε)) : Prop :=
  ∀ k, (boxes k : Multiset ε) + part k (pending messages pool) = part k (plan.sent messages)

/-- The parties that are not in `todo` have counted. -/
def Counted (plan : Plan τ κ ε β) (s : State κ ε β) (todo : Multiset ℕ) : Prop :=
  ∀ c, s.results c = if c < plan.parties ∧ c ∉ todo then plan.count c s.boxes else []

def Inv (plan : Plan τ κ ε β) (messages : τ → Multiset (κ × ε)) (s : State κ ε β)
    (pool : Multiset (Item τ κ ε)) : Prop :=
  match s.phase with
  | .start => s = init ∧ pool = 0
  | .exchange => Filled plan messages s.boxes pool ∧ (∀ c, Item.count c ∉ pool) ∧
      s.results = fun _ => []
  | .count => Filled plan messages s.boxes 0 ∧ ∃ todo : Multiset ℕ, todo.Nodup ∧
      (∀ c ∈ todo, c < plan.parties) ∧ pool = todo.map Item.count ∧ Counted plan s todo
  | .returned => pool = 0 ∧ Filled plan messages s.boxes 0 ∧ Counted plan s 0

variable {messages : τ → Multiset (κ × ε)} {s s' : State κ ε β} {x : Item τ κ ε}
  {rest : Multiset (Item τ κ ε)} {new : List (Item τ κ ε)}

theorem Filled.deliver {boxes : κ → List ε} {k : κ} {e : ε}
    (h : Filled plan messages boxes (.deliver k e ::ₘ rest)) :
    Filled plan messages (Function.update boxes k (boxes k ++ [e])) rest := by
  intro k'
  have hk := h k'
  rw [pending_cons, part_add, Item.messages, part_singleton] at hk
  by_cases heq : k = k'
  · subst heq
    rw [if_pos rfl] at hk
    rw [update_self, ← hk, ← coe_add, coe_singleton]
    abel
  · rw [if_neg heq, zero_add] at hk
    rw [update_of_ne (Ne.symm heq), hk]

theorem exec_inv (hsends : Sends plan messages) (h : Inv plan messages s (x ::ₘ rest))
    (hx : plan.exec s x = some (s', new)) : Inv plan messages s' (rest + new) := by
  unfold Inv at h
  split at h <;> rename_i hphase
  · exact absurd h.2 (cons_ne_zero)
  · obtain ⟨hfilled, hcounts, hresults⟩ := h
    have hrest : ∀ c, Item.count c ∉ rest := fun c hc => hcounts c (mem_cons_of_mem hc)
    cases x with
    | task t =>
      cases hx
      rw [Inv, hphase]
      refine ⟨fun k => ?_, fun c hc => ?_, hresults⟩
      · rw [← hfilled k, pending_add, pending_step messages hsends, pending_cons,
          add_comm (pending _ _)]
        rfl
      · rcases mem_add.mp hc with hc | hc
        · exact hrest c hc
        · simp at hc
    | deliver k e =>
      cases hx
      simp only [Inv, hphase, coe_nil, add_zero]
      exact ⟨hfilled.deliver, hrest, hresults⟩
    | count c => exact absurd (mem_cons_self _ _) (hcounts c)
  · obtain ⟨hfilled, todo, hnodup, hlt, hpool, hcounted⟩ := h
    obtain ⟨c, hc, rfl, rfl⟩ := (map_eq_cons _ _ _ _).mpr hpool.symm
    cases hx
    simp only [Inv, hphase, coe_nil, add_zero]
    refine ⟨hfilled, todo.erase c, hnodup.erase c, fun d hd => hlt d (mem_of_mem_erase hd),
      rfl, fun d => ?_⟩
    by_cases hdc : d = c
    · subst hdc
      have hempty : s.results d = [] := by rw [hcounted d, if_neg fun h => h.2 hc]
      dsimp only
      rw [update_self, hempty, List.nil_append,
        if_pos ⟨hlt d hc, hnodup.notMem_erase⟩]
    · dsimp only
      rw [update_of_ne hdc, hcounted d]
      simp only [mem_erase_of_ne hdc]
  · exact absurd h.1 (cons_ne_zero)

theorem advance_inv (h : Inv plan messages s 0) (hx : plan.advance s = some (s', new)) :
    Inv plan messages s' new := by
  unfold Inv at h
  split at h <;> rename_i hphase <;> rw [Plan.advance, hphase] at hx
  · cases hx
    obtain ⟨rfl, -⟩ := h
    refine ⟨fun k => ?_, fun c hc => ?_, rfl⟩
    · rw [pending_tasks]
      simp [init, Plan.sent]
    · simp at hc
  · cases hx
    obtain ⟨hfilled, -, hresults⟩ := h
    refine ⟨hfilled, range plan.parties, nodup_range _,
      fun c hc => mem_range.mp hc, rfl, fun c => ?_⟩
    dsimp only
    rw [hresults, if_neg fun hc => hc.2 (mem_range.mpr hc.1)]
  · cases hx
    obtain ⟨hfilled, todo, -, -, hpool, hcounted⟩ := h
    obtain rfl : todo = 0 := map_eq_zero.mp hpool.symm
    exact ⟨rfl, hfilled, hcounted⟩
  · cases hx

theorem init_inv (plan : Plan τ κ ε β) (messages : τ → Multiset (κ × ε)) :
    Inv plan messages init 0 := ⟨rfl, rfl⟩

theorem returned_spec (hsends : Sends plan messages) {t : Phased.State (State κ ε β) (Item τ κ ε)}
    (ht : (plan.program.system init).Reachable t) (hret : t.shared.phase = .returned) :
    (∀ k, (t.shared.boxes k : Multiset ε) = part k (plan.sent messages)) ∧
      ∀ c, t.shared.results c = if c < plan.parties then plan.count c t.shared.boxes else [] := by
  have hinv := Program.Reachable.inv (Inv plan messages) (init_inv plan messages)
    (fun _ _ _ _ _ h hx => exec_inv hsends h hx) (fun _ _ _ h hx => advance_inv h hx) ht
  rw [Inv, hret] at hinv
  obtain ⟨-, hfilled, hcounted⟩ := hinv
  constructor
  · intro k
    have hk := hfilled k
    rwa [pending_zero, part_zero, add_zero] at hk
  · intro c
    rw [hcounted c]
    simp

/-! ### Every run ends -/

def Item.rank (rank : τ → ℕ) : Item τ κ ε → ℕ
  | .task t => rank t + 1
  | .deliver _ _ | .count _ => 0

/-- How many phases are to come. -/
def Phase.left : Phase → ℕ
  | .start => 3
  | .exchange => 2
  | .count => 1
  | .returned => 0

/-- A task is above those that it spawns. -/
def Shrinks (plan : Plan τ κ ε β) (rank : τ → ℕ) : Prop :=
  ∀ t, ∀ t' ∈ (plan.step t).1, rank t' < rank t

/-- **Termination**. -/
theorem terminates {rank : τ → ℕ} (hrank : Shrinks plan rank) :
    (plan.program.system init).Terminates (plan.program.system init).init := by
  refine Program.terminates_of_rank (fun _ _ => True) (Item.rank rank) (fun s _ => s.phase.left)
    trivial (fun s x rest s' new _ hx => ⟨trivial, .inr ?_⟩) fun s s' new _ hx => ⟨trivial, ?_⟩
  · cases x with
    | task t =>
      cases hx
      refine ⟨rfl, fun y hy => ?_⟩
      rcases List.mem_append.mp hy with hy | hy
      · obtain ⟨t', ht', rfl⟩ := List.mem_map.mp hy
        exact Nat.succ_lt_succ (hrank t t' ht')
      · obtain ⟨m, -, rfl⟩ := List.mem_map.mp hy
        exact Nat.succ_pos _
    | deliver k e | count c =>
      cases hx
      exact ⟨rfl, fun _ hy => absurd hy List.not_mem_nil⟩
  · simp only [Plan.program, Plan.advance] at hx
    split at hx <;> rename_i hphase <;> cases hx <;> rw [hphase] <;> simp [Phase.left]

theorem returns_of_stuck {t : Phased.State (State κ ε β) (Item τ κ ε)}
    (hstuck : ∀ l, plan.program.next t l = none) : t.shared.phase = .returned := by
  have hgo : ∀ x ∈ t.pool, plan.program.exec t.shared x ≠ none := by
    intro x _
    cases x <;> exact Option.some_ne_none _
  have hended := (Program.ended_of_stuck hgo hstuck).2
  simp only [Plan.program, Plan.advance] at hended
  split at hended
  · cases hended
  · cases hended
  · cases hended
  · assumption

end Exchange
