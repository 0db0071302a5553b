import AdvCompArch.Grappa.VectorSequence
import AdvCompArch.Grappa.VectorWrap
import AdvCompArch.Lib.Ring

/-! # A global vector as a stack

    Pushes and pops, one after the other, from any position of the tail.  A pop at position
    0 decrements a `size_t` 0 to `2 ^ 64 - 1`, which `incr_with_wrap` takes modulo the
    capacity.  This is the last slot if the capacity divides `2 ^ 64`, and another one
    otherwise. -/

namespace Grappa

namespace GlobalVector

open VectorProxy (VectorRequest)

variable {V : Type}

/-- How many operations of a kind have returned. -/
def count (c : Choice) (hist : List (VectorRequest V × Option V)) : ℕ :=
  hist.countP fun x => choice x.1 = c

/-- What was pushed and not popped yet, the last value first. -/
def stackOf : List (VectorRequest V × Option V) → List V
  | [] => []
  | (.push e, _) :: hist => e :: stackOf hist
  | (.pop, _) :: hist => (stackOf hist).tail
  | (.dequeue, _) :: hist => stackOf hist

/-- Each pop returned the value that was pushed last and not popped yet. -/
def Lifo : List (VectorRequest V × Option V) → Prop
  | [] => True
  | (.pop, result) :: hist => (∃ v, result = some v ∧ (stackOf hist).head? = some v) ∧ Lifo hist
  | _ :: hist => Lifo hist

/-- What a vector that is used as a stack is to guarantee. -/
structure StackSemantics (s : VectorRun V) : Prop where
  lifo : Lifo s.history
  size : s.running = none → s.master.size + count .POP s.history = count .PUSH s.history

/-- Pushes that leave a place free, and pops of a stack that is not empty. -/
def StackUse (capacity : ℕ) (hist : List (VectorRequest V × Option V)) : VectorRequest V → Prop
  | .push _ => (stackOf hist).length + 1 < capacity
  | .pop => stackOf hist ≠ []
  | .dequeue => False

instance [DecidableEq V] (capacity : ℕ) (hist : List (VectorRequest V × Option V)) :
    ∀ r, Decidable (StackUse capacity hist r)
  | .push _ => inferInstanceAs (Decidable ((stackOf hist).length + 1 < capacity))
  | .pop => inferInstanceAs (Decidable (stackOf hist ≠ []))
  | .dequeue => isFalse id

/-- No pop finds the tail at position 0, unless the capacity divides `2 ^ 64`. -/
def PopsInRange (capacity tail : ℕ) (hist : List (VectorRequest V × Option V)) :
    VectorRequest V → Prop
  | .pop => capacity ∣ 2 ^ 64 ∨ (tail + (stackOf hist).length) % capacity ≠ 0
  | _ => True

instance (capacity tail : ℕ) (hist : List (VectorRequest V × Option V)) :
    ∀ r, Decidable (PopsInRange capacity tail hist r)
  | .push _ => isTrue trivial
  | .pop => inferInstanceAs
    (Decidable (capacity ∣ 2 ^ 64 ∨ (tail + (stackOf hist).length) % capacity ≠ 0))
  | .dequeue => isTrue trivial

/-! ### The position arithmetic -/

/-- The position before, for a capacity that divides `2 ^ 64`. -/
theorem pred_mod_of_dvd {capacity : ℕ} (hpos : 0 < capacity) (hdvd : capacity ∣ 2 ^ 64) :
    (2 ^ 64 - 1) % capacity = capacity - 1 := by
  obtain ⟨k, hk⟩ := hdvd
  have hkpos : 0 < k := by
    rcases Nat.eq_zero_or_pos k with h0 | h0
    · rw [h0] at hk
      omega
    · exact h0
  have hsplit : 2 ^ 64 - 1 = capacity - 1 + capacity * (k - 1) := by
    have hmul : capacity * k = capacity * (k - 1) + capacity := by
      rw [← Nat.mul_succ]
      congr 1
      omega
    omega
  rw [hsplit, Nat.add_mul_mod_self_left, Nat.mod_eq_of_lt (by omega)]

/-! ### The array holds the stack -/

structure HoldsStack (capacity tail T size : ℕ) (base : ℕ → V)
    (hist : List (VectorRequest V × Option V)) : Prop where
  position : T = (tail + (stackOf hist).length) % capacity
  size : size = (stackOf hist).length
  room : (stackOf hist).length < capacity
  content : Ring.window base capacity tail (stackOf hist).length = (stackOf hist).reverse
  lifo : Lifo hist
  count : (stackOf hist).length + count .POP hist = count .PUSH hist

theorem count_cons (c : Choice) (r : VectorRequest V) (x : Option V)
    (hist : List (VectorRequest V × Option V)) :
    count c ((r, x) :: hist) = count c hist + if choice r = c then 1 else 0 := by
  simp [count, List.countP_cons]

variable {capacity tail T size : ℕ} {base : ℕ → V} {hist : List (VectorRequest V × Option V)}

theorem HoldsStack.push (h : HoldsStack capacity tail T size base hist)
    (hcapacity : capacity < 2 ^ 63) {e : V} (huse : StackUse capacity hist (.push e)) (x : Option V) :
    HoldsStack capacity tail (incr_with_wrap capacity T (1 : ℕ)) ((size + 1) % 2 ^ 64)
      (Function.update base T e) ((.push e, x) :: hist) := by
  have hroom : (stackOf hist).length + 1 < capacity := huse
  have hT : T < capacity := by
    rw [h.position]
    exact Nat.mod_lt _ (by omega)
  constructor
  case position =>
    rw [incr_with_wrap_succ hT hcapacity, h.position, Nat.mod_add_mod]
    rfl
  case size =>
    rw [h.size, Nat.mod_eq_of_lt (by omega)]
    rfl
  case room => exact hroom
  case content =>
    rw [h.position]
    show Ring.window _ capacity tail ((stackOf hist).length + 1) = (e :: stackOf hist).reverse
    rw [Ring.window_push h.room, h.content, List.reverse_cons]
  case lifo => exact h.lifo
  case count =>
    have hcount := h.count
    rw [count_cons, count_cons]
    show (stackOf hist).length + 1 + _ = _
    simp only [choice, reduceCtorEq, if_false, if_true]
    omega

theorem HoldsStack.pop (h : HoldsStack capacity tail T size base hist)
    (hcapacity : capacity < 2 ^ 63) (huse : stackOf hist ≠ [])
    (hrange : PopsInRange capacity tail hist .pop) {slot : ℕ}
    (hslot : slot = incr_with_wrap capacity T (0 - (1 : ℕ))) :
    HoldsStack capacity tail slot ((size - (1 : ℕ) : ℤ) % 2 ^ 64).toNat base
      ((.pop, some (base slot)) :: hist) := by
  obtain ⟨hposition, hsize, hroom, hcontent, hlifo, hcount⟩ := h
  cases hstack : stackOf hist with
  | nil => exact absurd hstack huse
  | cons v rest =>
    have hpop : ∀ x : Option V, stackOf ((.pop, x) :: hist) = rest := by
      intro x
      show (stackOf hist).tail = rest
      rw [hstack]
      rfl
    rw [hstack, List.length_cons] at hposition hsize hroom hcontent hcount
    rw [List.reverse_cons] at hcontent
    obtain ⟨hrest, hlast⟩ := Ring.window_pop hcontent
    have hT : T < capacity := by
      rw [hposition]
      exact Nat.mod_lt _ (by omega)
    -- the slot of the last value is the one before the tail
    have hplace : slot = (tail + rest.length) % capacity := by
      have hnext : T = ((tail + rest.length) % capacity + 1) % capacity := by
        rw [hposition, Nat.mod_add_mod, add_assoc]
      have hlt : (tail + rest.length) % capacity < capacity := Nat.mod_lt _ (by omega)
      by_cases hzero : T = 0
      · have hdvd : capacity ∣ 2 ^ 64 := by
          rcases hrange with hdvd | hne
          · exact hdvd
          · rw [hstack, List.length_cons, ← hposition] at hne
            exact absurd hzero hne
        have hwrap : (tail + rest.length) % capacity + 1 = capacity := by
          by_contra hne
          rw [Nat.mod_eq_of_lt (by omega)] at hnext
          omega
        rw [hslot, hzero, incr_with_wrap_zero hcapacity, pred_mod_of_dvd (by omega) hdvd]
        omega
      · have hwrap : (tail + rest.length) % capacity + 1 < capacity := by
          by_contra hge
          rw [show (tail + rest.length) % capacity + 1 = capacity by omega, Nat.mod_self] at hnext
          exact hzero hnext
        rw [Nat.mod_eq_of_lt hwrap] at hnext
        rw [hslot, incr_with_wrap_pred hT hcapacity hzero]
        omega
    rw [← hplace] at hlast
    constructor
    case position => rw [hpop, hplace]
    case size =>
      rw [hpop, hsize]
      omega
    case room =>
      rw [hpop]
      omega
    case content => rw [hpop, hrest]
    case lifo =>
      refine ⟨⟨v, congrArg some hlast, ?_⟩, hlifo⟩
      rw [hstack]
      rfl
    case count =>
      rw [hpop, count_cons, count_cons]
      simp only [choice, reduceCtorEq, if_false, if_true]
      omega

theorem operationRule_stack (hcapacity : capacity < 2 ^ 63) (tail : ℕ) :
    OperationRule False capacity
      (fun hist (r : VectorRequest V) => StackUse capacity hist r ∧ PopsInRange capacity tail hist r)
      (HoldsStack capacity tail) where
  push := fun _ _ _ _ _ x hd ha _ => hd.push hcapacity ha.1 x
  pop := fun _ _ _ _ _ hd ha _ hslot => hd.pop hcapacity ha.1 ha.2 hslot
  dequeue := fun _ _ _ _ _ _ ha _ _ => ha.1.elim

/-- **A global vector is a stack**, in every sequence of pushes and pops in which no pop finds the tail
    at position 0, or with a capacity that divides `2 ^ 64`. -/
theorem stack_semantics (cfg : Config V) (head tail : ℕ) (base : ℕ → V) (htail : tail < cfg.capacity)
    (steps : List (VectorRun.Label V)) (s : VectorRun V)
    (hrun : (VectorRun.system cfg head tail base).run (VectorRun.init cfg head tail base) steps =
      some s)
    (huse : (VectorRun.system cfg head tail base).Always (Calls (StackUse cfg.capacity))
      (VectorRun.init cfg head tail base) steps)
    (hrange : (VectorRun.system cfg head tail base).Always (Calls (PopsInRange cfg.capacity tail))
      (VectorRun.init cfg head tail base) steps) :
    StackSemantics s := by
  have hcalls := (huse.and hrange).mono (Q := Calls fun hist r =>
      StackUse cfg.capacity hist r ∧ PopsInRange cfg.capacity tail hist r) (by
    intro s l hl
    cases l with
    | call core t r => exact hl
    | _ => trivial)
  have hinit : HoldsStack cfg.capacity tail tail 0 base [] :=
    ⟨(Nat.mod_eq_of_lt htail).symm, rfl, Nat.zero_lt_of_lt htail, rfl, trivial, rfl⟩
  obtain ⟨⟨T, size, base', hd⟩, hidle⟩ := sequence_rule
    (operationRule_stack cfg.capacity_lt tail) False.elim hinit hrun hcalls
  refine ⟨hd.lifo, ?_⟩
  intro hrunning
  obtain ⟨T', hd'⟩ := hidle hrunning
  rw [hd'.size]
  exact hd'.count

/-- A push, enqueue or dequeue, up to its completion. -/
def operation (core : ℕ) (r : VectorRequest ℕ) : List (VectorRun.Label ℕ) :=
  [.call core 0 r, .request] ++ List.replicate 5 .run ++ [.transfer, .complete] ++
    List.replicate 6 .run

def popSteps : List (VectorRun.Label ℕ) :=
  [.call 1 0 .pop, .request] ++ List.replicate 8 .run ++ [.transfer]

/-- Slots of zeros, and flat combining. -/
def slots (capacity : ℕ) (h : capacity < 2 ^ 63) : Config ℕ :=
  ⟨capacity, h, Nat.succPNat 1023, true, false, fun _ => 0⟩

/-- Two values in the slots 3 and 0 of four. -/
theorem stack_semantics_four_slots :
    let cfg := slots 4 (by decide)
    let steps := operation 0 (.push 7) ++ operation 0 (.push 8) ++ popSteps ++ [.complete] ++
      List.replicate 3 .run ++ popSteps
    ∃ s, (VectorRun.system cfg 0 3 fun _ => 0).run (VectorRun.init cfg 0 3 fun _ => 0) steps = some s ∧
      s.history = [(.pop, some 7), (.pop, some 8), (.push 8, none), (.push 7, none)] ∧
      StackSemantics s := by
  intro cfg steps
  have hrun : ((VectorRun.system cfg 0 3 fun _ => 0).run (VectorRun.init cfg 0 3 fun _ => 0)
      steps).map VectorRun.history =
      some [(.pop, some 7), (.pop, some 8), (.push 8, none), (.push 7, none)] := by decide +kernel
  obtain ⟨s, hs, hhistory⟩ := Option.map_eq_some_iff.mp hrun
  exact ⟨s, hs, hhistory, stack_semantics cfg 0 3 (fun _ => 0) (by decide) steps s hs
    (by decide +kernel) (by decide +kernel)⟩

/-- After two values went through the vector the tail is at slot 2.  The push goes there, and the pop
    looks for its value in slot `(2 ^ 64 - 1) % 3 = 0`. -/
theorem pop_misses_the_push :
    let cfg := slots 3 (by decide)
    let steps := operation 0 (.push 7) ++ popSteps
    ∃ s, (VectorRun.system cfg 0 2 fun _ => 0).run (VectorRun.init cfg 0 2 fun _ => 0) steps = some s ∧
      (VectorRun.system cfg 0 2 fun _ => 0).Always (Calls (StackUse 3))
        (VectorRun.init cfg 0 2 fun _ => 0) steps ∧
      s.history = [(.pop, some 0), (.push 7, none)] ∧ ¬ StackSemantics s := by
  intro cfg steps
  have hrun : ((VectorRun.system cfg 0 2 fun _ => 0).run (VectorRun.init cfg 0 2 fun _ => 0)
      steps).map VectorRun.history =
      some [(.pop, some 0), (.push 7, none)] := by decide +kernel
  obtain ⟨s, hs, hhistory⟩ := Option.map_eq_some_iff.mp hrun
  refine ⟨s, hs, by decide +kernel, hhistory, ?_⟩
  intro h
  have hlifo := h.lifo
  rw [hhistory] at hlifo
  obtain ⟨⟨v, hv, hhead⟩, -⟩ := hlifo
  rw [← hv] at hhead
  exact absurd hhead (by decide)

end GlobalVector

end Grappa
