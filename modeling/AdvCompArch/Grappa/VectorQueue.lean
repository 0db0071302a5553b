import AdvCompArch.Grappa.VectorStack

/-! # A global vector as a queue

    Enqueues and dequeues, one after the other.  A dequeue advances `head` and takes the
    slot it gets to, and the continuation after the pushes puts `head` back to
    `head_allocator`, which is 0 for good: every dequeue reads slot 1. -/

namespace Grappa

namespace GlobalVector

open VectorProxy (VectorRequest)

variable {V : Type}

/-- What was enqueued and not dequeued yet, the oldest value first. -/
def queueOf : List (VectorRequest V × Option V) → List V
  | [] => []
  | (.push e, _) :: hist => queueOf hist ++ [e]
  | (.dequeue, _) :: hist => (queueOf hist).tail
  | (.pop, _) :: hist => queueOf hist

/-- Each dequeue returned the oldest value that was not dequeued yet. -/
def Fifo : List (VectorRequest V × Option V) → Prop
  | [] => True
  | (.dequeue, result) :: hist => (∃ v, result = some v ∧ (queueOf hist).head? = some v) ∧ Fifo hist
  | _ :: hist => Fifo hist

/-- What a vector that is used as a queue is to guarantee. -/
structure QueueSemantics (s : VectorRun V) : Prop where
  fifo : Fifo s.history
  size : s.running = none → s.master.size + count .DEQ s.history = count .PUSH s.history

/-- Enqueues while there is room, and dequeues of a queue that is not empty. -/
def QueueUse (capacity : ℕ) (hist : List (VectorRequest V × Option V)) : VectorRequest V → Prop
  | .push _ => (queueOf hist).length < capacity
  | .dequeue => queueOf hist ≠ []
  | .pop => False

instance [DecidableEq V] (capacity : ℕ) (hist : List (VectorRequest V × Option V)) :
    ∀ r, Decidable (QueueUse capacity hist r)
  | .push _ => inferInstanceAs (Decidable ((queueOf hist).length < capacity))
  | .dequeue => inferInstanceAs (Decidable (queueOf hist ≠ []))
  | .pop => isFalse id

/-- The value that was enqueued last at a position, counted modulo the capacity; before that, what the
    array held. -/
def lastAt (capacity : ℕ) (base : ℕ → V) (slot : ℕ) : List (VectorRequest V × Option V) → V
  | [] => base slot
  | (.push e, _) :: hist =>
    if slot = count .PUSH hist % capacity then e else lastAt capacity base slot hist
  | _ :: hist => lastAt capacity base slot hist

/-- At each dequeue, the value that was enqueued last at position 1 modulo the capacity is the oldest
    one. -/
def OldestInSlotOne (capacity : ℕ) (base : ℕ → V) : List (VectorRequest V × Option V) → Prop
  | [] => True
  | (.dequeue, _) :: hist => (queueOf hist).head? = some (lastAt capacity base (1 % capacity) hist) ∧
    OldestInSlotOne capacity base hist
  | _ :: hist => OldestInSlotOne capacity base hist

/-- Each dequeue returned what was in slot 1. -/
def ReturnsSlotOne (capacity : ℕ) (base : ℕ → V) : List (VectorRequest V × Option V) → Prop
  | [] => True
  | (.dequeue, result) :: hist => result = some (lastAt capacity base (1 % capacity) hist) ∧
    ReturnsSlotOne capacity base hist
  | _ :: hist => ReturnsSlotOne capacity base hist

structure HoldsQueue (capacity : ℕ) (base₀ : ℕ → V) (T size : ℕ) (base : ℕ → V)
    (hist : List (VectorRequest V × Option V)) : Prop where
  position : T = count .PUSH hist % capacity
  size : size = (queueOf hist).length
  room : (queueOf hist).length ≤ capacity
  content : ∀ slot, base slot = lastAt capacity base₀ slot hist
  returns : ReturnsSlotOne capacity base₀ hist
  count : (queueOf hist).length + count .DEQ hist = count .PUSH hist

variable {capacity T size : ℕ} {base₀ base : ℕ → V} {hist : List (VectorRequest V × Option V)}

theorem HoldsQueue.push (h : HoldsQueue capacity base₀ T size base hist)
    (hcapacity : capacity < 2 ^ 63) {e : V} (huse : (queueOf hist).length < capacity)
    (x : Option V) :
    HoldsQueue capacity base₀ (incr_with_wrap capacity T (1 : ℕ)) ((size + 1) % 2 ^ 64)
      (Function.update base T e) ((.push e, x) :: hist) := by
  have hT : T < capacity := by
    rw [h.position]
    exact Nat.mod_lt _ (by omega)
  have hlength : (queueOf ((.push e, x) :: hist)).length = (queueOf hist).length + 1 :=
    List.length_append
  have hpushes : GlobalVector.count .PUSH ((.push e, x) :: hist) =
      GlobalVector.count .PUSH hist + 1 := count_cons ..
  constructor
  case position =>
    rw [incr_with_wrap_succ hT hcapacity, h.position, Nat.mod_add_mod, hpushes]
  case size => rw [h.size, hlength, Nat.mod_eq_of_lt (by omega)]
  case room =>
    rw [hlength]
    exact huse
  case content =>
    intro slot
    rw [Function.update_apply, h.position, h.content slot]
    rfl
  case returns => exact h.returns
  case count =>
    have hcount := h.count
    have hdeqs : GlobalVector.count .DEQ ((.push e, x) :: hist) =
        GlobalVector.count .DEQ hist := count_cons ..
    rw [hlength, hpushes, hdeqs]
    omega

theorem HoldsQueue.dequeue (h : HoldsQueue capacity base₀ T size base hist)
    (hcapacity : capacity < 2 ^ 63) (huse : queueOf hist ≠ []) {slot : ℕ}
    (hlt : slot < capacity) (hslot : slot = incr_with_wrap capacity 0 (1 : ℕ)) :
    HoldsQueue capacity base₀ T ((size - (1 : ℕ) : ℤ) % 2 ^ 64).toNat base
      ((.dequeue, some (base slot)) :: hist) := by
  have hone : slot = 1 % capacity := by
    rw [hslot, incr_with_wrap_succ (by omega) hcapacity]
  have hpos : 0 < (queueOf hist).length := List.length_pos_iff.mpr huse
  have hlength : ∀ x : Option V, (queueOf ((.dequeue, x) :: hist)).length =
      (queueOf hist).length - 1 := fun x => List.length_tail
  have hroom := h.room
  have hcount := h.count
  constructor
  case position => exact h.position
  case size =>
    rw [hlength, h.size]
    omega
  case room =>
    rw [hlength]
    omega
  case content => exact h.content
  case returns =>
    refine ⟨?_, h.returns⟩
    rw [h.content slot, hone]
  case count =>
    rw [hlength, count_cons, count_cons]
    simp only [choice, reduceCtorEq, if_false, if_true]
    omega

theorem operationRule_queue (hcapacity : capacity < 2 ^ 63) (base₀ : ℕ → V) :
    OperationRule True capacity (QueueUse capacity) (HoldsQueue capacity base₀) where
  push := fun _ _ _ _ _ x hd ha _ => hd.push hcapacity ha x
  pop := fun _ _ _ _ _ _ ha _ _ => ha.elim
  dequeue := fun _ _ _ _ _ hd ha hlt hslot => hd.dequeue hcapacity ha hlt (hslot trivial)

/-- What slot 1 holds is the oldest value, where it is to be. -/
theorem fifo_iff (h : ReturnsSlotOne capacity base₀ hist) :
    Fifo hist ↔ OldestInSlotOne capacity base₀ hist := by
  induction hist with
  | nil => exact Iff.rfl
  | cons x hist ih =>
    obtain ⟨r, result⟩ := x
    cases r with
    | push e => exact ih h
    | pop => exact ih h
    | dequeue =>
      obtain ⟨rfl, hreturns⟩ := h
      constructor
      · rintro ⟨⟨v, hv, hhead⟩, hfifo⟩
        cases hv
        exact ⟨hhead, (ih hreturns).mp hfifo⟩
      · rintro ⟨hhead, holdest⟩
        exact ⟨⟨_, rfl, hhead⟩, (ih hreturns).mpr holdest⟩

/-- **A global vector is a queue** in a sequence of enqueues and dequeues if and only if at each
    dequeue the oldest value is the one in slot 1. -/
theorem queue_semantics_iff (cfg : Config V) (base : ℕ → V) (steps : List (VectorRun.Label V))
    (s : VectorRun V)
    (hrun : (VectorRun.system cfg 0 0 base).run (VectorRun.init cfg 0 0 base) steps = some s)
    (huse : (VectorRun.system cfg 0 0 base).Always (Calls (QueueUse cfg.capacity))
      (VectorRun.init cfg 0 0 base) steps) :
    QueueSemantics s ↔ OldestInSlotOne cfg.capacity base s.history := by
  have hinit : HoldsQueue cfg.capacity base 0 0 base [] :=
    ⟨(Nat.zero_mod _).symm, rfl, Nat.zero_le _, fun _ => rfl, trivial, rfl⟩
  obtain ⟨⟨T, size, base', hd⟩, hidle⟩ := sequence_rule
    (operationRule_queue cfg.capacity_lt base) (fun _ => rfl) hinit hrun huse
  rw [← fifo_iff hd.returns]
  constructor
  · exact fun h => h.fifo
  · intro hfifo
    refine ⟨hfifo, ?_⟩
    intro hrunning
    obtain ⟨T', hd'⟩ := hidle hrunning
    rw [hd'.size]
    exact hd'.count

/-- With one slot, slot 1 is slot 0. -/
theorem queue_semantics_iff_one_slot :
    let cfg := slots 1 (by decide)
    ∃ s, (VectorRun.system cfg 0 0 fun _ => 0).run (VectorRun.init cfg 0 0 fun _ => 0)
      (operation 0 (.push 7) ++ operation 1 .dequeue ++ operation 2 (.push 8) ++
        operation 0 .dequeue) = some s ∧
      (QueueSemantics s ↔ OldestInSlotOne 1 (fun _ => 0) s.history) ∧ QueueSemantics s := by
  intro cfg
  have hrun : ((VectorRun.system cfg 0 0 fun _ => 0).run (VectorRun.init cfg 0 0 fun _ => 0)
      (operation 0 (.push 7) ++ operation 1 .dequeue ++ operation 2 (.push 8) ++
        operation 0 .dequeue)).map VectorRun.history =
      some [(.dequeue, some 8), (.push 8, none), (.dequeue, some 7), (.push 7, none)] := by
    decide +kernel
  obtain ⟨s, hs, hhistory⟩ := Option.map_eq_some_iff.mp hrun
  have hiff := queue_semantics_iff cfg (fun _ => 0) _ s hs (by decide +kernel)
  refine ⟨s, hs, hiff, hiff.mpr ?_⟩
  show OldestInSlotOne 1 (fun _ => 0) s.history
  rw [hhistory]
  exact ⟨rfl, rfl, trivial⟩

/-- Two values are enqueued in three slots, and the second is dequeued first. -/
theorem second_comes_first :
    let cfg := slots 3 (by decide)
    let steps := operation 0 (.push 7) ++ operation 1 (.push 8) ++ operation 2 .dequeue
    ∃ s, (VectorRun.system cfg 0 0 fun _ => 0).run (VectorRun.init cfg 0 0 fun _ => 0) steps = some s ∧
      (VectorRun.system cfg 0 0 fun _ => 0).Always (Calls (QueueUse 3))
        (VectorRun.init cfg 0 0 fun _ => 0) steps ∧
      s.history = [(.dequeue, some 8), (.push 8, none), (.push 7, none)] ∧
      ¬ QueueSemantics s := by
  intro cfg steps
  have hrun : ((VectorRun.system cfg 0 0 fun _ => 0).run (VectorRun.init cfg 0 0 fun _ => 0)
      steps).map VectorRun.history =
      some [(.dequeue, some 8), (.push 8, none), (.push 7, none)] := by decide +kernel
  obtain ⟨s, hs, hhistory⟩ := Option.map_eq_some_iff.mp hrun
  refine ⟨s, hs, by decide +kernel, hhistory, ?_⟩
  intro h
  have hfifo := h.fifo
  rw [hhistory] at hfifo
  obtain ⟨⟨v, hv, hhead⟩, -⟩ := hfifo
  rw [← hv] at hhead
  exact absurd hhead (by decide)

end GlobalVector

end Grappa
