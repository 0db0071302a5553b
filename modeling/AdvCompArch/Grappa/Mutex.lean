import AdvCompArch.Lib.Transition

/-! # Mutexes

    The tasks of a core take and release a mutex; with `delegate::call(dest, mutex, func)`
    a function is to run on the core of the mutex while the lock is free.  A task that
    finds the lock held waits in the list of the mutex, and a call whose message finds it
    held leaves a suspended delegate there.  `unlock` wakes the first waiter: a task is made
    ready and tries again, a suspended delegate runs its function at once. -/

namespace Grappa

open Transition Option List

/-- A waiter of a mutex: a task, or the suspended delegate of a call. -/
inductive MutexWaiter where
  | task (t : ℕ)
  | delegate (call : ℕ)
  deriving DecidableEq

structure MutexRun where
  lock_ : Bool
  /-- The first is the next to be woken. -/
  waiters_ : List MutexWaiter
  /-- The tasks that were woken and have yet to run. -/
  ready : List ℕ
  /-- The tasks that have taken the lock and not released it. -/
  holders : List ℕ
  /-- The calls on their way to the core of the mutex. -/
  requests : List ℕ
  /-- The calls whose result is on its way. -/
  replies : List ℕ
  /-- The functions that ran, and whether the lock was held; the last first. -/
  ran : List (ℕ × Bool)
  /-- The `CHECK` of a suspended delegate has failed. -/
  aborted : Bool
  deriving DecidableEq

namespace MutexRun

inductive Label where
  | lock (t : ℕ)
  | trylock (t : ℕ)
  | unlock (t : ℕ)
  /-- The ready task at this place runs. -/
  | resume (i : ℕ)
  /-- `delegate::call` on the core of the mutex, from a task of it. -/
  | callLocal (t call : ℕ)
  /-- `delegate::call` from another core. -/
  | callRemote (call : ℕ)
  | request (i : ℕ)
  | reply (i : ℕ)
  deriving DecidableEq

variable (s : MutexRun)

def is_unlocked : Bool := s.lock_ == false

/-- The task is not in the middle of `lock`. -/
def Running (t : ℕ) : Prop := .task t ∉ s.waiters_ ∧ t ∉ s.ready

instance (t : ℕ) : Decidable (s.Running t) := inferInstanceAs (Decidable (_ ∧ _))

/-- The lock is not held, so acquire. -/
def acquire (t : ℕ) : MutexRun := { s with lock_ := true, holders := t :: s.holders }

/-- A round of the loop in `lock`. -/
def tryOrWait (t : ℕ) : MutexRun :=
  if s.lock_ = true then { s with waiters_ := .task t :: s.waiters_ } else s.acquire t

def trylock (t : ℕ) : MutexRun := if s.lock_ = true then s else s.acquire t

/-- The function of a call runs. -/
def func (call : ℕ) : MutexRun := { s with ran := (call, s.lock_) :: s.ran }

/-- The function of a call from another core runs and its result is sent. -/
def funcAndReply (call : ℕ) : MutexRun :=
  { s.func call with replies := s.replies ++ [call] }

/-- What a suspended delegate does. -/
def invoke (call : ℕ) : MutexRun :=
  if s.is_unlocked then s.funcAndReply call else { s with aborted := true }

def signal : MutexRun :=
  match s.waiters_ with
  | [] => s
  | .task t :: rest => { s with waiters_ := rest, ready := s.ready ++ [t] }
  | .delegate call :: rest => { s with waiters_ := rest }.invoke call

def unlock (t : ℕ) : MutexRun :=
  { s with lock_ := false, holders := s.holders.erase t }.signal

/-- The message of a call arrives. -/
def arrive (call : ℕ) : MutexRun :=
  if s.is_unlocked then s.funcAndReply call
  else { s with waiters_ := .delegate call :: s.waiters_ }

def next : Label → Option MutexRun
  | .lock t => if s.Running t then some (s.tryOrWait t) else none
  | .trylock t => if s.Running t then some (s.trylock t) else none
  | .unlock t => if s.Running t ∧ t ∈ s.holders then some (s.unlock t) else none
  | .resume i => (s.ready[i]?).map fun t => { s with ready := s.ready.eraseIdx i }.tryOrWait t
  | .callLocal t call => if s.Running t then some (s.func call) else none
  | .callRemote call => some { s with requests := s.requests ++ [call] }
  | .request i => (s.requests[i]?).map fun call =>
      { s with requests := s.requests.eraseIdx i }.arrive call
  | .reply i => (s.replies[i]?).map fun _ => { s with replies := s.replies.eraseIdx i }

def init : MutexRun := ⟨false, [], [], [], [], [], [], false⟩

def system : Transition.System MutexRun Label where
  init := init
  next := next

/-! ### The lock and its holders -/

/-- There is one holder at most, and it is there exactly when the lock is held. -/
structure Inv : Prop where
  held : s.holders.length = if s.lock_ then 1 else 0
  checked : s.aborted = false

variable {s} {s' : MutexRun} {l : Label}

theorem Inv.acquire (hi : s.Inv) (hlock : s.lock_ = false) (t : ℕ) : (s.acquire t).Inv where
  held := by simp [MutexRun.acquire, hi.held, hlock]
  checked := hi.checked

theorem Inv.tryOrWait (hi : s.Inv) (t : ℕ) : (s.tryOrWait t).Inv := by
  unfold MutexRun.tryOrWait
  split
  · exact ⟨hi.held, hi.checked⟩
  · rename_i hlock
    exact hi.acquire (by simpa using hlock) t

theorem Inv.signal (hi : s.Inv) (hlock : s.lock_ = false) : s.signal.Inv := by
  unfold MutexRun.signal
  cases hw : s.waiters_ with
  | nil => exact hi
  | cons w rest =>
    cases w with
    | task t => exact ⟨hi.held, hi.checked⟩
    | delegate call =>
      have hunlocked : ({ s with waiters_ := rest } : MutexRun).is_unlocked = true := by
        simp [is_unlocked, hlock]
      simp only [invoke, hunlocked, if_true]
      exact ⟨hi.held, hi.checked⟩

theorem Inv.unlock (hi : s.Inv) {t : ℕ} (ht : t ∈ s.holders) : (s.unlock t).Inv := by
  apply Inv.signal
  · constructor
    · have hpos := length_pos_of_mem ht
      have hheld := hi.held
      simp only [length_erase_of_mem ht]
      split at hheld <;> simp_all
    · exact hi.checked
  · rfl

/-- **Every step keeps the invariant**, whatever the tasks and calls do. -/
theorem next_inv (hi : s.Inv) (h : s.next l = some s') : s'.Inv := by
  cases l with
  | lock t =>
    obtain ⟨-, rfl⟩ := ite_some_none_eq_some.mp h
    exact hi.tryOrWait t
  | trylock t =>
    obtain ⟨-, rfl⟩ := ite_some_none_eq_some.mp h
    unfold MutexRun.trylock
    split
    · exact hi
    · rename_i hlock
      exact hi.acquire (by simpa using hlock) t
  | unlock t =>
    obtain ⟨⟨-, ht⟩, rfl⟩ := ite_some_none_eq_some.mp h
    exact hi.unlock ht
  | resume i =>
    obtain ⟨t, -, rfl⟩ := map_eq_some_iff.mp h
    apply Inv.tryOrWait
    exact ⟨hi.held, hi.checked⟩
  | callLocal t call =>
    obtain ⟨-, rfl⟩ := ite_some_none_eq_some.mp h
    exact ⟨hi.held, hi.checked⟩
  | callRemote call =>
    cases h
    exact ⟨hi.held, hi.checked⟩
  | request i =>
    obtain ⟨call, -, rfl⟩ := map_eq_some_iff.mp h
    unfold arrive
    split <;> exact ⟨hi.held, hi.checked⟩
  | reply i =>
    obtain ⟨call, -, rfl⟩ := map_eq_some_iff.mp h
    exact ⟨hi.held, hi.checked⟩

theorem init_inv : init.Inv := ⟨rfl, rfl⟩

/-! ### Exclusion and progress -/

/-- Nobody is going to take the lock or to run a function, and a waiter waits for the free lock. -/
def Stuck (s : MutexRun) : Prop :=
  s.lock_ = false ∧ s.ready = [] ∧ s.requests = [] ∧ s.replies = [] ∧ s.waiters_ ≠ []

/-- All functions ran while the lock was free. -/
def Exclusive (s : MutexRun) : Prop := ∀ r ∈ s.ran, r.2 = false

/-- A call on the core of the mutex is made while the lock is free, and an `unlock` that runs a
    suspended delegate leaves no waiter, unless a ready task is going to unlock later. -/
def WakesOn (s : MutexRun) : Label → Prop
  | .callLocal _ _ => s.lock_ = false
  | .unlock _ =>
    match s.waiters_ with
    | .delegate _ :: rest => rest = [] ∨ s.ready ≠ []
    | _ => True
  | _ => True

instance : ∀ (s : MutexRun) (l : Label), Decidable (s.WakesOn l)
  | s, .callLocal _ _ => inferInstanceAs (Decidable (s.lock_ = false))
  | s, .unlock _ =>
    match h : s.waiters_ with
    | .delegate _ :: rest => decidable_of_iff (rest = [] ∨ s.ready ≠ []) (by simp [WakesOn, h])
    | .task _ :: _ | [] => isTrue (by simp [WakesOn, h])
  | _, .lock _ | _, .trylock _ | _, .resume _ | _, .callRemote _ | _, .request _ | _, .reply _ =>
    isTrue trivial

/-- A waiter waits for a holder, or for a ready task. -/
structure Covered (s : MutexRun) : Prop where
  woken : s.waiters_ ≠ [] → s.lock_ = true ∨ s.ready ≠ []
  exclusive : s.Exclusive

theorem Covered.not_stuck (hc : s.Covered) : ¬s.Stuck := by
  intro h
  obtain ⟨hlock, hready, -, -, hwaiters⟩ := h
  rcases hc.woken hwaiters with hheld | hsome
  · rw [hlock] at hheld
    cases hheld
  · exact hsome hready

/-- Taking the lock, or waiting for it, leaves every waiter covered. -/
theorem Covered.tryOrWait (he : s.Exclusive) (t : ℕ) : (s.tryOrWait t).Covered := by
  unfold MutexRun.tryOrWait
  split
  · rename_i hlock
    exact ⟨fun _ => .inl hlock, he⟩
  · exact ⟨fun _ => .inl rfl, he⟩

theorem Exclusive.func (he : s.Exclusive) (hlock : s.lock_ = false) (call : ℕ) :
    (s.func call).Exclusive := by
  intro r hr
  rcases mem_cons.mp hr with hr | hr
  · rw [hr, hlock]
  · exact he r hr

theorem Covered.unlock (hc : s.Covered) {t : ℕ} (hwake : s.WakesOn (.unlock t)) :
    (s.unlock t).Covered := by
  have he : Exclusive { s with lock_ := false, holders := s.holders.erase t } := hc.exclusive
  unfold MutexRun.unlock MutexRun.signal
  cases hw : s.waiters_ with
  | nil => exact ⟨fun h => absurd rfl h, he⟩
  | cons w rest =>
    cases w with
    | task u => exact ⟨fun _ => .inr (by simp), he⟩
    | delegate call =>
      simp only [WakesOn, hw] at hwake
      constructor
      · intro hrest
        exact .inr (hwake.resolve_left hrest)
      · exact Exclusive.func he rfl call

theorem next_covered (hc : s.Covered) (hwake : s.WakesOn l) (h : s.next l = some s') :
    s'.Covered := by
  cases l with
  | lock t =>
    obtain ⟨-, rfl⟩ := ite_some_none_eq_some.mp h
    exact Covered.tryOrWait hc.exclusive t
  | trylock t =>
    obtain ⟨-, rfl⟩ := ite_some_none_eq_some.mp h
    unfold MutexRun.trylock
    split
    · exact hc
    · exact ⟨fun _ => .inl rfl, hc.exclusive⟩
  | unlock t =>
    obtain ⟨-, rfl⟩ := ite_some_none_eq_some.mp h
    exact hc.unlock hwake
  | resume i =>
    obtain ⟨t, -, rfl⟩ := map_eq_some_iff.mp h
    apply Covered.tryOrWait
    exact hc.exclusive
  | callLocal t call =>
    obtain ⟨-, rfl⟩ := ite_some_none_eq_some.mp h
    exact ⟨hc.woken, hc.exclusive.func hwake call⟩
  | callRemote call =>
    cases h
    exact ⟨hc.woken, hc.exclusive⟩
  | request i =>
    obtain ⟨call, -, rfl⟩ := map_eq_some_iff.mp h
    unfold arrive is_unlocked
    split
    · rename_i hlock
      exact ⟨hc.woken, Exclusive.func (s := { s with requests := s.requests.eraseIdx i })
        hc.exclusive (by simpa using hlock) call⟩
    · rename_i hlock
      exact ⟨fun _ => .inl (by simpa using hlock), hc.exclusive⟩
  | reply i =>
    obtain ⟨call, -, rfl⟩ := map_eq_some_iff.mp h
    exact ⟨hc.woken, hc.exclusive⟩

/-! ### What a forgotten waiter leads to -/

/-- A waiter that nobody is going to wake. -/
structure Forgotten (s : MutexRun) : Prop where
  unlocked : s.lock_ = false
  ready : s.ready = []
  waiting : s.waiters_ ≠ []

/-- The messages that are still in flight do not help. -/
theorem Forgotten.stuck (hf : s.Forgotten) :
    ∃ ls s', system.run s ls = some s' ∧ s'.Stuck := by
  induction hn : 2 * s.requests.length + s.replies.length using Nat.strongRecOn generalizing s with
  | ind n ih =>
    cases hreq : s.requests with
    | cons call rest =>
      -- its function runs at once, and nobody is woken
      let s₁ : MutexRun := { s with
        requests := rest, ran := (call, s.lock_) :: s.ran, replies := s.replies ++ [call] }
      have hnext : s.next (.request 0) = some s₁ := by
        simp [next, hreq, arrive, is_unlocked, hf.unlocked, funcAndReply, func, s₁]
      have hf₁ : s₁.Forgotten := ⟨hf.unlocked, hf.ready, hf.waiting⟩
      obtain ⟨ls, s', hrun, hs'⟩ := ih (2 * rest.length + (s.replies.length + 1))
        (by rw [← hn, hreq, length_cons]; omega) hf₁ (by simp [s₁])
      exact ⟨.request 0 :: ls, s', System.run_cons.mpr ⟨s₁, hnext, hrun⟩, hs'⟩
    | nil =>
      cases hrep : s.replies with
      | cons call rest =>
        let s₁ : MutexRun := { s with replies := rest }
        have hnext : s.next (.reply 0) = some s₁ := by simp [next, hrep, s₁]
        have hf₁ : s₁.Forgotten := ⟨hf.unlocked, hf.ready, hf.waiting⟩
        obtain ⟨ls, s', hrun, hs'⟩ := ih (2 * s.requests.length + rest.length)
          (by rw [← hn, hrep, length_cons]; omega) hf₁ rfl
        exact ⟨.reply 0 :: ls, s', System.run_cons.mpr ⟨s₁, hnext, hrun⟩, hs'⟩
      | nil => exact ⟨[], s, rfl, hf.unlocked, hf.ready, hreq, hrep, hf.waiting⟩

/-- **A step that does not wake on** runs a function while the lock is held, or leads to a waiter
    that waits for ever. -/
theorem next_not_wakesOn (hwake : ¬s.WakesOn l) (h : s.next l = some s') :
    ¬s'.Exclusive ∨ ∃ ls s'', system.run s' ls = some s'' ∧ s''.Stuck := by
  cases l with
  | callLocal t call =>
    obtain ⟨-, rfl⟩ := ite_some_none_eq_some.mp h
    refine .inl fun he => hwake ?_
    exact he (call, s.lock_) mem_cons_self
  | unlock t =>
    obtain ⟨-, rfl⟩ := ite_some_none_eq_some.mp h
    right
    cases hw : s.waiters_ with
    | nil => simp [WakesOn, hw] at hwake
    | cons w rest =>
      cases w with
      | task u => simp [WakesOn, hw] at hwake
      | delegate call =>
        simp only [WakesOn, hw, not_or, not_not] at hwake
        apply Forgotten.stuck
        constructor
        · simp [MutexRun.unlock, signal, hw, invoke, is_unlocked, funcAndReply, func]
        · simp [MutexRun.unlock, signal, hw, invoke, is_unlocked, funcAndReply, func, hwake.2]
        · simp [MutexRun.unlock, signal, hw, invoke, is_unlocked, funcAndReply, func, hwake.1]
  | lock t | trylock t | resume i | callRemote call | request i | reply i =>
    exact absurd trivial hwake

/-! ### The law -/

/-- What is to hold in every state: one holder at most, which is there when the lock is held,
    functions that only run while it is free, and no waiter that waits for the free lock for ever. -/
structure Good (s : MutexRun) : Prop where
  holder : s.holders.length ≤ 1
  lock_iff : s.lock_ = true ↔ s.holders ≠ []
  exclusive : s.Exclusive
  live : ¬s.Stuck
  checked : s.aborted = false

/-- **A mutex does what it is for** in the runs all of whose steps wake on; and a step that does
    not, in any run, runs a function while the lock is held or leads to a waiter that nobody
    wakes. -/
theorem mutex_exclusive_and_live {ls : List Label} (hrun : system.run init ls = some s) :
    (system.Always WakesOn init ls → s.Good) ∧
    (∀ l s', s.next l = some s' → ¬s.WakesOn l →
      ¬s'.Exclusive ∨ ∃ ms s'', system.run s' ms = some s'' ∧ s''.Stuck) := by
  constructor
  · intro hwake
    obtain ⟨hi, hc⟩ := System.invariant_under (fun s => s.Inv ∧ s.Covered)
      (fun s l s' h hl hnext => ⟨next_inv h.1 hnext, next_covered h.2 hl hnext⟩)
      ⟨init_inv, fun h => absurd rfl h, fun r hr => by cases hr⟩ hwake hrun
    have hheld := hi.held
    exact
      { holder := by split at hheld <;> omega
        lock_iff := by
          rw [← length_pos_iff]
          split at hheld <;> simp_all
        exclusive := hc.exclusive
        live := hc.not_stuck
        checked := hi.checked }
  · intro l s' hnext hwake
    exact next_not_wakesOn hwake hnext

/-- Task 2 waits while task 1 holds the lock, and takes it when it is woken. -/
theorem mutex_two_tasks :
    ∃ s, system.run init [.lock 1, .lock 2, .unlock 1, .resume 0] = some s ∧
      s.holders = [2] ∧ s.Good := by
  have hrun : (system.run init [.lock 1, .lock 2, .unlock 1, .resume 0]).isSome := by decide
  obtain ⟨s, hs⟩ := isSome_iff_exists.mp hrun
  refine ⟨s, hs, ?_, (mutex_exclusive_and_live hs).1 (by decide)⟩
  cases hs
  rfl

/-- A call on the core of the mutex runs its function while a task holds the lock; and a task
    behind a suspended delegate is forgotten: task 1 holds the lock, task 2 waits, call 7
    arrives, and the `unlock` of task 1 runs the function of the call and wakes nobody. -/
theorem mutex_forgets_waiter :
    ¬(∀ ls s, system.run init ls = some s → s.Exclusive) ∧
    ¬(∀ ls s, system.run init ls = some s → ¬s.Stuck) := by
  constructor
  · intro h
    exact absurd (h [.lock 1, .callLocal 2 7] _ rfl (7, true) (by decide)) (by decide)
  · intro h
    exact h [.lock 1, .lock 2, .callRemote 7, .request 0, .unlock 1, .reply 0] _ rfl
      (by unfold Stuck; decide)

end MutexRun

end Grappa
