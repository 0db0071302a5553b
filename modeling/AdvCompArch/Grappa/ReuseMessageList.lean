import Mathlib.Algebra.Order.Ring.Nat
import Mathlib.Data.List.Perm.Basic
import AdvCompArch.Lib.Transition

/-! # Lists of reusable messages

    The tasks of a core take messages from a list and wait while it is empty; a message
    that has been sent is put back and wakes the task that came to wait last.  That task looks
    again only when it runs, and others may have taken the message by then. -/

namespace Grappa.ReuseMessageList

open Transition List

structure State where
  /-- The messages `list_` leads to. -/
  list : List ℕ
  count_ : ℕ
  /-- The tasks that wait, the last first. -/
  waiters_ : List ℕ
  /-- The tasks that were woken and have yet to run. -/
  ready : List ℕ
  /-- The messages that were popped and not put back. -/
  popped : List ℕ
  /-- The tasks that called `with_message`, and those that got a message. -/
  called : List ℕ
  served : List ℕ
  deriving DecidableEq

namespace State

variable (s : State) {n : ℕ}

/-- Task `t` looks at the list in `block_until_pop`. -/
def block_until_pop (t : ℕ) : State :=
  match s.list with
  | [] => { s with waiters_ := t :: s.waiters_ }
  | b :: rest =>
    { s with list := rest, popped := b :: s.popped, served := t :: s.served, count_ := s.count_ - 1 }

def signal : State :=
  match s.waiters_ with
  | [] => s
  -- the task is made ready; until it runs the message can be taken by another one
  | t :: rest => { s with waiters_ := rest, ready := t :: s.ready }

def push (b : ℕ) : State :=
  let s := { s with list := b :: s.list }.signal
  { s with count_ := s.count_ + 1 }

/-- All `outstanding_` messages are put on the list; they are counted by an `int`. -/
def activate (outstanding_ : Fin (2 ^ 31)) : State :=
  (range outstanding_).foldl push ⟨[], 0, [], [], [], [], []⟩

inductive Label where
  | with_message (t : ℕ)
  /-- The ready task at this place runs. -/
  | resume (i : ℕ)
  | mark_sent (b : ℕ)
  deriving DecidableEq

def next : Label → Option State
  | .with_message t =>
    if t ∈ s.waiters_ ∨ t ∈ s.ready then none
    else some ({ s with called := t :: s.called }.block_until_pop t)
  | .resume i =>
    if h : i < s.ready.length then
      some ({ s with ready := s.ready.eraseIdx i }.block_until_pop s.ready[i])
    else none
  | .mark_sent b =>
    if b ∈ s.popped then some ({ s with popped := s.popped.erase b }.push b) else none

end State

open State

abbrev reuseMessageList (outstanding_ : Fin (2 ^ 31)) : System State Label where
  init := activate outstanding_
  next := State.next

/-- The messages are `0, …, n - 1`, each in one place; every call has been served or is waiting
    once; and where tasks wait, as many were woken as there are messages to take. -/
structure State.Ok (n : ℕ) (s : State) : Prop where
  messages : (s.list ++ s.popped).Perm (range n)
  count : s.count_ = s.list.length
  calls : s.called.Perm (s.served ++ (s.waiters_ ++ s.ready))
  woken : s.waiters_ = [] ∨ s.list.length ≤ s.ready.length

variable {n : ℕ} {s : State}

theorem foldl_push (l : List ℕ) (hs : s.waiters_ = []) : l.foldl push s =
    { s with list := l.reverse ++ s.list, count_ := s.count_ + l.length } := by
  induction l generalizing s with
  | nil => rfl
  | cons b l ih =>
    have hpush : s.push b = { s with list := b :: s.list, count_ := s.count_ + 1 } := by
      simp only [push, signal, hs]
    rw [foldl_cons, hpush, @ih { s with list := b :: s.list, count_ := s.count_ + 1 } hs]
    simp [Nat.add_comm 1, Nat.add_assoc]

theorem activate_ok (n : Fin (2 ^ 31)) : (activate n).Ok n := by
  rw [activate, foldl_push _ rfl]
  exact ⟨by simp, by simp, .nil, .inl rfl⟩

/-- A task that looks at the list is served, or waits because there is nothing. -/
theorem block_until_pop_ok {t : ℕ} (hmessages : (s.list ++ s.popped).Perm (range n))
    (hcount : s.count_ = s.list.length)
    (hcalls : s.called.Perm (t :: (s.served ++ (s.waiters_ ++ s.ready))))
    (hwoken : s.waiters_ = [] ∨ s.list.length ≤ s.ready.length + 1) :
    (s.block_until_pop t).Ok n := by
  unfold block_until_pop
  split
  · rename_i hlist
    refine ⟨hmessages, hcount, hcalls.trans perm_middle.symm, .inr ?_⟩
    simp [hlist]
  · rename_i b rest hlist
    rw [hlist] at hmessages hcount hwoken
    refine ⟨perm_middle.trans hmessages, by simp [hcount], hcalls, ?_⟩
    exact hwoken.imp_right Nat.le_of_succ_le_succ

theorem push_ok {b : ℕ} (hmessages : (b :: (s.list ++ s.popped)).Perm (range n))
    (hcount : s.count_ = s.list.length)
    (hcalls : s.called.Perm (s.served ++ (s.waiters_ ++ s.ready)))
    (hwoken : s.waiters_ = [] ∨ s.list.length ≤ s.ready.length) : (s.push b).Ok n := by
  cases hwaiters : s.waiters_ with
  | nil =>
    simp only [push, signal, hwaiters]
    exact ⟨hmessages, by simp [hcount], hwaiters ▸ hcalls, .inl rfl⟩
  | cons t rest =>
    simp only [push, signal, hwaiters]
    rw [hwaiters] at hcalls hwoken
    refine ⟨hmessages, by simp [hcount], hcalls.trans (.append_left _ perm_middle.symm), ?_⟩
    exact .inr (Nat.succ_le_succ (hwoken.resolve_left (cons_ne_nil t rest)))

theorem next_ok {l : Label} {s' : State} (hs : s.Ok n) (h : s.next l = some s') : s'.Ok n := by
  obtain ⟨hmessages, hcount, hcalls, hwoken⟩ := hs
  cases l with
  | with_message t =>
    simp only [State.next] at h
    split_ifs at h
    cases h
    exact block_until_pop_ok hmessages hcount (hcalls.cons t)
      (hwoken.imp_right Nat.le_add_right_of_le)
  | resume i =>
    simp only [State.next] at h
    split_ifs at h with hi
    cases h
    have hready : s.ready.Perm (s.ready[i] :: s.ready.eraseIdx i) :=
      (getElem_cons_eraseIdx_perm hi).symm
    refine block_until_pop_ok hmessages hcount ?_ (hwoken.imp_right fun hle => ?_)
    · have hmove := (hready.append_left (s.served ++ s.waiters_)).trans perm_middle
      rw [append_assoc, append_assoc] at hmove
      exact hcalls.trans hmove
    · have hlen := hready.length_eq
      rw [length_cons] at hlen
      exact hle.trans_eq hlen
  | mark_sent b =>
    simp only [State.next] at h
    split_ifs at h with hb
    cases h
    refine push_ok ?_ hcount hcalls hwoken
    exact (perm_middle.symm.trans ((perm_cons_erase hb).symm.append_left _)).trans hmessages

/-- **No message and no wakeup is lost**: where tasks wait and none of them was woken, all messages
    are in use. -/
theorem reuse_message_list_ok (n : Fin (2 ^ 31)) (s : State)
    (h : (reuseMessageList n).Reachable s) :
    s.Ok n ∧ (s.ready = [] → s.waiters_ ≠ [] → s.popped.Perm (range n)) := by
  have hok : s.Ok n := h.invariant (State.Ok n) (activate_ok n) fun _ _ _ => next_ok
  refine ⟨hok, fun hready hwaiters => ?_⟩
  have hle := hok.woken.resolve_left hwaiters
  rw [hready, length_nil, Nat.le_zero, length_eq_zero_iff] at hle
  have hmessages := hok.messages
  rwa [hle] at hmessages

/-- Task 4 takes the only message when it has come back, before task 3 that was woken looks. -/
def overtaken : State := ⟨[], 0, [3, 2], [], [0], [4, 3, 2, 1], [4, 1]⟩

theorem reuse_message_list_ok_overtaken : overtaken.Ok 1 ∧
    (overtaken.ready = [] → overtaken.waiters_ ≠ [] → overtaken.popped.Perm (range 1)) :=
  reuse_message_list_ok ⟨1, by decide⟩ overtaken ⟨[.with_message 1, .with_message 2, .with_message 3,
    .mark_sent 0, .with_message 4, .resume 0], by decide⟩

end Grappa.ReuseMessageList
