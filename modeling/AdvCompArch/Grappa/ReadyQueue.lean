import AdvCompArch.Lib.Dealing

/-! # The ready queue

    A queue of workers is linked through the workers themselves.  The prefetching queue deals
    its workers to twice as many such queues as the prefetch distance, so that when a worker
    is taken the one half a round further on is at the head of its queue, and its stack can
    be fetched. -/

namespace Grappa.ReadyQueue

open Option Function

open Function (update_of_ne)

/-- The `next` links of all workers; a null pointer is `none`. -/
abbrev Links (Worker : Type*) := Worker → Option Worker

structure ThreadQueue (Worker : Type*) where
  head : Option Worker
  tail : Option Worker
  len : ℕ

variable {Worker : Type*} [DecidableEq Worker]

namespace ThreadQueue

def empty : ThreadQueue Worker := ⟨none, none, 0⟩

/-- Add a worker to the queue.  There is no result if the null tail is followed. -/
def enqueue (q : ThreadQueue Worker) (next : Links Worker) (t : Worker) :
    Option (ThreadQueue Worker × Links Worker) :=
  match q.head, q.tail with
  | none, _ => some (⟨some t, some t, q.len + 1⟩, update next t none)
  | some head, some tail =>
    some (⟨some head, some t, q.len + 1⟩, update (update next tail (some t)) t none)
  | some _, none => none

/-- Remove a worker from the queue and return it; does not change its links. -/
def dequeueLazy (q : ThreadQueue Worker) (next : Links Worker) :
    Option Worker × ThreadQueue Worker :=
  match q.head with
  -- lazily ignore setting the tail if now empty
  | some result => (some result, { q with head := next result, len := q.len - 1 })
  | none => (none, { q with tail := none })

/-- Peek at the head of the queue. -/
def front (q : ThreadQueue Worker) : Option Worker := q.head

end ThreadQueue

structure PrefetchingThreadQueue (Worker : Type*) where
  queues : ℕ → ThreadQueue Worker
  eq_index : ℕ
  dq_index : ℕ
  num_queues : ℕ
  len : ℕ

/-- The queue and the links. -/
structure State (Worker : Type*) where
  queue : PrefetchingThreadQueue Worker
  next : Links Worker

/-- What `dequeue` returns, and the worker whose stack it prefetches. -/
structure Dequeued (Worker : Type*) where
  result : Option Worker
  tstack_worker : Option Worker
  deriving DecidableEq

namespace State

def init (prefetchDistance : ℕ) (next : Links Worker) : State Worker :=
  ⟨⟨fun _ => .empty, 0, 0, prefetchDistance * 2, 0⟩, next⟩

variable (s : State Worker)

def enqueue (t : Worker) : Option (State Worker) := do
  let (q, next) ← (s.queue.queues s.queue.eq_index).enqueue s.next t
  some ⟨{ s.queue with
    queues := update s.queue.queues s.queue.eq_index q
    eq_index := if s.queue.eq_index + 1 = s.queue.num_queues then 0 else s.queue.eq_index + 1
    len := s.queue.len + 1 }, next⟩

def dequeue : State Worker × Dequeued Worker :=
  let (result, q) := (s.queue.queues s.queue.dq_index).dequeueLazy s.next
  let queues := update s.queue.queues s.queue.dq_index q
  match result with
  | some w =>
    let t := s.queue.dq_index
    let tstack := (t + s.queue.num_queues / 2) % s.queue.num_queues
    -- now safe to NULL
    (⟨{ s.queue with
      queues := queues
      dq_index := if s.queue.dq_index + 1 = s.queue.num_queues then 0 else s.queue.dq_index + 1
      len := s.queue.len - 1 }, update s.next w none⟩, ⟨some w, (queues tstack).front⟩)
  | none => (⟨{ s.queue with queues := queues }, s.next⟩, ⟨none, none⟩)

end State

/-- What happens to the queue and to the links. -/
inductive Op (Worker : Type*)
  | enqueue (t : Worker)
  | dequeue
  /-- Another queue links a worker. -/
  | link (w : Worker) (next : Option Worker)

def State.step (s : State Worker) : Op Worker → Option (State Worker × List (Dequeued Worker))
  | .enqueue t => (s.enqueue t).map fun s => (s, [])
  | .dequeue => some (s.dequeue.1, [s.dequeue.2])
  | .link w next => some ({ s with next := update s.next w next }, [])

/-- The operations one after the other, with what the calls of `dequeue` give. -/
def State.run (s : State Worker) : List (Op Worker) → Option (State Worker × List (Dequeued Worker))
  | [] => some (s, [])
  | op :: ops => do
    let (s, results) ← s.step op
    let (s, rest) ← s.run ops
    some (s, results ++ rest)

/-! ### A FIFO queue -/

namespace Fifo

/-- The operations on a list. -/
def step (l : List Worker) : Op Worker → List Worker × List (Option Worker)
  | .enqueue t => (l ++ [t], [])
  | .dequeue => (l.tail, [l.head?])
  | .link .. => (l, [])

def run (l : List Worker) : List (Op Worker) → List Worker × List (Option Worker)
  | [] => (l, [])
  | op :: ops => ((run (step l op).1 ops).1, (step l op).2 ++ (run (step l op).1 ops).2)

/-- A worker in the queue is not put into it again, nor into another one: to wake a queued
    worker is a fatal error. -/
def Allowed (l : List Worker) : Op Worker → Prop
  | .enqueue t => t ∉ l
  | .dequeue => True
  | .link w _ => w ∉ l

def AllAllowed (l : List Worker) : List (Op Worker) → Prop
  | [] => True
  | op :: ops => Allowed l op ∧ AllAllowed (step l op).1 ops

end Fifo

/-! ### The links of one queue -/

/-- The workers that are linked from `p` on. -/
def Linked (next : Links Worker) : Option Worker → List Worker → Prop
  | p, [] => p = none
  | p, w :: l => p = some w ∧ Linked next (next w) l

variable {next : Links Worker} {l : List Worker} {p v : Option Worker} {w t : Worker}

omit [DecidableEq Worker] in
theorem Linked.congr {next' : Links Worker} (h : Linked next p l)
    (heq : ∀ w ∈ l, next' w = next w) : Linked next' p l := by
  induction l generalizing p with
  | nil => exact h
  | cons x l ih =>
    refine ⟨h.1, ?_⟩
    rw [heq x List.mem_cons_self]
    exact ih h.2 fun w hw => heq w (List.mem_cons_of_mem x hw)

theorem Linked.snoc (h : Linked next p (l ++ [w])) (hl : (l ++ [w]).Nodup) (ht : t ∉ l ++ [w]) :
    Linked (update (update next w (some t)) t none) p (l ++ [w] ++ [t]) := by
  induction l generalizing p with
  | nil =>
    have hne : w ≠ t := fun h => ht (by simp [h])
    refine ⟨h.1, ?_, ?_⟩
    · rw [update_of_ne hne, update_self]
    · rw [update_self]
      rfl
  | cons x l ih =>
    obtain ⟨hx, hl⟩ := List.nodup_cons.mp hl
    obtain ⟨htx, htl⟩ := List.ne_and_not_mem_of_not_mem_cons ht
    have hxw : x ≠ w := fun h => hx (by simp [h])
    refine ⟨h.1, ?_⟩
    rw [update_of_ne htx.symm, update_of_ne hxw]
    exact ih h.2 hl htl

/-- The queue has the workers of a list. -/
structure ThreadQueue.Holds (q : ThreadQueue Worker) (next : Links Worker) (l : List Worker) :
    Prop where
  linked : Linked next q.head l
  tail : ∀ w, l.getLast? = some w → q.tail = some w
  len : q.len = l.length

namespace ThreadQueue.Holds

variable {q : ThreadQueue Worker}

omit [DecidableEq Worker] in
theorem empty : Holds empty next [] := ⟨rfl, fun _ h => (some_ne_none _ h.symm).elim, rfl⟩

omit [DecidableEq Worker] in
theorem congr {next' : Links Worker} (h : q.Holds next l) (heq : ∀ w ∈ l, next' w = next w) :
    q.Holds next' l :=
  ⟨h.linked.congr heq, h.tail, h.len⟩

theorem update (h : q.Holds next l) (hw : w ∉ l) : q.Holds (update next w v) l :=
  h.congr fun _ hx => update_of_ne (ne_of_mem_of_not_mem hx hw) ..

/-- A worker is put behind the others. -/
theorem enqueue (h : q.Holds next l) (hl : l.Nodup) (ht : t ∉ l) :
    ∃ q' next', q.enqueue next t = some (q', next') ∧ q'.Holds next' (l ++ [t]) ∧
      ∀ w, w ≠ t → w ∉ l → next' w = next w := by
  rcases List.eq_nil_or_concat l with rfl | ⟨l, w, rfl⟩
  · have hhead : q.head = none := h.linked
    have hlen : q.len = 0 := h.len
    refine ⟨⟨some t, some t, q.len + 1⟩, Function.update next t none, ?_, ⟨?_, ?_, ?_⟩, ?_⟩
    · rw [ThreadQueue.enqueue, hhead]
    · exact ⟨rfl, Function.update_self ..⟩
    · exact fun _ h => h
    · rw [hlen]
      rfl
    · exact fun w hw _ => update_of_ne hw ..
  · rw [List.concat_eq_append] at h hl ht ⊢
    have htail : q.tail = some w := h.tail w (by simp)
    obtain ⟨head, hhead⟩ : ∃ head, q.head = some head := by
      have hlinked := h.linked
      cases l with
      | nil => exact ⟨w, hlinked.1⟩
      | cons x l => exact ⟨x, hlinked.1⟩
    refine ⟨⟨q.head, some t, q.len + 1⟩,
      Function.update (Function.update next w (some t)) t none, ?_, ⟨?_, ?_, ?_⟩, ?_⟩
    · rw [ThreadQueue.enqueue, hhead, htail]
    · exact h.linked.snoc hl ht
    · intro x hx
      rw [List.getLast?_concat] at hx
      exact hx
    · rw [List.length_append, List.length_singleton, ← h.len]
    · intro x hxt hx
      have hxw : x ≠ w := fun h => hx (by simp [h])
      rw [update_of_ne hxt, update_of_ne hxw]

omit [DecidableEq Worker] in
theorem dequeueLazy_cons (h : q.Holds next (w :: l)) :
    ∃ q', q.dequeueLazy next = (some w, q') ∧ q'.Holds next l := by
  have hhead : q.head = some w := h.linked.1
  refine ⟨{ q with head := next w, len := q.len - 1 }, ?_, ⟨h.linked.2, ?_, ?_⟩⟩
  · rw [dequeueLazy, hhead]
  · intro x hx
    exact h.tail x (by rw [List.getLast?_cons, hx]; rfl)
  · show q.len - 1 = l.length
    rw [h.len, List.length_cons, Nat.add_sub_cancel]

omit [DecidableEq Worker] in
theorem dequeueLazy_nil (h : q.Holds next []) :
    ∃ q', q.dequeueLazy next = (none, q') ∧ q'.Holds next [] := by
  have hhead : q.head = none := h.linked
  refine ⟨{ q with tail := none }, ?_, ⟨h.linked, ?_, h.len⟩⟩
  · rw [dequeueLazy, hhead]
  · exact fun _ h => (some_ne_none _ h.symm).elim

end ThreadQueue.Holds

/-! ### The prefetching queue -/

open Dealing

/-- The queues hold the piles of a list, dealt from `dq_index` on. -/
structure Represents (s : State Worker) (l : List Worker) : Prop where
  nodup : l.Nodup
  dq_index : s.queue.dq_index < s.queue.num_queues
  eq_index : s.queue.eq_index = ahead s.queue.num_queues s.queue.dq_index l.length
  queues : ∀ i < s.queue.num_queues,
    (s.queue.queues i).Holds s.next (pile s.queue.num_queues s.queue.dq_index i l)
  len : s.queue.len = l.length

omit [DecidableEq Worker] in
theorem init_represents {D : ℕ} (hD : 0 < D) (next : Links Worker) :
    Represents (.init D next) ([] : List Worker) where
  nodup := List.nodup_nil
  dq_index := Nat.mul_pos hD Nat.two_pos
  eq_index := (Nat.zero_mod _).symm
  queues := fun _ _ => .empty
  len := rfl

namespace Represents

variable {s : State Worker}

/-- A worker is put into the queue that comes next. -/
theorem enqueue (h : Represents s l) (ht : t ∉ l) :
    ∃ s', s.enqueue t = some s' ∧ Represents s' (l ++ [t]) := by
  have hlt : s.queue.eq_index < s.queue.num_queues := h.eq_index ▸ ahead_lt h.dq_index _
  have hsub : List.Sublist (pile s.queue.num_queues s.queue.dq_index s.queue.eq_index l) l :=
    pile_sublist
  obtain ⟨q, next, hq, hholds, hframe⟩ := (h.queues _ hlt).enqueue (h.nodup.sublist hsub)
    (fun hmem => ht (hsub.subset hmem))
  simp only [State.enqueue, hq, bind_eq_bind, bind_some, some_inj,
    exists_eq_left']
  refine ⟨?_, h.dq_index, ?_, ?_, ?_⟩
  · exact List.nodup_append.mpr ⟨h.nodup, List.nodup_singleton t, fun x hx y hy =>
      ne_of_mem_of_not_mem hx (List.mem_singleton.mp hy ▸ ht)⟩
  · show after _ _ = _
    rw [h.eq_index, after_ahead h.dq_index, List.length_append, List.length_singleton]
  · intro i hi
    show (update s.queue.queues s.queue.eq_index q i).Holds next _
    rw [pile_snoc h.dq_index, ← h.eq_index]
    split_ifs with heq
    · rw [← heq, update_self]
      exact hholds
    · rw [update_of_ne (Ne.symm heq)]
      apply (h.queues i hi).congr
      intro w hw
      -- the links that were written are of the new worker and of one on another pile
      apply hframe w (ne_of_mem_of_not_mem (mem_of_mem_pile hw) ht)
      exact fun hmem => heq (pile_disjoint h.nodup hmem hw)
  · show s.queue.len + 1 = _
    rw [h.len, List.length_append, List.length_singleton]

theorem dequeue (h : Represents s l) :
    Represents s.dequeue.1 l.tail ∧ s.dequeue.2.result = l.head? := by
  cases l with
  | nil =>
    obtain ⟨q, hq, hholds⟩ := (h.queues _ h.dq_index).dequeueLazy_nil
    simp only [State.dequeue, hq]
    refine ⟨⟨h.nodup, h.dq_index, h.eq_index, ?_, h.len⟩, rfl⟩
    intro i hi
    show (update s.queue.queues s.queue.dq_index q i).Holds s.next []
    by_cases heq : i = s.queue.dq_index
    · rw [heq, update_self]
      exact hholds
    · rw [update_of_ne heq]
      exact h.queues i hi
  | cons w l =>
    have hfirst := h.queues _ h.dq_index
    rw [pile_cons_self] at hfirst
    obtain ⟨hw, hl⟩ := List.nodup_cons.mp h.nodup
    obtain ⟨q, hq, hholds⟩ := hfirst.dequeueLazy_cons
    simp only [State.dequeue, hq]
    refine ⟨⟨hl, after_lt h.dq_index, ?_, ?_, ?_⟩, rfl⟩
    · show s.queue.eq_index = ahead _ (after _ _) _
      rw [h.eq_index, ahead_after h.dq_index]
      rfl
    · intro i hi
      show (update s.queue.queues s.queue.dq_index q i).Holds
        (update s.next w none) (pile _ (after _ _) i l)
      have hnot : w ∉ pile s.queue.num_queues (after s.queue.num_queues s.queue.dq_index) i l :=
        fun hmem => hw (mem_of_mem_pile hmem)
      by_cases heq : s.queue.dq_index = i
      · rw [← heq, update_self]
        exact hholds.update (heq ▸ hnot)
      · rw [update_of_ne (Ne.symm heq)]
        have hpile := h.queues i hi
        rw [pile_cons_of_ne heq] at hpile
        exact hpile.update hnot
    · show s.queue.len - 1 = l.length
      rw [h.len, List.length_cons, Nat.add_sub_cancel]

theorem link (h : Represents s l) (hw : w ∉ l) :
    Represents { s with next := update s.next w v } l :=
  ⟨h.nodup, h.dq_index, h.eq_index,
    fun i hi => (h.queues i hi).update fun hmem => hw (mem_of_mem_pile hmem), h.len⟩

theorem step (h : Represents s l) {op : Op Worker} (hop : Fifo.Allowed l op) :
    ∃ s' results, s.step op = some (s', results) ∧ Represents s' (Fifo.step l op).1 ∧
      results.map Dequeued.result = (Fifo.step l op).2 ∧
      s'.queue.num_queues = s.queue.num_queues := by
  cases op with
  | enqueue t =>
    obtain ⟨s', hs, hrep⟩ := h.enqueue hop
    refine ⟨s', [], by rw [State.step, hs]; rfl, hrep, rfl, ?_⟩
    rw [State.enqueue] at hs
    obtain ⟨q, -, hq⟩ := bind_eq_some_iff.mp hs
    rw [← some.inj hq]
  | dequeue =>
    refine ⟨_, _, rfl, h.dequeue.1, by rw [List.map_singleton, h.dequeue.2]; rfl, ?_⟩
    simp only [State.dequeue]
    split <;> rfl
  | link w next => exact ⟨_, _, rfl, h.link hop, rfl, rfl⟩

theorem run (h : Represents s l) {ops : List (Op Worker)} (hops : Fifo.AllAllowed l ops) :
    ∃ s' results, s.run ops = some (s', results) ∧ Represents s' (Fifo.run l ops).1 ∧
      results.map Dequeued.result = (Fifo.run l ops).2 ∧
      s'.queue.num_queues = s.queue.num_queues := by
  induction ops generalizing s l with
  | nil => exact ⟨s, [], rfl, h, rfl, rfl⟩
  | cons op ops ih =>
    obtain ⟨s', results, hstep, hrep, hresults, hn⟩ := h.step hops.1
    obtain ⟨s'', rest, hrun, hrep, hrest, hn'⟩ := ih hrep hops.2
    refine ⟨s'', results ++ rest, ?_, hrep, ?_, hn'.trans hn⟩
    · simp only [State.run, hstep, hrun, bind_eq_bind, bind_some]
    · rw [List.map_append, hresults, hrest]
      rfl

omit [DecidableEq Worker] in
theorem length_le (h : Represents s l) {i j : ℕ} (hi : i < s.queue.num_queues)
    (hj : j < s.queue.num_queues) : (s.queue.queues i).len ≤ (s.queue.queues j).len + 1 := by
  rw [(h.queues i hi).len, (h.queues j hj).len]
  exact length_pile_le h.dq_index hi hj

omit [DecidableEq Worker] in
theorem sum_length (h : Represents s l) :
    ∑ i ∈ Finset.range s.queue.num_queues, (s.queue.queues i).len = s.queue.len := by
  rw [Finset.sum_congr rfl fun i hi => (h.queues i (Finset.mem_range.mp hi)).len, h.len,
    sum_length_pile h.dq_index]

end Represents

/-- **The prefetching queue is a FIFO queue.**  As long as no worker is put into it twice, or
    into another queue while it is there, every call of `dequeue` gives what it would from one
    list of workers, and the length is that of the list.  The lengths of the queues, which add
    up to it, differ by one at most. -/
theorem run_spec {D : ℕ} (hD : 0 < D) (next : Links Worker) {ops : List (Op Worker)}
    (hops : Fifo.AllAllowed [] ops) :
    ∃ s results, (State.init D next).run ops = some (s, results) ∧
      results.map Dequeued.result = (Fifo.run [] ops).2 ∧
      s.queue.len = (Fifo.run [] ops).1.length ∧
      s.queue.num_queues = D * 2 ∧
      (∀ i < D * 2, ∀ j < D * 2, (s.queue.queues i).len ≤ (s.queue.queues j).len + 1) ∧
      ∑ i ∈ Finset.range (D * 2), (s.queue.queues i).len = s.queue.len := by
  obtain ⟨s, results, hrun, hrep, hresults, hn⟩ := (init_represents hD next).run hops
  have hn : s.queue.num_queues = D * 2 := hn
  refine ⟨s, results, hrun, hresults, hrep.len, hn, ?_, ?_⟩
  · intro i hi j hj
    exact hrep.length_le (hn ▸ hi) (hn ▸ hj)
  · rw [← hn]
    exact hrep.sum_length

/-- Three workers pass through a queue of prefetch distance one, which is empty in between. -/
theorem run_three : ∃ s results, (State.init 1 fun _ : ℕ => none).run
      [.enqueue 7, .dequeue, .dequeue, .enqueue 8, .enqueue 9, .enqueue 7, .dequeue] =
      some (s, results) ∧
    results.map Dequeued.result = [some 7, none, some 8] ∧ s.queue.len = 2 := by
  obtain ⟨s, results, hrun, hresults, hlen, -⟩ := run_spec Nat.one_pos (fun _ : ℕ => none)
    (show Fifo.AllAllowed []
      [.enqueue 7, .dequeue, .dequeue, .enqueue 8, .enqueue 9, .enqueue 7, .dequeue] by
      simp [Fifo.AllAllowed, Fifo.Allowed, Fifo.step])
  exact ⟨s, results, hrun, hresults, hlen⟩

end Grappa.ReadyQueue
