import AdvCompArch.Lib.Transition

/-! # Full/empty words

    A word with a full bit.  An operation waits until the bit is as it wants it, then reads or
    writes the word, sets the bit, and wakes everyone who waits: tasks, which try again, and
    suspended delegates, which are the `readFF` of a request from another core and run at once,
    inside of the operation that wakes them.  Such a delegate sends a reply, and a task that
    sends may have to yield: so an operation can stand in the middle of a `broadcast`, of one
    that it runs for a delegate, or of one below that, while other tasks go on. -/

namespace Grappa

open List Transition Option

/-- The operations on a word; `serve` is the `readFF` of a request from another core. -/
inductive FullEmptyOp (T : Type*) where
  | writeXF (t : T)
  | writeEF (t : T)
  | readFF
  | readFE
  | serve (request : ℕ)
  deriving DecidableEq

/-- The state that an operation waits for, true for full. -/
def FullEmptyOp.desired_state {T : Type*} : FullEmptyOp T → Option Bool
  | .writeXF _ => none
  | .writeEF _ => some false
  | .readFF | .readFE | .serve _ => some true

/-- What is left of an operation, from the top of the stack. -/
inductive FullEmptyFrame (T : Type*) where
  /-- Before a round of `block_until`. -/
  | block_until (op : FullEmptyOp T)
  /-- Before a round of the loop in `broadcast`. -/
  | broadcast
  /-- Before the reply to a request. -/
  | fill_remote (request : ℕ) (val : T)
  deriving DecidableEq

/-- What waits in the list of a word: a task, with the operation that it is to try again and the
    rest of its stack, or a suspended delegate. -/
inductive FullEmptyWaiter (T : Type*) where
  | task (id : ℕ) (op : FullEmptyOp T) (rest : List (FullEmptyFrame T))
  | delegate (request : ℕ)
  deriving DecidableEq

/-- The operation of a waiter. -/
def FullEmptyWaiter.op {T : Type*} : FullEmptyWaiter T → FullEmptyOp T
  | .task _ op _ => op
  | .delegate request => .serve request

def FullEmptyWaiter.id {T : Type*} : FullEmptyWaiter T → Option ℕ
  | .task id _ _ => some id
  | .delegate _ => none

/-- A task with its stack; without a task it is the handler of a message. -/
structure FullEmptyThread (T : Type*) where
  id : Option ℕ
  stack : List (FullEmptyFrame T)
  deriving DecidableEq

/-- A value that was read, and the state after `block_until`. -/
structure FullEmptyRead (T : Type*) where
  value : T
  state : Bool
  deriving DecidableEq

/-- A word and those who use it. -/
structure FullEmpty (T : Type*) where
  /-- True for full. -/
  state_ : Bool
  t_ : T
  /-- The first is the next to be woken. -/
  waiters_ : List (FullEmptyWaiter T)
  /-- The tasks that can run. -/
  ready : List (FullEmptyThread T)
  /-- What runs; none while the scheduler chooses. -/
  current : Option (FullEmptyThread T)
  /-- The requests on their way to the core of the word. -/
  requests : List ℕ
  /-- The replies, in the order in which they were sent. -/
  replies : List (ℕ × T)
  /-- The values written, and those read, in this order. -/
  written : List T
  reads : List (FullEmptyRead T)
  /-- The handler of a message was to be suspended. -/
  aborted : Bool
  deriving DecidableEq

namespace FullEmpty

variable {T : Type*} (s : FullEmpty T)

/-- The operation wants the state that the word has. -/
def Passes (op : FullEmptyOp T) : Prop := ∀ d ∈ op.desired_state, s.state_ = d

instance (op : FullEmptyOp T) : Decidable (s.Passes op) :=
  inferInstanceAs (Decidable (∀ d ∈ op.desired_state, s.state_ = d))

def goOn (th : FullEmptyThread T) (stack : List (FullEmptyFrame T)) : FullEmpty T :=
  { s with current := some { th with stack := stack } }

/-- The word is read. -/
def readXX : FullEmpty T := { s with reads := s.reads ++ [FullEmptyRead.mk s.t_ s.state_] }

/-- `t_` and `state_` are stored. -/
def fill (t : T) : FullEmpty T :=
  { s with t_ := t, state_ := true, written := s.written ++ [t] }

/-- What an operation does once it has passed, up to its `broadcast`.  `readFE` stores the state
    just before it reads; nothing comes in between the two. -/
def perform (th : FullEmptyThread T) (rest : List (FullEmptyFrame T)) : FullEmptyOp T → FullEmpty T
  | .writeXF t | .writeEF t => (s.fill t).goOn th (.broadcast :: rest)
  | .readFF => s.readXX.goOn th (.broadcast :: rest)
  | .readFE => { s.readXX with state_ := false }.goOn th (.broadcast :: rest)
  | .serve request => s.readXX.goOn th (.broadcast :: .fill_remote request s.t_ :: rest)

/-- `wait`: the task is suspended; a handler cannot be. -/
def wait (th : FullEmptyThread T) (op : FullEmptyOp T) (rest : List (FullEmptyFrame T)) :
    FullEmpty T :=
  match th.id with
  | some id => { s with waiters_ := .task id op rest :: s.waiters_, current := none }
  | none => { s with aborted := true }

/-- A task that waits can run again, and will go through the loop of `block_until`. -/
def thread_wake (id : ℕ) (op : FullEmptyOp T) (stack : List (FullEmptyFrame T)) : FullEmpty T :=
  { s with ready := s.ready ++ [FullEmptyThread.mk (some id) (.block_until op :: stack)] }

/-- One round of the loop in `broadcast`. -/
def broadcastRound (th : FullEmptyThread T) (rest : List (FullEmptyFrame T)) : FullEmpty T :=
  match s.waiters_ with
  | [] => s.goOn th rest
  | .task id op stack :: waiters =>
    ({ s with waiters_ := waiters }.thread_wake id op stack).goOn th (.broadcast :: rest)
  | .delegate request :: waiters =>
    { s with waiters_ := waiters }.goOn th (.block_until (.serve request) :: .broadcast :: rest)

/-- What runs goes on by one step. -/
def step (th : FullEmptyThread T) : FullEmpty T :=
  match th.stack with
  | [] => { s with current := none }
  | .block_until op :: rest => if s.Passes op then s.perform th rest op else s.wait th op rest
  | .broadcast :: rest => s.broadcastRound th rest
  | .fill_remote request val :: rest =>
    { s with replies := s.replies ++ [(request, val)] }.goOn th rest

/-- A request arrives: it is served at once, or leaves a suspended delegate. -/
def arrive (request : ℕ) : FullEmpty T :=
  if s.state_ = true then { s with current := some ⟨none, [.block_until (.serve request)]⟩ }
  else { s with waiters_ := .delegate request :: s.waiters_ }

inductive Label (T : Type*) where
  /-- A task calls an operation. -/
  | start (id : ℕ) (op : FullEmptyOp T)
  /-- The ready task at this place runs. -/
  | resume (i : ℕ)
  /-- What runs goes on. -/
  | step
  /-- A task that is to send a reply yields. -/
  | yield
  /-- A request is sent on another core. -/
  | request (n : ℕ)
  /-- The request at this place arrives. -/
  | arrive (i : ℕ)
  deriving DecidableEq

/-- The task is not in the middle of an operation. -/
def Idle (id : ℕ) : Prop := (∀ w ∈ s.waiters_, w.id ≠ some id) ∧ ∀ th ∈ s.ready, th.id ≠ some id

instance (id : ℕ) : Decidable (s.Idle id) := inferInstanceAs (Decidable (_ ∧ _))

/-- A task calls operations of its own; requests come in messages. -/
def startable : FullEmptyOp T → Bool
  | .serve _ => false
  | _ => true

/-- A task that is to send a reply yields: there is no room for the message. -/
def thread_yield : Option (FullEmpty T) :=
  match s.current with
  | some ⟨some id, .fill_remote request val :: rest⟩ => some { s with
      ready := s.ready ++ [⟨some id, .fill_remote request val :: rest⟩]
      current := none }
  | _ => none

/-- The scheduler, and the arrival of messages, come in when nothing runs. -/
def next : Label T → Option (FullEmpty T)
  | .start id op =>
    if s.current.isNone ∧ startable op ∧ s.Idle id then
      some { s with current := some ⟨some id, [.block_until op]⟩ }
    else none
  | .resume i =>
    if s.current.isNone then
      (s.ready[i]?).map fun th => { s with ready := s.ready.eraseIdx i, current := some th }
    else none
  | .step => s.current.map s.step
  | .yield => s.thread_yield
  | .request n => some { s with requests := s.requests ++ [n] }
  | .arrive i =>
    if s.current.isNone then
      (s.requests[i]?).map fun n => { s with requests := s.requests.eraseIdx i }.arrive n
    else none

/-- The constructors: an empty word with `t` in it, or a full one, which counts as written. -/
def init (full : Bool) (t : T) : FullEmpty T where
  state_ := full
  t_ := t
  waiters_ := []
  ready := []
  current := none
  requests := []
  replies := []
  written := if full then [t] else []
  reads := []
  aborted := false

def system (full : Bool) (t : T) : Transition.System (FullEmpty T) (Label T) where
  init := init full t
  next := next

/-! ### Nobody waits for what is so -/

/-- Nobody waits for the state that the word has. -/
def Settled : Prop := ∀ w ∈ s.waiters_, w.op.desired_state = some (!s.state_)

/-- The next steps wake everyone who waits: a `broadcast`, or a delegate that will read and then
    call it. -/
def AboutToWake : List (FullEmptyFrame T) → Prop
  | .broadcast :: _ => True
  | .block_until (.serve _) :: _ => s.state_ = true
  | _ => False

/-- Everyone who waits does so for the state that the word has, and is about to be woken. -/
def Flushing : Prop :=
  (∀ w ∈ s.waiters_, w.op.desired_state = some s.state_) ∧
    ∃ th ∈ s.current, s.AboutToWake th.stack

/-- What a handler is in the middle of. -/
def HandlerFrame : FullEmptyFrame T → Prop
  | .block_until (.serve _) | .broadcast | .fill_remote _ _ => True
  | _ => False

/-- The tasks that can run are to try an operation again or to send a reply; a handler runs on a
    full word, and serves requests. -/
structure Inv : Prop where
  -- nobody waits for the state that the word has, or the running operation wakes them all
  settled : s.Settled ∨ s.Flushing
  ready : ∀ th ∈ s.ready, ∃ id, th.id = some id
  -- a handler only fills the word, so that no delegate it runs has to wait
  handler : ∀ th ∈ s.current, th.id = none →
    s.state_ = true ∧ ∀ f ∈ th.stack, HandlerFrame f
  reads : ∀ r ∈ s.reads, r.state = true
  running : s.aborted = false

variable {s} {s' : FullEmpty T} {th : FullEmptyThread T} {rest : List (FullEmptyFrame T)}
  {op : FullEmptyOp T} {l : Label T}

theorem init_inv (full : Bool) (t : T) : (init full t).Inv where
  settled := .inl (by simp [Settled, init])
  ready := by simp [init]
  handler := by simp [init]
  reads := by simp [init]
  running := rfl

theorem Inv.uniform (hi : s.Inv) : ∃ b, ∀ w ∈ s.waiters_, w.op.desired_state = some b := by
  rcases hi.settled with h | h
  · exact ⟨_, h⟩
  · exact ⟨_, h.1⟩

theorem settled_of_uniform {b : Bool} (h : ∀ w ∈ s.waiters_, w.op.desired_state = some b)
    (hcur : s.current = some th) (htop : s.AboutToWake th.stack) : s.Settled ∨ s.Flushing := by
  by_cases hb : b = s.state_
  · subst hb
    exact .inr ⟨h, th, hcur, htop⟩
  · have hb : b = !s.state_ := by
      revert hb
      cases b <;> cases s.state_ <;> simp
    subst hb
    exact .inl h

theorem Inv.settled_of_top (hi : s.Inv) (hcur : s.current = some th)
    (htop : ¬s.AboutToWake th.stack) : s.Settled := by
  rcases hi.settled with h | ⟨-, th', hcur', hwake⟩
  · exact h
  · rw [hcur] at hcur'
    obtain rfl := mem_some_iff.mp hcur'
    exact absurd hwake htop

theorem Inv.settled_of_none (hi : s.Inv) (hcur : s.current = none) : s.Settled := by
  rcases hi.settled with h | ⟨-, th, hth, -⟩
  · exact h
  · rw [hcur] at hth
    cases hth

/-! ### The steps of an operation -/

theorem perform_frame (s : FullEmpty T) (th : FullEmptyThread T) (rest : List (FullEmptyFrame T))
    (op : FullEmptyOp T) :
    (s.perform th rest op).waiters_ = s.waiters_ ∧ (s.perform th rest op).ready = s.ready ∧
      (s.perform th rest op).aborted = s.aborted ∧
        ∃ more, (s.perform th rest op).current = some ⟨th.id, .broadcast :: more⟩ ∧
          ∀ f ∈ more, f ∈ rest ∨ ∃ n v, op = .serve n ∧ f = .fill_remote n v := by
  cases op with
  | serve n =>
    refine ⟨rfl, rfl, rfl, _, rfl, ?_⟩
    intro f hf
    rcases mem_cons.mp hf with rfl | h
    · exact .inr ⟨n, s.t_, rfl, rfl⟩
    · exact .inl h
  | _ => exact ⟨rfl, rfl, rfl, _, rfl, fun f hf => .inl hf⟩

theorem perform_reads (hpass : s.Passes op) (hreads : ∀ r ∈ s.reads, r.state = true) :
    ∀ r ∈ (s.perform th rest op).reads, r.state = true := by
  have hread (hfull : s.state_ = true) :
      ∀ r ∈ s.reads ++ [FullEmptyRead.mk s.t_ s.state_], r.state = true := by
    intro r hr
    rcases mem_append.mp hr with h | h
    · exact hreads r h
    · rw [mem_singleton.mp h]
      exact hfull
  cases op with
  | writeXF t => exact hreads
  | writeEF t => exact hreads
  | readFF => exact hread (hpass true rfl)
  | readFE => exact hread (hpass true rfl)
  | serve n => exact hread (hpass true rfl)

theorem perform_inv (hi : s.Inv) (hcur : s.current = some th)
    (hstack : th.stack = .block_until op :: rest) (hpass : s.Passes op) :
    (s.perform th rest op).Inv := by
  obtain ⟨b, hb⟩ := hi.uniform
  obtain ⟨hw, hr, ha, more, hcur', hmore⟩ := perform_frame s th rest op
  have hhandler (hid : th.id = none) :
      s.state_ = true ∧ HandlerFrame (.block_until op) ∧ ∀ f ∈ rest, HandlerFrame f := by
    have := hi.handler th hcur hid
    rw [hstack] at this
    simpa using this
  constructor
  case settled =>
    rw [← hw] at hb
    exact settled_of_uniform hb hcur' trivial
  case ready =>
    rw [hr]
    exact hi.ready
  case handler =>
    intro th' hth' hid
    rw [hcur'] at hth'
    obtain rfl := mem_some_iff.mp hth'
    obtain ⟨hfull, hop, hrest⟩ := hhandler hid
    -- a handler serves a request, which leaves the word full
    cases op with
    | serve n =>
      refine ⟨hfull, ?_⟩
      intro f hf
      rcases mem_cons.mp hf with rfl | h
      · trivial
      · rcases hmore f h with h | ⟨_, _, -, rfl⟩
        · exact hrest f h
        · trivial
    | _ => exact absurd hop (by simp [HandlerFrame])
  case reads => exact perform_reads hpass hi.reads
  case running => exact ha.trans hi.running

/-- **An operation that has not passed** is that of a task, which waits for the other state. -/
theorem wait_inv (hi : s.Inv) (hcur : s.current = some th)
    (hstack : th.stack = .block_until op :: rest) (hpass : ¬s.Passes op) :
    (s.wait th op rest).Inv := by
  obtain ⟨d, hd, hne⟩ : ∃ d, op.desired_state = some d ∧ s.state_ ≠ d := by
    unfold Passes at hpass
    push Not at hpass
    exact hpass
  have hnot : ¬s.AboutToWake th.stack := by
    rw [hstack]
    intro hwake
    cases op with
    | serve n =>
      obtain rfl : true = d := some.inj hd
      exact hne hwake
    | _ => exact hwake
  have hset := hi.settled_of_top hcur hnot
  cases hid : th.id with
  | none =>
    -- a handler runs on a full word
    obtain ⟨hfull, hframes⟩ := hi.handler th hcur hid
    rw [hstack] at hframes
    have hop := hframes _ mem_cons_self
    cases op with
    | serve n =>
      obtain rfl : true = d := some.inj hd
      exact absurd hfull hne
    | _ => exact absurd hop (by simp [HandlerFrame])
  | some id =>
    have hd' : d = !s.state_ := by
      revert hne
      cases d <;> cases s.state_ <;> simp
    simp only [wait, hid]
    exact {
      settled := by
        apply Or.inl
        intro w hw
        rcases mem_cons.mp hw with rfl | h
        · exact hd.trans (congrArg some hd')
        · exact hset w h
      ready := hi.ready
      handler := fun th' hth' => by cases hth'
      reads := hi.reads
      running := hi.running }

theorem goOn_inv (hi : s.Inv) (hcur : s.current = some th) {waiters : List (FullEmptyWaiter T)}
    {ready : List (FullEmptyThread T)} {replies : List (ℕ × T)} {stack : List (FullEmptyFrame T)}
    (hsettled : Settled { s with waiters_ := waiters } ∨
      Flushing { s with waiters_ := waiters, current := some { th with stack := stack } })
    (hready : ∀ th ∈ ready, ∃ id, th.id = some id)
    (hframes : (∀ f ∈ th.stack, HandlerFrame f) → ∀ f ∈ stack, HandlerFrame f) :
    (goOn { s with waiters_ := waiters, ready := ready, replies := replies } th stack).Inv where
  settled := hsettled
  ready := hready
  handler := by
    intro th' hth' hid
    obtain rfl := mem_some_iff.mp hth'
    obtain ⟨hfull, hold⟩ := hi.handler th hcur hid
    exact ⟨hfull, hframes hold⟩
  reads := hi.reads
  running := hi.running

/-- **A round of `broadcast`**: one who waits is woken. -/
theorem broadcastRound_inv (hi : s.Inv) (hcur : s.current = some th)
    (hstack : th.stack = .broadcast :: rest) : (s.broadcastRound th rest).Inv := by
  obtain ⟨b, hb⟩ := hi.uniform
  have hrest (h : ∀ f ∈ th.stack, HandlerFrame f) : ∀ f ∈ rest, HandlerFrame f := by
    intro f hf
    rw [hstack] at h
    exact h f (mem_cons_of_mem _ hf)
  unfold broadcastRound
  cases hw : s.waiters_ with
  | nil =>
    have hset : s.Settled := by
      intro w h
      rw [hw] at h
      cases h
    exact goOn_inv hi hcur (.inl hset) hi.ready hrest
  | cons w waiters =>
    rw [hw] at hb
    have hb' : ∀ w ∈ waiters, w.op.desired_state = some b :=
      fun w h => hb w (mem_cons_of_mem _ h)
    cases w with
    | task id op stack =>
      apply goOn_inv hi hcur
      · let s' : FullEmpty T := { s with
          waiters_ := waiters, current := some { th with stack := .broadcast :: rest } }
        have hwake : s'.AboutToWake (.broadcast :: rest) := trivial
        exact @settled_of_uniform _ s' _ _ hb' rfl hwake
      · intro th' hth'
        rcases mem_append.mp hth' with h | h
        · exact hi.ready th' h
        · rw [mem_singleton.mp h]
          exact ⟨id, rfl⟩
      · intro h
        rwa [hstack] at h
    | delegate n =>
      have hbt : b = true := (some.inj (hb _ mem_cons_self)).symm
      subst hbt
      apply goOn_inv hi hcur
      · by_cases hfull : s.state_ = true
        · -- the delegate will read the word and go on with the others
          apply Or.inr
          refine ⟨?_, _, rfl, hfull⟩
          intro w h
          rw [hb' w h, ← hfull]
        · apply Or.inl
          intro w h
          show w.op.desired_state = some (!s.state_)
          rw [hb' w h]
          simpa using hfull
      · exact hi.ready
      · intro h f hf
        rcases mem_cons.mp hf with rfl | hf
        · trivial
        · rw [hstack] at h
          exact h f hf

theorem step_inv (hi : s.Inv) (hcur : s.current = some th) : (s.step th).Inv := by
  unfold step
  cases hstack : th.stack with
  | nil =>
    have hset := hi.settled_of_top hcur (by rw [hstack]; exact id)
    exact { hi with
      settled := .inl hset
      handler := fun th' hth' => by cases hth' }
  | cons f rest =>
    cases f with
    | block_until op =>
      dsimp only
      split
      · rename_i hpass
        exact perform_inv hi hcur hstack hpass
      · rename_i hpass
        exact wait_inv hi hcur hstack hpass
    | broadcast => exact broadcastRound_inv hi hcur hstack
    | fill_remote n v =>
      have hset := hi.settled_of_top hcur (by rw [hstack]; exact id)
      apply goOn_inv hi hcur (.inl hset) hi.ready
      intro h f hf
      rw [hstack] at h
      exact h f (mem_cons_of_mem _ hf)

theorem arrive_inv (hi : s.Inv) (hcur : s.current = none) (n : ℕ) : (s.arrive n).Inv := by
  have hset := hi.settled_of_none hcur
  unfold arrive
  split
  · rename_i hfull
    exact { hi with
      settled := .inl hset
      handler := by
        intro th hth _
        obtain rfl := mem_some_iff.mp hth
        refine ⟨hfull, fun f hf => ?_⟩
        rw [mem_singleton.mp hf]
        trivial }
  · rename_i hempty
    exact { hi with
      settled := by
        apply Or.inl
        intro w hw
        rcases mem_cons.mp hw with rfl | h
        · simpa [FullEmptyWaiter.op, FullEmptyOp.desired_state] using hempty
        · exact hset w h }

/-- **Every step keeps the invariant.** -/
theorem next_inv (hi : s.Inv) (h : s.next l = some s') : s'.Inv := by
  cases l with
  | start id op =>
    obtain ⟨⟨hnone, -, -⟩, rfl⟩ := ite_some_none_eq_some.mp h
    have hset := hi.settled_of_none (isNone_iff_eq_none.mp hnone)
    exact { hi with
      settled := .inl hset
      handler := by
        intro th hth hid
        obtain rfl := mem_some_iff.mp hth
        cases hid }
  | resume i =>
    obtain ⟨hnone, hmap⟩ := ite_none_right_eq_some.mp h
    obtain ⟨th, hth, rfl⟩ := map_eq_some_iff.mp hmap
    have hset := hi.settled_of_none (isNone_iff_eq_none.mp hnone)
    exact { hi with
      settled := .inl hset
      ready := fun th' hth' => hi.ready th' (mem_of_mem_eraseIdx hth')
      handler := by
        intro th' hth' hid
        obtain rfl := mem_some_iff.mp hth'
        obtain ⟨id, hid'⟩ := hi.ready th (mem_of_getElem? hth)
        rw [hid'] at hid
        cases hid }
  | step =>
    obtain ⟨th, hcur, rfl⟩ := map_eq_some_iff.mp h
    exact step_inv hi hcur
  | yield =>
    change s.thread_yield = some s' at h
    unfold thread_yield at h
    split at h
    · rename_i id n v rest hcur
      cases h
      have hset := hi.settled_of_top hcur (fun hwake => hwake)
      exact { hi with
        settled := .inl hset
        ready := by
          intro th hth
          rcases mem_append.mp hth with h | h
          · exact hi.ready th h
          · rw [mem_singleton.mp h]
            exact ⟨id, rfl⟩
        handler := fun th hth => by cases hth }
    · cases h
  | request n =>
    cases h
    exact { hi with settled := hi.settled, handler := hi.handler }
  | arrive i =>
    obtain ⟨hnone, hmap⟩ := ite_none_right_eq_some.mp h
    obtain ⟨n, -, rfl⟩ := map_eq_some_iff.mp hmap
    have hi' : Inv { s with requests := s.requests.eraseIdx i } :=
      { hi with settled := hi.settled, handler := hi.handler }
    exact arrive_inv hi' (isNone_iff_eq_none.mp hnone) n

/-! ### Runs of `writeEF` and `readFE` -/

/-- The operations that take turns. -/
def TakesTurns : FullEmptyOp T → Prop
  | .writeEF _ | .readFE => True
  | _ => False

/-- Tasks call `writeEF` and `readFE`, and no request is sent. -/
def OnlyEF (_ : FullEmpty T) : Label T → Prop
  | .start _ op => TakesTurns op
  | .request _ => False
  | _ => True

/-- What a task is in the middle of in such a run. -/
def TurnFrame : FullEmptyFrame T → Prop
  | .block_until op => TakesTurns op
  | .broadcast => True
  | .fill_remote _ _ => False

/-- One who waits in such a run. -/
def TurnWaiter : FullEmptyWaiter T → Prop
  | .task _ op rest => TakesTurns op ∧ ∀ f ∈ rest, TurnFrame f
  | .delegate _ => False

/-- What was written was read, but for the value that is in the word. -/
structure Turns (s : FullEmpty T) : Prop where
  values : s.written = s.reads.map FullEmptyRead.value ++ if s.state_ then [s.t_] else []
  waiters : ∀ w ∈ s.waiters_, TurnWaiter w
  ready : ∀ th ∈ s.ready, ∀ f ∈ th.stack, TurnFrame f
  current : ∀ th ∈ s.current, ∀ f ∈ th.stack, TurnFrame f
  requests : s.requests = []

theorem init_turns (full : Bool) (t : T) : (init full t).Turns where
  values := rfl
  waiters := by simp [init]
  ready := by simp [init]
  current := by simp [init]
  requests := rfl

/-- **A write finds the last value read, and a read finds a value.** -/
theorem perform_turns (ht : s.Turns) (hcur : s.current = some th)
    (hstack : th.stack = .block_until op :: rest) (hpass : s.Passes op) :
    (s.perform th rest op).Turns := by
  have hframes := ht.current th hcur
  rw [hstack] at hframes
  have hrest : ∀ f ∈ FullEmptyFrame.broadcast :: rest, TurnFrame f := by
    intro f hf
    rcases mem_cons.mp hf with rfl | h
    · trivial
    · exact hframes f (mem_cons_of_mem _ h)
  have hvalues := ht.values
  have hop : TakesTurns op := hframes _ mem_cons_self
  cases op with
  | writeEF t =>
    have hempty : s.state_ = false := hpass false rfl
    exact { ht with
      values := by
        show s.written ++ [t] = s.reads.map FullEmptyRead.value ++ [t]
        rw [hvalues, hempty]
        simp
      current := by
        intro th' hth'
        obtain rfl := mem_some_iff.mp hth'
        exact hrest }
  | readFE =>
    have hfull : s.state_ = true := hpass true rfl
    exact { ht with
      values := by
        show s.written = (s.reads ++ [_]).map FullEmptyRead.value ++ []
        rw [hvalues, hfull]
        simp
      current := by
        intro th' hth'
        obtain rfl := mem_some_iff.mp hth'
        exact hrest }
  | writeXF t => exact hop.elim
  | readFF => exact hop.elim
  | serve n => exact hop.elim

theorem broadcastRound_turns (ht : s.Turns) (hcur : s.current = some th)
    (hstack : th.stack = .broadcast :: rest) : (s.broadcastRound th rest).Turns := by
  have hframes := ht.current th hcur
  rw [hstack] at hframes
  unfold broadcastRound
  cases hw : s.waiters_ with
  | nil =>
    exact { ht with
      current := by
        intro th' hth'
        obtain rfl := mem_some_iff.mp hth'
        exact fun f hf => hframes f (mem_cons_of_mem _ hf) }
  | cons w waiters =>
    have hwaiters := ht.waiters
    rw [hw] at hwaiters
    have hw := hwaiters w mem_cons_self
    cases w with
    | delegate n => exact hw.elim
    | task id op stack =>
      exact { ht with
        waiters := fun w h => hwaiters w (mem_cons_of_mem _ h)
        ready := by
          intro th' hth' f hf
          rcases mem_append.mp hth' with h | h
          · exact ht.ready th' h f hf
          · rw [mem_singleton.mp h] at hf
            rcases mem_cons.mp hf with rfl | h
            · exact hw.1
            · exact hw.2 f h
        current := by
          intro th' hth'
          obtain rfl := mem_some_iff.mp hth'
          exact hframes }

theorem step_turns (ht : s.Turns) (hcur : s.current = some th) : (s.step th).Turns := by
  have hframes := ht.current th hcur
  unfold step
  cases hstack : th.stack with
  | nil => exact { ht with current := fun th' hth' => by cases hth' }
  | cons f rest =>
    rw [hstack] at hframes
    have hf := hframes f mem_cons_self
    cases f with
    | block_until op =>
      dsimp only
      split
      · rename_i hpass
        exact perform_turns ht hcur hstack hpass
      · unfold wait
        split
        · exact { ht with
            waiters := by
              intro w hw
              rcases mem_cons.mp hw with rfl | h
              · exact ⟨hf, fun f h => hframes f (mem_cons_of_mem _ h)⟩
              · exact ht.waiters w h
            current := fun th' hth' => by cases hth' }
        · exact { ht with }
    | broadcast => exact broadcastRound_turns ht hcur hstack
    | fill_remote n v => exact hf.elim

theorem next_turns (ht : s.Turns) (hef : s.OnlyEF l) (h : s.next l = some s') : s'.Turns := by
  cases l with
  | start id op =>
    obtain ⟨-, rfl⟩ := ite_some_none_eq_some.mp h
    exact { ht with
      current := by
        intro th hth f hf
        obtain rfl := mem_some_iff.mp hth
        rw [mem_singleton.mp hf]
        exact hef }
  | resume i =>
    obtain ⟨-, hmap⟩ := ite_none_right_eq_some.mp h
    obtain ⟨th, hth, rfl⟩ := map_eq_some_iff.mp hmap
    exact { ht with
      ready := fun th' hth' => ht.ready th' (mem_of_mem_eraseIdx hth')
      current := by
        intro th' hth'
        obtain rfl := mem_some_iff.mp hth'
        exact ht.ready th (mem_of_getElem? hth) }
  | step =>
    obtain ⟨th, hcur, rfl⟩ := map_eq_some_iff.mp h
    exact step_turns ht hcur
  | yield =>
    change s.thread_yield = some s' at h
    unfold thread_yield at h
    split at h
    · rename_i hcur
      exact (ht.current _ hcur _ mem_cons_self).elim
    · cases h
  | request n => exact hef.elim
  | arrive i =>
    obtain ⟨-, hmap⟩ := ite_none_right_eq_some.mp h
    obtain ⟨n, hn, -⟩ := map_eq_some_iff.mp hmap
    rw [ht.requests] at hn
    cases hn

/-! ### The law -/

/-- **Full/empty words**: reads are of a full word; in runs of `writeEF` and `readFE` every value is
    read once, in the order of the writes, but for the one in the word; and where nothing runs,
    nobody waits for the state that the word has. -/
theorem full_empty_correct (full : Bool) (t : T) {ls : List (Label T)}
    (hrun : (system full t).run (init full t) ls = some s) :
    (∀ r ∈ s.reads, r.state = true) ∧
      ((system full t).Always OnlyEF (init full t) ls →
        s.written = s.reads.map FullEmptyRead.value ++ if s.state_ then [s.t_] else []) ∧
      (s.current = none → ∀ w ∈ s.waiters_, w.op.desired_state ≠ some s.state_) := by
  have hi : s.Inv := System.Reachable.invariant Inv (init_inv full t)
    (fun _ _ _ hi h => next_inv hi h) ⟨ls, hrun⟩
  refine ⟨hi.reads, ?_, ?_⟩
  · intro hef
    have ht : s.Turns := System.invariant_under Turns
      (fun _ _ _ ht hP h => next_turns ht hP h) (init_turns full t) hef hrun
    exact ht.values
  · intro hnone w hw
    rw [hi.settled_of_none hnone w hw]
    simp

/-- A reader waits, a writer wakes it, and a request is served before it reads. -/
theorem full_empty_write_read :
    let ls : List (Label ℕ) := [.start 1 .readFE, .step, .start 2 (.writeEF 7)] ++
      replicate 4 .step ++ [.request 0, .arrive 0] ++ replicate 4 .step ++ [.resume 0] ++
        replicate 3 .step
    ∃ s, (system false 0).run (init false 0) ls = some s ∧ s.replies = [(0, 7)] ∧
      (∀ r ∈ s.reads, r.state = true) ∧
      ((system false 0).Always OnlyEF (init false 0) ls →
        s.written = s.reads.map FullEmptyRead.value ++ if s.state_ then [s.t_] else []) ∧
      (s.current = none → ∀ w ∈ s.waiters_, w.op.desired_state ≠ some s.state_) := by
  intro ls
  have hend : ((system false 0).run (init false 0) ls).map FullEmpty.replies = some [(0, 7)] := by
    decide +kernel
  obtain ⟨s, hrun, hreplies⟩ := map_eq_some_iff.mp hend
  exact ⟨s, hrun, hreplies, full_empty_correct false 0 hrun⟩

end FullEmpty

end Grappa
