import AdvCompArch.Lib.Ring
import AdvCompArch.Lib.Transition
import Mathlib.Algebra.Group.Nat.Defs

/-! # The receive ring of the communicator

    Buffers are posted to the message layer at `receive_head`; the buffer at `receive_dispatch`
    is given to its handler once its receive has completed; and `receive_tail` goes over the
    buffers that their handlers have released.  `poll` dispatches in a loop.  A handler runs
    inside of that loop, before `receive_dispatch` goes on, and keeps the buffer for as long as
    it likes: it, or the worker it has left the buffer to, sets the reference count to zero and
    may call `repost_receive_buffers`.  A handler that sends with `send_immediate` calls `poll`
    itself when no send context is free, and that one finds the cursor at the buffer of the
    handler, with a null request.

    Every round of every loop is a step, so that receives complete and buffers are released at
    any point. -/

namespace Grappa

open Function List Transition Option

/-- The request of a buffer, with the number of the receive. -/
inductive RecvRequest where
  | null
  | posted (n : ℕ)
  | complete (n : ℕ)
  deriving DecidableEq

/-- What the receive side uses of a `CommunicatorContext`. -/
structure RecvContext where
  request : RecvRequest
  reference_count : ℕ
  deriving DecidableEq

/-- Where the core is with `poll`. -/
inductive PollPoint where
  | outside
  /-- At the head of the loop in `process_received_buffers`. -/
  | loop
  /-- In a handler. -/
  | handler
  deriving DecidableEq

/-- Where it is with `repost_receive_buffers`. -/
inductive RepostPoint where
  | outside
  /-- At the head of the loop over delivered buffers. -/
  | tail
  /-- At the head of the loop over free buffers. -/
  | head
  deriving DecidableEq

/-- The receive ring; the number of handlers that wait for a `poll` they have called; and the
    numbers of receives posted and of buffers taken back so far, the receives completed and those
    dispatched, none for a dispatch without a receive. -/
structure ReceiveRing where
  receives : ℕ → RecvContext
  receive_head : ℕ
  receive_dispatch : ℕ
  receive_tail : ℕ
  point : PollPoint
  callers : ℕ
  repost : RepostPoint
  posts : ℕ
  reclaimed : ℕ
  completed : List ℕ
  dispatched : List (Option ℕ)

namespace ReceiveRing

variable (log2_concurrent_receives : ℕ) (s : ReceiveRing)

def receive_mask : ℕ := 1 <<< log2_concurrent_receives - 1

/-- The cursor after this one. -/
def after (cursor : ℕ) : ℕ := (cursor + 1) &&& receive_mask log2_concurrent_receives

def setRequest (i : ℕ) (request : RecvRequest) : ReceiveRing :=
  { s with receives := Function.update s.receives i { s.receives i with request := request } }

def setCount (i n : ℕ) : ReceiveRing :=
  { s with receives := Function.update s.receives i { s.receives i with reference_count := n } }

/-- A round of the loop that goes over buffers that are completely delivered. -/
def tailRound : ReceiveRing :=
  if s.receive_tail ≠ s.receive_dispatch ∧ (s.receives s.receive_tail).reference_count = 0 then
    { s with
      receive_tail := after log2_concurrent_receives s.receive_tail
      reclaimed := s.reclaimed + 1 }
  else { s with repost := .head }

/-- The buffer at the head is posted. -/
def post_receive : ReceiveRing :=
  { s.setRequest s.receive_head (.posted s.posts) with
    receive_head := after log2_concurrent_receives s.receive_head
    posts := s.posts + 1 }

/-- A round of the loop that reposts free buffers. -/
def headRound : ReceiveRing :=
  if after log2_concurrent_receives s.receive_head ≠ s.receive_tail then
    s.post_receive log2_concurrent_receives
  else { s with repost := .outside }

/-- A received buffer is given to its handler. -/
def dispatch (n : Option ℕ) : ReceiveRing :=
  { (s.setRequest s.receive_dispatch .null).setCount s.receive_dispatch 1 with
    point := .handler
    dispatched := s.dispatched ++ [n] }

/-- `poll` is called. -/
def enterPoll : ReceiveRing :=
  match s.point with
  | .handler => { s with point := .loop, callers := s.callers + 1 }
  | _ => { s with point := .loop }

/-- The loop ends, and the buffers that have finished meanwhile are reposted; then `poll`
    returns to its caller. -/
def endPoll : ReceiveRing :=
  match s.callers with
  | 0 => { s with point := .outside, repost := .tail }
  | n + 1 => { s with point := .handler, callers := n, repost := .tail }

/-- The head of the loop in `process_received_buffers`; `MPI_Test` of a null request succeeds. -/
def test : ReceiveRing :=
  if s.receive_dispatch ≠ s.receive_head then
    match (s.receives s.receive_dispatch).request with
    | .null => s.dispatch none
    | .complete n => s.dispatch (some n)
    | .posted _ => s.endPoll
  else s.endPoll

/-- The handler returns. -/
def handled : ReceiveRing :=
  { s with
    receive_dispatch := after log2_concurrent_receives s.receive_dispatch
    point := .loop
    repost := .tail }

/-- The next step in `poll` or `repost_receive_buffers`. -/
def step : Option ReceiveRing :=
  match s.repost, s.point with
  | .tail, _ => some (s.tailRound log2_concurrent_receives)
  | .head, _ => some (s.headRound log2_concurrent_receives)
  | .outside, .loop => some s.test
  | .outside, .handler => some (s.handled log2_concurrent_receives)
  | .outside, .outside => none

/-- The message layer completes a receive. -/
def complete (i : ℕ) : Option ReceiveRing :=
  match (s.receives i).request with
  | .posted n => some { s.setRequest i (.complete n) with completed := s.completed ++ [n] }
  | _ => none

inductive Label where
  | poll
  | step
  /-- The receive of this buffer completes. -/
  | complete (i : ℕ)
  /-- Whoever has this buffer is done with it. -/
  | release (i : ℕ)
  /-- A handler or a worker calls `repost_receive_buffers`. -/
  | repost
  deriving DecidableEq

def next : Label → Option ReceiveRing
  | .poll => if s.point ≠ .loop ∧ s.repost = .outside then some s.enterPoll else none
  | .step => s.step log2_concurrent_receives
  | .complete i => s.complete i
  | .release i => if (s.receives i).reference_count ≠ 0 then some (s.setCount i 0) else none
  | .repost =>
    if s.point ≠ .loop ∧ s.repost = .outside then some { s with repost := .tail } else none

/-- `activate` calls `repost_receive_buffers`. -/
def init : ReceiveRing :=
  ⟨fun _ => ⟨.null, 0⟩, 0, 0, 0, .outside, 0, .tail, 0, 0, [], []⟩

def system : Transition.System ReceiveRing Label where
  init := init
  next := next log2_concurrent_receives

/-! ### The invariant -/

/-- The number of buffers. -/
def size : ℕ := 2 ^ log2_concurrent_receives

/-- The buffer at `receive_dispatch` is with its handler. -/
def Delivering : Prop := s.point = .handler ∨ s.callers ≠ 0

instance : Decidable s.Delivering := inferInstanceAs (Decidable (_ ∨ _))

/-- The number of buffers that `receive_dispatch` has passed. -/
def passed : ℕ := if s.Delivering then s.dispatched.length - 1 else s.dispatched.length

structure Inv : Prop where
  -- the counters
  reclaimed_le : s.reclaimed ≤ s.passed
  dispatched_le : s.dispatched.length ≤ s.posts
  posts_lt : s.posts < s.reclaimed + size log2_concurrent_receives
  -- a handler's buffer has a null request: this is what a nested `poll` tests
  delivering : s.Delivering →
    0 < s.dispatched.length ∧ (s.receives s.receive_dispatch).request = .null
  called : s.callers ≠ 0 → s.point = .loop ∧ s.repost = .outside
  -- the cursors
  head : s.receive_head = s.posts % size log2_concurrent_receives
  dispatch : s.receive_dispatch = s.passed % size log2_concurrent_receives
  tail : s.receive_tail = s.reclaimed % size log2_concurrent_receives
  -- the buffers
  waiting : ∀ n, s.dispatched.length ≤ n → n < s.posts →
    (s.receives (n % size log2_concurrent_receives)).request = .posted n ∨
      (s.receives (n % size log2_concurrent_receives)).request = .complete n ∧ n ∈ s.completed
  posted : ∀ i n, (s.receives i).request = .posted n →
    i = n % size log2_concurrent_receives ∧ s.dispatched.length ≤ n ∧ n < s.posts ∧
      n ∉ s.completed
  -- only what has been dispatched and not taken back is referenced
  unreferenced : ∀ n, s.dispatched.length ≤ n → n < s.reclaimed + size log2_concurrent_receives →
    (s.receives (n % size log2_concurrent_receives)).reference_count = 0
  -- what happened
  in_order : s.dispatched = (List.range s.dispatched.length).map some
  received : ∀ n < s.dispatched.length, n ∈ s.completed
  completed_nodup : s.completed.Nodup
  completed_kept : ∀ n ∈ s.completed, s.dispatched.length ≤ n →
    (s.receives (n % size log2_concurrent_receives)).request = .complete n ∧ n < s.posts

variable {log2_concurrent_receives} {s} {s' : ReceiveRing} {l : Label}

theorem size_pos : 0 < size log2_concurrent_receives := Nat.two_pow_pos _

theorem after_eq (cursor : ℕ) :
    after log2_concurrent_receives cursor = (cursor + 1) % size log2_concurrent_receives := by
  rw [after, receive_mask, Nat.shiftLeft_eq, one_mul, Nat.and_two_pow_sub_one_eq_mod]
  rfl

theorem after_mod (n : ℕ) : after log2_concurrent_receives (n % size log2_concurrent_receives) =
    (n + 1) % size log2_concurrent_receives := by
  rw [after_eq, Nat.mod_add_mod]

theorem place_ne {i j : ℕ} (hij : i < j) (hj : j < i + size log2_concurrent_receives) :
    i % size log2_concurrent_receives ≠ j % size log2_concurrent_receives := by
  have h := @Ring.place_ne (size log2_concurrent_receives) 0 i j hij hj
  rwa [zero_add, zero_add] at h

theorem setRequest_request (i : ℕ) (request : RecvRequest) (j : ℕ) :
    ((s.setRequest i request).receives j).request =
      if j = i then request else (s.receives j).request := by
  show (update s.receives i _ j).request = _
  by_cases hji : j = i
  · rw [hji, update_self, if_pos rfl]
  · rw [update_of_ne hji, if_neg hji]

@[simp] theorem setRequest_count (i : ℕ) (request : RecvRequest) (j : ℕ) :
    ((s.setRequest i request).receives j).reference_count = (s.receives j).reference_count := by
  show (update s.receives i _ j).reference_count = _
  by_cases hji : j = i
  · rw [hji, update_self]
  · rw [update_of_ne hji]

@[simp] theorem setCount_request (i n j : ℕ) :
    ((s.setCount i n).receives j).request = (s.receives j).request := by
  show (update s.receives i _ j).request = _
  by_cases hji : j = i
  · rw [hji, update_self]
  · rw [update_of_ne hji]

@[simp] theorem enterPoll_receives : s.enterPoll.receives = s.receives := by
  unfold enterPoll
  split
  · rfl
  · rfl

@[simp] theorem endPoll_receives : s.endPoll.receives = s.receives := by
  unfold endPoll
  split
  · rfl
  · rfl

theorem init_inv : init.Inv log2_concurrent_receives where
  reclaimed_le := le_refl _
  dispatched_le := le_refl _
  posts_lt := by
    show 0 < 0 + size log2_concurrent_receives
    rw [zero_add]
    exact size_pos
  delivering := by simp [init, Delivering]
  called := fun h => absurd rfl h
  head := (Nat.zero_mod _).symm
  dispatch := (Nat.zero_mod _).symm
  tail := (Nat.zero_mod _).symm
  waiting := by simp [init]
  posted := by simp [init]
  unreferenced := by simp [init]
  in_order := rfl
  received := by simp [init]
  completed_nodup := nodup_nil
  completed_kept := by simp [init]

theorem passed_le : s.passed ≤ s.dispatched.length := by
  unfold passed
  split
  · exact Nat.sub_le _ _
  · exact le_refl _

theorem not_delivering (hcallers : s.callers = 0) (hpoint : s.point ≠ .handler) :
    ¬s.Delivering := by
  rintro (h | h)
  · exact hpoint h
  · exact h hcallers

theorem passed_of_not (h : ¬s.Delivering) : s.passed = s.dispatched.length := if_neg h

theorem Inv.passed_succ (hi : s.Inv log2_concurrent_receives) (h : s.Delivering) :
    s.passed + 1 = s.dispatched.length := by
  have hpos := (hi.delivering h).1
  rw [passed, if_pos h]
  omega

theorem Inv.dispatch_ne_head (hi : s.Inv log2_concurrent_receives) (hlt : s.passed < s.posts) :
    s.receive_dispatch ≠ s.receive_head := by
  rw [hi.dispatch, hi.head]
  have hposts := hi.posts_lt
  have hreclaimed := hi.reclaimed_le
  exact place_ne hlt (by omega)

theorem Inv.completed_lt (hi : s.Inv log2_concurrent_receives) {n : ℕ} (hn : n ∈ s.completed) :
    n < s.posts := by
  rcases lt_or_ge n s.dispatched.length with h | h
  · exact lt_of_lt_of_le h hi.dispatched_le
  · exact (hi.completed_kept n hn h).2

/-! ### `repost_receive_buffers` -/

theorem tailRound_inv (hi : s.Inv log2_concurrent_receives) (hcallers : s.callers = 0) :
    (s.tailRound log2_concurrent_receives).Inv log2_concurrent_receives := by
  unfold tailRound
  split
  · rename_i hround
    obtain ⟨hne, hfree⟩ := hround
    rw [hi.tail, hi.dispatch] at hne
    rw [hi.tail] at hfree
    have hlt : s.reclaimed < s.passed := by
      have hle := hi.reclaimed_le
      have : s.reclaimed ≠ s.passed := fun h => hne (h ▸ rfl)
      omega
    have hposts := hi.posts_lt
    exact { hi with
      reclaimed_le := hlt
      posts_lt := by
        show s.posts < s.reclaimed + 1 + _
        omega
      tail := by
        show after _ s.receive_tail = (s.reclaimed + 1) % _
        rw [hi.tail, after_mod]
      unreferenced := by
        intro n hlo hhi
        have hhi : n < s.reclaimed + 1 + size log2_concurrent_receives := hhi
        rcases lt_or_ge n (s.reclaimed + size log2_concurrent_receives) with h | h
        · exact hi.unreferenced n hlo h
        · -- the place that is new in the window is that of the buffer taken back
          obtain rfl : n = s.reclaimed + size log2_concurrent_receives := by omega
          rw [Nat.add_mod_right]
          exact hfree }
  · exact { hi with called := fun h => absurd hcallers h }

/-- **A free buffer is posted.** -/
theorem headRound_inv (hi : s.Inv log2_concurrent_receives) (hcallers : s.callers = 0) :
    (s.headRound log2_concurrent_receives).Inv log2_concurrent_receives := by
  unfold headRound
  split
  · rename_i hne
    rw [hi.head, hi.tail, after_mod] at hne
    have hposts := hi.posts_lt
    have hroom : s.posts + 1 < s.reclaimed + size log2_concurrent_receives := by
      have : s.posts + 1 ≠ s.reclaimed + size log2_concurrent_receives := by
        intro h
        rw [h, Nat.add_mod_right] at hne
        exact hne rfl
      omega
    have hpassed := s.passed_le
    have hreclaimed := hi.reclaimed_le
    have hle := hi.dispatched_le
    -- a receive that was posted before is at another place
    have hother (n : ℕ) (hlo : s.dispatched.length ≤ n) (hhi : n < s.posts) :
        n % size log2_concurrent_receives ≠ s.posts % size log2_concurrent_receives :=
      place_ne hhi (by omega)
    unfold post_receive setRequest
    have hdelivering : s.Delivering → (update s.receives s.receive_head
        { s.receives s.receive_head with request := .posted s.posts }
          s.receive_dispatch).request = .null := by
      intro h
      have := hi.passed_succ h
      rw [update_of_ne (hi.dispatch_ne_head (by omega))]
      exact (hi.delivering h).2
    rw [hi.head] at hdelivering ⊢
    exact { hi with
      delivering := fun h => ⟨(hi.delivering h).1, hdelivering h⟩
      dispatched_le := Nat.le_succ_of_le hle
      posts_lt := hroom
      head := after_mod _
      waiting := by
        intro n hlo hhi
        show (update s.receives _ _ _).request = _ ∨
          (update s.receives _ _ _).request = _ ∧ _
        rcases Nat.lt_succ_iff_lt_or_eq.mp hhi with h | rfl
        · rw [update_of_ne (hother n hlo h)]
          exact hi.waiting n hlo h
        · rw [update_self]
          exact .inl rfl
      posted := by
        intro i n hrequest
        have hrequest : (update s.receives _ _ i).request = .posted n := hrequest
        by_cases hhead : i = s.posts % size log2_concurrent_receives
        · subst hhead
          rw [update_self] at hrequest
          obtain rfl := RecvRequest.posted.inj hrequest
          refine ⟨rfl, hle, Nat.lt_succ_self _, fun hmem => ?_⟩
          exact absurd (hi.completed_lt hmem) (lt_irrefl _)
        · rw [update_of_ne hhead] at hrequest
          obtain ⟨hplace, hlo, hhi, hnot⟩ := hi.posted i n hrequest
          exact ⟨hplace, hlo, Nat.lt_succ_of_lt hhi, hnot⟩
      unreferenced := by
        intro n hlo hhi
        show ((s.setRequest _ _).receives _).reference_count = 0
        rw [setRequest_count]
        exact hi.unreferenced n hlo hhi
      completed_kept := by
        intro n hmem hlo
        obtain ⟨hrequest, hhi⟩ := hi.completed_kept n hmem hlo
        refine ⟨?_, Nat.lt_succ_of_lt hhi⟩
        show (update s.receives _ _ _).request = _
        rw [update_of_ne (hother n hlo hhi)]
        exact hrequest }
  · exact { hi with called := fun h => absurd hcallers h }

/-! ### `poll` -/

/-- **A buffer is dispatched**: it is the next one in the order of the posts. -/
theorem dispatch_inv (hi : s.Inv log2_concurrent_receives) (hcallers : s.callers = 0)
    (hpoint : s.point = .loop) (hlt : s.dispatched.length < s.posts) (hmem : s.dispatched.length ∈ s.completed) :
    (s.dispatch (some s.dispatched.length)).Inv log2_concurrent_receives := by
  have hpassed : s.passed = s.dispatched.length :=
    passed_of_not (not_delivering hcallers (by simp [hpoint]))
  have hcursor : s.receive_dispatch = s.dispatched.length % size log2_concurrent_receives := by
    rw [hi.dispatch, hpassed]
  have hlen (n : Option ℕ) : (s.dispatched ++ [n]).length = s.dispatched.length + 1 := by simp
  have hpassed' : (s.dispatch (some s.dispatched.length)).passed = s.passed := by
    rw [hpassed]
    simp [passed, dispatch, Delivering]
  have hreclaimed := hi.reclaimed_le
  have hposts := hi.posts_lt
  have hother (n : ℕ) (hlo : s.dispatched.length + 1 ≤ n)
      (hhi : n < s.reclaimed + size log2_concurrent_receives) :
      n % size log2_concurrent_receives ≠ s.receive_dispatch := by
    rw [hcursor]
    exact (place_ne hlo (by omega)).symm
  have hreceives (i : ℕ) (h : i ≠ s.receive_dispatch) :
      (s.dispatch (some s.dispatched.length)).receives i = s.receives i := by
    simp [dispatch, setCount, setRequest, h]
  constructor
  case reclaimed_le =>
    rw [hpassed']
    exact hreclaimed
  case dispatched_le =>
    show (s.dispatched ++ [_]).length ≤ s.posts
    rw [hlen]
    exact hlt
  case posts_lt => exact hposts
  case delivering =>
    intro _
    constructor
    · show 0 < (s.dispatched ++ [_]).length
      rw [hlen]
      exact Nat.succ_pos _
    · simp [dispatch, setCount, setRequest]
  case called => exact fun h => absurd hcallers h
  case head => exact hi.head
  case dispatch =>
    rw [hpassed']
    exact hi.dispatch
  case tail => exact hi.tail
  case waiting =>
    intro n hlo hhi
    have hlo : s.dispatched.length + 1 ≤ n := by
      rw [← hlen]
      exact hlo
    have hhi : n < s.posts := hhi
    rw [hreceives _ (hother n hlo (by omega))]
    exact hi.waiting n (by omega) hhi
  case posted =>
    intro i n hrequest
    by_cases hplace : i = s.receive_dispatch
    · subst hplace
      simp [dispatch, setCount, setRequest] at hrequest
    · rw [hreceives i hplace] at hrequest
      obtain ⟨hin, hlo, hhi, hnot⟩ := hi.posted i n hrequest
      refine ⟨hin, ?_, hhi, hnot⟩
      show (s.dispatched ++ [_]).length ≤ n
      rw [hlen]
      have : n ≠ s.dispatched.length := by
        rintro rfl
        exact hnot hmem
      omega
  case unreferenced =>
    intro n hlo hhi
    have hlo : s.dispatched.length + 1 ≤ n := by
      rw [← hlen]
      exact hlo
    rw [hreceives _ (hother n hlo hhi)]
    exact hi.unreferenced n (by omega) hhi
  case in_order =>
    show s.dispatched ++ [_] = (range (s.dispatched ++ [_]).length).map some
    rw [hlen, range_succ, map_append, ← hi.in_order]
    rfl
  case received =>
    intro n hn
    have hn : n < s.dispatched.length + 1 := by
      rw [← hlen]
      exact hn
    rcases Nat.lt_succ_iff_lt_or_eq.mp hn with h | rfl
    · exact hi.received n h
    · exact hmem
  case completed_nodup => exact hi.completed_nodup
  case completed_kept =>
    intro n hn hlo
    have hlo : s.dispatched.length + 1 ≤ n := by
      rw [← hlen]
      exact hlo
    obtain ⟨hrequest, hhi⟩ := hi.completed_kept n hn (by omega)
    rw [hreceives _ (hother n hlo (by omega))]
    exact ⟨hrequest, hhi⟩

theorem endPoll_inv (hi : s.Inv log2_concurrent_receives) (hcallers : s.callers = 0)
    (hpoint : s.point = .loop) : s.endPoll.Inv log2_concurrent_receives := by
  have hnot : ¬s.Delivering := not_delivering hcallers (by simp [hpoint])
  have heq : s.endPoll = { s with point := .outside, repost := .tail } := by
    unfold endPoll
    rw [hcallers]
  rw [heq]
  generalize hs' : { s with point := .outside, repost := .tail } = s'
  have hnot' : ¬s'.Delivering := by
    subst hs'
    exact not_delivering hcallers (by simp)
  have hpassed : s'.passed = s.passed := by
    rw [passed_of_not hnot, passed_of_not hnot', ← hs']
  subst hs'
  exact { hi with
    reclaimed_le := hpassed ▸ hi.reclaimed_le
    delivering := fun h => absurd h hnot'
    called := fun h => absurd hcallers h
    dispatch := hpassed ▸ hi.dispatch }

theorem test_inv (hi : s.Inv log2_concurrent_receives) (hcallers : s.callers = 0)
    (hpoint : s.point = .loop) : s.test.Inv log2_concurrent_receives := by
  unfold test
  split
  · rename_i hne
    have hpassed : s.passed = s.dispatched.length :=
      passed_of_not (not_delivering hcallers (by simp [hpoint]))
    have hlt : s.dispatched.length < s.posts := by
      rw [hi.dispatch, hi.head, hpassed] at hne
      have hle := hi.dispatched_le
      have : s.dispatched.length ≠ s.posts := fun h => hne (h ▸ rfl)
      omega
    -- the buffer at the cursor is that of the oldest receive that is not dispatched
    have hwaiting := hi.waiting _ (le_refl _) hlt
    rw [← hpassed, ← hi.dispatch] at hwaiting
    split
    · rename_i hnull
      simp [hnull] at hwaiting
    · rename_i n hcomplete
      rw [hcomplete] at hwaiting
      obtain ⟨hn, hmem⟩ := hwaiting.resolve_left (fun h => by cases h)
      obtain rfl := RecvRequest.complete.inj hn
      rw [hpassed] at hmem ⊢
      exact dispatch_inv hi hcallers hpoint hlt hmem
    · exact endPoll_inv hi hcallers hpoint
  · exact endPoll_inv hi hcallers hpoint

theorem handled_inv (hi : s.Inv log2_concurrent_receives) (hcallers : s.callers = 0)
    (hpoint : s.point = .handler) :
    (s.handled log2_concurrent_receives).Inv log2_concurrent_receives := by
  have hsucc := hi.passed_succ (.inl hpoint)
  have hnot : ¬(s.handled log2_concurrent_receives).Delivering :=
    not_delivering hcallers (by simp [handled])
  have hpassed : (s.handled log2_concurrent_receives).passed = s.passed + 1 := by
    rw [passed_of_not hnot, hsucc]
    rfl
  exact { hi with
    reclaimed_le := by
      rw [hpassed]
      exact Nat.le_succ_of_le hi.reclaimed_le
    delivering := fun h => absurd h hnot
    called := fun h => absurd hcallers h
    dispatch := by
      rw [hpassed]
      show after _ s.receive_dispatch = _
      rw [hi.dispatch, after_mod] }

/-! ### Runs -/

/-- **A receive completes.** -/
theorem complete_inv (hi : s.Inv log2_concurrent_receives) {i : ℕ} (h : s.complete i = some s') :
    s'.Inv log2_concurrent_receives := by
  unfold complete at h
  split at h
  case h_2 => cases h
  case h_1 n hrequest =>
    cases h
    obtain ⟨hplace, hlo, hhi, hnot⟩ := hi.posted i n hrequest
    have hroom : s.posts < s.dispatched.length + size log2_concurrent_receives := by
      have := hi.posts_lt
      have := hi.reclaimed_le
      have := s.passed_le
      omega
    -- another receive that was posted is at another place
    have hother (k : ℕ) (hk : s.dispatched.length ≤ k) (hk' : k < s.posts) (hne : k ≠ n) :
        k % size log2_concurrent_receives ≠ i := by
      rw [hplace]
      rcases Nat.lt_or_gt_of_ne hne with h | h
      · exact place_ne h (by omega)
      · exact (place_ne h (by omega)).symm
    exact { hi with
      delivering := by
        intro h
        obtain ⟨hpos, hnull⟩ := hi.delivering h
        refine ⟨hpos, ?_⟩
        show (update s.receives i _ s.receive_dispatch).request = _
        rw [update_of_ne]
        · exact hnull
        · rintro rfl
          rw [hnull] at hrequest
          cases hrequest
      waiting := by
        intro k hk hk'
        show (update s.receives i _ _).request = _ ∨
          (update s.receives i _ _).request = _ ∧ k ∈ s.completed ++ [n]
        by_cases hkn : k = n
        · subst hkn
          rw [← hplace, update_self]
          exact .inr ⟨rfl, by simp⟩
        · rw [update_of_ne (hother k hk hk' hkn)]
          rcases hi.waiting k hk hk' with h | ⟨h, hmem⟩
          · exact .inl h
          · exact .inr ⟨h, mem_append_left _ hmem⟩
      posted := by
        intro j k hj
        have hj : (update s.receives i _ j).request = .posted k := hj
        by_cases hji : j = i
        · rw [hji, update_self] at hj
          cases hj
        · rw [update_of_ne hji] at hj
          obtain ⟨hjk, hk, hk', hnot'⟩ := hi.posted j k hj
          refine ⟨hjk, hk, hk', fun hmem => ?_⟩
          rcases mem_append.mp hmem with h | h
          · exact hnot' h
          · obtain rfl := mem_singleton.mp h
            exact hji (hjk.trans hplace.symm)
      unreferenced := by
        intro k hk hk'
        show ((s.setRequest i _).receives _).reference_count = 0
        rw [setRequest_count]
        exact hi.unreferenced k hk hk'
      received := fun k hk => mem_append_left _ (hi.received k hk)
      completed_nodup := by
        show (s.completed ++ [n]).Nodup
        rw [(perm_append_singleton n s.completed).nodup_iff, nodup_cons]
        exact ⟨hnot, hi.completed_nodup⟩
      completed_kept := by
        intro k hmem hk
        show (update s.receives i _ _).request = _ ∧ _
        rcases mem_append.mp hmem with h | h
        · obtain ⟨hreq, hk'⟩ := hi.completed_kept k h hk
          have hkn : k ≠ n := fun heq => hnot (heq ▸ h)
          rw [update_of_ne (hother k hk hk' hkn)]
          exact ⟨hreq, hk'⟩
        · obtain rfl := mem_singleton.mp h
          rw [← hplace, update_self]
          exact ⟨rfl, hhi⟩ }

theorem release_inv (hi : s.Inv log2_concurrent_receives) (i : ℕ) :
    (s.setCount i 0).Inv log2_concurrent_receives := by
  have hrequest := s.setCount_request i 0
  exact { hi with
    delivering := by
      intro h
      obtain ⟨hpos, hnull⟩ := hi.delivering h
      exact ⟨hpos, (hrequest _).trans hnull⟩
    waiting := by
      intro n hlo hhi
      rw [hrequest]
      exact hi.waiting n hlo hhi
    posted := by
      intro j n
      rw [hrequest]
      exact hi.posted j n
    unreferenced := by
      intro n hlo hhi
      have hold := hi.unreferenced n hlo hhi
      show (update s.receives i _ _).reference_count = 0
      by_cases hni : n % size log2_concurrent_receives = i
      · rw [hni, update_self]
      · rwa [update_of_ne hni]
    completed_kept := by
      intro n hmem hlo
      rw [hrequest]
      exact hi.completed_kept n hmem hlo }

theorem step_inv (hi : s.Inv log2_concurrent_receives) (hcallers : s.callers = 0)
    (h : s.step log2_concurrent_receives = some s') : s'.Inv log2_concurrent_receives := by
  unfold step at h
  split at h
  · cases h
    exact tailRound_inv hi hcallers
  · cases h
    exact headRound_inv hi hcallers
  · rename_i hpoint
    cases h
    exact test_inv hi hcallers hpoint
  · rename_i hpoint
    cases h
    exact handled_inv hi hcallers hpoint
  · cases h

theorem enterPoll_inv (hi : s.Inv log2_concurrent_receives) (hpoint : s.point ≠ .loop)
    (hrepost : s.repost = .outside) : s.enterPoll.Inv log2_concurrent_receives := by
  have hcallers : s.callers = 0 := by
    by_contra h
    exact hpoint (hi.called h).1
  unfold enterPoll
  split
  · rename_i hhandler
    have hpassed : passed { s with point := .loop, callers := s.callers + 1 } = s.passed := by
      simp [passed, Delivering, hhandler]
    exact { hi with
      reclaimed_le := hpassed ▸ hi.reclaimed_le
      delivering := fun _ => hi.delivering (.inl hhandler)
      called := fun _ => ⟨rfl, hrepost⟩
      dispatch := hpassed ▸ hi.dispatch }
  · have hhandler : s.point ≠ .handler := by assumption
    have hpassed : passed { s with point := .loop } = s.passed := by
      simp [passed, Delivering, hcallers, hhandler]
    exact { hi with
      reclaimed_le := hpassed ▸ hi.reclaimed_le
      delivering := fun h => absurd h (not_delivering hcallers (by simp))
      called := fun h => absurd hcallers h
      dispatch := hpassed ▸ hi.dispatch }

/-- No `poll` that a handler has called takes a step. -/
def Unnested (s : ReceiveRing) (l : Label) : Prop := l = .step → s.callers = 0

/-- **Every other step keeps the invariant.** -/
theorem next_inv (hi : s.Inv log2_concurrent_receives) (hl : Unnested s l)
    (h : s.next log2_concurrent_receives l = some s') : s'.Inv log2_concurrent_receives := by
  cases l with
  | poll =>
    obtain ⟨⟨hpoint, hrepost⟩, rfl⟩ := ite_some_none_eq_some.mp h
    exact enterPoll_inv hi hpoint hrepost
  | step => exact step_inv hi (hl rfl) h
  | complete i => exact complete_inv hi h
  | release i =>
    obtain ⟨-, rfl⟩ := ite_some_none_eq_some.mp h
    exact release_inv hi i
  | repost =>
    obtain ⟨⟨hpoint, -⟩, rfl⟩ := ite_some_none_eq_some.mp h
    exact { hi with called := fun h => absurd (hi.called h).1 hpoint }

/-! ### What is posted -/

theorem dispatch_request (m : Option ℕ) (j : ℕ) : ((s.dispatch m).receives j).request =
    if j = s.receive_dispatch then .null else (s.receives j).request := by
  show (((s.setRequest s.receive_dispatch .null).setCount s.receive_dispatch 1).receives j).request
    = _
  rw [setCount_request, setRequest_request]

/-- Only the loop over free buffers posts, and only at the head. -/
theorem posted_at_head {i n : ℕ} (h : s.next log2_concurrent_receives l = some s')
    (hnew : (s'.receives i).request = .posted n) (hold : (s.receives i).request ≠ .posted n) :
    i = s.receive_head := by
  -- a request that was not set to another receive is as before
  have hset {j : ℕ} {request : RecvRequest} (hne : request ≠ .posted n)
      (h : (if i = j then request else (s.receives i).request) = .posted n) : False := by
    split at h
    · exact hne h
    · exact hold h
  cases l with
  | poll =>
    obtain ⟨-, rfl⟩ := ite_some_none_eq_some.mp h
    rw [enterPoll_receives] at hnew
    exact absurd hnew hold
  | step =>
    change s.step log2_concurrent_receives = some s' at h
    unfold step at h
    split at h
    · cases h
      unfold tailRound at hnew
      split at hnew
      · exact absurd hnew hold
      · exact absurd hnew hold
    · cases h
      unfold headRound at hnew
      split at hnew
      · by_contra hhead
        have hnew : ((s.setRequest s.receive_head _).receives i).request = .posted n := hnew
        rw [setRequest_request, if_neg hhead] at hnew
        exact hold hnew
      · exact absurd hnew hold
    · cases h
      unfold test at hnew
      split at hnew
      · split at hnew
        · rw [dispatch_request] at hnew
          exact (hset (by simp) hnew).elim
        · rw [dispatch_request] at hnew
          exact (hset (by simp) hnew).elim
        · rw [endPoll_receives] at hnew
          exact absurd hnew hold
      · rw [endPoll_receives] at hnew
        exact absurd hnew hold
    · cases h
      exact absurd hnew hold
    · cases h
  | complete j =>
    change s.complete j = some s' at h
    unfold complete at h
    split at h
    · cases h
      have hnew : ((s.setRequest j _).receives i).request = .posted n := hnew
      rw [setRequest_request] at hnew
      exact (hset (by simp) hnew).elim
    · cases h
  | release j =>
    obtain ⟨-, rfl⟩ := ite_some_none_eq_some.mp h
    rw [setCount_request] at hnew
    exact absurd hnew hold
  | repost =>
    obtain ⟨-, rfl⟩ := ite_some_none_eq_some.mp h
    exact absurd hnew hold

theorem Inv.head_unreferenced (hi : s.Inv log2_concurrent_receives) :
    (s.receives s.receive_head).reference_count = 0 := by
  rw [hi.head]
  exact hi.unreferenced _ hi.dispatched_le hi.posts_lt

/-! ### The law -/

variable (log2_concurrent_receives) (s) in
structure Correct : Prop where
  /-- Receives are dispatched once each and in the order of the posts. -/
  in_order : s.dispatched = (List.range s.dispatched.length).map some
  /-- What is dispatched has been received. -/
  received : ∀ n, some n ∈ s.dispatched → n ∈ s.completed
  /-- What has been received is dispatched, or it waits in its buffer. -/
  kept : ∀ n ∈ s.completed, some n ∈ s.dispatched ∨
    (s.receives (n % size log2_concurrent_receives)).request = .complete n
  /-- The loop in `poll` dispatches the next receive as soon as that has completed. -/
  goes_on : s.callers = 0 → s.point = .loop → s.dispatched.length ∈ s.completed →
    s.test = s.dispatch (some s.dispatched.length)
  /-- A buffer that is referenced is not posted. -/
  reposted : ∀ l s' i n, s.next log2_concurrent_receives l = some s' →
    (s'.receives i).request = .posted n → (s.receives i).request ≠ .posted n →
    (s.receives i).reference_count = 0
  /-- The tail, the dispatch cursor and the head follow each other in one round of the ring. -/
  window : s.reclaimed ≤ s.passed ∧ s.passed ≤ s.posts ∧
    s.posts < s.reclaimed + size log2_concurrent_receives
  cursors : s.receive_tail = s.reclaimed % size log2_concurrent_receives ∧
    s.receive_dispatch = s.passed % size log2_concurrent_receives ∧
    s.receive_head = s.posts % size log2_concurrent_receives

theorem Inv.test_eq (hi : s.Inv log2_concurrent_receives) (hcallers : s.callers = 0)
    (hpoint : s.point = .loop) (hmem : s.dispatched.length ∈ s.completed) :
    s.test = s.dispatch (some s.dispatched.length) := by
  obtain ⟨hrequest, hlt⟩ := hi.completed_kept _ hmem (le_refl _)
  have hpassed : s.passed = s.dispatched.length :=
    passed_of_not (not_delivering hcallers (by simp [hpoint]))
  have hne := hi.dispatch_ne_head (hpassed ▸ hlt)
  rw [← hpassed, ← hi.dispatch] at hrequest
  unfold test
  rw [if_pos hne, hrequest]
  show s.dispatch (some s.passed) = _
  rw [hpassed]

theorem Inv.test_nested (hi : s.Inv log2_concurrent_receives) (hcallers : s.callers ≠ 0) :
    s.test = s.dispatch none := by
  have hdelivering : s.Delivering := .inr hcallers
  have hlt : s.passed < s.posts := by
    have := hi.passed_succ hdelivering
    have := hi.dispatched_le
    omega
  -- the cursor is at the buffer of the handler, and a null request passes the test
  unfold test
  rw [if_pos (hi.dispatch_ne_head hlt), (hi.delivering hdelivering).2]

theorem Inv.correct (hi : s.Inv log2_concurrent_receives) : Correct log2_concurrent_receives s where
  in_order := hi.in_order
  received := by
    intro n hmem
    rw [hi.in_order] at hmem
    obtain ⟨k, hk, heq⟩ := mem_map.mp hmem
    obtain rfl := some.inj heq
    exact hi.received k (mem_range.mp hk)
  kept := by
    intro n hmem
    rcases lt_or_ge n s.dispatched.length with h | h
    · left
      rw [hi.in_order]
      exact mem_map_of_mem (mem_range.mpr h)
    · exact .inr (hi.completed_kept n hmem h).1
  goes_on := hi.test_eq
  reposted := by
    intro l s' i n h hnew hold
    rw [posted_at_head h hnew hold]
    exact hi.head_unreferenced
  window := ⟨hi.reclaimed_le, s.passed_le.trans hi.dispatched_le, hi.posts_lt⟩
  cursors := ⟨hi.tail, hi.dispatch, hi.head⟩

theorem not_correct_of_nested (hi : s.Inv log2_concurrent_receives) (hl : ¬Unnested s l)
    (h : s.next log2_concurrent_receives l = some s') :
    ¬Correct log2_concurrent_receives s' := by
  obtain ⟨rfl, hcallers⟩ := Classical.not_imp.mp hl
  obtain ⟨hpoint, hrepost⟩ := hi.called hcallers
  have hstep : s.step log2_concurrent_receives = some s.test := by
    unfold step
    rw [hrepost, hpoint]
  -- the step is the test of the nested `poll`
  obtain rfl : s.test = s' := some.inj (hstep.symm.trans h)
  rw [hi.test_nested hcallers]
  intro hcorrect
  have hnone : none ∈ (s.dispatch none).dispatched := mem_append_right _ (by simp)
  rw [hcorrect.in_order] at hnone
  obtain ⟨k, -, hk⟩ := mem_map.mp hnone
  cases hk

/-- **The receive ring is safe**, whatever the order in which receives complete and buffers are
    released, if and only if no handler polls. -/
theorem receive_ring_iff {ls : List Label}
    (hrun : (system log2_concurrent_receives).run init ls = some s) :
    (system log2_concurrent_receives).Throughout (Correct log2_concurrent_receives) init ls ↔
      (system log2_concurrent_receives).Always Unnested init ls := by
  have hgood : ∀ s : ReceiveRing,
      s.Inv log2_concurrent_receives → Correct log2_concurrent_receives s :=
    fun _ hi => hi.correct
  have hiff := System.throughout_iff_always (Q := fun _ _ => True) hgood
    (fun _ _ _ hi hl h => ⟨next_inv hi hl h, trivial⟩)
    (fun _ _ _ hi hl h hgood => not_correct_of_nested hi hl h hgood.2) init_inv hrun
  rw [← hiff]
  exact (and_iff_left (System.always_true _ _)).symm

/-- Four buffers, three of them posted: the second receive completes first, and it waits for the
    first one; the buffer of the first is released and posted again while the second is kept. -/
theorem receive_ring_out_of_order :
    let ls : List Label := [.step, .step, .step, .step, .step, .complete 1, .poll, .step, .step,
      .step, .complete 0, .poll, .step, .release 0, .step, .step, .step, .step, .step, .step,
      .step, .step]
    ∃ s, (system 2).run init ls = some s ∧
      (s.dispatched, s.receive_tail, s.receive_dispatch, s.receive_head) =
        ([some 0, some 1], 1, 2, 0) ∧
      ((system 2).Throughout (Correct 2) init ls ↔ (system 2).Always Unnested init ls) := by
  intro ls
  have hend : ((system 2).run init ls).map
      (fun s => (s.dispatched, s.receive_tail, s.receive_dispatch, s.receive_head)) =
        some ([some 0, some 1], 1, 2, 0) := by
    decide +kernel
  obtain ⟨s, hrun, hs⟩ := map_eq_some_iff.mp hend
  exact ⟨s, hrun, hs, receive_ring_iff hrun⟩

/-- The handler of the first buffer polls: it is called twice, and the cursor passes over the
    third buffer, so that its receive has completed and the next `poll` does not see it. -/
theorem handler_polls :
    let ls : List Label := [.step, .step, .step, .step, .step, .complete 0, .complete 1, .poll,
      .step, .poll] ++ replicate 11 .step ++ [.complete 2, .step, .step, .step]
    ∃ s, (system 2).run init ls = some s ∧
      (s.dispatched, s.completed, s.receive_dispatch, s.receive_head) =
        ([some 0, none, some 1], [0, 1, 2], 3, 3) ∧
      ¬Correct 2 s := by
  intro ls
  have hend : ((system 2).run init ls).map
      (fun s => (s.dispatched, s.completed, s.receive_dispatch, s.receive_head)) =
        some ([some 0, none, some 1], [0, 1, 2], 3, 3) := by
    decide +kernel
  obtain ⟨s, hrun, hs⟩ := map_eq_some_iff.mp hend
  refine ⟨s, hrun, hs, fun hcorrect => ?_⟩
  obtain ⟨hdispatched, -⟩ := Prod.mk.inj hs
  have horder := hcorrect.in_order
  rw [hdispatched] at horder
  exact absurd horder (by decide)

end ReceiveRing

end Grappa
