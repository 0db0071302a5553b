import AdvCompArch.Grappa.GlobalVector

/-! # The phases of the master

    Requests of any cores, the ends of their transfers and their `ce.complete()` messages
    reach the master in any order.  A push and a pop are not to be under way together, and
    a continuation that is registered is not to run before the count is down at 0.

    `broadcast` goes on until it finds no waiter: a continuation that is registered while it
    runs is invoked at once, whatever the count.  So this holds while no request is queued
    when the count gets to 0 (`Uncontended`), and fails otherwise. -/

namespace Grappa

open Option List

namespace GlobalVector

/-- A request that was granted, with the kinds of those granted earlier whose data was still under
    way. -/
structure Granted where
  choice : Choice
  underway : List Choice
  deriving DecidableEq

structure MasterRun where
  master : Master
  /-- What runs on the master. -/
  stack : List Frame
  /-- The requests that were granted whose data is under way. -/
  transfers : List Grant
  /-- The number of `ce.complete()` messages in flight. -/
  completions : ℕ
  granted : List Granted
  /-- The count of `ce` when a registered continuation was invoked, for each of them. -/
  invoked : List ℕ
  deriving DecidableEq

namespace MasterRun

variable (capacity : ℕ) (s : MasterRun)

/-- A request arrives, the topmost call runs on, the data of a granted request has arrived, or a
    `ce.complete()` message is handled. -/
inductive Label where
  | request (c : Choice) (r : Request)
  | run
  | transferred (g : Grant)
  | complete
  deriving DecidableEq

/-- The topmost call runs on. -/
def run (f : Frame) (stack : List Frame) : MasterRun :=
  let r := s.master.step capacity false f
  { s with
    master := r.1
    stack := r.2.1 ++ stack
    transfers := r.2.2.toList ++ s.transfers
    granted := (r.2.2.map fun g => ⟨g.choice, s.transfers.map Grant.choice⟩).toList ++ s.granted
    invoked := if f = .broadcast ∧ s.master.waiters ≠ [] then s.master.count :: s.invoked
      else s.invoked }

def next : Label → Option MasterRun
  | .request c r =>
    if s.stack = [] then
      let m := s.master.request c r
      some { s with master := m.1, stack := m.2 }
    else none
  | .run =>
    match s.stack with
    | f :: stack => some (s.run capacity f stack)
    | [] => none
  | .transferred g =>
    if g ∈ s.transfers then
      some { s with transfers := s.transfers.erase g, completions := s.completions + 1 }
    else none
  | .complete =>
    if s.stack = [] ∧ 0 < s.completions then
      let m := s.master.complete
      some { s with master := m.1, stack := m.2, completions := s.completions - 1 }
    else none

/-- `Master()`, with nothing under way. -/
def new : MasterRun := ⟨.clear, [], [], 0, [], []⟩

def system : Transition.System MasterRun Label := ⟨new, fun s l => s.next capacity l⟩

/-- What the phases are for. -/
structure PhaseExclusion : Prop where
  pops : ∀ g ∈ s.granted, g.choice = .POP → Choice.PUSH ∉ g.underway
  pushes : ∀ g ∈ s.granted, g.choice = .PUSH → Choice.POP ∉ g.underway
  invoked : ∀ n ∈ s.invoked, n = 0

/-- No request is queued when the count gets to 0. -/
def Uncontended : Label → Prop
  | .complete => s.master.count = 1 → s.master.queued = 0
  | _ => True

instance : ∀ l, Decidable (s.Uncontended l)
  | .complete => inferInstanceAs (Decidable (s.master.count = 1 → s.master.queued = 0))
  | .request _ _ => isTrue trivial
  | .run => isTrue trivial
  | .transferred _ => isTrue trivial

/-! ### The invariant -/

/-- With at most one request at the master at a time, where the call that runs on stands. -/
def FrameOk (m : Master) : Frame → Prop
  | .master_combine => m.waiters = [] ∧ m.count = 0 ∧ m.queued = 1
  | .pushes => m.waiters = [] ∧ m.combining = true ∧ m.queued + m.count = 1
  | .deqs => m.waiters = [] ∧ m.combining = true ∧ m.queued + m.count = 1 ∧ m.push_q = []
  | .wait .after_pushes =>
    m.waiters = [] ∧ m.combining = true ∧ m.queued + m.count = 1 ∧ m.push_q = [] ∧ m.deq_q = []
  | .invoke .after_pushes =>
    m.waiters = [] ∧ m.combining = true ∧ m.queued ≤ 1 ∧ m.count = 0 ∧ m.push_q = [] ∧ m.deq_q = []
  | .pops =>
    m.waiters = [] ∧ m.combining = true ∧ m.queued + m.count ≤ 1 ∧ m.push_q = [] ∧ m.deq_q = []
  | .wait .after_pops => m.waiters = [] ∧ m.combining = true ∧ m.queued = 0 ∧ m.count ≤ 1
  | .invoke .after_pops => m.waiters = [] ∧ m.combining = true ∧ m.queued = 0 ∧ m.count = 0
  | .wait (.woken _) => False
  | .invoke (.woken _) => False
  | .broadcast =>
    m.queued = 0 ∧ m.count = 0 ∧ ((m.combining = true ∧ m.waiters = [.after_pushes]) ∨
      (m.combining = true ∧ m.waiters = [.after_pops]) ∨ (m.combining = false ∧ m.waiters = []))

/-- Between two messages the master is idle, or a continuation waits for the one request that was
    granted. -/
def StackOk (m : Master) : List Frame → Prop
  | [] => (m.combining = false ∧ m.count = 0 ∧ m.queued = 0 ∧ m.waiters = []) ∨
    (m.combining = true ∧ m.count = 1 ∧ (m.waiters = [.after_pushes] ∨ m.waiters = [.after_pops]))
  | [f] => FrameOk m f
  | [f, .broadcast] => FrameOk m f ∧ f ≠ .broadcast ∧ m.queued = 0 ∧ m.count = 0
  | _ => False

structure Inv (s : MasterRun) : Prop where
  stack : StackOk s.master s.stack
  count : s.master.count = s.transfers.length + s.completions
  granted : ∀ g ∈ s.granted, g.underway = []
  invoked : ∀ n ∈ s.invoked, n = 0

variable {capacity : ℕ} {s : MasterRun}

/-- What a step of a call may do to a master that is in order: grant a request when nothing is under
    way, and go on with another call or end in order. -/
structure FrameStep (m : Master) (r : Master × List Frame × Option Grant) : Prop where
  stack : (∃ f, r.2.1 = [f] ∧ f ≠ .broadcast ∧ FrameOk r.1 f) ∨ (r.2.1 = [] ∧ StackOk r.1 [])
  count : r.1.count = m.count + r.2.2.toList.length
  granted : r.2.2 ≠ none → m.count = 0
  calm : m.queued = 0 ∧ m.count = 0 → r.1.queued = 0 ∧ r.1.count = 0

/-- **One step of a call** of a master that is in order. -/
theorem frameStep (capacity : ℕ) {m : Master} {f : Frame} (hf : FrameOk m f) (hne : f ≠ .broadcast) :
    FrameStep m (m.step capacity false f) := by
  obtain ⟨head, head_allocator, tail, tail_allocator, size, combining, count, waiters, push_q, pop_q,
    deq_q⟩ := m
  cases f with
  | broadcast => exact absurd rfl hne
  | master_combine =>
    obtain ⟨hw, hc, hq⟩ := hf
    simp only [Master.queued] at *
    constructor
    all_goals simp [Master.step, FrameOk, Master.queued]
    all_goals grind
  | pushes =>
    obtain ⟨hw, hc, hq⟩ := hf
    simp only [Master.queued] at *
    cases push_q with
    | nil =>
      constructor
      all_goals simp [Master.step, Master.grant_push, FrameOk, Master.queued]
      all_goals grind
    | cons r q =>
      -- the one request is granted
      constructor
      all_goals simp [Master.step, Master.grant_push, Master.enroll, Master.push, FrameOk,
        Master.queued]
      all_goals grind
  | deqs =>
    obtain ⟨hw, hc, hq, hpush⟩ := hf
    simp only [Master.queued] at *
    cases deq_q with
    | nil =>
      constructor
      all_goals simp [Master.step, Master.grant_deq, FrameOk, Master.queued]
      all_goals grind
    | cons r q =>
      constructor
      all_goals simp [Master.step, Master.grant_deq, Master.enroll, Master.dequeue, FrameOk,
        Master.queued]
      all_goals grind
  | pops =>
    obtain ⟨hw, hc, hq, hpush, hdeq⟩ := hf
    simp only [Master.queued] at *
    cases pop_q with
    | nil =>
      constructor
      all_goals simp [Master.step, Master.grant_pop, FrameOk, Master.queued]
      all_goals grind
    | cons r q =>
      constructor
      all_goals simp [Master.step, Master.grant_pop, Master.enroll, Master.pop, FrameOk,
        Master.queued]
      all_goals grind
  | wait c =>
    cases c with
    | woken c => exact hf.elim
    | after_pushes =>
      obtain ⟨hw, hc, hq, hpush, hdeq⟩ := hf
      simp only [Master.queued] at *
      -- the continuation is registered, or runs at once
      by_cases hpos : 0 < count
      · constructor
        all_goals simp [Master.step, StackOk, Master.queued, hpos]
        all_goals grind
      · constructor
        all_goals simp [Master.step, FrameOk, Master.queued, hpos]
        all_goals grind
    | after_pops =>
      obtain ⟨hw, hc, hq, hcount⟩ := hf
      obtain ⟨rfl, rfl, rfl⟩ := Master.queued_eq_zero.mp hq
      by_cases hpos : 0 < count
      · constructor
        all_goals simp [Master.step, StackOk, Master.queued, hpos]
        all_goals grind
      · constructor
        all_goals simp [Master.step, FrameOk, Master.queued, hpos]
        all_goals grind
  | invoke c =>
    cases c with
    | woken c => exact hf.elim
    | after_pushes =>
      obtain ⟨hw, hc, hq, hcount, hpush, hdeq⟩ := hf
      simp only [Master.queued] at *
      constructor
      all_goals simp [Master.step, FrameOk, Master.queued]
      all_goals grind
    | after_pops =>
      -- nothing is queued, so nobody combines any more
      obtain ⟨hw, hc, hq, hcount⟩ := hf
      obtain ⟨rfl, rfl, rfl⟩ := Master.queued_eq_zero.mp hq
      constructor
      all_goals simp [Master.step, Master.again, Master.has_requests, StackOk, Master.queued]
      all_goals grind

/-- **A step of the master** keeps it in order. -/
theorem Inv.run (h : s.Inv) {f : Frame} {stack : List Frame} (hstack : s.stack = f :: stack) :
    (s.run capacity f stack).Inv := by
  obtain ⟨hok, hcount, hgranted, hinvoked⟩ := h
  rw [hstack] at hok
  by_cases hne : f = .broadcast
  · -- the waiter is invoked with a count of 0, or the broadcast ends
    subst hne
    obtain rfl : stack = [] := by
      match stack, hok with
      | [], _ => rfl
      | [.broadcast], hok => exact absurd rfl hok.2.1
    obtain ⟨hq, hzero, hwaiters⟩ := hok
    obtain ⟨hpush, hpop, hdeq⟩ := Master.queued_eq_zero.mp hq
    have hle : s.master.queued ≤ 1 := by omega
    have hcases : (∃ c, s.master.waiters = [c] ∧
        FrameOk { s.master with waiters := [] } (.invoke c)) ∨
        (s.master.combining = false ∧ s.master.waiters = []) := by
      rcases hwaiters with ⟨hc, hw⟩ | ⟨hc, hw⟩ | hend
      · exact .inl ⟨_, hw, rfl, hc, hle, hzero, hpush, hdeq⟩
      · exact .inl ⟨_, hw, rfl, hc, hq, hzero⟩
      · exact .inr hend
    rcases hcases with ⟨c, hw, hf⟩ | ⟨hc, hw⟩
    · have hstep : s.master.step capacity false .broadcast =
          ({ s.master with waiters := [] }, [.invoke c, .broadcast], none) := by
        simp only [Master.step, hw]
      have hrun : s.run capacity .broadcast [] = { s with
          master := { s.master with waiters := [] }, stack := [.invoke c, .broadcast],
          invoked := s.master.count :: s.invoked } := by
        unfold MasterRun.run
        rw [hstep]
        simp [hw]
      rw [hrun]
      refine ⟨⟨hf, nofun, hq, hzero⟩, hcount, hgranted, ?_⟩
      intro n hn
      rcases mem_cons.mp hn with rfl | hn
      · exact hzero
      · exact hinvoked n hn
    · have hrun : s.run capacity .broadcast [] = { s with stack := [] } := by
        unfold MasterRun.run
        simp [Master.step, hw]
      rw [hrun]
      exact ⟨.inl ⟨hc, hzero, hq, hw⟩, hcount, hgranted, hinvoked⟩
  · obtain ⟨hf, hbelow⟩ : FrameOk s.master f ∧ (stack = [] ∨ stack = [.broadcast] ∧
        s.master.queued = 0 ∧ s.master.count = 0) := by
      match stack, hok with
      | [], hok => exact ⟨hok, .inl rfl⟩
      | [.broadcast], hok => exact ⟨hok.1, .inr ⟨rfl, hok.2.2⟩⟩
    obtain ⟨hstep, hstepcount, hstepgranted, hcalm⟩ := frameStep capacity hf hne
    constructor
    case stack =>
      show StackOk (s.master.step capacity false f).1 ((s.master.step capacity false f).2.1 ++ stack)
      rcases hstep with ⟨f', heq, hne', hf'⟩ | ⟨heq, hend⟩
      · rw [heq]
        rcases hbelow with rfl | ⟨rfl, hcalm'⟩
        · exact hf'
        · exact ⟨hf', hne', hcalm hcalm'⟩
      · rw [heq]
        rcases hbelow with rfl | ⟨rfl, hcalm'⟩
        · exact hend
        · -- with a count of 0 nothing waits
          obtain ⟨hq', hc'⟩ := hcalm hcalm'
          rcases hend with ⟨hcomb, -, -, hw⟩ | ⟨-, hone, -⟩
          · exact ⟨hq', hc', .inr (.inr ⟨hcomb, hw⟩)⟩
          · omega
    case count =>
      show (s.master.step capacity false f).1.count =
        ((s.master.step capacity false f).2.2.toList ++ s.transfers).length + s.completions
      rw [length_append, hstepcount]
      omega
    case granted =>
      intro g hg
      rcases mem_append.mp hg with hg | hg
      · -- a request is granted when nothing is under way
        obtain ⟨x, hx, rfl⟩ := map_eq_some_iff.mp (mem_toList.mp hg)
        have hzero : s.master.count = 0 := hstepgranted (by rw [hx]; exact nofun)
        have hnil : s.transfers = [] := length_eq_zero_iff.mp (by omega)
        rw [hnil]
        rfl
      · exact hgranted g hg
    case invoked =>
      show ∀ n ∈ (if f = .broadcast ∧ s.master.waiters ≠ [] then s.master.count :: s.invoked
        else s.invoked), n = 0
      rw [if_neg fun hb => hne hb.1]
      exact hinvoked

theorem Inv.next (h : s.Inv) {l : Label} (hl : s.Uncontended l) {s' : MasterRun}
    (hstep : s.next capacity l = some s') : s'.Inv := by
  cases l with
  | request c r =>
    obtain ⟨hstack, rfl⟩ := ite_some_none_eq_some.mp hstep
    obtain ⟨hok, hcount, hgranted, hinvoked⟩ := h
    rw [hstack] at hok
    refine ⟨?_, ?_, hgranted, hinvoked⟩
    · rcases hok with ⟨hcomb, hzero, hq, hw⟩ | ⟨hcomb, hone, hw⟩
      · -- it becomes the combiner
        obtain ⟨hpush, hpop, hdeq⟩ := Master.queued_eq_zero.mp hq
        cases c <;> simp [Master.request, StackOk, FrameOk, Master.queued, hcomb, hzero, hw, hpush, hpop,
          hdeq]
      · cases c <;> simpa [Master.request, StackOk, hcomb, hone] using hw
    · cases c <;> exact hcount
  | run =>
    unfold MasterRun.next at hstep
    simp only at hstep
    split at hstep
    · next f stack hstack =>
      cases hstep
      exact h.run hstack
    · cases hstep
  | transferred g =>
    obtain ⟨hmem, rfl⟩ := ite_some_none_eq_some.mp hstep
    refine ⟨h.stack, ?_, h.granted, h.invoked⟩
    have hlen := length_erase_of_mem hmem
    have hpos := length_pos_of_mem hmem
    show s.master.count = (s.transfers.erase g).length + (s.completions + 1)
    rw [hlen, h.count]
    omega
  | complete =>
    obtain ⟨⟨hstack, hpos⟩, rfl⟩ := ite_some_none_eq_some.mp hstep
    obtain ⟨hok, hcount, hgranted, hinvoked⟩ := h
    rw [hstack] at hok
    have hl' : s.master.count = 1 → s.master.queued = 0 := hl
    refine ⟨?_, ?_, hgranted, hinvoked⟩
    · rcases hok with ⟨-, hzero, -⟩ | ⟨hcomb, hone, hw⟩
      · omega
      · -- the count is down at 0, and nothing is queued
        have hq : s.master.queued = 0 := hl' hone
        have hcomplete : s.master.complete = ({ s.master with count := 0 }, [.broadcast]) := by
          simp [Master.complete, hone]
        show StackOk s.master.complete.1 s.master.complete.2
        rw [hcomplete]
        refine ⟨hq, rfl, ?_⟩
        rcases hw with hw | hw
        · exact .inl ⟨hcomb, hw⟩
        · exact .inr (.inl ⟨hcomb, hw⟩)
    · show s.master.count - 1 = s.transfers.length + (s.completions - 1)
      omega

theorem inv_new : new.Inv := ⟨.inl ⟨rfl, rfl, rfl, rfl⟩, rfl, nofun, nofun⟩

/-- **Phase exclusion** holds in every run in which no request is queued when the count of `ce` gets
    to 0. -/
theorem phase_exclusion (capacity : ℕ) (steps : List Label) (s : MasterRun)
    (hrun : (system capacity).run new steps = some s)
    (hcalm : (system capacity).Always (fun s l => s.Uncontended l) new steps) :
    s.PhaseExclusion := by
  have h : s.Inv := by
    apply Transition.System.invariant_under (fun s : MasterRun => s.Inv) _ inv_new hcalm hrun
    intro s l s' h hl hstep
    exact h.next hl hstep
  constructor
  case pops =>
    intro g hg _
    rw [h.granted g hg]
    exact not_mem_nil
  case pushes =>
    intro g hg _
    rw [h.granted g hg]
    exact not_mem_nil
  case invoked => exact h.invoked

/-- A push and its completion, then a pop. -/
def pushThenPop : List Label :=
  [.request .PUSH ⟨0, 1⟩] ++ List.replicate 5 .run ++ [.transferred ⟨.PUSH, 0, 1, 0⟩, .complete] ++
    List.replicate 6 .run ++ [.request .POP ⟨1, 1⟩] ++ List.replicate 8 .run

theorem phase_exclusion_pushThenPop :
    ∃ s, (system 8).run new pushThenPop = some s ∧ s.PhaseExclusion := by
  have hrun : ((system 8).run new pushThenPop).isSome := by decide
  obtain ⟨s, hs⟩ := isSome_iff_exists.mp hrun
  exact ⟨s, hs, phase_exclusion 8 pushThenPop s hs (by decide)⟩

/-- A pop is queued when a push completes.  Its continuation is invoked with a count of 1, so that
    nobody combines, and the next push is granted the slot that the pop still reads. -/
theorem phases_overlap :
    ∃ s, (system 8).run new ([.request .PUSH ⟨0, 1⟩] ++ List.replicate 5 .run ++
        [.transferred ⟨.PUSH, 0, 1, 0⟩, .request .POP ⟨1, 1⟩, .complete] ++
        List.replicate 8 .run ++ [.request .PUSH ⟨2, 1⟩] ++ List.replicate 5 .run) = some s ∧
      1 ∈ s.invoked ∧ s.transfers = [⟨.PUSH, 2, 1, 0⟩, ⟨.POP, 1, 1, 0⟩] ∧
      ¬ s.PhaseExclusion := by
  have hend : ((system 8).run new ([.request .PUSH ⟨0, 1⟩] ++ replicate 5 .run ++
      [.transferred ⟨.PUSH, 0, 1, 0⟩, .request .POP ⟨1, 1⟩, .complete] ++
      replicate 8 .run ++ [.request .PUSH ⟨2, 1⟩] ++ replicate 5 .run)).map
      (fun s => decide (1 ∈ s.invoked ∧ s.transfers = [⟨.PUSH, 2, 1, 0⟩, ⟨.POP, 1, 1, 0⟩] ∧
        ⟨.PUSH, [.POP]⟩ ∈ s.granted)) = some true := by
    decide +kernel
  obtain ⟨s, hs, hlast⟩ := map_eq_some_iff.mp hend
  obtain ⟨hinvoked, htransfers, hgranted⟩ := of_decide_eq_true hlast
  refine ⟨s, hs, hinvoked, htransfers, ?_⟩
  intro h
  exact h.pushes _ hgranted rfl mem_cons_self

end MasterRun

end GlobalVector

end Grappa
