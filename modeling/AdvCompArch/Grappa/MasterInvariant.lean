import AdvCompArch.Grappa.GlobalVector
import Mathlib.Data.Set.Basic

/-! # The positions of the master

    With one request at a time, where the two tails of the master are up to date: at the
    next place to push to, `T`, or yet to be set to it by the continuation that waits.
    The head is back at 0 whenever a dequeue can be granted. -/

namespace Grappa

namespace GlobalVector

open List

/-- What a continuation relies on; `H` is that the head is of interest. -/
def Needs (H : Prop) (T : ℕ) (m : Master) : Continuation → Prop
  | .after_pushes => m.tail_allocator = T
  | .after_pops => m.tail = T ∧ (H → m.head = 0)
  | .woken .PUSH => m.tail_allocator = T ∧ (H → m.head = 0)
  | .woken .POP => m.tail = T ∧ (H → m.head = 0)
  | .woken .DEQ => m.tail = T ∧ m.tail_allocator = T

/-- A continuation waits, or nothing is queued and the positions are up to date. -/
def Rest (H : Prop) (T : ℕ) (m : Master) : Prop :=
  (m.combining = true ∧ ∃ c, m.waiters = [c] ∧ Needs H T m c) ∨
    (m.combining = false ∧ m.waiters = [] ∧ m.queued = 0 ∧
      m.tail = T ∧ m.tail_allocator = T ∧ (H → m.head = 0))

/-- What a call that runs on relies on. -/
def At (H : Prop) (T : ℕ) (m : Master) : Frame → Prop
  | .master_combine =>
    m.waiters = [] ∧ m.queued ≠ 0 ∧ m.tail = T ∧ m.tail_allocator = T ∧ (H → m.head = 0)
  | .pushes => m.waiters = [] ∧ m.combining = true ∧ m.tail_allocator = T ∧ (H → m.head = 0)
  | .deqs =>
    m.waiters = [] ∧ m.combining = true ∧ m.tail_allocator = T ∧ (H → m.head = 0 ∨ m.deq_q = [])
  | .pops => m.waiters = [] ∧ m.combining = true ∧ m.tail = T ∧ (H → m.head = 0)
  | .wait c => m.waiters = [] ∧ m.combining = true ∧ Needs H T m c
  | .invoke c => m.waiters = [] ∧ m.combining = true ∧ Needs H T m c
  | .broadcast => Rest H T m

def StackAt (H : Prop) (T : ℕ) (m : Master) : List Frame → Prop
  | [] => Rest H T m
  | [f] => At H T m f
  | [f, .broadcast] => At H T m f ∧ f ≠ .broadcast
  | _ => False

structure MasterOk (H : Prop) (T : ℕ) (m : Master) (stack : List Frame) : Prop where
  head_allocator : m.head_allocator = 0
  queued : m.queued ≤ 1
  stack : StackAt H T m stack

/-- The queue for a kind of request. -/
def Master.queue (m : Master) : Choice → List Request
  | .PUSH => m.push_q
  | .POP => m.pop_q
  | .DEQ => m.deq_q

/-- The place to push to after a request was granted. -/
def Grant.tail (capacity T : ℕ) (g : Grant) : ℕ :=
  match g.choice with
  | .PUSH => incr_with_wrap capacity T g.n
  | .POP => incr_with_wrap capacity T (0 - g.n)
  | .DEQ => T

/-- The size of the vector after a request was granted. -/
def Grant.size (size : ℕ) (g : Grant) : ℕ :=
  match g.choice with
  | .PUSH => (size + g.n) % 2 ^ 64
  | _ => ((size - g.n : ℤ) % 2 ^ 64).toNat

/-- The slot that a request is granted. -/
def Grant.Fits (H : Prop) (capacity T : ℕ) (g : Grant) : Prop :=
  match g.choice with
  | .PUSH => g.slot = T
  | .POP => g.slot = incr_with_wrap capacity T (0 - g.n)
  | .DEQ => H → g.slot = incr_with_wrap capacity 0 g.n

/-- **One step of the master**: nothing is granted, or the one request that is queued. -/
inductive MasterStep (H : Prop) (capacity T : ℕ) (m m' : Master) : Option Grant → ℕ → Prop where
  | on (hsize : m'.size = m.size) (hcount : m'.count = m.count)
      (hqueue : ∀ c, m'.queue c = m.queue c) : MasterStep H capacity T m m' none T
  | grant (g : Grant) (hsize : m'.size = g.size m.size) (hcount : m'.count = m.count + 1)
      (hqueue : m.queue g.choice = [⟨g.id, g.n⟩]) (hempty : ∀ c, m'.queue c = [])
      (hfits : g.Fits H capacity T) : MasterStep H capacity T m m' (some g) (g.tail capacity T)

/-! ### Grants -/

variable {H : Prop} {capacity T : ℕ} {m : Master}

theorem grant_push_cases (capacity : ℕ) (hq : m.queued ≤ 1) :
    (m.push_q = [] ∧ m.grant_push capacity = none) ∨
      ∃ r, m.push_q = [r] ∧ m.pop_q = [] ∧ m.deq_q = [] ∧
        m.grant_push capacity = some ({ m with push_q := [] }.enroll.push capacity r) := by
  unfold Master.grant_push
  unfold Master.queued at hq
  cases hpush : m.push_q with
  | nil => exact .inl ⟨rfl, rfl⟩
  | cons r q =>
    rw [hpush, length_cons] at hq
    obtain rfl : q = [] := length_eq_zero_iff.mp (by omega)
    exact .inr ⟨r, rfl, length_eq_zero_iff.mp (by omega),
      length_eq_zero_iff.mp (by omega), rfl⟩

theorem grant_deq_cases (capacity : ℕ) (hq : m.queued ≤ 1) :
    (m.deq_q = [] ∧ m.grant_deq capacity = none) ∨
      ∃ r, m.deq_q = [r] ∧ m.push_q = [] ∧ m.pop_q = [] ∧
        m.grant_deq capacity = some ({ m with deq_q := [] }.enroll.dequeue capacity r) := by
  unfold Master.grant_deq
  unfold Master.queued at hq
  cases hdeq : m.deq_q with
  | nil => exact .inl ⟨rfl, rfl⟩
  | cons r q =>
    rw [hdeq, length_cons] at hq
    obtain rfl : q = [] := length_eq_zero_iff.mp (by omega)
    exact .inr ⟨r, rfl, length_eq_zero_iff.mp (by omega),
      length_eq_zero_iff.mp (by omega), rfl⟩

theorem grant_pop_cases (capacity : ℕ) (hq : m.queued ≤ 1) :
    (m.pop_q = [] ∧ m.grant_pop capacity = none) ∨
      ∃ r, m.pop_q = [r] ∧ m.push_q = [] ∧ m.deq_q = [] ∧
        m.grant_pop capacity = some ({ m with pop_q := [] }.enroll.pop capacity r) := by
  unfold Master.grant_pop
  unfold Master.queued at hq
  cases hpop : m.pop_q with
  | nil => exact .inl ⟨rfl, rfl⟩
  | cons r q =>
    rw [hpop, length_cons] at hq
    obtain rfl : q = [] := length_eq_zero_iff.mp (by omega)
    exact .inr ⟨r, rfl, length_eq_zero_iff.mp (by omega),
      length_eq_zero_iff.mp (by omega), rfl⟩

/-- A push that is granted where it is the only request. -/
theorem step_push {r : Request} (hpush : m.push_q = [r]) (hpop : m.pop_q = [])
    (hdeq : m.deq_q = []) :
    MasterStep H capacity m.tail_allocator m ({ m with push_q := [] }.enroll.push capacity r).1
      (some ⟨.PUSH, r.id, r.n, m.tail_allocator⟩)
      (incr_with_wrap capacity m.tail_allocator r.n) := by
  apply MasterStep.grant
  case hqueue => exact hpush
  case hempty =>
    intro c
    cases c
    · exact hpop
    · exact hdeq
    · rfl
  all_goals rfl

theorem step_pop {r : Request} (hpop : m.pop_q = [r]) (hpush : m.push_q = [])
    (hdeq : m.deq_q = []) :
    MasterStep H capacity m.tail m ({ m with pop_q := [] }.enroll.pop capacity r).1
      (some ⟨.POP, r.id, r.n, incr_with_wrap capacity m.tail (0 - r.n)⟩)
      (incr_with_wrap capacity m.tail (0 - r.n)) := by
  apply MasterStep.grant
  case hqueue => exact hpop
  case hempty =>
    intro c
    cases c
    · rfl
    · exact hdeq
    · exact hpush
  all_goals rfl

theorem step_deq (hhead : H → m.head = 0) {r : Request} (hdeq : m.deq_q = [r])
    (hpush : m.push_q = []) (hpop : m.pop_q = []) :
    MasterStep H capacity T m ({ m with deq_q := [] }.enroll.dequeue capacity r).1
      (some ⟨.DEQ, r.id, r.n, incr_with_wrap capacity m.head r.n⟩) T := by
  apply MasterStep.grant
  case hqueue => exact hdeq
  case hempty =>
    intro c
    cases c
    · exact hpop
    · rfl
    · exact hpush
  case hfits =>
    intro hH
    show incr_with_wrap capacity m.head r.n = _
    rw [hhead hH]
  all_goals rfl

theorem MasterStep.combining {m' : Master} {g : Option Grant} {T' : ℕ} {b : Bool}
    (h : MasterStep H capacity T { m with combining := b } m' g T') :
    MasterStep H capacity T m m' g T' := by
  have hsame : ∀ c, Master.queue { m with combining := b } c = m.queue c := by
    intro c
    cases c <;> rfl
  cases h with
  | on hsize hcount hqueue =>
    exact .on hsize hcount fun c => (hqueue c).trans (hsame c)
  | grant g hsize hcount hqueue hempty hfits =>
    exact .grant g hsize hcount ((hsame g.choice).symm.trans hqueue) hempty hfits

/-- What comes of a call that runs on, apart from the broadcast below it. -/
structure Runs (H : Prop) (capacity T : ℕ) (m : Master) (r : Master × List Frame × Option Grant)
    (T' : ℕ) : Prop where
  step : MasterStep H capacity T m r.1 r.2.2 T'
  head_allocator : r.1.head_allocator = 0
  queued : r.1.queued ≤ 1
  stack : (∃ f, r.2.1 = [f] ∧ f ≠ .broadcast ∧ At H T' r.1 f) ∨ (r.2.1 = [] ∧ Rest H T' r.1)

/-- Nothing was granted; the queues, the size and the count are as before. -/
theorem Runs.on {m' : Master} {fs : List Frame} (hsize : m'.size = m.size)
    (hcount : m'.count = m.count) (hqueue : ∀ c, m'.queue c = m.queue c)
    (hh : m'.head_allocator = 0) (hq : m'.queued ≤ 1)
    (hstack : (∃ f, fs = [f] ∧ f ≠ .broadcast ∧ At H T m' f) ∨ (fs = [] ∧ Rest H T m')) :
    Runs H capacity T m (m', fs, none) T :=
  ⟨.on hsize hcount hqueue, hh, hq, hstack⟩

theorem Runs.again (m' : Master) (hh : m'.head_allocator = 0) (hq : m'.queued ≤ 1)
    (hw : m'.waiters = []) (htail : m'.tail = T) (hall : m'.tail_allocator = T)
    (hhead : H → m'.head = 0) (hsize : m'.size = m.size) (hcount : m'.count = m.count)
    (hqueue : ∀ c, m'.queue c = m.queue c) :
    Runs H capacity T m (m'.again.1, m'.again.2, none) T := by
  unfold Master.again
  by_cases hr : m'.has_requests = true
  · have hne : m'.queued ≠ 0 := by
      intro hzero
      obtain ⟨h1, h2, h3⟩ := Master.queued_eq_zero.mp hzero
      simp [Master.has_requests, h1, h2, h3] at hr
    rw [if_pos hr]
    exact Runs.on hsize hcount hqueue hh hq (.inl ⟨_, rfl, by simp, hw, hne, htail, hall, hhead⟩)
  · have hzero : m'.queued = 0 := by
      simp only [Master.has_requests, Bool.or_eq_true, Bool.not_eq_true', isEmpty_eq_false_iff,
        ne_eq, not_or, not_not] at hr
      exact Master.queued_eq_zero.mpr ⟨hr.1.1, hr.1.2, hr.2⟩
    rw [if_neg hr]
    have hqueue' : ∀ c, Master.queue { m' with combining := false } c = m.queue c := by
      intro c
      rw [← hqueue c]
      cases c <;> rfl
    exact Runs.on hsize hcount hqueue' hh hq
      (.inr ⟨rfl, .inr ⟨rfl, hw, hzero, htail, hall, hhead⟩⟩)

/-- **The calls that run on the master** keep its positions up to date. -/
theorem At.runs (capacity : ℕ) (hh : m.head_allocator = 0) (hq : m.queued ≤ 1) {f : Frame} (hf : At H T m f)
    (hne : f ≠ .broadcast) (local_only : Bool) :
    ∃ T', Runs H capacity T m (m.step capacity local_only f) T' := by
  cases f with
  | broadcast => exact absurd rfl hne
  | master_combine =>
    obtain ⟨hw, hqueued, htail, hall, hhead⟩ := hf
    cases local_only with
    | false =>
      exact ⟨T, Runs.on rfl rfl (fun c => by cases c <;> rfl) hh hq
        (.inl ⟨_, rfl, by simp, hw, rfl, hall, hhead⟩)⟩
    | true =>
      have hq' : Master.queued { m with combining := true } ≤ 1 := hq
      -- the first queue in which there is a request
      rcases grant_push_cases (m := { m with combining := true }) capacity hq' with
        ⟨hpush, hnone⟩ | ⟨r, hpush, hpop, hdeq, hsome⟩
      · rcases grant_pop_cases (m := { m with combining := true }) capacity hq' with
          ⟨hpop, hnone'⟩ | ⟨r, hpop, hpush, hdeq, hsome⟩
        · rcases grant_deq_cases (m := { m with combining := true }) capacity hq' with
            ⟨hdeq, -⟩ | ⟨r, hdeq, hpush, hpop, hsome⟩
          · exact absurd (Master.queued_eq_zero.mpr ⟨hpush, hpop, hdeq⟩) hqueued
          · refine ⟨T, ?_⟩
            simp only [Master.step, Master.grant_one, hnone, hnone', hsome, Option.none_or, if_true]
            refine ⟨(step_deq (m := { m with combining := true }) hhead hdeq hpush hpop).combining, hh, ?_,
              .inl ⟨_, rfl, by simp, hw, rfl, htail, hall⟩⟩
            simp_all [Master.dequeue, Master.enroll, Master.queued]
        · subst htail
          refine ⟨incr_with_wrap capacity m.tail (0 - r.n), ?_⟩
          simp only [Master.step, Master.grant_one, hnone, hsome, Option.none_or, Option.some_or,
            if_true]
          refine ⟨(step_pop (m := { m with combining := true }) hpop hpush hdeq).combining, hh, ?_,
            .inl ⟨_, rfl, by simp, hw, rfl, rfl, hhead⟩⟩
          simp_all [Master.pop, Master.enroll, Master.queued]
      · subst hall
        refine ⟨incr_with_wrap capacity m.tail_allocator r.n, ?_⟩
        simp only [Master.step, Master.grant_one, hsome, Option.some_or, if_true]
        refine ⟨(step_push (m := { m with combining := true }) hpush hpop hdeq).combining, hh, ?_,
          .inl ⟨_, rfl, by simp, hw, rfl, rfl, hhead⟩⟩
        simp_all [Master.push, Master.enroll, Master.queued]
  | pushes =>
    obtain ⟨hw, hcomb, hall, hhead⟩ := hf
    rcases grant_push_cases capacity hq with ⟨-, hnone⟩ | ⟨r, hpush, hpop, hdeq, hsome⟩
    · refine ⟨T, ?_⟩
      simp only [Master.step, hnone]
      exact Runs.on rfl rfl (fun _ => rfl) hh hq
        (.inl ⟨_, rfl, by simp, hw, hcomb, hall, fun hH => .inl (hhead hH)⟩)
    · subst hall
      refine ⟨incr_with_wrap capacity m.tail_allocator r.n, ?_⟩
      simp only [Master.step, hsome]
      refine ⟨step_push hpush hpop hdeq, hh, ?_, .inl ⟨_, rfl, by simp, hw, hcomb, rfl, hhead⟩⟩
      simp [Master.push, Master.enroll, Master.queued, hpop, hdeq]
  | deqs =>
    obtain ⟨hw, hcomb, hall, hhead⟩ := hf
    rcases grant_deq_cases capacity hq with ⟨-, hnone⟩ | ⟨r, hdeq, hpush, hpop, hsome⟩
    · refine ⟨T, ?_⟩
      simp only [Master.step, hnone]
      exact Runs.on rfl rfl (fun _ => rfl) hh hq (.inl ⟨_, rfl, by simp, hw, hcomb, hall⟩)
    · -- it is the only one, so that the head is still 0
      have hzero : H → m.head = 0 := by
        intro hH
        rcases hhead hH with hzero | hnil
        · exact hzero
        · rw [hdeq] at hnil
          cases hnil
      refine ⟨T, ?_⟩
      simp only [Master.step, hsome]
      refine ⟨step_deq hzero hdeq hpush hpop, hh, ?_,
        .inl ⟨_, rfl, by simp, hw, hcomb, hall, fun _ => .inr rfl⟩⟩
      simp [Master.dequeue, Master.enroll, Master.queued, hpop, hpush]
  | pops =>
    obtain ⟨hw, hcomb, htail, hhead⟩ := hf
    rcases grant_pop_cases capacity hq with ⟨-, hnone⟩ | ⟨r, hpop, hpush, hdeq, hsome⟩
    · refine ⟨T, ?_⟩
      simp only [Master.step, hnone]
      exact Runs.on rfl rfl (fun _ => rfl) hh hq (.inl ⟨_, rfl, by simp, hw, hcomb, htail, hhead⟩)
    · subst htail
      refine ⟨incr_with_wrap capacity m.tail (0 - r.n), ?_⟩
      simp only [Master.step, hsome]
      refine ⟨step_pop hpop hpush hdeq, hh, ?_, .inl ⟨_, rfl, by simp, hw, hcomb, rfl, hhead⟩⟩
      simp [Master.pop, Master.enroll, Master.queued, hpush, hdeq]
  | wait c =>
    obtain ⟨hw, hcomb, hneeds⟩ := hf
    refine ⟨T, ?_⟩
    by_cases hpos : 0 < m.count
    · simp only [Master.step, if_pos hpos]
      refine Runs.on rfl rfl (fun _ => rfl) hh hq (.inr ⟨rfl, .inl ⟨hcomb, c, ?_, ?_⟩⟩)
      · rw [hw]
      · cases c with
        | woken d => cases d <;> exact hneeds
        | _ => exact hneeds
    · simp only [Master.step, if_neg hpos]
      exact Runs.on rfl rfl (fun _ => rfl) hh hq (.inl ⟨_, rfl, by simp, hw, hcomb, hneeds⟩)
  | invoke c =>
    obtain ⟨hw, hcomb, hneeds⟩ := hf
    refine ⟨T, ?_⟩
    cases c with
    | after_pushes =>
      exact Runs.on rfl rfl (fun _ => rfl) hh hq
        (.inl ⟨_, rfl, by simp, hw, hcomb, hneeds, fun _ => hh⟩)
    | after_pops =>
      obtain ⟨htail, hhead⟩ := hneeds
      exact Runs.again { m with tail_allocator := m.tail } hh hq hw htail htail hhead rfl rfl
        fun c => by cases c <;> rfl
    | woken d =>
      cases d with
      | PUSH =>
        exact Runs.again { m with tail := m.tail_allocator } hh hq hw hneeds.1 hneeds.1 hneeds.2
          rfl rfl fun c => by cases c <;> rfl
      | POP =>
        exact Runs.again { m with tail_allocator := m.tail } hh hq hw hneeds.1 hneeds.1 hneeds.2
          rfl rfl fun c => by cases c <;> rfl
      | DEQ =>
        exact Runs.again { m with head := m.head_allocator } hh hq hw hneeds.1 hneeds.2 (fun _ => hh)
          rfl rfl fun c => by cases c <;> rfl

/-! ### The master between messages -/

theorem MasterOk.step {f : Frame} {stack : List Frame} (h : MasterOk H T m (f :: stack))
    (capacity : ℕ) (local_only : Bool) :
    ∃ T', MasterStep H capacity T m (m.step capacity local_only f).1
        (m.step capacity local_only f).2.2 T' ∧
      MasterOk H T' (m.step capacity local_only f).1
        ((m.step capacity local_only f).2.1 ++ stack) := by
  obtain ⟨hh, hq, hstack⟩ := h
  by_cases hne : f = .broadcast
  · subst hne
    obtain rfl : stack = [] := by
      match stack, hstack with
      | [], _ => rfl
      | [.broadcast], hstack => exact absurd rfl hstack.2
    refine ⟨T, ?_⟩
    rcases hstack with ⟨hcomb, c, hw, hneeds⟩ | ⟨hcomb, hw, hrest⟩
    · -- the waiter is invoked
      have hstep : m.step capacity local_only .broadcast =
          ({ m with waiters := [] }, [.invoke c, .broadcast], none) := by
        simp only [Master.step, hw]
      have hneeds' : Needs H T { m with waiters := [] } c := by
        cases c with
        | woken d => cases d <;> exact hneeds
        | _ => exact hneeds
      rw [hstep]
      exact ⟨.on rfl rfl fun c => by cases c <;> rfl, hh, hq, ⟨rfl, hcomb, hneeds'⟩, nofun⟩
    · have hstep : m.step capacity local_only .broadcast = (m, [], none) := by
        simp only [Master.step, hw]
      rw [hstep]
      exact ⟨.on rfl rfl fun _ => rfl, hh, hq, .inr ⟨hcomb, hw, hrest⟩⟩
  · obtain ⟨hf, hbelow⟩ : At H T m f ∧ (stack = [] ∨ stack = [.broadcast]) := by
      match stack, hstack with
      | [], hstack => exact ⟨hstack, .inl rfl⟩
      | [.broadcast], hstack => exact ⟨hstack.1, .inr rfl⟩
    obtain ⟨T', hstep, hh', hq', hruns⟩ := hf.runs capacity hh hq hne local_only
    refine ⟨T', hstep, hh', hq', ?_⟩
    rcases hruns with ⟨f', heq, hne', hf'⟩ | ⟨heq, hrest⟩
    · rw [heq]
      rcases hbelow with rfl | rfl
      · exact hf'
      · exact ⟨hf', hne'⟩
    · rw [heq]
      rcases hbelow with rfl | rfl
      · exact hrest
      · exact hrest

theorem MasterOk.request (h : MasterOk H T m []) (hq : m.queued = 0) (c : Choice) (r : Request) :
    MasterOk H T (m.request c r).1 (m.request c r).2 ∧ (m.request c r).1.size = m.size ∧
      (m.request c r).1.count = m.count ∧ (m.request c r).1.queue c = [r] ∧
      ∀ d, d ≠ c → (m.request c r).1.queue d = [] := by
  obtain ⟨hh, -, hrest⟩ := h
  obtain ⟨hpush, hpop, hdeq⟩ := Master.queued_eq_zero.mp hq
  have hone : (m.request c r).1.queued = 1 := by
    cases c <;> simp [Master.request, Master.queued, hpush, hpop, hdeq]
  refine ⟨⟨?_, hone.le, ?_⟩, ?_, ?_, ?_, ?_⟩
  · cases c <;> exact hh
  · rcases hrest with ⟨hcomb, d, hw, hneeds⟩ | ⟨hcomb, hw, -, htail, hall, hhead⟩
    · -- somebody combines
      have hstack : (m.request c r).2 = [] := by
        cases c <;> simp [Master.request, hcomb]
      rw [hstack]
      refine .inl ⟨?_, d, ?_, ?_⟩
      · cases c <;> exact hcomb
      · cases c <;> exact hw
      · cases d with
        | woken e => cases c <;> cases e <;> exact hneeds
        | _ => cases c <;> exact hneeds
    · have hstack : (m.request c r).2 = [.master_combine] := by
        cases c <;> simp [Master.request, hcomb]
      rw [hstack]
      refine ⟨?_, ?_, ?_, ?_, ?_⟩
      · cases c <;> exact hw
      · omega
      · cases c <;> exact htail
      · cases c <;> exact hall
      · cases c <;> exact hhead
  · cases c <;> rfl
  · cases c <;> rfl
  · cases c <;> simp [Master.request, Master.queue, hpush, hpop, hdeq]
  · intro d hd
    cases c <;> cases d <;> first | exact absurd rfl hd | exact hpush | exact hpop | exact hdeq

theorem MasterOk.complete (h : MasterOk H T m []) :
    MasterOk H T m.complete.1 m.complete.2 := by
  obtain ⟨hh, hq, hrest⟩ := h
  have hrest' : Rest H T { m with count := m.count - 1 } := by
    rcases hrest with ⟨hcomb, d, hw, hneeds⟩ | hrest
    · refine .inl ⟨hcomb, d, hw, ?_⟩
      cases d with
      | woken e => cases e <;> exact hneeds
      | _ => exact hneeds
    · exact .inr hrest
  refine ⟨hh, hq, ?_⟩
  unfold Master.complete
  simp only
  split_ifs
  · exact hrest'
  · exact hrest'

end GlobalVector

end Grappa
