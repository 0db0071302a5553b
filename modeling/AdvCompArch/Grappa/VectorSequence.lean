import AdvCompArch.Grappa.CombinerAlone
import AdvCompArch.Grappa.MasterInvariant
import AdvCompArch.Grappa.VectorOperations

/-! # Sequences of operations on a global vector

    A call on a flat combiner in which nobody is gets a batch of its own, so an operation
    is one call on the master for one element.  What such calls keep of the next place to
    push to, the size, the array and the history (`OperationRule`) holds of every sequence
    of operations, whenever their `ce.complete()` messages arrive. -/

namespace Grappa

namespace GlobalVector

open VectorProxy (VectorRequest VectorEvent Proxy Delivery proxy Room contentRule_holds)

variable {V : Type}

/-! ### An operation alone on its flat combiner -/

/-- The proxy of a batch with one request. -/
def single (call : ℕ) : VectorRequest V → Proxy V
  | .push e => ⟨[(call, e)], [], []⟩
  | .pop => ⟨[], [], [call]⟩
  | .dequeue => ⟨[], [call], []⟩

/-- Nobody is in the combiner. -/
abbrev Resting (BUFFER_CAPACITY : ℕ+)
    (fc : FlatCombiner (Proxy V) (VectorRequest V) (VectorEvent V)) : Prop :=
  fc.Resting (VectorProxy.Holds BUFFER_CAPACITY) (Room BUFFER_CAPACITY)

/-- One task is in the combiner, in the `sync()` of its request. -/
abbrev InSync (BUFFER_CAPACITY : ℕ+)
    (fc : FlatCombiner (Proxy V) (VectorRequest V) (VectorEvent V)) (t : Worker) (f c : ℕ)
    (r : VectorRequest V) : Prop :=
  fc.InSync (VectorProxy.Holds BUFFER_CAPACITY) (Room BUFFER_CAPACITY) t f c (single c r)

variable {BUFFER_CAPACITY : ℕ+} {fc : FlatCombiner (Proxy V) (VectorRequest V) (VectorEvent V)}

theorem eq_of_holds_nil {rs : List (VectorRequest V)} {p : Proxy V}
    (h : VectorProxy.Holds BUFFER_CAPACITY rs p []) : p = ⟨[], [], []⟩ := by
  obtain ⟨hbuffer, hrest⟩ := List.append_eq_nil_iff.mp h.batch.eq_nil
  obtain ⟨hpops, hdeqs⟩ := List.append_eq_nil_iff.mp hrest
  rw [List.map_eq_nil_iff] at hbuffer
  obtain ⟨buffer, deqs, pops⟩ := p
  simp only at hbuffer hpops hdeqs
  rw [hbuffer, hpops, hdeqs]

theorem func_nil (c : ℕ) (r : VectorRequest V) :
    (proxy V BUFFER_CAPACITY).func c r ⟨[], [], []⟩ = ⟨.BLOCKED, single c r, [], none⟩ := by
  cases r <;> rfl

/-- **A call** in a combiner in which nobody is starts a `sync()` of its request. -/
theorem call_alone (h : Resting BUFFER_CAPACITY fc) (t : Worker) (r : VectorRequest V) :
    ∃ fc', fc.next (proxy V BUFFER_CAPACITY) (.combine t r) = some fc' ∧
      ∃ f, InSync BUFFER_CAPACITY fc' t f fc.call r := by
  have hblocked : ∀ x, VectorProxy.Holds BUFFER_CAPACITY fc.history.requests x [] →
      ((proxy V BUFFER_CAPACITY).func fc.call r x).status = .BLOCKED := by
    intro x hx
    rw [eq_of_holds_nil hx, func_nil]
  obtain ⟨x, fc', f, hx, hnext, hsync⟩ :=
    h.combine (contentRule_holds V BUFFER_CAPACITY) t r hblocked
  rw [eq_of_holds_nil hx, func_nil] at hsync
  exact ⟨fc', hnext, f, hsync⟩

/-- What the one call of a batch returns. -/
def delivered (d : Delivery V) (pushed : Option V) : VectorRequest V → Option V
  | .push _ => pushed
  | .pop => some (d.popped 0)
  | .dequeue => some (d.dequeued 0)

theorem slot_value_sync (r : VectorRequest V) (c : ℕ) (d : Delivery V) (outs : List (VectorEvent V)) :
    slot_value (VectorProxy.sync (single c r) d ++ outs) c = delivered d (slot_value outs c) r := by
  cases r <;> simp [single, VectorProxy.sync, VectorProxy.fill, slot_value, delivered]

/-- **The end of the `sync()`**: nobody is in the combiner any more. -/
theorem sync_done_alone {t : Worker} {f c : ℕ} {r : VectorRequest V}
    (h : InSync BUFFER_CAPACITY fc t f c r) (d : Delivery V) :
    ∃ fc', fc.next (proxy V BUFFER_CAPACITY) (.sync_done t d) = some fc' ∧
      Resting BUFFER_CAPACITY fc' ∧
      slot_value fc'.history.outs c = delivered d (slot_value fc.history.outs c) r := by
  obtain ⟨fc', hnext, hresting, houts⟩ := h.sync_done (contentRule_holds V BUFFER_CAPACITY) d
  refine ⟨fc', hnext, hresting, ?_⟩
  rw [houts]
  exact slot_value_sync r c d fc.history.outs

/-! ### Operations for one element -/

/-- The call on the master that an operation makes. -/
def choice : VectorRequest V → Choice
  | .push _ => .PUSH
  | .pop => .POP
  | .dequeue => .DEQ

theorem master_calls_single (c : ℕ) (r : VectorRequest V) :
    master_calls (single c r) = [(choice r, 1)] := by
  cases r <;> rfl

theorem cache_with_wraparound_one {capacity slot : ℕ} (h : slot < capacity) :
    cache_with_wraparound capacity slot 1 = [(slot, 0)] := if_pos h

/-- An operation that has one call on the master to make, with its value in the buffer. -/
structure Starts (o : Running V) : Prop where
  calls : o.calls = [(choice o.request, 1)]
  buffer : ∀ e, o.request = .push e → o.buffer 0 = e

/-- What the operations keep of the next place to push to, the size, the array and the history.  With
    `H`, a dequeue is granted the slot that follows on slot 0. -/
structure OperationRule (H : Prop) (capacity : ℕ)
    (Allowed : List (VectorRequest V × Option V) → VectorRequest V → Prop)
    (D : ℕ → ℕ → (ℕ → V) → List (VectorRequest V × Option V) → Prop) : Prop where
  push : ∀ T size base hist e x, D T size base hist → Allowed hist (.push e) → T < capacity →
    D (incr_with_wrap capacity T (1 : ℕ)) ((size + 1) % 2 ^ 64) (Function.update base T e)
      ((.push e, x) :: hist)
  pop : ∀ T size base hist slot, D T size base hist → Allowed hist .pop → slot < capacity →
    slot = incr_with_wrap capacity T (0 - (1 : ℕ)) →
    D slot ((size - (1 : ℕ) : ℤ) % 2 ^ 64).toNat base ((.pop, some (base slot)) :: hist)
  dequeue : ∀ T size base hist slot, D T size base hist → Allowed hist .dequeue →
    slot < capacity → (H → slot = incr_with_wrap capacity 0 (1 : ℕ)) →
    D T ((size - (1 : ℕ) : ℤ) % 2 ^ 64).toNat base ((.dequeue, some (base slot)) :: hist)

section Sequences

variable (cfg : Config V) (H : Prop)
  (Allowed : List (VectorRequest V × Option V) → VectorRequest V → Prop)
  (D : ℕ → ℕ → (ℕ → V) → List (VectorRequest V × Option V) → Prop)

/-- How far the operation that was called has come, and what holds then. -/
inductive Stands (T : ℕ) (m : Master) (base : ℕ → V) (hist : List (VectorRequest V × Option V)) :
    Option (Running V) → Prop where
  | idle (hq : m.queued = 0) (hd : D T m.size base hist) : Stands T m base hist none
  | sending (o : Running V) (ho : Starts o) (ha : Allowed hist o.request)
      (hstage : o.stage = .sending) (hq : m.queued = 0) (hd : D T m.size base hist) :
      Stands T m base hist (some o)
  | queued (o : Running V) (ho : Starts o) (ha : Allowed hist o.request)
      (hstage : o.stage = .queued) (id : ℕ) (hqueue : m.queue (choice o.request) = [⟨id, 1⟩])
      (hothers : ∀ c, c ≠ choice o.request → m.queue c = []) (hd : D T m.size base hist) :
      Stands T m base hist (some o)
  | granted (o : Running V) (ho : Starts o) (ha : Allowed hist o.request) (g : Grant)
      (hstage : o.stage = .granted g.slot) (hq : m.queued = 0) (hchoice : g.choice = choice o.request)
      (hn : g.n = 1) (T₀ size : ℕ) (hfits : g.Fits H cfg.capacity T₀)
      (hT : T = g.tail cfg.capacity T₀) (hsize : m.size = g.size size) (hd : D T₀ size base hist) :
      Stands T m base hist (some o)

/-- The combiner of a core, when this operation was called. -/
def ProxyOk (core : ℕ) (fc : FlatCombiner (Proxy V) (VectorRequest V) (VectorEvent V)) :
    Option (Running V) → Prop
  | some o => (o.core = core → ∃ f c, InSync cfg.BUFFER_CAPACITY fc o.task f c o.request) ∧
    (o.core ≠ core → Resting cfg.BUFFER_CAPACITY fc)
  | none => Resting cfg.BUFFER_CAPACITY fc

structure Sequential (T : ℕ) (s : VectorRun V) : Prop where
  master : MasterOk H T s.master s.stack
  stands : Stands cfg H Allowed D T s.master s.base s.history s.running
  proxies : cfg.flat_combining = true → ∀ core, ProxyOk cfg core (s.proxies core) s.running

variable {cfg H Allowed D} {s : VectorRun V} {T : ℕ}

/-- **An operation is called** when no other is under way. -/
theorem Sequential.call (h : Sequential cfg H Allowed D T s) (hrunning : s.running = none)
    {core : ℕ} {t : Worker} {r : VectorRequest V} (ha : Allowed s.history r) {s' : VectorRun V}
    (hstep : s.call cfg core t r = some s') : Sequential cfg H Allowed D T s' := by
  obtain ⟨hmaster, hstands, hproxies⟩ := h
  rw [hrunning] at hstands hproxies
  obtain ⟨hq, hd⟩ : s.master.queued = 0 ∧ D T s.master.size s.base s.history := by
    cases hstands with
    | idle hq hd => exact ⟨hq, hd⟩
  unfold VectorRun.call at hstep
  by_cases hflat : cfg.flat_combining = true
  · rw [if_pos hflat] at hstep
    obtain ⟨fc, hnext, f, hsync⟩ := call_alone (show Resting _ _ from hproxies hflat core) t r
    rw [hnext, Option.bind_some, hsync.task] at hstep
    simp only [hsync.id] at hstep
    cases hstep
    refine ⟨hmaster, ?_, ?_⟩
    · apply Stands.sending
      case ho =>
        refine ⟨master_calls_single _ r, ?_⟩
        rintro e rfl
        rfl
      case ha => exact ha
      case hstage => rfl
      case hq => exact hq
      case hd => exact hd
    · intro _ core'
      by_cases hcore : core = core'
      · subst hcore
        refine ⟨fun _ => ⟨f, (s.proxies core).call, ?_⟩, fun hne => absurd rfl hne⟩
        simp only [Function.update_self]
        exact hsync
      · refine ⟨fun heq => absurd heq hcore, fun _ => ?_⟩
        simp only [Function.update_of_ne (Ne.symm hcore)]
        exact hproxies hflat core'
  · rw [if_neg hflat] at hstep
    cases hstep
    refine ⟨hmaster, ?_, fun heq => absurd heq hflat⟩
    apply Stands.sending
    case ho =>
      cases r with
      | push e => exact ⟨rfl, fun _ heq => VectorRequest.push.inj heq⟩
      | pop => exact ⟨rfl, nofun⟩
      | dequeue => exact ⟨rfl, nofun⟩
    case ha => exact ha
    case hstage => rfl
    case hq => exact hq
    case hd => exact hd

theorem ProxyOk.stage {core : ℕ}
    {fc : FlatCombiner (Proxy V) (VectorRequest V) (VectorEvent V)} {o : Running V}
    (h : ProxyOk cfg core fc (some o)) (stage : Stage) :
    ProxyOk cfg core fc (some { o with stage := stage }) := h

theorem Sequential.request (h : Sequential cfg H Allowed D T s) {s' : VectorRun V}
    (hstep : s.next cfg .request = some s') : Sequential cfg H Allowed D T s' := by
  obtain ⟨hmaster, hstands, hproxies⟩ := h
  unfold VectorRun.next at hstep
  simp only at hstep
  split at hstep
  · next core t r c n calls buffer delivery hrunning =>
    obtain ⟨hstack, rfl⟩ := Option.ite_some_none_eq_some.mp hstep
    rw [hrunning] at hstands hproxies
    rw [hstack] at hmaster
    cases hstands with
    | sending o ho ha hstage hq hd =>
      obtain ⟨rfl, rfl, rfl⟩ : c = choice r ∧ n = 1 ∧ calls = [] := by
        simpa [and_assoc] using ho.calls
      obtain ⟨hmaster', hsize, -, hqueue, hothers⟩ :=
        hmaster.request hq (choice r) ⟨s.history.length, 1⟩
      refine ⟨hmaster', ?_, hproxies⟩
      apply Stands.queued
      case ho => exact ⟨rfl, ho.buffer⟩
      case ha => exact ha
      case hstage => rfl
      case id => exact s.history.length
      case hqueue => exact hqueue
      case hothers => exact hothers
      case hd =>
        simp only [hsize]
        exact hd
    | queued o ho ha hstage => cases hstage
    | granted o ho ha g hstage => cases hstage
  · cases hstep

/-- **The master runs on**. -/
theorem Sequential.run (h : Sequential cfg H Allowed D T s) {s' : VectorRun V}
    (hstep : s.next cfg .run = some s') : ∃ T', Sequential cfg H Allowed D T' s' := by
  obtain ⟨hmaster, hstands, hproxies⟩ := h
  unfold VectorRun.next at hstep
  simp only at hstep
  split at hstep
  · next f stack hstack =>
    cases hstep
    rw [hstack] at hmaster
    obtain ⟨T', hrun, hmaster'⟩ := hmaster.step cfg.capacity cfg.flat_combining_local_only
    refine ⟨T', ?_⟩
    generalize s.master.step cfg.capacity cfg.flat_combining_local_only f = r at hrun hmaster' ⊢
    obtain ⟨m, fs, granted⟩ := r
    simp only at hrun hmaster' ⊢
    cases hrun with
    | on hsize hcount hqueue =>
      refine ⟨hmaster', ?_, hproxies⟩
      have hqueued : s.master.queued = 0 → m.queued = 0 := by
        intro hzero
        obtain ⟨hpush, hpop, hdeq⟩ := Master.queued_eq_zero.mp hzero
        exact Master.queued_eq_zero.mpr
          ⟨(hqueue .PUSH).trans hpush, (hqueue .POP).trans hpop, (hqueue .DEQ).trans hdeq⟩
      simp only
      generalize s.running = running at hstands
      cases hstands with
      | idle hq hd => exact .idle (hqueued hq) (by rwa [hsize])
      | sending o ho ha hstage hq hd =>
        exact .sending o ho ha hstage (hqueued hq) (by rwa [hsize])
      | queued o ho ha hstage id hq hothers hd =>
        exact .queued o ho ha hstage id ((hqueue _).trans hq)
          (fun c hc => (hqueue c).trans (hothers c hc)) (by rwa [hsize])
      | granted o ho ha g hstage hq hchoice hn T₀ size hfits hT hsize' hd =>
        exact .granted o ho ha g hstage (hqueued hq) hchoice hn T₀ size hfits hT
          (hsize.trans hsize') hd
    | grant g hsize hcount hqueue hempty hfits =>
      have hqueued : m.queued = 0 :=
        Master.queued_eq_zero.mpr ⟨hempty .PUSH, hempty .POP, hempty .DEQ⟩
      -- the operation that is queued is granted its slot
      have hnone : s.master.queued ≠ 0 := by
        intro hzero
        obtain ⟨hpush, hpop, hdeq⟩ := Master.queued_eq_zero.mp hzero
        cases hg : g.choice with
        | PUSH =>
          rw [hg, show s.master.queue .PUSH = _ from hpush] at hqueue
          cases hqueue
        | POP =>
          rw [hg, show s.master.queue .POP = _ from hpop] at hqueue
          cases hqueue
        | DEQ =>
          rw [hg, show s.master.queue .DEQ = _ from hdeq] at hqueue
          cases hqueue
      generalize hrunning : s.running = running at hstands hproxies ⊢
      cases hstands with
      | idle hq hd => exact absurd hq hnone
      | sending o ho ha hstage hq hd => exact absurd hq hnone
      | granted o ho ha g' hstage hq => exact absurd hq hnone
      | queued o ho ha hstage id hq hothers hd =>
        have hchoice : g.choice = choice o.request := by
          by_contra hne
          rw [hothers _ hne] at hqueue
          cases hqueue
        have hn : g.n = 1 := by
          rw [hchoice, hq] at hqueue
          simpa using (congrArg (List.map Request.n) hqueue).symm
        refine ⟨hmaster', ?_, fun hflat core => (hproxies hflat core).stage _⟩
        exact .granted { o with stage := .granted g.slot } ⟨ho.calls, ho.buffer⟩ ha g rfl hqueued
          hchoice hn T s.master.size hfits rfl hsize hd
  · cases hstep

theorem Sequential.complete (h : Sequential cfg H Allowed D T s) {s' : VectorRun V}
    (hstep : s.next cfg .complete = some s') : Sequential cfg H Allowed D T s' := by
  obtain ⟨hmaster, hstands, hproxies⟩ := h
  obtain ⟨⟨hstack, -⟩, rfl⟩ := Option.ite_some_none_eq_some.mp hstep
  rw [hstack] at hmaster
  refine ⟨hmaster.complete, ?_, hproxies⟩
  have hqueue : ∀ c, s.master.complete.1.queue c = s.master.queue c := by
    intro c
    cases c <;> rfl
  simp only
  generalize s.running = running at hstands
  cases hstands with
  | idle hq hd => exact .idle hq hd
  | sending o ho ha hstage hq hd => exact .sending o ho ha hstage hq hd
  | queued o ho ha hstage id hq hothers hd =>
    exact .queued o ho ha hstage id ((hqueue _).trans hq)
      (fun c hc => (hqueue c).trans (hothers c hc)) hd
  | granted o ho ha g hstage hq hchoice hn T₀ size hfits hT hsize hd =>
    exact .granted o ho ha g hstage hq hchoice hn T₀ size hfits hT hsize hd

/-- What an operation does to the array at its slot. -/
def stored (base : ℕ → V) (slot : ℕ) : VectorRequest V → ℕ → V
  | .push e => Function.update base slot e
  | _ => base

/-- What an operation returns. -/
def returned (base : ℕ → V) (slot : ℕ) (pushed : Option V) : VectorRequest V → Option V
  | .push _ => pushed
  | _ => some (base slot)

theorem OperationRule.transfer (hD : OperationRule H cfg.capacity Allowed D) {T₀ size : ℕ}
    {base : ℕ → V} {hist : List (VectorRequest V × Option V)} (hd : D T₀ size base hist)
    {r : VectorRequest V} (ha : Allowed hist r) {g : Grant} (hchoice : g.choice = choice r)
    (hn : g.n = 1) (hfits : g.Fits H cfg.capacity T₀) (hslot : g.slot < cfg.capacity)
    (pushed : Option V) :
    D (g.tail cfg.capacity T₀) (g.size size) (stored base g.slot r)
      ((r, returned base g.slot pushed r) :: hist) := by
  obtain ⟨c, id, n, slot⟩ := g
  obtain rfl : n = 1 := hn
  obtain rfl : c = choice r := hchoice
  cases r with
  | push e =>
    obtain rfl : slot = T₀ := hfits
    exact hD.push slot size base hist e pushed hd ha hslot
  | pop =>
    have hfits' : slot = incr_with_wrap cfg.capacity T₀ (0 - (1 : ℕ)) := hfits
    show D (incr_with_wrap cfg.capacity T₀ (0 - (1 : ℕ))) _ _ _
    rw [← hfits']
    exact hD.pop T₀ size base hist slot hd ha hslot hfits'
  | dequeue => exact hD.dequeue T₀ size base hist slot hd ha hslot hfits

/-- **The transfer** of the one element of an operation, which is finished then. -/
theorem transfer_eq {o : Running V} (ho : Starts o) {slot : ℕ} (hslot : slot < cfg.capacity) :
    ∃ o' : Running V, o'.core = o.core ∧ o'.task = o.task ∧ o'.request = o.request ∧
      s.transfer cfg o (choice o.request) 1 slot [] = VectorRun.finish cfg
        { s with
          base := stored s.base slot o.request
          completions := s.completions + 1
          running := some o' } o' ∧
      (∀ pushed, delivered o'.delivery pushed o.request = returned s.base slot pushed o.request) ∧
      ((∀ e, o.request ≠ .push e) → o'.buffer 0 = s.base slot) := by
  have hrange := cache_with_wraparound_one hslot
  have hread : ∀ buffer : ℕ → V, read_in s.base buffer [(slot, 0)] 0 = s.base slot := by
    intro buffer
    simp [read_in]
  obtain ⟨core, task, request, calls, stage, buffer, delivery⟩ := o
  unfold VectorRun.transfer
  rw [hrange]
  cases request with
  | push e =>
    have hbuffer : buffer 0 = e := ho.buffer e rfl
    have hbase : write_back s.base buffer [(slot, 0)] = Function.update s.base slot e := by
      rw [← hbuffer]
      rfl
    refine ⟨⟨core, task, .push e, [], .sending, buffer, delivery⟩, rfl, rfl, rfl, ?_,
      fun _ => rfl, fun hne => absurd rfl (hne e)⟩
    simp only [choice, base_after, buffer_after, delivery_after, hbase, stored, if_true]
  | pop =>
    exact ⟨⟨core, task, .pop, [], .sending, read_in s.base buffer [(slot, 0)],
      { delivery with popped := read_in s.base buffer [(slot, 0)] }⟩, rfl, rfl, rfl, rfl,
      fun _ => congrArg some (hread buffer), fun _ => hread buffer⟩
  | dequeue =>
    exact ⟨⟨core, task, .dequeue, [], .sending, read_in s.base buffer [(slot, 0)],
      { delivery with dequeued := read_in s.base buffer [(slot, 0)] }⟩, rfl, rfl, rfl, rfl,
      fun _ => congrArg some (hread buffer), fun _ => hread buffer⟩

/-- **The data of an operation** is transferred, and it returns. -/
theorem Sequential.transfer (hD : OperationRule H cfg.capacity Allowed D)
    (h : Sequential cfg H Allowed D T s) {s' : VectorRun V}
    (hstep : s.next cfg .transfer = some s') : Sequential cfg H Allowed D T s' := by
  obtain ⟨hmaster, hstands, hproxies⟩ := h
  unfold VectorRun.next at hstep
  simp only at hstep
  split at hstep
  · next o hrunning =>
    rw [hrunning] at hstands hproxies
    cases hstands with
    | sending o ho ha hstage =>
      rw [hstage] at hstep
      cases hstep
    | queued o ho ha hstage =>
      rw [hstage] at hstep
      cases hstep
    | granted o ho ha g hstage hq hchoice hn T₀ size hfits hT hsize hd =>
      rw [hstage, ho.calls] at hstep
      obtain ⟨hslot, hstep⟩ := Option.ite_none_right_eq_some.mp hstep
      obtain ⟨o', hcore, htask, hrequest, heq, hdelivered, hbuffer⟩ :=
        transfer_eq (s := s) ho hslot
      rw [heq] at hstep
      have hrule := hD.transfer hd ha hchoice hn hfits hslot
      rw [← hT, ← hsize] at hrule
      unfold VectorRun.finish at hstep
      by_cases hflat : cfg.flat_combining = true
      · -- the flush is over, and nobody is in the combiner
        obtain ⟨f, c, hsync⟩ := (hproxies hflat o.core).1 rfl
        obtain ⟨fc, hnext, hresting, hvalue⟩ := sync_done_alone hsync o'.delivery
        rw [if_pos hflat] at hstep
        simp only [hcore, htask, hsync.task, hnext, Option.map_some, hrequest] at hstep
        cases hstep
        rw [hdelivered] at hvalue
        refine ⟨hmaster, ?_, ?_⟩
        · apply Stands.idle hq
          simp only [hvalue]
          exact hrule _
        · intro _ core
          show Resting _ (Function.update s.proxies o.core fc core)
          by_cases hc : core = o.core
          · rw [hc, Function.update_self]
            exact hresting
          · rw [Function.update_of_ne hc]
            exact (hproxies hflat core).2 (Ne.symm hc)
      · rw [if_neg hflat] at hstep
        cases hstep
        refine ⟨hmaster, ?_, fun heq => absurd heq hflat⟩
        apply Stands.idle hq
        simp only [hrequest]
        have hresult := hrule none
        generalize o.request = r at hresult hbuffer ⊢
        cases r with
        | push e => exact hresult
        | pop =>
          simp only [hbuffer nofun]
          exact hresult
        | dequeue =>
          simp only [hbuffer nofun]
          exact hresult
  · cases hstep

/-! ### Runs -/

/-- The operations that are called meet the condition. -/
def Calls (Allowed : List (VectorRequest V × Option V) → VectorRequest V → Prop) (s : VectorRun V) :
    VectorRun.Label V → Prop
  | .call _ _ r => Allowed s.history r
  | _ => True

instance [∀ hist r, Decidable (Allowed hist r)] (s : VectorRun V) :
    ∀ l, Decidable (Calls Allowed s l)
  | .call _ _ r => inferInstanceAs (Decidable (Allowed s.history r))
  | .request => isTrue trivial
  | .run => isTrue trivial
  | .transfer => isTrue trivial
  | .complete => isTrue trivial

theorem Sequential.next (hD : OperationRule H cfg.capacity Allowed D)
    (h : Sequential cfg H Allowed D T s) {l : VectorRun.Label V} (hl : Calls Allowed s l)
    {s' : VectorRun V} (hstep : s.next cfg l = some s') :
    ∃ T', Sequential cfg H Allowed D T' s' := by
  cases l with
  | call core t r =>
    unfold VectorRun.next at hstep
    simp only at hstep
    split at hstep
    · next hrunning => exact ⟨T, h.call hrunning hl hstep⟩
    · cases hstep
  | request => exact ⟨T, h.request hstep⟩
  | run => exact h.run hstep
  | transfer => exact ⟨T, h.transfer hD hstep⟩
  | complete => exact ⟨T, h.complete hstep⟩

theorem sequential_init {head tail : ℕ} {base : ℕ → V} (hhead : H → head = 0)
    (hd : D tail 0 base []) : Sequential cfg H Allowed D tail (VectorRun.init cfg head tail base) where
  master := ⟨rfl, Nat.zero_le 1, .inr ⟨rfl, rfl, rfl, rfl, rfl, hhead⟩⟩
  stands := .idle rfl hd
  proxies := fun _ _ => ⟨FlatCombiner.inv_new _,
    FlatCombiner.content_new (contentRule_holds V cfg.BUFFER_CAPACITY) _, fun _ => rfl⟩

/-- **The sequence rule**: what the operations keep holds of the history at any time, and of the vector
    when no operation is under way. -/
theorem sequence_rule (hD : OperationRule H cfg.capacity Allowed D) {head tail : ℕ} {base : ℕ → V}
    (hhead : H → head = 0) (hd : D tail 0 base []) {steps : List (VectorRun.Label V)}
    (hrun : (VectorRun.system cfg head tail base).run (VectorRun.init cfg head tail base) steps =
      some s)
    (hcalls : (VectorRun.system cfg head tail base).Always (Calls Allowed)
      (VectorRun.init cfg head tail base) steps) :
    (∃ T size base, D T size base s.history) ∧
      (s.running = none → ∃ T, D T s.master.size s.base s.history) := by
  obtain ⟨T, h⟩ : ∃ T, Sequential cfg H Allowed D T s := by
    apply Transition.System.invariant_under (fun s => ∃ T, Sequential cfg H Allowed D T s) _
      ⟨tail, sequential_init hhead hd⟩ hcalls hrun
    rintro s l s' ⟨T, h⟩ hl hstep
    exact h.next hD hl hstep
  obtain ⟨-, hstands, -⟩ := h
  generalize s.running = running at hstands
  cases hstands with
  | idle hq hd => exact ⟨⟨_, _, _, hd⟩, fun _ => ⟨_, hd⟩⟩
  | sending o ho ha hstage hq hd => exact ⟨⟨_, _, _, hd⟩, nofun⟩
  | queued o ho ha hstage id hq hothers hd => exact ⟨⟨_, _, _, hd⟩, nofun⟩
  | granted o ho ha g hstage hq hchoice hn T₀ size hfits hT hsize hd => exact ⟨⟨_, _, _, hd⟩, nofun⟩

end Sequences

end GlobalVector

end Grappa
