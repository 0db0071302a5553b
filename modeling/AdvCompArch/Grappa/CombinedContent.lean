import AdvCompArch.Grappa.FlatCombinerInvariant

/-! # What the combined objects hold

    A relation between a combined object and the calls of its batch that the functors and
    `clear()` keep (`ContentRule`) holds of the current flusher and of every flusher with a
    sender, along every `Paired` run.  The current object meets more: what `clear()` leaves,
    and what a functor leaves of an object that is not full then.  On top of it, what the
    functors and the `sync()`s write is followed along a run (`EffectRule`). -/

namespace Grappa

namespace FlatCombiner

open Function CombinerHistory

variable {σ Req Out Env : Type} {C : Combined σ Req Out Env} {fc : FlatCombiner σ Req Out}

/-- `P requests x b`: of the calls with these requests, the object `x` holds those in `b`.  `Room x`:
    the object `x` can take another request. -/
structure ContentRule (C : Combined σ Req Out Env) (P : List Req → σ → List ℕ → Prop)
    (Room : σ → Prop) : Prop where
  clear : ∀ rs y, P rs (C.clear y) [] ∧ Room (C.clear y)
  mono : ∀ rs r x b, (∀ c ∈ b, c < rs.length) → P rs x b → P (rs ++ [r]) x b
  blocked : ∀ rs r x b, P rs x b → Room x → (C.func rs.length r x).status = .BLOCKED →
    P (rs ++ [r]) (C.func rs.length r x).id (rs.length :: b) ∧
      (C.is_full (C.func rs.length r x).id = false → Room (C.func rs.length r x).id)
  matched : ∀ rs r x b c, P rs x b → Room x → (C.func rs.length r x).status = .MATCHED →
    (C.func rs.length r x).partner = some c →
    P (rs ++ [r]) (C.func rs.length r x).id (b.filter fun d => d ≠ c) ∧
      Room (C.func rs.length r x).id
  satisfied : ∀ rs r x b, P rs x b → Room x → (C.func rs.length r x).status = .SATISFIED →
    P (rs ++ [r]) (C.func rs.length r x).id b ∧ Room (C.func rs.length r x).id

/-- The flushers in use hold what their batches say, and the current one has room. -/
structure Content (P : List Req → σ → List ℕ → Prop) (Room : σ → Prop)
    (fc : FlatCombiner σ Req Out) : Prop where
  holds : ∀ s, s = fc.current ∨ (fc.flushers s).sender ≠ none →
    P fc.history.requests (fc.flushers s).id (fc.flushers s).batch
  room : Room (fc.flushers fc.current).id

/-! ### The objects after a step -/

theorem id_setFlusher (fc : FlatCombiner σ Req Out) (s x : ℕ) (f : Flusher σ)
    (hf : f.id = (fc.flushers s).id) : ((fc.setFlusher s f).flushers x).id = (fc.flushers x).id := by
  by_cases hx : x = s
  · rw [hx, ← hf]
    simp [setFlusher]
  · simp [setFlusher, hx]

theorem id_begin_flush (fc : FlatCombiner σ Req Out) (t : Worker) (c s x : ℕ) :
    ((fc.begin_flush t c s).flushers x).id = (fc.flushers x).id := id_setFlusher fc s x _ rfl

theorem id_launch (fc : FlatCombiner σ Req Out) (t : Worker) (r : Req) (a : Answer σ Out) (x : ℕ) :
    ((fc.launch C t r a).flushers x).id =
      (((fc.run_functor r a).swap C fc.current).flushers x).id := id_begin_flush _ t _ _ x

theorem id_wait (fc : FlatCombiner σ Req Out) (t : Worker) (c s x : ℕ) :
    ((fc.wait t c s).flushers x).id = (fc.flushers x).id := id_setFlusher fc s x _ rfl

theorem id_signal (fc : FlatCombiner σ Req Out) (s x : ℕ) :
    ((fc.signal s).flushers x).id = (fc.flushers x).id := by
  unfold signal
  split
  · rfl
  · exact id_setFlusher fc s x _ rfl

theorem id_run_functor (fc : FlatCombiner σ Req Out) (r : Req) (a : Answer σ Out) (x : ℕ) :
    ((fc.run_functor r a).flushers x).id = if x = fc.current then a.id else (fc.flushers x).id := by
  unfold run_functor
  by_cases hx : x = fc.current
  · cases a.status <;> simp [setFlusher, hx]
  · cases a.status <;> simp [setFlusher, hx]

theorem requests_run_functor (fc : FlatCombiner σ Req Out) (r : Req) (a : Answer σ Out) :
    (fc.run_functor r a).history.requests = fc.history.requests ++ [r] := by
  unfold run_functor
  cases a.status <;> rfl

theorem history_swap (fc : FlatCombiner σ Req Out) (s : ℕ) :
    (fc.swap C s).history = fc.history := by
  unfold swap get_flusher
  cases fc.freelist <;> rfl

theorem history_signal (fc : FlatCombiner σ Req Out) (s : ℕ) :
    (fc.signal s).history = fc.history := by
  unfold signal
  split <;> rfl

/-! ### The rule -/

variable {P : List Req → σ → List ℕ → Prop} {Room : σ → Prop}

/-- A flusher that a call does not change holds its batch still. -/
theorem Content.mono (hc : fc.Content P Room) (hP : ContentRule C P Room) (h : fc.Inv) (r : Req)
    {s : ℕ} (hs : s = fc.current ∨ fc.ledger.sender s ≠ none) :
    P (fc.history.requests ++ [r]) (fc.flushers s).id (fc.ledger.batch s) :=
  hP.mono _ _ _ _ (fun c hmem => (h.ledger.batch s c hmem).1) (hc.holds s hs)

theorem Content.of_current (hc : fc.Content P Room) (hP : ContentRule C P Room) (h : fc.Inv)
    {r : Req} {fc' : FlatCombiner σ Req Out} (hreq : fc'.history.requests = fc.history.requests ++ [r])
    (hcurrent : fc'.current = fc.current) (hsender : fc'.ledger.sender = fc.ledger.sender)
    (hnew : P (fc.history.requests ++ [r]) (fc'.flushers fc.current).id (fc'.ledger.batch fc.current))
    (hroom : Room (fc'.flushers fc.current).id)
    (hid : ∀ s, s ≠ fc.current → (fc'.flushers s).id = (fc.flushers s).id)
    (hbatch : ∀ s, s ≠ fc.current → fc'.ledger.batch s = fc.ledger.batch s) :
    fc'.Content P Room := by
  refine ⟨?_, by rwa [hcurrent]⟩
  intro s hs
  rw [hreq]
  by_cases hsc : s = fc.current
  · rw [hsc]
    exact hnew
  · have hs' : fc'.ledger.sender s ≠ none := by
      rcases hs with hs | hs
      · exact absurd (hs.trans hcurrent) hsc
      · exact hs
    rw [hsender] at hs'
    rw [hid s hsc]
    show P _ _ (fc'.ledger.batch s)
    rw [hbatch s hsc]
    exact hc.mono hP h r (.inr hs')

theorem Content.launch (hP : ContentRule C P Room) (h : fc.Inv) (hc : fc.Content P Room)
    (t : Worker) {r : Req} {a : Answer σ Out} (ha : a.status = .BLOCKED)
    (hnew : P (fc.history.requests ++ [r]) a.id (fc.call :: fc.ledger.batch fc.current)) :
    (fc.launch C t r a).Content P Room := by
  have hledger := h.ledger_launch (C := C) t r ha
  obtain ⟨-, -, hkeep, y, hclear⟩ := h.swap_run_functor (C := C) r ha
  have hid := id_launch (C := C) fc t r a
  have hreq : (fc.launch C t r a).history.requests = fc.history.requests ++ [r] := by
    show ((fc.run_functor r a).swap C fc.current).history.requests = _
    rw [history_swap, requests_run_functor]
  have hcurrent : (fc.launch C t r a).current = fc.next_flusher :=
    congrArg BatchLedger.current hledger
  constructor
  case room =>
    rw [hcurrent, hid, hclear]
    exact (hP.clear [] y).2
  intro s hs
  have hs' : s = (fc.launch C t r a).ledger.current ∨
    (fc.launch C t r a).ledger.sender s ≠ none := hs
  rw [hreq, hid]
  show P _ _ ((fc.launch C t r a).ledger.batch s)
  rw [hledger] at hs' ⊢
  by_cases hsr : s = fc.next_flusher
  · -- the next flusher is clear
    have hbatch : (fc.ledger.launch fc.next_flusher t).batch fc.next_flusher = [] :=
      (update_of_ne h.ne_next_flusher.symm ..).trans (h.empty _ fc.next_flusher_free).2.2
    rw [hsr, hclear, hbatch]
    exact (hP.clear _ y).1
  · rw [hkeep s hsr, id_run_functor]
    by_cases hsc : s = fc.current
    · have hbatch : (fc.ledger.launch fc.next_flusher t).batch fc.current =
        fc.call :: fc.ledger.batch fc.current := update_self ..
      rw [if_pos hsc, hsc, hbatch]
      exact hnew
    · have hbatch : (fc.ledger.launch fc.next_flusher t).batch s = fc.ledger.batch s :=
        update_of_ne hsc ..
      have hsender : (fc.ledger.launch fc.next_flusher t).sender s = fc.ledger.sender s :=
        update_of_ne hsc ..
      rw [if_neg hsc, hbatch]
      rw [hsender] at hs'
      rcases hs' with hs' | hs'
      · exact absurd hs' hsr
      · exact hc.mono hP h r (.inr hs')

/-- **A call** keeps what the flushers hold. -/
theorem Content.combine (hP : ContentRule C P Room) (h : fc.Inv) (hc : fc.Content P Room)
    {t : Worker} {r : Req} (hp : Paired C fc (.combine t r : Label Req Env)) :
    (fc.combine C t r).Content P Room := by
  obtain ⟨a, hdef⟩ : ∃ a, a = C.func fc.call r (fc.flushers fc.current).id := ⟨_, rfl⟩
  have hcur := hc.holds fc.current (.inl rfl)
  have hrunid : ((fc.run_functor r a).flushers fc.current).id = a.id := by
    rw [id_run_functor, if_pos rfl]
  have hother : ∀ s, s ≠ fc.current → ((fc.run_functor r a).flushers s).id = (fc.flushers s).id := by
    intro s hs
    rw [id_run_functor, if_neg hs]
  cases hstatus : a.status with
  | BLOCKED =>
    have hnew : P (fc.history.requests ++ [r]) a.id (fc.call :: fc.ledger.batch fc.current) ∧
        (C.is_full a.id = false → Room a.id) := by
      rw [hdef] at hstatus ⊢
      exact hP.blocked _ _ _ _ hcur hc.room hstatus
    rcases h.combine_blocked_eq (C := C) (t := t) hdef hstatus with heq | ⟨-, hfull, heq⟩
    · rw [heq]
      exact Content.launch hP h hc t hstatus hnew.1
    · have hledger := ledger_park fc t r hstatus
      rw [heq]
      apply hc.of_current hP h (r := r)
      · exact requests_run_functor fc r a
      · exact congrArg BatchLedger.current hledger
      · rw [hledger]
        rfl
      · have hbatch : (fc.ledger.park t).batch fc.current = fc.call :: fc.ledger.batch fc.current :=
          update_self ..
        rw [id_wait, hrunid, hledger, hbatch]
        exact hnew.1
      · rw [id_wait, hrunid]
        exact hnew.2 hfull
      · intro s hs
        rw [id_wait, hother s hs]
      · intro s hs
        rw [hledger]
        exact update_of_ne hs ..
  | SATISFIED =>
    have heq := combine_satisfied_eq (C := C) (t := t) hdef hstatus
    have hledger := ledger_run_functor_satisfied fc r hstatus
    have hnew : P (fc.history.requests ++ [r]) a.id (fc.ledger.batch fc.current) ∧ Room a.id := by
      rw [hdef] at hstatus ⊢
      exact hP.satisfied _ _ _ _ hcur hc.room hstatus
    rw [heq]
    apply hc.of_current hP h (r := r)
    · exact requests_run_functor fc r a
    · exact congrArg BatchLedger.current hledger
    · show (fc.run_functor r a).ledger.sender = _
      rw [hledger]
    · show P _ ((fc.run_functor r a).flushers fc.current).id
        ((fc.run_functor r a).ledger.batch fc.current)
      rw [hrunid, hledger]
      exact hnew.1
    · show Room ((fc.run_functor r a).flushers fc.current).id
      rw [hrunid]
      exact hnew.2
    · exact hother
    · intro s _
      exact congrFun (congrArg BatchLedger.batch hledger) s
  | MATCHED =>
    obtain ⟨w, ws, c, hw, hwait, hpartner⟩ := hp (by rw [← hdef, hstatus])
    rw [← hdef] at hpartner
    have heq := combine_matched_eq (C := C) (t := t) hdef hstatus
    have hrun := ledger_run_functor_matched fc r hstatus hpartner
    have hwaiters : (fc.run_functor r a).ledger.waiters fc.current = w :: ws := by
      rw [hrun]
      exact hw
    have hledger := ledger_signal hwaiters
    have hnew : P (fc.history.requests ++ [r]) a.id
        ((fc.ledger.batch fc.current).filter fun d => d ≠ c) ∧ Room a.id := by
      rw [hdef] at hstatus hpartner ⊢
      exact hP.matched _ _ _ _ _ hcur hc.room hstatus hpartner
    rw [heq]
    apply hc.of_current hP h (r := r)
    · exact (congrArg requests (history_signal _ _)).trans
        (requests_run_functor fc r a)
    · exact (congrArg BatchLedger.current hledger).trans (congrArg BatchLedger.current hrun)
    · show ((fc.run_functor r a).signal fc.current).ledger.sender = _
      rw [hledger, hrun]
    · show P _ (((fc.run_functor r a).signal fc.current).flushers fc.current).id
        (((fc.run_functor r a).signal fc.current).ledger.batch fc.current)
      have hbatch : ((fc.run_functor r a).signal fc.current).ledger.batch fc.current =
          (fc.ledger.batch fc.current).filter fun d => d ≠ c := by
        rw [hledger, hrun]
        exact update_self ..
      rw [id_signal, hrunid, hbatch]
      exact hnew.1
    · show Room (((fc.run_functor r a).signal fc.current).flushers fc.current).id
      rw [id_signal, hrunid]
      exact hnew.2
    · intro s hs
      exact (id_signal _ _ _).trans (hother s hs)
    · intro s hs
      rw [show (((fc.run_functor r a).signal fc.current).ret t fc.call).ledger.batch =
        ((fc.run_functor r a).signal fc.current).ledger.batch from rfl, hledger, hrun]
      exact update_of_ne hs ..

theorem id_appoint (hok : fc.FreelistOk)
    (hempty : fc.FreeEmpty) :
    (∀ x, x ≠ fc.next_flusher → ((fc.appoint C).flushers x).id = (fc.flushers x).id) ∧
      ∃ y, ((fc.appoint C).flushers fc.next_flusher).id = C.clear y := by
  obtain ⟨-, -, hkeep, y, hclear⟩ := swap_spec (C := C) hok hempty fc.current
  have hid : ∀ x, ((fc.appoint C).flushers x).id = ((fc.swap C fc.current).flushers x).id := by
    intro x
    exact (id_signal _ _ _).trans (id_setFlusher _ _ _ _ rfl)
  refine ⟨?_, y, ?_⟩
  · intro x hx
    rw [hid, hkeep x hx]
  · rw [hid, hclear]

theorem history_appoint (fc : FlatCombiner σ Req Out) : (fc.appoint C).history = fc.history :=
  (history_signal _ _).trans (history_swap fc fc.current)

theorem current_appoint (hok : fc.FreelistOk)
    (hempty : fc.FreeEmpty) : (fc.appoint C).current = fc.next_flusher := by
  obtain ⟨hswap, -⟩ := swap_spec (C := C) hok hempty fc.current
  have hsignal : ∀ (g : FlatCombiner σ Req Out) (s : ℕ), (g.signal s).current = g.current := by
    intro g s
    unfold signal
    split <;> rfl
  exact (hsignal _ _).trans (congrArg BatchLedger.current hswap)

/-- **The objects after a `sync()`**: if the current batch got a sender, the next flusher is clear; the
    others stay as they are. -/
theorem Inv.id_sync_done (h : fc.Inv) (t : Worker) (s c : ℕ) (e : Env) :
    (fc.sync_done C t s c e).history.requests = fc.history.requests ∧
      (((fc.sync_done C t s c e).current = fc.current ∧
          ∀ x, ((fc.sync_done C t s c e).flushers x).id = (fc.flushers x).id) ∨
        ((fc.sync_done C t s c e).current = fc.next_flusher ∧
          (∀ x, x ≠ fc.next_flusher →
            ((fc.sync_done C t s c e).flushers x).id = (fc.flushers x).id) ∧
          ∃ y, ((fc.sync_done C t s c e).flushers fc.next_flusher).id = C.clear y)) := by
  have hretire : ∀ (g : FlatCombiner σ Req Out) (x : ℕ),
      ((g.retire t s c).flushers x).id = (g.flushers x).id := by
    intro g x
    exact id_setFlusher _ _ _ _ rfl
  have hwake : ∀ x, ((fc.wake_batch C s e).flushers x).id = (fc.flushers x).id := by
    intro x
    exact id_setFlusher fc s x { fc.flushers s with waiters := [] } rfl
  have hempty := h.empty_wake_batch (C := C) s e
  have hok : (fc.wake_batch C s e).FreelistOk := ⟨h.freelist.nodup, h.freelist.lt⟩
  unfold FlatCombiner.sync_done FlatCombiner.hand_over
  split_ifs with hcond
  · obtain ⟨hid, y, hclear⟩ := id_appoint (C := C) hok hempty
    refine ⟨?_, .inr ⟨current_appoint hok hempty, ?_, y, ?_⟩⟩
    · exact (congrArg requests (history_appoint (C := C) (fc.wake_batch C s e)) :)
    · intro x hx
      rw [hretire, hid x hx, hwake]
    · rw [hretire]
      exact hclear
  · refine ⟨rfl, .inl ⟨rfl, ?_⟩⟩
    intro x
    rw [hretire]
    exact hwake x

/-- **The end of a `sync()`** keeps what the flushers hold. -/
theorem Content.sync_done (hP : ContentRule C P Room) (h : fc.Inv) (hc : fc.Content P Room)
    {t : Worker} {s c : ℕ} (ht : fc.tasks t = .syncing s c) (e : Env) :
    (fc.sync_done C t s c e).Content P Room := by
  have hsender : fc.ledger.sender s = some t := (h.ledger.syncing t s c ht).1
  have hnext := (h.ledger.free _ fc.next_flusher_free).2
  have hsne := h.current_ne ht
  have hnexts : fc.next_flusher ≠ s := by
    rintro rfl
    rw [hnext] at hsender
    cases hsender
  obtain ⟨hreq, hids⟩ := h.id_sync_done (C := C) t s c e
  constructor
  case room =>
    rcases hids with ⟨hcurrent, hid⟩ | ⟨hcurrent, -, y, hclear⟩
    · rw [hcurrent, hid]
      exact hc.room
    · rw [hcurrent, hclear]
      exact (hP.clear [] y).2
  intro x hx
  have hx' : x = (fc.sync_done C t s c e).ledger.current ∨
    (fc.sync_done C t s c e).ledger.sender x ≠ none := hx
  rw [hreq]
  show P _ _ ((fc.sync_done C t s c e).ledger.batch x)
  obtain ⟨-, ⟨-, hledger⟩ | ⟨w, ws, d, -, -, hledger⟩⟩ := h.ledger_sync_done (C := C) ht e
  · have hcurrent : (fc.sync_done C t s c e).current = fc.current := congrArg BatchLedger.current hledger
    rcases hids with ⟨-, hid⟩ | ⟨hcurrent', -⟩
    · rw [hledger] at hx' ⊢
      have hxs : x ≠ s := by
        rintro rfl
        rcases hx' with hx' | hx'
        · exact hsne hx'.symm
        · exact hx' (update_self ..)
      have hbatch : (fc.ledger.finish t s c).batch x = fc.ledger.batch x :=
        update_of_ne hxs ..
      rw [hid, hbatch]
      apply hc.holds x
      rcases hx' with hx' | hx'
      · exact .inl hx'
      · right
        have hkeep : (fc.ledger.finish t s c).sender x = fc.ledger.sender x :=
          update_of_ne hxs ..
        rwa [hkeep] at hx'
    · exact absurd (hcurrent.symm.trans hcurrent') h.ne_next_flusher
  · have hcurrent : (fc.sync_done C t s c e).current = fc.next_flusher :=
      congrArg BatchLedger.current hledger
    rcases hids with ⟨hcurrent', -⟩ | ⟨-, hid, y, hclear⟩
    · exact absurd (hcurrent'.symm.trans hcurrent) h.ne_next_flusher
    · rw [hledger] at hx' ⊢
      by_cases hxn : x = fc.next_flusher
      · -- the next flusher is clear
        have hbatch : ((fc.ledger.appoint fc.next_flusher w ws d).finish t s c).batch
            fc.next_flusher = [] :=
          (update_of_ne hnexts ..).trans (h.empty _ fc.next_flusher_free).2.2
        rw [hxn, hclear, hbatch]
        exact (hP.clear _ y).1
      · have hsome : ((fc.ledger.appoint fc.next_flusher w ws d).finish t s c).sender x ≠ none := by
          rcases hx' with hx' | hx'
          · exact absurd hx' hxn
          · exact hx'
        have hxs : x ≠ s := by
          rintro rfl
          exact hsome (update_self ..)
        have hbatch : ((fc.ledger.appoint fc.next_flusher w ws d).finish t s c).batch x =
          fc.ledger.batch x := update_of_ne hxs ..
        rw [hid x hxn, hbatch]
        apply hc.holds x
        by_cases hxc : x = fc.current
        · exact .inl hxc
        · right
          have hkeep : ((fc.ledger.appoint fc.next_flusher w ws d).finish t s c).sender x =
              fc.ledger.sender x :=
            (update_of_ne hxs ..).trans (update_of_ne hxc ..)
          rwa [hkeep] at hsome

theorem Content.next (hP : ContentRule C P Room) (h : fc.Inv) (hc : fc.Content P Room)
    {lb : Label Req Env} (hp : Paired C fc lb) {fc' : FlatCombiner σ Req Out}
    (hstep : fc.next C lb = some fc') : fc'.Content P Room := by
  rcases next_cases hstep with ⟨t, r, rfl, -, rfl⟩ | ⟨t, s, c, -, -, rfl⟩ | ⟨t, e, s, c, -, ht, rfl⟩
  · exact Content.combine hP h hc hp
  · rcases h.resume_eq (C := C) (t := t) (s := s) (c := c) with ⟨hs, heq⟩ | ⟨-, heq⟩
    · rw [heq]
      have hledger := ledger_begin_flush fc t c s
      rw [← hs, update_eq_self] at hledger
      constructor
      case room =>
        rw [id_begin_flush]
        exact hc.room
      intro x hx
      rw [id_begin_flush]
      show P fc.history.requests _ ((fc.begin_flush t c s).ledger.batch x)
      have hx' : x = fc.current ∨ (fc.begin_flush t c s).ledger.sender x ≠ none := hx
      rw [hledger] at hx' ⊢
      exact hc.holds x hx'
    · rw [heq]
      exact ⟨hc.holds, hc.room⟩
  · exact Content.sync_done hP h hc ht e

theorem content_new (hP : ContentRule C P Room) (initial : σ) :
    (new C initial : FlatCombiner σ Req Out).Content P Room :=
  ⟨fun _ _ => (hP.clear _ initial).1, (hP.clear [] initial).2⟩

/-! ### What the functors and the `sync()`s have written -/

/-- The calls that a functor satisfies. -/
def Answer.satisfies (a : Answer σ Out) (call : ℕ) : List ℕ :=
  match a.status with
  | .SATISFIED => [call]
  | .MATCHED => call :: a.partner.toList
  | .BLOCKED => []

/-- `Q requests outs satisfied` is kept when a functor runs, and when a `sync()` returns, on an object
    that holds its batch. -/
structure EffectRule (C : Combined σ Req Out Env) (P : List Req → σ → List ℕ → Prop)
    (Q : List Req → List Out → List ℕ → Prop) : Prop where
  func : ∀ rs outs sat r x b, Q rs outs sat → P rs x b → (∀ c ∈ sat, c < rs.length) →
    Q (rs ++ [r]) ((C.func rs.length r x).outs ++ outs)
      (Answer.satisfies (C.func rs.length r x) rs.length ++ sat)
  sync : ∀ rs outs sat x b e, Q rs outs sat → P rs x b → Q rs (C.sync x e ++ outs) (b ++ sat)

theorem history_run_functor (fc : FlatCombiner σ Req Out) (r : Req) (a : Answer σ Out) :
    (fc.run_functor r a).history.outs = a.outs ++ fc.history.outs ∧
      (fc.run_functor r a).history.satisfied =
        Answer.satisfies a fc.call ++ fc.history.satisfied := by
  unfold run_functor Answer.satisfies
  cases a.status <;> exact ⟨rfl, rfl⟩

/-- **A call** writes what its functor writes, and satisfies what its functor satisfies. -/
theorem Inv.history_combine (h : fc.Inv) (t : Worker) (r : Req) :
    (fc.combine C t r).history.requests = fc.history.requests ++ [r] ∧
      (fc.combine C t r).history.outs =
        (C.func fc.call r (fc.flushers fc.current).id).outs ++ fc.history.outs ∧
      (fc.combine C t r).history.satisfied =
        Answer.satisfies (C.func fc.call r (fc.flushers fc.current).id) fc.call ++
          fc.history.satisfied := by
  obtain ⟨a, hdef⟩ : ∃ a, a = C.func fc.call r (fc.flushers fc.current).id := ⟨_, rfl⟩
  have hreq := requests_run_functor fc r a
  obtain ⟨houts, hsat⟩ := history_run_functor fc r a
  rw [← hdef]
  cases hstatus : a.status with
  | BLOCKED =>
    rcases h.combine_blocked_eq (C := C) (t := t) hdef hstatus with heq | ⟨-, -, heq⟩
    · have hswap := history_swap (C := C) (fc.run_functor r a) fc.current
      rw [heq]
      exact ⟨(congrArg requests hswap).trans hreq,
        (congrArg outs hswap).trans houts,
        (congrArg satisfied hswap).trans hsat⟩
    · rw [heq]
      exact ⟨hreq, houts, hsat⟩
  | SATISFIED =>
    have heq := combine_satisfied_eq (C := C) (t := t) hdef hstatus
    rw [heq]
    exact ⟨hreq, houts, hsat⟩
  | MATCHED =>
    have heq := combine_matched_eq (C := C) (t := t) hdef hstatus
    have hsignal := history_signal (fc.run_functor r a) fc.current
    rw [heq]
    exact ⟨(congrArg requests hsignal).trans hreq,
      (congrArg outs hsignal).trans houts,
      (congrArg satisfied hsignal).trans hsat⟩

theorem history_sync_done (fc : FlatCombiner σ Req Out) (t : Worker) (s c : ℕ) (e : Env) :
    (fc.sync_done C t s c e).history.requests = fc.history.requests ∧
      (fc.sync_done C t s c e).history.outs = C.sync (fc.flushers s).id e ++ fc.history.outs ∧
      (fc.sync_done C t s c e).history.satisfied =
        (fc.flushers s).batch ++ fc.history.satisfied := by
  have hover : ((fc.wake_batch C s e).hand_over C).history = (fc.wake_batch C s e).history := by
    unfold hand_over
    split_ifs
    · exact history_appoint _
    · rfl
  exact ⟨(congrArg requests hover).trans rfl,
    (congrArg outs hover).trans rfl,
    (congrArg satisfied hover).trans rfl⟩

/-- **The effect rule**: what functors and `sync()`s on the objects in use keep holds of all that was
    written so far. -/
theorem Content.effect {Q : List Req → List Out → List ℕ → Prop} (hQ : EffectRule C P Q) (h : fc.Inv)
    (hc : fc.Content P Room) (hq : Q fc.history.requests fc.history.outs fc.history.satisfied)
    {lb : Label Req Env} {fc' : FlatCombiner σ Req Out} (hstep : fc.next C lb = some fc') :
    Q fc'.history.requests fc'.history.outs fc'.history.satisfied := by
  rcases next_cases hstep with ⟨t, r, -, -, rfl⟩ | ⟨t, s, c, -, -, rfl⟩ | ⟨t, e, s, c, -, ht, rfl⟩
  · obtain ⟨hreq, houts, hsat⟩ := h.history_combine (C := C) t r
    rw [hreq, houts, hsat]
    exact hQ.func _ _ _ _ _ _ hq (hc.holds fc.current (.inl rfl)) h.ledger.satisfied
  · rcases h.resume_eq (C := C) (t := t) (s := s) (c := c) with ⟨-, heq⟩ | ⟨-, heq⟩
    · rw [heq]
      exact hq
    · rw [heq]
      exact hq
  · obtain ⟨hreq, houts, hsat⟩ := history_sync_done (C := C) fc t s c e
    have hsender : (fc.flushers s).sender = some t := (h.ledger.syncing t s c ht).1
    have hsome : (fc.flushers s).sender ≠ none := by
      rw [hsender]
      exact nofun
    rw [hreq, houts, hsat]
    exact hQ.sync _ _ _ _ _ _ hq (hc.holds s (.inr hsome))

end FlatCombiner

end Grappa
