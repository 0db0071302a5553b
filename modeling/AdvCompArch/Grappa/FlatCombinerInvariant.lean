import AdvCompArch.Grappa.BatchLedger

/-! # The steps of a flat combiner in its ledger

    Each step of the combiner is one or two steps of its ledger, so the invariant of the
    ledger holds along every run in which a matched request is that of the task that is
    woken for it (`Paired`). -/

namespace Grappa

namespace FlatCombiner

open Function List Flusher

variable {σ Req Out Env : Type} {C : Combined σ Req Out Env} {fc : FlatCombiner σ Req Out}

/-- What the ledger keeps of a combiner. -/
def ledger (fc : FlatCombiner σ Req Out) : BatchLedger where
  current := fc.current
  free := {s | s ∈ fc.freelist ∨ fc.allocated ≤ s}
  inflight := fc.inflight
  sender := fun s => (fc.flushers s).sender
  waiters := fun s => (fc.flushers s).waiters
  batch := fun s => (fc.flushers s).batch
  tasks := fc.tasks
  calls := fc.call
  syncs := fc.history.syncs
  satisfied := fc.history.satisfied
  returned := fc.history.returned

/-- The free list holds allocated flushers, once each. -/
structure FreelistOk (fc : FlatCombiner σ Req Out) : Prop where
  nodup : fc.freelist.Nodup
  lt : ∀ s ∈ fc.freelist, s < fc.allocated

structure Inv (fc : FlatCombiner σ Req Out) : Prop where
  ledger : fc.ledger.Inv
  freelist : fc.FreelistOk

/-! ### The pieces of a step -/

theorem field_update {β : Type} (g : Flusher σ → β) (f : ℕ → Flusher σ) (s : ℕ) (v : Flusher σ) :
    (fun x => g (Function.update f s v x)) = Function.update (fun x => g (f x)) s (g v) := by
  funext x
  by_cases hx : x = s
  · rw [hx, update_self, update_self]
  · rw [update_of_ne hx, update_of_ne hx]

theorem field_update_self {β : Type} (g : Flusher σ → β) (f : ℕ → Flusher σ) (s : ℕ)
    (v : Flusher σ) (hv : g v = g (f s)) :
    (fun x => g (Function.update f s v x)) = fun x => g (f x) := by
  rw [field_update, hv]
  exact update_eq_self ..

theorem ledger_setFlusher (fc : FlatCombiner σ Req Out) (s : ℕ) (f : Flusher σ) :
    (fc.setFlusher s f).ledger =
      { fc.ledger with
        sender := update fc.ledger.sender s f.sender
        waiters := update fc.ledger.waiters s f.waiters
        batch := update fc.ledger.batch s f.batch } := by
  simp [setFlusher, ledger, FlatCombiner.call, field_update sender, field_update waiters, field_update batch]

/-- The next flusher: the first of the free list, or a new one. -/
def next_flusher (fc : FlatCombiner σ Req Out) : ℕ := fc.freelist.headD fc.allocated

theorem next_flusher_free (fc : FlatCombiner σ Req Out) : fc.next_flusher ∈ fc.ledger.free := by
  unfold next_flusher
  show fc.freelist.headD fc.allocated ∈ fc.freelist ∨ fc.allocated ≤ fc.freelist.headD fc.allocated
  cases fc.freelist with
  | nil => exact .inr (le_refl _)
  | cons r rest => exact .inl mem_cons_self

/-- The free flushers hold nothing. -/
def FreeEmpty (fc : FlatCombiner σ Req Out) : Prop :=
  ∀ s ∈ fc.ledger.free, fc.ledger.sender s = none ∧ fc.ledger.waiters s = [] ∧ fc.ledger.batch s = []

/-- **The next flusher** is cleared, and is not free any more; the others stay as they are. -/
theorem swap_spec (hok : fc.FreelistOk)
    (hempty : fc.FreeEmpty) (s : ℕ) :
    (fc.swap C s).ledger =
        { fc.ledger with current := fc.next_flusher, free := fc.ledger.free \ {fc.next_flusher} } ∧
      (fc.swap C s).FreelistOk ∧
      (∀ x, x ≠ fc.next_flusher → (fc.swap C s).flushers x = fc.flushers x) ∧
      ∃ y, ((fc.swap C s).flushers fc.next_flusher).id = C.clear y := by
  obtain ⟨hsender, hwaiters, hbatch⟩ := hempty _ fc.next_flusher_free
  -- the free list and the flushers that are left, and the new flusher
  obtain ⟨rest, n, f, hswap, hnew, hfree, hok'⟩ : ∃ (rest : List ℕ) (n : ℕ) (f : Flusher σ),
      fc.swap C s = { fc.setFlusher fc.next_flusher f with
        freelist := rest, allocated := n, current := fc.next_flusher } ∧
      (f.sender = none ∧ f.waiters = [] ∧ f.batch = [] ∧ ∃ y, f.id = C.clear y) ∧
      {x | x ∈ rest ∨ n ≤ x} = fc.ledger.free \ {fc.next_flusher} ∧
      (rest.Nodup ∧ ∀ x ∈ rest, x < n) := by
    obtain ⟨hnodup, hlt⟩ := hok
    unfold swap get_flusher next_flusher
    cases hlist : fc.freelist with
    | nil =>
      refine ⟨fc.freelist, fc.allocated + 1, ⟨_, none, [], []⟩, rfl, ⟨rfl, rfl, rfl, _, rfl⟩, ?_, hnodup,
        fun x hx => (hlt x hx).trans (Nat.lt_succ_self _)⟩
      ext x
      show (x ∈ fc.freelist ∨ fc.allocated + 1 ≤ x) ↔
        (x ∈ fc.freelist ∨ fc.allocated ≤ x) ∧ x ≠ fc.allocated
      rw [hlist]
      simp only [not_mem_nil, false_or]
      omega
    | cons r rest =>
      rw [hlist] at hnodup hlt
      refine ⟨rest, _, clear_flusher C (fc.flushers r), rfl, ⟨rfl, rfl, rfl, _, rfl⟩, ?_,
        (nodup_cons.mp hnodup).2, fun x hx => hlt x (mem_cons_of_mem _ hx)⟩
      ext x
      show (x ∈ rest ∨ fc.allocated ≤ x) ↔ (x ∈ fc.freelist ∨ fc.allocated ≤ x) ∧ x ≠ r
      rw [hlist]
      have hr := hlt r mem_cons_self
      have hnot := (nodup_cons.mp hnodup).1
      grind
  obtain ⟨h1, h2, h3, hclear⟩ := hnew
  rw [hswap]
  refine ⟨?_, ⟨hok'.1, hok'.2⟩, fun x hx => update_of_ne hx .., by simpa [setFlusher] using hclear⟩
  -- clearing a free flusher is not seen in the ledger
  apply BatchLedger.ext
  case free => exact hfree
  case sender => exact field_update_self _ _ _ _ (h1.trans hsender.symm)
  case waiters => exact field_update_self _ _ _ _ (h2.trans hwaiters.symm)
  case batch => exact field_update_self _ _ _ _ (h3.trans hbatch.symm)
  all_goals rfl

theorem ledger_begin_flush (fc : FlatCombiner σ Req Out) (t : Worker) (call s : ℕ) :
    (fc.begin_flush t call s).ledger =
      { fc.ledger with
        sender := update fc.ledger.sender s (some t)
        tasks := update fc.ledger.tasks t (.syncing s call)
        syncs := fc.ledger.batch s :: fc.ledger.syncs } := by
  simp [begin_flush, setTask, setFlusher, ledger, FlatCombiner.call,
    field_update sender, field_update waiters, field_update batch]

theorem ledger_wait (fc : FlatCombiner σ Req Out) (t : Worker) (call s : ℕ) :
    (fc.wait t call s).ledger =
      { fc.ledger with
        waiters := update fc.ledger.waiters s (t :: fc.ledger.waiters s)
        tasks := update fc.ledger.tasks t (.waiting s call) } := by
  simp [wait, setTask, setFlusher, ledger, FlatCombiner.call,
    field_update sender, field_update waiters, field_update batch]

theorem ledger_signal {s : ℕ} {w : Worker} {ws : List Worker}
    (h : fc.ledger.waiters s = w :: ws) :
    (fc.signal s).ledger =
      { fc.ledger with
        waiters := update fc.ledger.waiters s ws
        tasks := update fc.ledger.tasks w (thread_wake (fc.ledger.tasks w)) } := by
  have hw : (fc.flushers s).waiters = w :: ws := h
  simp [signal, hw, setTask, setFlusher, ledger, FlatCombiner.call,
    field_update sender, field_update waiters, field_update batch]

theorem ledger_broadcast (fc : FlatCombiner σ Req Out) (s : ℕ) :
    (fc.broadcast s).ledger =
      { fc.ledger with
        waiters := update fc.ledger.waiters s []
        tasks := fun t =>
          if t ∈ fc.ledger.waiters s then thread_wake (fc.ledger.tasks t) else fc.ledger.tasks t } := by
  simp [broadcast, setFlusher, ledger, FlatCombiner.call,
    field_update sender, field_update waiters, field_update batch]
  rfl

theorem ledger_run_functor (fc : FlatCombiner σ Req Out) (r : Req) {a : Answer σ Out} (h : a.status = .BLOCKED) :
    (fc.run_functor r a).ledger =
      { fc.ledger with
        batch := update fc.ledger.batch fc.current
          (fc.ledger.calls :: fc.ledger.batch fc.current)
        calls := fc.ledger.calls + 1 } := by
  simp [run_functor, h, setFlusher, ledger, FlatCombiner.call,
    field_update sender, field_update waiters, field_update batch]

theorem ledger_run_functor_matched (fc : FlatCombiner σ Req Out) (r : Req)
    {a : Answer σ Out} (h : a.status = .MATCHED) {c : ℕ}
    (hc : a.partner = some c) :
    (fc.run_functor r a).ledger =
      { fc.ledger with
        batch := update fc.ledger.batch fc.current
          ((fc.ledger.batch fc.current).filter fun d => d ≠ c)
        calls := fc.ledger.calls + 1
        satisfied := fc.ledger.calls :: c :: fc.ledger.satisfied } := by
  simp [run_functor, h, hc, setFlusher, ledger, FlatCombiner.call,
    field_update sender, field_update waiters, field_update batch]

theorem ledger_run_functor_satisfied (fc : FlatCombiner σ Req Out) (r : Req)
    {a : Answer σ Out} (h : a.status = .SATISFIED) :
    (fc.run_functor r a).ledger =
      { fc.ledger with
        calls := fc.ledger.calls + 1
        satisfied := fc.ledger.calls :: fc.ledger.satisfied } := by
  simp [run_functor, h, setFlusher, ledger, FlatCombiner.call,
    field_update sender, field_update waiters, field_update batch]

/-! ### The steps -/

theorem ledger_ret (fc : FlatCombiner σ Req Out) (t : Worker) (call : ℕ) :
    (fc.ret t call).ledger =
      { fc.ledger with
        tasks := update fc.ledger.tasks t .idle
        returned := call :: fc.ledger.returned } := rfl

theorem update_idle {f : Worker → TaskState} {t : Worker} (ht : f t = .idle) :
    Function.update f t .idle = f := by
  rw [← ht]
  exact update_eq_self ..

theorem swap_inflight (fc : FlatCombiner σ Req Out) (n s : ℕ) :
    ({ fc with inflight := n }.swap C s : FlatCombiner σ Req Out) =
      { fc.swap C s with inflight := n } := by
  obtain ⟨flushers, allocated, current, inflight, freelist, tasks, history⟩ := fc
  cases freelist <;> rfl

theorem Inv.empty (h : fc.Inv) : fc.FreeEmpty := by
  intro s hs
  obtain ⟨hne, hnone⟩ := h.ledger.free s hs
  exact ⟨hnone, h.ledger.held s hne hnone⟩

theorem freelistOk_run_functor (h : fc.FreelistOk) (r : Req) (a : Answer σ Out) :
    (fc.run_functor r a).FreelistOk := by
  unfold run_functor
  cases a.status <;> exact ⟨h.nodup, h.lt⟩

theorem Inv.empty_run_functor (h : fc.Inv) (r : Req) {a : Answer σ Out} (ha : a.status = .BLOCKED) :
    (fc.run_functor r a).FreeEmpty := by
  unfold FreeEmpty
  rw [ledger_run_functor fc r ha]
  intro s hs
  obtain ⟨h1, h2, h3⟩ := h.empty s hs
  have hne : s ≠ fc.current := (h.ledger.free s hs).1
  exact ⟨h1, h2, by simp only [update_of_ne hne, h3]⟩

/-- The state after a blocked call that flushes the batch. -/
def launch (C : Combined σ Req Out Env) (fc : FlatCombiner σ Req Out) (t : Worker) (r : Req)
    (a : Answer σ Out) : FlatCombiner σ Req Out :=
  { (fc.run_functor r a).swap C fc.current with
    inflight := fc.inflight + 1 }.begin_flush t fc.call fc.current

/-- **The next flusher** after the functor of a blocked call. -/
theorem Inv.swap_run_functor (h : fc.Inv) (r : Req) {a : Answer σ Out} (ha : a.status = .BLOCKED) :
    ((fc.run_functor r a).swap C fc.current).ledger =
        { (fc.run_functor r a).ledger with
          current := fc.next_flusher, free := fc.ledger.free \ {fc.next_flusher} } ∧
      ((fc.run_functor r a).swap C fc.current).FreelistOk ∧
      (∀ x, x ≠ fc.next_flusher →
        ((fc.run_functor r a).swap C fc.current).flushers x = (fc.run_functor r a).flushers x) ∧
      ∃ y, (((fc.run_functor r a).swap C fc.current).flushers fc.next_flusher).id = C.clear y := by
  have hnext : (fc.run_functor r a).next_flusher = fc.next_flusher := by
    unfold run_functor
    rw [ha]
    rfl
  have hfree : (fc.run_functor r a).ledger.free = fc.ledger.free := by rw [ledger_run_functor fc r ha]
  have h := swap_spec (C := C) (freelistOk_run_functor h.freelist r a) (h.empty_run_functor r ha)
    fc.current
  rwa [hnext, hfree] at h

theorem Inv.ne_next_flusher (h : fc.Inv) : fc.current ≠ fc.next_flusher :=
  fun heq => (h.ledger.free _ fc.next_flusher_free).1 heq.symm

theorem Inv.combine_blocked_eq (h : fc.Inv) {t : Worker} {r : Req} {a : Answer σ Out}
    (hdef : a = C.func fc.call r (fc.flushers fc.current).id) (ha : a.status = .BLOCKED) :
    fc.combine C t r = fc.launch C t r a ∨
      (fc.inflight ≠ 0 ∧ C.is_full a.id = false ∧
        fc.combine C t r = (fc.run_functor r a).wait t fc.call fc.current) := by
  have hledger := ledger_run_functor fc r ha
  have hnone : fc.ledger.sender fc.current = none := h.ledger.current_sender
  obtain ⟨hswap, -, hkeep, -⟩ := h.swap_run_functor (C := C) r ha
  -- the current flusher has no sender, before and after the swap
  have hrun : ((fc.run_functor r a).flushers fc.current).sender = none :=
    (congrFun (congrArg BatchLedger.sender hledger) _).trans hnone
  have hswapped : (((fc.run_functor r a).swap C fc.current).flushers fc.current).sender = none := by
    rw [hkeep _ h.ne_next_flusher]
    exact hrun
  have hin : (fc.run_functor r a).inflight = fc.inflight := congrArg BatchLedger.inflight hledger
  have hin' : ((fc.run_functor r a).swap C fc.current).inflight = fc.inflight :=
    (congrArg BatchLedger.inflight hswap).trans hin
  unfold combine launch
  simp only [← hdef, ha]
  by_cases hfull : C.is_full a.id = true
  · rw [if_pos hfull, if_pos hswapped, hin']
    exact .inl rfl
  · rw [if_neg hfull, hin]
    by_cases hzero : fc.inflight = 0
    · rw [if_pos hzero, if_pos hrun, swap_inflight]
      exact .inl rfl
    · rw [if_neg hzero]
      exact .inr ⟨hzero, Bool.eq_false_iff.mpr hfull, rfl⟩

theorem Inv.ledger_launch (h : fc.Inv) (t : Worker) (r : Req) {a : Answer σ Out}
    (ha : a.status = .BLOCKED) : (fc.launch C t r a).ledger = fc.ledger.launch fc.next_flusher t := by
  obtain ⟨hswap, -⟩ := h.swap_run_functor (C := C) r ha
  have hinflight : FlatCombiner.ledger { (fc.run_functor r a).swap C fc.current with
      inflight := fc.inflight + 1 } =
      { ((fc.run_functor r a).swap C fc.current).ledger with inflight := fc.inflight + 1 } := rfl
  unfold launch
  rw [ledger_begin_flush, hinflight, hswap, ledger_run_functor fc r ha]
  unfold BatchLedger.launch
  simp only [show fc.ledger.current = fc.current from rfl, update_self]
  rfl

theorem ledger_park (fc : FlatCombiner σ Req Out) (t : Worker) (r : Req) {a : Answer σ Out}
    (ha : a.status = .BLOCKED) :
    ((fc.run_functor r a).wait t fc.call fc.current).ledger = fc.ledger.park t := by
  rw [ledger_wait, ledger_run_functor fc r ha]
  rfl

theorem Inv.combine_blocked (h : fc.Inv) {t : Worker} {r : Req}
    (ha : (C.func fc.call r (fc.flushers fc.current).id).status = .BLOCKED) :
    (fc.combine C t r).FreelistOk ∧
      ((fc.combine C t r).ledger = fc.ledger.launch fc.next_flusher t ∨
        (fc.ledger.inflight ≠ 0 ∧ (fc.combine C t r).ledger = fc.ledger.park t)) := by
  rcases h.combine_blocked_eq (C := C) (t := t) rfl ha with heq | ⟨hne, -, heq⟩
  · obtain ⟨-, hok, -⟩ := h.swap_run_functor (C := C) r ha
    rw [heq]
    exact ⟨⟨hok.nodup, hok.lt⟩, .inl (h.ledger_launch t r ha)⟩
  · have hok := freelistOk_run_functor h.freelist r (C.func fc.call r (fc.flushers fc.current).id)
    rw [heq]
    exact ⟨⟨hok.nodup, hok.lt⟩, .inr ⟨hne, ledger_park fc t r ha⟩⟩

/-- A functor that is matched took its partner's request out of the batch, and the partner's task is
    the next to be woken. -/
def Paired (C : Combined σ Req Out Env) (fc : FlatCombiner σ Req Out) : Label Req Env → Prop
  | .combine _ r =>
    let a := C.func fc.call r (fc.flushers fc.current).id
    a.status = .MATCHED → ∃ w ws c, (fc.flushers fc.current).waiters = w :: ws ∧
      fc.tasks w = .waiting fc.current c ∧ a.partner = some c
  | _ => True

theorem combine_satisfied_eq {t : Worker} {r : Req} {a : Answer σ Out}
    (hdef : a = C.func fc.call r (fc.flushers fc.current).id) (ha : a.status = .SATISFIED) :
    fc.combine C t r = (fc.run_functor r a).ret t fc.call := by
  unfold combine
  simp only [← hdef, ha]

theorem combine_matched_eq {t : Worker} {r : Req} {a : Answer σ Out}
    (hdef : a = C.func fc.call r (fc.flushers fc.current).id) (ha : a.status = .MATCHED) :
    fc.combine C t r = ((fc.run_functor r a).signal fc.current).ret t fc.call := by
  unfold combine
  simp only [← hdef, ha]

theorem Inv.combine (h : fc.Inv) {t : Worker} {r : Req} (ht : fc.tasks t = .idle)
    (hp : Paired C fc (.combine t r : Label Req Env)) : (fc.combine C t r).Inv := by
  obtain ⟨a, hdef⟩ : ∃ a, a = C.func fc.call r (fc.flushers fc.current).id := ⟨_, rfl⟩
  have hok := freelistOk_run_functor h.freelist r a
  cases hstatus : a.status with
  | BLOCKED =>
    obtain ⟨hok', hlaunch | ⟨hne, hpark⟩⟩ :=
      h.combine_blocked (C := C) (t := t) (r := r) (by rw [← hdef, hstatus])
    · refine ⟨?_, hok'⟩
      rw [hlaunch]
      exact h.ledger.launch fc.next_flusher_free ht
    · refine ⟨?_, hok'⟩
      rw [hpark]
      exact h.ledger.park ht hne
  | SATISFIED =>
    have hret := combine_satisfied_eq (C := C) (t := t) hdef hstatus
    have hledger : (fc.combine C t r).ledger = fc.ledger.satisfy := by
      have htasks : update fc.ledger.tasks t .idle = fc.ledger.tasks := update_idle ht
      rw [hret, ledger_ret, ledger_run_functor_satisfied fc r hstatus]
      simp only [htasks]
      rfl
    refine ⟨?_, ?_⟩
    · rw [hledger]
      exact h.ledger.satisfy
    · rw [hret]
      exact ⟨hok.nodup, hok.lt⟩
  | MATCHED =>
    obtain ⟨w, ws, c, hw, hc, hpartner⟩ := hp (by rw [← hdef, hstatus])
    rw [← hdef] at hpartner
    have hrun := ledger_run_functor_matched fc r hstatus hpartner
    have hwaiters : (fc.run_functor r a).ledger.waiters fc.current = w :: ws := by
      rw [hrun]
      exact hw
    have hsignal := ledger_signal hwaiters
    have htw : t ≠ w := by
      rintro rfl
      rw [ht] at hc
      cases hc
    have hret := combine_matched_eq (C := C) (t := t) hdef hstatus
    have hledger : (fc.combine C t r).ledger = fc.ledger.pair w ws c := by
      rw [hret, ledger_ret, hsignal, hrun]
      unfold BatchLedger.pair
      have hwake : thread_wake (fc.ledger.tasks w) = .woken fc.current c := by
        rw [show fc.ledger.tasks w = .waiting fc.current c from hc]
        rfl
      have htasks : update fc.ledger.tasks w (.woken fc.current c) t = .idle := by
        rw [update_of_ne htw]
        exact ht
      simp only [hwake, update_idle htasks]
      rfl
    have hkeep : FreelistOk ((fc.run_functor r a).signal fc.current) := by
      unfold signal
      rw [show ((fc.run_functor r a).flushers fc.current).waiters = w :: ws from hwaiters]
      exact ⟨hok.nodup, hok.lt⟩
    refine ⟨?_, ?_⟩
    · rw [hledger]
      exact h.ledger.pair hw hc
    · rw [hret]
      exact ⟨hkeep.nodup, hkeep.lt⟩

/-- **A woken task** flushes the batch it was appointed for, or returns. -/
theorem Inv.resume_eq (h : fc.Inv) {t : Worker} {s c : ℕ} :
    (fc.ledger.sender s = some t ∧ fc.resume C t s c = fc.begin_flush t c s) ∨
      (fc.ledger.sender s ≠ some t ∧ fc.resume C t s c = fc.ret t c) := by
  unfold FlatCombiner.resume
  split_ifs with hs hcur
  · -- the current flusher has no sender
    rw [hcur, show (fc.flushers fc.current).sender = none from h.ledger.current_sender] at hs
    cases hs
  · exact .inl ⟨hs.symm, rfl⟩
  · exact .inr ⟨fun heq => hs heq.symm, rfl⟩

theorem Inv.resume (h : fc.Inv) {t : Worker} {s c : ℕ} (ht : fc.tasks t = .woken s c) :
    (fc.resume C t s c).Inv := by
  rcases h.resume_eq (C := C) (t := t) (s := s) (c := c) with ⟨hs, heq⟩ | ⟨hs, heq⟩
  · rw [heq]
    refine ⟨?_, h.freelist.nodup, h.freelist.lt⟩
    rw [ledger_begin_flush, ← hs, update_eq_self]
    exact h.ledger.start ht hs
  · rw [heq]
    exact ⟨h.ledger.leave ht hs, h.freelist.nodup, h.freelist.lt⟩

theorem ledger_retire (fc : FlatCombiner σ Req Out) (t : Worker) (s call : ℕ) :
    (fc.retire t s call).ledger =
      { fc.ledger with
        free := insert s fc.ledger.free
        sender := update fc.ledger.sender s none
        batch := update fc.ledger.batch s []
        tasks := update fc.ledger.tasks t .idle
        returned := call :: fc.ledger.returned } := by
  apply BatchLedger.ext
  case free =>
    ext x
    show (x ∈ s :: fc.freelist ∨ fc.allocated ≤ x) ↔ x = s ∨ (x ∈ fc.freelist ∨ fc.allocated ≤ x)
    rw [mem_cons, or_assoc]
  case sender => exact field_update sender fc.flushers s _
  case waiters => exact field_update_self waiters fc.flushers s _ rfl
  case batch => exact field_update batch fc.flushers s _
  all_goals rfl

theorem freelistOk_retire {s : ℕ} (h : fc.FreelistOk) (hs : s ∉ fc.ledger.free) (t : Worker)
    (call : ℕ) : (fc.retire t s call).FreelistOk := by
  obtain ⟨hmem, hlt⟩ := not_or.mp hs
  refine ⟨nodup_cons.mpr ⟨hmem, h.nodup⟩, ?_⟩
  intro x hx
  rcases mem_cons.mp hx with rfl | hx
  · exact Nat.not_le.mp hlt
  · exact h.lt x hx

/-- **The hand-over**: the batch of the current flusher departs with its head waiter. -/
theorem appoint_spec (hok : fc.FreelistOk)
    (hempty : fc.FreeEmpty) (hcur : fc.current ∉ fc.ledger.free) {w : Worker}
    {ws : List Worker} (hw : fc.ledger.waiters fc.current = w :: ws) :
    (fc.appoint C).FreelistOk ∧
      (fc.appoint C).ledger =
        { fc.ledger with
          current := fc.next_flusher
          free := fc.ledger.free \ {fc.next_flusher}
          sender := update fc.ledger.sender fc.current (some w)
          waiters := update fc.ledger.waiters fc.current ws
          tasks := update fc.ledger.tasks w (thread_wake (fc.ledger.tasks w)) } := by
  obtain ⟨hswap, hswapok, hkeep, -⟩ := swap_spec (C := C) hok hempty fc.current
  have hne : fc.current ≠ fc.next_flusher := by
    intro heq
    exact hcur (heq ▸ fc.next_flusher_free)
  obtain ⟨f, hf⟩ : ∃ f, f = (fc.swap C fc.current).flushers fc.current := ⟨_, rfl⟩
  have hwaiters : f.waiters = w :: ws := by
    rw [hf, hkeep _ hne]
    exact hw
  -- the sender is set
  have hset : ((fc.swap C fc.current).setFlusher fc.current
      { f with sender := f.waiters.head? }).ledger =
      { fc.ledger with
        current := fc.next_flusher
        free := fc.ledger.free \ {fc.next_flusher}
        sender := update fc.ledger.sender fc.current (some w) } := by
    have e2 : update fc.ledger.waiters fc.current (w :: ws) = fc.ledger.waiters := by
      rw [← hw]
      exact update_eq_self ..
    have e3 : update fc.ledger.batch fc.current f.batch = fc.ledger.batch := by
      rw [hf, hkeep _ hne]
      exact update_eq_self ..
    rw [ledger_setFlusher, hswap]
    simp only [hwaiters, head?_cons, e2, e3]
  have hfirst : ((fc.swap C fc.current).setFlusher fc.current
      { f with sender := f.waiters.head? }).ledger.waiters fc.current = w :: ws := by
    rw [hset]
    exact hw
  have happoint : fc.appoint C = ((fc.swap C fc.current).setFlusher fc.current
      { f with sender := f.waiters.head? }).signal fc.current := by
    rw [hf]
    rfl
  rw [happoint]
  constructor
  · unfold signal
    rw [show (((fc.swap C fc.current).setFlusher fc.current
      { f with sender := f.waiters.head? }).flushers fc.current).waiters = w :: ws from hfirst]
    exact ⟨hswapok.nodup, hswapok.lt⟩
  · rw [ledger_signal hfirst, hset]

theorem ledger_wake_batch (fc : FlatCombiner σ Req Out) (s : ℕ) (e : Env) :
    (fc.wake_batch C s e).ledger =
      { fc.ledger with
        waiters := update fc.ledger.waiters s []
        tasks := fun t =>
          if t ∈ fc.ledger.waiters s then thread_wake (fc.ledger.tasks t) else fc.ledger.tasks t
        satisfied := fc.ledger.batch s ++ fc.ledger.satisfied } :=
  ledger_broadcast ..

theorem Inv.empty_wake_batch (h : fc.Inv) (s : ℕ) (e : Env) : (fc.wake_batch C s e).FreeEmpty := by
  unfold FreeEmpty
  rw [ledger_wake_batch]
  intro x hx
  obtain ⟨h1, h2, h3⟩ := h.empty x hx
  refine ⟨h1, ?_, h3⟩
  by_cases hxs : x = s
  · simp [hxs]
  · simp only [update_of_ne hxs, h2]

theorem Inv.current_ne (h : fc.Inv) {t : Worker} {s c : ℕ} (ht : fc.tasks t = .syncing s c) :
    fc.current ≠ s := by
  have hsender := (h.ledger.syncing t s c ht).1
  rintro rfl
  rw [show fc.ledger.sender fc.current = none from h.ledger.current_sender] at hsender
  cases hsender

/-- **The end of a `sync()`**: the batch is finished, after the current batch was given to its head
    waiter if it has one. -/
theorem Inv.ledger_sync_done (h : fc.Inv) {t : Worker} {s c : ℕ} (ht : fc.tasks t = .syncing s c)
    (e : Env) :
    (fc.sync_done C t s c e).FreelistOk ∧
      ((fc.ledger.waiters fc.current = [] ∧
          (fc.sync_done C t s c e).ledger = fc.ledger.finish t s c) ∨
        ∃ w ws d, fc.ledger.waiters fc.current = w :: ws ∧ fc.tasks w = .waiting fc.current d ∧
          (fc.sync_done C t s c e).ledger =
            (fc.ledger.appoint fc.next_flusher w ws d).finish t s c) := by
  have hsender : fc.ledger.sender s = some t := (h.ledger.syncing t s c ht).1
  have hcur : fc.ledger.sender fc.current = none := h.ledger.current_sender
  have hsne := h.current_ne ht
  have hnotfree : s ∉ fc.ledger.free := by
    intro hmem
    rw [(h.ledger.free s hmem).2] at hsender
    cases hsender
  have hledger := ledger_wake_batch (C := C) fc s e
  have hok : (fc.wake_batch C s e).FreelistOk := ⟨h.freelist.nodup, h.freelist.lt⟩
  have hwaiters : (fc.wake_batch C s e).ledger.waiters fc.current = fc.ledger.waiters fc.current := by
    rw [hledger]
    exact update_of_ne hsne ..
  have hnone : ((fc.wake_batch C s e).flushers (fc.wake_batch C s e).current).sender = none :=
    (congrFun (congrArg BatchLedger.sender hledger) _).trans hcur
  cases hw : fc.ledger.waiters fc.current with
  | nil =>
    have hover : (fc.wake_batch C s e).hand_over C =
        { fc.wake_batch C s e with inflight := fc.inflight - 1 } := by
      unfold hand_over
      exact if_neg fun hcond => hcond.1 (hwaiters.trans hw)
    have hfinish : (fc.sync_done C t s c e).ledger = fc.ledger.finish t s c := by
      unfold FlatCombiner.sync_done
      rw [hover, ledger_retire]
      have hin : FlatCombiner.ledger { fc.wake_batch C s e with inflight := fc.inflight - 1 } =
        { (fc.wake_batch C s e).ledger with inflight := fc.inflight - 1 } := rfl
      rw [hin, hledger]
      rfl
    refine ⟨?_, .inl ⟨rfl, hfinish⟩⟩
    · unfold FlatCombiner.sync_done
      have hok' : FreelistOk { fc.wake_batch C s e with inflight := fc.inflight - 1 } :=
        ⟨hok.nodup, hok.lt⟩
      rw [hover]
      exact freelistOk_retire hok' hnotfree t c
  | cons w ws =>
    -- a waiter of the current batch, which is not one of those woken
    obtain ⟨d, hd⟩ := h.ledger.waiters fc.current w (by rw [hw]; exact mem_cons_self)
    have hwnot : w ∉ fc.ledger.waiters s := by
      intro hmem
      obtain ⟨d', hd'⟩ := h.ledger.waiters s w hmem
      rw [hd] at hd'
      exact hsne (TaskState.waiting.inj hd').1
    have hcurfree : (fc.wake_batch C s e).current ∉ (fc.wake_batch C s e).ledger.free := by
      intro hmem
      exact (h.ledger.free fc.current hmem).1 rfl
    obtain ⟨hokap, hap⟩ := appoint_spec (C := C) hok (h.empty_wake_batch s e) hcurfree (hwaiters.trans hw)
    have hover : (fc.wake_batch C s e).hand_over C = (fc.wake_batch C s e).appoint C := by
      unfold hand_over
      apply if_pos
      refine ⟨?_, hnone⟩
      rw [show ((fc.wake_batch C s e).flushers (fc.wake_batch C s e).current).waiters = w :: ws
        from hwaiters.trans hw]
      exact cons_ne_nil _ _
    have hfinish : (fc.sync_done C t s c e).ledger =
        (fc.ledger.appoint fc.next_flusher w ws d).finish t s c := by
      unfold FlatCombiner.sync_done
      rw [hover, ledger_retire, hap, hledger]
      apply BatchLedger.ext
      case waiters => exact update_comm hsne.symm ..
      case tasks =>
        apply congrArg fun f : Worker → TaskState => update f t .idle
        have hapw : (fc.ledger.appoint fc.next_flusher w ws d).waiters s = fc.ledger.waiters s :=
          update_of_ne hsne.symm ..
        have hapt : (fc.ledger.appoint fc.next_flusher w ws d).tasks =
          update fc.ledger.tasks w (.woken fc.current d) := rfl
        funext u
        rw [hapw, hapt]
        by_cases huw : u = w
        · simp [huw, hwnot, hd, thread_wake]
        · simp [huw]
      all_goals rfl
    refine ⟨?_, .inr ⟨w, ws, d, rfl, hd, hfinish⟩⟩
    unfold FlatCombiner.sync_done
    rw [hover]
    apply freelistOk_retire hokap
    rw [hap, hledger]
    intro hmem
    exact hnotfree hmem.1

theorem Inv.sync_done (h : fc.Inv) {t : Worker} {s c : ℕ} (ht : fc.tasks t = .syncing s c)
    (e : Env) : (fc.sync_done C t s c e).Inv := by
  obtain ⟨hok, ⟨hw, hfinish⟩ | ⟨w, ws, d, hw, hd, hfinish⟩⟩ := h.ledger_sync_done (C := C) ht e
  · refine ⟨?_, hok⟩
    rw [hfinish]
    exact h.ledger.finish ht hw
  · have htw : t ≠ w := by
      rintro rfl
      rw [ht] at hd
      cases hd
    have hsyncing : (fc.ledger.appoint fc.next_flusher w ws d).tasks t = .syncing s c :=
      (update_of_ne htw ..).trans ht
    have hnext : (fc.ledger.appoint fc.next_flusher w ws d).waiters fc.next_flusher = [] := by
      obtain ⟨hne, -⟩ := h.ledger.free _ fc.next_flusher_free
      exact (update_of_ne hne ..).trans (h.empty _ fc.next_flusher_free).2.1
    refine ⟨?_, hok⟩
    rw [hfinish]
    exact (h.ledger.appoint fc.next_flusher_free hw hd).finish hsyncing hnext

/-! ### Runs -/

theorem inv_new (initial : σ) : (new C initial : FlatCombiner σ Req Out).Inv := by
  refine ⟨?_, nodup_nil, nofun⟩
  have hout : (new C initial : FlatCombiner σ Req Out).ledger.out = ∅ := by
    ext s
    show (none : Option Worker) ≠ none ↔ False
    simp
  constructor
  case out_finite =>
    rw [hout]
    exact Set.finite_empty
  case inflight =>
    rw [hout, Set.ncard_empty]
    rfl
  case free =>
    rintro s (hs | hs)
    · cases hs
    · exact ⟨ne_of_gt hs, rfl⟩
  all_goals simp [new, ledger, call]

theorem next_cases {lb : Label Req Env} {fc' : FlatCombiner σ Req Out}
    (hstep : fc.next C lb = some fc') :
    (∃ t r, lb = .combine t r ∧ fc.tasks t = .idle ∧ fc.combine C t r = fc') ∨
      (∃ t s c, lb = .resume t ∧ fc.tasks t = .woken s c ∧ fc.resume C t s c = fc') ∨
      ∃ t e s c, lb = .sync_done t e ∧ fc.tasks t = .syncing s c ∧
        fc.sync_done C t s c e = fc' := by
  cases lb with
  | combine t r =>
    obtain ⟨ht, hstep⟩ := Option.ite_none_right_eq_some.mp hstep
    exact .inl ⟨t, r, rfl, ht, Option.some.inj hstep⟩
  | resume t =>
    unfold FlatCombiner.next at hstep
    simp only at hstep
    split at hstep
    · next s call ht => exact .inr (.inl ⟨t, s, call, rfl, ht, Option.some.inj hstep⟩)
    · cases hstep
  | sync_done t e =>
    unfold FlatCombiner.next at hstep
    simp only at hstep
    split at hstep
    · next s call ht => exact .inr (.inr ⟨t, e, s, call, rfl, ht, Option.some.inj hstep⟩)
    · cases hstep

theorem Inv.next (h : fc.Inv) {lb : Label Req Env} (hp : Paired C fc lb)
    {fc' : FlatCombiner σ Req Out} (hstep : fc.next C lb = some fc') : fc'.Inv := by
  rcases next_cases hstep with ⟨t, r, rfl, ht, rfl⟩ | ⟨t, s, c, -, ht, rfl⟩ | ⟨t, e, s, c, -, ht, rfl⟩
  · exact h.combine ht hp
  · exact h.resume ht
  · exact h.sync_done ht e

theorem paired_of_blocked (hblocked : ∀ c r x, (C.func c r x).status = .BLOCKED)
    (fc : FlatCombiner σ Req Out) (lb : Label Req Env) : Paired C fc lb := by
  cases lb with
  | combine t r =>
    intro hmatched
    simp only [hblocked] at hmatched
    cases hmatched
  | resume t => trivial
  | sync_done t e => trivial

end FlatCombiner

end Grappa
