import AdvCompArch.Grappa.CombinedContent

/-! # Every request is combined exactly once

    For a combined type whose functors always block, read off the invariant of the ledger:
    every call is in one `sync()`, returns after it, and nobody is left waiting with no
    batch under way.  The object that is synced is what the functors of its calls make of a
    clear one.  `GlobalCounter` is such a type. -/

namespace Grappa

open List

namespace FlatCombiner

variable {σ Req Out Env : Type} {C : Combined σ Req Out Env} {fc : FlatCombiner σ Req Out}

/-- No task can run and no `sync()` is in progress. -/
def Quiescent (fc : FlatCombiner σ Req Out) : Prop :=
  ∀ t s c, fc.tasks t ≠ .woken s c ∧ fc.tasks t ≠ .syncing s c

/-- The flushers whose batch is being flushed or has a task assigned to flush it. -/
def underway (fc : FlatCombiner σ Req Out) : Set ℕ :=
  {s | ∃ t, (∃ c, fc.tasks t = .syncing s c) ∨ (fc.flushers s).sender = some t}

/-- A clear object after the functors of the calls in a list, the last call first. -/
def combined (C : Combined σ Req Out Env) (rs : List Req) (y : σ) : List ℕ → σ
  | [] => C.clear y
  | c :: b =>
    match rs[c]? with
    | some r => (C.func c r (combined C rs y b)).id
    | none => combined C rs y b

/-- The object is what the functors of the calls in `b` make of a clear one. -/
def MadeBy (C : Combined σ Req Out Env) (rs : List Req) (x : σ) (b : List ℕ) : Prop :=
  (∀ c ∈ b, c < rs.length) ∧ ∃ y, x = combined C rs y b

/-- What flat combining is to guarantee for the calls made so far. -/
structure ExactlyOnce (C : Combined σ Req Out Env) (fc : FlatCombiner σ Req Out) : Prop where
  /-- No request is in two `sync()`s, or twice in one. -/
  once : fc.history.syncs.flatten.Nodup
  /-- The object in a `sync()` holds the requests of its batch, and no others. -/
  content : ∀ t s c, fc.tasks t = .syncing s c → (fc.flushers s).batch ∈ fc.history.syncs ∧
    MadeBy C fc.history.requests (fc.flushers s).id (fc.flushers s).batch
  /-- A call that returned was in a `sync()` that has returned. -/
  returned : ∀ c ∈ fc.history.returned, c ∈ fc.history.satisfied ∧ c ∈ fc.history.syncs.flatten
  inflight : fc.inflight = fc.underway.ncard
  /-- Nobody waits for nothing. -/
  awaited : fc.Quiescent → ∀ t s c, fc.tasks t ≠ .waiting s c
  /-- No request is left behind. -/
  served : fc.Quiescent → ∀ c < fc.call,
    c ∈ fc.history.satisfied ∧ c ∈ fc.history.syncs.flatten

/-! ### From the invariant -/

theorem Inv.underway (h : fc.Inv) : fc.underway = fc.ledger.out := by
  ext s
  constructor
  · rintro ⟨t, ⟨c, hc⟩ | ht⟩
    · show fc.ledger.sender s ≠ none
      rw [(h.ledger.syncing t s c hc).1]
      exact nofun
    · show (fc.flushers s).sender ≠ none
      rw [ht]
      exact nofun
  · intro hs
    obtain ⟨t, ht⟩ := Option.ne_none_iff_exists'.mp hs
    exact ⟨t, .inr ht⟩

/-- In a quiescent state no batch has a sender. -/
theorem Inv.sender_eq_none (h : fc.Inv) (hq : fc.Quiescent) (s : ℕ) : fc.ledger.sender s = none := by
  cases hs : fc.ledger.sender s with
  | none => rfl
  | some t =>
    obtain ⟨c, hc | hc⟩ := h.ledger.sender s t hs
    · exact absurd hc (hq t s c).2
    · exact absurd hc (hq t s c).1

theorem Inv.awaited (h : fc.Inv) (hq : fc.Quiescent) (t : Worker) (s c : ℕ) :
    fc.tasks t ≠ .waiting s c := by
  intro hwait
  have hmem := (h.ledger.waiting t s c hwait).1
  have hnone := h.sender_eq_none hq
  have hout : fc.ledger.out = ∅ := by
    ext x
    show fc.ledger.sender x ≠ none ↔ False
    simp [hnone x]
  by_cases hs : s = fc.current
  · -- the current batch: some other one is under way
    have hpos := h.ledger.current_waiters (by
      intro hnil
      rw [hs] at hmem
      rw [show fc.ledger.waiters fc.current = [] from hnil] at hmem
      cases hmem)
    rw [h.ledger.inflight, hout, Set.ncard_empty] at hpos
    exact hpos rfl
  · -- an earlier batch has a sender
    rw [(h.ledger.held s hs (hnone s)).1] at hmem
    cases hmem

theorem Inv.served (h : fc.Inv) (hq : fc.Quiescent) {c : ℕ} (hc : c < fc.call) :
    c ∈ fc.history.satisfied := by
  rcases h.ledger.pending c hc with hsat | ⟨s, hs⟩
  · exact hsat
  · exfalso
    by_cases hcur : s = fc.current
    · rw [hcur] at hs
      obtain ⟨t, ht⟩ := h.ledger.batch_waits c hs
      exact h.awaited hq t _ c ht
    · rw [(h.ledger.held s hcur (h.sender_eq_none hq s)).2] at hs
      cases hs

theorem contentRule_madeBy (hblocked : ∀ c r x, (C.func c r x).status = .BLOCKED) :
    ContentRule C (MadeBy C) fun _ => True := by
  have hmono : ∀ (rs : List Req) (r : Req) (y : σ) (b : List ℕ), (∀ c ∈ b, c < rs.length) →
      combined C (rs ++ [r]) y b = combined C rs y b := by
    intro rs r y b hb
    induction b with
    | nil => rfl
    | cons c b ih =>
      have hget : (rs ++ [r])[c]? = rs[c]? := getElem?_append_left (hb c mem_cons_self)
      unfold combined
      rw [hget, ih fun d hd => hb d (mem_cons_of_mem _ hd)]
  constructor
  case clear =>
    intro rs y
    exact ⟨⟨nofun, y, rfl⟩, trivial⟩
  case mono =>
    rintro rs r x b hb ⟨-, y, rfl⟩
    refine ⟨?_, y, (hmono rs r y b hb).symm⟩
    intro c hc
    have := hb c hc
    simp
    omega
  case blocked =>
    rintro rs r x b ⟨hb, y, rfl⟩ - -
    refine ⟨⟨?_, y, ?_⟩, fun _ => trivial⟩
    · intro c hc
      rcases mem_cons.mp hc with rfl | hc
      · simp
      · have := hb c hc
        simp
        omega
    · have hget : (rs ++ [r])[rs.length]? = some r := by simp
      rw [combined, hget, hmono rs r y b hb]
  case matched =>
    intro rs r x b c _ _ hs
    rw [hblocked] at hs
    cases hs
  case satisfied =>
    intro rs r x b _ _ hs
    rw [hblocked] at hs
    cases hs

theorem Inv.synced_step (h : fc.Inv) (hblocked : ∀ c r x, (C.func c r x).status = .BLOCKED)
    (hs : ∀ c ∈ fc.history.satisfied, c ∈ fc.history.syncs.flatten) {lb : Label Req Env}
    {fc' : FlatCombiner σ Req Out} (hstep : fc.next C lb = some fc') :
    ∀ c ∈ fc'.history.satisfied, c ∈ fc'.history.syncs.flatten := by
  rcases next_cases hstep with ⟨t, r, -, -, rfl⟩ | ⟨t, s, d, -, -, rfl⟩ | ⟨t, e, s, d, -, ht, rfl⟩
  · obtain ⟨-, hlaunch | ⟨-, hpark⟩⟩ :=
      h.combine_blocked (C := C) (t := t) (r := r) (hblocked ..)
    · show ∀ c ∈ (fc.combine C t r).ledger.satisfied, c ∈ (fc.combine C t r).ledger.syncs.flatten
      rw [hlaunch]
      intro c hc
      exact mem_append_right _ (hs c hc)
    · show ∀ c ∈ (fc.combine C t r).ledger.satisfied, c ∈ (fc.combine C t r).ledger.syncs.flatten
      rw [hpark]
      exact hs
  · rcases h.resume_eq (C := C) (t := t) (s := s) (c := d) with ⟨-, heq⟩ | ⟨-, heq⟩
    · rw [heq]
      intro c hc
      exact mem_append_right _ (hs c hc)
    · rw [heq]
      exact hs
  · -- the batch that is finished was synced
    have hbatch := (h.ledger.syncing t s d ht).2.2
    have hnew : ∀ c ∈ fc.ledger.batch s ++ fc.ledger.satisfied, c ∈ fc.ledger.syncs.flatten := by
      intro c hc
      rcases mem_append.mp hc with hc | hc
      · exact mem_flatten.mpr ⟨_, hbatch, hc⟩
      · exact hs c hc
    show ∀ c ∈ (fc.sync_done C t s d e).ledger.satisfied,
      c ∈ (fc.sync_done C t s d e).ledger.syncs.flatten
    obtain ⟨-, ⟨-, hfinish⟩ | ⟨w, ws, d', -, -, hfinish⟩⟩ := h.ledger_sync_done (C := C) ht e
    · rw [hfinish]
      exact hnew
    · rw [hfinish]
      exact hnew

/-- **Flat combining is exactly once**, for every combined type whose functors always block and
    every interleaving. -/
theorem exactly_once (C : Combined σ Req Out Env) (initial : σ)
    (hblocked : ∀ c r x, (C.func c r x).status = .BLOCKED) (fc : FlatCombiner σ Req Out)
    (hreach : (system C initial).Reachable fc) : fc.ExactlyOnce C := by
  have hrule := contentRule_madeBy hblocked
  obtain ⟨h, hsynced, hcontent⟩ : fc.Inv ∧
      (∀ c ∈ fc.history.satisfied, c ∈ fc.history.syncs.flatten) ∧
      fc.Content (MadeBy C) (fun _ => True) := by
    apply hreach.invariant (fun fc => fc.Inv ∧
      (∀ c ∈ fc.history.satisfied, c ∈ fc.history.syncs.flatten) ∧ fc.Content (MadeBy C) fun _ => True)
      ⟨inv_new initial, nofun, content_new hrule initial⟩
    intro fc lb fc' hfc hstep
    obtain ⟨h, hsynced, hcontent⟩ := hfc
    have hp := paired_of_blocked hblocked fc lb
    exact ⟨h.next hp hstep, h.synced_step hblocked hsynced hstep, hcontent.next hrule h hp hstep⟩
  constructor
  case once => exact h.ledger.syncs_nodup
  case content =>
    intro t s c ht
    obtain ⟨hsender, -, hsyncs⟩ := h.ledger.syncing t s c ht
    have hsome : (fc.flushers s).sender ≠ none := by
      rw [show (fc.flushers s).sender = some t from hsender]
      exact nofun
    exact ⟨hsyncs, hcontent.holds s (.inr hsome)⟩
  case returned =>
    intro c hc
    exact ⟨h.ledger.returned c hc, hsynced c (h.ledger.returned c hc)⟩
  case inflight =>
    rw [h.underway]
    exact h.ledger.inflight
  case awaited => exact h.awaited
  case served =>
    intro hq c hc
    exact ⟨h.served hq hc, hsynced c (h.served hq hc)⟩

/-- `GlobalCounter::Proxy`: `incr(d)` adds to `delta`, and `sync()` adds `delta` to the count of the
    master. -/
def CounterProxy : Combined ℤ ℤ ℤ Unit where
  func := fun _ d delta => ⟨.BLOCKED, delta + d, [], none⟩
  is_full := fun _ => false
  clear := fun _ => 0
  clone_fresh := fun _ => 0
  sync := fun delta _ => [delta]

/-- Three increments; the first is flushed alone, the others together by the last of them. -/
theorem exactly_once_counter :
    ∃ fc, (system CounterProxy 0).run (system CounterProxy 0).init
        [.combine 0 5, .combine 1 3, .combine 2 4, .sync_done 0 (), .resume 2, .sync_done 2 (),
          .resume 1] = some fc ∧ fc.ExactlyOnce CounterProxy := by
  have hrun : ((system CounterProxy 0).run (system CounterProxy 0).init
      [.combine 0 5, .combine 1 3, .combine 2 4, .sync_done 0 (), .resume 2, .sync_done 2 (),
        .resume 1]).isSome := by decide
  obtain ⟨fc, hfc⟩ := Option.isSome_iff_exists.mp hrun
  exact ⟨fc, hfc, exactly_once CounterProxy 0 (fun _ _ _ => rfl) fc ⟨_, hfc⟩⟩

end FlatCombiner

end Grappa
