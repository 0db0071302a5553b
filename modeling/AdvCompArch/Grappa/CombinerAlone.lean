import AdvCompArch.Grappa.CombinedContent

/-! # A task alone in a flat combiner

    A call on a combiner in which nobody is, whose functor blocks, starts a `sync()` of a
    batch of its own; when that has returned, nobody is in the combiner again. -/

namespace Grappa

open Function

namespace FlatCombiner

variable {σ Req Out Env : Type} {C : Combined σ Req Out Env} {fc : FlatCombiner σ Req Out}

/-- Nobody is in the combiner. -/
structure Resting (P : List Req → σ → List ℕ → Prop) (Room : σ → Prop)
    (fc : FlatCombiner σ Req Out) : Prop where
  inv : fc.Inv
  content : fc.Content P Room
  idle : ∀ t, fc.tasks t = .idle

/-- One task is in the combiner, in the `sync()` of an object. -/
structure InSync (P : List Req → σ → List ℕ → Prop) (Room : σ → Prop)
    (fc : FlatCombiner σ Req Out) (t : Worker) (f c : ℕ) (x : σ) : Prop where
  inv : fc.Inv
  content : fc.Content P Room
  task : fc.tasks t = .syncing f c
  others : ∀ u, u ≠ t → fc.tasks u = .idle
  id : (fc.flushers f).id = x

variable {P : List Req → σ → List ℕ → Prop} {Room : σ → Prop}

theorem Resting.current_empty (h : fc.Resting P Room) :
    P fc.history.requests (fc.flushers fc.current).id [] := by
  have hbatch : (fc.flushers fc.current).batch = [] := by
    cases hb : (fc.flushers fc.current).batch with
    | nil => rfl
    | cons c b =>
      -- its task would wait
      obtain ⟨t, ht⟩ := h.inv.ledger.batch_waits c (by
        show c ∈ (fc.flushers fc.current).batch
        rw [hb]
        exact List.mem_cons_self)
      exact absurd ((h.idle t).symm.trans ht) nofun
  have hholds := h.content.holds fc.current (.inl rfl)
  rwa [hbatch] at hholds

theorem Resting.inflight (h : fc.Resting P Room) : fc.inflight = 0 := by
  have hout : fc.ledger.out = ∅ := by
    ext s
    constructor
    · intro hs
      obtain ⟨t, ht⟩ := Option.ne_none_iff_exists'.mp hs
      obtain ⟨c, hc | hc⟩ := h.inv.ledger.sender s t ht
      · exact absurd ((h.idle t).symm.trans hc) nofun
      · exact absurd ((h.idle t).symm.trans hc) nofun
    · exact False.elim
  have hin := h.inv.ledger.inflight
  rw [hout, Set.ncard_empty] at hin
  exact hin

/-- **A call** in a combiner in which nobody is starts a `sync()` of what its functor leaves. -/
theorem Resting.combine (hP : ContentRule C P Room) (h : fc.Resting P Room) (t : Worker) (r : Req)
    (hblocked : ∀ x, P fc.history.requests x [] → (C.func fc.call r x).status = .BLOCKED) :
    ∃ x fc' f, P fc.history.requests x [] ∧ fc.next C (.combine t r) = some fc' ∧
      fc'.InSync P Room t f fc.call (C.func fc.call r x).id := by
  have hempty := h.current_empty
  have hstatus := hblocked _ hempty
  have hp : Paired C fc (.combine t r) := by
    intro hmatched
    rw [hstatus] at hmatched
    cases hmatched
  have hstep : fc.next C (.combine t r) = some (fc.combine C t r) := if_pos (h.idle t)
  refine ⟨_, _, fc.current, hempty, hstep, ?_⟩
  have hlaunch : fc.combine C t r =
      fc.launch C t r (C.func fc.call r (fc.flushers fc.current).id) := by
    rcases h.inv.combine_blocked_eq (C := C) (t := t) rfl hstatus with heq | ⟨hne, -⟩
    · exact heq
    · exact absurd h.inflight hne
  have hledger := h.inv.ledger_launch (C := C) t r hstatus
  have htasks : (fc.combine C t r).tasks =
      update fc.tasks t (.syncing fc.current fc.call) := by
    rw [hlaunch]
    exact congrArg BatchLedger.tasks hledger
  constructor
  case inv => exact h.inv.next hp hstep
  case content => exact h.content.next hP h.inv hp hstep
  case task =>
    rw [htasks]
    exact update_self ..
  case others =>
    intro u hu
    rw [htasks, update_of_ne hu]
    exact h.idle u
  case id =>
    obtain ⟨-, -, hkeep, -⟩ := h.inv.swap_run_functor (C := C) r hstatus
    rw [hlaunch, id_launch, hkeep _ h.inv.ne_next_flusher, id_run_functor, if_pos rfl]

theorem InSync.sync_done (hP : ContentRule C P Room) {t : Worker} {f c : ℕ} {x : σ}
    (h : fc.InSync P Room t f c x) (e : Env) :
    ∃ fc', fc.next C (.sync_done t e) = some fc' ∧ fc'.Resting P Room ∧
      fc'.history.outs = C.sync x e ++ fc.history.outs := by
  have hp : Paired C fc (.sync_done t e) := trivial
  have hstep : fc.next C (.sync_done t e) = some (fc.sync_done C t f c e) := by
    unfold FlatCombiner.next
    simp only [h.task]
  refine ⟨_, hstep, ⟨?_, ?_, ?_⟩, ?_⟩
  · exact h.inv.next hp hstep
  · exact h.content.next hP h.inv hp hstep
  · -- nobody waits, so nobody is appointed
    have hnobody : ∀ u s d, fc.tasks u ≠ .waiting s d := by
      intro u s d hwait
      by_cases hu : u = t
      · rw [hu, h.task] at hwait
        cases hwait
      · rw [h.others u hu] at hwait
        cases hwait
    obtain ⟨-, ⟨-, hledger⟩ | ⟨w, ws, d, -, hwait, -⟩⟩ :=
      h.inv.ledger_sync_done (C := C) h.task e
    · intro u
      show (fc.sync_done C t f c e).ledger.tasks u = .idle
      rw [hledger]
      simp only [BatchLedger.finish]
      by_cases hu : u = t
      · rw [hu, update_self]
      · have hidle : fc.ledger.tasks u = .idle := h.others u hu
        rw [update_of_ne hu, hidle]
        split <;> rfl
    · exact absurd hwait (hnobody w _ d)
  · obtain ⟨-, houts, -⟩ := history_sync_done (C := C) fc t f c e
    rw [houts, h.id]

end FlatCombiner

end Grappa
