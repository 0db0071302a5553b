import AdvCompArch.Grappa.FlatCombiner
import Mathlib.Data.Set.Card

/-! # The ledger of a flat combiner

    What the steps of a combiner do to the flushers, apart from the combined objects: who
    sends each batch, who waits on it, which calls it holds.  A batch *departs* from the
    current flusher with a sender, which is the task that flushes it at once (`launch`) or
    a waiter that is woken for it (`appoint`); every flusher but the current one that holds
    anything has a sender (`held`).  Waiters of the current batch imply that some batch is
    under way (`current_waiters`), whose sender will see to them. -/

namespace Grappa

open Function List Function

@[ext] structure BatchLedger where
  current : ℕ
  /-- The flushers on the free list, and the addresses not allocated. -/
  free : Set ℕ
  inflight : ℕ
  sender : ℕ → Option Worker
  waiters : ℕ → List Worker
  batch : ℕ → List ℕ
  tasks : Worker → TaskState
  calls : ℕ
  syncs : List (List ℕ)
  satisfied : List ℕ
  returned : List ℕ

namespace BatchLedger

variable (l : BatchLedger)

/-- The flushers with a sender. -/
def out : Set ℕ := {s | l.sender s ≠ none}

/-! ### The steps -/

/-- A new call waits with the current batch. -/
def park (t : Worker) : BatchLedger :=
  { l with
    waiters := update l.waiters l.current (t :: l.waiters l.current)
    batch := update l.batch l.current (l.calls :: l.batch l.current)
    tasks := update l.tasks t (.waiting l.current l.calls)
    calls := l.calls + 1 }

/-- A new call flushes the current batch; `r` is the next flusher. -/
def launch (r : ℕ) (t : Worker) : BatchLedger :=
  { l with
    current := r
    free := l.free \ {r}
    inflight := l.inflight + 1
    sender := update l.sender l.current (some t)
    batch := update l.batch l.current (l.calls :: l.batch l.current)
    tasks := update l.tasks t (.syncing l.current l.calls)
    calls := l.calls + 1
    syncs := (l.calls :: l.batch l.current) :: l.syncs }

/-- The waiter `w` is woken to flush the current batch. -/
def appoint (r : ℕ) (w : Worker) (ws : List Worker) (c : ℕ) : BatchLedger :=
  { l with
    current := r
    free := l.free \ {r}
    inflight := l.inflight + 1
    sender := update l.sender l.current (some w)
    waiters := update l.waiters l.current ws
    tasks := update l.tasks w (.woken l.current c) }

/-- The appointed sender starts the `sync()` of its batch. -/
def start (t : Worker) (s c : ℕ) : BatchLedger :=
  { l with
    tasks := update l.tasks t (.syncing s c)
    syncs := l.batch s :: l.syncs }

/-- A task that was woken returns. -/
def leave (t : Worker) (c : ℕ) : BatchLedger :=
  { l with
    tasks := update l.tasks t .idle
    returned := c :: l.returned }

/-- The sender wakes the waiters of its batch, frees the flusher and returns. -/
def finish (t : Worker) (s c : ℕ) : BatchLedger :=
  { l with
    free := insert s l.free
    inflight := l.inflight - 1
    sender := update l.sender s none
    waiters := update l.waiters s []
    batch := update l.batch s []
    tasks := update
      (fun u => if u ∈ l.waiters s then FlatCombiner.thread_wake (l.tasks u) else l.tasks u) t .idle
    satisfied := l.batch s ++ l.satisfied
    returned := c :: l.returned }

/-- A new call is satisfied at once. -/
def satisfy : BatchLedger :=
  { l with
    calls := l.calls + 1
    satisfied := l.calls :: l.satisfied
    returned := l.calls :: l.returned }

/-- A new call is matched with the call of the waiter `w`. -/
def pair (w : Worker) (ws : List Worker) (c : ℕ) : BatchLedger :=
  { l with
    waiters := update l.waiters l.current ws
    batch := update l.batch l.current ((l.batch l.current).filter fun d => d ≠ c)
    tasks := update l.tasks w (.woken l.current c)
    calls := l.calls + 1
    satisfied := l.calls :: c :: l.satisfied
    returned := l.calls :: l.returned }

/-! ### The invariant -/

structure Inv : Prop where
  current_sender : l.sender l.current = none
  free : ∀ s ∈ l.free, s ≠ l.current ∧ l.sender s = none
  held : ∀ s, s ≠ l.current → l.sender s = none → l.waiters s = [] ∧ l.batch s = []
  sender : ∀ s t, l.sender s = some t → ∃ c, l.tasks t = .syncing s c ∨ l.tasks t = .woken s c
  syncing : ∀ t s c, l.tasks t = .syncing s c →
    l.sender s = some t ∧ c ∈ l.batch s ∧ l.batch s ∈ l.syncs
  waiting : ∀ t s c, l.tasks t = .waiting s c → t ∈ l.waiters s ∧ c ∈ l.batch s
  waiting_one : ∀ t u s c, l.tasks t = .waiting s c → l.tasks u = .waiting s c → t = u
  woken : ∀ t s c, l.tasks t = .woken s c →
    (l.sender s = some t ∧ c ∈ l.batch s) ∨ (l.sender s ≠ some t ∧ c ∈ l.satisfied)
  waiters : ∀ s t, t ∈ l.waiters s → ∃ c, l.tasks t = .waiting s c
  waiters_nodup : ∀ s, (l.waiters s).Nodup
  batch : ∀ s c, c ∈ l.batch s → c < l.calls ∧ c ∉ l.satisfied ∧ ∀ s', c ∈ l.batch s' → s' = s
  batch_nodup : ∀ s, (l.batch s).Nodup
  batch_waits : ∀ c ∈ l.batch l.current, ∃ t, l.tasks t = .waiting l.current c
  satisfied : ∀ c ∈ l.satisfied, c < l.calls
  pending : ∀ c < l.calls, c ∈ l.satisfied ∨ ∃ s, c ∈ l.batch s
  out_finite : l.out.Finite
  inflight : l.inflight = l.out.ncard
  current_waiters : l.waiters l.current ≠ [] → l.inflight ≠ 0
  syncs_nodup : l.syncs.flatten.Nodup
  syncs : ∀ c ∈ l.syncs.flatten, c ∈ l.satisfied ∨ ∃ t s d, l.tasks t = .syncing s d ∧ c ∈ l.batch s
  returned : ∀ c ∈ l.returned, c ∈ l.satisfied
  satisfied_nodup : l.satisfied.Nodup

variable {l}

/-! ### The flushers with a sender -/

theorem out_update_some {s : ℕ} {t : Worker} {m : BatchLedger}
    (h : m.sender = update l.sender s (some t)) : m.out = insert s l.out := by
  ext x
  show m.sender x ≠ none ↔ x = s ∨ l.sender x ≠ none
  rw [h, update_apply]
  by_cases hx : x = s
  · simp [hx]
  · simp [hx]

theorem out_update_none {s : ℕ} {m : BatchLedger}
    (h : m.sender = update l.sender s none) : m.out = l.out \ {s} := by
  ext x
  show m.sender x ≠ none ↔ l.sender x ≠ none ∧ x ≠ s
  rw [h, update_apply]
  by_cases hx : x = s
  · simp [hx]
  · simp [hx]

theorem Inv.ncard_depart (h : l.Inv) {t : Worker} {m : BatchLedger}
    (hm : m.sender = update l.sender l.current (some t)) :
    m.out.Finite ∧ l.inflight + 1 = m.out.ncard := by
  have hnot : l.current ∉ l.out := by
    intro hmem
    exact hmem h.current_sender
  rw [out_update_some hm, Set.ncard_insert_of_notMem hnot h.out_finite, h.inflight]
  exact ⟨h.out_finite.insert _, rfl⟩

/-! ### Tasks and calls of a step -/

theorem Inv.idle (h : l.Inv) {t : Worker} (ht : l.tasks t = .idle) :
    (∀ s, l.sender s ≠ some t) ∧ ∀ s, t ∉ l.waiters s := by
  constructor
  · intro s hs
    obtain ⟨c, hc⟩ := h.sender s t hs
    simp [ht] at hc
  · intro s hs
    obtain ⟨c, hc⟩ := h.waiters s t hs
    simp [ht] at hc

theorem Inv.fresh (h : l.Inv) :
    (∀ s, l.calls ∉ l.batch s) ∧ l.calls ∉ l.satisfied ∧ l.calls ∉ l.syncs.flatten := by
  have hbatch : ∀ s, l.calls ∉ l.batch s := fun s hs => lt_irrefl _ (h.batch s _ hs).1
  have hsatisfied : l.calls ∉ l.satisfied := fun hs => lt_irrefl _ (h.satisfied _ hs)
  refine ⟨hbatch, hsatisfied, fun hs => ?_⟩
  rcases h.syncs _ hs with hs | ⟨t, s, d, -, hs⟩
  · exact hsatisfied hs
  · exact hbatch s hs

theorem Inv.blank (h : l.Inv) {r : ℕ} (hr : r ∈ l.free) :
    r ≠ l.current ∧ l.sender r = none ∧ l.waiters r = [] ∧ l.batch r = [] := by
  obtain ⟨hne, hnone⟩ := h.free r hr
  exact ⟨hne, hnone, h.held r hne hnone⟩

theorem Inv.unsynced (h : l.Inv) {c : ℕ} (hc : c ∈ l.batch l.current) :
    c ∉ l.syncs.flatten := by
  intro hs
  rcases h.syncs c hs with hs | ⟨t, s, d, ht, hs⟩
  · exact (h.batch _ c hc).2.1 hs
  · have hsender := (h.syncing t s d ht).1
    rw [(h.batch _ c hc).2.2 s hs, h.current_sender] at hsender
    cases hsender

theorem Inv.waiter (h : l.Inv) {w : Worker} {s c : ℕ} (hc : l.tasks w = .waiting s c) :
    (∀ x, l.sender x ≠ some w) ∧ (∀ x, w ∈ l.waiters x → x = s) ∧ c ∈ l.batch s ∧
      c ∉ l.satisfied ∧ ∀ u d, l.tasks u = .waiting s d → u ≠ w → d ≠ c := by
  have hmem := (h.waiting w s c hc).2
  refine ⟨fun x hx => ?_, fun x hx => ?_, hmem, (h.batch s c hmem).2.1, ?_⟩
  · obtain ⟨d, hd⟩ := h.sender x w hx
    simp [hc] at hd
  · obtain ⟨d, hd⟩ := h.waiters x w hx
    rw [hc] at hd
    cases hd
    rfl
  · rintro u d hu hne rfl
    exact hne (h.waiting_one u w s d hu hc)

theorem Inv.appointed (h : l.Inv) {t : Worker} {s c : ℕ} (ht : l.tasks t = .woken s c)
    (hs : l.sender s = some t) : c ∈ l.batch s ∧ ∀ d ∈ l.batch s, d ∉ l.syncs.flatten := by
  constructor
  · rcases h.woken t s c ht with ⟨-, hc⟩ | ⟨hne, -⟩
    · exact hc
    · exact absurd hs hne
  · intro d hd hsync
    rcases h.syncs d hsync with hsat | ⟨u, x, e, hu, hx⟩
    · exact (h.batch s d hd).2.1 hsat
    · -- the batch would be that of another sender
      have hsender := (h.syncing u x e hu).1
      rw [(h.batch s d hd).2.2 x hx, hs] at hsender
      cases hsender
      simp [ht] at hu

/-! ### `combine` -/

theorem Inv.park (h : l.Inv) {t : Worker} (ht : l.tasks t = .idle) (hi : l.inflight ≠ 0) :
    (l.park t).Inv := by
  obtain ⟨hnotSender, hnotWaiter⟩ := h.idle ht
  obtain ⟨hfresh, hfreshSat, -⟩ := h.fresh
  have hfields := h
  cases hfields
  constructor
  case current_waiters => exact fun _ => hi
  case waiters =>
    simp only [BatchLedger.park, update_apply]
    intro s u hu
    by_cases hut : u = t
    · -- the task that parks was not a waiter before
      have hs : s = l.current := by
        by_contra hs
        rw [if_neg hs, hut] at hu
        exact hnotWaiter s hu
      exact ⟨l.calls, by rw [if_pos hut, hs]⟩
    · rw [if_neg hut]
      refine h.waiters s u ?_
      split at hu
      · rename_i hs
        exact hs ▸ (mem_cons.mp hu).resolve_left hut
      · exact hu
  all_goals simp only [BatchLedger.park, update_apply]
  all_goals first | assumption | grind

theorem Inv.launch (h : l.Inv) {r : ℕ} {t : Worker} (hr : r ∈ l.free) (ht : l.tasks t = .idle) :
    (l.launch r t).Inv := by
  obtain ⟨hfin', hin'⟩ := h.ncard_depart (m := l.launch r t) (t := t) rfl
  obtain ⟨hnotSender, hnotWaiter⟩ := h.idle ht
  obtain ⟨hfresh, hfreshSat, hfreshSyncs⟩ := h.fresh
  obtain ⟨hne, hblank, hwr, hbr⟩ := h.blank hr
  have hunsynced : ∀ c ∈ l.batch l.current, c ∉ l.syncs.flatten := fun c hc => h.unsynced hc
  have hfields := h
  cases hfields
  constructor
  case out_finite => exact hfin'
  case inflight => exact hin'
  case sender =>
    intro s u hu
    simp only [BatchLedger.launch, update_apply] at hu ⊢
    by_cases hs : s = l.current
    · rw [if_pos hs] at hu
      cases hu
      exact ⟨l.calls, .inl (by rw [if_pos rfl, hs])⟩
    · -- a sender is not idle
      rw [if_neg hs] at hu
      have hut : u ≠ t := by
        rintro rfl
        exact hnotSender s hu
      rw [if_neg hut]
      exact h.sender s u hu
  case syncs_nodup =>
    show ((l.calls :: l.batch l.current) ++ l.syncs.flatten).Nodup
    apply Nodup.append _ h.syncs_nodup
    · -- a call that was synced is not in the current batch
      intro c hc hcs
      rcases mem_cons.mp hc with rfl | hc
      · exact hfreshSyncs hcs
      · exact hunsynced c hc hcs
    · exact nodup_cons.mpr ⟨hfresh l.current, h.batch_nodup l.current⟩
  all_goals simp only [BatchLedger.launch, update_apply]
  all_goals first | assumption | grind

theorem Inv.satisfy (h : l.Inv) : l.satisfy.Inv := by
  obtain ⟨hfresh, hfreshSat, -⟩ := h.fresh
  have hfields := h
  cases hfields
  constructor
  all_goals simp only [BatchLedger.satisfy]
  all_goals first | assumption | grind

theorem Inv.pair (h : l.Inv) {c : ℕ} {w : Worker} {ws : List Worker}
    (hw : l.waiters l.current = w :: ws) (hc : l.tasks w = .waiting l.current c) :
    (l.pair w ws c).Inv := by
  obtain ⟨hnotSender, hplace, hmem, hunsat, hother⟩ := h.waiter hc
  obtain ⟨hfresh, hfreshSat, -⟩ := h.fresh
  have hfields := h
  cases hfields
  constructor
  case waiting =>
    simp only [BatchLedger.pair, update_apply]
    intro u s d hu
    have huw : u ≠ w := by
      rintro rfl
      simp at hu
    rw [if_neg huw] at hu
    obtain ⟨hus, hd⟩ := h.waiting u s d hu
    by_cases hs : s = l.current
    · -- another waiter has another call
      subst hs
      rw [hw] at hus
      rw [if_pos rfl, if_pos rfl, mem_filter]
      exact ⟨(mem_cons.mp hus).resolve_left huw, hd, by simpa using hother u d hu huw⟩
    · rw [if_neg hs, if_neg hs]
      exact ⟨hus, hd⟩
  all_goals simp only [BatchLedger.pair, update_apply]
  all_goals first | assumption | grind

/-! ### `flush` -/

theorem Inv.appoint (h : l.Inv) {r c : ℕ} {w : Worker} {ws : List Worker} (hr : r ∈ l.free)
    (hw : l.waiters l.current = w :: ws) (hc : l.tasks w = .waiting l.current c) :
    (l.appoint r w ws c).Inv := by
  obtain ⟨hfin', hin'⟩ := h.ncard_depart (m := l.appoint r w ws c) (t := w) rfl
  obtain ⟨hnotSender, hplace, hmem, hunsat, hother⟩ := h.waiter hc
  obtain ⟨hne, hblank, hwr, hbr⟩ := h.blank hr
  have hfields := h
  cases hfields
  constructor
  case out_finite => exact hfin'
  case inflight => exact hin'
  all_goals simp only [BatchLedger.appoint, update_apply]
  all_goals first | assumption | grind

theorem Inv.start (h : l.Inv) {s c : ℕ} {t : Worker} (ht : l.tasks t = .woken s c)
    (hs : l.sender s = some t) : (l.start t s c).Inv := by
  obtain ⟨hmem, hunsynced⟩ := h.appointed ht hs
  have hfields := h
  cases hfields
  constructor
  case syncs_nodup =>
    show (l.batch s ++ l.syncs.flatten).Nodup
    apply Nodup.append (h.batch_nodup s) h.syncs_nodup
    intro d hd hds
    exact hunsynced d hd hds
  case syncing =>
    simp only [BatchLedger.start, update_apply]
    intro u x d hu
    by_cases hut : u = t
    · obtain ⟨rfl, rfl⟩ : s = x ∧ c = d := by simpa [hut] using hu
      exact ⟨hut ▸ hs, hmem, mem_cons_self⟩
    · rw [if_neg hut] at hu
      obtain ⟨h1, h2, h3⟩ := h.syncing u x d hu
      exact ⟨h1, h2, mem_cons_of_mem _ h3⟩
  all_goals simp only [BatchLedger.start, update_apply]
  all_goals first | assumption | grind

theorem Inv.leave (h : l.Inv) {s c : ℕ} {t : Worker} (ht : l.tasks t = .woken s c)
    (hs : l.sender s ≠ some t) : (l.leave t c).Inv := by
  have hfields := h
  cases hfields
  constructor
  all_goals simp only [BatchLedger.leave, update_apply]
  all_goals first | assumption | grind

theorem thread_wake_eq_syncing {p : TaskState} {s c : ℕ} :
    FlatCombiner.thread_wake p = .syncing s c ↔ p = .syncing s c := by
  cases p <;> simp [FlatCombiner.thread_wake]

theorem thread_wake_eq_woken {p : TaskState} {s c : ℕ} :
    FlatCombiner.thread_wake p = .woken s c ↔ p = .waiting s c ∨ p = .woken s c := by
  cases p <;> simp [FlatCombiner.thread_wake]

theorem thread_wake_ne_waiting {p : TaskState} {s c : ℕ} :
    FlatCombiner.thread_wake p ≠ .waiting s c := by
  cases p <;> simp [FlatCombiner.thread_wake]

theorem Inv.finish (h : l.Inv) {s c : ℕ} {t : Worker} (ht : l.tasks t = .syncing s c)
    (hw : l.waiters l.current = []) : (l.finish t s c).Inv := by
  have hout : (l.finish t s c).out = l.out \ {s} := out_update_none rfl
  obtain ⟨hst, hcs, -⟩ := h.syncing t s c ht
  have hmem : s ∈ l.out := by
    show l.sender s ≠ none
    rw [hst]
    exact nofun
  have hne : s ≠ l.current := by
    rintro rfl
    rw [h.current_sender] at hst
    cases hst
  have hfields := h
  cases hfields
  constructor
  case out_finite =>
    rw [hout]
    exact h.out_finite.sdiff
  case inflight =>
    rw [hout, Set.ncard_sdiff_singleton_of_mem hmem, ← h.inflight]
    rfl
  case satisfied_nodup =>
    show (l.batch s ++ l.satisfied).Nodup
    apply Nodup.append (h.batch_nodup s) h.satisfied_nodup
    intro d hd hds
    exact (h.batch s d hd).2.1 hds
  all_goals simp only [BatchLedger.finish, update_apply]
  all_goals first
    | assumption
    | grind [thread_wake_eq_syncing, thread_wake_eq_woken, thread_wake_ne_waiting]

end BatchLedger

end Grappa
