import AdvCompArch.Lib.Ring
import AdvCompArch.Sonuma.QueuePair

/-! # What all interleavings of a queue pair keep

    Counters take the place of the cursors: `posted` entries, of which the first were executed,
    completed and consumed.  The entries from `consumed` to `posted` are the valid ones, at most
    a round of the ring, and so the completion queue, in which there are at most as many, never
    overflows. -/

namespace Sonuma

namespace QueuePair

open Function List SenseRing

variable (s : QueuePair)

/-- The entries that are valid are numbered up to here: the one that is posted counts from the
    store of its valid bit on. -/
def marked : ℕ :=
  match s.app with
  | .post 8 _ => s.posted.length + 1
  | _ => s.posted.length

/-- The handler has been called for all that was consumed, but for the call that comes next. -/
def handledUpTo : ℕ :=
  match s.app with
  | .handler _ _ => s.handled.length + 1
  | _ => s.handled.length

/-- What holds where the application stands. -/
def AppOk : AppPc → Prop
  | .idle | .load_SR _ | .load_valid => True
  | .load_tid _ => s.consumed < s.completed
  | .clear_valid _ tid => s.consumed < s.completed ∧ tid = s.consumed % MAX_NUM_WQ
  | .handler _ tid => tid = s.handled.length % MAX_NUM_WQ
  | .post k e =>
    k < RmcWq.storeOrder.length ∧ s.checked = false ∧
      s.posted.length < s.consumed + MAX_NUM_WQ ∧ e.valid = true ∧ e.OneSided ∧
      e.SR = sense MAX_NUM_WQ s.posted.length ∧
      ∃ old, s.wq.q (s.posted.length % MAX_NUM_WQ) = e.copyAll old (RmcWq.storeOrder.take k)

/-- The daemon's cursor in the work queue stands at this number. -/
def TailAt (n : ℕ) : Prop :=
  s.local_wq_tail = n % MAX_NUM_WQ ∧ s.local_wq_SR = sense MAX_NUM_WQ n

/-- What holds where the daemon stands. -/
def DaemonOk : DaemonPc → Prop
  | .poll => s.executed.length = s.completed ∧ s.TailAt s.completed
  | .load k got =>
    s.executed.length = s.completed ∧ s.TailAt s.completed ∧
      ∃ p, s.posted[s.completed]? = some p ∧
        ∃ old, got = p.2.copyAll old (RmcWq.loadOrder.take k)
  | .notify => s.executed.length = s.completed + 1 ∧ s.TailAt s.completed
  | .store_tid compl_idx =>
    s.executed.length = s.completed + 1 ∧ s.TailAt (s.completed + 1) ∧
      compl_idx = s.completed % MAX_NUM_WQ
  | .store_SR =>
    s.executed.length = s.completed + 1 ∧ s.TailAt (s.completed + 1) ∧
      (s.cq.q (s.completed % MAX_NUM_WQ)).tid = s.completed % MAX_NUM_WQ

/-- **The invariant.** -/
structure Inv : Prop where
  connected : s.wq.connected = true
  -- the counters
  consumed_le : s.consumed ≤ s.completed
  completed_le : s.completed ≤ s.executed.length
  executed_le : s.executed.length ≤ s.posted.length
  posted_le : s.posted.length ≤ s.consumed + MAX_NUM_WQ
  handled_eq_consumed : s.handledUpTo = s.consumed
  checked : s.checked = true → s.posted.length < s.consumed + MAX_NUM_WQ
  -- the cursors
  wq_head : s.wq.head = s.posted.length % MAX_NUM_WQ
  wq_sense : s.wq.SR = sense MAX_NUM_WQ s.posted.length
  cq_tail : s.cq.tail = s.consumed % MAX_NUM_WQ
  cq_sense : s.cq.SR = sense MAX_NUM_WQ s.consumed
  cq_head : s.local_cq_head = s.completed % MAX_NUM_WQ
  cq_head_sense : s.local_cq_SR = sense MAX_NUM_WQ s.completed
  -- the rings
  wq_bits : ∀ k < MAX_NUM_WQ, (s.wq.q k).SR = shows MAX_NUM_WQ s.posted.length k
  cq_bits : ∀ k < MAX_NUM_WQ, (s.cq.q k).SR = shows MAX_NUM_WQ s.completed k
  wq_valid : ∀ k < MAX_NUM_WQ, (s.wq.q k).valid = true ↔
    ∃ i, s.consumed ≤ i ∧ i < s.marked ∧ i % MAX_NUM_WQ = k
  -- until its completion is consumed, an entry is not written over
  wq_held : ∀ i p, s.consumed ≤ i → s.posted[i]? = some p → s.wq.q (i % MAX_NUM_WQ) = p.2
  cq_held : ∀ i, s.consumed ≤ i → i < s.completed →
    (s.cq.q (i % MAX_NUM_WQ)).tid = i % MAX_NUM_WQ
  -- what happened
  slots : ∀ i p, s.posted[i]? = some p → p.1 = i % MAX_NUM_WQ
  oneSided : ∀ p ∈ s.posted, p.2.OneSided
  executed_eq : s.executed = (s.posted.take s.executed.length).map fun p => p.2.remote
  handled_eq : s.handled = (s.posted.take s.handled.length).map Prod.fst
  -- the two parties between their loads and stores
  app : s.AppOk s.app
  daemon : s.DaemonOk s.daemon

variable {s} {s' : QueuePair} {l : Label}

theorem init_inv : init.Inv where
  connected := rfl
  consumed_le := le_refl _
  completed_le := le_refl _
  executed_le := Nat.le_refl _
  posted_le := Nat.zero_le _
  handled_eq_consumed := rfl
  checked := by simp [init]
  wq_head := rfl
  wq_sense := rfl
  cq_tail := rfl
  cq_sense := rfl
  cq_head := rfl
  cq_head_sense := rfl
  wq_bits := by simp [init, kal_reg_wq, alloc_wq, WqEntry.zero]
  cq_bits := by simp [init, kal_reg_cq, alloc_cq]
  wq_valid := by simp [init, kal_reg_wq, alloc_wq, WqEntry.zero, marked]
  wq_held := by simp [init]
  cq_held := by simp [init]
  slots := by simp [init]
  oneSided := by simp [init]
  executed_eq := rfl
  handled_eq := rfl
  app := trivial
  daemon := ⟨rfl, rfl, rfl⟩

/-! ### What the two sides find -/

/-- **The daemon finds an entry** exactly when one was posted that it has not taken. -/
theorem Inv.found_iff (hi : s.Inv) {n : ℕ} (hat : s.TailAt n) (hlo : s.consumed ≤ n)
    (hhi : n ≤ s.posted.length) : s.found = true ↔ n < s.posted.length := by
  have hlt : n % MAX_NUM_WQ < MAX_NUM_WQ := Nat.mod_lt _ (by decide)
  have hbehind : s.posted.length ≤ n + MAX_NUM_WQ := by
    have := hi.posted_le
    omega
  rw [found, curr, hi.connected, hat.1, hat.2, hi.wq_bits _ hlt, Bool.true_and, beq_iff_eq]
  exact shows_iff (by decide) hhi hbehind

theorem Inv.arrived_iff (hi : s.Inv) : s.cq.arrived = true ↔ s.consumed < s.completed := by
  have hlt : s.consumed % MAX_NUM_WQ < MAX_NUM_WQ := Nat.mod_lt _ (by decide)
  have hbehind : s.completed ≤ s.consumed + MAX_NUM_WQ := by
    have := hi.completed_le
    have := hi.executed_le
    have := hi.posted_le
    omega
  rw [RmcCq.arrived, hi.cq_tail, hi.cq_sense, hi.cq_bits _ hlt, beq_iff_eq]
  exact shows_iff (by decide) hi.consumed_le hbehind

theorem Inv.head_valid_iff (hi : s.Inv) (hmarked : s.marked = s.posted.length) :
    (s.wq.q s.wq.head).valid = true ↔ s.consumed + MAX_NUM_WQ ≤ s.posted.length := by
  have hle := hi.posted_le
  rw [hi.wq_head, hi.wq_valid _ (Nat.mod_lt _ (by decide)), hmarked]
  constructor
  · rintro ⟨i, hlo, hhi, hmod⟩
    simp only [MAX_NUM_WQ] at *
    omega
  · intro hround
    refine ⟨s.consumed, le_refl _, ?_, ?_⟩
    · simp only [MAX_NUM_WQ] at *
      omega
    · simp only [MAX_NUM_WQ] at *
      omega

/-! ### The application reads completions -/

theorem Inv.move (hi : s.Inv) {pc : AppPc} (happ : s.AppOk pc)
    (hmarked : marked { s with app := pc } = s.marked)
    (hhandled : handledUpTo { s with app := pc } = s.handledUpTo) : Inv { s with app := pc } :=
  { hi with
    handled_eq_consumed := hhandled.trans hi.handled_eq_consumed
    wq_valid := by
      rw [hmarked]
      exact hi.wq_valid
    app := happ
    daemon := hi.daemon }

theorem load_SR_inv (hi : s.Inv) {check : Bool} (happ : s.app = .load_SR check)
    (h : s.appStep = some s') : s'.Inv := by
  have hm : s.marked = s.posted.length := by simp [marked, happ]
  have hh : s.handledUpTo = s.handled.length := by simp [handledUpTo, happ]
  unfold appStep at h
  rw [happ] at h
  dsimp only at h
  split at h
  · rename_i harrived
    cases h
    exact hi.move (hi.arrived_iff.mp harrived) hm.symm hh.symm
  · cases h
    cases check with
    | true => exact hi.move trivial hm.symm hh.symm
    | false => exact hi.move trivial hm.symm hh.symm

theorem load_tid_inv (hi : s.Inv) {check : Bool} (happ : s.app = .load_tid check)
    (h : s.appStep = some s') : s'.Inv := by
  have hm : s.marked = s.posted.length := by simp [marked, happ]
  have hh : s.handledUpTo = s.handled.length := by simp [handledUpTo, happ]
  have hok := hi.app
  rw [happ] at hok
  unfold appStep at h
  rw [happ] at h
  cases h
  have htid : (s.cq.q s.cq.tail).tid = s.consumed % MAX_NUM_WQ := by
    rw [hi.cq_tail]
    exact hi.cq_held _ (le_refl _) hok
  exact hi.move ⟨hok, htid⟩ hm.symm hh.symm

theorem load_valid_inv (hi : s.Inv) (happ : s.app = .load_valid) (h : s.appStep = some s') :
    s'.Inv := by
  have hm : s.marked = s.posted.length := by simp [marked, happ]
  have hh : s.handledUpTo = s.handled.length := by simp [handledUpTo, happ]
  unfold appStep at h
  rw [happ] at h
  dsimp only at h
  split at h
  · cases h
    exact hi.move trivial hm.symm hh.symm
  · rename_i hfree
    cases h
    have hroom : s.posted.length < s.consumed + MAX_NUM_WQ := by
      rw [hi.head_valid_iff hm] at hfree
      omega
    have hidle : Inv { s with app := .idle } := hi.move trivial hm.symm hh.symm
    exact { hidle with checked := fun _ => hroom }

/-- **An entry is consumed**: its valid bit is cleared. -/
theorem clear_inv (hi : s.Inv) {check : Bool} {tid : ℕ} (happ : s.app = .clear_valid check tid) :
    (s.clear check tid).Inv := by
  have hm : s.marked = s.posted.length := by simp [marked, happ]
  have hh : s.handledUpTo = s.handled.length := by simp [handledUpTo, happ]
  obtain ⟨hlt, rfl⟩ : s.consumed < s.completed ∧ tid = s.consumed % MAX_NUM_WQ := by
    have := hi.app
    rwa [happ] at this
  have hcount := hi.posted_le
  have hhandled := hi.handled_eq_consumed
  rw [hh] at hhandled
  obtain ⟨htail, hsense⟩ := cursor_succ (by decide) hi.cq_tail hi.cq_sense
  unfold clear RmcWq.set
  rw [RmcCq.advance_tail_eq]
  exact { hi with
    consumed_le := hlt
    posted_le := by
      show s.posted.length ≤ s.consumed + 1 + MAX_NUM_WQ
      omega
    handled_eq_consumed := by
      show s.handled.length + 1 = s.consumed + 1
      rw [hhandled]
    checked := fun h => Nat.lt_succ_of_lt (hi.checked h)
    cq_tail := htail
    cq_sense := hsense
    wq_bits := by
      intro k hk
      by_cases hkt : k = s.consumed % MAX_NUM_WQ
      · subst hkt
        simpa using hi.wq_bits _ hk
      · simpa [update_of_ne hkt] using hi.wq_bits k hk
    wq_valid := by
      intro k hk
      show (update s.wq.q _ _ k).valid = true ↔ ∃ i, s.consumed + 1 ≤ i ∧ i < s.posted.length ∧ _
      have hold := hi.wq_valid k hk
      rw [hm] at hold
      by_cases hkt : k = s.consumed % MAX_NUM_WQ
      · subst hkt
        simp only [update_self, Bool.false_eq_true, false_iff]
        rintro ⟨i, hlo, hhi, hmod⟩
        exact place_ne hlo (by omega) hmod.symm
      · rw [update_of_ne hkt, hold]
        constructor
        · rintro ⟨i, hlo, hhi, hmod⟩
          refine ⟨i, ?_, hhi, hmod⟩
          rcases Nat.lt_or_eq_of_le hlo with h | rfl
          · exact h
          · exact absurd hmod.symm hkt
        · rintro ⟨i, hlo, hhi, hmod⟩
          exact ⟨i, by omega, hhi, hmod⟩
    wq_held := by
      intro i p hlo hget
      have hhi : i < s.posted.length := (List.getElem?_eq_some_iff.mp hget).1
      have hlo : s.consumed < i := hlo
      have hne : i % MAX_NUM_WQ ≠ s.consumed % MAX_NUM_WQ := (place_ne hlo (by omega)).symm
      show update _ _ _ _ = _
      rw [update_of_ne hne]
      exact hi.wq_held i p (le_of_lt hlo) hget
    cq_held := fun i hlo => hi.cq_held i (le_of_lt hlo)
    app := by
      show s.consumed % MAX_NUM_WQ = s.handled.length % MAX_NUM_WQ
      rw [hhandled]
    daemon := hi.daemon }

theorem handler_inv (hi : s.Inv) {check : Bool} {tid : ℕ} (happ : s.app = .handler check tid)
    (h : s.appStep = some s') : s'.Inv := by
  have hm : s.marked = s.posted.length := by simp [marked, happ]
  have hh : s.handled.length + 1 = s.consumed := by
    have := hi.handled_eq_consumed
    rwa [handledUpTo, happ] at this
  obtain rfl : tid = s.handled.length % MAX_NUM_WQ := by
    have := hi.app
    rwa [happ] at this
  unfold appStep at h
  rw [happ] at h
  cases h
  have hlt : s.handled.length < s.posted.length := by
    have := hi.consumed_le
    have := hi.completed_le
    have := hi.executed_le
    omega
  exact { hi with
    handled_eq_consumed := by
      show (s.handled ++ [_]).length = s.consumed
      simpa using hh
    wq_valid := by
      have := hi.wq_valid
      rw [hm] at this
      exact this
    handled_eq := by
      have hget := getElem?_eq_getElem hlt
      have hslot := hi.slots _ _ hget
      show s.handled ++ [_] = (s.posted.take (s.handled ++ [_]).length).map Prod.fst
      rw [length_append, length_singleton, take_add_one, hget, map_append,
        ← hi.handled_eq, ← hslot]
      rfl
    app := trivial
    daemon := hi.daemon }

/-! ### The application posts -/

theorem copy_SR {e old : WqEntry} {f : WqField} (hf : f ≠ .SR) : (e.copy old f).SR = old.SR := by
  cases f with
  | SR => exact absurd rfl hf
  | _ => rfl

theorem copy_valid {e old : WqEntry} {f : WqField} (hf : f ≠ .valid) :
    (e.copy old f).valid = old.valid := by
  cases f with
  | valid => exact absurd rfl hf
  | _ => rfl

theorem copyAll_take_succ {e old : WqEntry} {fields : List WqField} {k : ℕ} {f : WqField}
    (hf : fields[k]? = some f) :
    e.copy (e.copyAll old (fields.take k)) f = e.copyAll old (fields.take (k + 1)) := by
  rw [take_add_one, hf, WqEntry.copyAll, WqEntry.copyAll, foldl_append]
  rfl

theorem storeOrder_cases {k : ℕ} {f : WqField} (hf : RmcWq.storeOrder[k]? = some f) :
    k = 8 ∧ f = .SR ∨ k = 7 ∧ f = .valid ∨ k < 7 ∧ f ≠ .SR ∧ f ≠ .valid := by
  have hall : ∀ k < 9, k = 8 ∧ RmcWq.storeOrder[k]? = some .SR ∨
      k = 7 ∧ RmcWq.storeOrder[k]? = some .valid ∨
        k < 7 ∧ RmcWq.storeOrder[k]? ≠ some .SR ∧ RmcWq.storeOrder[k]? ≠ some .valid := by decide
  have hk := hall k (List.getElem?_eq_some_iff.mp hf).1
  rw [hf] at hk
  simpa using hk

theorem marked_of_lt {k : ℕ} {e : WqEntry} (happ : s.app = .post k e) (hk : k ≠ 8) :
    s.marked = s.posted.length := by
  unfold marked
  rw [happ]
  split
  · rename_i heq
    exact absurd (AppPc.post.inj heq).1 hk
  · rfl

theorem post_inv (hi : s.Inv) {e : WqEntry} (hvalid : e.valid = true) (hop : e.OneSided)
    (hSR : e.SR = s.wq.SR) (h : s.post e = some s') : s'.Inv := by
  unfold post at h
  split at h
  case h_2 => cases h
  case h_1 happ =>
    obtain ⟨hchecked, rfl⟩ := Option.ite_some_none_eq_some.mp h
    have hm : s.marked = s.posted.length := by simp [marked, happ]
    have hh : s.handledUpTo = s.handled.length := by simp [handledUpTo, happ]
    exact { hi with
      handled_eq_consumed := hh.symm.trans hi.handled_eq_consumed
      checked := fun h => by cases h
      wq_valid := by
        have := hi.wq_valid
        rw [hm] at this
        exact this
      app := ⟨by decide, rfl, hi.checked hchecked, hvalid, hop, hSR.trans hi.wq_sense, _, rfl⟩
      daemon := hi.daemon }

theorem Inv.held_update (hi : s.Inv) (hroom : s.posted.length < s.consumed + MAX_NUM_WQ)
    (e : WqEntry) {i : ℕ} {p : ℕ × WqEntry} (hlo : s.consumed ≤ i) (hget : s.posted[i]? = some p) :
    Function.update s.wq.q (s.posted.length % MAX_NUM_WQ) e (i % MAX_NUM_WQ) = p.2 := by
  have hhi : i < s.posted.length := (List.getElem?_eq_some_iff.mp hget).1
  rw [update_of_ne (place_ne hhi (by omega))]
  exact hi.wq_held i p hlo hget

/-- **A field of an entry is stored**, but for the last one. -/
theorem store_field_inv (hi : s.Inv) {k : ℕ} {e : WqEntry} (happ : s.app = .post k e) {f : WqField}
    (hf : RmcWq.storeOrder[k]? = some f) (hk : k < 8) : (s.store k e f).Inv := by
  obtain ⟨-, hchecked, hroom, hvalid, hop, hSR, old, hentry⟩ :
      s.AppOk (.post k e) := happ ▸ hi.app
  have hm : s.marked = s.posted.length := marked_of_lt happ (by omega)
  have hh : s.handledUpTo = s.handled.length := by simp [handledUpTo, happ]
  have hhead : s.wq.head = s.posted.length % MAX_NUM_WQ := hi.wq_head
  have hmore : k + 1 < RmcWq.storeOrder.length := Nat.succ_lt_succ hk
  have hfSR : f ≠ .SR := by
    rcases storeOrder_cases hf with ⟨rfl, -⟩ | ⟨-, rfl⟩ | ⟨-, h, -⟩
    · omega
    · decide
    · exact h
  simp only [store, RmcWq.set, hmore, if_true, hhead]
  exact { hi with
    handled_eq_consumed := hh.symm.trans hi.handled_eq_consumed
    wq_head := rfl
    wq_bits := by
      intro j hj
      by_cases hjh : j = s.posted.length % MAX_NUM_WQ
      · subst hjh
        simpa [copy_SR hfSR] using hi.wq_bits _ hj
      · simpa [update_of_ne hjh] using hi.wq_bits j hj
    wq_valid := by
      intro j hj
      have hbefore := hi.wq_valid j hj
      rw [hm] at hbefore
      rcases storeOrder_cases hf with ⟨rfl, -⟩ | ⟨rfl, rfl⟩ | ⟨hk7, -, hfv⟩
      · omega
      · -- the store of the valid bit: the new entry counts from here on
        show (update s.wq.q _ _ j).valid = true ↔
          ∃ i, s.consumed ≤ i ∧ i < s.posted.length + 1 ∧ i % MAX_NUM_WQ = j
        by_cases hjh : j = s.posted.length % MAX_NUM_WQ
        · subst hjh
          rw [update_self]
          have hle : s.consumed ≤ s.posted.length := by
            have := hi.consumed_le
            have := hi.completed_le
            have := hi.executed_le
            omega
          exact ⟨fun _ => ⟨_, hle, Nat.lt_succ_self _, rfl⟩, fun _ => hvalid⟩
        · rw [update_of_ne hjh, hbefore]
          constructor
          · rintro ⟨i, hlo, hhi, hmod⟩
            exact ⟨i, hlo, Nat.lt_succ_of_lt hhi, hmod⟩
          · rintro ⟨i, hlo, hhi, hmod⟩
            rcases Nat.lt_succ_iff_lt_or_eq.mp hhi with h | rfl
            · exact ⟨i, hlo, h, hmod⟩
            · exact absurd hmod.symm hjh
      · rw [@marked_of_lt _ (k + 1) e rfl (by omega), ← hbefore]
        by_cases hjh : j = s.posted.length % MAX_NUM_WQ
        · subst hjh
          simp [copy_valid hfv]
        · simp [update_of_ne hjh]
    wq_held := fun i p hlo hget => hi.held_update hroom _ hlo hget
    app := by
      refine ⟨hmore, hchecked, hroom, hvalid, hop, hSR, old, ?_⟩
      show update s.wq.q _ _ _ = _
      rw [update_self, hentry]
      exact copyAll_take_succ hf
    daemon := hi.daemon }

/-- **The last field is stored**, and the entry is posted. -/
theorem store_last_inv (hi : s.Inv) {e : WqEntry} (happ : s.app = .post 8 e) :
    (s.store 8 e .SR).Inv := by
  obtain ⟨-, hchecked, hroom, hvalid, hop, hSR, old, hentry⟩ :
      s.AppOk (.post 8 e) := happ ▸ hi.app
  have hm : s.marked = s.posted.length + 1 := by simp [marked, happ]
  have hh : s.handledUpTo = s.handled.length := by simp [handledUpTo, happ]
  have hhead : s.wq.head = s.posted.length % MAX_NUM_WQ := hi.wq_head
  have hlast : ¬8 + 1 < RmcWq.storeOrder.length := by decide
  have hwhole : e.copy (s.wq.q (s.posted.length % MAX_NUM_WQ)) .SR = e := by
    rw [hentry]
    rfl
  have hlen : (s.posted ++ [(s.posted.length % MAX_NUM_WQ, e)]).length = s.posted.length + 1 := by
    simp
  have hle := hi.executed_le
  have hle' := hi.completed_le
  have hle'' := hi.consumed_le
  have hhandled := hh.symm.trans hi.handled_eq_consumed
  obtain ⟨hnext, hsense⟩ := cursor_succ (by decide) hi.wq_head hi.wq_sense
  simp only [store, RmcWq.set, hlast, if_false, hhead, hwhole, RmcWq.advance_head_eq]
  rw [hhead] at hnext hsense
  exact { hi with
    executed_le := by
      show s.executed.length ≤ (s.posted ++ [_]).length
      omega
    posted_le := by
      show (s.posted ++ [_]).length ≤ s.consumed + MAX_NUM_WQ
      omega
    handled_eq_consumed := hhandled
    checked := fun h => by
      have h : s.checked = true := h
      rw [hchecked] at h
      cases h
    wq_head := by
      rw [hlen]
      exact hnext
    wq_sense := by
      rw [hlen]
      exact hsense
    wq_bits := by
      intro j hj
      rw [hlen, shows_succ hj]
      by_cases hjh : j = s.posted.length % MAX_NUM_WQ
      · simp [hjh, hSR]
      · simpa [update_of_ne hjh, hjh] using hi.wq_bits j hj
    wq_valid := by
      intro j hj
      have hbefore := hi.wq_valid j hj
      rw [hm] at hbefore
      show (update s.wq.q _ _ j).valid = true ↔
        ∃ i, s.consumed ≤ i ∧
          i < (s.posted ++ [(s.posted.length % MAX_NUM_WQ, e)]).length ∧ i % MAX_NUM_WQ = j
      rw [hlen, ← hbefore]
      by_cases hjh : j = s.posted.length % MAX_NUM_WQ
      · -- the valid bit was stored before the sense bit
        subst hjh
        rw [update_self, hentry]
        rfl
      · rw [update_of_ne hjh]
    wq_held := by
      intro i p hlo hget
      rcases Nat.lt_trichotomy i s.posted.length with hlt | rfl | hgt
      · rw [getElem?_append_left hlt] at hget
        exact hi.held_update hroom e hlo hget
      · obtain rfl : (s.posted.length % MAX_NUM_WQ, e) = p := by simpa using hget
        exact update_self ..
      · have := Nat.lt_of_lt_of_eq (List.getElem?_eq_some_iff.mp hget).1 hlen
        omega
    slots := by
      intro i p hget
      rcases Nat.lt_trichotomy i s.posted.length with hlt | rfl | hgt
      · rw [getElem?_append_left hlt] at hget
        exact hi.slots i p hget
      · obtain rfl : (s.posted.length % MAX_NUM_WQ, e) = p := by simpa using hget
        rfl
      · have := Nat.lt_of_lt_of_eq (List.getElem?_eq_some_iff.mp hget).1 hlen
        omega
    oneSided := by
      intro p hp
      rcases mem_append.mp hp with h | h
      · exact hi.oneSided p h
      · rwa [mem_singleton.mp h]
    executed_eq := by
      show s.executed = ((s.posted ++ [_]).take s.executed.length).map _
      rw [take_append_of_le_length hle]
      exact hi.executed_eq
    handled_eq := by
      show s.handled = ((s.posted ++ [_]).take s.handled.length).map _
      rw [take_append_of_le_length (by omega)]
      exact hi.handled_eq
    app := trivial
    daemon := by
      have hok := hi.daemon
      show DaemonOk _ s.daemon
      cases hd : s.daemon with
      | load k got =>
        rw [hd] at hok
        obtain ⟨hx, hat, p, hget, hgot⟩ := hok
        have hlt : s.completed < s.posted.length := (List.getElem?_eq_some_iff.mp hget).1
        refine ⟨hx, hat, p, ?_, hgot⟩
        exact (getElem?_append_left hlt).trans hget
      | _ =>
        rw [hd] at hok
        exact hok }

/-! ### The daemon -/

theorem Inv.daemon_move (hi : s.Inv) {pc : DaemonPc} (hok : s.DaemonOk pc) :
    Inv { s with daemon := pc } :=
  { hi with app := hi.app, daemon := hok }

theorem Inv.curr_eq (hi : s.Inv) (hat : s.TailAt s.completed) {p : ℕ × WqEntry}
    (hget : s.posted[s.completed]? = some p) : s.curr = p.2 := by
  rw [curr, hat.1]
  exact hi.wq_held _ p hi.consumed_le hget

theorem poll_inv (hi : s.Inv) (hd : s.daemon = .poll) : s.daemonStep.Inv := by
  obtain ⟨hx, hat⟩ : s.DaemonOk .poll := hd ▸ hi.daemon
  have hle := hi.executed_le
  have hiff := hi.found_iff hat hi.consumed_le (by omega)
  unfold daemonStep
  rw [hd]
  dsimp only
  split
  · rename_i hfound
    have hget := getElem?_eq_getElem (hiff.mp hfound)
    exact hi.daemon_move ⟨hx, hat, _, hget, .zero, rfl⟩
  · exact hi

theorem copyAll_loadOrder (e old : WqEntry) :
    (e.copyAll old RmcWq.loadOrder).remote = e.remote := rfl

theorem execute_inv (hi : s.Inv) {k : ℕ} {got : WqEntry} (hd : s.daemon = .load k got)
    (hk : RmcWq.loadOrder[k]? = none) : (s.execute got).Inv := by
  obtain ⟨hx, hat, p, hget, old, hgot⟩ : s.DaemonOk (.load k got) := hd ▸ hi.daemon
  have hlt : s.completed < s.posted.length := (List.getElem?_eq_some_iff.mp hget).1
  rw [take_of_length_le (getElem?_eq_none_iff.mp hk)] at hgot
  have hremote : got.remote = p.2.remote := by rw [hgot, copyAll_loadOrder]
  have hop : got.OneSided := by
    have hp := hi.oneSided p (mem_of_getElem? hget)
    have : got.op = p.2.op := congrArg RemoteOp.op hremote
    rwa [WqEntry.OneSided, this]
  have hlen : (s.executed ++ [got.remote]).length = s.executed.length + 1 := by simp
  simp only [execute, hop, if_true]
  exact { hi with
    completed_le := by
      rw [hlen]
      exact Nat.le_succ_of_le hi.completed_le
    executed_le := by
      rw [hlen, hx]
      exact hlt
    executed_eq := by
      rw [hlen, take_add_one, hx, hget, map_append, ← hx, ← hi.executed_eq, hremote]
      rfl
    app := hi.app
    daemon := ⟨hlen.trans (by rw [hx]), hat⟩ }

theorem load_inv (hi : s.Inv) {k : ℕ} {got : WqEntry} (hd : s.daemon = .load k got) :
    s.daemonStep.Inv := by
  obtain ⟨hx, hat, p, hget, old, hgot⟩ : s.DaemonOk (.load k got) := hd ▸ hi.daemon
  unfold daemonStep
  rw [hd]
  dsimp only
  split
  · rename_i f hf
    have hload : s.curr.copy got f = p.2.copyAll old (RmcWq.loadOrder.take (k + 1)) := by
      rw [hi.curr_eq hat hget, hgot]
      exact copyAll_take_succ hf
    exact hi.daemon_move ⟨hx, hat, p, hget, old, hload⟩
  · rename_i hf
    exact execute_inv hi hd hf

theorem notify_inv (hi : s.Inv) (hd : s.daemon = .notify) : s.daemonStep.Inv := by
  obtain ⟨hx, hat⟩ : s.DaemonOk .notify := hd ▸ hi.daemon
  have hle := hi.executed_le
  have hget := getElem?_eq_getElem (by omega : s.completed < s.posted.length)
  have hop : s.curr.OneSided := by
    rw [hi.curr_eq hat hget]
    exact hi.oneSided _ (mem_of_getElem? hget)
  have hcursor := cursor_succ (by decide) hat.1 hat.2
  unfold daemonStep
  rw [hd]
  dsimp only
  rw [if_pos hop, advance_wq_tail_eq]
  exact { hi with
    app := hi.app
    daemon := ⟨hx, hcursor, hat.1⟩ }

theorem Inv.cq_held_update (hi : s.Inv) (hx : s.executed.length = s.completed + 1) (e : CqEntry)
    {i : ℕ} (hlo : s.consumed ≤ i) (hhi : i < s.completed) :
    (Function.update s.cq.q (s.completed % MAX_NUM_WQ) e (i % MAX_NUM_WQ)).tid =
      i % MAX_NUM_WQ := by
  have hle := hi.executed_le
  have hround := hi.posted_le
  rw [update_of_ne (place_ne hhi (by omega))]
  exact hi.cq_held i hlo hhi

theorem store_tid_inv (hi : s.Inv) {idx : ℕ} (hd : s.daemon = .store_tid idx) :
    s.daemonStep.Inv := by
  obtain ⟨hx, hat, hidx⟩ : s.DaemonOk (.store_tid idx) := hd ▸ hi.daemon
  have hhead : s.local_cq_head = s.completed % MAX_NUM_WQ := hi.cq_head
  unfold daemonStep
  rw [hd]
  dsimp only [setCq]
  rw [hhead]
  exact { hi with
    cq_head := rfl
    cq_bits := by
      intro j hj
      by_cases hjh : j = s.completed % MAX_NUM_WQ
      · subst hjh
        simpa using hi.cq_bits _ hj
      · simpa [update_of_ne hjh] using hi.cq_bits j hj
    cq_held := fun i hlo hhi => hi.cq_held_update hx _ hlo hhi
    app := hi.app
    daemon := by
      refine ⟨hx, hat, ?_⟩
      show (update s.cq.q _ _ _).tid = _
      rw [update_self]
      exact hidx }

theorem store_SR_inv (hi : s.Inv) (hd : s.daemon = .store_SR) : s.daemonStep.Inv := by
  obtain ⟨hx, hat, htid⟩ : s.DaemonOk .store_SR := hd ▸ hi.daemon
  have hhead : s.local_cq_head = s.completed % MAX_NUM_WQ := hi.cq_head
  obtain ⟨hnext, hsense⟩ := cursor_succ (by decide) hi.cq_head hi.cq_head_sense
  unfold daemonStep
  rw [hd]
  dsimp only [setCq]
  rw [advance_cq_head_eq]
  dsimp only
  rw [hhead] at hnext hsense ⊢
  exact { hi with
    consumed_le := Nat.le_succ_of_le hi.consumed_le
    completed_le := le_of_eq hx.symm
    cq_head := hnext
    cq_head_sense := hsense
    cq_bits := by
      intro j hj
      show (update s.cq.q _ _ j).SR = shows MAX_NUM_WQ (s.completed + 1) j
      rw [shows_succ hj]
      by_cases hjh : j = s.completed % MAX_NUM_WQ
      · simp [hjh, hi.cq_head_sense]
      · simpa [update_of_ne hjh, hjh] using hi.cq_bits j hj
    cq_held := by
      intro i hlo hhi
      show (update s.cq.q _ _ _).tid = _
      rcases Nat.lt_succ_iff_lt_or_eq.mp hhi with h | rfl
      · exact hi.cq_held_update hx _ hlo h
      · rw [update_self]
        exact htid
    app := by
      have hok := hi.app
      show AppOk _ s.app
      cases happ : s.app with
      | load_tid check =>
        rw [happ] at hok
        exact Nat.lt_succ_of_lt hok
      | clear_valid check tid =>
        rw [happ] at hok
        exact ⟨Nat.lt_succ_of_lt hok.1, hok.2⟩
      | _ =>
        rw [happ] at hok
        exact hok
    daemon := ⟨hx, hat⟩ }

/-! ### Steps and runs -/

theorem app_inv (hi : s.Inv) (h : s.appStep = some s') : s'.Inv := by
  cases happ : s.app with
  | idle => simp [appStep, happ] at h
  | load_SR check => exact load_SR_inv hi happ h
  | load_tid check => exact load_tid_inv hi happ h
  | clear_valid check tid =>
    unfold appStep at h
    rw [happ] at h
    cases h
    exact clear_inv hi happ
  | handler check tid => exact handler_inv hi happ h
  | load_valid => exact load_valid_inv hi happ h
  | post k e =>
    unfold appStep at h
    rw [happ] at h
    obtain ⟨f, hf, rfl⟩ := Option.map_eq_some_iff.mp h
    rcases storeOrder_cases hf with ⟨rfl, rfl⟩ | ⟨rfl, -⟩ | ⟨hk, -⟩
    · exact store_last_inv hi happ
    · exact store_field_inv hi happ hf (by decide)
    · exact store_field_inv hi happ hf (by omega)

theorem daemon_inv (hi : s.Inv) : s.daemonStep.Inv := by
  cases hd : s.daemon with
  | poll => exact poll_inv hi hd
  | load k got => exact load_inv hi hd
  | notify => exact notify_inv hi hd
  | store_tid idx => exact store_tid_inv hi hd
  | store_SR => exact store_SR_inv hi hd

theorem call_inv (hi : s.Inv) {check : Bool} (h : s.call (.load_SR check) = some s') : s'.Inv := by
  unfold call at h
  split at h
  case h_2 => cases h
  case h_1 happ =>
    cases h
    exact hi.move trivial (by simp [marked, happ]) (by simp [handledUpTo, happ])

theorem next_inv (hi : s.Inv) (h : s.next l = some s') : s'.Inv := by
  cases l with
  | rmc_check_cq => exact call_inv hi h
  | rmc_drain_cq => exact call_inv hi h
  | rmc_rread_async base off snid cid coff len => exact post_inv hi rfl (.inl rfl) rfl h
  | rmc_rwrite_async base off snid cid coff len => exact post_inv hi rfl (.inr rfl) rfl h
  | app => exact app_inv hi h
  | daemon =>
    cases h
    exact daemon_inv hi

theorem reachable_inv (h : system.Reachable s) : s.Inv :=
  Transition.System.Reachable.invariant Inv init_inv (fun _ _ _ hi h => next_inv hi h) h

/-! ### The daemon gets on -/

/-- How far the daemon is with one entry. -/
def rank : DaemonPc → ℕ
  | .poll => 0
  | .load k _ => 1 + min k 5
  | .notify => 7
  | .store_tid _ => 8
  | .store_SR => 9

/-- The steps that the daemon has before it. -/
def left (s : QueuePair) : ℕ := 10 * (s.posted.length - s.completed) - rank s.daemon

theorem daemonStep_posted (s : QueuePair) : s.daemonStep.posted = s.posted := by
  unfold daemonStep
  split
  · split <;> rfl
  · split <;> rfl
  · split
    · rw [advance_wq_tail_eq]
    · rfl
  · rfl
  · rw [advance_cq_head_eq]
    rfl

/-- **The daemon comes nearer to the end** of what was posted with each step. -/
theorem daemonStep_left (hi : s.Inv) (hlt : s.completed < s.posted.length) :
    s.daemonStep.left < s.left := by
  have hpos : 0 < s.posted.length - s.completed := by omega
  unfold left
  rw [daemonStep_posted]
  cases hd : s.daemon with
  | poll =>
    have hat : s.TailAt s.completed := (show s.DaemonOk .poll from hd ▸ hi.daemon).2
    have hfound := (hi.found_iff hat hi.consumed_le (le_of_lt hlt)).mpr hlt
    simp only [daemonStep, hd, hfound, if_true, rank]
    omega
  | load k got =>
    unfold daemonStep
    rw [hd]
    dsimp only
    split
    · rename_i f hf
      have hk : k < 5 := (List.getElem?_eq_some_iff.mp hf).1
      simp only [rank]
      omega
    · rename_i hf
      have hk : 5 ≤ k := getElem?_eq_none_iff.mp hf
      simp only [execute, rank]
      omega
  | notify =>
    have hat : s.TailAt s.completed := (show s.DaemonOk .notify from hd ▸ hi.daemon).2
    have hget := getElem?_eq_getElem hlt
    have hop : s.curr.OneSided := by
      rw [hi.curr_eq hat hget]
      exact hi.oneSided _ (mem_of_getElem? hget)
    simp only [daemonStep, hd, hop, if_true, advance_wq_tail_eq, rank]
    omega
  | store_tid idx =>
    simp only [daemonStep, hd, setCq, rank]
    omega
  | store_SR =>
    simp only [daemonStep, hd, setCq, advance_cq_head_eq, rank]
    omega

theorem daemon_finishes (hi : s.Inv) :
    ∃ n, (daemonStep^[n] s).executed = (s.posted.map fun p => p.2.remote) ∧
      (daemonStep^[n] s).completed = s.posted.length := by
  induction hn : s.left using Nat.strongRecOn generalizing s with
  | ind n ih =>
    have hle := hi.completed_le
    have hle' := hi.executed_le
    by_cases hlt : s.completed < s.posted.length
    · obtain ⟨m, hm⟩ := ih _ (hn ▸ daemonStep_left hi hlt) (daemon_inv hi) rfl
      rw [daemonStep_posted] at hm
      exact ⟨m + 1, hm⟩
    · have hall : s.executed.length = s.posted.length := by omega
      have hexec := hi.executed_eq
      rw [hall, take_length] at hexec
      exact ⟨0, hexec, show s.completed = s.posted.length by omega⟩

/-! ### The application gets on -/

theorem Inv.run {t : QueuePair} {ls : List Label} (hi : s.Inv) (h : system.run s ls = some t) :
    t.Inv :=
  Transition.System.invariant_under Inv (fun _ _ _ hi _ h => next_inv hi h) hi
    (Transition.System.always_true s ls) h

theorem Inv.drains (hi : s.Inv) (happ : s.app = .load_SR false)
    (htold : s.completed = s.posted.length) : ∃ k t,
      system.run s (replicate k .app) = some t ∧ t.app = .idle ∧
        t.handled = s.posted.map Prod.fst := by
  induction hn : s.posted.length - s.consumed generalizing s with
  | zero =>
    have hall : s.handled.length = s.posted.length := by
      have hle := hi.consumed_le
      have hup := hi.handled_eq_consumed
      rw [handledUpTo, happ] at hup
      simp only at hup
      omega
    have hnone : s.cq.arrived = false := by
      rw [← Bool.not_eq_true, hi.arrived_iff]
      omega
    refine ⟨1, { s with app := .idle }, ?_, rfl, ?_⟩
    · simp [system, Transition.System.run, next, appStep, happ, hnone]
    · have hhandled := hi.handled_eq
      rwa [hall, take_length] at hhandled
  | succ n ih =>
    have harrived : s.cq.arrived = true := hi.arrived_iff.mpr (by omega)
    let tid := (s.cq.q s.cq.tail).tid
    let t : QueuePair := { s.clear false tid with
      app := .load_SR false, handled := s.handled ++ [tid] }
    have hrun : system.run s (replicate 4 .app) = some t := by
      simp [replicate, system, Transition.System.run, next, appStep, happ, harrived, clear, t,
        tid]
    obtain ⟨k, u, hu, hidle, hhandled⟩ := ih (hi.run hrun) rfl htold
      (show s.posted.length - (s.consumed + 1) = n by omega)
    refine ⟨4 + k, u, ?_, hidle, hhandled⟩
    rw [replicate_add]
    exact Transition.System.run_append.mpr ⟨t, hrun, hu⟩

/-! ### The law -/

/-- What the two queues are for. -/
structure Correct (s : QueuePair) : Prop where
  /-- The entries are executed in the order in which they were posted, each once, by the parameters
      with which they were posted. -/
  executed : s.executed <+: s.posted.map fun p => p.2.remote
  /-- The handler is called in this order, with the places in the work queue. -/
  handled : s.handled <+: s.posted.map Prod.fst
  /-- It has been called for each completion that was consumed, or the call comes next. -/
  handled_consumed : s.handledUpTo = s.consumed
  /-- An entry is executed before its completion is stored, and a completion stored before it is
      consumed. -/
  consumed_le : s.consumed ≤ s.completed
  completed_le : s.completed ≤ s.executed.length
  /-- No field of a valid entry is stored over; the sense bit of the new entry is stored when its
      own valid bit is set. -/
  wq_free : ∀ k e, s.app = .post k e → k < 8 → (s.wq.q s.wq.head).valid = false
  /-- An entry that is not consumed is as it was posted. -/
  wq_held : ∀ i p, s.consumed ≤ i → s.posted[i]? = some p → s.wq.q p.1 = p.2
  /-- A completion is stored at the place of one that was consumed. -/
  cq_free : s.daemon ≠ .poll → ∀ i, s.consumed ≤ i → i < s.completed →
    s.local_cq_head ≠ i % MAX_NUM_WQ
  /-- A completion that is not consumed names its entry. -/
  cq_held : ∀ i p, s.consumed ≤ i → i < s.completed → s.posted[i]? = some p →
    (s.cq.q (i % MAX_NUM_WQ)).tid = p.1
  /-- The daemon finds an entry exactly when one is left. -/
  daemon_finds : s.daemon = .poll → (s.found = true ↔ s.executed.length < s.posted.length)
  /-- The application finds a completion exactly when one is left. -/
  app_finds : s.cq.arrived = true ↔ s.consumed < s.completed

theorem Inv.correct (hi : s.Inv) : s.Correct where
  executed := by
    rw [hi.executed_eq]
    exact List.IsPrefix.map _ <| take_prefix _ _
  handled := by
    rw [hi.handled_eq]
    exact List.IsPrefix.map _ <| take_prefix _ _
  handled_consumed := hi.handled_eq_consumed
  consumed_le := hi.consumed_le
  completed_le := hi.completed_le
  wq_free k e happ hk := by
    obtain ⟨-, -, hroom, -⟩ : s.AppOk (.post k e) := happ ▸ hi.app
    have hiff := hi.head_valid_iff (marked_of_lt happ (ne_of_lt hk))
    cases hvalid : (s.wq.q s.wq.head).valid with
    | false => rfl
    | true => exact absurd (hiff.mp hvalid) (Nat.not_le_of_lt hroom)
  wq_held i p hlo hget := by
    rw [hi.slots i p hget]
    exact hi.wq_held i p hlo hget
  cq_free hbusy i hlo hhi := by
    -- an entry that the daemon works on is outstanding, so less than a round is told
    have hroom : s.completed < s.posted.length := by
      have hok := hi.daemon
      have hle := hi.executed_le
      cases hd : s.daemon with
      | poll => exact absurd hd hbusy
      | load k got =>
        rw [hd] at hok
        obtain ⟨-, -, p, hget, -⟩ := hok
        exact (List.getElem?_eq_some_iff.mp hget).1
      | _ =>
        rw [hd] at hok
        have := hok.1
        omega
    have hround := hi.posted_le
    rw [hi.cq_head]
    exact (place_ne hhi (by omega)).symm
  cq_held i p hlo hhi hget := by
    rw [hi.slots i p hget]
    exact hi.cq_held i hlo hhi
  daemon_finds hd := by
    obtain ⟨hx, hat⟩ : s.DaemonOk .poll := hd ▸ hi.daemon
    have hle := hi.executed_le
    rw [hx]
    exact hi.found_iff hat hi.consumed_le (by omega)
  app_finds := hi.arrived_iff

/-- **Queue pairs are correct** in every state that any interleaving reaches: the daemon executes
    everything that was posted and tells of it, and then the application drains it all. -/
theorem queue_pair_correct (h : system.Reachable s) :
    s.Correct ∧
    (∃ n, (daemonStep^[n] s).executed = (s.posted.map fun p => p.2.remote) ∧
      (daemonStep^[n] s).completed = s.posted.length) ∧
    (s.app = .idle → s.completed = s.posted.length → ∃ k t,
      system.run s (.rmc_drain_cq :: replicate k .app) = some t ∧ t.app = .idle ∧
        t.handled = s.posted.map Prod.fst) := by
  have hi := reachable_inv h
  refine ⟨hi.correct, daemon_finishes hi, fun hidle htold => ?_⟩
  have hcall : s.next .rmc_drain_cq = some { s with app := .load_SR false } := by
    simp [next, call, hidle]
  obtain ⟨k, t, hrun, ht⟩ := (next_inv hi hcall).drains rfl htold
  exact ⟨k, t, Transition.System.run_cons.mpr ⟨_, hcall, hrun⟩, ht⟩

/-- A read: the check, the stores of the entry, the work of the daemon, and the drain. -/
def readOne : List Label :=
  [.rmc_check_cq, .app, .app, .rmc_rread_async 4096 64 1 0 128 8] ++ replicate 9 .app ++
    replicate 10 .daemon ++ [.rmc_drain_cq] ++ replicate 5 .app

/-- Sixty-six reads in two rings of sixty-four entries. -/
theorem queue_pair_reads : ∃ s, system.Reachable s ∧
    s.handled = (range 66).map (· % MAX_NUM_WQ) ∧ s.Correct := by
  let ls : List Label := (replicate 66 readOne).flatten
  have hend : (system.run init ls).map (fun s => s.handled) =
      some ((range 66).map (· % MAX_NUM_WQ)) := by decide +kernel
  obtain ⟨s, hrun, hhandled⟩ := Option.map_eq_some_iff.mp hend
  have hs : system.Reachable s := ⟨ls, hrun⟩
  exact ⟨s, hs, hhandled, (queue_pair_correct hs).1⟩

end QueuePair

end Sonuma
