import AdvCompArch.Grappa.InplaceInvariant

/-! # When an in-place reduction is correct

    The totals are the right ones whenever they are sent.  They are sent if the pool on the
    stack of the home core has room for their messages, and its size is that of one message
    for each other core. -/

namespace Grappa

open Chunks Totals Transition Option

namespace InplaceConfig

variable {T : Type} (cfg : InplaceConfig T)

theorem nmsg_le_one (hn : cfg.n_per_msg ≠ 0) : cfg.nmsg ≤ 1 ↔ cfg.nelem ≤ cfg.n_per_msg := by
  have hdm := Nat.div_add_mod cfg.nelem cfg.n_per_msg
  have hlt := Nat.mod_lt cfg.nelem (Nat.pos_of_ne_zero hn)
  unfold nmsg
  constructor
  · intro h
    by_cases hmod : cfg.nelem % cfg.n_per_msg = 0
    · rw [if_neg (by simpa using hmod)] at h
      have hmul : cfg.n_per_msg * (cfg.nelem / cfg.n_per_msg) ≤ cfg.n_per_msg * 1 :=
        Nat.mul_le_mul_left _ h
      omega
    · rw [if_pos hmod] at h
      have hdiv : cfg.nelem / cfg.n_per_msg = 0 := Nat.le_zero.mp (Nat.le_of_succ_le_succ h)
      rw [hdiv, Nat.mul_zero] at hdm
      omega
  · intro h
    rcases Nat.lt_or_ge cfg.nelem cfg.n_per_msg with hlt | hge
    · rw [Nat.div_eq_of_lt hlt]
      split <;> omega
    · have heq : cfg.nelem = cfg.n_per_msg := by omega
      rw [heq, Nat.mod_self, Nat.div_self (by omega)]
      simp

theorem poolAfter_isSome (hn : cfg.n_per_msg ≠ 0) :
    cfg.poolAfter.isSome ↔ cfg.others = 0 ∨ cfg.nelem ≤ cfg.n_per_msg := by
  have hsizes : payloadMessageSize CAPTURES_SIZE = 128 ∧ payloadMessageSize STD_FUNCTION_SIZE = 128 := by
    decide
  rw [poolAfter, PoolAllocator.allocateAll_isSome _ (Nat.zero_le _), ← cfg.nmsg_le_one hn,
    InplaceRun.length_pieces hn, InplaceRun.length_peers]
  simp only [pool, hsizes.1, hsizes.2]
  rw [zero_add, Nat.mul_le_mul_right_iff (by decide)]
  rcases Nat.eq_zero_or_pos cfg.others with h0 | hpos
  · simp [h0]
  · have hcores : cfg.cores - 1 = cfg.others * 1 := by simp
    rw [hcores, Nat.mul_le_mul_left_iff hpos]
    omega

end InplaceConfig

namespace InplaceRun

variable {T : Type} {cfg : InplaceConfig T}

/-! ### Runs -/

theorem next_eq_some {s s' : InplaceRun cfg.cores T} {l : Label cfg.cores}
    (h : s.next l = some s') : s.aborted = false ∧ s.step l = some s' := by
  unfold next at h
  split at h
  · cases h
  · rename_i hab
    exact ⟨by simpa using hab, h⟩

theorem next_inv (hn : cfg.n_per_msg ≠ 0) {s s' : InplaceRun cfg.cores T} {l : Label cfg.cores}
    (hi : s.Inv) (h : s.next l = some s') : s'.Inv := by
  obtain ⟨-, h⟩ := next_eq_some h
  cases l with
  | enter c =>
    obtain ⟨hc, rfl⟩ := ite_some_none_eq_some.mp h
    exact enter_inv hi hn hc
  | leave c =>
    obtain ⟨⟨hc, hgate⟩, rfl⟩ := ite_some_none_eq_some.mp h
    exact leave_inv hi hc hgate
  | wake c =>
    obtain ⟨⟨hc, hzero⟩, rfl⟩ := ite_some_none_eq_some.mp h
    by_cases hh : c = cfg.HOME_CORE
    · subst hh
      exact wake_home_inv hi hn hc hzero
    · exact wake_peer_inv hi hh hc hzero
  | send i =>
    obtain ⟨m, hm, rfl⟩ := map_eq_some_iff.mp h
    exact send_inv hi hm
  | deliver i =>
    obtain ⟨⟨m, data⟩, hm, rfl⟩ := map_eq_some_iff.mp h
    cases m with
    | contribution c k n => exact deliver_contribution_inv hi hm
    | totals c k n => exact deliver_totals_inv hi hm
  | finish =>
    obtain ⟨⟨hh, -⟩, rfl⟩ := ite_some_none_eq_some.mp h
    exact finish_inv hi hh

theorem run_inv (hn : cfg.n_per_msg ≠ 0) {ls : List (Label cfg.cores)}
    {s : InplaceRun cfg.cores T} (hrun : (system cfg).run (init cfg) ls = some s) : s.Inv :=
  System.invariant_under Inv (fun _ _ _ hi _ h => next_inv hn hi h) (init_inv hn)
    (System.always_true _ _) hrun

section Results

variable [Std.Associative cfg.ReduceOp] [Std.Commutative cfg.ReduceOp] {s : InplaceRun cfg.cores T}

/-- The element-wise total of all arrays. -/
def fold (cfg : InplaceConfig T) (j : ℕ) : Option T := totalOf cfg j (List.finRange cfg.cores)

theorem home_total (hi : s.Inv) (hafter : s.After) {j : ℕ} (hj : j < cfg.nelem) :
    some (s.array cfg.HOME_CORE j) = fold cfg j := by
  obtain ⟨arrived, hsum, hperm⟩ := hi.sums j hj
  rw [hi.collected hafter] at hperm
  have hall : (cfg.HOME_CORE :: arrived).Perm (List.finRange cfg.cores) := by
    rw [← home_cons_peers]
    exact (by simpa [covering] using hperm : arrived.Perm cfg.peers).cons _
  rw [hsum]
  exact total_perm _ (hall.map _)

theorem done_total (hi : s.Inv) (hn : cfg.n_per_msg ≠ 0) {c : Fin cfg.cores}
    (hc : s.phase c = .done) {j : ℕ} (hj : j < cfg.nelem) : some (s.array c j) = fold cfg j := by
  by_cases hh : c = cfg.HOME_CORE
  · subst hh
    exact home_total hi (.inr hc) hj
  · -- its count is 0, so it got all that it waits for
    have hcount := hi.peerCount c hh (by simp [hc])
    rw [hi.returned c hh hc] at hcount
    have hpos : 0 < cfg.nmsg := by
      obtain ⟨p, hp⟩ := filter_chunks (n := cfg.n_per_msg) (by omega) (Nat.zero_le j) hj
      rw [← length_pieces hn]
      apply List.length_pos_of_mem (a := p)
      apply List.mem_of_mem_filter (p := covers j)
      rw [InplaceConfig.pieces, hp]
      exact List.mem_singleton_self p
    have hafter : s.After := by
      by_contra hnot
      rw [if_neg hnot] at hcount
      omega
    rw [if_pos hafter] at hcount
    have hnil : s.totalsTo c = [] := List.length_eq_zero_iff.mp (by omega)
    rcases hi.copied hafter c hh j hj with ⟨p, hp, -⟩ | heq
    · rw [hnil] at hp
      cases hp
    · rw [heq]
      exact home_total hi hafter hj

omit [Std.Associative cfg.ReduceOp] [Std.Commutative cfg.ReduceOp] in
/-- **Nobody waits for ever**: as long as a core has not returned, something can happen. -/
theorem progress (hi : s.Inv) (hab : s.aborted = false) {c : Fin cfg.cores}
    (hc : s.phase c ≠ .done) : ∃ l s', s.next l = some s' := by
  by_contra hstuck
  have hno : ∀ l, s.step l = none := by
    intro l
    rw [eq_none_iff_forall_ne_some]
    intro s' h
    exact hstuck ⟨l, s', by rw [next, hab]; exact h⟩
  have hstart : ∀ d, s.phase d ≠ .start := by
    intro d h
    have := hno (.enter d)
    simp [step, h] at this
  have hbarrier : ∀ d, s.phase d ≠ .barrier := by
    intro d h
    have := hno (.leave d)
    simp [step, h, hstart] at this
  have hqueued : s.queued = [] := by
    have := hno (.send 0)
    simpa [step] using this
  have hsent : s.sent = [] := by
    have := hno (.deliver 0)
    simpa [step] using this
  have hflight : s.inFlight = [] := by simp [inFlight, hqueued, hsent]
  have hcoming : s.coming = [] := by
    rw [coming, hflight, unsent_eq_nil fun d => by simp [Before, hstart d, hbarrier d]]
    rfl
  have hwait : ∀ d, s.phase d = .waiting → s.count d ≠ 0 := by
    intro d h hzero
    have := hno (.wake d)
    simp [step, h, hzero] at this
  -- the home core cannot wait, so it has queued the totals, and they have arrived
  have hhome : s.phase cfg.HOME_CORE = .done := by
    cases h : s.phase cfg.HOME_CORE with
    | start => exact absurd h (hstart _)
    | barrier => exact absurd h (hbarrier _)
    | waiting =>
      have hcount := hi.homeCount (hstart _)
      rw [hcoming] at hcount
      exact absurd hcount (hwait _ h)
    | sending =>
      have := hno .finish
      simp [step, h, hqueued] at this
    | done => rfl
  have hafter : s.After := .inr hhome
  have hne : c ≠ cfg.HOME_CORE := by
    rintro rfl
    exact hc hhome
  cases h : s.phase c with
  | start => exact hstart c h
  | barrier => exact hbarrier c h
  | waiting =>
    have hcount := hi.peerCount c hne (hstart c)
    rw [if_pos hafter, totalsTo, hflight] at hcount
    exact hwait c h hcount
  | sending => exact hi.peer c hne h
  | done => exact hc h

end Results

/-! ### Termination -/

/-- More than a core queues at once. -/
def unit (cfg : InplaceConfig T) : ℕ := 2 * (cfg.pieces.length + cfg.totalsMessages.length) + 1

/-- How many units a phase has yet to give. -/
def rank : CallPhase → ℕ
  | .start => 4
  | .barrier => 3
  | .waiting => 2
  | .sending => 1
  | .done => 0

@[simp] theorem rank_start : rank .start = 4 := rfl

@[simp] theorem rank_barrier : rank .barrier = 3 := rfl

@[simp] theorem rank_waiting : rank .waiting = 2 := rfl

@[simp] theorem rank_sending : rank .sending = 1 := rfl

@[simp] theorem rank_done : rank .done = 0 := rfl

def measure (s : InplaceRun cfg.cores T) : ℕ :=
  (∑ c, unit cfg * rank (s.phase c)) + 2 * s.queued.length + s.sent.length +
    if s.aborted then 0 else 1

theorem sum_rank_update (phase : Fin cfg.cores → CallPhase) (c : Fin cfg.cores) (p : CallPhase) :
    (∑ d, unit cfg * rank (Function.update phase c p d)) + unit cfg * rank (phase c) =
      (∑ d, unit cfg * rank (phase d)) + unit cfg * rank p := by
  have hsum := Census.sum_add_of_eq_off (Finset.mem_univ c)
    (g := fun d => unit cfg * rank (Function.update phase c p d))
    (f := fun d => unit cfg * rank (phase d)) fun d _ hd => by rw [Function.update_of_ne hd]
  rwa [Function.update_self] at hsum

theorem next_measure {s s' : InplaceRun cfg.cores T} {l : Label cfg.cores}
    (h : s.next l = some s') : s'.measure < s.measure := by
  obtain ⟨hab, h⟩ := next_eq_some h
  have hunit : 2 * (cfg.pieces.length + cfg.totalsMessages.length) < unit cfg := by
    unfold unit
    omega
  cases l with
  | enter c =>
    obtain ⟨hc, rfl⟩ := ite_some_none_eq_some.mp h
    unfold enter
    split
    · simp [measure, hab]
    · have hsum := sum_rank_update s.phase c .barrier
      simp only [hc, rank_start, rank_barrier] at hsum
      simp only [measure, setPhase, hab]
      omega
  | leave c =>
    obtain ⟨⟨hc, -⟩, rfl⟩ := ite_some_none_eq_some.mp h
    have hsum := sum_rank_update s.phase c .waiting
    simp only [hc, rank_barrier, rank_waiting] at hsum
    unfold leave
    by_cases hh : c = cfg.HOME_CORE
    · simp only [if_pos hh, measure, setPhase, hab, List.append_nil]
      omega
    · simp only [if_neg hh, measure, setPhase, hab, List.length_append, List.length_map]
      omega
  | wake c =>
    obtain ⟨⟨hc, -⟩, rfl⟩ := ite_some_none_eq_some.mp h
    unfold wake
    split
    · cases cfg.poolAfter with
      | none => simp [measure, hab]
      | some _ =>
        have hsum := sum_rank_update s.phase c .sending
        simp only [hc, rank_waiting, rank_sending] at hsum
        simp only [measure, setPhase, hab, List.length_append]
        omega
    · have hsum := sum_rank_update s.phase c .done
      simp only [hc, rank_waiting, rank_done] at hsum
      simp only [measure, setPhase, hab]
      omega
  | send i =>
    obtain ⟨m, hm, rfl⟩ := map_eq_some_iff.mp h
    obtain ⟨hlt, -⟩ := List.getElem?_eq_some_iff.mp hm
    simp only [measure, hab, List.length_eraseIdx_of_lt hlt, List.length_append, List.length_singleton]
    omega
  | deliver i =>
    obtain ⟨⟨m, data⟩, hm, rfl⟩ := map_eq_some_iff.mp h
    obtain ⟨hlt, -⟩ := List.getElem?_eq_some_iff.mp hm
    cases m <;>
      simp only [measure, handle, complete, setArray, hab, List.length_eraseIdx_of_lt hlt] <;> omega
  | finish =>
    obtain ⟨⟨hh, -⟩, rfl⟩ := ite_some_none_eq_some.mp h
    have hsum := sum_rank_update s.phase cfg.HOME_CORE .done
    simp only [hh, rank_sending, rank_done] at hsum
    simp only [measure, setPhase, hab]
    omega

/-! ### The law -/

/-- Every run of the call stays within its pool and does not get stuck, and a core that returns
    has the totals of all arrays. -/
structure Correct (cfg : InplaceConfig T) : Prop where
  within : ∀ ls s, (system cfg).run (init cfg) ls = some s → s.aborted = false
  result : ∀ ls s, (system cfg).run (init cfg) ls = some s → ∀ c, s.phase c = .done →
    ∀ j < cfg.nelem, some (s.array c j) = fold cfg j
  progress : ∀ ls s, (system cfg).run (init cfg) ls = some s → (∃ c, s.phase c ≠ .done) →
    ∃ l s', s.next l = some s'

/-- **An in-place reduction is correct** exactly when an element fits in a message and either the
    call is on one core or the whole array fits in one message. -/
theorem allreduce_inplace_correct_iff (cfg : InplaceConfig T) [Std.Associative cfg.ReduceOp]
    [Std.Commutative cfg.ReduceOp] :
    Correct cfg ↔ cfg.n_per_msg ≠ 0 ∧ (cfg.others = 0 ∨ cfg.nelem ≤ cfg.n_per_msg) := by
  constructor
  · intro h
    have hn : cfg.n_per_msg ≠ 0 := by
      intro hzero
      have henter : (system cfg).run (init cfg) [.enter cfg.HOME_CORE] =
          some { init cfg with aborted := true } := by
        simp [System.run, system, next, step, enter, init, hzero]
      have := h.within _ _ henter
      cases this
    refine ⟨hn, ?_⟩
    rw [← cfg.poolAfter_isSome hn]
    -- a run to the end cannot abort, so its home core has found room
    obtain ⟨ls, s, hrun, hi, hhalt⟩ := (system cfg).run_to_halt Inv measure
      (fun s l s' hi h => ⟨next_inv hn hi h, next_measure h⟩) (init_inv hn)
    by_cases hdone : s.phase cfg.HOME_CORE = .done
    · exact hi.fits (.inr hdone)
    · obtain ⟨l, s', hs'⟩ := h.progress ls s hrun ⟨_, hdone⟩
      have hnone : s.next l = none := hhalt l
      rw [hnone] at hs'
      cases hs'
  · rintro ⟨hn, hfits⟩
    have hwithin : ∀ ls s, (system cfg).run (init cfg) ls = some s → s.aborted = false := by
      intro ls s hrun
      by_contra hab
      have hnone := (run_inv hn hrun).aborts (by simpa using hab)
      rw [← cfg.poolAfter_isSome hn, hnone] at hfits
      cases hfits
    exact
      { within := hwithin
        result := fun ls s hrun c hc j hj => done_total (run_inv hn hrun) hn hc hj
        progress := by
          intro ls s hrun hne
          obtain ⟨c, hc⟩ := hne
          exact progress (run_inv hn hrun) (hwithin ls s hrun) hc }

/-- Sums of the arrays of two cores, with elements of 8 bytes: a message holds 399 of them. -/
def sums (nelem : ℕ) : InplaceConfig ℕ where
  others := 1
  size := 8
  nelem := nelem
  ReduceOp := (· + ·)
  input := fun _ _ => 1

instance (nelem : ℕ) : Std.Associative (sums nelem).ReduceOp := ⟨add_assoc⟩

instance (nelem : ℕ) : Std.Commutative (sums nelem).ReduceOp := ⟨add_comm⟩

theorem allreduce_inplace_399_correct : Correct (sums 399) :=
  (allreduce_inplace_correct_iff (sums 399)).mpr ⟨by decide, .inr (by decide)⟩

/-- With one element more, the pool has no room for the second message of the totals. -/
theorem allreduce_inplace_400_incorrect : ¬Correct (sums 400) := by
  intro h
  have hrun : ((system (sums 400)).run (init (sums 400)) [.enter 0, .enter 1, .leave 0, .leave 1,
      .send 0, .send 0, .deliver 0, .deliver 0, .wake 0]).map aborted = some true := by
    decide +kernel
  obtain ⟨s, hs, hab⟩ := map_eq_some_iff.mp hrun
  have hfalse := h.within _ s hs
  rw [hab] at hfalse
  cases hfalse

end InplaceRun

end Grappa
