import AdvCompArch.Grappa.InplaceReduction
import AdvCompArch.Lib.Census

/-! # The invariant of an in-place reduction

    A piece of an array is to come to the home core until its message has been handled;
    after that it is in the total of each of its elements.  The count of the home core is
    the number of pieces to come, so when the home core goes on, its array holds the
    totals. -/

namespace Grappa

namespace InplaceRun

open Chunks Totals Function List

variable {T : Type} {cfg : InplaceConfig T}

/-! ### What is to come -/

/-- The core and the piece of a contribution. -/
def asContribution : ArrayMessage cfg.cores → Option (Fin cfg.cores × ℕ × ℕ)
  | .contribution c k n => some (c, k, n)
  | .totals _ _ _ => none

/-- The piece of a message with totals for this core. -/
def asTotals (c : Fin cfg.cores) : ArrayMessage cfg.cores → Option (ℕ × ℕ)
  | .contribution _ _ _ => none
  | .totals d k n => if d = c then some (k, n) else none

/-- A core that has yet to queue its contributions. -/
def Before (p : CallPhase) : Prop := p = .start ∨ p = .barrier

instance (p : CallPhase) : Decidable (Before p) := inferInstanceAs (Decidable (_ ∨ _))

/-- The home core has queued the totals. -/
def After (s : InplaceRun cfg.cores T) : Prop :=
  s.phase cfg.HOME_CORE = .sending ∨ s.phase cfg.HOME_CORE = .done

instance (s : InplaceRun cfg.cores T) : Decidable s.After := inferInstanceAs (Decidable (_ ∨ _))

/-- The messages queued or on their way. -/
def inFlight (s : InplaceRun cfg.cores T) : List (ArrayMessage cfg.cores) :=
  s.queued ++ s.sent.map Prod.fst

/-- The pieces of cores that have yet to queue them. -/
def unsent (phase : Fin cfg.cores → CallPhase) : List (Fin cfg.cores × ℕ × ℕ) :=
  (cfg.peers.filter fun c => decide (Before (phase c))).flatMap fun c => cfg.pieces.map (Prod.mk c)

/-- The pieces that are to come to the home core. -/
def coming (s : InplaceRun cfg.cores T) : List (Fin cfg.cores × ℕ × ℕ) :=
  unsent s.phase ++ s.inFlight.filterMap asContribution

/-- The totals that are to come to a core. -/
def totalsTo (s : InplaceRun cfg.cores T) (c : Fin cfg.cores) : List (ℕ × ℕ) :=
  s.inFlight.filterMap (asTotals c)

/-- The cores of the pieces that have the position `j`. -/
def covering (j : ℕ) (l : List (Fin cfg.cores × ℕ × ℕ)) : List (Fin cfg.cores) :=
  (l.filter fun x => covers j x.2).map Prod.fst

theorem mem_peers {c : Fin cfg.cores} : c ∈ cfg.peers ↔ c ≠ cfg.HOME_CORE := by
  simp only [InplaceConfig.peers, mem_map, mem_finRange, true_and]
  exact Fin.exists_succ_eq

theorem nodup_peers : cfg.peers.Nodup :=
  (nodup_finRange _).map (Fin.succ_injective _)

@[simp] theorem length_peers : cfg.peers.length = cfg.others := by simp [InplaceConfig.peers]

theorem home_cons_peers : cfg.HOME_CORE :: cfg.peers = finRange cfg.cores :=
  (finRange_succ).symm

theorem length_pieces (hn : cfg.n_per_msg ≠ 0) : cfg.pieces.length = cfg.nmsg := by
  rw [InplaceConfig.pieces, length_chunks (by omega), InplaceConfig.nmsg, Nat.sub_zero]

theorem covering_append (j : ℕ) (l m : List (Fin cfg.cores × ℕ × ℕ)) :
    covering j (l ++ m) = covering j l ++ covering j m := by
  simp [covering]

theorem covering_perm (j : ℕ) {l m : List (Fin cfg.cores × ℕ × ℕ)} (h : l.Perm m) :
    (covering j l).Perm (covering j m) :=
  (h.filter _).map _

theorem covering_pieces (hn : cfg.n_per_msg ≠ 0) {j : ℕ} (hj : j < cfg.nelem)
    (cs : List (Fin cfg.cores)) :
    covering j (cs.flatMap fun c => cfg.pieces.map (Prod.mk c)) = cs := by
  obtain ⟨p, hp⟩ := filter_chunks (n := cfg.n_per_msg) (by omega) (Nat.zero_le j) hj
  induction cs with
  | nil => rfl
  | cons c cs ih =>
    rw [flatMap_cons, covering_append, ih]
    have hpieces : covering j (cfg.pieces.map (Prod.mk c)) = [c] := by
      have hfilter : (cfg.pieces.map (Prod.mk c)).filter (fun x => covers j x.2) =
          (cfg.pieces.filter (covers j)).map (Prod.mk c) := filter_map ..
      have hone : cfg.pieces.filter (covers j) = [p] := hp
      rw [covering, hfilter, hone]
      rfl
    rw [hpieces]
    rfl

theorem unsent_update {phase : Fin cfg.cores → CallPhase} {c : Fin cfg.cores} {p : CallPhase}
    (h : Before p ↔ Before (phase c)) : unsent (Function.update phase c p) = unsent phase := by
  unfold unsent
  congr 1
  apply filter_congr
  intro d _
  by_cases hd : d = c
  · subst hd
    simp [h]
  · rw [update_of_ne hd]

theorem unsent_home {phase : Fin cfg.cores → CallPhase} {p : CallPhase} :
    unsent (Function.update phase cfg.HOME_CORE p) = unsent phase := by
  unfold unsent
  congr 1
  apply filter_congr
  intro d hd
  rw [update_of_ne (mem_peers.mp hd)]

theorem unsent_leave {phase : Fin cfg.cores → CallPhase} {c : Fin cfg.cores} {p : CallPhase}
    (hc : c ∈ cfg.peers) (hbefore : Before (phase c)) (hp : ¬Before p) :
    (unsent phase).Perm (cfg.pieces.map (Prod.mk c) ++ unsent (Function.update phase c p)) := by
  unfold unsent
  obtain ⟨l, m, hlm⟩ := append_of_mem hc
  have hnodup : cfg.peers.Nodup := nodup_peers
  rw [hlm, nodup_append] at hnodup
  obtain ⟨-, hm, hl⟩ := hnodup
  rw [hlm]
  have hsame : ∀ ds : List (Fin cfg.cores), c ∉ ds →
      ds.filter (fun d => decide (Before (update phase c p d))) =
        ds.filter fun d => decide (Before (phase d)) := by
    intro ds hds
    apply filter_congr
    intro d hd
    have hne : d ≠ c := by
      rintro rfl
      exact hds hd
    rw [update_of_ne hne]
  have hcl : c ∉ l := fun h => hl c h c (by simp) rfl
  have hcm : c ∉ m := (nodup_cons.mp hm).1
  rw [filter_append, filter_append, hsame l hcl, filter_cons, filter_cons,
    hsame m hcm, update_self]
  simp only [hbefore, hp, decide_true, decide_false, if_true, Bool.false_eq_true, if_false,
    flatMap_append, flatMap_cons]
  exact perm_append_comm_assoc ..

theorem unsent_eq_nil {phase : Fin cfg.cores → CallPhase} (h : ∀ c, ¬Before (phase c)) :
    unsent phase = [] := by
  simp [unsent, h]

theorem unsent_all {phase : Fin cfg.cores → CallPhase} (h : ∀ c, Before (phase c)) :
    unsent phase = cfg.peers.flatMap fun c => cfg.pieces.map (Prod.mk c) := by
  simp [unsent, h]

/-! ### The invariant -/

/-- The total of the position `j` over the arrays of some cores. -/
def totalOf (cfg : InplaceConfig T) (j : ℕ) (cs : List (Fin cfg.cores)) : Option T :=
  total cfg.ReduceOp (cs.map fun c => cfg.input c j)

structure Inv (s : InplaceRun cfg.cores T) : Prop where
  /-- As long as a core has not entered, all are before the barrier. -/
  gate : ∀ d, s.phase d = .start → (∀ c, Before (s.phase c)) ∧ s.inFlight = []
  peer : ∀ c, c ≠ cfg.HOME_CORE → s.phase c ≠ .sending
  fits : s.After → cfg.poolAfter.isSome
  aborts : s.aborted → cfg.poolAfter = none
  owner : ∀ x ∈ s.coming, x.1 ≠ cfg.HOME_CORE
  collected : s.After → s.coming = []
  homeCount : s.phase cfg.HOME_CORE ≠ .start → s.count cfg.HOME_CORE = s.coming.length
  untouched : ¬s.After → ∀ c, c ≠ cfg.HOME_CORE → s.array c = cfg.input c ∧ s.totalsTo c = []
  noTotals : s.totalsTo cfg.HOME_CORE = []
  peerCount : ∀ c, c ≠ cfg.HOME_CORE → s.phase c ≠ .start →
    s.count c = (if s.After then 0 else cfg.nmsg) + (s.totalsTo c).length
  returned : ∀ c, c ≠ cfg.HOME_CORE → s.phase c = .done → s.count c = 0
  sums : ∀ j < cfg.nelem, ∃ arrived : List (Fin cfg.cores),
    some (s.array cfg.HOME_CORE j) = totalOf cfg j (cfg.HOME_CORE :: arrived) ∧
      (arrived ++ covering j s.coming).Perm cfg.peers
  copied : s.After → ∀ c, c ≠ cfg.HOME_CORE → ∀ j < cfg.nelem,
    (∃ p ∈ s.totalsTo c, covers j p) ∨ s.array c j = s.array cfg.HOME_CORE j
  contributionData : ∀ c k n data, (ArrayMessage.contribution c k n, data) ∈ s.sent →
    data = payload (cfg.input c) k n
  totalsData : ∀ c k n data, (ArrayMessage.totals c k n, data) ∈ s.sent →
    data = payload (s.array cfg.HOME_CORE) k n

theorem init_inv (hn : cfg.n_per_msg ≠ 0) : Inv (init cfg) := by
  have hcoming : (init cfg).coming = cfg.peers.flatMap fun c => cfg.pieces.map (Prod.mk c) := by
    have hall : unsent (init cfg).phase = _ := unsent_all fun c => .inl rfl
    rw [coming, hall]
    simp [inFlight, init]
  have hafter : ¬(init cfg).After := by simp [After, init]
  constructor
  case gate => exact fun d _ => ⟨fun c => .inl rfl, rfl⟩
  case peer => intro c _ h; cases h
  case fits => exact fun h => absurd h hafter
  case aborts => intro h; cases h
  case owner =>
    intro x hx
    rw [hcoming] at hx
    obtain ⟨c, hc, hx⟩ := mem_flatMap.mp hx
    obtain ⟨p, -, rfl⟩ := mem_map.mp hx
    exact mem_peers.mp hc
  case collected => exact fun h => absurd h hafter
  case homeCount => exact fun h => absurd rfl h
  case untouched => exact fun _ c _ => ⟨rfl, rfl⟩
  case noTotals => rfl
  case peerCount => exact fun c _ h => absurd rfl h
  case returned => intro c _ h; cases h
  case sums =>
    intro j hj
    refine ⟨[], by simp [totalOf, init], ?_⟩
    rw [hcoming, covering_pieces hn hj]
    exact List.Perm.refl _
  case copied => exact fun h => absurd h hafter
  case contributionData => intro c k n data h; cases h
  case totalsData => intro c k n data h; cases h

/-! ### The steps -/

section Steps

variable {s s' : InplaceRun cfg.cores T}

theorem Inv.quiet (hi : s.Inv) (harray : s'.array = s.array) (habort : s'.aborted = s.aborted)
    (hafter : s'.After ↔ s.After) (hcoming : s'.coming.Perm s.coming)
    (htotals : ∀ c, (s'.totalsTo c).Perm (s.totalsTo c))
    (gate : ∀ d, s'.phase d = .start → (∀ c, Before (s'.phase c)) ∧ s'.inFlight = [])
    (peer : ∀ c, c ≠ cfg.HOME_CORE → s'.phase c ≠ .sending)
    (homeCount : s'.phase cfg.HOME_CORE ≠ .start → s'.count cfg.HOME_CORE = s.coming.length)
    (peerCount : ∀ c, c ≠ cfg.HOME_CORE → s'.phase c ≠ .start →
      s'.count c = (if s.After then 0 else cfg.nmsg) + (s.totalsTo c).length)
    (returned : ∀ c, c ≠ cfg.HOME_CORE → s'.phase c = .done → s'.count c = 0)
    (contributionData : ∀ c k n data, (ArrayMessage.contribution c k n, data) ∈ s'.sent →
      data = payload (cfg.input c) k n)
    (totalsData : ∀ c k n data, (ArrayMessage.totals c k n, data) ∈ s'.sent →
      data = payload (s.array cfg.HOME_CORE) k n) : s'.Inv where
  gate := gate
  peer := peer
  fits := fun h => hi.fits (hafter.mp h)
  aborts := fun h => hi.aborts (habort ▸ h)
  owner := fun x hx => hi.owner x (hcoming.mem_iff.mp hx)
  collected := fun h => (hi.collected (hafter.mp h) ▸ hcoming).eq_nil
  homeCount := fun h => (homeCount h).trans hcoming.length_eq.symm
  untouched := by
    intro h c hc
    obtain ⟨hinput, hnil⟩ := hi.untouched (fun h' => h (hafter.mpr h')) c hc
    exact ⟨harray ▸ hinput, (hnil ▸ htotals c).eq_nil⟩
  noTotals := (hi.noTotals ▸ htotals cfg.HOME_CORE).eq_nil
  peerCount := by
    intro c hc hp
    rw [peerCount c hc hp, (htotals c).length_eq]
    simp only [hafter]
  returned := returned
  sums := by
    intro j hj
    obtain ⟨arrived, hsum, hperm⟩ := hi.sums j hj
    exact ⟨arrived, harray ▸ hsum, ((covering_perm j hcoming).append_left _).trans hperm⟩
  copied := by
    intro h c hc j hj
    rcases hi.copied (hafter.mp h) c hc j hj with ⟨p, hp, hcov⟩ | heq
    · exact .inl ⟨p, (htotals c).mem_iff.mpr hp, hcov⟩
    · exact .inr (harray ▸ heq)
  contributionData := contributionData
  totalsData := fun c k n data h => harray ▸ totalsData c k n data h

theorem enter_inv (hi : s.Inv) (hn : cfg.n_per_msg ≠ 0) {c : Fin cfg.cores}
    (hc : s.phase c = .start) : (s.enter c).Inv := by
  obtain ⟨hall, hempty⟩ := hi.gate c hc
  have hbefore : Before CallPhase.barrier ↔ Before (s.phase c) := by simp [Before, hc]
  have hunsent : unsent (update s.phase c .barrier) = unsent s.phase :=
    unsent_update hbefore
  have hphase : ∀ d, Before (update s.phase c .barrier d) := by
    intro d
    by_cases hd : d = c
    · subst hd
      simpa using hbefore.mpr (hall d)
    · rw [update_of_ne hd]
      exact hall d
  have hnot : ∀ {t : InplaceRun cfg.cores T}, Before (t.phase cfg.HOME_CORE) → ¬t.After := by
    intro t h
    unfold After Before at *
    grind
  unfold enter
  rw [if_neg hn]
  apply hi.quiet
  case harray => rfl
  case habort => rfl
  case hafter => exact iff_of_false (hnot (hphase _)) (hnot (hall _))
  case hcoming =>
    simp only [coming, inFlight, setPhase, hunsent]
    exact List.Perm.refl _
  case htotals => exact fun d => List.Perm.refl _
  case gate => exact fun d _ => ⟨hphase, hempty⟩
  case peer =>
    intro d _ h
    have := hphase d
    simp only [setPhase] at h
    rw [h] at this
    simp [Before] at this
  case homeCount =>
    simp only [setPhase]
    intro hp
    by_cases hh : cfg.HOME_CORE = c
    · -- all pieces of all peers are to come
      subst hh
      rw [update_self, if_pos rfl, coming, hempty, unsent_all hall]
      simp [InplaceConfig.nmsg_total, length_pieces hn, mul_comm]
    · rw [update_of_ne hh] at hp ⊢
      exact hi.homeCount hp
  case peerCount =>
    simp only [setPhase]
    intro d hd hp
    by_cases hdc : d = c
    · subst hdc
      rw [update_self, if_neg hd, if_neg (hnot (hall _)), totalsTo, hempty]
      rfl
    · rw [update_of_ne hdc] at hp ⊢
      exact hi.peerCount d hd hp
  case returned =>
    intro d _ h
    have := hphase d
    simp only [setPhase] at h
    rw [h] at this
    simp [Before] at this
  case contributionData => exact hi.contributionData
  case totalsData => exact hi.totalsData

theorem leave_inv (hi : s.Inv) {c : Fin cfg.cores} (hc : s.phase c = .barrier)
    (hgate : ∀ d, s.phase d ≠ .start) : (s.leave c).Inv := by
  have hphase : ∀ d p, (s.leave c).phase d = p → p ≠ .waiting → s.phase d = p := by
    intro d p h hp
    by_cases hd : d = c
    · subst hd
      simp only [leave, setPhase, update_self] at h
      exact absurd h.symm hp
    · simpa only [leave, setPhase, update_of_ne hd] using h
  have hcount : (s.leave c).count = s.count := rfl
  have hsent : (s.leave c).sent = s.sent := rfl
  -- the pieces that the core queues
  obtain ⟨ms, hflight, hnone, hsome⟩ : ∃ ms, (s.leave c).inFlight.Perm (s.inFlight ++ ms) ∧
      (∀ d, ms.filterMap (asTotals d) = []) ∧
      (unsent s.phase).Perm (ms.filterMap asContribution ++ unsent (s.leave c).phase) := by
    by_cases hh : c = cfg.HOME_CORE
    · refine ⟨[], ?_, fun d => rfl, ?_⟩
      · simp [inFlight, leave, setPhase, hh]
      · subst hh
        simp only [leave, setPhase, unsent_home]
        exact List.Perm.refl _
    · refine ⟨cfg.pieces.map fun p => .contribution c p.1 p.2, ?_, ?_, ?_⟩
      · simp only [inFlight, leave, setPhase, if_neg hh]
        rw [append_assoc, append_assoc]
        exact perm_append_comm.append_left _
      · intro d
        simp [filterMap_map, comp_def, asTotals]
      · have hleave := unsent_leave (p := .waiting) (mem_peers.mpr hh)
          (.inr hc) (by simp [Before])
        have hms : (cfg.pieces.map fun p => ArrayMessage.contribution c p.1 p.2).filterMap
            asContribution = cfg.pieces.map (Prod.mk c) := by
          simp [filterMap_map, comp_def, asContribution]
        rw [hms]
        exact hleave
  have hne : ∀ d, (s.leave c).phase d ≠ .start :=
    fun d h => hgate d (hphase d _ h (by simp))
  have hafter : (s.leave c).After ↔ s.After := by
    unfold After
    constructor
    · rintro (h | h)
      · exact .inl (hphase _ _ h (by simp))
      · exact .inr (hphase _ _ h (by simp))
    · have hother : s.phase cfg.HOME_CORE ≠ .barrier →
          (s.leave c).phase cfg.HOME_CORE = s.phase cfg.HOME_CORE := by
        intro h
        apply update_of_ne
        rintro rfl
        exact h hc
      rintro (h | h)
      · exact .inl ((hother (by simp [h])).trans h)
      · exact .inr ((hother (by simp [h])).trans h)
  apply hi.quiet
  case harray => rfl
  case habort => rfl
  case hafter => exact hafter
  case hcoming =>
    unfold coming
    have hadd := hflight.filterMap asContribution
    rw [filterMap_append] at hadd
    exact (hadd.append_left _).trans ((perm_append_comm_assoc _ _ _).trans
      (((perm_append_comm.trans hsome.symm).append_left _).trans perm_append_comm))
  case htotals =>
    intro d
    have hadd := hflight.filterMap (asTotals d)
    rwa [filterMap_append, hnone d, append_nil] at hadd
  case gate => exact fun d h => absurd h (hne d)
  case peer => exact fun d hd h => hi.peer d hd (hphase d _ h (by simp))
  case homeCount => exact fun _ => hi.homeCount (hgate _)
  case peerCount => exact fun d hd _ => hi.peerCount d hd (hgate d)
  case returned => exact fun d hd h => hi.returned d hd (hphase d _ h (by simp))
  case contributionData => exact hi.contributionData
  case totalsData => exact hi.totalsData

/-- A core that is through. -/
theorem done_inv (hi : s.Inv) {c : Fin cfg.cores} (hc : ¬Before (s.phase c))
    (hzero : c ≠ cfg.HOME_CORE → s.count c = 0) (hhome : c = cfg.HOME_CORE → s.After) :
    (s.setPhase c .done).Inv := by
  have hphase : ∀ d, d ≠ c → (s.setPhase c .done).phase d = s.phase d :=
    fun d hd => update_of_ne hd ..
  have hunsent : unsent (update s.phase c .done) = unsent s.phase :=
    unsent_update (iff_of_false (by simp [Before]) hc)
  have hgate : ∀ d, s.phase d ≠ .start := fun d hd => hc ((hi.gate d hd).1 c)
  apply hi.quiet
  case harray => rfl
  case habort => rfl
  case hafter =>
    by_cases hh : c = cfg.HOME_CORE
    · exact iff_of_true (.inr (by simp [setPhase, hh])) (hhome hh)
    · unfold After
      rw [hphase _ (Ne.symm hh)]
  case hcoming =>
    simp only [coming, inFlight, setPhase, hunsent]
    exact List.Perm.refl _
  case htotals => exact fun d => List.Perm.refl _
  case gate =>
    intro d hd
    by_cases hdc : d = c
    · subst hdc
      simp [setPhase] at hd
    · exact absurd ((hphase d hdc).symm.trans hd) (hgate d)
  case peer =>
    intro d hd h
    by_cases hdc : d = c
    · subst hdc
      simp [setPhase] at h
    · exact hi.peer d hd ((hphase d hdc).symm.trans h)
  case homeCount => exact fun _ => hi.homeCount (hgate _)
  case peerCount => exact fun d hd _ => hi.peerCount d hd (hgate d)
  case returned =>
    intro d hd h
    by_cases hdc : d = c
    · subst hdc
      exact hzero hd
    · exact hi.returned d hd ((hphase d hdc).symm.trans h)
  case contributionData => exact hi.contributionData
  case totalsData => exact hi.totalsData

theorem wake_peer_inv (hi : s.Inv) {c : Fin cfg.cores} (hh : c ≠ cfg.HOME_CORE)
    (hc : s.phase c = .waiting) (hzero : s.count c = 0) : (s.wake c).Inv := by
  unfold wake
  rw [if_neg hh]
  exact done_inv hi (by simp [Before, hc]) (fun _ => hzero) fun heq => absurd heq hh

theorem finish_inv (hi : s.Inv) (hh : s.phase cfg.HOME_CORE = .sending) :
    (s.setPhase cfg.HOME_CORE .done).Inv :=
  done_inv hi (by simp [Before, hh]) (absurd rfl) fun _ => .inl hh

theorem send_inv (hi : s.Inv) {i : ℕ} {m : ArrayMessage cfg.cores} (hm : s.queued[i]? = some m) :
    Inv { s with queued := s.queued.eraseIdx i, sent := s.sent ++ [(m, s.content m)] } := by
  obtain ⟨hlt, hget⟩ := List.getElem?_eq_some_iff.mp hm
  have hout := getElem_cons_eraseIdx_perm hlt
  rw [hget] at hout
  have hflight : (s.queued.eraseIdx i ++ (s.sent ++ [(m, s.content m)]).map Prod.fst).Perm
      s.inFlight := by
    rw [map_append, ← append_assoc, map_cons, map_nil]
    exact perm_append_singleton _ _ |>.trans (hout.append_right _)
  have hmem : m ∈ s.inFlight := mem_append_left _ (hget ▸ getElem_mem hlt)
  apply hi.quiet
  case harray => rfl
  case habort => rfl
  case hafter => exact Iff.rfl
  case hcoming => exact (hflight.filterMap _).append_left _
  case htotals => exact fun d => hflight.filterMap _
  case gate =>
    intro d hd
    have hempty := (hi.gate d hd).2
    rw [hempty] at hmem
    cases hmem
  case peer => exact hi.peer
  case homeCount => exact hi.homeCount
  case peerCount => exact hi.peerCount
  case returned => exact hi.returned
  case contributionData =>
    intro c k n data h
    rcases mem_append.mp h with h | h
    · exact hi.contributionData c k n data h
    · obtain ⟨rfl, rfl⟩ := Prod.mk.inj (mem_singleton.mp h)
      -- its array is still the one of the call
      have hx : (c, k, n) ∈ s.coming :=
        mem_append_right _ (mem_filterMap.mpr ⟨_, hmem, rfl⟩)
      have hnot : ¬s.After := by
        intro hafter
        rw [hi.collected hafter] at hx
        cases hx
      rw [content, (hi.untouched hnot c (hi.owner _ hx)).1]
  case totalsData =>
    intro c k n data h
    rcases mem_append.mp h with h | h
    · exact hi.totalsData c k n data h
    · obtain ⟨rfl, rfl⟩ := Prod.mk.inj (mem_singleton.mp h)
      rfl

theorem totals_of_messages (d : Fin cfg.cores) :
    cfg.totalsMessages.filterMap (asTotals d) = if d = cfg.HOME_CORE then [] else cfg.pieces := by
  have hmap : cfg.totalsMessages.filterMap (asTotals d) =
      cfg.peers.flatMap fun e => if e = d then cfg.pieces else [] := by
    rw [InplaceConfig.totalsMessages, filterMap_flatMap]
    apply flatMap_congr
    intro e _
    by_cases hed : e = d <;> simp [filterMap_map, comp_def, asTotals, hed]
  have hskip : ∀ es : List (Fin cfg.cores), d ∉ es →
      es.flatMap (fun e => if e = d then cfg.pieces else []) = [] := by
    intro es hes
    apply flatMap_eq_nil_iff.mpr
    intro e he
    rw [if_neg]
    rintro rfl
    exact hes he
  rw [hmap]
  split
  · rename_i hd
    exact hskip _ fun h => mem_peers.mp h hd
  · rename_i hd
    obtain ⟨l, m, hlm⟩ := append_of_mem (mem_peers.mpr hd)
    have hnodup : cfg.peers.Nodup := nodup_peers
    rw [hlm, nodup_append, nodup_cons] at hnodup
    rw [hlm, flatMap_append, flatMap_cons, if_pos rfl,
      hskip l (fun h => hnodup.2.2 d h d (by simp) rfl), hskip m hnodup.2.1.1]
    simp

/-- The home core goes on: nothing is to come any more, and the totals are queued. -/
theorem wake_home_inv (hi : s.Inv) (hn : cfg.n_per_msg ≠ 0)
    (hh : s.phase cfg.HOME_CORE = .waiting) (hzero : s.count cfg.HOME_CORE = 0) :
    (s.wake cfg.HOME_CORE).Inv := by
  have hgate : ∀ d, s.phase d ≠ .start := by
    intro d hd
    have := (hi.gate d hd).1 cfg.HOME_CORE
    simp [Before, hh] at this
  have hnone : s.coming = [] := by
    have := hi.homeCount (hgate _)
    rw [hzero] at this
    exact length_eq_zero_iff.mp this.symm
  have hnot : ¬s.After := by simp [After, hh]
  have hphase : ∀ d, d ≠ cfg.HOME_CORE →
      update s.phase cfg.HOME_CORE .sending d = s.phase d :=
    fun d hd => update_of_ne hd ..
  unfold wake
  rw [if_pos rfl]
  cases hpool : cfg.poolAfter with
  | none =>
    -- the same state, but for the abort
    exact { hi with aborts := fun _ => hpool }
  | some p =>
    -- every peer is to get the totals of all pieces
    have htotalsTo : ∀ d, (({ s.setPhase cfg.HOME_CORE .sending with
        queued := s.queued ++ cfg.totalsMessages } : InplaceRun cfg.cores T).totalsTo d).Perm
          (s.totalsTo d ++ if d = cfg.HOME_CORE then [] else cfg.pieces) := by
      intro d
      have hadd : (s.queued ++ cfg.totalsMessages ++ s.sent.map Prod.fst).Perm
          (s.inFlight ++ cfg.totalsMessages) := by
        unfold inFlight
        rw [append_assoc, append_assoc]
        exact perm_append_comm.append_left _
      have := hadd.filterMap (asTotals d)
      rwa [filterMap_append (l := s.inFlight), totals_of_messages] at this
    have hcoming : unsent (update s.phase cfg.HOME_CORE .sending) ++
        (s.queued ++ cfg.totalsMessages ++ s.sent.map Prod.fst).filterMap asContribution = [] := by
      simp only [coming, inFlight, filterMap_append, append_eq_nil_iff] at hnone
      rw [unsent_home, filterMap_append, filterMap_append, hnone.1, hnone.2.1, hnone.2.2]
      simp [InplaceConfig.totalsMessages, filterMap_flatMap, filterMap_map,
        comp_def, asContribution]
    constructor
    case gate =>
      intro d hd
      by_cases hdh : d = cfg.HOME_CORE
      · subst hdh
        simp [setPhase] at hd
      · exact absurd ((hphase d hdh).symm.trans hd) (hgate d)
    case peer => exact fun d hd h => hi.peer d hd ((hphase d hd).symm.trans h)
    case fits => exact fun _ => by simp [hpool]
    case aborts => exact hi.aborts
    case owner =>
      intro x hx
      rw [coming, inFlight, setPhase, hcoming] at hx
      cases hx
    case collected => exact fun _ => hcoming
    case homeCount =>
      intro _
      rw [coming, inFlight, setPhase, hcoming]
      exact hzero
    case untouched => exact fun h => absurd (.inl (by simp [setPhase])) h
    case noTotals =>
      have := htotalsTo cfg.HOME_CORE
      rw [hi.noTotals, if_pos rfl] at this
      exact this.eq_nil
    case peerCount =>
      intro d hd _
      have hafter : ({ s.setPhase cfg.HOME_CORE .sending with
        queued := s.queued ++ cfg.totalsMessages } : InplaceRun cfg.cores T).After :=
          .inl (by simp [setPhase])
      have hbefore := hi.peerCount d hd (hgate d)
      rw [if_neg hnot, (hi.untouched hnot d hd).2] at hbefore
      rw [(htotalsTo d).length_eq, (hi.untouched hnot d hd).2, if_neg hd, if_pos hafter]
      simp only [nil_append, zero_add, length_pieces hn]
      exact hbefore
    case returned => exact fun d hd h => hi.returned d hd ((hphase d hd).symm.trans h)
    case sums =>
      intro j hj
      obtain ⟨arrived, hsum, hperm⟩ := hi.sums j hj
      refine ⟨arrived, hsum, ?_⟩
      rw [coming, inFlight, setPhase, hcoming, ← hnone]
      exact hperm
    case copied =>
      intro _ d hd j hj
      obtain ⟨p, hp⟩ := filter_chunks (n := cfg.n_per_msg) (by omega) (Nat.zero_le j) hj
      have hmem : p ∈ cfg.pieces ∧ covers j p = true := by
        have : p ∈ cfg.pieces.filter (covers j) := by
          rw [InplaceConfig.pieces, hp]
          exact mem_singleton_self p
        exact mem_filter.mp this
      refine .inl ⟨p, (htotalsTo d).mem_iff.mpr ?_, hmem.2⟩
      rw [if_neg hd]
      exact mem_append_right _ hmem.1
    case contributionData => exact hi.contributionData
    case totalsData => exact hi.totalsData

theorem inFlight_deliver {i : ℕ} {m : ArrayMessage cfg.cores × List T} (hm : s.sent[i]? = some m) :
    (m.1 :: (s.queued ++ (s.sent.eraseIdx i).map Prod.fst)).Perm s.inFlight := by
  obtain ⟨hlt, hget⟩ := List.getElem?_eq_some_iff.mp hm
  have hout := (getElem_cons_eraseIdx_perm hlt).map Prod.fst
  rw [hget, map_cons] at hout
  exact perm_middle.symm.trans (hout.append_left _)

theorem getElem?_payload {a : ℕ → T} {k n j : ℕ} (hk : k ≤ j) :
    (payload a k n)[j - k]? = if j < k + n then some (a j) else none := by
  by_cases h : j < k + n
  · have hlt : j - k < n := by omega
    have hj : k + (j - k) = j := by omega
    simp [payload, hlt, h, hj]
  · have hge : n ≤ j - k := by omega
    simp [payload, hge, h]

theorem reduceFrom_payload (op : T → T → T) (array a : ℕ → T) (k n j : ℕ) :
    reduceFrom op array k (payload a k n) j =
      if covers j (k, n) then op (array j) (a j) else array j := by
  by_cases hk : k ≤ j
  · rw [reduceFrom, if_pos hk, getElem?_payload hk]
    by_cases h : j < k + n <;> simp [covers, hk, h]
  · simp [reduceFrom, covers, hk]

theorem copyFrom_payload (array a : ℕ → T) (k n j : ℕ) :
    copyFrom array k (payload a k n) j = if covers j (k, n) then a j else array j := by
  by_cases hk : k ≤ j
  · rw [copyFrom, if_pos hk, getElem?_payload hk]
    by_cases h : j < k + n <;> simp [covers, hk, h]
  · simp [copyFrom, covers, hk]

/-- **A contribution is added**: its piece is not to come any more. -/
theorem deliver_contribution_inv (hi : s.Inv) {i : ℕ} {c : Fin cfg.cores} {k n : ℕ}
    {data : List T} (hm : s.sent[i]? = some (.contribution c k n, data)) :
    (handle { s with sent := s.sent.eraseIdx i } data (.contribution c k n)).Inv := by
  have hmem := mem_of_getElem? hm
  have hflight := inFlight_deliver hm
  obtain rfl := hi.contributionData c k n data hmem
  have hcoming : ((c, k, n) :: (unsent s.phase ++ (s.queued ++
      (s.sent.eraseIdx i).map Prod.fst).filterMap asContribution)).Perm s.coming := by
    have := (hflight.filterMap asContribution).append_left (unsent s.phase)
    exact perm_middle.symm.trans this
  have hx : (c, k, n) ∈ s.coming := hcoming.mem_iff.mp mem_cons_self
  have hc : c ≠ cfg.HOME_CORE := hi.owner _ hx
  have hnot : ¬s.After := by
    intro hafter
    rw [hi.collected hafter] at hx
    cases hx
  have hgate : ∀ d, s.phase d ≠ .start := by
    intro d hd
    have hempty := (hi.gate d hd).2
    rw [hempty] at hflight
    cases hflight.eq_nil
  have htotals : ∀ d, (s.queued ++ (s.sent.eraseIdx i).map Prod.fst).filterMap (asTotals d) =
      [] := by
    intro d
    have hnil : s.totalsTo d = [] := by
      by_cases hd : d = cfg.HOME_CORE
      · rw [hd, hi.noTotals]
      · exact (hi.untouched hnot d hd).2
    have := hflight.filterMap (asTotals d)
    rw [filterMap_cons] at this
    exact (this.trans (List.Perm.of_eq hnil)).eq_nil
  unfold handle
  constructor
  case gate => exact fun d h => absurd h (hgate d)
  case peer => exact hi.peer
  case fits => exact hi.fits
  case aborts => exact hi.aborts
  case owner => exact fun x hx => hi.owner x (hcoming.mem_iff.mp (mem_cons_of_mem _ hx))
  case collected => exact fun h => absurd h hnot
  case homeCount =>
    intro h
    have hlen := hcoming.length_eq
    have hcount := hi.homeCount h
    simp only [complete, setArray, update_self, coming, inFlight]
    rw [hcount, ← hlen, length_cons, Nat.add_sub_cancel]
  case untouched =>
    intro _ d hd
    refine ⟨?_, htotals d⟩
    simp only [complete, setArray, update_of_ne hd]
    exact (hi.untouched hnot d hd).1
  case noTotals => exact htotals cfg.HOME_CORE
  case peerCount =>
    intro d hd h
    have hcount := hi.peerCount d hd h
    rw [(hi.untouched hnot d hd).2] at hcount
    simp only [complete, setArray, update_of_ne hd, totalsTo, inFlight, htotals d]
    exact hcount
  case returned =>
    intro d hd h
    simp only [complete, setArray, update_of_ne hd]
    exact hi.returned d hd h
  case sums =>
    intro j hj
    obtain ⟨arrived, hsum, hperm⟩ := hi.sums j hj
    have hcov := covering_perm j hcoming
    simp only [complete, setArray, update_self, reduceFrom_payload]
    by_cases hjc : covers j (k, n) = true
    · -- one more core is in the total
      refine ⟨arrived ++ [c], ?_, ?_⟩
      · rw [if_pos hjc, ← cons_append, totalOf, map_append, map_cons (l := []),
          map_nil, total_concat, ← totalOf, ← hsum]
        rfl
      · have hhead : covering j [(c, k, n)] = [c] := by simp [covering, hjc]
        rw [← singleton_append, covering_append, hhead] at hcov
        rw [append_assoc]
        exact (hcov.append_left arrived).trans hperm
    · refine ⟨arrived, by rw [if_neg hjc]; exact hsum, ?_⟩
      have hhead : covering j [(c, k, n)] = [] := by simp [covering, hjc]
      rw [← singleton_append, covering_append, hhead, nil_append] at hcov
      exact (hcov.append_left arrived).trans hperm
  case copied => exact fun h => absurd h hnot
  case contributionData =>
    exact fun d k n data h => hi.contributionData d k n data (mem_of_mem_eraseIdx h)
  case totalsData =>
    -- there are no totals in flight
    intro d k n data h
    have : (k, n) ∈ (s.queued ++ (s.sent.eraseIdx i).map Prod.fst).filterMap (asTotals d) :=
      mem_filterMap.mpr ⟨_, mem_append_right _ (mem_map_of_mem h), by
        simp [asTotals]⟩
    rw [htotals d] at this
    cases this

/-- **Totals are copied**: the piece is now that of the home core. -/
theorem deliver_totals_inv (hi : s.Inv) {i : ℕ} {c : Fin cfg.cores} {k n : ℕ}
    {data : List T} (hm : s.sent[i]? = some (.totals c k n, data)) :
    (handle { s with sent := s.sent.eraseIdx i } data (.totals c k n)).Inv := by
  have hmem := mem_of_getElem? hm
  have hflight := inFlight_deliver hm
  obtain rfl := hi.totalsData c k n data hmem
  have hcoming : (unsent s.phase ++ (s.queued ++
      (s.sent.eraseIdx i).map Prod.fst).filterMap asContribution).Perm s.coming :=
    (hflight.filterMap asContribution).append_left (unsent s.phase)
  have hown : ((k, n) :: (s.queued ++ (s.sent.eraseIdx i).map Prod.fst).filterMap
      (asTotals c)).Perm (s.totalsTo c) := by
    have := hflight.filterMap (asTotals c)
    rw [filterMap_cons] at this
    simpa [asTotals, totalsTo] using this
  have hother : ∀ d, d ≠ c → ((s.queued ++ (s.sent.eraseIdx i).map Prod.fst).filterMap
      (asTotals d)).Perm (s.totalsTo d) := by
    intro d hd
    have := hflight.filterMap (asTotals d)
    rw [filterMap_cons] at this
    simpa [asTotals, totalsTo, Ne.symm hd] using this
  have hx : (k, n) ∈ s.totalsTo c := hown.mem_iff.mp mem_cons_self
  have hc : c ≠ cfg.HOME_CORE := by
    rintro rfl
    rw [hi.noTotals] at hx
    cases hx
  have hafter : s.After := by
    by_contra hnot
    rw [(hi.untouched hnot c hc).2] at hx
    cases hx
  have hgate : ∀ d, s.phase d ≠ .start := by
    intro d hd
    have hempty := (hi.gate d hd).2
    rw [hempty] at hflight
    cases hflight.eq_nil
  unfold handle
  constructor
  case gate => exact fun d h => absurd h (hgate d)
  case peer => exact hi.peer
  case fits => exact hi.fits
  case aborts => exact hi.aborts
  case owner => exact fun x hx => hi.owner x (hcoming.mem_iff.mp hx)
  case collected => exact fun _ => (hi.collected hafter ▸ hcoming).eq_nil
  case homeCount =>
    intro h
    have hcount := hi.homeCount h
    simp only [complete, setArray, update_of_ne (Ne.symm hc)]
    exact hcount.trans hcoming.length_eq.symm
  case untouched => exact fun h => absurd hafter h
  case noTotals => exact (hi.noTotals ▸ hother cfg.HOME_CORE (Ne.symm hc)).eq_nil
  case peerCount =>
    intro d hd h
    have hcount := hi.peerCount d hd h
    rw [if_pos hafter] at hcount
    have hafter' : (handle { s with sent := s.sent.eraseIdx i }
      (payload (s.array cfg.HOME_CORE) k n) (.totals c k n)).After := hafter
    unfold handle at hafter'
    rw [if_pos hafter']
    simp only [complete, setArray, totalsTo, inFlight]
    by_cases hdc : d = c
    · subst hdc
      have hlen := hown.length_eq
      rw [length_cons] at hlen
      rw [update_self]
      omega
    · have hlen := (hother d hdc).length_eq
      rw [update_of_ne hdc]
      omega
  case returned =>
    intro d hd h
    have hzero := hi.returned d hd h
    simp only [complete, setArray]
    by_cases hdc : d = c
    · subst hdc
      rw [update_self, hzero]
    · rw [update_of_ne hdc, hzero]
  case sums =>
    intro j hj
    obtain ⟨arrived, hsum, hperm⟩ := hi.sums j hj
    simp only [complete, setArray, update_of_ne (Ne.symm hc)]
    exact ⟨arrived, hsum, ((covering_perm j hcoming).append_left _).trans hperm⟩
  case copied =>
    intro _ d hd j hj
    simp only [complete, setArray, update_of_ne (Ne.symm hc)]
    by_cases hdc : d = c
    · subst hdc
      rw [update_self, copyFrom_payload]
      by_cases hjc : covers j (k, n) = true
      · exact .inr (if_pos hjc)
      · rcases hi.copied hafter d hd j hj with ⟨p, hp, hcov⟩ | heq
        · -- the piece of `j` is another one
          rcases mem_cons.mp (hown.mem_iff.mpr hp) with rfl | hp
          · exact absurd hcov hjc
          · exact .inl ⟨p, hp, hcov⟩
        · exact .inr ((if_neg hjc).trans heq)
    · rw [update_of_ne hdc]
      rcases hi.copied hafter d hd j hj with ⟨p, hp, hcov⟩ | heq
      · exact .inl ⟨p, (hother d hdc).mem_iff.mpr hp, hcov⟩
      · exact .inr heq
  case contributionData =>
    exact fun d k n data h => hi.contributionData d k n data (mem_of_mem_eraseIdx h)
  case totalsData =>
    intro d k n data h
    simp only [complete, setArray, update_of_ne (Ne.symm hc)]
    exact hi.totalsData d k n data (mem_of_mem_eraseIdx h)

end Steps

end InplaceRun

end Grappa
