import AdvCompArch.Grappa.OnedCsrEdges

/-! # The passes of a call

    Every pass keeps what it relies on (`Inv.exec`), and what is so when its loop is done is what the
    next pass relies on (`Inv.advance`).  A call that `Call.Finds` its largest vertex can be entered
    after any other (`Inv.enter`). -/

namespace Grappa

open Multiset

namespace OnedCsr

open BucketSort (forall_count forall_count_of_lt)

variable {n : ℕ} {s s' : State n} {pool rest : Multiset (Item n)} {x : Item n} {new : List (Item n)}
  {tg : Call n} {later : List (Call n)}

/-- There are edges, and there are few enough edges and vertices for the 48 bits of a count. -/
structure Call.Valid (tg : Call n) : Prop where
  nonempty : tg.edges ≠ []
  few : tg.edges.length < 2 ^ 47
  small : ∀ e ∈ tg.edges, e.1 + 1 < 2 ^ 47 ∧ e.2 + 1 < 2 ^ 47

theorem Call.Valid.largest_lt (h : tg.Valid) : tg.largest + 1 < 2 ^ 47 := by
  obtain ⟨e, he, heq⟩ := tg.exists_largest h.nonempty
  have := h.small e he
  omega

/-! ### What holds in a pass -/

/-- What the loop of the pass keeps. -/
def InPass (s : State n) (pool : Multiset (Item n)) : Prop :=
  match s.pass with
  | .start => pool = 0
  | .find_nv => FindNv s pool
  | .degree => Degree s pool
  | .minvect => Minvect s pool
  | .gather => Gather s pool
  | .sum => Sum s pool
  | .scan => ∃ z, Scan z s pool
  | .xendoff => ∃ z, Xendoff z s pool
  | .scatter => ∃ off z l, Scatter off z l s pool
  | .pack => ∃ off z l, Pack off z l s pool

/-- What holds between any two steps. -/
structure Inv (s : State n) (pool : Multiset (Item n)) : Prop where
  failed : s.failed = false
  pass : InPass s pool
  found : s.pass ≠ .find_nv → ∀ c, s.maxvtx c = s.tg.largest
  nv : s.pass ≠ .start → s.pass ≠ .find_nv → s.nv = s.tg.largest + 1
  /-- Each core starts at or after the one before. -/
  counts : s.pass ≠ .sum → ∀ c d, c ≤ d → s.prefix_count c ≤ s.prefix_count d
  valid : s.pass ≠ .start → s.tg.Valid
  later : ∀ tg ∈ s.later, tg.Valid

theorem Inv.nv_lt (h : Inv s pool) (hstart : s.pass ≠ .start) (hfind : s.pass ≠ .find_nv) :
    s.nv < 2 ^ 47 := by
  rw [h.nv hstart hfind]
  exact (h.valid hstart).largest_lt

/-! ### Steps of a pass -/

theorem exec_frame (hx : x.exec s = (s', new)) :
    s'.tg = s.tg ∧ s'.later = s.later ∧ s'.pass = s.pass ∧ s'.nv = s.nv := by
  cases x with
  | scatter_edge i j =>
    simp only [Item.exec, State.fail] at hx
    split at hx <;> obtain ⟨rfl, _⟩ := Prod.mk.inj hx <;> exact ⟨rfl, rfl, rfl, rfl⟩
  | find_nv i | degree i | increment a | minvect i | gather index | store b offset val | sum c
  | fetch_and_add c local_sum | scan c | put_back c i | write a val | xendoff v | scatter i
  | write_adj k j | pack v =>
    simp only [Item.exec, State.fail] at hx
    repeat' split at hx
    all_goals
      obtain ⟨rfl, _⟩ := Prod.mk.inj hx
      exact ⟨rfl, rfl, rfl, rfl⟩

theorem exec_maxvtx (hx : x.exec s = (s', new)) (hne : ∀ i, x ≠ .find_nv i) :
    s'.maxvtx = s.maxvtx := by
  cases x with
  | find_nv i => exact absurd rfl (hne i)
  | degree i | increment a | minvect i | gather index | store b offset val | sum c
  | fetch_and_add c local_sum | scan c | put_back c i | write a val | xendoff v | scatter i
  | scatter_edge i j | write_adj k j | pack v =>
    simp only [Item.exec, State.fail] at hx
    repeat' split at hx
    all_goals
      obtain ⟨rfl, _⟩ := Prod.mk.inj hx
      rfl

theorem exec_prefix_count (hx : x.exec s = (s', new)) (hne : ∀ c k, x ≠ .fetch_and_add c k) :
    s'.prefix_count = s.prefix_count := by
  cases x with
  | fetch_and_add c local_sum => exact absurd rfl (hne c local_sum)
  | find_nv i | degree i | increment a | minvect i | gather index | store b offset val | sum c
  | scan c | put_back c i | write a val | xendoff v | scatter i | scatter_edge i j | write_adj k j
  | pack v =>
    simp only [Item.exec, State.fail] at hx
    repeat' split at hx
    all_goals
      obtain ⟨rfl, _⟩ := Prod.mk.inj hx
      rfl

/-- The items of a pass. -/
def Pass.Has : Pass → Item n → Prop
  | .find_nv, .find_nv _ => True
  | .degree, .degree _ => True
  | .degree, .increment _ => True
  | .minvect, .minvect _ => True
  | .gather, .gather _ => True
  | .gather, .store _ _ _ => True
  | .sum, .sum _ => True
  | .sum, .fetch_and_add _ _ => True
  | .scan, .scan _ => True
  | .scan, .put_back _ _ => True
  | .scan, .write _ _ => True
  | .xendoff, .xendoff _ => True
  | .scatter, .scatter _ => True
  | .scatter, .scatter_edge _ _ => True
  | .scatter, .write_adj _ _ => True
  | .pack, .pack _ => True
  | .pack, .write_adj _ _ => True
  | .pack, .write _ _ => True
  | _, _ => False

theorem InPass.has (h : InPass s pool) (hx : x ∈ pool) : s.pass.Has x := by
  unfold InPass at h
  split at h <;> rename_i heq <;> rw [heq]
  · rw [h] at hx
    exact absurd hx (notMem_zero x)
  · obtain ⟨i, _, rfl⟩ := h.items x hx
    trivial
  · rcases h.items x hx with ⟨i, _, rfl⟩ | ⟨v, _, rfl⟩ <;> trivial
  · obtain ⟨i, _, rfl⟩ := h.items x hx
    trivial
  · rcases h.items x hx with ⟨v, _, rfl⟩ | ⟨c, i, _, rfl⟩ <;> trivial
  · rcases h.items x hx with ⟨c, rfl⟩ | ⟨c, k, rfl⟩ <;> trivial
  · obtain ⟨z, h⟩ := h
    rcases h.items x hx with ⟨c, rfl⟩ | ⟨c, i, _, rfl, _⟩ | ⟨c, i, _, rfl⟩ <;> trivial
  · obtain ⟨z, h⟩ := h
    obtain ⟨v, _, rfl⟩ := h.loop.items x hx
    trivial
  · obtain ⟨off, z, l, h⟩ := h
    rcases h.items x hx with ⟨i, _, rfl⟩ | ⟨v, _, w, rfl⟩ | ⟨v, _, t, w, _, rfl⟩ <;> trivial
  · obtain ⟨off, z, l, h⟩ := h
    rcases h.items x hx with ⟨v, _, rfl⟩ | ⟨v, _, _, ⟨t, j, _, rfl⟩ | rfl⟩ <;> trivial

/-- **Step of a pass**. -/
theorem Inv.exec (h : Inv s (x ::ₘ rest)) (hx : x.exec s = (s', new)) : Inv s' (rest + new) := by
  obtain ⟨htg, hlater, hpass, hnv⟩ := exec_frame hx
  have hhas := h.pass.has (mem_cons_self x rest)
  have hinv : InPass s' (rest + new) ∧ s'.failed = s.failed := by
    have hold := h.pass
    unfold InPass at hold ⊢
    rw [hpass]
    split at hold <;> rename_i heq
    · exact absurd hold cons_ne_zero
    · exact hold.exec hx
    · exact hold.exec (h.nv (by simp [heq]) (by simp [heq])) hx
    · exact hold.exec hx
    · exact hold.exec hx
    · exact hold.exec hx
    · obtain ⟨z, hold⟩ := hold
      exact (hold.exec (h.nv_lt (by simp [heq]) (by simp [heq])) hx).imp_left fun h' => ⟨z, h'⟩
    · obtain ⟨z, hold⟩ := hold
      exact (hold.exec hx).imp_left fun h' => ⟨z, h'⟩
    · obtain ⟨off, z, l, hold⟩ := hold
      exact (hold.exec (h.nv (by simp [heq]) (by simp [heq])) hx).imp_left fun h' => ⟨off, z, h'⟩
    · obtain ⟨off, z, l, hold⟩ := hold
      exact (hold.exec hx).imp_left fun h' => ⟨off, z, l, h'⟩
  refine ⟨hinv.2.trans h.failed, hinv.1, ?_, ?_, ?_, ?_, ?_⟩
  · rw [hpass, htg]
    intro hne
    rw [exec_maxvtx hx fun i hi => ?_]
    · exact h.found hne
    · rw [hi] at hhas
      cases heq : s.pass <;> simp [heq, Pass.Has] at hhas hne
  · rw [hpass, htg, hnv]
    exact h.nv
  · rw [hpass]
    intro hne
    rw [exec_prefix_count hx fun c k hk => ?_]
    · exact h.counts hne
    · rw [hk] at hhas
      cases heq : s.pass <;> simp [heq, Pass.Has] at hhas hne
  · rw [hpass, htg]
    exact h.valid
  · rw [hlater]
    exact h.later

/-! ### From one pass to the next -/

/-- **The next pass** of a call. -/
theorem Inv.advance (h : Inv s 0) (hstart : s.pass ≠ .start) (hpack : s.pass ≠ .pack)
    (hx : s.advance = some (s', new)) : Inv s' new ∧ s'.tg = s.tg ∧ s'.later = s.later := by
  have hedges : forall_count s.tg.edges.length = s.tg.edges.length :=
    forall_count_of_lt (h.valid hstart).few
  have hvertices : s.pass ≠ .find_nv → forall_count s.nv = s.nv := fun hne =>
    forall_count_of_lt (h.nv_lt hstart hne)
  have hold := h.pass
  unfold InPass at hold
  unfold State.advance at hx
  split at hx <;> rename_i heq <;> simp only [heq] at hold
  · exact absurd heq hstart
  · rw [hedges] at hx
    cases hx
    have hmax := hold.allreduce_max
    refine ⟨⟨h.failed, Degree.start rfl, fun _ c => hmax, fun _ _ => congrArg (· + 1) hmax, fun _ => ?_,
      fun _ => h.valid hstart, h.later⟩, rfl, rfl⟩
    exact h.counts (by simp [heq])
  all_goals
    have hfind : s.pass ≠ .find_nv := by simp [heq]
    have hcount := hvertices hfind
    have hfound := h.found hfind
    have hnv := h.nv hstart hfind
    have hvalid := h.valid hstart
  · have hcounts := h.counts (by simp [heq])
    rw [hcount] at hx
    cases hx
    exact ⟨⟨h.failed, hold.minvect, fun _ => hfound, fun _ _ => hnv, fun _ => hcounts, fun _ => hvalid,
      h.later⟩, rfl, rfl⟩
  · have hcounts := h.counts (by simp [heq])
    rw [hcount] at hx
    cases hx
    refine ⟨⟨h.failed, hold.gather fun c => ?_, fun _ => hfound, fun _ _ => hnv, fun _ => hcounts,
      fun _ => hvalid, h.later⟩, rfl, rfl⟩
    rw [List.length_map, List.length_range]
    rfl
  · have hcounts := h.counts (by simp [heq])
    cases hx
    exact ⟨⟨h.failed, hold.sum hcounts, fun _ => hfound, fun _ _ => hnv, fun _ => hcounts,
      fun _ => hvalid, h.later⟩, rfl, rfl⟩
  · cases hx
    refine ⟨⟨h.failed, ⟨_, hold.scan⟩, fun _ => hfound, fun _ _ => hnv, fun _ c d hcd => ?_,
      fun _ => hvalid, h.later⟩, rfl, rfl⟩
    -- all sums have arrived
    rcases hcd.lt_or_eq with hlt | rfl
    · have horder := hold.order c d hlt
      simp only [map_zero, sum_zero, add_zero] at horder
      exact (Nat.le_add_right _ _).trans horder
    · exact le_rfl
  · have hcounts := h.counts (by simp [heq])
    obtain ⟨z, hold⟩ := hold
    rw [hcount] at hx
    cases hx
    exact ⟨⟨h.failed, ⟨z, hold.xendoff⟩, fun _ => hfound, fun _ _ => hnv, fun _ => hcounts,
      fun _ => hvalid, h.later⟩, rfl, rfl⟩
  · have hcounts := h.counts (by simp [heq])
    obtain ⟨z, hold⟩ := hold
    rw [hedges] at hx
    cases hx
    exact ⟨⟨h.failed, ⟨_, z, _, hold.scatter⟩, fun _ => hfound, fun _ _ => hnv, fun _ => hcounts,
      fun _ => hvalid, h.later⟩, rfl, rfl⟩
  · have hcounts := h.counts (by simp [heq])
    obtain ⟨off, z, l, hold⟩ := hold
    rw [hcount] at hx
    cases hx
    exact ⟨⟨h.failed, ⟨off, z, _, hold.pack⟩, fun _ => hfound, fun _ _ => hnv, fun _ => hcounts,
      fun _ => hvalid, h.later⟩, rfl, rfl⟩
  · exact absurd heq hpack

theorem advance_enter (hpass : s.pass = .start ∨ s.pass = .pack) (hlater : s.later = tg :: later)
    (hvalid : tg.Valid) : s.advance =
      some ({ s with tg := tg, later := later, pass := .find_nv },
        (List.range tg.edges.length).map .find_nv) := by
  have henter : s.advance = s.enter := by
    rcases hpass with heq | heq <;> simp only [State.advance, heq]
  rw [henter, State.enter, hlater]
  simp only [forall_count_of_lt hvalid.few]

theorem Inv.enter (h : Inv s pool) (hpass : s.pass = .start ∨ s.pass = .pack)
    (hlater : s.later = tg :: later) (hfinds : tg.Finds s.tg.largest)
    (hx : s.advance = some (s', new)) : Inv s' new ∧ s'.tg = tg ∧ s'.later = later := by
  have hvalid := h.later tg (hlater ▸ List.mem_cons_self)
  have hfound := h.found (by rcases hpass with heq | heq <;> simp [heq])
  have hcounts := h.counts (by rcases hpass with heq | heq <;> simp [heq])
  rw [advance_enter hpass hlater hvalid] at hx
  cases hx
  refine ⟨⟨h.failed, ?_, fun hne => absurd rfl hne, fun _ hne => absurd rfl hne, fun _ => hcounts,
    fun _ => hvalid, fun tg' hmem => h.later tg' (hlater ▸ List.mem_cons_of_mem tg hmem)⟩, rfl, rfl⟩
  exact hfinds.start hfound

theorem inv_init {calls : List (Call n)} (hcalls : ∀ tg ∈ calls, tg.Valid) : Inv (init calls) 0 :=
  ⟨rfl, rfl, fun _ _ => rfl, fun hne => absurd rfl hne, fun _ _ _ _ => le_rfl,
    fun hne => absurd rfl hne, hcalls⟩

end OnedCsr

end Grappa
