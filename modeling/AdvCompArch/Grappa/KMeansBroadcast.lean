import AdvCompArch.Grappa.KMeans

/-! # The broadcast of the means

    The clusters of all reducers are saved on every core by delegates that run in any order.  Where
    the clusters with an id have one center, the order makes no difference: in the end every core
    has it, and the means without a cluster are as they were (`broadcast_spec`). -/

namespace Grappa

namespace KMeans

open Function Multiset Phased

variable {Size n numred : ℕ} {result : ℕ → List (Cluster Size)} {means : List (Vector Size)}
  {s s' : Broadcast n Size} {x : Item n Size} {rest : Multiset (Item n Size)}
  {new : List (Item n Size)} {clust : Cluster Size}

/-- The id of a cluster is that of a mean. -/
def Cluster.Inside (clust : Cluster Size) (K : ℕ) : Prop := 0 ≤ clust.id ∧ clust.id < K

instance (clust : Cluster Size) (K : ℕ) : Decidable (clust.Inside K) :=
  inferInstanceAs (Decidable (_ ∧ _))

/-- A cluster is in a result. -/
def Results (numred : ℕ) (result : ℕ → List (Cluster Size)) (clust : Cluster Size) : Prop :=
  ∃ r < numred, clust ∈ result r

/-- A cluster has still to be saved on a core. -/
def Due (result : ℕ → List (Cluster Size)) (pool : Multiset (Item n Size)) (c : Fin (n + 1))
    (clust : Cluster Size) : Prop :=
  (∃ r, .look r ∈ pool ∧ clust ∈ result r) ∨ .save c clust ∈ pool

/-- While the clusters are sent. -/
structure Sending (numred : ℕ) (result : ℕ → List (Cluster Size)) (means : List (Vector Size))
    (s : Broadcast n Size) (pool : Multiset (Item n Size)) : Prop where
  items : ∀ x ∈ pool, (∃ r < numred, x = .look r) ∨
    ∃ c clust, x = .save c clust ∧ Results numred result clust
  length : ∀ c, (s.means c).length = means.length
  saved : ∀ c clust, Results numred result clust → Due result pool c clust ∨
    if clust.Inside means.length then (s.means c)[clust.id.toNat]? = some clust.center
    else s.outside = true
  kept : ∀ c, ∀ id : ℕ, (∀ clust, Results numred result clust → clust.id ≠ id) →
    (s.means c)[id]? = means[id]?
  outside : s.outside = true → ∃ clust, Results numred result clust ∧ ¬clust.Inside means.length

theorem Due.of_cons {pool : Multiset (Item n Size)} {c : Fin (n + 1)}
    (h : Due result (x ::ₘ rest) c clust) (hrest : ∀ y ∈ rest, y ∈ pool)
    (hlook : ∀ r, x = .look r → clust ∈ result r → Due result pool c clust) :
    Due result pool c clust ∨ x = .save c clust := by
  rcases h with ⟨r, hr, hclust⟩ | hsave
  · rcases mem_cons.mp hr with heq | hr
    · exact .inl (hlook r heq.symm hclust)
    · exact .inl (.inl ⟨r, hrest _ hr, hclust⟩)
  · rcases mem_cons.mp hsave with heq | hsave
    · exact .inr heq.symm
    · exact .inl (.inr (hrest _ hsave))

theorem Broadcast.write_inside {c : Fin (n + 1)} (h : clust.Inside (s.means c).length) :
    (s.write c clust).means =
        Function.update s.means c ((s.means c).set clust.id.toNat clust.center) ∧
      (s.write c clust).outside = s.outside := by
  unfold Cluster.Inside at h
  rw [Broadcast.write, if_pos h]
  exact ⟨rfl, rfl⟩

theorem Broadcast.write_outside {c : Fin (n + 1)} (h : ¬clust.Inside (s.means c).length) :
    (s.write c clust).means = s.means ∧ (s.write c clust).outside = true := by
  unfold Cluster.Inside at h
  rw [Broadcast.write, if_neg h]
  exact ⟨rfl, rfl⟩

/-- **A cluster is saved.** -/
theorem Sending.save {c : Fin (n + 1)} (hfunction : ∀ clust clust', Results numred result clust →
    Results numred result clust' → clust.id = clust'.id → clust.center = clust'.center)
    (h : Sending numred result means s (.save c clust ::ₘ rest)) :
    Sending numred result means (s.write c clust) rest := by
  obtain ⟨hitems, hlength, hsaved, hkept, houtside⟩ := h
  have hclust : Results numred result clust := by
    rcases hitems _ (mem_cons_self _ _) with ⟨r, -, hr⟩ | ⟨c', clust', heq, hresults⟩
    · cases hr
    · obtain ⟨-, rfl⟩ := Item.save.inj heq
      exact hresults
  have hdue : ∀ c' clust', Due result (.save c clust ::ₘ rest) c' clust' →
      Due result rest c' clust' ∨ c = c' ∧ clust = clust' := by
    intro c' clust' hdue
    rcases hdue.of_cons (fun _ hy => hy) (fun r hr _ => by cases hr) with hdue | heq
    · exact .inl hdue
    · exact .inr (Item.save.inj heq)
  have hitems' : ∀ x ∈ rest, (∃ r < numred, x = .look r) ∨
      ∃ c clust, x = .save c clust ∧ Results numred result clust :=
    fun x hx => hitems x (mem_cons_of_mem hx)
  by_cases hinside : clust.Inside means.length
  · obtain ⟨hmeans, hout⟩ := Broadcast.write_inside (hlength c ▸ hinside)
    have hindex : clust.id.toNat < (s.means c).length := by
      have hbound := hinside
      rw [Cluster.Inside] at hbound
      rw [hlength]
      omega
    refine ⟨hitems', fun c' => ?_, fun c' clust' hclust' => ?_, fun c' id hnone => ?_,
      fun htrue => houtside (hout ▸ htrue)⟩
    · rw [hmeans]
      by_cases hc : c' = c
      · subst hc
        rw [update_self, List.length_set, hlength]
      · rw [update_of_ne hc, hlength]
    · rw [hmeans, hout]
      rcases hsaved c' clust' hclust' with hpending | hdone
      · rcases hdue c' clust' hpending with hpending | ⟨rfl, rfl⟩
        · exact .inl hpending
        · rw [if_pos hinside, update_self, List.getElem?_set_self hindex]
          exact .inr rfl
      · right
        split_ifs at hdone ⊢ with hinside'
        · by_cases hc : c' = c
          · subst hc
            rw [update_self]
            by_cases hid : clust.id = clust'.id
            · -- another cluster with this id would be the same
              rw [← hid, List.getElem?_set_self hindex,
                hfunction clust clust' hclust hclust' hid]
            · have hne : clust.id.toNat ≠ clust'.id.toNat := by
                have hlow := hinside.1
                have hlow' := hinside'.1
                omega
              rw [List.getElem?_set_ne hne]
              exact hdone
          · rw [update_of_ne hc]
            exact hdone
        · exact hdone
    · rw [hmeans]
      by_cases hc : c' = c
      · subst hc
        have hne : clust.id.toNat ≠ id := by
          have hlow := hinside.1
          have hid := hnone clust hclust
          omega
        rw [update_self, List.getElem?_set_ne hne]
        exact hkept c' id hnone
      · rw [update_of_ne hc]
        exact hkept c' id hnone
  · obtain ⟨hmeans, hout⟩ := Broadcast.write_outside (hlength c ▸ hinside)
    refine ⟨hitems', fun c' => hmeans ▸ hlength c', fun c' clust' hclust' => ?_,
      fun c' => hmeans ▸ hkept c', fun _ => ⟨clust, hclust, hinside⟩⟩
    rw [hmeans, hout]
    rcases hsaved c' clust' hclust' with hpending | hdone
    · rcases hdue c' clust' hpending with hpending | ⟨rfl, rfl⟩
      · exact .inl hpending
      · rw [if_neg hinside]
        exact .inr rfl
    · right
      split_ifs at hdone ⊢
      · exact hdone
      · rfl

theorem Sending.look {r : ℕ} (h : Sending numred result means s (.look r ::ₘ rest)) :
    Sending numred result means s (rest +
      ((result r).flatMap fun clust => (List.finRange (n + 1)).map (.save · clust) :
        List (Item n Size))) := by
  obtain ⟨hitems, hlength, hsaved, hkept, houtside⟩ := h
  have hr : r < numred := by
    rcases hitems _ (mem_cons_self _ _) with ⟨r', hr', heq⟩ | ⟨c, clust, heq, -⟩
    · exact Item.look.inj heq ▸ hr'
    · cases heq
  refine ⟨fun x hx => ?_, hlength, fun c clust hclust => ?_, hkept, houtside⟩
  · rcases mem_add.mp hx with hx | hx
    · exact hitems x (mem_cons_of_mem hx)
    · obtain ⟨clust, hclust, hx⟩ := List.mem_flatMap.mp (mem_coe.mp hx)
      obtain ⟨c, -, rfl⟩ := List.mem_map.mp hx
      exact .inr ⟨c, clust, rfl, r, hr, hclust⟩
  · rcases hsaved c clust hclust with hdue | hdone
    · left
      have hlook : ∀ r', (Item.look r : Item n Size) = .look r' → clust ∈ result r' →
          Due result (rest + (((result r).flatMap fun clust => (List.finRange (n + 1)).map
            (.save · clust) : List (Item n Size)) : Multiset (Item n Size))) c clust := by
        intro r' hr' hmem
        obtain rfl := Item.look.inj hr'
        refine .inr (mem_add.mpr (.inr (mem_coe.mpr ?_)))
        exact List.mem_flatMap.mpr ⟨clust, hmem, List.mem_map_of_mem (List.mem_finRange c)⟩
      rcases hdue.of_cons (fun y hy => mem_add.mpr (.inl hy)) hlook with hdue | heq
      · exact hdue
      · cases heq
    · exact .inr hdone

/-! ### Its runs -/

def BroadcastInv (numred : ℕ) (result : ℕ → List (Cluster Size)) (means : List (Vector Size))
    (s : Broadcast n Size) (pool : Multiset (Item n Size)) : Prop :=
  match s.phase with
  | .start => s = .init n means ∧ pool = 0
  | .send => Sending numred result means s pool
  | .returned => pool = 0 ∧ Sending numred result means s 0

theorem Broadcast.write_phase (s : Broadcast n Size) (c : Fin (n + 1)) (clust : Cluster Size) :
    (s.write c clust).phase = s.phase := by
  unfold Broadcast.write
  split_ifs <;> rfl

theorem broadcast_exec (hfunction : ∀ clust clust', Results numred result clust →
    Results numred result clust' → clust.id = clust'.id → clust.center = clust'.center)
    (h : BroadcastInv numred result means s (x ::ₘ rest)) (hx : x.exec result s = some (s', new)) :
    BroadcastInv numred result means s' (rest + new) := by
  unfold BroadcastInv at h
  split at h <;> rename_i hphase
  · exact absurd h.2 cons_ne_zero
  · cases x with
    | look r =>
      cases hx
      rw [BroadcastInv, hphase]
      exact h.look
    | save c clust =>
      cases hx
      rw [BroadcastInv, Broadcast.write_phase, hphase, coe_nil, add_zero]
      exact h.save hfunction
  · exact absurd h.1 cons_ne_zero

theorem broadcast_advance (h : BroadcastInv numred result means s 0)
    (hx : s.advance numred = some (s', new)) : BroadcastInv numred result means s' new := by
  unfold BroadcastInv at h
  split at h <;> rename_i hphase <;> rw [Broadcast.advance, hphase] at hx
  · cases hx
    obtain ⟨rfl, -⟩ := h
    refine ⟨fun x hx => ?_, fun c => rfl, fun c clust hclust => ?_, fun c id _ => rfl,
      fun hfalse => absurd hfalse Bool.false_ne_true⟩
    · obtain ⟨r, hr, rfl⟩ := List.mem_map.mp hx
      exact .inl ⟨r, List.mem_range.mp hr, rfl⟩
    · obtain ⟨r, hr, hmem⟩ := hclust
      exact .inl (.inl ⟨r, List.mem_map_of_mem (List.mem_range.mpr hr), hmem⟩)
  · cases hx
    exact ⟨rfl, h.items, h.length, h.saved, h.kept, h.outside⟩
  · cases hx

/-- **The broadcast**: in the end the clusters are saved on every core, and other means are as they
    were. -/
theorem broadcast_spec (hfunction : ∀ clust clust', Results numred result clust →
    Results numred result clust' → clust.id = clust'.id → clust.center = clust'.center)
    {u : Phased.State (Broadcast n Size) (Item n Size)}
    (hu : ((broadcast numred result).system (.init n means)).Reachable u)
    (hret : u.shared.phase = .returned) : Sending numred result means u.shared 0 := by
  have hinit : BroadcastInv numred result means (.init n means) 0 := ⟨rfl, rfl⟩
  have hinv := Program.Reachable.inv (BroadcastInv numred result means) hinit
    (fun _ _ _ _ _ h hx => broadcast_exec hfunction h hx)
    (fun _ _ _ h hx => broadcast_advance h hx) hu
  rw [BroadcastInv, hret] at hinv
  exact hinv.2

/-! ### Its end -/

def Item.rank : Item n Size → ℕ
  | .look _ => 1
  | .save _ _ => 0

variable (n numred result means) in
theorem exists_broadcast : ∃ u, ((broadcast numred result).system (.init n means)).Reachable u ∧
    u.pool = [] ∧ u.shared.phase = .returned := by
  have hend : ((broadcast numred result).system (.init n means)).Terminates
      ⟨.init n means, []⟩ := by
    refine Program.terminates_of_rank (fun _ _ => True) Item.rank
      (fun s _ => match s.phase with | .start => 2 | .send => 1 | .returned => 0) trivial
      (fun s x rest s' new _ hx => ⟨trivial, .inr ?_⟩) fun s s' new _ hx => ⟨trivial, ?_⟩
    · cases x with
      | look r =>
        cases hx
        refine ⟨rfl, fun y hy => ?_⟩
        obtain ⟨clust, -, hy⟩ := List.mem_flatMap.mp hy
        obtain ⟨c, -, rfl⟩ := List.mem_map.mp hy
        exact Nat.one_pos
      | save c clust =>
        cases hx
        simp [Broadcast.write_phase]
    · simp only [broadcast, Broadcast.advance] at hx
      split at hx <;> rename_i hphase <;> cases hx <;> simp [hphase]
  obtain ⟨ls, u, hrun, hstuck⟩ := hend.exists_end
  have hended : (broadcast numred result).Ended u := by
    refine Program.ended_of_stuck (fun x _ => ?_) hstuck
    cases x <;> exact Option.some_ne_none _
  refine ⟨u, ⟨ls, hrun⟩, hended.1, ?_⟩
  have hret := hended.2
  simp only [broadcast, Broadcast.advance] at hret
  split at hret
  · cases hret
  · cases hret
  · assumption

end KMeans

end Grappa
