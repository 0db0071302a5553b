import AdvCompArch.Lib.ByteMemory
import AdvCompArch.Lib.Stages
import AdvCompArch.Lib.Termination

/-! # Copies that run side by side

    Several copies read byte strings in the memories of some cores and write them in those of
    others; each first reads its string and later writes it, and the copies take their steps in
    any order.  Every copy belongs to somebody, its `tag`.

    If the copies move bytes of one range to the places of another one, no source byte is
    overwritten: when all are through, every byte that a copy has is at its place
    (`Inv.copied`), and places that no copy writes are unchanged (`Inv.frame`). -/

namespace Copies

open Transition ByteMemory Stages Function List Option

variable {τ κ β : Type}

/-- `len` bytes from an address of one core to an address of another one. -/
structure Copy (τ κ : Type) where
  tag : τ
  from_core : κ
  from_at : ℤ
  to_core : κ
  to_at : ℤ
  len : ℕ
  deriving DecidableEq

/-- A copy on its way, with what it has read. -/
structure Packet (τ κ β : Type) where
  copy : Copy τ κ
  payload : List β

/-- Stage 0: not read; stage 1: read; stage 2: written. -/
structure State (τ κ β : Type) where
  stages : ℕ → List (Packet τ κ β)
  memory : κ → ℤ → β

section system

variable [DecidableEq κ]

/-- Copy `k` of a stage goes on. -/
def next (s : State τ κ β) : ℕ × ℕ → Option (State τ κ β)
  | (0, k) => ((s.stages 0)[k]?).map fun x =>
    let payload := load (s.memory x.copy.from_core) x.copy.from_at x.copy.len
    { s with stages := shift s.stages 0 k { x with payload } }
  | (1, k) => ((s.stages 1)[k]?).map fun x =>
    { stages := shift s.stages 1 k x
      memory := Function.update s.memory x.copy.to_core
        (store (s.memory x.copy.to_core) x.copy.to_at x.payload) }
  | _ => none

/-- All orders of the copies `cs`. -/
def system (cs : List (Copy τ κ)) (memory : κ → ℤ → β) : System (State τ κ β) (ℕ × ℕ) :=
  ⟨⟨Function.update (fun _ => []) 0 (cs.map fun c => ⟨c, []⟩), memory⟩, next⟩

end system

/-- How many copies of a tag have been written. -/
def written [DecidableEq τ] (s : State τ κ β) (t : τ) : ℕ :=
  ((s.stages 2).map fun x => if x.copy.tag = t then 1 else 0).sum

/-- The places of `n` bytes before and after: no two are to go to one place, and none is to go
    where another one comes from. -/
structure Plan (κ : Type) where
  n : ℕ
  src : ℕ → κ × ℤ
  dst : ℕ → κ × ℤ
  injective : ∀ i < n, ∀ j < n, dst i = dst j → i = j
  apart : ∀ i < n, ∀ j < n, src i ≠ dst j

/-- The copy moves the bytes from `lo` on. -/
def Plan.Moves (p : Plan κ) (c : Copy τ κ) (lo : ℕ) : Prop :=
  ∀ x < c.len, lo + x < p.n ∧ p.src (lo + x) = (c.from_core, c.from_at + x) ∧
    p.dst (lo + x) = (c.to_core, c.to_at + x)

/-- The byte at a place. -/
def at_place (memory : κ → ℤ → β) (q : κ × ℤ) : β := memory q.1 q.2

/-- What holds between the steps. -/
structure Inv (p : Plan κ) (cs : List (Copy τ κ)) (memory : κ → ℤ → β) (s : State τ κ β) : Prop where
  known : ∀ i x, x ∈ s.stages i → x.copy ∈ cs
  covered : ∀ c ∈ cs, Covered Packet.copy 3 s.stages c
  /-- A place has its old value, or a copy has brought the new one. -/
  cells : ∀ q, at_place s.memory q = at_place memory q ∨
    ∃ c ∈ cs, ∃ lo, p.Moves c lo ∧ ∃ k < c.len, p.dst (lo + k) = q ∧
      at_place s.memory q = at_place memory (p.src (lo + k))
  loaded : ∀ i x, x ∈ s.stages i → 1 ≤ i → ∀ lo, p.Moves x.copy lo →
    x.payload = (List.range x.copy.len).map fun k => at_place memory (p.src (lo + k))
  stored : ∀ i x, x ∈ s.stages i → 2 ≤ i → ∀ lo, p.Moves x.copy lo → ∀ k < x.copy.len,
    at_place s.memory (p.dst (lo + k)) = at_place memory (p.src (lo + k))

section runs

variable [DecidableEq κ] {p : Plan κ} {cs : List (Copy τ κ)} {memory : κ → ℤ → β} {s : State τ κ β}

omit [DecidableEq κ] in
theorem Inv.src (h : Inv p cs memory s) {i : ℕ} (hi : i < p.n) :
    at_place s.memory (p.src i) = at_place memory (p.src i) := by
  rcases h.cells (p.src i) with heq | ⟨c, -, lo, hmoves, k, hk, hdst, -⟩
  · exact heq
  · exact absurd hdst.symm (p.apart i hi _ (hmoves k hk).1)

omit [DecidableEq κ] in
theorem Inv.read (h : Inv p cs memory s) {k : ℕ} {x : Packet τ κ β} (hx : (s.stages 0)[k]? = some x) :
    Inv p cs memory { s with
      stages := shift s.stages 0 k { x with
        payload := load (s.memory x.copy.from_core) x.copy.from_at x.copy.len } } where
  known := by
    intro i y hy
    rcases mem_shift hy with hy | ⟨-, rfl⟩
    · exact h.known i y hy
    · exact h.known 0 x (mem_of_getElem? hx)
  covered := by
    intro c hc
    apply covered_shift hx _ (by omega) (h.covered c hc)
    rfl
  cells := h.cells
  loaded := by
    intro i y hy hi lo hmoves
    rcases mem_shift hy with hy | ⟨-, rfl⟩
    · exact h.loaded i y hy hi lo hmoves
    · -- what it reads is still what was there at the start
      apply map_congr_left
      intro k hk
      obtain ⟨hn, hsrc, -⟩ := hmoves k (mem_range.mp hk)
      rw [← h.src hn, hsrc]
      rfl
  stored := by
    intro i y hy hi
    rcases mem_shift hy with hy | ⟨rfl, -⟩
    · exact h.stored i y hy hi
    · omega

theorem Inv.write (hcs : ∀ c ∈ cs, ∃ lo, p.Moves c lo) (h : Inv p cs memory s) {k : ℕ}
    {x : Packet τ κ β} (hx : (s.stages 1)[k]? = some x) :
    Inv p cs memory {
      stages := shift s.stages 1 k x
      memory := update s.memory x.copy.to_core
        (store (s.memory x.copy.to_core) x.copy.to_at x.payload) } := by
  have hmem := mem_of_getElem? hx
  obtain ⟨lo, hmoves⟩ := hcs _ (h.known 1 x hmem)
  have hpayload := h.loaded 1 x hmem le_rfl lo hmoves
  have hlen : x.payload.length = x.copy.len := by
    rw [hpayload, length_map, length_range]
  -- what the write leaves at a place
  obtain ⟨after, hafter⟩ : ∃ after, after = update s.memory x.copy.to_core
      (store (s.memory x.copy.to_core) x.copy.to_at x.payload) := ⟨_, rfl⟩
  rw [← hafter]
  have hcells : ∀ q, (∃ k < x.copy.len, p.dst (lo + k) = q ∧
      at_place after q = at_place memory (p.src (lo + k))) ∨
      at_place after q = at_place s.memory q := by
    rintro ⟨c, a⟩
    by_cases hc : c = x.copy.to_core
    · rw [hafter]
      unfold at_place
      simp only [hc, update_self]
      rcases store_cases (s.memory x.copy.to_core) x.copy.to_at x.payload a with
        ⟨k, hk, rfl, heq⟩ | ⟨-, heq⟩
      · have hk' : k < x.copy.len := hlen ▸ hk
        refine .inl ⟨k, hk', (hmoves k hk').2.2, ?_⟩
        rw [heq]
        simp only [hpayload, getElem_map, getElem_range]
        rfl
      · exact .inr heq
    · right
      rw [hafter]
      unfold at_place
      simp only [update_of_ne hc]
  constructor
  · intro i y hy
    rcases mem_shift hy with hy | ⟨-, rfl⟩
    · exact h.known i y hy
    · exact h.known 1 y hmem
  · exact fun c hc => covered_shift hx rfl (by omega) (h.covered c hc)
  · intro q
    rcases hcells q with ⟨k, hk, hdst, heq⟩ | heq
    · exact .inr ⟨x.copy, h.known 1 x hmem, lo, hmoves, k, hk, hdst, heq⟩
    · rw [show at_place _ q = _ from heq]
      exact h.cells q
  · intro i y hy hi
    rcases mem_shift hy with hy | ⟨-, rfl⟩
    · exact h.loaded i y hy hi
    · exact h.loaded 1 y hmem le_rfl
  · intro i y hy hi lo' hmoves' k hk
    obtain ⟨hn', -, hdst'⟩ := hmoves' k hk
    rcases hcells (p.dst (lo' + k)) with ⟨k', hk', hdst, heq⟩ | heq
    · -- a place that has just been written
      rw [p.injective _ hn' _ (hmoves k' hk').1 hdst.symm]
      rw [p.injective _ hn' _ (hmoves k' hk').1 hdst.symm] at heq
      exact heq
    · rcases mem_shift hy with hy | ⟨-, rfl⟩
      · exact heq.trans (h.stored i y hy hi lo' hmoves' k hk)
      · -- the packet that has just been written
        rw [hdst', hafter]
        unfold at_place
        simp only [update_self]
        rw [store_inside (by omega)]
        have hsame := h.loaded 1 y hmem le_rfl lo' hmoves'
        simp only [hsame, getElem_map, getElem_range]
        rfl

theorem Inv.init (p : Plan κ) (cs : List (Copy τ κ)) (memory : κ → ℤ → β) :
    Inv p cs memory (system cs memory).init := by
  have hstage : ∀ i x, x ∈ (system cs memory).init.stages i → i = 0 ∧ x.copy ∈ cs := by
    intro i x hx
    simp only [system] at hx
    by_cases hi : i = 0
    · subst hi
      rw [update_self] at hx
      obtain ⟨c, hc, rfl⟩ := mem_map.mp hx
      exact ⟨rfl, hc⟩
    · rw [update_of_ne hi] at hx
      cases hx
  constructor
  · exact fun i x hx => (hstage i x hx).2
  · intro c hc
    refine ⟨0, by omega, ⟨c, []⟩, ?_, rfl⟩
    simp only [system, update_self]
    exact mem_map.mpr ⟨c, hc, rfl⟩
  · exact fun q => .inl rfl
  · intro i x hx hi
    have := (hstage i x hx).1
    omega
  · intro i x hx hi
    have := (hstage i x hx).1
    omega

theorem next_cases {s s' : State τ κ β} {l : ℕ × ℕ} (h : next s l = some s') :
    ∃ j k x y, j < 2 ∧ (s.stages j)[k]? = some x ∧ y.copy = x.copy ∧
      s'.stages = shift s.stages j k y := by
  match l with
  | (0, k) =>
    obtain ⟨x, hx, rfl⟩ := map_eq_some_iff.mp h
    exact ⟨0, k, x, { x with payload := load (s.memory x.copy.from_core) x.copy.from_at x.copy.len },
      by omega, hx, rfl, rfl⟩
  | (1, k) =>
    obtain ⟨x, hx, rfl⟩ := map_eq_some_iff.mp h
    exact ⟨1, k, x, x, by omega, hx, rfl, rfl⟩
  | (_ + 2, _) => cases h

theorem reachable_inv (hcs : ∀ c ∈ cs, ∃ lo, p.Moves c lo) (hs : (system cs memory).Reachable s) :
    Inv p cs memory s := by
  apply hs.invariant _ (Inv.init p cs memory)
  rintro t ⟨j, k⟩ t' hinv hstep
  match j with
  | 0 =>
    obtain ⟨x, hx, rfl⟩ := map_eq_some_iff.mp hstep
    exact hinv.read hx
  | 1 =>
    obtain ⟨x, hx, rfl⟩ := map_eq_some_iff.mp hstep
    exact hinv.write hcs hx
  | _ + 2 => cases hstep

omit [DecidableEq κ] in
theorem Inv.copied (h : Inv p cs memory s) {c : Copy τ κ} (hc : c ∈ cs) {lo k : ℕ}
    (hmoves : p.Moves c lo) (hk : k < c.len)
    (hdone : ∀ x, (x ∈ s.stages 0 ∨ x ∈ s.stages 1) → x.copy ≠ c) :
    at_place s.memory (p.dst (lo + k)) = at_place memory (p.src (lo + k)) := by
  obtain ⟨j, hj, x, hx, rfl⟩ := h.covered c hc
  have hj2 : 2 ≤ j := by
    by_contra hlt
    have hj01 : j = 0 ∨ j = 1 := by omega
    rcases hj01 with rfl | rfl
    · exact hdone x (.inl hx) rfl
    · exact hdone x (.inr hx) rfl
  exact h.stored j x hx hj2 lo hmoves k hk

omit [DecidableEq κ] in
theorem Inv.frame (h : Inv p cs memory s) {q : κ × ℤ}
    (hq : ∀ c ∈ cs, ∀ lo, p.Moves c lo → ∀ k < c.len, p.dst (lo + k) ≠ q) :
    at_place s.memory q = at_place memory q := by
  rcases h.cells q with heq | ⟨c, hc, lo, hmoves, k, hk, hdst, -⟩
  · exact heq
  · exact absurd hdst (hq c hc lo hmoves k hk)

/-- What is at one place only stays there, if no copy reads on that core. -/
theorem unread {c : κ} (hcs : ∀ d ∈ cs, d.from_core ≠ c) {v : β} {a : ℤ}
    (hv : ∀ q, at_place memory q = v → q = (c, a)) (hs : (system cs memory).Reachable s) :
    ∀ q, at_place s.memory q = v → q = (c, a) := by
  have hinv := hs.invariant (fun s => (∀ x ∈ s.stages 0, x.copy.from_core ≠ c) ∧
    (∀ x ∈ s.stages 1, v ∉ x.payload) ∧ ∀ q, at_place s.memory q = v → q = (c, a)) ?_ ?_
  · exact hinv.2.2
  · refine ⟨fun x hx => ?_, fun _ hx => absurd hx not_mem_nil, hv⟩
    obtain ⟨d, hd, rfl⟩ := mem_map.mp hx
    exact hcs d hd
  · rintro s ⟨_ | _ | _, k⟩ s' ⟨hread, hpayload, hmemory⟩ hstep
    · obtain ⟨x, hx, rfl⟩ := map_eq_some_iff.mp hstep
      refine ⟨fun y hy => ?_, fun y hy => ?_, hmemory⟩ <;> dsimp only at hy
      · exact hread y ((mem_shift hy).resolve_right (by simp))
      · rcases mem_shift hy with hy | ⟨-, rfl⟩
        · exact hpayload y hy
        · intro hin
          obtain ⟨j, -, hj⟩ := mem_map.mp hin
          exact hread x (mem_of_getElem? hx) (congrArg Prod.fst (hmemory (_, _) hj))
    · obtain ⟨x, hx, rfl⟩ := map_eq_some_iff.mp hstep
      refine ⟨fun y hy => ?_, fun y hy => ?_, fun q hq => ?_⟩
      · dsimp only at hy
        exact hread y ((mem_shift hy).resolve_right (by simp))
      · dsimp only at hy
        exact hpayload y ((mem_shift hy).resolve_right (by simp))
      · simp only [at_place, update_apply] at hq
        split_ifs at hq with hc
        · rcases store_cases (s.memory x.copy.to_core) x.copy.to_at x.payload q.2 with
            ⟨j, hj, -, heq⟩ | ⟨-, heq⟩
          · rw [heq] at hq
            exact absurd (hq ▸ getElem_mem hj) (hpayload x (mem_of_getElem? hx))
          · rw [heq, ← hc] at hq
            exact hmemory q hq
        · exact hmemory q hq
    · cases hstep

/-! ### The end of a run -/

/-- The steps that the copies still have to take. -/
def rank (s : State τ κ β) : ℕ := weight (fun i _ => 2 - i) 3 s.stages

theorem next_rank {s' : State τ κ β} {l : ℕ × ℕ} (h : next s l = some s') : rank s' < rank s := by
  obtain ⟨j, k, x, y, hj, hx, -, hstages⟩ := next_cases h
  have hweight := weight_shift (n := 3) (y := y) (fun i (_ : Packet τ κ β) => 2 - i) hx (by omega)
  rw [← hstages] at hweight
  unfold rank
  omega

theorem terminates (cs : List (Copy τ κ)) (memory : κ → ℤ → β) :
    (system cs memory).Terminates (system cs memory).init :=
  System.terminates_of_measure (fun _ => True) rank (fun _ _ _ _ h => ⟨trivial, next_rank h⟩) trivial

theorem stuck_stages (hstuck : ∀ l, (system cs memory).next s l = none) :
    s.stages 0 = [] ∧ s.stages 1 = [] := by
  constructor
  · have h := hstuck (0, 0)
    cases hl : s.stages 0 with
    | nil => rfl
    | cons x l => simp [system, next, hl] at h
  · have h := hstuck (1, 0)
    cases hl : s.stages 1 with
    | nil => rfl
    | cons x l => simp [system, next, hl] at h

variable [DecidableEq τ]

theorem exists_written {k : ℕ} {c : Copy τ κ} (hc : cs[k]? = some c) :
    ∃ s, (system cs memory).Reachable s ∧ written s c.tag = 1 ∧
      s.memory = Function.update memory c.to_core
        (store (memory c.to_core) c.to_at (load (memory c.from_core) c.from_at c.len)) := by
  obtain ⟨payload, hpayload⟩ : ∃ payload, payload = load (memory c.from_core) c.from_at c.len :=
    ⟨_, rfl⟩
  -- it is read
  have h0 : ((system cs memory).init.stages 0)[k]? = some ⟨c, []⟩ := by
    simp [system, hc]
  have hread : (system cs memory).next (system cs memory).init (0, k) =
      some ⟨shift (system cs memory).init.stages 0 k ⟨c, payload⟩, memory⟩ := by
    rw [hpayload]
    exact map_eq_some_iff.mpr ⟨_, h0, rfl⟩
  -- and written
  have h1 : (shift (system cs memory).init.stages 0 k (⟨c, payload⟩ : Packet τ κ β) 1)[0]? =
      some ⟨c, payload⟩ := by
    rw [shift_to]
    rfl
  have hwrite : (system cs memory).next
      ⟨shift (system cs memory).init.stages 0 k ⟨c, payload⟩, memory⟩ (1, 0) =
      some ⟨shift (shift (system cs memory).init.stages 0 k ⟨c, payload⟩) 1 0 ⟨c, payload⟩,
        update memory c.to_core (store (memory c.to_core) c.to_at payload)⟩ := by
    simp only [system, next] at h1 ⊢
    rw [h1]
    rfl
  refine ⟨_, ⟨[(0, k), (1, 0)], System.run_cons.mpr ⟨_, hread, System.run_cons.mpr ⟨_, hwrite, rfl⟩⟩⟩,
    ?_, ?_⟩
  · have h2 : shift (shift (system cs memory).init.stages 0 k ⟨c, payload⟩) 1 0
        (⟨c, payload⟩ : Packet τ κ β) 2 = [⟨c, payload⟩] := by
      rw [shift_to, shift_other (by decide) (by decide)]
      rfl
    simp only [written, h2, map_cons, map_nil, sum_singleton, if_true]
  · rw [hpayload]

/-- The copies of a tag at all stages. -/
def tagged (t : τ) (s : State τ κ β) : ℕ :=
  weight (fun _ (x : Packet τ κ β) => if x.copy.tag = t then 1 else 0) 3 s.stages

omit [DecidableEq κ] in
theorem tagged_eq (t : τ) (s : State τ κ β) :
    tagged t s = ((s.stages 0).map fun x => if x.copy.tag = t then 1 else 0).sum +
      ((s.stages 1).map fun x => if x.copy.tag = t then 1 else 0).sum + written s t := by
  simp [tagged, weight, written, Finset.sum_range_succ]

/-- No copy is lost or doubled. -/
theorem reachable_tagged (t : τ) (hs : (system cs memory).Reachable s) :
    tagged t s = (cs.map fun c => if c.tag = t then 1 else 0).sum := by
  apply hs.invariant (fun s => tagged t s = (cs.map fun c => if c.tag = t then 1 else 0).sum)
  · rw [tagged_eq]
    simp [system, written, comp_def]
  · intro s l s' hinv hstep
    obtain ⟨j, k, x, y, hj, hx, hcopy, hstages⟩ := next_cases hstep
    have hweight := weight_shift (n := 3) (y := y)
      (fun _ (x : Packet τ κ β) => if x.copy.tag = t then 1 else 0) hx (by omega)
    rw [← hinv, tagged, hstages]
    rw [hcopy] at hweight
    unfold tagged
    omega

theorem written_of_stuck (t : τ) (hs : (system cs memory).Reachable s)
    (hstuck : ∀ l, (system cs memory).next s l = none) :
    written s t = (cs.map fun c => if c.tag = t then 1 else 0).sum := by
  obtain ⟨h0, h1⟩ := stuck_stages hstuck
  rw [← reachable_tagged t hs, tagged_eq, h0, h1]
  simp

theorem none_left {t : τ} (hs : (system cs memory).Reachable s)
    (hw : (cs.map fun c => if c.tag = t then 1 else 0).sum ≤ written s t) {x : Packet τ κ β}
    (hx : x ∈ s.stages 0 ∨ x ∈ s.stages 1) : x.copy.tag ≠ t := by
  intro htag
  have htotal := reachable_tagged t hs
  rw [tagged_eq] at htotal
  have hone : ∀ l : List (Packet τ κ β), x ∈ l →
      1 ≤ (l.map fun x => if x.copy.tag = t then 1 else 0).sum := by
    intro l hl
    have hmem : 1 ∈ l.map fun x => if x.copy.tag = t then 1 else 0 :=
      mem_map.mpr ⟨x, hl, if_pos htag⟩
    exact single_le_sum (fun _ _ => Nat.zero_le _) 1 hmem
  rcases hx with hx | hx
  · have := hone _ hx
    omega
  · have := hone _ hx
    omega

end runs

end Copies
