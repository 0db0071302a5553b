import AdvCompArch.Grappa.SquarePartition

/-! # The partitioned plan and the pipelined plan

    Both plans find the squares of a relation, each on one core: the pipelined plan on the core
    of the last vertex, and the partitioned plan on the home of the square
    (`square_plans_agree`). -/

namespace Grappa

open FourCycles Odometer List Distribute

/-! ### Homes -/

section cube

variable {k l x y z t : ℕ} {a : Atom} {e : ℕ × ℕ}

/-- The coordinates of the core that a square is counted on. -/
def coordinates (k : ℕ) (s : Square) : List ℕ := [s.1 % k, s.2.1 % k, s.2.2.1 % k, s.2.2.2 % k]

/-- The core that a square is counted on. -/
def home (k : ℕ) (s : Square) : ℕ := value (coordinates k s) [k, k, k, k]

theorem bounded_replicandIds (hk : 0 < k) (a : Atom) (e : ℕ × ℕ) :
    Bounded (replicandIds (Hypercube.makeHash k) a e) [k, k, k, k] := by
  have hmod := fun x => Nat.mod_lt x hk
  cases a <;> simp [replicandIds, Bounded, Hypercube.makeHash, hmod]

/-- **The cores of an edge in an atom**: those that have its hashes as coordinates. -/
theorem mem_locs (hk : 0 < k) (hle : k ≤ 7) : l ∈ locs k a e ↔ ∃ p, Within p [k, k, k, k] ∧
    Agrees (replicandIds (Hypercube.makeHash k) a e) p ∧ value p [k, k, k, k] = l := by
  have hbounded := bounded_replicandIds hk a e
  have hprod : [k, k, k, k].prod < 2 ^ 63 :=
    (List.prod_le_pow_card _ 7 (by simp [hle])).trans_lt (by simp)
  rw [locs, Hypercube.slice_eq hbounded (by simpa using hk) hprod, Option.getD_some, mem_map]
  simp only [mem_box hbounded, and_assoc]

theorem within_coordinates (hk : 0 < k) (s : Square) : Within (coordinates k s) [k, k, k, k] := by
  have hmod := fun x => Nat.mod_lt x hk
  simp [coordinates, Within, hmod]

theorem home_lt (hk : 0 < k) (s : Square) : home k s < k * k * k * k := by
  have h := value_lt (within_coordinates hk s)
  simpa [home, mul_assoc] using h

theorem received_iff (hk : 0 < k) (hle : k ≤ 7) : (l ∈ locs k .ab (x, y) ∧ l ∈ locs k .bc (y, z) ∧
    l ∈ locs k .cd (z, t) ∧ l ∈ locs k .da (t, x)) ↔ home k (x, y, z, t) = l := by
  have hwithin := within_coordinates hk (x, y, z, t)
  simp only [mem_locs hk hle]
  constructor
  · intro h
    obtain ⟨⟨p, hp, hab, rfl⟩, ⟨p₂, hp₂, hbc, h₂⟩, ⟨p₃, hp₃, hcd, h₃⟩, -⟩ := h
    -- the core has one point only
    obtain rfl := value_injective hp₂ hp h₂
    obtain rfl := value_injective hp₃ hp₂ h₃
    have heq : coordinates k (x, y, z, t) = p₃ := by
      obtain ⟨c₁, c₂, c₃, c₄, rfl⟩ : ∃ c₁ c₂ c₃ c₄, p₃ = [c₁, c₂, c₃, c₄] := by
        have hlen := List.Forall₂.length_eq hp
        exact length_eq_four.mp hlen
      simp [replicandIds, Agrees, Hypercube.makeHash] at hab hbc hcd
      simp [coordinates, hab, hbc, hcd]
    rw [home, heq]
  · rintro rfl
    refine ⟨⟨_, hwithin, ?_, rfl⟩, ⟨_, hwithin, ?_, rfl⟩, ⟨_, hwithin, ?_, rfl⟩,
      ⟨_, hwithin, ?_, rfl⟩⟩
    · simp [replicandIds, Agrees, Hypercube.makeHash, coordinates]
    · simp [replicandIds, Agrees, Hypercube.makeHash, coordinates]
    · simp [replicandIds, Agrees, Hypercube.makeHash, coordinates]
    · simp [replicandIds, Agrees, Hypercube.makeHash, coordinates]

end cube

/-! ### What the cores get -/

namespace SquarePartition

variable {p : SquarePartition} {β : Type} {compute : Unordered → (Atom → List (ℕ × ℕ)) → List β}
  {R : Finset (ℕ × ℕ)}

theorem sidelength_spec (hcores : 1 ≤ p.cores) : 0 < p.sidelength ∧
    p.sidelength ≤ 7 ∧ p.sidelength * p.sidelength * p.sidelength * p.sidelength ≤ p.cores := by
  obtain ⟨r, hr, hpos, hseven, hle⟩ := Hypercube.fourth_root_spec hcores
  rw [sidelength, hr]
  exact ⟨hpos, hseven, hle⟩

theorem sends_replicate : Exchange.Sends (p.plan compute)
    fun i => (p.replicate i : Multiset ((Atom × ℕ) × (ℕ × ℕ))) := by
  intro i
  simp [plan]

theorem shrinks_replicate :
    Exchange.Shrinks (p.plan compute) fun _ => 0 := by
  intro i
  simp [plan]

theorem results_eq
    {t : Phased.State (Exchange.State (Atom × ℕ) (ℕ × ℕ) β) (Exchange.Item ℕ (Atom × ℕ) (ℕ × ℕ))}
    (ht : ((p.plan compute).program.system Exchange.init).Reachable t)
    (hret : t.shared.phase = .returned) (c : ℕ) :
    t.shared.results c =
      if c < p.cores then compute p.unordered fun a => t.shared.boxes (a, c) else [] :=
  (Exchange.returned_spec sends_replicate ht hret).2 c

theorem received (hindex : p.index.IsIndex R)
    {t : Phased.State (Exchange.State (Atom × ℕ) (ℕ × ℕ) β) (Exchange.Item ℕ (Atom × ℕ) (ℕ × ℕ))}
    (ht : ((p.plan compute).program.system Exchange.init).Reachable t)
    (hret : t.shared.phase = .returned) (a : Atom) (c : ℕ) (e : ℕ × ℕ) :
    e ∈ t.shared.boxes (a, c) ↔ e ∈ R ∧ c ∈ locs p.sidelength a e := by
  have hboxes := (Exchange.returned_spec sends_replicate ht hret).1 (a, c)
  obtain ⟨v, w⟩ := e
  rw [← Multiset.mem_coe, hboxes, Exchange.mem_part, Exchange.Plan.sent, plan,
    sum_map_coe, Multiset.mem_coe]
  simp only [mem_flatMap, mem_range, replicate, mem_map, Prod.mk.injEq]
  constructor
  · intro h
    obtain ⟨i, hi, dest, hdest, a', -, l, hl, ⟨rfl, rfl⟩, rfl, rfl⟩ := h
    exact ⟨(hindex.mem_adj i dest).mp hdest, hl⟩
  · intro h
    have hadj := (hindex.mem_adj v w).mpr h.1
    refine ⟨v, hindex.lt_nv v w h.1, w, hadj, a, ?_, c, h.2, ⟨rfl, rfl⟩, rfl, rfl⟩
    cases a <;> simp

end SquarePartition

/-! ### What they count -/

/-- The cores have counted every square of the relation, each on one core and once. -/
structure CountsSquares (R : Finset (ℕ × ℕ)) (cores : ℕ) (results : ℕ → List Square) : Prop where
  total : ∑ c ∈ Finset.range cores, (results c).length = (quadruples R).card
  mem_iff : ∀ s, s ∈ quadruples R ↔ ∃ c < cores, s ∈ results c
  one_core : ∀ c < cores, ∀ c' < cores, ∀ s, s ∈ results c → s ∈ results c' → c = c'
  once : ∀ c < cores, (results c).Nodup

theorem countsSquares_of_perm {R : Finset (ℕ × ℕ)} {cores : ℕ} {results : ℕ → List Square}
    (h : ((List.range cores).flatMap results : Multiset Square) = (quadruples R).val) :
    CountsSquares R cores results := by
  have hnodup : ((range cores).flatMap results).Nodup := by
    rw [← Multiset.coe_nodup, h]
    exact (quadruples R).nodup
  obtain ⟨honce, hdisjoint⟩ := nodup_flatMap.mp hnodup
  refine ⟨?_, fun s => ?_, ?_, fun c hc => honce c (mem_range.mpr hc)⟩
  · rw [Finset.card, ← h, Multiset.coe_card, length_flatMap]
    rfl
  · rw [← Finset.mem_val, ← h, Multiset.mem_coe, mem_flatMap]
    simp only [mem_range]
  · intro c hc c' hc' s hs hs'
    by_contra hne
    have hsymm : Std.Symm (Function.onFun List.Disjoint results) := ⟨fun _ _ h => h.symm⟩
    exact hdisjoint.forall (mem_range.mpr hc) (mem_range.mpr hc') hne hs hs'

/-- **The pipelined plan** counts the squares. -/
theorem SquareQuery.countsSquares {R : Finset (ℕ × ℕ)} {q : SquareQuery}
    (h1 : q.E1_index.IsIndex R) (h2 : q.E2_index.IsIndex R) (h3 : q.E3_index.IsIndex R)
    (h4 : q.E4_index.IsIndex R) {s : TaskPool.State Item Found} (hs : q.execute.Reachable s)
    (hpool : s.pool = []) : CountsSquares R q.cores (counted s) := by
  apply countsSquares_of_perm
  rw [Multiset.coe_eq_coe.mpr (counted_perm hs), log_squares h1 h2 h3 h4 hs hpool]

theorem SquarePartition4way.countsSquares {R : Finset (ℕ × ℕ)} {p : SquarePartition}
    (hcores : 1 ≤ p.cores) (hindex : p.index.IsIndex R)
    {t : Phased.State (Exchange.State (Atom × ℕ) (ℕ × ℕ) Square)
      (Exchange.Item ℕ (Atom × ℕ) (ℕ × ℕ))}
    (ht : (execute p).Reachable t) (hret : t.shared.phase = .returned) :
    CountsSquares R p.cores t.shared.results := by
  obtain ⟨hk, hle, hcube⟩ := SquarePartition.sidelength_spec hcores
  have hresults := SquarePartition.results_eq ht hret
  have hreceived := SquarePartition.received hindex ht hret
  have hmem : ∀ c x y z t', (x, y, z, t') ∈ t.shared.results c ↔
      c < p.cores ∧ (x, y, z, t') ∈ quadruples R ∧ home p.sidelength (x, y, z, t') = c := by
    intro c x y z t'
    rw [hresults c]
    split_ifs with hc
    · rw [mem_squares, mem_quadruples, ← received_iff hk hle]
      simp only [hreceived]
      tauto
    · exact iff_of_false not_mem_nil fun h => hc h.1
  apply countsSquares_of_perm
  apply (Multiset.Nodup.ext ?_ (quadruples R).nodup).mpr
  · rintro ⟨x, y, z, t'⟩
    rw [Multiset.mem_coe, mem_flatMap, Finset.mem_val]
    simp only [mem_range, hmem]
    constructor
    · intro h
      obtain ⟨c, -, -, h, -⟩ := h
      exact h
    · intro h
      have hlt := (home_lt hk (x, y, z, t')).trans_le hcube
      exact ⟨_, hlt, hlt, h, rfl⟩
  · rw [Multiset.coe_nodup]
    apply nodup_flatMap_of_tag (home p.sidelength) nodup_range
    · intro c _
      rw [hresults c]
      split_ifs
      · exact nodup_squares
      · exact nodup_nil
    · rintro c ⟨x, y, z, t'⟩ h
      exact ((hmem c x y z t').mp h).2.2

/-! ### Both plans -/

theorem SquarePartition.terminates {β : Type} (p : SquarePartition)
    (compute : Unordered → (Atom → List (ℕ × ℕ)) → List β) :
    ((p.plan compute).program.system Exchange.init).Terminates
      ((p.plan compute).program.system Exchange.init).init :=
  Exchange.terminates shrinks_replicate

/-- **The two plans agree**: on any relation and any number of cores, and in every order of their
    tasks and messages, both return, and their cores have then counted the squares of the
    relation, each of them on one core. -/
theorem square_plans_agree {tuples : List (ℕ × ℕ)} (q : SquareQuery) (p : SquarePartition)
    (hcores : 1 ≤ p.cores) (h1 : q.E1_index.Of tuples) (h2 : q.E2_index.Of tuples)
    (h3 : q.E3_index.Of tuples) (h4 : q.E4_index.Of tuples) (hindex : p.index.Of tuples) :
    let pipelined := q.execute
    let partitioned := SquarePartition4way.execute p
    (pipelined.Terminates pipelined.init ∧
      ∀ s, pipelined.Reachable s → (∀ k, pipelined.next s k = none) → s.pool = []) ∧
    (partitioned.Terminates partitioned.init ∧ ∀ t, partitioned.Reachable t →
      (∀ l, partitioned.next t l = none) → t.shared.phase = .returned) ∧
    ∀ s t, pipelined.Reachable s → s.pool = [] → partitioned.Reachable t →
      t.shared.phase = .returned →
        ∑ c ∈ Finset.range p.cores, (t.shared.results c).length =
          ∑ c ∈ Finset.range q.cores, SquareQuery.results_count s c ∧
        CountsSquares tuples.toFinset q.cores (SquareQuery.counted s) ∧
        CountsSquares tuples.toFinset p.cores t.shared.results := by
  intro pipelined partitioned
  refine ⟨⟨q.terminates, fun s _ hstuck => SquareQuery.returns hstuck⟩,
    ⟨p.terminates _, fun t _ hstuck => Exchange.returns_of_stuck hstuck⟩, ?_⟩
  intro s t hs hpool ht hret
  have hpipelined := SquareQuery.countsSquares h1.isIndex h2.isIndex h3.isIndex h4.isIndex hs hpool
  have hpartitioned := SquarePartition4way.countsSquares hcores hindex.isIndex ht hret
  exact ⟨hpartitioned.total.trans hpipelined.total.symm, hpipelined, hpartitioned⟩

/-- A ring, with a square from each of its vertices. -/
def ring : List (ℕ × ℕ) := [(0, 1), (1, 2), (2, 3), (3, 0)]

def ring_index : EdgeIndex := (EdgeIndex.create ring ring fun _ => [4]).getD ⟨0, fun _ => []⟩

theorem ring_index_of : ring_index.Of ring := by
  refine ⟨ring, fun _ => [4], List.Perm.refl _, ?_⟩
  obtain ⟨E, hE⟩ := Option.isSome_iff_exists.mp (show (EdgeIndex.create ring ring
    fun _ => [4]).isSome = true by decide +kernel)
  rw [ring_index, hE, Option.getD_some]

/-- Four squares, on seventeen cores. -/
theorem square_plans_agree_ring :
    let q : SquareQuery :=
      ⟨17, ring_index, ring_index, ring_index, ring_index, fun _ => 1, fun _ => by decide⟩
    let p : SquarePartition := ⟨17, ring_index, inOrder⟩
    ∃ s t, q.execute.Reachable s ∧ s.pool = [] ∧
      (SquarePartition4way.execute p).Reachable t ∧ t.shared.phase = .returned ∧
      ∑ c ∈ Finset.range q.cores, SquareQuery.results_count s c = 4 ∧
      ∑ c ∈ Finset.range p.cores, (t.shared.results c).length = 4 := by
  have hindex := ring_index_of
  intro q p
  obtain ⟨⟨hend, hpool⟩, ⟨hend', hret⟩, hagree⟩ :=
    square_plans_agree q p (by decide) hindex hindex hindex hindex hindex
  obtain ⟨ls, s, hrun, hstuck⟩ := hend.exists_end
  obtain ⟨ls', t, hrun', hstuck'⟩ := hend'.exists_end
  have hs := hpool s ⟨ls, hrun⟩ hstuck
  have ht := hret t ⟨ls', hrun'⟩ hstuck'
  obtain ⟨htotal, hpipelined, -⟩ := hagree s t ⟨ls, hrun⟩ hs ⟨ls', hrun'⟩ ht
  have hfour : (quadruples ring.toFinset).card = 4 := by decide +kernel
  have hcount := hpipelined.total.trans hfour
  exact ⟨s, t, ⟨ls, hrun⟩, hs, ⟨ls', hrun'⟩, ht, hcount, htotal.trans hcount⟩

end Grappa
