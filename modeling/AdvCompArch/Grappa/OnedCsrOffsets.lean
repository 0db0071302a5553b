import AdvCompArch.Grappa.BucketSortInvariant
import AdvCompArch.Grappa.OnedCsrDegrees
import AdvCompArch.Lib.ForEach
import Mathlib.Algebra.BigOperators.Fin

/-! # Offsets of the vertices

    The passes of `prefix_sum` give every block of vertices to a core and add up there, and what it
    comes to is a `Layout`: the vertices have ranges that lie one after the other, each with room for
    the edges of its vertex.  `prefix_count` still has what it had after the call before, which only
    leaves gaps between the ranges of two cores (`Sum.order`). -/

namespace Grappa

namespace OnedCsr

open Function Multiset BucketSort

open BucketSort (forall_count prefix_sums)

variable {n : ℕ} {s s' : State n} {rest : Multiset (Item n)} {x : Item n} {new : List (Item n)}
  {tg : Call n} {N : ℕ} {z : ℕ → ℕ}

/-! ### Blocks of vertices -/

section blocks

variable (n N)

/-- The first vertex of a core. -/
def start (c : Fin (n + 1)) : ℕ := (blockDist 0 N c (n + 1)).start

/-- How many vertices a core has. -/
def size (c : Fin (n + 1)) : ℕ := (blockDist 0 N c (n + 1)).stop - (blockDist 0 N c (n + 1)).start

variable {n N} {c d : Fin (n + 1)} {i j : ℕ}

theorem stop_eq (c : Fin (n + 1)) : (blockDist 0 N c (n + 1)).stop = start n N c + size n N c := by
  have hle : (blockDist 0 N c (n + 1)).start ≤ (blockDist 0 N c (n + 1)).stop := blockDist_start_le
  unfold start size
  omega

theorem start_add_lt (hi : i < size n N c) : start n N c + i < N := by
  have hle : (blockDist 0 N c (n + 1)).stop ≤ N := blockDist_stop_le (show 0 < n + 1 by omega) c.isLt
  rw [stop_eq] at hle
  omega

theorem start_add_le (h : c < d) : start n N c + size n N c ≤ start n N d := by
  rw [← stop_eq]
  exact BlockDistribution.stop_le_start h d.isLt.le

theorem exists_location {v : ℕ} (hv : v < N) : ∃ c, ∃ i < size n N c, v = start n N c + i := by
  obtain ⟨c, hc, hlo, hhi⟩ := exists_block (show 0 < n + 1 by omega) hv
  have hstop := stop_eq (n := n) (N := N) ⟨c, hc⟩
  refine ⟨⟨c, hc⟩, v - start n N ⟨c, hc⟩, ?_, ?_⟩ <;> simp only [start] at hstop ⊢ <;> omega

theorem location_lt (h : start n N c + i < start n N d + j) (hj : j < size n N d) :
    c < d ∨ c = d ∧ i < j := by
  rcases lt_trichotomy c d with hlt | rfl | hgt
  · exact .inl hlt
  · exact .inr ⟨rfl, by omega⟩
  · have := start_add_le (N := N) hgt
    omega

theorem location_unique (hi : i < size n N c) (hj : j < size n N d)
    (h : start n N c + i = start n N d + j) : c = d ∧ i = j := by
  rcases lt_trichotomy c d with hlt | rfl | hgt
  · have := start_add_le (N := N) hlt
    omega
  · exact ⟨rfl, by omega⟩
  · have := start_add_le (N := N) hgt
    omega

/-- The block and the offset that are computed for a vertex. -/
theorem indexToBlock_location (hi : i < size n N c) :
    BlockDistribution.exactIndexToBlock (start n N c + i : ℕ) N (n + 1 : ℕ) =
      some ⟨(c : ℕ), i⟩ := by
  obtain ⟨b, hb, offset, _, heq, hstart, hstop⟩ :=
    BlockDistribution.indexToBlock_spec (start_add_lt hi) (show 0 < n + 1 by omega)
  have hstop' := stop_eq (n := n) (N := N) ⟨b, hb⟩
  simp only [start] at hstop' hstart hstop
  have hoffset : offset < size n N ⟨b, hb⟩ := by omega
  obtain ⟨rfl, rfl⟩ := location_unique (d := ⟨b, hb⟩) hi hoffset (by simp only [start]; omega)
  exact heq

end blocks

/-! ### To the blocks -/

/-- What a core gets of the sizes of the ranges. -/
def block (N : ℕ) (z : ℕ → ℕ) (c : Fin (n + 1)) : List ℕ :=
  (List.range (size n N c)).map fun i => z (start n N c + i)

@[simp] theorem length_block (c : Fin (n + 1)) : (block N z c).length = size n N c := by simp [block]

/-- The degrees go to the blocks. -/
structure Gather (s : State n) (pool : Multiset (Item n)) : Prop where
  items : ∀ x ∈ pool, (∃ v < s.nv, x = .gather v) ∨
    ∃ c, ∃ i < size n s.nv c, x = .store c i (s.offset (start n s.nv c + i))
  length : s.xoff.length = 2 * s.nv + 2
  degrees : ∀ v < s.nv, (s.tg.ends v).length ≤ s.offset v
  sizes : ∀ c, (s.prefix_temp_base c).length = size n s.nv c
  done : ∀ c, ∀ i < size n s.nv c,
    (s.prefix_temp_base c)[i]? = some (s.offset (start n s.nv c + i)) ∨
      .gather (start n s.nv c + i) ∈ pool ∨ .store c i (s.offset (start n s.nv c + i)) ∈ pool

theorem Minvect.gather (h : Minvect s 0) {temp : Fin (n + 1) → List ℕ} {total_sum : ℕ}
    (htemp : ∀ c, (temp c).length = size n s.nv c) :
    Gather { s with pass := .gather, prefix_temp_base := temp, total_sum := total_sum }
      ((List.range s.nv).map .gather : List (Item n)) := by
  refine ⟨fun y hy => .inl ?_, h.length, h.degrees, htemp, fun c i hi => .inr (.inl ?_)⟩
  · obtain ⟨v, hv, rfl⟩ := List.mem_map.mp hy
    exact ⟨v, List.mem_range.mp hv, rfl⟩
  · exact mem_coe.mpr (List.mem_map_of_mem (List.mem_range.mpr (start_add_lt hi)))

theorem Gather.exec (h : Gather s (x ::ₘ rest)) (hx : x.exec s = (s', new)) :
    Gather s' (rest + new) ∧ s'.failed = s.failed := by
  have hrest : ∀ y ∈ rest, (∃ v < s.nv, y = .gather v) ∨
      ∃ c, ∃ i < size n s.nv c, y = .store c i (s.offset (start n s.nv c + i)) :=
    fun y hy => h.items y (mem_cons_of_mem hy)
  rcases h.items x (mem_cons_self x rest) with ⟨v, hv, rfl⟩ | ⟨c, i, hi, rfl⟩
  · obtain ⟨c, i, hi, rfl⟩ := exists_location (n := n) hv
    have hget : s.xoff[XOFF (start n s.nv c + i)]? = some (s.offset (start n s.nv c + i)) := by
      rw [State.offset, List.getD_eq_getElem?_getD, List.getElem?_eq_getElem (XOFF_lt h.length hv)]
      rfl
    simp only [Item.exec, indexToBlock_location hi, hget, Int.toNat_natCast, c.isLt, dif_pos] at hx
    cases hx
    refine ⟨⟨fun y hy => ?_, h.length, h.degrees, h.sizes, fun d j hj => ?_⟩, rfl⟩
    · rcases mem_add.mp hy with hy | hy
      · exact hrest y hy
      · obtain rfl := List.mem_singleton.mp hy
        exact .inr ⟨c, i, hi, rfl⟩
    · rcases h.done d j hj with hdone | hmem | hmem
      · exact .inl hdone
      · rcases mem_cons.mp hmem with hitem | hmem
        · -- the vertex has this place only
          obtain ⟨rfl, rfl⟩ := location_unique hj hi (Item.gather.inj hitem)
          exact .inr (.inr (mem_add.mpr (.inr (by simp))))
        · exact .inr (.inl (mem_add.mpr (.inl hmem)))
      · have hmem' := (mem_cons.mp hmem).resolve_left fun hitem => by cases hitem
        exact .inr (.inr (mem_add.mpr (.inl hmem')))
  · have hlt : i < (s.prefix_temp_base c).length := by
      rw [h.sizes]
      exact hi
    simp only [Item.exec, if_pos hlt] at hx
    cases hx
    rw [coe_nil, add_zero]
    refine ⟨⟨hrest, h.length, h.degrees, fun d => ?_, fun d j hj => ?_⟩, rfl⟩
    · by_cases hd : d = c
      · subst hd
        simpa using h.sizes d
      · simp only [update_of_ne hd]
        exact h.sizes d
    · by_cases hat : d = c ∧ j = i
      · obtain ⟨rfl, rfl⟩ := hat
        refine .inl ?_
        simp only [update_self, List.getElem?_set_self hlt]
        rfl
      · have hsame : (update s.prefix_temp_base c
            ((s.prefix_temp_base c).set i (s.offset (start n s.nv c + i))) d)[j]? =
            (s.prefix_temp_base d)[j]? := by
          by_cases hd : d = c
          · subst hd
            rw [update_self, List.getElem?_set_ne fun hij => hat ⟨rfl, hij.symm⟩]
          · rw [update_of_ne hd]
        rcases h.done d j hj with hdone | hmem | hmem
        · exact .inl (hsame.trans hdone)
        · exact .inr (.inl ((mem_cons.mp hmem).resolve_left fun hitem => by cases hitem))
        · refine .inr (.inr ((mem_cons.mp hmem).resolve_left fun hitem => hat ?_))
          obtain ⟨hd, hj, _⟩ := Item.store.inj hitem
          exact ⟨hd, hj⟩

theorem Gather.temp (h : Gather s 0) (c : Fin (n + 1)) : s.prefix_temp_base c = block s.nv s.offset c := by
  apply List.ext_getElem?
  intro i
  by_cases hi : i < size n s.nv c
  · rcases h.done c i hi with hdone | hmem | hmem
    · rw [hdone, block, List.getElem?_map, List.getElem?_range hi]
      rfl
    · exact absurd hmem (notMem_zero _)
    · exact absurd hmem (notMem_zero _)
  · have hsize := h.sizes c
    rw [List.getElem?_eq_none (by omega), List.getElem?_eq_none (by simpa using hi)]

/-! ### Sums of the blocks -/

/-- What an item brings to the `prefix_count` of a core. -/
def Item.sends (s : State n) (c : Fin (n + 1)) : Item n → ℕ
  | .sum d => if d < c then (s.prefix_temp_base d).sum else 0
  | .fetch_and_add d local_sum => if d = c then local_sum else 0
  | _ => 0

/-- Each core sends the sum of its block to the later cores. -/
structure Sum (s : State n) (pool : Multiset (Item n)) : Prop where
  items : ∀ x ∈ pool, (∃ c, x = .sum c) ∨ ∃ c local_sum, x = .fetch_and_add c local_sum
  length : s.xoff.length = 2 * s.nv + 2
  degrees : ∀ v < s.nv, (s.tg.ends v).length ≤ s.offset v
  temp : ∀ c, s.prefix_temp_base c = block s.nv s.offset c
  local_sum : ∀ c, s.local_sum c = (s.prefix_temp_base c).sum ∨ .sum c ∈ pool
  /-- The later core has, or gets, all that the earlier one has and its sum. -/
  order : ∀ c d, c < d →
    s.prefix_count c + (pool.map (Item.sends s c)).sum + (s.prefix_temp_base c).sum ≤
      s.prefix_count d + (pool.map (Item.sends s d)).sum

theorem Gather.sum (h : Gather s 0) (hmono : ∀ c d, c ≤ d → s.prefix_count c ≤ s.prefix_count d) :
    Sum { s with pass := .sum } ((List.finRange (n + 1)).map .sum : List (Item n)) := by
  refine ⟨fun y hy => .inl ?_, h.length, h.degrees, h.temp, fun c => .inr ?_, fun c d hcd => ?_⟩
  · obtain ⟨c, _, rfl⟩ := List.mem_map.mp hy
    exact ⟨c, rfl⟩
  · exact List.mem_map_of_mem (List.mem_finRange c)
  · have hsum : ∀ c : Fin (n + 1), ((((List.finRange (n + 1)).map .sum : List (Item n)) :
        Multiset (Item n)).map (Item.sends { s with pass := .sum } c)).sum =
        ∑ e, if e < c then (s.prefix_temp_base e).sum else 0 := by
      intro c
      rw [map_coe, sum_coe, List.map_map, Fin.sum_univ_def]
      rfl
    have hself : (s.prefix_temp_base c).sum = ∑ e, if e = c then (s.prefix_temp_base e).sum else 0 := by
      simp
    rw [hsum, hsum, add_assoc]
    refine Nat.add_le_add (hmono c d hcd.le) ?_
    show (∑ e, if e < c then (s.prefix_temp_base e).sum else 0) + (s.prefix_temp_base c).sum ≤ _
    rw [hself, ← Finset.sum_add_distrib]
    apply Finset.sum_le_sum
    intro e _
    by_cases hec : e = c
    · subst hec
      simp [hcd]
    · by_cases hlt : e < c
      · simp [hec, hlt, hlt.trans hcd]
      · simp [hec, hlt]

theorem sum_sends (s : State n) (c d : Fin (n + 1)) (local_sum : ℕ) :
    ((((List.finRange (n + 1)).filter (c < ·)).map (.fetch_and_add · local_sum) : List (Item n)).map
      (Item.sends s d)).sum = if c < d then local_sum else 0 := by
  have hcount : ∀ l : List (Fin (n + 1)), ((l.map (.fetch_and_add · local_sum) : List (Item n)).map
      (Item.sends s d)).sum = l.count d * local_sum := by
    intro l
    induction l with
    | nil => simp
    | cons e l ih =>
      rw [List.map_cons, List.map_cons, List.sum_cons, ih, List.count_cons]
      by_cases hed : e = d
      · simp [Item.sends, hed, add_mul, add_comm]
      · simp [Item.sends, hed]
  rw [hcount]
  by_cases hcd : c < d
  · rw [if_pos hcd, List.count_filter (by simpa using hcd),
      List.count_eq_one_of_mem (List.nodup_finRange _) (List.mem_finRange d), one_mul]
  · have hnone : d ∉ (List.finRange (n + 1)).filter (c < ·) := by simpa using hcd
    rw [if_neg hcd, List.count_eq_zero.mpr hnone, zero_mul]

theorem Sum.exec (h : Sum s (x ::ₘ rest)) (hx : x.exec s = (s', new)) :
    Sum s' (rest + new) ∧ s'.failed = s.failed := by
  have hrest : ∀ y ∈ rest, (∃ c, y = .sum c) ∨ ∃ c local_sum, y = .fetch_and_add c local_sum :=
    fun y hy => h.items y (mem_cons_of_mem hy)
  rcases h.items x (mem_cons_self x rest) with ⟨e, rfl⟩ | ⟨e, local_sum, rfl⟩
  · cases hx
    refine ⟨⟨fun y hy => ?_, h.length, h.degrees, h.temp, fun c => ?_, fun c d hcd => ?_⟩, rfl⟩
    · rcases mem_add.mp hy with hy | hy
      · exact hrest y hy
      · obtain ⟨c, _, rfl⟩ := List.mem_map.mp hy
        exact .inr ⟨c, _, rfl⟩
    · by_cases hc : c = e
      · subst hc
        exact .inl (update_self ..)
      · simp only [update_of_ne hc]
        rcases h.local_sum c with hdone | hmem
        · exact .inl hdone
        · have hmem' := (mem_cons.mp hmem).resolve_left fun hitem => hc (Item.sum.inj hitem)
          exact .inr (mem_add.mpr (.inl hmem'))
    · -- the sum is on its way, and counts as before
      have hold := h.order c d hcd
      rw [map_cons, sum_cons, map_cons, sum_cons] at hold
      rw [map_add, sum_add, map_add, sum_add, map_coe,
        sum_coe, map_coe, sum_coe, sum_sends, sum_sends]
      rw [add_comm (sum _) (if e < c then _ else _),
        add_comm (sum _) (if e < d then _ else _)]
      exact hold
  · cases hx
    rw [coe_nil, add_zero]
    refine ⟨⟨hrest, h.length, h.degrees, h.temp, fun c => ?_, fun c d hcd => ?_⟩, rfl⟩
    · rcases h.local_sum c with hdone | hmem
      · exact .inl hdone
      · exact .inr ((mem_cons.mp hmem).resolve_left fun hitem => by cases hitem)
    · have hold := h.order c d hcd
      rw [map_cons, sum_cons, map_cons, sum_cons] at hold
      -- the sum arrives
      have harrive : ∀ f, update s.prefix_count e (s.prefix_count e + local_sum) f +
          (rest.map (Item.sends s f)).sum =
          s.prefix_count f + ((Item.fetch_and_add e local_sum).sends s f +
            (rest.map (Item.sends s f)).sum) := by
        intro f
        by_cases hf : f = e
        · subst hf
          simp [Item.sends, add_assoc]
        · simp [Item.sends, update_of_ne hf, Ne.symm hf]
      have hc := harrive c
      have hd := harrive d
      show update s.prefix_count e (s.prefix_count e + local_sum) c +
        (rest.map (Item.sends s c)).sum + (s.prefix_temp_base c).sum ≤
        update s.prefix_count e (s.prefix_count e + local_sum) d +
          (rest.map (Item.sends s d)).sum
      omega

/-! ### Back from the blocks -/

/-- Where the range of a vertex starts, from what its core starts at. -/
def State.rangeStart (s : State n) (z : ℕ → ℕ) (c : Fin (n + 1)) (i : ℕ) : ℕ :=
  s.prefix_count c + ((OnedCsr.block s.nv z c).take i).sum

/-- The offsets go back to the vertices, whose ranges have the sizes `z`. -/
structure Scan (z : ℕ → ℕ) (s : State n) (pool : Multiset (Item n)) : Prop where
  items : ∀ x ∈ pool, (∃ c, x = .scan c) ∨
    (∃ c, ∃ i < size n s.nv c, x = .put_back c i ∧ .scan c ∉ pool) ∨
    ∃ c, ∃ i < size n s.nv c, x = .write (XOFF (start n s.nv c + i)) (s.rangeStart z c i)
  once : ∀ c, pool.count (.scan c) ≤ 1
  length : s.xoff.length = 2 * s.nv + 2
  degrees : ∀ v < s.nv, (s.tg.ends v).length ≤ z v
  order : ∀ c d, c < d → s.prefix_count c + (block s.nv z c).sum ≤ s.prefix_count d
  local_sum : ∀ c, s.local_sum c = (block s.nv z c).sum
  temp : ∀ c, s.prefix_temp_base c =
    if .scan c ∈ pool then block s.nv z c else prefix_sums (s.prefix_count c) (block s.nv z c)
  placed : ∀ c, ∀ i < size n s.nv c, s.offset (start n s.nv c + i) = s.rangeStart z c i ∨
    .scan c ∈ pool ∨ .put_back c i ∈ pool ∨
    .write (XOFF (start n s.nv c + i)) (s.rangeStart z c i) ∈ pool
  total_sum : s.total_sum = s.prefix_count (Fin.last n) + (block s.nv z (Fin.last n)).sum + MINVECT_SIZE ∨
    .scan (Fin.last n) ∈ pool

theorem Sum.scan (h : Sum s 0) :
    Scan s.offset { s with pass := .scan } ((List.finRange (n + 1)).map .scan : List (Item n)) := by
  have hmem : ∀ c : Fin (n + 1), .scan c ∈ (((List.finRange (n + 1)).map .scan : List (Item n)) :
      Multiset (Item n)) :=
    fun c => List.mem_map_of_mem (List.mem_finRange c)
  refine ⟨fun y hy => .inl ?_, fun c => ?_, h.length, h.degrees, fun c d hcd => ?_, fun c => ?_,
    fun c => ?_, fun c i hi => .inr (.inl (hmem c)), .inr (hmem _)⟩
  · obtain ⟨c, _, rfl⟩ := List.mem_map.mp hy
    exact ⟨c, rfl⟩
  · rw [coe_count]
    exact List.nodup_iff_count_le_one.mp
      ((List.nodup_finRange _).map fun _ _ heq => Item.scan.inj heq) _
  · have horder := h.order c d hcd
    simp only [map_zero, sum_zero, add_zero] at horder
    rw [← h.temp c]
    exact horder
  · rw [← h.temp c]
    exact (h.local_sum c).resolve_right (notMem_zero _)
  · rw [if_pos (hmem c)]
    exact h.temp c

theorem forall_count_size (hN : N < 2 ^ 47) (c : Fin (n + 1)) :
    forall_count ((blockDist 0 N c (n + 1)).stop - (blockDist 0 N c (n + 1)).start) = size n N c := by
  have hle : (blockDist 0 N c (n + 1)).stop ≤ N := blockDist_stop_le (show 0 < n + 1 by omega) c.isLt
  exact forall_count_of_lt (by omega)

theorem Scan.exec_scan (hN : s.nv < 2 ^ 47) {e : Fin (n + 1)} (h : Scan z s (.scan e ::ₘ rest))
    (hx : (Item.scan e).exec s = (s', new)) : Scan z s' (rest + new) ∧ s'.failed = s.failed := by
  have hcount : forall_count ((s.block e).stop - (s.block e).start) = size n s.nv e :=
    forall_count_size hN e
  simp only [Item.exec, hcount] at hx
  cases hx
  have hnone : .scan e ∉ rest := by
    have honce := h.once e
    rw [count_cons_self] at honce
    exact count_eq_zero.mp (by omega)
  have hnew : ∀ c, Item.scan c ∉ (((List.range (size n s.nv e)).map (.put_back e) : List (Item n)) :
      Multiset (Item n)) := by
    intro c hmem
    obtain ⟨i, _, heq⟩ := List.mem_map.mp hmem
    cases heq
  have hscan : ∀ c, Item.scan c ∈ rest + (((List.range (size n s.nv e)).map (.put_back e) :
      List (Item n)) : Multiset (Item n)) ↔ c ≠ e ∧ .scan c ∈ Item.scan e ::ₘ rest := by
    intro c
    rw [mem_add, or_iff_left (hnew c), mem_cons]
    constructor
    · intro hmem
      exact ⟨fun heq => hnone (heq ▸ hmem), .inr hmem⟩
    · rintro ⟨hne, hitem | hmem⟩
      · exact absurd (Item.scan.inj hitem) hne
      · exact hmem
  have htemp := h.temp e
  rw [if_pos (mem_cons_self _ _)] at htemp
  refine ⟨⟨fun y hy => ?_, fun c => ?_, h.length, h.degrees, h.order, h.local_sum, fun c => ?_,
    fun c i hi => ?_, ?_⟩, rfl⟩
  · rcases mem_add.mp hy with hy | hy
    · rcases h.items y (mem_cons_of_mem hy) with hitem | ⟨c, i, hi, rfl, hout⟩ | hitem
      · exact .inl hitem
      · exact .inr (.inl ⟨c, i, hi, rfl, fun hmem => hout ((hscan c).mp hmem).2⟩)
      · exact .inr (.inr hitem)
    · obtain ⟨i, hi, rfl⟩ := List.mem_map.mp hy
      exact .inr (.inl ⟨e, i, List.mem_range.mp hi, rfl, fun hmem => ((hscan e).mp hmem).1 rfl⟩)
  · rw [count_add, count_eq_zero.mpr (hnew c), add_zero]
    exact (count_le_of_le _ (le_cons_self rest _)).trans (h.once c)
  · by_cases hc : c = e
    · subst hc
      rw [if_neg fun hmem => ((hscan c).mp hmem).1 rfl]
      simp only [update_self, htemp]
    · simp only [update_of_ne hc, hscan, ne_eq, hc, not_false_eq_true, true_and]
      exact h.temp c
  · rcases h.placed c i hi with hdone | hmem | hmem | hmem
    · exact .inl hdone
    · by_cases hc : c = e
      · subst hc
        have hput : Item.put_back c i ∈ (List.range (size n s.nv c)).map (Item.put_back c) :=
          List.mem_map_of_mem (List.mem_range.mpr hi)
        exact .inr (.inr (.inl (mem_add.mpr (.inr (mem_coe.mpr hput)))))
      · exact .inr (.inl ((hscan c).mpr ⟨hc, hmem⟩))
    · have hmem' := (mem_cons.mp hmem).resolve_left fun hitem => by cases hitem
      exact .inr (.inr (.inl (mem_add.mpr (.inl hmem'))))
    · have hmem' := (mem_cons.mp hmem).resolve_left fun hitem => by cases hitem
      exact .inr (.inr (.inr (mem_add.mpr (.inl hmem'))))
  · by_cases hlast : e = Fin.last n
    · subst hlast
      refine .inl ?_
      simp only [if_true, h.local_sum]
    · simp only [if_neg hlast]
      rcases h.total_sum with hdone | hmem
      · exact .inl hdone
      · exact .inr ((hscan _).mpr ⟨Ne.symm hlast, hmem⟩)

theorem Scan.exec_put_back {e : Fin (n + 1)} {j : ℕ} (h : Scan z s (.put_back e j ::ₘ rest))
    (hj : j < size n s.nv e) (hout : .scan e ∉ Item.put_back e j ::ₘ rest)
    (hx : (Item.put_back e j).exec s = (s', new)) :
    Scan z s' (rest + new) ∧ s'.failed = s.failed := by
  have htemp := h.temp e
  rw [if_neg hout] at htemp
  have hget : (s.prefix_temp_base e)[j]? = some (s.rangeStart z e j) := by
    rw [htemp, getElem?_prefix_sums (by simpa using hj)]
    rfl
  simp only [Item.exec, hget] at hx
  cases hx
  have hscan : ∀ c, Item.scan c ∈ rest + (([.write (XOFF ((s.block e).start + j)) (s.rangeStart z e j)] :
      List (Item n)) : Multiset (Item n)) ↔ .scan c ∈ Item.put_back e j ::ₘ rest := by
    intro c
    simp
  refine ⟨⟨fun y hy => ?_, fun c => ?_, h.length, h.degrees, h.order, h.local_sum, fun c => ?_,
    fun c i hi => ?_, ?_⟩, rfl⟩
  · rcases mem_add.mp hy with hy | hy
    · rcases h.items y (mem_cons_of_mem hy) with hitem | ⟨c, i, hi, rfl, hout⟩ | hitem
      · exact .inl hitem
      · exact .inr (.inl ⟨c, i, hi, rfl, fun hmem => hout ((hscan c).mp hmem)⟩)
      · exact .inr (.inr hitem)
    · obtain rfl := List.mem_singleton.mp hy
      exact .inr (.inr ⟨e, j, hj, rfl⟩)
  · have honce := h.once c
    simpa [count_cons] using honce
  · simp only [hscan]
    exact h.temp c
  · rcases h.placed c i hi with hdone | hmem | hmem | hmem
    · exact .inl hdone
    · exact .inr (.inl ((hscan c).mpr hmem))
    · rcases mem_cons.mp hmem with hitem | hmem
      · obtain ⟨rfl, rfl⟩ := Item.put_back.inj hitem
        refine .inr (.inr (.inr (mem_add.mpr (.inr ?_))))
        exact mem_coe.mpr List.mem_cons_self
      · exact .inr (.inr (.inl (mem_add.mpr (.inl hmem))))
    · have hmem' := (mem_cons.mp hmem).resolve_left fun hitem => by cases hitem
      exact .inr (.inr (.inr (mem_add.mpr (.inl hmem'))))
  · exact h.total_sum.imp_right (hscan _).mpr

theorem Scan.exec_write {e : Fin (n + 1)} {j : ℕ} (hj : j < size n s.nv e)
    (h : Scan z s (.write (XOFF (start n s.nv e + j)) (s.rangeStart z e j) ::ₘ rest))
    (hx : (Item.write (XOFF (start n s.nv e + j)) (s.rangeStart z e j)).exec s = (s', new)) :
    Scan z s' (rest + new) ∧ s'.failed = s.failed := by
  have hlt := XOFF_lt h.length (start_add_lt hj)
  simp only [Item.exec, if_pos hlt] at hx
  cases hx
  rw [coe_nil, add_zero]
  have hscan : ∀ c, .scan c ∈ rest ↔
      .scan c ∈ Item.write (XOFF (start n s.nv e + j)) (s.rangeStart z e j) ::ₘ rest := by
    intro c
    simp
  refine ⟨⟨fun y hy => ?_, fun c => ?_, by simpa using h.length, h.degrees, h.order, h.local_sum,
    fun c => ?_, fun c i hi => ?_, ?_⟩, rfl⟩
  · rcases h.items y (mem_cons_of_mem hy) with hitem | ⟨c, i, hi, rfl, hout⟩ | hitem
    · exact .inl hitem
    · exact .inr (.inl ⟨c, i, hi, rfl, fun hmem => hout ((hscan c).mp hmem)⟩)
    · exact .inr (.inr hitem)
  · exact (count_le_of_le _ (le_cons_self rest _)).trans (h.once c)
  · simp only [hscan]
    exact h.temp c
  · by_cases hat : start n s.nv c + i = start n s.nv e + j
    · obtain ⟨rfl, rfl⟩ := location_unique hi hj hat
      refine .inl ?_
      simp only [State.offset, List.getD_eq_getElem?_getD, List.getElem?_set_self hlt]
      rfl
    · have hsame : (s.xoff.set (XOFF (start n s.nv e + j)) (s.rangeStart z e j)).getD
          (XOFF (start n s.nv c + i)) 0 = s.offset (start n s.nv c + i) := by
        rw [State.offset, List.getD_eq_getElem?_getD, List.getD_eq_getElem?_getD,
          List.getElem?_set_ne fun heq => hat (XOFF_inj.mp heq).symm]
      rcases h.placed c i hi with hdone | hmem | hmem | hmem
      · exact .inl (hsame.trans hdone)
      · exact .inr (.inl ((hscan c).mpr hmem))
      · exact .inr (.inr (.inl ((mem_cons.mp hmem).resolve_left fun hitem => by cases hitem)))
      · refine .inr (.inr (.inr ((mem_cons.mp hmem).resolve_left fun hitem => hat ?_)))
        exact XOFF_inj.mp (Item.write.inj hitem).1
  · exact h.total_sum.imp_right (hscan _).mpr

theorem Scan.exec (hN : s.nv < 2 ^ 47) (h : Scan z s (x ::ₘ rest)) (hx : x.exec s = (s', new)) :
    Scan z s' (rest + new) ∧ s'.failed = s.failed := by
  rcases h.items x (mem_cons_self x rest) with ⟨c, rfl⟩ | ⟨c, i, hi, rfl, hout⟩ |
    ⟨c, i, hi, rfl⟩
  · exact h.exec_scan hN hx
  · exact h.exec_put_back hi hout hx
  · exact h.exec_write hi hx

/-! ### Ranges of the vertices -/

/-- The ranges of the vertices start at `off` and have room for `z` entries.  They lie one after the
    other, each has room for the edges of its vertex, and they end before the total. -/
structure Layout (tg : Call n) (nv total_sum : ℕ) (off z : ℕ → ℕ) : Prop where
  degrees : ∀ v < nv, (tg.ends v).length ≤ z v
  order : ∀ v w, v < w → w < nv → off v + z v ≤ off w
  bound : ∀ v < nv, off v + z v + MINVECT_SIZE ≤ total_sum

theorem sum_take_add {l : List ℕ} {i j : ℕ} (hi : i < l.length) (hij : i < j) :
    (l.take i).sum + l[i] ≤ (l.take j).sum := by
  obtain ⟨d, rfl⟩ := Nat.exists_eq_add_of_le hij
  rw [List.take_add, List.sum_append, ← List.sum_take_succ l i hi]
  exact Nat.le_add_right _ _

/-- **The layout**. -/
theorem Scan.layout (h : Scan z s 0) : Layout s.tg s.nv s.total_sum s.offset z := by
  have hoffset : ∀ c, ∀ i < size n s.nv c, s.offset (start n s.nv c + i) = s.rangeStart z c i := by
    intro c i hi
    rcases h.placed c i hi with hdone | hmem | hmem | hmem
    · exact hdone
    · exact absurd hmem (notMem_zero _)
    · exact absurd hmem (notMem_zero _)
    · exact absurd hmem (notMem_zero _)
  have hget : ∀ c i (hi : i < (block s.nv z c).length),
      (block s.nv z c)[i] = z (start n s.nv c + i) := by
    intro c i hi
    simp [block]
  have hend : ∀ c, ∀ i < size n s.nv c, s.rangeStart z c i + z (start n s.nv c + i) ≤
      s.prefix_count c + (block s.nv z c).sum := by
    intro c i hi
    have hle := sum_take_add (l := block s.nv z c) (j := size n s.nv c) (by simpa using hi) hi
    have hall : (block s.nv z c).take (size n s.nv c) = block s.nv z c :=
      List.take_of_length_le (by simp)
    rw [hget, hall] at hle
    unfold State.rangeStart
    omega
  refine ⟨h.degrees, fun v w hvw hw => ?_, fun v hv => ?_⟩
  · obtain ⟨c, i, hi, rfl⟩ := exists_location (n := n) (hvw.trans hw)
    obtain ⟨d, j, hj, rfl⟩ := exists_location (n := n) hw
    rw [hoffset c i hi, hoffset d j hj]
    rcases location_lt hvw hj with hlt | ⟨rfl, hlt⟩
    · calc s.rangeStart z c i + z (start n s.nv c + i)
          ≤ s.prefix_count c + (block s.nv z c).sum := hend c i hi
        _ ≤ s.prefix_count d := h.order c d hlt
        _ ≤ s.rangeStart z d j := Nat.le_add_right _ _
    · have hle := sum_take_add (l := block s.nv z c) (by simpa using hi) hlt
      rw [hget] at hle
      unfold State.rangeStart
      omega
  · obtain ⟨c, i, hi, rfl⟩ := exists_location (n := n) hv
    have htotal := h.total_sum.resolve_right (notMem_zero _)
    have hle := hend c i hi
    rw [hoffset c i hi, htotal]
    rcases (Fin.le_last c).lt_or_eq with hlt | rfl
    · have := h.order c _ hlt
      omega
    · omega

/-- The ends are set to the starts. -/
structure Xendoff (z : ℕ → ℕ) (s : State n) (pool : Multiset (Item n)) : Prop where
  length : s.xoff.length = 2 * s.nv + 2
  layout : Layout s.tg s.nv s.total_sum s.offset z
  loop : Phased.ForEach (· < s.nv) Item.xendoff (fun v => s.endoff v = s.offset v) pool

theorem Scan.xendoff (h : Scan z s 0) :
    Xendoff z { s with pass := .xendoff } ((List.range s.nv).map .xendoff : List (Item n)) :=
  ⟨h.length, h.layout, Phased.ForEach.start fun _ => List.mem_range⟩

theorem getElem?_XOFF {v : ℕ} (hlength : s.xoff.length = 2 * s.nv + 2) (hv : v < s.nv) :
    s.xoff[XOFF v]? = some (s.offset v) := by
  rw [State.offset, List.getD_eq_getElem?_getD, List.getElem?_eq_getElem (XOFF_lt hlength hv)]
  rfl

theorem getElem?_XENDOFF {v : ℕ} (hlength : s.xoff.length = 2 * s.nv + 2) (hv : v < s.nv) :
    s.xoff[XENDOFF v]? = some (s.endoff v) := by
  rw [State.endoff, List.getD_eq_getElem?_getD, List.getElem?_eq_getElem (XENDOFF_lt hlength hv)]
  rfl

theorem Xendoff.exec (h : Xendoff z s (x ::ₘ rest)) (hx : x.exec s = (s', new)) :
    Xendoff z s' (rest + new) ∧ s'.failed = s.failed := by
  obtain ⟨v, hv, rfl⟩ := h.loop.head
  have hlt := XENDOFF_lt h.length hv
  simp only [Item.exec, getElem?_XOFF h.length hv, if_pos hlt] at hx
  cases hx
  have hoffset : ∀ w, State.offset { s with xoff := s.xoff.set (XENDOFF v) (s.offset v) } w =
      s.offset w := by
    intro w
    simp only [State.offset, List.getD_eq_getElem?_getD,
      List.getElem?_set_ne (XOFF_ne_XENDOFF w v).symm]
  refine ⟨⟨by simpa using h.length, ?_, h.loop.exec (fun _ _ => Item.xendoff.inj) ?_ ?_⟩, rfl⟩
  · rw [funext hoffset]
    exact h.layout
  · rw [hoffset]
    simp only [State.endoff, List.getD_eq_getElem?_getD, List.getElem?_set_self hlt]
    rfl
  · intro w hw hdone
    rw [hoffset, ← hdone]
    simp only [State.endoff, List.getD_eq_getElem?_getD,
      List.getElem?_set_ne fun heq => hw (XENDOFF_inj.mp heq).symm]

end OnedCsr

end Grappa
