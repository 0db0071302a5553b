import AdvCompArch.Grappa.Hypercube
import Mathlib.Algebra.BigOperators.Fin

/-! # The iterator of a slice

    A range-based loop goes through a slice with an iterator, which knows the positions of all
    dimensions, which of them to turn, and whether it has turned them all. -/

namespace Grappa.Hypercube

open Odometer List

structure HypercubeSlice where
  replicandIds : List (Option ℕ)
  shares : List ℕ

structure HypercubeSliceIter where
  current_positions : List ℕ
  wildcards : List ℕ
  shares : List ℕ
  done : Bool
  deriving DecidableEq

namespace HypercubeSliceIter

/-- A fixed dimension has its position; a whole one starts at 0. -/
def new (iteration_box : List (Option ℕ)) (shares : List ℕ) (stop : Bool) : HypercubeSliceIter :=
  ⟨Hypercube.current_positions iteration_box, Hypercube.wildcards iteration_box, shares, stop⟩

variable (it other : HypercubeSliceIter)

def operatorNotEqual : Bool := it.done != other.done

def operatorPlusPlus : HypercubeSliceIter :=
  let (pos, ended) := Hypercube.operatorPlusPlus it.shares it.wildcards it.current_positions
  { it with current_positions := pos, done := it.done || ended }

def operatorDeref : ℤ := serialId it.current_positions it.shares

end HypercubeSliceIter

namespace HypercubeSlice

/-- A slice of the cube; `none` if a check fails. -/
def new (shares : List ℕ) (replicandIds : List (Option ℕ)) : Option HypercubeSlice :=
  if replicandIds.length = shares.length ∧ ∀ p ∈ replicandIds.zip shares, p.1.all (· < p.2) then
    some ⟨replicandIds, shares⟩
  else none

variable (h : HypercubeSlice)

def begin_ : HypercubeSliceIter := .new h.replicandIds h.shares false

def end_ : HypercubeSliceIter := .new h.replicandIds h.shares true

end HypercubeSlice

/-! ### What the loop does -/

variable {shares pos ws : List ℕ} {ids : List (Option ℕ)} {l : List (List ℕ)}

/-- **The iterator** after some steps is at a place of the trace, and after the last one it is
    done. -/
theorem iterate_trace (h : Trace (operatorPlusPlus shares ws) pos l) :
    (∀ k (hk : k < l.length), HypercubeSliceIter.operatorPlusPlus^[k] ⟨pos, ws, shares, false⟩ =
        ⟨l[k], ws, shares, false⟩) ∧
      (HypercubeSliceIter.operatorPlusPlus^[l.length] ⟨pos, ws, shares, false⟩).done = true := by
  induction h with
  | @last p h =>
    constructor
    · intro k hk
      obtain rfl : k = 0 := by simpa using hk
      rfl
    · simp [HypercubeSliceIter.operatorPlusPlus, h]
  | @next p q l h hl ih =>
    have hstep : HypercubeSliceIter.operatorPlusPlus ⟨p, ws, shares, false⟩ =
        ⟨q, ws, shares, false⟩ := by
      simp [HypercubeSliceIter.operatorPlusPlus, h]
    constructor
    · intro k hk
      cases k with
      | zero => rfl
      | succ k =>
        rw [Function.iterate_succ_apply, hstep]
        exact ih.1 k (by simpa using hk)
    · rw [length_cons, Function.iterate_succ_apply, hstep]
      exact ih.2

theorem length_box (h : ids.length = shares.length) : (box ids shares).length =
    (((ids.zip shares).filter fun p => p.1.isNone).map Prod.snd).prod := by
  induction ids generalizing shares with
  | nil => simp [box]
  | cons id ids ih =>
    obtain ⟨s, shares, rfl⟩ := exists_cons_of_length_eq_add_one h.symm
    have hrest := ih (by simpa using h)
    cases id with
    | none =>
      rw [box, length_flatMap]
      simp only [length_map, length_range, map_const', sum_replicate,
        smul_eq_mul, hrest, zip_cons_cons, Option.isNone_none, filter_cons_of_pos,
        map_cons, prod_cons]
      exact mul_comm ..
    | some x => simp [box, hrest]

theorem value_eq_sum (h : pos.length = shares.length) : value pos shares =
    ∑ i ∈ Finset.range pos.length, pos.getD i 0 * (shares.take i).prod := by
  induction pos generalizing shares with
  | nil => rfl
  | cons x pos ih =>
    obtain ⟨s, shares, rfl⟩ := exists_cons_of_length_eq_add_one h.symm
    rw [value, ih (by simpa using h), length_cons, Finset.sum_range_succ', Finset.mul_sum,
      add_comm]
    congr 1
    · apply Finset.sum_congr rfl
      intro i _
      rw [getD_cons_succ, take_succ_cons, prod_cons]
      ring
    · simp

/-- **A slice** is gone through once.  It passes its checks; the loop from `begin()` on goes on for
    as many steps as the product of the free shares, and ends there; and if the cores of the whole
    cube can be numbered, what it gives are, without repetition, the serial ids of the points of
    the slice. -/
theorem begin_end_spec (hids : Bounded ids shares) (hpos : ∀ s ∈ shares, 0 < s) :
    ∃ h, HypercubeSlice.new shares ids = some h ∧
      ∃ steps, steps = (((ids.zip shares).filter fun p => p.1.isNone).map Prod.snd).prod ∧
        (∀ k < steps, (HypercubeSliceIter.operatorPlusPlus^[k] h.begin_).operatorNotEqual
          h.end_ = true) ∧
        (HypercubeSliceIter.operatorPlusPlus^[steps] h.begin_).operatorNotEqual h.end_ = false ∧
        (shares.prod < 2 ^ 63 →
          ((List.range steps).map fun k =>
            (HypercubeSliceIter.operatorPlusPlus^[k] h.begin_).operatorDeref).Nodup ∧
          ∀ x, (∃ k < steps, (HypercubeSliceIter.operatorPlusPlus^[k] h.begin_).operatorDeref = x) ↔
            ∃ pos, Within pos shares ∧ Agrees ids pos ∧
              x = (∑ i ∈ Finset.range shares.length, pos.getD i 0 * (shares.take i).prod : ℕ)) := by
  obtain ⟨hlen, hzip⟩ := forall₂_iff_zip.mp hids
  have hchecks : ids.length = shares.length ∧ ∀ p ∈ ids.zip shares, p.1.all (· < p.2) := by
    refine ⟨hlen, fun p hp => ?_⟩
    simpa [Option.all_eq_true] using hzip hp
  refine ⟨⟨ids, shares⟩, by rw [HypercubeSlice.new, if_pos hchecks], _, rfl, ?_⟩
  rw [← length_box hlen]
  obtain ⟨hplaces, hend⟩ := iterate_trace (trace_box hids hpos)
  refine ⟨?_, ?_, fun hprod => ?_⟩
  · intro k hk
    rw [HypercubeSlice.begin_, HypercubeSliceIter.new, hplaces k hk]
    rfl
  · show ((HypercubeSliceIter.operatorPlusPlus^[(box ids shares).length]
      ⟨current_positions ids, wildcards ids, shares, false⟩).done != true) = false
    rw [hend]
    rfl
  have hderef : ∀ k (hk : k < (box ids shares).length),
      (HypercubeSliceIter.operatorPlusPlus^[k] (HypercubeSlice.begin_ ⟨ids, shares⟩)).operatorDeref =
        value (box ids shares)[k] shares := by
    intro k hk
    have hwithin := ((mem_box hids).mp (getElem_mem hk)).1
    rw [HypercubeSlice.begin_, HypercubeSliceIter.new, hplaces k hk]
    exact serialId_eq hwithin hprod
  have hvalues : ((range (box ids shares).length).map fun k =>
      (HypercubeSliceIter.operatorPlusPlus^[k] (HypercubeSlice.begin_ ⟨ids, shares⟩)).operatorDeref) =
      (box ids shares).map fun p => ((value p shares : ℕ) : ℤ) := by
    apply ext_getElem (by simp)
    intro k hk hk'
    rw [getElem_map, getElem_map, getElem_range]
    exact hderef k (by simpa using hk)
  constructor
  · rw [hvalues]
    apply (nodup_box ids shares).map_on
    intro p hp q hq heq
    exact value_injective ((mem_box hids).mp hp).1 ((mem_box hids).mp hq).1 (Nat.cast_injective heq)
  · intro x
    constructor
    · intro h
      obtain ⟨k, hk, rfl⟩ := h
      obtain ⟨hwithin, hagrees⟩ := (mem_box hids).mp (getElem_mem hk)
      have hlength := List.Forall₂.length_eq hwithin
      exact ⟨_, hwithin, hagrees, by rw [hderef k hk, value_eq_sum hlength, hlength]⟩
    · intro h
      obtain ⟨pos, hwithin, hagrees, rfl⟩ := h
      obtain ⟨k, hk, hget⟩ := getElem_of_mem ((mem_box hids).mpr ⟨hwithin, hagrees⟩)
      have hlength := List.Forall₂.length_eq hwithin
      exact ⟨k, hk, by rw [hderef k hk, hget, value_eq_sum hlength, hlength]⟩

/-- The slice of a cube of three dimensions whose second coordinate is 1. -/
theorem begin_end_nine : ∃ h, HypercubeSlice.new [3, 3, 3] [none, some 1, none] = some h ∧
    (HypercubeSliceIter.operatorPlusPlus^[9] h.begin_).operatorNotEqual h.end_ = false ∧
    ((List.range 9).map fun k =>
      (HypercubeSliceIter.operatorPlusPlus^[k] h.begin_).operatorDeref).Nodup ∧
    ((List.range 9).map fun k =>
      (HypercubeSliceIter.operatorPlusPlus^[k] h.begin_).operatorDeref) =
      [3, 4, 5, 12, 13, 14, 21, 22, 23] := by
  have hids : Bounded [none, some 1, none] [3, 3, 3] := by
    simp [Bounded]
  obtain ⟨h, hnew, steps, rfl, -, hend, hserials⟩ := begin_end_spec hids (by decide)
  refine ⟨h, hnew, hend, (hserials (by decide)).1, ?_⟩
  rw [← Option.some.inj hnew]
  decide

/-- In a cube of `2^65` cores the product of the first two shares wraps around to 0: the two points
    of this slice have one serial id. -/
theorem begin_end_repeats : ∃ h,
    HypercubeSlice.new [2 ^ 32, 2 ^ 32, 2] [some 0, some 0, none] = some h ∧
      (HypercubeSliceIter.operatorPlusPlus^[1] h.begin_).operatorNotEqual h.end_ = true ∧
      (HypercubeSliceIter.operatorPlusPlus^[2] h.begin_).operatorNotEqual h.end_ = false ∧
      ((List.range 2).map fun k =>
        (HypercubeSliceIter.operatorPlusPlus^[k] h.begin_).operatorDeref) = [0, 0] :=
  ⟨⟨[some 0, some 0, none], [2 ^ 32, 2 ^ 32, 2]⟩, if_pos (by decide), by decide +kernel⟩

/-! ### Membership

    `containsSerial` takes a number apart again, from the last dimension down.  It is written
    apart from the iterator, and its loop begins one dimension too far. -/

/-- What the memory holds behind the end of `shares` and of `replicandIds`. -/
structure Beyond where
  share : ℤ
  replicandId : Option ℤ

namespace HypercubeSlice

variable (h : HypercubeSlice) (beyond : Beyond)

/-- `shares[i]` -/
def shareAt (i : ℕ) : ℤ := (h.shares[i]?.map Int.ofNat).getD beyond.share

/-- `replicandIds[i]` -/
def replicandIdAt (i : ℕ) : Option ℤ :=
  (h.replicandIds[i]?.map fun id => id.map Int.ofNat).getD beyond.replicandId

/-- The loop of `containsSerial` with `i + 1` dimensions to go: its answer, `none` where a division
    by zero traps, and the dimensions that it accesses. -/
def containsFrom : ℕ → ℤ → Option Bool × List ℕ
  | 0, _ => (some true, [])
  | i + 1, val =>
    let share := h.shareAt beyond i
    if share = 0 then (none, [i])
    else
      let coordinate_i := val.tdiv share
      -- check if the coordinate is contained
      if (h.replicandIdAt beyond i).any (coordinate_i ≠ ·) then (some false, [i])
      else
        let rest := containsFrom i (val.tmod share)
        (rest.1, i :: rest.2)

/-- `i` starts at `shares.size()`. -/
def containsSerial (x : ℕ) : Option Bool × List ℕ :=
  h.containsFrom beyond (h.shares.length + 1) x

/-- The loop from `begin()` to `end()` comes by `x`. -/
def Produces (x : ℕ) : Prop :=
  ∃ k, (∀ j ≤ k, (HypercubeSliceIter.operatorPlusPlus^[j] h.begin_).operatorNotEqual h.end_) ∧
    (HypercubeSliceIter.operatorPlusPlus^[k] h.begin_).operatorDeref = x

/-- The answer is that of the iteration, and only dimensions that there are are accessed. -/
structure ContainsSerialAgrees (x : ℕ) : Prop where
  answer : ∃ b, (h.containsSerial beyond x).1 = some b ∧ (b = true ↔ h.Produces x)
  accesses : ∀ i ∈ (h.containsSerial beyond x).2, i < h.shares.length

theorem mem_accesses (x : ℕ) : h.shares.length ∈ (h.containsSerial beyond x).2 := by
  rw [containsSerial, containsFrom]
  dsimp only
  split_ifs <;> exact mem_cons_self

/-- **Slice membership** never is as it should: on every input a dimension is accessed that does not
    exist. -/
theorem not_containsSerial_agrees (x : ℕ) : ¬h.ContainsSerialAgrees beyond x := by
  intro hagrees
  have hlt := hagrees.accesses h.shares.length (h.mem_accesses beyond x)
  exact lt_irrefl _ hlt

/-- Nor is the answer, with one dimension: each digit is taken with its own share instead of the
    product of those before it, and is 0 here. -/
theorem containsSerial_line {s c x : ℕ} (hc : 0 < c) (hx : x < s) :
    ((⟨[some c], [s]⟩ : HypercubeSlice).containsSerial beyond x).1 ≠ some true := by
  rw [containsSerial, length_singleton, containsFrom]
  dsimp only
  split_ifs with hzero hid
  · simp
  · simp
  · -- what is left of `x` still is below the share
    have hshare : (⟨[some c], [s]⟩ : HypercubeSlice).shareAt beyond 0 = s := rfl
    have hcoordinate : ((x : ℤ).tmod (shareAt ⟨[some c], [s]⟩ beyond 1)).tdiv s = 0 := by
      have hnonneg := Int.tmod_nonneg (shareAt ⟨[some c], [s]⟩ beyond 1) (Int.natCast_nonneg x)
      have hle : ((x : ℤ).tmod (shareAt ⟨[some c], [s]⟩ beyond 1)).natAbs ≤ x := by
        rw [Int.natAbs_tmod, Int.natAbs_natCast]
        exact Nat.mod_le _ _
      exact Int.tdiv_eq_zero_of_lt hnonneg (by omega)
    have hpos : (s : ℤ) ≠ 0 := by omega
    have hmissed : (replicandIdAt ⟨[some c], [s]⟩ beyond 0).any fun id => (0 : ℤ) ≠ id := by
      simp [replicandIdAt]
      omega
    rw [containsFrom]
    simp only [hshare, hcoordinate, if_neg hpos, if_pos hmissed]
    simp

/-- The core 1 of two is in the slice of its coordinate; whatever is behind the shares, the answer
    is not that it is. -/
theorem containsSerial_misses : Produces ⟨[some 1], [2]⟩ 1 ∧
    ∀ beyond, ((⟨[some 1], [2]⟩ : HypercubeSlice).containsSerial beyond 1).1 ≠ some true ∧
      ¬ContainsSerialAgrees ⟨[some 1], [2]⟩ beyond 1 := by
  have hproduces : Produces ⟨[some 1], [2]⟩ 1 := by
    refine ⟨0, fun j hj => ?_, by decide⟩
    obtain rfl : j = 0 := by omega
    decide
  refine ⟨hproduces, fun beyond => ?_⟩
  have hanswer := containsSerial_line beyond (s := 2) (c := 1) (x := 1) (by decide) (by decide)
  refine ⟨hanswer, fun hagrees => ?_⟩
  obtain ⟨b, hb, hiff⟩ := hagrees.answer
  exact hanswer (hiff.mpr hproduces ▸ hb)

end HypercubeSlice

end Grappa.Hypercube
