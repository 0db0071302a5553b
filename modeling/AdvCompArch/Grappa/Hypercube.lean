import AdvCompArch.Lib.FixedWidth
import AdvCompArch.Lib.Odometer

/-! # Hypercubes of cores

    The partitioned query plans arrange the cores in a cube of four dimensions and send an edge
    to a slice of it: the cores whose coordinates are fixed in two dimensions.  An iterator
    goes through the slice like an odometer, and a core is the number of its coordinates. -/

namespace Grappa

open Odometer FixedWidth List

/-! ### The cube -/

namespace Hypercube

def powers : List ℕ := [0, 1, 16, 81, 256, 625, 1296, 2401]

/-- The loop of `fourth_root`, a binary search. -/
def search (x : ℕ) : ℕ → ℕ → ℕ → ℕ → Option ℕ
  | 0, _, _, _ => none
  | fuel + 1, ind, hi, lo =>
    let power := powers.getD ind 0
    if x = power then some ind
    else if x > power then
      let next := (ind + hi) / 2
      if next - ind = 0 then some ind else search x fuel next hi ind
    else search x fuel ((ind + lo) / 2) ind lo

def fourth_root (x : ℕ) : Option ℕ :=
  search x powers.length (powers.length / 2) (powers.length - 1) 0

def makeHash (dim x : ℕ) : ℕ := x % dim

/-! ### The iterator -/

/-- One round of the loop of `serialId`, which computes with `int64_t`. -/
def serialStep (acc : ℤ × ℤ) (p : ℕ × ℕ) : ℤ × ℤ :=
  let sizeprod := int64 (acc.2 * p.2)
  (int64 (acc.1 + int64 (p.1 * sizeprod)), sizeprod)

/-- The number of a core; `pos[i]` is multiplied with the sizes before `sizes[i]`. -/
def serialId (pos sizes : List ℕ) : ℤ :=
  ((pos.tail.zip sizes).foldl serialStep (((pos.headD 0 : ℕ) : ℤ), 1)).1

/-- The dimensions that are not fixed. -/
def wildcards (replicandIds : List (Option ℕ)) : List ℕ :=
  (List.range replicandIds.length).filter fun i => replicandIds[i]? = some none

/-- Where the iterator begins. -/
def current_positions (replicandIds : List (Option ℕ)) : List ℕ :=
  replicandIds.map fun id => id.getD 0

/-- The next position, and whether the iterator is done. -/
def operatorPlusPlus (shares : List ℕ) : List ℕ → List ℕ → List ℕ × Bool
  -- ran out of dimensions
  | [], pos => (pos, true)
  | dim :: wildcards, pos =>
    if pos.getD dim 0 + 1 = shares.getD dim 0 then
      operatorPlusPlus shares wildcards (pos.set dim 0)
    else (pos.set dim (pos.getD dim 0 + 1), false)

/-- The cores of a slice in the order of its iterator; `none` if a check of the slice fails. -/
def slice (shares : List ℕ) (replicandIds : List (Option ℕ)) : Option (List ℕ) :=
  if replicandIds.length = shares.length ∧ ∀ p ∈ replicandIds.zip shares, p.1.all (· < p.2) then
    (visit (operatorPlusPlus shares (wildcards replicandIds)) shares.prod
      (current_positions replicandIds)).map fun l => l.map fun pos => (serialId pos shares).toNat
  else none

/-! ### What they do -/

theorem search_step (x fuel ind hi lo : ℕ) : search x (fuel + 1) ind hi lo =
    if x = powers.getD ind 0 then some ind
    else if x > powers.getD ind 0 then
      if (ind + hi) / 2 - ind = 0 then some ind else search x fuel ((ind + hi) / 2) hi ind
    else search x fuel ((ind + lo) / 2) ind lo := rfl

/-- **The side of the cube**: its cores are there. -/
theorem fourth_root_spec {x : ℕ} (hx : 1 ≤ x) :
    ∃ r, fourth_root x = some r ∧ 1 ≤ r ∧ r ≤ 7 ∧ r * r * r * r ≤ x := by
  have hfour : fourth_root x = search x 8 4 7 0 := rfl
  rw [hfour]
  simp only [search_step, powers, getD_cons_succ, getD_cons_zero, Nat.reduceAdd,
    Nat.reduceDiv, Nat.reduceSub, reduceIte, add_zero, zero_add]
  split_ifs <;> first
    | exact ⟨_, rfl, by omega, by omega, by omega⟩
    | omega

variable {ids : List (Option ℕ)} {shares pos sizes ws : List ℕ} {x s k : ℕ}

theorem serialStep_eq {sum prod q s t : ℕ} (hsum : sum < prod * s) (hq : q < t)
    (hprod : prod * s * t < 2 ^ 63) :
    serialStep (sum, prod) (q, s) = (((sum + q * (prod * s) : ℕ) : ℤ), ((prod * s : ℕ) : ℤ)) ∧
      sum + q * (prod * s) < prod * s * t := by
  have hlt : sum + q * (prod * s) < prod * s * t := by
    calc sum + q * (prod * s) < prod * s + q * (prod * s) := Nat.add_lt_add_right hsum _
      _ = prod * s * (q + 1) := by ring
      _ ≤ prod * s * t := Nat.mul_le_mul_left _ hq
  have hone : prod * s ≤ prod * s * t := Nat.le_mul_of_pos_right _ (by omega)
  have hsize : int64 ((prod : ℤ) * s) = ((prod * s : ℕ) : ℤ) := by
    rw [← Nat.cast_mul, int64_natCast (by omega)]
  have hterm : int64 ((q : ℤ) * ((prod * s : ℕ) : ℤ)) = ((q * (prod * s) : ℕ) : ℤ) := by
    rw [← Nat.cast_mul, int64_natCast (by omega)]
  refine ⟨?_, hlt⟩
  rw [serialStep]
  dsimp only
  rw [hsize, hterm, ← Nat.cast_add, int64_natCast (by omega)]

/-- **The number of a core** is its position as a numeral, if the cores of the cube can be
    numbered. -/
theorem serialId_eq (h : Within pos sizes) (hprod : sizes.prod < 2 ^ 63) :
    serialId pos sizes = value pos sizes := by
  -- the sum and the product of the sizes after some positions
  have hfoldl : ∀ (qs ss : List ℕ) (s sum prod : ℕ), Within qs ss → sum < prod * s →
      prod * s * ss.prod < 2 ^ 63 → ((qs.zip (s :: ss)).foldl serialStep ((sum : ℤ), (prod : ℤ))).1 =
        ((sum + prod * s * value qs ss : ℕ) : ℤ) := by
    intro qs ss s sum prod hwithin
    induction hwithin generalizing s sum prod with
    | nil => simp [value]
    | @cons q t qs ts hq hwithin ih =>
      intro hsum hlt
      have hpos : 1 ≤ ts.prod := Nat.zero_lt_of_lt (value_lt hwithin)
      rw [prod_cons, ← mul_assoc] at hlt
      obtain ⟨hstep, hnext⟩ := serialStep_eq hsum hq ((Nat.le_mul_of_pos_right _ hpos).trans_lt hlt)
      rw [zip_cons_cons, foldl_cons, hstep, ih t _ _ hnext hlt, value]
      congr 1
      ring
  cases h with
  | nil => rfl
  | @cons p s ps ss hp h =>
    have hfold := hfoldl ps ss s p 1 h (by omega) (by simpa using hprod)
    rw [serialId, tail_cons, headD_cons, value]
    rw [Nat.cast_one, one_mul] at hfold
    exact hfold

theorem wildcards_none : wildcards (none :: ids) = 0 :: (wildcards ids).map (· + 1) := by
  simp [wildcards, range_succ_eq_map, filter_map, Function.comp_def]

theorem wildcards_some : wildcards (some x :: ids) = (wildcards ids).map (· + 1) := by
  simp [wildcards, range_succ_eq_map, filter_map, Function.comp_def]

theorem operatorPlusPlus_cons : operatorPlusPlus (s :: shares) (ws.map (· + 1)) (x :: pos) =
    (x :: (operatorPlusPlus shares ws pos).1, (operatorPlusPlus shares ws pos).2) := by
  induction ws generalizing pos with
  | nil => rfl
  | cons w ws ih =>
    simp only [map_cons, operatorPlusPlus, getD_cons_succ, set_cons_succ]
    split
    · rw [ih]
    · rfl

theorem trace_box (h : Bounded ids shares) (hpos : ∀ s ∈ shares, 0 < s) :
    Trace (operatorPlusPlus shares (wildcards ids)) (current_positions ids) (box ids shares) := by
  induction h with
  | nil => exact .last rfl
  | @cons id s ids shares hid h ih =>
    have ih := ih fun t ht => hpos t (mem_cons_of_mem _ ht)
    cases id with
    | none =>
      rw [wildcards_none, box]
      apply Trace.wheel (hpos s mem_cons_self) (fun x p => x :: p) _ _ ih
      · intro x p hx
        simp [operatorPlusPlus, hx]
      · intro x p hx
        rw [operatorPlusPlus, getD_cons_zero, getD_cons_zero, if_pos hx,
          set_cons_zero, operatorPlusPlus_cons]
    | some x =>
      rw [wildcards_some, box]
      exact ih.map (x :: ·) fun p => operatorPlusPlus_cons

theorem slice_eq (h : Bounded ids shares) (hpos : ∀ s ∈ shares, 0 < s)
    (hprod : shares.prod < 2 ^ 63) :
    slice shares ids = some ((box ids shares).map fun p => value p shares) := by
  obtain ⟨hlen, hzip⟩ := forall₂_iff_zip.mp h
  have hchecks : ids.length = shares.length ∧ ∀ p ∈ ids.zip shares, p.1.all (· < p.2) := by
    refine ⟨hlen, fun p hp => ?_⟩
    simpa [Option.all_eq_true] using hzip hp
  rw [slice, if_pos hchecks, (trace_box h hpos).visit (length_box_le hpos), Option.map_some]
  congr 1
  apply map_congr_left
  intro p hp
  rw [serialId_eq ((mem_box h).mp hp).1 hprod, Int.toNat_natCast]

end Hypercube

end Grappa
