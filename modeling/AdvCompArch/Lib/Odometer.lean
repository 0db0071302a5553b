import Mathlib.Data.List.Nodup
import Mathlib.Algebra.BigOperators.Ring.List
import Mathlib.Algebra.GroupWithZero.Action.Defs
import Mathlib.Tactic.NormNum

/-! # Odometers

    A loop goes from place to place until its step says that there is no next one (`visit`).
    A `Trace` says where it comes by, and the loop ends after as many turns (`Trace.visit`).

    The places here are the points of a box: one digit for each of its sizes, some of them
    fixed (`box`).  Read as a numeral with mixed radices (`value`), every point of the box of
    all digits has a number of its own (`value_injective`), below the product of the sizes
    (`value_lt`). -/

namespace Odometer

open List

/-! ### Loops with a step -/

section loops

variable {P : Type*} {step : P → P × Bool} {p q : P} {l : List P} {fuel : ℕ}

/-- The places that a loop comes by; `none` if it has not ended after so many turns. -/
def visit (step : P → P × Bool) : ℕ → P → Option (List P)
  | 0, _ => none
  | fuel + 1, p => if (step p).2 then some [p] else (visit step fuel (step p).1).map (p :: ·)

/-- From `p` the steps lead through `l`, and not further. -/
inductive Trace (step : P → P × Bool) : P → List P → Prop
  | last {p : P} (h : (step p).2 = true) : Trace step p [p]
  | next {p q : P} {l : List P} (h : step p = (q, false)) (hl : Trace step q l) :
      Trace step p (p :: l)

/-- **The loop ends**, and comes by the places of its trace. -/
theorem Trace.visit (h : Trace step p l) (hfuel : l.length ≤ fuel) :
    visit step fuel p = some l := by
  induction h generalizing fuel with
  | last h =>
    obtain ⟨fuel, rfl⟩ := Nat.exists_eq_add_of_le' hfuel
    rw [length_singleton, Odometer.visit, if_pos h]
  | @next p q l h hl ih =>
    rw [length_cons] at hfuel
    obtain ⟨fuel, rfl⟩ : ∃ n, fuel = n + 1 := ⟨fuel - 1, by omega⟩
    have hgoes : ¬ (step p).2 = true := by
      rw [h]
      exact Bool.false_ne_true
    rw [Odometer.visit, if_neg hgoes, h, ih (by omega)]
    rfl

theorem Trace.map {Q : Type*} {step' : Q → Q × Bool} (g : P → Q)
    (hg : ∀ p, step' (g p) = (g (step p).1, (step p).2)) (h : Trace step p l) :
    Trace step' (g p) (l.map g) := by
  induction h with
  | last h => exact .last (by rw [hg, h])
  | next h hl ih => exact .next (by rw [hg, h]) ih

theorem Trace.turn {s x k : ℕ} {g : ℕ → P}
    (hturn : ∀ x, x + 1 ≠ s → step (g x) = (g (x + 1), false)) (hx : x + k + 1 = s) :
    ((step (g (x + k))).2 = true → Trace step (g x) ((List.range' x (k + 1)).map g)) ∧
      (step (g (x + k)) = (q, false) → Trace step q l →
        Trace step (g x) ((List.range' x (k + 1)).map g ++ l)) := by
  induction k generalizing x with
  | zero => exact ⟨fun h => .last h, fun h hl => .next h hl⟩
  | succ k ih =>
    have hstep := hturn x (by omega)
    have hlast : x + (k + 1) = x + 1 + k := by omega
    obtain ⟨hend, hnext⟩ := ih (x := x + 1) (by omega)
    rw [hlast, range'_succ, map_cons, cons_append]
    exact ⟨fun h => .next hstep (hend h), fun h hl => .next hstep (hnext h hl)⟩

theorem Trace.wheel {Q : Type*} {step' : Q → Q × Bool} {s : ℕ} (hs : 0 < s) (g : ℕ → P → Q)
    (hturn : ∀ x p, x + 1 ≠ s → step' (g x p) = (g (x + 1) p, false))
    (hcarry : ∀ x p, x + 1 = s → step' (g x p) = (g 0 (step p).1, (step p).2))
    (h : Trace step p l) :
    Trace step' (g 0 p) (l.flatMap fun p => (List.range s).map fun x => g x p) := by
  have hlast : 0 + (s - 1) + 1 = s := by omega
  have hrange : range s = range' 0 (s - 1 + 1) := by
    rw [range_eq_range', Nat.sub_add_cancel hs]
  induction h with
  | @last p h =>
    rw [flatMap_singleton, hrange]
    apply (@Trace.turn Q step' (g 0 p) [] s 0 (s - 1) (fun x => g x p) (hturn · p) hlast).1
    rw [hcarry _ _ hlast, h]
  | @next p q l h hl ih =>
    rw [flatMap_cons, hrange]
    apply (@Trace.turn Q step' (g 0 q) _ s 0 (s - 1) (fun x => g x p) (hturn · p) hlast).2
    · rw [hcarry _ _ hlast, h]
    · exact hrange ▸ ih

end loops

/-! ### Points -/

variable {ids : List (Option ℕ)} {sizes p q : List ℕ}

/-- The points of a box whose digits are free where `ids` has none, the first digit fastest. -/
def box : List (Option ℕ) → List ℕ → List (List ℕ)
  | none :: ids, s :: sizes => (box ids sizes).flatMap fun p => (List.range s).map (· :: p)
  | some x :: ids, _ :: sizes => (box ids sizes).map (x :: ·)
  | _, _ => [[]]

/-- One digit for each size, below it. -/
def Within (p sizes : List ℕ) : Prop := List.Forall₂ (· < ·) p sizes

/-- The fixed digits are below their sizes. -/
def Bounded (ids : List (Option ℕ)) (sizes : List ℕ) : Prop :=
  List.Forall₂ (fun id s => ∀ x ∈ id, x < s) ids sizes

/-- The fixed digits are as `ids` says. -/
def Agrees (ids : List (Option ℕ)) (p : List ℕ) : Prop :=
  List.Forall₂ (fun id x => ∀ y ∈ id, x = y) ids p

theorem mem_box (h : Bounded ids sizes) : p ∈ box ids sizes ↔ Within p sizes ∧ Agrees ids p := by
  induction h generalizing p with
  | nil => cases p <;> simp [box, Within, Agrees]
  | @cons id s ids sizes hid h ih =>
    cases p with
    | nil => cases id <;> simp [box, Within, Agrees]
    | cons x p =>
      cases id with
      | none => simp [box, Within, Agrees, ih]; tauto
      | some y =>
        have hy : y < s := hid y rfl
        simp only [box, mem_map, cons.injEq, ih, Within, Agrees, forall₂_cons,
          Option.mem_def, Option.some.injEq, forall_eq']
        constructor
        · intro h
          obtain ⟨p', hp', rfl, rfl⟩ := h
          exact ⟨⟨hy, hp'.1⟩, rfl, hp'.2⟩
        · intro h
          obtain ⟨⟨hx, hp⟩, rfl, hids⟩ := h
          exact ⟨p, ⟨hp, hids⟩, rfl, rfl⟩

theorem length_box_le (h : ∀ s ∈ sizes, 0 < s) : (box ids sizes).length ≤ sizes.prod := by
  induction sizes generalizing ids with
  | nil =>
    cases ids with
    | nil => simp [box]
    | cons id ids => cases id <;> simp [box]
  | cons s sizes ih =>
    have hs : 0 < s := h s mem_cons_self
    have hrest : ∀ t ∈ sizes, 0 < t := fun t ht => h t (mem_cons_of_mem _ ht)
    have hprod : 0 < sizes.prod := Nat.pos_of_ne_zero fun hzero => by
      exact absurd (hrest 0 (prod_eq_zero_iff.mp hzero)) (lt_irrefl 0)
    cases ids with
    | nil =>
      rw [box, length_singleton, prod_cons]
      · exact mul_pos hs hprod
      · simp
      · simp
    | cons id ids =>
      have hle : (box ids sizes).length ≤ sizes.prod := ih hrest
      rw [prod_cons]
      cases id with
      | none =>
        rw [box, length_flatMap]
        simp only [length_map, length_range, map_const', sum_replicate,
          smul_eq_mul]
        rw [Nat.mul_comm]
        exact Nat.mul_le_mul_left s hle
      | some x =>
        rw [box, length_map]
        exact hle.trans (Nat.le_mul_of_pos_left _ hs)

theorem nodup_box (ids : List (Option ℕ)) (sizes : List ℕ) : (box ids sizes).Nodup := by
  induction ids generalizing sizes with
  | nil => simp [box]
  | cons id ids ih =>
    cases sizes with
    | nil => simp [box]
    | cons s sizes =>
      cases id with
      | none =>
        rw [box, nodup_flatMap]
        refine ⟨fun p _ => nodup_range.map fun x y h => (cons.inj h).1, ?_⟩
        apply (ih sizes).imp
        intro p q hpq r hp hq
        obtain ⟨x, -, rfl⟩ := mem_map.mp hp
        obtain ⟨y, -, heq⟩ := mem_map.mp hq
        exact hpq (cons.inj heq).2.symm
      | some x => exact (ih sizes).map fun p q h => (cons.inj h).2

/-! ### Numerals -/

/-- A point as a numeral, the first digit lowest. -/
def value : List ℕ → List ℕ → ℕ
  | x :: p, s :: sizes => x + s * value p sizes
  | _, _ => 0

theorem value_lt (h : Within p sizes) : value p sizes < sizes.prod := by
  induction h with
  | nil => exact Nat.one_pos
  | @cons x s p sizes hx _ ih =>
    rw [value, prod_cons]
    calc x + s * value p sizes < s + s * value p sizes := Nat.add_lt_add_right hx _
      _ = s * (value p sizes + 1) := by rw [Nat.mul_succ, Nat.add_comm]
      _ ≤ s * sizes.prod := Nat.mul_le_mul_left s ih

/-- **No two points** have the same number. -/
theorem value_injective (hp : Within p sizes) (hq : Within q sizes)
    (h : value p sizes = value q sizes) : p = q := by
  induction hp generalizing q with
  | nil => exact (forall₂_nil_right_iff.mp hq).symm
  | @cons x s p sizes hx _ ih =>
    cases hq with
    | @cons y _ q _ hy hq =>
      simp only [value] at h
      have hmod := congrArg (· % s) h
      simp only [Nat.add_mul_mod_self_left, Nat.mod_eq_of_lt hx, Nat.mod_eq_of_lt hy] at hmod
      subst hmod
      have hdiv : value p sizes = value q sizes :=
        Nat.eq_of_mul_eq_mul_left (Nat.zero_lt_of_lt hx) (add_left_cancel h)
      rw [ih hq hdiv]

end Odometer
