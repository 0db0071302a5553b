import AdvCompArch.Lib.Totals
import AdvCompArch.Lib.Transition
import Mathlib.Data.BitVec

/-! # Reducers

    A `Reducer` has a copy on every core.  An update changes the copy of its core, an
    assignment resets all of them and then sets the one of the assigning core, and a read is
    a `reduce` over all copies: the reader asks the other cores for their values and adds
    each answer to its total when it arrives. -/

namespace Grappa

open Totals Transition List

inductive ReducerType where
  | Add | Or | And | Max | Min
  deriving DecidableEq

/-- What the reducers use of an arithmetic type: its sum, order and bitwise operations, and
    the conversion of a `bool`. -/
class Arithmetic (T : Type) extends AddCommMonoid T, LinearOrder T, AndOp T, OrOp T where
  ofBool : Bool → T
  ofBool_false : ofBool false = 0
  ofBool_true : ofBool true ≠ 0
  and_comm (a b : T) : a &&& b = b &&& a
  and_assoc (a b c : T) : (a &&& b) &&& c = a &&& (b &&& c)
  zero_and (a : T) : 0 &&& a = 0
  or_comm (a b : T) : a ||| b = b ||| a
  or_assoc (a b c : T) : (a ||| b) ||| c = a ||| (b ||| c)
  zero_or (a : T) : 0 ||| a = a
  /-- A bitwise or is 0 or 1 where both operands are. -/
  isBool_or (a b : T) : (∃ c, a ||| b = ofBool c) ↔ (∃ c, a = ofBool c) ∧ ∃ c, b = ofBool c
  or_eq_zero (a b : T) : a ||| b = 0 ↔ a = 0 ∧ b = 0

namespace Reducer

variable {T : Type} [Arithmetic T] {cores : ℕ}

/-- The conversion of a value to `bool`. -/
def toBool (a : T) : Bool := a ≠ 0

/-- `collective_add`, `collective_or`, `collective_and`, `collective_max`, `collective_min`. -/
def reduceOp : ReducerType → T → T → T
  | .Add, a, b => a + b
  | .Or, a, b => Arithmetic.ofBool (toBool a || toBool b)
  | .And, a, b => Arithmetic.ofBool (toBool a && toBool b)
  | .Max, a, b => if a > b then a else b
  | .Min, a, b => if a < b then a else b

/-- The update of the local value: `+=`, `|=`, `&=` and, for `Max` and `Min`, `<<`. -/
def update : ReducerType → T → T → T
  | .Add, local_value, v => local_value + v
  | .Or, local_value, v => local_value ||| v
  | .And, local_value, v => local_value &&& v
  | .Max, local_value, v => if v > local_value then v else local_value
  | .Min, local_value, v => if v < local_value then v else local_value

/-- The operation that a reducer is documented to do. -/
def op : ReducerType → T → T → T
  | .Add => (· + ·)
  | .Or => (· ||| ·)
  | .And => (· &&& ·)
  | .Max => max
  | .Min => min

end Reducer

/-- The copies of a reducer. -/
structure Reducer (cores : ℕ) (T : Type) where
  local_value : Fin cores → T

namespace Reducer

variable {T : Type} [Arithmetic T] {cores : ℕ}

def reset : Reducer cores T := ⟨fun _ => 0⟩

/-- `operator=`, called on `core`. -/
def assign (core : Fin cores) (v : T) : Reducer cores T :=
  ⟨Function.update (reset (T := T)).local_value core v⟩

/-- An update on `core`. -/
def update_at (R : ReducerType) (r : Reducer cores T) (core : Fin cores) (x : T) :
    Reducer cores T :=
  ⟨Function.update r.local_value core (update R (r.local_value core) x)⟩

/-- Updates, in the order in which they are made. -/
def updates (R : ReducerType) (r : Reducer cores T) (us : List (Fin cores × T)) :
    Reducer cores T :=
  us.foldl (fun r u => r.update_at R u.1 u.2) r

theorem local_value_updates (R : ReducerType) (r : Reducer cores T) (us : List (Fin cores × T))
    (c : Fin cores) :
    (r.updates R us).local_value c = (at_place us c).foldl (update R) (r.local_value c) := by
  induction us using reverseRecOn with
  | nil => rfl
  | append_singleton us u ih =>
    have hlast : r.updates R (us ++ [u]) = (r.updates R us).update_at R u.1 u.2 := by
      simp [updates]
    rw [hlast, at_place_concat, update_at]
    by_cases h : u.1 = c
    · subst h
      simp [ih]
    · rw [if_neg h, ← ih]
      exact Function.update_of_ne (Ne.symm h) ..

end Reducer

/-! ### The collective -/

/-- A `reduce` that waits: its total, the count of its completion event, the cores that have
    yet to be asked and the answers on their way. -/
structure Reduction (cores : ℕ) (T : Type) where
  total : T
  count : ℕ
  requests : List (Fin cores)
  replies : List T

namespace Reduction

variable {T : Type} {cores : ℕ} (reduceOp : T → T → T) (value : Fin cores → T)

/-- A request is handled, or an answer. -/
inductive Label where
  | request (i : ℕ)
  | reply (i : ℕ)
  deriving DecidableEq

/-- All cores but the origin. -/
def others (origin : Fin cores) : List (Fin cores) :=
  (finRange cores).filter (· ≠ origin)

/-- `reduce` up to the wait. -/
def start (origin : Fin cores) : Reduction cores T where
  total := value origin
  count := cores - 1
  requests := others origin
  replies := []

def next (s : Reduction cores T) : Label → Option (Reduction cores T)
  | .request i => (s.requests[i]?).map fun c =>
      { s with requests := s.requests.eraseIdx i, replies := s.replies ++ [value c] }
  | .reply i => (s.replies[i]?).map fun val =>
      { s with
        total := reduceOp s.total val
        count := s.count - 1
        replies := s.replies.eraseIdx i }

def system (origin : Fin cores) : Transition.System (Reduction cores T) Label where
  init := start value origin
  next := next reduceOp value

/-- A `reduce` on `origin` returns `x`. -/
def Returns (origin : Fin cores) (x : T) : Prop :=
  ∃ ls s, (system reduceOp value origin).run (start value origin) ls = some s ∧
    s.count = 0 ∧ s.total = x

/-- The values of the other cores are each in the total, in an answer, or still at their core. -/
def Inv (origin : Fin cores) (s : Reduction cores T) : Prop :=
  s.count = s.requests.length + s.replies.length ∧
  ∃ arrived : List T, s.total = arrived.foldl reduceOp (value origin) ∧
    (arrived ++ s.replies ++ s.requests.map value).Perm ((others origin).map value)

theorem perm_others (origin : Fin cores) :
    (origin :: others origin).Perm (finRange cores) := by
  apply perm_of_nodup_nodup_toFinset_eq
  · simp [others, nodup_finRange, List.Nodup.filter]
  · exact nodup_finRange cores
  · ext c
    by_cases h : c = origin <;> simp [others, h]

theorem length_others (origin : Fin cores) : (others origin).length = cores - 1 := by
  have := (perm_others origin).length_eq
  simp only [length_cons, length_finRange] at this
  omega

theorem start_inv (origin : Fin cores) : Inv reduceOp value origin (start value origin) := by
  constructor
  · simp [start, length_others]
  · exact ⟨[], rfl, by simp [start]⟩

/-- A message fewer is on its way, and nothing is lost. -/
theorem next_inv {origin : Fin cores} {s s' : Reduction cores T} {l : Label}
    (hi : Inv reduceOp value origin s) (h : next reduceOp value s l = some s') :
    Inv reduceOp value origin s' ∧
      2 * s'.requests.length + s'.replies.length < 2 * s.requests.length + s.replies.length := by
  obtain ⟨hcount, arrived, htotal, hperm⟩ := hi
  cases l with
  | request i =>
    obtain ⟨c, hc, rfl⟩ := Option.map_eq_some_iff.mp h
    obtain ⟨hlt, hget⟩ := List.getElem?_eq_some_iff.mp hc
    have hout := ((getElem_cons_eraseIdx_perm hlt).map value).symm
    have hlen := length_eraseIdx_of_lt hlt
    rw [map_cons, hget] at hout
    refine ⟨⟨?_, arrived, htotal, ?_⟩, ?_⟩
    · simp only [length_append, length_singleton, hlen]
      omega
    · -- the value goes from its core to the answers
      have hmove := (hperm.symm.trans (hout.append_left _)).symm
      simpa using hmove
    · simp only [length_append, length_singleton, hlen]
      omega
  | reply i =>
    obtain ⟨val, hval, rfl⟩ := Option.map_eq_some_iff.mp h
    obtain ⟨hlt, hget⟩ := List.getElem?_eq_some_iff.mp hval
    have hout := (getElem_cons_eraseIdx_perm hlt).symm
    have hlen := length_eraseIdx_of_lt hlt
    rw [hget] at hout
    refine ⟨⟨?_, arrived ++ [val], ?_, ?_⟩, ?_⟩
    · simp only [hlen]
      omega
    · simp [htotal]
    · have hmove := (hperm.symm.trans ((hout.append_left arrived).append_right _)).symm
      simpa using hmove
    · simp only [hlen]
      omega

theorem returns_of_halt {origin : Fin cores} {s : Reduction cores T}
    (hi : Inv reduceOp value origin s) (hhalt : ∀ l, next reduceOp value s l = none) :
    s.count = 0 := by
  have hreq := hhalt (.request 0)
  have hrep := hhalt (.reply 0)
  simp only [next, Option.map_eq_none_iff, getElem?_eq_none_iff] at hreq hrep
  have := hi.1
  omega

theorem exists_returns (origin : Fin cores) : ∃ x, Returns reduceOp value origin x := by
  obtain ⟨ls, s, hrun, hi, hhalt⟩ := (system reduceOp value origin).run_to_halt
    (Inv reduceOp value origin) (fun s => 2 * s.requests.length + s.replies.length)
    (fun s l s' hs h => next_inv reduceOp value hs h) (start_inv reduceOp value origin)
  exact ⟨s.total, ls, s, hrun, returns_of_halt reduceOp value hi hhalt, rfl⟩

theorem Returns.fold {origin : Fin cores} {x : T} (h : Returns reduceOp value origin x) :
    ∃ arrived : List T, arrived.Perm ((others origin).map value) ∧
      x = arrived.foldl reduceOp (value origin) := by
  obtain ⟨ls, s, hrun, hcount, rfl⟩ := h
  obtain ⟨hlen, arrived, htotal, hperm⟩ :=
    System.invariant_under (Inv reduceOp value origin)
      (fun s l s' hs _ h => (next_inv reduceOp value hs h).1) (start_inv reduceOp value origin)
      (System.always_true _ _) hrun
  have hrequests : s.requests = [] := length_eq_zero_iff.mp (by omega)
  have hreplies : s.replies = [] := length_eq_zero_iff.mp (by omega)
  rw [hrequests, hreplies] at hperm
  exact ⟨arrived, by simpa using hperm, htotal⟩

end Reduction

/-! ### What a read returns -/

namespace Reducer

open Reduction (Returns others)

section Operations

variable {T : Type} [Arithmetic T]

theorem update_eq_op (R : ReducerType) : update (T := T) R = op R := by
  funext a b
  cases R with
  | Max => exact (max_def_lt a b).symm
  | Min => exact (min_comm a b ▸ min_def_lt b a).symm
  | Add | Or | And => rfl

instance (R : ReducerType) : Std.Associative (op (T := T) R) where
  assoc a b c := by
    cases R with
    | Add => exact add_assoc a b c
    | Or => exact Arithmetic.or_assoc a b c
    | And => exact Arithmetic.and_assoc a b c
    | Max => exact max_assoc a b c
    | Min => exact min_assoc a b c

instance (R : ReducerType) : Std.Commutative (op (T := T) R) where
  comm a b := by
    cases R with
    | Add => exact add_comm a b
    | Or => exact Arithmetic.or_comm a b
    | And => exact Arithmetic.and_comm a b
    | Max => exact max_comm a b
    | Min => exact min_comm a b

theorem reduceOp_eq_op {R : ReducerType} (hor : R ≠ .Or) (hand : R ≠ .And) :
    reduceOp (T := T) R = op R := by
  funext a b
  cases R with
  | Add => rfl
  | Max => exact (max_comm a b ▸ max_def_lt b a).symm
  | Min => exact (min_def_lt a b).symm
  | Or => exact absurd rfl hor
  | And => exact absurd rfl hand

theorem foldl_and_zero (xs : List T) : xs.foldl (op .And) 0 = 0 := by
  induction xs with
  | nil => rfl
  | cons x xs ih =>
    have hzero : op .And (0 : T) x = 0 := Arithmetic.zero_and x
    rw [foldl_cons, hzero, ih]

theorem foldl_or_eq_zero (v : T) (xs : List T) :
    xs.foldl (op .Or) v = 0 ↔ ∀ x ∈ v :: xs, x = 0 := by
  induction xs generalizing v with
  | nil => simp
  | cons x xs ih =>
    rw [foldl_cons, ih]
    simp [op, Arithmetic.or_eq_zero, and_assoc]

theorem foldl_or_isBool (v : T) (xs : List T) :
    (∃ c, xs.foldl (op .Or) v = Arithmetic.ofBool c) ↔
      ∀ x ∈ v :: xs, ∃ c, x = Arithmetic.ofBool c := by
  induction xs generalizing v with
  | nil => simp
  | cons x xs ih =>
    rw [foldl_cons, ih]
    simp only [forall_mem_cons, op, Arithmetic.isBool_or, and_assoc]

@[simp] theorem toBool_ofBool (b : Bool) : toBool (Arithmetic.ofBool b : T) = b := by
  cases b with
  | false => simp [toBool, Arithmetic.ofBool_false]
  | true => simp [toBool, Arithmetic.ofBool_true]

theorem foldl_collective_and (v : T) {xs : List T} (h : xs ≠ []) :
    xs.foldl (reduceOp .And) v = Arithmetic.ofBool ((v :: xs).all toBool) := by
  induction xs generalizing v with
  | nil => exact absurd rfl h
  | cons x xs ih =>
    rw [foldl_cons]
    by_cases hxs : xs = []
    · simp [hxs, reduceOp]
    · rw [ih _ hxs]
      simp [reduceOp, Bool.and_assoc]

theorem foldl_collective_or (v : T) {xs : List T} (h : xs ≠ []) :
    xs.foldl (reduceOp .Or) v = Arithmetic.ofBool ((v :: xs).any toBool) := by
  induction xs generalizing v with
  | nil => exact absurd rfl h
  | cons x xs ih =>
    rw [foldl_cons]
    by_cases hxs : xs = []
    · simp [hxs, reduceOp]
    · rw [ih _ hxs]
      simp [reduceOp, Bool.or_assoc]

end Operations

section Copies

variable {T : Type} [Arithmetic T] {cores : ℕ} (R : ReducerType) (assigner : Fin cores) (v : T)
  (us : List (Fin cores × T))

/-- The copies after an assignment and updates. -/
abbrev after : Reducer cores T := (assign assigner v).updates R us

theorem assign_self : (assign assigner v).local_value assigner = v := by
  simp [assign]

theorem assign_other {c : Fin cores} (h : c ≠ assigner) : (assign assigner v).local_value c = 0 := by
  simp [assign, reset, h]

theorem after_local_value (c : Fin cores) :
    (after R assigner v us).local_value c =
      (at_place us c).foldl (op R) ((assign assigner v).local_value c) := by
  rw [local_value_updates, update_eq_op]

/-- What is in the copies: the assigned value, the updates, and a `T()` for each other core. -/
theorem perm_copies :
    ((finRange cores).flatMap fun c =>
      (assign assigner v).local_value c :: at_place us c).Perm
        (v :: (us.map Prod.snd ++ replicate (cores - 1) 0)) := by
  have hassigned : ((finRange cores).map (assign assigner v).local_value).Perm
      (v :: replicate (cores - 1) 0) := by
    have hothers : (others assigner).map (assign assigner v).local_value =
        replicate (cores - 1) 0 := by
      rw [eq_replicate_iff]
      constructor
      · simp [Reduction.length_others]
      · simp only [mem_map, forall_exists_index, and_imp, forall_apply_eq_imp_iff₂]
        intro c hc
        exact assign_other assigner v (by simpa [others] using hc)
    rw [← hothers]
    have := ((Reduction.perm_others assigner).map (assign assigner v).local_value).symm
    rwa [map_cons, assign_self] at this
  have hupdates := perm_spread (nodup_finRange cores) us fun u _ => mem_finRange u.1
  -- the values assigned and the updates of a core stand together
  have hpair := flatMap_append_perm (finRange cores)
    (fun c => [(assign assigner v).local_value c]) (at_place us)
  have hmap : (finRange cores).flatMap (fun c => [(assign assigner v).local_value c]) =
      (finRange cores).map (assign assigner v).local_value :=
    map_eq_flatMap.symm
  rw [hmap] at hpair
  exact hpair.symm.trans ((hassigned.append hupdates).trans
    ((perm_append_comm.cons v).trans (by simp)))

/-- The documented value: the operation applied to the assigned value and all updates. -/
def opFold : T := (us.map Prod.snd).foldl (op R) v

variable {R assigner v us} {reader : Fin cores} {x : T}

/-- Where the collective does the operation of the updates, the `T()` of the other cores are
    operands like the updates. -/
theorem value_of_op (h : Returns (op R) (after R assigner v us).local_value reader x) :
    x = (replicate (cores - 1) 0).foldl (op R) (opFold R v us) := by
  obtain ⟨arrived, hperm, rfl⟩ := h.fold
  have hcopies : ((assign assigner v).local_value reader :: (at_place us reader ++
      (others reader).flatMap fun c => (assign assigner v).local_value c :: at_place us c)).Perm
        (v :: (us.map Prod.snd ++ replicate (cores - 1) 0)) :=
    ((Reduction.perm_others reader).flatMap_right _).trans (perm_copies assigner v us)
  rw [opFold, ← foldl_append, ← foldl_perm (op R) hcopies, foldl_append,
    ← after_local_value]
  have hparts := foldl_parts (op R) ((after R assigner v us).local_value reader)
    ((others reader).map fun c => ((assign assigner v).local_value c, at_place us c))
  rw [map_map, flatMap_map] at hparts
  rw [← hparts, foldl_perm (op R) (hperm.cons _)]
  congr 1
  exact map_congr_left fun c _ => after_local_value R assigner v us c

omit [Arithmetic T] in
theorem copies_of_returns {reduceOp : T → T → T} {value : Fin cores → T} (hcores : cores ≠ 1)
    (h : Returns reduceOp value reader x) :
    ∃ arrived : List T, arrived ≠ [] ∧ x = arrived.foldl reduceOp (value reader) ∧
      ∀ y, y ∈ value reader :: arrived ↔ ∃ c, value c = y := by
  obtain ⟨arrived, hperm, rfl⟩ := h.fold
  refine ⟨arrived, ?_, rfl, ?_⟩
  · intro hnil
    have hlen := hperm.length_eq
    rw [hnil, length_map, Reduction.length_others, length_nil] at hlen
    have := reader.pos
    omega
  · intro y
    rw [(hperm.cons (value reader)).mem_iff, ← map_cons,
      ((Reduction.perm_others reader).map value).mem_iff]
    simp

theorem value_and (hcores : cores ≠ 1)
    (h : Returns (reduceOp .And) (after .And assigner v us).local_value reader x) : x = 0 := by
  obtain ⟨arrived, hne, rfl, hmem⟩ := copies_of_returns hcores h
  -- a core that did not assign
  have : Nontrivial (Fin cores) := by
    have := reader.pos
    exact Fin.nontrivial_iff_two_le.mpr (by omega)
  obtain ⟨c, hc⟩ := exists_ne assigner
  have hzero : (after .And assigner v us).local_value c = 0 := by
    rw [after_local_value, assign_other assigner v hc, foldl_and_zero]
  have hall : ((after .And assigner v us).local_value reader :: arrived).all toBool = false := by
    rw [all_eq_false]
    exact ⟨0, (hmem 0).mpr ⟨c, hzero⟩, by simp [toBool]⟩
  rw [foldl_collective_and _ hne, hall, Arithmetic.ofBool_false]

theorem value_or (hcores : cores ≠ 1)
    (h : Returns (reduceOp .Or) (after .Or assigner v us).local_value reader x) :
    x = Arithmetic.ofBool (toBool (opFold .Or v us)) := by
  obtain ⟨arrived, hne, rfl, hmem⟩ := copies_of_returns hcores h
  rw [foldl_collective_or _ hne]
  congr 1
  have hcopies := fun y => (perm_copies assigner v us).mem_iff (a := y)
  -- all copies are 0 exactly when all operands are
  have hzero : (∀ y ∈ (after .Or assigner v us).local_value reader :: arrived, y = 0) ↔
      ∀ y ∈ v :: us.map Prod.snd, y = 0 := by
    calc (∀ y ∈ (after .Or assigner v us).local_value reader :: arrived, y = 0)
        ↔ ∀ c, (after .Or assigner v us).local_value c = 0 :=
          ⟨fun hz c => hz _ ((hmem _).mpr ⟨c, rfl⟩), fun hz y hy => by
            obtain ⟨c, rfl⟩ := (hmem y).mp hy
            exact hz c⟩
      _ ↔ ∀ c, ∀ y ∈ (assign assigner v).local_value c :: at_place us c, y = 0 := by
          simp only [after_local_value, foldl_or_eq_zero]
      _ ↔ ∀ y ∈ v :: (us.map Prod.snd ++ replicate (cores - 1) 0), y = 0 := by
          simp only [← hcopies _, mem_flatMap, mem_finRange, true_and,
            forall_exists_index]
          exact forall_comm
      _ ↔ ∀ y ∈ v :: us.map Prod.snd, y = 0 := by
          simp only [forall_mem_cons, forall_mem_append]
          simp +contextual
  rw [← foldl_or_eq_zero v] at hzero
  rw [Bool.eq_iff_iff, any_eq_true, opFold]
  have hnot := not_congr hzero
  push Not at hnot
  simpa only [toBool, decide_eq_true_eq] using hnot

/-- What a read returns, from the number of cores and the documented value. -/
def readValue (cores : ℕ) : ReducerType → T → T
  | .Add, y => y
  | .Max, y => if cores = 1 then y else max y 0
  | .Min, y => if cores = 1 then y else min y 0
  | .And, y => if cores = 1 then y else 0
  | .Or, y => if cores = 1 then y else Arithmetic.ofBool (toBool y)

/-- The `T()` of the other cores, for an operation of which it is neutral or which is idempotent. -/
theorem foldl_replicate_zero {f : T → T → T} (hf : ∀ a, f (f a 0) 0 = f a 0) (y : T) (n : ℕ) :
    (replicate (n + 1) 0).foldl f y = f y 0 := by
  induction n with
  | zero => rfl
  | succ n ih =>
    rw [replicate_succ', foldl_append, ih]
    exact hf y

theorem value_of_returns
    (h : Returns (reduceOp R) (after R assigner v us).local_value reader x) :
    x = readValue cores R (opFold R v us) := by
  by_cases hcores : cores = 1
  · -- the only copy
    obtain ⟨arrived, hperm, rfl⟩ := h.fold
    have hlen : arrived.length = 0 := by
      rw [hperm.length_eq, length_map, Reduction.length_others, hcores]
    subst hcores
    obtain rfl : assigner = reader := Subsingleton.elim _ _
    have hall : at_place us assigner = us.map Prod.snd := by
      unfold at_place
      rw [← filterMap_eq_map]
      apply filterMap_congr
      intro u _
      rw [if_pos (Subsingleton.elim _ _)]
      rfl
    have hval : (after R assigner v us).local_value assigner = opFold R v us := by
      rw [after_local_value, assign_self, hall, opFold]
    rw [length_eq_zero_iff.mp hlen, foldl_nil, hval]
    cases R <;> simp [readValue]
  · obtain ⟨n, hn⟩ : ∃ n, cores - 1 = n + 1 := ⟨cores - 2, by have := reader.pos; omega⟩
    cases R with
    | Add =>
      have := value_of_op h
      rw [hn, foldl_replicate_zero (by simp [op])] at this
      simpa [readValue, op] using this
    | Max =>
      rw [reduceOp_eq_op (by decide) (by decide)] at h
      have := value_of_op h
      rw [hn, foldl_replicate_zero (by simp [op])] at this
      simpa [readValue, op, hcores] using this
    | Min =>
      rw [reduceOp_eq_op (by decide) (by decide)] at h
      have := value_of_op h
      rw [hn, foldl_replicate_zero (by simp [op])] at this
      simpa [readValue, op, hcores] using this
    | And => simpa [readValue, hcores] using value_and hcores h
    | Or => simpa [readValue, hcores] using value_or hcores h

/-! ### The law -/

variable (R assigner v us reader)

/-- A read after an assignment and updates comes to its end, and returns the documented value
    whatever the order of the answers. -/
structure Law : Prop where
  progress : ∀ ls s, (Reduction.system (reduceOp R) (after R assigner v us).local_value reader).run
    (Reduction.start (after R assigner v us).local_value reader) ls = some s → s.count ≠ 0 →
      ∃ l s', Reduction.next (reduceOp R) (after R assigner v us).local_value s l = some s'
  value : ∀ x, Returns (reduceOp R) (after R assigner v us).local_value reader x →
    x = opFold R v us

/-- The `T()` of the other cores makes no difference to the value. -/
def DefaultHarmless (cores : ℕ) (R : ReducerType) (v : T) (xs : List T) : Prop :=
  match R with
  | .Add => True
  | .Max => cores = 1 ∨ ∃ x ∈ v :: xs, 0 ≤ x
  | .Min => cores = 1 ∨ ∃ x ∈ v :: xs, x ≤ 0
  | .And => cores = 1 ∨ xs.foldl (· &&& ·) v = 0
  | .Or => cores = 1 ∨ ∀ x ∈ v :: xs, ∃ b, x = Arithmetic.ofBool b

theorem le_foldl_max (v : T) (xs : List T) (a : T) :
    a ≤ xs.foldl max v ↔ ∃ x ∈ v :: xs, a ≤ x := by
  induction xs generalizing v with
  | nil => simp
  | cons x xs ih =>
    rw [foldl_cons, ih]
    simp [or_assoc]

theorem foldl_min_le (v : T) (xs : List T) (a : T) :
    xs.foldl min v ≤ a ↔ ∃ x ∈ v :: xs, x ≤ a := by
  induction xs generalizing v with
  | nil => simp
  | cons x xs ih =>
    rw [foldl_cons, ih]
    simp [or_assoc]

theorem ofBool_toBool_eq_iff (y : T) :
    Arithmetic.ofBool (toBool y) = y ↔ ∃ b, y = Arithmetic.ofBool b := by
  constructor
  · intro h
    exact ⟨toBool y, h.symm⟩
  · rintro ⟨b, rfl⟩
    rw [toBool_ofBool]

theorem readValue_eq_iff :
    readValue cores R (opFold R v us) = opFold R v us ↔
      DefaultHarmless cores R v (us.map Prod.snd) := by
  by_cases hcores : cores = 1
  · cases R <;> simp [readValue, DefaultHarmless, hcores]
  · cases R with
    | Add => simp [readValue, DefaultHarmless]
    | Max =>
      simp only [readValue, DefaultHarmless, hcores, if_false, false_or, max_eq_left_iff]
      exact le_foldl_max v _ 0
    | Min =>
      simp only [readValue, DefaultHarmless, hcores, if_false, false_or, min_eq_left_iff]
      exact foldl_min_le v _ 0
    | And =>
      simp only [readValue, DefaultHarmless, hcores, if_false, false_or]
      exact eq_comm
    | Or =>
      simp only [readValue, DefaultHarmless, hcores, if_false, false_or, ofBool_toBool_eq_iff]
      exact foldl_or_isBool v _

/-- **A reducer keeps its law** on one core, for sums, and where the copies that an
    assignment resets to `T()` do not show in the value: for a maximum where an operand
    is not negative, for a minimum where one is not positive, for an and where the value is 0
    anyway, and for an or of operands that are all 0 or 1. -/
theorem law_iff : Law R assigner v us reader ↔ DefaultHarmless cores R v (us.map Prod.snd) := by
  rw [← readValue_eq_iff R v us]
  constructor
  · intro h
    obtain ⟨x, hx⟩ := Reduction.exists_returns (reduceOp R) (after R assigner v us).local_value reader
    rw [← value_of_returns hx]
    exact h.value x hx
  · intro h
    constructor
    · intro ls s hrun hcount
      by_contra hstuck
      have hinv := System.invariant_under (Reduction.Inv (reduceOp R) _ reader)
        (fun s l s' hs _ h => (Reduction.next_inv (reduceOp R) _ hs h).1)
        (Reduction.start_inv (reduceOp R) _ reader) (System.always_true _ _) hrun
      refine hcount (Reduction.returns_of_halt _ _ hinv fun l => ?_)
      by_contra hne
      obtain ⟨s', hs'⟩ := Option.ne_none_iff_exists'.mp hne
      exact hstuck ⟨l, s', hs'⟩
    · intro x hx
      rw [value_of_returns hx, h]

end Copies

/-! ### The types -/

theorem isBool_iff {w : ℕ} (x : BitVec (w + 1)) :
    (∃ c : Bool, x = if c then 1 else 0) ↔ ∀ i, 0 < i → x.getLsbD i = false := by
  constructor
  · rintro ⟨c, rfl⟩ i hi
    cases c <;> simp [BitVec.getLsbD_one]
    omega
  · intro h
    refine ⟨x.getLsbD 0, ?_⟩
    apply BitVec.eq_of_getLsbD_eq
    intro i _
    rcases Nat.eq_zero_or_pos i with rfl | hi
    · cases x.getLsbD 0 <;> simp
    · rw [h i hi]
      cases x.getLsbD 0 <;> simp [BitVec.getLsbD_one]
      omega

/-- Machine integers, with either order. -/
abbrev machineInteger (w : ℕ) (order : LinearOrder (BitVec (w + 1))) :
    Arithmetic (BitVec (w + 1)) where
  toLinearOrder := order
  ofBool := fun b => if b then 1 else 0
  ofBool_false := by simp
  ofBool_true := by simp
  and_comm := BitVec.and_comm
  and_assoc := BitVec.and_assoc
  zero_and := fun _ => BitVec.zero_and
  or_comm := BitVec.or_comm
  or_assoc := BitVec.or_assoc
  zero_or := fun _ => BitVec.zero_or
  isBool_or := fun a b => by
    rw [isBool_iff, isBool_iff, isBool_iff]
    simp only [BitVec.getLsbD_or, Bool.or_eq_false_iff]
    exact ⟨fun h => ⟨fun i hi => (h i hi).1, fun i hi => (h i hi).2⟩,
      fun h i hi => ⟨h.1 i hi, h.2 i hi⟩⟩
  or_eq_zero := fun _ _ => BitVec.or_eq_zero_iff

/-- `uint64_t` and its like. -/
instance (w : ℕ) : Arithmetic (BitVec (w + 1)) :=
  machineInteger w (LinearOrder.lift' BitVec.toNat fun _ _ h => BitVec.eq_of_toNat_eq h)

/-- `int64_t` and its like. -/
def Signed (w : ℕ) : Type := BitVec (w + 1)

instance (w : ℕ) : Arithmetic (Signed w) :=
  machineInteger w (LinearOrder.lift' BitVec.toInt fun _ _ h => BitVec.eq_of_toInt_eq h)

/-- The example of the documentation on two cores: `all_zero = true`, and no value that is not
    zero.  The read returns `false`. -/
theorem all_zero_reads_false : ¬ Law .And (0 : Fin 2) (1 : BitVec 1) [] 0 := by
  intro h
  have hread : Returns (reduceOp .And) (after .And (0 : Fin 2) (1 : BitVec 1) []).local_value 0 0 :=
    ⟨[.request 0, .reply 0], _, rfl, rfl, by decide⟩
  exact absurd (h.value 0 hread) (by decide)

end Reducer

end Grappa
