import AdvCompArch.Lib.Phased
import Mathlib.Algebra.BigOperators.Group.Finset.Basic
import Mathlib.Algebra.Group.Pi.Lemmas
import Mathlib.Data.Fintype.Basic
import Mathlib.Data.Prod.Lex

/-! # The symmetric hash join

    `DoubleDHT`: each cell has the entries of the left and of the right insertions, an entry has
    a vector with the values of its key.  A call inserts its value on its own side and looks its key
    up on the other, in one task of the core of the cell, and then gives the values it has found
    there to its continuation, in a loop of its own whose pieces are interleaved with later inserts. -/

namespace Grappa

namespace DoubleDHT

open List

inductive Direction
  | LEFT
  | RIGHT
  deriving DecidableEq

/-- The side that a call looks its key up on. -/
def Direction.opposite : Direction → Direction
  | .LEFT => .RIGHT
  | .RIGHT => .LEFT

/-! ### One side of the cells -/

/-- A key, and the address of the vector of its values. -/
structure Entry (K : Type) where
  key : K
  vs : ℕ
  deriving DecidableEq

/-- The `entriesLeft` of all the cells, or the `entriesRight`; `none` is the null pointer. -/
structure Table (K V : Type) where
  entries : ℕ → Option (List (Entry K))
  vectors : List (List V)

section

variable {K V : Type} [DecidableEq K]

def lookup_local_helper (key : K) : Option (List (Entry K)) → Option (Entry K)
  | none => none
  | some entries => entries.find? fun e => e.key = key

def insert_local_helper (Unique : Bool) (key : K) (entries : List (Entry K)) (vectors : List (List V))
    (val : V) : List (Entry K) × List (List V) :=
  match entries.find? fun e => e.key = key with
  | some e => (entries, if Unique then vectors else vectors.modify e.vs (· ++ [val]))
  | none => (entries ++ [⟨key, vectors.length⟩], vectors ++ [[val]])

/-- `insert_local_left` and `insert_local_right`. -/
def Table.insert_local (Unique : Bool) (t : Table K V) (key : K) (target : ℕ) (val : V) : Table K V :=
  let r := insert_local_helper Unique key ((t.entries target).getD []) t.vectors val
  ⟨Function.update t.entries target (some r.1), r.2⟩

/-- `lookup_local_left` and `lookup_local_right`. -/
def Table.lookup_local (t : Table K V) (key : K) (target : ℕ) : Option (Entry K) :=
  lookup_local_helper key (t.entries target)

theorem Table.lookup_local_eq (t : Table K V) (key : K) (target : ℕ) :
    t.lookup_local key target = ((t.entries target).getD []).find? fun e => e.key = key := by
  unfold Table.lookup_local
  cases t.entries target <;> rfl

/-! What an insert does to the lookups and to the vectors. -/

variable {t : Table K V} {index : K → ℕ} {key key' : K} {val : V}

theorem Table.lookup_insert_of_ne (hne : key' ≠ key) (target target' : ℕ) :
    (t.insert_local false key target val).lookup_local key' target' = t.lookup_local key' target' := by
  rw [lookup_local_eq, lookup_local_eq]
  by_cases htarget : target' = target
  · subst htarget
    unfold insert_local insert_local_helper
    simp only [Function.update_self, Option.getD_some]
    split
    · rfl
    · simp [hne.symm]
  · unfold insert_local
    simp only [Function.update_of_ne htarget]

theorem Table.lookup_insert_of_some (val : V) {e : Entry K} {target : ℕ} (h : t.lookup_local key target = some e) :
    (t.insert_local false key target val).lookup_local key target = some e ∧
      (t.insert_local false key target val).vectors = t.vectors.modify e.vs (· ++ [val]) := by
  rw [lookup_local_eq] at h
  rw [lookup_local_eq]
  unfold insert_local insert_local_helper
  simp [h]

theorem Table.lookup_insert_of_none (val : V) {target : ℕ} (h : t.lookup_local key target = none) :
    (t.insert_local false key target val).lookup_local key target = some ⟨key, t.vectors.length⟩ ∧
      (t.insert_local false key target val).vectors = t.vectors ++ [[val]] := by
  rw [lookup_local_eq] at h
  rw [lookup_local_eq]
  unfold insert_local insert_local_helper
  simp [h]

/-- Every entry has a vector of its own. -/
structure Table.Separate (t : Table K V) (index : K → ℕ) : Prop where
  bound : ∀ key e, t.lookup_local key (index key) = some e → e.vs < t.vectors.length
  injective : ∀ key key' e e', t.lookup_local key (index key) = some e →
    t.lookup_local key' (index key') = some e' → e.vs = e'.vs → key = key'

/-- The values that a lookup of the key gives. -/
def Table.contents (t : Table K V) (index : K → ℕ) (key : K) : List V :=
  match t.lookup_local key (index key) with
  | some e => t.vectors.getD e.vs []
  | none => []

theorem Table.insert_local_length :
    t.vectors.length ≤ (t.insert_local false key (index key) val).vectors.length := by
  cases hlookup : t.lookup_local key (index key) with
  | some e =>
    rw [(lookup_insert_of_some val hlookup).2, length_modify]
  | none =>
    rw [(lookup_insert_of_none val hlookup).2, length_append]
    omega

/-- After an insert a key has the entry it had, or a new one with a new vector. -/
theorem Table.lookup_insert_cases {e : Entry K}
    (h : (t.insert_local false key (index key) val).lookup_local key' (index key') = some e) :
    t.lookup_local key' (index key') = some e ∨
      key' = key ∧ t.lookup_local key (index key) = none ∧ e.vs = t.vectors.length := by
  by_cases hne : key' = key
  · subst hne
    cases hlookup : t.lookup_local key' (index key') with
    | some e' =>
      rw [(lookup_insert_of_some val hlookup).1] at h
      exact .inl h
    | none =>
      rw [(lookup_insert_of_none val hlookup).1] at h
      cases h
      exact .inr ⟨rfl, rfl, rfl⟩
  · rw [lookup_insert_of_ne hne] at h
    exact .inl h

theorem Table.Separate.insert_local (h : t.Separate index) :
    (t.insert_local false key (index key) val).Separate index := by
  refine ⟨fun a e ha => ?_, fun a b e e' ha hb hvs => ?_⟩
  · rcases lookup_insert_cases ha with ha | ⟨rfl, hnone, hvs⟩
    · exact lt_of_lt_of_le (h.bound a e ha) insert_local_length
    · rw [hvs, (lookup_insert_of_none val hnone).2, length_append]
      exact Nat.lt_succ_self _
  · rcases lookup_insert_cases ha with hold | ⟨rfl, _, hnew⟩
    · rcases lookup_insert_cases hb with hold' | ⟨rfl, _, hnew⟩
      · exact h.injective a b e e' hold hold' hvs
      · have hlt := h.bound a e hold
        omega
    · rcases lookup_insert_cases hb with hold' | ⟨rfl, _, _⟩
      · have hlt := h.bound b e' hold'
        omega
      · rfl

theorem Table.contents_insert_local (h : t.Separate index) :
    (t.insert_local false key (index key) val).contents index key' =
      t.contents index key' ++ if key' = key then [val] else [] := by
  unfold contents
  by_cases hne : key' = key
  · subst hne
    rw [if_pos rfl]
    cases hlookup : t.lookup_local key' (index key') with
    | some e =>
      obtain ⟨hlookup', hvectors⟩ := lookup_insert_of_some val hlookup
      have hlt := h.bound key' e hlookup
      rw [hlookup', hvectors]
      simp [getD_eq_getElem?_getD, hlt]
    | none =>
      obtain ⟨hlookup', hvectors⟩ := lookup_insert_of_none val hlookup
      rw [hlookup', hvectors]
      simp [getD_eq_getElem?_getD]
  · rw [if_neg hne, append_nil, lookup_insert_of_ne hne]
    cases hother : t.lookup_local key' (index key') with
    | none => rfl
    | some e' =>
      have hlt := h.bound key' e' hother
      -- its vector is another one
      cases hlookup : t.lookup_local key (index key) with
      | some e =>
        have hvs : e.vs ≠ e'.vs := fun hvs => hne (h.injective key key' e e' hlookup hother hvs).symm
        rw [(lookup_insert_of_some val hlookup).2]
        simp [getD_eq_getElem?_getD, hvs]
      | none =>
        rw [(lookup_insert_of_none val hlookup).2]
        simp [getD_eq_getElem?_getD, getElem?_append_left hlt]

theorem Table.insert_local_grows (p : ℕ) :
    t.vectors.getD p [] <+: (t.insert_local false key (index key) val).vectors.getD p [] := by
  cases hlookup : t.lookup_local key (index key) with
  | some e =>
    rw [(lookup_insert_of_some val hlookup).2]
    by_cases hp : e.vs = p
    · subst hp
      simp only [getD_eq_getElem?_getD, getElem?_modify]
      cases t.vectors[e.vs]? <;> simp
    · simp [getD_eq_getElem?_getD, hp]
  | none =>
    rw [(lookup_insert_of_none val hlookup).2]
    by_cases hp : p < t.vectors.length
    · simp [getD_eq_getElem?_getD, getElem?_append_left hp]
    · simp [getD_eq_getElem?_getD, getElem?_eq_none (not_lt.mp hp)]

end

/-! ### The calls -/

/-- What a continuation is given: the call that it belongs to, and the value. -/
structure Report (V : Direction → Type) (calls : Direction → ℕ) where
  direction : Direction
  call : Fin (calls direction)
  result : V direction.opposite

structure State (K : Type) (V : Direction → Type) (calls : Direction → ℕ) where
  table : (d : Direction) → Table K (V d)
  /-- The calls of the continuations up to now. -/
  reported : List (Report V calls)
  /-- The main task has made its calls. -/
  called : Bool

/-- The tasks. -/
inductive Item (K : Type) (V : Direction → Type) (calls : Direction → ℕ)
  | insert_lookup_iter (d : Direction) (key : K) (val : V d) (f : Fin (calls d))
  /-- The task at the core of the cell. -/
  | insert_lookup (d : Direction) (key : K) (val : V d) (target : ℕ) (f : Fin (calls d))
  /-- A call of `loop_decomposition` in the loop over the vector at `resultsptr`. -/
  | loop (d : Direction) (f : Fin (calls d)) (resultsptr start iterations : ℕ)
  /-- The iterations at one of its leaves. -/
  | leaf (d : Direction) (f : Fin (calls d)) (resultsptr start iters : ℕ)

section

variable {K : Type} {V : Direction → Type} {calls : Direction → ℕ} [DecidableEq K]

def insert_lookup_iter_left (key : K) (val : V .LEFT) (f : Fin (calls .LEFT)) : Item K V calls :=
  .insert_lookup_iter .LEFT key val f

def insert_lookup_iter_right (key : K) (val : V .RIGHT) (f : Fin (calls .RIGHT)) : Item K V calls :=
  .insert_lookup_iter .RIGHT key val f

variable (HF : K → ℕ) (capacity_exp : Fin 32) (loop_threshold : ℕ)

/-- The capacity is a power of two, and a `uint32_t`. -/
def computeIndex (key : K) : ℕ := HF key &&& (2 ^ capacity_exp.val - 1)

def State.insert_local (s : State K V calls) (d : Direction) (key : K) (target : ℕ) (val : V d) :
    State K V calls :=
  { s with table := Function.update s.table d ((s.table d).insert_local false key target val) }

def Item.exec (s : State K V calls) : Item K V calls → Option (State K V calls × List (Item K V calls))
  | .insert_lookup_iter d key val f =>
    some (s, [.insert_lookup d key val (computeIndex HF capacity_exp key) f])
  | .insert_lookup d key val target f =>
    let s' := s.insert_local d key target val
    match (s'.table d.opposite).lookup_local key target with
    | some e =>
      -- the size that the vector has now
      some (s', [.loop d f e.vs 0 ((s'.table d.opposite).vectors.getD e.vs []).length])
    | none => some (s', [])
  | .loop d f resultsptr start iterations =>
    if iterations = 0 then some (s, [])
    else if iterations ≤ loop_threshold then some (s, [.leaf d f resultsptr start iterations])
    else some (s, [.loop d f resultsptr (start + (iterations + 1) / 2) (iterations / 2),
      .loop d f resultsptr start ((iterations + 1) / 2)])
  | .leaf _ _ _ _ 0 => some (s, [])
  | .leaf d f resultsptr start (iters + 1) =>
    (((s.table d.opposite).vectors.getD resultsptr [])[start]?).map fun result =>
      ({ s with reported := s.reported ++ [⟨d, f, result⟩] }, [.leaf d f resultsptr (start + 1) iters])

/-- The main task makes the calls and waits for the completion event. -/
def join (args : (d : Direction) → Fin (calls d) → K × V d) :
    Phased.Program (State K V calls) (Item K V calls) where
  exec := fun s x => x.exec HF capacity_exp loop_threshold s
  advance := fun s =>
    if s.called then none
    else some ({ s with called := true },
      ((List.finRange (calls .LEFT)).map fun f =>
        insert_lookup_iter_left (args .LEFT f).1 (args .LEFT f).2 f) ++
      (List.finRange (calls .RIGHT)).map fun f =>
        insert_lookup_iter_right (args .RIGHT f).1 (args .RIGHT f).2 f)

/-- After `init_global_DHT`. -/
def init_global_DHT : State K V calls := ⟨fun _ => ⟨fun _ => none, []⟩, [], false⟩

end

end DoubleDHT

end Grappa
