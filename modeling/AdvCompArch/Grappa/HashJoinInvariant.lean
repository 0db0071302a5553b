import AdvCompArch.Grappa.HashJoin
import AdvCompArch.Lib.Census
import Mathlib.Algebra.BigOperators.Pi

/-! # Where the pairs of a hash join are

    The pairs of the caller lie in its foralls, in delegates under way and in the groups of the
    reducers, and the steps only move them (`held`).  What is joined so far, together with what is
    still to be joined of the reducers that `reduceExecute` has not been through, is the whole
    equijoin at the start and the results at the end (`value`); a step can make it smaller only if it
    takes `reduceExecute` through a reducer that is not settled. -/

namespace Grappa

namespace HashJoin

open Equijoin Transition Function Multiset
open Multiset (coe_add coe_nil cons_coe cons_ne_zero filter_eq_nil filter_eq_self induction
  mem_add mem_coe mem_cons mem_cons_of_mem mem_cons_self mem_filter mem_singleton)

variable {K VL VR OutType : Type} {n : ℕ}

/-! ### Pairs on both sides -/

/-- Left and right pairs. -/
abbrev Sides (K VL VR : Type) := Multiset (K × VL) × Multiset (K × VR)

def Emission.sides : Emission K VL VR → Sides K VL VR
  | .left key val => ({(key, val)}, 0)
  | .right key val => (0, {(key, val)})

/-- The pairs of calls. -/
def sides (es : List (Emission K VL VR)) : Sides K VL VR := (es.map Emission.sides).sum

@[simp] theorem sides_nil : sides ([] : List (Emission K VL VR)) = 0 := rfl

@[simp] theorem sides_cons (e : Emission K VL VR) (es : List (Emission K VL VR)) :
    sides (e :: es) = e.sides + sides es := by
  simp [sides]

@[simp] theorem sides_append (es es' : List (Emission K VL VR)) :
    sides (es ++ es') = sides es + sides es' := by
  simp [sides]

theorem sides_eq (es : List (Emission K VL VR)) :
    sides es = ((lefts es : Multiset (K × VL)), (rights es : Multiset (K × VR))) := by
  induction es with
  | nil => rfl
  | cons e es ih =>
    rw [sides_cons, ih]
    cases e with
    | left key val =>
      exact Prod.ext (by simp [Emission.sides, lefts]) (by simp [Emission.sides, rights])
    | right key val =>
      exact Prod.ext (by simp [Emission.sides, lefts]) (by simp [Emission.sides, rights])

/-- The pairs whose keys have a property. -/
def keep (p : K → Prop) [DecidablePred p] (X : Sides K VL VR) : Sides K VL VR :=
  (X.1.filter fun a => p a.1, X.2.filter fun b => p b.1)

theorem keep_add (p : K → Prop) [DecidablePred p] (X Y : Sides K VL VR) :
    keep p (X + Y) = keep p X + keep p Y := by
  simp [keep]

theorem keep_keep (p q : K → Prop) [DecidablePred p] [DecidablePred q] (X : Sides K VL VR) :
    keep p (keep q X) = keep (fun k => p k ∧ q k) X := by
  simp [keep, filter_filter]

theorem keep_congr {p q : K → Prop} [DecidablePred p] [DecidablePred q] (X : Sides K VL VR)
    (h : ∀ k, p k ↔ q k) : keep p X = keep q X := by
  simp only [keep, h]

/-- All keys have the property. -/
def All (p : K → Prop) (X : Sides K VL VR) : Prop := (∀ a ∈ X.1, p a.1) ∧ ∀ b ∈ X.2, p b.1

theorem All.add {p : K → Prop} {X Y : Sides K VL VR} (hX : All p X) (hY : All p Y) : All p (X + Y) := by
  refine ⟨fun a ha => ?_, fun b hb => ?_⟩
  · rcases mem_add.mp ha with ha | ha
    · exact hX.1 a ha
    · exact hY.1 a ha
  · rcases mem_add.mp hb with hb | hb
    · exact hX.2 b hb
    · exact hY.2 b hb

theorem All.keep_eq {p : K → Prop} [DecidablePred p] {X : Sides K VL VR} (h : All p X) :
    keep p X = X :=
  Prod.ext (filter_eq_self.mpr h.1) (filter_eq_self.mpr h.2)

theorem All.keep_eq_zero {p q : K → Prop} [DecidablePred q] {X : Sides K VL VR} (h : All p X)
    (hq : ∀ k, p k → ¬q k) : keep q X = 0 :=
  Prod.ext (filter_eq_nil.mpr fun a ha => hq _ (h.1 a ha))
    (filter_eq_nil.mpr fun b hb => hq _ (h.2 b hb))

theorem all_sides (e : Emission K VL VR) : All (fun k => k = e.key) e.sides := by
  cases e with
  | left key val => exact ⟨by simp [Emission.sides, Emission.key], by simp [Emission.sides]⟩
  | right key val => exact ⟨by simp [Emission.sides], by simp [Emission.sides, Emission.key]⟩

variable [DecidableEq K] (ctx : HashJoinContext K VL VR OutType n)

/-- What the pairs give. -/
def HashJoinContext.value (X : Sides K VL VR) : Multiset OutType := equijoin ctx.combine X.1 X.2

/-- Classes of keys can be joined apart. -/
theorem value_keep (p : K → Prop) [DecidablePred p] (X : Sides K VL VR) :
    ctx.value X = ctx.value (keep p X) + ctx.value (keep (fun k => ¬p k) X) :=
  equijoin_filter p ctx.combine X.1 X.2

theorem value_sides (es : List (Emission K VL VR)) : ctx.value (sides es) = ctx.pairs es := by
  rw [sides_eq]
  unfold HashJoinContext.value equijoin HashJoinContext.pairs
  rw [← coe_bind]
  rfl

/-- What further pairs add. -/
def HashJoinContext.gain (X Y : Sides K VL VR) : Multiset OutType :=
  equijoin ctx.combine X.1 Y.2 + equijoin ctx.combine Y.1 (X.2 + Y.2)

theorem value_add (X Y : Sides K VL VR) : ctx.value (X + Y) = ctx.value X + ctx.gain X Y :=
  equijoin_add_add

/-! ### Where the pairs are -/

/-- The pairs in the groups of a reducer. -/
def JoinReducer.sides (r : JoinReducer K VL VR OutType) : Sides K VL VR :=
  (content r.groupsL, content r.groupsR)

theorem sides_reducer_append (r : JoinReducer K VL VR OutType) (e : Emission K VL VR) :
    (r.append e).sides = r.sides + e.sides := by
  cases e with
  | left key val =>
    exact Prod.ext (content_push ..) (by simp [JoinReducer.append, JoinReducer.sides, Emission.sides])
  | right key val =>
    exact Prod.ext (by simp [JoinReducer.append, JoinReducer.sides, Emission.sides]) (content_push ..)

theorem result_append (r : JoinReducer K VL VR OutType) (e : Emission K VL VR) :
    (r.append e).result = r.result := by
  cases e <;> rfl

/-- **What a reducer adds to its result** is the join of its groups. -/
theorem result_reduce (hiterate : ∀ l, (ctx.iterate l).Perm l) (r : JoinReducer K VL VR OutType) :
    ((r.reduce ctx).result : Multiset OutType) = r.result + ctx.value r.sides := by
  simp only [JoinReducer.reduce, ← coe_add]
  congr 1
  exact equijoin_content ctx.combine r.groupsL r.groupsR (hiterate _)

/-- What an item has of the pairs, and what kind of item it is. -/
def Item.sides : Item K VL VR n → Sides K VL VR
  | .body b => HashJoin.sides b.calls
  | .append _ e => e.sides
  | .reduce _ | .main | .reduceExecute => 0

def Item.bodies : Item K VL VR n → ℕ
  | .body _ => 1
  | .append _ _ | .reduce _ | .main | .reduceExecute => 0

def Item.reduces : Item K VL VR n → Multiset ℕ
  | .reduce r => {r}
  | .body _ | .append _ _ | .main | .reduceExecute => 0

def Item.mains : Item K VL VR n → ℕ
  | .main => 1
  | .body _ | .append _ _ | .reduce _ | .reduceExecute => 0

def Item.ends : Item K VL VR n → ℕ
  | .reduceExecute => 1
  | .body _ | .append _ _ | .reduce _ | .main => 0

/-- What the items of a pool have together. -/
def total {M : Type} [AddCommMonoid M] (f : Item K VL VR n → M) (pool : Multiset (Item K VL VR n)) :
    M :=
  (pool.map f).sum

section total

variable {M : Type} [AddCommMonoid M] (f : Item K VL VR n → M)

omit [DecidableEq K] in
@[simp] theorem total_zero : total f 0 = 0 := rfl

omit [DecidableEq K] in
@[simp] theorem total_cons (x : Item K VL VR n) (pool : Multiset (Item K VL VR n)) :
    total f (x ::ₘ pool) = f x + total f pool := by
  simp [total]

omit [DecidableEq K] in
@[simp] theorem total_add (pool pool' : Multiset (Item K VL VR n)) :
    total f (pool + pool') = total f pool + total f pool' := by
  simp [total]

omit [DecidableEq K] in
theorem total_coe (pool : List (Item K VL VR n)) : total f pool = (pool.map f).sum := rfl

omit [DecidableEq K] in
theorem total_eq_zero {pool : Multiset (Item K VL VR n)} (h : ∀ x ∈ pool, f x = 0) :
    total f pool = 0 := by
  rw [total, map_congr rfl h, map_const', sum_replicate, nsmul_zero]

end total

variable {s s' : State K VL VR OutType n} {pool rest : Multiset (Item K VL VR n)}
  {new : List (Item K VL VR n)}

/-- All pairs that have not been joined. -/
def held (s : State K VL VR OutType n) (pool : Multiset (Item K VL VR n)) : Sides K VL VR :=
  ∑ r ∈ Finset.range ctx.num_reducers, (s.reducers r).sides + sides (emissions s.rest) +
    total Item.sides pool

/-- What is joined, and what is still to be joined. -/
def HashJoinContext.worth (s : State K VL VR OutType n) (pool : Multiset (Item K VL VR n)) :
    Multiset OutType :=
  (results ctx s : Multiset OutType) +
    ctx.value (keep (fun k => ctx.index k ∉ s.joined) (held ctx s pool))

omit [DecidableEq K] in
theorem sum_reducers {M : Type} [AddCommMonoid M] (f : JoinReducer K VL VR OutType → M)
    (reducers : ℕ → JoinReducer K VL VR OutType) {r : ℕ} (hr : r < ctx.num_reducers)
    (x : JoinReducer K VL VR OutType) :
    ∑ i ∈ Finset.range ctx.num_reducers, f (Function.update reducers r x i) + f (reducers r) =
      ∑ i ∈ Finset.range ctx.num_reducers, f (reducers i) + f x := by
  have hsum := Census.sum_add_of_eq_off (Finset.mem_range.mpr hr)
    (g := fun i => f (update reducers r x i)) (f := fun i => f (reducers i))
    fun i _ hi => by rw [update_of_ne hi]
  rwa [update_self] at hsum

omit [DecidableEq K] in
theorem results_eq (s : State K VL VR OutType n) :
    (results ctx s : Multiset OutType) =
      ∑ r ∈ Finset.range ctx.num_reducers, ((s.reducers r).result : Multiset OutType) := by
  rw [results, ← Multiset.coe_bind, Multiset.bind, Multiset.join, Multiset.map_coe, Multiset.sum_coe]
  rfl

/-! ### The invariant -/

/-- Pairs are only at the reducer of their key, or on their way to it. -/
structure Placed (s : State K VL VR OutType n) (pool : Multiset (Item K VL VR n)) : Prop where
  stored : ∀ r, All (fun k => ctx.index k = r) (s.reducers r).sides
  sent : ∀ r e, .append r e ∈ pool → ctx.index e.key = r

/-- The main task is in the foralls. -/
structure InForalls (s : State K VL VR OutType n) (pool : Multiset (Item K VL VR n)) : Prop where
  joined : s.joined = []
  active : s.active = total Item.bodies pool
  mains : total Item.mains pool = 1
  reduces : total Item.reduces pool = 0
  ends : total Item.ends pool = 0

/-- The foralls have returned. -/
structure Emitted (s : State K VL VR OutType n) (pool : Multiset (Item K VL VR n)) : Prop where
  rest : s.rest = []
  bodies : total Item.bodies pool = 0
  mains : total Item.mains pool = 0

/-- The main task is in `reduceExecute`. -/
structure InReduce (s : State K VL VR OutType n) (pool : Multiset (Item K VL VR n)) : Prop
    extends Emitted s pool where
  active : s.active = (total Item.reduces pool).card
  ends : total Item.ends pool = 1
  nodup : (total Item.reduces pool).Nodup
  pending : ∀ r ∈ total Item.reduces pool, r < ctx.num_reducers ∧ r ∉ s.joined
  all : ∀ r < ctx.num_reducers, r ∈ s.joined ∨ r ∈ total Item.reduces pool

/-- `reduceExecute` has returned. -/
structure Returned (s : State K VL VR OutType n) (pool : Multiset (Item K VL VR n)) : Prop
    extends Emitted s pool where
  reduces : total Item.reduces pool = 0
  ends : total Item.ends pool = 0
  all : ∀ r < ctx.num_reducers, r ∈ s.joined

def PhaseInv (s : State K VL VR OutType n) (pool : Multiset (Item K VL VR n)) : Prop :=
  match s.phase with
  | .start => pool = 0 ∧ s.joined = [] ∧ s.active = 0
  | .foralls => InForalls s pool
  | .reduce => InReduce ctx s pool
  | .returned => Returned ctx s pool

structure Inv (s : State K VL VR OutType n) (pool : Multiset (Item K VL VR n)) : Prop where
  placed : Placed ctx s pool
  phase : PhaseInv ctx s pool

/-! ### Steps -/

variable {ctx}

omit [DecidableEq K] in
theorem index_lt (hnum : 0 < ctx.num_reducers) (key : K) : ctx.index key < ctx.num_reducers :=
  Nat.mod_lt _ hnum

theorem sum_append {r : ℕ} (hr : r < ctx.num_reducers) (s : State K VL VR OutType n)
    (e : Emission K VL VR) :
    ∑ i ∈ Finset.range ctx.num_reducers, ((s.append r e).reducers i).sides =
      ∑ i ∈ Finset.range ctx.num_reducers, (s.reducers i).sides + e.sides := by
  have hsum := sum_reducers ctx JoinReducer.sides s.reducers hr ((s.reducers r).append e)
  rw [sides_reducer_append, add_left_comm, add_comm] at hsum
  exact add_left_cancel hsum

theorem results_append (s : State K VL VR OutType n) (r : ℕ) (e : Emission K VL VR) :
    results ctx (s.append r e) = results ctx s := by
  unfold results
  apply List.flatMap_congr
  intro i _
  by_cases hi : i = r
  · subst hi
    simp only [State.append, update_self, result_append]
  · simp only [State.append, update_of_ne hi]

theorem Placed.append {r : ℕ} {e : Emission K VL VR} (h : Placed ctx s pool)
    (hr : ctx.index e.key = r) :
    ∀ i, All (fun k => ctx.index k = i) ((s.append r e).reducers i).sides := by
  intro i
  by_cases hi : i = r
  · subst hi
    simp only [State.append, update_self, sides_reducer_append]
    apply (h.stored i).add
    have hkey := all_sides e
    exact ⟨fun a ha => (congrArg ctx.index (hkey.1 a ha)).trans hr,
      fun b hb => (congrArg ctx.index (hkey.2 b hb)).trans hr⟩
  · simp only [State.append, update_of_ne hi]
    exact h.stored i

/-- What a body leaves: its pairs are at the reducers or under way. -/
structure Emits (ctx : HashJoinContext K VL VR OutType n) (es : List (Emission K VL VR))
    (s s' : State K VL VR OutType n) (new : List (Item K VL VR n)) : Prop where
  rest : s'.rest = s.rest
  active : s'.active = s.active
  phase : s'.phase = s.phase
  joined : s'.joined = s.joined
  results : results ctx s' = results ctx s
  sides : ∑ i ∈ Finset.range ctx.num_reducers, (s'.reducers i).sides +
      total Item.sides (new : Multiset (Item K VL VR n)) =
    ∑ i ∈ Finset.range ctx.num_reducers, (s.reducers i).sides + sides es
  appends : ∀ x ∈ new, ∃ e, x = .append (ctx.index e.key) e
  stored : (∀ r, All (fun k => ctx.index k = r) (s.reducers r).sides) →
    ∀ r, All (fun k => ctx.index k = r) (s'.reducers r).sides

theorem emits (hnum : 0 < ctx.num_reducers) (c : Fin (n + 1)) (es : List (Emission K VL VR))
    (s : State K VL VR OutType n) : Emits ctx es s (emit ctx c es s).1 (emit ctx c es s).2 := by
  induction es generalizing s with
  | nil => exact ⟨rfl, rfl, rfl, rfl, rfl, by simp [emit], by simp [emit], fun h => h⟩
  | cons e es ih =>
    have hr := index_lt hnum e.key
    by_cases hc : ctx.reducer_core (ctx.index e.key) = c
    · have h := ih (s.append (ctx.index e.key) e)
      simp only [emit, if_pos hc]
      refine ⟨h.rest, h.active, h.phase, h.joined, h.results.trans (results_append ..), ?_,
          h.appends, ?_⟩
      · rw [h.sides, sum_append hr, sides_cons, add_assoc]
      · intro hs
        have hplaced : Placed ctx s 0 := ⟨hs, by simp⟩
        exact h.stored (hplaced.append rfl)
    · have h := ih s
      simp only [emit, if_neg hc]
      refine ⟨h.rest, h.active, h.phase, h.joined, h.results, ?_, ?_, h.stored⟩
      · rw [← cons_coe, total_cons, add_left_comm, h.sides, sides_cons]
        simp only [Item.sides]
        abel
      · intro x hx
        rcases List.mem_cons.mp hx with rfl | hx
        · exact ⟨e, rfl⟩
        · exact h.appends x hx

theorem worth_congr (hheld : held ctx s' rest = held ctx s pool) (hjoined : s'.joined = s.joined)
    (hresults : results ctx s' = results ctx s) : ctx.worth s' rest = ctx.worth s pool := by
  unfold HashJoinContext.worth
  rw [hheld, hresults]
  congr 2
  exact keep_congr _ fun k => by rw [hjoined]

/-- The condition on an item. -/
def Good (s : State K VL VR OutType n) (pool : Multiset (Item K VL VR n)) : Item K VL VR n → Prop
  | .reduce r => Settled s pool r
  | .body _ | .append _ _ | .main | .reduceExecute => True

/-- What a step does: it keeps the invariant, and nothing gets lost unless a reducer is not
    settled. -/
structure Steps (ctx : HashJoinContext K VL VR OutType n) (s : State K VL VR OutType n)
    (pool : Multiset (Item K VL VR n)) (P : Prop) (s' : State K VL VR OutType n)
    (pool' : Multiset (Item K VL VR n)) : Prop where
  inv : Inv ctx s' pool'
  le : ctx.worth s' pool' ≤ ctx.worth s pool
  kept : ctx.worth s' pool' = ctx.worth s pool ↔ P

theorem Steps.of_eq {pool' : Multiset (Item K VL VR n)} (hinv : Inv ctx s' pool')
    (heq : ctx.worth s' pool' = ctx.worth s pool) : Steps ctx s pool True s' pool' :=
  ⟨hinv, heq.le, iff_of_true heq trivial⟩

omit [DecidableEq K] in
theorem total_appends {M : Type} [AddCommMonoid M] {f : Item K VL VR n → M}
    (hf : ∀ r e, f (.append r e) = 0) (h : ∀ x ∈ new, ∃ e, x = .append (ctx.index e.key) e) :
    total f (new : Multiset (Item K VL VR n)) = 0 := by
  apply total_eq_zero
  intro x hx
  obtain ⟨e, rfl⟩ := h x hx
  exact hf ..

theorem step_body (hnum : 0 < ctx.num_reducers) {b : Body K VL VR n}
    (h : Inv ctx s (.body b ::ₘ rest))
    (hx : exec ctx s (.body b) = some (s', new)) :
    Steps ctx s (.body b ::ₘ rest) True s' (rest + new) := by
  have hemits := emits hnum b.core b.calls s
  simp only [exec] at hx
  cases hx
  generalize emit ctx b.core b.calls s = sent at hemits
  have hphase := h.phase
  unfold PhaseInv at hphase
  have hforalls : s.phase = .foralls ∧ InForalls s (.body b ::ₘ rest) := by
    split at hphase <;> rename_i hp
    · exact absurd hphase.1 (cons_ne_zero)
    · exact ⟨hp, hphase⟩
    · exact absurd hphase.bodies (by simp [Item.bodies])
    · exact absurd hphase.bodies (by simp [Item.bodies])
  obtain ⟨hp, hf⟩ := hforalls
  apply Steps.of_eq
  · refine ⟨⟨hemits.stored h.placed.stored, ?_⟩, ?_⟩
    · intro r e hmem
      rcases mem_add.mp hmem with hmem | hmem
      · exact h.placed.sent r e (mem_cons_of_mem hmem)
      · obtain ⟨e', heq⟩ := hemits.appends _ (mem_coe.mp hmem)
        obtain ⟨rfl, rfl⟩ := Item.append.inj heq
        rfl
    · unfold PhaseInv
      simp only [hemits.phase, hp]
      have hactive := hf.active
      have hmains := hf.mains
      have hreduces := hf.reduces
      have hends := hf.ends
      simp only [total_cons, Item.bodies, Item.mains, Item.reduces, Item.ends, zero_add]
        at hactive hmains hreduces hends
      refine ⟨hemits.joined.trans hf.joined, ?_, ?_, ?_, ?_⟩
      · rw [total_add, total_appends (fun _ _ => rfl) hemits.appends, add_zero]
        show s.active - 1 = _
        omega
      · rw [total_add, total_appends (fun _ _ => rfl) hemits.appends, hmains, add_zero]
      · rw [total_add, total_appends (fun _ _ => rfl) hemits.appends, hreduces, add_zero]
      · rw [total_add, total_appends (fun _ _ => rfl) hemits.appends, hends, add_zero]
  · apply worth_congr _ hemits.joined hemits.results
    unfold held
    have hsides := hemits.sides
    simp only [hemits.rest, total_add, total_cons, Item.sides]
    calc _ = (∑ i ∈ Finset.range ctx.num_reducers, (sent.1.reducers i).sides +
          total Item.sides (sent.2 : Multiset (Item K VL VR n))) + sides (emissions s.rest) +
          total Item.sides rest := by abel
      _ = _ := by
        rw [hsides]
        abel

theorem step_append (hnum : 0 < ctx.num_reducers) {r : ℕ} {e : Emission K VL VR}
    (h : Inv ctx s (.append r e ::ₘ rest)) (hx : exec ctx s (.append r e) = some (s', new)) :
    Steps ctx s (.append r e ::ₘ rest) True s' (rest + new) := by
  simp only [exec] at hx
  cases hx
  have hr := h.placed.sent r e (mem_cons_self ..)
  have hlt := index_lt hnum e.key
  rw [hr] at hlt
  rw [coe_nil, add_zero]
  apply Steps.of_eq
  · refine ⟨⟨h.placed.append hr,
      fun r' e' hmem => h.placed.sent r' e' (mem_cons_of_mem hmem)⟩, ?_⟩
    have hphase := h.phase
    have hsame : (s.append r e).phase = s.phase := rfl
    unfold PhaseInv at hphase ⊢
    rw [hsame]
    cases hp : s.phase <;> simp only [hp] at hphase ⊢
    · exact absurd hphase.1 cons_ne_zero
    · obtain ⟨hjoined, hactive, hmains, hreduces, hends⟩ := hphase
      simp only [total_cons, Item.bodies, Item.mains, Item.reduces, Item.ends, zero_add]
        at hactive hmains hreduces hends
      exact ⟨hjoined, hactive, hmains, hreduces, hends⟩
    · obtain ⟨⟨hrest, hbodies, hmains⟩, hactive, hends, hnodup, hpending, hall⟩ := hphase
      simp only [total_cons, Item.bodies, Item.mains, Item.reduces, Item.ends, zero_add]
        at hbodies hmains hactive hends hnodup hpending hall
      exact ⟨⟨hrest, hbodies, hmains⟩, hactive, hends, hnodup, hpending, hall⟩
    · obtain ⟨⟨hrest, hbodies, hmains⟩, hreduces, hends, hall⟩ := hphase
      simp only [total_cons, Item.bodies, Item.mains, Item.reduces, Item.ends, zero_add]
        at hbodies hmains hreduces hends
      exact ⟨⟨hrest, hbodies, hmains⟩, hreduces, hends, hall⟩
  · have hrest : (s.append r e).rest = s.rest := rfl
    have hheld : held ctx (s.append r e) rest = held ctx s (.append r e ::ₘ rest) := by
      rw [held, held, sum_append hlt, hrest, total_cons]
      simp only [Item.sides]
      abel
    exact worth_congr hheld rfl (results_append s r e)

omit [DecidableEq K] in
theorem total_bodies (bodies : List (Body K VL VR n)) :
    total Item.bodies ((bodies.map Item.body : List (Item K VL VR n)) : Multiset (Item K VL VR n)) =
        bodies.length ∧
      total Item.sides ((bodies.map Item.body : List (Item K VL VR n)) : Multiset (Item K VL VR n)) =
        sides (bodies.flatMap Body.calls) := by
  induction bodies with
  | nil => exact ⟨rfl, rfl⟩
  | cons b bodies ih =>
    rw [List.map_cons, ← cons_coe, total_cons, total_cons, ih.1, ih.2, List.flatMap_cons,
      sides_append, List.length_cons]
    exact ⟨add_comm .., rfl⟩

omit [DecidableEq K] in
theorem total_reduces (rs : List ℕ) :
    total Item.reduces ((rs.map Item.reduce : List (Item K VL VR n)) : Multiset (Item K VL VR n)) =
      rs := by
  induction rs with
  | nil => rfl
  | cons r rs ih =>
    rw [List.map_cons, ← cons_coe, total_cons, ih, ← cons_coe]
    rfl

omit [DecidableEq K] in
theorem total_map {M α : Type} [AddCommMonoid M] {f : Item K VL VR n → M} {g : α → Item K VL VR n}
    (hf : ∀ a, f (g a) = 0) (l : List α) : total f ((l.map g : List (Item K VL VR n)) : Multiset _) =
        0 := by
  apply total_eq_zero
  intro x hx
  obtain ⟨a, -, rfl⟩ := List.mem_map.mp hx
  exact hf a

theorem step_main (h : Inv ctx s (.main ::ₘ rest)) (hx : exec ctx s .main = some (s', new)) :
    Steps ctx s (.main ::ₘ rest) True s' (rest + new) := by
  have hphase := h.phase
  unfold PhaseInv at hphase
  have hforalls : s.phase = .foralls ∧ InForalls s (.main ::ₘ rest) := by
    split at hphase <;> rename_i hp
    · exact absurd hphase.1 cons_ne_zero
    · exact ⟨hp, hphase⟩
    · exact absurd hphase.mains (by simp [Item.mains])
    · exact absurd hphase.mains (by simp [Item.mains])
  obtain ⟨hp, hjoined, hactive, hmains, hreduces, hends⟩ := hforalls
  simp only [total_cons, Item.bodies, Item.mains, Item.reduces, Item.ends, zero_add]
    at hactive hmains hreduces hends
  have hmains0 : total Item.mains rest = 0 := by omega
  simp only [exec] at hx
  split_ifs at hx with hidle
  have hbodies0 : total Item.bodies rest = 0 := by omega
  have hsent : ∀ r e, .append r e ∈ rest → ctx.index e.key = r := fun r e hmem =>
    h.placed.sent r e (mem_cons_of_mem hmem)
  cases hrest : s.rest with
  | nil =>
    rw [hrest] at hx
    cases hx
    have hred := @total_reduces K VL VR n (List.range ctx.num_reducers)
    have htotal : total Item.reduces (rest + (((List.range ctx.num_reducers).map Item.reduce ++
        [Item.reduceExecute] : List (Item K VL VR n)) : Multiset (Item K VL VR n))) =
          (List.range ctx.num_reducers : Multiset ℕ) := by
      rw [total_add, hreduces, ← coe_add, total_add, hred]
      simp [total, Item.reduces]
    apply Steps.of_eq
    · refine ⟨⟨h.placed.stored, ?_⟩, ?_⟩
      · intro r e hmem
        rcases mem_add.mp hmem with hmem | hmem
        · exact hsent r e hmem
        · simp at hmem
      · refine ⟨⟨rfl, ?_, ?_⟩, ?_, ?_, ?_, ?_, ?_⟩
        · rw [total_add, hbodies0, ← coe_add, total_add, total_map (fun _ => rfl)]
          rfl
        · rw [total_add, hmains0, ← coe_add, total_add, total_map (fun _ => rfl)]
          rfl
        · rw [htotal]
          simp
        · rw [total_add, hends, ← coe_add, total_add, total_map (fun _ => rfl)]
          rfl
        · rw [htotal]
          exact coe_nodup.mpr List.nodup_range
        · rw [htotal]
          intro r hr
          refine ⟨List.mem_range.mp (mem_coe.mp hr), ?_⟩
          show r ∉ s.joined
          rw [hjoined]
          exact List.not_mem_nil
        · rw [htotal]
          intro r hr
          exact .inr (mem_coe.mpr (List.mem_range.mpr hr))
    · refine worth_congr ?_ rfl rfl
      unfold held
      rw [total_add, ← coe_add, total_add, total_map (fun _ => rfl), total_cons, hrest]
      simp [total, Item.sides]
  | cons bodies others =>
    rw [hrest] at hx
    cases hx
    obtain ⟨hlength, hsides⟩ := total_bodies bodies
    apply Steps.of_eq
    · refine ⟨⟨h.placed.stored, ?_⟩, ?_⟩
      · intro r e hmem
        rcases mem_add.mp hmem with hmem | hmem
        · exact hsent r e hmem
        · simp at hmem
      · unfold PhaseInv
        simp only [hp]
        refine ⟨hjoined, ?_, ?_, ?_, ?_⟩
        · rw [total_add, hbodies0, ← coe_add, total_add, hlength]
          simp [total, Item.bodies]
        · rw [total_add, hmains0, ← coe_add, total_add, total_map (fun _ => rfl)]
          rfl
        · rw [total_add, hreduces, ← coe_add, total_add, total_map (fun _ => rfl)]
          rfl
        · rw [total_add, hends, ← coe_add, total_add, total_map (fun _ => rfl)]
          rfl
    · refine worth_congr ?_ rfl rfl
      unfold held
      rw [total_add, ← coe_add, total_add, hsides, total_cons, hrest]
      simp only [emissions, List.flatMap_cons, sides_append, total_coe, List.map_cons, List.map_nil,
        List.sum_cons, List.sum_nil, Item.sides]
      abel

theorem step_return (h : Inv ctx s (.reduceExecute ::ₘ rest))
    (hx : exec ctx s .reduceExecute = some (s', new)) :
    Steps ctx s (.reduceExecute ::ₘ rest) True s' (rest + new) := by
  have hphase := h.phase
  unfold PhaseInv at hphase
  have hreduce : InReduce ctx s (.reduceExecute ::ₘ rest) := by
    split at hphase <;> rename_i hp
    · exact absurd hphase.1 cons_ne_zero
    · exact absurd hphase.ends (by simp [Item.ends])
    · exact hphase
    · exact absurd hphase.ends (by simp [Item.ends])
  obtain ⟨⟨hrest, hbodies, hmains⟩, hactive, hends, hnodup, hpending, hall⟩ := hreduce
  simp only [total_cons, Item.bodies, Item.mains, Item.reduces, Item.ends, zero_add]
    at hbodies hmains hactive hends hall
  simp only [exec] at hx
  split_ifs at hx with hidle
  cases hx
  have hnone : total Item.reduces rest = 0 := card_eq_zero.mp (hactive.symm.trans hidle)
  rw [coe_nil, add_zero]
  apply Steps.of_eq
  · refine ⟨⟨h.placed.stored, fun r e hmem => h.placed.sent r e (mem_cons_of_mem hmem)⟩, ?_⟩
    refine ⟨⟨hrest, hbodies, hmains⟩, hnone, by omega, ?_⟩
    intro r hr
    rcases hall r hr with hmem | hmem
    · exact hmem
    · rw [hnone] at hmem
      exact absurd hmem (notMem_zero r)
  · refine worth_congr ?_ rfl rfl
    unfold held
    rw [total_cons]
    simp only [Item.sides, zero_add]

theorem step_advance (h : Inv ctx s 0) (hx : s.advance = some (s', new)) :
    Steps ctx s 0 True s' new := by
  have hphase := h.phase
  unfold PhaseInv at hphase
  unfold State.advance at hx
  split at hx <;> rename_i hp
  · rw [hp] at hphase
    obtain ⟨-, hjoined, hactive⟩ := hphase
    cases hx
    apply Steps.of_eq
    · refine ⟨⟨h.placed.stored, fun r e hmem => by simp at hmem⟩, ?_⟩
      exact ⟨hjoined, hactive, rfl, rfl, rfl⟩
    · refine worth_congr ?_ rfl rfl
      rfl
  · cases hx
  · cases hx
  · cases hx

/-! ### Through a reducer -/

omit [DecidableEq K] in
theorem mem_total_sides (hbodies : total Item.bodies pool = 0) :
    (∀ a, a ∈ (total Item.sides pool).1 ↔ ∃ r, .append r (.left a.1 a.2) ∈ pool) ∧
      ∀ b, b ∈ (total Item.sides pool).2 ↔ ∃ r, .append r (.right b.1 b.2) ∈ pool := by
  induction pool using induction with
  | empty => simp
  | cons x pool ih =>
    rw [total_cons] at hbodies
    have hx : x.bodies = 0 := by omega
    obtain ⟨hleft, hright⟩ := ih (by omega)
    have hown : (∀ a, a ∈ x.sides.1 ↔ ∃ r, .append r (.left a.1 a.2) = x) ∧
        ∀ b, b ∈ x.sides.2 ↔ ∃ r, .append r (.right b.1 b.2) = x := by
      cases x with
      | body b => cases hx
      | append r e =>
        cases e with
        | left key val => simp [Item.sides, Emission.sides, Prod.ext_iff]
        | right key val => simp [Item.sides, Emission.sides, Prod.ext_iff]
      | reduce r => simp [Item.sides]
      | main => simp [Item.sides]
      | reduceExecute => simp [Item.sides]
    simp only [total_cons, Prod.fst_add, Prod.snd_add, mem_add, hleft, hright, hown.1, hown.2,
      mem_cons, exists_or, implies_true, and_self]

/-- The pairs that are under way to a reducer. -/
def underway (ctx : HashJoinContext K VL VR OutType n) (r : ℕ) (pool : Multiset (Item K VL VR n)) :
    Sides K VL VR := keep (fun k => ctx.index k = r) (total Item.sides pool)

/-- **A reducer is settled** just if nothing would be gained by what is under way. -/
theorem settled_iff {r : ℕ} (hplaced : Placed ctx s pool) (hbodies : total Item.bodies pool = 0) :
    Settled s pool r ↔ ctx.gain (s.reducers r).sides (underway ctx r pool) = 0 := by
  have hsent : ∀ e : Emission K VL VR,
      (∃ r', .append r' e ∈ pool) ∧ ctx.index e.key = r ↔ .append r e ∈ pool := by
    intro e
    constructor
    · rintro ⟨⟨r', hmem⟩, hindex⟩
      obtain rfl : r' = r := (hplaced.sent r' _ hmem).symm.trans hindex
      exact hmem
    · intro hmem
      exact ⟨⟨r, hmem⟩, hplaced.sent r _ hmem⟩
  have hleft : ∀ a : K × VL, a ∈ (underway ctx r pool).1 ↔ .append r (.left a.1 a.2) ∈ pool := by
    intro a
    simp only [underway, keep, mem_filter, mem_total_sides hbodies]
    exact hsent (.left a.1 a.2)
  have hright : ∀ b : K × VR, b ∈ (underway ctx r pool).2 ↔ .append r (.right b.1 b.2) ∈ pool := by
    intro b
    simp only [underway, keep, mem_filter, mem_total_sides hbodies]
    exact hsent (.right b.1 b.2)
  simp only [HashJoinContext.gain, add_eq_zero, equijoin_eq_zero_iff, mem_add, hleft, hright,
    JoinReducer.sides, Prod.forall, mem_content]
  constructor
  · intro h
    refine ⟨?_, ?_⟩
    · intro key val hval key' val' hmem heq
      have hnil := (h.right key' val' hmem).1
      rw [show key' = key from heq] at hnil
      rw [hnil] at hval
      cases hval
    · intro key val hmem key' val' hval heq
      have heq' : key' = key := heq
      subst heq'
      rcases hval with hval | hval
      · rw [(h.left key' val hmem).1] at hval
        cases hval
      · exact (h.left key' val hmem).2 val' hval
  · rintro ⟨hstored, hsent⟩
    refine ⟨?_, ?_⟩
    · intro key val hmem
      refine ⟨?_, fun val' hmem' => hsent key val hmem key val' (.inr hmem') rfl⟩
      by_contra hne
      obtain ⟨val', hval'⟩ := List.exists_mem_of_ne_nil _ hne
      exact hsent key val hmem key val' (.inl hval') rfl
    · intro key val hmem
      refine ⟨?_, fun val' hmem' => hsent key val' hmem' key val (.inr hmem) rfl⟩
      by_contra hne
      obtain ⟨val', hval'⟩ := List.exists_mem_of_ne_nil _ hne
      exact hstored key val' hval' key val hmem rfl

theorem keep_stored {r : ℕ} (hr : r < ctx.num_reducers) (hplaced : Placed ctx s pool) :
    keep (fun k => ctx.index k = r) (∑ i ∈ Finset.range ctx.num_reducers, (s.reducers i).sides) =
      (s.reducers r).sides := by
  have hmem : r ∈ Finset.range ctx.num_reducers := Finset.mem_range.mpr hr
  rw [← Finset.add_sum_erase _ _ hmem, keep_add, (hplaced.stored r).keep_eq]
  have hothers : keep (fun k => ctx.index k = r)
      (∑ i ∈ (Finset.range ctx.num_reducers).erase r, (s.reducers i).sides) = 0 := by
    apply All.keep_eq_zero (p := fun k => ctx.index k ≠ r) _ (fun k hne heq => hne heq)
    apply Finset.sum_induction _ (All fun k => ctx.index k ≠ r) (fun _ _ => All.add)
    · exact ⟨by simp, by simp⟩
    · intro i hi
      have hne := Finset.ne_of_mem_erase hi
      exact ⟨fun a ha => ((hplaced.stored i).1 a ha).trans_ne hne,
        fun b hb => ((hplaced.stored i).2 b hb).trans_ne hne⟩
  rw [hothers, add_zero]

theorem step_reduce (hiterate : ∀ l, (ctx.iterate l).Perm l) {r : ℕ}
    (h : Inv ctx s (.reduce r ::ₘ rest))
    (hx : exec ctx s (.reduce r) = some (s', new)) :
    Steps ctx s (.reduce r ::ₘ rest) (Settled s (.reduce r ::ₘ rest) r) s' (rest + new) := by
  have hphase := h.phase
  unfold PhaseInv at hphase
  have hreduce : s.phase = .reduce ∧ InReduce ctx s (.reduce r ::ₘ rest) := by
    split at hphase <;> rename_i hp
    · exact absurd hphase.1 cons_ne_zero
    · exact absurd hphase.reduces (by simp [Item.reduces])
    · exact ⟨hp, hphase⟩
    · exact absurd hphase.reduces (by simp [Item.reduces])
  obtain ⟨hp, ⟨hrest, hbodies, hmains⟩, hactive, hends, hnodup, hpending, hall⟩ := hreduce
  have hsettled := settled_iff (r := r) h.placed hbodies
  rw [hsettled]
  simp only [exec] at hx
  cases hx
  rw [coe_nil, add_zero]
  simp only [total_cons, Item.bodies, Item.mains, Item.reduces, Item.ends, zero_add,
    singleton_add] at hbodies hmains hactive hends hnodup hpending hall
  obtain ⟨hlt, hnotjoined⟩ := hpending r (mem_cons_self ..)
  obtain ⟨hnotrest, hnodup'⟩ := nodup_cons.mp hnodup
  obtain ⟨s', hs'⟩ : ∃ s' : State K VL VR OutType n, s' = { s with
      reducers := update s.reducers r ((s.reducers r).reduce ctx)
      active := s.active - 1
      joined := r :: s.joined } := ⟨_, rfl⟩
  rw [← hs']
  have hinv : Inv ctx s' rest := by
    refine ⟨⟨?_, fun r' e hmem => h.placed.sent r' e (mem_cons_of_mem hmem)⟩, ?_⟩
    · intro i
      rw [hs']
      by_cases hi : i = r
      · subst hi
        simp only [update_self]
        exact ⟨by simp [JoinReducer.reduce, JoinReducer.sides],
          by simp [JoinReducer.reduce, JoinReducer.sides]⟩
      · simp only [update_of_ne hi]
        exact h.placed.stored i
    · unfold PhaseInv
      rw [hs']
      simp only [hp]
      refine ⟨⟨hrest, hbodies, hmains⟩, ?_, hends, hnodup', ?_, ?_⟩
      · rw [card_cons] at hactive
        show s.active - 1 = _
        omega
      · intro r' hr'
        obtain ⟨hlt', hnot'⟩ := hpending r' (mem_cons_of_mem hr')
        refine ⟨hlt', ?_⟩
        intro hmem
        rcases List.mem_cons.mp hmem with rfl | hmem
        · exact hnotrest hr'
        · exact hnot' hmem
      · intro r' hr'
        rcases hall r' hr' with hmem | hmem
        · exact .inl (List.mem_cons_of_mem _ hmem)
        · rcases mem_cons.mp hmem with rfl | hmem
          · exact .inl (List.mem_cons_self ..)
          · exact .inr hmem
  -- the results grow by what the reducer has
  have hresults : (results ctx s' : Multiset OutType) =
      results ctx s + ctx.value (s.reducers r).sides := by
    have hsum := sum_reducers ctx (fun x => (x.result : Multiset OutType)) s.reducers hlt
      ((s.reducers r).reduce ctx)
    rw [result_reduce ctx hiterate] at hsum
    rw [results_eq, results_eq, hs']
    apply add_right_cancel (b := ((s.reducers r).result : Multiset OutType))
    rw [hsum]
    abel
  -- and its pairs are no longer there
  have hheld : held ctx s (.reduce r ::ₘ rest) = held ctx s' rest + (s.reducers r).sides := by
    have hsum := sum_reducers ctx JoinReducer.sides s.reducers hlt ((s.reducers r).reduce ctx)
    have hnone : ((s.reducers r).reduce ctx).sides = 0 := rfl
    rw [hnone, add_zero] at hsum
    unfold held
    rw [← hsum, total_cons, hs']
    simp only [Item.sides, zero_add]
    abel
  have hworth : ctx.worth s (.reduce r ::ₘ rest) = ctx.worth s' rest +
      ctx.gain (s.reducers r).sides (underway ctx r (.reduce r ::ₘ rest)) := by
    have hown : keep (fun k => ctx.index k = r)
        (keep (fun k => ctx.index k ∉ s.joined) (held ctx s (.reduce r ::ₘ rest))) =
          (s.reducers r).sides + underway ctx r (.reduce r ::ₘ rest) := by
      rw [keep_keep, keep_congr _ (q := fun k => ctx.index k = r) fun k =>
        ⟨fun hk => hk.1, fun hk => ⟨hk, hk ▸ hnotjoined⟩⟩]
      unfold held
      rw [hrest, keep_add, keep_add, keep_stored hlt h.placed, underway]
      simp [emissions, keep]
    have hothers : keep (fun k => ¬ctx.index k = r)
        (keep (fun k => ctx.index k ∉ s.joined) (held ctx s (.reduce r ::ₘ rest))) =
          keep (fun k => ctx.index k ∉ s'.joined) (held ctx s' rest) := by
      rw [keep_keep, hheld, keep_add]
      have hzero : keep (fun k => ¬ctx.index k = r ∧ ctx.index k ∉ s.joined) (s.reducers r).sides =
          0 :=
        (h.placed.stored r).keep_eq_zero fun k hk hnot => hnot.1 hk
      rw [hzero, add_zero]
      apply keep_congr
      intro k
      rw [hs']
      simp
    unfold HashJoinContext.worth
    rw [value_keep ctx (fun k => ctx.index k = r), hown, hothers, value_add, hresults]
    abel
  refine ⟨hinv, hworth ▸ Multiset.le_add_right .., ?_⟩
  rw [hworth]
  exact left_eq_add

end HashJoin

end Grappa
