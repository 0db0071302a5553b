import AdvCompArch.Lib.Transition
import Mathlib.Algebra.Order.BigOperators.Group.Finset
import Mathlib.Algebra.BigOperators.Group.Finset.Piecewise

/-! # The distributed hash set

    `HashSet` of the join application: each cell has the vector of the keys that hash to it, and a
    call scans the vector on the core of the cell.  The constructor of a cell, though, makes the
    vector with two entries whose keys nobody sets, so that they are what the memory held before. -/

namespace Grappa

open Finset List

/-- A hash set, and the entries that its cells begin with: two each, with the keys that the memory
    holds. -/
structure HashSet (K : Type) where
  HF : K → ℕ
  capacity : ℕ
  capacity_pos : 0 < capacity
  cores : ℕ
  /-- The core of a cell. -/
  core : ℕ → ℕ
  core_lt : ∀ i, core i < cores
  memory : ℕ → K × K

namespace HashSet

variable {K : Type} [DecidableEq K] (set : HashSet K)

def computeIndex (key : K) : ℕ := set.HF key % set.capacity

/-- `Cell()` is `entries(2)`. -/
def newCell (i : ℕ) : List K := [(set.memory i).1, (set.memory i).2]

/-! ### The handlers -/

/-- `insert` on the core of the cell: whether the key has been found, and the entries. -/
def insertHere (entries : List K) (key : K) : Bool × List K :=
  -- key found so no insert
  if entries.any (· = key) then (true, entries)
  -- this is the first time the key has been seen
  else (false, entries ++ [key])

/-- `insert_async` on the core of the cell, with its own scan: whether it has returned from it. -/
def insertAsyncHere (entries : List K) (key : K) : Bool × List K :=
  match entries.find? (· = key) with
  | some _ => (true, entries)
  | none => (false, entries ++ [key])

/-- The calls of the program under way: an insert to the core of its cell, and the reply. -/
inductive Message (K : Type)
  | insert (key : K)
  | insert_async (key : K)
  | reply (key : K) (found : Bool)
  deriving DecidableEq

/-- An insert that has been executed; it was the first for its key if it did not find it. -/
structure Executed (K : Type) where
  key : K
  found : Bool
  /-- The caller waits for it. -/
  waits : Bool
  deriving DecidableEq

def Executed.first (e : Executed K) : Bool := !e.found

structure State (K : Type) where
  cells : ℕ → List K
  pool : List (Message K)
  /-- The keys of all calls. -/
  inserted : List K
  /-- The inserts that have been executed, the last one first. -/
  executed : List (Executed K)
  /-- What the calls of `insert` have returned. -/
  returned : List (K × Bool)

/-- Any core makes a call, or a message arrives. -/
inductive Label (K : Type)
  | insert (key : K)
  | insert_async (key : K)
  | deliver (k : ℕ)
  deriving DecidableEq

/-- After `init_global_DHT`. -/
def init : State K := ⟨set.newCell, [], [], [], []⟩

def State.setCell (s : State K) (index : ℕ) (r : Bool × List K) (key : K) (waits : Bool) :
    State K :=
  { s with
    cells := Function.update s.cells index r.2
    executed := ⟨key, r.1, waits⟩ :: s.executed }

/-- What a message does, and what it sends back. -/
def handle (s : State K) : Message K → State K × List (Message K)
  | .insert key =>
    let index := set.computeIndex key
    let r := insertHere (s.cells index) key
    (s.setCell index r key true, [.reply key r.1])
  | .insert_async key =>
    let index := set.computeIndex key
    (s.setCell index (insertAsyncHere (s.cells index) key) key false, [])
  | .reply key found => ({ s with returned := (key, found) :: s.returned }, [])

def next (s : State K) : Label K → Option (State K)
  | .insert key => some { s with pool := s.pool ++ [.insert key], inserted := key :: s.inserted }
  | .insert_async key =>
    some { s with pool := s.pool ++ [.insert_async key], inserted := key :: s.inserted }
  | .deliver k =>
    s.pool[k]?.map fun m =>
      let r := set.handle { s with pool := s.pool.eraseIdx k } m
      { r.1 with pool := r.1.pool ++ r.2 }

def system : Transition.System (State K) (Label K) := ⟨set.init, set.next⟩

/-! ### What the set answers -/

/-- `lookup`, a delegate call on the core of the cell. -/
def lookup (s : State K) (key : K) : Bool := (s.cells (set.computeIndex key)).any (· = key)

/-- What a core has accumulated in `size_reducer`. -/
def size_reducer (s : State K) (c : ℕ) : ℕ :=
  ∑ i ∈ Finset.range set.capacity with set.core i = c, (s.cells i).length

/-- `size`, the sum over all cores. -/
def size (s : State K) : ℕ := ∑ c ∈ Finset.range set.cores, set.size_reducer s c

/-- The inserts of a key that were treated as its first. -/
def firsts (s : State K) (key : K) : List (Executed K) :=
  s.executed.filter fun e => e.key = key && e.first

/-- What a set is to guarantee, when all calls have completed. -/
structure SetSemantics (s : State K) : Prop where
  lookup : ∀ key, set.lookup s key = true ↔ key ∈ s.inserted
  size : set.size s = s.inserted.toFinset.card
  first : ∀ key ∈ s.inserted, (firsts s key).length = 1
  returns : ∀ later e earlier, s.executed = later ++ e :: earlier →
    (e.found = true ↔ e.key ∈ earlier.map Executed.key)

/-! ### What holds in every state -/

variable {set} {s s' : State K} {key : K} {m : Message K} {entries : List K}

theorem insertAsyncHere_eq : insertAsyncHere entries key = insertHere entries key := by
  unfold insertAsyncHere insertHere
  split
  · rename_i e he
    rw [if_pos]
    have hmem := mem_of_find?_eq_some he
    have heq := find?_some he
    exact any_eq_true.mpr ⟨e, hmem, heq⟩
  · rename_i hnone
    rw [if_neg]
    intro hany
    obtain ⟨e, hmem, heq⟩ := any_eq_true.mp hany
    exact find?_eq_none.mp hnone e hmem heq

/-- The insert that a message is. -/
def Message.key? : Message K → Option K
  | .insert key => some key
  | .insert_async key => some key
  | .reply _ _ => none

/-- The keys of the inserts that have not been executed yet. -/
def State.pending (s : State K) : List K := s.pool.filterMap Message.key?

/-- What the cells hold, and which calls have been executed. -/
structure Inv (set : HashSet K) (s : State K) : Prop where
  mem_cells : ∀ key, key ∈ s.cells (set.computeIndex key) ↔
    key ∈ set.newCell (set.computeIndex key) ∨ key ∈ s.executed.map Executed.key
  length : ∑ i ∈ Finset.range set.capacity, (s.cells i).length =
    2 * set.capacity + (s.executed.filter Executed.first).length
  calls : (s.executed.map Executed.key ++ s.pending).Perm s.inserted

omit [DecidableEq K] in
theorem computeIndex_lt (key : K) : set.computeIndex key < set.capacity :=
  Nat.mod_lt _ set.capacity_pos

omit [DecidableEq K] in
theorem init_inv : Inv set set.init where
  mem_cells key := by simp [init]
  length := by simp [init, newCell, mul_comm]
  calls := List.Perm.refl _

theorem mem_insertHere {key' : K} : key' ∈ (insertHere entries key).2 ↔ key' ∈ entries ∨ key' = key := by
  unfold insertHere
  split_ifs with hany
  · obtain ⟨e, hmem, heq⟩ := any_eq_true.mp hany
    obtain rfl : e = key := of_decide_eq_true heq
    constructor
    · exact .inl
    · intro h
      rcases h with h | rfl
      · exact h
      · exact hmem
  · simp

theorem length_insertHere : (insertHere entries key).2.length =
    entries.length + if (insertHere entries key).1 = false then 1 else 0 := by
  unfold insertHere
  split_ifs <;> simp_all

/-- **An insert** that is executed: its key is in the cell afterwards, and the cell has an entry more
    if the key was not found. -/
theorem Inv.insert (h : Inv set s) {pool : List (Message K)} (waits : Bool)
    (hpool : (key :: pool.filterMap Message.key?).Perm s.pending) :
    Inv set ({ s with pool := pool }.setCell (set.computeIndex key)
      (insertHere (s.cells (set.computeIndex key)) key) key waits) where
  mem_cells key' := by
    have hold := h.mem_cells key'
    simp only [State.setCell, List.map_cons, List.mem_cons]
    by_cases hindex : set.computeIndex key' = set.computeIndex key
    · rw [hindex, Function.update_self, mem_insertHere, ← hindex, hold]
      tauto
    · have hne : key' ≠ key := fun heq => hindex (heq ▸ rfl)
      rw [Function.update_of_ne hindex, hold]
      tauto
  length := by
    have hmem : set.computeIndex key ∈ Finset.range set.capacity :=
      Finset.mem_range.mpr (computeIndex_lt key)
    have hsum := h.length
    rw [← add_sum_erase _ _ hmem] at hsum ⊢
    have hothers : ∀ i ∈ (Finset.range set.capacity).erase (set.computeIndex key),
        (({ s with pool := pool }.setCell (set.computeIndex key)
          (insertHere (s.cells (set.computeIndex key)) key) key waits).cells i).length =
            (s.cells i).length := by
      intro i hi
      simp only [State.setCell]
      rw [Function.update_of_ne (ne_of_mem_erase hi)]
    rw [sum_congr rfl hothers]
    simp only [State.setCell, Function.update_self, length_insertHere, List.filter_cons,
      Executed.first]
    cases (insertHere (s.cells (set.computeIndex key)) key).1
    · simp only [reduceIte, Bool.not_false, List.length_cons]
      omega
    · simp only [Bool.not_true, Bool.false_eq_true, Bool.true_eq_false, reduceIte]
      omega
  calls := by
    simp only [State.setCell, State.pending, List.map_cons, List.cons_append]
    exact (List.perm_middle.symm.trans (hpool.append_left _)).trans h.calls

theorem next_inv {l : Label K} (h : Inv set s) (hstep : set.next s l = some s') : Inv set s' := by
  cases l with
  | insert key | insert_async key =>
    cases hstep
    refine ⟨h.mem_cells, h.length, ?_⟩
    simp only [State.pending, filterMap_append]
    rw [← append_assoc]
    exact (perm_append_singleton _ _).trans (h.calls.cons key)
  | deliver k =>
    obtain ⟨m, hm, rfl⟩ := Option.map_eq_some_iff.mp hstep
    obtain ⟨hlt, hget⟩ := List.getElem?_eq_some_iff.mp hm
    have hperm : (m :: s.pool.eraseIdx k).Perm s.pool := by
      rw [← hget]
      exact getElem_cons_eraseIdx_perm hlt
    have hpending := hperm.filterMap Message.key?
    cases m with
    | insert key =>
      have hinv := Inv.insert h true hpending
      refine ⟨hinv.mem_cells, hinv.length, ?_⟩
      have hreply : [Message.reply key (insertHere (s.cells (set.computeIndex key)) key).1].filterMap
          Message.key? = [] := rfl
      simpa [handle, State.setCell, State.pending, hreply] using hinv.calls
    | insert_async key =>
      have hinv := Inv.insert h false hpending
      simpa [handle, insertAsyncHere_eq, State.setCell] using hinv
    | reply key found =>
      refine ⟨h.mem_cells, h.length, ?_⟩
      have hsame : ((s.pool.eraseIdx k).filterMap Message.key?).Perm s.pending := hpending
      simpa [handle, State.pending] using (hsame.append_left _).trans h.calls

theorem reachable_inv (hs : set.system.Reachable s) : Inv set s :=
  hs.invariant (Inv set) init_inv fun _ _ _ h hstep => next_inv h hstep

/-! ### When all calls have completed -/

theorem executed_perm (hs : set.system.Reachable s) (hpool : s.pool = []) :
    (s.executed.map Executed.key).Perm s.inserted := by
  have hcalls := (reachable_inv hs).calls
  rwa [State.pending, hpool, filterMap_nil, append_nil] at hcalls

theorem lookup_iff (hs : set.system.Reachable s) (hpool : s.pool = []) :
    set.lookup s key = true ↔ key ∈ s.inserted ∨ key ∈ set.newCell (set.computeIndex key) := by
  rw [lookup, any_eq_true]
  simp only [decide_eq_true_eq, exists_eq_right]
  rw [(reachable_inv hs).mem_cells, (executed_perm hs hpool).mem_iff, or_comm]

theorem size_eq (hs : set.system.Reachable s) :
    set.size s = 2 * set.capacity + (s.executed.filter Executed.first).length := by
  rw [← (reachable_inv hs).length, size]
  simp only [size_reducer]
  exact sum_fiberwise_of_maps_to (fun i _ => mem_range.mpr (set.core_lt i)) _

theorem length_firsts_eq_sum (hperm : (s.executed.map Executed.key).Perm s.inserted) :
    (s.executed.filter Executed.first).length =
      ∑ key ∈ s.inserted.toFinset, (firsts s key).length := by
  obtain ⟨l, hl⟩ : ∃ l, l = (s.executed.filter Executed.first).map Executed.key := ⟨_, rfl⟩
  have hcount : ∀ key, l.count key = (firsts s key).length := by
    intro key
    rw [hl, List.count_eq_countP, List.countP_map, List.countP_eq_length_filter, List.filter_filter]
    rfl
  have hsub : l.toFinset ⊆ s.inserted.toFinset := by
    intro key hkey
    rw [hl, mem_toFinset] at hkey
    obtain ⟨e, he, rfl⟩ := mem_map.mp hkey
    exact mem_toFinset.mpr
      (hperm.mem_iff.mp (mem_map_of_mem (mem_of_mem_filter he)))
  calc (s.executed.filter Executed.first).length
      = ∑ key ∈ l.toFinset, l.count key := by
        rw [sum_toFinset_count_eq_length, hl, length_map]
    _ = ∑ key ∈ s.inserted.toFinset, l.count key :=
        sum_subset hsub fun key _ hkey =>
          count_eq_zero.mpr fun h => hkey (mem_toFinset.mpr h)
    _ = _ := sum_congr rfl fun key _ => hcount key

theorem length_firsts (hperm : (s.executed.map Executed.key).Perm s.inserted)
    (hfirst : ∀ key ∈ s.inserted, (firsts s key).length = 1) :
    (s.executed.filter Executed.first).length = s.inserted.toFinset.card := by
  rw [length_firsts_eq_sum hperm, card_eq_sum_ones]
  exact sum_congr rfl fun key hkey => hfirst key (mem_toFinset.mp hkey)

/-- **The hash set never is a set**: whatever the order of the calls and messages, when all have
    completed some key has no first insert, or the size is too large. -/
theorem not_setSemantics (hs : set.system.Reachable s) (hpool : s.pool = []) :
    ¬set.SetSemantics s := by
  intro h
  have hcard := length_firsts (executed_perm hs hpool) h.first
  have hsize := size_eq hs
  have hpos := set.capacity_pos
  rw [h.size, hcard] at hsize
  omega

/-! ### What it is instead -/

theorem insertHere_found : (insertHere entries key).1 = true ↔ key ∈ entries := by
  unfold insertHere
  split_ifs with hany <;> simpa using hany

/-- The keys that are inserted for the first time as far as the set can tell: those that are not in
    the memory of their cell. -/
def New (set : HashSet K) (key : K) : Prop := key ∉ set.newCell (set.computeIndex key)

instance : DecidablePred set.New := fun key =>
  inferInstanceAs (Decidable ¬ key ∈ set.newCell (set.computeIndex key))

/-- Of the inserts of a new key that have been executed just the first one has not found it. -/
def FirstOnce (set : HashSet K) (s : State K) : Prop :=
  ∀ key, (firsts s key).length = if key ∈ s.executed.map Executed.key ∧ set.New key then 1 else 0

theorem FirstOnce.insert (h : FirstOnce set s) (hinv : Inv set s) (key : K)
    (pool : List (Message K)) (waits : Bool) :
    FirstOnce set ({ s with pool := pool }.setCell (set.computeIndex key)
      (insertHere (s.cells (set.computeIndex key)) key) key waits) := by
  intro key'
  have hold := h key'
  by_cases hkey : key = key'
  · subst hkey
    have hfound : (insertHere (s.cells (set.computeIndex key)) key).1 = true ↔
        ¬set.New key ∨ key ∈ s.executed.map Executed.key := by
      rw [insertHere_found, hinv.mem_cells, New, not_not]
    simp only [firsts, State.setCell, List.filter_cons, Executed.first, List.map_cons,
      List.mem_cons, true_or, true_and, decide_true, Bool.true_and] at hold ⊢
    cases hr : (insertHere (s.cells (set.computeIndex key)) key).1
    · rw [hr] at hfound
      obtain ⟨hnew, hnot⟩ := not_or.mp (fun hor => Bool.false_ne_true (hfound.mpr hor))
      rw [if_neg fun hand => hnot hand.1] at hold
      simp only [Bool.not_false, if_true, List.length_cons, hold, if_pos (not_not.mp hnew)]
    · have hor := hfound.mp hr
      simp only [Bool.not_true, Bool.false_eq_true, if_false, hold]
      by_cases hnew : set.New key
      · rw [if_pos ⟨hor.resolve_left (not_not.mpr hnew), hnew⟩, if_pos hnew]
      · rw [if_neg fun hand => hnew hand.2, if_neg hnew]
  · simp only [firsts, State.setCell, List.filter_cons, hkey, decide_false, Bool.false_and,
      Bool.false_eq_true, if_false, List.map_cons, List.mem_cons, Ne.symm hkey, false_or] at hold ⊢
    exact hold

theorem reachable_firstOnce (hs : set.system.Reachable s) : FirstOnce set s := by
  refine (hs.invariant (fun s => Inv set s ∧ FirstOnce set s)
    ⟨init_inv, fun key => by simp [system, init, firsts]⟩ ?_).2
  intro s l s' ⟨hinv, hfirst⟩ hstep
  refine ⟨next_inv hinv hstep, ?_⟩
  cases l with
  | insert key | insert_async key =>
    cases hstep
    exact hfirst
  | deliver k =>
    obtain ⟨m, hm, rfl⟩ := Option.map_eq_some_iff.mp hstep
    cases m with
    | insert key => exact hfirst.insert hinv key (s.pool.eraseIdx k) true
    | insert_async key =>
      have hnew := hfirst.insert hinv key (s.pool.eraseIdx k) false
      rwa [← insertAsyncHere_eq] at hnew
    | reply key found => exact hfirst

/-- The result that a reply brings. -/
def Message.result? : Message K → Option (K × Bool)
  | .reply key found => some (key, found)
  | _ => none

/-- What the inserts whose callers wait have found is what has been returned or is on its way. -/
theorem returned_perm (hs : set.system.Reachable s) :
    ((s.executed.filter Executed.waits).map fun e => (e.key, e.found)).Perm
      (s.returned ++ s.pool.filterMap Message.result?) := by
  refine hs.invariant (fun s => ((s.executed.filter Executed.waits).map fun e =>
    (e.key, e.found)).Perm (s.returned ++ s.pool.filterMap Message.result?)) .nil ?_
  intro s l s' h hstep
  cases l with
  | insert key | insert_async key =>
    cases hstep
    simpa [filterMap_cons, Message.result?] using h
  | deliver k =>
    obtain ⟨m, hm, rfl⟩ := Option.map_eq_some_iff.mp hstep
    obtain ⟨hlt, hget⟩ := List.getElem?_eq_some_iff.mp hm
    have hperm : (s.pool.filterMap Message.result?).Perm
        ((m :: s.pool.eraseIdx k).filterMap Message.result?) := by
      rw [← hget]
      exact (getElem_cons_eraseIdx_perm hlt).symm.filterMap _
    have hold := h.trans (hperm.append_left _)
    cases m with
    | insert key =>
      simp only [handle, State.setCell, filterMap_append, ← append_assoc]
      exact (hold.cons _).trans (perm_append_singleton _ _).symm
    | insert_async key => simpa [handle, State.setCell, filterMap_cons, Message.result?] using hold
    | reply key found => simpa [handle] using hold.trans perm_middle

/-- **What the hash set answers** when all calls have completed, whatever the order of the calls and
    messages: a lookup finds what was inserted and what the memory of the cell held, just one insert
    of a new key has been its first and none of another key, the calls that wait have returned
    what was found, and the size is that of the new keys and of the two entries that each cell
    began with. -/
theorem answers (hs : set.system.Reachable s) (hpool : s.pool = []) :
    (∀ key, set.lookup s key = true ↔ key ∈ s.inserted ∨ ¬set.New key) ∧
    (∀ key, (firsts s key).length = if key ∈ s.inserted ∧ set.New key then 1 else 0) ∧
    ((s.executed.filter Executed.waits).map fun e => (e.key, e.found)).Perm s.returned ∧
    set.size s = 2 * set.capacity + #{key ∈ s.inserted.toFinset | set.New key} := by
  have hperm := executed_perm hs hpool
  have hfirst : ∀ key, (firsts s key).length = if key ∈ s.inserted ∧ set.New key then 1 else 0 := by
    intro key
    rw [reachable_firstOnce hs key]
    simp only [hperm.mem_iff]
  have hreturned := returned_perm hs
  rw [hpool, filterMap_nil, append_nil] at hreturned
  refine ⟨fun key => ?_, hfirst, hreturned, ?_⟩
  · rw [lookup_iff hs hpool, New, not_not]
  · rw [size_eq hs, length_firsts_eq_sum hperm, card_filter]
    congr 1
    refine sum_congr rfl fun key hkey => ?_
    simp only [hfirst, mem_toFinset.mp hkey, true_and]

/-- One cell whose memory holds the keys 5 and 7. -/
def stale : HashSet ℕ := ⟨id, 1, Nat.one_pos, 1, fun _ => 0, fun _ => Nat.one_pos, fun _ => (5, 7)⟩

/-- The state after some calls and messages. -/
def after (set : HashSet K) (ls : List (Label K)) : State K :=
  (set.system.run set.init ls).getD set.init

theorem not_setSemantics_stale : ¬stale.SetSemantics
    (after stale [.insert 7, .insert_async 3, .deliver 1, .deliver 0, .deliver 0]) :=
  not_setSemantics ⟨[.insert 7, .insert_async 3, .deliver 1, .deliver 0, .deliver 0], rfl⟩ rfl

theorem answers_stale :
    let s := after stale [.insert 7, .insert_async 3, .deliver 1, .deliver 0, .deliver 0]
    (∀ key, stale.lookup s key = true ↔ key ∈ [3, 7] ∨ ¬stale.New key) ∧
    (∀ key, (firsts s key).length = if key ∈ [3, 7] ∧ stale.New key then 1 else 0) ∧
    ((s.executed.filter Executed.waits).map fun e => (e.key, e.found)).Perm [(7, true)] ∧
    stale.size s = 2 * 1 + #{key ∈ [3, 7].toFinset | stale.New key} :=
  answers ⟨[.insert 7, .insert_async 3, .deliver 1, .deliver 0, .deliver 0], rfl⟩ rfl

/-- The key 5 is inserted once: the call returns that the set has it already, a key that was never
    inserted is found, and the size is two. -/
theorem stale_set : stale.system.run stale.init [.insert 5, .deliver 0, .deliver 0] =
      some (after stale [.insert 5, .deliver 0, .deliver 0]) ∧
    let s := after stale [.insert 5, .deliver 0, .deliver 0]
    s.pool = [] ∧ s.inserted = [5] ∧ s.returned = [(5, true)] ∧ stale.lookup s 7 = true ∧
      stale.size s = 2 ∧ ¬stale.SetSemantics s := by
  refine ⟨rfl, rfl, rfl, rfl, rfl, rfl, fun h => ?_⟩
  have hsize := h.size
  revert hsize
  decide

end HashSet

end Grappa
