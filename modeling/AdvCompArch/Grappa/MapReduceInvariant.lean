import AdvCompArch.Grappa.MapReduce
import Mathlib.Algebra.BigOperators.Group.Finset.Piecewise
import Mathlib.Tactic.Abel

/-! # The loops of MapReduce

    What the reducers hold of a key and what is under way to them are the values that were sent
    for it (`Reducing.pending`), as long as the reducer has not been reduced. -/

namespace Grappa

namespace MapReduce

open Function Multiset
open Multiset (add_bind bind_congr bind_zero coe_add coe_nil coe_singleton cons_bind cons_coe
  countP_add countP_cons countP_eq_zero countP_pos mem_add mem_bind mem_cons mem_cons_of_mem
  mem_cons_self notMem_zero singleton_add)

variable {T K V OutType : Type} {n : ℕ} [DecidableEq K] {job : Job T K V OutType n}
  {mapped : ℕ → State K V OutType n → State K V OutType n × List (Item K V n)}
  {s s' : State K V OutType n} {rest : Multiset (Item K V n)} {x : Item K V n}
  {new : List (Item K V n)}

/-! ### Values of a key -/

/-- The values that are emitted for a key. -/
def vals (k : K) (es : List (K × V)) : List V := (es.filter fun e => e.1 = k).map Prod.snd

@[simp] theorem vals_nil (k : K) : vals k ([] : List (K × V)) = [] := rfl

theorem vals_cons (k : K) (e : K × V) (es : List (K × V)) :
    vals k (e :: es) = if e.1 = k then e.2 :: vals k es else vals k es := by
  unfold vals
  by_cases he : e.1 = k <;> simp [he]

@[simp] theorem vals_append (k : K) (es es' : List (K × V)) :
    vals k (es ++ es') = vals k es ++ vals k es' := by
  simp [vals]

/-- What a delegate brings of a key. -/
def Item.brings (k : K) : Item K V n → Multiset V
  | .reducer_append _ key val => if key = k then {val} else 0
  | _ => 0

/-- The groups of the reducers have the keys of the reducers, with values. -/
def Grouped (job : Job T K V OutType n) (s : State K V OutType n) : Prop :=
  ∀ r < job.num_reducers, (s.reducers r).groups.Full ∧ ∀ k ∈ (s.reducers r).groups, job.index k = r

omit [DecidableEq K] in
theorem Job.index_lt (hnum : 0 < job.num_reducers) (k : K) : job.index k < job.num_reducers :=
  Nat.mod_lt _ hnum

theorem Grouped.append (h : Grouped job s) (key : K) (val : V) :
    Grouped job (s.append (job.index key) key val) := by
  intro r hr
  obtain ⟨hfull, hown⟩ := h r hr
  by_cases hrk : r = job.index key
  · subst hrk
    simp only [State.append, update_self]
    refine ⟨hfull.push key val, fun k hk => ?_⟩
    rcases (AList.mem_insert _).mp hk with rfl | hmem
    · rfl
    · exact hown k hmem
  · simp only [State.append, update_of_ne hrk]
    exact ⟨hfull, hown⟩

theorem append_slot (s : State K V OutType n) (key : K) (val : V) (k : K) :
    ((((s.append (job.index key) key val).reducers (job.index k)).groups.slot k : List V) :
      Multiset V) = ((s.reducers (job.index k)).groups.slot k : Multiset V) +
        (if key = k then {val} else 0) := by
  by_cases hk : key = k
  · subst hk
    simp only [State.append, update_self, if_true]
    rw [Groups.slot_push, if_pos rfl, ← coe_add, coe_singleton]
  · rw [if_neg hk, add_zero]
    by_cases hrk : job.index k = job.index key
    · simp only [State.append, hrk, update_self]
      rw [Groups.slot_push, if_neg (Ne.symm hk)]
    · simp only [State.append, update_of_ne hrk]

theorem append_result (s : State K V OutType n) (r : ℕ) (key : K) (val : V) (r' : ℕ) :
    ((s.append r key val).reducers r').result = (s.reducers r').result := by
  by_cases hr : r' = r
  · subst hr
    simp only [State.append, update_self]
  · simp only [State.append, update_of_ne hr]

/-- What a call of `emitIntermediate` does: the values are in their groups or under way to them. -/
structure Sends (job : Job T K V OutType n) (es : List (K × V)) (s s' : State K V OutType n)
    (new : List (Item K V n)) : Prop where
  items : ∀ x ∈ new, ∃ key val, x = .reducer_append (job.index key) key val
  slots : ∀ k, ((s'.reducers (job.index k)).groups.slot k : Multiset V) +
    (new : Multiset (Item K V n)).bind (Item.brings k) =
      ((s.reducers (job.index k)).groups.slot k : Multiset V) + (vals k es : Multiset V)
  grouped : Grouped job s → Grouped job s'
  results : ∀ r, (s'.reducers r).result = (s.reducers r).result
  combiners : s'.combiners = s.combiners
  combining : s'.combining = s.combining
  phase : s'.phase = s.phase
  emitted : s'.emitted = s.emitted

variable (job) in
theorem sends (c : Fin (n + 1)) (es : List (K × V)) (s : State K V OutType n) :
    Sends job es s (emitIntermediate job c es s).1 (emitIntermediate job c es s).2 := by
  induction es generalizing s with
  | nil => exact ⟨fun x hx => absurd hx List.not_mem_nil, fun k => by simp [emitIntermediate], id,
      fun r => rfl, rfl, rfl, rfl, rfl⟩
  | cons e es ih =>
    obtain ⟨key, val⟩ := e
    simp only [emitIntermediate, reducer_append]
    split
    · have h := ih (s.append (job.index key) key val)
      refine ⟨fun x hx => h.items x (by simpa using hx), fun k => ?_, fun hg => h.grouped (hg.append key val),
        fun r => (h.results r).trans (append_result s _ key val r), h.combiners, h.combining, h.phase,
        h.emitted⟩
      rw [List.nil_append, h.slots k, append_slot, vals_cons]
      split
      · rw [add_assoc, ← coe_singleton, coe_add, List.singleton_append]
      · rw [add_zero]
    · have h := ih s
      refine ⟨fun x hx => ?_, fun k => ?_, h.grouped, h.results, h.combiners, h.combining, h.phase,
        h.emitted⟩
      · rcases List.mem_cons.mp hx with rfl | hx
        · exact ⟨key, val, rfl⟩
        · exact h.items x hx
      · have hslots := h.slots k
        rw [List.singleton_append, ← cons_coe, cons_bind, vals_cons]
        simp only [Item.brings]
        split
        · rw [← cons_coe, ← singleton_add, ← add_assoc, add_right_comm, hslots]
          rw [add_comm ({val} : Multiset V), add_assoc]
        · rw [zero_add]
          exact hslots

/-! ### The reducers are reduced -/

def Item.reduces : Item K V n → Option ℕ
  | .reduce r => some r
  | _ => none

/-- The loops that send are done, and `sent` is what they have sent. -/
structure Reducing (job : Job T K V OutType n) (sent : K → Multiset V) (s : State K V OutType n)
    (pool : Multiset (Item K V n)) : Prop where
  items : ∀ x ∈ pool, (∃ r < job.num_reducers, x = .reduce r) ∨
    ∃ key val, x = .reducer_append (job.index key) key val
  once : ∀ r, pool.countP (fun x => x.reduces = some r) ≤ 1
  grouped : Grouped job s
  pending : ∀ r < job.num_reducers, .reduce r ∈ pool → (s.reducers r).result = [] ∧
    ∀ k, job.index k = r →
      ((s.reducers r).groups.slot k : Multiset V) + pool.bind (Item.brings k) = sent k

theorem bind_brings_eq_zero {pool : Multiset (Item K V n)} {k : K} :
    pool.bind (Item.brings k) = 0 ↔ ∀ r val, .reducer_append r k val ∉ pool := by
  constructor
  · intro hzero r val hmem
    have hval : val ∈ pool.bind (Item.brings k) :=
      mem_bind.mpr ⟨_, hmem, by simp [Item.brings]⟩
    rw [hzero] at hval
    exact notMem_zero val hval
  · intro hnone
    refine eq_zero_of_forall_notMem fun val hval => ?_
    obtain ⟨y, hy, hbrings⟩ := mem_bind.mp hval
    cases y with
    | reducer_append r key val' =>
      simp only [Item.brings] at hbrings
      split at hbrings
      · rename_i hkey
        exact hnone r val' (hkey ▸ hy)
      · exact notMem_zero val hbrings
    | clear_reducer r | clear_combiner c | map i | combine c | combine_keys c keys | reduceExecute
    | reduce r => exact notMem_zero val hbrings

/-- The reducer has been reduced, with all that was sent to it. -/
def Done (job : Job T K V OutType n) (sent : K → Multiset V) (s : State K V OutType n)
    (pool : Multiset (Item K V n)) (r : ℕ) : Prop :=
  (∀ key val, .reducer_append r key val ∉ pool) ∧ ∃ g : Groups K V, g.Full ∧
    (∀ k, (g.slot k : Multiset V) = if job.index k = r then sent k else 0) ∧
    ((s.reducers r).result : Multiset OutType) = g.outputs job.rf

/-- No delegate is under way to a reducer that is reduced. -/
def Item.Quiet (pool : Multiset (Item K V n)) (x : Item K V n) : Prop :=
  ∀ r, x = .reduce r → ∀ key val, .reducer_append r key val ∉ pool

theorem Reducing.kept {sent : K → Multiset V} (h : Reducing job sent s (x ::ₘ rest))
    (hx : exec job mapped s x = some (s', new)) : Reducing job sent s' (rest + new) ∧
      s'.phase = s.phase ∧ s'.emitted = s.emitted ∧ s'.combining = s.combining := by
  have hrest : ∀ y ∈ rest, (∃ r < job.num_reducers, y = .reduce r) ∨
      ∃ key val, y = .reducer_append (job.index key) key val :=
    fun y hy => h.items y (mem_cons_of_mem hy)
  have honce : ∀ r, rest.countP (fun x => x.reduces = some r) ≤ 1 := by
    intro r
    have hold := h.once r
    rw [countP_cons] at hold
    omega
  rcases h.items x (mem_cons_self x rest) with ⟨r, hr, rfl⟩ | ⟨key, val, rfl⟩
  · cases hx
    rw [coe_nil, add_zero]
    refine ⟨⟨hrest, honce, fun r' hr' => ?_, fun r' hr' hmem => ?_⟩, rfl, rfl, rfl⟩
    · by_cases heq : r' = r
      · subst heq
        simp only [update_self]
        exact ⟨Groups.full_empty, fun k hk => absurd hk (AList.notMem_empty k)⟩
      · simp only [update_of_ne heq]
        exact h.grouped r' hr'
    · have hne : r' ≠ r := by
        rintro rfl
        have hold := h.once r'
        have hpos : 0 < rest.countP fun x => x.reduces = some r' :=
          countP_pos.mpr ⟨_, hmem, rfl⟩
        rw [countP_cons, if_pos (show (Item.reduce r' : Item K V n).reduces = some r' from rfl)]
          at hold
        omega
      simp only [update_of_ne hne]
      obtain ⟨hresult, hslots⟩ := h.pending r' hr' (mem_cons_of_mem hmem)
      refine ⟨hresult, fun k hk => ?_⟩
      rw [← hslots k hk, cons_bind]
      simp [Item.brings]
  · cases hx
    rw [coe_nil, add_zero]
    refine ⟨⟨hrest, honce, h.grouped.append key val, fun r hr hmem => ?_⟩, rfl, rfl, rfl⟩
    obtain ⟨hresult, hslots⟩ := h.pending r hr (mem_cons_of_mem hmem)
    refine ⟨by rw [append_result]; exact hresult, fun k hk => ?_⟩
    subst hk
    rw [append_slot, ← hslots k rfl, cons_bind, add_assoc]
    rfl

/-- What is reduced with nothing under way is done, and stays done. -/
theorem Reducing.settled {sent : K → Multiset V}
    (hiterate : ∀ l, (job.iterate l).Perm l) (h : Reducing job sent s (x ::ₘ rest))
    (hsettled : ∀ r < job.num_reducers, .reduce r ∈ x ::ₘ rest ∨ Done job sent s (x ::ₘ rest) r)
    (hquiet : x.Quiet rest) (hx : exec job mapped s x = some (s', new)) :
    ∀ r < job.num_reducers, .reduce r ∈ rest + (new : Multiset (Item K V n)) ∨
      Done job sent s' (rest + new) r := by
  intro r hr
  rcases h.items x (mem_cons_self x rest) with ⟨r', hr', rfl⟩ | ⟨key, val, rfl⟩
  · cases hx
    rw [coe_nil, add_zero]
    by_cases heq : r = r'
    · subst heq
      refine .inr ⟨hquiet r rfl, (s.reducers r).groups, (h.grouped r hr).1, fun k => ?_, ?_⟩
      · split
        · rename_i hk
          have hslots := (h.pending r hr (mem_cons_self _ rest)).2 k hk
          have hnone : ∀ r' val, .reducer_append r' k val ∉ rest := by
            intro r' val hmem
            rcases h.items _ (mem_cons_of_mem hmem) with ⟨_, _, hitem⟩ | ⟨key, val', hitem⟩
            · cases hitem
            · obtain ⟨rfl, rfl, rfl⟩ := Item.reducer_append.inj hitem
              rw [hk] at hmem
              exact hquiet r rfl k val hmem
          rw [← hslots, cons_bind, bind_brings_eq_zero.mpr hnone]
          simp [Item.brings]
        · rename_i hk
          rw [Groups.slot_eq_nil fun hmem => hk ((h.grouped r hr).2 k hmem)]
          rfl
      · have hresult := (h.pending r hr (mem_cons_self _ rest)).1
        simp only [update_self, hresult, List.nil_append]
        exact Groups.flatMap_entries job.rf (hiterate _)
    · rcases hsettled r hr with hmem | ⟨hnone, g, hfull, hslots, hresult⟩
      · rcases mem_cons.mp hmem with hitem | hmem
        · exact absurd (Item.reduce.inj hitem) heq
        · exact .inl hmem
      · refine .inr ⟨fun key val hmem => hnone key val (mem_cons_of_mem hmem), g, hfull, hslots, ?_⟩
        simp only [update_of_ne heq]
        exact hresult
  · cases hx
    rw [coe_nil, add_zero]
    rcases hsettled r hr with hmem | ⟨hnone, g, hfull, hslots, hresult⟩
    · rcases mem_cons.mp hmem with hitem | hmem
      · cases hitem
      · exact .inl hmem
    · refine .inr ⟨fun key val hmem => hnone key val (mem_cons_of_mem hmem), g, hfull, hslots, ?_⟩
      rw [append_result]
      exact hresult

/-! ### The combiners send -/

/-- The core whose combiner a loop goes through. -/
def Item.loop : Item K V n → Option (Fin (n + 1))
  | .combine c => some c
  | .combine_keys c _ => some c
  | _ => none

/-- The main task, in `combineExecute`. -/
def Item.waits : Item K V n → Bool
  | .reduceExecute => true
  | _ => false

/-- What the combine function emits for a key, given groups. -/
def combined (job : Job T K V OutType n) (k : K) (g : Groups K V) : Multiset V :=
  g.outputs fun key vs => vals k (job.cf key vs)

/-- What a loop has left to send for a key; the combiners had the groups `G` before. -/
def Item.left (job : Job T K V OutType n) (G : Fin (n + 1) → Groups K V) (k : K) :
    Item K V n → Multiset V
  | .combine c => combined job k (G c)
  | .combine_keys c keys => (keys.flatMap fun key => vals k (job.cf key ((G c).slot key)) : List V)
  | _ => 0

/-- The loops over the combiners go on, and the main task waits for them. -/
structure Combining (job : Job T K V OutType n) (G : Fin (n + 1) → Groups K V)
    (s : State K V OutType n) (pool : Multiset (Item K V n)) : Prop where
  items : ∀ x ∈ pool, x.loop ≠ none ∨ x = .reduceExecute ∨
    ∃ key val, x = .reducer_append (job.index key) key val
  waiting : pool.countP (fun x => x.waits) = 1
  once : ∀ c, pool.countP (fun x => x.loop = some c) ≤ 1
  combining : s.combining = pool.countP fun x => x.loop ≠ none
  fresh : ∀ c, .combine c ∈ pool → s.combiners c = G c
  keys : ∀ c keys, .combine_keys c keys ∈ pool →
    keys.Nodup ∧ ∀ key ∈ keys, (s.combiners c).slot key = (G c).slot key
  emitted : ∀ k, (vals k s.emitted : Multiset V) + pool.bind (Item.left job G k) =
    ∑ c, combined job k (G c)
  grouped : Grouped job s
  results : ∀ r < job.num_reducers, (s.reducers r).result = []
  slots : ∀ k, ((s.reducers (job.index k)).groups.slot k : Multiset V) + pool.bind (Item.brings k) =
    vals k s.emitted

/-- All loops are done when the main task goes on. -/
theorem Combining.loops_done (h : Combining job G s (.reduceExecute ::ₘ rest)) (hdone : s.combining = 0) :
    ∀ y ∈ rest, ∃ key val, y = .reducer_append (job.index key) key val := by
  intro y hy
  have hnone : y.loop = none := by
    by_contra hne
    have hpos : 0 < (Item.reduceExecute ::ₘ rest).countP fun x => x.loop ≠ none :=
      countP_pos.mpr ⟨y, mem_cons_of_mem hy, hne⟩
    have hcombining := h.combining
    omega
  have hwork : .reduceExecute ∉ rest := by
    intro hmem
    have hpos : 0 < rest.countP fun x => x.waits := countP_pos.mpr ⟨_, hmem, rfl⟩
    have hwaiting := h.waiting
    rw [countP_cons, if_pos (show (Item.reduceExecute : Item K V n).waits = true from rfl)]
      at hwaiting
    omega
  rcases h.items y (mem_cons_of_mem hy) with hloop | rfl | happend
  · exact absurd hnone hloop
  · exact absurd hy hwork
  · exact happend

omit [DecidableEq K] in
theorem countP_reduces (r : ℕ) {num : ℕ} :
    (((List.range num).map Item.reduce : List (Item K V n)) : Multiset (Item K V n)).countP
      (fun x => x.reduces = some r) ≤ 1 := by
  have hreduce : (fun r' => decide ((Item.reduce r' : Item K V n).reduces = some r)) =
      fun r' => decide (r' = r) := by
    funext r'
    simp [Item.reduces]
  rw [coe_countP, List.countP_map]
  simp only [comp_def, hreduce]
  exact List.nodup_iff_count_le_one.mp List.nodup_range r

theorem bind_brings_reduces (k : K) {num : ℕ} :
    (((List.range num).map Item.reduce : List (Item K V n)) : Multiset (Item K V n)).bind
      (Item.brings k) = 0 := by
  rw [bind_congr (g := fun _ => 0), bind_zero]
  intro y hy
  obtain ⟨r, _, rfl⟩ := List.mem_map.mp hy
  rfl

theorem Combining.reduceExecute (h : Combining job G s (.reduceExecute ::ₘ rest))
    (hdone : s.combining = 0) :
    Reducing job (fun k => ∑ c, combined job k (G c)) s
      (rest + ((List.range job.num_reducers).map Item.reduce : List (Item K V n))) ∧
    ∀ k, (vals k s.emitted : Multiset V) = ∑ c, combined job k (G c) := by
  have hrest := h.loops_done hdone
  have hemitted : ∀ k, (vals k s.emitted : Multiset V) = ∑ c, combined job k (G c) := by
    intro k
    have hleft : rest.bind (Item.left job G k) = 0 := by
      rw [bind_congr (g := fun _ => 0), bind_zero]
      intro y hy
      obtain ⟨key, val, rfl⟩ := hrest y hy
      rfl
    rw [← h.emitted k, cons_bind, hleft]
    simp [Item.left]
  refine ⟨⟨fun y hy => ?_, fun r => ?_, h.grouped, fun r hr _ => ⟨h.results r hr, fun k hk => ?_⟩⟩, hemitted⟩
  · rcases mem_add.mp hy with hy | hy
    · exact .inr (hrest y hy)
    · obtain ⟨r, hr, rfl⟩ := List.mem_map.mp hy
      exact .inl ⟨r, List.mem_range.mp hr, rfl⟩
  · have hnone : rest.countP (fun x => x.reduces = some r) = 0 := by
      refine countP_eq_zero.mpr fun y hy hreduces => ?_
      obtain ⟨key, val, rfl⟩ := hrest y hy
      cases hreduces
    rw [countP_add, hnone, zero_add]
    exact countP_reduces r
  · subst hk
    rw [← hemitted k, ← h.slots k, add_bind, cons_bind, bind_brings_reduces]
    simp [Item.brings]

theorem Combining.alone (h : Combining job G s (x ::ₘ rest)) {c : Fin (n + 1)} (hx : x.loop = some c)
    {y : Item K V n} (hy : y ∈ rest) : y.loop ≠ some c := by
  intro hloop
  have hpos : 0 < rest.countP fun x => x.loop = some c := countP_pos.mpr ⟨y, hy, hloop⟩
  have honce := h.once c
  rw [countP_cons, if_pos hx] at honce
  omega

theorem Combining.combine_key {c : Fin (n + 1)} {key : K} {keys : List K} {sent : State K V OutType n}
    (h : Combining job G s (.combine_keys c (key :: keys) ::ₘ rest))
    (hsends : Sends job (job.cf key ((G c).slot key)) s sent new) :
    Combining job G (combineDoneWithKey c key
        { sent with emitted := s.emitted ++ job.cf key ((G c).slot key) })
      (.combine_keys c keys ::ₘ (rest + new)) := by
  obtain ⟨hnodup, hslot⟩ := h.keys c _ (mem_cons_self _ rest)
  obtain ⟨hkey, hnodup⟩ := List.nodup_cons.mp hnodup
  have hnew : ∀ y ∈ new, y.loop = none ∧ y.waits = false := by
    intro y hy
    obtain ⟨key', val, rfl⟩ := hsends.items y hy
    exact ⟨rfl, rfl⟩
  have hcount : ∀ (p : Item K V n → Prop) [DecidablePred p], (∀ y ∈ new, ¬p y) →
      (rest + (new : Multiset (Item K V n))).countP p = rest.countP p := by
    intro p _ hp
    have hzero : (new : Multiset (Item K V n)).countP p = 0 := countP_eq_zero.mpr hp
    rw [countP_add, hzero, add_zero]
  -- what the loops have to do is as before, at the other cores
  have hold : ∀ y ∈ rest + (new : Multiset (Item K V n)), ∀ c', y.loop = some c' → y ∈ rest ∧ c' ≠ c := by
    intro y hy c' hloop
    rcases mem_add.mp hy with hy | hy
    · refine ⟨hy, fun heq => h.alone rfl hy ?_⟩
      rw [hloop, heq]
    · rw [(hnew y hy).1] at hloop
      cases hloop
  have hothers : ∀ c', c' ≠ c → (combineDoneWithKey c key
      { sent with emitted := s.emitted ++ job.cf key ((G c).slot key) }).combiners c' =
        s.combiners c' := by
    intro c' hc'
    simp only [combineDoneWithKey, update_of_ne hc', hsends.combiners]
  have hwaiting := h.waiting
  have honce := h.once
  have hcombining := h.combining
  simp only [countP_cons] at hwaiting honce hcombining
  refine ⟨fun y hy => ?_, ?_, fun c' => ?_, ?_, fun c' hcombine => ?_, fun c' keys' hkeys' => ?_,
    fun k => ?_, hsends.grouped h.grouped, fun r hr => (hsends.results r).trans (h.results r hr),
    fun k => ?_⟩
  · rcases mem_cons.mp hy with rfl | hy
    · exact .inl (Option.some_ne_none c)
    · rcases mem_add.mp hy with hy | hy
      · exact h.items y (mem_cons_of_mem hy)
      · exact .inr (.inr (hsends.items y hy))
  · rw [countP_cons, hcount _ fun y hy => by simp [(hnew y hy).2]]
    exact hwaiting
  · rw [countP_cons, hcount _ fun y hy => by simp [(hnew y hy).1]]
    exact honce c'
  · rw [countP_cons, hcount _ fun y hy => by simp [(hnew y hy).1]]
    exact hsends.combining.trans hcombining
  · rcases mem_cons.mp hcombine with heq | hcombine
    · cases heq
    · obtain ⟨hrest, hc'⟩ := hold _ hcombine c' rfl
      rw [hothers c' hc']
      exact h.fresh c' (mem_cons_of_mem hrest)
  · rcases mem_cons.mp hkeys' with heq | hkeys'
    · obtain ⟨rfl, rfl⟩ := Item.combine_keys.inj heq
      refine ⟨hnodup, fun key' hkey' => ?_⟩
      have hne : key' ≠ key := fun heq => hkey (heq ▸ hkey')
      simp only [combineDoneWithKey, update_self]
      rw [Groups.slot_clear, if_neg hne, hsends.combiners]
      exact hslot key' (List.mem_cons_of_mem _ hkey')
    · obtain ⟨hrest, hc'⟩ := hold _ hkeys' c' rfl
      rw [hothers c' hc']
      exact h.keys c' keys' (mem_cons_of_mem hrest)
  · have hleft : (new : Multiset (Item K V n)).bind (Item.left job G k) = 0 := by
      rw [bind_congr (g := fun _ => 0), bind_zero]
      intro y hy
      obtain ⟨key', val, rfl⟩ := hsends.items y hy
      rfl
    rw [← h.emitted k, cons_bind, cons_bind, add_bind, hleft]
    simp only [combineDoneWithKey, Item.left, vals_append, List.flatMap_cons, ← coe_add,
      add_zero]
    abel
  · have hslots := h.slots k
    have hsent := hsends.slots k
    rw [cons_bind] at hslots
    rw [cons_bind, add_bind]
    simp only [combineDoneWithKey, Item.brings, vals_append, ← coe_add, zero_add] at hslots ⊢
    rw [← hslots, add_comm (rest.bind _), ← add_assoc, hsent]
    abel

theorem Combining.kept (hiterate : ∀ l, (job.iterate l).Perm l)
    (h : Combining job G s (x ::ₘ rest)) (hne : x ≠ .reduceExecute)
    (hx : exec job mapped s x = some (s', new)) :
    Combining job G s' (rest + new) ∧ s'.phase = s.phase := by
  have hrest : ∀ y ∈ rest, y.loop ≠ none ∨ y = .reduceExecute ∨
      ∃ key val, y = .reducer_append (job.index key) key val :=
    fun y hy => h.items y (mem_cons_of_mem hy)
  have hwaiting := h.waiting
  have honce := h.once
  have hcombining := h.combining
  have hemitted := h.emitted
  have hslots := h.slots
  simp only [countP_cons, cons_bind] at hwaiting honce hcombining hemitted hslots
  cases x with
  | clear_reducer r | clear_combiner c | map i | reduce r =>
    rcases h.items _ (mem_cons_self _ rest) with hloop | heq | ⟨key, val, heq⟩
    · exact absurd rfl hloop
    · cases heq
    · cases heq
  | reduceExecute => exact absurd rfl hne
  | combine c =>
    cases hx
    have hfresh := h.fresh c (mem_cons_self _ rest)
    have hkeys : ((job.iterate (s.combiners c).entries).map Sigma.fst).Perm (G c).keys := by
      rw [hfresh]
      exact (hiterate _).map Sigma.fst
    rw [coe_singleton, add_comm, singleton_add]
    refine ⟨⟨fun y hy => ?_, ?_, fun c' => ?_, ?_, fun c' hmem => ?_, fun c' keys hmem => ?_, fun k => ?_,
      h.grouped, h.results, fun k => ?_⟩, rfl⟩
    · rcases mem_cons.mp hy with rfl | hy
      · exact .inl (Option.some_ne_none c)
      · exact hrest y hy
    · rw [countP_cons]
      exact hwaiting
    · rw [countP_cons]
      exact honce c'
    · rw [countP_cons]
      exact hcombining
    · rcases mem_cons.mp hmem with heq | hmem
      · cases heq
      · exact h.fresh c' (mem_cons_of_mem hmem)
    · rcases mem_cons.mp hmem with heq | hmem
      · obtain ⟨rfl, rfl⟩ := Item.combine_keys.inj heq
        exact ⟨hkeys.nodup_iff.mpr (G c').keys_nodup, fun key _ => by rw [hfresh]⟩
      · exact h.keys c' keys (mem_cons_of_mem hmem)
    · rw [← hemitted k, cons_bind]
      simp only [Item.left]
      rw [Groups.flatMap_keys (fun key vs => vals k (job.cf key vs)) hkeys]
      rfl
    · rw [← hslots k, cons_bind]
      rfl
  | combine_keys c keys =>
    obtain ⟨hnodup, hslot⟩ := h.keys c keys (mem_cons_self _ rest)
    cases keys with
    | nil =>
      cases hx
      rw [coe_nil, add_zero]
      refine ⟨⟨hrest, hwaiting, fun c' => (Nat.le_add_right _ _).trans (honce c'), ?_,
        fun c' hmem => h.fresh c' (mem_cons_of_mem hmem),
        fun c' keys hmem => h.keys c' keys (mem_cons_of_mem hmem), fun k => ?_,
        h.grouped, h.results, fun k => ?_⟩, rfl⟩
      · simp only [hcombining, Item.loop, ne_eq, reduceCtorEq, not_false_eq_true, if_true,
          Nat.add_sub_cancel]
      · rw [← hemitted k]
        simp [Item.left]
      · rw [← hslots k]
        simp [Item.brings]
    | cons key keys =>
      obtain ⟨hkey, hnodup⟩ := List.nodup_cons.mp hnodup
      have hsends := sends job c (job.cf key ((s.combiners c).slot key)) s
      simp only [exec, emitCombinedIntermediate] at hx
      cases hx
      rw [hslot key List.mem_cons_self] at hsends ⊢
      refine ⟨?_, hsends.phase⟩
      rw [← coe_add, coe_singleton, ← add_assoc, add_comm (rest + _),
        singleton_add]
      exact h.combine_key hsends
  | reducer_append r key val =>
    cases hx
    obtain ⟨key', val', heq⟩ : ∃ key' val', Item.reducer_append r key val =
        (.reducer_append (job.index key') key' val' : Item K V n) := by
      rcases h.items _ (mem_cons_self _ rest) with hloop | heq | happend
      · exact absurd rfl hloop
      · cases heq
      · exact happend
    obtain ⟨rfl, rfl, rfl⟩ := Item.reducer_append.inj heq
    rw [coe_nil, add_zero]
    refine ⟨⟨hrest, hwaiting, honce, hcombining, fun c hmem => h.fresh c (mem_cons_of_mem hmem),
      fun c keys hmem => h.keys c keys (mem_cons_of_mem hmem), fun k => ?_,
      h.grouped.append key val, fun r hr => (append_result s _ key val r).trans (h.results r hr),
      fun k => ?_⟩, rfl⟩
    · exact (congrArg _ (zero_add _).symm).trans (hemitted k)
    · refine Eq.trans ?_ (hslots k)
      rw [append_slot, add_assoc]
      rfl

/-! ### The elements are mapped -/

def Job.emits (job : Job T K V OutType n) (i : ℕ) : List (K × V) :=
  (job.keyvals[i]?.map job.mf).getD []

/-- What the map function will emit for a key. -/
def Item.maps (job : Job T K V OutType n) (k : K) : Item K V n → Multiset V
  | .map i => (vals k (job.emits i) : Multiset V)
  | _ => 0

/-- All that the map function emits for a key. -/
def Job.raw (job : Job T K V OutType n) (k : K) : Multiset V :=
  (((List.range job.keyvals.length).map Item.map : List (Item K V n)) : Multiset (Item K V n)).bind
    (Item.maps job k)

/-- What the map function will emit for a key on a core. -/
def Item.mapsOn (job : Job T K V OutType n) (c : Fin (n + 1)) (k : K) : Item K V n → Multiset V
  | .map i => if job.keyval_core i = c then (vals k (job.emits i) : Multiset V) else 0
  | _ => 0

/-- All that the map function emits for a key on a core. -/
def Job.rawOn (job : Job T K V OutType n) (c : Fin (n + 1)) (k : K) : Multiset V :=
  (((List.range job.keyvals.length).map Item.map : List (Item K V n)) : Multiset (Item K V n)).bind
    (Item.mapsOn job c k)

theorem sum_bind_mapsOn (k : K) (pool : Multiset (Item K V n)) :
    ∑ c, pool.bind (Item.mapsOn job c k) = pool.bind (Item.maps job k) := by
  induction pool using Multiset.induction with
  | empty => simp
  | cons x pool ih =>
    have hx : ∑ c, x.mapsOn job c k = x.maps job k := by
      cases x <;> simp [Item.mapsOn, Item.maps]
    simp only [cons_bind, Finset.sum_add_distrib, ih, hx]

theorem sum_rawOn (job : Job T K V OutType n) (k : K) : ∑ c, job.rawOn c k = job.raw k :=
  sum_bind_mapsOn k _

/-- The reducers are empty. -/
def Cleared (job : Job T K V OutType n) (s : State K V OutType n) : Prop :=
  ∀ r < job.num_reducers, s.reducers r = ⟨∅, []⟩

theorem Cleared.grouped (h : Cleared job s) : Grouped job s := by
  intro r hr
  rw [h r hr]
  exact ⟨Groups.full_empty, fun k hk => absurd hk (AList.notMem_empty k)⟩

/-- What the elements that are mapped have emitted is in the combiners. -/
structure ToCombiners (job : Job T K V OutType n) (s : State K V OutType n)
    (pool : Multiset (Item K V n)) : Prop where
  items : ∀ x ∈ pool, ∃ i, x = .map i
  cleared : Cleared job s
  emitted : s.emitted = []
  full : ∀ c, (s.combiners c).Full
  slots : ∀ c k, ((s.combiners c).slot k : Multiset V) + pool.bind (Item.mapsOn job c k) =
    job.rawOn c k

theorem combiner_append_slot (c : Fin (n + 1)) (s : State K V OutType n) (e : K × V)
    (c' : Fin (n + 1)) (k : K) : (((combiner_append c s e).combiners c').slot k : Multiset V) =
      ((s.combiners c').slot k : Multiset V) +
        (if c = c' then (if e.1 = k then {e.2} else 0) else 0) := by
  by_cases hc : c' = c
  · subst hc
    simp only [combiner_append, update_self, if_true]
    rw [Groups.slot_push]
    by_cases hk : e.1 = k
    · rw [if_pos hk.symm, if_pos hk, ← coe_add, coe_singleton, hk]
    · rw [if_neg (Ne.symm hk), if_neg hk, add_zero]
  · simp only [combiner_append, update_of_ne hc, if_neg (Ne.symm hc), add_zero]

theorem foldl_combiner_append (c : Fin (n + 1)) (es : List (K × V)) (s : State K V OutType n) :
    let s' := es.foldl (combiner_append c) s
    s'.reducers = s.reducers ∧ s'.emitted = s.emitted ∧ s'.phase = s.phase ∧
      ((∀ c, (s.combiners c).Full) → ∀ c, (s'.combiners c).Full) ∧
      ∀ c' k, ((s'.combiners c').slot k : Multiset V) =
        ((s.combiners c').slot k : Multiset V) + (if c = c' then (vals k es : Multiset V) else 0) := by
  induction es generalizing s with
  | nil => exact ⟨rfl, rfl, rfl, id, fun c' k => by simp⟩
  | cons e es ih =>
    obtain ⟨hreducers, hemitted, hphase, hfull, hslots⟩ := ih (combiner_append c s e)
    refine ⟨hreducers, hemitted, hphase, fun h => hfull fun c' => ?_, fun c' k => ?_⟩
    · by_cases hc : c' = c
      · subst hc
        simp only [combiner_append, update_self]
        exact (h c').push _ _
      · simp only [combiner_append, update_of_ne hc]
        exact h c'
    · rw [List.foldl_cons, hslots c' k, combiner_append_slot, vals_cons]
      split
      · split
        · rw [add_assoc, singleton_add, cons_coe]
        · rw [add_zero]
      · rw [add_zero]

theorem ToCombiners.kept (h : ToCombiners job s (x ::ₘ rest))
    (hx : exec job (map_to_combiners job) s x = some (s', new)) :
    ToCombiners job s' (rest + new) ∧ s'.phase = s.phase := by
  obtain ⟨i, rfl⟩ := h.items x (mem_cons_self x rest)
  cases hx
  obtain ⟨hreducers, hemitted, hphase, hfull, hslots⟩ :=
    foldl_combiner_append (job.keyval_core i) (job.emits i) s
  rw [coe_nil, add_zero]
  refine ⟨⟨fun y hy => h.items y (mem_cons_of_mem hy), fun r hr => ?_, hemitted.trans h.emitted,
    hfull h.full, fun c k => ?_⟩, hphase⟩
  · exact (congrFun hreducers r).trans (h.cleared r hr)
  · have hold := h.slots c k
    rw [cons_bind, ← add_assoc] at hold
    exact (congrArg (· + _) (hslots c k)).trans hold

/-- What the elements that are mapped have emitted is in the reducers, or under way to them. -/
structure ToReducers (job : Job T K V OutType n) (s : State K V OutType n)
    (pool : Multiset (Item K V n)) : Prop where
  items : ∀ x ∈ pool, (∃ i, x = .map i) ∨ ∃ key val, x = .reducer_append (job.index key) key val
  grouped : Grouped job s
  results : ∀ r < job.num_reducers, (s.reducers r).result = []
  slots : ∀ k, ((s.reducers (job.index k)).groups.slot k : Multiset V) + pool.bind (Item.brings k) +
    pool.bind (Item.maps job k) = job.raw k

theorem ToReducers.kept (h : ToReducers job s (x ::ₘ rest))
    (hx : exec job (map_to_reducers job) s x = some (s', new)) :
    ToReducers job s' (rest + new) ∧ s'.phase = s.phase := by
  have hrest : ∀ y ∈ rest, (∃ i, y = .map i) ∨ ∃ key val, y = .reducer_append (job.index key) key val :=
    fun y hy => h.items y (mem_cons_of_mem hy)
  have hslots := h.slots
  simp only [cons_bind] at hslots
  rcases h.items x (mem_cons_self x rest) with ⟨i, rfl⟩ | ⟨key, val, rfl⟩
  · have hsends : Sends job (job.emits i) s (map_to_reducers job i s).1 (map_to_reducers job i s).2 :=
      sends job _ _ s
    rw [Option.some.inj hx] at hsends
    refine ⟨⟨fun y hy => ?_, hsends.grouped h.grouped, fun r hr => (hsends.results r).trans (h.results r hr),
      fun k => ?_⟩, hsends.phase⟩
    · rcases mem_add.mp hy with hy | hy
      · exact hrest y hy
      · exact .inr (hsends.items y hy)
    · have hnone : (new : Multiset (Item K V n)).bind (Item.maps job k) = 0 := by
        rw [bind_congr (g := fun _ => 0), bind_zero]
        intro y hy
        obtain ⟨key, val, rfl⟩ := hsends.items y hy
        rfl
      have hsent := hsends.slots k
      simp only at hsent
      rw [← hslots k, add_bind, add_bind, hnone]
      simp only [Item.brings, Item.maps]
      calc _ = ((s'.reducers (job.index k)).groups.slot k : Multiset V) +
              (new : Multiset (Item K V n)).bind (Item.brings k) +
              (rest.bind (Item.brings k) + rest.bind (Item.maps job k)) := by abel
        _ = _ := by rw [hsent]; abel
  · cases hx
    rw [coe_nil, add_zero]
    refine ⟨⟨hrest, h.grouped.append key val, fun r hr => (append_result s _ key val r).trans (h.results r hr),
      fun k => ?_⟩, rfl⟩
    rw [append_slot, ← hslots k]
    simp only [Item.brings, Item.maps]
    abel

end MapReduce

end Grappa
