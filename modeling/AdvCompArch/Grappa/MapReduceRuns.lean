import AdvCompArch.Grappa.MapReduceInvariant
import Mathlib.Algebra.BigOperators.Fin

/-! # Runs of MapReduce

    A run of `CombiningMapReduceJobExecute` in which no combined value is under way to a reducer
    that is being reduced passes all values of every key, and leaves what `MapReduceJobExecute`
    leaves (`combining_correct`).  Nothing in the code makes every run such a run. -/

namespace Grappa

namespace MapReduce

open Function Multiset Transition List

variable {T K V OutType : Type} {n : ℕ} [DecidableEq K] {job : Job T K V OutType n}
  {reducers : ℕ → Reducer K V OutType} {combiners : Fin (n + 1) → Groups K V}

/-! ### Specification -/

/-- When a reducer is reduced nothing is left to combine, and the reduce function is called with all
    values that were emitted for a key. -/
def Passes (job : Job T K V OutType n) (s : Phased.State (State K V OutType n) (Item K V n)) :
    Phased.Label → Prop
  | .item k => ∀ r, s.pool[k]? = some (.reduce r) → s.shared.combining = 0 ∧
    ∀ call ∈ s.shared.calls job r, call.2.Perm (vals call.1 s.shared.emitted)
  | .advance => True

/-- When a reducer is reduced nothing is under way for a key that it has. -/
def Prompt (s : Phased.State (State K V OutType n) (Item K V n)) : Phased.Label → Prop
  | .item k => ∀ r, s.pool[k]? = some (.reduce r) →
    ∀ key ∈ (s.shared.reducers r).groups, ∀ r' val, .reducer_append r' key val ∉ s.pool
  | .advance => True

/-- When a reducer is reduced nothing is under way to it. -/
def Quiet (s : Phased.State (State K V OutType n) (Item K V n)) : Phased.Label → Prop
  | .item k => ∀ r, s.pool[k]? = some (.reduce r) →
    ∀ key val, .reducer_append r key val ∉ s.pool
  | .advance => True

/-- The reduce function is called for keys with values. -/
def Job.reduced (job : Job T K V OutType n) (key : K) (values : List V) : List OutType :=
  if values.isEmpty then [] else job.rf key values

/-- The combine function may be applied to parts of the values, in any order. -/
structure Homomorphism (job : Job T K V OutType n) : Prop where
  own_key : ∀ key values, ∀ e ∈ job.cf key values, e.1 = key
  order : ∀ key values values', values.Perm values' → (job.rf key values).Perm (job.rf key values')
  combine : ∀ key parts, parts ≠ [] → (∀ values ∈ parts, values ≠ []) →
    (job.reduced key ((parts.flatMap (job.cf key)).map Prod.snd)).Perm (job.rf key parts.flatten)

/-! ### Phases -/

/-- What is cleared first. -/
structure Clearing (job : Job T K V OutType n) (s : State K V OutType n)
    (pool : Multiset (Item K V n)) : Prop where
  items : ∀ x ∈ pool, ∃ r, x = .clear_reducer r
  emitted : s.emitted = []
  done : ∀ r < job.num_reducers, s.reducers r = ⟨∅, []⟩ ∨ .clear_reducer r ∈ pool

structure ClearingCombiners (job : Job T K V OutType n) (s : State K V OutType n)
    (pool : Multiset (Item K V n)) : Prop where
  items : ∀ x ∈ pool, ∃ c, x = .clear_combiner c
  cleared : Cleared job s
  emitted : s.emitted = []
  done : ∀ c, s.combiners c = ∅ ∨ .clear_combiner c ∈ pool

/-- The groups of the combiners after the map. -/
structure Source (job : Job T K V OutType n) (G : Fin (n + 1) → Groups K V) : Prop where
  full : ∀ c, (G c).Full
  own : ∀ c k, ((G c).slot k : Multiset V) = job.rawOn c k

theorem Source.slots {G : Fin (n + 1) → Groups K V} (h : Source job G) (k : K) :
    ∑ c, ((G c).slot k : Multiset V) = job.raw k := by
  rw [← sum_rawOn, Finset.sum_congr rfl fun c _ => h.own c k]

/-- What `combineExecute` has sent when it is done. -/
structure Sent (job : Job T K V OutType n) (G : Fin (n + 1) → Groups K V) (s : State K V OutType n)
    (pool : Multiset (Item K V n)) : Prop where
  reducing : Reducing job (fun k => (vals k s.emitted : Multiset V)) s pool
  combining : s.combining = 0
  emitted : ∀ k, (vals k s.emitted : Multiset V) = ∑ c, combined job k (G c)

/-- What holds in the phases of `CombiningMapReduceJobExecute`. -/
def CombiningInv (job : Job T K V OutType n) (s : State K V OutType n)
    (pool : Multiset (Item K V n)) : Prop :=
  match s.phase with
  | .start => pool = 0 ∧ s.emitted = []
  | .clear_reducers => Clearing job s pool
  | .clear_combiners => ClearingCombiners job s pool
  | .map => ToCombiners job s pool
  | .combine => ∃ G, Source job G ∧ (Combining job G s pool ∨ Sent job G s pool)
  | .reduce => False

/-- What holds in the phases of `MapReduceJobExecute`. -/
def Inv (job : Job T K V OutType n) (s : State K V OutType n) (pool : Multiset (Item K V n)) : Prop :=
  match s.phase with
  | .start => pool = 0 ∧ s.emitted = []
  | .clear_reducers => Clearing job s pool
  | .map => ToReducers job s pool
  | .reduce => Reducing job job.raw s pool ∧ (∀ x ∈ pool, ∃ r, x = .reduce r) ∧
    ∀ r < job.num_reducers, .reduce r ∈ pool ∨ Done job job.raw s pool r
  | .clear_combiners | .combine => False

variable {mapped : ℕ → State K V OutType n → State K V OutType n × List (Item K V n)}
  {s s' : State K V OutType n} {rest : Multiset (Item K V n)} {x : Item K V n}
  {new : List (Item K V n)}

theorem Clearing.kept (h : Clearing job s (x ::ₘ rest)) (hx : exec job mapped s x = some (s', new)) :
    Clearing job s' (rest + new) ∧ s'.phase = s.phase := by
  obtain ⟨r, rfl⟩ := h.items x (mem_cons_self x rest)
  cases hx
  rw [coe_nil, add_zero]
  refine ⟨⟨fun y hy => h.items y (mem_cons_of_mem hy), h.emitted, fun r' hr' => ?_⟩, rfl⟩
  by_cases heq : r' = r
  · subst heq
    simp only [update_self]
    exact .inl trivial
  · simp only [update_of_ne heq]
    rcases h.done r' hr' with hdone | hmem
    · exact .inl hdone
    · rcases mem_cons.mp hmem with hitem | hmem
      · exact absurd (Item.clear_reducer.inj hitem) heq
      · exact .inr hmem

theorem ClearingCombiners.kept (h : ClearingCombiners job s (x ::ₘ rest))
    (hx : exec job mapped s x = some (s', new)) :
    ClearingCombiners job s' (rest + new) ∧ s'.phase = s.phase := by
  obtain ⟨c, rfl⟩ := h.items x (mem_cons_self x rest)
  cases hx
  rw [coe_nil, add_zero]
  refine ⟨⟨fun y hy => h.items y (mem_cons_of_mem hy), h.cleared, h.emitted, fun c' => ?_⟩, rfl⟩
  by_cases heq : c' = c
  · subst heq
    simp only [update_self]
    exact .inl trivial
  · simp only [update_of_ne heq]
    rcases h.done c' with hdone | hmem
    · exact .inl hdone
    · rcases mem_cons.mp hmem with hitem | hmem
      · exact absurd (Item.clear_combiner.inj hitem) heq
      · exact .inr hmem

theorem CombiningInv.exec (hiterate : ∀ l, (job.iterate l).Perm l)
    (h : CombiningInv job s (x ::ₘ rest))
    (hx : (CombiningMapReduceJobExecute job).exec s x = some (s', new)) :
    CombiningInv job s' (rest + new) := by
  unfold CombiningInv at h
  split at h <;> rename_i hphase
  · exact absurd h.1 cons_ne_zero
  · obtain ⟨hkept, heq⟩ := h.kept hx
    unfold CombiningInv
    rw [heq, hphase]
    exact hkept
  · obtain ⟨hkept, heq⟩ := h.kept hx
    unfold CombiningInv
    rw [heq, hphase]
    exact hkept
  · obtain ⟨hkept, heq⟩ := h.kept hx
    unfold CombiningInv
    rw [heq, hphase]
    exact hkept
  · obtain ⟨G, hG, hcombining | hsent⟩ := h
    · by_cases hmain : x = .reduceExecute
      · subst hmain
        simp only [CombiningMapReduceJobExecute, MapReduce.exec] at hx
        split at hx
        · rename_i hdone
          cases hx
          obtain ⟨hreducing, hemitted⟩ := hcombining.reduceExecute hdone
          unfold CombiningInv
          rw [hphase]
          refine ⟨G, hG, .inr ⟨?_, hdone, hemitted⟩⟩
          rwa [funext hemitted]
        · cases hx
      · obtain ⟨hkept, heq⟩ := hcombining.kept hiterate hmain hx
        unfold CombiningInv
        rw [heq, hphase]
        exact ⟨G, hG, .inl hkept⟩
    · obtain ⟨hkept, heq, hemitted, hcombining⟩ := hsent.reducing.kept hx
      unfold CombiningInv
      rw [heq, hphase]
      refine ⟨G, hG, .inr ⟨?_, hcombining.trans hsent.combining, ?_⟩⟩
      · rw [hemitted]
        exact hkept
      · rw [hemitted]
        exact hsent.emitted
  · exact h.elim

omit [DecidableEq K] in
theorem clearing_init (job : Job T K V OutType n) (h : s.emitted = []) :
    Clearing job { s with phase := .clear_reducers }
      ((List.range job.num_reducers).map Item.clear_reducer : List (Item K V n)) := by
  refine ⟨fun y hy => ?_, h, fun r hr => .inr ?_⟩
  · obtain ⟨r, _, rfl⟩ := List.mem_map.mp hy
    exact ⟨r, rfl⟩
  · exact List.mem_map_of_mem (List.mem_range.mpr hr)

omit [DecidableEq K] in
theorem Clearing.cleared (h : Clearing job s 0) : Cleared job s :=
  fun r hr => (h.done r hr).resolve_right (notMem_zero _)

/-- The combiners are to be combined. -/
theorem ToCombiners.combining (hnum : 0 < job.num_reducers) (h : ToCombiners job s 0) :
    Source job s.combiners ∧ Combining job s.combiners { s with phase := .combine, combining := n + 1 }
      ((finRange (n + 1)).map Item.combine ++ [.reduceExecute] : List (Item K V n)) := by
  have hgrouped := h.cleared.grouped
  have hslots : ∀ c k, ((s.combiners c).slot k : Multiset V) = job.rawOn c k := by
    intro c k
    have hold := h.slots c k
    rwa [zero_bind, add_zero] at hold
  have hcombine : ∀ y ∈ (((finRange (n + 1)).map Item.combine ++ [.reduceExecute] :
      List (Item K V n)) : Multiset (Item K V n)), (∃ c, y = .combine c) ∨ y = .reduceExecute := by
    intro y hy
    rcases mem_append.mp (mem_coe.mp hy) with hy | hy
    · obtain ⟨c, _, rfl⟩ := mem_map.mp hy
      exact .inl ⟨c, rfl⟩
    · exact .inr (List.mem_singleton.mp hy)
  refine ⟨⟨h.full, hslots⟩, fun y hy => ?_, ?_, fun c => ?_, ?_, fun c _ => rfl, fun c keys hmem => ?_,
    fun k => ?_, hgrouped, fun r hr => ?_, fun k => ?_⟩
  · rcases hcombine y hy with ⟨c, rfl⟩ | rfl
    · exact .inl (Option.some_ne_none c)
    · exact .inr (.inl rfl)
  · rw [coe_countP, List.countP_append, List.countP_map]
    simp [comp_def, Item.waits]
  · rw [coe_countP, List.countP_append, List.countP_map]
    have hcount := nodup_iff_count_le_one.mp (nodup_finRange (n + 1)) c
    have hloop : (fun c' => decide ((Item.combine c' : Item K V n).loop = some c)) =
        fun c' => decide (c' = c) := by
      funext c'
      simp [Item.loop]
    have hmain : countP (fun x : Item K V n => decide (x.loop = some c)) [.reduceExecute] = 0 := rfl
    rw [hmain, add_zero]
    simp only [comp_def, hloop]
    exact hcount
  · rw [coe_countP, List.countP_append, List.countP_map]
    simp [comp_def, Item.loop]
  · rcases hcombine _ hmem with ⟨c', heq⟩ | heq <;> cases heq
  · have hleft : (((List.finRange (n + 1)).map Item.combine ++ [.reduceExecute] : List (Item K V n)) :
        Multiset (Item K V n)).bind (Item.left job s.combiners k) =
          ∑ c, combined job k (s.combiners c) := by
      rw [← coe_add, add_bind, ← map_coe, bind_map,
        coe_singleton, singleton_bind]
      simp only [Item.left, add_zero]
      rfl
    rw [hleft, h.emitted]
    exact zero_add _
  · rw [h.cleared r hr]
  · have hbrings : (((List.finRange (n + 1)).map Item.combine ++ [.reduceExecute] : List (Item K V n)) :
        Multiset (Item K V n)).bind (Item.brings k) = 0 := by
      rw [bind_congr (g := fun _ => 0), bind_zero]
      intro y hy
      rcases hcombine y hy with ⟨c, rfl⟩ | rfl <;> rfl
    rw [hbrings, h.emitted, h.cleared _ (job.index_lt hnum k)]
    rfl

theorem CombiningInv.advance (hnum : 0 < job.num_reducers) (h : CombiningInv job s 0)
    (hx : (CombiningMapReduceJobExecute job).advance s = some (s', new)) : CombiningInv job s' new := by
  unfold CombiningInv at h
  simp only [CombiningMapReduceJobExecute, State.advance_combining] at hx
  split at h <;> rename_i hphase <;> rw [hphase] at hx
  · cases hx
    exact clearing_init job h.2
  · cases hx
    refine ⟨fun y hy => ?_, h.cleared, h.emitted, fun c => .inr ?_⟩
    · obtain ⟨c, _, rfl⟩ := mem_map.mp hy
      exact ⟨c, rfl⟩
    · exact mem_map_of_mem (mem_finRange c)
  · cases hx
    have hempty : ∀ c, s.combiners c = ∅ :=
      fun c => (h.done c).resolve_right (notMem_zero _)
    refine ⟨fun y hy => ?_, h.cleared, h.emitted, fun c => ?_, fun c k => ?_⟩
    · obtain ⟨i, _, rfl⟩ := mem_map.mp hy
      exact ⟨i, rfl⟩
    · rw [hempty c]
      exact Groups.full_empty
    · simp only [hempty, Groups.slot_empty, coe_nil, zero_add]
      rfl
  · cases hx
    obtain ⟨hsource, hcombining⟩ := h.combining hnum
    exact ⟨s.combiners, hsource, .inl hcombining⟩
  · cases hx
  · cases hx

theorem Inv.exec (hiterate : ∀ l, (job.iterate l).Perm l) (h : Inv job s (x ::ₘ rest))
    (hx : (MapReduceJobExecute job).exec s x = some (s', new)) : Inv job s' (rest + new) := by
  unfold Inv at h
  split at h <;> rename_i hphase
  · exact absurd h.1 cons_ne_zero
  · obtain ⟨hkept, heq⟩ := h.kept hx
    unfold Inv
    rw [heq, hphase]
    exact hkept
  · obtain ⟨hkept, heq⟩ := h.kept hx
    unfold Inv
    rw [heq, hphase]
    exact hkept
  · obtain ⟨hreducing, hitems, hdone⟩ := h
    have hrest : ∀ y ∈ rest, ∃ r, y = .reduce r := fun y hy => hitems y (mem_cons_of_mem hy)
    have hquiet : x.Quiet rest := by
      rintro r _ key val hmem
      obtain ⟨r', heq⟩ := hrest _ hmem
      cases heq
    obtain ⟨hkept, heq, _, _⟩ := hreducing.kept hx
    have hsettled := hreducing.settled hiterate hdone hquiet hx
    have hnew : (new : Multiset (Item K V n)) = 0 := by
      obtain ⟨r, rfl⟩ := hitems x (mem_cons_self x rest)
      obtain ⟨_, rfl⟩ := Prod.mk.inj (Option.some.inj hx)
      rfl
    rw [hnew, add_zero] at hkept hsettled ⊢
    unfold Inv
    rw [heq, hphase]
    exact ⟨hkept, hrest, hsettled⟩
  · exact h.elim
  · exact h.elim

theorem Inv.advance (hnum : 0 < job.num_reducers) (h : Inv job s 0)
    (hx : (MapReduceJobExecute job).advance s = some (s', new)) : Inv job s' new := by
  unfold Inv at h
  simp only [MapReduceJobExecute, State.advance] at hx
  split at h <;> rename_i hphase <;> rw [hphase] at hx
  · cases hx
    exact clearing_init job h.2
  · cases hx
    have hcleared := h.cleared
    refine ⟨fun y hy => ?_, hcleared.grouped, fun r hr => ?_, fun k => ?_⟩
    · obtain ⟨i, _, rfl⟩ := mem_map.mp hy
      exact .inl ⟨i, rfl⟩
    · rw [hcleared r hr]
    · have hbrings : (((List.range job.keyvals.length).map Item.map : List (Item K V n)) :
          Multiset (Item K V n)).bind (Item.brings k) = 0 := by
        rw [bind_congr (g := fun _ => 0), bind_zero]
        intro y hy
        obtain ⟨i, _, rfl⟩ := List.mem_map.mp hy
        rfl
      rw [hbrings, hcleared _ (job.index_lt hnum k), add_zero]
      exact zero_add _
  · cases hx
    have hitems : ∀ y ∈ (((List.range job.num_reducers).map Item.reduce : List (Item K V n)) :
        Multiset (Item K V n)), ∃ r < job.num_reducers, y = .reduce r := by
      intro y hy
      obtain ⟨r, hr, rfl⟩ := List.mem_map.mp hy
      exact ⟨r, List.mem_range.mp hr, rfl⟩
    refine ⟨⟨fun y hy => .inl (hitems y hy), fun r => countP_reduces r, h.grouped, fun r hr _ =>
      ⟨h.results r hr, fun k hk => ?_⟩⟩, fun y hy => ?_, fun r hr => .inl ?_⟩
    · subst hk
      have hslots := h.slots k
      rw [zero_bind, zero_bind, add_zero] at hslots
      rw [bind_brings_reduces]
      exact hslots
    · obtain ⟨r, _, rfl⟩ := hitems y hy
      exact ⟨r, rfl⟩
    · exact List.mem_map_of_mem (List.mem_range.mpr hr)
  · cases hx
  · cases hx
  · cases hx

/-! ### Runs -/

theorem inv_init : Inv job (init reducers combiners) 0 := ⟨rfl, rfl⟩

theorem combining_inv_init : CombiningInv job (init reducers combiners) 0 := ⟨rfl, rfl⟩

theorem reachable_inv (hiterate : ∀ l, (job.iterate l).Perm l) (hnum : 0 < job.num_reducers)
    {t : Phased.State (State K V OutType n) (Item K V n)}
    (ht : ((MapReduceJobExecute job).system (init reducers combiners)).Reachable t) :
    Inv job t.shared t.pool :=
  Phased.Program.Reachable.inv (Inv job) inv_init (fun _ _ _ _ _ h hx => h.exec hiterate hx)
    (fun _ _ _ h hx => h.advance hnum hx) ht

theorem CombiningInv.next (hiterate : ∀ l, (job.iterate l).Perm l) (hnum : 0 < job.num_reducers)
    {t t' : Phased.State (State K V OutType n) (Item K V n)} {l : Phased.Label}
    (h : CombiningInv job t.shared t.pool) (hl : (CombiningMapReduceJobExecute job).next t l = some t') :
    CombiningInv job t'.shared t'.pool :=
  Phased.Program.next_inv (P := fun _ _ => True) (fun _ _ _ _ _ h _ hx => h.exec hiterate hx)
    (fun _ _ _ h hx => h.advance hnum hx) h (by cases l <;> simp [Phased.Program.Meets]) hl

theorem CombiningInv.sent (h : CombiningInv job s rest) {r : ℕ} (hmem : .reduce r ∈ rest) :
    ∃ G, Source job G ∧ Sent job G s rest := by
  unfold CombiningInv at h
  split at h
  · rw [h.1] at hmem
    exact absurd hmem (notMem_zero _)
  · obtain ⟨r', heq⟩ := h.items _ hmem
    cases heq
  · obtain ⟨c, heq⟩ := h.items _ hmem
    cases heq
  · obtain ⟨i, heq⟩ := h.items _ hmem
    cases heq
  · obtain ⟨G, hG, hcombining | hsent⟩ := h
    · rcases hcombining.items _ hmem with hloop | heq | ⟨key, val, heq⟩
      · exact absurd rfl hloop
      · cases heq
      · cases heq
    · exact ⟨G, hG, hsent⟩
  · exact h.elim

theorem passes_iff (hiterate : ∀ l, (job.iterate l).Perm l)
    {t : Phased.State (State K V OutType n) (Item K V n)} (h : CombiningInv job t.shared t.pool)
    (l : Phased.Label) : Passes job t l ↔ Prompt t l := by
  cases l with
  | advance => exact Iff.rfl
  | item k =>
    refine forall₂_congr fun r hk => ?_
    have hmem : Item.reduce r ∈ (t.pool : Multiset (Item K V n)) :=
      mem_coe.mpr (mem_of_getElem? hk)
    obtain ⟨G, hG, hsent⟩ := h.sent hmem
    obtain ⟨r', hr', heq⟩ : ∃ r' < job.num_reducers, Item.reduce r = (.reduce r' : Item K V n) := by
      rcases hsent.reducing.items _ hmem with hr | ⟨key, val, heq⟩
      · exact hr
      · cases heq
    obtain rfl := Item.reduce.inj heq
    have hslots := (hsent.reducing.pending r hr' hmem).2
    have hgrouped := (hsent.reducing.grouped r hr').2
    constructor
    · rintro ⟨_, hcalls⟩ key hkey
      obtain ⟨values, hvalues⟩ := Option.isSome_iff_exists.mp (AList.lookup_isSome.mpr hkey)
      have hentry : (⟨key, values⟩ : (_ : K) × List V) ∈ (t.shared.reducers r).groups.entries :=
        AList.mem_lookup_iff.mp hvalues
      have hcall := hcalls _ ((hiterate _).mem_iff.mpr hentry)
      have hall := hslots key (hgrouped key hkey)
      have hslot : (t.shared.reducers r).groups.slot key = values := Groups.slot_of_mem hentry
      rw [hslot, ← coe_eq_coe.mpr hcall, add_eq_left] at hall
      exact fun r' val => mem_coe.not.mp (bind_brings_eq_zero.mp hall r' val)
    · intro hprompt
      refine ⟨hsent.combining, fun call hcall => ?_⟩
      have hentry := (hiterate _).mem_iff.mp hcall
      have hkey : call.1 ∈ (t.shared.reducers r).groups := mem_map_of_mem hentry
      have hnone := bind_brings_eq_zero.mpr fun r' val =>
        mem_coe.not.mpr (hprompt call.1 hkey r' val)
      have hall := hslots call.1 (hgrouped call.1 hkey)
      rw [hnone, add_zero, Groups.slot_of_mem hentry] at hall
      exact coe_eq_coe.mp hall

theorem Quiet.prompt {t : Phased.State (State K V OutType n) (Item K V n)} {l : Phased.Label}
    (h : CombiningInv job t.shared t.pool) (hquiet : Quiet t l) : Prompt t l := by
  cases l with
  | advance => trivial
  | item k =>
    intro r hk key hkey r' val hmem
    have hreduce : Item.reduce r ∈ (t.pool : Multiset (Item K V n)) :=
      mem_coe.mpr (mem_of_getElem? hk)
    obtain ⟨G, hG, hsent⟩ := h.sent hreduce
    have hr : r < job.num_reducers := by
      rcases hsent.reducing.items _ hreduce with ⟨r'', hr'', heq⟩ | ⟨key', val', heq⟩
      · exact Item.reduce.inj heq ▸ hr''
      · cases heq
    have hto : r' = r := by
      rcases hsent.reducing.items _ (mem_coe.mpr hmem) with ⟨r'', _, heq⟩ | ⟨key', val', heq⟩
      · cases heq
      · obtain ⟨rfl, rfl, rfl⟩ := Item.reducer_append.inj heq
        exact (hsent.reducing.grouped r hr).2 key hkey
    subst hto
    exact hquiet r' hk key val hmem

/-! ### Quiet runs -/

/-- What is reduced is done. -/
def Settled (job : Job T K V OutType n) (s : State K V OutType n) (pool : Multiset (Item K V n)) :
    Prop :=
  s.phase = .combine → ∀ r < job.num_reducers, .reduceExecute ∈ pool ∨ .reduce r ∈ pool ∨
    Done job (fun k => (vals k s.emitted : Multiset V)) s pool r

theorem exec_phase (hx : exec job (map_to_combiners job) s x = some (s', new)) :
    s'.phase = s.phase := by
  cases x with
  | map i =>
    obtain ⟨rfl, _⟩ := Prod.mk.inj (Option.some.inj hx)
    exact (foldl_combiner_append (job.keyval_core i) (job.emits i) s).2.2.1
  | combine_keys c keys =>
    cases keys with
    | nil =>
      obtain ⟨rfl, _⟩ := Prod.mk.inj (Option.some.inj hx)
      rfl
    | cons key keys =>
      obtain ⟨rfl, _⟩ := Prod.mk.inj (Option.some.inj hx)
      exact (sends job c _ s).phase
  | reduceExecute =>
    simp only [MapReduce.exec] at hx
    split at hx
    · obtain ⟨rfl, _⟩ := Prod.mk.inj (Option.some.inj hx)
      rfl
    · cases hx
  | clear_reducer r | clear_combiner c | combine c | reduce r | reducer_append r key val =>
    obtain ⟨rfl, _⟩ := Prod.mk.inj (Option.some.inj hx)
    rfl

theorem Settled.exec (hiterate : ∀ l, (job.iterate l).Perm l)
    (h : CombiningInv job s (x ::ₘ rest)) (hsettled : Settled job s (x ::ₘ rest))
    (hquiet : x.Quiet rest) (hx : (CombiningMapReduceJobExecute job).exec s x = some (s', new)) :
    Settled job s' (rest + new) := by
  intro hphase r hr
  have hold : s.phase = .combine := (exec_phase hx).symm.trans hphase
  unfold CombiningInv at h
  rw [hold] at h
  obtain ⟨G, hG, hcombining | hsent⟩ := h
  · by_cases hmain : x = .reduceExecute
    · subst hmain
      simp only [CombiningMapReduceJobExecute, MapReduce.exec] at hx
      split at hx
      · cases hx
        exact .inr (.inl (mem_add.mpr (.inr (mem_coe.mpr
          (List.mem_map_of_mem (List.mem_range.mpr hr))))))
      · cases hx
    · have hwaiting := hcombining.waiting
      obtain ⟨y, hy, hwaits⟩ := countP_pos.mp (hwaiting ▸ Nat.one_pos)
      obtain rfl : y = .reduceExecute := by
        cases y with
        | reduceExecute => rfl
        | clear_reducer r | clear_combiner c | map i | combine c | combine_keys c keys | reduce r
        | reducer_append r key val => cases hwaits
      rcases mem_cons.mp hy with heq | hy
      · exact absurd heq.symm hmain
      · exact .inl (mem_add.mpr (.inl hy))
  · obtain ⟨_, _, hemitted, _⟩ := hsent.reducing.kept hx
    have hdone : ∀ r < job.num_reducers, .reduce r ∈ x ::ₘ rest ∨
        Done job (fun k => (vals k s.emitted : Multiset V)) s (x ::ₘ rest) r := by
      intro r hr
      rcases hsettled hold r hr with hmem | hdone
      · rcases hsent.reducing.items _ hmem with ⟨r', _, heq⟩ | ⟨key, val, heq⟩ <;> cases heq
      · exact hdone
    rw [hemitted]
    exact .inr (hsent.reducing.settled hiterate hdone hquiet hx r hr)

theorem Settled.advance (hx : (CombiningMapReduceJobExecute job).advance s = some (s', new)) :
    Settled job s' new := by
  intro hphase r hr
  simp only [CombiningMapReduceJobExecute, State.advance_combining] at hx
  split at hx
  case h_4 =>
    cases hx
    exact .inl (mem_coe.mpr (List.mem_append_right _ (List.mem_singleton_self _)))
  case h_5 => cases hx
  case h_6 => cases hx
  all_goals
    cases hx
    cases hphase

theorem quiet_run (hiterate : ∀ l, (job.iterate l).Perm l) (hnum : 0 < job.num_reducers)
    {ls : List Phased.Label} {t : Phased.State (State K V OutType n) (Item K V n)}
    (hquiet : ((CombiningMapReduceJobExecute job).system (init reducers combiners)).Always Quiet
      ⟨init reducers combiners, []⟩ ls)
    (hrun : ((CombiningMapReduceJobExecute job).system (init reducers combiners)).run
      ⟨init reducers combiners, []⟩ ls = some t) :
    CombiningInv job t.shared t.pool ∧ Settled job t.shared t.pool := by
  refine System.invariant_under
    (fun t => CombiningInv job t.shared t.pool ∧ Settled job t.shared t.pool)
    (fun t l t' h hq hl => ?_) ⟨combining_inv_init, fun hphase => by cases hphase⟩ hquiet hrun
  refine ⟨h.1.next hiterate hnum hl, ?_⟩
  cases l with
  | item k =>
    obtain ⟨x, hget, rest, new, hpool, hx, hpool'⟩ := Phased.Program.next_item hl
    rw [hpool] at h
    rw [hpool']
    refine Settled.exec hiterate h.1 h.2 (fun r hr key val hmem => ?_) hx
    subst hr
    refine hq r hget key val (mem_coe.mp ?_)
    rw [hpool]
    exact mem_cons_of_mem hmem
  | advance =>
    obtain ⟨_, new, hx, hpool'⟩ := Phased.Program.next_advance hl
    rw [hpool']
    exact Settled.advance hx

/-! ### The two jobs -/

/-- What the combine function emits for a key comes from the group of the key, if it emits for its
    own key only. -/
theorem combined_eq (hown : ∀ key values, ∀ e ∈ job.cf key values, e.1 = key) {g : Groups K V}
    (hfull : g.Full) (k : K) : combined job k g =
      if g.slot k = [] then 0 else ((job.cf k (g.slot k)).map Prod.snd : Multiset V) := by
  have hvals : vals k (job.cf k (g.slot k)) = (job.cf k (g.slot k)).map Prod.snd := by
    unfold vals
    rw [filter_eq_self.mpr fun e he => decide_eq_true (hown k _ e he)]
  have hothers : ∀ k', k' ≠ k → vals k (job.cf k' (g.slot k')) = [] := by
    intro k' hk'
    unfold vals
    rw [filter_eq_nil_iff.mpr fun e he => ?_, map_nil]
    rw [hown k' _ e he, decide_eq_true_eq]
    exact hk'
  unfold combined
  rw [Groups.outputs_single (fun key vs => vals k (job.cf key vs)) hothers, hvals]
  by_cases hk : k ∈ g
  · rw [if_pos hk, if_neg (hfull k hk)]
  · rw [if_neg hk, if_pos (Groups.slot_eq_nil hk)]

/-- The groups of a key that have values. -/
def parts (G : Fin (n + 1) → Groups K V) (k : K) : List (List V) :=
  ((finRange (n + 1)).map fun c => (G c).slot k).filter fun values => !values.isEmpty

theorem coe_flatMap_filter {ι β : Type} (slots : ι → List V) (f : List V → List β) (l : List ι) :
    ((((l.map slots).filter fun values => !values.isEmpty).flatMap f : List β) : Multiset β) =
      (l.map fun c => if slots c = [] then (0 : Multiset β) else f (slots c)).sum := by
  induction l with
  | nil => rfl
  | cons c l ih =>
    rw [List.map_cons, List.map_cons, List.sum_cons, ← ih, List.filter_cons]
    by_cases hc : slots c = []
    · simp [hc]
    · simp [hc]

theorem coe_parts_flatMap {β : Type} (G : Fin (n + 1) → Groups K V) (k : K) (f : List V → List β) :
    ((parts G k).flatMap f : Multiset β) =
      ∑ c, if (G c).slot k = [] then (0 : Multiset β) else f ((G c).slot k) := by
  rw [Fin.sum_univ_def]
  exact coe_flatMap_filter _ f _

theorem coe_parts_flatten (G : Fin (n + 1) → Groups K V) (k : K) :
    ((parts G k).flatten : Multiset V) = ∑ c, ((G c).slot k : Multiset V) := by
  have hid : (parts G k).flatten = (parts G k).flatMap id := by simp
  rw [hid, coe_parts_flatMap]
  refine Finset.sum_congr rfl fun c _ => ?_
  split
  · rename_i hc
    rw [hc]
    rfl
  · rfl

omit [DecidableEq K] in
theorem Homomorphism.reduced_perm (hom : Homomorphism job) (k : K) {values values' : List V}
    (h : values.Perm values') : (job.reduced k values).Perm (job.reduced k values') := by
  unfold Job.reduced
  cases values with
  | nil => rw [h.nil_eq]
  | cons v values =>
    cases values' with
    | nil => exact absurd h.eq_nil (cons_ne_nil _ _)
    | cons v' values' => exact hom.order k _ _ h

/-- **One key**: from the values of all parts, or from what is emitted for the parts. -/
theorem Homomorphism.reduced_eq (hom : Homomorphism job) {G : Fin (n + 1) → Groups K V}
    (hG : Source job G) {k : K} {sent values : List V}
    (hsent : (sent : Multiset V) = ∑ c, combined job k (G c))
    (hvalues : (values : Multiset V) = job.raw k) :
    (job.reduced k sent).Perm (job.reduced k values) := by
  have hflat : values.Perm (parts G k).flatten := by
    rw [← coe_eq_coe, hvalues, ← hG.slots k, coe_parts_flatten]
  have hemit : sent.Perm (((parts G k).flatMap (job.cf k)).map Prod.snd) := by
    rw [← coe_eq_coe, hsent, map_flatMap, coe_parts_flatMap]
    exact Finset.sum_congr rfl fun c _ => combined_eq hom.own_key (hG.full c) k
  by_cases hparts : parts G k = []
  · rw [hparts] at hflat hemit
    rw [hflat.eq_nil, hemit.eq_nil]
  · have hne : ∀ part ∈ parts G k, part ≠ [] := by
      intro part hpart
      simpa using (mem_filter.mp hpart).2
    obtain ⟨part, hpart⟩ := exists_mem_of_ne_nil _ hparts
    have hflatten : (parts G k).flatten ≠ [] := fun hnil =>
      hne part hpart (flatten_eq_nil_iff.mp hnil part hpart)
    have hreduced : job.reduced k (parts G k).flatten = job.rf k (parts G k).flatten := by
      unfold Job.reduced
      rw [if_neg (by simpa using hflatten)]
    calc (job.reduced k sent).Perm (job.reduced k (((parts G k).flatMap (job.cf k)).map Prod.snd)) :=
          hom.reduced_perm k hemit
      _ |>.Perm (job.rf k (parts G k).flatten) := hom.combine k _ hparts hne
      _ |>.Perm (job.reduced k values) := by
          rw [← hreduced]
          exact hom.reduced_perm k hflat.symm

theorem results_perm (hom : Homomorphism job) {G : Fin (n + 1) → Groups K V} (hG : Source job G)
    {pool pool' : Multiset (Item K V n)} {r : ℕ}
    (hsent : ∀ k, (vals k s.emitted : Multiset V) = ∑ c, combined job k (G c))
    (h : Done job (fun k => (vals k s.emitted : Multiset V)) s pool r)
    (h' : Done job job.raw s' pool' r) : (s.reducers r).result.Perm (s'.reducers r).result := by
  obtain ⟨_, g, hfull, hslots, hresult⟩ := h
  obtain ⟨_, g', hfull', hslots', hresult'⟩ := h'
  have hreduced : ∀ key (values : List V), values ≠ [] → job.rf key values = job.reduced key values := by
    intro key values hvalues
    unfold Job.reduced
    rw [if_neg (by simpa using hvalues)]
  rw [← coe_eq_coe, hresult, hresult', hfull.outputs_eq hreduced, hfull'.outputs_eq hreduced]
  refine Groups.outputs_congr _ (fun key => rfl) fun k => ?_
  have hk := hslots k
  have hk' := hslots' k
  split at hk
  · rename_i hindex
    rw [if_pos hindex] at hk'
    exact hom.reduced_eq hG (hk.trans (hsent k)) hk'
  · rename_i hindex
    rw [if_neg hindex] at hk'
    rw [(coe_eq_zero _).mp hk, (coe_eq_zero _).mp hk']

theorem Inv.done (h : Inv job s 0) (hret : (MapReduceJobExecute job).advance s = none) :
    ∀ r < job.num_reducers, Done job job.raw s 0 r := by
  unfold Inv at h
  simp only [MapReduceJobExecute, State.advance] at hret
  split at h <;> rename_i hphase <;> rw [hphase] at hret
  · cases hret
  · cases hret
  · cases hret
  · exact fun r hr => (h.2.2 r hr).resolve_left (notMem_zero _)
  · exact h.elim
  · exact h.elim

theorem Settled.done (h : CombiningInv job s 0) (hsettled : Settled job s 0)
    (hret : (CombiningMapReduceJobExecute job).advance s = none) :
    ∃ G, Source job G ∧ (∀ k, (vals k s.emitted : Multiset V) = ∑ c, combined job k (G c)) ∧
      ∀ r < job.num_reducers, Done job (fun k => (vals k s.emitted : Multiset V)) s 0 r := by
  unfold CombiningInv at h
  simp only [CombiningMapReduceJobExecute, State.advance_combining] at hret
  split at h <;> rename_i hphase <;> rw [hphase] at hret
  · cases hret
  · cases hret
  · cases hret
  · cases hret
  · obtain ⟨G, hG, hcombining | hsent⟩ := h
    · cases hcombining.waiting
    · refine ⟨G, hG, hsent.emitted, fun r hr => ?_⟩
      rcases hsettled hphase r hr with hmem | hmem | hdone
      · exact absurd hmem (notMem_zero _)
      · exact absurd hmem (notMem_zero _)
      · exact hdone
  · exact h.elim

def word_count : Job ℕ ℕ ℕ (ℕ × ℕ) 1 where
  keyvals := [7, 7]
  keyval_core := fun i => if i = 0 then Fin.last 1 else (Fin.last 0).castSucc
  num_reducers := 1
  reducer_core := fun _ => Fin.last 1
  hash := id
  iterate := id
  mf := fun word => [(word, 1)]
  cf := fun word counts => [(word, counts.sum)]
  rf := fun word counts => [(word, counts.sum)]

def empty_reducers (_ : ℕ) : Reducer ℕ ℕ (ℕ × ℕ) := ⟨∅, []⟩

def empty_combiners (_ : Fin (1 + 1)) : Groups ℕ ℕ := ∅

/-- Until the reducer is to be reduced, with a value under way to it. -/
def until_reduce : List Phased.Label :=
  [.advance, .item 0, .advance, .item 0, .item 0, .advance, .item 0, .item 0, .advance, .item 0, .item 0,
    .item 1, .item 1, .item 2, .item 2, .item 0]

end MapReduce

end Grappa
