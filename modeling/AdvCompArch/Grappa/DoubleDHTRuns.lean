import AdvCompArch.Grappa.DoubleDHT
import AdvCompArch.Lib.Subtasks
import Mathlib.Algebra.Order.Ring.Nat

/-! # Runs of the symmetric hash join

    A call whose task has run has *seen* the calls of the other side that ran before with its key.
    What is reported, and what the loops have yet to report, is what was seen (`Inv.reports`). -/

namespace Grappa

namespace DoubleDHT

open Function Multiset Phased

variable {K : Type} {V : Direction → Type} {calls : Direction → ℕ} [DecidableEq K] {HF : K → ℕ}
  {capacity_exp : Fin 32} {loop_threshold : ℕ} {args : (d : Direction) → Fin (calls d) → K × V d}
  {s s' : State K V calls} {rest : Multiset (Item K V calls)} {x : Item K V calls}

/-- A call, and a call of the other side that it has seen. -/
abbrev Match (calls : Direction → ℕ) := (d : Direction) × Fin (calls d) × Fin (calls d.opposite)

/-- What the continuation of the call is given for it. -/
def report (args : (d : Direction) → Fin (calls d) → K × V d) (m : Match calls) : Report V calls :=
  ⟨m.1, m.2.1, (args m.1.opposite m.2.2).2⟩

/-- The calls of a side whose task has not run. -/
def Item.pending (d : Direction) : Item K V calls → Multiset (Fin (calls d))
  | .insert_lookup_iter d' _ _ f | .insert_lookup d' _ _ _ f =>
    Pi.single (M := fun d => Multiset (Fin (calls d))) d' {f} d
  | .loop _ _ _ _ _ | .leaf _ _ _ _ _ => 0

/-- The values at which a loop has yet to call its continuation. -/
def Item.owed (s : State K V calls) : Item K V calls → List (Report V calls)
  | .loop d f resultsptr start iters | .leaf d f resultsptr start iters =>
    ((((s.table d.opposite).vectors.getD resultsptr []).drop start).take iters).map fun result =>
      ⟨d, f, result⟩
  | .insert_lookup_iter _ _ _ _ | .insert_lookup _ _ _ _ _ => []

/-- A task has the arguments of its call, and a loop stays within its vector. -/
def Item.Good (HF : K → ℕ) (capacity_exp : Fin 32) (args : (d : Direction) → Fin (calls d) → K × V d)
    (s : State K V calls) : Item K V calls → Prop
  | .insert_lookup_iter d key val f => args d f = (key, val)
  | .insert_lookup d key val target f => args d f = (key, val) ∧ target = computeIndex HF capacity_exp key
  | .loop d _ resultsptr start iters | .leaf d _ resultsptr start iters =>
    start + iters ≤ ((s.table d.opposite).vectors.getD resultsptr []).length

/-- What holds between any two steps, for the calls that have run, in their order, and what they have
    seen. -/
structure Inv (HF : K → ℕ) (capacity_exp : Fin 32) (args : (d : Direction) → Fin (calls d) → K × V d)
    (s : State K V calls) (pool : Multiset (Item K V calls))
    (executed : (d : Direction) → List (Fin (calls d))) (seen : Finset (Match calls)) : Prop where
  separate : ∀ d, (s.table d).Separate (computeIndex HF capacity_exp)
  contents : ∀ d key, (s.table d).contents (computeIndex HF capacity_exp) key =
    ((executed d).filter fun f => (args d f).1 = key).map fun f => (args d f).2
  items : ∀ x ∈ pool, x.Good HF capacity_exp args s
  pending : ∀ d, (executed d : Multiset (Fin (calls d))) + (pool.map (Item.pending d)).sum =
    if s.called then Finset.univ.val else 0
  matched : ∀ m ∈ seen, m.2.1 ∈ executed m.1 ∧ m.2.2 ∈ executed m.1.opposite ∧
    (args m.1 m.2.1).1 = (args m.1.opposite m.2.2).1
  once : ∀ i ∈ executed .LEFT, ∀ j ∈ executed .RIGHT, (args .LEFT i).1 = (args .RIGHT j).1 →
    ((⟨.LEFT, i, j⟩ : Match calls) ∈ seen ↔ (⟨.RIGHT, j, i⟩ : Match calls) ∉ seen)
  reports : (s.reported : Multiset (Report V calls)) + pool.bind (fun x => (x.owed s : Multiset _)) =
    seen.val.map (report args)

variable {executed : (d : Direction) → List (Fin (calls d))} {seen : Finset (Match calls)}

/-! ### Loops over growing vectors -/

omit [DecidableEq K] in
/-- What a loop is to visit is not touched by what is added to its vector. -/
theorem owed_of_grows (hgood : x.Good HF capacity_exp args s)
    (hgrows : ∀ d p, (s.table d).vectors.getD p [] <+: (s'.table d).vectors.getD p []) :
    x.owed s' = x.owed s ∧ x.Good HF capacity_exp args s' := by
  cases x with
  | insert_lookup_iter d key val f | insert_lookup d key val target f => exact ⟨rfl, hgood⟩
  | loop d f resultsptr start iters | leaf d f resultsptr start iters =>
    obtain ⟨l, hl⟩ := hgrows d.opposite resultsptr
    have hle : start + iters ≤ ((s.table d.opposite).vectors.getD resultsptr []).length := hgood
    refine ⟨?_, ?_⟩
    · simp only [Item.owed]
      rw [← hl, List.drop_append_of_le_length (by omega),
        List.take_append_of_le_length (by rw [List.length_drop]; omega)]
    · simp only [Item.Good]
      rw [← hl, List.length_append]
      omega

/-! ### Steps -/

theorem Inv.others (h : Inv HF capacity_exp args s (x ::ₘ rest) executed seen) (s' : State K V calls)
    (hgrows : ∀ d p, (s.table d).vectors.getD p [] <+: (s'.table d).vectors.getD p []) :
    (∀ y ∈ rest, y.Good HF capacity_exp args s') ∧
      (s.reported : Multiset (Report V calls)) + ((x.owed s : Multiset _) +
        rest.bind fun y => (y.owed s' : Multiset _)) = seen.val.map (report args) := by
  have hrest : ∀ y ∈ rest, y.owed s' = y.owed s ∧ y.Good HF capacity_exp args s' :=
    fun y hy => owed_of_grows (h.items y (mem_cons_of_mem hy)) hgrows
  refine ⟨fun y hy => (hrest y hy).2, ?_⟩
  have hbind : (rest.bind fun y => (y.owed s' : Multiset (Report V calls))) =
      rest.bind fun y => (y.owed s : Multiset _) :=
    bind_congr fun y hy => by rw [(hrest y hy).1]
  rw [hbind, ← h.reports, cons_bind]

theorem Inv.pending_step (h : Inv HF capacity_exp args s (x ::ₘ rest) executed seen)
    {new : List (Item K V calls)} {d : Direction} {l : List (Fin (calls d))}
    (hl : (executed d : Multiset _) + x.pending d = (l : Multiset _) + (new.map (Item.pending d)).sum) :
    (l : Multiset _) + ((rest + new).map (Item.pending d)).sum =
      if s.called then Finset.univ.val else 0 := by
  rw [← h.pending d, map_cons, sum_cons, ← add_assoc, hl, map_add,
    sum_add, map_coe, sum_coe, add_assoc, add_comm (rest.map _).sum]

theorem Inv.step (h : Inv HF capacity_exp args s (x ::ₘ rest) executed seen) {new : List (Item K V calls)}
    (htable : s'.table = s.table) (hcalled : s'.called = s.called)
    (hitems : ∀ y ∈ new, y.Good HF capacity_exp args s')
    (hpending : ∀ d, x.pending d = (new.map (Item.pending d)).sum)
    (hreports : (s'.reported ++ new.flatMap (Item.owed s')).Perm (s.reported ++ x.owed s)) :
    Inv HF capacity_exp args s' (rest + new) executed seen := by
  obtain ⟨hrest, hold⟩ := h.others s' fun d p => by rw [htable]
  refine ⟨by rw [htable]; exact h.separate, by rw [htable]; exact h.contents, fun y hy => ?_,
    fun d => ?_, h.matched, h.once, ?_⟩
  · rcases mem_add.mp hy with hy | hy
    · exact hrest y hy
    · exact hitems y (mem_coe.mp hy)
  · rw [hcalled]
    exact h.pending_step (by rw [hpending])
  · have hnew : (s'.reported : Multiset (Report V calls)) + (new : Multiset (Item K V calls)).bind
        (fun y => (y.owed s' : Multiset _)) =
          (s.reported : Multiset _) + (x.owed s : Multiset (Report V calls)) := by
      rw [coe_bind, coe_add, coe_add]
      exact coe_eq_coe.mpr hreports
    rw [add_bind, add_comm (rest.bind _), ← add_assoc, hnew, add_assoc, hold]

theorem Inv.fresh (h : Inv HF capacity_exp args s (x ::ₘ rest) executed seen) {d : Direction}
    {f : Fin (calls d)} (hx : f ∈ x.pending d) :
    f ∉ executed d ∧ ∀ d, (executed d).Nodup := by
  have hle : ∀ d, (executed d : Multiset (Fin (calls d))) + (x.pending d) ≤ Finset.univ.val := by
    intro d
    have hsum := h.pending d
    rw [map_cons, sum_cons, ← add_assoc] at hsum
    refine le_trans (le_add_right _ _) (hsum.trans_le ?_)
    split
    · exact le_rfl
    · exact zero_le _
  have hnodup : ∀ d, ((executed d : Multiset (Fin (calls d))) + x.pending d).Nodup :=
    fun d => nodup_of_le (hle d) Finset.univ.nodup
  refine ⟨fun hf => ?_, fun d => ?_⟩
  · exact disjoint_left.mp (nodup_add.mp (hnodup d)).2.2 (mem_coe.mpr hf) hx
  · exact coe_nodup.mp (nodup_add.mp (hnodup d)).1

/-- The calls of a side that have run with a key. -/
def earlier (args : (d : Direction) → Fin (calls d) → K × V d)
    (executed : (d : Direction) → List (Fin (calls d))) (key : K) (d : Direction) :
    List (Fin (calls d)) :=
  (executed d).filter fun f => (args d f).1 = key

/-- What a call sees of them. -/
def sees (d : Direction) (f : Fin (calls d)) (l : List (Fin (calls d.opposite))) :
    Finset (Match calls) :=
  l.toFinset.image fun j => ⟨d, f, j⟩

theorem mem_sees {d : Direction} {f : Fin (calls d)} {l : List (Fin (calls d.opposite))}
    {m : Match calls} : m ∈ sees d f l ↔ ∃ j ∈ l, (⟨d, f, j⟩ : Match calls) = m := by
  simp [sees]

theorem mk_mem_sees {d : Direction} {f f' : Fin (calls d)} {l : List (Fin (calls d.opposite))}
    {j : Fin (calls d.opposite)} : (⟨d, f', j⟩ : Match calls) ∈ sees d f l ↔ f = f' ∧ j ∈ l := by
  rw [mem_sees]
  constructor
  · rintro ⟨j', hj', heq⟩
    obtain ⟨rfl, rfl⟩ : f = f' ∧ j' = j := by simpa using heq
    exact ⟨rfl, hj'⟩
  · rintro ⟨rfl, hj⟩
    exact ⟨j, hj, rfl⟩

/-- What a call sees is its own. -/
theorem direction_of_mem_sees {d : Direction} {f : Fin (calls d)} {l : List (Fin (calls d.opposite))}
    {m : Match calls} (h : m ∈ sees d f l) : m.1 = d := by
  obtain ⟨j, _, rfl⟩ := mem_sees.mp h
  rfl

omit [DecidableEq K] in
theorem sees_reports {d : Direction} {f : Fin (calls d)} {l : List (Fin (calls d.opposite))}
    (hl : l.Nodup) :
    (sees d f l).val.map (report args) =
      ((l.map fun j => (args d.opposite j).2).map fun result => (⟨d, f, result⟩ : Report V calls) :
        List _) := by
  have hinj : Function.Injective fun j => (⟨d, f, j⟩ : Match calls) := by
    intro j j' hj
    simpa using hj
  unfold sees
  rw [Finset.image_val_of_injOn hinj.injOn, List.toFinset_val, hl.dedup]
  simp [report, comp_def]

theorem Direction.opposite_ne (d : Direction) : d.opposite ≠ d := by
  cases d <;> decide

@[simp] theorem State.insert_local_self (s : State K V calls) (d : Direction) (key : K) (target : ℕ)
    (val : V d) :
    (s.insert_local d key target val).table d = (s.table d).insert_local false key target val := by
  simp [State.insert_local]

theorem State.insert_local_of_ne (s : State K V calls) {d d' : Direction} (hd : d' ≠ d) (key : K)
    (target : ℕ) (val : V d) : (s.insert_local d key target val).table d' = s.table d' := by
  simp [State.insert_local, hd]

@[simp] theorem State.insert_local_opposite (s : State K V calls) (d : Direction) (key : K)
    (target : ℕ) (val : V d) :
    (s.insert_local d key target val).table d.opposite = s.table d.opposite :=
  s.insert_local_of_ne d.opposite_ne key target val

theorem State.insert_local_grows (s : State K V calls) (d : Direction) (key : K) (val : V d)
    (d' : Direction) (p : ℕ) : (s.table d').vectors.getD p [] <+:
      ((s.insert_local d key (computeIndex HF capacity_exp key) val).table d').vectors.getD p [] := by
  by_cases hd : d' = d
  · subst hd
    rw [insert_local_self]
    exact Table.insert_local_grows p
  · rw [insert_local_of_ne s hd]

theorem exec_insert_lookup (args : (d : Direction) → Fin (calls d) → K × V d)
    {d : Direction} {key : K} {val : V d} {f : Fin (calls d)}
    {new : List (Item K V calls)}
    (hx : (Item.insert_lookup d key val (computeIndex HF capacity_exp key) f).exec HF capacity_exp
      loop_threshold s = some (s', new)) :
    s' = s.insert_local d key (computeIndex HF capacity_exp key) val ∧
    (∀ y ∈ new, y.Good HF capacity_exp args s') ∧ (∀ d', (new.map (Item.pending d')).sum = 0) ∧
    new.flatMap (Item.owed s') =
      ((s.table d.opposite).contents (computeIndex HF capacity_exp) key).map fun result => ⟨d, f, result⟩ := by
  simp only [Item.exec, State.insert_local_opposite] at hx
  unfold Table.contents
  split at hx
  · rename_i e he
    cases hx
    refine ⟨rfl, ?_, fun d' => rfl, ?_⟩
    · intro y hy
      obtain rfl := List.mem_singleton.mp hy
      simp [Item.Good]
    · simp [Item.owed]
  · rename_i he
    cases hx
    exact ⟨rfl, by simp, fun d' => rfl, by simp⟩

theorem Inv.insert_lookup {d : Direction} {key : K} {val : V d} {target : ℕ} {f : Fin (calls d)}
    (h : Inv HF capacity_exp args s (.insert_lookup d key val target f ::ₘ rest) executed seen)
    {new : List (Item K V calls)}
    (hx : (Item.insert_lookup d key val target f).exec HF capacity_exp loop_threshold s = some (s', new)) :
    Inv HF capacity_exp args s' (rest + new)
      (Function.update executed d (executed d ++ [f]))
      (seen ∪ sees d f (earlier args executed key d.opposite)) := by
  obtain ⟨hargs, rfl⟩ : args d f = (key, val) ∧ target = computeIndex HF capacity_exp key :=
    h.items _ (mem_cons_self _ _)
  obtain ⟨rfl, hgood, hpending, howed⟩ := exec_insert_lookup args hx
  obtain ⟨hf, hnodup⟩ := h.fresh (d := d) (f := f) (by simp [Item.pending])
  obtain ⟨hrest, hold⟩ := h.others _ (State.insert_local_grows s d key val)
  have hearlier : ∀ j ∈ earlier args executed key d.opposite,
      j ∈ executed d.opposite ∧ (args d.opposite j).1 = key := by
    intro j hj
    simpa [earlier] using hj
  refine ⟨fun d' => ?_, fun d' key' => ?_, fun y hy => ?_, fun d' => ?_, fun m hm => ?_, ?_, ?_⟩
  · by_cases hd : d' = d
    · subst hd
      rw [State.insert_local_self]
      exact (h.separate d').insert_local
    · rw [State.insert_local_of_ne s hd]
      exact h.separate d'
  · by_cases hd : d' = d
    · subst hd
      rw [State.insert_local_self, update_self, Table.contents_insert_local (h.separate d'),
        h.contents, List.filter_append, List.map_append]
      congr 1
      by_cases hkey : key' = key
      · simp [hkey, hargs]
      · simp [hkey, hargs, Ne.symm hkey]
    · rw [State.insert_local_of_ne s hd, update_of_ne hd]
      exact h.contents d' key'
  · rcases mem_add.mp hy with hy | hy
    · exact hrest y hy
    · exact hgood y (mem_coe.mp hy)
  · refine h.pending_step ?_
    rw [hpending]
    by_cases hd : d' = d
    · subst hd
      rw [update_self, ← coe_add]
      simp [Item.pending]
    · simp [Item.pending, hd]
  · have hmono : ∀ d' (f' : Fin (calls d')), f' ∈ executed d' →
        f' ∈ update executed d (executed d ++ [f]) d' := by
      intro d' f' hf'
      by_cases hd : d' = d
      · subst hd
        rw [update_self]
        exact List.mem_append_left _ hf'
      · rw [update_of_ne hd]
        exact hf'
    rcases Finset.mem_union.mp hm with hm | hm
    · obtain ⟨h1, h2, hkeys⟩ := h.matched m hm
      exact ⟨hmono _ _ h1, hmono _ _ h2, hkeys⟩
    · obtain ⟨j, hj, rfl⟩ := mem_sees.mp hm
      obtain ⟨hexec, hkey⟩ := hearlier j hj
      exact ⟨by simp, hmono _ _ hexec, by simp [hargs, hkey]⟩
  · intro i hi j hj hkeys
    rw [Finset.mem_union, Finset.mem_union]
    cases d with
    | LEFT =>
      rw [update_of_ne (by decide)] at hj
      rw [update_self] at hi
      have hother : (⟨.RIGHT, j, i⟩ : Match calls) ∉ sees .LEFT f (earlier args executed key .RIGHT) :=
        fun hmem => by cases direction_of_mem_sees hmem
      have hmine : (⟨.LEFT, i, j⟩ : Match calls) ∈ sees .LEFT f (earlier args executed key .RIGHT) ↔
          f = i ∧ j ∈ earlier args executed key .RIGHT := mk_mem_sees (d := .LEFT)
      by_cases hif : f = i
      · subst hif
        have hnot : (⟨.RIGHT, j, f⟩ : Match calls) ∉ seen := fun hmem => hf (h.matched _ hmem).2.1
        have hsees : j ∈ earlier args executed key .RIGHT := by
          simp [earlier, hj, ← hkeys, hargs]
        exact iff_of_true (.inr (hmine.mpr ⟨rfl, hsees⟩)) (not_or.mpr ⟨hnot, hother⟩)
      · have hi' : i ∈ executed .LEFT := by simpa [Ne.symm hif] using hi
        have honce := h.once i hi' j hj hkeys
        exact ((or_iff_left fun hmem => hif (hmine.mp hmem).1).trans honce).trans
          (not_congr (or_iff_left hother).symm)
    | RIGHT =>
      rw [update_of_ne (by decide)] at hi
      rw [update_self] at hj
      have hother : (⟨.LEFT, i, j⟩ : Match calls) ∉ sees .RIGHT f (earlier args executed key .LEFT) :=
        fun hmem => by cases direction_of_mem_sees hmem
      have hmine : (⟨.RIGHT, j, i⟩ : Match calls) ∈ sees .RIGHT f (earlier args executed key .LEFT) ↔
          f = j ∧ i ∈ earlier args executed key .LEFT := mk_mem_sees (d := .RIGHT)
      by_cases hjf : f = j
      · subst hjf
        have hnot : (⟨.LEFT, i, f⟩ : Match calls) ∉ seen := fun hmem => hf (h.matched _ hmem).2.1
        have hsees : i ∈ earlier args executed key .LEFT := by
          simp [earlier, hi, hkeys, hargs]
        exact iff_of_false (not_or.mpr ⟨hnot, hother⟩) (not_not.mpr (.inr (hmine.mpr ⟨rfl, hsees⟩)))
      · have hj' : j ∈ executed .RIGHT := by simpa [Ne.symm hjf] using hj
        have honce := h.once i hi j hj' hkeys
        exact ((or_iff_left hother).trans honce).trans
          (not_congr (or_iff_left fun hmem => hjf (hmine.mp hmem).1).symm)
  · have hdisjoint : Disjoint seen (sees d f (earlier args executed key d.opposite)) := by
      refine Finset.disjoint_left.mpr fun m hm hm' => ?_
      obtain ⟨j, _, rfl⟩ := mem_sees.mp hm'
      exact hf (h.matched _ hm).1
    have hunion : (seen ∪ sees d f (earlier args executed key d.opposite)).val =
        seen.val + (sees d f (earlier args executed key d.opposite)).val := by
      rw [← Finset.disjUnion_eq_union _ _ hdisjoint]
      rfl
    have hnodup' : (earlier args executed key d.opposite).Nodup := (hnodup d.opposite).filter _
    have hreported : (s.insert_local d key (computeIndex HF capacity_exp key) val).reported = s.reported := rfl
    rw [add_bind, coe_bind, howed, h.contents, hunion, map_add, sees_reports hnodup', ← hold, hreported]
    simp only [Item.owed, coe_nil, zero_add, add_assoc]
    rfl

/-- **Step**: the calls that have run, and what they have seen, can be told after every step. -/
theorem Inv.exec (h : Inv HF capacity_exp args s (x ::ₘ rest) executed seen) {new : List (Item K V calls)}
    (hx : x.exec HF capacity_exp loop_threshold s = some (s', new)) :
    ∃ executed' seen', Inv HF capacity_exp args s' (rest + new) executed' seen' := by
  have hgood := h.items x (mem_cons_self x rest)
  cases x with
  | insert_lookup_iter d key val f =>
    cases hx
    refine ⟨executed, seen, h.step rfl rfl ?_ (fun d' => ?_) ?_⟩
    · intro y hy
      obtain rfl := List.mem_singleton.mp hy
      exact ⟨hgood, rfl⟩
    · simp [Item.pending]
    · simp [Item.owed]
  | insert_lookup d key val target f => exact ⟨_, _, h.insert_lookup hx⟩
  | loop d f resultsptr start iterations =>
    have hbound : start + iterations ≤ ((s.table d.opposite).vectors.getD resultsptr []).length := hgood
    simp only [Item.exec] at hx
    split at hx
    · rename_i hzero
      cases hx
      refine ⟨executed, seen, h.step rfl rfl (by simp) (fun d' => rfl) ?_⟩
      simp [Item.owed, hzero]
    · split at hx
      · cases hx
        refine ⟨executed, seen, h.step rfl rfl ?_ (fun d' => rfl) ?_⟩
        · intro y hy
          obtain rfl := List.mem_singleton.mp hy
          exact hgood
        · simp [Item.owed]
      · cases hx
        refine ⟨executed, seen, h.step rfl rfl ?_ (fun d' => rfl) ?_⟩
        · intro y hy
          rcases List.mem_cons.mp hy with rfl | hy
          · show start + (iterations + 1) / 2 + iterations / 2 ≤ _
            omega
          · obtain rfl := List.mem_singleton.mp hy
            show start + (iterations + 1) / 2 ≤ _
            omega
        · -- the two halves make up the range
          have hsplit : iterations = (iterations + 1) / 2 + iterations / 2 := by omega
          simp only [Item.owed, List.flatMap_cons, List.flatMap_nil, List.append_nil]
          refine List.Perm.append_left _ ?_
          conv_rhs => rw [hsplit, List.take_add, List.map_append, List.drop_drop]
          exact List.perm_append_comm
  | leaf d f resultsptr start iters =>
    cases iters with
    | zero =>
      cases hx
      exact ⟨executed, seen, h.step rfl rfl (by simp) (fun d' => rfl) (by simp [Item.owed])⟩
    | succ iters =>
      have hbound : start + (iters + 1) ≤ ((s.table d.opposite).vectors.getD resultsptr []).length :=
        hgood
      obtain ⟨result, hresult, heq⟩ := Option.map_eq_some_iff.mp hx
      cases heq
      refine ⟨executed, seen, h.step rfl rfl ?_ (fun d' => rfl) ?_⟩
      · intro y hy
        obtain rfl := List.mem_singleton.mp hy
        have hbound' : start + 1 + iters ≤
            ((s.table d.opposite).vectors.getD resultsptr []).length := by omega
        exact hbound'
      · obtain ⟨hlt, rfl⟩ := List.getElem?_eq_some_iff.mp hresult
        simp only [Item.owed, List.flatMap_cons, List.flatMap_nil, List.append_nil]
        rw [List.drop_eq_getElem_cons hlt, List.take_succ_cons, List.map_cons, List.append_assoc]
        exact List.Perm.refl _

theorem Inv.exec_ne_none (h : Inv HF capacity_exp args s (x ::ₘ rest) executed seen) :
    x.exec HF capacity_exp loop_threshold s ≠ none := by
  have hgood := h.items x (mem_cons_self x rest)
  cases x with
  | insert_lookup_iter d key val f => simp [Item.exec]
  | insert_lookup d key val target f =>
    simp only [Item.exec]
    split <;> simp
  | loop d f resultsptr start iterations =>
    simp only [Item.exec]
    split
    · simp
    · split <;> simp
  | leaf d f resultsptr start iters =>
    cases iters with
    | zero => simp [Item.exec]
    | succ iters =>
      have hbound : start + (iters + 1) ≤ ((s.table d.opposite).vectors.getD resultsptr []).length :=
        hgood
      simp only [Item.exec, ne_eq, Option.map_eq_none_iff, List.getElem?_eq_none_iff, not_le]
      omega

/-! ### The main task -/

theorem inv_init : Inv HF capacity_exp args (init_global_DHT : State K V calls) 0 (fun _ => []) ∅ := by
  have hnone : ∀ d key target,
      ((init_global_DHT : State K V calls).table d).lookup_local key target = none :=
    fun d key target => rfl
  refine ⟨fun d => ⟨fun key e he => ?_, fun key key' e e' he => ?_⟩, fun d key => ?_, by simp,
    fun d => rfl, by simp, by simp, rfl⟩
  · rw [hnone] at he
    cases he
  · rw [hnone] at he
    cases he
  · simp [Table.contents, hnone]

theorem Inv.advance (h : Inv HF capacity_exp args s 0 executed seen) {new : List (Item K V calls)}
    (hx : (join HF capacity_exp loop_threshold args).advance s = some (s', new)) :
    Inv HF capacity_exp args s' new executed seen := by
  simp only [join] at hx
  split at hx
  · cases hx
  · rename_i hcalled
    cases hx
    refine ⟨h.separate, h.contents, fun y hy => ?_, fun d => ?_, h.matched, h.once, ?_⟩
    · rcases List.mem_append.mp (mem_coe.mp hy) with hy | hy
      · obtain ⟨f, _, rfl⟩ := List.mem_map.mp hy
        rfl
      · obtain ⟨f, _, rfl⟩ := List.mem_map.mp hy
        rfl
    · have hnone := h.pending d
      rw [if_neg hcalled, map_zero, sum_zero, add_zero] at hnone
      have hall : ∀ n : ℕ, ((List.finRange n).map fun f => ({f} : Multiset (Fin n))).sum =
          Finset.univ.val := by
        intro n
        rw [← sum_coe, ← map_coe, sum_map_singleton]
        rfl
      rw [hnone, zero_add, map_coe, sum_coe, List.map_append, List.sum_append,
        List.map_map, List.map_map]
      cases d with
      | LEFT =>
        simp [insert_lookup_iter_left, insert_lookup_iter_right, Item.pending, comp_def, hall]
      | RIGHT =>
        simp [insert_lookup_iter_left, insert_lookup_iter_right, Item.pending, comp_def, hall]
    · have hold := h.reports
      rw [zero_bind, add_zero] at hold
      rw [← hold, coe_bind, List.flatMap_eq_nil_iff.mpr fun y hy => ?_]
      · exact add_zero _
      · rcases List.mem_append.mp hy with hy | hy
        · obtain ⟨f, _, rfl⟩ := List.mem_map.mp hy
          rfl
        · obtain ⟨f, _, rfl⟩ := List.mem_map.mp hy
          rfl

/-! ### Termination -/

/-- The rank of an item: the steps of a call before its loop, and the iterations of the loop. -/
def Item.rank : Item K V calls → ℕ ×ₗ ℕ
  | .insert_lookup_iter _ _ _ _ => toLex (2, 0)
  | .insert_lookup _ _ _ _ _ => toLex (1, 0)
  | .loop _ _ _ _ iterations => toLex (0, 2 * iterations)
  | .leaf _ _ _ _ iters => toLex (0, iters)

/-- A step takes a call nearer to its loop, or a loop to its end. -/
theorem exec_lesser (ht : 0 < loop_threshold) {new : List (Item K V calls)}
    (hx : x.exec HF capacity_exp loop_threshold s = some (s', new)) :
    s'.called = s.called ∧ ∀ y ∈ new, y.rank < x.rank := by
  cases x with
  | insert_lookup_iter d key val f =>
    cases hx
    simp [Item.rank, Prod.Lex.toLex_lt_toLex]
  | insert_lookup d key val target f =>
    simp only [Item.exec] at hx
    split at hx <;> cases hx <;> exact ⟨rfl, by simp [Item.rank, Prod.Lex.toLex_lt_toLex]⟩
  | loop d f resultsptr start iterations =>
    simp only [Item.exec] at hx
    repeat' split at hx
    all_goals
      cases hx
      simp [Item.rank, Prod.Lex.toLex_lt_toLex]
    · omega
    · -- both halves have iterations
      omega
  | leaf d f resultsptr start iters =>
    cases iters with
    | zero =>
      cases hx
      simp
    | succ iters =>
      obtain ⟨result, _, heq⟩ := Option.map_eq_some_iff.mp hx
      cases heq
      simp [Item.rank, Prod.Lex.toLex_lt_toLex]

/-! ### Results -/

/-- What the continuations were given: for every left and right call with equal keys one of the two
    continuations was given the value of the other call, once; and nothing else was given. -/
def Joined (args : (d : Direction) → Fin (calls d) → K × V d) (reported : List (Report V calls)) :
    Prop :=
  ∃ seen : Finset (Match calls), (reported : Multiset _) = seen.val.map (report args) ∧
    (∀ m ∈ seen, (args m.1 m.2.1).1 = (args m.1.opposite m.2.2).1) ∧
    ∀ i j, (args .LEFT i).1 = (args .RIGHT j).1 →
      ((⟨.LEFT, i, j⟩ : Match calls) ∈ seen ↔ (⟨.RIGHT, j, i⟩ : Match calls) ∉ seen)

/-- The calls that have run, and what they have seen, can be told. -/
def Valid (HF : K → ℕ) (capacity_exp : Fin 32) (args : (d : Direction) → Fin (calls d) → K × V d)
    (s : State K V calls) (pool : Multiset (Item K V calls)) : Prop :=
  ∃ executed seen, Inv HF capacity_exp args s pool executed seen

/-- **Symmetric hash join**: in every order of the tasks, and of the iterations of their loops among
    them, all calls complete, and every match is then reported once. -/
theorem join_reports (HF : K → ℕ) (capacity_exp : Fin 32) (args : (d : Direction) → Fin (calls d) → K × V d)
    (hthreshold : 0 < loop_threshold) :
    ((join HF capacity_exp loop_threshold args).system init_global_DHT).Terminates ⟨init_global_DHT, []⟩ ∧
    ∀ t, ((join HF capacity_exp loop_threshold args).system init_global_DHT).Reachable t →
      (∀ l, (join HF capacity_exp loop_threshold args).next t l = none) →
      (join HF capacity_exp loop_threshold args).Ended t ∧ Joined args t.shared.reported := by
  let left : State K V calls → ℕ := fun t => if t.called then 0 else 1
  have hexec : ∀ (t : State K V calls) (x : Item K V calls) rest t' (new : List (Item K V calls)),
      Valid HF capacity_exp args t (x ::ₘ rest) →
      (join HF capacity_exp loop_threshold args).exec t x = some (t', new) →
      Valid HF capacity_exp args t' (rest + new) ∧
        (left t' < left t ∨ left t' = left t ∧ ∀ y ∈ new, y.rank < x.rank) := by
    rintro t x rest t' new ⟨executed, seen, h⟩ hx
    obtain ⟨hcalled, hlesser⟩ := exec_lesser hthreshold hx
    exact ⟨h.exec hx, .inr ⟨by simp only [left, hcalled], hlesser⟩⟩
  have hadvance : ∀ (t t' : State K V calls) (new : List (Item K V calls)),
      Valid HF capacity_exp args t 0 →
      (join HF capacity_exp loop_threshold args).advance t = some (t', new) →
      Valid HF capacity_exp args t' new ∧ left t' < left t := by
    rintro t t' new ⟨executed, seen, h⟩ hx
    refine ⟨⟨executed, seen, h.advance hx⟩, ?_⟩
    simp only [join] at hx
    split at hx
    · cases hx
    · rename_i hcalled
      cases hx
      simp [left, hcalled]
  have hinit : Valid HF capacity_exp args (init_global_DHT : State K V calls) 0 := ⟨_, _, inv_init⟩
  refine ⟨Program.terminates_of_rank (Valid HF capacity_exp args) Item.rank (fun t _ => left t)
    hinit hexec hadvance, fun t ht hstuck => ?_⟩
  obtain ⟨executed, seen, hinv⟩ : Valid HF capacity_exp args t.shared (t.pool : Multiset (Item K V calls)) :=
    Program.Reachable.inv (Valid HF capacity_exp args) hinit
      (fun t x rest t' new h hx => (hexec t x rest t' new h hx).1)
      (fun t t' new h hx => (hadvance t t' new h hx).1) ht
  have hended : (join HF capacity_exp loop_threshold args).Ended t := by
    refine Program.ended_of_stuck (fun x hx => ?_) hstuck
    obtain ⟨rest, hrest⟩ := exists_cons_of_mem (mem_coe.mpr hx)
    rw [hrest] at hinv
    exact hinv.exec_ne_none
  obtain ⟨hpool, hret⟩ := hended
  refine ⟨⟨hpool, hret⟩, seen, ?_, fun m hm => (hinv.matched m hm).2.2, ?_⟩
  · have hreports := hinv.reports
    rw [hpool] at hreports
    simpa using hreports
  · have hcalled : t.shared.called = true := by
      by_contra hne
      simp [join, hne] at hret
    have hall : ∀ d f, f ∈ executed d := by
      intro d f
      have hpending := hinv.pending d
      rw [hpool, if_pos hcalled] at hpending
      have hmem : f ∈ (executed d : Multiset (Fin (calls d))) := by
        have hf : f ∈ (Finset.univ : Finset (Fin (calls d))).val := Finset.mem_univ f
        rw [← hpending] at hf
        simpa using hf
      exact mem_coe.mp hmem
    exact fun i j hkeys => hinv.once i (hall .LEFT i) j (hall .RIGHT j) hkeys

/-- Two calls on each side, the first two with equal keys, in the same cell as the others. -/
def two_calls (_ : Direction) (f : Fin 2) : ℕ × ℕ := (4 * f.val, f.val)

theorem join_reports_two_calls :
    ((join id 2 16 two_calls).system
      (init_global_DHT : State ℕ (fun _ => ℕ) fun _ => 2)).Terminates ⟨init_global_DHT, []⟩ ∧
    ∀ t, ((join id 2 16 two_calls).system
        (init_global_DHT : State ℕ (fun _ => ℕ) fun _ => 2)).Reachable t →
      (∀ l, (join id 2 16 two_calls).next t l = none) →
      (join id 2 16 two_calls).Ended t ∧ Joined two_calls t.shared.reported :=
  join_reports id 2 two_calls (by omega)

end DoubleDHT

end Grappa
