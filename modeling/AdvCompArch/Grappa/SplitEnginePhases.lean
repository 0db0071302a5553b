import AdvCompArch.Grappa.SequentialEngine
import Mathlib.Data.Fintype.Basic
import Mathlib.Tactic.Abel

/-! # The phases of the split-vertex engine

    In each phase every copy is one of the copies that the sequential loop has before, or one that
    it has after, but for what the tasks and messages that are left still bring to it. -/

namespace Grappa

namespace SplitEngine

open Multiset Function SingleCopy

variable {VertexID V E S G : Type} {n : ℕ} {g : Graph VertexID E n} {s s' : State VertexID V S G n}
  {u v m : VertexID} {c c' : Fin n} {x : Vertex V S G}

/-! ### Tasks for all cores -/

section cores

variable {α M : Type} [AddCommMonoid M]

theorem sum_cores {l : Fin n → List α} {body : Fin n → α → Item VertexID V E S G n}
    {w : Item VertexID V E S G n → M} (c : Fin n) (hw : ∀ c' a, c' ≠ c → w (body c' a) = 0) :
    ((((List.finRange n).flatMap fun c => (l c).map (body c) : List (Item VertexID V E S G n)) :
      Multiset (Item VertexID V E S G n)).map w).sum = ((l c).map fun a => w (body c a)).sum := by
  have hcore : ∀ c', (((l c').map (body c')).map w).sum =
      if c' = c then ((l c).map fun a => w (body c a)).sum else 0 := by
    intro c'
    rw [List.map_map]
    by_cases hc : c' = c
    · subst hc
      rw [if_pos rfl]
      rfl
    · have hzero : (l c').map (w ∘ body c') = (l c').map fun _ => 0 :=
        List.map_congr_left fun a _ => hw c' a hc
      rw [if_neg hc, hzero]
      simp
  have hmap : (List.finRange n).map (List.sum ∘ fun c' => ((l c').map (body c')).map w) =
      (List.finRange n).map fun c' => if c' = c then ((l c).map fun a => w (body c a)).sum else 0 :=
    List.map_congr_left fun c' _ => hcore c'
  rw [map_coe, sum_coe, List.map_flatMap, List.flatMap_def, List.sum_flatten,
    List.map_map, hmap, ← List.sum_toFinset _ (List.nodup_finRange n), Finset.sum_ite_eq',
    if_pos (List.mem_toFinset.mpr (List.mem_finRange c))]

end cores

/-- The mirror that a task is for. -/
def Item.key : Item VertexID V E S G n → Multiset (Fin n × VertexID)
  | .collect c v | .scatter c v | .send c v => {(c, v)}
  | _ => 0

/-- All mirrors. -/
def Graph.mirrors (g : Graph VertexID E n) : List (Fin n × VertexID) :=
  (List.finRange n).flatMap fun c => (g.l_verts c).map (Prod.mk c)

theorem forMirrors_eq (body : Fin n → VertexID → Item VertexID V E S G n) :
    g.forMirrors body = g.mirrors.map fun p => body p.1 p.2 := by
  simp [Graph.forMirrors, Graph.mirrors, List.map_flatMap, comp_def]

theorem nodup_pairs : g.mirrors.Nodup := by
  refine List.nodup_flatMap.mpr ⟨fun c _ => ?_, ?_⟩
  · exact (g.nodup_verts c).map (Prod.mk_right_injective c)
  · refine (List.nodup_finRange n).imp fun {c c'} hne => ?_
    intro p hp hp'
    obtain ⟨v, -, rfl⟩ := List.mem_map.mp hp
    obtain ⟨v', -, heq⟩ := List.mem_map.mp hp'
    exact hne (congrArg Prod.fst heq).symm

theorem nodup_forMirrors {body : Fin n → VertexID → Item VertexID V E S G n}
    (hkey : ∀ c v, (body c v).key = {(c, v)}) :
    ((g.forMirrors body : Multiset (Item VertexID V E S G n)).bind Item.key).Nodup := by
  have heq : (g.forMirrors body : Multiset (Item VertexID V E S G n)).bind Item.key =
      (g.mirrors : Multiset (Fin n × VertexID)) := by
    rw [forMirrors_eq, ← map_coe, bind_map]
    simp only [hkey]
    exact bind_singleton _ id |>.trans (map_id _)
  rw [heq]
  exact nodup_pairs

theorem mem_forMirrors {body : Fin n → VertexID → Item VertexID V E S G n}
    {y : Item VertexID V E S G n} :
    y ∈ g.forMirrors body ↔ ∃ c, ∃ v ∈ g.l_verts c, y = body c v := by
  simp [Graph.forMirrors, eq_comm]

section key

variable {y : Item VertexID V E S G n} {rest : Multiset (Item VertexID V E S G n)}

theorem notMem_rest (h : ((y ::ₘ rest).bind Item.key).Nodup) (hy : y.key = {(c, v)}) :
    y ∉ rest := by
  rw [cons_bind, hy, singleton_add, nodup_cons] at h
  intro hmem
  refine h.1 (mem_bind.mpr ⟨y, hmem, ?_⟩)
  rw [hy]
  exact mem_singleton_self _

theorem mem_of_mem_cons {z : Item VertexID V E S G n} (h : z ∈ y ::ₘ rest) (hne : z ≠ y) :
    z ∈ rest :=
  (mem_cons.mp h).resolve_left hne

theorem nodup_rest (h : ((y ::ₘ rest).bind Item.key).Nodup) : (rest.bind Item.key).Nodup := by
  rw [cons_bind] at h
  exact (nodup_add.mp h).2.1

/-- The master that a task is for. -/
def Item.turn : Item VertexID V E S G n → Multiset VertexID
  | .apply m => {m}
  | _ => 0

theorem nodup_turns : (((g.masters.map .apply : List (Item VertexID V E S G n)) :
    Multiset (Item VertexID V E S G n)).bind Item.turn).Nodup := by
  have heq : ((g.masters.map .apply : List (Item VertexID V E S G n)) :
      Multiset (Item VertexID V E S G n)).bind Item.turn = (g.masters : Multiset VertexID) := by
    rw [← map_coe, bind_map]
    exact (bind_singleton _ id).trans (map_id _)
  rw [heq]
  exact g.nodup_masters

theorem turns_rest (h : ((y ::ₘ rest).bind Item.turn).Nodup) : (rest.bind Item.turn).Nodup := by
  rw [cons_bind] at h
  exact (nodup_add.mp h).2.1

theorem notMem_turns (h : ((.apply v ::ₘ rest).bind Item.turn).Nodup) : .apply v ∉ rest := by
  rw [cons_bind, Item.turn, singleton_add, nodup_cons] at h
  exact fun hy => h.1 (mem_bind.mpr ⟨_, hy, mem_singleton_self v⟩)

/-- The message that makes a mirror what its master is. -/
def copyOf (c : Fin n) (v : VertexID) (x : Vertex V S G) : Item VertexID V E S G n :=
  .copy c v x.data x.active_minor_step x.prog

end key

theorem mem_masters_of_mirror (hv : v ∈ g.l_verts c) : v ∈ g.masters :=
  (g.mem_masters v).mpr ⟨c, hv⟩

variable [DecidableEq VertexID]

theorem sum_mirrors {M : Type} [AddCommMonoid M] {body : Fin n → VertexID → Item VertexID V E S G n}
    {w : Item VertexID V E S G n → M} {f : Fin n → M}
    (hw : ∀ c u, w (body c u) = if u = v then f c else 0) (hf : ∀ c, v ∉ g.l_verts c → f c = 0) :
    ((g.forMirrors body : Multiset (Item VertexID V E S G n)).map w).sum =
      ((List.finRange n).map f).sum := by
  have hcore : ∀ c, (((g.l_verts c).map (body c)).map w).sum = f c := by
    intro c
    have hmap : ((g.l_verts c).map (body c)).map w =
        (g.l_verts c).map fun u => if u = v then f c else 0 := by
      rw [List.map_map]
      exact List.map_congr_left fun u _ => hw c u
    rw [hmap, ← List.sum_toFinset _ (g.nodup_verts c), Finset.sum_ite_eq']
    split
    · rfl
    · rename_i hnot
      exact (hf c fun hmem => hnot (List.mem_toFinset.mpr hmem)).symm
  rw [map_coe, sum_coe, Graph.forMirrors, List.map_flatMap, List.flatMap_def,
    List.sum_flatten, List.map_map]
  congr 1
  exact List.map_congr_left fun c _ => hcore c

theorem received_of_notMem {M : Type} [AddCommMonoid M] {f : Edge VertexID E → M}
    (hv : v ∉ g.l_verts c) : received (g.l_edges c) f v = 0 :=
  received_eq_zero fun e he hdst =>
    absurd ((g.mem_verts c v).mpr ⟨e, he, .inr hdst⟩) hv

theorem received_edges {M : Type} [AddCommMonoid M] {f : Edge VertexID E → M} :
    received g.edges f v = ((List.finRange n).map fun c => received (g.l_edges c) f v).sum :=
  received_flatMap _ _

/-! ### Copies -/

theorem setMaster_master :
    (s.setMaster m x).master v = if v = m then x else s.master v :=
  update_apply ..

@[simp] theorem setMaster_mirror : (s.setMaster m x).mirror = s.mirror := rfl

theorem setMirror_self : (s.setMirror c v x).mirror c v = x := by
  simp [State.setMirror]

theorem setMirror_ne (h : ¬(c' = c ∧ u = v)) :
    (s.setMirror c v x).mirror c' u = s.mirror c' u := by
  simp only [State.setMirror, update_apply]
  by_cases hc : c' = c
  · subst hc
    have hu : u ≠ v := fun hu => h ⟨rfl, hu⟩
    simp [update_of_ne hu]
  · simp [hc]

@[simp] theorem setMirror_master : (s.setMirror c v x).master = s.master := rfl

@[simp] theorem activate_mirror : (s.activate m).mirror = s.mirror := by
  unfold State.activate
  split <;> rfl

@[simp] theorem deactivate_mirror : (s.deactivate m).mirror = s.mirror := by
  unfold State.deactivate
  split <;> rfl

theorem activate_master :
    (s.activate m).master v = { s.master v with active := (s.master v).active || v = m } := by
  unfold State.activate
  split
  · rename_i h
    by_cases hv : v = m
    · subst hv
      simp [← h]
    · simp [hv]
  · show (s.setMaster m _).master v = _
    rw [setMaster_master]
    by_cases hv : v = m
    · subst hv
      simp
    · simp [hv]

theorem deactivate_master :
    (s.deactivate m).master v = { s.master v with active := (s.master v).active && v ≠ m } := by
  unfold State.deactivate
  split
  · show (s.setMaster m _).master v = _
    rw [setMaster_master]
    by_cases hv : v = m
    · subst hv
      simp
    · simp [hv]
  · rename_i h
    by_cases hv : v = m
    · subst hv
      simp only [Bool.not_eq_true] at h
      simp [← h]
    · simp [hv]

/-! ### The number of active masters -/

/-- `total_active` counts the active masters. -/
def Counted (g : Graph VertexID E n) (s : State VertexID V S G n) : Prop :=
  s.total_active = ((g.masters.toFinset.filter fun v => (s.master v).active = true).card : ℤ)

theorem Counted.congr (h : Counted g s) (hactive : ∀ v, (s'.master v).active = (s.master v).active)
    (htotal : s'.total_active = s.total_active) : Counted g s' := by
  unfold Counted
  rw [htotal, h]
  simp only [hactive]

theorem Counted.activate (h : Counted g s) (hm : m ∈ g.masters) : Counted g (s.activate m) := by
  by_cases hact : (s.master m).active = true
  · rwa [State.activate, if_pos hact]
  · have hset : (g.masters.toFinset.filter fun v => ((s.activate m).master v).active = true) =
        insert m (g.masters.toFinset.filter fun v => (s.master v).active = true) := by
      ext v
      by_cases hv : v = m
      · subst hv
        simp [activate_master, hm]
      · simp [activate_master, hv]
    have htotal : (s.activate m).total_active = s.total_active + 1 := by
      rw [State.activate, if_neg hact]
    unfold Counted at h ⊢
    rw [hset, Finset.card_insert_of_notMem (by simpa using fun _ => hact), htotal]
    push_cast
    omega

theorem Counted.deactivate (h : Counted g s) (hm : m ∈ g.masters) : Counted g (s.deactivate m) := by
  by_cases hact : (s.master m).active = true
  · have hset : (g.masters.toFinset.filter fun v => ((s.deactivate m).master v).active = true) =
        (g.masters.toFinset.filter fun v => (s.master v).active = true).erase m := by
      ext v
      by_cases hv : v = m
      · subst hv
        simp [deactivate_master]
      · simp [deactivate_master, hv]
    have hcard : (g.masters.toFinset.filter fun v =>
          ((s.deactivate m).master v).active = true).card + 1 =
        (g.masters.toFinset.filter fun v => (s.master v).active = true).card := by
      rw [hset]
      exact Finset.card_erase_add_one (by simpa using ⟨hm, hact⟩)
    have htotal : (s.deactivate m).total_active = s.total_active - 1 := by
      rw [State.deactivate, if_pos hact]
    unfold Counted at h ⊢
    rw [← hcard] at h
    rw [htotal]
    push_cast at h
    omega
  · rwa [State.deactivate, if_neg hact]

theorem Counted.pos_iff (h : Counted g s) :
    0 < s.total_active ↔ ∃ v ∈ g.masters, (s.master v).active = true := by
  unfold Counted at h
  rw [h, Int.natCast_pos, Finset.card_pos]
  constructor
  · rintro ⟨v, hv⟩
    obtain ⟨hmem, hact⟩ := Finset.mem_filter.mp hv
    exact ⟨v, List.mem_toFinset.mp hmem, hact⟩
  · rintro ⟨v, hmem, hact⟩
    exact ⟨v, Finset.mem_filter.mpr ⟨List.mem_toFinset.mpr hmem, hact⟩⟩

section phases

variable [AddCommMonoid G] {prog : Program VertexID V E S G} {σ : VertexID → Vertex V S G}
  {pool rest : Multiset (Item VertexID V E S G n)} {y : Item VertexID V E S G n}

/-! ### Gathering -/

namespace Item

/-- What a task adds to the cache of a mirror. -/
def gathers (prog : Program VertexID V E S G) (σ : VertexID → Vertex V S G) (c : Fin n)
    (v : VertexID) : Item VertexID V E S G n → G
  | .gather c' e => if c' = c ∧ e.dst = v then gathered prog σ e else 0
  | _ => 0

end Item

/-- All are active, and the caches of the mirrors are filled. -/
structure Gathering (prog : Program VertexID V E S G) (g : Graph VertexID E n)
    (σ : VertexID → Vertex V S G) (s : State VertexID V S G n)
    (pool : Multiset (Item VertexID V E S G n)) : Prop where
  items : ∀ y ∈ pool, ∃ c, ∃ e ∈ g.l_edges c, y = .gather c e
  master : ∀ v ∈ g.masters, s.master v = σ v
  mirror : ∀ c, ∀ v ∈ g.l_verts c, ∃ cache,
    s.mirror c v = ⟨(σ v).data, true, false, ⟨(σ v).prog.state, cache⟩⟩ ∧
      cache + (pool.map (Item.gathers prog σ c v)).sum =
        received (g.l_edges c) (gathered prog σ) v

theorem Gathering.start (hmaster : ∀ v ∈ g.masters, s.master v = σ v)
    (hmirror : ∀ c, ∀ v ∈ g.l_verts c, s.mirror c v =
      ⟨(σ v).data, true, false, ⟨(σ v).prog.state, 0⟩⟩) :
    Gathering prog g σ s
      ((List.finRange n).flatMap fun c => (g.l_edges c).map (.gather c) :
        List (Item VertexID V E S G n)) := by
  constructor
  case items =>
    intro y hy
    obtain ⟨c, -, hy⟩ := List.mem_flatMap.mp (mem_coe.mp hy)
    obtain ⟨e, he, rfl⟩ := List.mem_map.mp hy
    exact ⟨c, e, he, rfl⟩
  case master => exact hmaster
  case mirror =>
    intro c v hv
    refine ⟨0, hmirror c v hv, ?_⟩
    rw [zero_add, sum_cores c]
    · simp [received, Item.gathers]
    · intro c' e hc
      exact if_neg fun h => hc h.1

theorem Gathering.exec (h : Gathering prog g σ s (y ::ₘ rest)) :
    Gathering prog g σ (y.exec prog g true s).1
      (rest + ((y.exec prog g true s).2 : List (Item VertexID V E S G n))) := by
  obtain ⟨c, e, he, rfl⟩ := h.items y (mem_cons_self _ _)
  have hdst : e.dst ∈ g.l_verts c := (g.mem_verts c _).mpr ⟨e, he, .inr rfl⟩
  have hsrc : e.src ∈ g.l_verts c := (g.mem_verts c _).mpr ⟨e, he, .inl rfl⟩
  obtain ⟨cache, hcopy, hsum⟩ := h.mirror c e.dst hdst
  obtain ⟨cache', hcopy', -⟩ := h.mirror c e.src hsrc
  have hexec : (Item.gather c e).exec prog g true s =
      (s.setMirror c e.dst ⟨(σ e.dst).data, true, false,
        ⟨(σ e.dst).prog.state, cache + gathered prog σ e⟩⟩, []) := by
    simp [Item.exec, hcopy, hcopy', Prog.post_delta, gathered]
  rw [hexec]
  simp only [coe_nil, add_zero]
  constructor
  case items => exact fun y hy => h.items y (mem_cons_of_mem hy)
  case master => exact h.master
  case mirror =>
    intro c' v hv
    by_cases hat : c' = c ∧ v = e.dst
    · obtain ⟨rfl, rfl⟩ := hat
      refine ⟨_, setMirror_self, ?_⟩
      rw [← hsum, map_cons, sum_cons, Item.gathers, if_pos ⟨rfl, rfl⟩, add_assoc]
    · obtain ⟨old, hold, hsum'⟩ := h.mirror c' v hv
      have hother : ¬(c = c' ∧ e.dst = v) := fun h => hat ⟨h.1.symm, h.2.symm⟩
      refine ⟨old, (setMirror_ne hat).trans hold, ?_⟩
      rw [← hsum', map_cons, sum_cons, Item.gathers, if_neg hother, zero_add]

/-! ### Collecting -/

/-- What a task or message brings to the cache of a master. -/
def Item.collects (prog : Program VertexID V E S G) (g : Graph VertexID E n)
    (σ : VertexID → Vertex V S G) (v : VertexID) : Item VertexID V E S G n → G
  | .collect c u => if u = v then received (g.l_edges c) (gathered prog σ) v else 0
  | .total u accum => if u = v then accum else 0
  | _ => 0

/-- The caches of the mirrors are sent to the masters. -/
structure Collecting (prog : Program VertexID V E S G) (g : Graph VertexID E n)
    (σ : VertexID → Vertex V S G) (s : State VertexID V S G n)
    (pool : Multiset (Item VertexID V E S G n)) : Prop where
  items : ∀ y ∈ pool, (∃ c, ∃ v ∈ g.l_verts c, y = .collect c v) ∨
    ∃ v ∈ g.masters, ∃ accum, y = .total v accum
  keys : (pool.bind Item.key).Nodup
  full : ∀ c v, .collect c v ∈ pool → s.mirror c v = ⟨(σ v).data, true, false,
    ⟨(σ v).prog.state, received (g.l_edges c) (gathered prog σ) v⟩⟩
  empty : ∀ c, ∀ v ∈ g.l_verts c, .collect c v ∉ pool →
    s.mirror c v = ⟨(σ v).data, false, false, ⟨(σ v).prog.state, 0⟩⟩
  master : ∀ v ∈ g.masters, ∃ cache,
    s.master v = { σ v with prog := ⟨(σ v).prog.state, cache⟩ } ∧
      cache + (pool.map (Item.collects prog g σ v)).sum =
        (σ v).prog.cache + received g.edges (gathered prog σ) v

theorem Gathering.collect (h : Gathering prog g σ s 0) :
    Collecting prog g σ s (g.forMirrors .collect : List (Item VertexID V E S G n)) := by
  have hmem : ∀ c, ∀ v ∈ g.l_verts c, Item.collect c v ∈ g.forMirrors
      (.collect : Fin n → VertexID → Item VertexID V E S G n) :=
    fun c v hv => mem_forMirrors.mpr ⟨c, v, hv, rfl⟩
  constructor
  case items => exact fun y hy => .inl (mem_forMirrors.mp (mem_coe.mp hy))
  case keys => exact nodup_forMirrors fun _ _ => rfl
  case full =>
    intro c v hy
    obtain ⟨c', v', hv, heq⟩ := mem_forMirrors.mp (mem_coe.mp hy)
    obtain ⟨rfl, rfl⟩ := Item.collect.inj heq
    obtain ⟨cache, hcopy, hsum⟩ := h.mirror c v hv
    rw [map_zero, sum_zero, add_zero] at hsum
    rw [hcopy, hsum]
  case empty => exact fun c v hv hnot => absurd (hmem c v hv) hnot
  case master =>
    intro v hv
    refine ⟨_, h.master v hv, ?_⟩
    rw [received_edges, sum_mirrors (fun _ _ => rfl) fun c hc => received_of_notMem hc]

theorem Collecting.exec (h : Collecting prog g σ s (y ::ₘ rest)) :
    Collecting prog g σ (y.exec prog g true s).1
      (rest + ((y.exec prog g true s).2 : List (Item VertexID V E S G n))) := by
  rcases h.items y (mem_cons_self _ _) with ⟨c, v, hv, rfl⟩ | ⟨v, hv, accum, rfl⟩
  · have hfull := h.full c v (mem_cons_self _ _)
    have hrest := notMem_rest h.keys rfl
    have hexec : (Item.collect c v).exec prog g true s =
        (s.setMirror c v ⟨(σ v).data, false, false, ⟨(σ v).prog.state, 0⟩⟩,
          [.total v (received (g.l_edges c) (gathered prog σ) v)]) := by
      simp [Item.exec, hfull, Prog.reset]
    rw [hexec]
    simp only [coe_singleton]
    constructor
    case items =>
      intro y hy
      rcases mem_add.mp hy with hy | hy
      · exact h.items y (mem_cons_of_mem hy)
      · exact .inr ⟨v, mem_masters_of_mirror hv, _, mem_singleton.mp hy⟩
    case keys =>
      rw [add_bind, singleton_bind]
      exact (add_zero (rest.bind Item.key)).symm ▸ nodup_rest h.keys
    case full =>
      intro c' u hy
      rcases mem_add.mp hy with hold | hnew
      · have hne : ¬(c' = c ∧ u = v) := by
          rintro ⟨rfl, rfl⟩
          exact hrest hold
        rw [setMirror_ne hne]
        exact h.full c' u (mem_cons_of_mem hold)
      · cases mem_singleton.mp hnew
    case empty =>
      intro c' u hu hnot
      by_cases hat : c' = c ∧ u = v
      · obtain ⟨rfl, rfl⟩ := hat
        exact setMirror_self
      · rw [setMirror_ne hat]
        refine h.empty c' u hu fun hy => ?_
        rcases mem_cons.mp hy with heq | hy
        · obtain ⟨rfl, rfl⟩ := Item.collect.inj heq
          exact hat ⟨rfl, rfl⟩
        · exact hnot (mem_add.mpr (.inl hy))
    case master =>
      intro u hu
      obtain ⟨cache, hcopy, hsum⟩ := h.master u hu
      refine ⟨cache, hcopy, ?_⟩
      rw [← hsum, map_add, sum_add, map_cons, sum_cons,
        map_singleton, sum_singleton, add_comm (rest.map _).sum]
      congr 2
      simp only [Item.collects]
      split
      · rename_i heq
        rw [heq]
      · rfl
  · -- the message of a mirror
    have hexec : (Item.total v accum).exec prog g true s =
        (s.setMaster v { s.master v with prog := (s.master v).prog.post_delta accum }, []) := rfl
    rw [hexec]
    simp only [coe_nil, add_zero]
    constructor
    case items => exact fun y hy => h.items y (mem_cons_of_mem hy)
    case keys => exact nodup_rest h.keys
    case full => exact fun c u hy => h.full c u (mem_cons_of_mem hy)
    case empty =>
      intro c u hu hnot
      refine h.empty c u hu fun hy => ?_
      rcases mem_cons.mp hy with heq | hy
      · cases heq
      · exact hnot hy
    case master =>
      intro u hu
      obtain ⟨cache, hcopy, hsum⟩ := h.master u hu
      rw [map_cons, sum_cons] at hsum
      rw [setMaster_master]
      by_cases huv : u = v
      · subst huv
        refine ⟨cache + accum, ?_, ?_⟩
        · rw [if_pos rfl, hcopy]
          rfl
        · rw [← hsum, Item.collects, if_pos rfl, add_assoc]
      · have hvu : ¬v = u := fun h => huv h.symm
        refine ⟨cache, ?_, ?_⟩
        · rw [if_neg huv, hcopy]
        · rw [← hsum, Item.collects, if_neg hvu, zero_add]

/-! ### Applying -/

/-- A mirror after its master's turn. -/
def copied (x : Vertex V S G) : Vertex V S G := { x with active := false, prog := x.prog.reset }

/-- A master after its turn. -/
def mastered (x : Vertex V S G) : Vertex V S G := { x with active_minor_step := false }

/-- The masters take their turns, and copy what they become. -/
structure Applying (prog : Program VertexID V E S G) (g : Graph VertexID E n)
    (A : VertexID → Vertex V S G) (s : State VertexID V S G n)
    (pool : Multiset (Item VertexID V E S G n)) : Prop where
  items : ∀ y ∈ pool, (∃ v ∈ g.masters, y = .apply v) ∨
    ∃ c, ∃ v ∈ g.l_verts c, y = copyOf c v (applied prog v (A v))
  turns : (pool.bind Item.turn).Nodup
  before : ∀ v, .apply v ∈ pool → s.master v = A v
  after : ∀ v ∈ g.masters, .apply v ∉ pool → s.master v = mastered (applied prog v (A v))
  inactive : ∀ c, ∀ v ∈ g.l_verts c, (s.mirror c v).active = false
  mirror : ∀ c, ∀ v ∈ g.l_verts c, s.mirror c v = copied (applied prog v (A v)) ∨
    copyOf c v (applied prog v (A v)) ∈ pool ∨ .apply v ∈ pool ∧ (A v).active = true

section applying

variable {A : VertexID → Vertex V S G} (hminor : ∀ v, (A v).active_minor_step = false)

include hminor

omit [DecidableEq VertexID] in
theorem Applying.start (hmaster : ∀ v ∈ g.masters, s.master v = A v)
    (hmirror : ∀ c, ∀ v ∈ g.l_verts c, ∃ cache,
      s.mirror c v = ⟨(A v).data, false, false, ⟨(A v).prog.state, cache⟩⟩ ∧
        ((A v).active = false → cache = 0)) :
    Applying prog g A s (g.masters.map .apply : List (Item VertexID V E S G n)) := by
  have hmem : ∀ v ∈ g.masters, (Item.apply v : Item VertexID V E S G n) ∈ g.masters.map .apply :=
    fun v hv => List.mem_map_of_mem hv
  constructor
  case items =>
    intro y hy
    obtain ⟨v, hv, rfl⟩ := List.mem_map.mp hy
    exact .inl ⟨v, hv, rfl⟩
  case turns => exact nodup_turns
  case before =>
    intro v hy
    obtain ⟨w, hw, heq⟩ := List.mem_map.mp hy
    obtain rfl := Item.apply.inj heq
    exact hmaster w hw
  case after => exact fun v hv hnot => absurd (hmem v hv) hnot
  case inactive =>
    intro c v hv
    obtain ⟨cache, hcopy, -⟩ := hmirror c v hv
    rw [hcopy]
  case mirror =>
    intro c v hv
    by_cases hact : (A v).active = true
    · exact .inr (.inr ⟨hmem v (mem_masters_of_mirror hv), hact⟩)
    · -- nothing happens to an inactive vertex
      obtain ⟨cache, hcopy, hcache⟩ := hmirror c v hv
      have hsame : applied prog v (A v) = A v := if_neg hact
      simp only [Bool.not_eq_true] at hact
      refine .inl ?_
      rw [hsame, hcopy, hcache hact, copied, Prog.reset, ← hminor v]

theorem Applying.exec_active (h : Applying prog g A s (.apply v ::ₘ rest))
    (hact : (A v).active = true) :
    Applying prog g A ((Item.apply v).exec prog g true s).1
      (rest + (((Item.apply v).exec prog g true s).2 : List (Item VertexID V E S G n))) := by
  have hbefore := h.before v (mem_cons_self _ _)
  have hrest := notMem_turns h.turns
  have hdeact : (s.deactivate v).master v = { A v with active := false } := by
    rw [deactivate_master, hbefore]
    simp
  have hother : ∀ u, u ≠ v → (s.deactivate v).master u = s.master u := by
    intro u hu
    rw [deactivate_master]
    simp [hu]
  have hexec : (Item.apply v).exec prog g true s =
      ((s.deactivate v).setMaster v (mastered (applied prog v (A v))),
        (g.mirror_verts v).map fun c => copyOf c v (applied prog v (A v))) := by
    simp [Item.exec, hbefore, hact, hdeact, applied, mastered, hminor, copyOf]
  rw [hexec]
  constructor
  case items =>
    intro y hy
    rcases mem_add.mp hy with hy | hy
    · exact h.items y (mem_cons_of_mem hy)
    · obtain ⟨c, hc, rfl⟩ := List.mem_map.mp hy
      exact .inr ⟨c, v, (g.mem_mirrors v c).mp hc, rfl⟩
  case turns =>
    have hnew : ((((g.mirror_verts v).map fun c => copyOf c v (applied prog v (A v))) :
        List (Item VertexID V E S G n)) : Multiset (Item VertexID V E S G n)).bind Item.turn = 0 := by
      rw [← map_coe, bind_map]
      exact bind_zero _
    rw [add_bind, hnew, add_zero]
    exact turns_rest h.turns
  case before =>
    intro u hy
    rcases mem_add.mp hy with hy | hy
    · have hu : u ≠ v := fun hu => hrest (hu ▸ hy)
      rw [setMaster_master, if_neg hu, hother u hu]
      exact h.before u (mem_cons_of_mem hy)
    · obtain ⟨c, -, heq⟩ := List.mem_map.mp hy
      cases heq
  case after =>
    intro u hu hnot
    rw [setMaster_master]
    by_cases huv : u = v
    · rw [if_pos huv, huv]
    · rw [if_neg huv, hother u huv]
      refine h.after u hu fun hy => hnot (mem_add.mpr (.inl ?_))
      exact mem_of_mem_cons hy fun heq => huv (Item.apply.inj heq)
  case inactive =>
    intro c u hu
    rw [setMaster_mirror, deactivate_mirror]
    exact h.inactive c u hu
  case mirror =>
    intro c u hu
    rw [setMaster_mirror, deactivate_mirror]
    rcases h.mirror c u hu with hcopy | hy | ⟨hy, hu'⟩
    · exact .inl hcopy
    · refine .inr (.inl (mem_add.mpr (.inl ?_)))
      exact mem_of_mem_cons hy fun heq => by cases heq
    · by_cases huv : u = v
      · -- the master has just taken its turn
        subst huv
        refine .inr (.inl (mem_add.mpr (.inr (mem_coe.mpr ?_))))
        exact List.mem_map.mpr ⟨c, (g.mem_mirrors u c).mpr hu, rfl⟩
      · refine .inr (.inr ⟨mem_add.mpr (.inl ?_), hu'⟩)
        exact mem_of_mem_cons hy fun heq => huv (Item.apply.inj heq)

theorem Applying.exec_inactive (h : Applying prog g A s (.apply v ::ₘ rest))
    (hact : ¬(A v).active = true) :
    Applying prog g A ((Item.apply v).exec prog g true s).1
      (rest + (((Item.apply v).exec prog g true s).2 : List (Item VertexID V E S G n))) := by
  have hbefore := h.before v (mem_cons_self _ _)
  have hsame : applied prog v (A v) = A v := if_neg hact
  have hexec : (Item.apply v).exec prog g true s = (s, []) := by
    simp [Item.exec, hbefore, hact]
  rw [hexec]
  simp only [coe_nil, add_zero]
  constructor
  case items => exact fun y hy => h.items y (mem_cons_of_mem hy)
  case turns => exact turns_rest h.turns
  case before => exact fun u hy => h.before u (mem_cons_of_mem hy)
  case after =>
    intro u hu hnot
    by_cases huv : u = v
    · rw [huv, hsame, hbefore, mastered, ← hminor v]
    · refine h.after u hu fun hy => hnot ?_
      exact mem_of_mem_cons hy fun heq => huv (Item.apply.inj heq)
  case inactive => exact h.inactive
  case mirror =>
    intro c u hu
    rcases h.mirror c u hu with hcopy | hy | ⟨hy, hu'⟩
    · exact .inl hcopy
    · refine .inr (.inl ?_)
      exact mem_of_mem_cons hy fun heq => by cases heq
    · have huv : u ≠ v := fun huv => hact (huv ▸ hu')
      refine .inr (.inr ⟨?_, hu'⟩)
      exact mem_of_mem_cons hy fun heq => huv (Item.apply.inj heq)

omit hminor in
theorem Applying.exec_copy (hv : v ∈ g.l_verts c)
    (h : Applying prog g A s (copyOf c v (applied prog v (A v)) ::ₘ rest)) :
    Applying prog g A ((copyOf c v (applied prog v (A v))).exec prog g true s).1
      (rest + ((copyOf c v (applied prog v (A v))).exec prog g true s).2) := by
  have hexec : (copyOf c v (applied prog v (A v))).exec prog g true s =
      (s.setMirror c v (copied (applied prog v (A v))), []) := by
    simp [copyOf, Item.exec, copied, h.inactive c v hv]
  rw [hexec]
  simp only [coe_nil, add_zero]
  constructor
  case items => exact fun y hy => h.items y (mem_cons_of_mem hy)
  case turns => exact turns_rest h.turns
  case before => exact fun u hy => h.before u (mem_cons_of_mem hy)
  case after =>
    intro u hu hnot
    refine h.after u hu fun hy => hnot ?_
    exact mem_of_mem_cons hy fun heq => by cases heq
  case inactive =>
    intro c' u hu
    by_cases hat : c' = c ∧ u = v
    · obtain ⟨rfl, rfl⟩ := hat
      rw [setMirror_self]
      rfl
    · rw [setMirror_ne hat]
      exact h.inactive c' u hu
  case mirror =>
    intro c' u hu
    by_cases hat : c' = c ∧ u = v
    · obtain ⟨rfl, rfl⟩ := hat
      exact .inl setMirror_self
    · rw [setMirror_ne hat]
      rcases h.mirror c' u hu with hcopy | hy | ⟨hy, hu'⟩
      · exact .inl hcopy
      · refine .inr (.inl (mem_of_mem_cons hy fun heq => hat ?_))
        injection heq with hc hu
        exact ⟨hc, hu⟩
      · refine .inr (.inr ⟨?_, hu'⟩)
        exact mem_of_mem_cons hy fun heq => by cases heq

theorem Applying.exec (h : Applying prog g A s (y ::ₘ rest)) :
    Applying prog g A (y.exec prog g true s).1
      (rest + ((y.exec prog g true s).2 : List (Item VertexID V E S G n))) := by
  rcases h.items y (mem_cons_self _ _) with ⟨v, hv, rfl⟩ | ⟨c, v, hv, rfl⟩
  · by_cases hact : (A v).active = true
    · exact h.exec_active hminor hact
    · exact h.exec_inactive hminor hact
  · exact h.exec_copy hv

end applying

end phases

end SplitEngine

end Grappa
