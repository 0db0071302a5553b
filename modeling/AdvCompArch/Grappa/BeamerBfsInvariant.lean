import AdvCompArch.Grappa.BeamerBfs
import AdvCompArch.Lib.Census
import Mathlib.Data.Int.CardIntervalMod

/-! # The levels of the breadth-first search

    In level `k` the vertices within distance `k` are found, and others only with a parent at
    distance `k` (`Base`); every edge out of the layer leads to a vertex that is found or is looked
    after by an item of the pool (`Level`).  `Counts` is the bookkeeping of the completion event in
    the runs where it is `Held`. -/

namespace Grappa

namespace BeamerBfs

open Function Multiset

variable {E : Type} {g : AppGraph E} {n : ℕ} {first : Fin (n + 1)} {loop_threshold : ℕ}
  {root : g.V} {k : ℕ} {s s' : State g.nv n} {rest : Multiset (Item g.nv n E)} {x : Item g.nv n E}

/-! ### The bags -/

theorem card_core_le (c : Fin (n + 1)) :
    (Finset.univ.filter fun v => vertex_core g n first v = c).card ≤ capacity g n := by
  have hinj : (Finset.univ.filter fun v => vertex_core g n first v = c).card ≤
      ((Finset.range g.nv).filter (· ≡ c.val + (n + 1 - first.val) [MOD n + 1])).card := by
    refine Finset.card_le_card_of_injOn Fin.val (fun v hv => ?_) (fun u _ v _ h => Fin.ext h)
    have hcore : (first + v.val) % (n + 1) = c.val := by
      simpa [vertex_core, Fin.ext_iff] using hv
    have hmod : v.val ≡ c.val + (n + 1 - first.val) [MOD n + 1] := by
      refine Nat.ModEq.add_left_cancel' first.val ?_
      have hfirst : first.val + (c.val + (n + 1 - first.val)) = c.val + (n + 1) := by omega
      unfold Nat.ModEq
      rw [hfirst, hcore, Nat.add_mod_right, Nat.mod_eq_of_lt c.isLt]
    simpa using hmod
  have hpos : 0 < n + 1 := n.succ_pos
  have hcount := Nat.count_modEq_card g.nv hpos (c.val + (n + 1 - first.val))
  rw [Nat.count_eq_card_filter_range] at hcount
  unfold capacity
  refine le_trans (hinj.trans hcount.le) ?_
  refine Nat.add_le_add_left ?_ _
  split <;> omega

theorem length_lt_capacity {l : List g.V} {v : g.V} (hnodup : l.Nodup) (hv : v ∉ l)
    (hcore : ∀ u ∈ l, vertex_core g n first u = vertex_core g n first v) :
    l.length < capacity g n := by
  have hsubset : insert v l.toFinset ⊆
      Finset.univ.filter fun u => vertex_core g n first u = vertex_core g n first v := by
    intro u hu
    rcases Finset.mem_insert.mp hu with rfl | hu
    · simp
    · simpa using hcore u (List.mem_toFinset.mp hu)
  have hcard := le_trans (Finset.card_le_card hsubset) (card_core_le _)
  rw [Finset.card_insert_of_notMem (by simpa using hv), List.toFinset_card_of_nodup hnodup] at hcard
  exact hcard

/-! ### What is found -/

/-- `v` has the right parent. -/
def Placed (root : g.V) (s : State g.nv n) (v : g.V) : Prop :=
  v = root ∧ (s.vertex v).parent = root.val ∨
    v ≠ root ∧ ∃ u m, (s.vertex v).parent = u.val ∧ g.Adj u v ∧
      Layers.At g.Adj root m u ∧ Layers.At g.Adj root (m + 1) v

/-- What holds in level `k`, between any two steps. -/
structure Base (first : Fin (n + 1)) (root : g.V) (k : ℕ) (s : State g.nv n) : Prop where
  aborted : s.aborted = false
  depth : 0 ≤ s.current_depth
  root_level : (s.vertex root).level = 0
  parent_iff : ∀ v, g.valid v = true → ((s.vertex v).parent = -1 ↔ (s.vertex v).level = -1)
  within : ∀ v, Layers.Within g.Adj root k v → (s.vertex v).parent ≠ -1
  level_lt : 0 < k → ∀ v, Layers.Within g.Adj root k v → (s.vertex v).level < s.current_depth
  found : ∀ v, g.valid v = true → (s.vertex v).parent ≠ -1 → Layers.Within g.Adj root k v ∨
    v ∈ s.next (vertex_core g n first v) ∧ (s.vertex v).level = s.current_depth
  placed : ∀ v, g.valid v = true → (s.vertex v).parent ≠ -1 → Placed root s v
  frontier : ∀ c v, v ∈ s.frontier c ↔ vertex_core g n first v = c ∧ Layers.At g.Adj root k v
  next : ∀ c, ∀ v ∈ s.next c, vertex_core g n first v = c ∧ (s.vertex v).parent ≠ -1 ∧
    Layers.At g.Adj root (k + 1) v
  nodup : ∀ c, (s.next c).Nodup

theorem Base.congr (h : Base first root k s) (hvertex : s'.vertex = s.vertex)
    (hdepth : s'.current_depth = s.current_depth) (hfrontier : s'.frontier = s.frontier)
    (hnext : s'.next = s.next) (haborted : s'.aborted = s.aborted) : Base first root k s' := by
  obtain ⟨h1, h2, h3, h4, h5, h6, h7, h8, h9, h10, h11⟩ := h
  refine ⟨by rw [haborted]; exact h1, by rw [hdepth]; exact h2, by rw [hvertex]; exact h3, ?_, ?_, ?_,
    ?_, ?_, ?_, ?_, ?_⟩
  · rw [hvertex]
    exact h4
  · rw [hvertex]
    exact h5
  · rw [hvertex, hdepth]
    exact h6
  · rw [hvertex, hnext, hdepth]
    exact h7
  · unfold Placed at h8 ⊢
    rw [hvertex]
    exact h8
  · rw [hfrontier]
    exact h9
  · rw [hvertex, hnext]
    exact h10
  · rw [hnext]
    exact h11

theorem valid_of_within (hroot : g.valid root = true) {v : g.V} (h : Layers.Within g.Adj root k v) :
    g.valid v = true := by
  obtain ⟨m, _, hpath⟩ := h
  cases hpath with
  | nil => exact hroot
  | snoc _ hadj => exact hadj.valid_right

theorem Base.discover (h : Base first root k s) {u v : g.V} (huv : g.Adj u v)
    (hu : Layers.Within g.Adj root k u) (hv : (s.vertex v).parent = -1) :
    Base first root k (s.discover first u v) ∧ ((s.discover first u v).vertex v).parent ≠ -1 ∧
      ∀ w, (s.vertex w).parent ≠ -1 → ((s.discover first u v).vertex w).parent ≠ -1 := by
  have hnew : ¬Layers.Within g.Adj root k v := fun hwithin => h.within v hwithin hv
  have hnotin : ∀ c, v ∉ s.next c := fun c hmem => (h.next c v hmem).2.1 hv
  have hat : Layers.At g.Adj root k u := hu.at_of_new huv hnew
  have hlt : (s.next (vertex_core g n first v)).length < capacity g n :=
    length_lt_capacity (h.nodup _) (hnotin _) fun w hw => (h.next _ w hw).1
  have hne : ∀ w, (s.vertex w).parent ≠ -1 → w ≠ v := by
    rintro w hw rfl
    exact hw hv
  have hwne : ∀ w, Layers.Within g.Adj root k w → w ≠ v := fun w hw => hne w (h.within w hw)
  have hroot : root ≠ v := hwne root ⟨0, Nat.zero_le k, .nil⟩
  unfold State.discover
  rw [if_pos hlt]
  refine ⟨⟨h.aborted, h.depth, ?_, fun w hw => ?_, fun w hw => ?_, fun hk w hw => ?_, fun w hw hp => ?_,
    fun w hw hp => ?_, h.frontier, fun c w hw => ?_, fun c => ?_⟩, ?_, fun w hw => ?_⟩
  · show (update s.vertex v _ root).level = 0
    rw [update_of_ne hroot]
    exact h.root_level
  · by_cases hwv : w = v
    · subst hwv
      have hdepth := h.depth
      simp only [update_self]
      constructor <;> intro hneg <;> omega
    · simp only [update_of_ne hwv]
      exact h.parent_iff w hw
  · simp only [update_of_ne (hwne w hw)]
    exact h.within w hw
  · simp only [update_of_ne (hwne w hw)]
    exact h.level_lt hk w hw
  · by_cases hwv : w = v
    · subst hwv
      refine .inr ⟨?_, ?_⟩
      · simp
      · simp
    · simp only [update_of_ne hwv] at hp ⊢
      rcases h.found w hw hp with hold | ⟨hmem, hlevel⟩
      · exact .inl hold
      · refine .inr ⟨?_, hlevel⟩
        by_cases hc : vertex_core g n first w = vertex_core g n first v
        · rw [hc, update_self]
          exact List.mem_append_left _ (hc ▸ hmem)
        · rw [update_of_ne hc]
          exact hmem
  · by_cases hwv : w = v
    · subst hwv
      refine .inr ⟨hroot.symm, u, k, ?_, huv, hat, hat.step huv hnew⟩
      simp
    · unfold Placed
      simp only [update_of_ne hwv] at hp ⊢
      exact h.placed w hw hp
  · by_cases hc : c = vertex_core g n first v
    · subst hc
      simp only [update_self] at hw
      rcases List.mem_append.mp hw with hw | hw
      · obtain ⟨hcore, hp, hnext⟩ := h.next _ w hw
        simp only [update_of_ne (hne w hp)]
        exact ⟨hcore, hp, hnext⟩
      · obtain rfl := List.mem_singleton.mp hw
        refine ⟨rfl, ?_, hat.step huv hnew⟩
        simp only [update_self]
        omega
    · simp only [update_of_ne hc] at hw
      obtain ⟨hcore, hp, hnext⟩ := h.next c w hw
      simp only [update_of_ne (hne w hp)]
      exact ⟨hcore, hp, hnext⟩
  · by_cases hc : c = vertex_core g n first v
    · subst hc
      simp only [update_self]
      exact (h.nodup _).append (List.nodup_singleton v) (by simpa using hnotin _)
    · simp only [update_of_ne hc]
      exact h.nodup c
  · simp only [update_self]
    omega
  · simp only [update_of_ne (hne w hw)]
    exact hw

/-! ### Who looks after the edges of the layer -/

/-- What is known of an item in level `k`. -/
def Allowed (root : g.V) (k : ℕ) : Item g.nv n E → Prop
  | .share _ _ todo => ∀ i ∈ todo, Layers.At g.Adj root k i
  | .cancel _ _ i todo => ∀ j ∈ i :: todo, Layers.At g.Adj root k j
  | .visit _ i edges => Layers.At g.Adj root k i ∧ ∀ e ∈ edges, e ∈ g.adj i
  | .claim _ i j => Layers.At g.Adj root k i ∧ g.Adj i j
  | .search v => 0 < k ∧ g.valid v = true
  | .search_edge v u | .probe v u => 0 < k ∧ g.Adj u v
  | .found v u => Layers.Within g.Adj root k u ∧ g.Adj u v
  | .completion _ | .enter | .reset _ => True

/-- The item will see to the edge from `u` to `v`. -/
def Item.Does (u v : g.V) : Item g.nv n E → Prop
  | .share _ _ todo => u ∈ todo
  | .cancel _ _ i todo => u ∈ i :: todo
  | .visit _ i edges => u = i ∧ ∃ e, (v, e) ∈ edges
  | .claim _ i j => u = i ∧ v = j
  | .search v' => v = v'
  | .search_edge v' u' | .probe v' u' => v = v' ∧ u = u'
  | .found v' _ => v = v'
  | .completion _ | .enter | .reset _ => False

/-- Level `k` in progress. -/
structure Level (first : Fin (n + 1)) (root : g.V) (k : ℕ) (s : State g.nv n)
    (pool : Multiset (Item g.nv n E)) : Prop where
  base : Base first root k s
  items : ∀ x ∈ pool, Allowed root k x
  pending : ∀ u v, Layers.At g.Adj root k u → g.Adj u v →
    (s.vertex v).parent ≠ -1 ∨ ∃ x ∈ pool, Item.Does u v x

/-- What a step has to keep: what the item would have seen to is found, or seen to by another. -/
theorem Level.step (h : Level first root k s (x ::ₘ rest)) {new : List (Item g.nv n E)}
    (hbase : Base first root k s') (hfound : ∀ v, (s.vertex v).parent ≠ -1 → (s'.vertex v).parent ≠ -1)
    (hnew : ∀ y ∈ new, Allowed root k y)
    (hdoes : ∀ u v, Layers.At g.Adj root k u → g.Adj u v → x.Does u v →
      (s'.vertex v).parent ≠ -1 ∨ ∃ y ∈ new, y.Does u v) :
    Level first root k s' (rest + new) := by
  refine ⟨hbase, fun y hy => ?_, fun u v hu huv => ?_⟩
  · rcases mem_add.mp hy with hy | hy
    · exact h.items y (mem_cons_of_mem hy)
    · exact hnew y (mem_coe.mp hy)
  · rcases h.pending u v hu huv with hp | ⟨y, hy, hdo⟩
    · exact .inl (hfound v hp)
    · rcases mem_cons.mp hy with rfl | hy
      · rcases hdoes u v hu huv hdo with hp | ⟨z, hz, hdo'⟩
        · exact .inl hp
        · exact .inr ⟨z, mem_add.mpr (.inr (mem_coe.mpr hz)), hdo'⟩
      · exact .inr ⟨y, mem_add.mpr (.inl hy), hdo⟩

theorem Base.claim (h : Base first root k s) {i j : g.V} (hi : Layers.At g.Adj root k i)
    (hij : g.Adj i j) :
    Base first root k (s.claim first i j) ∧ ((s.claim first i j).vertex j).parent ≠ -1 ∧
      ∀ w, (s.vertex w).parent ≠ -1 → ((s.claim first i j).vertex w).parent ≠ -1 := by
  unfold State.claim
  split
  · rename_i hj
    exact h.discover hij hi.within hj
  · rename_i hj
    exact ⟨h, hj, fun w hw => hw⟩

theorem loop_decomposition_allowed {c : Fin (n + 1)} {spawned : Bool} {i : g.V} {todo : List g.V}
    (h : ∀ j ∈ i :: todo, Layers.At g.Adj root k j) :
    ∀ y ∈ loop_decomposition (E := E) loop_threshold c spawned i todo, Allowed root k y := by
  intro y hy
  simp only [loop_decomposition] at hy
  split at hy
  · rcases List.mem_cons.mp hy with rfl | hy
    · exact fun j hj => h j (List.mem_of_mem_drop hj)
    · obtain rfl := List.mem_singleton.mp hy
      exact fun j hj => h j (List.mem_of_mem_take hj)
  · rcases List.mem_cons.mp hy with rfl | hy
    · exact ⟨h i List.mem_cons_self, fun e he => he⟩
    · obtain rfl := List.mem_singleton.mp hy
      exact fun j hj => h j (List.mem_cons_of_mem i hj)

theorem mem_halves {α : Type} {l : List α} {a : α} (m : ℕ) (h : a ∈ l) : a ∈ l.drop m ∨ a ∈ l.take m := by
  rw [← List.take_append_drop m l] at h
  exact (List.mem_append.mp h).symm

theorem loop_decomposition_does {c : Fin (n + 1)} {spawned : Bool} {i : g.V} {todo : List g.V}
    {u v : g.V} (hu : u ∈ i :: todo) (huv : g.Adj u v) :
    ∃ y ∈ loop_decomposition (E := E) loop_threshold c spawned i todo, y.Does u v := by
  simp only [loop_decomposition]
  split
  · rcases mem_halves (((i :: todo).length + 1) / 2) hu with hin | hin
    · exact ⟨_, List.mem_cons_self, hin⟩
    · exact ⟨_, List.mem_cons_of_mem _ (List.mem_singleton_self _), hin⟩
  · rcases List.mem_cons.mp hu with rfl | hin
    · obtain ⟨e, he⟩ := huv
      exact ⟨_, List.mem_cons_self, rfl, e, he⟩
    · exact ⟨_, List.mem_cons_of_mem _ (List.mem_singleton_self _), hin⟩

theorem Level.complete (h : Level first root k s (x ::ₘ rest)) {c : Fin (n + 1)}
    (hdoes : ∀ u v, ¬x.Does u v) :
    Level first root k (s.complete (E := E) c).1 (rest + (s.complete (E := E) c).2) := by
  refine h.step (h.base.congr rfl rfl rfl rfl rfl) (fun v hv => hv) ?_
    fun u v _ _ hdo => absurd hdo (hdoes u v)
  intro y hy
  unfold State.complete at hy
  simp only at hy
  split at hy
  · obtain rfl := List.mem_singleton.mp hy
    trivial
  · cases hy

section steps

variable {c : Fin (n + 1)} {new : List (Item g.nv n E)}

theorem Level.exec_share {spawned : Bool} {todo : List g.V}
    (h : Level first root k s (.share c spawned todo ::ₘ rest))
    (hx : (Item.share c spawned todo).exec first loop_threshold s = some (s', new)) :
    Level first root k s' (rest + new) := by
  have hitem := h.items _ (mem_cons_self _ _)
  cases todo with
  | nil =>
    cases spawned with
    | true =>
      cases hx
      exact h.complete fun u v => List.not_mem_nil
    | false =>
      cases hx
      exact h.step h.base (fun v hv => hv) (by simp) fun u v _ _ hdo => absurd hdo List.not_mem_nil
  | cons i todo =>
    cases hx
    refine h.step (h.base.congr rfl rfl rfl rfl rfl) (fun v hv => hv) ?_ fun u v _ huv hdo => .inr ?_
    · split
      · intro y hy
        obtain rfl := List.mem_singleton.mp hy
        exact hitem
      · exact loop_decomposition_allowed hitem
    · split
      · exact ⟨_, List.mem_singleton_self _, hdo⟩
      · exact loop_decomposition_does hdo huv

theorem Level.exec_visit {i : g.V} {edges : List (g.V × E)}
    (h : Level first root k s (.visit c i edges ::ₘ rest))
    (hx : (Item.visit c i edges).exec first loop_threshold s = some (s', new)) :
    Level first root k s' (rest + new) := by
  obtain ⟨hi, hedges⟩ := h.items _ (mem_cons_self _ _)
  simp only [Item.exec] at hx
  split at hx
  · -- the loop is cut in two
    cases hx
    refine h.step (h.base.congr rfl rfl rfl rfl rfl) (fun v hv => hv) ?_ ?_
    · intro y hy
      rcases List.mem_cons.mp hy with rfl | hy
      · exact ⟨hi, fun e he => hedges e (List.mem_of_mem_drop he)⟩
      · obtain rfl := List.mem_singleton.mp hy
        exact ⟨hi, fun e he => hedges e (List.mem_of_mem_take he)⟩
    · rintro u v _ _ ⟨rfl, e, he⟩
      rcases mem_halves ((edges.length + 1) / 2) he with hin | hin
      · exact .inr ⟨_, List.mem_cons_self, rfl, e, hin⟩
      · exact .inr ⟨_, List.mem_cons_of_mem _ (List.mem_singleton_self _), rfl, e, hin⟩
  · cases edges with
    | nil =>
      cases hx
      refine h.complete ?_
      rintro u v ⟨_, e, he⟩
      cases he
    | cons e edges =>
      have hadj : g.Adj i e.1 := ⟨e.2, hedges e List.mem_cons_self⟩
      have hrest : ∀ e ∈ edges, e ∈ g.adj i := fun e' he' => hedges e' (List.mem_cons_of_mem e he')
      simp only at hx
      split at hx
      · cases hx
        obtain ⟨hbase', hfound, hmono⟩ := h.base.claim hi hadj
        refine h.step hbase' hmono ?_ ?_
        · simpa [Allowed] using ⟨hi, fun a b hab => hrest (a, b) hab⟩
        · rintro u v _ _ ⟨rfl, e', he'⟩
          rcases List.mem_cons.mp he' with rfl | he'
          · exact .inl hfound
          · exact .inr ⟨_, List.mem_singleton_self _, rfl, e', he'⟩
      · cases hx
        refine h.step (h.base.congr rfl rfl rfl rfl rfl) (fun v hv => hv) ?_ ?_
        · intro y hy
          rcases List.mem_cons.mp hy with rfl | hy
          · exact ⟨hi, hadj⟩
          · obtain rfl := List.mem_singleton.mp hy
            exact ⟨hi, hrest⟩
        · rintro u v _ _ ⟨rfl, e', he'⟩
          rcases List.mem_cons.mp he' with rfl | he'
          · exact .inr ⟨_, List.mem_cons_self, rfl, rfl⟩
          · exact .inr ⟨_, List.mem_cons_of_mem _ (List.mem_singleton_self _), rfl, e', he'⟩

theorem Level.exec_probe {u v : g.V} (h : Level first root k s (.probe v u ::ₘ rest))
    (hx : (Item.probe v u).exec first loop_threshold s = some (s', new)) :
    Level first root k s' (rest + new) := by
  obtain ⟨hk, hadj⟩ := h.items _ (mem_cons_self _ _)
  have hbase := h.base
  cases hx
  refine h.step hbase (fun v hv => hv) ?_ ?_
  · intro y hy
    split at hy
    · rename_i hlevel
      obtain rfl := List.mem_singleton.mp hy
      have hp : (s.vertex u).parent ≠ -1 := fun hp =>
        hlevel.1 ((hbase.parent_iff u hadj.valid_left).mp hp)
      rcases hbase.found u hadj.valid_left hp with hwithin | ⟨_, heq⟩
      · exact ⟨hwithin, hadj⟩
      · exact absurd heq hlevel.2.ne
    · cases hy
  · rintro u' w hu' _ ⟨rfl, rfl⟩
    -- the neighbour has a level from before
    have hp := hbase.within u' hu'.within
    have hlevel : (s.vertex u').level ≠ -1 := fun hl =>
      hp ((hbase.parent_iff u' hadj.valid_left).mpr hl)
    rw [if_pos ⟨hlevel, hbase.level_lt hk u' hu'.within⟩]
    exact .inr ⟨_, List.mem_singleton_self _, rfl⟩

theorem Level.exec (hg : g.Undirected) (h : Level first root k s (x ::ₘ rest))
    (henter : x = .enter → s.cores_out = 1 → s.count master_core = 0)
    (hreset : ∀ c, x = .reset c → s.count c = 0)
    (hx : x.exec first loop_threshold s = some (s', new)) : Level first root k s' (rest + new) := by
  have hitem := h.items x (mem_cons_self _ _)
  have hbase := h.base
  cases x with
  | share c spawned todo => exact h.exec_share hx
  | cancel c spawned i todo =>
    cases hx
    exact h.step (hbase.congr rfl rfl rfl rfl rfl) (fun v hv => hv) (loop_decomposition_allowed hitem)
      fun u v _ huv hdo => .inr (loop_decomposition_does hdo huv)
  | visit c i edges => exact h.exec_visit hx
  | claim c i j =>
    cases hx
    obtain ⟨hi, hij⟩ := hitem
    obtain ⟨hbase', hfound, hmono⟩ := hbase.claim hi hij
    refine h.step hbase' hmono (by simp [Allowed]) ?_
    rintro u v _ _ ⟨rfl, rfl⟩
    exact .inl hfound
  | completion c =>
    cases hx
    exact h.complete fun u v hdo => hdo
  | enter =>
    simp only [Item.exec] at hx
    split at hx
    · rename_i hout
      rw [if_pos (henter rfl hout)] at hx
      cases hx
      refine h.step (hbase.congr rfl rfl rfl rfl rfl) (fun v hv => hv) ?_ fun u v _ _ hdo => hdo.elim
      intro y hy
      obtain ⟨c, _, rfl⟩ := List.mem_map.mp hy
      trivial
    · cases hx
      exact h.step (hbase.congr rfl rfl rfl rfl rfl) (fun v hv => hv) (by simp)
        fun u v _ _ hdo => hdo.elim
  | reset c =>
    simp only [Item.exec] at hx
    rw [if_pos (hreset c rfl)] at hx
    cases hx
    exact h.step (hbase.congr rfl rfl rfl rfl rfl) (fun v hv => hv) (by simp)
      fun u v _ _ hdo => hdo.elim
  | search v =>
    cases hx
    obtain ⟨hk, hv⟩ := hitem
    refine h.step hbase (fun v hv => hv) ?_ ?_
    · intro y hy
      split at hy
      · obtain ⟨e, he, rfl⟩ := List.mem_map.mp hy
        exact ⟨hk, hg v e.1 ⟨e.2, he⟩⟩
      · cases hy
    · rintro u w _ huv rfl
      by_cases hlevel : (s.vertex w).level = -1
      · obtain ⟨e, he⟩ := hg u w huv
        rw [if_pos hlevel]
        exact .inr ⟨_, List.mem_map_of_mem he, rfl, rfl⟩
      · exact .inl fun hp => hlevel ((hbase.parent_iff w hv).mp hp)
  | search_edge v u =>
    cases hx
    obtain ⟨hk, hadj⟩ := hitem
    refine h.step hbase (fun v hv => hv) ?_ ?_
    · intro y hy
      split at hy
      · obtain rfl := List.mem_singleton.mp hy
        exact ⟨hk, hadj⟩
      · cases hy
    · rintro u' w _ _ ⟨rfl, rfl⟩
      by_cases hlevel : (s.vertex w).level = -1
      · rw [if_pos hlevel]
        exact .inr ⟨_, List.mem_singleton_self _, rfl, rfl⟩
      · exact .inl fun hp => hlevel ((hbase.parent_iff w hadj.valid_right).mp hp)
  | probe v u => exact h.exec_probe hx
  | found v u =>
    obtain ⟨hwithin, hadj⟩ := hitem
    cases hx
    by_cases hlevel : (s.vertex v).level = -1
    · obtain ⟨hbase', hfound, hmono⟩ :=
        hbase.discover hadj hwithin ((hbase.parent_iff v hadj.valid_right).mpr hlevel)
      rw [if_pos hlevel]
      refine h.step hbase' hmono (by simp) ?_
      rintro u' w _ _ rfl
      exact .inl hfound
    · rw [if_neg hlevel]
      refine h.step hbase (fun v hv => hv) (by simp) ?_
      rintro u' w _ _ rfl
      exact .inl fun hp => hlevel ((hbase.parent_iff w hadj.valid_right).mp hp)

end steps

/-! ### The completion event -/

/-- What an item has enrolled on a core. -/
def Item.units (c : Fin (n + 1)) : Item g.nv n E → ℤ
  | .share c' spawned _ => if spawned ∧ c' = c then 1 else 0
  | .cancel c' spawned _ _ => (if spawned ∧ c' = c then 1 else 0) + if c' = c then 1 else 0
  | .visit c' _ _ | .claim c' _ _ | .completion c' => if c' = c then 1 else 0
  | _ => 0

def Item.resets : Item g.nv n E → ℕ
  | .reset _ => 1
  | _ => 0

/-- What an item has yet to do to `cores_out`. -/
def Item.out : Item g.nv n E → ℤ
  | .cancel _ _ _ _ => -1
  | .enter => 1
  | _ => 0

/-- The number of cores with work. -/
def working (s : State g.nv n) : ℤ := ∑ c, if 0 < s.count c then 1 else 0

/-- The counts are those of the items, and all are zero while cores are to be reset. -/
structure Counts (s : State g.nv n) (pool : Multiset (Item g.nv n E)) : Prop where
  count : ∀ c, s.count c = (pool.map (Item.units c)).sum
  out : s.cores_out = working s + (pool.map Item.out).sum
  resets : s.temporary_waking_cores_out = (pool.map Item.resets).sum
  idle : 0 < s.temporary_waking_cores_out → (∀ c, s.count c = 0) ∧ s.cores_out = 0

theorem units_nonneg (c : Fin (n + 1)) (x : Item g.nv n E) : 0 ≤ x.units c := by
  cases x <;> simp only [Item.units] <;> first | exact le_rfl | split <;> omega

theorem sum_units_nonneg (c : Fin (n + 1)) (pool : Multiset (Item g.nv n E)) :
    0 ≤ (pool.map (Item.units c)).sum := by
  refine sum_nonneg fun m hm => ?_
  obtain ⟨x, _, rfl⟩ := mem_map.mp hm
  exact units_nonneg c x

/-- A blocked enrollment counts as a unit of its core. -/
theorem out_nonneg_of_units {pool : Multiset (Item g.nv n E)}
    (h : ∀ x ∈ pool, ∀ c, x.units c = 0) : 0 ≤ (pool.map Item.out).sum := by
  refine sum_nonneg fun m hm => ?_
  obtain ⟨x, hx, rfl⟩ := mem_map.mp hm
  have hunits := h x hx
  cases x with
  | cancel c spawned i todo =>
    have hone := hunits c
    simp only [Item.units, if_true] at hone
    split at hone <;> omega
  | share c spawned todo | visit c i edges | claim c i j | completion c | reset c | search v
  | search_edge v u | probe v u | found v u => exact le_rfl
  | enter => exact Int.one_nonneg

theorem Counts.units_eq_zero {pool : Multiset (Item g.nv n E)} (h : Counts s pool)
    (hzero : ∀ c, s.count c = 0) : ∀ x ∈ pool, ∀ c, x.units c = 0 := by
  intro x hx c
  obtain ⟨rest, rfl⟩ := exists_cons_of_mem hx
  have hcount := h.count c
  have hrest := sum_units_nonneg c rest
  have hnonneg := units_nonneg c x
  rw [hzero, map_cons, sum_cons] at hcount
  omega

theorem working_eq_zero (hzero : ∀ c, s.count c = 0) : working s = 0 := by
  unfold working
  simp [hzero]

theorem Counts.pos (h : Counts s (x ::ₘ rest)) {c : Fin (n + 1)} (hx : 0 < x.units c) :
    0 < s.count c ∧ s.temporary_waking_cores_out = 0 := by
  have hcount := h.count c
  have hrest := sum_units_nonneg c rest
  rw [map_cons, sum_cons] at hcount
  refine ⟨by omega, ?_⟩
  by_contra hne
  have hzero := (h.idle (by omega)).1 c
  omega

theorem discover_count (s : State g.nv n) (u v : g.V) :
    (s.discover first u v).count = s.count ∧ (s.discover first u v).cores_out = s.cores_out ∧
      (s.discover first u v).temporary_waking_cores_out = s.temporary_waking_cores_out := by
  simp only [State.discover]
  split <;> exact ⟨rfl, rfl, rfl⟩

theorem claim_count (s : State g.nv n) (i j : g.V) :
    (s.claim first i j).count = s.count ∧ (s.claim first i j).cores_out = s.cores_out ∧
      (s.claim first i j).temporary_waking_cores_out = s.temporary_waking_cores_out := by
  unfold State.claim
  split
  · exact discover_count s i j
  · exact ⟨rfl, rfl, rfl⟩

theorem Counts.step (h : Counts s (x ::ₘ rest)) {new : List (Item g.nv n E)}
    (hcount : ∀ c, s'.count c + x.units c = s.count c + (new.map (Item.units c)).sum)
    (hout : s'.cores_out + working s + x.out = s.cores_out + working s' + (new.map Item.out).sum)
    (hresets : s'.temporary_waking_cores_out + x.resets =
      s.temporary_waking_cores_out + (new.map Item.resets).sum)
    (hidle : 0 < s'.temporary_waking_cores_out → (∀ c, s'.count c = 0) ∧ s'.cores_out = 0) :
    Counts s' (rest + new) := by
  refine ⟨fun c => ?_, ?_, ?_, hidle⟩
  · have hsum := h.count c
    have hstep := hcount c
    rw [map_cons, sum_cons] at hsum
    rw [map_add, sum_add, map_coe, sum_coe]
    omega
  · have hsum := h.out
    rw [map_cons, sum_cons] at hsum
    rw [map_add, sum_add, map_coe, sum_coe]
    omega
  · have hsum := h.resets
    rw [map_cons, sum_cons] at hsum
    rw [map_add, sum_add, map_coe, sum_coe]
    omega

theorem Counts.step_same (h : Counts s (x ::ₘ rest)) {new : List (Item g.nv n E)}
    (hsame : s'.count = s.count ∧ s'.cores_out = s.cores_out ∧
      s'.temporary_waking_cores_out = s.temporary_waking_cores_out)
    (hunits : ∀ c, x.units c = (new.map (Item.units c)).sum) (hout : x.out = (new.map Item.out).sum)
    (hitem : x.resets = (new.map Item.resets).sum) : Counts s' (rest + new) := by
  obtain ⟨hcount, hcores, hresets⟩ := hsame
  have hworking : working s' = working s := by
    unfold working
    rw [hcount]
  refine h.step (fun c => ?_) ?_ ?_ fun hpos => ?_
  · rw [hcount, hunits]
  · rw [hcores, hworking, hout]
  · rw [hresets, hitem]
  · rw [hcount, hcores]
    exact h.idle (by omega)

theorem working_update (s : State g.nv n) (c : Fin (n + 1)) (m : ℤ) :
    working { s with count := update s.count c m } + (if 0 < s.count c then 1 else 0) =
      working s + if 0 < m then 1 else 0 := by
  have hsum := Census.sum_add_of_eq_off (Finset.mem_univ c)
    (g := fun c' => if 0 < update s.count c m c' then (1 : ℤ) else 0)
    (f := fun c' => if 0 < s.count c' then 1 else 0) fun c' _ hc => by rw [update_of_ne hc]
  rwa [update_self] at hsum

theorem Counts.enroll (h : Counts s (x ::ₘ rest)) {c : Fin (n + 1)} {new : List (Item g.nv n E)}
    (hidle : s.temporary_waking_cores_out = 0)
    (hunits : ∀ c', (new.map (Item.units c')).sum = x.units c' + if c = c' then 1 else 0)
    (hout : x.out = (new.map Item.out).sum + if s.count c = 0 then 1 else 0)
    (hitem : x.resets = (new.map Item.resets).sum) : Counts (s.enroll c) (rest + new) := by
  have hnonneg : 0 ≤ s.count c := by
    rw [h.count c]
    exact sum_units_nonneg c _
  refine h.step (fun c' => ?_) ?_ ?_ fun hpos => ?_
  · have hcount : (s.enroll c).count c' = s.count c' + if c = c' then 1 else 0 := by
      by_cases hc : c = c'
      · subst hc
        simp [State.enroll]
      · simp [State.enroll, hc, update_of_ne (Ne.symm hc)]
    rw [hunits, hcount]
    ring
  · have hworking := working_update s c (s.count c + 1)
    have hcores : (s.enroll c).cores_out = s.cores_out := rfl
    change working (s.enroll c) + _ = _ at hworking
    rw [if_pos (show 0 < s.count c + 1 by omega)] at hworking
    rw [hout, hcores]
    by_cases hzero : s.count c = 0
    · rw [if_neg (show ¬0 < s.count c by omega)] at hworking
      rw [if_pos hzero]
      omega
    · rw [if_pos (show 0 < s.count c by omega)] at hworking
      rw [if_neg hzero]
      omega
  · rw [hitem]
    rfl
  · have hpos' : 0 < s.temporary_waking_cores_out := hpos
    omega

theorem Counts.complete (h : Counts s (x ::ₘ rest)) {c : Fin (n + 1)}
    (hunits : ∀ c', x.units c' = if c = c' then 1 else 0) (hout : x.out = 0) (hitem : x.resets = 0) :
    Counts (s.complete (E := E) c).1 (rest + (s.complete (E := E) c).2) := by
  obtain ⟨hpos, hidle⟩ := h.pos (c := c) (by rw [hunits, if_pos rfl]; exact Int.one_pos)
  refine h.step (fun c' => ?_) ?_ ?_ fun hpos => ?_
  · have hnew : ((s.complete (E := E) c).2.map (Item.units c')).sum = 0 := by
      unfold State.complete
      split <;> rfl
    have hcount : (s.complete (E := E) c).1.count c' = s.count c' - if c = c' then 1 else 0 := by
      by_cases hc : c = c'
      · subst hc
        simp [State.complete]
      · simp [State.complete, hc, update_of_ne (Ne.symm hc)]
    rw [hnew, hunits, hcount]
    ring
  · have hworking := working_update s c (s.count c - 1)
    have hcores : (s.complete (E := E) c).1.cores_out = s.cores_out := rfl
    have hnew : ((s.complete (E := E) c).2.map Item.out).sum = if s.count c = 1 then 1 else 0 := by
      unfold State.complete
      split <;> rfl
    change working (s.complete (E := E) c).1 + _ = _ at hworking
    rw [if_pos hpos] at hworking
    rw [hnew, hout, hcores]
    by_cases hone : s.count c = 1
    · rw [if_neg (show ¬0 < s.count c - 1 by omega)] at hworking
      rw [if_pos hone]
      omega
    · rw [if_pos (show 0 < s.count c - 1 by omega)] at hworking
      rw [if_neg hone]
      omega
  · have hnew : ((s.complete (E := E) c).2.map Item.resets).sum = 0 := by
      unfold State.complete
      split <;> rfl
    rw [hnew, hitem]
    rfl
  · have hpos' : 0 < s.temporary_waking_cores_out := hpos
    omega

theorem sum_resets : (((List.finRange (n + 1)).map fun c => (Item.reset c : Item g.nv n E)).map
    Item.resets).sum = n + 1 := by
  simp [comp_def, Item.resets]

theorem loop_decomposition_counts (loop_threshold : ℕ) (c : Fin (n + 1)) (spawned : Bool)
    (i : g.V) (todo : List g.V) :
    let new := loop_decomposition (E := E) loop_threshold c spawned i todo
    (∀ c', (new.map (Item.units c')).sum =
      (if spawned ∧ c = c' then 1 else 0) + if c = c' then 1 else 0) ∧
      (new.map Item.out).sum = 0 ∧ (new.map Item.resets).sum = 0 := by
  simp only [loop_decomposition]
  split
  · refine ⟨fun c' => ?_, rfl, rfl⟩
    simp [Item.units, add_comm]
  · refine ⟨fun c' => ?_, rfl, rfl⟩
    simp [Item.units, add_comm]

theorem Counts.exec_enter (h : Counts s (.enter ::ₘ rest)) (hheld : Held s (.enter : Item g.nv n E))
    {new : List (Item g.nv n E)} (hx : Item.enter.exec first loop_threshold s = some (s', new)) :
    Counts s' (rest + new) := by
  have hpending : s.temporary_waking_cores_out = 0 := by
    -- the other items owe nothing while the cores are reset
    by_contra hne
    obtain ⟨hzero, hcores⟩ := h.idle (by omega)
    have hunits := h.units_eq_zero hzero
    have hout := h.out
    have hrest := out_nonneg_of_units fun y hy => hunits y (mem_cons_of_mem hy)
    rw [working_eq_zero hzero, map_cons, sum_cons, hcores] at hout
    simp only [Item.out] at hout
    omega
  simp only [Item.exec] at hx
  split at hx
  · rename_i hout
    have hzero := hheld hout
    rw [if_pos (hzero master_core)] at hx
    cases hx
    have hworking : working { s with cores_out := 0, temporary_waking_cores_out := n + 1 } =
      working s := rfl
    refine h.step (fun c => ?_) ?_ ?_ fun _ => ⟨hzero, rfl⟩
    · simp [Item.units, comp_def]
    · rw [hworking]
      simp [Item.out, comp_def, hout]
      omega
    · rw [sum_resets, hpending]
      simp [Item.resets]
  · cases hx
    have hworking : working { s with cores_out := s.cores_out - 1 } = working s := rfl
    refine h.step (fun c => ?_) ?_ ?_ fun hpos => ?_
    · simp [Item.units]
    · rw [hworking]
      simp only [Item.out, List.map_nil, List.sum_nil]
      omega
    · simp [Item.resets]
    · have hpos' : 0 < s.temporary_waking_cores_out := hpos
      omega

theorem Counts.exec_reset {c : Fin (n + 1)} (h : Counts s (.reset c ::ₘ rest))
    {new : List (Item g.nv n E)} (hx : (Item.reset c).exec first loop_threshold s = some (s', new)) :
    Counts s' (rest + new) := by
  have hpending : 0 < s.temporary_waking_cores_out := by
    rw [h.resets, map_cons, sum_cons]
    simp only [Item.resets]
    omega
  obtain ⟨hzero, hcores⟩ := h.idle hpending
  simp only [Item.exec] at hx
  rw [if_pos (hzero c)] at hx
  cases hx
  have hsame : (if c = master_core then 0 else s.cores_out) = s.cores_out := by
    split
    · exact hcores.symm
    · rfl
  rw [hsame]
  have hworking : working { s with
      cores_out := s.cores_out
      temporary_waking_cores_out := s.temporary_waking_cores_out - 1 } = working s := rfl
  refine h.step (fun c => ?_) ?_ ?_ fun _ => ⟨hzero, hcores⟩
  · simp [Item.units]
  · rw [hworking]
    simp [Item.out]
  · simp only [Item.resets, List.map_nil, List.sum_nil]
    omega

theorem Counts.exec (h : Counts s (x ::ₘ rest)) (hheld : Held s x) {new : List (Item g.nv n E)}
    (hx : x.exec first loop_threshold s = some (s', new)) : Counts s' (rest + new) := by
  cases x with
  | share c spawned todo =>
    cases todo with
    | nil =>
      cases spawned with
      | true =>
        cases hx
        exact h.complete (fun c' => by simp [Item.units]) rfl rfl
      | false =>
        cases hx
        exact h.step_same ⟨rfl, rfl, rfl⟩ (fun c' => by simp [Item.units]) rfl rfl
    | cons i todo =>
      cases hx
      obtain ⟨hunits, hout, hresets⟩ :=
        loop_decomposition_counts (E := E) loop_threshold c spawned i todo
      by_cases hcount : s.count c = 0
      · rw [if_pos hcount]
        exact h.enroll hheld (fun c' => by simp [Item.units]) (by simp [Item.out, hcount])
          (by simp [Item.resets])
      · rw [if_neg hcount]
        exact h.enroll hheld hunits (by rw [hout, if_neg hcount]; rfl) (by rw [hresets]; rfl)
  | cancel c spawned i todo =>
    cases hx
    have hworking : working { s with cores_out := s.cores_out + 1 } = working s := rfl
    obtain ⟨_, hidle⟩ := h.pos (c := c) (by
      simp only [Item.units, if_true]
      split <;> omega)
    obtain ⟨hunits, hout, hresets⟩ :=
      loop_decomposition_counts (E := E) loop_threshold c spawned i todo
    refine h.step (fun c' => ?_) ?_ (by rw [hresets]; rfl) fun hpos => ?_
    · rw [hunits]
      rfl
    · rw [hworking, hout]
      simp only [Item.out]
      omega
    · have hpos' : 0 < s.temporary_waking_cores_out := hpos
      omega
  | visit c i edges =>
    obtain ⟨hpos, hidle⟩ := h.pos (c := c) (by simp [Item.units])
    simp only [Item.exec] at hx
    split at hx
    · cases hx
      exact h.enroll hidle (fun c' => by simp [Item.units]) (by simp [Item.out, hpos.ne'])
        (by simp [Item.resets])
    · cases edges with
      | nil =>
        cases hx
        exact h.complete (fun c' => rfl) rfl rfl
      | cons e edges =>
        simp only at hx
        split at hx
        · cases hx
          exact h.step_same (claim_count s i e.1) (fun c' => by simp [Item.units])
            (by simp [Item.out]) (by simp [Item.resets])
        · cases hx
          exact h.enroll hidle (fun c' => by simp [Item.units]) (by simp [Item.out, hpos.ne'])
            (by simp [Item.resets])
  | claim c i j =>
    cases hx
    exact h.step_same (claim_count s i j) (fun c' => by simp [Item.units]) (by simp [Item.out])
      (by simp [Item.resets])
  | completion c =>
    cases hx
    exact h.complete (fun c' => rfl) rfl rfl
  | enter => exact h.exec_enter hheld hx
  | reset c => exact h.exec_reset hx
  | search v =>
    cases hx
    refine h.step_same ⟨rfl, rfl, rfl⟩ (fun c => ?_) ?_ ?_
    · split <;> simp [Item.units, comp_def]
    · split <;> simp [Item.out, comp_def]
    · split <;> simp [Item.resets, comp_def]
  | search_edge v u | probe v u =>
    cases hx
    refine h.step_same ⟨rfl, rfl, rfl⟩ (fun c => ?_) ?_ ?_
    · split <;> simp [Item.units]
    · split <;> simp [Item.out]
    · split <;> simp [Item.resets]
  | found v u =>
    cases hx
    refine h.step_same ?_ (fun c => ?_) ?_ ?_
    · split
      · exact discover_count s u v
      · exact ⟨rfl, rfl, rfl⟩
    · simp [Item.units]
    · simp [Item.out]
    · simp [Item.resets]

end BeamerBfs

end Grappa
