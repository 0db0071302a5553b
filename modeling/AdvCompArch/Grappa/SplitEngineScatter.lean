import AdvCompArch.Grappa.SplitEnginePhases

/-! # Scattering in the split-vertex engine

    A mirror gathers what the mirrors of its core scatter to it, and sends it to the master once.
    What it has sent stays in its cache, until the next turn of the master. -/

namespace Grappa

namespace SplitEngine

open Multiset

variable {VertexID V E S G : Type} {n : ℕ} [DecidableEq VertexID] [AddCommMonoid G]
  {g : Graph VertexID E n} {prog : Program VertexID V E S G} {B : VertexID → Vertex V S G}
  {s s' : State VertexID V S G n} {u v m : VertexID} {c c' : Fin n}
  {rest : Multiset (Item VertexID V E S G n)} {y : Item VertexID V E S G n}

open SingleCopy (signal scattered)

/-- A mirror to which `d` has been scattered. -/
def reached (x : Vertex V S G) (minor : Bool) (d : G × ℕ) : Vertex V S G :=
  ⟨x.data, decide (d.2 ≠ 0), minor, ⟨x.prog.state, d.1⟩⟩

theorem reached_receive {x : Vertex V S G} {minor : Bool} {d d' : G × ℕ} :
    (reached x minor d).receive d' = reached x minor (d + d') := by
  simp only [reached, Vertex.receive, Prod.fst_add, Prod.snd_add]
  congr 1
  grind

/-! ### The edges of a mirror -/

omit [DecidableEq VertexID] in
theorem signal_eq_zero {e : Edge VertexID E} (h : (B e.src).active_minor_step = false) :
    signal prog B e = 0 := by
  simp [signal, h]

theorem received_fst_eq_zero (hactivates : prog.Activates) {l : List (Edge VertexID E)}
    (h : (received l (signal prog B) v).2 = 0) : (received l (signal prog B) v).1 = 0 := by
  induction l with
  | nil => rfl
  | cons e l ih =>
    have hcons : received (e :: l) (signal prog B) v =
        received [e] (signal prog B) v + received l (signal prog B) v := by
      rw [← received_append]
      rfl
    rw [hcons, Prod.snd_add, Nat.add_eq_zero_iff] at h
    have hone : (received [e] (signal prog B) v).1 = 0 := by
      have hnum := h.1
      rw [received_singleton] at hnum ⊢
      by_contra hdelta
      have hdst : e.dst = v := by
        by_contra hne
        exact hdelta (by rw [if_neg hne]; rfl)
      have hsrc : (B e.src).active_minor_step = true := by
        by_contra hne
        rw [Bool.not_eq_true] at hne
        exact hdelta (by rw [signal_eq_zero hne, ite_self]; rfl)
      rw [if_pos hdst, signal, if_pos hsrc] at hdelta hnum
      have hact : (scattered prog B e).2 = true := hactivates _ _ _ _ hdelta
      simp [hact] at hnum
    rw [hcons, Prod.fst_add, hone, ih h.2, add_zero]

/-- What is scattered to a mirror. -/
def sent (prog : Program VertexID V E S G) (g : Graph VertexID E n) (B : VertexID → Vertex V S G)
    (c : Fin n) (v : VertexID) : G × ℕ :=
  received (g.l_edges c) (signal prog B) v

theorem foldl_scatter_edge {l : List (Edge VertexID E)}
    (hl : ∀ e ∈ l, e.src = u ∧ e ∈ g.l_edges c) (hu : (B u).active_minor_step = true)
    (hdata : ∀ w ∈ g.l_verts c, (s.mirror c w).data = (B w).data) :
    (∀ w, (l.foldl (State.scatter_edge prog true c (B u).prog.state) s).mirror c w =
      (s.mirror c w).receive (received l (signal prog B) w)) ∧
    (∀ c' w, c' ≠ c → (l.foldl (State.scatter_edge prog true c (B u).prog.state) s).mirror c' w =
      s.mirror c' w) ∧
    (l.foldl (State.scatter_edge prog true c (B u).prog.state) s).master = s.master := by
  induction l generalizing s with
  | nil => exact ⟨fun w => by rw [received_nil, Vertex.receive_zero, List.foldl_nil],
      fun _ _ _ => rfl, rfl⟩
  | cons e l ih =>
    obtain ⟨hsrc, he⟩ := hl e List.mem_cons_self
    have hmem : e.src ∈ g.l_verts c := (g.mem_verts c _).mpr ⟨e, he, .inl rfl⟩
    have hmem' : e.dst ∈ g.l_verts c := (g.mem_verts c _).mpr ⟨e, he, .inr rfl⟩
    have hsignal : signal prog B e =
        ((scattered prog B e).1, if (scattered prog B e).2 then 1 else 0) := if_pos (hsrc ▸ hu)
    have hone : State.scatter_edge prog true c (B u).prog.state s e =
        s.setMirror c e.dst ((s.mirror c e.dst).receive (signal prog B e)) := by
      rw [hsignal, SingleCopy.receive_signal, State.scatter_edge, hdata _ hmem, hdata _ hmem',
        ← hsrc]
      rfl
    have hmirror : ∀ w, (State.scatter_edge prog true c (B u).prog.state s e).mirror c w =
        (s.mirror c w).receive (received [e] (signal prog B) w) := by
      intro w
      rw [hone, received_singleton]
      by_cases hw : e.dst = w
      · subst hw
        rw [setMirror_self, if_pos rfl]
      · have hne : ¬(c = c ∧ w = e.dst) := fun h => hw h.2.symm
        rw [setMirror_ne hne, if_neg hw, Vertex.receive_zero]
    have hrest := ih (s := State.scatter_edge prog true c (B u).prog.state s e)
      (fun e' he' => hl e' (List.mem_cons_of_mem _ he')) fun w hw => by
        rw [hmirror]
        exact hdata w hw
    refine ⟨fun w => ?_, fun c' w hc => ?_, ?_⟩
    · rw [List.foldl_cons, hrest.1, hmirror, Vertex.receive_receive, ← received_append]
      rfl
    · have hne : ¬(c' = c ∧ w = e.dst) := fun h => hc h.1
      rw [List.foldl_cons, hrest.2.1 c' w hc, hone, setMirror_ne hne]
    · rw [List.foldl_cons, hrest.2.2, hone, setMirror_master]

/-! ### Scattering -/

namespace Item

/-- What a task scatters to a mirror. -/
def scatters (prog : Program VertexID V E S G) (g : Graph VertexID E n)
    (B : VertexID → Vertex V S G) (c : Fin n) (v : VertexID) : Item VertexID V E S G n → G × ℕ
  | .scatter c' u => if c' = c then received (g.out c u) (signal prog B) v else 0
  | _ => 0

end Item

/-- The mirrors scatter to the mirrors of their core. -/
structure Scattering (prog : Program VertexID V E S G) (g : Graph VertexID E n)
    (B : VertexID → Vertex V S G) (s : State VertexID V S G n)
    (pool : Multiset (Item VertexID V E S G n)) : Prop where
  items : ∀ y ∈ pool, ∃ c, ∃ v ∈ g.l_verts c, y = .scatter c v
  keys : (pool.bind Item.key).Nodup
  master : ∀ v ∈ g.masters, s.master v = mastered (B v)
  mirror : ∀ c, ∀ v ∈ g.l_verts c, ∃ d minor, s.mirror c v = reached (B v) minor d ∧
    d + (pool.map (Item.scatters prog g B c v)).sum = sent prog g B c v
  pending : ∀ c v, .scatter c v ∈ pool →
    (s.mirror c v).active_minor_step = (B v).active_minor_step

theorem Scattering.start (hmaster : ∀ v ∈ g.masters, s.master v = mastered (B v))
    (hmirror : ∀ c, ∀ v ∈ g.l_verts c, s.mirror c v = copied (B v)) :
    Scattering prog g B s (g.forMirrors .scatter : List (Item VertexID V E S G n)) := by
  constructor
  case items => exact fun y hy => mem_forMirrors.mp (mem_coe.mp hy)
  case keys => exact nodup_forMirrors fun _ _ => rfl
  case master => exact hmaster
  case mirror =>
    intro c v hv
    refine ⟨0, (B v).active_minor_step, hmirror c v hv, ?_⟩
    rw [zero_add, Graph.forMirrors, sum_cores c, sent, received_by_source (g.nodup_verts c)]
    · simp only [Item.scatters, if_true, Graph.out]
    · exact fun e he => (g.mem_verts c _).mpr ⟨e, he, .inl rfl⟩
    · exact fun c' u hc => if_neg hc
  case pending =>
    intro c v hy
    obtain ⟨c', v', hv, heq⟩ := mem_forMirrors.mp (mem_coe.mp hy)
    obtain ⟨rfl, rfl⟩ := Item.scatter.inj heq
    rw [hmirror c v hv]
    rfl

theorem Scattering.exec_idle (h : Scattering prog g B s (.scatter c u ::ₘ rest))
    (hu : (B u).active_minor_step = false) :
    Scattering prog g B ((Item.scatter c u).exec prog g true s).1
      (rest + (((Item.scatter c u).exec prog g true s).2 : List (Item VertexID V E S G n))) := by
  have hminor := h.pending c u (mem_cons_self _ _)
  have hexec : (Item.scatter c u).exec prog g true s = (s, []) := by
    simp [Item.exec, hminor, hu]
  rw [hexec]
  simp only [coe_nil, add_zero]
  constructor
  case items => exact fun y hy => h.items y (mem_cons_of_mem hy)
  case keys => exact nodup_rest h.keys
  case master => exact h.master
  case mirror =>
    intro c' v hv
    obtain ⟨d, minor, hcopy, hsum⟩ := h.mirror c' v hv
    have hnone : Item.scatters prog g B c' v (.scatter c u) = 0 := by
      have hzero : received (g.out c' u) (signal prog B) v = 0 := by
        refine received_eq_zero fun e he _ => signal_eq_zero ?_
        have hsrc : e.src = u := by simpa using List.of_mem_filter he
        rw [hsrc, hu]
      rw [Item.scatters, hzero, ite_self]
    rw [map_cons, sum_cons, hnone, zero_add] at hsum
    exact ⟨d, minor, hcopy, hsum⟩
  case pending => exact fun c' v hy => h.pending c' v (mem_cons_of_mem hy)

theorem Scattering.exec_scatter (hmem : u ∈ g.l_verts c)
    (h : Scattering prog g B s (.scatter c u ::ₘ rest)) (hu : (B u).active_minor_step = true) :
    Scattering prog g B ((Item.scatter c u).exec prog g true s).1
      (rest + (((Item.scatter c u).exec prog g true s).2 : List (Item VertexID V E S G n))) := by
  have hminor := h.pending c u (mem_cons_self _ _)
  have hrest := notMem_rest h.keys rfl
  obtain ⟨d₀, minor₀, hself, -⟩ := h.mirror c u hmem
  have hminor₀ : minor₀ = true := by
    rw [hself, hu] at hminor
    exact hminor
  obtain ⟨t, ht⟩ : ∃ t, t = s.setMirror c u (reached (B u) false d₀) := ⟨_, rfl⟩
  have hexec : (Item.scatter c u).exec prog g true s =
      ((g.out c u).foldl (State.scatter_edge prog true c (B u).prog.state) t, []) := by
    simp only [Item.exec, hself, hminor₀, reached, if_true, ht]
  -- only the flag of the mirror itself has changed before the loop
  have hmirror : ∀ c', ∀ v ∈ g.l_verts c', ∃ d minor, t.mirror c' v = reached (B v) minor d ∧
      d + ((Item.scatter c u ::ₘ rest).map (Item.scatters prog g B c' v)).sum =
        sent prog g B c' v := by
    intro c' v hv
    by_cases hat : c' = c ∧ v = u
    · obtain ⟨rfl, rfl⟩ := hat
      obtain ⟨d, minor, hcopy, hsum⟩ := h.mirror c' v hv
      have hd : reached (B v) false d₀ = reached (B v) false d := by
        have heq := hself.symm.trans hcopy
        simp only [reached, Vertex.mk.injEq, Prog.mk.injEq] at heq ⊢
        exact ⟨trivial, heq.2.1, trivial, trivial, heq.2.2.2.2⟩
      exact ⟨d, false, by rw [ht, setMirror_self, hd], hsum⟩
    · rw [ht, setMirror_ne hat]
      exact h.mirror c' v hv
  have hdata : ∀ w ∈ g.l_verts c, (t.mirror c w).data = (B w).data := by
    intro w hw
    obtain ⟨d, minor, hcopy, -⟩ := hmirror c w hw
    rw [hcopy]
    rfl
  have hout : ∀ e ∈ g.out c u, e.src = u ∧ e ∈ g.l_edges c := by
    intro e he
    exact ⟨by simpa using List.of_mem_filter he, List.mem_of_mem_filter he⟩
  obtain ⟨hcore, hother, hmaster⟩ := foldl_scatter_edge hout hu hdata
  rw [hexec]
  simp only [coe_nil, add_zero]
  constructor
  case items => exact fun y hy => h.items y (mem_cons_of_mem hy)
  case keys => exact nodup_rest h.keys
  case master =>
    rw [hmaster, ht]
    exact h.master
  case mirror =>
    intro c' v hv
    obtain ⟨d, minor, hcopy, hsum⟩ := hmirror c' v hv
    rw [map_cons, sum_cons, ← add_assoc] at hsum
    by_cases hc : c' = c
    · subst hc
      rw [Item.scatters, if_pos rfl] at hsum
      exact ⟨_, minor, by rw [hcore, hcopy, reached_receive], hsum⟩
    · have hc' : ¬c = c' := fun heq => hc heq.symm
      rw [Item.scatters, if_neg hc', add_zero] at hsum
      exact ⟨d, minor, by rw [hother c' v hc, hcopy], hsum⟩
  case pending =>
    intro c' v hy
    have hat : ¬(c' = c ∧ v = u) := by
      rintro ⟨rfl, rfl⟩
      exact hrest hy
    rw [← h.pending c' v (mem_cons_of_mem hy)]
    by_cases hc : c' = c
    · subst hc
      rw [hcore, ht, setMirror_ne hat]
      rfl
    · rw [hother c' v hc, ht, setMirror_ne hat]

theorem Scattering.exec (h : Scattering prog g B s (y ::ₘ rest)) :
    Scattering prog g B (y.exec prog g true s).1
      (rest + ((y.exec prog g true s).2 : List (Item VertexID V E S G n))) := by
  obtain ⟨c, u, hu, rfl⟩ := h.items y (mem_cons_self _ _)
  cases hminor : (B u).active_minor_step with
  | true => exact h.exec_scatter hu hminor
  | false => exact h.exec_idle hminor

/-! ### Sending -/

/-- What the master of a mirror is sent: the delta and one activation, or nothing. -/
def notice (prog : Program VertexID V E S G) (g : Graph VertexID E n)
    (B : VertexID → Vertex V S G) (c : Fin n) (v : VertexID) : G × ℕ :=
  if (sent prog g B c v).2 = 0 then 0 else ((sent prog g B c v).1, 1)

theorem receive_notices (hactivates : prog.Activates) {x : Vertex V S G} :
    x.receive ((List.finRange n).map fun c => notice prog g B c v).sum =
      x.receive (received g.edges (signal prog B) v) := by
  have hsum : ∀ cs : List (Fin n),
      (cs.map fun c => notice prog g B c v).sum.1 = (cs.map fun c => sent prog g B c v).sum.1 ∧
      ((cs.map fun c => notice prog g B c v).sum.2 = 0 ↔
        (cs.map fun c => sent prog g B c v).sum.2 = 0) := by
    intro cs
    induction cs with
    | nil => exact ⟨rfl, Iff.rfl⟩
    | cons c cs ih =>
      have hone : (notice prog g B c v).1 = (sent prog g B c v).1 ∧
          ((notice prog g B c v).2 = 0 ↔ (sent prog g B c v).2 = 0) := by
        unfold notice
        split
        · rename_i hzero
          exact ⟨(received_fst_eq_zero hactivates hzero).symm, by simp [hzero]⟩
        · rename_i hne
          exact ⟨rfl, by simp [hne]⟩
      simp only [List.map_cons, List.sum_cons, Prod.fst_add, Prod.snd_add, Nat.add_eq_zero_iff]
      exact ⟨by rw [hone.1, ih.1], by rw [hone.2, ih.2]⟩
  obtain ⟨hdelta, hnumber⟩ := hsum (List.finRange n)
  rw [received_edges]
  simp only [Vertex.receive, hdelta, ne_eq, hnumber]
  rfl

/-- What a task or message brings to a master. -/
def Item.notices (prog : Program VertexID V E S G) (g : Graph VertexID E n)
    (B : VertexID → Vertex V S G) (v : VertexID) : Item VertexID V E S G n → G × ℕ
  | .send c u => if u = v then notice prog g B c v else 0
  | .wake u delta => if u = v then (delta, 1) else 0
  | _ => 0

/-- The mirrors send to the masters what has been scattered to them. -/
structure Sending (prog : Program VertexID V E S G) (g : Graph VertexID E n)
    (B : VertexID → Vertex V S G) (s : State VertexID V S G n)
    (pool : Multiset (Item VertexID V E S G n)) : Prop where
  items : ∀ y ∈ pool, (∃ c, ∃ v ∈ g.l_verts c, y = .send c v) ∨
    ∃ v ∈ g.masters, ∃ delta, y = .wake v delta
  keys : (pool.bind Item.key).Nodup
  before : ∀ c v, .send c v ∈ pool →
    ∃ minor, s.mirror c v = reached (B v) minor (sent prog g B c v)
  after : ∀ c, ∀ v ∈ g.l_verts c, .send c v ∉ pool →
    s.mirror c v = ⟨(B v).data, false, false, ⟨(B v).prog.state, (sent prog g B c v).1⟩⟩
  master : ∀ v ∈ g.masters, ∃ d, s.master v = (mastered (B v)).receive d ∧
    d + (pool.map (Item.notices prog g B v)).sum =
      ((List.finRange n).map fun c => notice prog g B c v).sum

theorem Scattering.send (h : Scattering prog g B s 0) :
    Sending prog g B s (g.forMirrors .send : List (Item VertexID V E S G n)) := by
  have hmem : ∀ c, ∀ v ∈ g.l_verts c, Item.send c v ∈ g.forMirrors
      (.send : Fin n → VertexID → Item VertexID V E S G n) :=
    fun c v hv => mem_forMirrors.mpr ⟨c, v, hv, rfl⟩
  constructor
  case items => exact fun y hy => .inl (mem_forMirrors.mp (mem_coe.mp hy))
  case keys => exact nodup_forMirrors fun _ _ => rfl
  case before =>
    intro c v hy
    obtain ⟨c', v', hv, heq⟩ := mem_forMirrors.mp (mem_coe.mp hy)
    obtain ⟨rfl, rfl⟩ := Item.send.inj heq
    obtain ⟨d, minor, hcopy, hsum⟩ := h.mirror c v hv
    rw [map_zero, sum_zero, add_zero] at hsum
    exact ⟨minor, by rw [hcopy, hsum]⟩
  case after => exact fun c v hv hnot => absurd (hmem c v hv) hnot
  case master =>
    intro v hv
    refine ⟨0, by rw [h.master v hv, Vertex.receive_zero], ?_⟩
    rw [zero_add, sum_mirrors (fun _ _ => rfl)]
    intro c hc
    rw [notice, if_pos]
    rw [sent, received_of_notMem hc]
    rfl

theorem Sending.exec_send (hv : v ∈ g.l_verts c)
    (h : Sending prog g B s (.send c v ::ₘ rest)) :
    Sending prog g B ((Item.send c v).exec prog g true s).1
      (rest + (((Item.send c v).exec prog g true s).2 : List (Item VertexID V E S G n))) := by
  obtain ⟨minor, hbefore⟩ := h.before c v (mem_cons_self _ _)
  have hrest := notMem_rest h.keys rfl
  obtain ⟨new, hnew⟩ : ∃ new : List (Item VertexID V E S G n),
      new = if (sent prog g B c v).2 = 0 then [] else [.wake v (sent prog g B c v).1] := ⟨_, rfl⟩
  have hexec : (Item.send c v).exec prog g true s =
      (s.setMirror c v
        ⟨(B v).data, false, false, ⟨(B v).prog.state, (sent prog g B c v).1⟩⟩, new) := by
    rw [hnew]
    by_cases hzero : (sent prog g B c v).2 = 0
    · simp [Item.exec, hbefore, reached, hzero]
    · simp [Item.exec, hbefore, reached, hzero]
  have hwake : ∀ y ∈ new, y = .wake v (sent prog g B c v).1 := by
    intro y hy
    rw [hnew] at hy
    split at hy
    · cases hy
    · exact List.mem_singleton.mp hy
  have hnotices : ∀ u, ((new : Multiset (Item VertexID V E S G n)).map
      (Item.notices prog g B u)).sum = Item.notices prog g B u (.send c v) := by
    intro u
    rw [hnew]
    by_cases huv : v = u
    · subst huv
      simp only [Item.notices, if_true, notice]
      split
      · rfl
      · simp [Item.notices]
    · rw [Item.notices, if_neg huv]
      split
      · rfl
      · simp [Item.notices, huv]
  rw [hexec]
  constructor
  case items =>
    intro y hy
    rcases mem_add.mp hy with hy | hy
    · exact h.items y (mem_cons_of_mem hy)
    · exact .inr ⟨v, mem_masters_of_mirror hv, _, hwake y (mem_coe.mp hy)⟩
  case keys =>
    have hnone : (new : Multiset (Item VertexID V E S G n)).bind Item.key = 0 := by
      rw [hnew]
      split <;> rfl
    rw [add_bind, hnone, add_zero]
    exact nodup_rest h.keys
  case before =>
    intro c' u hy
    rcases mem_add.mp hy with hold | hold
    · have hne : ¬(c' = c ∧ u = v) := by
        rintro ⟨rfl, rfl⟩
        exact hrest hold
      rw [setMirror_ne hne]
      exact h.before c' u (mem_cons_of_mem hold)
    · cases hwake _ (mem_coe.mp hold)
  case after =>
    intro c' u hu hnot
    by_cases hat : c' = c ∧ u = v
    · obtain ⟨rfl, rfl⟩ := hat
      exact setMirror_self
    · rw [setMirror_ne hat]
      refine h.after c' u hu fun hy => hnot (mem_add.mpr (.inl ?_))
      refine mem_of_mem_cons hy fun heq => hat ?_
      obtain ⟨rfl, rfl⟩ := Item.send.inj heq
      exact ⟨rfl, rfl⟩
  case master =>
    intro u hu
    obtain ⟨d, hcopy, hsum⟩ := h.master u hu
    refine ⟨d, hcopy, ?_⟩
    rw [← hsum, map_add, sum_add, hnotices, map_cons,
      sum_cons, add_comm (rest.map _).sum]

theorem Sending.exec_wake {delta : G} (h : Sending prog g B s (.wake v delta ::ₘ rest)) :
    Sending prog g B ((Item.wake v delta).exec prog g true s).1
      (rest + (((Item.wake v delta).exec prog g true s).2 : List (Item VertexID V E S G n))) := by
  have hmaster : ∀ u, ((Item.wake v delta).exec prog g true s).1.master u =
      if u = v then (s.master v).receive (delta, 1) else s.master u := by
    intro u
    simp only [Item.exec]
    rw [setMaster_master]
    by_cases huv : u = v
    · rw [if_pos huv, if_pos huv, activate_master]
      simp [Vertex.receive, Prog.post_delta]
    · rw [if_neg huv, if_neg huv, activate_master]
      simp [huv]
  have hmirror : ((Item.wake v delta).exec prog g true s).1.mirror = s.mirror := by
    simp only [Item.exec]
    rw [setMaster_mirror, activate_mirror]
  have hnew : ((Item.wake v delta).exec prog g true s).2 = [] := rfl
  rw [hnew]
  simp only [coe_nil, add_zero]
  constructor
  case items => exact fun y hy => h.items y (mem_cons_of_mem hy)
  case keys => exact nodup_rest h.keys
  case before =>
    rw [hmirror]
    exact fun c u hy => h.before c u (mem_cons_of_mem hy)
  case after =>
    intro c u hu hnot
    rw [hmirror]
    refine h.after c u hu fun hy => hnot ?_
    exact mem_of_mem_cons hy fun heq => by cases heq
  case master =>
    intro u hu
    obtain ⟨d, hcopy, hsum⟩ := h.master u hu
    rw [map_cons, sum_cons, ← add_assoc] at hsum
    rw [hmaster]
    by_cases huv : u = v
    · subst huv
      rw [Item.notices, if_pos rfl] at hsum
      exact ⟨_, by rw [if_pos rfl, hcopy, Vertex.receive_receive], hsum⟩
    · have hvu : ¬v = u := fun heq => huv heq.symm
      rw [Item.notices, if_neg hvu, add_zero] at hsum
      exact ⟨d, by rw [if_neg huv, hcopy], hsum⟩

theorem Sending.exec (h : Sending prog g B s (y ::ₘ rest)) :
    Sending prog g B (y.exec prog g true s).1
      (rest + ((y.exec prog g true s).2 : List (Item VertexID V E S G n))) := by
  rcases h.items y (mem_cons_self _ _) with ⟨c, v, hv, rfl⟩ | ⟨v, hv, delta, rfl⟩
  · exact h.exec_send hv
  · exact h.exec_wake

end SplitEngine

end Grappa
