import AdvCompArch.Grappa.SplitEngine
import Mathlib.Algebra.BigOperators.Group.Finset.Piecewise
import Mathlib.Algebra.Order.Ring.Nat

/-! # What the sequential loop computes

    A loop over the edges adds to the cache of a vertex what its edges give, in any order; the
    edges can be those of all cores, one core after another.  What is scattered is a delta and a
    number, of the activations. -/

namespace Grappa

namespace SplitEngine

open List Function

variable {VertexID V E S G M : Type}

variable {prog : Program VertexID V E S G} {s t : VertexID → Vertex V S G} {v : VertexID}

namespace SingleCopy

/-- The vertices have the data and program objects that they had, but for the caches. -/
structure Same (s t : VertexID → Vertex V S G) : Prop where
  data : ∀ v, (t v).data = (s v).data
  state : ∀ v, (t v).prog.state = (s v).prog.state

theorem Same.gathered (h : Same s t) (e : Edge VertexID E) :
    gathered prog t e = gathered prog s e := by
  unfold SingleCopy.gathered
  rw [h.state, h.data, h.data]

theorem Same.scattered (h : Same s t) (e : Edge VertexID E) :
    scattered prog t e = scattered prog s e := by
  unfold SingleCopy.scattered
  rw [h.state, h.data, h.data]

end SingleCopy

variable [DecidableEq VertexID]

/-! ### What a vertex receives -/

section received

variable [AddCommMonoid M] {l l' : List (Edge VertexID E)} {f f' : Edge VertexID E → M}
  {v : VertexID}

/-- The sum along the edges to a vertex. -/
def received (l : List (Edge VertexID E)) (f : Edge VertexID E → M) (v : VertexID) : M :=
  (l.map fun e => if e.dst = v then f e else 0).sum

theorem received_nil : received [] f v = 0 := rfl

theorem received_append : received (l ++ l') f v = received l f v + received l' f v := by
  simp [received]

theorem received_singleton (e : Edge VertexID E) :
    received [e] f v = if e.dst = v then f e else 0 := by
  simp [received]

theorem received_congr (h : ∀ e ∈ l, e.dst = v → f e = f' e) :
    received l f v = received l f' v := by
  unfold received
  congr 1
  refine map_congr_left fun e he => ?_
  by_cases hv : e.dst = v
  · rw [if_pos hv, if_pos hv, h e he hv]
  · rw [if_neg hv, if_neg hv]

theorem received_eq_zero (h : ∀ e ∈ l, e.dst = v → f e = 0) : received l f v = 0 := by
  have hzero : received l (fun _ => (0 : M)) v = 0 := by simp [received]
  rw [received_congr h, hzero]

theorem received_flatMap {α : Type} (cs : List α) (h : α → List (Edge VertexID E)) :
    received (cs.flatMap h) f v = (cs.map fun c => received (h c) f v).sum := by
  induction cs with
  | nil => rfl
  | cons c cs ih =>
    rw [flatMap_cons, received_append, ih]
    rfl

theorem received_by_source {vs : List VertexID} (hnodup : vs.Nodup) (hsrc : ∀ e ∈ l, e.src ∈ vs) :
    received l f v = (vs.map fun u => received (l.filter fun e => e.src = u) f v).sum := by
  induction l with
  | nil => simp [received_nil]
  | cons e l ih =>
    have hrest := ih fun e' he' => hsrc e' (mem_cons_of_mem _ he')
    have hsplit : ∀ u ∈ vs, received ((e :: l).filter fun e => e.src = u) f v =
        (if u = e.src then received [e] f v else 0) +
          received (l.filter fun e => e.src = u) f v := by
      intro u _
      by_cases hu : u = e.src
      · have hself : e.src = u := hu.symm
        rw [if_pos hu, filter_cons_of_pos (by simpa using hself), ← received_append]
        rfl
      · have hother : ¬e.src = u := fun h => hu h.symm
        rw [if_neg hu, zero_add, filter_cons_of_neg (by simpa using hother)]
    have hone : (vs.map fun u => if u = e.src then received [e] f v else 0).sum =
        received [e] f v := by
      rw [← sum_toFinset _ hnodup, Finset.sum_ite_eq',
        if_pos (mem_toFinset.mpr (hsrc e mem_cons_self))]
    rw [map_congr_left hsplit, sum_map_add, hone, ← hrest, ← received_append]
    rfl

end received

/-! ### The loops -/

/-- A delta arrives, with a number of activations. -/
def Vertex.receive [Add G] (x : Vertex V S G) (d : G × ℕ) : Vertex V S G :=
  { x with
    active := x.active || decide (d.2 ≠ 0)
    prog := { x.prog with cache := x.prog.cache + d.1 } }

section receive

variable [AddCommMonoid G] {x : Vertex V S G} {d d' : G × ℕ}

theorem Vertex.receive_zero : x.receive 0 = x := by
  simp [Vertex.receive]

theorem Vertex.receive_receive : (x.receive d).receive d' = x.receive (d + d') := by
  simp only [Vertex.receive, Prod.fst_add, Prod.snd_add, add_assoc, Bool.or_assoc]
  congr 2
  grind

end receive

namespace SingleCopy

/-- A vertex after its turn in the loop. -/
def applied (prog : Program VertexID V E S G) (v : VertexID) (x : Vertex V S G) : Vertex V S G :=
  if x.active then
    let r := prog.apply x.prog v x.data
    { data := r.2, active := false, active_minor_step := prog.scatter_edges r.1 v r.2, prog := r.1 }
  else x

theorem apply_eq (u : VertexID) :
    apply prog s u v = if v = u then applied prog u (s u) else s v := by
  unfold apply applied
  split
  · exact update_apply ..
  · split
    · rename_i hv
      rw [hv]
    · rfl

theorem foldl_apply {l : List VertexID} (hnodup : l.Nodup) (v : VertexID) :
    l.foldl (apply prog) s v = if v ∈ l then applied prog v (s v) else s v := by
  induction l using reverseRecOn generalizing v with
  | nil => simp
  | append_singleton l u ih =>
    have hl : l.Nodup := (nodup_append.mp hnodup).1
    have hu : u ∉ l := by
      intro hmem
      exact (nodup_append.mp hnodup).2.2 u hmem u (mem_singleton_self u) rfl
    have hold : l.foldl (apply prog) s u = s u := by rw [ih hl, if_neg hu]
    rw [foldl_append, foldl_cons, foldl_nil, apply_eq, hold, ih hl]
    by_cases hv : v = u
    · subst hv
      simp
    · simp [hv]

variable [AddCommMonoid G]

/-- What is scattered along an edge if its source scatters. -/
def signal (prog : Program VertexID V E S G) (s : VertexID → Vertex V S G) (e : Edge VertexID E) :
    G × ℕ :=
  if (s e.src).active_minor_step then
    ((scattered prog s e).1, if (scattered prog s e).2 then 1 else 0)
  else 0

theorem receive_signal {x : Vertex V S G} {r : G × Bool} :
    x.receive (r.1, if r.2 then 1 else 0) =
      { x with active := x.active || r.2, prog := x.prog.post_delta r.1 } := by
  cases hr : r.2 with
  | true => simp [Vertex.receive, Prog.post_delta]
  | false => simp [Vertex.receive, Prog.post_delta]

theorem foldl_gather (l : List (Edge VertexID E)) (v : VertexID) :
    l.foldl (gather prog) s v =
      if (s v).active then
        { s v with prog := (s v).prog.post_delta (received l (gathered prog s) v) }
      else s v := by
  induction l using reverseRecOn generalizing v with
  | nil =>
    rw [received_nil]
    simp [Prog.post_delta]
  | append_singleton l e ih =>
    have hsame : Same s (l.foldl (gather prog) s) := by
      constructor <;> intro w <;> rw [ih] <;> split <;> rfl
    have hactive : ∀ w, (l.foldl (gather prog) s w).active = (s w).active := by
      intro w
      rw [ih]
      split <;> rfl
    rw [foldl_append, foldl_cons, foldl_nil, received_append, received_singleton,
      gather, hactive, hsame.gathered]
    by_cases hact : (s e.dst).active
    · rw [if_pos hact]
      by_cases hv : v = e.dst
      · subst hv
        rw [update_self, if_pos rfl, ih, if_pos hact, if_pos hact]
        simp [Prog.post_delta, add_assoc]
      · have hv' : ¬e.dst = v := fun h => hv h.symm
        rw [update_of_ne hv, if_neg hv', ih, add_zero]
    · rw [if_neg hact, ih]
      by_cases hv : e.dst = v
      · subst hv
        rw [if_neg hact, if_neg hact]
      · rw [if_neg hv, add_zero]

theorem foldl_scatter (l : List (Edge VertexID E)) (v : VertexID) :
    l.foldl (scatter prog) s v = (s v).receive (received l (signal prog s) v) := by
  induction l using reverseRecOn generalizing v with
  | nil => rw [received_nil, Vertex.receive_zero, foldl_nil]
  | append_singleton l e ih =>
    have hsame : Same s (l.foldl (scatter prog) s) := by
      refine ⟨fun w => ?_, fun w => ?_⟩
      · rw [ih]
        rfl
      · rw [ih]
        rfl
    have hminor : ∀ w,
        (l.foldl (scatter prog) s w).active_minor_step = (s w).active_minor_step := by
      intro w
      rw [ih]
      rfl
    rw [foldl_append, foldl_cons, foldl_nil, received_append, received_singleton,
      scatter, hminor, hsame.scattered]
    by_cases hsrc : (s e.src).active_minor_step
    · rw [if_pos hsrc]
      have hsignal : signal prog s e =
        ((scattered prog s e).1, if (scattered prog s e).2 then 1 else 0) := if_pos hsrc
      by_cases hv : v = e.dst
      · subst hv
        rw [update_self, if_pos rfl, ← Vertex.receive_receive, ← ih, hsignal,
          receive_signal]
      · have hv' : ¬e.dst = v := fun h => hv h.symm
        rw [update_of_ne hv, if_neg hv', ih, add_zero]
    · have hsignal : signal prog s e = 0 := if_neg hsrc
      rw [if_neg hsrc, ih, hsignal, ite_self, add_zero]

end SingleCopy

end SplitEngine

end Grappa
