import AdvCompArch.Grappa.AdjacencyDedup
import Mathlib.Data.List.Sort
import Mathlib.Data.Finset.Basic

/-! # The index of a relation

    The query plans go over a relation through `Graph<Vertex>::create(tuples, true)` of the
    applications.  The tuples are scattered to the adjacency array of their first column, in any
    order, and then every vertex sorts its array and removes the duplicates, with the loop that
    `Dedup` models.  Whatever the order, the index of a relation lists every edge once
    (`Of.isIndex`). -/

namespace Grappa

open List

/-- The vertices of an index, and their adjacencies. -/
structure EdgeIndex where
  nv : ℕ
  adj : ℕ → List ℕ

namespace EdgeIndex

/-- `g->nv`, one more than the largest id. -/
def find_nv (tuples : List (ℕ × ℕ)) : ℕ := tuples.foldl (fun nv e => max (max nv e.1) e.2) 0 + 1

/-- The array of a vertex after the delegates of the scattering have run in this order. -/
def scattered (arrivals : List (ℕ × ℕ)) (v : ℕ) : List VertexID :=
  (arrivals.filter fun e => e.1 = v).map fun e => (e.2 : ℤ)

/-- The array of a vertex at the end; `none` if the check of its size fails or the program reads
    beyond its memory.  `after` is in the memory behind the array. -/
def sort_dedup (tuples arrivals : List (ℕ × ℕ)) (after : List VertexID) (v : ℕ) :
    Option (List ℕ) :=
  let sorted := (scattered arrivals v).insertionSort (· ≤ ·)
  if sorted.length = tuples.countP fun e => e.1 = v then
    (Dedup.dedup (sorted ++ after) sorted.length).map fun r => (r.1.take r.2).map Int.toNat
  else none

/-- `Graph<Vertex>::create(tuples, true)`. -/
def create (tuples arrivals : List (ℕ × ℕ)) (after : ℕ → List VertexID) : Option EdgeIndex :=
  if ∀ v < find_nv tuples, (sort_dedup tuples arrivals (after v) v).isSome then
    some ⟨find_nv tuples, fun v => (sort_dedup tuples arrivals (after v) v).getD []⟩
  else none

/-- The program has made this index of the tuples. -/
def Of (E : EdgeIndex) (tuples : List (ℕ × ℕ)) : Prop :=
  ∃ arrivals after, arrivals.Perm tuples ∧ create tuples arrivals after = some E

/-- The index lists every edge of the relation once. -/
structure IsIndex (E : EdgeIndex) (R : Finset (ℕ × ℕ)) : Prop where
  nodup : ∀ v, (E.adj v).Nodup
  mem_adj : ∀ v w, w ∈ E.adj v ↔ (v, w) ∈ R
  lt_nv : ∀ v w, (v, w) ∈ R → v < E.nv

variable {tuples arrivals : List (ℕ × ℕ)} {after : List VertexID} {v w : ℕ}

theorem le_foldl_max (tuples : List (ℕ × ℕ)) (n : ℕ) :
    n ≤ tuples.foldl (fun nv e => max (max nv e.1) e.2) n ∧
      ∀ e ∈ tuples, e.1 ≤ tuples.foldl (fun nv e => max (max nv e.1) e.2) n := by
  induction tuples generalizing n with
  | nil => simp
  | cons e tuples ih =>
    obtain ⟨hn, he⟩ := ih (max (max n e.1) e.2)
    rw [foldl_cons]
    have hmax : n ≤ max (max n e.1) e.2 ∧ e.1 ≤ max (max n e.1) e.2 := by omega
    refine ⟨hmax.1.trans hn, fun d hd => ?_⟩
    rcases mem_cons.mp hd with rfl | hd
    · exact hmax.2.trans hn
    · exact he d hd

theorem lt_find_nv (h : (v, w) ∈ tuples) : v < find_nv tuples :=
  Nat.lt_succ_of_le ((le_foldl_max tuples 0).2 _ h)

theorem mem_scattered (harrivals : arrivals.Perm tuples) {x : VertexID} :
    x ∈ scattered arrivals v ↔ ∃ w : ℕ, x = w ∧ (v, w) ∈ tuples := by
  simp only [scattered, mem_map, mem_filter, decide_eq_true_eq, harrivals.mem_iff]
  constructor
  · intro h
    obtain ⟨e, ⟨he, rfl⟩, rfl⟩ := h
    exact ⟨e.2, rfl, he⟩
  · intro h
    obtain ⟨w, rfl, hw⟩ := h
    exact ⟨(v, w), ⟨hw, rfl⟩, rfl⟩

/-- **The array of a vertex**, when the loop that removes the duplicates comes to its end. -/
theorem sort_dedup_spec (harrivals : arrivals.Perm tuples) {l : List ℕ}
    (h : sort_dedup tuples arrivals after v = some l) :
    l.Nodup ∧ ∀ w, w ∈ l ↔ (v, w) ∈ tuples := by
  simp only [sort_dedup] at h
  split at h
  · have hsorted := pairwise_insertionSort (· ≤ ·) (scattered arrivals v)
    obtain ⟨hgood, hbad⟩ := @Dedup.dedup_eq _ after hsorted
    obtain ⟨r, hr, rfl⟩ := Option.map_eq_some_iff.mp h
    obtain ⟨u, words, hu, hdedup, htake⟩ := hgood (by
      by_contra hends
      rw [hbad hends] at hr
      cases hr)
    rw [hdedup] at hr
    cases hr
    dsimp only
    rw [htake]
    have hmem : ∀ x ∈ u, ∃ w : ℕ, x = w ∧ (v, w) ∈ tuples := by
      intro x hx
      rw [hu.mem_iff, mem_insertionSort] at hx
      exact (mem_scattered harrivals).mp hx
    constructor
    · refine Nodup.map_on ?_ (hu.increasing.imp ne_of_lt)
      intro x hx y hy heq
      obtain ⟨a, rfl, -⟩ := hmem x hx
      obtain ⟨b, rfl, -⟩ := hmem y hy
      simpa using heq
    · intro w
      rw [mem_map]
      constructor
      · intro h
        obtain ⟨x, hx, rfl⟩ := h
        obtain ⟨a, rfl, ha⟩ := hmem x hx
        exact ha
      · intro h
        refine ⟨(w : ℤ), ?_, Int.toNat_natCast w⟩
        rw [hu.mem_iff, mem_insertionSort, mem_scattered harrivals]
        exact ⟨w, rfl, h⟩
  · cases h

theorem sort_dedup_none (harrivals : arrivals.Perm tuples) (h : ∀ w, (v, w) ∉ tuples) :
    sort_dedup tuples arrivals after v = some [] := by
  have hscattered : scattered arrivals v = [] := by
    rw [eq_nil_iff_forall_not_mem]
    intro x hx
    obtain ⟨w, -, hw⟩ := (mem_scattered harrivals).mp hx
    exact h w hw
  have hcount : tuples.countP (fun e => e.1 = v) = 0 := by
    rw [countP_eq_zero]
    intro e he heq
    exact h e.2 (by rw [← of_decide_eq_true heq]; exact he)
  simp [sort_dedup, hscattered, hcount, Dedup.dedup, Dedup.loop]

theorem Of.isIndex {E : EdgeIndex} (h : E.Of tuples) : E.IsIndex tuples.toFinset := by
  obtain ⟨arrivals, after, harrivals, hcreate⟩ := h
  unfold create at hcreate
  split at hcreate <;> rename_i hsome
  · cases hcreate
    have hspec : ∀ v, ∃ l, sort_dedup tuples arrivals (after v) v = some l := by
      intro v
      by_cases hv : v < find_nv tuples
      · exact Option.isSome_iff_exists.mp (hsome v hv)
      · exact ⟨[], sort_dedup_none harrivals fun w hw => hv (lt_find_nv hw)⟩
    refine ⟨fun v => ?_, fun v w => ?_, fun v w h => lt_find_nv (mem_toFinset.mp h)⟩
    · obtain ⟨l, hl⟩ := hspec v
      dsimp only
      rw [hl]
      exact (sort_dedup_spec harrivals hl).1
    · obtain ⟨l, hl⟩ := hspec v
      dsimp only
      rw [hl, mem_toFinset]
      exact (sort_dedup_spec harrivals hl).2 w
  · cases hcreate

end EdgeIndex

end Grappa
