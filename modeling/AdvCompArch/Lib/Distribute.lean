import Mathlib.Algebra.Order.Group.Multiset

/-! # Dealing a list out to buckets

    Filtering a list by the bucket of each entry and putting the buckets back
    together loses and repeats nothing. -/

namespace Distribute

open List

variable {α β κ : Type*} [DecidableEq κ]

theorem flatMap_single (buckets : List κ) (hnodup : buckets.Nodup) {k : κ} (hk : k ∈ buckets)
    (b : β) : (buckets.flatMap fun c => if k = c then [b] else []) = [b] := by
  induction buckets with
  | nil => cases hk
  | cons c cs ih =>
    obtain ⟨hc, hcs⟩ := nodup_cons.mp hnodup
    by_cases hkc : k = c
    · subst hkc
      have hnone : (cs.flatMap fun c => if k = c then [b] else []) = [] := by
        rw [flatMap_eq_nil_iff]
        intro c hmem
        have : k ≠ c := fun h => hc (h ▸ hmem)
        simp [this]
      simp [hnone]
    · have hmem : k ∈ cs := (mem_cons.mp hk).resolve_left hkc
      simp [hkc, ih hcs hmem]

theorem nodup_flatMap_of_tag {l : List α} {f : α → List β} (tag : β → α) (hl : l.Nodup)
    (hf : ∀ x ∈ l, (f x).Nodup) (htag : ∀ x, ∀ y ∈ f x, tag y = x) : (l.flatMap f).Nodup := by
  rw [nodup_flatMap]
  refine ⟨hf, hl.imp ?_⟩
  intro x y hxy z hx hy
  exact hxy ((htag x z hx).symm.trans (htag y z hy))

theorem sum_map_coe (l : List α) (f : α → List β) :
    (l.map fun x => (f x : Multiset β)).sum = (l.flatMap f : List β) := by
  induction l with
  | nil => rfl
  | cons x l ih => rw [map_cons, sum_cons, ih, flatMap_cons, Multiset.coe_add]

theorem flatMap_perm_cons {buckets : List κ} (hnodup : buckets.Nodup) {c : κ} (hc : c ∈ buckets)
    {f g : κ → List β} {y : β} (hcons : f c = y :: g c) (hother : ∀ d, d ≠ c → f d = g d) :
    (buckets.flatMap f).Perm (y :: buckets.flatMap g) := by
  induction buckets with
  | nil => cases hc
  | cons d ds ih =>
    obtain ⟨hd, hds⟩ := nodup_cons.mp hnodup
    rw [flatMap_cons, flatMap_cons]
    by_cases hdc : d = c
    · subst hdc
      have hrest : ds.flatMap f = ds.flatMap g :=
        flatMap_congr fun e he => hother e fun h => hd (h ▸ he)
      rw [hcons, hrest, cons_append]
    · have hmem : c ∈ ds := (mem_cons.mp hc).resolve_left (Ne.symm hdc)
      rw [hother d hdc]
      exact ((ih hds hmem).append_left (g d)).trans perm_middle

theorem flatMap_filter_perm (buckets : List κ) (hnodup : buckets.Nodup) (key : α → κ)
    (entry : α → β) (l : List α) (hkey : ∀ a ∈ l, key a ∈ buckets) :
    (buckets.flatMap fun c => (l.filter fun a => key a = c).map entry).Perm (l.map entry) := by
  induction l with
  | nil => simp
  | cons a l ih =>
    have hsplit : (fun c => ((a :: l).filter fun x => key x = c).map entry) =
        fun c => (if key a = c then [entry a] else []) ++
          (l.filter fun x => key x = c).map entry := by
      funext c
      by_cases h : key a = c <;> simp [h]
    rw [hsplit]
    refine (flatMap_append_perm _ _ _).symm.trans ?_
    rw [flatMap_single buckets hnodup (hkey a (by simp)), map_cons, singleton_append]
    exact (ih fun x hx => hkey x (by simp [hx])).cons _

theorem sorted_eq_filter_append (key : α → ℕ) {l : List α}
    (hsorted : l.Pairwise fun a b => key a ≤ key b) {k : ℕ} (hk : ∀ a ∈ l, k ≤ key a) :
    l.filter (fun a => key a = k) ++ l.filter (fun a => key a ≠ k) = l := by
  induction l with
  | nil => rfl
  | cons a l ih =>
    obtain ⟨ha, hl⟩ := pairwise_cons.mp hsorted
    by_cases heq : key a = k
    · simp only [heq, filter_cons_of_pos, decide_true, ne_eq, not_true, decide_false,
        Bool.false_eq_true, not_false_eq_true, filter_cons_of_neg, cons_append]
      rw [ih hl fun b hb => hk b (by simp [hb])]
    · -- from the first greater key on there is no entry of the least one
      have hgt : ∀ b ∈ a :: l, key b ≠ k := by
        intro b hb
        have hak := hk a (by simp)
        rcases mem_cons.mp hb with rfl | hb
        · exact heq
        · have hab := ha b hb
          omega
      rw [filter_eq_nil_iff.mpr (by simpa using hgt),
        filter_eq_self.mpr (by simpa using hgt), nil_append]

/-- A list sorted by a key is the entries of each key, in the order of the keys. -/
theorem sorted_eq_flatMap_filter (key : α → ℕ) (n : ℕ) {l : List α}
    (hsorted : l.Pairwise fun a b => key a ≤ key b) {k : ℕ}
    (hk : ∀ a ∈ l, k ≤ key a ∧ key a < k + n) :
    ((range' k n).flatMap fun c => l.filter fun a => key a = c) = l := by
  induction n generalizing k l with
  | zero =>
    cases l with
    | nil => rfl
    | cons a l =>
      have := hk a (by simp)
      omega
  | succ n ih =>
    have hrest := ih (l := l.filter fun a => key a ≠ k) (k := k + 1)
      (hsorted.sublist filter_sublist) (by
        intro a ha
        obtain ⟨ha, hne⟩ := mem_filter.mp ha
        have := hk a ha
        have hne' : key a ≠ k := by simpa using hne
        omega)
    rw [range'_succ, flatMap_cons]
    calc _ = l.filter (fun a => key a = k) ++ l.filter (fun a => key a ≠ k) := by
          congr 1
          rw [← hrest]
          apply flatMap_congr
          intro c hc
          have hlt : k < c := (mem_range'_1.mp hc).1
          rw [filter_filter]
          apply filter_congr
          intro a _
          by_cases hac : key a = c
          · have : key a ≠ k := by omega
            simp [hac]
            omega
          · simp [hac]
      _ = l := sorted_eq_filter_append key hsorted fun a ha => (hk a ha).1

/-! ### The buckets one after the other -/

section Concatenated

variable (L : ℕ → List α)

/-- Where a bucket starts. -/
def start (b : ℕ) : ℕ := ((range b).flatMap L).length

theorem start_succ (b : ℕ) : start L (b + 1) = start L b + (L b).length := by
  simp [start, range_succ]

theorem getElem?_start {n b j : ℕ} (hb : b < n) (hj : j < (L b).length) :
    ((range n).flatMap L)[start L b + j]? = (L b)[j]? := by
  induction n with
  | zero => omega
  | succ n ih =>
    rw [range_succ, flatMap_append]
    rcases Nat.lt_succ_iff_lt_or_eq.mp hb with hlt | rfl
    · have hsome : (flatMap L (range n))[start L b + j]? = some ((L b)[j]) := by
        rw [ih hlt, getElem?_eq_getElem hj]
      obtain ⟨hbound, _⟩ := List.getElem?_eq_some_iff.mp hsome
      rw [getElem?_append_left hbound, ih hlt]
    · have hle : (flatMap L (range b)).length ≤ start L b + j := Nat.le_add_right _ _
      rw [getElem?_append_right hle]
      simp [start]

theorem exists_start {n a : ℕ} (ha : a < start L n) :
    ∃ b < n, ∃ j < (L b).length, a = start L b + j := by
  induction n with
  | zero => simp [start] at ha
  | succ n ih =>
    rw [start_succ] at ha
    by_cases hn : a < start L n
    · obtain ⟨b, hb, hj⟩ := ih hn
      exact ⟨b, by omega, hj⟩
    · exact ⟨n, Nat.lt_succ_self n, a - start L n, by omega, by omega⟩

theorem pairwise_flatMap_range {R : α → α → Prop} {n : ℕ} (hL : ∀ b < n, (L b).Pairwise R)
    (hlt : ∀ b < n, ∀ c < b, ∀ x ∈ L c, ∀ y ∈ L b, R x y) :
    ((range n).flatMap L).Pairwise R := by
  refine pairwise_flatMap.mpr ⟨fun b hb => hL b (mem_range.mp hb), ?_⟩
  refine List.Pairwise.imp_of_mem ?_ pairwise_lt_range
  intro c b _ hb hcb x hx y hy
  exact hlt b (mem_range.mp hb) c hcb x hx y hy

end Concatenated

end Distribute
