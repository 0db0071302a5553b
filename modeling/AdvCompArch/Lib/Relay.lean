import Mathlib.Algebra.BigOperators.Group.List.Basic
import Mathlib.Algebra.Order.Ring.Int
import Mathlib.Data.List.Nodup
import Mathlib.Data.List.TakeWhile

/-! # Readers that take over from each other

    A sequence of records is read by several readers.  Each starts at the first record from
    a position on, and goes on to the next record as long as it has not come to its stop.
    Then each record should be read by one of them.

    * `perm_reads_iff`: every record is read exactly once exactly if, at each record, one
      reader starts, or a reader that has started before gets there, but not both. -/

namespace Relay

open List

/-- Where a record starts, where a reader is when it has read it, and whether a reader that
    comes from the record before is stopped. -/
structure Layout (R : Type*) where
  start : R → ℤ
  reach : R → ℤ
  blocked : R → Bool

structure Reader where
  first : ℤ
  stop : ℤ
  deriving DecidableEq

variable {R : Type*} (L : Layout R)

/-- What is read after a record. -/
def follow (c : Reader) : R → List R → List R
  | _, [] => []
  | p, r :: l => if L.reach p < c.stop ∧ L.blocked r = false then r :: follow c r l else []

/-- What is read from the first record on. -/
def fresh (c : Reader) : List R → List R
  | [] => []
  | r :: l => r :: follow L c r l

/-- What is read. -/
def reads (c : Reader) (l : List R) : List R :=
  if c.first < c.stop then fresh L c (l.dropWhile fun r => decide (L.start r < c.first)) else []

/-- A reader starts at `r`, which comes after `prev`. -/
def Starts (c : Reader) (prev : Option R) (r : R) : Prop :=
  c.first < c.stop ∧ c.first ≤ L.start r ∧ ∀ p ∈ prev, L.start p < c.first

/-- A reader that has read `prev` goes on to `r`. -/
def Passes (c : Reader) (prev : Option R) (r : R) : Prop :=
  L.blocked r = false ∧ ∃ p ∈ prev, L.reach p < c.stop

instance (c : Reader) (prev : Option R) (r : R) : Decidable (Starts L c prev r) :=
  inferInstanceAs (Decidable (_ ∧ _ ∧ _))

instance (c : Reader) (prev : Option R) (r : R) : Decidable (Passes L c prev r) :=
  inferInstanceAs (Decidable (_ ∧ _))

/-- Some reader that starts at `prev` or before has its stop after `prev`, and is not stopped. -/
def Handed (C : List Reader) (prev : Option R) (r : R) : Prop :=
  L.blocked r = false ∧
    ∃ p ∈ prev, ∃ c ∈ C, c.first < c.stop ∧ c.first ≤ L.start p ∧ L.reach p < c.stop

instance (C : List Reader) (prev : Option R) (r : R) : Decidable (Handed L C prev r) :=
  inferInstanceAs (Decidable (_ ∧ _))

/-- At `r` one reader starts, or a reader gets there, but not both. -/
def Once (C : List Reader) (prev : Option R) (r : R) : Prop :=
  (C.countP fun c => decide (Starts L c prev r)) + (if Handed L C prev r then 1 else 0) = 1

instance (C : List Reader) (prev : Option R) (r : R) : Decidable (Once L C prev r) :=
  inferInstanceAs (Decidable (_ = _))

/-! ### Which records are read -/

/-- A record is read; it comes first, and then those before it, the last first. -/
def takes (c : Reader) : List R → Bool
  | [] => false
  | r :: ps => decide (Starts L c ps.head? r) || (decide (Passes L c ps.head? r) && takes c ps)

/-- What is read of the rest of the records. -/
def scan (c : Reader) : List R → List R → List R
  | _, [] => []
  | ps, r :: l => if takes L c (r :: ps) then r :: scan c (r :: ps) l else scan c (r :: ps) l

variable {L} {C : List Reader} {c d : Reader} {l ps : List R} {p r : R}

/-- A reader has started where it reads. -/
theorem first_le_of_takes (hsorted : (p :: ps).Pairwise fun r s => L.start s < L.start r)
    (h : takes L c (p :: ps) = true) : c.first < c.stop ∧ c.first ≤ L.start p := by
  induction ps generalizing p with
  | nil =>
    simp only [takes, Bool.and_false, Bool.or_false, decide_eq_true_eq] at h
    exact ⟨h.1, h.2.1⟩
  | cons q ps ih =>
    obtain ⟨hlt, hrest⟩ := pairwise_cons.mp hsorted
    rw [takes, Bool.or_eq_true, Bool.and_eq_true, decide_eq_true_eq] at h
    obtain hstarts | ⟨-, htakes⟩ := h
    · exact ⟨hstarts.1, hstarts.2.1⟩
    · have hq := ih hrest htakes
      exact ⟨hq.1, hq.2.trans (hlt q mem_cons_self).le⟩

theorem takes_cons_of_le (hfirst : c.first ≤ L.start p) :
    takes L c (r :: p :: ps) = (decide (Passes L c (some p) r) && takes L c (p :: ps)) := by
  have hstarts : ¬Starts L c (some p) r := fun h => absurd (h.2.2 p rfl) (by omega)
  rw [takes, head?_cons, decide_eq_false hstarts, Bool.false_or]

theorem scan_of_not_takes (hsorted : (p :: l).Pairwise fun r s => L.start r < L.start s)
    (hfirst : c.first ≤ L.start p) (h : takes L c (p :: ps) = false) :
    scan L c (p :: ps) l = [] := by
  induction l generalizing p ps with
  | nil => rfl
  | cons r l ih =>
    obtain ⟨hlt, hrest⟩ := pairwise_cons.mp hsorted
    have hr : takes L c (r :: p :: ps) = false := by
      rw [takes_cons_of_le hfirst, h, Bool.and_false]
    rw [scan, hr, if_neg Bool.false_ne_true]
    exact ih hrest (hfirst.trans (hlt r mem_cons_self).le) hr

theorem scan_of_takes (hsorted : (p :: l).Pairwise fun r s => L.start r < L.start s)
    (hfirst : c.first ≤ L.start p) (h : takes L c (p :: ps) = true) :
    scan L c (p :: ps) l = follow L c p l := by
  induction l generalizing p ps with
  | nil => rfl
  | cons r l ih =>
    obtain ⟨hlt, hrest⟩ := pairwise_cons.mp hsorted
    have hr := hfirst.trans (hlt r mem_cons_self).le
    have hpasses : Passes L c (some p) r ↔ L.reach p < c.stop ∧ L.blocked r = false := by
      simp [Passes, and_comm]
    have htakes : takes L c (r :: p :: ps) = decide (L.reach p < c.stop ∧ L.blocked r = false) := by
      rw [takes_cons_of_le hfirst, h, Bool.and_true, decide_eq_decide]
      exact hpasses
    rw [scan, follow, htakes]
    by_cases hgo : L.reach p < c.stop ∧ L.blocked r = false
    · rw [if_pos hgo, if_pos (decide_eq_true hgo)]
      exact congrArg _ (ih hrest hr (htakes.trans (decide_eq_true hgo)))
    · rw [if_neg hgo, if_neg (by simpa using hgo)]
      exact scan_of_not_takes hrest hr (htakes.trans (decide_eq_false hgo))

theorem scan_eq_reads (hsorted : l.Pairwise fun r s => L.start r < L.start s)
    (hbefore : ∀ p ∈ ps.head?, L.start p < c.first) (h : takes L c ps = false) :
    scan L c ps l = reads L c l := by
  induction l generalizing ps with
  | nil => simp [scan, reads, fresh]
  | cons r l ih =>
    have hrest := (pairwise_cons.mp hsorted).2
    have htakes : takes L c (r :: ps) = decide (Starts L c ps.head? r) := by
      rw [takes, h, Bool.and_false, Bool.or_false]
    by_cases hr : L.start r < c.first
    · -- the reader starts later
      have hnot : takes L c (r :: ps) = false := by
        rw [htakes]
        exact decide_eq_false fun hs => absurd hs.2.1 (by omega)
      rw [scan, hnot, if_neg Bool.false_ne_true, ih hrest _ hnot]
      · simp [reads, hr]
      · intro p hp
        cases hp
        exact hr
    · have hfirst : c.first ≤ L.start r := by omega
      by_cases hactive : c.first < c.stop
      · have hyes : takes L c (r :: ps) = true := by
          rw [htakes]
          exact decide_eq_true ⟨hactive, hfirst, hbefore⟩
        rw [scan, hyes, if_pos rfl, scan_of_takes hsorted hfirst hyes]
        simp [reads, hactive, hr, fresh]
      · have hnot : takes L c (r :: ps) = false := by
          rw [htakes]
          exact decide_eq_false fun hs => hactive hs.1
        rw [scan, hnot, if_neg Bool.false_ne_true, scan_of_not_takes hsorted hfirst hnot]
        simp [reads, hactive]

theorem scan_sublist : (scan L c ps l).Sublist l := by
  induction l generalizing ps with
  | nil => exact List.Sublist.slnil
  | cons r l ih =>
    rw [scan]
    split
    · exact ih.cons_cons r
    · exact ih.cons r

theorem dropWhile_of_starts {pre post : List R} {prev : Option R}
    (hsorted : (pre ++ r :: post).Pairwise fun r s => L.start r < L.start s)
    (hprev : pre.getLast? = prev) (h : Starts L c prev r) :
    (pre ++ r :: post).dropWhile (fun r => decide (L.start r < c.first)) = r :: post := by
  have hpre : ∀ x ∈ pre, decide (L.start x < c.first) = true := by
    intro x hx
    rw [decide_eq_true_eq]
    obtain ⟨p, hp⟩ : ∃ p, pre.getLast? = some p :=
      Option.isSome_iff_exists.mp (getLast?_isSome.mpr (ne_nil_of_mem hx))
    obtain ⟨front, rfl⟩ := getLast?_eq_some_iff.mp hp
    have hlast : L.start p < c.first := h.2.2 p (hprev ▸ hp)
    rcases mem_append.mp hx with hx | hx
    · have hfront := (pairwise_append.mp (pairwise_append.mp hsorted).1).2.2 x hx p
        (mem_singleton_self p)
      omega
    · rwa [mem_singleton.mp hx]
  rw [dropWhile_append_of_pos hpre, dropWhile_cons_of_neg]
  rw [decide_eq_true_eq]
  have := h.2.1
  omega

theorem starts_of_dropWhile {post : List R} (hactive : c.first < c.stop)
    (h : l.dropWhile (fun r => decide (L.start r < c.first)) = r :: post) :
    ∃ pre, l = pre ++ r :: post ∧ Starts L c pre.getLast? r := by
  refine ⟨l.takeWhile fun r => decide (L.start r < c.first), ?_, hactive, ?_, ?_⟩
  · rw [← h, takeWhile_append_dropWhile]
  · have hr := head?_dropWhile_not (fun r => decide (L.start r < c.first)) l
    rw [h] at hr
    simpa using hr
  · intro p hp
    have hmem := mem_takeWhile_imp (mem_of_getLast? hp)
    simpa using hmem

theorem follow_subset : ∀ x ∈ follow L c p l, x ∈ l := by
  induction l generalizing p with
  | nil => exact fun x hx => hx
  | cons r l ih =>
    intro x hx
    rw [follow] at hx
    split at hx
    · rcases mem_cons.mp hx with rfl | hx
      · exact mem_cons_self
      · exact mem_cons_of_mem _ (ih x hx)
    · cases hx

theorem fresh_subset : ∀ x ∈ fresh L c l, x ∈ l := by
  cases l with
  | nil => exact fun x hx => hx
  | cons r l =>
    intro x hx
    rcases mem_cons.mp hx with rfl | hx
    · exact mem_cons_self
    · exact mem_cons_of_mem _ (follow_subset x hx)

theorem reads_subset (h : r ∈ reads L c l) : r ∈ l := by
  rw [reads] at h
  split at h
  · exact (dropWhile_suffix _).subset (fresh_subset r h)
  · cases h

/-! ### Reading exactly once -/

theorem countP_eq_sum (t : Reader → Bool) :
    (C.map fun c => if t c then 1 else 0).sum = C.countP t := by
  induction C with
  | nil => rfl
  | cons c C ih =>
    rw [map_cons, sum_cons, ih, countP_cons, add_comm]

/-- Each record is read once exactly if it is read by one reader. -/
theorem perm_scan_iff (hnodup : l.Nodup) :
    (C.flatMap fun c => scan L c [] l).Perm l ↔
      ∀ pre r post, l = pre ++ r :: post → C.countP (fun c => takes L c (r :: pre.reverse)) = 1 := by
  classical
  have hcount : ∀ c pre r post, ∀ ps, (pre ++ r :: post).Nodup →
      (scan L c ps (pre ++ r :: post)).count r =
        if takes L c (r :: (pre.reverse ++ ps)) then 1 else 0 := by
    intro c pre r post
    induction pre with
    | nil =>
      intro ps hnd
      have hpost : (scan L c (r :: ps) post).count r = 0 :=
        count_eq_zero_of_not_mem fun hr => (nodup_cons.mp hnd).1 (scan_sublist.subset hr)
      simp only [nil_append, reverse_nil, scan]
      by_cases htakes : takes L c (r :: ps) = true
      · simp [htakes, hpost]
      · simp [htakes, hpost]
    | cons q pre ih =>
      intro ps hnd
      obtain ⟨hq, hnd⟩ := nodup_cons.mp hnd
      have hne : q ≠ r := fun h => hq (by simp [h])
      have hstep := ih (q :: ps) hnd
      simp only [cons_append, scan, reverse_cons, append_assoc, nil_append]
      rw [← hstep]
      split <;> simp [hne]
  have hsplit : ∀ pre r post, l = pre ++ r :: post →
      (C.flatMap fun c => scan L c [] l).count r = C.countP fun c => takes L c (r :: pre.reverse) := by
    intro pre r post hl
    have hone : ∀ c, (scan L c [] l).count r = if takes L c (r :: pre.reverse) then 1 else 0 := by
      intro c
      rw [hl, hcount c pre r post [] (hl ▸ hnodup), append_nil]
    rw [count_flatMap, ← countP_eq_sum]
    simp only [Function.comp_def, hone]
  rw [perm_iff_count]
  constructor
  · intro h pre r post hl
    have hr : r ∈ l := by simp [hl]
    rw [← hsplit pre r post hl, h r, count_eq_one_of_mem hnodup hr]
  · intro h r
    by_cases hr : r ∈ l
    · obtain ⟨pre, post, hl⟩ := append_of_mem hr
      rw [hsplit pre r post hl, h pre r post hl, count_eq_one_of_mem hnodup hr]
    · rw [count_eq_zero_of_not_mem hr, count_eq_zero_of_not_mem]
      intro hmem
      obtain ⟨c, -, hc⟩ := mem_flatMap.mp hmem
      exact hr (scan_sublist.subset hc)

theorem eq_of_countP_eq_one {t : Reader → Bool} (h : C.countP t = 1) (hc : c ∈ C) (hd : d ∈ C)
    (htc : t c = true) (htd : t d = true) : c = d := by
  rw [countP_eq_length_filter] at h
  obtain ⟨e, he⟩ := length_eq_one_iff.mp h
  have hmem : ∀ f ∈ C, t f = true → f = e := by
    intro f hf htf
    have : f ∈ C.filter t := mem_filter.mpr ⟨hf, htf⟩
    rwa [he, mem_singleton] at this
  rw [hmem c hc htc, hmem d hd htd]

theorem countP_or {s t : Reader → Bool} (hdisjoint : ∀ c ∈ C, s c = true → t c = false) :
    (C.countP fun c => s c || t c) = C.countP s + C.countP t := by
  induction C with
  | nil => rfl
  | cons c C ih =>
    have hc := hdisjoint c mem_cons_self
    simp only [countP_cons, ih fun d hd => hdisjoint d (mem_cons_of_mem _ hd)]
    cases hs : s c with
    | false => simp [add_assoc]
    | true => simp [hc hs]; omega

/-- Up to the records of `ps` each is read once. -/
def OnceUpTo (L : Layout R) (C : List Reader) (ps : List R) : Prop :=
  ∀ r qs, (r :: qs) <:+ ps → C.countP (fun c => takes L c (r :: qs)) = 1

theorem OnceUpTo.tail (h : OnceUpTo L C (p :: ps)) : OnceUpTo L C ps :=
  fun r qs hsuffix => h r qs (hsuffix.trans (suffix_cons p ps))

theorem onceUpTo_cons : OnceUpTo L C (p :: ps) ↔
    C.countP (fun c => takes L c (p :: ps)) = 1 ∧ OnceUpTo L C ps := by
  constructor
  · intro h
    exact ⟨h p ps (suffix_refl _), h.tail⟩
  · intro h r qs hsuffix
    rcases suffix_cons_iff.mp hsuffix with heq | hsuffix
    · obtain ⟨rfl, rfl⟩ := cons.inj heq
      exact h.1
    · exact h.2 r qs hsuffix

variable (hC : ∀ c ∈ C, ∀ d ∈ C, c.first < d.first → c.stop ≤ d.stop)

include hC

/-- **The reader of a record** has the last stop of all that start up to there. -/
theorem exists_last (hsorted : (p :: ps).Pairwise fun r s => L.start s < L.start r)
    (h : OnceUpTo L C (p :: ps)) : ∃ c ∈ C, takes L c (p :: ps) = true ∧
      ∀ d ∈ C, d.first < d.stop → d.first ≤ L.start p → d.stop ≤ c.stop := by
  induction ps generalizing p with
  | nil =>
    obtain ⟨hone, -⟩ := onceUpTo_cons.mp h
    obtain ⟨c, hc, htakes⟩ := countP_pos_iff.mp (hone ▸ Nat.one_pos)
    refine ⟨c, hc, htakes, ?_⟩
    intro d hd hactive hfirst
    have hd' : takes L d [p] = true := by simp [takes, Starts, hactive, hfirst]
    rw [eq_of_countP_eq_one hone hc hd htakes hd']
  | cons q ps ih =>
    obtain ⟨hone, hrest⟩ := onceUpTo_cons.mp h
    obtain ⟨hlt, hsorted⟩ := pairwise_cons.mp hsorted
    obtain ⟨c, hc, htakes⟩ := countP_pos_iff.mp (hone ▸ Nat.one_pos)
    refine ⟨c, hc, htakes, ?_⟩
    intro d hd hactive hfirst
    by_cases hbefore : d.first ≤ L.start q
    · -- `d` has started at `q` or before
      have hcases := htakes
      rw [takes, Bool.or_eq_true, Bool.and_eq_true, decide_eq_true_eq] at hcases
      obtain hstarts | ⟨-, hq⟩ := hcases
      · have hcq := hstarts.2.2 q rfl
        exact hC d hd c hc (by omega)
      · obtain ⟨c', hc', htakes', hlast⟩ := ih hsorted hrest
        have hone' := (onceUpTo_cons.mp hrest).1
        rw [eq_of_countP_eq_one hone' hc hc' hq htakes']
        exact hlast d hd hactive hbefore
    · -- `d` starts at `p`
      have hd' : takes L d (p :: q :: ps) = true := by
        rw [takes, Bool.or_eq_true, decide_eq_true_eq]
        refine .inl ⟨hactive, hfirst, ?_⟩
        intro x hx
        cases hx
        omega
      rw [eq_of_countP_eq_one hone hc hd htakes hd']

/-- **The next record** is read by those who start there, and by the one who gets there. -/
theorem countP_takes (hsorted : (r :: ps).Pairwise fun r s => L.start s < L.start r)
    (h : OnceUpTo L C ps) : C.countP (fun c => takes L c (r :: ps)) =
      (C.countP fun c => decide (Starts L c ps.head? r)) +
        if Handed L C ps.head? r then 1 else 0 := by
  obtain ⟨hlt, hsorted⟩ := pairwise_cons.mp hsorted
  have hdisjoint : ∀ c ∈ C, decide (Starts L c ps.head? r) = true →
      (decide (Passes L c ps.head? r) && takes L c ps) = false := by
    intro c _ hstarts
    rw [decide_eq_true_eq] at hstarts
    cases ps with
    | nil => simp [takes]
    | cons p ps =>
      by_contra htakes
      rw [Bool.not_eq_false, Bool.and_eq_true] at htakes
      have hle := (first_le_of_takes hsorted htakes.2).2
      have hgt := hstarts.2.2 p rfl
      omega
  have hsum := countP_or hdisjoint
  simp only [takes]
  rw [hsum]
  congr 1
  cases ps with
  | nil => simp [takes, Handed]
  | cons p ps =>
    obtain ⟨c, hc, htakes, hlast⟩ := exists_last hC hsorted h
    have hone := (onceUpTo_cons.mp h).1
    have honly : ∀ d ∈ C, takes L d (p :: ps) = true → d = c := fun d hd htd =>
      eq_of_countP_eq_one hone hd hc htd htakes
    have hactive := first_le_of_takes hsorted htakes
    by_cases hgo : Passes L c (some p) r
    · have hhanded : Handed L C (some p) r := by
        obtain ⟨hblocked, q, hq, hreach⟩ := hgo
        exact ⟨hblocked, q, hq, c, hc, hactive.1, Option.some.inj hq ▸ hactive.2, hreach⟩
      rw [head?_cons, if_pos hhanded, ← hone]
      apply countP_congr
      intro d hd
      rw [Bool.and_eq_true, and_iff_right_iff_imp, decide_eq_true_eq]
      intro htd
      rwa [honly d hd htd]
    · have hhanded : ¬Handed L C (some p) r := by
        intro hhanded
        obtain ⟨hblocked, q, hq, d, hd, hdactive, hdfirst, hreach⟩ := hhanded
        cases hq
        exact hgo ⟨hblocked, p, rfl, hreach.trans_le (hlast d hd hdactive hdfirst)⟩
      rw [head?_cons, if_neg hhanded, countP_eq_zero]
      intro d hd
      rw [Bool.and_eq_true, decide_eq_true_eq]
      intro hd'
      exact hgo (honly d hd hd'.2 ▸ hd'.1)

theorem onceUpTo_iff (hsorted : ps.Pairwise fun r s => L.start s < L.start r) :
    OnceUpTo L C ps ↔ ∀ r qs, (r :: qs) <:+ ps → Once L C qs.head? r := by
  induction ps with
  | nil => simp [OnceUpTo]
  | cons p ps ih =>
    have hrest := ih (pairwise_cons.mp hsorted).2
    have hcases : (∀ r qs, (r :: qs) <:+ (p :: ps) → Once L C qs.head? r) ↔
        Once L C ps.head? p ∧ ∀ r qs, (r :: qs) <:+ ps → Once L C qs.head? r := by
      constructor
      · intro h
        exact ⟨h p ps (suffix_refl _),
          fun r qs hsuffix => h r qs (hsuffix.trans (suffix_cons p ps))⟩
      · intro h r qs hsuffix
        rcases suffix_cons_iff.mp hsuffix with heq | hsuffix
        · obtain ⟨rfl, rfl⟩ := cons.inj heq
          exact h.1
        · exact h.2 r qs hsuffix
    rw [onceUpTo_cons, hcases, ← hrest]
    constructor
    · intro h
      refine ⟨?_, h.2⟩
      rw [Once, ← countP_takes hC hsorted h.2]
      exact h.1
    · intro h
      refine ⟨?_, h.2⟩
      rw [countP_takes hC hsorted h.2]
      exact h.1

/-- **Every record is read exactly once** exactly if one reader starts there, or a reader gets
    there, but not both. -/
theorem perm_reads_iff (hsorted : l.Pairwise fun r s => L.start r < L.start s) :
    (C.flatMap fun c => reads L c l).Perm l ↔
      ∀ pre r post, l = pre ++ r :: post → Once L C pre.getLast? r := by
  have hnodup : l.Nodup := hsorted.imp fun hlt heq => absurd (heq ▸ hlt) (lt_irrefl _)
  have hscan : ∀ c, reads L c l = scan L c [] l := fun c =>
    (scan_eq_reads hsorted (by simp) rfl).symm
  have hreverse : l.reverse.Pairwise fun r s => L.start s < L.start r := pairwise_reverse.mpr hsorted
  have hiff := onceUpTo_iff hC hreverse
  have hsuffix : ∀ r qs, (r :: qs) <:+ l.reverse ↔ ∃ post, l = qs.reverse ++ r :: post := by
    intro r qs
    constructor
    · intro h
      obtain ⟨t, ht⟩ := h
      refine ⟨t.reverse, ?_⟩
      rw [← reverse_reverse l, ← ht]
      simp
    · intro h
      obtain ⟨post, rfl⟩ := h
      exact ⟨post.reverse, by simp⟩
  simp only [hscan]
  rw [perm_scan_iff hnodup]
  simp only [OnceUpTo, hsuffix] at hiff
  constructor
  · intro h pre r post hl
    have := hiff.mp (fun r qs hq => ?_) r pre.reverse ⟨post, by rw [reverse_reverse, hl]⟩
    · rwa [head?_reverse] at this
    · obtain ⟨post, hl⟩ := hq
      have := h qs.reverse r post hl
      rwa [reverse_reverse] at this
  · intro h pre r post hl
    apply hiff.mpr (fun r qs hq => ?_) r pre.reverse ⟨post, by rw [reverse_reverse, hl]⟩
    obtain ⟨post, hl⟩ := hq
    have := h qs.reverse r post hl
    rwa [getLast?_reverse] at this

end Relay
