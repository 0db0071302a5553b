import Mathlib.Algebra.Order.Ring.Int
import Mathlib.Data.List.Perm.Basic

/-! # References to a memory region

    The driver lets another domain reach the pages of a region by three groups of grants: the
    root page, the pages of descriptors, whose references the root page holds, and the pages of
    the region, whose references the descriptors hold.  Where a page cannot be had or granted, the
    grants that were made are to be ended. -/

namespace Sonuma.Grants

open List

def MAX_REGION_PAGES : ℕ := 4096

def MAX_DESC_PAGES : ℕ := 256

def MAX_ROOT_DESC_PAGES : ℕ := 16

/-- What the kernel answers to the `k`th call of each of these functions; a negative number is no
    reference. -/
structure Kernel where
  get_free_page : ℕ → Bool
  grant : ℕ → ℤ

/-- The references that are granted; and how often a grant was asked for in this call, the grants
    made in it and the references ended in it. -/
structure GrantTable where
  outstanding : List ℤ
  calls : ℕ
  made : List ℤ
  ended : List ℤ

structure MrReferenceInfo where
  root_desc_gref : ℤ
  /-- `root_mr_ref->desc_grefs` -/
  desc_grefs : ℕ → ℤ
  /-- `mr_refs[i]->desc_grefs` -/
  mr_refs : ℕ → ℕ → ℤ

structure State where
  table : GrantTable
  mr_info : MrReferenceInfo

/-- How a call fails. -/
inductive Stop where
  /-- It returns `NULL`. -/
  | null (table : GrantTable)
  /-- A loop counts on below 0, outside of its array. -/
  | wild

namespace GrantTable

variable (t : GrantTable)

def gnttab_grant_foreign_access (k : Kernel) : ℤ × GrantTable :=
  let ref := k.grant t.calls
  (ref,
    { t with
      calls := t.calls + 1
      outstanding := if ref < 0 then t.outstanding else t.outstanding ++ [ref]
      made := if ref < 0 then t.made else t.made ++ [ref] })

def gnttab_end_foreign_access_ref (ref : ℤ) : GrantTable :=
  { t with outstanding := t.outstanding.erase ref, ended := t.ended ++ [ref] }

/-- `while(--i)`: the references before number `i` are ended, but for number 0; for `i = 0` the
    loop goes on with -1. -/
def end_before (grefs : ℕ → ℤ) : ℕ → GrantTable → Except Stop GrantTable
  | 0, _ => .error .wild
  | 1, t => .ok t
  | i + 2, t => end_before grefs (i + 1) (t.gnttab_end_foreign_access_ref (grefs (i + 1)))

end GrantTable

variable (k : Kernel)

/-- The body of the loop over the descriptor pages. -/
def grant_descriptor (s : State) (i : ℕ) : Except Stop State :=
  if k.get_free_page (i + 1) = false then .error (.null s.table)
  else
    let r := s.table.gnttab_grant_foreign_access k
    let mr_info := { s.mr_info with desc_grefs := Function.update s.mr_info.desc_grefs i r.1 }
    if r.1 < 0 then do
      let t ← r.2.end_before mr_info.desc_grefs i
      .error (.null (t.gnttab_end_foreign_access_ref mr_info.root_desc_gref))
    else .ok ⟨r.2, mr_info⟩

/-- The reference of page `i` of the region. -/
def MrReferenceInfo.gref (mr_info : MrReferenceInfo) (i : ℕ) : ℤ :=
  mr_info.mr_refs (i / MAX_DESC_PAGES) (i % MAX_DESC_PAGES)

/-- The body of the loop over the pages of the region. -/
def grant_region_page (s : State) (i : ℕ) : Except Stop State :=
  let r := s.table.gnttab_grant_foreign_access k
  let desc_grefs := s.mr_info.mr_refs (i / MAX_DESC_PAGES)
  let mr_info := { s.mr_info with
    mr_refs := Function.update s.mr_info.mr_refs (i / MAX_DESC_PAGES)
      (Function.update desc_grefs (i % MAX_DESC_PAGES) r.1) }
  if r.1 < 0 then do
    let t ← r.2.end_before mr_info.gref i
    let t := (List.range MAX_ROOT_DESC_PAGES).foldl
      (fun t j => t.gnttab_end_foreign_access_ref (mr_info.desc_grefs j)) t
    .error (.null (t.gnttab_end_foreign_access_ref mr_info.root_desc_gref))
  else .ok ⟨r.2, mr_info⟩

def create_mr_reference (outstanding : List ℤ) : Except Stop State :=
  let t : GrantTable := ⟨outstanding, 0, [], []⟩
  if k.get_free_page 0 = false then .error (.null t)
  else
    let r := t.gnttab_grant_foreign_access k
    if r.1 < 0 then .error (.null r.2)
    else do
      let s : State := ⟨r.2, ⟨r.1, fun _ => 0, fun _ _ => 0⟩⟩
      let s ← (List.range MAX_ROOT_DESC_PAGES).foldlM (grant_descriptor k) s
      (List.range MAX_REGION_PAGES).foldlM (grant_region_page k) s

/-- A call that returns `NULL` has ended the grants that it has made, each of them once, and no
    other ones, so that those outstanding are the same as before; and it does return. -/
def Atomic (outstanding : List ℤ) : Except Stop State → Prop
  | .ok _ => True
  | .error (.null t) => t.ended.Perm t.made ∧ t.outstanding.Perm outstanding
  | .error .wild => False

/-! ### What is left behind -/

/-- The failure leaves a grant that was not ended, or does not come to an end. -/
def Stop.Leaks : Stop → Prop
  | .null t => t.ended.length < t.made.length
  | .wild => True

/-- All grants that were asked for were made, and none was ended. -/
structure Clean (s : State) (n : ℕ) : Prop where
  calls : s.table.calls = n
  made : s.table.made.length = n
  ended : s.table.ended = []

variable {k} {s : State} {t t' : GrantTable} {i n b : ℕ}

theorem end_before_succ (grefs : ℕ → ℤ) (i : ℕ) (t : GrantTable) :
    ∃ t', t.end_before grefs (i + 1) = .ok t' ∧ t'.made = t.made ∧
      t'.ended.length = t.ended.length + i := by
  induction i generalizing t with
  | zero => exact ⟨t, rfl, rfl, rfl⟩
  | succ i ih =>
    obtain ⟨t', h, hmade, hended⟩ := ih (t.gnttab_end_foreign_access_ref (grefs (i + 1)))
    refine ⟨t', h, hmade, ?_⟩
    rw [hended, GrantTable.gnttab_end_foreign_access_ref, length_append, length_singleton]
    omega

/-- The second clean-up loop ends as many references as there are. -/
theorem end_all (grefs : ℕ → ℤ) (l : List ℕ) (t : GrantTable) :
    let t' := l.foldl (fun t j => t.gnttab_end_foreign_access_ref (grefs j)) t
    t'.made = t.made ∧ t'.ended.length = t.ended.length + l.length := by
  induction l generalizing t with
  | nil => exact ⟨rfl, rfl⟩
  | cons j l ih =>
    obtain ⟨hmade, hended⟩ := ih (t.gnttab_end_foreign_access_ref (grefs j))
    refine ⟨hmade, hended.trans ?_⟩
    rw [GrantTable.gnttab_end_foreign_access_ref, length_append, length_singleton,
      length_cons]
    omega

theorem loop_spec {f : State → ℕ → Except Stop State} {good : ℕ → Prop}
    (hstep : ∀ s i, Clean s (b + i) →
      good i ∧ (∃ s', f s i = .ok s' ∧ Clean s' (b + i + 1)) ∨
        ¬good i ∧ ∃ e, f s i = .error e ∧ e.Leaks)
    (hs : Clean s b) (n : ℕ) :
    (∀ i < n, good i) ∧ (∃ s', (List.range n).foldlM f s = .ok s' ∧ Clean s' (b + n)) ∨
      ¬(∀ i < n, good i) ∧ ∃ e, (List.range n).foldlM f s = .error e ∧ e.Leaks := by
  induction n with
  | zero => exact .inl ⟨fun i hi => absurd hi (Nat.not_lt_zero i), s, rfl, hs⟩
  | succ n ih =>
    rw [range_succ, foldlM_append]
    rcases ih with ⟨hall, s', h, hclean⟩ | ⟨hnot, e, h, hleaks⟩
    · rw [h]
      rcases hstep s' n hclean with ⟨hgood, s'', h', hclean'⟩ | ⟨hbad, e, h', hleaks⟩
      · refine .inl ⟨fun i hi => ?_, s'', ?_, hclean'⟩
        · rcases Nat.lt_succ_iff_lt_or_eq.mp hi with hi | rfl
          · exact hall i hi
          · exact hgood
        · change f s' n >>= pure = _
          rw [h']
          rfl
      · refine .inr ⟨fun h => hbad (h n (Nat.lt_succ_self n)), e, ?_, hleaks⟩
        change f s' n >>= pure = _
        rw [h']
        rfl
    · refine .inr ⟨fun hall => hnot fun i hi => hall i (Nat.lt_succ_of_lt hi), e, ?_, hleaks⟩
      rw [h]
      rfl

theorem Clean.grant (hs : Clean s n) (hpos : 0 ≤ k.grant n) (mr_info : MrReferenceInfo) :
    Clean ⟨(s.table.gnttab_grant_foreign_access k).2, mr_info⟩ (n + 1) := by
  have hnot : ¬k.grant s.table.calls < 0 := hs.calls ▸ Int.not_lt.mpr hpos
  refine ⟨?_, ?_, hs.ended⟩
  · exact congrArg Nat.succ hs.calls
  · simp [GrantTable.gnttab_grant_foreign_access, hnot, hs.made]

theorem Clean.refused (hs : Clean s n) (hneg : k.grant n < 0) :
    (s.table.gnttab_grant_foreign_access k).2.made.length = n ∧
      (s.table.gnttab_grant_foreign_access k).2.ended = [] := by
  have hneg : k.grant s.table.calls < 0 := hs.calls ▸ hneg
  refine ⟨?_, hs.ended⟩
  simp [GrantTable.gnttab_grant_foreign_access, hneg, hs.made]

/-- **A clean-up** that ends all references but those of its own group, and of these what
    `end_before` ends, leaves the first one of the group, or does not come to an end. -/
theorem cleanup_leaks {grefs : ℕ → ℤ} {finish : GrantTable → GrantTable} {m : ℕ}
    (hfinish : ∀ t, (finish t).made = t.made ∧ (finish t).ended.length = t.ended.length + m)
    (hmade : t.made.length = m + i) (hended : t.ended = []) :
    ∃ e, (t.end_before grefs i >>= fun t' => .error (.null (finish t')) : Except Stop State) =
      .error e ∧ e.Leaks := by
  cases i with
  | zero => exact ⟨.wild, rfl, trivial⟩
  | succ i =>
    obtain ⟨t', h, hmade', hended'⟩ := end_before_succ grefs i t
    refine ⟨.null (finish t'), by rw [h]; rfl, ?_⟩
    rw [Stop.Leaks, (hfinish t').1, (hfinish t').2, hmade', hended', hended, hmade, length_nil]
    omega

theorem end_one (ref : ℤ) (t : GrantTable) :
    (t.gnttab_end_foreign_access_ref ref).made = t.made ∧
      (t.gnttab_end_foreign_access_ref ref).ended.length = t.ended.length + 1 :=
  ⟨rfl, length_append⟩

theorem grant_descriptor_spec (s : State) (i : ℕ) (hs : Clean s (1 + i)) :
    (k.get_free_page (i + 1) = true ∧ 0 ≤ k.grant (1 + i)) ∧
      (∃ s', grant_descriptor k s i = .ok s' ∧ Clean s' (1 + i + 1)) ∨
    ¬(k.get_free_page (i + 1) = true ∧ 0 ≤ k.grant (1 + i)) ∧
      ∃ e, grant_descriptor k s i = .error e ∧ e.Leaks := by
  have href : (s.table.gnttab_grant_foreign_access k).1 = k.grant (1 + i) :=
    congrArg k.grant hs.calls
  unfold grant_descriptor
  dsimp only
  rw [href]
  cases hpage : k.get_free_page (i + 1) with
  | false =>
    refine .inr ⟨fun h => absurd h.1 Bool.false_ne_true, .null s.table, rfl, ?_⟩
    rw [Stop.Leaks, hs.ended, hs.made, length_nil]
    omega
  | true =>
    rw [if_neg Bool.noConfusion]
    by_cases hpos : 0 ≤ k.grant (1 + i)
    · rw [if_neg (Int.not_lt.mpr hpos)]
      exact .inl ⟨⟨rfl, hpos⟩, _, rfl, hs.grant hpos _⟩
    · have hneg := Int.not_le.mp hpos
      obtain ⟨hmade, hended⟩ := hs.refused hneg
      rw [if_pos hneg]
      exact .inr ⟨fun h => hpos h.2, cleanup_leaks (end_one _) hmade hended⟩

theorem grant_region_page_spec (s : State) (i : ℕ) (hs : Clean s (1 + MAX_ROOT_DESC_PAGES + i)) :
    0 ≤ k.grant (1 + MAX_ROOT_DESC_PAGES + i) ∧
      (∃ s', grant_region_page k s i = .ok s' ∧ Clean s' (1 + MAX_ROOT_DESC_PAGES + i + 1)) ∨
    ¬0 ≤ k.grant (1 + MAX_ROOT_DESC_PAGES + i) ∧
      ∃ e, grant_region_page k s i = .error e ∧ e.Leaks := by
  have href : (s.table.gnttab_grant_foreign_access k).1 = k.grant (1 + MAX_ROOT_DESC_PAGES + i) :=
    congrArg k.grant hs.calls
  unfold grant_region_page
  dsimp only
  rw [href]
  by_cases hpos : 0 ≤ k.grant (1 + MAX_ROOT_DESC_PAGES + i)
  · rw [if_neg (Int.not_lt.mpr hpos)]
    exact .inl ⟨hpos, _, rfl, hs.grant hpos _⟩
  · have hneg := Int.not_le.mp hpos
    obtain ⟨hmade, hended⟩ := hs.refused hneg
    rw [if_pos hneg]
    refine .inr ⟨hpos, cleanup_leaks (fun t => ?_) hmade hended⟩
    obtain ⟨hall, hlen⟩ := end_all s.mr_info.desc_grefs (range MAX_ROOT_DESC_PAGES) t
    refine ⟨hall, (end_one _ _).2.trans ?_⟩
    rw [hlen, length_range]
    omega

/-! ### Atomicity -/

theorem Stop.Leaks.not_atomic {e : Stop} (h : e.Leaks) (outstanding : List ℤ) :
    ¬Atomic outstanding (.error e) := by
  cases e with
  | wild => exact id
  | null t =>
    rintro ⟨hperm, _⟩
    exact ne_of_lt h hperm.length_eq

/-- The root page cannot be had or is not granted. -/
def Kernel.RootFails (k : Kernel) : Prop := k.get_free_page 0 = false ∨ k.grant 0 < 0

/-- All other pages can be had and are granted. -/
def Kernel.RestSucceeds (k : Kernel) : Prop :=
  (∀ i < MAX_ROOT_DESC_PAGES, k.get_free_page (i + 1) = true ∧ 0 ≤ k.grant (1 + i)) ∧
    ∀ i < MAX_REGION_PAGES, 0 ≤ k.grant (1 + MAX_ROOT_DESC_PAGES + i)

/-- What follows the grant of the root, for a region of `n` pages. -/
theorem rest_spec (k : Kernel) (hs : Clean s 1) (n : ℕ) :
    ((∀ i < MAX_ROOT_DESC_PAGES, k.get_free_page (i + 1) = true ∧ 0 ≤ k.grant (1 + i)) ∧
        ∀ i < n, 0 ≤ k.grant (1 + MAX_ROOT_DESC_PAGES + i)) ∧
      (∃ s', ((List.range MAX_ROOT_DESC_PAGES).foldlM (grant_descriptor k) s >>=
        fun s => (List.range n).foldlM (grant_region_page k) s) = .ok s') ∨
    ¬((∀ i < MAX_ROOT_DESC_PAGES, k.get_free_page (i + 1) = true ∧ 0 ≤ k.grant (1 + i)) ∧
        ∀ i < n, 0 ≤ k.grant (1 + MAX_ROOT_DESC_PAGES + i)) ∧
      ∃ e, ((List.range MAX_ROOT_DESC_PAGES).foldlM (grant_descriptor k) s >>=
        fun s => (List.range n).foldlM (grant_region_page k) s) = .error e ∧ e.Leaks := by
  rcases loop_spec (grant_descriptor_spec (k := k)) hs MAX_ROOT_DESC_PAGES with
    ⟨hdesc, s₁, h₁, hs₁⟩ | ⟨hdesc, e, h, hleaks⟩
  · rw [h₁]
    rcases loop_spec (grant_region_page_spec (k := k)) hs₁ n with
      ⟨hregion, s₂, h₂, -⟩ | ⟨hregion, e, h, hleaks⟩
    · exact .inl ⟨⟨hdesc, hregion⟩, s₂, h₂⟩
    · exact .inr ⟨fun hall => hregion hall.2, e, h, hleaks⟩
  · rw [h]
    exact .inr ⟨fun hall => hdesc hall.1, e, rfl, hleaks⟩

/-- **Atomicity**: a call that fails leaves the grants as they were, and returns, if and only if it
    fails at the root page; where one of the later pages cannot be had or granted it does not. -/
theorem create_atomic_iff (k : Kernel) (outstanding : List ℤ) :
    Atomic outstanding (create_mr_reference k outstanding) ↔ k.RootFails ∨ k.RestSucceeds := by
  unfold create_mr_reference Kernel.RootFails
  dsimp only
  cases hpage : k.get_free_page 0 with
  | false => exact iff_of_true ⟨.refl _, .refl _⟩ (.inl (.inl rfl))
  | true =>
    have href : ((⟨outstanding, 0, [], []⟩ : GrantTable).gnttab_grant_foreign_access k).1 =
      k.grant 0 := rfl
    rw [if_neg Bool.noConfusion, href]
    by_cases hroot : k.grant 0 < 0
    · rw [if_pos hroot]
      refine iff_of_true ?_ (.inl (.inr hroot))
      simp [Atomic, GrantTable.gnttab_grant_foreign_access, hroot]
    · rw [if_neg hroot]
      have hclean : Clean ⟨⟨outstanding, 0, [], []⟩, ⟨0, fun _ => 0, fun _ _ => 0⟩⟩ 0 :=
        ⟨rfl, rfl, rfl⟩
      have hs := hclean.grant (Int.not_lt.mp hroot) ⟨k.grant 0, fun _ => 0, fun _ _ => 0⟩
      rcases rest_spec k hs MAX_REGION_PAGES with ⟨hall, s', h⟩ | ⟨hnot, e, h, hleaks⟩
      · rw [h]
        exact iff_of_true trivial (.inr hall)
      · rw [h]
        refine iff_of_false (hleaks.not_atomic outstanding) ?_
        rintro ((hpage | hneg) | hall)
        · exact Bool.noConfusion hpage
        · exact hroot hneg
        · exact hnot hall

/-- The grant of the second descriptor page is refused: the reference of the first one stays. -/
theorem create_not_atomic :
    let k : Kernel := ⟨fun _ => true, fun n => if n = 2 then -1 else n + 8⟩
    ¬Atomic [] (create_mr_reference k []) := by
  intro k h
  have hcall : create_mr_reference k [] = .error (.null ⟨[9], 3, [8, 9], [8]⟩) := rfl
  rw [hcall] at h
  exact absurd h.1.length_eq (by decide)

end Sonuma.Grants
