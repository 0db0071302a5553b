import AdvCompArch.Lib.Groups

/-! # Equijoins

    The equijoin of two bags of pairs combines the values of all pairs with equal keys.  It is
    additive in both bags (`equijoin_add_left`, `equijoin_add_right`), and the keys may be treated in
    classes (`equijoin_filter`).

    Where the pairs lie grouped by key, the groups of one side are looked up in the other
    (`equijoin_content`). -/

namespace Equijoin

open Multiset

variable {K A B C : Type*} [DecidableEq K] {f : A → B → C} {X X' : Multiset (K × A)}
  {Y Y' : Multiset (K × B)}

def equijoin (f : A → B → C) (X : Multiset (K × A)) (Y : Multiset (K × B)) : Multiset C :=
  X.bind fun a => (Y.filter fun b => b.1 = a.1).map fun b => f a.2 b.2

@[simp] theorem equijoin_zero_right : equijoin f X 0 = 0 := by
  simp [equijoin]

theorem equijoin_add_left : equijoin f (X + X') Y = equijoin f X Y + equijoin f X' Y :=
  add_bind ..

theorem equijoin_add_right : equijoin f X (Y + Y') = equijoin f X Y + equijoin f X Y' := by
  simp only [equijoin, filter_add, map_add, bind_add]

theorem equijoin_add_add : equijoin f (X + X') (Y + Y') =
    equijoin f X Y + (equijoin f X Y' + equijoin f X' (Y + Y')) := by
  rw [equijoin_add_left, equijoin_add_right, add_assoc]

theorem equijoin_eq_zero_iff : equijoin f X Y = 0 ↔ ∀ a ∈ X, ∀ b ∈ Y, b.1 ≠ a.1 := by
  simp only [eq_zero_iff_forall_notMem, equijoin, mem_bind, mem_map,
    mem_filter, not_exists, not_and]
  constructor
  · intro h a ha b hb heq
    exact h _ a ha b ⟨hb, heq⟩ rfl
  · intro h c a ha b hb _
    exact h a ha b hb.1 hb.2

theorem equijoin_filter (p : K → Prop) [DecidablePred p] (f : A → B → C) (X : Multiset (K × A))
    (Y : Multiset (K × B)) :
    equijoin f X Y = equijoin f (X.filter fun a => p a.1) (Y.filter fun b => p b.1) +
      equijoin f (X.filter fun a => ¬p a.1) (Y.filter fun b => ¬p b.1) := by
  have hsame : ∀ (q : K → Prop) [DecidablePred q],
      equijoin f (X.filter fun a => q a.1) Y =
        equijoin f (X.filter fun a => q a.1) (Y.filter fun b => q b.1) := by
    intro q _
    have hnone : equijoin f (X.filter fun a => q a.1) (Y.filter fun b => ¬q b.1) = 0 := by
      rw [equijoin_eq_zero_iff]
      intro a ha b hb heq
      exact (mem_filter.mp hb).2 (heq ▸ (mem_filter.mp ha).2)
    conv_lhs =>
      rw [← filter_add_not (fun b : K × B => q b.1) Y, equijoin_add_right, hnone, add_zero]
  conv_lhs => rw [← filter_add_not (fun a : K × A => p a.1) X, equijoin_add_left]
  rw [hsame p, hsame fun k => ¬p k]

/-! ### Groups -/

section groups

variable {V : Type*} {g : Groups K V}

/-- The pairs of a key with its values. -/
def pairs (k : K) (vs : List V) : List (K × V) := vs.map fun v => (k, v)

/-- The pairs that lie in the groups. -/
def content (g : Groups K V) : Multiset (K × V) := g.outputs pairs

@[simp] theorem content_empty : content (∅ : Groups K V) = 0 := rfl

theorem mem_insert_keys (g : Groups K V) (k : K) : ∀ k' ∈ g, k' ∈ insert k g.keys.toFinset :=
  fun _ hk' => Finset.mem_insert_of_mem (List.mem_toFinset.mpr (AList.mem_keys.mp hk'))

theorem content_eq_sum {s : Finset K} (hs : ∀ k ∈ g, k ∈ s) :
    content g = ∑ k ∈ s, (pairs k (g.slot k) : Multiset (K × V)) :=
  Groups.outputs_eq_sum pairs (fun _ => rfl) hs

theorem mem_content {k : K} {v : V} : (k, v) ∈ content g ↔ v ∈ g.slot k := by
  rw [content_eq_sum (mem_insert_keys g k)]
  simp only [mem_sum, pairs, mem_coe, List.mem_map, Prod.mk.injEq]
  constructor
  · rintro ⟨k', -, v', hv', rfl, rfl⟩
    exact hv'
  · intro hv
    exact ⟨k, Finset.mem_insert_self .., v, hv, rfl, rfl⟩

theorem content_push (g : Groups K V) (k : K) (v : V) :
    content (g.push k v) = content g + {(k, v)} := by
  have hsub : ∀ k' ∈ g.push k v, k' ∈ insert k g.keys.toFinset := by
    intro k' hk'
    rcases (AList.mem_insert g).mp hk' with rfl | hmem
    · exact Finset.mem_insert_self ..
    · exact mem_insert_keys g k k' hmem
  rw [content_eq_sum (mem_insert_keys g k), content_eq_sum hsub,
    ← Finset.add_sum_erase _ _ (Finset.mem_insert_self k _),
    ← Finset.add_sum_erase _ (fun k' => (pairs k' (g.slot k') : Multiset (K × V)))
      (Finset.mem_insert_self k _)]
  have hothers : ∀ k' ∈ (insert k g.keys.toFinset).erase k,
      (pairs k' ((g.push k v).slot k') : Multiset (K × V)) = pairs k' (g.slot k') := by
    intro k' hk'
    rw [Groups.slot_push, if_neg (Finset.ne_of_mem_erase hk')]
  rw [Finset.sum_congr rfl hothers, Groups.slot_push, if_pos rfl, add_right_comm]
  congr 1
  simp [pairs, ← coe_add]

theorem filter_content (g : Groups K V) (k : K) :
    (content g).filter (fun b => b.1 = k) = (pairs k (g.slot k) : Multiset (K × V)) := by
  rw [content_eq_sum (mem_insert_keys g k), ← Finset.add_sum_erase _ _ (Finset.mem_insert_self k _),
    filter_add]
  have hown : (pairs k (g.slot k) : Multiset (K × V)).filter (fun b => b.1 = k) =
      pairs k (g.slot k) := by
    rw [filter_eq_self]
    intro b hb
    obtain ⟨v, -, rfl⟩ := List.mem_map.mp hb
    rfl
  have hothers : (∑ k' ∈ (insert k g.keys.toFinset).erase k,
      (pairs k' (g.slot k') : Multiset (K × V))).filter (fun b => b.1 = k) = 0 := by
    rw [filter_eq_nil]
    intro b hb
    obtain ⟨k', hk', hb⟩ := mem_sum.mp hb
    obtain ⟨v, -, rfl⟩ := List.mem_map.mp hb
    exact Finset.ne_of_mem_erase hk'
  rw [hown, hothers, add_zero]

/-- **A join of groups**: for every key on one side, its values with those of the key on the
    other. -/
theorem equijoin_content (f : A → B → C) (g : Groups K A) (h : Groups K B)
    {l : List ((_ : K) × List A)} (hl : l.Perm g.entries) :
    ((l.flatMap fun e => (h.slot e.1).flatMap fun b => e.2.map fun a => f a b : List C) :
      Multiset C) = equijoin f (content g) (content h) := by
  rw [Groups.flatMap_entries (fun k vs => (h.slot k).flatMap fun b => vs.map fun a => f a b) hl]
  unfold Groups.outputs content equijoin Groups.outputs
  induction g.keys with
  | nil => simp
  | cons k ks ih =>
    rw [List.map_cons, List.sum_cons, ih, List.map_cons, List.sum_cons, add_bind]
    congr 1
    have hkey : ∀ a ∈ (pairs k (g.slot k) : Multiset (K × A)),
        ((content h).filter fun b => b.1 = a.1).map (fun b => f a.2 b.2) =
          (h.slot k : Multiset B).map fun b => f a.2 b := by
      intro a ha
      obtain ⟨v, -, rfl⟩ := List.mem_map.mp ha
      rw [filter_content]
      simp [pairs, Function.comp_def]
    have hbind := bind_congr hkey
    unfold content Groups.outputs at hbind
    rw [hbind, ← coe_bind]
    simp only [pairs, ← map_coe, bind_map]
    rw [bind_map_comm]

end groups

end Equijoin
