import AdvCompArch.Lib.Phased
import Mathlib.Data.Multiset.DershowitzManna
import Mathlib.Data.Prod.Lex

/-! # Programs whose items spawn lesser items

    * `terminates_of_rank`: where an item spawns only items of lower rank and the main task only
      has so many phases, every run ends, however many items are spawned.
    * `run_items`: the items of a pool can go on in any given order. -/

namespace Phased.Program

open Multiset Transition

variable {σ Item α β : Type*} {prog : Program σ Item} {init : σ} {s : State σ Item}
  {Inv : σ → Multiset Item → Prop}

/-- The ranks of the items of a pool: one of them gives way to any number of lesser ones. -/
def Ranks (α : Type*) : Type _ := Multiset α

instance [Preorder α] : LT (Ranks α) := ⟨IsDershowitzMannaLT⟩

instance [Preorder α] [WellFoundedLT α] : WellFoundedLT (Ranks α) :=
  ⟨wellFounded_isDershowitzMannaLT⟩

variable (Inv) in
/-- **Rank rule**: less is left for the main task, or the same and the item spawns lesser items. -/
theorem terminates_of_rank [Preorder α] [WellFoundedLT α] [LT β] [WellFoundedLT β]
    (rank : Item → α) (left : σ → Multiset Item → β) (hs : Inv s.shared s.pool)
    (hexec : ∀ t x rest t' new, Inv t (x ::ₘ rest) → prog.exec t x = some (t', new) →
      Inv t' (rest + new) ∧ (left t' (rest + new) < left t (x ::ₘ rest) ∨
        left t' (rest + new) = left t (x ::ₘ rest) ∧ ∀ y ∈ new, rank y < rank x))
    (hadvance : ∀ t t' new, Inv t 0 → prog.advance t = some (t', new) →
      Inv t' new ∧ left t' new < left t 0) : (prog.system init).Terminates s := by
  let μ : σ → Multiset Item → β ×ₗ Ranks α := fun t pool => toLex (left t pool, pool.map rank)
  refine System.terminates_of_measure (fun s => Inv s.shared s.pool)
    (fun s => μ s.shared s.pool) (fun _ _ _ h hl => next_lt (μ := μ) ?_ ?_ h hl) hs
  · intro t x rest t' new h hx
    obtain ⟨hinv, hlt⟩ := hexec t x rest t' new h hx
    refine ⟨hinv, Prod.Lex.toLex_lt_toLex.mpr (hlt.imp_right fun hspawned => ⟨hspawned.1, ?_⟩)⟩
    -- the rank of the item gives way to the lower ranks of those that it spawns
    refine ⟨rest.map rank, (new : Multiset Item).map rank, {rank x}, singleton_ne_zero _, ?_, ?_, ?_⟩
    · exact map_add rank rest new
    · rw [map_cons, add_comm, singleton_add]
    · intro r hr
      obtain ⟨y, hy, rfl⟩ := mem_map.mp hr
      exact ⟨rank x, mem_singleton_self _, hspawned.2 y (mem_coe.mp hy)⟩
  · intro t t' new h hx
    obtain ⟨hinv, hlt⟩ := hadvance t t' new h hx
    exact ⟨hinv, Prod.Lex.toLex_lt_toLex.mpr (.inl hlt)⟩

theorem run_items (K : σ → Prop) (f : σ → Item → σ) {l : List Item}
    (hexec : ∀ t, K t → ∀ x ∈ l, prog.exec t x = some (f t x, []) ∧ K (f t x))
    (hK : K s.shared) (hpool : s.pool.Perm l) :
    ∃ ls, (prog.system init).run s ls = some ⟨l.foldl f s.shared, []⟩ := by
  induction l generalizing s with
  | nil =>
    refine ⟨[], ?_⟩
    rw [System.run_nil, List.foldl_nil, ← hpool.eq_nil]
  | cons x l ih =>
    obtain ⟨k, hk, hget⟩ := List.getElem_of_mem (hpool.mem_iff.mpr List.mem_cons_self)
    obtain ⟨hx, hK'⟩ := hexec s.shared hK x List.mem_cons_self
    have hnext : prog.next s (.item k) = some ⟨f s.shared x, s.pool.eraseIdx k⟩ := by
      simp [next, List.getElem?_eq_getElem hk, hget, hx]
    have hrest : (s.pool.eraseIdx k).Perm l := by
      have hcons := List.getElem_cons_eraseIdx_perm hk
      rw [hget] at hcons
      exact (hcons.trans hpool).cons_inv
    obtain ⟨ls, hls⟩ := ih (s := ⟨f s.shared x, s.pool.eraseIdx k⟩)
      (fun t ht y hy => hexec t ht y (List.mem_cons_of_mem x hy)) hK' hrest
    exact ⟨.item k :: ls, System.run_cons.mpr ⟨_, hnext, hls⟩⟩

end Phased.Program
