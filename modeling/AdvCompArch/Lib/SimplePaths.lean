import Mathlib.Data.List.Chain
import Mathlib.Data.List.Nodup

/-! # Coloured simple paths

    The paths of a graph that begin at a vertex, come by no vertex twice, and whose vertices have
    the colours of a pattern.  `paths` goes through them with a list of the vertices that have
    been visited before, `mem_paths` says that it finds them all, and `nodup_paths` that it finds
    each of them once. -/

namespace SimplePaths

open List

variable {V C : Type*} [DecidableEq V] [DecidableEq C] (adj : V → List V) (color : V → C)

/-- A path along `adj` from `v`, without a vertex twice, with the colours of the pattern. -/
structure IsPath (pattern : List C) (v : V) (p : List V) : Prop where
  head : p.head? = some v
  chain : p.IsChain fun u w => w ∈ adj u
  nodup : p.Nodup
  colors : p.map color = pattern

/-- The paths from `v` that leave out the visited vertices. -/
def paths : List C → List V → V → List (List V)
  | [], _, _ => []
  | c :: cs, visited, v =>
    if color v = c then
      if cs = [] then [[v]]
      else ((adj v).filter (· ∉ visited ++ [v])).flatMap fun w =>
        (paths cs (visited ++ [v]) w).map (v :: ·)
    else []

variable {adj color} {pattern : List C} {visited p : List V} {v : V}

/-- **What is found**: the paths whose later vertices were not visited before. -/
theorem mem_paths : p ∈ paths adj color pattern visited v ↔
    IsPath adj color pattern v p ∧ ∀ x ∈ p.tail, x ∉ visited := by
  induction pattern generalizing visited p v with
  | nil =>
    refine iff_of_false not_mem_nil fun h => ?_
    have hnil : p = [] := map_eq_nil_iff.mp h.1.colors
    have hhead := h.1.head
    rw [hnil] at hhead
    cases hhead
  | cons c cs ih =>
    rw [paths]
    split_ifs with hc hcs
    · subst hcs
      rw [mem_singleton]
      constructor
      · intro h
        subst h
        exact ⟨⟨rfl, .singleton v, nodup_singleton v, by rw [map_singleton, hc]⟩,
          fun x hx => absurd hx not_mem_nil⟩
      · intro h
        obtain ⟨x, rfl⟩ := length_eq_one_iff.mp (by simpa using congrArg length h.1.colors)
        rw [Option.some.inj h.1.head]
    · simp only [mem_flatMap, mem_map, mem_filter, decide_eq_true_eq, ih]
      constructor
      · intro h
        obtain ⟨w, ⟨hw, hnew⟩, q, ⟨hq, hvisited⟩, rfl⟩ := h
        obtain ⟨q, rfl⟩ : ∃ q', q = w :: q' := ⟨q.tail, (cons_head?_tail hq.head).symm⟩
        -- neither the next vertex nor those after it are among the visited ones
        have hfresh : ∀ x ∈ w :: q, x ∉ visited ++ [v] := by
          intro x hx
          rcases mem_cons.mp hx with rfl | hx
          · exact hnew
          · exact hvisited x hx
        refine ⟨⟨rfl, ?_, ?_, ?_⟩, fun x hx hmem => ?_⟩
        · exact isChain_cons_cons.mpr ⟨hw, hq.chain⟩
        · refine nodup_cons.mpr ⟨fun hmem => ?_, hq.nodup⟩
          exact hfresh v hmem (mem_append_right _ (mem_singleton_self v))
        · rw [map_cons, hq.colors, hc]
        · exact hfresh x hx (mem_append_left _ hmem)
      · intro h
        obtain ⟨⟨hhead, hchain, hnodup, hcolors⟩, hvisited⟩ := h
        obtain ⟨q, rfl⟩ : ∃ q, p = v :: q := ⟨p.tail, (cons_head?_tail hhead).symm⟩
        rw [map_cons, cons.injEq] at hcolors
        obtain ⟨w, q, rfl⟩ : ∃ w q', q = w :: q' := by
          refine exists_cons_of_ne_nil fun hq => hcs ?_
          rw [← hcolors.2, hq, map_nil]
        obtain ⟨hw, hchain⟩ := isChain_cons_cons.mp hchain
        obtain ⟨hv, hnodup⟩ := nodup_cons.mp hnodup
        have hfresh : ∀ x ∈ w :: q, x ∉ visited ++ [v] := by
          intro x hx hmem
          rcases mem_append.mp hmem with hmem | hmem
          · exact hvisited x hx hmem
          · exact hv (mem_singleton.mp hmem ▸ hx)
        exact ⟨w, ⟨hw, hfresh w mem_cons_self⟩, w :: q,
          ⟨⟨rfl, hchain, hnodup, hcolors.2⟩, fun x hx => hfresh x (mem_cons_of_mem _ hx)⟩, rfl⟩
    · refine iff_of_false not_mem_nil fun h => hc ?_
      have hcolors := h.1.colors
      rw [← cons_head?_tail h.1.head, map_cons, cons.injEq] at hcolors
      exact hcolors.1

theorem nodup_paths (hadj : ∀ v, (adj v).Nodup) : (paths adj color pattern visited v).Nodup := by
  induction pattern generalizing visited v with
  | nil => exact nodup_nil
  | cons c cs ih =>
    rw [paths]
    split_ifs
    · exact nodup_singleton _
    · rw [nodup_flatMap]
      refine ⟨fun w _ => ih.map fun _ _ h => (cons.inj h).2, ?_⟩
      refine ((hadj v).filter _).imp fun {w w'} hne p hp hp' => ?_
      -- the paths over different vertices differ in their second one
      obtain ⟨q, hq, rfl⟩ := mem_map.mp hp
      obtain ⟨q', hq', heq⟩ := mem_map.mp hp'
      have hhead := (mem_paths.mp hq).1.head
      rw [← (cons.inj heq).2, (mem_paths.mp hq').1.head] at hhead
      exact hne (Option.some.inj hhead).symm
    · exact nodup_nil

end SimplePaths
