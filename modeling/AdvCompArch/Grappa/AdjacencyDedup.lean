import AdvCompArch.Grappa.Graph
import Mathlib.Algebra.Order.Ring.Int

/-! # Removing duplicates from an adjacency list

    `Graph::create` sorts the adjacencies of a vertex and then removes the duplicates in
    place: `i` reads, `tail` writes.  The inner loop compares with the word after the one it
    is at, without looking whether it belongs to the array, so at the last adjacency it goes
    on into the memory behind the array. -/

namespace Grappa

namespace Dedup

open List

/-- `while (v.local_adj[tail] == v.local_adj[i+1]) i++;` in the words of the array and of the
    memory behind it; `none` when the word that is read is not mapped. -/
def skip (words : List VertexID) (tail : ℕ) : ℕ → ℕ → Option ℕ
  | 0, _ => none
  | fuel + 1, i =>
    match words[i + 1]? with
    | none => none
    | some w => if words[tail]? = some w then skip words tail fuel (i + 1) else some i

/-- The outer loop, from `i` and `tail` on. -/
def loop (nadj : ℕ) : ℕ → List VertexID → ℕ → ℕ → Option (List VertexID × ℕ)
  | 0, _, _, _ => none
  | fuel + 1, words, i, tail =>
    if i < nadj then
      words[i]?.bind fun a =>
        let words := words.set tail a
        (skip words tail words.length i).bind fun i => loop nadj fuel words (i + 1) (tail + 1)
    else some (words, tail)

/-- The words afterwards, and the new `nadj`. -/
def dedup (words : List VertexID) (nadj : ℕ) : Option (List VertexID × ℕ) :=
  loop nadj (nadj + 1) words 0 0

variable {words out mid s after u : List VertexID} {a x : VertexID} {tail i fuel : ℕ}

/-- **Where the inner loop stops**: at the last of the equal words, if another word follows. -/
theorem skip_eq (hx : words[tail]? = some x) {rest : List VertexID}
    (hrest : words.drop (i + 1) = rest) (hfuel : rest.length < fuel) :
    skip words tail fuel i =
      if rest.all (· = x) then none else some (i + (rest.takeWhile (· = x)).length) := by
  induction fuel generalizing i rest with
  | zero => omega
  | succ fuel ih =>
    cases rest with
    | nil =>
      have hnone : words[i + 1]? = none := by
        rw [getElem?_eq_none_iff]
        exact drop_eq_nil_iff.mp hrest
      simp [skip, hnone]
    | cons y rest =>
      have hy : words[i + 1]? = some y := by
        rw [← head?_drop, hrest]
        rfl
      have hdrop : words.drop (i + 1 + 1) = rest := by
        rw [← drop_drop, hrest]
        rfl
      simp only [skip, hy, hx, Option.some.injEq]
      by_cases hyx : x = y
      · subst hyx
        rw [if_pos rfl, ih hdrop (by simpa using hfuel)]
        simp [add_right_comm i 1, add_assoc]
      · have hne : y ≠ x := fun h => hyx h.symm
        simp [hyx, hne]

/-- Some word after the array is not the last adjacency. -/
def Ends (s after : List VertexID) : Prop := ∀ x, s.getLast? = some x → ∃ y ∈ after, y ≠ x

/-- `u` is the list without its duplicates, in order. -/
structure IsDedup (s u : List VertexID) : Prop where
  increasing : u.Pairwise (· < ·)
  mem_iff : ∀ x, x ∈ u ↔ x ∈ s

/-- An adjacency is written behind those already written, and what is still to be read stays. -/
theorem set_tail (out mid : List VertexID) (a : VertexID) (rest : List VertexID) :
    ∃ mid', (out ++ mid ++ a :: rest).set out.length a = (out ++ [a]) ++ mid' ++ rest ∧
      mid'.length = mid.length := by
  cases mid with
  | nil => exact ⟨[], by simp, rfl⟩
  | cons m mid => exact ⟨mid ++ [a], by simp, by simp⟩

theorem exists_equal_prefix (a : VertexID) (s : List VertexID) :
    ∃ p : List VertexID, (∀ x ∈ p, x = a) ∧ ∃ t : List VertexID, s = p ++ t ∧ ∀ b, t.head? = some b → b ≠ a := by
  induction s with
  | nil => exact ⟨[], by simp, [], rfl, by simp⟩
  | cons x s ih =>
    by_cases hx : x = a
    · obtain ⟨p, hp, t, hs, ht⟩ := ih
      refine ⟨x :: p, ?_, t, by rw [hs]; rfl, ht⟩
      intro y hy
      rcases mem_cons.mp hy with rfl | hy
      · exact hx
      · exact hp y hy
    · refine ⟨[], by simp, x :: s, rfl, ?_⟩
      intro b hb
      cases hb
      exact hx

theorem ends_of_all (hall : ∀ x ∈ s, x = a) : Ends (a :: s) after ↔ ∃ y ∈ after, y ≠ a := by
  have hlast : (a :: s).getLast? = some a := by
    rw [getLast?_cons]
    cases hs : s.getLast? with
    | none => rfl
    | some x => exact congrArg some (hall x (mem_of_getLast? hs))
  simp [Ends, hlast]

theorem loop_cons (n : ℕ) : ∃ mid', mid'.length = mid.length ∧
    loop (out.length + mid.length + (n + 1)) (fuel + 1) (out ++ mid ++ (a :: s ++ after))
        (out.length + mid.length) out.length =
      (if (s ++ after).all (· = a) then none
        else some (out.length + mid.length + ((s ++ after).takeWhile (· = a)).length)).bind fun i =>
          loop (out.length + mid.length + (n + 1)) fuel ((out ++ [a]) ++ mid' ++ (s ++ after))
            (i + 1) (out.length + 1) := by
  obtain ⟨mid', hset, hmid⟩ := set_tail out mid a (s ++ after)
  have hget : (out ++ mid ++ (a :: s ++ after))[out.length + mid.length]? = some a := by
    rw [getElem?_append_right (by simp)]
    simp
  have htail : ((out ++ [a]) ++ mid' ++ (s ++ after))[out.length]? = some a := by simp
  have hdrop : ((out ++ [a]) ++ mid' ++ (s ++ after)).drop (out.length + mid.length + 1) =
      s ++ after := by
    apply drop_left'
    simp [hmid]
    omega
  refine ⟨mid', hmid, ?_⟩
  rw [loop, if_pos (by omega), hget]
  simp only [Option.bind_some, cons_append, hset]
  rw [skip_eq htail hdrop (by simp; omega)]

theorem IsDedup.cons {b : VertexID} {p t : List VertexID} (hu : IsDedup (b :: t) u)
    (hsorted : (b :: t).Pairwise (· ≤ ·)) (hb : a < b) (hp : ∀ x ∈ p, x = a) :
    IsDedup (a :: (p ++ b :: t)) (a :: u) := by
  constructor
  · apply pairwise_cons.mpr
    refine ⟨?_, hu.increasing⟩
    intro x hx
    rcases mem_cons.mp ((hu.mem_iff x).mp hx) with rfl | hx
    · exact hb
    · exact hb.trans_le ((pairwise_cons.mp hsorted).1 x hx)
  · intro x
    rw [mem_cons, hu.mem_iff, mem_cons (a := x) (b := a), mem_append]
    constructor
    · rintro (h | h)
      · exact .inl h
      · exact .inr (.inr h)
    · rintro (h | h | h)
      · exact .inl h
      · exact .inl (hp x h)
      · exact .inr h

/-- **The loops**, when the adjacencies of `out` are written and those of `s` are to be read. -/
theorem loop_eq (hsorted : s.Pairwise (· ≤ ·)) (hfuel : s.length < fuel) :
    (Ends s after → ∃ u words', IsDedup s u ∧
      loop (out.length + mid.length + s.length) fuel (out ++ mid ++ (s ++ after))
        (out.length + mid.length) out.length = some (words', (out ++ u).length) ∧
      words'.take (out ++ u).length = out ++ u) ∧
    (¬Ends s after →
      loop (out.length + mid.length + s.length) fuel (out ++ mid ++ (s ++ after))
        (out.length + mid.length) out.length = none) := by
  induction fuel generalizing s out mid with
  | zero => omega
  | succ fuel ih =>
    cases s with
    | nil =>
      constructor
      · intro _
        refine ⟨[], out ++ mid ++ after, ⟨List.Pairwise.nil, fun x => Iff.rfl⟩, ?_, ?_⟩
        · simp [loop]
        · simp
      · intro hends
        exact absurd (fun x hx => by simp at hx) hends
    | cons a s =>
      obtain ⟨hle, hsorted⟩ := pairwise_cons.mp hsorted
      obtain ⟨mid', hmid, hstep⟩ := @loop_cons out mid s after a fuel s.length
      rw [length_cons, hstep]
      obtain ⟨p, hp, t, rfl, ht⟩ := exists_equal_prefix a s
      cases t with
      | nil =>
        -- the rest of the array is `a`, and the inner loop goes on behind it
        rw [append_nil] at hfuel ⊢
        have hall : ((p ++ after).all fun y => decide (y = a)) = true ↔ ¬Ends (a :: p) after := by
          rw [ends_of_all hp]
          simp only [all_append, Bool.and_eq_true, all_eq_true, decide_eq_true_eq]
          push Not
          exact ⟨fun h => h.2, fun h => ⟨hp, h⟩⟩
        constructor
        · intro he
          obtain ⟨fuel, rfl⟩ : ∃ f, fuel = f + 1 := ⟨fuel - 1, by simp at hfuel; omega⟩
          have hlen : p.length ≤ ((p ++ after).takeWhile fun y => decide (y = a)).length := by
            rw [takeWhile_append_of_pos (by simpa using hp)]
            simp
          rw [if_neg (hall.not.mpr (not_not.mpr he)), Option.bind_some, loop, if_neg (by omega)]
          refine ⟨[a], (out ++ [a]) ++ mid' ++ (p ++ after), ⟨pairwise_singleton .., ?_⟩, by simp, ?_⟩
          · intro x
            simp only [mem_cons, not_mem_nil, or_false]
            exact ⟨fun h => .inl h, fun h => h.elim id (hp x)⟩
          · rw [append_assoc]
            exact take_left' rfl
        · intro he
          rw [if_pos (hall.mpr he)]
          rfl
      | cons b t =>
        -- the next adjacency is `b`
        have hba : b ≠ a := ht b rfl
        have hb : a < b := lt_of_le_of_ne (hle b (by simp)) hba.symm
        have hall : ¬((p ++ b :: t ++ after).all fun y => decide (y = a)) = true := by
          intro h
          simp only [all_eq_true, decide_eq_true_eq] at h
          exact hba (h b (by simp))
        have hlen : ((p ++ b :: t ++ after).takeWhile fun y => decide (y = a)) = p := by
          rw [append_assoc, takeWhile_append_of_pos (by simpa using hp)]
          simp [hba]
        have hends : Ends (a :: (p ++ b :: t)) after ↔ Ends (b :: t) after := by
          simp [Ends, getLast?_cons]
        have hsorted' : (b :: t).Pairwise (· ≤ ·) := (pairwise_append.mp hsorted).2.1
        have hshort : (b :: t).length < fuel := by
          simp at hfuel ⊢
          omega
        have hnext := @ih (out ++ [a]) (mid' ++ p) (b :: t) hsorted' hshort
        have hwords : (out ++ [a]) ++ (mid' ++ p) ++ (b :: t ++ after) =
            (out ++ [a]) ++ mid' ++ (p ++ b :: t ++ after) := by
          simp
        have hi : (out ++ [a]).length + (mid' ++ p).length = out.length + mid.length + p.length + 1 := by
          simp [hmid]
          omega
        have hn : (out ++ [a]).length + (mid' ++ p).length + (b :: t).length =
            out.length + mid.length + ((p ++ b :: t).length + 1) := by
          rw [hi]
          simp
          omega
        have ho : (out ++ [a]).length = out.length + 1 := by simp
        rw [hwords, hn, hi, ho] at hnext
        rw [if_neg hall, Option.bind_some, hlen, hends]
        refine ⟨?_, hnext.2⟩
        intro he
        obtain ⟨u, words', hu, hloop, htake⟩ := hnext.1 he
        refine ⟨a :: u, words', hu.cons hsorted' hb hp, ?_, ?_⟩
        · simpa using hloop
        · simpa using htake

/-- **Removing the duplicates** of a sorted array goes well exactly if some word behind the array
    is not the last adjacency. -/
theorem dedup_eq (hsorted : s.Pairwise (· ≤ ·)) :
    (Ends s after → ∃ u words', IsDedup s u ∧
      dedup (s ++ after) s.length = some (words', u.length) ∧ words'.take u.length = u) ∧
    (¬Ends s after → dedup (s ++ after) s.length = none) := by
  have h := @loop_eq [] [] s after _ hsorted (Nat.lt_succ_self _)
  simpa [dedup] using h

/-! ### The words that the loops touch -/

/-- The indices that the inner loop reads. -/
def skip_indices (words : List VertexID) (tail : ℕ) : ℕ → ℕ → List ℕ
  | 0, _ => []
  | fuel + 1, i =>
    tail :: (i + 1) :: match words[i + 1]? with
      | none => []
      | some w => if words[tail]? = some w then skip_indices words tail fuel (i + 1) else []

/-- The indices that the outer loop reads and writes. -/
def loop_indices (nadj : ℕ) : ℕ → List VertexID → ℕ → ℕ → List ℕ
  | 0, _, _, _ => []
  | fuel + 1, words, i, tail =>
    if i < nadj then
      i :: tail :: match words[i]? with
        | none => []
        | some a =>
          let words := words.set tail a
          skip_indices words tail words.length i ++ match skip words tail words.length i with
            | none => []
            | some i => loop_indices nadj fuel words (i + 1) (tail + 1)
    else []

def dedup_indices (words : List VertexID) (nadj : ℕ) : List ℕ :=
  loop_indices nadj (nadj + 1) words 0 0

/-- What is to be done with an array: the loops come to their end, touch nothing behind it, and
    leave its values without the duplicates. -/
structure Correct (s after : List VertexID) : Prop where
  inside : ∀ j ∈ dedup_indices (s ++ after) s.length, j < s.length
  result : ∃ u words', IsDedup s u ∧ dedup (s ++ after) s.length = some (words', u.length) ∧
    words'.take u.length = u

/-- **The word after the last one** that the inner loop comes to is read, too. -/
theorem skip_indices_spec (hi : i < words.length) (hfuel : words.length ≤ fuel + i) :
    (skip words tail fuel i = none → ∃ j ∈ skip_indices words tail fuel i, words.length ≤ j) ∧
      ∀ k, skip words tail fuel i = some k → i ≤ k ∧ k + 1 ∈ skip_indices words tail fuel i := by
  induction fuel generalizing i with
  | zero => omega
  | succ fuel ih =>
    rw [skip, skip_indices]
    cases hw : words[i + 1]? with
    | none => exact ⟨fun _ => ⟨i + 1, by simp, getElem?_eq_none_iff.mp hw⟩, nofun⟩
    | some w =>
      have hlt : i + 1 < words.length := by
        by_contra hle
        rw [getElem?_eq_none (by omega)] at hw
        cases hw
      obtain ⟨hnone, hsome⟩ := ih hlt (by omega)
      dsimp only
      split
      · constructor
        · intro h
          obtain ⟨j, hj, hle⟩ := hnone h
          exact ⟨j, by simp [hj], hle⟩
        · intro k hk
          obtain ⟨hle, hmem⟩ := hsome k hk
          exact ⟨by omega, by simp [hmem]⟩
      · refine ⟨nofun, fun k hk => ?_⟩
        cases hk
        exact ⟨le_refl i, by simp⟩

theorem exists_outside {nadj : ℕ} (hi : i < nadj) (hn : nadj ≤ words.length)
    (hfuel : nadj ≤ fuel + i) : ∃ j ∈ loop_indices nadj fuel words i tail, nadj ≤ j := by
  induction fuel generalizing words i tail with
  | zero => omega
  | succ fuel ih =>
    have hlt : i < words.length := by omega
    rw [loop_indices, if_pos hi, getElem?_eq_getElem hlt]
    dsimp only
    generalize hset : words.set tail words[i] = words'
    have hlength : words'.length = words.length := by
      rw [← hset]
      exact length_set ..
    obtain ⟨hnone, hsome⟩ := @skip_indices_spec words' tail i words'.length (by omega) (by omega)
    cases hk : skip words' tail words'.length i with
    | none =>
      obtain ⟨j, hj, hle⟩ := hnone hk
      exact ⟨j, by simp [hj], by omega⟩
    | some k =>
      obtain ⟨hle, hmem⟩ := hsome k hk
      by_cases hlast : nadj ≤ k + 1
      · exact ⟨k + 1, by simp [hmem], hlast⟩
      · obtain ⟨j, hj, hle'⟩ := @ih words' (tail + 1) (k + 1) (by omega) (by omega) (by omega)
        exact ⟨j, by simp [hj], hle'⟩

/-- **Only an empty array** is left in peace: with any adjacency the inner loop looks behind the
    last one. -/
theorem dedup_correct_iff (s after : List VertexID) : Correct s after ↔ s = [] := by
  constructor
  · intro h
    by_contra hne
    obtain ⟨j, hj, hle⟩ := @exists_outside (s ++ after) 0 0 (s.length + 1) s.length
      (length_pos_iff.mpr hne) (by simp) (by omega)
    exact Nat.not_le_of_lt (h.inside j hj) hle
  · rintro rfl
    constructor
    · show ∀ j ∈ ([] : List ℕ), _
      simp
    · exact ⟨[], after, ⟨List.Pairwise.nil, fun x => Iff.rfl⟩, rfl, rfl⟩

/-- With one adjacency the word behind it is read. -/
theorem one_adjacency_not_correct :
    ([7] : List VertexID).Pairwise (· ≤ ·) ∧ ¬Correct [7] [3] := by
  refine ⟨pairwise_singleton _ _, fun h => ?_⟩
  exact absurd (h.inside 1 (by decide)) (by decide)

end Dedup

end Grappa
