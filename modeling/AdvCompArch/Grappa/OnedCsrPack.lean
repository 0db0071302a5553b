import AdvCompArch.Grappa.AdjacencyDedup
import AdvCompArch.Grappa.OnedCsr

/-! # Packing a range

    The loop that removes the duplicates of a sorted range moves each value that is new to the end
    of those that it has kept (`unique_eq`); the rest is filled with `-1`. -/

namespace Grappa

namespace OnedCsr

open List

theorem i64cmp_le {a b : ℤ} : i64cmp a b ≤ 0 ↔ a ≤ b := by
  unfold i64cmp
  split
  · omega
  · split <;> omega

theorem qsort_perm (buf : List ℤ) : (qsort buf).Perm buf := mergeSort_perm _ _

theorem qsort_pairwise (buf : List ℤ) : (qsort buf).Pairwise (· ≤ ·) := by
  have hsorted : (qsort buf).Pairwise fun a b => decide (i64cmp a b ≤ 0) = true :=
    pairwise_mergeSort (fun a b c hab hbc => ?_) (fun a b => ?_) buf
  · exact hsorted.imp fun h => i64cmp_le.mp (of_decide_eq_true h)
  · simp only [decide_eq_true_eq, i64cmp_le] at hab hbc ⊢
    exact hab.trans hbc
  · simp only [Bool.or_eq_true, decide_eq_true_eq, i64cmp_le]
    exact Int.le_total a b

/-- **The loop**, when `out` and `a` are kept, the last one being `a`, and `s` is to come. -/
theorem unique_eq {out mid s : List ℤ} {a : ℤ} (hout : (out ++ [a]).Pairwise (· < ·))
    (hs : (a :: s).Pairwise (· ≤ ·)) :
    ∃ u tail, unique (out ++ [a] ++ mid ++ s) out.length (out.length + 1 + mid.length) s.length =
        (out ++ [a] ++ u ++ tail, out.length + u.length) ∧
      (out ++ [a] ++ u).Pairwise (· < ·) ∧
      (∀ x, x ∈ out ++ [a] ++ u ↔ x ∈ out ++ [a] ∨ x ∈ s) ∧
      u.length + tail.length = mid.length + s.length := by
  induction s generalizing out mid a with
  | nil => exact ⟨[], mid, by simp [unique], by simpa using hout, by simp, by simp⟩
  | cons b s ih =>
    obtain ⟨hle, hs'⟩ := pairwise_cons.mp hs
    have hcur : (out ++ [a] ++ mid ++ b :: s).getD (out.length + 1 + mid.length) 0 = b := by
      have hlength : (out ++ [a] ++ mid).length = out.length + 1 + mid.length := by
        simp only [length_append, length_singleton]
      rw [getD_eq_getElem?_getD, ← hlength, getElem?_append_right le_rfl, Nat.sub_self]
      rfl
    have hlast : (out ++ [a] ++ mid ++ b :: s).getD out.length 0 = a := by
      rw [getD_eq_getElem?_getD]
      simp
    rw [length_cons, unique, hcur, hlast]
    by_cases hba : b = a
    · -- an equal value is left where it is
      subst hba
      rw [if_neg fun hne => hne rfl]
      obtain ⟨u, tail, heq, hpairwise, hmem, hlength⟩ := @ih out (mid ++ [b]) b hout hs'
      refine ⟨u, tail, ?_, hpairwise, fun x => ?_, ?_⟩
      · rw [← heq]
        simp [add_assoc]
      · have hkept : x = b → x ∈ out ++ [b] := by
          rintro rfl
          exact mem_append_right _ mem_cons_self
        rw [hmem, mem_cons, ← or_assoc, or_iff_left_of_imp hkept]
      · simp only [length_append, length_cons, length_nil] at hlength ⊢
        omega
    · -- a new value is moved
      rw [if_pos hba]
      have hab : a < b := lt_of_le_of_ne (hle b mem_cons_self) (Ne.symm hba)
      obtain ⟨mid', hset, hmid⟩ := Dedup.set_tail (out ++ [a]) mid b s
      rw [length_append, length_singleton] at hset
      have hout' : (out ++ [a] ++ [b]).Pairwise (· < ·) := by
        rw [pairwise_append]
        refine ⟨hout, pairwise_singleton _ _, fun x hx y hy => ?_⟩
        obtain rfl := mem_singleton.mp hy
        rcases mem_append.mp hx with hx | hx
        · exact ((pairwise_append.mp hout).2.2 x hx a (by simp)).trans hab
        · obtain rfl := mem_singleton.mp hx
          exact hab
      obtain ⟨u, tail, heq, hpairwise, hmem, hlength⟩ := @ih (out ++ [a]) mid' b hout' hs'
      refine ⟨b :: u, tail, ?_, ?_, fun x => ?_, ?_⟩
      · rw [hset]
        rw [length_append, length_singleton, hmid,
          show out.length + 1 + 1 + mid.length = out.length + 1 + mid.length + 1 by omega] at heq
        rw [heq]
        simp [add_assoc, add_comm 1]
      · simpa using hpairwise
      · have hx := hmem x
        rw [append_assoc _ [b] u, singleton_append] at hx
        rw [hx, mem_append, mem_singleton, or_assoc, mem_cons]
      · simp only [length_cons] at hlength ⊢
        omega

/-- **A packed range** begins with the values of the range, each once and in order. -/
theorem pack_vtx_edges_spec {buf : List ℤ} (hbuf : buf ≠ []) :
    (pack_vtx_edges buf).1.length = buf.length ∧ (pack_vtx_edges buf).2 ≤ buf.length ∧
      Dedup.IsDedup buf ((pack_vtx_edges buf).1.take (pack_vtx_edges buf).2) := by
  have hperm := qsort_perm buf
  cases hsorted : qsort buf with
  | nil =>
    rw [hsorted] at hperm
    exact absurd hperm.symm.eq_nil hbuf
  | cons a s =>
    have hpairwise := qsort_pairwise buf
    rw [hsorted] at hperm hpairwise
    have hlength : s.length + 1 = buf.length := by simpa using hperm.length_eq
    obtain ⟨u, tail, heq, hincreasing, hmem, htotal⟩ :=
      @unique_eq [] [] s a (pairwise_singleton _ a) hpairwise
    have hunique : unique (qsort buf) 0 1 (buf.length - 1) = (a :: u ++ tail, u.length) := by
      have hleft : buf.length - 1 = s.length := by omega
      rw [hsorted, hleft]
      simpa using heq
    have hpack : pack_vtx_edges buf =
        ((a :: u ++ tail).mapIdx fun k x => if u.length + 1 ≤ k then -1 else x, u.length + 1) := by
      simp only [pack_vtx_edges, hunique]
    have htake : ((a :: u ++ tail).mapIdx fun k x => if u.length + 1 ≤ k then -1 else x).take
        (u.length + 1) = a :: u := by
      apply ext_getElem
      · simp
      · intro k hk hk'
        have hlt : ¬u.length + 1 ≤ k := by simpa using hk'
        rw [getElem_take, getElem_mapIdx, if_neg hlt, getElem_append_left hk']
    simp only [length_nil, zero_add] at htotal
    rw [hpack]
    refine ⟨?_, ?_, ?_, fun x => ?_⟩
    · rw [length_mapIdx, length_append, length_cons]
      omega
    · show u.length + 1 ≤ buf.length
      omega
    · rw [htake]
      exact hincreasing
    · rw [htake, ← hperm.mem_iff]
      simpa using hmem x

/-- What a range becomes; one value is left as it is. -/
def packed (buf : List ℤ) : List ℤ × ℕ :=
  if buf.length ≤ 1 then (buf, buf.length) else pack_vtx_edges buf

theorem packed_spec (buf : List ℤ) :
    (packed buf).1.length = buf.length ∧ (packed buf).2 ≤ buf.length ∧
      Dedup.IsDedup buf ((packed buf).1.take (packed buf).2) := by
  unfold packed
  split
  · rename_i hle
    refine ⟨rfl, le_rfl, ?_, fun x => ?_⟩
    · show (buf.take buf.length).Pairwise (· < ·)
      rw [take_length]
      match buf, hle with
      | [], _ => exact List.Pairwise.nil
      | [x], _ => exact pairwise_singleton _ x
    · show x ∈ buf.take buf.length ↔ x ∈ buf
      rw [take_length]
  · rename_i hlong
    refine pack_vtx_edges_spec ?_
    rintro rfl
    exact hlong (Nat.zero_le 1)

end OnedCsr

end Grappa
