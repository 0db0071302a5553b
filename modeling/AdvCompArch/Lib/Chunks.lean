import Mathlib.Data.List.Range

/-! # Chunks of a range

    The range `[a, b)` is walked in chunks of `n`; the last one may be shorter.  A chunk is
    its start with its length.

    * `ranges_chunks`: the chunks, one after the other, are the range.
    * `filter_chunks`: a position of the range is in one chunk.
    * `length_chunks`: how many chunks there are. -/

namespace Chunks

variable {n a b j : ℕ}

/-- The chunks from `k` on, at most as many as the first argument. -/
def walk (n b : ℕ) : ℕ → ℕ → List (ℕ × ℕ)
  | 0, _ => []
  | fuel + 1, k =>
    if 0 < min n (b - k) then (k, min n (b - k)) :: walk n b fuel (k + n) else []

def chunks (n a b : ℕ) : List (ℕ × ℕ) := walk n b (b - a) a

/-- The position `j` is in a chunk. -/
def covers (j : ℕ) (p : ℕ × ℕ) : Bool := p.1 ≤ j && j < p.1 + p.2

theorem mem_walk {fuel k : ℕ} {p : ℕ × ℕ} (h : p ∈ walk n b fuel k) :
    k ≤ p.1 ∧ 0 < p.2 ∧ p.2 ≤ n ∧ p.1 + p.2 ≤ b := by
  induction fuel generalizing k with
  | zero => simp [walk] at h
  | succ fuel ih =>
    simp only [walk] at h
    split at h
    · rcases List.mem_cons.mp h with rfl | h
      · simp only
        omega
      · have := ih h
        omega
    · simp at h

theorem mem_chunks {p : ℕ × ℕ} (h : p ∈ chunks n a b) :
    a ≤ p.1 ∧ 0 < p.2 ∧ p.2 ≤ n ∧ p.1 + p.2 ≤ b := mem_walk h

theorem ranges_walk (hn : 0 < n) {fuel k : ℕ} (hfuel : b - k ≤ fuel) :
    (walk n b fuel k).flatMap (fun p => List.range' p.1 p.2) = List.range' k (b - k) := by
  induction fuel generalizing k with
  | zero =>
    have : b - k = 0 := by omega
    simp [walk, this]
  | succ fuel ih =>
    simp only [walk]
    split
    · rename_i hpos
      rw [List.flatMap_cons, ih (by omega)]
      -- the chunk and the rest
      rcases le_total n (b - k) with hle | hle
      · rw [min_eq_left hle, List.range'_append_1]
        congr 1
        omega
      · have hrest : b - (k + n) = 0 := by omega
        rw [min_eq_right hle, hrest]
        simp
    · have : b - k = 0 := by omega
      simp [this]

theorem ranges_chunks (hn : 0 < n) :
    (chunks n a b).flatMap (fun p => List.range' p.1 p.2) = List.range' a (b - a) :=
  ranges_walk hn (le_refl _)

theorem filter_walk (hn : 0 < n) {fuel k : ℕ} (hfuel : b - k ≤ fuel) (hk : k ≤ j) (hj : j < b) :
    ∃ p, (walk n b fuel k).filter (covers j) = [p] := by
  induction fuel generalizing k with
  | zero => omega
  | succ fuel ih =>
    rw [walk, if_pos (by omega)]
    by_cases hcover : j < k + n
    · refine ⟨(k, min n (b - k)), ?_⟩
      have hhead : covers j (k, min n (b - k)) = true := by
        simp only [covers, Bool.and_eq_true, decide_eq_true_eq]
        omega
      rw [List.filter_cons_of_pos hhead, List.filter_eq_nil_iff.mpr]
      -- the chunks that follow start behind `j`
      intro p hp
      have := mem_walk hp
      simp only [covers, Bool.and_eq_true, decide_eq_true_eq]
      omega
    · obtain ⟨p, hp⟩ := ih (k := k + n) (by omega) (by omega)
      have hhead : ¬covers j (k, min n (b - k)) = true := by
        simp only [covers, Bool.and_eq_true, decide_eq_true_eq]
        omega
      exact ⟨p, by rw [List.filter_cons_of_neg hhead, hp]⟩

theorem filter_chunks (hn : 0 < n) (ha : a ≤ j) (hb : j < b) :
    ∃ p, (chunks n a b).filter (covers j) = [p] :=
  filter_walk hn (le_refl _) ha hb

theorem length_walk (hn : 0 < n) {fuel k : ℕ} (hfuel : b - k ≤ fuel) :
    (walk n b fuel k).length = (b - k) / n + if (b - k) % n ≠ 0 then 1 else 0 := by
  induction fuel generalizing k with
  | zero =>
    have : b - k = 0 := by omega
    simp [walk, this]
  | succ fuel ih =>
    simp only [walk]
    split
    · rename_i hpos
      rw [List.length_cons, ih (by omega)]
      rcases lt_or_ge (b - k) n with hlt | hle
      · -- the last chunk
        have hrest : b - (k + n) = 0 := by omega
        have hne : b - k ≠ 0 := by omega
        rw [hrest, Nat.div_eq_of_lt hlt, Nat.mod_eq_of_lt hlt]
        simp [hne]
      · have hrest : b - k = b - (k + n) + n := by omega
        rw [hrest, Nat.add_div_right _ hn, Nat.add_mod_right]
        omega
    · have : b - k = 0 := by omega
      simp [this]

theorem length_chunks (hn : 0 < n) :
    (chunks n a b).length = (b - a) / n + if (b - a) % n ≠ 0 then 1 else 0 :=
  length_walk hn (le_refl _)

end Chunks
