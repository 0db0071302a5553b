import AdvCompArch.Grappa.BucketSortInvariant
import AdvCompArch.Lib.Subtasks

/-! # Runs of the bucket sort

    With at most `2 ^ 30` buckets no check fails, and every run ends with the elements that the
    loops visit in order.  The program gives that many buckets up to `log2buckets = 30`; beyond, the
    number of buckets does not fit in an `int`, and every run fails. -/

namespace Grappa

namespace BucketSort

open List Phased

variable {n : ℕ} {cfg : Config n} {keys : ℕ → ℕ} {s s' : State n} {rest : Multiset (Item n)}
  {x : Item n} {new : List (Item n)} {memory : ℕ → Bucket}

/-! ### Every run ends -/

def Phase.rank : Phase → ℕ
  | .start => 0
  | .setup => 1
  | .histogram => 2
  | .offsets => 3
  | .reserve => 4
  | .scatter => 5
  | .sort => 6
  | .put_back => 7

variable (cfg) in
/-- What an item spawns is lesser. -/
def Item.rank : Item n → ℕ
  | .scatter _ => 1
  | .put_back _ i => forall_count cfg.nelems - i + 1
  | _ => 0

theorem bucket_length_le (hs : Sound cfg keys)
    (hperm : ∀ b < cfg.nbuckets, (s.bucketlist b).v.Perm (values cfg keys b)) {b : ℕ}
    (hb : b < cfg.nbuckets) : (s.bucketlist b).v.length ≤ forall_count cfg.nelems := by
  have hsub : (s.bucketlist b).v.length ≤ (s.sorted cfg.nbuckets).length := by
    unfold State.sorted
    rw [length_flatMap]
    exact le_sum_of_mem (mem_map.mpr ⟨b, mem_range.mpr hb, rfl⟩)
  rwa [sorted_length hs hperm] at hsub

theorem PutBack.rank_lt (hs : Sound cfg keys) (h : PutBack cfg keys s (x ::ₘ rest))
    (hx : x.exec cfg s = (s', new)) : ∀ y ∈ new, y.rank cfg < x.rank cfg := by
  rcases h.items x (Multiset.mem_cons_self x rest) with ⟨b, i, hb, rfl⟩ | ⟨a, v, rfl, _⟩
  · by_cases hlt : i < (s.bucketlist b).v.length
    · have hmax : i < (s.bucketlist b).maxelems := by
        rw [h.maxelems b hb, ← (h.perm b hb).length_eq]
        exact hlt
      simp only [Item.exec, if_pos hlt, h.offsets, getElem?_offsets hb h.perm, if_pos hmax] at hx
      cases hx
      have hle := bucket_length_le hs h.perm hb
      intro y hy
      rcases mem_append.mp hy with hy | hy
      · -- an element of the chunk is written
        obtain ⟨j, _, rfl⟩ := mem_mapIdx.mp hy
        exact Nat.succ_pos _
      · obtain rfl := mem_singleton.mp hy
        have hNBUF : NBUF = 2 ^ 22 / 8 := rfl
        simp only [Item.rank]
        omega
    · simp only [Item.exec, if_neg hlt] at hx
      cases hx
      simp
  · cases hx
    simp

theorem exec_spawns (hx : x.exec cfg s = (s', new)) (hput : ∀ b i, x ≠ .put_back b i) :
    ∀ y ∈ new, y.rank cfg < x.rank cfg := by
  cases x with
  | put_back b i => exact absurd rfl (hput b i)
  | setup c | histogram i | offsets c | reserve id | scatter i | append b v | sort b | write a v =>
    simp only [Item.exec, State.abort] at hx
    repeat' split at hx
    all_goals
      cases hx
      simp [Item.rank]

theorem Inv.rank_lt (hs : Sound cfg keys) (h : Inv cfg keys s (x ::ₘ rest))
    (hx : x.exec cfg s = (s', new)) : ∀ y ∈ new, y.rank cfg < x.rank cfg := by
  obtain ⟨_, hphase⟩ := h
  by_cases hput : ∃ b i, x = .put_back b i
  · obtain ⟨b, i, rfl⟩ := hput
    have hmem := Multiset.mem_cons_self (Item.put_back b i) rest
    unfold InPhase at hphase
    split at hphase
    · exact absurd hphase.2 Multiset.cons_ne_zero
    · obtain ⟨c, heq⟩ := hphase.2.items _ hmem
      cases heq
    · obtain ⟨j, _, heq⟩ := hphase.2.items _ hmem
      cases heq
    · obtain ⟨c, heq⟩ := hphase.2.items _ hmem
      cases heq
    · obtain ⟨id, _, heq⟩ := hphase.2.items _ hmem
      cases heq
    · rcases hphase.2.items _ hmem with ⟨j, _, heq⟩ | ⟨b', v, _, heq⟩ <;> cases heq
    · obtain ⟨b', _, heq⟩ := hphase.2.items _ hmem
      cases heq
    · exact hphase.rank_lt hs hx
  · exact exec_spawns hx fun b i heq => hput ⟨b, i, heq⟩

theorem Inv.rank_advance (hs : Sound cfg keys) (h : Inv cfg keys s 0)
    (hx : s.advance cfg = some (s', new)) : s'.phase.rank = s.phase.rank + 1 := by
  rcases (h.advance hs hx).2 with ⟨h₁, h₂⟩ | ⟨h₁, h₂⟩ | ⟨h₁, h₂⟩ | ⟨h₁, h₂⟩ | ⟨h₁, h₂⟩ | ⟨h₁, h₂⟩ |
    ⟨h₁, h₂⟩ <;> rw [h₁, h₂] <;> rfl

theorem Phase.rank_le (phase : Phase) : phase.rank ≤ 7 := by
  cases phase <;> simp [Phase.rank]

/-! ### Where a run ends -/

/-- When nothing is left to put back, the elements that the loops visit are in order. -/
theorem PutBack.array_eq (hs : Sound cfg keys) (h : PutBack cfg keys s 0) :
    (List.range (forall_count cfg.nelems)).map s.array = s.sorted cfg.nbuckets := by
  refine ext_getElem? fun a => ?_
  by_cases ha : a < forall_count cfg.nelems
  · have hbound : a < (s.sorted cfg.nbuckets).length := by
      rw [sorted_length hs h.perm]
      exact ha
    have hvalue := getElem?_eq_getElem hbound
    rcases h.placed a _ hvalue with heq | ⟨y, hy, _⟩
    · rw [hvalue, getElem?_map, getElem?_range ha]
      exact congrArg some heq
    · exact absurd hy (Multiset.notMem_zero y)
  · have hlength : (s.sorted cfg.nbuckets).length ≤ a := by
      rw [sorted_length hs h.perm]
      omega
    rw [getElem?_eq_none hlength, getElem?_eq_none (by simpa using ha)]

theorem forall_count_le (nelems : ℕ) : forall_count nelems ≤ nelems := by
  unfold forall_count bits48
  rw [Int.bmod_def]
  split <;> omega

/-! ### What the sort is to do -/

/-- Every run ends, no check fails on the way, every append finds room, and at the end the array is
    a sorted permutation of what it was. -/
structure Correct (cfg : Config n) (keys : ℕ → ℕ) (memory : ℕ → Bucket) : Prop where
  terminates : ((bucket_sort cfg).system (init keys memory)).Terminates ⟨init keys memory, []⟩
  checks : ∀ t, ((bucket_sort cfg).system (init keys memory)).Reachable t → t.shared.aborted = false
  room : ∀ t, ((bucket_sort cfg).system (init keys memory)).Reachable t →
    ∀ b v, .append b v ∈ t.pool → (t.shared.bucketlist b).v.length < (t.shared.bucketlist b).maxelems
  sorted : ∀ t, ((bucket_sort cfg).system (init keys memory)).Reachable t →
    (∀ l, (bucket_sort cfg).next t l = none) →
    (bucket_sort cfg).Ended t ∧ (t.shared.elements cfg.nelems).Pairwise (· ≤ ·) ∧
      (t.shared.elements cfg.nelems).Perm ((List.range cfg.nelems).map keys)

/-- The same with the number of buckets that the program computes. -/
def Sorts (cfg : Config n) (keys : ℕ → ℕ) (memory : ℕ → Bucket) : Prop :=
  ∃ nbuckets, parse_nbuckets cfg.log2buckets = some nbuckets ∧
    Correct { cfg with nbuckets := size_t nbuckets } keys memory

/-- What is left of the array is in its place, above all that comes before it. -/
def TailInPlace (nelems : ℕ) (keys : ℕ → ℕ) : Prop :=
  ∀ j, forall_count nelems ≤ j → j < nelems → ∀ i < j, keys i ≤ keys j

theorem PutBack.elements_eq (hs : Sound cfg keys) (h : PutBack cfg keys s 0) :
    s.elements cfg.nelems = s.sorted cfg.nbuckets ++
      ((List.range (cfg.nelems - forall_count cfg.nelems)).map (forall_count cfg.nelems + ·)).map
        keys := by
  have hsplit : cfg.nelems = forall_count cfg.nelems + (cfg.nelems - forall_count cfg.nelems) := by
    have hle := forall_count_le cfg.nelems
    omega
  unfold State.elements
  conv_lhs => rw [hsplit, range_add, map_append, h.array_eq hs]
  rw [map_map, map_map]
  refine congrArg _ (map_congr_left fun j _ => ?_)
  exact h.beyond _ (Nat.le_add_right _ _)

theorem PutBack.elements_perm (hs : Sound cfg keys) (h : PutBack cfg keys s 0) :
    (s.elements cfg.nelems).Perm ((List.range cfg.nelems).map keys) := by
  have hsplit : cfg.nelems = forall_count cfg.nelems + (cfg.nelems - forall_count cfg.nelems) := by
    have hle := forall_count_le cfg.nelems
    omega
  rw [h.elements_eq hs]
  conv_rhs => rw [hsplit, range_add, map_append]
  exact (sorted_perm hs h.perm).append_right _

theorem PutBack.elements_pairwise (hs : Sound cfg keys) (h : PutBack cfg keys s 0) :
    (s.elements cfg.nelems).Pairwise (· ≤ ·) ↔ TailInPlace cfg.nelems keys := by
  have hmem : ∀ v, v ∈ s.sorted cfg.nbuckets ↔ ∃ i < forall_count cfg.nelems, keys i = v := by
    intro v
    rw [(sorted_perm hs h.perm).mem_iff]
    simp
  rw [h.elements_eq hs, pairwise_append, pairwise_map, pairwise_map]
  constructor
  · rintro ⟨_, htail, hcross⟩ j hj hjn i hij
    obtain ⟨d, rfl⟩ := Nat.exists_eq_add_of_le hj
    by_cases hi : i < forall_count cfg.nelems
    · refine hcross _ ((hmem _).mpr ⟨i, hi, rfl⟩) _ ?_
      simp only [mem_map, mem_range]
      exact ⟨_, ⟨d, by omega, rfl⟩, rfl⟩
    · obtain ⟨c, rfl⟩ := Nat.exists_eq_add_of_le (Nat.le_of_not_lt hi)
      have hlt : c < d := by omega
      have hget := pairwise_iff_getElem.mp htail c d (by simp; omega) (by simp; omega) hlt
      simpa using hget
  · intro htail
    refine ⟨sorted_pairwise h.perm h.pairwise, ?_, fun v hv w hw => ?_⟩
    · refine pairwise_iff_getElem.mpr fun c d hc hd hcd => ?_
      simp only [length_range] at hc hd
      simp only [getElem_range]
      exact htail _ (by omega) (by omega) _ (by omega)
    · obtain ⟨i, hi, rfl⟩ := (hmem v).mp hv
      simp only [mem_map, mem_range] at hw
      obtain ⟨j, ⟨d, hd, rfl⟩, rfl⟩ := hw
      exact htail _ (by omega) (by omega) i (by omega)

/-! ### With enough buckets, and not too many -/

theorem inv_init : Inv cfg keys (init keys memory) 0 := ⟨rfl, rfl, rfl⟩

theorem Inv.program_exec (hs : Sound cfg keys) (h : Inv cfg keys s (x ::ₘ rest))
    (hx : (bucket_sort cfg).exec s x = some (s', new)) : Inv cfg keys s' (rest + new) ∧
      s'.phase = s.phase ∧ ∀ y ∈ new, y.rank cfg < x.rank cfg := by
  simp only [bucket_sort, h.1, Bool.false_eq_true, if_false, Option.some.injEq] at hx
  exact ⟨(h.exec hs hx).1, (h.exec hs hx).2, h.rank_lt hs hx⟩

theorem Inv.program_advance (hs : Sound cfg keys) (h : Inv cfg keys s 0)
    (hx : (bucket_sort cfg).advance s = some (s', new)) :
    Inv cfg keys s' new ∧ s'.phase.rank = s.phase.rank + 1 := by
  simp only [bucket_sort, h.1, Bool.false_eq_true, if_false] at hx
  exact ⟨(h.advance hs hx).1, h.rank_advance hs hx⟩

theorem program_terminates (hs : Sound cfg keys) :
    ((bucket_sort cfg).system (init keys memory)).Terminates ⟨init keys memory, []⟩ := by
  refine Program.terminates_of_rank (Inv cfg keys) (Item.rank cfg)
    (fun s _ => 7 - s.phase.rank) inv_init ?_ ?_
  · intro s x rest s' new h hx
    obtain ⟨hinv, hphase, hlesser⟩ := h.program_exec hs hx
    exact ⟨hinv, .inr ⟨by rw [hphase], hlesser⟩⟩
  · intro s s' new h hx
    obtain ⟨hinv, hrank⟩ := h.program_advance hs hx
    have hle := s'.phase.rank_le
    exact ⟨hinv, by omega⟩

theorem Inv.room (h : Inv cfg keys s rest) {b v : ℕ} (hmem : .append b v ∈ rest) :
    (s.bucketlist b).v.length < (s.bucketlist b).maxelems := by
  obtain ⟨_, hphase⟩ := h
  unfold InPhase at hphase
  split at hphase
  · rw [hphase.2] at hmem
    exact absurd hmem (Multiset.notMem_zero _)
  · obtain ⟨c, heq⟩ := hphase.2.items _ hmem
    cases heq
  · obtain ⟨j, _, heq⟩ := hphase.2.items _ hmem
    cases heq
  · obtain ⟨c, heq⟩ := hphase.2.items _ hmem
    cases heq
  · obtain ⟨id, _, heq⟩ := hphase.2.items _ hmem
    cases heq
  · exact hphase.2.room hmem
  · obtain ⟨b', _, heq⟩ := hphase.2.items _ hmem
    cases heq
  · rcases hphase.items _ hmem with ⟨b', i, _, heq⟩ | ⟨a, w, heq, _⟩ <;> cases heq

theorem Inv.putBack (h : Inv cfg keys s rest) (hret : (bucket_sort cfg).advance s = none) :
    PutBack cfg keys s rest := by
  obtain ⟨haborted, hphase⟩ := h
  simp only [bucket_sort, haborted, Bool.false_eq_true, if_false, State.advance] at hret
  unfold InPhase at hphase
  split at hphase <;> rename_i heq <;> simp only [heq] at hret
  · cases hret
  · cases hret
  · split at hret <;> cases hret
  · cases hret
  · cases hret
  · cases hret
  · cases hret
  · exact hphase

theorem Sound.reachable_inv (hs : Sound cfg keys) {t : Phased.State (State n) (Item n)}
    (ht : ((bucket_sort cfg).system (init keys memory)).Reachable t) :
    Inv cfg keys t.shared t.pool :=
  Program.Reachable.inv (Inv cfg keys) inv_init
    (fun _ _ _ _ _ h hx => (h.program_exec hs hx).1)
    (fun _ _ _ h hx => (h.program_advance hs hx).1) ht

theorem Sound.ended (hs : Sound cfg keys) {t : Phased.State (State n) (Item n)}
    (ht : ((bucket_sort cfg).system (init keys memory)).Reachable t)
    (hstuck : ∀ l, (bucket_sort cfg).next t l = none) :
    (bucket_sort cfg).Ended t ∧ PutBack cfg keys t.shared 0 := by
  have hinv := hs.reachable_inv ht
  have hended : (bucket_sort cfg).Ended t := by
    refine Program.ended_of_stuck (fun x _ => ?_) hstuck
    simp [bucket_sort, hinv.1]
  have hput := hinv.putBack hended.2
  rw [hended.1] at hput
  exact ⟨hended, hput⟩

theorem Sound.sound_iff_order (hs : Sound cfg keys) (memory : ℕ → Bucket) :
    Correct cfg keys memory ↔ TailInPlace cfg.nelems keys := by
  constructor
  · intro h
    obtain ⟨ls, t, hrun, hstuck⟩ := h.terminates.exists_end
    obtain ⟨_, hput⟩ := hs.ended ⟨ls, hrun⟩ hstuck
    exact (hput.elements_pairwise hs).mp (h.sorted t ⟨ls, hrun⟩ hstuck).2.1
  · intro htail
    refine ⟨program_terminates hs, fun t ht => (hs.reachable_inv ht).1, fun t ht b v hmem =>
      (hs.reachable_inv ht).room (Multiset.mem_coe.mpr hmem), fun t ht hstuck => ?_⟩
    obtain ⟨hended, hput⟩ := hs.ended ht hstuck
    exact ⟨hended, (hput.elements_pairwise hs).mpr htail, hput.elements_perm hs⟩

/-! ### With none, or with too many -/

theorem exec_phase (hx : x.exec cfg s = (s', new)) : s'.phase = s.phase := by
  cases x with
  | setup c | histogram i | offsets c | reserve id | scatter i | append b v | sort b | put_back b i
  | write a v =>
    simp only [Item.exec, State.abort, State.setBucket] at hx
    repeat' split at hx
    all_goals
      obtain ⟨rfl, _⟩ := Prod.mk.inj hx
      rfl

theorem not_correct_of_fails (K : State n → Prop) (y : Item n) (phase : Phase)
    (hphase : 0 < phase.rank ∧ phase.rank < 7) (hinit : K (init keys memory))
    (hexec : ∀ s (x : Item n), K s → K (x.exec cfg s).1)
    (hadvance : ∀ s s' new, K s → s.advance cfg = some (s', new) → s'.aborted = true ∨
      K s' ∧ s'.phase.rank = s.phase.rank + 1 ∧ (s'.phase.rank = phase.rank → y ∈ new))
    (hy : ∀ s, K s → (y.exec cfg s).1.aborted = true) : ¬Correct cfg keys memory := by
  intro hcorrect
  let Held : State n → Multiset (Item n) → Prop := fun s pool => s.aborted = true ∨
    K s ∧ (s.phase.rank < phase.rank ∨ s.phase.rank = phase.rank ∧ y ∈ pool)
  have hstart : Held (init keys memory) 0 := .inr ⟨hinit, .inl hphase.1⟩
  have hstep : ∀ t x rest t' new, Held t (x ::ₘ rest) → (bucket_sort cfg).exec t x = some (t', new) →
      Held t' (rest + (new : Multiset (Item n))) := by
    rintro t x rest t' new h hx
    simp only [bucket_sort] at hx
    split at hx
    · cases hx
    · rename_i haborted
      have heq := Option.some.inj hx
      obtain ⟨hK, hrank⟩ := h.resolve_left haborted
      have hK' := hexec t x hK
      have hfail := hy t hK
      rw [← exec_phase heq] at hrank
      rcases hrank with hlt | ⟨hat, hmem⟩
      · rw [heq] at hK'
        exact .inr ⟨hK', .inl hlt⟩
      · rcases Multiset.mem_cons.mp hmem with rfl | hmem
        · rw [heq] at hfail
          exact .inl hfail
        · rw [heq] at hK'
          exact .inr ⟨hK', .inr ⟨hat, Multiset.mem_add.mpr (.inl hmem)⟩⟩
  have hmain : ∀ t t' new, Held t 0 → (bucket_sort cfg).advance t = some (t', new) →
      Held t' (new : Multiset (Item n)) := by
    rintro t t' new h hx
    simp only [bucket_sort] at hx
    split at hx
    · cases hx
    · rename_i haborted
      obtain ⟨hK, hrank⟩ := h.resolve_left haborted
      have hlt : t.phase.rank < phase.rank :=
        hrank.resolve_right fun hat => Multiset.notMem_zero _ hat.2
      rcases hadvance t t' new hK hx with habort | ⟨hK', hnext, hspawn⟩
      · exact .inl habort
      · refine .inr ⟨hK', ?_⟩
        rcases (show t'.phase.rank ≤ phase.rank by omega).lt_or_eq with hlt' | heq
        · exact .inl hlt'
        · exact .inr ⟨heq, Multiset.mem_coe.mpr (hspawn heq)⟩
  obtain ⟨ls, t, hrun, hstuck⟩ := hcorrect.terminates.exists_end
  have hheld : Held t.shared t.pool := Program.Reachable.inv Held hstart hstep hmain ⟨ls, hrun⟩
  have haborted := hcorrect.checks t ⟨ls, hrun⟩
  obtain ⟨_, hret⟩ := (hcorrect.sorted t ⟨ls, hrun⟩ hstuck).1
  rcases hheld with habort | ⟨_, hrank⟩
  · rw [habort] at haborted
    cases haborted
  · simp only [bucket_sort, haborted, Bool.false_eq_true, if_false, State.advance] at hret
    have hle : t.shared.phase.rank < 7 := by omega
    split at hret
    case h_3 => split at hret <;> cases hret
    case h_8 heq =>
      rw [heq] at hle
      exact absurd hle (lt_irrefl _)
    all_goals cases hret

theorem advance_cases (hx : s.advance cfg = some (s', new)) :
    s' = { s with aborted := true } ∨ s'.offsets = s.offsets ∧ s'.phase.rank = s.phase.rank + 1 ∧
      (s'.phase.rank = Phase.setup.rank → new = (finRange (n + 1)).map .setup) ∧
      (s'.phase.rank = Phase.offsets.rank → new = (finRange (n + 1)).map .offsets) := by
  unfold State.advance at hx
  split at hx
  case h_3 heq =>
    split at hx <;> cases hx
    · exact .inr ⟨rfl, by rw [heq]; rfl, fun h => absurd h (by simp [Phase.rank]), fun _ => rfl⟩
    · exact .inl rfl
  case h_8 => cases hx
  all_goals
    rename_i heq
    cases hx
    refine .inr ⟨rfl, by rw [heq]; rfl, ?_, ?_⟩ <;> simp [Phase.rank]

theorem not_correct_of_too_many (h : max_size < cfg.nbuckets) : ¬Correct cfg keys memory := by
  refine not_correct_of_fails (fun _ => True) (.setup 0) .setup ⟨by decide, by decide⟩ trivial
    (fun _ _ _ => trivial) (fun s s' new _ hx => ?_) fun s _ => ?_
  · rcases advance_cases hx with rfl | ⟨_, hrank, hsetup, _⟩
    · exact .inl rfl
    · refine .inr ⟨trivial, hrank, fun heq => ?_⟩
      rw [hsetup heq]
      exact mem_map_of_mem (mem_finRange 0)
  · have hresize : ∀ v, resize v cfg.nbuckets = none := fun v => if_neg (Nat.not_le.mpr h)
    simp [Item.exec, hresize, State.abort]

theorem not_correct_of_none (h : cfg.nbuckets = 0) : ¬Correct cfg keys memory := by
  refine not_correct_of_fails (fun s => ∀ c, s.offsets c = []) (.offsets 0) .offsets
    ⟨by decide, by decide⟩ (fun _ => rfl) (fun s x hs c => ?_) (fun s s' new hs hx => ?_) fun s hs => ?_
  · cases x with
    | setup c' =>
      have hresize : resize [] cfg.nbuckets = some [] := by
        rw [h]
        rfl
      simp only [Item.exec, hs, hresize, State.abort]
      split
      · rename_i heq
        cases heq
        by_cases hc : c = c'
        · simp only [hc, Function.update_self]
        · simp only [Function.update_of_ne hc]
          exact hs c
      · exact hs c
    | offsets c' =>
      simp only [Item.exec, hs, length_nil, lt_irrefl, false_and, if_false, State.abort]
    | histogram i | reserve id | scatter i | append b v | sort b | put_back b i | write a v =>
      simp only [Item.exec, State.abort, State.setBucket]
      repeat' split
      all_goals exact hs c
  · rcases advance_cases hx with rfl | ⟨hoffsets, hrank, _, hspawn⟩
    · exact .inl rfl
    · refine .inr ⟨fun c => ?_, hrank, fun heq => ?_⟩
      · rw [hoffsets]
        exact hs c
      · rw [hspawn heq]
        exact mem_map_of_mem (mem_finRange 0)
  · simp [Item.exec, hs, State.abort]

/-! ### The number of buckets -/

theorem parse_nbuckets_of_le {log2buckets : ℕ} (h : log2buckets ≤ 30) :
    parse_nbuckets log2buckets = some (2 ^ log2buckets) := by
  revert log2buckets
  decide

theorem parse_nbuckets_of_lt {log2buckets : ℕ} {nbuckets : ℤ} (h : 30 < log2buckets)
    (hparse : parse_nbuckets log2buckets = some nbuckets) :
    size_t nbuckets = 0 ∨ max_size < size_t nbuckets := by
  have hall : ∀ l < 64, 30 < l →
      size_t (Int.bmod (2 ^ l) (2 ^ 32)) = 0 ∨ max_size < size_t (Int.bmod (2 ^ l) (2 ^ 32)) := by
    decide
  unfold parse_nbuckets at hparse
  split at hparse
  · obtain rfl := Option.some.inj hparse
    exact hall log2buckets ‹_› h
  · cases hparse

theorem size_t_two_pow {log2buckets : ℕ} (h : log2buckets ≤ 30) :
    size_t (2 ^ log2buckets) = 2 ^ log2buckets := by
  revert log2buckets
  decide

theorem bucket_of_lt {v : ℕ} (hle : cfg.log2buckets ≤ cfg.log2maxkey) (h : v < 2 ^ cfg.log2maxkey) :
    cfg.bucket_of v < 2 ^ cfg.log2buckets := by
  unfold Config.bucket_of Config.LOBITS
  rw [Nat.shiftRight_eq_div_pow]
  refine Nat.div_lt_of_lt_mul ?_
  rwa [← pow_add, Nat.sub_add_cancel hle]

def sum_vectors (counts : Fin (n + 1) → List ℕ) (_ : Fin (n + 1)) : List ℕ :=
  (List.range (counts (Fin.last n)).length).map fun b => ∑ c, (counts c).getD b 0

def merge_sort (cmp : ℕ → ℕ → ℤ) (l : List ℕ) : List ℕ := l.mergeSort fun a b => cmp a b ≤ 0

def four_keys (log2buckets : ℕ) : Config 1 where
  nelems := 4
  nbuckets := 2 ^ log2buckets
  log2buckets := log2buckets
  log2maxkey := 32
  array_core := fun i => if i % 2 = 0 then Fin.last 1 else (Fin.last 0).castSucc
  bucket_core := fun b => if b % 2 = 0 then Fin.last 1 else (Fin.last 0).castSucc
  allreduce_inplace := sum_vectors
  qsort := merge_sort

def four_values (i : ℕ) : ℕ := [4026531840, 12, 2147483648, 5].getD i 0

theorem four_values_lt (i : ℕ) : four_values i < 2 ^ 32 := by
  by_cases hi : i < 4
  · revert i
    decide
  · have hnone : [4026531840, 12, 2147483648, 5][i]? = (none : Option ℕ) :=
      getElem?_eq_none (Nat.le_of_not_lt hi)
    simp [four_values, getD_eq_getElem?_getD, hnone]

theorem sum_vectors_eq (size : ℕ) (counts : Fin (n + 1) → List ℕ)
    (hsize : ∀ c, (counts c).length = size) (c : Fin (n + 1)) :
    sum_vectors counts c = (List.range size).map fun b => ∑ c', (counts c').getD b 0 := by
  unfold sum_vectors
  rw [hsize]

theorem merge_sort_sorts (l : List ℕ) : (merge_sort ui64cmp l).Perm l ∧
    (merge_sort ui64cmp l).Pairwise fun a b => ui64cmp a b ≤ 0 := by
  refine ⟨mergeSort_perm _ _, ?_⟩
  have hpairwise : (merge_sort ui64cmp l).Pairwise fun a b => decide (ui64cmp a b ≤ 0) = true :=
    pairwise_mergeSort (fun a b c hab hbc => ?_) (fun a b => ?_) l
  · exact hpairwise.imp fun h => of_decide_eq_true h
  · simp only [decide_eq_true_eq, ui64cmp_le] at hab hbc ⊢
    exact hab.trans hbc
  · simp only [Bool.or_eq_true, decide_eq_true_eq, ui64cmp_le]
    exact le_total a b

end BucketSort

end Grappa
