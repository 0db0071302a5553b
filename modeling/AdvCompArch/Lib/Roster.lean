import Mathlib.Data.List.FinRange

/-! # Who is in which state

    Each of finitely many processes is in one of several states.  `roster f a` lists the
    processes in state `a`; when a process changes its state it leaves one list and enters
    another, and the others stay as they are. -/

namespace Roster

open List

variable {n : ℕ} {σ : Type*} [DecidableEq σ] {f : Fin n → σ} {a b : σ} {c : Fin n}

/-- The processes in state `a`, in order. -/
def roster (f : Fin n → σ) (a : σ) : List (Fin n) := (List.finRange n).filter fun c => f c = a

@[simp] theorem mem_roster : c ∈ roster f a ↔ f c = a := by simp [roster]

theorem nodup_roster (f : Fin n → σ) (a : σ) : (roster f a).Nodup :=
  (nodup_finRange n).filter _

theorem perm_of_mem {l : List (Fin n)} (hl : l.Nodup) (h : ∀ c, c ∈ l ↔ f c = a) :
    l.Perm (roster f a) :=
  (perm_ext_iff_of_nodup hl (nodup_roster f a)).mpr fun c => by rw [h, mem_roster]

theorem roster_leave (hc : f c = a) (hb : b ≠ a) :
    (roster f a).Perm (c :: roster (Function.update f c b) a) := by
  apply Perm.symm
  apply perm_of_mem
  · rw [nodup_cons]
    exact ⟨by simp [hb], nodup_roster _ _⟩
  · intro d
    by_cases hd : d = c
    · simp [hd, hc]
    · simp [hd]

theorem roster_enter (hc : f c ≠ a) : (roster (Function.update f c a) a).Perm (c :: roster f a) := by
  apply Perm.symm
  apply perm_of_mem
  · rw [nodup_cons]
    exact ⟨by simp [hc], nodup_roster _ _⟩
  · intro d
    by_cases hd : d = c
    · simp [hd]
    · simp [hd]

theorem roster_other (hc : f c ≠ a) (hb : b ≠ a) : roster (Function.update f c b) a = roster f a := by
  apply filter_congr
  intro d _
  by_cases hd : d = c
  · simp [hd, hc, hb]
  · simp [hd]

theorem roster_all (h : ∀ c, f c = a) : roster f a = List.finRange n := by
  simp [roster, h]

theorem roster_none (h : ∀ c, f c ≠ a) : roster f a = [] := by
  simp [roster, h]

theorem eq_of_length_roster (h : (roster f a).length = n) (c : Fin n) : f c = a := by
  have hsub : (roster f a).Sublist (finRange n) := filter_sublist
  have heq := hsub.eq_of_length (by rw [h, length_finRange])
  exact mem_roster.mp (heq ▸ mem_finRange c)

end Roster
