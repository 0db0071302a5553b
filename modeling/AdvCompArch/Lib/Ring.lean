import Mathlib.Data.List.Range

/-! # Windows of a circular array

    An array of `cap` places, indexed from any start and around its end: the window of `n`
    places from `start` on, what a write at the place after the window changes, and the
    window without its first or its last place. -/

namespace Ring

variable {V : Type*} {base : ℕ → V} {cap start n : ℕ}

/-- The `n` values from `start` on, around the end. -/
def window (base : ℕ → V) (cap start n : ℕ) : List V :=
  (List.range n).map fun i => base ((start + i) % cap)

@[simp] theorem window_zero : window base cap start 0 = [] := rfl

theorem window_succ :
    window base cap start (n + 1) = window base cap start n ++ [base ((start + n) % cap)] := by
  simp [window, List.range_succ]

theorem place_ne {i j : ℕ} (hij : i < j) (hj : j < i + cap) :
    (start + i) % cap ≠ (start + j) % cap := by
  intro heq
  have hdvd : cap ∣ (start + j) - (start + i) :=
    Nat.dvd_of_mod_eq_zero (Nat.sub_mod_eq_zero_of_mod_eq heq.symm)
  have hle := Nat.le_of_dvd (by omega) hdvd
  omega

theorem window_update (hn : n < cap) (v : V) :
    window (Function.update base ((start + n) % cap) v) cap start n = window base cap start n := by
  apply List.map_congr_left
  intro i hi
  have hin : i < n := List.mem_range.mp hi
  exact Function.update_of_ne (place_ne hin (by omega)) ..

theorem window_push (hn : n < cap) (v : V) :
    window (Function.update base ((start + n) % cap) v) cap start (n + 1) =
      window base cap start n ++ [v] := by
  rw [window_succ, window_update hn, Function.update_self]

theorem window_pop {l : List V} {v : V} (h : window base cap start (n + 1) = l ++ [v]) :
    window base cap start n = l ∧ base ((start + n) % cap) = v := by
  rw [window_succ] at h
  obtain ⟨hl, hv⟩ := List.append_inj' h rfl
  exact ⟨hl, List.singleton_inj.mp hv⟩

end Ring
