import Mathlib.Order.Interval.Finset.Nat

/-! # The route map of the aggregator

    Every locale decides alone which of its cores sends to each other locale, and which core
    of that locale receives.  The locales are dealt to the cores in runs of
    `locales_per_core`, and an offset that is too high goes to the core that would have been
    responsible for the locale itself. -/

namespace Grappa.RouteMap

open List

/-- All locales have the same core count: the cores of locale `l` are
    `l * locale_cores, …, l * locale_cores + locale_cores - 1`. -/
structure Machine where
  locales : ℕ
  locale_cores : ℕ
  locale_cores_pos : 0 < locale_cores

structure CoreData where
  mylocale : ℕ
  representative_core : ℤ
  deriving DecidableEq

/-- What a locale shares among its cores; `-1` is the core for the locale itself. -/
structure Routes where
  source_core_for_locale : List ℤ
  dest_core_for_locale : List ℤ
  cores : ℕ → CoreData

namespace Machine

variable (g : Machine) (mylocale : ℕ)

def core (locale offset : ℕ) : ℤ := (locale * g.locale_cores + offset : ℕ)

def locale_of (core : ℕ) : ℕ := core / g.locale_cores

/-- How many locales each core should handle, rounded up. -/
def locales_per_core : ℕ := 1 + (g.locales - 1) / g.locale_cores

def source_core (i : ℕ) : ℤ :=
  if i = mylocale then -1
  else
    -- guess at correct source core on the node
    let offset := i / g.locales_per_core
    g.core mylocale (if offset ≥ g.locale_cores then mylocale / g.locales_per_core else offset)

def dest_core (i : ℕ) : ℤ :=
  if i = mylocale then -1
  else
    let offset := mylocale / g.locales_per_core
    g.core i (if offset ≥ g.locale_cores then i / g.locales_per_core else offset)

/-- The tables are filled one after the other; `cores` are the message lists there were. -/
def compute_route_map (cores : ℕ → CoreData) : Routes where
  source_core_for_locale := (List.range g.locales).map (g.source_core mylocale)
  dest_core_for_locale := (List.range g.locales).map (g.dest_core mylocale)
  cores := (List.range (g.locales * g.locale_cores)).foldl (fun cores i =>
    Function.update cores (g.locale_of i) ⟨g.locale_of i, g.source_core mylocale (g.locale_of i)⟩)
    cores

/-- The list of locales that a core is responsible for.  There is room for `locales_per_core`
    of them, and a core with more ends the program. -/
def core_partner_locales (source_core_for_locale : List ℤ) (mycore : ℤ) : Option (List ℕ) :=
  (List.range g.locales).foldlM (fun partners i =>
    if source_core_for_locale[i]? = some mycore then
      if partners.length < g.locales_per_core then some (partners ++ [i]) else none
    else some partners) []

/-! ### The guess is never too high -/

variable {g} {mylocale} {i A B c : ℕ}

theorem offset_lt (hi : i < g.locales) : i / g.locales_per_core < g.locale_cores := by
  apply Nat.div_lt_of_lt_mul
  have hdiv := Nat.div_add_mod (g.locales - 1) g.locale_cores
  have hrem := Nat.mod_lt (g.locales - 1) g.locale_cores_pos
  rw [locales_per_core, Nat.add_mul, Nat.one_mul, Nat.mul_comm _ g.locale_cores]
  omega

theorem source_core_eq (hi : i < g.locales) (hne : i ≠ mylocale) :
    g.source_core mylocale i = g.core mylocale (i / g.locales_per_core) := by
  simp only [source_core, if_neg hne, if_neg (Nat.not_le.mpr (offset_lt hi))]

theorem dest_core_eq (hme : mylocale < g.locales) (hne : i ≠ mylocale) :
    g.dest_core mylocale i = g.core i (mylocale / g.locales_per_core) := by
  simp only [dest_core, if_neg hne, if_neg (Nat.not_le.mpr (offset_lt hme))]

theorem core_injective {c' : ℕ} : g.core A c = g.core A c' ↔ c = c' := by
  rw [core, core, Int.ofNat_inj]
  exact Nat.add_left_cancel_iff

/-- A core of this locale is responsible for the locales with its offset. -/
theorem source_core_eq_iff (hi : i < g.locales) :
    g.source_core A i = g.core A c ↔ i ≠ A ∧ i / g.locales_per_core = c := by
  by_cases hne : i = A
  · rw [source_core, if_pos hne]
    constructor
    · intro h
      exact absurd h (by rw [core]; omega)
    · intro h
      exact absurd hne h.1
  · rw [source_core_eq hi hne, core_injective]
    exact (and_iff_right hne).symm

theorem source_getElem? (cores : ℕ → CoreData) (hi : i < g.locales) :
    (g.compute_route_map A cores).source_core_for_locale[i]? = some (g.source_core A i) := by
  simp [compute_route_map, hi]

theorem dest_getElem? (cores : ℕ → CoreData) (hi : i < g.locales) :
    (g.compute_route_map A cores).dest_core_for_locale[i]? = some (g.dest_core A i) := by
  simp [compute_route_map, hi]

/-! ### The locales of a core -/

theorem collect_eq (test : ℕ → Prop) [DecidablePred test] (room : ℕ) :
    ∀ l partners : List ℕ, partners.length + (l.filter test).length ≤ room →
      l.foldlM (fun partners i =>
        if test i then if partners.length < room then some (partners ++ [i]) else none
        else some partners) partners = some (partners ++ l.filter test) := by
  intro l
  induction l with
  | nil => simp
  | cons i l ih =>
    intro partners hroom
    by_cases hi : test i
    · rw [filter_cons_of_pos (by simpa using hi), length_cons] at hroom
      rw [foldlM_cons, if_pos hi, if_pos (by omega), filter_cons_of_pos (by simpa using hi)]
      have hrest := ih (partners ++ [i]) (by rw [length_append, length_singleton]; omega)
      rw [Option.bind_eq_bind, Option.bind_some, hrest, append_assoc, singleton_append]
    · rw [filter_cons_of_neg (by simpa using hi)] at hroom ⊢
      rw [foldlM_cons, if_neg hi]
      exact ih partners hroom

theorem length_offset_le (c : ℕ) :
    ((List.range g.locales).filter fun i => i ≠ A ∧ i / g.locales_per_core = c).length ≤
      g.locales_per_core := by
  have hpos : 0 < g.locales_per_core := lt_of_lt_of_le Nat.one_pos (Nat.le_add_right ..)
  rw [← toFinset_card_of_nodup (nodup_range.filter _)]
  have hrun : ((range g.locales).filter fun i =>
      i ≠ A ∧ i / g.locales_per_core = c).toFinset ⊆
      Finset.Ico (g.locales_per_core * c) (g.locales_per_core * c + g.locales_per_core) := by
    intro i hi
    simp only [mem_toFinset, mem_filter, decide_eq_true_eq] at hi
    obtain ⟨-, -, rfl⟩ := hi
    have hdiv := Nat.div_add_mod i g.locales_per_core
    have hrem := Nat.mod_lt i hpos
    exact Finset.mem_Ico.mpr ⟨by omega, by omega⟩
  have hcard := Finset.card_le_card hrun
  rwa [Nat.card_Ico, Nat.add_sub_cancel_left] at hcard

theorem core_partner_locales_eq (cores : ℕ → CoreData) (c : ℕ) :
    g.core_partner_locales (g.compute_route_map A cores).source_core_for_locale (g.core A c) =
      some ((List.range g.locales).filter fun i => i ≠ A ∧ i / g.locales_per_core = c) := by
  have htest : ∀ i ∈ range g.locales,
      (g.compute_route_map A cores).source_core_for_locale[i]? = some (g.core A c) ↔
        i ≠ A ∧ i / g.locales_per_core = c := by
    intro i hi
    rw [source_getElem? cores (mem_range.mp hi), Option.some_inj,
      source_core_eq_iff (mem_range.mp hi)]
  have hfilter : (range g.locales).filter (fun i =>
      (g.compute_route_map A cores).source_core_for_locale[i]? = some (g.core A c)) =
      (range g.locales).filter fun i => i ≠ A ∧ i / g.locales_per_core = c :=
    filter_congr fun i hi => decide_eq_decide.mpr (htest i hi)
  have hcollect := collect_eq (fun i =>
    (g.compute_route_map A cores).source_core_for_locale[i]? = some (g.core A c))
    g.locales_per_core (range g.locales) []
    (by rw [hfilter, length_nil, zero_add]; exact length_offset_le c)
  rw [core_partner_locales, hcollect, hfilter, nil_append]

/-- **The route map.**  For two locales, the core that one computes to send to the other is the
    core that the other computes to receive from, both ways, and is one of the cores of its
    locale.  Each core of a locale is responsible for `locales_per_core` locales at most, and
    each other locale has exactly one such core. -/
theorem compute_route_map_spec (g : Machine) (cores : ℕ → ℕ → CoreData) :
    (∀ A < g.locales, ∀ B < g.locales, A ≠ B →
      (g.compute_route_map A (cores A)).dest_core_for_locale[B]? =
        (g.compute_route_map B (cores B)).source_core_for_locale[A]? ∧
      ∃ offset < g.locale_cores,
        (g.compute_route_map A (cores A)).dest_core_for_locale[B]? = some (g.core B offset)) ∧
    ∀ A < g.locales,
      (∀ c < g.locale_cores, ∃ partners,
        g.core_partner_locales (g.compute_route_map A (cores A)).source_core_for_locale
          (g.core A c) = some partners ∧
        partners.length ≤ g.locales_per_core ∧ partners.Nodup ∧
        ∀ i ∈ partners, i < g.locales ∧ i ≠ A) ∧
      ∀ B < g.locales, B ≠ A → ∃! c, c < g.locale_cores ∧ ∃ partners,
        g.core_partner_locales (g.compute_route_map A (cores A)).source_core_for_locale
          (g.core A c) = some partners ∧ B ∈ partners := by
  constructor
  · intro A hA B hB hne
    rw [dest_getElem? _ hB, source_getElem? _ hA, dest_core_eq hA hne.symm,
      source_core_eq hA hne]
    exact ⟨rfl, _, offset_lt hA, rfl⟩
  · intro A hA
    simp only [core_partner_locales_eq, Option.some_inj, exists_eq_left', mem_filter,
      mem_range, decide_eq_true_eq]
    constructor
    · intro c _
      exact ⟨length_offset_le c, nodup_range.filter _, fun i hi => ⟨hi.1, hi.2.1⟩⟩
    · intro B hB hne
      refine ⟨B / g.locales_per_core, ⟨offset_lt hB, hB, hne, rfl⟩, ?_⟩
      intro c hc
      exact hc.2.2.2.symm

end Machine

end Grappa.RouteMap
