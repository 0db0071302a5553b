import Mathlib.Algebra.BigOperators.Group.Finset.Piecewise
import Mathlib.Algebra.Order.BigOperators.Group.Finset

/-! # Cycles of four steps in a relation

    A cycle `a → b → c → d → a` (`quadruples`) is a path of two steps `c → d → a` and a vertex
    `b` in the middle of `a` and `c` (`card_quadruples`).  Who counts, for each of these paths,
    only the classes of the middles with respect to a function `f`, counts no more cycles than
    there are, and all of them just if `f` separates the middles (`classes_eq_iff`). -/

namespace FourCycles

open Finset

variable {V ι : Type*} [DecidableEq V] [DecidableEq ι] {R : Finset (V × V)} {a b c d x y z : V}

/-- `(a, b, c, d)` with `a → b → c → d → a`. -/
def quadruples (R : Finset (V × V)) : Finset (V × V × V × V) :=
  ((R ×ˢ R).image fun p => (p.1.1, p.1.2, p.2.1, p.2.2)).filter fun q =>
    (q.2.1, q.2.2.1) ∈ R ∧ (q.2.2.2, q.1) ∈ R

/-- `(x, y, z)` with `x → y → z`. -/
def paths (R : Finset (V × V)) : Finset (V × V × V) :=
  ((R ×ˢ R).filter fun p => p.1.2 = p.2.1).image fun p => (p.1.1, p.1.2, p.2.2)

/-- What lies between `x` and `z`. -/
def middles (R : Finset (V × V)) (x z : V) : Finset V :=
  (R.image Prod.snd).filter fun y => (x, y) ∈ R ∧ (y, z) ∈ R

theorem mem_quadruples : (a, b, c, d) ∈ quadruples R ↔
    (a, b) ∈ R ∧ (b, c) ∈ R ∧ (c, d) ∈ R ∧ (d, a) ∈ R := by
  simp only [quadruples, mem_filter, mem_image, mem_product, Prod.exists,
    Prod.mk.injEq]
  constructor
  · intro h
    obtain ⟨⟨a, b, c, d, ⟨hab, hcd⟩, rfl, rfl, rfl, rfl⟩, hbc, hda⟩ := h
    exact ⟨hab, hbc, hcd, hda⟩
  · intro h
    exact ⟨⟨a, b, c, d, ⟨h.1, h.2.2.1⟩, rfl, rfl, rfl, rfl⟩, h.2.1, h.2.2.2⟩

theorem mem_paths : (x, y, z) ∈ paths R ↔ (x, y) ∈ R ∧ (y, z) ∈ R := by
  simp only [paths, mem_filter, mem_image, mem_product, Prod.exists,
    Prod.mk.injEq]
  constructor
  · intro h
    obtain ⟨x, y, y', z, ⟨⟨hxy, hyz⟩, heq⟩, rfl, rfl, rfl⟩ := h
    exact ⟨hxy, heq ▸ hyz⟩
  · intro h
    exact ⟨x, y, y, z, ⟨h, rfl⟩, rfl, rfl, rfl⟩

theorem mem_middles : y ∈ middles R x z ↔ (x, y) ∈ R ∧ (y, z) ∈ R := by
  simp only [middles, mem_filter, mem_image, Prod.exists, exists_eq_right,
    and_iff_right_iff_imp]
  exact fun h => ⟨x, h.1⟩

/-- **A cycle is a path and a middle** for its ends. -/
theorem card_quadruples (R : Finset (V × V)) :
    (quadruples R).card = ∑ p ∈ paths R, (middles R p.2.2 p.1).card := by
  rw [card_eq_sum_card_fiberwise (f := fun q : V × V × V × V => (q.2.2.1, q.2.2.2, q.1))
    (t := paths R)]
  · refine sum_congr rfl fun p _ => ?_
    obtain ⟨c, d, a⟩ := p
    -- the middle tells the cycles over one path apart
    apply card_bij fun q _ => q.2.1
    · rintro ⟨a', b, c', d'⟩ hq
      obtain ⟨hmem, heq⟩ := mem_filter.mp hq
      obtain ⟨rfl, rfl, rfl⟩ : c' = c ∧ d' = d ∧ a' = a := by simpa using heq
      exact mem_middles.mpr ⟨(mem_quadruples.mp hmem).1, (mem_quadruples.mp hmem).2.1⟩
    · rintro ⟨a₁, b₁, c₁, d₁⟩ h₁ ⟨a₂, b₂, c₂, d₂⟩ h₂ heq
      have heq₁ := (mem_filter.mp h₁).2
      have heq₂ := (mem_filter.mp h₂).2
      simp only [Prod.mk.injEq] at heq heq₁ heq₂ ⊢
      exact ⟨heq₁.2.2.trans heq₂.2.2.symm, heq, heq₁.1.trans heq₂.1.symm,
        heq₁.2.1.trans heq₂.2.1.symm⟩
    · intro b hb
      rename_i hp
      obtain ⟨hab, hbc⟩ := mem_middles.mp hb
      obtain ⟨hcd, hda⟩ := mem_paths.mp hp
      have hmem : (a, b, c, d) ∈ quadruples R := mem_quadruples.mpr ⟨hab, hbc, hcd, hda⟩
      exact ⟨(a, b, c, d), mem_filter.mpr ⟨hmem, rfl⟩, rfl⟩
  · rintro ⟨a, b, c, d⟩ hq
    obtain ⟨-, -, hcd, hda⟩ := mem_quadruples.mp hq
    exact mem_paths.mpr ⟨hcd, hda⟩

/-- How many cycles are counted by the classes of their middles. -/
def classes (f : V → ι) (R : Finset (V × V)) : ℕ :=
  ∑ p ∈ paths R, ((middles R p.2.2 p.1).image f).card

/-- **Counting classes counts the cycles** just if no two middles of the ends of a path are in one
    class. -/
theorem classes_eq_iff (f : V → ι) (R : Finset (V × V)) : classes f R = (quadruples R).card ↔
    ∀ a c d, (c, d) ∈ R → (d, a) ∈ R → ∀ b b', (a, b) ∈ R → (b, c) ∈ R → (a, b') ∈ R →
      (b', c) ∈ R → f b = f b' → b = b' := by
  rw [card_quadruples, classes, sum_eq_sum_iff_of_le fun p _ => card_image_le]
  simp only [card_image_iff]
  constructor
  · intro h a c d hcd hda b b' hab hbc hab' hbc' heq
    exact h (c, d, a) (mem_paths.mpr ⟨hcd, hda⟩) (mem_middles.mpr ⟨hab, hbc⟩)
      (mem_middles.mpr ⟨hab', hbc'⟩) heq
  · rintro h ⟨c, d, a⟩ hp b hb b' hb' heq
    obtain ⟨hcd, hda⟩ := mem_paths.mp hp
    obtain ⟨hab, hbc⟩ := mem_middles.mp hb
    obtain ⟨hab', hbc'⟩ := mem_middles.mp hb'
    exact h a c d hcd hda b b' hab hbc hab' hbc' heq

/-- **Counting paths with a known middle** counts the cycles just if every path has at most one
    middle, and this one is known. -/
theorem card_known_eq_iff (known : V → Finset V) (R : Finset (V × V)) :
    ((paths R).filter fun p => ∃ b ∈ middles R p.2.2 p.1, b ∈ known p.2.2).card =
        (quadruples R).card ↔
      ∀ a c d, (c, d) ∈ R → (d, a) ∈ R → ∀ b, (a, b) ∈ R → (b, c) ∈ R →
        b ∈ known a ∧ ∀ b', (a, b') ∈ R → (b', c) ∈ R → b = b' := by
  rw [card_quadruples, card_filter, sum_eq_sum_iff_of_le]
  · constructor
    · intro h a c d hcd hda b hab hbc
      have hpath := h (c, d, a) (mem_paths.mpr ⟨hcd, hda⟩)
      have hb : b ∈ middles R a c := mem_middles.mpr ⟨hab, hbc⟩
      dsimp only at hpath
      split_ifs at hpath with hknown
      · obtain ⟨b₁, hb₁⟩ := card_eq_one.mp hpath.symm
        have hone : ∀ b' ∈ middles R a c, b' = b₁ := fun b' hb' => mem_singleton.mp (hb₁ ▸ hb')
        obtain ⟨b₂, hb₂, hin⟩ := hknown
        refine ⟨(hone b₂ hb₂).trans (hone b hb).symm ▸ hin, fun b' hab' hbc' => ?_⟩
        exact (hone b hb).trans (hone b' (mem_middles.mpr ⟨hab', hbc'⟩)).symm
      · exact absurd hb (card_eq_zero.mp hpath.symm ▸ notMem_empty b)
    · rintro h ⟨c, d, a⟩ hp
      obtain ⟨hcd, hda⟩ := mem_paths.mp hp
      have hmiddle : ∀ b ∈ middles R a c, b ∈ known a ∧ ∀ b' ∈ middles R a c, b = b' := by
        intro b hb
        obtain ⟨hab, hbc⟩ := mem_middles.mp hb
        obtain ⟨hin, hone⟩ := h a c d hcd hda b hab hbc
        exact ⟨hin, fun b' hb' => hone b' (mem_middles.mp hb').1 (mem_middles.mp hb').2⟩
      dsimp only
      split_ifs with hknown
      · obtain ⟨b, hb, -⟩ := hknown
        exact (card_eq_one.mpr ⟨b, eq_singleton_iff_unique_mem.mpr
          ⟨hb, fun b' hb' => ((hmiddle b hb).2 b' hb').symm⟩⟩).symm
      · exact (card_eq_zero.mpr (eq_empty_iff_forall_notMem.mpr
          fun b hb => hknown ⟨b, hb, (hmiddle b hb).1⟩)).symm
  · intro p _
    split_ifs with hknown
    · obtain ⟨b, hb, -⟩ := hknown
      exact card_pos.mpr ⟨b, hb⟩
    · exact Nat.zero_le _

end FourCycles
