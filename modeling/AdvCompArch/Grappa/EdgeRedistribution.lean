import AdvCompArch.Grappa.Addressing
import AdvCompArch.Lib.Census
import AdvCompArch.Lib.Transition
import Mathlib.Algebra.BigOperators.Fin
import Mathlib.Algebra.Group.Fin.Basic

/-! # Placing the edges that were read

    When a file has been read in parallel every core has some of its edges, and the edge
    array of the `TupleGraph` has room for all of them together.  A core copies what fits
    into its own part of the array; then it offers what is left, one edge after the other,
    to the cores after it, and goes on to the next one when a core has no more space. -/

namespace Grappa

open Function Option Multiset List

namespace TupleGraph

structure Edge where
  v0 : ℤ
  v1 : ℤ
  deriving DecidableEq

/-- `sizeof(Edge)`. -/
def Edge.size : ℕ := 16

end TupleGraph

open TupleGraph (Edge)

/-- What the cores have when the file has been read. -/
structure ReadEdges (m : Machine) where
  edges : GlobalAddress
  read_edges : Fin m.cores → List Edge

instance (m : Machine) : NeZero m.cores := ⟨m.cores_pos.ne'⟩

namespace ReadEdges

variable {m : Machine} (g : ReadEdges m)

def read_count (c : Fin m.cores) : ℕ := (g.read_edges c).length

/-- The sum over all cores. -/
def nedge : ℕ := ∑ c, g.read_count c

/-- `edges.localize()` on the core. -/
def local_ptr (c : Fin m.cores) : ℤ := g.edges.localize m Edge.size c

/-- `(edges+nedge).localize()` on the core. -/
def local_end (c : Fin m.cores) : ℤ := (g.edges.element Edge.size g.nedge).localize m Edge.size c

/-- The difference of two `Edge *`. -/
def local_count (c : Fin m.cores) : ℕ := ((g.local_end c - g.local_ptr c) / Edge.size).toNat

/-- The array is in linear global memory, and aligned. -/
structure Allocated : Prop where
  linear : g.edges.is_linear = true
  aligned : (Edge.size : ℤ) ∣ g.edges.storage

variable {g}

/-- The places on a core are the local range of the array. -/
theorem local_range_eq_map (c : Fin m.cores) :
    local_range Edge.size (g.local_ptr c) (g.local_end c) =
      (List.range (g.local_count c)).map fun j : ℕ => g.local_ptr c + j * Edge.size := rfl

theorem places_perm (hg : g.Allocated) :
    ((List.finRange m.cores).flatMap fun c =>
        (List.range (g.local_count c)).map fun j : ℕ => ((c : ℤ), g.local_ptr c + j * Edge.size)).Perm
      ((List.range g.nedge).map fun i : ℕ =>
        ((g.edges.element Edge.size i).core m, (g.edges.element Edge.size i).pointer m)) := by
  obtain ⟨s, hs⟩ := GlobalAddress.exists_nat_of_is_linear hg.linear
  have halign : Edge.size ∣ s := Int.natCast_dvd_natCast.mp (by simpa only [hs] using hg.aligned)
  have hperm := local_ranges_perm (m := m) (by decide) halign g.nedge 0
  rw [← hs] at hperm
  apply List.Perm.trans (List.Perm.of_eq _) hperm
  have hcores : m.all_cores = (finRange m.cores).map fun c : Fin m.cores => ((c : ℕ) : ℤ) := by
    rw [Machine.all_cores, ← List.map_coe_finRange_eq_range, List.map_map]
    rfl
  rw [hcores, flatMap_map]
  apply flatMap_congr
  intro c _
  have hne : ((c : ℕ) : ℤ) ≠ -1 := by omega
  rw [← localize_default 0 hne, ← localize_default 0 hne]
  change _ = (local_range Edge.size (g.local_ptr c) (g.local_end c)).map fun p => (((c : ℕ) : ℤ), p)
  rw [local_range_eq_map, List.map_map]
  rfl

theorem sum_local_count (hg : g.Allocated) : ∑ c, g.local_count c = g.nedge := by
  have hlength := (places_perm hg).length_eq
  simpa [length_flatMap, Fin.sum_univ_def] using hlength

end ReadEdges

/-- The call that places an edge. -/
inductive PlaceCall where
  | idle
  | request (e : Edge)
  | reply (retval : ℤ)
  deriving DecidableEq

structure Redistribution (cores : ℕ) where
  local_offset : Fin cores → ℕ
  /-- The stores into the edge array, each with its core and its place there; the last first. -/
  stores : List ((Fin cores × ℕ) × Edge)
  local_max : Fin cores → ℕ
  likely_consumer : Fin cores → Fin cores
  calls : Fin cores → PlaceCall
  /-- A `CHECK_NE` has failed. -/
  aborted : Bool

open Redistribution

namespace Redistribution

/-- The core sends the next edge; the likely consumer looks for space; the core has the answer. -/
inductive Label (cores : ℕ) where
  | call (c : Fin cores)
  | place (c : Fin cores)
  | resume (c : Fin cores)
  deriving DecidableEq

variable {m : Machine} (g : ReadEdges m) (s : Redistribution m.cores)

/-- The delegate of core `c`, on its likely consumer. -/
def place (c : Fin m.cores) (e : Edge) : Redistribution m.cores :=
  let d := s.likely_consumer c
  if s.local_offset d < g.local_count d then
    -- succeeded, with or without more space available
    let retval := if s.local_offset d + 1 < g.local_count d then 0 else 1
    { s with
      stores := ((d, s.local_offset d), e) :: s.stores
      local_offset := Function.update s.local_offset d (s.local_offset d + 1)
      calls := Function.update s.calls c (.reply retval) }
  else { s with calls := Function.update s.calls c (.reply (-1)) }

/-- `local_max` after the answer. -/
def advance (c : Fin m.cores) (retval : ℤ) : ℕ :=
  if 0 ≤ retval then s.local_max c + 1 else s.local_max c

/-- No more space available on the target, so move to the next core. -/
def Moves (c : Fin m.cores) (retval : ℤ) : Prop :=
  s.advance c retval < g.read_count c ∧ retval ≠ 0

instance (c : Fin m.cores) (retval : ℤ) : Decidable (s.Moves g c retval) :=
  inferInstanceAs (Decidable (_ ∧ _))

/-- The rest of the round of the loop. -/
def resume (c : Fin m.cores) (retval : ℤ) : Redistribution m.cores :=
  let s' := { s with
    local_max := Function.update s.local_max c (s.advance c retval)
    calls := Function.update s.calls c .idle }
  if s.Moves g c retval then
    { s' with
      likely_consumer := Function.update s.likely_consumer c (s.likely_consumer c + 1)
      aborted := s.aborted || s.likely_consumer c + 1 == c }
  else s'

def next : Label m.cores → Option (Redistribution m.cores)
  | .call c =>
    if s.calls c = .idle then
      (g.read_edges c)[s.local_max c]?.map fun e =>
        { s with calls := Function.update s.calls c (.request e) }
    else none
  | .place c =>
    match s.calls c with
    | .request e => some (s.place g c e)
    | _ => none
  | .resume c =>
    match s.calls c with
    | .reply retval => some (s.resume g c retval)
    | _ => none

/-- What fits locally. -/
def fits (c : Fin m.cores) : ℕ := min (g.local_count c) (g.read_count c)

/-- After the first barrier: every core has copied what fits locally. -/
def init : Redistribution m.cores where
  local_offset := fits g
  stores := (finRange m.cores).flatMap fun c =>
    ((g.read_edges c).take (fits g c)).mapIdx fun i e => ((c, i), e)
  local_max := fits g
  likely_consumer := fun c => c + 1
  calls := fun _ => .idle
  aborted := false

def system : Transition.System (Redistribution m.cores) (Label m.cores) where
  init := init g
  next := next g

/-- No core is in its loop. -/
def Done : Prop := ∀ c, s.calls c = .idle ∧ g.read_count c ≤ s.local_max c

instance : Decidable (s.Done g) := inferInstanceAs (Decidable (∀ _, _))

/-! ### The invariant -/

/-- The core has no more space. -/
def Full (d : Fin m.cores) : Prop := s.local_offset d = g.local_count d

/-- How many edges of the core have been placed. -/
def placed (c : Fin m.cores) : ℕ :=
  match s.calls c with
  | .reply retval => s.advance c retval
  | _ => s.local_max c

/-- How many cores it has gone past. -/
def passed (c : Fin m.cores) : ℕ := (s.likely_consumer c - (c + 1)).val

/-- What core `c` knows. -/
structure Knows (c : Fin m.cores) : Prop where
  placed_le : s.placed c ≤ g.read_count c
  request : ∀ e, s.calls c = .request e → (g.read_edges c)[s.local_max c]? = some e
  reply : ∀ r, s.calls c = .reply r → s.local_max c < g.read_count c
  own_full : s.placed c < g.read_count c → s.Full g c
  passed_full : s.placed c < g.read_count c →
    ∀ d, (d - (c + 1)).val < s.passed c → s.Full g d
  tried : ∀ r, s.calls c = .reply r → r ≠ 0 → s.Full g (s.likely_consumer c)

/-- Where the edges are. -/
structure Stored : Prop where
  offset_le : ∀ d, s.local_offset d ≤ g.local_count d
  places : (↑(s.stores.map Prod.fst) : Multiset (Fin m.cores × ℕ)) =
    ∑ d, ↑((List.range (s.local_offset d)).map fun j => (d, j))
  edges : (↑(s.stores.map Prod.snd) : Multiset Edge) =
    ∑ c, ↑((g.read_edges c).take (s.placed c))

structure Inv : Prop where
  stored : s.Stored g
  knows : ∀ c, s.Knows g c
  checked : s.aborted = false

variable {g s} {s' : Redistribution m.cores} {l : Label m.cores} {c : Fin m.cores}

theorem Stored.sum_eq (hs : s.Stored g) (hplaced : ∀ c, s.placed c ≤ g.read_count c) :
    ∑ d, s.local_offset d = ∑ c, s.placed c := by
  have hplaces := congrArg card hs.places
  have hedges := congrArg card hs.edges
  simp only [card_sum, coe_card, length_map, length_range,
    length_take] at hplaces hedges
  rw [← hplaces, hedges]
  apply Finset.sum_congr rfl
  intro c _
  exact min_eq_left (hplaced c)

/-- **While an edge is left there is space left.** -/
theorem Inv.exists_not_full (hi : s.Inv g) (hg : g.Allocated)
    (hleft : s.placed c < g.read_count c) : ∃ d, ¬s.Full g d := by
  by_contra hall
  push Not at hall
  have hsum : ∑ d, s.local_offset d = g.nedge := by
    rw [← ReadEdges.sum_local_count hg]
    exact Finset.sum_congr rfl fun d _ => hall d
  have hlt : ∑ c, s.placed c < g.nedge :=
    Finset.sum_lt_sum (fun c _ => (hi.knows c).placed_le) ⟨c, Finset.mem_univ c, hleft⟩
  rw [hi.stored.sum_eq fun c => (hi.knows c).placed_le] at hsum
  omega

theorem val_add_one {n : ℕ} [NeZero n] {x : Fin n} (h : x.val + 1 < n) :
    (x + 1).val = x.val + 1 := by
  have hone : (1 : Fin n).val = 1 := by
    rw [Fin.val_one', Nat.mod_eq_of_lt (by omega)]
  rw [Fin.val_add, hone, Nat.mod_eq_of_lt h]

theorem add_one_eq_zero {n : ℕ} [NeZero n] {x : Fin n} (h : x.val + 1 = n) : x + 1 = 0 := by
  apply Fin.ext
  rw [Fin.val_add, Fin.val_one', Nat.add_mod_mod, h, Nat.mod_self]
  rfl

/-- **A core that goes on does not come back to itself**: somewhere after the cores it has gone
    past there is one with space. -/
theorem Inv.goes_on (hi : s.Inv g) (hg : g.Allocated) {r : ℤ} (hcall : s.calls c = .reply r)
    (hmoves : s.Moves g c r) :
    s.likely_consumer c + 1 ≠ c ∧ (s.likely_consumer c + 1 - (c + 1)).val = s.passed c + 1 := by
  have hk := hi.knows c
  have hleft : s.placed c < g.read_count c := by
    simp only [placed, hcall]
    exact hmoves.1
  obtain ⟨d, hd⟩ := hi.exists_not_full hg hleft
  -- the core with space is neither this one, nor the one just tried, nor one before it
  have hown : d ≠ c := fun h => hd (h ▸ hk.own_full hleft)
  have hlikely : d ≠ s.likely_consumer c := fun h => hd (h ▸ hk.tried r hcall hmoves.2)
  have hbeyond : s.passed c ≤ (d - (c + 1)).val := by
    by_contra hlt
    exact hd (hk.passed_full hleft d (by omega))
  have hne : s.passed c ≠ (d - (c + 1)).val := by
    intro heq
    exact hlikely (sub_left_inj.mp (Fin.ext heq)).symm
  have hlast : (d - (c + 1)).val + 1 ≠ m.cores := by
    intro hn
    have hzero := add_one_eq_zero hn
    rw [sub_add_eq_sub_sub, sub_add_cancel, sub_eq_zero] at hzero
    exact hown hzero
  have hval : (s.likely_consumer c - (c + 1) + 1).val = s.passed c + 1 :=
    val_add_one (by unfold passed at *; omega)
  constructor
  · intro hback
    have hzero : s.likely_consumer c - (c + 1) + 1 + 1 = 0 := by
      rw [sub_add_eq_sub_sub, sub_add_cancel, sub_add_eq_add_sub, hback, sub_self]
    have := val_add_one (x := s.likely_consumer c - (c + 1) + 1) (by rw [hval]; omega)
    rw [hzero, hval] at this
    simp at this
  · rw [← hval]
    rw [sub_add_eq_add_sub]

/-! ### The steps -/

theorem Knows.mono (hk : s.Knows g c) (hmax : s'.local_max c = s.local_max c)
    (hlikely : s'.likely_consumer c = s.likely_consumer c) (hcalls : s'.calls c = s.calls c)
    (hfull : ∀ d, s.Full g d → s'.Full g d) : s'.Knows g c := by
  have hplaced : s'.placed c = s.placed c := by simp only [placed, advance, hcalls, hmax]
  have hpassed : s'.passed c = s.passed c := by simp only [passed, hlikely]
  constructor
  case placed_le => rw [hplaced]; exact hk.placed_le
  case request => rw [hcalls, hmax]; exact hk.request
  case reply => rw [hcalls, hmax]; exact hk.reply
  case own_full => rw [hplaced]; exact fun h => hfull _ (hk.own_full h)
  case passed_full =>
    rw [hplaced, hpassed]
    exact fun h d hd => hfull _ (hk.passed_full h d hd)
  case tried =>
    rw [hcalls, hlikely]
    exact fun r hr hne => hfull _ (hk.tried r hr hne)

theorem Stored.congr (hs : s.Stored g) (hoffset : s'.local_offset = s.local_offset)
    (hstores : s'.stores = s.stores) (hplaced : ∀ c, s'.placed c = s.placed c) : s'.Stored g where
  offset_le := by rw [hoffset]; exact hs.offset_le
  places := by rw [hoffset, hstores]; exact hs.places
  edges := by simp only [hstores, hplaced]; exact hs.edges

theorem Inv.call (hi : s.Inv g) {e : Edge} (hidle : s.calls c = .idle)
    (he : (g.read_edges c)[s.local_max c]? = some e) :
    Inv g { s with calls := update s.calls c (.request e) } := by
  have hk := hi.knows c
  have hplaced : ∀ d, placed { s with calls := update s.calls c (.request e) } d =
      s.placed d := by
    intro d
    by_cases hd : d = c
    · subst hd
      simp [placed, hidle]
    · simp [placed, advance, update_of_ne hd]
  constructor
  case stored => exact hi.stored.congr rfl rfl hplaced
  case checked => exact hi.checked
  case knows =>
    intro d
    by_cases hd : d = c
    · subst hd
      constructor
      case placed_le => rw [hplaced]; exact hk.placed_le
      case request =>
        intro e' he'
        simp only [update_self] at he'
        obtain rfl := PlaceCall.request.inj he'
        exact he
      case own_full => rw [hplaced]; exact hk.own_full
      case passed_full => rw [hplaced]; exact hk.passed_full
      case reply | tried =>
        intro r hr
        simp only [update_self] at hr
        cases hr
    · exact (hi.knows d).mono rfl rfl (update_of_ne hd ..) fun _ h => h

theorem placed_update_other {r : ℤ} {offset : Fin m.cores → ℕ}
    {stores : List ((Fin m.cores × ℕ) × Edge)} {d : Fin m.cores} (hd : d ≠ c) :
    placed { s with
      stores := stores
      local_offset := offset
      calls := update s.calls c (.reply r) } d = s.placed d := by
  simp [placed, advance, update_of_ne hd]

theorem Inv.place_full (hi : s.Inv g) {e : Edge} (hcall : s.calls c = .request e)
    (hfull : ¬s.local_offset (s.likely_consumer c) < g.local_count (s.likely_consumer c)) :
    Inv g { s with calls := update s.calls c (.reply (-1)) } := by
  have hk := hi.knows c
  have hmax := (List.getElem?_eq_some_iff.mp (hk.request e hcall)).1
  have hplaced : ∀ d, placed { s with calls := update s.calls c (.reply (-1)) } d =
      s.placed d := by
    intro d
    by_cases hd : d = c
    · subst hd
      simp [placed, hcall, advance]
    · exact placed_update_other hd
  constructor
  case stored => exact hi.stored.congr rfl rfl hplaced
  case checked => exact hi.checked
  case knows =>
    intro d
    by_cases hd : d = c
    · subst hd
      constructor
      case placed_le => rw [hplaced]; exact hk.placed_le
      case request =>
        intro e' he'
        simp only [update_self] at he'
        cases he'
      case reply => exact fun _ _ => hmax
      case own_full => rw [hplaced]; exact hk.own_full
      case passed_full => rw [hplaced]; exact hk.passed_full
      case tried =>
        intro r _ _
        exact le_antisymm (hi.stored.offset_le _) (not_lt.mp hfull)
    · exact (hi.knows d).mono rfl rfl (update_of_ne hd ..) fun _ h => h

theorem Inv.place_stored (hi : s.Inv g) {e : Edge} {d : Fin m.cores} {r : ℤ}
    (hcall : s.calls c = .request e) (hd : s.likely_consumer c = d)
    (hspace : s.local_offset d < g.local_count d) (hr : 0 ≤ r)
    (hlast : r ≠ 0 → s.local_offset d + 1 = g.local_count d) :
    Inv g { s with
      stores := ((d, s.local_offset d), e) :: s.stores
      local_offset := update s.local_offset d (s.local_offset d + 1)
      calls := update s.calls c (.reply r) } := by
  have hk := hi.knows c
  have he := hk.request e hcall
  have hmax := (List.getElem?_eq_some_iff.mp he).1
  generalize hs' : ({ s with
      stores := ((d, s.local_offset d), e) :: s.stores
      local_offset := update s.local_offset d (s.local_offset d + 1)
      calls := update s.calls c (.reply r) } : Redistribution m.cores) = s'
  have hbefore : s.placed c = s.local_max c := by simp [placed, hcall]
  have hafter : s'.placed c = s.local_max c + 1 := by
    simp [← hs', placed, advance, hr]
  have hother : ∀ b, b ≠ c → s'.placed b = s.placed b := fun b hb => by
    rw [← hs']
    exact placed_update_other hb
  have hoffset : s'.local_offset = update s.local_offset d (s.local_offset d + 1) := by
    rw [← hs']
  -- a full core has no space, so it is not the one that stores
  have hfull : ∀ b, s.Full g b → s'.Full g b := by
    intro b hb
    have hne : b ≠ d := by
      intro h
      rw [h] at hb
      exact absurd hb hspace.ne
    unfold Full
    rw [hoffset, update_of_ne hne]
    exact hb
  constructor
  case stored =>
    constructor
    case offset_le =>
      intro b
      rw [hoffset]
      by_cases hb : b = d
      · subst hb
        rw [update_self]
        exact hspace
      · rw [update_of_ne hb]
        exact hi.stored.offset_le b
    case places =>
      rw [Census.sum_eq_add (c := d) (x := {(d, s.local_offset d)})
        (f := fun b => (↑((List.range (s.local_offset b)).map fun j => (b, j)) : Multiset _)),
        ← hi.stored.places, ← hs']
      · rw [List.map_cons, ← cons_coe, add_comm, singleton_add]
      · rw [hoffset, update_self, List.range_succ, List.map_append, ← coe_add]
        rfl
      · intro b hb
        rw [hoffset, update_of_ne hb]
    case edges =>
      rw [Census.sum_eq_add (c := c) (x := {e})
        (f := fun b => (↑((g.read_edges b).take (s.placed b)) : Multiset _)),
        ← hi.stored.edges, ← hs']
      · rw [List.map_cons, ← cons_coe, add_comm, singleton_add]
      · rw [hafter, hbefore, take_add_one, he, ← coe_add]
        rfl
      · intro b hb
        rw [hother b hb]
  case checked =>
    rw [← hs']
    exact hi.checked
  case knows =>
    intro b
    by_cases hb : b = c
    · subst hb
      constructor
      case placed_le =>
        rw [hafter]
        exact hmax
      case request =>
        intro e' he'
        rw [← hs'] at he'
        simp at he'
      case reply =>
        intro _ _
        rw [← hs']
        exact hmax
      case own_full => exact fun _ => hfull _ (hk.own_full (by omega))
      case passed_full =>
        intro _ a ha
        have hpassed : s'.passed b = s.passed b := by
          rw [← hs']
          rfl
        rw [hpassed] at ha
        exact hfull _ (hk.passed_full (by omega) a ha)
      case tried =>
        intro r' hr' hne
        have hcalls : s'.calls b = .reply r := by
          rw [← hs']
          exact update_self ..
        obtain rfl := PlaceCall.reply.inj (hcalls.symm.trans hr')
        have hlikely : s'.likely_consumer b = d := by
          rw [← hs']
          exact hd
        rw [hlikely]
        unfold Full
        rw [hoffset, update_self]
        exact hlast hne
    · apply (hi.knows b).mono _ _ _ hfull
      all_goals rw [← hs']
      exact update_of_ne hb ..

theorem Inv.resume (hi : s.Inv g) (hg : g.Allocated) {r : ℤ} (hcall : s.calls c = .reply r) :
    (s.resume g c r).Inv g := by
  have hk := hi.knows c
  have hoffset : (s.resume g c r).local_offset = s.local_offset := by
    unfold Redistribution.resume
    split <;> rfl
  have hstores : (s.resume g c r).stores = s.stores := by
    unfold Redistribution.resume
    split <;> rfl
  have hcalls : (s.resume g c r).calls = update s.calls c .idle := by
    unfold Redistribution.resume
    split <;> rfl
  have hmax : (s.resume g c r).local_max = update s.local_max c (s.advance c r) := by
    unfold Redistribution.resume
    split <;> rfl
  have hfull : ∀ d, s.Full g d → (s.resume g c r).Full g d := by
    intro d hd
    unfold Full
    rw [hoffset]
    exact hd
  have hother : ∀ d, d ≠ c → (s.resume g c r).likely_consumer d = s.likely_consumer d := by
    intro d hd
    unfold Redistribution.resume
    split
    · exact update_of_ne hd ..
    · rfl
  have hplaced : ∀ d, (s.resume g c r).placed d = s.placed d := by
    intro d
    by_cases hd : d = c
    · subst hd
      simp only [placed, hcalls, hmax, update_self, hcall]
    · simp only [placed, advance, hcalls, hmax, update_of_ne hd]
  constructor
  case stored => exact hi.stored.congr hoffset hstores hplaced
  case checked =>
    unfold Redistribution.resume
    split
    · rename_i hmoves
      simp [hi.checked, (hi.goes_on hg hcall hmoves).1]
    · exact hi.checked
  case knows =>
    intro d
    by_cases hd : d = c
    · subst hd
      constructor
      case placed_le => rw [hplaced]; exact hk.placed_le
      case request | reply | tried =>
        intro e he
        rw [hcalls, update_self] at he
        cases he
      case own_full => rw [hplaced]; exact fun h => hfull _ (hk.own_full h)
      case passed_full =>
        rw [hplaced]
        intro hleft a ha
        apply hfull
        by_cases hmoves : s.Moves g d r
        · -- the core it has just tried is one more that it has gone past
          have hpassed : (s.resume g d r).passed d = s.passed d + 1 := by
            rw [← (hi.goes_on hg hcall hmoves).2]
            simp [passed, resume, hmoves]
          rw [hpassed] at ha
          by_cases hlt : (a - (d + 1)).val < s.passed d
          · exact hk.passed_full hleft a hlt
          · have heq : a - (d + 1) = s.likely_consumer d - (d + 1) :=
              Fin.ext (by unfold passed at *; omega)
            rw [sub_left_inj.mp heq]
            exact hk.tried r hcall hmoves.2
        · have hpassed : (s.resume g d r).passed d = s.passed d := by
            simp [passed, resume, hmoves]
          exact hk.passed_full hleft a (hpassed ▸ ha)
    · apply (hi.knows d).mono _ (hother d hd) _ hfull
      · rw [hmax, update_of_ne hd]
      · rw [hcalls, update_of_ne hd]

theorem next_inv (hg : g.Allocated) (hi : s.Inv g) (h : s.next g l = some s') : s'.Inv g := by
  cases l with
  | call c =>
    obtain ⟨hidle, h⟩ := ite_none_right_eq_some.mp h
    obtain ⟨e, he, rfl⟩ := map_eq_some_iff.mp h
    exact hi.call hidle he
  | place c =>
    simp only [next] at h
    split at h
    · rename_i e hcall
      cases h
      simp only [place]
      split
      · rename_i hspace
        split
        · exact hi.place_stored hcall rfl hspace le_rfl fun hne => absurd rfl hne
        · exact hi.place_stored hcall rfl hspace zero_le_one fun _ => by omega
      · rename_i hfull
        exact hi.place_full hcall hfull
    · cases h
  | resume c =>
    simp only [next] at h
    split at h
    · rename_i r hcall
      cases h
      exact hi.resume hg hcall
    · cases h

/-! ### The start -/

theorem coe_flatMap_finRange {α : Type*} {n : ℕ} (f : Fin n → List α) :
    (((finRange n).flatMap f : List α) : Multiset α) = ∑ c, (f c : Multiset α) := by
  rw [Fin.sum_univ_def, ← coe_bind]
  rfl

theorem init_inv : (init g).Inv g where
  stored := by
    constructor
    case offset_le => exact fun d => min_le_left _ _
    case places =>
      rw [← coe_flatMap_finRange]
      congr 1
      simp only [init, map_flatMap]
      apply flatMap_congr
      intro c _
      apply ext_getElem
      · simp [fits, ReadEdges.read_count]
      · intro i hi hi'
        simp
    case edges =>
      rw [← coe_flatMap_finRange]
      congr 1
      simp only [init, map_flatMap]
      apply flatMap_congr
      intro c _
      apply ext_getElem
      · simp [placed]
      · intro i hi hi'
        simp [placed]
  knows := by
    intro c
    constructor
    case placed_le => exact min_le_right _ _
    case request | reply | tried =>
      intro e he
      cases he
    case own_full =>
      intro hleft
      have : fits g c < g.read_count c := hleft
      simp only [Full, init, fits] at this ⊢
      omega
    case passed_full =>
      intro _ d hd
      simp [passed, init] at hd
  checked := rfl

/-! ### The end -/

/-- What core `c` has still to do. -/
def work (g : ReadEdges m) (s : Redistribution m.cores) (c : Fin m.cores) : ℕ :=
  3 * ((g.read_count c - s.local_max c) + (m.cores - s.passed c)) +
    match s.calls c with
    | .idle => 2
    | .request _ => 1
    | .reply _ => 0

/-- What all cores together have still to do. -/
def budget (g : ReadEdges m) (s : Redistribution m.cores) : ℕ := ∑ c, work g s c

theorem budget_lt (hc : work g s' c < work g s c) (h : ∀ d, d ≠ c → work g s' d = work g s d) :
    budget g s' < budget g s := by
  apply Finset.sum_lt_sum
  · intro d _
    by_cases hd : d = c
    · rw [hd]
      exact hc.le
    · exact (h d hd).le
  · exact ⟨c, Finset.mem_univ c, hc⟩

/-- **Every step leaves less to do.** -/
theorem next_budget (hg : g.Allocated) (hi : s.Inv g) (h : s.next g l = some s') :
    budget g s' < budget g s := by
  cases l with
  | call c =>
    obtain ⟨hidle, h⟩ := ite_none_right_eq_some.mp h
    obtain ⟨e, he, rfl⟩ := map_eq_some_iff.mp h
    apply budget_lt (c := c)
    · simp [work, passed, hidle]
    · intro d hd
      simp [work, passed, update_of_ne hd]
  | place c =>
    simp only [next] at h
    split at h
    · rename_i e hcall
      cases h
      apply budget_lt (c := c)
      · simp only [place]
        split <;> simp [work, passed, hcall]
      · intro d hd
        simp only [place]
        split <;> simp [work, passed, update_of_ne hd]
    · cases h
  | resume c =>
    simp only [next] at h
    split at h
    · rename_i r hcall
      cases h
      have hmax := (hi.knows c).reply r hcall
      apply budget_lt (c := c)
      · by_cases hmoves : s.Moves g c r
        · have hgoes := (hi.goes_on hg hcall hmoves).2
          have hadvance : s.local_max c ≤ s.advance c r := by
            unfold advance
            split <;> omega
          simp only [work, resume, hmoves, if_true, update_self, hcall,
            passed] at hgoes ⊢
          omega
        · -- the edge was stored: there was space, or it was the last edge
          have hadvance : s.advance c r = s.local_max c + 1 := by
            unfold advance
            split
            · rfl
            · rename_i hr
              exact absurd ⟨by simpa [advance, hr] using hmax, fun h => hr h.ge⟩ hmoves
          simp only [work, resume, hmoves, if_false, update_self, hcall,
            passed, hadvance]
          omega
      · intro d hd
        unfold resume
        split <;> simp [work, passed, update_of_ne hd]
    · cases h

theorem exists_next (hdone : ¬s.Done g) : ∃ l s', s.next g l = some s' := by
  unfold Done at hdone
  push Not at hdone
  obtain ⟨c, hc⟩ := hdone
  cases hcall : s.calls c with
  | idle =>
    have hlt : s.local_max c < (g.read_edges c).length := hc hcall
    exact ⟨.call c, { s with
      calls := update s.calls c (.request ((g.read_edges c)[s.local_max c])) },
      by simp [next, hcall, getElem?_eq_getElem hlt]⟩
  | request e => exact ⟨.place c, s.place g c e, by simp only [next, hcall]⟩
  | reply r => exact ⟨.resume c, s.resume g c r, by simp only [next, hcall]⟩

theorem Inv.done (hi : s.Inv g) (hg : g.Allocated) (hdone : s.Done g) :
    (∀ c, s.placed c = g.read_count c) ∧ ∀ d, s.local_offset d = g.local_count d := by
  have hplaced : ∀ c, s.placed c = g.read_count c := by
    intro c
    obtain ⟨hidle, hle⟩ := hdone c
    apply le_antisymm (hi.knows c).placed_le
    simpa only [placed, hidle] using hle
  refine ⟨hplaced, ?_⟩
  have hsum : ∑ d, s.local_offset d = ∑ d, g.local_count d := by
    rw [hi.stored.sum_eq fun c => (hi.knows c).placed_le, ReadEdges.sum_local_count hg]
    exact Finset.sum_congr rfl fun c _ => hplaced c
  have := (Finset.sum_eq_sum_iff_of_le fun d _ => hi.stored.offset_le d).mp hsum
  exact fun d => this d (Finset.mem_univ d)

/-- Where a store is in the memory of its core. -/
def address (g : ReadEdges m) (w : (Fin m.cores × ℕ) × Edge) : Core × ℤ :=
  ((w.1.1 : ℕ), g.local_ptr w.1.1 + w.1.2 * Edge.size)

/-- **Redistribution**, for every number of cores, whatever edges they have read and in whatever
    order the delegates run.  No run goes on for ever, and none stops before all cores have left
    their loops; no `CHECK_NE` fails; and when the cores are done, the stores have been one to
    each element of the edge array, and have stored the edges read, each once. -/
theorem redistribute (g : ReadEdges m) (hg : g.Allocated) (ls : List (Label m.cores))
    (s : Redistribution m.cores) (hrun : (system g).run (init g) ls = some s) :
    ls.length ≤ budget g (init g) ∧ s.aborted = false ∧
    (s.Done g ∨ ∃ l s', s.next g l = some s') ∧
    (s.Done g →
      (s.stores.map (address g)).Perm ((List.range g.nedge).map fun i : ℕ =>
        ((g.edges.element Edge.size i).core m, (g.edges.element Edge.size i).pointer m)) ∧
      (s.stores.map Prod.snd).Perm ((finRange m.cores).flatMap g.read_edges)) := by
  have hstep : ∀ s l s', s.Inv g → (system g).next s l = some s' →
      s'.Inv g ∧ budget g s' < budget g s :=
    fun s l s' hi h => ⟨next_inv hg hi h, next_budget hg hi h⟩
  have hreach : (system g).Reachable s := ⟨ls, hrun⟩
  have hi : s.Inv g := hreach.invariant (fun s => s.Inv g) init_inv
    fun s l s' hi h => (hstep s l s' hi h).1
  have hlength := Transition.System.length_add_le (fun s => s.Inv g) (budget g) hstep init_inv hrun
  refine ⟨by omega, hi.checked, ?_, ?_⟩
  · by_cases hdone : s.Done g
    · exact .inl hdone
    · exact .inr (exists_next hdone)
  · intro hdone
    obtain ⟨hplaced, hoffset⟩ := hi.done hg hdone
    constructor
    · apply List.Perm.trans _ (ReadEdges.places_perm hg)
      have hplaces : (s.stores.map Prod.fst).Perm ((finRange m.cores).flatMap fun d =>
          (List.range (g.local_count d)).map fun j => (d, j)) := by
        apply coe_eq_coe.mp
        rw [coe_flatMap_finRange, hi.stored.places]
        simp only [hoffset]
      have := hplaces.map fun q : Fin m.cores × ℕ =>
        (((q.1 : ℕ) : Core), g.local_ptr q.1 + q.2 * Edge.size)
      simp only [List.map_flatMap, List.map_map] at this
      exact this
    · apply coe_eq_coe.mp
      rw [coe_flatMap_finRange, hi.stored.edges]
      apply Finset.sum_congr rfl
      intro c _
      rw [hplaced, ReadEdges.read_count, take_length]

/-- Core 1 has read three edges, and the array is on core 0. -/
theorem redistribute_three_edges :
    let g : ReadEdges ⟨2, by decide, 0⟩ :=
      ⟨⟨0⟩, fun c => if c = 0 then [] else [⟨1, 2⟩, ⟨2, 3⟩, ⟨3, 1⟩]⟩
    ∃ s, (system g).run (init g) [.call 1, .place 1, .resume 1, .call 1, .place 1, .resume 1,
        .call 1, .place 1, .resume 1] = some s ∧ s.Done g ∧
      (s.stores.map Prod.snd).Perm [⟨1, 2⟩, ⟨2, 3⟩, ⟨3, 1⟩] := by
  intro g
  let ls : List (Label 2) := [.call 1, .place 1, .resume 1, .call 1, .place 1, .resume 1,
    .call 1, .place 1, .resume 1]
  obtain ⟨s, hs⟩ : ∃ s, (system g).run (init g) ls = some s :=
    isSome_iff_exists.mp (by decide +kernel)
  have hall : ((system g).run (init g) ls).all (fun s => decide (s.Done g)) = true := by
    decide +kernel
  rw [hs] at hall
  have hdone : s.Done g := of_decide_eq_true hall
  exact ⟨s, hs, hdone, ((redistribute g ⟨rfl, by decide⟩ ls s hs).2.2.2 hdone).2⟩

end Redistribution

end Grappa
