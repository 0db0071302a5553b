import AdvCompArch.Grappa.CoresWithElements
import AdvCompArch.Grappa.LoopDecomposition
import AdvCompArch.Lib.TaskPool
import Mathlib.Tactic.LinearCombination

/-! # `forall` over a global array

    `forall(base, nelems, body)` cuts its work three times: `cores_with_elements`
    picks the cores that own elements, each of them takes its local range, and
    `loop_decomposition` cuts the local range into leaves.  A leaf reconstructs the
    global index of each of its elements from the local pointer.

    The pending messages, tasks and loops of all cores form one pool of work whose
    items run in any order. -/

namespace Grappa

open List BlockCyclic

/-- The loop over `first[0..niters)` that rebuilds the index of each element.  `i` is the
    current iteration, `fuel` the number of iterations left. -/
def forall_index_loop (m : Machine) (sizeof : ℕ) (first : ℤ) :
    (fuel : ℕ) → (i index n_to_boundary : ℤ) → List (ℤ × ℤ)
  | 0, _, _, _ => []
  | fuel + 1, i, index, n_to_boundary =>
    let block_elems := block_size / sizeof
    let index' := if n_to_boundary = 0 then index + block_elems * (m.cores - 1) else index
    let n_to_boundary' := if n_to_boundary = 0 then block_elems else n_to_boundary
    (index', first + i * sizeof) ::
      forall_index_loop m sizeof first fuel (i + 1) (index' + 1) (n_to_boundary' - 1)

/-- The functor of `forall(GlobalAddress, nelems, void(int64_t, T&))` on core `c`: the indices
    and elements it hands to the body. -/
def forall_leaf (m : Machine) (sizeof : ℕ) (c : Core) (start niters first : ℤ) : List (ℤ × ℤ) :=
  let a := GlobalAddress.Linear m c first
  let n_to_boundary := (a.block_max m sizeof).sub sizeof a
  forall_index_loop m sizeof first niters.toNat 0 start n_to_boundary

/-- What the work of one `forall` emits: enrollments and completions of its completion
    event, and calls of the body on a core. -/
inductive ForallEvent where
  | enroll (n : ℤ)
  | complete (target : Core)
  | body (core : Core) (index : ℤ) (element : ℤ)
  deriving DecidableEq

/-- The pieces of work of one `forall`. -/
inductive ForallWork where
  /-- The call itself, on the core `origin`. -/
  | call (nelems : ℤ) (origin : Core)
  /-- A heap message to core `c`, with the packed `nelems` and `origin`. -/
  | message (c : Core) (nelems : ℤ) (origin : Core)
  /-- The task that the message's handler spawns on core `c`. -/
  | task (c : Core) (nelems : ℤ) (origin : Core)
  /-- A task of the loop decomposition on core `c`, at its current call. -/
  | loop (c : Core) (local_base : ℤ) (l : Loop) (origin : Core)
  deriving DecidableEq

/-- The parameters of one `forall`. -/
structure ForallArgs where
  machine : Machine
  sizeof : ℕ
  threshold : LoopThreshold
  base : GlobalAddress
  uninit : Core

namespace ForallArgs

variable (f : ForallArgs)

/-- Core `c`'s part of the array: `local_base` and the number of elements `n`. -/
def localized (c : Core) (nelems : ℤ) : ℤ × ℤ :=
  let local_base := f.base.localize f.machine f.sizeof c
  let local_end := (f.base.add f.sizeof nelems).localize f.machine f.sizeof c
  -- `size_t n`, passed on as `int64_t`
  (local_base, Int.bmod ((local_end - local_base) / f.sizeof) (2 ^ 64))

/-- Execute one piece of work. -/
def exec : ForallWork → List ForallEvent × List ForallWork
  | .call nelems origin =>
    let r := cores_with_elements f.machine f.sizeof f.uninit f.base (nelems % 2 ^ 64)
    ([.enroll r.2],
      (List.range r.2.toNat).map fun i : ℕ =>
        .message ((r.1 + i) % f.machine.cores) (bits48 nelems) origin)
  | .message c nelems origin => ([], [.task c nelems origin])
  | .task c nelems origin =>
    let r := f.localized c nelems
    ([], [.loop c r.1 ⟨0, r.2⟩ origin])
  | .loop c local_base l origin =>
    match loop_decomposition f.threshold l with
    | .done => ([.complete origin], [])
    | .leaf s n =>
      let first := local_base + s * f.sizeof
      let start := (GlobalAddress.Linear f.machine c first).sub f.sizeof f.base
      ((forall_leaf f.machine f.sizeof c start n first).map (fun p => .body c p.1 p.2) ++
        [.complete origin], [])
    | .split right left =>
      -- the completion of the right half goes to the core that spawns it
      ([.enroll 1], [.loop c local_base right c, .loop c local_base left origin])

/-- `forall(base, nelems, body)` called on core `origin`, as a pool of work. -/
def forallSystem (nelems : ℤ) (origin : Core) :
    Transition.System (TaskPool.State ForallWork ForallEvent) ℕ :=
  TaskPool.Program.system ⟨f.exec⟩ [.call nelems origin]

end ForallArgs

/-- The calls of the body among the events. -/
def bodyCalls (log : List ForallEvent) : List (Core × ℤ × ℤ) :=
  log.filterMap fun e => match e with
    | .body c i p => some (c, i, p)
    | _ => none

/-- What `forall(base, nelems, body)` is for: one call of the body for each element, on the
    core that owns it. -/
def ForallArgs.expectedCalls (f : ForallArgs) (nelems : ℕ) : List (Core × ℤ × ℤ) :=
  (List.range nelems).map fun i : ℕ =>
    let a := f.base.element f.sizeof i
    (a.core f.machine, (i : ℤ), a.pointer f.machine)

/-! ### Leaves: the index of an element from its local pointer -/

section leaf

open GlobalAddress

variable {m : Machine} {sizeof : ℕ}

/-- The index of the element that core `c` stores at the local pointer `p`. -/
def elementIndex (m : Machine) (sizeof : ℕ) (base : GlobalAddress) (c : Core) (p : ℤ) : ℤ :=
  ((Linear m c p).storage - base.storage) / sizeof

theorem Linear_natCast (c o : ℕ) :
    Linear m c (o + m.global_memory_chunk_base) = ⟨(position 64 m.cores c o : ℕ)⟩ := by
  simp [Linear, block_size, position]

theorem position_add {c o : ℕ} (hdvd : sizeof ∣ 64) (halign : sizeof ∣ o) :
    (o % 64 + sizeof < 64 ∧ (o + sizeof) % 64 = o % 64 + sizeof ∧
      position 64 m.cores c (o + sizeof) =
        position 64 m.cores c o + sizeof) ∨
    (o % 64 + sizeof = 64 ∧ (o + sizeof) % 64 = 0 ∧
      position 64 m.cores c (o + sizeof) =
        position 64 m.cores c o + sizeof + 64 * (m.cores - 1)) := by
  have hfit := aligned_fits hdvd halign
  have hcores := m.cores_pos
  unfold position
  by_cases hlt : o % 64 + sizeof < 64
  · have hdiv : (o + sizeof) / 64 = o / 64 := by omega
    have hmod : (o + sizeof) % 64 = o % 64 + sizeof := by omega
    rw [hdiv, hmod]
    exact Or.inl ⟨hlt, rfl, by omega⟩
  · have hdiv : (o + sizeof) / 64 = o / 64 + 1 := by omega
    have hmod : (o + sizeof) % 64 = 0 := by omega
    have hround : (o / 64 + 1) * m.cores = o / 64 * m.cores + m.cores := by ring
    rw [hdiv, hmod, hround]
    exact Or.inr ⟨by omega, rfl, by omega⟩

/-- The state of the leaf's loop before the iteration on the element at byte offset `o`: after
    the adjustment at a block boundary, `index` is the element's index and `n_to_boundary`
    counts the elements up to the end of its block. -/
structure IndexState (m : Machine) (sizeof s c o : ℕ) (index n_to_boundary : ℤ) : Prop where
  aligned : sizeof ∣ o
  index_eq : (if n_to_boundary = 0 then index + block_size / sizeof * (m.cores - 1) else index) *
    sizeof = position 64 m.cores c o - s
  boundary_eq : (if n_to_boundary = 0 then block_size / sizeof else n_to_boundary) * sizeof =
    64 - (o % 64 : ℕ)

theorem IndexState.next (hdvd : sizeof ∣ 64) {s c o : ℕ} {index n : ℤ}
    (h : IndexState m sizeof s c o index n) :
    IndexState m sizeof s c (o + sizeof)
      ((if n = 0 then index + block_size / sizeof * (m.cores - 1) else index) + 1)
      ((if n = 0 then block_size / sizeof else n) - 1) := by
  obtain ⟨halign, hindex, hboundary⟩ := h
  have hpos : 0 < sizeof := Nat.pos_of_dvd_of_pos hdvd (by norm_num)
  have hcores := m.cores_pos
  have helems := block_elems_mul hdvd
  generalize (if n = 0 then index + block_size / sizeof * (m.cores - 1) else index) = index' at *
  generalize (if n = 0 then block_size / (sizeof : ℤ) else n) = n' at *
  refine ⟨(Nat.dvd_add_right halign).mpr dvd_rfl, ?_, ?_⟩
  all_goals rcases position_add (m := m) (c := c) hdvd halign with ⟨hlt, hmod, hp⟩ | ⟨heq, hmod, hp⟩
  · -- inside the block
    have hne : n' - 1 ≠ 0 := by
      intro h0
      obtain rfl : n' = 1 := by omega
      omega
    rw [if_neg hne, hp, add_mul, hindex]
    push_cast
    ring
  · -- at the boundary the loop skips the blocks of the other cores
    have h1 : n' - 1 = 0 := by
      have : n' * sizeof = 1 * sizeof := by rw [hboundary]; omega
      have := Int.eq_of_mul_eq_mul_right (by exact_mod_cast hpos.ne') this
      omega
    rw [if_pos h1, hp]
    have : ((m.cores - 1 : ℕ) : ℤ) = m.cores - 1 := by omega
    push_cast [this]
    linear_combination hindex + ((m.cores : ℤ) - 1) * helems
  · have hne : n' - 1 ≠ 0 := by
      intro h0
      obtain rfl : n' = 1 := by omega
      omega
    rw [if_neg hne, hmod, sub_mul, hboundary]
    push_cast
    ring
  · have h1 : n' - 1 = 0 := by
      have : n' * sizeof = 1 * sizeof := by rw [hboundary]; omega
      have := Int.eq_of_mul_eq_mul_right (by exact_mod_cast hpos.ne') this
      omega
    rw [if_pos h1, hmod, helems]
    rfl

/-- The loop of a leaf hands out each of its elements with its index. -/
theorem forall_index_loop_eq (hdvd : sizeof ∣ 64) {s c : ℕ} (first : ℤ) (fuel : ℕ) :
    ∀ (i o : ℕ) (index n_to_boundary : ℤ), IndexState m sizeof s c o index n_to_boundary →
      first + i * sizeof = o + m.global_memory_chunk_base →
      forall_index_loop m sizeof first fuel i index n_to_boundary =
        (List.range' i fuel).map fun k : ℕ =>
          (elementIndex m sizeof ⟨(s : ℤ)⟩ c (first + k * sizeof), first + k * sizeof) := by
  have hne : (sizeof : ℤ) ≠ 0 := by
    exact_mod_cast (Nat.pos_of_dvd_of_pos hdvd (by norm_num)).ne'
  induction fuel with
  | zero => intros; rfl
  | succ fuel ih =>
    intro i o index n_to_boundary hst ho
    have hhead : elementIndex m sizeof ⟨(s : ℤ)⟩ c (first + i * sizeof) =
        if n_to_boundary = 0 then index + block_size / sizeof * (m.cores - 1) else index := by
      rw [elementIndex, ho, Linear_natCast]
      show ((position 64 m.cores c o : ℕ) - (s : ℤ)) / (sizeof : ℤ) = _
      rw [← hst.index_eq, Int.mul_ediv_cancel _ hne]
    have htail := ih (i + 1) (o + sizeof) _ _ (hst.next hdvd) (by push_cast; linarith)
    rw [range'_succ, map_cons, hhead, ← htail]
    simp [forall_index_loop]

theorem forall_leaf_eq (hdvd : sizeof ∣ 64) {s c o : ℕ} (halign : sizeof ∣ o) {start : ℤ}
    (hstart : start * sizeof = position 64 m.cores c o - s) (n : ℕ) :
    forall_leaf m sizeof c start n (o + m.global_memory_chunk_base) =
      (List.range n).map fun k : ℕ =>
        (elementIndex m sizeof ⟨(s : ℤ)⟩ c (o + m.global_memory_chunk_base + k * sizeof),
          o + m.global_memory_chunk_base + k * sizeof) := by
  obtain ⟨P, hP⟩ : ∃ P, P = position 64 m.cores c o := ⟨_, rfl⟩
  have hmod : P % 64 = o % 64 := hP ▸ position_mod c o
  have hPalign : sizeof ∣ P :=
    (Nat.dvd_mod_iff hdvd).mp (hmod ▸ (Nat.dvd_mod_iff hdvd).mpr halign)
  have hbound : ((⟨(P : ℤ)⟩ : GlobalAddress).block_max m sizeof).sub sizeof ⟨(P : ℤ)⟩ =
      ((64 - o % 64) / sizeof : ℕ) := by
    rw [block_max_natCast hdvd hPalign, sub_natCast (by omega) (by omega), Nat.add_sub_cancel_left,
      hmod]
  have hfull := div_mul_to_boundary hdvd halign
  have hnz : (((64 - o % 64) / sizeof : ℕ) : ℤ) ≠ 0 := by
    intro h0
    rw [Nat.cast_eq_zero.mp h0] at hfull
    omega
  have hst : IndexState m sizeof s c o start ((64 - o % 64) / sizeof : ℕ) := by
    refine ⟨halign, ?_, ?_⟩
    · rw [if_neg hnz, hstart]
    · rw [if_neg hnz, ← Nat.cast_mul, hfull]
      omega
  unfold forall_leaf
  simp only [Linear_natCast, ← hP, hbound, Int.toNat_natCast]
  have := forall_index_loop_eq hdvd (o + m.global_memory_chunk_base) n 0 o start _ hst (by simp)
  rw [range_eq_range']
  exact_mod_cast this

end leaf

/-! ### The work of one `forall` -/

namespace ForallArgs

open GlobalAddress

variable {f : ForallArgs} {nelems : ℕ}

/-- What the loop relies on: elements do not straddle blocks, the word of the end does not wrap
    around, there is a positive threshold, and the number of elements survives the 48-bit
    packing. -/
structure Regular (f : ForallArgs) (nelems : ℕ) : Prop where
  sizeof_dvd : f.sizeof ∣ 64
  linear : f.base.is_linear = true
  aligned : (f.sizeof : ℤ) ∣ f.base.storage
  threshold : 1 ≤ f.threshold.effective
  nelems_pos : 1 ≤ nelems
  nelems_lt : nelems < 2 ^ 47
  in_space : f.base.storage + nelems * f.sizeof < 2 ^ 63

/-- The elements that core `c` owns. -/
def owned (f : ForallArgs) (nelems : ℕ) (c : Core) : List ℕ :=
  (List.range nelems).filter fun i : ℕ => (f.base.element f.sizeof i).core f.machine = c

/-- The call for the `k`-th local element of core `c`. -/
def callAt (f : ForallArgs) (c : Core) (k : ℕ) : Core × ℤ × ℤ :=
  let p := f.base.localize f.machine f.sizeof c + k * f.sizeof
  (c, elementIndex f.machine f.sizeof f.base c p, p)

theorem length_owned_le (f : ForallArgs) (nelems : ℕ) (c : Core) : (f.owned nelems c).length ≤ nelems := by
  have := length_filter_le
    (fun i : ℕ => decide ((f.base.element f.sizeof i).core f.machine = c)) (range nelems)
  rwa [length_range] at this

theorem Regular.sizeof_pos (h : f.Regular nelems) : 0 < f.sizeof :=
  Nat.pos_of_dvd_of_pos h.sizeof_dvd (by norm_num)

theorem Regular.exists_nat (h : f.Regular nelems) :
    ∃ s : ℕ, f.base = ⟨(s : ℤ)⟩ ∧ f.sizeof ∣ s := by
  obtain ⟨s, hs⟩ := exists_nat_of_is_linear h.linear
  have halign := h.aligned
  rw [hs] at halign
  exact ⟨s, hs, Int.natCast_dvd_natCast.mp halign⟩

/-- The local range of a core, as `localize_partition` describes it. -/
theorem Regular.local_range (h : f.Regular nelems) {c : Core} (hc : c ∈ f.machine.all_cores) :
    (f.base.element f.sizeof nelems).localize f.machine f.sizeof c =
        f.base.localize f.machine f.sizeof c + (f.owned nelems c).length * f.sizeof ∧
      (List.range (f.owned nelems c).length).map
          (fun k : ℕ => f.base.localize f.machine f.sizeof c + k * f.sizeof) =
        (f.owned nelems c).map fun i : ℕ => (f.base.element f.sizeof i).pointer f.machine := by
  obtain ⟨s, hs, halign⟩ := h.exists_nat
  obtain ⟨k, hk, rfl⟩ := mem_map.mp hc
  have hne : ((k : ℕ) : ℤ) ≠ -1 := by omega
  obtain ⟨hend, hlist⟩ := local_range_eq h.sizeof_dvd halign nelems (mem_range.mp hk) 0
  have hnz : (f.sizeof : ℤ) ≠ 0 := by exact_mod_cast h.sizeof_pos.ne'
  unfold owned
  rw [hs, localize_default 0 hne, localize_default 0 hne]
  refine ⟨hend, ?_⟩
  rw [← hlist, hend, Grappa.local_range, add_sub_cancel_left, Int.mul_ediv_cancel _ hnz,
    Int.toNat_natCast]

theorem Regular.localized (h : f.Regular nelems) {c : Core} (hc : c ∈ f.machine.all_cores) :
    f.localized c nelems =
      (f.base.localize f.machine f.sizeof c, ((f.owned nelems c).length : ℤ)) := by
  have hnz : (f.sizeof : ℤ) ≠ 0 := by exact_mod_cast h.sizeof_pos.ne'
  have hle := length_owned_le f nelems c
  have hlt := h.nelems_lt
  simp only [ForallArgs.localized, add_eq_element h.linear h.in_space le_rfl,
    (h.local_range hc).1, add_sub_cancel_left, Int.mul_ediv_cancel _ hnz]
  rw [Int.bmod_eq_of_le (by omega) (by omega)]

theorem Regular.exists_element (h : f.Regular nelems) {s : ℕ} (hs : f.base = ⟨(s : ℤ)⟩) {c : ℕ}
    (hc : c < f.machine.cores) {k : ℕ} (hk : k < (f.owned nelems c).length) :
    ∃ i < nelems, (f.owned nelems c)[k] = i ∧
      owner 64 f.machine.cores (s + i * f.sizeof) = c ∧
      f.base.localize f.machine f.sizeof c + k * f.sizeof =
        offset 64 f.machine.cores (s + i * f.sizeof) +
          f.machine.global_memory_chunk_base := by
  have hmem : (c : Core) ∈ f.machine.all_cores :=
    mem_map.mpr ⟨c, mem_range.mpr hc, rfl⟩
  have hget := getElem_mem hk
  obtain ⟨hrange, hcore⟩ := mem_filter.mp hget
  have hlist := (h.local_range hmem).2
  refine ⟨(f.owned nelems c)[k], mem_range.mp hrange, rfl, ?_, ?_⟩
  · have := of_decide_eq_true hcore
    rw [hs, element_natCast, core_natCast] at this
    exact_mod_cast this
  · have := congrArg (fun l => l[k]?) hlist
    simp only [getElem?_map, getElem?_range hk, Option.map_some,
      getElem?_eq_getElem hk, Option.some.injEq] at this
    rw [this, hs, element_natCast, pointer_natCast]

theorem offset_aligned {sizeof N s : ℕ} (hdvd : sizeof ∣ 64) (halign : sizeof ∣ s) :
    sizeof ∣ offset 64 N s :=
  (Nat.dvd_add_right (dvd_mul_of_dvd_right hdvd _)).mpr ((Nat.dvd_mod_iff hdvd).mpr halign)

theorem Regular.callAt_range (h : f.Regular nelems) {c : Core} (hc : c ∈ f.machine.all_cores) :
    (List.range (f.owned nelems c).length).map (f.callAt c) =
      (f.owned nelems c).map fun i : ℕ => ((f.base.element f.sizeof i).core f.machine, (i : ℤ),
        (f.base.element f.sizeof i).pointer f.machine) := by
  obtain ⟨s, hs, halign⟩ := h.exists_nat
  obtain ⟨c, hk, rfl⟩ := mem_map.mp hc
  have hnz : (f.sizeof : ℤ) ≠ 0 := by exact_mod_cast h.sizeof_pos.ne'
  refine ext_getElem (by simp) fun k hk1 hk2 => ?_
  have hlen : k < (f.owned nelems c).length := by simpa using hk2
  obtain ⟨i, -, hi, hown, hptr⟩ := h.exists_element hs (mem_range.mp hk) hlen
  simp only [getElem_map, getElem_range, hi, callAt]
  rw [hptr, hs, element_natCast, core_natCast, pointer_natCast, elementIndex, Linear_natCast, hown]
  have hpos := position_owner_offset (N := f.machine.cores) (B := 64) (by norm_num)
    (s + i * f.sizeof)
  rw [hown] at hpos
  rw [hpos]
  push_cast
  rw [add_sub_cancel_left, Int.mul_ediv_cancel _ hnz]

theorem Regular.leaf (h : f.Regular nelems) {c : Core} (hc : c ∈ f.machine.all_cores) (st n : ℕ)
    (hn : 1 ≤ n) (hle : st + n ≤ (f.owned nelems c).length) :
    let first := f.base.localize f.machine f.sizeof c + st * f.sizeof
    (forall_leaf f.machine f.sizeof c ((Linear f.machine c first).sub f.sizeof f.base) n first).map
        (fun p => (c, p.1, p.2)) =
      (range' st n).map (f.callAt c) := by
  obtain ⟨s, hs, halign⟩ := h.exists_nat
  obtain ⟨c, hk, rfl⟩ := mem_map.mp hc
  have hpos := h.sizeof_pos
  obtain ⟨i, hi, -, hown, hptr⟩ := h.exists_element hs (mem_range.mp hk)
    (k := st) (by omega)
  have halign' : f.sizeof ∣ s + i * f.sizeof := (Nat.dvd_add_right halign).mpr (dvd_mul_left _ _)
  have hposn := position_owner_offset (N := f.machine.cores) (B := 64) (by norm_num)
    (s + i * f.sizeof)
  rw [hown] at hposn
  have hbytes : i * f.sizeof ≤ 2 ^ 47 * 64 :=
    Nat.mul_le_mul (hi.trans h.nelems_lt).le (Nat.le_of_dvd (by norm_num) h.sizeof_dvd)
  have hidx : (Linear f.machine c (offset 64 f.machine.cores (s + i * f.sizeof) +
      f.machine.global_memory_chunk_base)).sub f.sizeof f.base = i := by
    rw [Linear_natCast, hposn, hs, sub_natCast (by omega) (by omega), Nat.add_sub_cancel_left,
      Nat.mul_div_cancel _ hpos]
  intro first
  simp only [first, hptr, hidx]
  rw [forall_leaf_eq (s := s) h.sizeof_dvd (offset_aligned h.sizeof_dvd halign')
    (by rw [hposn]; push_cast; ring), ← hptr, map_map, range'_eq_map_range, map_map,
    ← hs]
  refine map_congr_left fun k _ => ?_
  have hshift : f.base.localize f.machine f.sizeof c + st * f.sizeof + k * f.sizeof =
      f.base.localize f.machine f.sizeof c + ((st + k : ℕ) : ℤ) * f.sizeof := by
    push_cast
    ring
  simp only [Function.comp_apply, callAt, hshift]

/-! ### Which cores are sent a message -/

/-- The cores that `on_cores_localized_async` sends to. -/
def targets (f : ForallArgs) (nelems : ℤ) : List Core :=
  let r := cores_with_elements f.machine f.sizeof f.uninit f.base (nelems % 2 ^ 64)
  (List.range r.2.toNat).map fun i : ℕ => (r.1 + i) % f.machine.cores

theorem Regular.end_lt (h : f.Regular nelems) {s : ℕ} (hs : f.base = ⟨(s : ℤ)⟩) :
    s + nelems * f.sizeof < 2 ^ 63 := by
  have hspace : (s : ℤ) + nelems * f.sizeof < 2 ^ 63 := by simpa only [hs] using h.in_space
  exact_mod_cast hspace

theorem Regular.targets_eq (h : f.Regular nelems) {s : ℕ} (hs : f.base = ⟨(s : ℤ)⟩)
    (halign : f.sizeof ∣ s) :
    f.targets nelems =
      (List.range (min f.machine.cores ((s + nelems * f.sizeof - 1) / 64 - s / 64 + 1))).map
        fun i : ℕ =>
          (((owner 64 f.machine.cores s + i) % f.machine.cores : ℕ) : ℤ) := by
  have hlt := h.nelems_lt
  have hmod : (nelems : ℤ) % 2 ^ 64 = nelems :=
    Int.emod_eq_of_lt (by omega) (by norm_num at hlt ⊢; omega)
  unfold targets
  rw [hmod, hs, cores_with_elements_natCast h.sizeof_dvd halign h.nelems_pos (h.end_lt hs)]
  simp only [Int.toNat_natCast]
  refine map_congr_left fun i _ => ?_
  push_cast
  rfl

theorem Regular.targets_nodup (h : f.Regular nelems) : (f.targets nelems).Nodup := by
  obtain ⟨s, hs, halign⟩ := h.exists_nat
  rw [h.targets_eq hs halign]
  refine List.Nodup.map_on ?_ nodup_range
  intro i hi j hj hij
  have hi' := mem_range.mp hi
  have hj' := mem_range.mp hj
  have hmod : (owner 64 f.machine.cores s + i) ≡
      (owner 64 f.machine.cores s + j) [MOD f.machine.cores] := by
    exact_mod_cast hij
  have := Nat.ModEq.add_left_cancel' _ hmod
  rwa [Nat.ModEq, Nat.mod_eq_of_lt (by omega), Nat.mod_eq_of_lt (by omega)] at this

theorem Regular.targets_subset (h : f.Regular nelems) {c : Core} (hc : c ∈ f.targets nelems) :
    c ∈ f.machine.all_cores := by
  obtain ⟨s, hs, halign⟩ := h.exists_nat
  rw [h.targets_eq hs halign] at hc
  obtain ⟨i, -, rfl⟩ := mem_map.mp hc
  exact mem_map.mpr ⟨_, mem_range.mpr (Nat.mod_lt _ f.machine.cores_pos), rfl⟩

/-- Every element lives on a core that is sent a message. -/
theorem Regular.core_mem_targets (h : f.Regular nelems) {i : ℕ} (hi : i < nelems) :
    (f.base.element f.sizeof i).core f.machine ∈ f.targets nelems := by
  obtain ⟨s, hs, halign⟩ := h.exists_nat
  have hpos := h.sizeof_pos
  have hcores := f.machine.cores_pos
  have hbytes : (i + 1) * f.sizeof ≤ nelems * f.sizeof := Nat.mul_le_mul_right _ hi
  rw [Nat.succ_mul] at hbytes
  -- the element lies `d` blocks after the base
  obtain ⟨d, hd⟩ : ∃ d, d = (s + i * f.sizeof) / 64 - s / 64 := ⟨_, rfl⟩
  have hblock : (s + i * f.sizeof) / 64 = s / 64 + d := by omega
  have hround : d % f.machine.cores < f.machine.cores := Nat.mod_lt _ hcores
  have hle : d % f.machine.cores ≤ d := Nat.mod_le _ _
  rw [h.targets_eq hs halign, hs, element_natCast, core_natCast]
  refine mem_map.mpr ⟨d % f.machine.cores, mem_range.mpr (by omega), ?_⟩
  rw [owner, owner, hblock, ← Nat.add_mod]

/-! ### Conservation of the calls -/

/-- The pieces of work that a `forall` over `nelems` elements gives rise to. -/
def Ok (f : ForallArgs) (nelems : ℕ) : ForallWork → Prop
  | .call n _ => n = nelems
  | .message c n _ => c ∈ f.machine.all_cores ∧ n = nelems
  | .task c n _ => c ∈ f.machine.all_cores ∧ n = nelems
  | .loop c local_base l _ => c ∈ f.machine.all_cores ∧
      local_base = f.base.localize f.machine f.sizeof c ∧ 0 ≤ l.start ∧ 0 ≤ l.iterations ∧
      l.start + l.iterations ≤ (f.owned nelems c).length

/-- The calls that a piece of work still has to make. -/
def remaining (f : ForallArgs) (nelems : ℕ) : ForallWork → Multiset (Core × ℤ × ℤ)
  | .call _ _ => f.expectedCalls nelems
  | .message c _ _ => (List.range (f.owned nelems c).length).map (f.callAt c)
  | .task c _ _ => (List.range (f.owned nelems c).length).map (f.callAt c)
  | .loop c _ l _ => (List.range' l.start.toNat l.iterations.toNat).map (f.callAt c)

/-- The calls among the emitted events. -/
def emitted : ForallEvent → Multiset (Core × ℤ × ℤ)
  | .body c i p => {(c, i, p)}
  | _ => 0

/-- A bound on the number of steps a piece of work leads to. -/
def size (f : ForallArgs) (nelems : ℕ) : ForallWork → ℕ
  | .call _ _ =>
    ((f.targets nelems).map fun c => max 1 (2 * (f.owned nelems c).length - 1) + 2).sum + 1
  | .message c _ _ => max 1 (2 * (f.owned nelems c).length - 1) + 2
  | .task c _ _ => max 1 (2 * (f.owned nelems c).length - 1) + 1
  | .loop _ _ l _ => max 1 (2 * l.iterations.toNat - 1)

theorem sum_emitted (log : List ForallEvent) :
    (log.map emitted).sum = (bodyCalls log : Multiset (Core × ℤ × ℤ)) := by
  induction log with
  | nil => rfl
  | cons e log ih =>
    rw [map_cons, sum_cons, ih]
    cases e <;> simp [emitted, bodyCalls]

theorem sum_coe {α β : Type*} (l : List α) (g : α → List β) :
    (l.map fun a => (g a : Multiset β)).sum = (l.flatMap g : Multiset β) := by
  induction l with
  | nil => rfl
  | cons a l ih => simp [ih]

theorem bodyCalls_append (l₁ l₂ : List ForallEvent) :
    bodyCalls (l₁ ++ l₂) = bodyCalls l₁ ++ bodyCalls l₂ :=
  filterMap_append

theorem bodyCalls_map_body (c : Core) (l : List (ℤ × ℤ)) :
    bodyCalls (l.map fun p => .body c p.1 p.2) = l.map fun p => (c, p.1, p.2) := by
  simp [bodyCalls, filterMap_map]

theorem exec_call (nelems : ℤ) (origin : Core) :
    (f.exec (.call nelems origin)).2 =
      (f.targets nelems).map fun c => .message c (bits48 nelems) origin := by
  simp [exec, targets, map_map, Function.comp_def]

theorem Regular.bits48_nelems (h : f.Regular nelems) : bits48 nelems = nelems :=
  bits48_of_lt (by omega) (by exact_mod_cast h.nelems_lt)

/-- What a loop does next, in terms of the local elements it covers. -/
theorem Regular.loop_cases (h : f.Regular nelems) {c : Core} {lb : ℤ} {l : Loop} {origin : Core}
    (hok : f.Ok nelems (.loop c lb l origin)) :
    (l.iterations = 0 ∧ f.exec (.loop c lb l origin) = ([.complete origin], [])) ∨
    (1 ≤ l.iterations ∧ (f.exec (.loop c lb l origin)).2 = [] ∧
      bodyCalls (f.exec (.loop c lb l origin)).1 =
        (List.range' l.start.toNat l.iterations.toNat).map (f.callAt c)) ∨
    (∃ a b : ℤ, 1 ≤ a ∧ 1 ≤ b ∧ l.iterations = a + b ∧
      f.exec (.loop c lb l origin) = ([.enroll 1],
        [.loop c lb ⟨l.start + a, b⟩ c, .loop c lb ⟨l.start, a⟩ origin])) := by
  obtain ⟨hc, rfl, hstart, hiter, hle⟩ := hok
  have hlen := length_owned_le f nelems c
  have hlt := h.nelems_lt
  rcases loop_decomposition_cases h.threshold ⟨hstart, hiter, by omega⟩ with
    ⟨h0, hd⟩ | ⟨h1, hd⟩ | ⟨a, b, ha, hb, hab, hd⟩
  · exact Or.inl ⟨h0, by simp [exec, hd]⟩
  · refine Or.inr (Or.inl ⟨h1, by simp [exec, hd], ?_⟩)
    obtain ⟨st, hst⟩ := Int.eq_ofNat_of_zero_le hstart
    obtain ⟨n, hn⟩ := Int.eq_ofNat_of_zero_le hiter
    have hleaf := h.leaf hc st n (by omega) (by omega)
    simp only [exec, hd, hst, hn, Int.toNat_natCast]
    rw [bodyCalls_append, bodyCalls_map_body, ← hleaf]
    exact append_nil _
  · exact Or.inr (Or.inr ⟨a, b, ha, hb, hab, by simp [exec, hd]⟩)

theorem Regular.exec_ok (h : f.Regular nelems) (w : ForallWork) (hok : f.Ok nelems w) :
    ∀ j ∈ (f.exec w).2, f.Ok nelems j := by
  intro j hj
  cases w with
  | call n origin =>
    obtain rfl : n = nelems := hok
    rw [exec_call] at hj
    obtain ⟨c, hc, rfl⟩ := mem_map.mp hj
    exact ⟨h.targets_subset hc, h.bits48_nelems⟩
  | message c n origin =>
    obtain rfl : j = .task c n origin := by simpa [exec] using hj
    exact hok
  | task c n origin =>
    obtain ⟨hc, rfl⟩ := hok
    have hloc := h.localized hc
    obtain rfl : j = .loop c (f.base.localize f.machine f.sizeof c)
        ⟨0, (f.owned nelems c).length⟩ origin := by
      simpa [exec, hloc] using hj
    exact ⟨hc, rfl, le_rfl, by simp, by simp⟩
  | loop c lb l origin =>
    rcases h.loop_cases hok with ⟨-, hx⟩ | ⟨-, hx, -⟩ | ⟨a, b, ha, hb, hab, hx⟩
    · simp [hx] at hj
    · simp [hx] at hj
    · obtain ⟨hc, hlb, hstart, hiter, hle⟩ := hok
      rw [hx] at hj
      rcases mem_cons.mp hj with rfl | hj
      · refine ⟨hc, hlb, ?_, ?_, ?_⟩ <;> simp only <;> omega
      · obtain rfl := mem_singleton.mp hj
        refine ⟨hc, hlb, hstart, ?_, ?_⟩ <;> simp only <;> omega

theorem Regular.exec_remaining (h : f.Regular nelems) (w : ForallWork) (hok : f.Ok nelems w) :
    f.remaining nelems w =
      ((f.exec w).1.map emitted).sum + ((f.exec w).2.map (f.remaining nelems)).sum := by
  rw [sum_emitted]
  cases w with
  | call n origin =>
    obtain rfl : n = nelems := hok
    have hlog : bodyCalls (f.exec (.call nelems origin)).1 = [] := rfl
    rw [hlog, exec_call, map_map]
    simp only [Function.comp_def, remaining]
    rw [sum_coe, Multiset.coe_nil, zero_add, Multiset.coe_eq_coe]
    -- dealing the elements out to the cores that own them loses nothing
    have hperm := Distribute.flatMap_filter_perm (f.targets nelems) h.targets_nodup
      (fun i : ℕ => (f.base.element f.sizeof i).core f.machine)
      (fun i : ℕ => ((f.base.element f.sizeof i).core f.machine, (i : ℤ),
        (f.base.element f.sizeof i).pointer f.machine))
      (range nelems) fun i hi => h.core_mem_targets (mem_range.mp hi)
    refine hperm.symm.trans (List.Perm.of_eq (flatMap_congr fun c hc => ?_))
    exact (h.callAt_range (h.targets_subset hc)).symm
  | message c n origin => simp [exec, remaining, bodyCalls]
  | task c n origin =>
    obtain ⟨hc, rfl⟩ := hok
    simp [exec, remaining, bodyCalls, h.localized hc, range_eq_range']
  | loop c lb l origin =>
    rcases h.loop_cases hok with ⟨h0, hx⟩ | ⟨-, hx, hcalls⟩ | ⟨a, b, ha, hb, hab, hx⟩
    · simp [hx, remaining, h0, bodyCalls]
    · simp [hx, remaining, hcalls]
    · -- the two halves are adjacent
      obtain ⟨-, -, hstart, -, -⟩ := hok
      have hsum : l.iterations.toNat = a.toNat + b.toNat := by omega
      have hnext : (l.start + a).toNat = l.start.toNat + a.toNat := by omega
      simp only [hx, remaining, hsum, hnext, bodyCalls, filterMap_cons, filterMap_nil,
        map_cons, map_nil, sum_cons, sum_nil, add_zero, Multiset.coe_nil,
        zero_add]
      rw [← range'_append_1, map_append, ← Multiset.coe_add, add_comm]

theorem Regular.exec_size (h : f.Regular nelems) (w : ForallWork) (hok : f.Ok nelems w) :
    ((f.exec w).2.map (f.size nelems)).sum < f.size nelems w := by
  cases w with
  | call n origin =>
    obtain rfl : n = nelems := hok
    rw [exec_call, map_map]
    simp only [size]
    exact Nat.lt_succ_self _
  | message c n origin => simp [exec, size]
  | task c n origin =>
    obtain ⟨hc, rfl⟩ := hok
    simp [exec, size, h.localized hc]
  | loop c lb l origin =>
    rcases h.loop_cases hok with ⟨-, hx⟩ | ⟨-, hx, -⟩ | ⟨a, b, ha, hb, hab, hx⟩
    · simp [hx, size]
    · simp [hx, size]
    · simp only [hx, size, map_cons, map_nil, sum_cons, sum_nil]
      omega

/-- **`forall` over a global array calls the body exactly once for each element.**  In every
    order of its messages and tasks: the calls made so far and those still pending are the
    expected ones, when nothing is left all of them have been made, no run is longer than a
    bound, and a run that cannot go on has nothing left. -/
theorem forall_calls (f : ForallArgs) (nelems : ℕ) (h : f.Regular nelems) (origin : Core) :
    let sys := f.forallSystem nelems origin
    (∃ bound, ∀ ls s, sys.run sys.init ls = some s → ls.length ≤ bound) ∧
    ∀ s, sys.Reachable s →
      (bodyCalls s.log : Multiset (Core × ℤ × ℤ)) ≤ (f.expectedCalls nelems : Multiset _) ∧
      (s.pool = [] → (bodyCalls s.log).Perm (f.expectedCalls nelems)) ∧
      ((∀ l, sys.next s l = none) → s.pool = []) := by
  have hinit : ∀ w ∈ [ForallWork.call nelems origin], f.Ok nelems w := by
    intro w hw
    obtain rfl := mem_singleton.mp hw
    exact (rfl : (nelems : ℤ) = nelems)
  refine ⟨⟨_, fun ls s hrun => TaskPool.Program.length_le_of_run h.exec_ok h.exec_size hinit hrun⟩,
    fun s hs => ?_⟩
  have hcons := TaskPool.Program.conserved h.exec_ok h.exec_remaining hinit hs
  rw [sum_emitted, map_singleton, sum_singleton] at hcons
  change _ = (f.expectedCalls nelems : Multiset (Core × ℤ × ℤ)) at hcons
  refine ⟨hcons ▸ Multiset.le_add_right _ _, fun hpool => ?_, TaskPool.Program.drains⟩
  rw [hpool, map_nil, sum_nil, add_zero] at hcons
  exact Multiset.coe_eq_coe.mp hcons

/-- Twenty 8-byte elements from byte 24 on two cores, with leaves of at most two iterations. -/
def exampleArgs : ForallArgs := ⟨⟨2, Nat.two_pos, 0⟩, 8, ⟨0, 2⟩, ⟨24⟩, 0⟩

theorem forall_calls_two_cores :
    (exampleArgs.expectedCalls 20).length = 20 ∧
      ∀ s, (exampleArgs.forallSystem (20 : ℕ) 0).Reachable s → s.pool = [] →
        (bodyCalls s.log).Perm (exampleArgs.expectedCalls 20) :=
  ⟨by decide, fun s hs => ((forall_calls exampleArgs 20
    ⟨by decide, by decide, by decide, by decide, by decide, by decide, by decide⟩ 0).2 s hs).2.1⟩

/-- The 48-bit packing loses the elements of an array of `2^47` bytes, a base that is not on a
    multiple of the element size makes elements straddle blocks, and the end of an array may
    wrap around into the tag bit: no such `forall` makes the expected calls. -/
theorem forall_calls_needs_regular :
    ¬ (∀ (f : ForallArgs) (nelems : ℕ), f.sizeof ∣ 64 → f.base.is_linear = true →
      (f.sizeof : ℤ) ∣ f.base.storage → 1 ≤ nelems → 1 ≤ f.threshold.effective →
      ∀ s, (f.forallSystem nelems 0).Reachable s → s.pool = [] →
        (bodyCalls s.log).Perm (f.expectedCalls nelems)) ∧
    ¬ (∀ (f : ForallArgs) (nelems : ℕ), f.sizeof ∣ 64 → f.base.is_linear = true →
      nelems < 2 ^ 47 → 1 ≤ nelems → 1 ≤ f.threshold.effective →
      ∀ s, (f.forallSystem nelems 0).Reachable s → s.pool = [] →
        (bodyCalls s.log).Perm (f.expectedCalls nelems)) ∧
    ¬ (∀ (f : ForallArgs) (nelems : ℕ), f.sizeof ∣ 64 → f.base.is_linear = true →
      (f.sizeof : ℤ) ∣ f.base.storage → nelems < 2 ^ 47 → 1 ≤ nelems → 1 ≤ f.threshold.effective →
      ∀ s, (f.forallSystem nelems 0).Reachable s → s.pool = [] →
        (bodyCalls s.log).Perm (f.expectedCalls nelems)) := by
  refine ⟨?_, ?_, ?_⟩
  · intro hclaim
    have hperm := hclaim ⟨⟨1, by decide, 0⟩, 1, ⟨0, 2⟩, ⟨0⟩, 0⟩ (2 ^ 47) (by decide) (by decide)
      (by decide) (by norm_num) (by decide)
      ⟨[], [.enroll 1, .complete 0]⟩ ⟨[0, 0, 0, 0], by decide +kernel⟩ rfl
    have hlen := hperm.length_eq
    rw [expectedCalls, length_map, length_range] at hlen
    norm_num [bodyCalls] at hlen
  · intro hclaim
    have hperm := hclaim ⟨⟨2, by decide, 0⟩, 8, ⟨0, 8⟩, ⟨4⟩, 0⟩ 8 (by decide) (by decide)
      (by decide) (by decide) (by decide)
      ⟨[], [.enroll 1, .body 0 0 4, .body 0 1 12, .body 0 2 20, .body 0 3 28, .body 0 4 36,
        .body 0 5 44, .body 0 6 52, .complete 0]⟩ ⟨[0, 0, 0, 0], by decide +kernel⟩ rfl
    exact absurd hperm.length_eq (by decide)
  · intro hclaim
    have hperm := hclaim ⟨⟨1, by decide, 0⟩, 8, ⟨0, 8⟩, ⟨2 ^ 63 - 64⟩, 0⟩ 8 (by decide) (by decide)
      (by decide) (by decide) (by decide) (by decide)
      ⟨[], [.enroll 1, .complete 0]⟩ ⟨[0, 0, 0, 0], by decide +kernel⟩ rfl
    exact absurd hperm.length_eq (by decide)

end ForallArgs

end Grappa
