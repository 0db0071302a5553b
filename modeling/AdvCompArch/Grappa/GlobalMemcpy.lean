import AdvCompArch.Grappa.ForallGlobal
import AdvCompArch.Grappa.IncoherentCache

/-! # Copying between global arrays

    `memcpy` runs `do_memcpy_locally` on every core.  Each core writes back the elements of
    the source that it stores: what the source has in its first block, what it has in its
    last block, and the whole blocks between them, each with a write-only cache whose
    buffer is the source's own memory.

    `do_memcpy_locally_eq` says which pieces a core writes back if the source reaches the
    end of its first block. -/

namespace Grappa

open GlobalAddress Incoherent List Function BlockCyclic

/-- `Writeback w(address, count, buffer)`, on the core that has the buffer. -/
structure Writeback where
  address : GlobalAddress
  count : ℤ
  buffer : ℤ
  deriving DecidableEq

section code

variable (m : Machine) (sizeof : ℕ) (mycore : Core) (dst src : GlobalAddress) (nelem : ℕ)

/-- The elements in the block of `src`, from `src` on. -/
def nfirstcore : ℤ := (src.block_max m sizeof).sub sizeof src

/-- The elements in the block of `src+nelem`, before `src+nelem`. -/
def nlastcore : ℤ :=
  let src_end := src.element sizeof nelem
  src_end.sub sizeof (src_end.block_min m)

/-- The first piece of this core, and where the rest starts. -/
def memcpy_first : List Writeback × GlobalAddress :=
  let first := nfirstcore m sizeof src
  if src.core m = mycore ∧ first > 0 ∧ nlastcore m sizeof src nelem ≠ block_size / sizeof then
    ([⟨dst, first, src.pointer m⟩], src.element sizeof first)
  else ([], src)

/-- The last piece of this core, and where the rest ends; `none` if its check fails. -/
def memcpy_last : Option (List Writeback × GlobalAddress) :=
  let src_end := src.element sizeof nelem
  let last := nlastcore m sizeof src nelem
  if (src_end.element sizeof (-1)).core m = mycore ∧ last > 0 ∧ last ≠ block_size / sizeof then
    let index := nelem - last
    if (src.element sizeof index).core m ≠ mycore then none
    else some ([⟨dst.element sizeof index, last, (src.element sizeof index).pointer m⟩],
      src_end.element sizeof (-last))
  else some ([], src_end)

/-- The whole blocks of this core between `src_start` and `src_end`; `none` if their check fails. -/
def memcpy_blocks (src_start src_end : GlobalAddress) : Option (List Writeback) :=
  let nblock := block_size / sizeof
  let local_base := src_start.localize m sizeof mycore
  -- a difference of two `T *`, as a `size_t`
  let nlocal_trimmed := as_size_t ((src_end.localize m sizeof mycore - local_base) / sizeof)
  if nlocal_trimmed % nblock ≠ 0 then none
  else some <| (List.range (nlocal_trimmed / nblock).toNat).map fun i : ℕ =>
    let p := local_base + i * nblock * sizeof
    let j := (Linear m mycore p).sub sizeof src
    ⟨dst.element sizeof j, nblock, p⟩

/-- The write-backs of core `mycore`, in order; `none` if a check fails. -/
def do_memcpy_locally : Option (List Writeback) :=
  let nmiddle := nelem - nfirstcore m sizeof src - nlastcore m sizeof src nelem
  if as_size_t nmiddle % (block_size / sizeof) ≠ 0 then none
  else
    let (first, src_start) := memcpy_first m sizeof mycore dst src nelem
    (memcpy_last m sizeof mycore dst src nelem).bind fun (last, src_end) =>
      (memcpy_blocks m sizeof mycore dst src src_start src_end).map fun blocks =>
        first ++ last ++ blocks

end code

/-! ### The pieces -/

section pieces

variable {m : Machine} {sizeof s n : ℕ}

theorem nlastcore_natCast (m : Machine) (sizeof s n : ℕ) :
    nlastcore m sizeof ⟨(s : ℤ)⟩ n = ((s + n * sizeof) % 64 / sizeof : ℕ) := by
  have hsub : s + n * sizeof - (s + n * sizeof - (s + n * sizeof) % 64) = (s + n * sizeof) % 64 := by
    omega
  simp only [nlastcore, element_natCast, block_min_natCast]
  rw [sub_natCast (by omega) (by omega), hsub]

/-- The next block is that after the last byte of the first element. -/
theorem nfirstcore_natCast (m : Machine) (hpos : 0 < sizeof) (hle : sizeof ≤ 64) :
    nfirstcore m sizeof ⟨(s : ℤ)⟩ = ((sizeof + 63 - (s + sizeof - 1) % 64) / sizeof : ℕ) := by
  have hmax : (⟨(s : ℤ)⟩ : GlobalAddress).block_max m sizeof =
      ⟨((s + (sizeof + 63 - (s + sizeof - 1) % 64) : ℕ) : ℤ)⟩ := by
    simp only [block_max, is_2D_natCast, Bool.false_eq_true, if_false, Raw, raw_bits, block_size]
    congr 1
    omega
  rw [nfirstcore, hmax, sub_natCast (by omega) (by omega), Nat.add_sub_cancel_left]

/-- **A source that is no multiple of the size** leaves one element too much between the first and
    the last piece, unless a block has one element only. -/
theorem do_memcpy_locally_unaligned (hdvd : sizeof ∣ 64) (hne : sizeof ≠ 64) (halign : ¬sizeof ∣ s)
    (m : Machine) (c : Core) (dst : GlobalAddress) :
    do_memcpy_locally m sizeof c dst ⟨(s : ℤ)⟩ n = none := by
  have hpos : 0 < sizeof := Nat.pos_of_dvd_of_pos hdvd (by norm_num)
  have hle : sizeof ≤ 64 := Nat.le_of_dvd (by norm_num) hdvd
  have hcheck : as_size_t (n - nfirstcore m sizeof ⟨(s : ℤ)⟩ - nlastcore m sizeof ⟨(s : ℤ)⟩ n) %
      (block_size / sizeof) ≠ 0 := by
    rw [nfirstcore_natCast m hpos hle, nlastcore_natCast, as_size_t, block_size]
    have hsizes : ∀ k < 65, k ∣ 64 → k = 1 ∨ k = 2 ∨ k = 4 ∨ k = 8 ∨ k = 16 ∨ k = 32 ∨ k = 64 := by
      decide
    rcases hsizes sizeof (by omega) hdvd with rfl | rfl | rfl | rfl | rfl | rfl | rfl <;> omega
  rw [do_memcpy_locally]
  dsimp only
  rw [if_pos hcheck]

/-- The source range in elements and blocks: `b0` is the block after that of the first element,
    `b1` the block of the end; there are `first` elements before `b0` and `last` from `b1` on. -/
structure SourceLayout (sizeof s n b0 b1 first last nblock : ℕ) : Prop where
  pos : 0 < sizeof
  nblock_mul : nblock * sizeof = 64
  nblock_pos : 0 < nblock
  first_mul : first * sizeof = 64 - s % 64
  last_mul : last * sizeof = (s + n * sizeof) % 64
  b0_eq : b0 = s / 64 + 1
  b1_eq : b1 = (s + n * sizeof) / 64

theorem exists_layout (hdvd : sizeof ∣ 64) (halign : sizeof ∣ s) (n : ℕ) :
    SourceLayout sizeof s n (s / 64 + 1) ((s + n * sizeof) / 64) ((64 - s % 64) / sizeof)
      ((s + n * sizeof) % 64 / sizeof) (64 / sizeof) := by
  have hpos : 0 < sizeof := Nat.pos_of_dvd_of_pos hdvd (by norm_num)
  have hmod : sizeof ∣ s % 64 := (Nat.dvd_mod_iff hdvd).mpr halign
  have hend : sizeof ∣ s + n * sizeof := (Nat.dvd_add_right halign).mpr (dvd_mul_left ..)
  exact ⟨hpos, Nat.div_mul_cancel hdvd, Nat.div_pos (Nat.le_of_dvd (by norm_num) hdvd) hpos,
    Nat.div_mul_cancel (Nat.dvd_sub hdvd hmod),
    Nat.div_mul_cancel ((Nat.dvd_mod_iff hdvd).mpr hend), rfl, rfl⟩

namespace SourceLayout

variable {b0 b1 first last nblock : ℕ}

theorem first_pos (h : SourceLayout sizeof s n b0 b1 first last nblock) : 0 < first := by
  apply Nat.pos_of_mul_pos_right (b := sizeof)
  have hmod : s % 64 < 64 := Nat.mod_lt _ (by norm_num)
  rw [h.first_mul]
  omega

theorem last_lt (h : SourceLayout sizeof s n b0 b1 first last nblock) : last < nblock := by
  apply lt_of_mul_lt_mul_right (a := sizeof) _ (Nat.zero_le _)
  rw [h.last_mul, h.nblock_mul]
  exact Nat.mod_lt _ (by norm_num)

theorem nfirstcore_eq (h : SourceLayout sizeof s n b0 b1 first last nblock) (hdvd : sizeof ∣ 64)
    (halign : sizeof ∣ s) (m : Machine) : nfirstcore m sizeof ⟨(s : ℤ)⟩ = first := by
  unfold nfirstcore
  rw [block_max_natCast hdvd halign, sub_natCast (by omega) (by omega), Nat.add_sub_cancel_left,
    ← h.first_mul, Nat.mul_div_cancel _ h.pos]

theorem nlastcore_eq (h : SourceLayout sizeof s n b0 b1 first last nblock) (m : Machine) :
    nlastcore m sizeof ⟨(s : ℤ)⟩ n = last := by
  rw [nlastcore_natCast, ← h.last_mul, Nat.mul_div_cancel _ h.pos]

theorem nblock_eq (h : SourceLayout sizeof s n b0 b1 first last nblock) :
    block_size / (sizeof : ℤ) = nblock := by
  have hne : (sizeof : ℤ) ≠ 0 := by exact_mod_cast h.pos.ne'
  rw [show block_size = (nblock * sizeof : ℕ) by rw [h.nblock_mul]; rfl]
  push_cast
  exact Int.mul_ediv_cancel _ hne

theorem le_iff (h : SourceLayout sizeof s n b0 b1 first last nblock) : first ≤ n ↔ b0 ≤ b1 := by
  rw [← Nat.mul_le_mul_right_iff h.pos, h.first_mul, h.b0_eq, h.b1_eq]
  omega

theorem middle (h : SourceLayout sizeof s n b0 b1 first last nblock) (hle : b0 ≤ b1) :
    n = first + (b1 - b0) * nblock + last := by
  apply Nat.eq_of_mul_eq_mul_right h.pos
  have hmul : (b1 - b0) * nblock * sizeof = (b1 - b0) * 64 := by rw [mul_assoc, h.nblock_mul]
  rw [add_mul, add_mul, h.first_mul, h.last_mul, hmul]
  have hb0 := h.b0_eq
  have hb1 := h.b1_eq
  omega

end SourceLayout

/-! ### What each core writes back -/

variable {b0 b1 first last nblock c : ℕ} {dst : GlobalAddress}

/-- The write-back of the `p.2` elements from element `p.1` on, by their core. -/
def writebackAt (m : Machine) (sizeof : ℕ) (dst src : GlobalAddress) (p : ℕ × ℕ) : Writeback :=
  ⟨dst.element sizeof p.1, p.2, (src.element sizeof p.1).pointer m⟩

/-- The pieces of the source: what is in the first block, what is in the last one, and the
    whole blocks between. -/
def sourcePieces (n b0 b1 first last nblock : ℕ) : List (ℕ × ℕ) :=
  ((0, first) :: if 0 < last then [(n - last, last)] else []) ++
    (List.range (b1 - b0)).map fun g => (first + g * nblock, nblock)

/-- Core `c` stores the elements of the piece. -/
def storedBy (m : Machine) (sizeof : ℕ) (src : GlobalAddress) (c : Core) (p : ℕ × ℕ) : Bool :=
  decide ((src.element sizeof p.1).core m = c)

theorem storedBy_natCast (s c : ℕ) (p : ℕ × ℕ) :
    storedBy m sizeof ⟨(s : ℤ)⟩ c p = decide (owner 64 m.cores (s + p.1 * sizeof) = c) := by
  simp only [storedBy, element_natCast, core_natCast, Nat.cast_inj]

/-- Where the whole blocks start for a core: the others see the block boundary as well. -/
theorem lower_start {c : ℕ} (hc : c < m.cores) (s : ℕ) :
    lower 64 m.cores (if owner 64 m.cores s = c then (s / 64 + 1) * 64 else s) c =
      lower 64 m.cores ((s / 64 + 1) * 64) c := by
  split_ifs with hown
  · rfl
  · have hsum : s + (64 - s % 64) = (s / 64 + 1) * 64 := by omega
    rw [← hsum, lower_add (by norm_num) hc (by omega), if_neg hown, add_zero]

theorem lower_end {c : ℕ} (hc : c < m.cores) (e : ℕ) :
    lower 64 m.cores
        (if owner 64 m.cores (e / 64 * 64) = c then e / 64 * 64 else e) c =
      lower 64 m.cores (e / 64 * 64) c := by
  split_ifs with hown
  · rfl
  · have hsum : e / 64 * 64 + e % 64 = e := by omega
    conv_lhs => rw [← hsum]
    rw [lower_add (by norm_num) hc (by omega), if_neg hown, add_zero]

theorem owner_block (s : ℕ) : owner 64 m.cores (s / 64 * 64) =
    owner 64 m.cores s := by
  unfold owner
  rw [Nat.mul_div_cancel _ (by norm_num)]

theorem memcpy_first_eq (h : SourceLayout sizeof s n b0 b1 first last nblock)
    (hdvd : sizeof ∣ 64) (halign : sizeof ∣ s) (c : ℕ) :
    memcpy_first m sizeof c dst ⟨(s : ℤ)⟩ n =
      (([(0, first)].filter (storedBy m sizeof ⟨(s : ℤ)⟩ c)).map (writebackAt m sizeof dst ⟨(s : ℤ)⟩),
        ⟨((if owner 64 m.cores s = c then (s / 64 + 1) * 64 else s : ℕ) : ℤ)⟩) := by
  have hfirst := h.first_pos
  have hlast := h.last_lt
  have hend : s + first * sizeof = (s / 64 + 1) * 64 := by
    rw [h.first_mul]
    omega
  simp only [memcpy_first, h.nfirstcore_eq hdvd halign, h.nlastcore_eq, h.nblock_eq, core_natCast,
    Nat.cast_inj, element_natCast, hend]
  by_cases hown : owner 64 m.cores s = c
  · rw [if_pos ⟨hown, by exact_mod_cast hfirst, by exact_mod_cast hlast.ne⟩, if_pos hown]
    simp [storedBy_natCast, hown, writebackAt, element]
  · rw [if_neg fun hc => hown hc.1, if_neg hown]
    simp [storedBy_natCast, hown]

theorem memcpy_last_eq (h : SourceLayout sizeof s n b0 b1 first last nblock) (hlen : last < n)
    (c : ℕ) :
    memcpy_last m sizeof c dst ⟨(s : ℤ)⟩ n =
      some (((if 0 < last then [(n - last, last)] else []).filter
            (storedBy m sizeof ⟨(s : ℤ)⟩ c)).map (writebackAt m sizeof dst ⟨(s : ℤ)⟩),
        ⟨((if owner 64 m.cores ((s + n * sizeof) / 64 * 64) = c then
          (s + n * sizeof) / 64 * 64 else s + n * sizeof : ℕ) : ℤ)⟩) := by
  have hlast := h.last_lt
  have hmod := h.last_mul
  have hmul : (n - last) * sizeof + last * sizeof = n * sizeof := by
    rw [← add_mul]
    congr 1
    omega
  -- the first element of the last block
  have hstart : s + (n - last) * sizeof = (s + n * sizeof) / 64 * 64 := by omega
  have hindex : ((n : ℤ) - (last : ℕ)) = ((n - last : ℕ) : ℤ) := by omega
  have hback : (⟨((s + n * sizeof : ℕ) : ℤ)⟩ : GlobalAddress).element sizeof (-(last : ℕ)) =
      ⟨(((s + n * sizeof) / 64 * 64 : ℕ) : ℤ)⟩ := by
    apply GlobalAddress.ext
    rw [← hstart]
    simp only [element]
    push_cast [← hmul]
    ring
  rcases Nat.eq_zero_or_pos last with rfl | hpos
  · have he : (s + n * sizeof) / 64 * 64 = s + n * sizeof := by omega
    simp [memcpy_last, h.nlastcore_eq, element_natCast, he]
  · -- the last element is in the last block as well
    have hprev : (⟨((s + n * sizeof : ℕ) : ℤ)⟩ : GlobalAddress).element sizeof (-1) =
        ⟨((s + n * sizeof - sizeof : ℕ) : ℤ)⟩ := by
      have hle : sizeof ≤ s + n * sizeof := by
        have := Nat.le_mul_of_pos_left sizeof (show 0 < n by omega)
        omega
      apply GlobalAddress.ext
      simp only [element]
      push_cast [hle]
      ring
    have hsizeof : sizeof ≤ last * sizeof := Nat.le_mul_of_pos_left _ hpos
    have hdiv : (s + n * sizeof - sizeof) / 64 = (s + n * sizeof) / 64 := by
      have := h.pos
      omega
    have hown : owner 64 m.cores (s + n * sizeof - sizeof) =
        owner 64 m.cores ((s + n * sizeof) / 64 * 64) := by
      rw [owner_block, owner, owner, hdiv]
    simp only [memcpy_last, h.nlastcore_eq, h.nblock_eq, element_natCast, hprev, hindex, hback, core_natCast,
      Nat.cast_inj, hown, hstart]
    by_cases hc : owner 64 m.cores ((s + n * sizeof) / 64 * 64) = c
    · rw [if_pos ⟨hc, by exact_mod_cast hpos, by exact_mod_cast hlast.ne⟩,
        if_neg (not_not.mpr (by exact_mod_cast hc)),
        if_pos hc, if_pos hpos]
      simp [storedBy_natCast, hstart, hc, writebackAt, element_natCast]
    · rw [if_neg fun hc' => hc hc'.1, if_neg hc, if_pos hpos]
      simp [storedBy_natCast, hstart, hc]

theorem local_blocks (hc : c < m.cores) (hle : b0 ≤ b1) :
    let owned := (range (b1 - b0)).filter fun g : ℕ =>
      decide (owner 64 m.cores (b0 * 64 + g * 64) = c)
    lower 64 m.cores (b1 * 64) c =
        lower 64 m.cores (b0 * 64) c + owned.length * 64 ∧
      (range owned.length).map (fun i => lower 64 m.cores (b0 * 64) c + i * 64) =
        owned.map fun g : ℕ => offset 64 m.cores (b0 * 64 + g * 64) := by
  intro owned
  have hblocks : b0 * 64 + (b1 - b0) * 64 = b1 * 64 := by omega
  have h64 : (64 : ℕ) ∣ 64 := dvd_rfl
  obtain ⟨hend, hlist⟩ := local_range_eq (m := m) h64 (dvd_mul_left 64 b0) (b1 - b0) hc 0
  simp only [element_natCast, localize_natCast h64, core_natCast, pointer_natCast, hblocks,
    Nat.cast_inj] at hend hlist
  have hend' : lower 64 m.cores (b1 * 64) c =
      lower 64 m.cores (b0 * 64) c + owned.length * 64 := by
    have : (lower 64 m.cores (b1 * 64) c : ℤ) =
        (lower 64 m.cores (b0 * 64) c + owned.length * 64 : ℕ) := by
      simp only [owned]
      push_cast at hend ⊢
      linarith
    exact_mod_cast this
  refine ⟨hend', ?_⟩
  have hlen : (((lower 64 m.cores (b1 * 64) c : ℤ) + m.global_memory_chunk_base -
      (lower 64 m.cores (b0 * 64) c + m.global_memory_chunk_base)) / ((64 : ℕ) : ℤ)).toNat =
        owned.length := by
    rw [hend']
    push_cast
    omega
  rw [local_range, hlen] at hlist
  -- the local addresses without the base of the chunk
  have hsub := congrArg (map fun x : ℤ => (x - m.global_memory_chunk_base).toNat) hlist
  rw [map_map, map_map] at hsub
  calc _ = (range owned.length).map _ := ?_
    _ = owned.map _ := hsub
    _ = _ := ?_
  · apply map_congr_left
    intro i _
    simp only [comp_apply]
    push_cast
    omega
  · apply map_congr_left
    intro g _
    simp

theorem memcpy_blocks_eq (h : SourceLayout sizeof s n b0 b1 first last nblock) (hdvd : sizeof ∣ 64)
    (hspace : s + n * sizeof ≤ 2 ^ 63) (hle : b0 ≤ b1) {c : ℕ} (hc : c < m.cores) :
    memcpy_blocks m sizeof c dst ⟨(s : ℤ)⟩
        ⟨((if owner 64 m.cores s = c then (s / 64 + 1) * 64 else s : ℕ) : ℤ)⟩
        ⟨((if owner 64 m.cores ((s + n * sizeof) / 64 * 64) = c then
          (s + n * sizeof) / 64 * 64 else s + n * sizeof : ℕ) : ℤ)⟩ =
      some ((((List.range (b1 - b0)).map fun g => (first + g * nblock, nblock)).filter
        (storedBy m sizeof ⟨(s : ℤ)⟩ c)).map (writebackAt m sizeof dst ⟨(s : ℤ)⟩)) := by
  have hne : (sizeof : ℤ) ≠ 0 := by exact_mod_cast h.pos.ne'
  have hnb : (nblock : ℤ) ≠ 0 := by exact_mod_cast h.nblock_pos.ne'
  have hfirst : s + first * sizeof = b0 * 64 := by
    have := h.b0_eq
    rw [h.first_mul]
    omega
  have hcore : ((c : ℕ) : ℤ) ≠ -1 := by omega
  obtain ⟨hend, hlist⟩ := local_blocks (m := m) hc hle
  have hlo := (lower_start (m := m) hc s).trans
    (congrArg (fun b => lower 64 m.cores (b * 64) c) h.b0_eq.symm)
  have hhi := (lower_end (m := m) hc (s + n * sizeof)).trans
    (congrArg (fun b => lower 64 m.cores (b * 64) c) h.b1_eq.symm)
  -- the keys of the pieces are the owners of their blocks
  have hkey : ∀ g : ℕ, s + (first + g * nblock) * sizeof = b0 * 64 + g * 64 := by
    intro g
    rw [add_mul, mul_assoc, h.nblock_mul, ← add_assoc, hfirst]
  have hfilter : ((range (b1 - b0)).map fun g => (first + g * nblock, nblock)).filter
      (storedBy m sizeof ⟨(s : ℤ)⟩ c) =
        ((range (b1 - b0)).filter fun g : ℕ =>
          decide (owner 64 m.cores (b0 * 64 + g * 64) = c)).map
            fun g => (first + g * nblock, nblock) := by
    rw [filter_map]
    congr 1
    apply filter_congr
    intro g _
    simp only [comp_apply, storedBy_natCast, hkey]
  rw [hfilter]
  generalize hown : (range (b1 - b0)).filter (fun g : ℕ =>
    decide (owner 64 m.cores (b0 * 64 + g * 64) = c)) = owned at hend hlist ⊢
  have hcount : owned.length ≤ b1 - b0 := by
    rw [← hown]
    exact (length_filter_le ..).trans_eq length_range
  have hsize : owned.length * nblock < 2 ^ 64 := by
    have hn := h.middle hle
    have h1 : n ≤ n * sizeof := Nat.le_mul_of_pos_right _ h.pos
    have h2 := Nat.mul_le_mul_right nblock hcount
    omega
  have hdiff : ((lower 64 m.cores (b1 * 64) c : ℤ) + m.global_memory_chunk_base -
      (lower 64 m.cores (b0 * 64) c + m.global_memory_chunk_base)) / (sizeof : ℤ) =
        (owned.length * nblock : ℕ) := by
    have hmul : ((lower 64 m.cores (b1 * 64) c : ℤ) + m.global_memory_chunk_base -
        (lower 64 m.cores (b0 * 64) c + m.global_memory_chunk_base)) =
          (owned.length * nblock : ℕ) * (sizeof : ℤ) := by
      rw [hend]
      push_cast
      rw [mul_assoc, show (nblock : ℤ) * sizeof = 64 by exact_mod_cast h.nblock_mul]
      ring
    rw [hmul, Int.mul_ediv_cancel _ hne]
  have hmod : ((owned.length * nblock : ℕ) : ℤ) % nblock = 0 := by
    push_cast
    exact Int.mul_emod_left ..
  have hquot : (((owned.length * nblock : ℕ) : ℤ) / nblock).toNat = owned.length := by
    push_cast
    rw [Int.mul_ediv_cancel _ hnb, Int.toNat_natCast]
  unfold memcpy_blocks
  simp only [localize_default 0 hcore, localize_natCast hdvd, h.nblock_eq, hlo, hhi, hdiff,
    as_size_t_natCast hsize, hmod, hquot, ne_eq, not_true, if_false, Option.some.injEq, map_map]
  -- each of the blocks is handed on from its own place
  have hplace := congrArg (map fun o : ℕ =>
    (⟨dst.element sizeof ((⟨((position 64 m.cores c o : ℕ) : ℤ)⟩ : GlobalAddress).sub sizeof ⟨(s : ℤ)⟩),
      nblock, o + m.global_memory_chunk_base⟩ : Writeback)) hlist
  rw [map_map, map_map] at hplace
  calc _ = (range owned.length).map _ := ?_
    _ = owned.map _ := hplace
    _ = _ := ?_
  · apply map_congr_left
    intro i _
    have hp : (lower 64 m.cores (b0 * 64) c : ℤ) + m.global_memory_chunk_base +
        i * nblock * sizeof = ((lower 64 m.cores (b0 * 64) c + i * 64 : ℕ) : ℤ) +
          m.global_memory_chunk_base := by
      push_cast
      rw [mul_assoc, show (nblock : ℤ) * sizeof = 64 by exact_mod_cast h.nblock_mul]
      ring
    simp only [comp_apply, hp, Linear_natCast]
  · apply map_congr_left
    intro g hg
    rw [← hown] at hg
    obtain ⟨hrange, howner⟩ := mem_filter.mp hg
    have howner' := of_decide_eq_true howner
    have hg' : g < b1 - b0 := mem_range.mp hrange
    have hposn : position 64 m.cores c (offset 64 m.cores (b0 * 64 + g * 64)) =
        b0 * 64 + g * 64 := by
      rw [← howner']
      exact position_owner_offset (by norm_num) _
    have hindex : b0 * 64 + g * 64 - s = (first + g * nblock) * sizeof := by
      rw [← hkey]
      omega
    have hb1 := h.b1_eq
    have hsub : (⟨((b0 * 64 + g * 64 : ℕ) : ℤ)⟩ : GlobalAddress).sub sizeof ⟨(s : ℤ)⟩ =
        (first + g * nblock : ℕ) := by
      rw [sub_natCast (by rw [← hkey]; omega) (by omega), hindex, Nat.mul_div_cancel _ h.pos]
    simp only [comp_apply, hposn, hsub, writebackAt, element_natCast, hkey, pointer_natCast]

theorem do_memcpy_locally_eq (h : SourceLayout sizeof s n b0 b1 first last nblock)
    (hdvd : sizeof ∣ 64) (halign : sizeof ∣ s) (hspace : s + n * sizeof ≤ 2 ^ 63) (hle : b0 ≤ b1)
    {c : ℕ} (hc : c < m.cores) :
    do_memcpy_locally m sizeof c dst ⟨(s : ℤ)⟩ n =
      some (((sourcePieces n b0 b1 first last nblock).filter (storedBy m sizeof ⟨(s : ℤ)⟩ c)).map
        (writebackAt m sizeof dst ⟨(s : ℤ)⟩)) := by
  have hn := h.middle hle
  have hfirst := h.first_pos
  have hmiddle : (n : ℤ) - nfirstcore m sizeof ⟨(s : ℤ)⟩ - nlastcore m sizeof ⟨(s : ℤ)⟩ n =
      ((b1 - b0) * nblock : ℕ) := by
    rw [h.nfirstcore_eq hdvd halign, h.nlastcore_eq]
    omega
  have hsmall : (b1 - b0) * nblock < 2 ^ 64 := by
    have h1 : n ≤ n * sizeof := Nat.le_mul_of_pos_right _ h.pos
    omega
  have hcheck : as_size_t (((b1 - b0) * nblock : ℕ) : ℤ) % nblock = 0 := by
    rw [as_size_t_natCast hsmall]
    push_cast
    exact Int.mul_emod_left ..
  unfold do_memcpy_locally
  rw [hmiddle, h.nblock_eq, if_neg (not_not.mpr hcheck), memcpy_first_eq h hdvd halign]
  simp only [memcpy_last_eq h (by omega), Option.bind_some, memcpy_blocks_eq h hdvd hspace hle hc,
    Option.map_some, sourcePieces, ← map_append, ← filter_append,
    cons_append, nil_append, append_assoc]

theorem straddling_counts (m : Machine) (hs : ¬64 ∣ s) (n : ℕ) :
    nfirstcore m 64 ⟨(s : ℤ)⟩ = 1 ∧ nlastcore m 64 ⟨(s : ℤ)⟩ n = 0 := by
  constructor
  · rw [nfirstcore_natCast m (by norm_num) le_rfl,
      show (64 + 63 - (s + 64 - 1) % 64) / 64 = 1 by omega, Nat.cast_one]
  · rw [nlastcore_natCast, Nat.div_eq_of_lt (Nat.mod_lt _ (by norm_num)), Nat.cast_zero]

/-- **Elements of 64 bytes that lie in two blocks**: the core of the first block writes back the first
    element, and all cores write back what is in whole blocks of their local ranges. -/
theorem do_memcpy_locally_straddling {sizeof : ℕ} {src : GlobalAddress} (h64 : sizeof = 64)
    (hsrc : src = ⟨(s : ℤ)⟩) (hs : ¬64 ∣ s) (hn : 0 < n) (hspace : s + n * 64 ≤ 2 ^ 63)
    {c start lo k : ℕ} (hc : c < m.cores) (hstart : start = if owner 64 m.cores s = c then s + 64 else s)
    (hlo : lower 64 m.cores start c = lo) (hk : (lower 64 m.cores (s + n * 64) c - lo) / 64 = k) :
    do_memcpy_locally m sizeof c dst src n =
      some ((if owner 64 m.cores s = c then [writebackAt m sizeof dst src (0, 1)] else []) ++
        (range k).map fun i =>
          ⟨dst.element sizeof ((⟨(position 64 m.cores c (lo + i * 64) : ℕ)⟩ : GlobalAddress).sub sizeof src),
            1, (lo + i * 64 : ℕ) + m.global_memory_chunk_base⟩) := by
  subst h64 hsrc
  obtain ⟨hfirst, hlast⟩ := straddling_counts m hs n
  have hpiece : memcpy_first m 64 c dst ⟨(s : ℤ)⟩ n =
      (if owner 64 m.cores s = c then [writebackAt m 64 dst ⟨(s : ℤ)⟩ (0, 1)] else [],
        ⟨(start : ℤ)⟩) := by
    simp only [memcpy_first, hfirst, hlast, core_natCast, Nat.cast_inj, hstart]
    split_ifs <;> simp_all [writebackAt, element, block_size]
  have hnone : memcpy_last m 64 c dst ⟨(s : ℤ)⟩ n = some ([], ⟨((s + n * 64 : ℕ) : ℤ)⟩) := by
    simp only [memcpy_last, hlast, element_natCast, gt_iff_lt, lt_self_iff_false, false_and, and_false,
      if_false]
  -- the local range of the core
  have hle : start ≤ s + n * 64 := by
    rw [hstart]
    split_ifs <;> omega
  have hrange := lower_le_add (by norm_num : 0 < 64) hc start (s + n * 64 - start)
  rw [Nat.add_sub_cancel' hle, hlo] at hrange
  have hcount : as_size_t (((lower 64 m.cores (s + n * 64) c : ℕ) + m.global_memory_chunk_base -
      ((lo : ℕ) + m.global_memory_chunk_base)) / ((64 : ℕ) : ℤ)) = k := by
    rw [add_sub_add_right_eq_sub, ← Nat.cast_sub hrange.1, ← Int.natCast_div, hk,
      as_size_t_natCast (by omega)]
  have hcore : ((c : ℕ) : ℤ) ≠ -1 := by omega
  have hone : block_size / ((64 : ℕ) : ℤ) = 1 := rfl
  simp only [do_memcpy_locally, hfirst, hlast, hpiece, hnone, memcpy_blocks, Option.bind_some,
    localize_default 0 hcore, localize_natCast dvd_rfl, hlo, hcount, hone, Int.emod_one, Int.ediv_one,
    ne_eq, not_true, if_false, Option.map_some, append_nil, Int.toNat_natCast]
  congr 2
  apply map_congr_left
  intro i _
  have hp : (lo : ℤ) + m.global_memory_chunk_base + i * 1 * ((64 : ℕ) : ℤ) =
      ((lo + i * 64 : ℕ) : ℤ) + m.global_memory_chunk_base := by
    push_cast
    ring
  rw [hp, Linear_natCast]

end pieces

end Grappa
