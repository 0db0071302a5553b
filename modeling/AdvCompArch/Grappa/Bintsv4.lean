import AdvCompArch.Lib.ByteMemory
import AdvCompArch.Lib.FixedWidth

/-! # Edges in the bintsv4 format

    In memory an edge is two 64-bit integers, in a file two 32-bit ones.  A core converts the
    edges where they are: the narrow records are at the start of the region of the wide ones.
    They are expanded from the last one down and compressed from the first one up, so that no
    record is written before it has been read. -/

namespace Grappa.Bintsv4

open FixedWidth ByteMemory

/-- Memory, or the contents of a file. -/
abbrev Bytes := ℤ → UInt8

/-- An edge of either format, as signed numbers. -/
structure Edge where
  v0 : ℤ
  v1 : ℤ
  deriving DecidableEq

/-! ### Records of two integers of `w` bytes -/

/-- Element `i` of an array of such records. -/
def read (w : ℕ) (mem : Bytes) (ptr : ℤ) (i : ℕ) : Edge :=
  ⟨loadInt w (load mem (ptr + (2 * w * i : ℕ)) w),
    loadInt w (load mem (ptr + (2 * w * i : ℕ) + w) w)⟩

/-- The two fields are stored one after the other. -/
def write (w : ℕ) (mem : Bytes) (ptr : ℤ) (i : ℕ) (e : Edge) : Bytes :=
  store (store mem (ptr + (2 * w * i : ℕ)) (storeInt w e.v0))
    (ptr + (2 * w * i : ℕ) + w) (storeInt w e.v1)

/-- What is left of a value in `w` bytes. -/
def Edge.truncate (w : ℕ) (e : Edge) : Edge :=
  ⟨Int.bmod e.v0 (256 ^ w), Int.bmod e.v1 (256 ^ w)⟩

/-- Both ids are signed numbers of `w` bytes. -/
def Edge.Fits (w : ℕ) (e : Edge) : Prop :=
  (-(256 ^ w : ℕ) ≤ 2 * e.v0 ∧ 2 * e.v0 < (256 ^ w : ℕ)) ∧
    -(256 ^ w : ℕ) ≤ 2 * e.v1 ∧ 2 * e.v1 < (256 ^ w : ℕ)

def sizeofInt32 : ℕ := 4

def sizeofInt64 : ℕ := 8

/-! ### The conversions -/

section code

variable (ptr : ℤ)

/-- expand int32's into int64's -/
def expand : ℕ → Bytes → Bytes
  | 0, mem => mem
  | i + 1, mem => expand i (write sizeofInt64 mem ptr i (read sizeofInt32 mem ptr i))

/-- compress int64's into int32's in place -/
def compress (local_count : ℕ) (mem : Bytes) : Bytes :=
  (List.range local_count).foldl (fun mem i =>
    write sizeofInt32 mem ptr i (read sizeofInt64 mem ptr i)) mem

/-- The core reads its part of the file, from record `offset` on. -/
def local_load_bintsv4 (local_count offset : ℕ) (file mem : Bytes) : Bytes :=
  expand ptr local_count (store mem ptr
    (load file (2 * sizeofInt32 * offset : ℕ) (2 * sizeofInt32 * local_count)))

/-- The core writes its edges to the file from record `offset` on, and has its memory back. -/
def local_save_bintsv4 (local_count offset : ℕ) (file mem : Bytes) : Bytes × Bytes :=
  let compressed := compress ptr local_count mem
  (store file (2 * sizeofInt32 * offset : ℕ)
    (load compressed ptr (2 * sizeofInt32 * local_count)),
    expand ptr local_count compressed)

end code

/-! ### Reading and writing records -/

section records

variable {w w' i j : ℕ} {mem mem' : Bytes} {ptr q : ℤ} {e : Edge}

theorem read_congr (h : ∀ q, ptr + (2 * w * i : ℕ) ≤ q → q < ptr + (2 * w * i : ℕ) + 2 * w →
    mem' q = mem q) : read w mem' ptr i = read w mem ptr i := by
  generalize hp : ptr + (2 * w * i : ℕ) = p at h
  have hfirst : load mem' p w = load mem p w :=
    load_congr fun q hlo hhi => h q hlo (by omega)
  have hsecond : load mem' (p + w) w = load mem (p + w) w :=
    load_congr fun q hlo hhi => h q (by omega) (by omega)
  rw [read, read, hp, hfirst, hsecond]

theorem write_outside (hq : q < ptr + (2 * w * i : ℕ) ∨ ptr + (2 * w * i : ℕ) + 2 * w ≤ q) :
    write w mem ptr i e q = mem q := by
  rw [write]
  generalize ptr + (2 * w * i : ℕ) = p at hq ⊢
  rw [store_outside (by rw [length_storeInt]; omega),
    store_outside (by rw [length_storeInt]; omega)]

theorem read_write_self : read w (write w mem ptr i e) ptr i = e.truncate w := by
  have hfirst : load (write w mem ptr i e) (ptr + (2 * w * i : ℕ)) w =
      storeInt w e.v0 := by
    have hsame := load_store_self mem (ptr + (2 * w * i : ℕ)) (storeInt w e.v0)
    rw [length_storeInt] at hsame
    rw [← hsame]
    apply load_congr
    intro q _ hq
    exact store_outside (.inl hq)
  have hsecond : load (write w mem ptr i e) (ptr + (2 * w * i : ℕ) + w) w =
      storeInt w e.v1 := by
    have hsame := load_store_self
      (store mem (ptr + (2 * w * i : ℕ)) (storeInt w e.v0))
      (ptr + (2 * w * i : ℕ) + w) (storeInt w e.v1)
    rwa [length_storeInt] at hsame
  rw [read, hfirst, hsecond, loadInt_storeInt, loadInt_storeInt]
  rfl

theorem read_from : read w mem (ptr + (2 * w * j : ℕ)) i = read w mem ptr (j + i) := by
  have haddress : ptr + (2 * w * j : ℕ) + (2 * w * i : ℕ) = ptr + (2 * w * (j + i) : ℕ) := by
    push_cast
    ring
  rw [read, read, haddress]

theorem two_mul_loadInt_lt (bs : List UInt8) : 2 * loadInt w bs < (256 ^ w : ℕ) := by
  have := loadInt_lt w bs
  push_cast
  omega

theorem fits_read : (read w mem ptr i).Fits w :=
  ⟨⟨le_loadInt .., two_mul_loadInt_lt _⟩, le_loadInt .., two_mul_loadInt_lt _⟩

theorem truncate_of_fits (h : e.Fits w) : e.truncate w = e := by
  have h0 : Int.bmod e.v0 (256 ^ w) = e.v0 :=
    Int.bmod_eq_of_le_mul_two (by have := h.1.1; omega) (by have := h.1.2; omega)
  have h1 : Int.bmod e.v1 (256 ^ w) = e.v1 :=
    Int.bmod_eq_of_le_mul_two (by have := h.2.1; omega) (by have := h.2.2; omega)
  rw [Edge.truncate, h0, h1]

theorem Edge.Fits.mono (h : e.Fits w) (hw : w ≤ w') : e.Fits w' := by
  have hpow : 256 ^ w ≤ 256 ^ w' := Nat.pow_le_pow_right (by decide) hw
  exact ⟨⟨by have := h.1.1; omega, by have := h.1.2; omega⟩, by have := h.2.1; omega,
    by have := h.2.2; omega⟩

end records

/-! ### The loops -/

section loops

variable {n i : ℕ} {mem : Bytes} {ptr q : ℤ}

theorem expand_outside (hq : q < ptr ∨ ptr + 16 * n ≤ q) : expand ptr n mem q = mem q := by
  induction n generalizing mem with
  | zero => rfl
  | succ n ih =>
    rw [expand, ih (by push_cast at hq; omega), write_outside (by simp only [sizeofInt64]; omega)]

theorem expand_spec (hi : i < n) : read sizeofInt64 (expand ptr n mem) ptr i =
    read sizeofInt32 mem ptr i := by
  induction n generalizing mem with
  | zero => omega
  | succ n ih =>
    rw [expand]
    rcases Nat.lt_succ_iff_lt_or_eq.mp hi with hi | rfl
    · -- the record that was written is above the narrow ones that are still to be read
      rw [ih hi]
      apply read_congr
      intro q _ hq
      apply write_outside
      simp only [sizeofInt32, sizeofInt64] at hq ⊢
      omega
    · -- the other records are written below it
      have hkept : read sizeofInt64 (expand ptr i (write sizeofInt64 mem ptr i
          (read sizeofInt32 mem ptr i))) ptr i = read sizeofInt64 (write sizeofInt64 mem ptr i
          (read sizeofInt32 mem ptr i)) ptr i := by
        apply read_congr
        intro q hq _
        apply expand_outside
        simp only [sizeofInt64] at hq
        omega
      rw [hkept, read_write_self]
      exact truncate_of_fits (fits_read.mono (by decide))

theorem compress_succ : compress ptr (n + 1) mem =
    write sizeofInt32 (compress ptr n mem) ptr n (read sizeofInt64 (compress ptr n mem) ptr n) := by
  rw [compress, List.range_succ, List.foldl_append]
  rfl

theorem compress_outside (hq : q < ptr ∨ ptr + 8 * n ≤ q) : compress ptr n mem q = mem q := by
  induction n with
  | zero => rfl
  | succ n ih =>
    rw [compress_succ, write_outside (by simp only [sizeofInt32]; push_cast at hq; omega),
      ih (by push_cast at hq; omega)]

theorem compress_spec (hi : i < n) : read sizeofInt32 (compress ptr n mem) ptr i =
    (read sizeofInt64 mem ptr i).truncate sizeofInt32 := by
  induction n with
  | zero => omega
  | succ n ih =>
    rw [compress_succ]
    rcases Nat.lt_succ_iff_lt_or_eq.mp hi with hi | rfl
    · rw [← ih hi]
      apply read_congr
      intro q _ hq
      apply write_outside
      simp only [sizeofInt32] at hq ⊢
      omega
    · -- the wide record is above all that was written before
      have hkept : read sizeofInt64 (compress ptr i mem) ptr i = read sizeofInt64 mem ptr i := by
        apply read_congr
        intro q hq _
        apply compress_outside
        simp only [sizeofInt64] at hq
        omega
      rw [read_write_self, hkept]

theorem eq_of_read_eq {mem' : Bytes} (ptr : ℤ) (n : ℕ)
    (hread : ∀ i < n, read sizeofInt64 mem' ptr i = read sizeofInt64 mem ptr i)
    (hrest : ∀ q, q < ptr ∨ ptr + 16 * n ≤ q → mem' q = mem q) : mem' = mem := by
  funext q
  by_cases hq : q < ptr ∨ ptr + 16 * n ≤ q
  · exact hrest q hq
  · obtain ⟨d, hd⟩ : ∃ d : ℕ, q = ptr + d := ⟨(q - ptr).toNat, by omega⟩
    have hi : d / 16 < n := by omega
    have hedge := hread (d / 16) hi
    simp only [read, Edge.mk.injEq] at hedge
    have h0 := loadInt_injective (length_load _) (length_load _) hedge.1
    have h1 := loadInt_injective (length_load _) (length_load _) hedge.2
    simp only [sizeofInt64] at h0 h1
    by_cases hfirst : d % 16 < 8
    · exact eq_of_load_eq h0 (by omega) (by omega)
    · exact eq_of_load_eq h1 (by omega) (by omega)

theorem expand_compress (hfits : ∀ i < n, (read sizeofInt64 mem ptr i).Fits sizeofInt32) :
    expand ptr n (compress ptr n mem) = mem := by
  apply eq_of_read_eq ptr n
  · intro i hi
    rw [expand_spec hi, compress_spec hi, truncate_of_fits (hfits i hi)]
  · intro q hq
    rw [expand_outside hq, compress_outside (by omega)]

theorem read_copied {file : Bytes} {base : ℤ} (hi : i < n) :
    read sizeofInt32 (store mem ptr (load file base (8 * n))) ptr i =
      read sizeofInt32 file base i := by
  have hbyte : ∀ k : ℕ, k < 8 * n →
      store mem ptr (load file base (8 * n)) (ptr + k) = file (base + k) := by
    intro k hk
    rw [store_inside (by rwa [length_load]), getElem_load]
  have hload : ∀ a k : ℕ, a + k ≤ 8 * n →
      load (store mem ptr (load file base (8 * n))) (ptr + a) k =
        load file (base + a) k := by
    intro a k hak
    apply List.map_congr_left
    intro j hj
    have hj := List.mem_range.mp hj
    rw [add_assoc, add_assoc, ← Nat.cast_add, hbyte _ (by omega)]
  have hfirst := hload (2 * sizeofInt32 * i) sizeofInt32 (by simp only [sizeofInt32]; omega)
  have hsecond := hload (2 * sizeofInt32 * i + sizeofInt32) sizeofInt32
    (by simp only [sizeofInt32]; omega)
  rw [Nat.cast_add, ← add_assoc, ← add_assoc] at hsecond
  rw [read, read, hfirst, hsecond]

end loops

/-- **The bintsv4 format.**  On any region the expansion leaves, for each narrow record, a wide
    one with the same values, and the compression, for each wide record, a narrow one with its
    low 32 bits.  Where the ids fit in 32 bits, a save leaves memory as it was, and a core that
    loads a part of what was written has the edges of that part. -/
theorem bintsv4_spec :
    (∀ (ptr : ℤ) (n : ℕ) (mem : Bytes), ∀ i < n,
      read sizeofInt64 (expand ptr n mem) ptr i = read sizeofInt32 mem ptr i) ∧
    (∀ (ptr : ℤ) (n : ℕ) (mem : Bytes), ∀ i < n,
      read sizeofInt32 (compress ptr n mem) ptr i =
        (read sizeofInt64 mem ptr i).truncate sizeofInt32) ∧
    ∀ (ptr : ℤ) (n offset : ℕ) (file mem : Bytes),
      (∀ i < n, (read sizeofInt64 mem ptr i).Fits sizeofInt32) →
      (local_save_bintsv4 ptr n offset file mem).2 = mem ∧
      ∀ (ptr' : ℤ) (n' first : ℕ) (mem' : Bytes), first + n' ≤ n → ∀ i < n',
        read sizeofInt64 (local_load_bintsv4 ptr' n' (offset + first)
          (local_save_bintsv4 ptr n offset file mem).1 mem') ptr' i =
          read sizeofInt64 mem ptr (first + i) := by
  refine ⟨fun _ _ _ _ => expand_spec, fun _ _ _ _ => compress_spec, ?_⟩
  intro ptr n offset file mem hfits
  refine ⟨expand_compress hfits, ?_⟩
  intro ptr' n' first mem' hpart i hi
  have hbase : ((2 * sizeofInt32 * (offset + first) : ℕ) : ℤ) =
      (2 * sizeofInt32 * offset : ℕ) + (2 * sizeofInt32 * first : ℕ) := by
    rw [mul_add, Nat.cast_add]
  calc read sizeofInt64 (local_load_bintsv4 ptr' n' (offset + first)
        (local_save_bintsv4 ptr n offset file mem).1 mem') ptr' i
      = read sizeofInt32 (local_save_bintsv4 ptr n offset file mem).1
          (2 * sizeofInt32 * (offset + first) : ℕ) i := by
        rw [local_load_bintsv4, expand_spec hi]
        exact read_copied hi
    _ = read sizeofInt32 (local_save_bintsv4 ptr n offset file mem).1
          (2 * sizeofInt32 * offset : ℕ) (first + i) := by
        rw [hbase, read_from]
    _ = read sizeofInt32 (compress ptr n mem) ptr (first + i) := read_copied (by omega)
    _ = (read sizeofInt64 mem ptr (first + i)).truncate sizeofInt32 := compress_spec (by omega)
    _ = read sizeofInt64 mem ptr (first + i) := truncate_of_fits (hfits _ (by omega))

/-- Two edges whose ids are all `-1` are saved, and the second one is loaded elsewhere. -/
theorem bintsv4_two : (local_save_bintsv4 64 2 10 (fun _ => 0) fun _ => 255).2 = (fun _ => 255) ∧
    read sizeofInt64 (local_load_bintsv4 0 1 (10 + 1)
      (local_save_bintsv4 64 2 10 (fun _ => 0) fun _ => 255).1 fun _ => 7) 0 0 = ⟨-1, -1⟩ := by
  have hbytes : ∀ p : ℤ, loadInt 8 (load (fun _ => 255) p 8) = -1 := by
    intro p
    exact (show loadInt 8 (List.replicate 8 255) = -1 by decide +kernel)
  have hread : ∀ i, read sizeofInt64 (fun _ => 255) 64 i = ⟨-1, -1⟩ := by
    intro i
    rw [read, sizeofInt64, hbytes, hbytes]
  obtain ⟨hmem, hload⟩ := bintsv4_spec.2.2 64 2 10 (fun _ => 0) (fun _ => 255) (by
    intro i _
    rw [hread]
    norm_num [Edge.Fits, sizeofInt32])
  have hone := hload 0 1 1 (fun _ => 7) (by decide) 0 (by decide)
  rw [hread] at hone
  exact ⟨hmem, hone⟩

end Grappa.Bintsv4
