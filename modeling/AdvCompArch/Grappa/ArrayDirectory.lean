import AdvCompArch.Grappa.CacheInvariant
import AdvCompArch.Lib.Chunks
import AdvCompArch.Lib.Consecutive
import AdvCompArch.Lib.DecimalText

/-! # Saving an array to a directory, and reading it back

    Every core writes its block of a global array to a file of its own, and the name of the
    file says which block it is.  The reader goes through the directory, takes the blocks
    from the names and reads the files with one task for each buffer.  The array is seen as
    its bytes: element `j` has the bytes from `j * sizeof` on.  The file system does what it is
    asked: directories and files can be created and opened. -/

namespace Grappa

open DecimalText List ByteMemory

/-- `range_t`; `end` is a keyword here. -/
structure BlockRange where
  start : ℕ
  stop : ℕ
  deriving DecidableEq

/-- range for block distribution -/
def blockDist (start stop rank numBlocks : ℕ) : BlockRange :=
  let numElems := stop - start
  let each := numElems / numBlocks
  let remain := numElems % numBlocks
  let mynum := if rank < remain then each + 1 else each
  let mystart := start +
    if rank < remain then (each + 1) * rank else (each + 1) * remain + (rank - remain) * each
  ⟨mystart, mystart + mynum⟩

/-- The name of a file or a directory, as the characters of a C string. -/
abbrev Path := List Char

def array_dir_fname (dirname : Path) (start stop : ℤ) : Path :=
  dirname ++ "/block.".toList ++ printInt start ++ '.' :: printInt stop ++ ".gblk".toList

/-- What follows the last `/`. -/
def Path.filename (p : Path) : Path := (p.reverse.takeWhile (· ≠ '/')).reverse

/-- The file name up to its last dot. -/
def Path.stem (p : Path) : Path :=
  if '.' ∈ Path.filename p then (((Path.filename p).reverse.dropWhile (· ≠ '.')).drop 1).reverse
  else Path.filename p

/-- The length of the arrays that names are copied into. -/
def FNAME_LENGTH : ℕ := 256

/-- What `%ld` makes of a number that it cannot store. -/
def saturate (z : ℤ) : ℤ := max (-2 ^ 63) (min z (2 ^ 63 - 1))

/-- `start` and `end`; `none` if `sscanf` does not set both of them. -/
def array_dir_scan (p : Path) : Option (ℤ × ℤ) :=
  if "block.".toList <+: Path.stem p then
    (scanInt ((Path.stem p).drop 6)).bind fun (start, rest) =>
      match rest with
      | '.' :: rest => (scanInt rest).map fun (stop, _) => (saturate start, saturate stop)
      | _ => none
  else none

/-- A file: its path and its bytes. -/
abbrev SavedFile := Path × List UInt8

/-- An array of `nelems` objects, where and how it is saved, and the files that are there before. -/
structure ArrayDir where
  machine : Machine
  sizeof : ℕ
  sizeof_pos : 0 < sizeof
  array : GlobalAddress
  is_linear : array.is_linear = true
  nelems : ℕ
  nelems_pos : 0 < nelems
  in_space : array.raw_bits + nelems * sizeof < 2 ^ 63
  io_blocksize_mb : ℕ
  dirname : Path
  existing : List SavedFile
  existing_nodup : (existing.map Prod.fst).Nodup

/-- A call of `read_array_args::task`, with the file that it reads. -/
structure ReadTask where
  content : List UInt8
  start : ℕ
  index : ℕ
  nelem : ℕ
  deriving DecidableEq

namespace ArrayDir

variable (g : ArrayDir)

/-- The number of objects in a buffer. -/
def NBUF : ℕ := g.io_blocksize_mb * 2 ^ 20 / g.sizeof

/-- The block of a core. -/
def block (core : ℕ) : BlockRange := blockDist 0 g.nelems core g.machine.cores

/-- The buffers of `for_buffered`. -/
def buffers (r : BlockRange) : List (ℕ × ℕ) := Chunks.chunks g.NBUF r.start r.stop

/-- The byte address of object `i`. -/
def byte_of (i : ℕ) : ℤ := g.array.raw_bits + (i * g.sizeof : ℕ)

/-- A read-only cache of the `n` objects from `i` on gets them: the last block that it touches
    starts at an offset that the acquirer can count to. -/
def Acquired (i n : ℕ) : Prop :=
  (g.byte_of (i + n) - 1) / block_size * block_size - g.byte_of i < 2 ^ 31

/-- A write-only cache of the `n` objects from `i` on writes them all back. -/
def Released (i n : ℕ) : Prop :=
  (g.byte_of (i + n) - 1) / block_size - g.byte_of i / block_size + 1 < 2 ^ 31

instance (i n : ℕ) : Decidable (g.Acquired i n) := inferInstanceAs (Decidable (_ < _))

instance (i n : ℕ) : Decidable (g.Released i n) := inferInstanceAs (Decidable (_ < _))

/-- The objects of a buffer, as bytes. -/
def buffer (mem : ℤ → UInt8) (p : ℕ × ℕ) : List UInt8 :=
  load mem ((p.1 * g.sizeof : ℕ) : ℤ) (p.2 * g.sizeof)

/-- The file that a core writes to. -/
def fname (core : ℕ) : Path :=
  array_dir_fname g.dirname (g.block core).start (g.block core).stop

/-- The file that a core writes. -/
def saved_file (mem : ℤ → UInt8) (core : ℕ) : SavedFile :=
  (g.fname core, (g.buffers (g.block core)).flatMap (g.buffer mem))

/-- The files that the cores write; `none` if a name is longer than the array that it is copied
    into, or a cache does not get its objects. -/
def save_array_dir (mem : ℤ → UInt8) : Option (List SavedFile) :=
  if g.dirname.length < FNAME_LENGTH ∧ ∀ core < g.machine.cores,
      (g.fname core).length < FNAME_LENGTH ∧
        ∀ p ∈ g.buffers (g.block core), g.Acquired p.1 p.2 then
    some ((List.range g.machine.cores).map (g.saved_file mem))
  else none

/-- The directory has the files that were written, and those that were there before and have not
    been overwritten, each once, in some order. -/
structure Listing (files dir : List SavedFile) : Prop where
  nodup : (dir.map Prod.fst).Nodup
  mem_iff : ∀ f, f ∈ dir ↔ f ∈ files ∨ f ∈ g.existing ∧ f.1 ∉ files.map Prod.fst

/-- The `CHECK`s for a file of the directory.  What `sscanf` does not set may be anything, also an
    empty range. -/
def Checked (file : SavedFile) : Prop :=
  match array_dir_scan file.1 with
  | some (start, stop) =>
    start < stop ∧ as_size_t start < g.nelems ∧ as_size_t stop ≤ g.nelems ∧
      ∀ p ∈ g.buffers ⟨start.toNat, stop.toNat⟩, p.1 + p.2 ≤ g.nelems
  | none => False

instance (file : SavedFile) : Decidable (g.Checked file) := by
  unfold Checked
  split <;> infer_instance

/-- The tasks that are spawned for a file of the directory. -/
def read_tasks (file : SavedFile) : List ReadTask :=
  match array_dir_scan file.1 with
  | some (start, stop) =>
    (g.buffers ⟨start.toNat, stop.toNat⟩).map fun p => ⟨file.2, start.toNat, p.1, p.2⟩
  | none => []

/-- All tasks that are spawned; `none` if a `CHECK` fails, or the write-only cache of a task waits
    for ever. -/
def read_array_dir (dir : List SavedFile) : Option (List ReadTask) :=
  if (∀ file ∈ dir, g.Checked file) ∧ ∀ t ∈ dir.flatMap g.read_tasks, g.Released t.index t.nelem then
    some (dir.flatMap g.read_tasks)
  else none

/-- The buffer of a task after it has read from its file.  What is behind the end of the file keeps
    the bytes that it was allocated with. -/
def task_buffer (allocated : ℕ → UInt8) (t : ReadTask) : List UInt8 :=
  let content := (t.content.drop (g.sizeof * (t.index - t.start))).take (g.sizeof * t.nelem)
  content ++ (List.range (g.sizeof * t.nelem - content.length)).map allocated

/-- The array after a task. -/
def run_task (allocated : ℕ → UInt8) (mem : ℤ → UInt8) (t : ReadTask) : ℤ → UInt8 :=
  store mem ((t.index * g.sizeof : ℕ) : ℤ) (g.task_buffer allocated t)

/-- What was saved can be read back: whatever is in the array, in whatever order the directory
    lists the files and the tasks run, and whatever is in the array that is read into and in the
    buffers. -/
def RoundTrip : Prop :=
  ∀ mem, ∃ files, g.save_array_dir mem = some files ∧
    ∀ dir, g.Listing files dir → ∃ tasks, g.read_array_dir dir = some tasks ∧
      ∀ order : List ReadTask, order.Perm tasks → ∀ allocated mem', ∀ k < g.nelems * g.sizeof,
        order.foldl (g.run_task allocated) mem' (k : ℤ) = mem (k : ℤ)

end ArrayDir

/-! ### The blocks -/

section blocks

variable {n N k : ℕ}

theorem blockDist_zero : (blockDist 0 n 0 N).start = 0 := by
  simp only [blockDist]
  split <;> simp_all

theorem blockDist_succ : (blockDist 0 n (k + 1) N).start = (blockDist 0 n k N).stop := by
  simp only [blockDist]
  generalize (n - 0) / N = each
  generalize (n - 0) % N = remain
  rcases Nat.lt_trichotomy (k + 1) remain with hlt | heq | hgt
  · rw [if_pos hlt, if_pos (by omega), if_pos (by omega)]
    ring
  · subst heq
    rw [if_neg (by omega), if_pos (by omega), if_pos (by omega), Nat.sub_self]
    ring
  · obtain ⟨d, rfl⟩ := Nat.exists_eq_add_of_le (show remain ≤ k by omega)
    rw [if_neg (by omega), if_neg (by omega), if_neg (by omega),
      show remain + d + 1 - remain = d + 1 by omega, Nat.add_sub_cancel_left]
    ring

theorem blockDist_start_le : (blockDist 0 n k N).start ≤ (blockDist 0 n k N).stop :=
  Nat.le_add_right ..

theorem blockDist_cores (hN : 0 < N) : (blockDist 0 n N N).start = n := by
  have hlt := Nat.mod_lt n hN
  have hdiv := Nat.div_add_mod n N
  simp only [blockDist, Nat.sub_zero, if_neg (Nat.not_lt.mpr hlt.le)]
  obtain ⟨d, hd⟩ := Nat.exists_eq_add_of_le hlt.le
  generalize hr : n % N = r at hd hdiv
  generalize n / N = q at hdiv
  rw [show N - r = d by omega, ← hdiv, hd]
  ring

theorem consecutive_blockDist (hN : 0 < N) :
    Consecutive 0 ((List.range N).map fun c => ((blockDist 0 n c N).start,
      (blockDist 0 n c N).stop - (blockDist 0 n c N).start)) n := by
  have hprefix : ∀ k, Consecutive 0 ((range k).map fun c => ((blockDist 0 n c N).start,
      (blockDist 0 n c N).stop - (blockDist 0 n c N).start)) (blockDist 0 n k N).start := by
    intro k
    induction k with
    | zero => exact blockDist_zero.symm
    | succ k ih =>
      have hstop : (blockDist 0 n (k + 1) N).start = (blockDist 0 n k N).start +
          ((blockDist 0 n k N).stop - (blockDist 0 n k N).start) := by
        have := blockDist_start_le (n := n) (k := k) (N := N)
        rw [blockDist_succ]
        omega
      rw [range_succ, map_append, hstop]
      exact ih.snoc _
  have := hprefix N
  rwa [blockDist_cores hN] at this

theorem exists_block (hN : 0 < N) {j : ℕ} (hj : j < n) :
    ∃ c < N, (blockDist 0 n c N).start ≤ j ∧ j < (blockDist 0 n c N).stop := by
  obtain ⟨p, hp, hlo, hhi⟩ := (consecutive_blockDist hN).exists_mem_iff.mpr ⟨Nat.zero_le j, hj⟩
  obtain ⟨c, hc, rfl⟩ := mem_map.mp hp
  have := blockDist_start_le (n := n) (k := c) (N := N)
  exact ⟨c, mem_range.mp hc, hlo, by simp only at hhi; omega⟩

theorem blockDist_stop_le (hN : 0 < N) (hk : k < N) : (blockDist 0 n k N).stop ≤ n := by
  by_cases hempty : (blockDist 0 n k N).start = (blockDist 0 n k N).stop
  · -- an empty block starts where another one ends
    have hmono : ∀ d, (blockDist 0 n k N).start ≤ (blockDist 0 n (k + d) N).start := by
      intro d
      induction d with
      | zero => exact le_rfl
      | succ d ih =>
        rw [← add_assoc, blockDist_succ]
        exact ih.trans blockDist_start_le
    have := hmono (N - k)
    rw [show k + (N - k) = N by omega, blockDist_cores hN] at this
    omega
  · have hle := blockDist_start_le (n := n) (k := k) (N := N)
    have hiff := (consecutive_blockDist (n := n) hN).exists_mem_iff
      (x := (blockDist 0 n k N).stop - 1)
    have hlast := hiff.mp
      ⟨_, mem_map.mpr ⟨k, mem_range.mpr hk, rfl⟩, by simp only; omega, by simp only; omega⟩
    omega

theorem blockDist_start_lt (h : N ≤ n) (hk : k < N) :
    (blockDist 0 n k N).start < (blockDist 0 n k N).stop := by
  have heach : 0 < n / N := Nat.div_pos h (by omega)
  simp only [blockDist, Nat.sub_zero]
  split <;> omega

theorem blockDist_empty (h : n < N) : (blockDist 0 n n N).start = (blockDist 0 n n N).stop := by
  have hdiv : n / N = 0 := Nat.div_eq_of_lt h
  have hmod : n % N = n := Nat.mod_eq_of_lt h
  simp [blockDist, hdiv, hmod]

end blocks

/-! ### The names -/

section names

theorem printInt_ne {z : ℤ} {c : Char} (hc : c ∈ printInt z) : c ≠ '/' ∧ c ≠ '.' := by
  have hdigit : ∀ n, c ∈ Nat.toDigits 10 n → c ≠ '/' ∧ c ≠ '.' := by
    intro n hn
    have := isDigit_toDigits hn
    constructor <;> rintro rfl <;> simp at this
  cases z with
  | ofNat n => exact hdigit n hc
  | negSucc n =>
    rcases mem_cons.mp hc with rfl | hc
    · decide
    · exact hdigit _ hc

theorem stem_fname (dirname : Path) (start stop : ℤ) :
    Path.stem (array_dir_fname dirname start stop) =
      "block.".toList ++ (printInt start ++ '.' :: printInt stop) := by
  let body : List Char := "block.".toList ++ (printInt start ++ '.' :: printInt stop)
  have hbody : ∀ c ∈ body ++ ".gblk".toList, c ≠ '/' := by
    intro c hc
    simp only [body, mem_append, mem_cons] at hc
    rcases hc with (hc | hc | rfl | hc) | hc
    · rintro rfl
      simp at hc
    · exact (printInt_ne hc).1
    · decide
    · exact (printInt_ne hc).1
    · rintro rfl
      simp at hc
  have hpath : array_dir_fname dirname start stop = dirname ++ '/' :: (body ++ ".gblk".toList) := by
    simp [array_dir_fname, body]
  have hfilename : Path.filename (array_dir_fname dirname start stop) = body ++ ".gblk".toList := by
    rw [Path.filename, hpath, reverse_append, reverse_cons, append_assoc,
      takeWhile_append_of_all (fun c hc => decide_eq_true (hbody c (mem_reverse.mp hc)))
        (by simp), reverse_reverse]
  have hdot : '.' ∈ body ++ ".gblk".toList := by simp
  rw [Path.stem, hfilename, if_pos hdot, reverse_append]
  simp [body]

theorem array_dir_scan_fname (dirname : Path) {start stop : ℤ}
    (hstart : saturate start = start) (hstop : saturate stop = stop) :
    array_dir_scan (array_dir_fname dirname start stop) = some (start, stop) := by
  have hlast : scanInt (printInt stop ++ []) = some (stop, []) := scanInt_printInt nofun
  have hfirst : scanInt (printInt start ++ '.' :: printInt stop) =
      some (start, '.' :: printInt stop) := scanInt_printInt (by simp [NoDigit])
  rw [append_nil] at hlast
  have hdrop : ("block.".toList ++ (printInt start ++ '.' :: printInt stop)).drop 6 =
      printInt start ++ '.' :: printInt stop := rfl
  rw [array_dir_scan, stem_fname, if_pos (prefix_append ..), hdrop, hfirst]
  simp [hlast, hstart, hstop]

theorem le_start_of_scan {p : Path} {start stop : ℤ}
    (h : array_dir_scan p = some (start, stop)) : -2 ^ 63 ≤ start := by
  obtain ⟨-, hscan⟩ := Option.ite_none_right_eq_some.mp h
  obtain ⟨⟨first, rest⟩, -, hrest⟩ := Option.bind_eq_some_iff.mp hscan
  dsimp only at hrest
  split at hrest
  · obtain ⟨last, -, heq⟩ := Option.map_eq_some_iff.mp hrest
    cases heq
    exact le_max_left _ _
  · cases hrest

end names

namespace ArrayDir

variable {g : ArrayDir} {mem mem' : ℤ → UInt8} {allocated : ℕ → UInt8} {c i n : ℕ}

theorem nelems_lt : g.nelems < 2 ^ 63 := by
  obtain ⟨s, hs⟩ := GlobalAddress.exists_nat_of_is_linear g.is_linear
  have hspace := g.in_space
  rw [hs] at hspace
  have hle : (g.nelems : ℤ) * 1 ≤ g.nelems * g.sizeof := by
    apply mul_le_mul_of_nonneg_left
    · exact_mod_cast g.sizeof_pos
    · exact Int.natCast_nonneg _
  simp only [GlobalAddress.raw_bits] at hspace
  omega

theorem scan_fname (hc : c < g.machine.cores) : array_dir_scan (g.fname c) =
    some (((g.block c).start : ℤ), ((g.block c).stop : ℤ)) := by
  have hle : (g.block c).start ≤ (g.block c).stop := blockDist_start_le
  have hstop : (g.block c).stop ≤ g.nelems := blockDist_stop_le g.machine.cores_pos hc
  have hspace := g.nelems_lt
  apply array_dir_scan_fname <;> (rw [saturate]; omega)

/-! ### The caches -/

theorem Acquired.released (h : g.Acquired i n) : g.Released i n := by
  unfold Acquired block_size at h
  unfold Released block_size
  omega

/-! ### What is written and read -/

theorem content_eq (hbuf : 0 < g.NBUF) :
    (g.saved_file mem c).2 = load mem (((g.block c).start * g.sizeof : ℕ) : ℤ)
      (((g.block c).stop - (g.block c).start) * g.sizeof) := by
  have hbuffer : g.buffer mem = fun p => (range' p.1 p.2).flatMap fun j : ℕ =>
      load mem ((j * g.sizeof : ℕ) : ℤ) g.sizeof := by
    funext p
    exact (flatMap_load mem g.sizeof p.1 p.2).symm
  rw [saved_file, hbuffer, ← flatMap_assoc, buffers, Chunks.ranges_chunks hbuf,
    flatMap_load]

theorem read_tasks_saved_file (hc : c < g.machine.cores) : g.read_tasks (g.saved_file mem c) =
    (g.buffers (g.block c)).map fun p =>
      ⟨(g.saved_file mem c).2, (g.block c).start, p.1, p.2⟩ := by
  have hscan : array_dir_scan (g.saved_file mem c).1 = _ := scan_fname hc
  simp only [read_tasks, hscan, Int.toNat_natCast]

theorem task_buffer_eq (hbuf : 0 < g.NBUF) {p : ℕ × ℕ} (hp : p ∈ g.buffers (g.block c)) :
    g.task_buffer allocated ⟨(g.saved_file mem c).2, (g.block c).start, p.1, p.2⟩ =
      g.buffer mem p := by
  obtain ⟨hlo, -, -, hhi⟩ := Chunks.mem_chunks hp
  obtain ⟨d, hd⟩ := Nat.exists_eq_add_of_le hlo
  have hfit : g.sizeof * d + g.sizeof * p.2 ≤
      ((g.block c).stop - (g.block c).start) * g.sizeof := by
    rw [← mul_add, mul_comm]
    exact Nat.mul_le_mul_right _ (by omega)
  have hsub : p.1 - (g.block c).start = d := by omega
  simp only [task_buffer, content_eq hbuf, hsub]
  rw [take_drop_load _ _ hfit, length_load, Nat.sub_self, range_zero, map_nil,
    append_nil, buffer, hd, mul_comm g.sizeof p.2]
  congr 1
  push_cast
  ring

/-- The task restores the bytes of its buffer, and no others. -/
def Restores (g : ArrayDir) (allocated : ℕ → UInt8) (mem : ℤ → UInt8) (t : ReadTask) : Prop :=
  g.task_buffer allocated t = g.buffer mem (t.index, t.nelem)

theorem run_task_inside {t : ReadTask} (ht : g.Restores allocated mem t) {k : ℕ}
    (hlo : t.index * g.sizeof ≤ k) (hhi : k < (t.index + t.nelem) * g.sizeof) :
    g.run_task allocated mem' t k = mem k := by
  obtain ⟨d, rfl⟩ := Nat.exists_eq_add_of_le hlo
  rw [add_mul] at hhi
  have hd : d < (load mem ((t.index * g.sizeof : ℕ) : ℤ) (t.nelem * g.sizeof)).length := by
    rw [length_load]
    omega
  rw [run_task, ht, Nat.cast_add, buffer, store_inside hd,
    getElem_load]

theorem run_task_cases {t : ReadTask} (ht : g.Restores allocated mem t) (mem' : ℤ → UInt8)
    (k : ℕ) : g.run_task allocated mem' t k = mem k ∨ g.run_task allocated mem' t k = mem' k := by
  by_cases hin : t.index * g.sizeof ≤ k ∧ k < (t.index + t.nelem) * g.sizeof
  · exact .inl (run_task_inside ht hin.1 hin.2)
  · right
    rw [run_task, ht, store_outside]
    rw [add_mul] at hin
    rw [buffer, length_load]
    dsimp only
    omega

/-- **A byte that is in the buffer of a task is restored**, whatever the order. -/
theorem foldl_run_task {order : List ReadTask} (h : ∀ t ∈ order, g.Restores allocated mem t) {k : ℕ}
    (hk : mem' k = mem k ∨
      ∃ t ∈ order, t.index * g.sizeof ≤ k ∧ k < (t.index + t.nelem) * g.sizeof) :
    order.foldl (g.run_task allocated) mem' k = mem k := by
  induction order generalizing mem' with
  | nil =>
    obtain hk | ⟨t, ht, -⟩ := hk
    · exact hk
    · cases ht
  | cons t order ih =>
    have ht := h t mem_cons_self
    apply ih fun u hu => h u (mem_cons_of_mem _ hu)
    obtain hk | ⟨u, hu, hlo, hhi⟩ := hk
    · obtain hrun | hrun := run_task_cases ht mem' k
      · exact .inl hrun
      · exact .inl (hrun.trans hk)
    · rcases mem_cons.mp hu with rfl | hu
      · exact .inl (run_task_inside ht hlo hhi)
      · exact .inr ⟨u, hu, hlo, hhi⟩

/-! ### The directory -/

theorem checked_saved_file (hc : c < g.machine.cores) :
    g.Checked (g.saved_file mem c) ↔ (g.block c).start < (g.block c).stop := by
  have hscan : array_dir_scan (g.saved_file mem c).1 = _ := scan_fname hc
  have hstop : (g.block c).stop ≤ g.nelems := blockDist_stop_le g.machine.cores_pos hc
  have hspace := g.nelems_lt
  simp only [Checked, hscan, Int.toNat_natCast]
  constructor
  · intro h
    exact_mod_cast h.1
  · intro hlt
    refine ⟨by exact_mod_cast hlt, ?_, ?_, ?_⟩
    · rw [Incoherent.as_size_t_natCast (by omega)]
      exact_mod_cast hlt.trans_le hstop
    · rw [Incoherent.as_size_t_natCast (by omega)]
      exact_mod_cast hstop
    · intro p hp
      obtain ⟨-, -, -, hhi⟩ := Chunks.mem_chunks hp
      exact hhi.trans hstop

/-- The files of the cores. -/
def files (g : ArrayDir) (mem : ℤ → UInt8) : List SavedFile :=
  (List.range g.machine.cores).map (g.saved_file mem)

theorem saved_file_congr {d : ℕ} (hc : c < g.machine.cores) (hd : d < g.machine.cores)
    (h : (g.saved_file mem c).1 = (g.saved_file mem d).1) :
    g.saved_file mem c = g.saved_file mem d := by
  have hscan : array_dir_scan (g.fname c) = array_dir_scan (g.fname d) := congrArg array_dir_scan h
  simp only [scan_fname hc, scan_fname hd, Option.some.injEq, Prod.mk.injEq, Nat.cast_inj] at hscan
  have hblock : g.block c = g.block d := by
    cases hb : g.block c
    cases hb' : g.block d
    simp only [hb, hb'] at hscan
    rw [hscan.1, hscan.2]
  rw [saved_file, fname, hblock]
  rfl

theorem exists_listing (g : ArrayDir) (mem : ℤ → UInt8) : ∃ dir, g.Listing (g.files mem) dir := by
  let left := g.existing.filter fun f => f.1 ∉ (g.files mem).map Prod.fst
  refine ⟨(g.files mem).dedup ++ left, ?_, fun f => ?_⟩
  · rw [map_append]
    refine Nodup.append ?_ (g.existing_nodup.sublist (filter_sublist.map _)) ?_
    · apply List.Nodup.map_on _ (nodup_dedup _)
      intro f hf f' hf' heq
      obtain ⟨c, hc, rfl⟩ := mem_map.mp (mem_dedup.mp hf)
      obtain ⟨d, hd, rfl⟩ := mem_map.mp (mem_dedup.mp hf')
      exact saved_file_congr (mem_range.mp hc) (mem_range.mp hd) heq
    · intro name hname hleft
      obtain ⟨f, hf, rfl⟩ := mem_map.mp hleft
      obtain ⟨f', hf', heq⟩ := mem_map.mp hname
      exact of_decide_eq_true (mem_filter.mp hf).2 (heq ▸ mem_map_of_mem (mem_dedup.mp hf'))
  · simp [left]

/-! ### The round trip -/

/-- Every buffer is one that its cache can get. -/
def AllAcquired (g : ArrayDir) : Prop :=
  ∀ core < g.machine.cores, ∀ p ∈ g.buffers (g.block core), g.Acquired p.1 p.2

/-- The names of the files fit into the arrays that they are copied into. -/
def NamesFit (g : ArrayDir) : Prop :=
  ∀ core < g.machine.cores, (g.fname core).length < FNAME_LENGTH

/-- All files that were there before are overwritten. -/
def NothingElse (g : ArrayDir) : Prop :=
  ∀ f ∈ g.existing, ∃ core < g.machine.cores, g.fname core = f.1

theorem NamesFit.dirname_lt (h : g.NamesFit) : g.dirname.length < FNAME_LENGTH := by
  have hfirst := h 0 g.machine.cores_pos
  simp only [fname, array_dir_fname, length_append] at hfirst
  omega

theorem read_save (hcores : g.machine.cores ≤ g.nelems) (hbuf : 0 < g.NBUF)
    (hall : g.AllAcquired) (hnames : g.NamesFit) (helse : g.NothingElse) : g.RoundTrip := by
  intro mem
  refine ⟨g.files mem, if_pos ⟨hnames.dirname_lt, fun c hc => ⟨hnames c hc, hall c hc⟩⟩, ?_⟩
  intro dir hdir
  -- the files of the directory are those of the cores
  have hfile : ∀ f ∈ dir, ∃ c < g.machine.cores, g.saved_file mem c = f := by
    intro f hf
    rcases (hdir.mem_iff f).mp hf with hf | ⟨hold, hnew⟩
    · obtain ⟨c, hc, rfl⟩ := mem_map.mp hf
      exact ⟨c, mem_range.mp hc, rfl⟩
    · obtain ⟨c, hc, hname⟩ := helse f hold
      exact absurd (hname ▸ mem_map_of_mem (mem_map_of_mem (mem_range.mpr hc))) hnew
  have hchecked : ∀ f ∈ dir, g.Checked f := by
    intro f hf
    obtain ⟨c, hc, rfl⟩ := hfile f hf
    exact (checked_saved_file hc).mpr (blockDist_start_lt hcores hc)
  have htask : ∀ t ∈ dir.flatMap g.read_tasks, g.Released t.index t.nelem ∧
      ∀ allocated, g.Restores allocated mem t := by
    intro t ht
    obtain ⟨f, hf, ht⟩ := mem_flatMap.mp ht
    obtain ⟨c, hc, rfl⟩ := hfile f hf
    rw [read_tasks_saved_file hc] at ht
    obtain ⟨p, hp, rfl⟩ := mem_map.mp ht
    exact ⟨(hall c hc p hp).released, fun _ => task_buffer_eq hbuf hp⟩
  refine ⟨dir.flatMap g.read_tasks, if_pos ⟨hchecked, fun t ht => (htask t ht).1⟩, ?_⟩
  intro order horder allocated mem' k hk
  apply foldl_run_task fun t ht => (htask t (horder.mem_iff.mp ht)).2 allocated
  right
  -- the byte belongs to an object, the object to a block, and there to a buffer
  have hobject : k / g.sizeof < g.nelems := (Nat.div_lt_iff_lt_mul g.sizeof_pos).mpr hk
  obtain ⟨c, hc, hlo, hhi⟩ := exists_block g.machine.cores_pos hobject
  obtain ⟨p, hp⟩ := Chunks.filter_chunks hbuf hlo hhi
  have hmem : p ∈ g.buffers (g.block c) ∧ Chunks.covers (k / g.sizeof) p = true :=
    mem_filter.mp (hp ▸ mem_singleton_self p)
  have hcovers := hmem.2
  simp only [Chunks.covers, Bool.and_eq_true, decide_eq_true_eq] at hcovers
  refine ⟨⟨(g.saved_file mem c).2, (g.block c).start, p.1, p.2⟩, ?_, ?_, ?_⟩
  · rw [horder.mem_iff]
    apply mem_flatMap.mpr
    refine ⟨g.saved_file mem c, ?_, ?_⟩
    · exact (hdir.mem_iff _).mpr (.inl (mem_map_of_mem (mem_range.mpr hc)))
    · rw [read_tasks_saved_file hc]
      exact mem_map_of_mem hmem.1
  · exact (Nat.le_div_iff_mul_le g.sizeof_pos).mp hcovers.1
  · exact (Nat.div_lt_iff_lt_mul g.sizeof_pos).mp hcovers.2

/-- What a round trip gives for one memory and some listing of the directory. -/
theorem RoundTrip.reads (h : g.RoundTrip) (mem : ℤ → UInt8) : g.NamesFit ∧ g.AllAcquired ∧
    ∃ dir, g.Listing (g.files mem) dir ∧ (∀ f ∈ dir, g.Checked f) ∧
      ∀ order : List ReadTask, order.Perm (dir.flatMap g.read_tasks) → ∀ allocated mem',
        ∀ k < g.nelems * g.sizeof, order.foldl (g.run_task allocated) mem' (k : ℤ) = mem (k : ℤ) := by
  obtain ⟨files, hsave, hread⟩ := h mem
  obtain ⟨⟨-, hcores⟩, hfiles⟩ := Option.ite_none_right_eq_some.mp hsave
  obtain rfl : g.files _ = files := Option.some.inj hfiles
  obtain ⟨dir, hdir⟩ := g.exists_listing mem
  obtain ⟨tasks, htasks, hrestored⟩ := hread dir hdir
  obtain ⟨⟨hchecked, -⟩, rfl⟩ := Option.ite_some_none_eq_some.mp htasks
  exact ⟨fun c hc => (hcores c hc).1, fun c hc => (hcores c hc).2, dir, hdir, hchecked, hrestored⟩

theorem RoundTrip.NBUF_pos (h : g.RoundTrip) : 0 < g.NBUF := by
  by_contra hzero
  -- otherwise nothing is read
  have hnone : ∀ f, g.read_tasks f = [] := by
    intro f
    have hchunks : ∀ r, g.buffers r = [] := by
      intro r
      apply eq_nil_iff_forall_not_mem.mpr
      intro p hp
      have := Chunks.mem_chunks hp
      omega
    unfold read_tasks
    split
    · rw [hchunks]
      rfl
    · rfl
  obtain ⟨-, -, dir, -, -, hrestored⟩ := h.reads fun _ => 0
  have hnil : dir.flatMap g.read_tasks = [] := by simp [hnone]
  have hsame := hrestored [] (by rw [hnil]) (fun _ => 0) (fun _ => 1) 0
    (mul_pos g.nelems_pos g.sizeof_pos)
  have hone : (1 : UInt8) = 0 := hsame
  exact absurd hone (by decide)

theorem Checked.exists_task {f : SavedFile} (h : g.Checked f) (hbuf : 0 < g.NBUF) :
    ∃ t ∈ g.read_tasks f, t.index < g.nelems ∧ 0 < t.nelem := by
  have hspace := g.nelems_lt
  unfold Checked at h
  unfold read_tasks
  rcases hscan : array_dir_scan f.1 with - | ⟨start, stop⟩
  · simp [hscan] at h
  · simp only [hscan] at h ⊢
    obtain ⟨hlt, hstart, hstop, hfit⟩ := h
    have hbounds := le_start_of_scan hscan
    have hnonneg : 0 ≤ start := by
      by_contra hneg
      unfold as_size_t at hstart
      omega
    obtain ⟨p, hp⟩ := Chunks.filter_chunks hbuf (le_refl start.toNat)
      (show start.toNat < stop.toNat by omega)
    obtain ⟨hmem, -⟩ := mem_filter.mp (hp ▸ mem_singleton_self p)
    have hpos := Chunks.mem_chunks hmem
    have hle := hfit p hmem
    exact ⟨_, mem_map_of_mem hmem, by dsimp only; omega, hpos.2.1⟩

/-- **A file that was there before** and stays is read as a part of the array. -/
theorem RoundTrip.nothingElse (h : g.RoundTrip) : g.NothingElse := by
  intro f hf
  by_contra hstays
  have hnew : ∀ mem, f.1 ∉ (g.files mem).map Prod.fst := by
    intro mem hname
    obtain ⟨f', hf', heq⟩ := mem_map.mp hname
    obtain ⟨c, hc, rfl⟩ := mem_map.mp hf'
    exact hstays ⟨c, mem_range.mp hc, heq⟩
  have hchecked : g.Checked f := by
    obtain ⟨-, -, dir, hdir, hchecked, -⟩ := h.reads fun _ => 0
    exact hchecked f ((hdir.mem_iff f).mpr (.inr ⟨hf, hnew _⟩))
  obtain ⟨t, ht, hindex, hpos⟩ := hchecked.exists_task h.NBUF_pos
  -- the first byte that its task writes, whatever was saved
  have hlength : 0 < (g.task_buffer (fun _ => 0) t).length := by
    have := Nat.mul_pos g.sizeof_pos hpos
    simp only [task_buffer, length_append, length_map, length_range]
    omega
  obtain ⟨-, -, dir, hdir, -, hrestored⟩ := h.reads fun _ =>
    if (g.task_buffer (fun _ => 0) t)[0] = 0 then 1 else 0
  have hmem : t ∈ dir.flatMap g.read_tasks :=
    mem_flatMap.mpr ⟨f, (hdir.mem_iff f).mpr (.inr ⟨hf, hnew _⟩), ht⟩
  -- the task runs last
  have hlast := hrestored ((dir.flatMap g.read_tasks).erase t ++ [t])
    (perm_append_comm.trans (perm_cons_erase hmem).symm) (fun _ => 0) (fun _ => 0)
    (t.index * g.sizeof) (Nat.mul_lt_mul_of_pos_right hindex g.sizeof_pos)
  rw [foldl_append, foldl_cons, foldl_nil, run_task] at hlast
  have hinside := @store_inside _
    (((dir.flatMap g.read_tasks).erase t).foldl (g.run_task fun _ => 0) fun _ => 0)
    ((t.index * g.sizeof : ℕ) : ℤ) _ _ hlength
  rw [Nat.cast_zero, add_zero] at hinside
  rw [hinside] at hlast
  split_ifs at hlast with hzero
  · rw [hzero] at hlast
    exact absurd hlast (by decide)
  · exact hzero hlast

/-- One eight-byte object on two cores. -/
def oneOnTwo : ArrayDir where
  machine := ⟨2, Nat.two_pos, 0⟩
  sizeof := 8
  sizeof_pos := by decide
  array := ⟨0⟩
  is_linear := GlobalAddress.is_linear_zero
  nelems := 1
  nelems_pos := by decide
  in_space := by decide
  io_blocksize_mb := 4
  dirname := "array".toList
  existing := []
  existing_nodup := nodup_nil

end ArrayDir

end Grappa
