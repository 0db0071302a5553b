import AdvCompArch.Grappa.CacheInvariant
import AdvCompArch.Grappa.GlobalMemcpy
import AdvCompArch.Lib.Copies

/-! # Runs of a global memcpy

    The write-backs of all cores are split into the requests of their releasers.  Each
    request reads its piece of the source, on the core that stores it, and writes it to the
    core that stores its piece of the destination; the requests of all cores read and write
    in any order.

    A transfer passes through three stages: 0, not read yet; 1, in flight with its payload;
    2, written.  The transfers are copies that run side by side (`MemcpyState.next_copies`). -/

namespace Grappa

open GlobalAddress Incoherent Transition ByteMemory Stages Function List BlockCyclic

/-- The arguments of a `memcpy` between global arrays. -/
structure MemcpyArgs where
  sizeof : ℕ
  dst : GlobalAddress
  src : GlobalAddress
  nelem : ℕ
  /-- A block holds whole elements, if it starts with one. -/
  sizeof_dvd : sizeof ∣ 64
  dst_linear : dst.is_linear = true
  src_linear : src.is_linear = true
  dst_in_space : dst.raw_bits + nelem * sizeof ≤ 2 ^ 63
  src_in_space : src.raw_bits + nelem * sizeof < 2 ^ 63
  non_overlapping : dst.raw_bits + nelem * sizeof ≤ src.raw_bits ∨
    src.raw_bits + nelem * sizeof ≤ dst.raw_bits

/-- One request of a write-back: the core and the local pointer that it reads from, and the
    releaser's request. -/
structure Transfer where
  core : Core
  pointer : ℤ
  args : RequestArgs
  deriving DecidableEq

variable (m : Machine) (a : MemcpyArgs)

/-- The requests of a write-back on core `mycore`. -/
def Writeback.transfers (sizeof : ℕ) (mycore : Core) (w : Writeback) : Option (List Transfer) :=
  (do_release m sizeof w.address w.count.toNat).map fun rs =>
    rs.map fun r => ⟨mycore, w.buffer + r.offset, r⟩

/-- The write-backs of all cores, with their cores. -/
def memcpy_writebacks : List (Core × Writeback) :=
  m.all_cores.flatMap fun c =>
    ((do_memcpy_locally m a.sizeof c a.dst a.src a.nelem).getD []).map fun w => (c, w)

/-- The requests of all cores. -/
def memcpy_transfers : List Transfer :=
  (memcpy_writebacks m a).flatMap fun (c, w) => (w.transfers m a.sizeof c).getD []

/-- A transfer on its way, with its payload once that has been read. -/
structure MemcpyPacket (β : Type*) where
  transfer : Transfer
  payload : List β

/-- The transfers at each stage, and the memory of each core. -/
structure MemcpyState (β : Type*) where
  stages : ℕ → List (MemcpyPacket β)
  memory : Core → ℤ → β

namespace MemcpyState

variable {β : Type*}

/-- Transfer `k` of stage `j` goes on. -/
def next (s : MemcpyState β) : ℕ × ℕ → Option (MemcpyState β)
  | (0, k) => ((s.stages 0)[k]?).map fun x =>
    let payload := load (s.memory x.transfer.core) x.transfer.pointer x.transfer.args.request_bytes.toNat
    { s with stages := shift s.stages 0 k { x with payload } }
  | (1, k) => ((s.stages 1)[k]?).map fun x =>
    let core := x.transfer.args.request_address.core m
    let pointer := x.transfer.args.request_address.pointer m
    { s with
      stages := shift s.stages 1 k x
      memory := Function.update s.memory core (store (s.memory core) pointer x.payload) }
  | _ => none

/-- Everything has been read and written. -/
def Done (s : MemcpyState β) : Prop := s.stages 0 = [] ∧ s.stages 1 = []

end MemcpyState

/-- All runs of a `memcpy` from the given memory. -/
def memcpySystem {β : Type*} (memory : Core → ℤ → β) : System (MemcpyState β) (ℕ × ℕ) :=
  ⟨⟨Function.update (fun _ => []) 0 ((memcpy_transfers m a).map fun t => ⟨t, []⟩), memory⟩,
    MemcpyState.next m⟩

/-- The byte at a global address. -/
def byteAt {β : Type*} (memory : Core → ℤ → β) (g : GlobalAddress) : β :=
  memory (g.core m) (g.pointer m)

/-- The bytes of the two ranges. -/
def MemcpyArgs.srcByte (i : ℕ) : GlobalAddress := a.src.element 1 i

def MemcpyArgs.dstByte (i : ℕ) : GlobalAddress := a.dst.element 1 i

def MemcpyArgs.bytes : ℕ := a.nelem * a.sizeof

/-- The executions of `do_memcpy_locally` on all cores together do what they should. -/
structure CopiesExactly : Prop where
  /-- No check fails. -/
  returns : ∀ c ∈ m.all_cores, ∃ ws, do_memcpy_locally m a.sizeof c a.dst a.src a.nelem = some ws ∧
    ∀ w ∈ ws, (w.transfers m a.sizeof c).isSome = true
  /-- The elements written are those of the destination, each once. -/
  exactly : ((memcpy_writebacks m a).flatMap fun (_, w) =>
      (List.range w.count.toNat).map fun i : ℕ => w.address.element a.sizeof i).Perm
    ((List.range a.nelem).map fun i : ℕ => a.dst.element a.sizeof i)
  /-- A transfer can always go on. -/
  proceeds : ∀ (β : Type) (memory : Core → ℤ → β) (s : MemcpyState β),
    (memcpySystem m a memory).Reachable s → ¬s.Done → ∃ l, (s.next m l).isSome = true
  /-- In the end the destination has the bytes of the source. -/
  copied : ∀ (β : Type) (memory : Core → ℤ → β) (s : MemcpyState β),
    (memcpySystem m a memory).Reachable s → s.Done →
      ∀ i < a.bytes, byteAt m s.memory (a.dstByte i) = byteAt m memory (a.srcByte i)
  /-- At no time has anything else been modified. -/
  frame : ∀ (β : Type) (memory : Core → ℤ → β) (s : MemcpyState β),
    (memcpySystem m a memory).Reachable s →
      ∀ c p, (∀ i < a.bytes, ¬((a.dstByte i).core m = c ∧ (a.dstByte i).pointer m = p)) →
        s.memory c p = memory c p

/-! ### Transfers and bytes -/

section bytes

variable {m a}

theorem MemcpyArgs.exists_nat (a : MemcpyArgs) : ∃ s d : ℕ, a.src = ⟨(s : ℤ)⟩ ∧ a.dst = ⟨(d : ℤ)⟩ ∧
    s + a.bytes ≤ 2 ^ 63 ∧ d + a.bytes ≤ 2 ^ 63 ∧
    (d + a.bytes ≤ s ∨ s + a.bytes ≤ d) := by
  obtain ⟨s, hs⟩ := exists_nat_of_is_linear a.src_linear
  obtain ⟨d, hd⟩ := exists_nat_of_is_linear a.dst_linear
  have hsrc := a.src_in_space.le
  have hdst := a.dst_in_space
  have hover := a.non_overlapping
  rw [hs] at hsrc hover
  rw [hd] at hdst hover
  simp only [raw_bits] at hsrc hdst hover
  refine ⟨s, d, hs, hd, ?_, ?_, ?_⟩
  · exact_mod_cast hsrc
  · exact_mod_cast hdst
  · exact_mod_cast hover

theorem pointer_add_one {s x : ℕ} (h : s % 64 + x < 64) :
    (⟨((s + x : ℕ) : ℤ)⟩ : GlobalAddress).core m = (⟨(s : ℤ)⟩ : GlobalAddress).core m ∧
      (⟨((s + x : ℕ) : ℤ)⟩ : GlobalAddress).pointer m = (⟨(s : ℤ)⟩ : GlobalAddress).pointer m + x := by
  simp only [core_natCast, pointer_natCast, BlockCyclic.owner_add_of_lt (by norm_num : 0 < 64) h,
    BlockCyclic.offset_add_of_lt (by norm_num : 0 < 64) h]
  exact ⟨trivial, by push_cast; ring⟩

/-- A transfer copies the bytes from `lo` on of the source to those of the destination. -/
structure Transfer.Copies (m : Machine) (a : MemcpyArgs) (t : Transfer) (lo : ℕ) : Prop where
  inside : ∀ x < t.args.request_bytes.toNat, lo + x < a.bytes
  src : ∀ x < t.args.request_bytes.toNat, (a.srcByte (lo + x)).core m = t.core ∧
    (a.srcByte (lo + x)).pointer m = t.pointer + x
  dst : ∀ x < t.args.request_bytes.toNat,
    (a.dstByte (lo + x)).core m = t.args.request_address.core m ∧
    (a.dstByte (lo + x)).pointer m = t.args.request_address.pointer m + x

/-- Where the pieces of the source lie. -/
theorem sourcePieces_spec {sizeof s n b0 b1 first last nblock : ℕ}
    (h : SourceLayout sizeof s n b0 b1 first last nblock) (hle : b0 ≤ b1) {p : ℕ × ℕ}
    (hp : p ∈ sourcePieces n b0 b1 first last nblock) :
    0 < p.2 ∧ p.1 + p.2 ≤ n ∧ (s + p.1 * sizeof) % 64 + p.2 * sizeof ≤ 64 := by
  have hn := h.middle hle
  have hfirst := h.first_pos
  have hnb := h.nblock_pos
  have hfm := h.first_mul
  have hlm := h.last_mul
  unfold sourcePieces at hp
  rcases mem_append.mp hp with hp | hp
  · rcases mem_cons.mp hp with rfl | hp
    · refine ⟨hfirst, by omega, ?_⟩
      simp only [zero_mul, add_zero, hfm]
      omega
    · split_ifs at hp with hlast
      · obtain rfl := mem_singleton.mp hp
        have hmul : (n - last) * sizeof + last * sizeof = n * sizeof := by
          rw [← add_mul]
          congr 1
          omega
        refine ⟨hlast, by omega, ?_⟩
        simp only
        omega
      · cases hp
  · obtain ⟨g, hg, rfl⟩ := mem_map.mp hp
    have hg' : g < b1 - b0 := mem_range.mp hg
    have hblock : (g + 1) * nblock ≤ (b1 - b0) * nblock := Nat.mul_le_mul_right _ hg'
    have hsum : s + (first + g * nblock) * sizeof = (s / 64 + 1 + g) * 64 := by
      rw [add_mul, mul_assoc, h.nblock_mul, hfm]
      omega
    refine ⟨hnb, ?_, ?_⟩
    · rw [add_mul] at hblock
      simp only
      omega
    · simp only [hsum, h.nblock_mul, Nat.mul_mod_left]
      omega

/-- The core has the bytes of the piece one behind the other. -/
def MemcpyArgs.Stored (m : Machine) (a : MemcpyArgs) (c : Core) (p : ℕ × ℕ) : Prop :=
  ∀ x < p.2 * a.sizeof, (a.srcByte (p.1 * a.sizeof + x)).core m = c ∧
    (a.srcByte (p.1 * a.sizeof + x)).pointer m = (a.src.element a.sizeof p.1).pointer m + x

/-- **The requests of a write-back** copy its piece. -/
theorem transfers_spec {d : ℕ} (hd : a.dst = ⟨(d : ℤ)⟩) (hspace : d + a.bytes ≤ 2 ^ 63) {p : ℕ × ℕ}
    (hlen : p.1 + p.2 ≤ a.nelem) (hshort : p.2 * a.sizeof ≤ 64) {c : Core} (hc : a.Stored m c p) :
    ∃ ts, (writebackAt m a.sizeof a.dst a.src p).transfers m a.sizeof c = some ts ∧
      (∀ t ∈ ts, ∃ lo, t.Copies m a lo) ∧
      ∀ j, p.1 * a.sizeof ≤ j → j < (p.1 + p.2) * a.sizeof →
        ∃ t ∈ ts, ∃ lo, t.Copies m a lo ∧ lo ≤ j ∧ j < lo + t.args.request_bytes.toNat := by
  have hpos : 0 < a.sizeof := Nat.pos_of_dvd_of_pos a.sizeof_dvd (by norm_num)
  have hmul : (p.1 + p.2) * a.sizeof ≤ a.bytes := Nat.mul_le_mul_right _ hlen
  rw [add_mul] at hmul ⊢
  have hdst : a.dst.element a.sizeof p.1 = ⟨((d + p.1 * a.sizeof : ℕ) : ℤ)⟩ := by
    rw [hd, element_natCast]
  let R : CachedRange := ⟨a.sizeof, a.dst.element a.sizeof p.1, p.2, hpos, by
    rw [hdst, is_linear, is_2D_natCast]
    rfl, by
    have hle : d + p.1 * a.sizeof + p.2 * a.sizeof ≤ 2 ^ 63 := by omega
    rw [hdst]
    simp only [raw_bits]
    exact_mod_cast hle⟩
  have hbytes : R.bytes = p.2 * a.sizeof := rfl
  have hfew : R.blocks < 2 ^ 31 := by
    unfold CachedRange.blocks block_size
    rw [hbytes, show R.request_address = ⟨((d + p.1 * a.sizeof : ℕ) : ℤ)⟩ from hdst]
    simp only [raw_bits]
    omega
  obtain ⟨rs, hrs, -, hcov⟩ := (releaser_sendsAll_iff m R).mpr hfew
  -- a request copies from its offset in the piece on
  have hcopies : ∀ r ∈ rs, Transfer.Copies m a
      ⟨c, (writebackAt m a.sizeof a.dst a.src p).buffer + r.offset, r⟩
        (p.1 * a.sizeof + r.offset.toNat) := by
    intro r hr
    obtain ⟨hoff, hinside, hcore, hpointer⟩ := hcov.isPiece hr
    have hdstByte : ∀ i, R.byte i = a.dstByte (p.1 * a.sizeof + i) := by
      intro i
      apply GlobalAddress.ext
      simp only [CachedRange.byte, MemcpyArgs.dstByte, R, element]
      push_cast
      ring
    refine ⟨?_, ?_, ?_⟩
    · intro x hx
      have := hinside x hx
      omega
    · intro x hx
      obtain ⟨hcore, hpointer⟩ := hc _ (hinside x hx)
      rw [add_assoc, hcore, hpointer]
      refine ⟨rfl, ?_⟩
      simp only [writebackAt]
      push_cast
      omega
    · intro x hx
      rw [add_assoc, ← hdstByte]
      exact ⟨hcore x hx, hpointer x hx⟩
  refine ⟨_, Option.map_eq_some_iff.mpr ⟨rs, hrs, rfl⟩, ?_, ?_⟩
  · intro t ht
    obtain ⟨r, hr, rfl⟩ := mem_map.mp ht
    exact ⟨_, hcopies r hr⟩
  · intro j hlo hhi
    obtain ⟨r, hr, k, hk, hoff⟩ := hcov.exists_piece (show j - p.1 * a.sizeof < R.bytes by omega)
    refine ⟨_, mem_map.mpr ⟨r, hr, rfl⟩, _, hcopies r hr, by omega, ?_⟩
    show j < p.1 * a.sizeof + r.offset.toNat + r.request_bytes.toNat
    omega

theorem place_injective {x y : ℕ}
    (hcore : (⟨(x : ℤ)⟩ : GlobalAddress).core m = (⟨(y : ℤ)⟩ : GlobalAddress).core m)
    (hpointer : (⟨(x : ℤ)⟩ : GlobalAddress).pointer m = (⟨(y : ℤ)⟩ : GlobalAddress).pointer m) : x = y := by
  simp only [core_natCast, pointer_natCast, Nat.cast_inj, add_left_inj] at hcore hpointer
  exact BlockCyclic.owner_offset_injective (by norm_num) hcore hpointer

theorem dstByte_injective {i j : ℕ} (hcore : (a.dstByte i).core m = (a.dstByte j).core m)
    (hpointer : (a.dstByte i).pointer m = (a.dstByte j).pointer m) : i = j := by
  obtain ⟨s, d, -, hd, -⟩ := a.exists_nat
  simp only [MemcpyArgs.dstByte, hd, element_natCast] at hcore hpointer
  have := place_injective hcore hpointer
  omega

theorem srcByte_ne_dstByte {i j : ℕ} (hi : i < a.bytes) (hj : j < a.bytes) :
    ¬((a.dstByte j).core m = (a.srcByte i).core m ∧ (a.dstByte j).pointer m = (a.srcByte i).pointer m) := by
  rintro ⟨hcore, hpointer⟩
  obtain ⟨s, d, hs, hd, -, -, hover⟩ := a.exists_nat
  simp only [MemcpyArgs.dstByte, MemcpyArgs.srcByte, hd, hs, element_natCast] at hcore hpointer
  have := place_injective hcore hpointer
  omega

end bytes

/-! ### The transfers as copies -/

section invariant

variable {m a} {β : Type} {memory : Core → ℤ → β} {ts : List Transfer} {s s' : MemcpyState β}

/-- The transfers copy the range. -/
structure CopyRange (m : Machine) (a : MemcpyArgs) (ts : List Transfer) : Prop where
  copies : ∀ t ∈ ts, ∃ lo, t.Copies m a lo
  covers : ∀ j < a.bytes, ∃ t ∈ ts, ∃ lo, t.Copies m a lo ∧ lo ≤ j ∧
    j < lo + t.args.request_bytes.toNat

/-- A byte of the source, and where it goes. -/
def MemcpyArgs.plan (a : MemcpyArgs) (m : Machine) : Copies.Plan Core where
  n := a.bytes
  src i := ((a.srcByte i).core m, (a.srcByte i).pointer m)
  dst i := ((a.dstByte i).core m, (a.dstByte i).pointer m)
  injective _ _ _ _ heq := dstByte_injective (congrArg Prod.fst heq) (congrArg Prod.snd heq)
  apart _ hi _ hj heq :=
    srcByte_ne_dstByte hi hj ⟨(congrArg Prod.fst heq).symm, (congrArg Prod.snd heq).symm⟩

def Transfer.copy (m : Machine) (t : Transfer) : Copies.Copy Unit Core :=
  ⟨(), t.core, t.pointer, t.args.request_address.core m, t.args.request_address.pointer m,
    t.args.request_bytes.toNat⟩

theorem Transfer.Copies.moves {t : Transfer} {lo : ℕ} (h : t.Copies m a lo) :
    (a.plan m).Moves (t.copy m) lo :=
  fun x hx => ⟨h.inside x hx, Prod.ext_iff.mpr (h.src x hx), Prod.ext_iff.mpr (h.dst x hx)⟩

def MemcpyState.copies (m : Machine) (s : MemcpyState β) : Copies.State Unit Core β where
  stages i := (s.stages i).map fun x => ⟨x.transfer.copy m, x.payload⟩
  memory := s.memory

/-- **A step of a transfer** is one of its copy. -/
theorem MemcpyState.next_copies {l : ℕ × ℕ} (h : s.next m l = some s') :
    Copies.next (s.copies m) l = some (s'.copies m) := by
  match l with
  | (0, k) | (1, k) =>
    obtain ⟨x, hx, rfl⟩ := Option.map_eq_some_iff.mp h
    simp only [Copies.next, MemcpyState.copies, getElem?_map, hx, Option.map_some, map_shift]
    rfl
  | (_ + 2, _) => cases h

theorem reachable_copies (hs : (memcpySystem m a memory).Reachable s) :
    (Copies.system ((memcpy_transfers m a).map (Transfer.copy m)) memory).Reachable (s.copies m) := by
  apply hs.invariant fun s =>
    (Copies.system ((memcpy_transfers m a).map (Transfer.copy m)) memory).Reachable (s.copies m)
  · refine ⟨[], congrArg some ?_⟩
    show Copies.State.mk _ memory = Copies.State.mk _ memory
    congr 1
    funext i
    simp only [memcpySystem, update_apply]
    split_ifs <;> simp [comp_def]
  · intro t l t' ht hstep
    exact ht.next (MemcpyState.next_copies hstep)

theorem CopyRange.inv (hts : CopyRange m a (memcpy_transfers m a))
    (hs : (memcpySystem m a memory).Reachable s) :
    Copies.Inv (a.plan m) ((memcpy_transfers m a).map (Transfer.copy m)) memory (s.copies m) := by
  refine Copies.reachable_inv (fun c hc => ?_) (reachable_copies hs)
  obtain ⟨t, ht, rfl⟩ := mem_map.mp hc
  obtain ⟨lo, hcop⟩ := hts.copies t ht
  exact ⟨lo, hcop.moves⟩

theorem CopyRange.copied (hts : CopyRange m a (memcpy_transfers m a))
    (hs : (memcpySystem m a memory).Reachable s) (hdone : s.Done) {i : ℕ} (hi : i < a.bytes) :
    byteAt m s.memory (a.dstByte i) = byteAt m memory (a.srcByte i) := by
  obtain ⟨t, ht, lo, hcop, hlo, hhi⟩ := hts.covers i hi
  have hcopied := (hts.inv hs).copied (mem_map_of_mem ht) hcop.moves (k := i - lo)
    (show i - lo < t.args.request_bytes.toNat by omega)
    (by simp [MemcpyState.copies, hdone.1, hdone.2])
  rwa [Nat.add_sub_cancel' hlo] at hcopied

theorem CopyRange.frame (hts : CopyRange m a (memcpy_transfers m a))
    (hs : (memcpySystem m a memory).Reachable s) {c : Core} {p : ℤ}
    (hout : ∀ i < a.bytes, ¬((a.dstByte i).core m = c ∧ (a.dstByte i).pointer m = p)) :
    s.memory c p = memory c p := by
  apply (hts.inv hs).frame (q := (c, p))
  intro d _ lo hmoves k hk heq
  exact hout _ (hmoves k hk).1 (Prod.ext_iff.mp heq)

end invariant

/-! ### When the copy is exact -/

section exact

variable {m : Machine} {a : MemcpyArgs}

theorem core_mem_all_cores (x : ℕ) : (⟨(x : ℤ)⟩ : GlobalAddress).core m ∈ m.all_cores := by
  rw [core_natCast]
  exact mem_map.mpr ⟨_, mem_range.mpr (BlockCyclic.owner_lt m.cores_pos x), rfl⟩

theorem mem_writebacks {c : ℕ} (hc : c < m.cores) {ws : List Writeback} {w : Writeback}
    (hws : do_memcpy_locally m a.sizeof c a.dst a.src a.nelem = some ws) (hw : w ∈ ws) :
    ((c : Core), w) ∈ memcpy_writebacks m a := by
  refine mem_flatMap.mpr ⟨_, mem_map_of_mem (mem_range.mpr hc), mem_map.mpr ⟨w, ?_, rfl⟩⟩
  rw [hws]
  exact hw

/-- The core of the source writes back what it has in the first block, whatever there is to copy. -/
theorem CopiesExactly.reaches (h : CopiesExactly m a) (hpos : 0 < nfirstcore m a.sizeof a.src)
    (hne : nlastcore m a.sizeof a.src a.nelem ≠ block_size / a.sizeof) :
    nfirstcore m a.sizeof a.src ≤ a.nelem := by
  obtain ⟨s, -, hs, -⟩ := a.exists_nat
  have hmem : a.src.core m ∈ m.all_cores := hs ▸ core_mem_all_cores s
  obtain ⟨ws, hws, -⟩ := h.returns _ hmem
  obtain ⟨w, hw, hcount⟩ : ∃ w ∈ ws, w.count = nfirstcore m a.sizeof a.src := by
    have heq := hws
    simp only [do_memcpy_locally, memcpy_first, if_pos (And.intro trivial (And.intro hpos hne))] at heq
    split_ifs at heq
    obtain ⟨⟨last, src_end⟩, -, hblocks⟩ := Option.bind_eq_some_iff.mp heq
    obtain ⟨blocks, -, rfl⟩ := Option.map_eq_some_iff.mp hblocks
    exact ⟨_, mem_cons_self, rfl⟩
  have hlen := h.exactly.length_eq
  rw [length_map, length_range, length_flatMap] at hlen
  rw [← hcount, ← Int.toNat_le, ← hlen]
  apply le_sum_of_mem
  refine mem_map.mpr ⟨(a.src.core m, w), mem_flatMap.mpr ⟨_, hmem, mem_map.mpr ⟨w, ?_, rfl⟩⟩, by simp⟩
  rw [hws]
  exact hw

theorem flatMap_chunks (start size k : ℕ) :
    ((List.range k).flatMap fun g => List.range' (start + g * size) size) =
      List.range' start (k * size) := by
  induction k with
  | zero => simp
  | succ k ih =>
    rw [range_succ, flatMap_append, ih, flatMap_singleton, range'_append_1,
      Nat.succ_mul]

theorem sourcePieces_perm {sizeof s n b0 b1 first last nblock : ℕ}
    (h : SourceLayout sizeof s n b0 b1 first last nblock) (hle : b0 ≤ b1) :
    ((sourcePieces n b0 b1 first last nblock).flatMap fun p => List.range' p.1 p.2).Perm
      (List.range n) := by
  have hn := h.middle hle
  have hblocks : (((range (b1 - b0)).map fun g => (first + g * nblock, nblock)).flatMap
      fun p : ℕ × ℕ => range' p.1 p.2) = range' first ((b1 - b0) * nblock) := by
    rw [flatMap_map]
    exact flatMap_chunks first nblock (b1 - b0)
  have hlast : ((if 0 < last then [(n - last, last)] else []).flatMap
      fun p : ℕ × ℕ => range' p.1 p.2) = range' (first + (b1 - b0) * nblock) last := by
    split_ifs with hpos
    · rw [flatMap_singleton]
      congr 1
      omega
    · simp [show last = 0 by omega]
  rw [sourcePieces, flatMap_append, flatMap_cons, hblocks, hlast, append_assoc]
  calc (range' 0 first ++ (range' (first + (b1 - b0) * nblock) last ++
          range' first ((b1 - b0) * nblock))).Perm _ := perm_append_comm.append_left _
    _ = range n := by
      rw [range'_append_1, range_eq_range', hn]
      have := range'_append_1 (s := 0) (m := first) (n := (b1 - b0) * nblock + last)
      rw [zero_add] at this
      rw [this, add_assoc]

/-- Together the cores write back these pieces, each from where it is stored. -/
structure Writes (m : Machine) (a : MemcpyArgs) (ps : List (ℕ × ℕ)) : Prop where
  locally : ∀ c < m.cores, do_memcpy_locally m a.sizeof c a.dst a.src a.nelem =
    some ((ps.filter (storedBy m a.sizeof a.src c)).map (writebackAt m a.sizeof a.dst a.src))
  perm : (ps.flatMap fun p => range' p.1 p.2).Perm (range a.nelem)
  inside : ∀ p ∈ ps, p.1 + p.2 ≤ a.nelem
  short : ∀ p ∈ ps, p.2 * a.sizeof ≤ 64
  stored : ∀ p ∈ ps, a.Stored m ((a.src.element a.sizeof p.1).core m) p

variable {ps : List (ℕ × ℕ)}

theorem Writes.writebacks (h : Writes m a ps) : (memcpy_writebacks m a).Perm (ps.map fun p =>
    ((a.src.element a.sizeof p.1).core m, writebackAt m a.sizeof a.dst a.src p)) := by
  have hnodup : m.all_cores.Nodup := nodup_range.map fun x y hxy => by simpa using hxy
  refine List.Perm.trans (List.Perm.of_eq (flatMap_congr fun c hc => ?_))
    (Distribute.flatMap_filter_perm m.all_cores hnodup (fun p : ℕ × ℕ => (a.src.element a.sizeof p.1).core m)
      _ _ ?_)
  · obtain ⟨k, hk, rfl⟩ := mem_map.mp hc
    rw [h.locally k (mem_range.mp hk), Option.getD_some, map_map]
    apply map_congr_left
    intro p hp
    have hcore := of_decide_eq_true (mem_filter.mp hp).2
    simp only [comp_apply, hcore]
  · intro p _
    obtain ⟨s, -, hs, -⟩ := a.exists_nat
    simp only [hs, element_natCast]
    exact core_mem_all_cores _

theorem Writes.copyRange (h : Writes m a ps) : CopyRange m a (memcpy_transfers m a) := by
  obtain ⟨-, d, -, hd, -, hdst, -⟩ := a.exists_nat
  have hpiece : ∀ p ∈ ps, _ := fun p hp =>
    transfers_spec (m := m) hd hdst (h.inside p hp) (h.short p hp) (h.stored p hp)
  constructor
  · intro t ht
    obtain ⟨⟨c, w⟩, hw, ht⟩ := mem_flatMap.mp ht
    obtain ⟨p, hp, heq⟩ := mem_map.mp (h.writebacks.mem_iff.mp hw)
    cases heq
    obtain ⟨ts, hts, hcopies, -⟩ := hpiece p hp
    simp only [hts, Option.getD_some] at ht
    exact hcopies t ht
  · intro j hj
    -- the piece with the element that the byte belongs to
    have hpos : 0 < a.sizeof := Nat.pos_of_dvd_of_pos a.sizeof_dvd (by norm_num)
    have hdiv : j / a.sizeof < a.nelem := Nat.div_lt_of_lt_mul (by rw [mul_comm]; exact hj)
    have hmem := h.perm.mem_iff.mpr (mem_range.mpr hdiv)
    obtain ⟨p, hp, hx⟩ := mem_flatMap.mp hmem
    obtain ⟨hlo, hhi⟩ := mem_range'_1.mp hx
    obtain ⟨ts, hts, -, hcovers⟩ := hpiece p hp
    obtain ⟨t, ht, hcop⟩ := hcovers j ((Nat.le_div_iff_mul_le hpos).mp hlo)
      ((Nat.div_lt_iff_lt_mul hpos).mp hhi)
    refine ⟨t, mem_flatMap.mpr ⟨_, h.writebacks.mem_iff.mpr (mem_map.mpr ⟨p, hp, rfl⟩), ?_⟩, hcop⟩
    simp only [hts, Option.getD_some]
    exact ht

theorem exists_next {β : Type} {s : MemcpyState β} (hnot : ¬s.Done) :
    ∃ l, (s.next m l).isSome = true := by
  by_cases h0 : s.stages 0 = []
  · have h1 : s.stages 1 ≠ [] := fun h1 => hnot ⟨h0, h1⟩
    obtain ⟨x, l, hl⟩ := exists_cons_of_ne_nil h1
    exact ⟨(1, 0), by simp [MemcpyState.next, hl]⟩
  · obtain ⟨x, l, hl⟩ := exists_cons_of_ne_nil h0
    exact ⟨(0, 0), by simp [MemcpyState.next, hl]⟩

theorem Writes.copiesExactly (h : Writes m a ps) : CopiesExactly m a := by
  obtain ⟨-, d, -, hd, -, hdst, -⟩ := a.exists_nat
  constructor
  · intro c hc
    obtain ⟨k, hk, rfl⟩ := mem_map.mp hc
    refine ⟨_, h.locally k (mem_range.mp hk), ?_⟩
    intro w hw
    obtain ⟨p, hp, rfl⟩ := mem_map.mp hw
    obtain ⟨hmem, hcore⟩ := mem_filter.mp hp
    obtain ⟨ts, hts, -⟩ := transfers_spec (m := m) hd hdst (h.inside p hmem) (h.short p hmem)
      (of_decide_eq_true hcore ▸ h.stored p hmem)
    rw [hts]
    rfl
  · refine (h.writebacks.flatMap_right _).trans ?_
    rw [flatMap_map]
    have helems := h.perm.map fun i : ℕ => a.dst.element a.sizeof i
    rw [map_flatMap] at helems
    refine List.Perm.trans (List.Perm.of_eq (flatMap_congr fun p _ => ?_)) helems
    simp only [writebackAt, Int.toNat_natCast]
    rw [range'_eq_map_range, map_map]
    apply map_congr_left
    intro i _
    apply GlobalAddress.ext
    simp only [comp_apply, element]
    push_cast
    ring
  · exact fun _ _ _ _ hnot => exists_next hnot
  · exact fun _ _ _ hs hdone _ hi => h.copyRange.copied hs hdone hi
  · exact fun _ _ _ hs _ _ hout => h.copyRange.frame hs hout

/-- A source that is a multiple of the size, and reaches the end of its first block. -/
theorem writes_of_reaches (haligned : (a.sizeof : ℤ) ∣ a.src.raw_bits)
    (hreach : (a.src.block_max m a.sizeof).sub a.sizeof a.src ≤ a.nelem) :
    ∃ ps, Writes m a ps := by
  obtain ⟨s, -, hs, -, hsrc, -⟩ := a.exists_nat
  have halign : a.sizeof ∣ s := by
    rw [hs] at haligned
    exact Int.natCast_dvd_natCast.mp haligned
  have h := exists_layout a.sizeof_dvd halign a.nelem
  have hfirst := h.nfirstcore_eq a.sizeof_dvd halign m
  unfold nfirstcore at hfirst
  rw [hs, hfirst] at hreach
  have hle := h.le_iff.mp (by exact_mod_cast hreach)
  have hspec := fun p hp => sourcePieces_spec h hle (p := p) hp
  refine ⟨_, fun c hc => hs ▸ do_memcpy_locally_eq h a.sizeof_dvd halign hsrc hle hc,
    sourcePieces_perm h hle, fun p hp => (hspec p hp).2.1, fun p hp => ?_, fun p hp x hx => ?_⟩
  · have := (hspec p hp).2.2
    omega
  · have := (hspec p hp).2.2
    simp only [MemcpyArgs.srcByte, hs, element_natCast, mul_one, ← add_assoc]
    exact pointer_add_one (by omega)

/-- One core has all elements one behind the other. -/
theorem writes_one_core (hone : m.cores = 1) (h64 : a.sizeof = 64)
    (hsrc : ¬(a.sizeof : ℤ) ∣ a.src.raw_bits) (hn : 0 < a.nelem) :
    Writes m a ((range a.nelem).map fun i => (i, 1)) := by
  obtain ⟨s, d, hs, hd, hspace, -⟩ := a.exists_nat
  rw [MemcpyArgs.bytes, h64] at hspace
  rw [hs, h64] at hsrc
  have halign : ¬64 ∣ s := fun hdvd => hsrc (Int.natCast_dvd_natCast.mpr hdvd)
  have howner : ∀ x, owner 64 m.cores x = 0 := fun x => by rw [owner, hone, Nat.mod_one]
  have hoffset : ∀ x, offset 64 m.cores x = x := fun x => by
    rw [offset, hone, Nat.div_one]
    omega
  have hposition : ∀ x, position 64 m.cores 0 x = x := fun x => by
    rw [position, hone]
    omega
  have hlower : ∀ x, lower 64 m.cores x 0 = x := fun x => by
    rw [← howner x, lower_owner, hoffset]
  have hplace : ∀ i, (⟨(i : ℕ)⟩ : GlobalAddress).pointer m = i + m.global_memory_chunk_base := fun i => by
    rw [pointer_natCast, hoffset]
  refine ⟨fun c hc => ?_, ?_, ?_, ?_, ?_⟩
  · obtain rfl : c = 0 := by omega
    obtain ⟨k, hk⟩ : ∃ k, a.nelem = k + 1 := ⟨a.nelem - 1, by omega⟩
    refine (do_memcpy_locally_straddling h64 hs halign hn hspace hc (by rw [howner, if_pos rfl]) (hlower _)
      (k := k) (by rw [hlower]; omega)).trans (congrArg some ?_)
    rw [howner, if_pos rfl, hs, h64, filter_eq_self.mpr fun p _ => (storedBy_natCast s 0 p).trans (decide_eq_true (howner _)),
      hk, range_succ_eq_map, map_cons, map_cons, map_map, map_map]
    refine congrArg _ (map_congr_left fun i hi => ?_)
    have hik := mem_range.mp hi
    rw [hposition, sub_natCast (by omega) (by omega), show (s + 64 + i * 64 - s) / 64 = i + 1 by omega]
    have hbytes : s + 64 + i * 64 = s + (i + 1) * 64 := by omega
    simp only [comp_apply, writebackAt, element_natCast, hplace, hbytes, Nat.succ_eq_add_one,
      Nat.cast_one]
  · rw [flatMap_map]
    simp only [range'_one, flatMap_singleton']
    exact .refl _
  all_goals
    intro p hp
    obtain ⟨i, hi, rfl⟩ := mem_map.mp hp
    have hin := mem_range.mp hi
  · exact hin
  · omega
  · intro x _
    simp only [MemcpyArgs.srcByte, hs, element_natCast, core_natCast, howner, hplace]
    refine ⟨trivial, ?_⟩
    push_cast
    ring

theorem exists_done {β : Type} (memory : Core → ℤ → β) :
    ∃ s, (memcpySystem m a memory).Reachable s ∧ s.Done := by
  have hend : (memcpySystem m a memory).Terminates (memcpySystem m a memory).init :=
    System.terminates_of_measure (fun _ => True) (fun s => Copies.rank (s.copies m))
      (fun _ _ _ _ hstep => ⟨trivial, Copies.next_rank (MemcpyState.next_copies hstep)⟩) trivial
  obtain ⟨ls, s, hrun, hstuck⟩ := hend.exists_end
  refine ⟨s, ⟨ls, hrun⟩, ?_⟩
  by_contra hnot
  obtain ⟨l, hl⟩ := exists_next (m := m) hnot
  rw [show s.next m l = none from hstuck l] at hl
  cases hl

/-- A core that writes nothing back stores no byte of the source. -/
theorem not_exact_of_nil {c : Core} (hnil : do_memcpy_locally m a.sizeof c a.dst a.src a.nelem = some [])
    {i : ℕ} (hi : i < a.bytes) (hcore : (a.srcByte i).core m = c) : ¬CopiesExactly m a := by
  intro h
  have hunread : ∀ d ∈ (memcpy_transfers m a).map (Transfer.copy m), d.from_core ≠ c := by
    rintro d hd rfl
    obtain ⟨t, ht, rfl⟩ := mem_map.mp hd
    obtain ⟨⟨c, w⟩, hw, ht⟩ := mem_flatMap.mp ht
    have hc : t.core = c := by
      unfold Writeback.transfers at ht
      cases hrs : do_release m a.sizeof w.address w.count.toNat with
      | none => simp [hrs] at ht
      | some rs =>
        simp only [hrs, Option.map_some, Option.getD_some] at ht
        obtain ⟨r, -, rfl⟩ := mem_map.mp ht
        rfl
    obtain ⟨c', -, hw⟩ := mem_flatMap.mp hw
    obtain ⟨w, hw, heq⟩ := mem_map.mp hw
    cases heq
    rw [← hc, show t.core = (t.copy m).from_core from rfl, hnil] at hw
    exact not_mem_nil hw
  -- only this byte is marked, and nobody reads it
  let memory : Core → ℤ → Bool := fun c' p => decide ((c', p) = (c, (a.srcByte i).pointer m))
  obtain ⟨s, hs, hdone⟩ := exists_done (m := m) (a := a) memory
  have htrue : byteAt m memory (a.srcByte i) = true := decide_eq_true (by rw [hcore])
  have hplace := Copies.unread hunread (fun _ => of_decide_eq_true) (reachable_copies hs) (_, _)
    ((h.copied Bool memory s hs hdone i hi).trans htrue)
  exact srcByte_ne_dstByte hi hi ((Prod.ext_iff.mp hplace).imp (·.trans hcore.symm) id)

/-- On several cores the bytes of an element that lies in two blocks come from the wrong core, or
    another core writes back another block in its place. -/
theorem not_exact_of_straddling (hcores : m.cores ≠ 1) (h64 : a.sizeof = 64)
    (hsrc : ¬(a.sizeof : ℤ) ∣ a.src.raw_bits) (hn : 0 < a.nelem) : ¬CopiesExactly m a := by
  intro h
  obtain ⟨s, d, hs, hd, hspace, -⟩ := a.exists_nat
  have hbytes := hspace
  rw [MemcpyArgs.bytes, h64] at hspace
  rw [hs, h64] at hsrc
  have halign : ¬64 ∣ s := fun hdvd => hsrc (Int.natCast_dvd_natCast.mpr hdvd)
  -- the core of the second block of the first element
  obtain ⟨c, hc⟩ : ∃ c, c = owner 64 m.cores ((s / 64 + 1) * 64) := ⟨_, rfl⟩
  have hlt : c < m.cores := hc ▸ owner_lt m.cores_pos _
  have hne : owner 64 m.cores s ≠ c := by
    rw [hc, owner, owner, Nat.mul_div_cancel _ (by norm_num)]
    intro heq
    have hdvd := Nat.dvd_of_mod_eq_zero (Nat.sub_mod_eq_zero_of_mod_eq heq.symm)
    rw [Nat.add_sub_cancel_left] at hdvd
    exact hcores (Nat.dvd_one.mp hdvd)
  obtain ⟨lo, hlo⟩ : ∃ lo, lo = offset 64 m.cores ((s / 64 + 1) * 64) := ⟨_, rfl⟩
  have hblock : lower 64 m.cores ((s / 64 + 1) * 64) c = lo := by rw [hc, lower_owner, hlo]
  have hstart := lower_start (m := m) hlt s
  rw [if_neg hne, hblock] at hstart
  have hlocal := @do_memcpy_locally_straddling m s a.nelem a.dst _ _ h64 hs halign hn hspace c s lo _ hlt
    (if_neg hne).symm hstart rfl
  rw [if_neg hne, nil_append] at hlocal
  have hend := lower_le_add (by norm_num : 0 < 64) hlt ((s / 64 + 1) * 64)
  rcases Nat.eq_or_lt_of_le hn with hone | htwo
  · -- there is one element, and its second block is left out
    have hcount : (lower 64 m.cores (s + a.nelem * 64) c - lo) / 64 = 0 := by
      rw [← hone, show s + 1 * 64 = (s / 64 + 1) * 64 + s % 64 by omega]
      have := (hend (s % 64)).2
      exact Nat.div_eq_of_lt (by omega)
    rw [hcount] at hlocal
    refine not_exact_of_nil (i := 64 - s % 64) hlocal ?_ ?_ h
    · rw [MemcpyArgs.bytes, h64]
      omega
    · rw [MemcpyArgs.srcByte, hs, element_natCast, core_natCast, hc,
        show s + (64 - s % 64) * 1 = (s / 64 + 1) * 64 by omega]
  · -- the first element is written twice
    have hnext := @lower_add 64 m.cores (by norm_num) c hlt ((s / 64 + 1) * 64) 64 (by omega)
    have hmono := (lower_le_add (by norm_num : 0 < 64) hlt ((s / 64 + 1) * 64 + 64)
      (s + a.nelem * 64 - ((s / 64 + 1) * 64 + 64))).1
    rw [Nat.add_sub_cancel' (by omega), hnext, if_pos hc.symm, hblock] at hmono
    have hcount : 0 < (lower 64 m.cores (s + a.nelem * 64) c - lo) / 64 :=
      Nat.div_pos (by omega) (by norm_num)
    have hzero : (⟨(position 64 m.cores c (lo + 0 * 64) : ℕ)⟩ : GlobalAddress).sub a.sizeof a.src = 0 := by
      rw [h64, hs, zero_mul, add_zero, hlo, hc, position_owner_offset (by norm_num),
        sub_natCast (by omega) (by omega), Nat.div_eq_of_lt (by omega), Nat.cast_zero]
    have hfirst := @do_memcpy_locally_straddling m s a.nelem a.dst _ _ h64 hs halign hn hspace _ _ _ _
      (owner_lt (B := 64) m.cores_pos s) rfl rfl rfl
    rw [if_pos rfl] at hfirst
    have hmem := mem_writebacks hlt hlocal (mem_map_of_mem (mem_range.mpr hcount))
    have hmem' := mem_writebacks (owner_lt (B := 64) m.cores_pos s) hfirst (mem_append_left _ mem_cons_self)
    have hnodup : ((range a.nelem).map fun i : ℕ => a.dst.element a.sizeof i).Nodup := by
      refine nodup_range.map fun i j hij => ?_
      simp only [hd, h64, element_natCast, GlobalAddress.mk.injEq] at hij
      omega
    have hpair := (nodup_flatMap.mp (h.exactly.nodup_iff.mpr hnodup)).2
    have : Std.Symm (List.Disjoint on fun (x : Core × Writeback) =>
      (range x.2.count.toNat).map fun i : ℕ => x.2.address.element a.sizeof i) := ⟨fun _ _ hxy => hxy.symm⟩
    have hdisjoint := hpair.forall hmem hmem' fun heq =>
      hne (Int.ofNat_inj.mp (congrArg Prod.fst heq)).symm
    apply @hdisjoint (a.dst.element a.sizeof 0)
    · exact mem_map.mpr ⟨0, by simp, by rw [hzero]; simp [element]⟩
    · exact mem_map.mpr ⟨0, by simp [writebackAt], by simp [writebackAt, element]⟩

/-- Three of the eight integers of a block. -/
def threeOfEight : MemcpyArgs :=
  ⟨8, ⟨64⟩, ⟨0⟩, 3, by decide, by decide, is_linear_zero, by norm_num [raw_bits],
    by norm_num [raw_bits], by norm_num [raw_bits]⟩

end exact

end Grappa
