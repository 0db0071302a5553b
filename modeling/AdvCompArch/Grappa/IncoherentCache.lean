import AdvCompArch.Lib.Cuts
import AdvCompArch.Grappa.Addressing

/-! # Requests of the incoherent caches

    A cache holds a local copy of `count` objects from a global address on.  The acquirer
    fetches the copy, the releaser writes it back.  Both send one request for each block
    that the range touches and count the replies; `reset` computes in advance how many
    there will be.  The two differ in the type of the running offset: a `size_t` in the
    releaser, an `int` in the acquirer.

    The main results are `requests_to_end`, for a loop whose offset never wraps, and
    `exists_requests`, which says where the loop stops if it does. -/

namespace Grappa

namespace GlobalAddress

/-- Global byte address of the first byte of this object. -/
def first_byte (a : GlobalAddress) : GlobalAddress := Raw a.raw_bits

/-- Global byte address of the last byte of this object. -/
def last_byte (sizeof : ℕ) (a : GlobalAddress) : GlobalAddress := Raw (a.raw_bits + sizeof - 1)

/-- How many bytes different are `t` and `u`?  The overload of `-` for `char`. -/
def byte_sub (t u : GlobalAddress) : ℤ := t.raw_bits - u.raw_bits

end GlobalAddress

/-- Conversion to `size_t`. -/
def as_size_t (z : ℤ) : ℤ := z % 2 ^ 64

/-- Conversion to `int`. -/
def as_int (z : ℤ) : ℤ := Int.bmod z (2 ^ 32)

namespace Incoherent

open GlobalAddress List

/-- `IncoherentAcquirer` and `IncoherentReleaser`. -/
inductive Behavior
  | acquirer
  | releaser
  deriving DecidableEq

/-- The type of `offset`: `int` in the acquirer's `RequestArgs`, `size_t` in `do_release`. -/
def Behavior.offset_type : Behavior → ℤ → ℤ
  | .acquirer => as_int
  | .releaser => as_size_t

/-- One request.  The reply address is always the cache object itself. -/
structure RequestArgs where
  request_address : GlobalAddress
  request_bytes : ℤ
  offset : ℤ
  deriving DecidableEq

variable (m : Machine)

/-- The loop of `do_acquire` and `do_release`, from a request address and an offset on; `none`
    if it does not stop within the fuel. -/
def send_loop (b : Behavior) (total_bytes : ℤ) : ℕ → GlobalAddress → ℤ → Option (List RequestArgs)
  | 0, _, _ => none
  | fuel + 1, request_address, offset =>
    -- the offset is converted to `size_t` to compare it
    if as_size_t offset < total_bytes then
      let block_bytes :=
        as_size_t ((request_address.first_byte.block_max m 1).byte_sub request_address.first_byte)
      let request_bytes := min block_bytes (as_size_t (total_bytes - as_size_t offset))
      (send_loop b total_bytes fuel (Raw (request_address.raw_bits + request_bytes))
        (b.offset_type (as_size_t offset + request_bytes))).map
          (⟨request_address, request_bytes, offset⟩ :: ·)
    else some []

/-- The requests of `do_acquire` resp. `do_release`.  `nmsg` is what `start_acquire` and
    `start_release` compute to have "enough requests/messages that we don't run out". -/
def do_requests (b : Behavior) (sizeof : ℕ) (request_address : GlobalAddress) (count : ℕ) :
    Option (List RequestArgs) :=
  let total_bytes := as_size_t (count * sizeof)
  let nmsg := total_bytes / block_size + 2
  send_loop m b total_bytes (nmsg.toNat + 1) request_address 0

def do_acquire : ℕ → GlobalAddress → ℕ → Option (List RequestArgs) := do_requests m .acquirer

def do_release : ℕ → GlobalAddress → ℕ → Option (List RequestArgs) := do_requests m .releaser

/-- What `reset` leaves in `num_messages_`. -/
def num_messages (sizeof : ℕ) (request_address : GlobalAddress) (count : ℕ) : ℤ :=
  if count = 0 then 0
  else if request_address.is_2D then 1
  else
    let last := (request_address.add sizeof count).add sizeof (-1)
    let byte_diff := ((last.last_byte sizeof).block_max m 1).byte_sub
      (request_address.first_byte.block_min m)
    as_int (byte_diff.tdiv block_size)

/-- A range of objects that have linear addresses. -/
structure CachedRange where
  sizeof : ℕ
  request_address : GlobalAddress
  count : ℕ
  sizeof_pos : 0 < sizeof
  is_linear : request_address.is_linear = true
  /-- Linear addresses are the nonnegative ones. -/
  in_space : request_address.raw_bits + count * sizeof ≤ 2 ^ 63

/-- The number of bytes of the cached object. -/
def CachedRange.bytes (R : CachedRange) : ℕ := R.count * R.sizeof

/-- The offset of the first byte of the last block that the range touches. -/
def CachedRange.last_offset (R : CachedRange) : ℤ :=
  (R.request_address.raw_bits + R.bytes - 1) / block_size * block_size - R.request_address.raw_bits

/-- The number of blocks that the range touches. -/
def CachedRange.blocks (R : CachedRange) : ℤ :=
  (R.request_address.raw_bits + R.bytes - 1) / block_size -
    R.request_address.raw_bits / block_size + 1

/-! ### The loop -/

section loop

variable {m : Machine}

theorem as_size_t_natCast {n : ℕ} (h : n < 2 ^ 64) : as_size_t n = n := by
  unfold as_size_t
  rw [Int.emod_eq_of_lt (by omega) (by norm_num at h ⊢; omega)]

theorem as_int_natCast {n : ℕ} (h : n < 2 ^ 31) : as_int n = n := by
  unfold as_int
  norm_num at h
  exact Int.bmod_eq_of_le_mul_two (by norm_num; omega) (by norm_num; omega)

/-- From `2^31` on the offset is negative, and far beyond the end as a `size_t`. -/
theorem as_size_t_as_int {n : ℕ} (hlo : 2 ^ 31 ≤ n) (hhi : n < 2 ^ 31 + 64) :
    2 ^ 63 ≤ as_size_t (as_int n) := by
  have hneg : as_int n = n - 2 ^ 32 := by
    unfold as_int Int.bmod
    norm_num at hlo hhi ⊢
    omega
  rw [hneg]
  unfold as_size_t
  norm_num at hlo hhi ⊢
  omega

theorem block_max_byte (a : ℕ) :
    (((⟨(a : ℤ)⟩ : GlobalAddress).first_byte.block_max m 1).byte_sub
      (⟨(a : ℤ)⟩ : GlobalAddress).first_byte) = ((64 - a % 64 : ℕ) : ℤ) := by
  simp only [first_byte, Raw, raw_bits, block_max, is_2D_natCast, Bool.false_eq_true, if_false,
    byte_sub, block_size]
  omega

/-- The request for the piece `p` of a range from byte `s` on. -/
def requestAt (s : ℕ) (p : ℕ × ℕ) : RequestArgs := ⟨⟨((s + p.1 : ℕ) : ℤ)⟩, p.2, p.1⟩

variable {b : Behavior} {s n : ℕ}

/-- One turn of the loop, at an offset that the loop has as it is. -/
theorem send_loop_step (hn : n ≤ 2 ^ 63) {lo : ℕ} (hlo : lo < n) (fuel : ℕ) :
    send_loop m b n (fuel + 1) ⟨((s + lo : ℕ) : ℤ)⟩ lo =
      (send_loop m b n fuel ⟨((s + (lo + Cuts.piece 64 s n lo) : ℕ) : ℤ)⟩
        (b.offset_type ((lo + Cuts.piece 64 s n lo : ℕ) : ℤ))).map
          (requestAt s (lo, Cuts.piece 64 s n lo) :: ·) := by
  have hlo' : as_size_t (lo : ℤ) = lo := as_size_t_natCast (by omega)
  have hlt : as_size_t (lo : ℤ) < n := by rw [hlo']; omega
  have hblock := block_max_byte (m := m) (s + lo)
  have hmod : (s + lo) % 64 < 64 := Nat.mod_lt _ (by norm_num)
  have hfull : as_size_t ((64 - (s + lo) % 64 : ℕ) : ℤ) = (64 - (s + lo) % 64 : ℕ) :=
    as_size_t_natCast (by omega)
  have hrest : as_size_t ((n : ℤ) - lo) = ((n - lo : ℕ) : ℤ) := by
    rw [← Nat.cast_sub hlo.le]
    exact as_size_t_natCast (by omega)
  have hbytes : min ((64 - (s + lo) % 64 : ℕ) : ℤ) ((n - lo : ℕ) : ℤ) = (Cuts.piece 64 s n lo : ℕ) := by
    unfold Cuts.piece
    push_cast
    rfl
  conv_lhs => unfold send_loop
  rw [if_pos hlt]
  simp only [hblock, hfull, hlo', hrest, hbytes, raw_bits, Raw, requestAt]
  push_cast
  rw [add_assoc]

theorem send_loop_end {lo : ℤ} (h : n ≤ as_size_t lo) (fuel : ℕ) (a : GlobalAddress) :
    send_loop m b n (fuel + 1) a lo = some [] := by
  unfold send_loop
  rw [if_neg (by omega)]

theorem offset_type_cases {lo : ℕ} (hlo : lo ≤ 2 ^ 63) (hint : b = .acquirer → lo < 2 ^ 31 + 64) :
    (b.offset_type (lo : ℤ) = lo ∧ (b = .acquirer → lo < 2 ^ 31)) ∨
      (b = .acquirer ∧ 2 ^ 31 ≤ lo ∧ 2 ^ 63 ≤ as_size_t (b.offset_type lo)) := by
  cases b with
  | releaser => exact .inl ⟨as_size_t_natCast (by omega), nofun⟩
  | acquirer =>
    by_cases hfit : lo < 2 ^ 31
    · exact .inl ⟨as_int_natCast hfit, fun _ => hfit⟩
    · exact .inr ⟨rfl, by omega, as_size_t_as_int (by omega) (hint rfl)⟩

/-- The pieces of `l` are the requests, up to `hi`: the end of the range, or the first offset
    that does not fit in the acquirer's `int`. -/
structure Stops (b : Behavior) (s n lo hi : ℕ) (l : List (ℕ × ℕ)) : Prop where
  walk : Cuts.Walk 64 s n lo hi l
  fits : b = .acquirer → ∀ p ∈ l, p.1 < 2 ^ 31
  stop : hi = n ∨ b = .acquirer ∧ 2 ^ 31 ≤ hi

theorem Stops.cons {lo hi : ℕ} {l : List (ℕ × ℕ)} (hlo : lo < n) (hint : b = .acquirer → lo < 2 ^ 31)
    (h : Stops b s n (lo + Cuts.piece 64 s n lo) hi l) :
    Stops b s n lo hi ((lo, Cuts.piece 64 s n lo) :: l) where
  walk := .step hlo h.walk
  fits := by
    intro hb p hp
    rcases mem_cons.mp hp with rfl | hp
    · exact hint hb
    · exact h.fits hb p hp
  stop := h.stop

theorem exists_requests_boundary (hn : n ≤ 2 ^ 63) (fuel : ℕ) :
    ∀ lo : ℕ, lo ≤ n → (n - lo + 63) / 64 ≤ fuel → (b = .acquirer → lo < 2 ^ 31 + 64) →
      ((s + lo) % 64 = 0 ∨ lo = n) →
      ∃ hi l, Stops b s n lo hi l ∧
        send_loop m b n (fuel + 1) ⟨((s + lo : ℕ) : ℤ)⟩ (b.offset_type lo) =
          some (l.map (requestAt s)) := by
  induction fuel with
  | zero =>
    intro lo hle hfuel hint _
    obtain rfl : lo = n := by omega
    refine ⟨lo, [], ⟨.stop _, by simp, .inl rfl⟩, send_loop_end ?_ _ _⟩
    rcases offset_type_cases hn hint with ⟨hoff, -⟩ | ⟨-, -, hbig⟩
    · rw [hoff, as_size_t_natCast (by omega)]
    · omega
  | succ fuel ih =>
    intro lo hle hfuel hint hcut
    rcases offset_type_cases (by omega) hint with ⟨hoff, hfit⟩ | ⟨hb, hbig, hend⟩
    · rw [hoff]
      rcases hle.lt_or_eq with hlt | rfl
      · have hpiece : Cuts.piece 64 s n lo = min 64 (n - lo) := by
          unfold Cuts.piece
          omega
        obtain ⟨hi, l, hstops, hsend⟩ := ih (lo + Cuts.piece 64 s n lo) (by omega) (by omega)
          (fun hb => by have := hfit hb; omega) (by omega)
        refine ⟨hi, _, hstops.cons hlt hfit, ?_⟩
        rw [send_loop_step hn hlt, hsend]
        rfl
      · refine ⟨lo, [], ⟨.stop _, by simp, .inl rfl⟩, send_loop_end ?_ _ _⟩
        rw [as_size_t_natCast (by omega)]
    · -- the offset has wrapped: the loop takes it for one beyond the end
      exact ⟨lo, [], ⟨.stop _, by simp, .inr ⟨hb, hbig⟩⟩, send_loop_end (by omega) _ _⟩

/-- **Where the loop stops.** -/
theorem exists_requests (hn : n ≤ 2 ^ 63) (s : ℕ) :
    ∃ hi l, Stops b s n 0 hi l ∧
      send_loop m b n (n / 64 + 2 + 1) ⟨(s : ℤ)⟩ 0 = some (l.map (requestAt s)) := by
  rcases Nat.eq_zero_or_pos n with rfl | hpos
  · refine ⟨0, [], ⟨.stop _, by simp, .inl rfl⟩, send_loop_end ?_ _ _⟩
    exact le_rfl
  · -- after the first piece the loop is at a block boundary
    have hp := Cuts.piece_pos (B := 64) (s := s) (by norm_num) hpos
    have hpiece : Cuts.piece 64 s n 0 = min (64 - s % 64) n := by
      simp [Cuts.piece]
    have hstep := send_loop_step (m := m) (b := b) (s := s) hn hpos (n / 64 + 1 + 1)
    obtain ⟨hi, l, hstops, hsend⟩ := exists_requests_boundary (m := m) (b := b) (s := s) hn (n / 64 + 1)
      (0 + Cuts.piece 64 s n 0) (by omega) (by omega) (by omega) (by omega)
    refine ⟨hi, _, hstops.cons hpos (by omega), ?_⟩
    rw [hsend] at hstep
    exact hstep

/-- **The loop reaches the end** exactly if no offset of the acquirer wraps: the last block
    that the range touches starts at an offset that fits in an `int`. -/
theorem Stops.to_end_iff {hi : ℕ} {l : List (ℕ × ℕ)} (h : Stops b s n 0 hi l) :
    hi = n ↔ (b = .acquirer → ((s + n - 1 : ℤ) / 64 * 64) - s < 2 ^ 31) := by
  have hle := h.walk.le_end (Nat.zero_le n)
  constructor
  · rintro rfl hb
    rcases Nat.eq_zero_or_pos hi with h0 | hpos
    · omega
    · -- the piece with the last byte lies in the last block
      obtain ⟨p, hp, hlo, hhi⟩ := h.walk.covers (x := hi - 1) (by omega) (by omega)
      have hfit := h.fits hb p hp
      obtain ⟨-, -, hlen⟩ := h.walk.entry hp
      have hblock := Cuts.div_add_of_lt_piece (s := s) (n := hi) (B := 64) (by norm_num)
        p.1 (i := hi - 1 - p.1) (by omega)
      omega
  · intro hfit
    rcases h.stop with hend | ⟨hb, hbig⟩
    · exact hend
    · have := hfit hb
      rcases h.walk.boundary (by norm_num) with h0 | hend | hcut
      · omega
      · exact hend
      · -- a later block boundary than that of the last block
        omega

end loop

/-! ### The requests of a range -/

section range

variable {m : Machine} {b : Behavior} {R : CachedRange}

/-- The raw addresses of the `n` bytes from `a` on. -/
def byte_addresses (a : GlobalAddress) (n : ℕ) : List ℤ :=
  (List.range n).map fun i : ℕ => a.raw_bits + (i : ℤ)

/-- The requested pieces are the bytes of the range, in order, and each lies in one block. -/
structure Covers (m : Machine) (R : CachedRange) (rs : List RequestArgs) : Prop where
  addresses : ∀ r ∈ rs, r.request_address.raw_bits = R.request_address.raw_bits + r.offset
  partition : (rs.flatMap fun r => byte_addresses r.request_address r.request_bytes.toNat) =
    byte_addresses R.request_address R.bytes
  one_block : ∀ r ∈ rs, 0 < r.request_bytes ∧ ∀ i : ℕ, i < r.request_bytes →
    let byte := Raw (r.request_address.raw_bits + i)
    byte.block_min m = r.request_address.block_min m ∧ byte.core m = r.request_address.core m ∧
      byte.pointer m = r.request_address.pointer m + i

/-- The loop sends the messages that `reset` has computed, and they cover the range. -/
def SendsAll (m : Machine) (b : Behavior) (R : CachedRange) : Prop :=
  ∃ rs, do_requests m b R.sizeof R.request_address R.count = some rs ∧
    (rs.length : ℤ) = num_messages m R.sizeof R.request_address R.count ∧ Covers m R rs

theorem CachedRange.exists_nat (R : CachedRange) :
    ∃ s : ℕ, R.request_address = ⟨(s : ℤ)⟩ ∧ s + R.bytes ≤ 2 ^ 63 := by
  obtain ⟨s, hs⟩ := exists_nat_of_is_linear R.is_linear
  have hspace := R.in_space
  rw [hs] at hspace
  exact ⟨s, hs, by unfold CachedRange.bytes; simp only [raw_bits] at hspace; exact_mod_cast hspace⟩

theorem do_requests_eq (m : Machine) (b : Behavior) {s : ℕ} (hs : R.request_address = ⟨(s : ℤ)⟩)
    (hspace : s + R.bytes ≤ 2 ^ 63) :
    ∃ hi l, Stops b s R.bytes 0 hi l ∧
      do_requests m b R.sizeof R.request_address R.count = some (l.map (requestAt s)) := by
  obtain ⟨hi, l, hstops, hsend⟩ := exists_requests (m := m) (b := b) (n := R.bytes) (by omega) s
  refine ⟨hi, l, hstops, ?_⟩
  have htotal : as_size_t (R.count * R.sizeof) = (R.bytes : ℕ) := by
    rw [← as_size_t_natCast (n := R.bytes) (by omega)]
    unfold CachedRange.bytes
    push_cast
    rfl
  have hfuel : ((R.bytes : ℤ) / block_size + 2).toNat = R.bytes / 64 + 2 := by
    unfold block_size
    omega
  unfold do_requests
  rw [htotal, hs]
  simp only [hfuel]
  exact hsend

theorem num_messages_eq (m : Machine) (R : CachedRange) (hpos : R.count ≠ 0) :
    num_messages m R.sizeof R.request_address R.count = as_int R.blocks := by
  obtain ⟨s, hs, hspace⟩ := R.exists_nat
  have hbytes : 0 < R.bytes := mul_pos (Nat.pos_of_ne_zero hpos) R.sizeof_pos
  unfold num_messages
  rw [if_neg hpos, hs, is_2D_natCast, if_neg (by decide)]
  have hlast : ((((⟨(s : ℤ)⟩ : GlobalAddress).add R.sizeof R.count).add R.sizeof (-1)).last_byte
      R.sizeof) = ⟨((s + R.bytes - 1 : ℕ) : ℤ)⟩ := by
    unfold CachedRange.bytes at hbytes hspace ⊢
    have hword : (s : ℤ) + (R.count + -1) * R.sizeof = (s + R.count * R.sizeof : ℕ) - R.sizeof := by
      push_cast
      ring
    have hle := Nat.le_mul_of_pos_left R.sizeof (Nat.pos_of_ne_zero hpos)
    have hsizeof := R.sizeof_pos
    rw [add_add, add_of_range (by simp only [hword]; omega) (by simp only [hword]; omega)]
    simp only [element, hword, last_byte, Raw, raw_bits]
    congr 1
    push_cast [show 1 ≤ s + R.count * R.sizeof by omega]
    ring
  have hblocks : ((⟨((s + R.bytes - 1 : ℕ) : ℤ)⟩ : GlobalAddress).block_max m 1).byte_sub
      ((⟨(s : ℤ)⟩ : GlobalAddress).first_byte.block_min m) = R.blocks * 64 := by
    unfold CachedRange.blocks
    rw [hs]
    simp only [first_byte, Raw, raw_bits, block_max, block_min, is_2D_natCast, Bool.false_eq_true,
      if_false, byte_sub, block_size]
    omega
  simp only [hlast, hblocks, block_size]
  rw [Int.mul_tdiv_cancel _ (by norm_num)]

theorem byte_addresses_natCast (s lo k : ℕ) :
    byte_addresses ⟨((s + lo : ℕ) : ℤ)⟩ k = (List.range' lo k).map fun x : ℕ => (s : ℤ) + x := by
  rw [byte_addresses, range'_eq_map_range, map_map]
  apply map_congr_left
  intro i _
  simp only [raw_bits, Function.comp_apply]
  push_cast
  ring

theorem Stops.covers {s : ℕ} {l : List (ℕ × ℕ)} (hs : R.request_address = ⟨(s : ℤ)⟩)
    (h : Stops b s R.bytes 0 R.bytes l) : Covers m R (l.map (requestAt s)) where
  addresses := by
    intro r hr
    obtain ⟨p, -, rfl⟩ := mem_map.mp hr
    rw [hs]
    simp [requestAt, raw_bits]
  partition := by
    rw [flatMap_map]
    have hpiece : ∀ p : ℕ × ℕ, byte_addresses (requestAt s p).request_address
        (requestAt s p).request_bytes.toNat = (range' p.1 p.2).map fun x : ℕ => (s : ℤ) + x :=
      fun p => byte_addresses_natCast s p.1 p.2
    have hwhole := byte_addresses_natCast s 0 R.bytes
    simp only [hpiece]
    rw [← map_flatMap, h.walk.offsets, hs]
    exact hwhole.symm
  one_block := by
    intro r hr
    obtain ⟨p, hp, rfl⟩ := mem_map.mp hr
    obtain ⟨-, hlt, hlen⟩ := h.walk.entry hp
    refine ⟨?_, ?_⟩
    · have := Cuts.piece_pos (B := 64) (s := s) (by norm_num) hlt
      simp only [requestAt]
      omega
    · intro i hi
      have hi' : i < Cuts.piece 64 s R.bytes p.1 := by
        simp only [requestAt] at hi
        omega
      have hdiv := Cuts.div_add_of_lt_piece (B := 64) (by norm_num) p.1 hi'
      have hmod : (s + p.1) % 64 + i < 64 := by
        have := Cuts.mod_add_piece_le (B := 64) (s := s) (n := R.bytes) (by norm_num) p.1
        omega
      have hbyte : Raw ((requestAt s p).request_address.raw_bits + i) = ⟨((s + p.1 + i : ℕ) : ℤ)⟩ := by
        simp [Raw, requestAt, raw_bits]
      simp only [hbyte]
      simp only [requestAt, block_min_natCast, core_natCast, pointer_natCast,
        BlockCyclic.owner_add_of_lt (by norm_num : 0 < 64) hmod,
        BlockCyclic.offset_add_of_lt (by norm_num : 0 < 64) hmod]
      refine ⟨?_, trivial, ?_⟩
      · congr 2
        omega
      · push_cast
        ring

theorem Stops.length_eq {s : ℕ} {l : List (ℕ × ℕ)} (hs : R.request_address = ⟨(s : ℤ)⟩)
    (hpos : 0 < R.bytes) (h : Stops b s R.bytes 0 R.bytes l) : (l.length : ℤ) = R.blocks := by
  have hlen := h.walk.length_eq (by norm_num) rfl hpos
  have hle : s / 64 ≤ (s + R.bytes - 1) / 64 := Nat.div_le_div_right (by omega)
  unfold CachedRange.blocks
  rw [hlen, hs]
  simp only [raw_bits, block_size, add_zero]
  omega

theorem Stops.length_eq_num_messages_iff {s : ℕ} {l : List (ℕ × ℕ)} (m : Machine)
    (hs : R.request_address = ⟨(s : ℤ)⟩) (h : Stops b s R.bytes 0 R.bytes l) :
    (l.length : ℤ) = num_messages m R.sizeof R.request_address R.count ↔ R.blocks < 2 ^ 31 := by
  by_cases hcount : R.count = 0
  · have hzero : R.bytes = 0 := by simp [CachedRange.bytes, hcount]
    have hoff := h.walk.offsets
    have hnil : l = [] := by
      rcases l with _ | ⟨p, l⟩
      · rfl
      · have := h.walk.entry (mem_cons_self ..)
        omega
    have hsmall : R.blocks < 2 ^ 31 := by
      unfold CachedRange.blocks block_size
      rw [hzero, hs]
      simp only [raw_bits]
      omega
    rw [hnil, num_messages, if_pos hcount]
    exact ⟨fun _ => hsmall, fun _ => rfl⟩
  · have hpos : 0 < R.bytes := mul_pos (Nat.pos_of_ne_zero hcount) R.sizeof_pos
    rw [num_messages_eq m R hcount, ← h.length_eq hs hpos]
    constructor
    · intro heq
      have hlt : as_int (l.length : ℤ) < 2 ^ 31 := by
        have := Int.bmod_lt (x := (l.length : ℤ)) (m := 2 ^ 32) (by norm_num)
        unfold as_int
        norm_num at this ⊢
        exact this
      omega
    · intro hlt
      exact (as_int_natCast (by omega)).symm

theorem Covers.to_end {s hi : ℕ} {l : List (ℕ × ℕ)} (h : Stops b s R.bytes 0 hi l)
    (hc : Covers m R (l.map (requestAt s))) : hi = R.bytes := by
  have hpiece : ∀ p : ℕ × ℕ, byte_addresses (requestAt s p).request_address
      (requestAt s p).request_bytes.toNat = (range' p.1 p.2).map fun x : ℕ => (s : ℤ) + x :=
    fun p => byte_addresses_natCast s p.1 p.2
  have hpart := hc.partition
  rw [flatMap_map] at hpart
  simp only [hpiece] at hpart
  rw [← map_flatMap, h.walk.offsets] at hpart
  have hlen := congrArg length hpart
  simpa [byte_addresses] using hlen

/-- **The acquirer sends what it should** exactly if the last block starts at an offset that
    fits in an `int`. -/
theorem acquirer_sendsAll_iff (m : Machine) (R : CachedRange) :
    SendsAll m .acquirer R ↔ R.last_offset < 2 ^ 31 := by
  obtain ⟨s, hs, hspace⟩ := R.exists_nat
  obtain ⟨hi, l, hstops, hsend⟩ := do_requests_eq m .acquirer hs hspace
  have hiff := hstops.to_end_iff
  have hcond : ((s + R.bytes - 1 : ℤ) / 64 * 64) - s = R.last_offset := by
    unfold CachedRange.last_offset
    rw [hs]
    rfl
  rw [hcond] at hiff
  constructor
  · rintro ⟨rs, hrs, -, hcov⟩
    obtain rfl := Option.some.inj (hsend.symm.trans hrs)
    exact hiff.mp (hcov.to_end hstops) rfl
  · intro hlt
    obtain rfl := hiff.mpr fun _ => hlt
    refine ⟨_, hsend, ?_, hstops.covers hs⟩
    rw [length_map, hstops.length_eq_num_messages_iff m hs]
    unfold CachedRange.blocks
    unfold CachedRange.last_offset at hlt
    simp only [block_size] at hlt ⊢
    omega

theorem releaser_sendsAll_iff (m : Machine) (R : CachedRange) :
    SendsAll m .releaser R ↔ R.blocks < 2 ^ 31 := by
  obtain ⟨s, hs, hspace⟩ := R.exists_nat
  obtain ⟨hi, l, hstops, hsend⟩ := do_requests_eq m .releaser hs hspace
  obtain rfl : hi = R.bytes := hstops.to_end_iff.mpr nofun
  rw [← hstops.length_eq_num_messages_iff m hs]
  constructor
  · rintro ⟨rs, hrs, hlen, -⟩
    obtain rfl := Option.some.inj (hsend.symm.trans hrs)
    rwa [length_map] at hlen
  · intro hlen
    refine ⟨_, hsend, ?_, hstops.covers hs⟩
    rwa [length_map]

end range

end Incoherent

end Grappa
