import AdvCompArch.Grappa.AddressArithmetic
import AdvCompArch.Grappa.MemcpyRuns

/-! # Copying into a local buffer

    `memcpy` with a 2D destination.  From a 2D source it acquires a cache whose buffer is the
    destination; from a linear source every core writes its part of the source back to the
    destination.  Both kinds of cache take a 2D address on their own core for the data itself
    and do nothing, although here the data is to go somewhere else.

    `make_cache_own` and `make_cache_other` say what a cache of a 2D address does;
    `Complete.copies_to_buffer` and `not_copies_to_buffer` what its copies mean for the buffer. -/

namespace Grappa

open GlobalAddress Incoherent Transition Copies ByteMemory List

/-- The arguments of `memcpy(dst, src, nelem)` for a destination at the local pointer `dst` of the
    calling core, how many caches the locale heap has room for, and where the cores are. -/
structure BufferArgs where
  sizeof : ℕ
  dst : ℤ
  mycore : ℤ
  src : GlobalAddress
  nelem : ℕ
  room : ℕ
  locale_of : Core → ℤ

/-- A cache object that has been made on a core, with the requests it sends. -/
structure Cache where
  core : Core
  behavior : Behavior
  object : Object
  requests : List RequestArgs

section code

variable (m : Machine) (a : BufferArgs)

/-- The constructor of a cache with a buffer, and `start_acquire` resp. `start_release`; `none` if
    the sending loop does not end. -/
def make_cache (b : Behavior) (mycore : Core) (sizeof : ℕ) (address : GlobalAddress) (count : ℕ)
    (buffer : ℤ) : Option Cache :=
  (reset m b mycore sizeof address count ⟨false, false, buffer, false, 0, 0, 0, 0⟩).bind fun o =>
    if o.completed_ then some ⟨mycore, b, o, []⟩
    else (do_requests m b sizeof address count).map fun rs => ⟨mycore, b, o, rs⟩

/-- The replies that the owner of a cache waits for. -/
def Cache.awaited (c : Cache) : ℤ := if c.object.completed_ then 0 else c.object.num_messages_

/-- The length with which the payload of a request or of its reply arrives: a message to another
    locale carries it as an `int16_t`. -/
def Cache.payload_size (locale_of : Core → ℤ) (c : Cache) (r : RequestArgs) : ℤ :=
  if locale_of c.core = locale_of (r.request_address.core m) then r.request_bytes
  else Int.bmod r.request_bytes (2 ^ 16)

/-- A request moves its payload to the cache's memory, or from there. -/
def Cache.copy (locale_of : Core → ℤ) (c : Cache) (t : ℕ) (r : RequestArgs) : Copy ℕ Core :=
  match c.behavior with
  | .acquirer => ⟨t, r.request_address.core m, r.request_address.pointer m, c.core,
      c.object.pointer_ + r.offset, (c.payload_size m locale_of r).toNat⟩
  | .releaser => ⟨t, c.core, c.object.pointer_ + r.offset, r.request_address.core m,
      r.request_address.pointer m, (c.payload_size m locale_of r).toNat⟩

def BufferArgs.dstAddress : GlobalAddress := TwoDimensional a.dst a.mycore

/-- The number of write-backs that `do_memcpy_locally` allocates. -/
def nlocalblocks (sizeof : ℕ) (mycore : Core) (src_start src_end : GlobalAddress) : ℕ :=
  (as_size_t ((src_end.localize m sizeof mycore - src_start.localize m sizeof mycore) / sizeof) /
    (block_size / sizeof)).toNat

/-- `locale_alloc<Writeback>(nlocalblocks)` finds room. -/
def BufferArgs.allocates (c : Core) : Bool :=
  match memcpy_last m a.sizeof c a.dstAddress a.src a.nelem with
  | none => true
  | some (_, src_end) =>
    let src_start := (memcpy_first m a.sizeof c a.dstAddress a.src a.nelem).2
    decide (nlocalblocks m a.sizeof c src_start src_end ≤ a.room)

/-- `do_memcpy_locally` on core `c`; `none` if a check or the allocation fails. -/
def BufferArgs.writebacks (c : Core) : Option (List Writeback) :=
  if a.allocates m c then do_memcpy_locally m a.sizeof c a.dstAddress a.src a.nelem else none

/-- `Writeback w(address, count, buffer)` on core `c`. -/
def BufferArgs.writeback_cache (c : Core) (w : Writeback) : Option Cache :=
  make_cache m .releaser c a.sizeof w.address w.count.toNat w.buffer

/-- `Incoherent<T>::RO c(src, nelem, dst.pointer())`. -/
def BufferArgs.buffer_cache : Option Cache :=
  make_cache m .acquirer a.mycore a.sizeof a.src a.nelem (a.dstAddress.pointer m)

/-- The caches of the whole `memcpy`. -/
def BufferArgs.caches : List Cache :=
  if a.src.is_2D then (a.buffer_cache m).toList
  else m.all_cores.flatMap fun c =>
    ((a.writebacks m c).getD []).filterMap fun w => a.writeback_cache m c w

/-- The copies that their requests make. -/
def BufferArgs.copies : List (Copy ℕ Core) :=
  (a.caches m).zipIdx.flatMap fun (c, t) => c.requests.map (c.copy m a.locale_of t)

def BufferArgs.bytes : ℕ := a.nelem * a.sizeof

/-- Where the bytes of the source and the destination are. -/
def BufferArgs.srcPlace (i : ℕ) : Core × ℤ := ((a.src.element 1 i).core m, (a.src.element 1 i).pointer m)

def BufferArgs.dstPlace (i : ℕ) : Core × ℤ := (a.mycore, a.dst + i)

/-- Every cache has got the replies that it waits for. -/
def BufferArgs.Returned {β : Type} (s : Copies.State ℕ Core β) : Prop :=
  ∀ t c, (a.caches m)[t]? = some c → c.awaited ≤ (written s t : ℤ)

/-- What `memcpy` into a buffer should do. -/
structure CopiesToBuffer : Prop where
  /-- No check and no allocation fails, and every sending loop ends. -/
  starts : if a.src.is_2D then (a.buffer_cache m).isSome = true
    else ∀ c ∈ m.all_cores, ∃ ws, a.writebacks m c = some ws ∧
      ∀ w ∈ ws, (a.writeback_cache m c w).isSome = true
  /-- No payload arrives with a negative length, which `memcpy` would take for a huge one. -/
  arrives : ∀ c ∈ a.caches m, ∀ r ∈ c.requests, 0 ≤ c.payload_size m a.locale_of r
  /-- No run goes on forever, and one that cannot go on has returned. -/
  returns : ∀ (β : Type) (memory : Core → ℤ → β),
    (Copies.system (a.copies m) memory).Terminates (Copies.system (a.copies m) memory).init ∧
    ∀ s, (Copies.system (a.copies m) memory).Reachable s →
      (∀ l, (Copies.system (a.copies m) memory).next s l = none) → a.Returned m s
  /-- When it has returned the destination has the bytes of the source. -/
  copied : ∀ (β : Type) (memory : Core → ℤ → β) s,
    (Copies.system (a.copies m) memory).Reachable s → a.Returned m s →
      ∀ i < a.bytes, at_place s.memory (a.dstPlace i) = at_place memory (a.srcPlace m i)

/-- The sources: elements of a global array, where those of a whole block are aligned, or of a buffer
    on some core. -/
inductive ValidSource : Prop
  | linear (s : ℕ) (src : a.src = ⟨(s : ℤ)⟩) (dvd : a.sizeof ∣ 64)
      (aligned : a.sizeof = 64 → a.sizeof ∣ s)
      (space : s + a.bytes < 2 ^ 63)
  | two_d (p : ℤ) (n : ℤ) (src : a.src = TwoDimensional p n) (core : 0 ≤ n ∧ n < 2 ^ 15)
      (low : 2 ≤ p) (high : p + a.bytes < 2 ^ 47)

/-- What the caller of `memcpy` provides: both ranges are in memory (not at the first two bytes of
    the address space, and below the sign bit of a 48-bit pointer) and do not overlap, and
    the locale heap has room for a cache per element, but not for `2^57` caches. -/
structure BufferArgs.Valid : Prop where
  sizeof_pos : 0 < a.sizeof
  mycore : 0 ≤ a.mycore ∧ a.mycore < 2 ^ 15
  low : 2 ≤ a.dst
  high : a.dst + a.bytes < 2 ^ 47
  source : ValidSource a
  non_overlapping : ∀ i < a.bytes, ∀ j < a.bytes, a.srcPlace m i ≠ a.dstPlace j
  enough : a.nelem ≤ a.room
  limited : a.room < 2 ^ 57

end code

/-! ### Caches of a 2D address -/

section two_dimensional

variable {m : Machine} {b : Behavior} {q k : ℤ} {sizeof count n : ℕ} {mycore : Core} {buffer : ℤ}

/-- The `n` bytes from pointer `q` on, on core `k`. -/
structure InMemory (q : ℤ) (n : ℕ) (k : Core) : Prop where
  low : 2 ≤ q
  high : q + n < 2 ^ 47
  core : 0 ≤ k ∧ k < 2 ^ 15

theorem InMemory.unpacks (h : InMemory q n k) {i : ℕ} (hi : i ≤ n) :
    Unpacks m (TwoDimensional (q + i) k) (q + i) k := by
  have hlow := h.low
  have hhigh := h.high
  norm_num at hhigh
  have haccepted : Accepted (q + i) := by
    rw [accepted_iff]
    norm_num
    omega
  apply (unpacks_iff haccepted h.core).mpr
  norm_num
  omega

theorem InMemory.drop (h : InMemory q n k) {i : ℕ} (hi : i ≤ n) : InMemory (q + i) (n - i) k := by
  have hlow := h.low
  have hhigh := h.high
  refine ⟨by omega, ?_, h.core⟩
  rw [Nat.cast_sub hi]
  omega

/-- The "block" of a 2D address has no end: the loop takes all that is left. -/
theorem send_loop_two_d (h : InMemory q n k) {total : ℕ} (htotal : total < 2 ^ 47) {offset : ℤ}
    (hoffset : as_size_t offset < total) (fuel : ℕ) :
    send_loop m b total (fuel + 1) (TwoDimensional q k) offset =
      (send_loop m b total fuel (TwoDimensional (q + (total - as_size_t offset)) k)
        (b.offset_type total)).map (⟨TwoDimensional q k, total - as_size_t offset, offset⟩ :: ·) := by
  have hlow := h.low
  have hhigh := h.high
  have hunpacks := h.unpacks (m := m) (Nat.zero_le n)
  rw [Nat.cast_zero, add_zero] at hunpacks
  have hnn : 0 ≤ as_size_t offset := Int.emod_nonneg _ (by norm_num)
  have hblock : as_size_t (((TwoDimensional q k).first_byte.block_max m 1).byte_sub
      (TwoDimensional q k).first_byte) = 2 ^ 64 + 1 - q := by
    have hfirst : (TwoDimensional q k).first_byte = TwoDimensional q k := rfl
    rw [hfirst, block_max, if_pos hunpacks.two_d, hunpacks.core]
    simp only [byte_sub, raw_bits, TwoDimensional, as_size_t]
    norm_num at hhigh ⊢
    omega
  have hrest : as_size_t (total - as_size_t offset) = total - as_size_t offset := by
    apply Int.emod_eq_of_lt (by omega)
    norm_num at htotal ⊢
    omega
  have hmin : min (2 ^ 64 + 1 - q) (total - as_size_t offset) = total - as_size_t offset := by
    apply min_eq_right
    norm_num at htotal hhigh ⊢
    omega
  have hnext : Raw ((TwoDimensional q k).raw_bits + (total - as_size_t offset)) =
      TwoDimensional (q + (total - as_size_t offset)) k := by
    simp only [Raw, raw_bits, TwoDimensional]
    congr 1
    ring
  conv_lhs => unfold send_loop
  rw [if_pos hoffset]
  simp only [hblock, hrest, hmin, hnext, add_sub_cancel]

/-- The offset behind the one request is not taken for one that is still to be sent. -/
def Fits (b : Behavior) (n : ℕ) : Prop := b = .acquirer → n < 2 ^ 32 ∨ 2 ^ 31 ≤ n % 2 ^ 32

theorem as_int_natCast_mod (h : n % 2 ^ 32 < 2 ^ 31) : as_int n = (n % 2 ^ 32 : ℕ) := by
  unfold as_int Int.bmod
  norm_num at h ⊢
  omega

theorem le_offset (h : n < 2 ^ 47) (hfits : Fits b n) : (n : ℤ) ≤ as_size_t (b.offset_type n) := by
  cases b with
  | releaser =>
    simp only [Behavior.offset_type, as_size_t]
    norm_num at h ⊢
    omega
  | acquirer =>
    have hcases := hfits rfl
    simp only [Behavior.offset_type, as_size_t, as_int, Int.bmod]
    norm_num at h hcases ⊢
    omega

/-- The bytes of a cache, as the code computes them. -/
theorem total_bytes_eq (h : count * sizeof < 2 ^ 47) :
    as_size_t (count * sizeof) = (count * sizeof : ℕ) := by
  rw [← as_size_t_natCast (n := count * sizeof) (by omega)]
  push_cast
  rfl

theorem payload_size_of_lt {locale_of : Core → ℤ} {c : Cache} {r : RequestArgs}
    (hnonneg : 0 ≤ r.request_bytes)
    (h : locale_of c.core = locale_of (r.request_address.core m) ∨ r.request_bytes < 2 ^ 15) :
    c.payload_size m locale_of r = r.request_bytes := by
  rw [Cache.payload_size]
  split_ifs with hlocale
  · rfl
  · have hlt := h.resolve_left hlocale
    exact Int.bmod_eq_of_le (by omega) (by omega)

theorem do_requests_cons (h : InMemory q (count * sizeof) k) (hpos : 0 < count * sizeof) :
    do_requests m b sizeof (TwoDimensional q k) count =
      (send_loop m b (count * sizeof : ℕ) (count * sizeof / 64 + 2)
        (TwoDimensional (q + (count * sizeof : ℕ)) k) (b.offset_type (count * sizeof : ℕ))).map
          (⟨TwoDimensional q k, (count * sizeof : ℕ), 0⟩ :: ·) := by
  have hhigh := h.high
  have hlow := h.low
  have htotal : count * sizeof < 2 ^ 47 := by
    norm_num at hhigh ⊢
    omega
  have hfuel : (((count * sizeof : ℕ) : ℤ) / block_size + 2).toNat = count * sizeof / 64 + 2 := by
    unfold block_size
    omega
  have hzero : as_size_t 0 = 0 := rfl
  unfold do_requests
  rw [total_bytes_eq htotal]
  simp only [hfuel]
  rw [send_loop_two_d h htotal (by rw [hzero]; exact_mod_cast hpos), hzero, sub_zero]

theorem do_requests_two_d (h : InMemory q (count * sizeof) k) (hpos : 0 < count * sizeof)
    (hfits : Fits b (count * sizeof)) :
    do_requests m b sizeof (TwoDimensional q k) count =
      some [⟨TwoDimensional q k, (count * sizeof : ℕ), 0⟩] := by
  have hhigh := h.high
  have hlow := h.low
  have htotal : count * sizeof < 2 ^ 47 := by
    norm_num at hhigh ⊢
    omega
  rw [do_requests_cons h hpos, send_loop_end (le_offset htotal hfits)]
  rfl

theorem make_cache_own (h : InMemory q (count * sizeof) k) (b : Behavior) (buffer : ℤ) :
    ∃ c, make_cache m b k sizeof (TwoDimensional q k) count buffer = some c ∧ c.awaited = 0 ∧
      c.requests = [] := by
  have hunpacks := h.unpacks (m := m) (Nat.zero_le _)
  rw [Nat.cast_zero, add_zero] at hunpacks
  by_cases hcount : count = 0
  · simp [make_cache, reset, hcount, Cache.awaited]
  · simp [make_cache, reset, hcount, hunpacks.two_d, hunpacks.core, Cache.awaited]

theorem make_cache_zero (m : Machine) (b : Behavior) (mycore : Core) (sizeof : ℕ) (a : GlobalAddress)
    (buffer : ℤ) :
    ∃ c, make_cache m b mycore sizeof a 0 buffer = some c ∧ c.awaited = 0 ∧ c.requests = [] := by
  simp [make_cache, reset, Cache.awaited]

/-- The cache object that waits for one reply. -/
def waiting (b : Behavior) (mycore : Core) (sizeof count : ℕ) (buffer : ℤ) (rs : List RequestArgs) :
    Cache :=
  ⟨mycore, b, ⟨false, false, buffer, false, 1, 0, 0, as_int (sizeof * count)⟩, rs⟩

theorem make_cache_other (h : InMemory q (count * sizeof) k) (hcount : count ≠ 0)
    (hcore : k ≠ mycore) (b : Behavior) (buffer : ℤ) :
    make_cache m b mycore sizeof (TwoDimensional q k) count buffer =
      (do_requests m b sizeof (TwoDimensional q k) count).map
        (waiting b mycore sizeof count buffer) := by
  have hunpacks := h.unpacks (m := m) (Nat.zero_le _)
  rw [Nat.cast_zero, add_zero] at hunpacks
  simp [make_cache, reset, hcount, hunpacks.two_d, hunpacks.core, hcore, num_messages]
  rfl

end two_dimensional

/-! ### Copies that make up the range -/

section range

variable {m : Machine} {a : BufferArgs}

/-- The source bytes and their places in the buffer. -/
def BufferArgs.Valid.plan (hv : a.Valid m) : Plan Core where
  n := a.bytes
  src := a.srcPlace m
  dst := a.dstPlace
  injective := by
    intro i _ j _ heq
    have hat := congrArg Prod.snd heq
    simp only [BufferArgs.dstPlace] at hat
    omega
  apart := hv.non_overlapping

theorem sum_tags (locale_of : Core → ℤ) (cs : List Cache) (k t : ℕ) :
    ((((cs.zipIdx k).flatMap fun (c, t) => c.requests.map (c.copy m locale_of t)).map fun c =>
        if c.tag = t then 1 else 0).sum : ℕ) =
      if k ≤ t then ((cs[t - k]?).map fun c => c.requests.length).getD 0 else 0 := by
  have htag : ∀ (c : Cache) (k : ℕ) (r : RequestArgs), (c.copy m locale_of k r).tag = k := by
    intro c k r
    cases c with
    | mk core behavior object requests => cases behavior <;> rfl
  induction cs generalizing k with
  | nil => simp
  | cons c cs ih =>
    rw [zipIdx_cons, flatMap_cons, map_append, sum_append, ih, map_map]
    have hown : ((c.requests.map
        ((fun c : Copy ℕ Core => if c.tag = t then 1 else 0) ∘ c.copy m locale_of k)).sum : ℕ) =
          if k = t then c.requests.length else 0 := by
      have hconst : ((fun c : Copy ℕ Core => if c.tag = t then 1 else 0) ∘ c.copy m locale_of k) =
          fun _ => if k = t then 1 else 0 := by
        funext r
        simp only [Function.comp_apply, htag]
      rw [hconst, map_const', sum_replicate]
      split_ifs <;> simp
    rw [hown]
    rcases Nat.lt_trichotomy k t with hlt | rfl | hgt
    · obtain ⟨d, rfl⟩ : ∃ d, t = k + 1 + d := ⟨t - (k + 1), by omega⟩
      have hd : k + 1 + d - k = d + 1 := by omega
      simp [hlt.ne, hlt.le, hd]
    · simp
    · simp [hgt.ne', Nat.not_le.mpr hgt, show ¬k + 1 ≤ t by omega]

/-- The copies make up the range, and the caches wait for all of them. -/
structure BufferArgs.Valid.Complete (hv : a.Valid m) : Prop where
  awaited : ∀ c ∈ a.caches m, c.awaited = c.requests.length
  moves : ∀ c ∈ a.copies m, ∃ lo, hv.plan.Moves c lo
  covers : ∀ i < a.bytes, ∃ c ∈ a.copies m, ∃ lo, hv.plan.Moves c lo ∧ lo ≤ i ∧ i < lo + c.len

/-- All copies have been written when all caches have their replies. -/
theorem returned_iff (hawaited : ∀ c ∈ a.caches m, c.awaited = c.requests.length) {β : Type}
    (s : Copies.State ℕ Core β) :
    a.Returned m s ↔
      ∀ t, (((a.copies m).map fun c => if c.tag = t then 1 else 0).sum : ℕ) ≤ written s t := by
  have hsum : ∀ t, (((a.copies m).map fun c => if c.tag = t then 1 else 0).sum : ℕ) =
      (((a.caches m)[t]?).map fun c => c.requests.length).getD 0 := by
    intro t
    have := sum_tags (m := m) a.locale_of (a.caches m) 0 t
    rw [if_pos (Nat.zero_le t), Nat.sub_zero] at this
    exact this
  constructor
  · intro h t
    rw [hsum]
    cases hc : (a.caches m)[t]? with
    | none => simp
    | some c =>
      have hreplies := h t c hc
      rw [hawaited c (mem_of_getElem? hc)] at hreplies
      simpa using hreplies
  · intro h t c hc
    have hreplies := h t
    rw [hsum, hc] at hreplies
    rw [hawaited c (mem_of_getElem? hc)]
    simpa using hreplies

theorem BufferArgs.Valid.Complete.copies_to_buffer {hv : a.Valid m} (h : hv.Complete)
    (hstarts : if a.src.is_2D then (a.buffer_cache m).isSome = true
      else ∀ c ∈ m.all_cores, ∃ ws, a.writebacks m c = some ws ∧
        ∀ w ∈ ws, (a.writeback_cache m c w).isSome = true)
    (harrives : ∀ c ∈ a.caches m, ∀ r ∈ c.requests, 0 ≤ c.payload_size m a.locale_of r) :
    CopiesToBuffer m a := by
  refine ⟨hstarts, harrives, ?_, ?_⟩
  · intro β memory
    refine ⟨Copies.terminates _ _, ?_⟩
    intro s hs hstuck
    rw [returned_iff h.awaited]
    intro t
    exact (written_of_stuck t hs hstuck).ge
  · intro β memory s hs hreturned i hi
    rw [returned_iff h.awaited] at hreturned
    obtain ⟨c, hc, lo, hmoves, hlo, hhi⟩ := h.covers i hi
    have hinv := reachable_inv h.moves hs
    have hcopied := hinv.copied hc hmoves (k := i - lo) (by omega) (by
      intro x hx heq
      exact none_left hs (hreturned c.tag) hx (congrArg Copy.tag heq))
    rw [Nat.add_sub_cancel' hlo] at hcopied
    exact hcopied

theorem not_copies_to_buffer (hv : a.Valid m) (hmoves : ∀ c ∈ a.copies m, ∃ lo, hv.plan.Moves c lo)
    {i : ℕ} (hi : i < a.bytes)
    (hnone : ∀ c ∈ a.copies m, ∀ lo, hv.plan.Moves c lo → ∀ k < c.len, lo + k ≠ i) :
    ¬CopiesToBuffer m a := by
  intro h
  -- a memory that tells the place in the buffer from all others
  let memory : Core → ℤ → Bool := fun c x => decide ((c, x) = a.dstPlace i)
  obtain ⟨hterminates, hreturns⟩ := h.returns Bool memory
  obtain ⟨ls, s, hrun, hstuck⟩ := hterminates.exists_end
  have hs : (Copies.system (a.copies m) memory).Reachable s := ⟨ls, hrun⟩
  have hcopied := h.copied Bool memory s hs (hreturns s hs hstuck) i hi
  have hframe := (reachable_inv hmoves hs).frame (q := a.dstPlace i) (by
    intro c hc lo hm k hk heq
    exact hnone c hc lo hm k hk (hv.plan.injective _ (hm k hk).1 _ hi heq))
  have hthere : at_place memory (a.dstPlace i) = true := decide_eq_true rfl
  rw [hframe, hthere] at hcopied
  exact hv.non_overlapping i hi i hi (of_decide_eq_true hcopied.symm)

end range

end Grappa
