import AdvCompArch.Grappa.BufferCopy

/-! # When a buffer gets its source

    The copies of the caches, for a source in a buffer and for one in a global array, and from
    them `memcpy_to_buffer_iff`. -/

namespace Grappa

open GlobalAddress Incoherent Transition Copies ByteMemory List Option BufferArgs Nat

/-! ### A buffer as source -/

section from_buffer

variable {m : Machine} {a : BufferArgs}

theorem BufferArgs.Valid.inMemory (hv : a.Valid m) : InMemory a.dst a.bytes a.mycore :=
  ⟨hv.low, hv.high, hv.mycore⟩

theorem BufferArgs.Valid.dst_pointer (hv : a.Valid m) : a.dstAddress.pointer m = a.dst := by
  have h := hv.inMemory.unpacks (m := m) (zero_le _)
  rw [cast_zero, add_zero] at h
  exact h.pointer

variable {p k : ℤ}

theorem srcPlace_two_d (hsrc : a.src = TwoDimensional p k) (h : InMemory p a.bytes k) {i : ℕ}
    (hi : i ≤ a.bytes) : a.srcPlace m i = (k, p + i) := by
  have hunpacks := h.unpacks (m := m) hi
  have hadd : a.src.element 1 i = TwoDimensional (p + i) k := by
    rw [hsrc, two_dimensional_element]
    push_cast
    rw [mul_one]
  rw [srcPlace, hadd, hunpacks.core, hunpacks.pointer]

theorem caches_two_d (hsrc : a.src.is_2D = true) {c : Cache} (hc : a.buffer_cache m = some c) :
    a.caches m = [c] ∧ a.copies m = c.requests.map (c.copy m a.locale_of 0) := by
  have hcaches : a.caches m = [c] := by
    rw [caches, if_pos hsrc, hc, toList_some]
  refine ⟨hcaches, ?_⟩
  rw [copies, hcaches]
  simp

theorem copies_from_buffer (hv : a.Valid m) (hsrc : a.src = TwoDimensional p k)
    (h : InMemory p a.bytes k) (hpos : a.nelem ≠ 0) (hcore : k ≠ a.mycore)
    (hfits : Fits .acquirer a.bytes)
    (hlength : a.locale_of k = a.locale_of a.mycore ∨ a.bytes < 2 ^ 15) : CopiesToBuffer m a := by
  have hunpacks := h.unpacks (m := m) (zero_le _)
  rw [cast_zero, add_zero, ← hsrc] at hunpacks
  have hbytes : 0 < a.nelem * a.sizeof := mul_pos (pos_of_ne_zero hpos) hv.sizeof_pos
  have hcache := make_cache_other (m := m) h hpos hcore .acquirer (a.dstAddress.pointer m)
  rw [do_requests_two_d h hbytes hfits, map_some, ← hsrc, hv.dst_pointer] at hcache
  have hbuffer : a.buffer_cache m = _ := (congrArg _ hv.dst_pointer).trans hcache
  obtain ⟨hcaches, hcopies⟩ := caches_two_d hunpacks.two_d hbuffer
  have hpayload : (waiting .acquirer a.mycore a.sizeof a.nelem a.dst
      [⟨a.src, (a.nelem * a.sizeof : ℕ), 0⟩]).payload_size m a.locale_of
        ⟨a.src, (a.nelem * a.sizeof : ℕ), 0⟩ = (a.nelem * a.sizeof : ℕ) := by
    apply payload_size_of_lt (Int.natCast_nonneg _)
    rw [hunpacks.core]
    exact hlength.imp Eq.symm fun hlt : a.nelem * a.sizeof < 2 ^ 15 => Int.ofNat_lt.mpr hlt
  simp only [waiting] at hpayload
  simp only [waiting, map_cons, map_nil, Cache.copy, hpayload, Int.toNat_natCast, hunpacks.core,
    hunpacks.pointer, add_zero] at hcopies
  have hmoves : hv.plan.Moves (⟨0, k, p, a.mycore, a.dst, a.bytes⟩ : Copy ℕ Core) 0 := by
    intro x hx
    rw [zero_add]
    exact ⟨hx, srcPlace_two_d hsrc h hx.le, rfl⟩
  have hcomplete : hv.Complete := by
    refine ⟨?_, ?_, ?_⟩
    · intro c hc
      rw [hcaches] at hc
      obtain rfl := mem_singleton.mp hc
      rfl
    · intro c hc
      rw [hcopies] at hc
      obtain rfl := mem_singleton.mp hc
      exact ⟨0, hmoves⟩
    · intro i hi
      rw [hcopies]
      exact ⟨_, mem_singleton.mpr rfl, 0, hmoves, zero_le i, by rwa [zero_add]⟩
  apply hcomplete.copies_to_buffer
  · rw [if_pos hunpacks.two_d, hbuffer]
    rfl
  · intro c hc r hr
    rw [hcaches] at hc
    obtain rfl := mem_singleton.mp hc
    obtain rfl := mem_singleton.mp hr
    exact (Int.natCast_nonneg _).trans_eq hpayload.symm

theorem no_copies (hsrc : a.src.is_2D = true) {c : Cache} (hc : a.buffer_cache m = some c)
    (hrequests : c.requests = []) : a.copies m = [] := by
  rw [(caches_two_d hsrc hc).2, hrequests]
  rfl

theorem not_copies_own_buffer (hv : a.Valid m) (hsrc : a.src = TwoDimensional p k)
    (h : InMemory p a.bytes k) (hpos : a.nelem ≠ 0) (hcore : k = a.mycore) : ¬CopiesToBuffer m a := by
  have hunpacks := h.unpacks (m := m) (zero_le _)
  rw [cast_zero, add_zero, ← hsrc] at hunpacks
  have hbytes : 0 < a.bytes := mul_pos (pos_of_ne_zero hpos) hv.sizeof_pos
  obtain ⟨c, hc, -, hrequests⟩ := @make_cache_own m p k a.sizeof a.nelem h
    .acquirer (a.dstAddress.pointer m)
  have hcache : a.buffer_cache m = some c := by
    rw [buffer_cache, hsrc, ← hcore]
    exact hc
  have hnone := no_copies hunpacks.two_d hcache hrequests
  exact not_copies_to_buffer hv (by simp [hnone]) hbytes (by simp [hnone])

theorem send_loop_wraps (h : InMemory p a.bytes k) (hfits : ¬Fits .acquirer a.bytes)
    {rs : List RequestArgs}
    (hrs : do_requests m .acquirer a.sizeof (TwoDimensional p k) a.nelem = some rs) :
    ∃ (first second : RequestArgs) (rest : List RequestArgs) (r : ℕ), rs = first :: second :: rest ∧
      r < a.bytes ∧ second = ⟨TwoDimensional (p + a.bytes) k, (a.bytes - r : ℕ), r⟩ := by
  have hhigh := h.high
  have hlow := h.low
  obtain ⟨n, hn⟩ : ∃ n, n = a.nelem * a.sizeof := ⟨_, rfl⟩
  have hbytes : a.bytes = n := hn.symm
  rw [hbytes] at hhigh hfits h ⊢
  have htotal : n < 2 ^ 47 := by
    norm_num at hhigh ⊢
    omega
  have hwrap : 2 ^ 32 ≤ n ∧ n % 2 ^ 32 < 2 ^ 31 := by
    unfold Fits at hfits
    push Not at hfits
    exact hfits.2
  have hoffset : as_size_t (as_int n) = (n % 2 ^ 32 : ℕ) := by
    rw [as_int_natCast_mod hwrap.2]
    exact as_size_t_natCast (by omega)
  rw [do_requests_cons (hn ▸ h) (by omega), ← hn] at hrs
  have hend := h.drop (le_refl n)
  rw [Nat.sub_self] at hend
  simp only [Behavior.offset_type] at hrs
  rw [send_loop_two_d hend htotal (by rw [hoffset]; omega), hoffset,
    as_int_natCast_mod hwrap.2] at hrs
  obtain ⟨rest, hrest, hcons⟩ := map_eq_some_iff.mp hrs
  obtain ⟨rest', -, rfl⟩ := map_eq_some_iff.mp hrest
  refine ⟨_, _, rest', n % 2 ^ 32, hcons.symm, by omega, ?_⟩
  rw [cast_sub (mod_le _ _)]

/-- A buffer of another core has one cache. -/
theorem CopiesToBuffer.one_cache (hcopies : CopiesToBuffer m a) (hv : a.Valid m)
    (hsrc : a.src = TwoDimensional p k) (h : InMemory p a.bytes k) (hpos : a.nelem ≠ 0)
    (hcore : k ≠ a.mycore) :
    ∃ rs, do_requests m .acquirer a.sizeof (TwoDimensional p k) a.nelem = some rs ∧
      a.caches m = [waiting .acquirer a.mycore a.sizeof a.nelem a.dst rs] ∧
      a.copies m = rs.map ((waiting .acquirer a.mycore a.sizeof a.nelem a.dst rs).copy m
        a.locale_of 0) := by
  have hunpacks := h.unpacks (m := m) (zero_le _)
  rw [cast_zero, add_zero, ← hsrc] at hunpacks
  have hcache := make_cache_other (m := m) h hpos hcore .acquirer a.dst
  have hbuffer : a.buffer_cache m = _ := (congrArg _ hv.dst_pointer).trans (hsrc ▸ hcache)
  have hstarts := hcopies.starts
  rw [if_pos hunpacks.two_d, hbuffer, isSome_map] at hstarts
  obtain ⟨rs, hrs⟩ := isSome_iff_exists.mp hstarts
  rw [hrs, map_some] at hbuffer
  exact ⟨rs, hsrc ▸ hrs, caches_two_d hunpacks.two_d hbuffer⟩

/-- The call returns when one copy has arrived, whichever it is. -/
theorem CopiesToBuffer.copied_by_one (hcopies : CopiesToBuffer m a) {c : Cache}
    (hcaches : a.caches m = [c]) (hawaited : c.awaited ≤ 1) {j : ℕ} {x : Copy ℕ Core}
    (hx : (a.copies m)[j]? = some x) (htag : x.tag = 0) (memory : Core → ℤ → Bool) {i : ℕ}
    (hi : i < a.bytes) :
    at_place (Function.update memory x.to_core (store (memory x.to_core) x.to_at
      (load (memory x.from_core) x.from_at x.len))) (a.dstPlace i) =
        at_place memory (a.srcPlace m i) := by
  obtain ⟨s, hs, hwritten, hmemory⟩ := @exists_written ℕ Core Bool _ (a.copies m) memory _ j x hx
  rw [← hmemory]
  apply hcopies.copied Bool memory s hs _ i hi
  intro t d hd
  rw [hcaches] at hd
  cases t with
  | succ t => cases hd
  | zero =>
    cases hd
    rw [← htag, hwritten]
    exact hawaited

/-- Only a part of the source arrives from another locale, or nothing that has a length. -/
theorem not_copies_truncated (hv : a.Valid m) (hsrc : a.src = TwoDimensional p k)
    (h : InMemory p a.bytes k) (hpos : a.nelem ≠ 0) (hcore : k ≠ a.mycore)
    (hlocale : a.locale_of k ≠ a.locale_of a.mycore) (hlong : 2 ^ 15 ≤ a.bytes) :
    ¬CopiesToBuffer m a := by
  intro hcopies
  have hunpacks := h.unpacks (m := m) (zero_le _)
  rw [cast_zero, add_zero, ← hsrc] at hunpacks
  obtain ⟨rs, hrs, hcaches, hlist⟩ := hcopies.one_cache hv hsrc h hpos hcore
  rw [do_requests_cons h (mul_pos (pos_of_ne_zero hpos) hv.sizeof_pos)] at hrs
  obtain ⟨rest, -, rfl⟩ := map_eq_some_iff.mp hrs
  have harrives := hcopies.arrives _ (hcaches ▸ mem_singleton_self _) _ mem_cons_self
  -- the copy of the first request, of fewer bytes
  obtain ⟨l, hl, hlt⟩ : ∃ l : ℕ, Int.bmod (a.bytes : ℤ) (2 ^ 16) = l ∧ l < a.bytes := by
    simp only [Cache.payload_size, waiting, ← hsrc, hunpacks.core, if_neg (Ne.symm hlocale)]
      at harrives
    obtain ⟨l, hl⟩ := Int.eq_ofNat_of_zero_le harrives
    have hlt : Int.bmod (a.bytes : ℤ) (2 ^ 16) < (2 ^ 16 + 1) / 2 := Int.bmod_lt (by norm_num)
    refine ⟨l, hl, ?_⟩
    have hl' : Int.bmod (a.bytes : ℤ) (2 ^ 16) = l := hl
    omega
  have hfirst : (a.copies m)[0]? = some (⟨0, k, p, a.mycore, a.dst, l⟩ : Copy ℕ Core) := by
    have hsize : Int.bmod ((a.nelem * a.sizeof : ℕ) : ℤ) (2 ^ 16) = l := hl
    rw [hlist, map_cons, getElem?_cons_zero]
    simp only [waiting, Cache.copy, Cache.payload_size, ← hsrc, hunpacks.core, hunpacks.pointer,
      if_neg (Ne.symm hlocale), hsize, Int.toNat_natCast, add_zero]
  have hcopied := hcopies.copied_by_one hcaches (le_refl (1 : ℤ)) hfirst rfl
    (fun c _ => decide (c = k)) hlt
  -- the byte behind it has not changed
  rw [srcPlace_two_d hsrc h hlt.le] at hcopied
  simp only [at_place, dstPlace, Function.update_self] at hcopied
  rw [store_outside (by rw [length_load]; omega)] at hcopied
  exact hcore (of_decide_eq_true (hcopied.trans (decide_eq_true trivial))).symm

theorem not_copies_wrapped (hv : a.Valid m) (hsrc : a.src = TwoDimensional p k)
    (h : InMemory p a.bytes k) (hpos : a.nelem ≠ 0) (hcore : k ≠ a.mycore)
    (hlocale : a.locale_of k = a.locale_of a.mycore) (hfits : ¬Fits .acquirer a.bytes) :
    ¬CopiesToBuffer m a := by
  intro hcopies
  obtain ⟨rs, hrs, hcaches, hlist⟩ := hcopies.one_cache hv hsrc h hpos hcore
  obtain ⟨first, second, rest, r, rfl, hr, hsecond⟩ := send_loop_wraps h hfits hrs
  -- the copy of the second request, of the bytes behind the source
  have hbehind := h.unpacks (m := m) (le_refl a.bytes)
  have hcopy : (a.copies m)[1]? =
      some (⟨0, k, p + a.bytes, a.mycore, a.dst + r, a.bytes - r⟩ : Copy ℕ Core) := by
    rw [hlist, map_cons, map_cons, getElem?_cons_succ, getElem?_cons_zero]
    simp only [waiting, Cache.copy, Cache.payload_size, hsecond, hbehind.core, hbehind.pointer,
      hlocale, if_true, Int.toNat_natCast]
  obtain ⟨memory, hmemory⟩ : ∃ memory : Core → ℤ → Bool, ∀ c x, memory c x =
      decide (c = k ∧ x = p + a.bytes) := ⟨_, fun _ _ => rfl⟩
  have hcopied := hcopies.copied_by_one hcaches (le_refl (1 : ℤ)) hcopy rfl memory hr
  -- it has come to the place of byte `r`
  have hstore := @store_inside _ (memory a.mycore) (a.dst + r)
    (load (memory k) (p + a.bytes) (a.bytes - r)) 0 (by rw [length_load]; omega)
  rw [cast_zero, add_zero, getElem_load, cast_zero, add_zero, hmemory] at hstore
  rw [srcPlace_two_d hsrc h hr.le] at hcopied
  simp only [at_place, dstPlace, Function.update_self, hstore] at hcopied
  rw [hmemory] at hcopied
  have hwrong := of_decide_eq_true (hcopied.symm.trans (decide_eq_true ⟨trivial, trivial⟩))
  omega

end from_buffer

/-! ### A global array as source -/

section from_array

variable {m : Machine} {a : BufferArgs} {s b0 b1 first last nblock : ℕ}

/-- A linear source with its layout. -/
structure ArraySource (a : BufferArgs) (s b0 b1 first last nblock : ℕ) : Prop where
  src : a.src = ⟨(s : ℤ)⟩
  dvd : a.sizeof ∣ 64
  aligned : a.sizeof ∣ s
  space : s + a.bytes ≤ 2 ^ 63
  layout : SourceLayout a.sizeof s a.nelem b0 b1 first last nblock

theorem ArraySource.is_2D (h : ArraySource a s b0 b1 first last nblock) : a.src.is_2D = false := by
  rw [h.src, is_2D_natCast]

theorem ArraySource.srcPlace (h : ArraySource a s b0 b1 first last nblock) (i : ℕ) :
    a.srcPlace m i = ((⟨((s + i : ℕ) : ℤ)⟩ : GlobalAddress).core m,
      (⟨((s + i : ℕ) : ℤ)⟩ : GlobalAddress).pointer m) := by
  rw [BufferArgs.srcPlace, h.src, element_natCast, mul_one]

theorem ArraySource.element (h : ArraySource a s b0 b1 first last nblock) (i : ℕ) :
    a.src.element a.sizeof i = ⟨((s + i * a.sizeof : ℕ) : ℤ)⟩ := by
  rw [h.src, element_natCast]

theorem length_memcpy_blocks {sizeof : ℕ} {mycore : Core} {dst src src_start src_end : GlobalAddress}
    {ws : List Writeback} (h : memcpy_blocks m sizeof mycore dst src src_start src_end = some ws) :
    ws.length = nlocalblocks m sizeof mycore src_start src_end := by
  unfold memcpy_blocks at h
  dsimp only at h
  split_ifs at h
  cases h
  rw [length_map, length_range]
  rfl

theorem ArraySource.allocates (h : ArraySource a s b0 b1 first last nblock) (hv : a.Valid m)
    (hle : b0 ≤ b1) {c : ℕ} (hc : c < m.cores) : a.allocates m c = true := by
  have hn := h.layout.middle hle
  have hfirst := h.layout.first_pos
  have hnb := h.layout.nblock_pos
  have hblocks := length_memcpy_blocks (@memcpy_blocks_eq m _ _ _ _ _ _ _ _ a.dstAddress h.layout h.dvd
    h.space hle _ hc)
  have hcount : b1 - b0 ≤ (b1 - b0) * nblock := Nat.le_mul_of_pos_right _ hnb
  have henough := hv.enough
  rw [BufferArgs.allocates, h.src, memcpy_last_eq h.layout (by omega),
    memcpy_first_eq h.layout h.dvd h.aligned]
  simp only [decide_eq_true_eq]
  rw [← hblocks, length_map]
  have hfilter := length_filter_le (storedBy m a.sizeof ⟨(s : ℤ)⟩ c)
    ((range (b1 - b0)).map fun g => (first + g * nblock, nblock))
  rw [length_map, length_range] at hfilter
  omega

theorem ArraySource.writebacks (h : ArraySource a s b0 b1 first last nblock) (hv : a.Valid m)
    (hle : b0 ≤ b1) {c : Core} (hc : c ∈ m.all_cores) :
    a.writebacks m c = some (((sourcePieces a.nelem b0 b1 first last nblock).filter
      (storedBy m a.sizeof a.src c)).map (writebackAt m a.sizeof a.dstAddress a.src)) := by
  obtain ⟨k, hk, rfl⟩ := mem_map.mp hc
  have hk' := mem_range.mp hk
  rw [BufferArgs.writebacks, if_pos (h.allocates hv hle hk'), h.src]
  exact do_memcpy_locally_eq h.layout h.dvd h.aligned h.space hle hk'

/-- The request of a write-back on another core. -/
def pieceRequest (a : BufferArgs) (p : ℕ × ℕ) : RequestArgs :=
  ⟨TwoDimensional (a.dst + (p.1 * a.sizeof : ℕ)) a.mycore, (p.2 * a.sizeof : ℕ), 0⟩

theorem piece_inMemory (hv : a.Valid m) {p : ℕ × ℕ} (hlen : p.1 + p.2 ≤ a.nelem) :
    InMemory (a.dst + (p.1 * a.sizeof : ℕ)) (p.2 * a.sizeof) a.mycore := by
  have hmul : (p.1 + p.2) * a.sizeof ≤ a.bytes := mul_le_mul_right _ hlen
  rw [add_mul] at hmul
  have hhigh := hv.high
  have hlow := hv.low
  exact ⟨by omega, by omega, hv.mycore⟩

theorem dstAddress_element (a : BufferArgs) (i : ℕ) :
    a.dstAddress.element a.sizeof i = TwoDimensional (a.dst + (i * a.sizeof : ℕ)) a.mycore := by
  rw [dstAddress, two_dimensional_element]
  push_cast
  rfl

theorem writeback_cache_eq (hv : a.Valid m) {p : ℕ × ℕ} (hpos : 0 < p.2) (hlen : p.1 + p.2 ≤ a.nelem)
    {c : Core} (hcore : a.mycore ≠ c) :
    a.writeback_cache m c (writebackAt m a.sizeof a.dstAddress a.src p) =
      some (waiting .releaser c a.sizeof p.2 ((a.src.element a.sizeof p.1).pointer m)
        [pieceRequest a p]) := by
  have hmem := piece_inMemory hv hlen
  have hfits : Fits .releaser (p.2 * a.sizeof) := by
    intro hacquirer
    cases hacquirer
  simp only [writeback_cache, writebackAt, Int.toNat_natCast]
  rw [dstAddress_element, make_cache_other hmem hpos.ne' hcore,
    do_requests_two_d hmem (mul_pos hpos hv.sizeof_pos) hfits]
  rfl

/-- It is short enough for its length to be right. -/
theorem piece_payload {p : ℕ × ℕ} (hle : p.2 * a.sizeof ≤ 64) (x : Cache) :
    x.payload_size m a.locale_of (pieceRequest a p) = (p.2 * a.sizeof : ℕ) := by
  apply payload_size_of_lt
  · exact Int.natCast_nonneg _
  · right
    simp only [pieceRequest]
    omega

theorem writeback_cache_own (hv : a.Valid m) {p : ℕ × ℕ} (hlen : p.1 + p.2 ≤ a.nelem) :
    ∃ x, a.writeback_cache m a.mycore (writebackAt m a.sizeof a.dstAddress a.src p) = some x ∧
      x.awaited = 0 ∧ x.requests = [] := by
  simp only [writeback_cache, writebackAt, Int.toNat_natCast]
  rw [dstAddress_element]
  exact make_cache_own (piece_inMemory hv hlen) .releaser _

theorem ArraySource.mem_caches (h : ArraySource a s b0 b1 first last nblock) (hv : a.Valid m)
    (hle : b0 ≤ b1) {x : Cache} :
    x ∈ a.caches m ↔ ∃ p ∈ sourcePieces a.nelem b0 b1 first last nblock,
      a.writeback_cache m ((a.src.element a.sizeof p.1).core m)
        (writebackAt m a.sizeof a.dstAddress a.src p) = some x := by
  rw [caches, if_neg (by simp [h.is_2D]), mem_flatMap]
  constructor
  · rintro ⟨c, hc, hx⟩
    rw [h.writebacks hv hle hc, getD_some] at hx
    obtain ⟨w, hw, hwx⟩ := mem_filterMap.mp hx
    obtain ⟨p, hp, rfl⟩ := mem_map.mp hw
    obtain ⟨hmem, hcore⟩ := mem_filter.mp hp
    exact ⟨p, hmem, (of_decide_eq_true hcore).symm ▸ hwx⟩
  · rintro ⟨p, hp, hx⟩
    have hc : (a.src.element a.sizeof p.1).core m ∈ m.all_cores := by
      rw [h.element]
      exact core_mem_all_cores _
    refine ⟨_, hc, ?_⟩
    rw [h.writebacks hv hle hc, getD_some]
    exact mem_filterMap.mpr ⟨_, mem_map.mpr ⟨p, mem_filter.mpr
      ⟨hp, decide_eq_true rfl⟩, rfl⟩, hx⟩

/-- The copy of a piece with tag `t`. -/
def pieceCopy (m : Machine) (a : BufferArgs) (t : ℕ) (p : ℕ × ℕ) : Copy ℕ Core :=
  ⟨t, (a.src.element a.sizeof p.1).core m, (a.src.element a.sizeof p.1).pointer m, a.mycore,
    a.dst + (p.1 * a.sizeof : ℕ), p.2 * a.sizeof⟩

theorem ArraySource.moves (h : ArraySource a s b0 b1 first last nblock) (hv : a.Valid m)
    (hle : b0 ≤ b1) {p : ℕ × ℕ} (hp : p ∈ sourcePieces a.nelem b0 b1 first last nblock) (t : ℕ) :
    hv.plan.Moves (pieceCopy m a t p) (p.1 * a.sizeof) := by
  obtain ⟨-, hlen, hblock⟩ := sourcePieces_spec h.layout hle hp
  have hmul : (p.1 + p.2) * a.sizeof ≤ a.bytes := mul_le_mul_right _ hlen
  rw [add_mul] at hmul
  intro x hx
  simp only [pieceCopy] at hx ⊢
  have hin := pointer_add_one (m := m) (s := s + p.1 * a.sizeof) (x := x) (by omega)
  refine ⟨by show _ < a.bytes; omega, ?_, ?_⟩
  · show a.srcPlace m _ = _
    rw [h.srcPlace, ← add_assoc, hin.1, hin.2, h.element]
  · show (a.mycore, a.dst + _) = (a.mycore, _)
    rw [cast_add, add_assoc]

/-- The copies are those of the pieces that other cores store. -/
theorem ArraySource.of_mem_copies (h : ArraySource a s b0 b1 first last nblock) (hv : a.Valid m)
    (hle : b0 ≤ b1) {c : Copy ℕ Core} (hc : c ∈ a.copies m) :
    ∃ p ∈ sourcePieces a.nelem b0 b1 first last nblock, ∃ t, c = pieceCopy m a t p ∧
      (a.src.element a.sizeof p.1).core m ≠ a.mycore := by
  obtain ⟨⟨x, t⟩, hx, hr⟩ := mem_flatMap.mp hc
  obtain ⟨r, hrequest, rfl⟩ := mem_map.mp hr
  clear hr
  have hmem : x ∈ a.caches m := by
    rw [mem_zipIdx_iff_getElem?] at hx
    exact mem_of_getElem? hx
  obtain ⟨p, hp, hcache⟩ := (h.mem_caches hv hle).mp hmem
  obtain ⟨hpos, hlen, hblock⟩ := sourcePieces_spec h.layout hle hp
  refine ⟨p, hp, t, ?_⟩
  by_cases hcore : a.mycore = (a.src.element a.sizeof p.1).core m
  · -- a cache on the core of the buffer sends nothing
    obtain ⟨y, hy, -, hnone⟩ := writeback_cache_own hv hlen
    rw [← hcore, hy] at hcache
    rw [← some.inj hcache, hnone] at hrequest
    cases hrequest
  · have heq := writeback_cache_eq hv hpos hlen hcore
    rw [heq] at hcache
    cases hcache
    obtain rfl := mem_singleton.mp hrequest
    have hunpacks := (piece_inMemory hv hlen).unpacks (m := m) (zero_le _)
    rw [cast_zero, add_zero] at hunpacks
    refine ⟨?_, fun hsame => hcore hsame.symm⟩
    simp only [waiting, Cache.copy, piece_payload (show p.2 * a.sizeof ≤ 64 by omega)]
    simp only [pieceRequest, hunpacks.core, hunpacks.pointer, add_zero, Int.toNat_natCast, pieceCopy]

theorem ArraySource.mem_copies (h : ArraySource a s b0 b1 first last nblock) (hv : a.Valid m)
    (hle : b0 ≤ b1) {p : ℕ × ℕ} (hp : p ∈ sourcePieces a.nelem b0 b1 first last nblock)
    (hcore : a.mycore ≠ (a.src.element a.sizeof p.1).core m) : ∃ t, pieceCopy m a t p ∈ a.copies m := by
  obtain ⟨hpos, hlen, hblock⟩ := sourcePieces_spec h.layout hle hp
  obtain ⟨x, hx⟩ : ∃ x, x = waiting .releaser ((a.src.element a.sizeof p.1).core m) a.sizeof p.2
      ((a.src.element a.sizeof p.1).pointer m) [pieceRequest a p] := ⟨_, rfl⟩
  have hcache := writeback_cache_eq hv hpos hlen hcore
  rw [← hx] at hcache
  obtain ⟨t, ht⟩ := getElem?_of_mem ((h.mem_caches hv hle).mpr ⟨p, hp, hcache⟩)
  have hzip : (x, t) ∈ (a.caches m).zipIdx := mem_zipIdx_iff_getElem?.mpr ht
  have hrequest : pieceRequest a p ∈ x.requests := by
    rw [hx]
    exact mem_singleton.mpr rfl
  refine ⟨t, mem_flatMap.mpr ⟨(x, t), hzip, mem_map.mpr ⟨pieceRequest a p, hrequest, ?_⟩⟩⟩
  have hunpacks := (piece_inMemory hv hlen).unpacks (m := m) (zero_le _)
  rw [cast_zero, add_zero] at hunpacks
  simp only [hx, waiting, Cache.copy, piece_payload (show p.2 * a.sizeof ≤ 64 by omega)]
  simp only [pieceRequest, hunpacks.core, hunpacks.pointer, add_zero, Int.toNat_natCast, pieceCopy]

/-- **From a global array**, if it reaches the end of its first block and has no elements on the
    core of the buffer. -/
theorem ArraySource.copies_to_buffer (h : ArraySource a s b0 b1 first last nblock) (hv : a.Valid m)
    (hle : b0 ≤ b1) (hother : ∀ i < a.nelem, (a.src.element a.sizeof i).core m ≠ a.mycore) :
    CopiesToBuffer m a := by
  have hpieceCore : ∀ p ∈ sourcePieces a.nelem b0 b1 first last nblock,
      a.mycore ≠ (a.src.element a.sizeof p.1).core m := by
    intro p hp
    obtain ⟨hpos, hlen, -⟩ := sourcePieces_spec h.layout hle hp
    exact (hother p.1 (by omega)).symm
  have hcomplete : hv.Complete := by
    refine ⟨?_, ?_, ?_⟩
    · intro x hx
      obtain ⟨p, hp, hcache⟩ := (h.mem_caches hv hle).mp hx
      obtain ⟨hpos, hlen, -⟩ := sourcePieces_spec h.layout hle hp
      rw [writeback_cache_eq hv hpos hlen (hpieceCore p hp)] at hcache
      cases hcache
      rfl
    · intro c hc
      obtain ⟨p, hp, t, rfl, -⟩ := h.of_mem_copies hv hle hc
      exact ⟨_, h.moves hv hle hp t⟩
    · intro i hi
      -- the piece with the element that the byte belongs to
      have hpos := hv.sizeof_pos
      have hdiv : i / a.sizeof < a.nelem := Nat.div_lt_of_lt_mul (by rw [mul_comm]; exact hi)
      have hmem := (sourcePieces_perm h.layout hle).mem_iff.mpr (mem_range.mpr hdiv)
      obtain ⟨p, hp, hx⟩ := mem_flatMap.mp hmem
      obtain ⟨hlo, hhi⟩ := mem_range'_1.mp hx
      obtain ⟨t, ht⟩ := h.mem_copies hv hle hp (hpieceCore p hp)
      have hlo' := (le_div_iff_mul_le hpos).mp hlo
      have hhi' := (div_lt_iff_lt_mul hpos).mp hhi
      rw [add_mul] at hhi'
      exact ⟨_, ht, _, h.moves hv hle hp t, hlo', hhi'⟩
  apply hcomplete.copies_to_buffer
  · rw [if_neg (by simp [h.is_2D])]
    intro c hc
    refine ⟨_, h.writebacks hv hle hc, ?_⟩
    intro w hw
    obtain ⟨p, hp, rfl⟩ := mem_map.mp hw
    obtain ⟨hmem, hcore⟩ := mem_filter.mp hp
    obtain ⟨hpos, hlen, -⟩ := sourcePieces_spec h.layout hle hmem
    have hc' := of_decide_eq_true hcore
    rw [writeback_cache_eq hv hpos hlen (hc' ▸ hpieceCore p hmem)]
    rfl
  · intro x hx r hr
    obtain ⟨p, hp, hcache⟩ := (h.mem_caches hv hle).mp hx
    obtain ⟨hpos, hlen, hblock⟩ := sourcePieces_spec h.layout hle hp
    rw [writeback_cache_eq hv hpos hlen (hpieceCore p hp)] at hcache
    cases hcache
    obtain rfl := mem_singleton.mp hr
    rw [piece_payload (show p.2 * a.sizeof ≤ 64 by omega)]
    exact Int.natCast_nonneg _

theorem ArraySource.not_copies_own (h : ArraySource a s b0 b1 first last nblock) (hv : a.Valid m)
    (hle : b0 ≤ b1) {i : ℕ} (hi : i < a.nelem) (hown : (a.src.element a.sizeof i).core m = a.mycore) :
    ¬CopiesToBuffer m a := by
  have hbyte : i * a.sizeof < a.bytes := mul_lt_mul_of_pos_right hi hv.sizeof_pos
  apply not_copies_to_buffer hv _ hbyte
  · intro c hc lo hmoves k hk heq
    obtain ⟨p, hp, t, rfl, hcore⟩ := h.of_mem_copies hv hle hc
    -- all bytes of a copy are on the core of its piece
    have hsrc := (hmoves k hk).2.1
    rw [heq] at hsrc
    have hat : a.srcPlace m (i * a.sizeof) = _ := hsrc
    rw [h.srcPlace, ← h.element, hown] at hat
    exact hcore (congrArg Prod.fst hat).symm
  · intro c hc
    obtain ⟨p, hp, t, rfl, -⟩ := h.of_mem_copies hv hle hc
    exact ⟨_, h.moves hv hle hp t⟩

theorem memcpy_last_short (h : ArraySource a s b0 b1 first last nblock) (hlt : b1 < b0)
    {dst : GlobalAddress} {c : ℕ} (hc : BlockCyclic.owner 64 m.cores s = c) :
    ∃ ws, memcpy_last m a.sizeof c dst ⟨(s : ℤ)⟩ a.nelem = some (ws, ⟨((s / 64 * 64 : ℕ) : ℤ)⟩) := by
  have hlast := h.layout.last_lt
  have hmod := h.layout.last_mul
  have hpos := h.layout.pos
  have hb0 := h.layout.b0_eq
  have hb1 := h.layout.b1_eq
  have hblock : (s + a.nelem * a.sizeof) / 64 = s / 64 := by
    have := Nat.div_le_div_right (c := 64) (Nat.le_add_right s (a.nelem * a.sizeof))
    omega
  -- going back by the elements of the last block leads to the start of the block
  have hback : (⟨((s + a.nelem * a.sizeof : ℕ) : ℤ)⟩ : GlobalAddress).element a.sizeof (-(last : ℕ)) =
      ⟨((s / 64 * 64 : ℕ) : ℤ)⟩ := by
    apply GlobalAddress.ext
    simp only [element]
    have hmul : (-(last : ℕ) : ℤ) * a.sizeof = -((last * a.sizeof : ℕ) : ℤ) := by
      push_cast
      ring
    rw [hmul, hmod]
    omega
  rcases Nat.eq_zero_or_pos last with hzero | hlastpos
  · have hend : s + a.nelem * a.sizeof = s / 64 * 64 := by
      rw [hzero, zero_mul] at hmod
      omega
    refine ⟨[], ?_⟩
    simp [memcpy_last, h.layout.nlastcore_eq, hzero, element_natCast, hend]
  · have hsizeof : a.sizeof ≤ last * a.sizeof := Nat.le_mul_of_pos_left _ hlastpos
    have hprev : (⟨((s + a.nelem * a.sizeof : ℕ) : ℤ)⟩ : GlobalAddress).element a.sizeof (-1) =
        ⟨((s + a.nelem * a.sizeof - a.sizeof : ℕ) : ℤ)⟩ := by
      apply GlobalAddress.ext
      simp only [element]
      omega
    have hown : BlockCyclic.owner 64 m.cores (s + a.nelem * a.sizeof - a.sizeof) = c := by
      rw [← hc, BlockCyclic.owner, BlockCyclic.owner]
      congr 1
      omega
    have hindex : (⟨(s : ℤ)⟩ : GlobalAddress).element a.sizeof (a.nelem - (last : ℕ)) =
        ⟨((s / 64 * 64 : ℕ) : ℤ)⟩ := by
      rw [← hback]
      apply GlobalAddress.ext
      simp only [element]
      push_cast
      ring
    have hstart : BlockCyclic.owner 64 m.cores (s / 64 * 64) = c := by
      rw [owner_block, hc]
    simp only [memcpy_last, h.layout.nlastcore_eq, h.layout.nblock_eq, element_natCast, hprev, hindex,
      hback, core_natCast, hown, hstart]
    rw [if_pos ⟨trivial, by exact_mod_cast hlastpos, by exact_mod_cast hlast.ne⟩,
      if_neg (not_not.mpr rfl)]
    exact ⟨_, rfl⟩

/-- Then the core of the first element finds a negative number of elements to copy, and asks for
    room for more than `2^57` write-backs. -/
theorem ArraySource.not_copies_short (h : ArraySource a s b0 b1 first last nblock) (hv : a.Valid m)
    (hlt : b1 < b0) : ¬CopiesToBuffer m a := by
  intro hcopies
  have hstarts := hcopies.starts
  rw [if_neg (by simp [h.is_2D])] at hstarts
  obtain ⟨ws, hws, -⟩ := hstarts _ (core_mem_all_cores (m := m) s)
  rw [core_natCast] at hws
  obtain ⟨c, hc⟩ : ∃ c, c = BlockCyclic.owner 64 m.cores s := ⟨_, rfl⟩
  have hcores : c < m.cores := hc ▸ BlockCyclic.owner_lt m.cores_pos s
  rw [← hc, BufferArgs.writebacks] at hws
  have hallocates : a.allocates m c = true := by
    by_contra hno
    rw [if_neg hno] at hws
    cases hws
  obtain ⟨ws', hlast⟩ := @memcpy_last_short m a s b0 b1 first last nblock h hlt a.dstAddress _ hc.symm
  rw [BufferArgs.allocates, h.src, hlast, memcpy_first_eq h.layout h.dvd h.aligned] at hallocates
  simp only [decide_eq_true_eq, ← hc, if_true] at hallocates
  -- the end lies a block before the start
  have hne : (c : ℤ) ≠ -1 := by omega
  have hstep := BlockCyclic.lower_add (B := 64) (by norm_num) hcores (s := s / 64 * 64) (d := 64)
    (by omega)
  rw [if_pos (by rw [owner_block, hc])] at hstep
  have hsum : s / 64 * 64 + 64 = (s / 64 + 1) * 64 := by ring
  rw [hsum] at hstep
  have hsizeof : (a.sizeof : ℤ) ≠ 0 := by exact_mod_cast h.layout.pos.ne'
  have hdiff : ((⟨((s / 64 * 64 : ℕ) : ℤ)⟩ : GlobalAddress).localize m a.sizeof c -
      (⟨(((s / 64 + 1) * 64 : ℕ) : ℤ)⟩ : GlobalAddress).localize m a.sizeof c) / a.sizeof =
        -(nblock : ℤ) := by
    rw [localize_default 0 hne, localize_default 0 hne, localize_natCast h.dvd,
      localize_natCast h.dvd, hstep]
    have hmul : ((BlockCyclic.lower 64 m.cores (s / 64 * 64) c : ℕ) : ℤ) +
        m.global_memory_chunk_base - (((BlockCyclic.lower 64 m.cores (s / 64 * 64) c + 64 : ℕ) : ℤ) +
          m.global_memory_chunk_base) =
          -(nblock : ℤ) * a.sizeof := by
      have := h.layout.nblock_mul
      push_cast
      rw [neg_mul, show (nblock : ℤ) * a.sizeof = 64 by exact_mod_cast this]
      ring
    rw [hmul, Int.mul_ediv_cancel _ hsizeof]
  have hnb := h.layout.nblock_pos
  have hsmall : nblock ≤ 64 := by
    have := h.layout.nblock_mul
    exact this ▸ Nat.le_mul_of_pos_right _ h.layout.pos
  have hmany : 2 ^ 57 ≤ ((2 ^ 64 - nblock : ℕ) : ℤ) / nblock := by
    rw [Int.le_ediv_iff_mul_le (by exact_mod_cast hnb)]
    norm_num
    omega
  have hroom := hv.limited
  rw [nlocalblocks, hdiff, h.layout.nblock_eq] at hallocates
  have hneg : as_size_t (-(nblock : ℤ)) = (2 ^ 64 - nblock : ℕ) := by
    unfold as_size_t
    norm_num
    omega
  rw [hneg] at hallocates
  omega

end from_array

/-- **When the buffer gets the source.** -/
theorem memcpy_to_buffer_iff (m : Machine) (a : BufferArgs) (hv : a.Valid m) :
    CopiesToBuffer m a ↔
      if a.src.is_2D then
        a.nelem = 0 ∨ (a.src.core m ≠ a.mycore ∧
          if a.locale_of (a.src.core m) = a.locale_of a.mycore then
            a.bytes < 2 ^ 32 ∨ 2 ^ 31 ≤ a.bytes % 2 ^ 32
          else a.bytes < 2 ^ 15)
      else (a.sizeof : ℤ) ∣ a.src.raw_bits ∧ nfirstcore m a.sizeof a.src ≤ a.nelem ∧
        ∀ i < a.nelem, (a.src.element a.sizeof i).core m ≠ a.mycore := by
  cases hv.source with
  | linear s hsrc hdvd hblock hspace =>
    have hraw : (a.sizeof : ℤ) ∣ a.src.raw_bits ↔ a.sizeof ∣ s := by
      rw [hsrc]
      exact Int.natCast_dvd_natCast
    by_cases halign : a.sizeof ∣ s
    swap
    · rw [if_neg (by simp [hsrc, is_2D_natCast])]
      refine iff_of_false (fun hcopies => ?_) fun hcond => halign (hraw.mp hcond.1)
      have hstarts := hcopies.starts
      rw [if_neg (by simp [hsrc, is_2D_natCast])] at hstarts
      obtain ⟨ws, hws, -⟩ := hstarts _ (core_mem_all_cores (m := m) s)
      rw [writebacks, hsrc,
        do_memcpy_locally_unaligned hdvd (fun h64 => halign (hblock h64)) halign] at hws
      simp at hws
    have h : ArraySource a s _ _ _ _ _ :=
      ⟨hsrc, hdvd, halign, hspace.le, exists_layout hdvd halign a.nelem⟩
    have hfirst := h.layout.nfirstcore_eq hdvd halign m
    rw [if_neg (by simp [h.is_2D]), and_iff_right (hraw.mpr halign), hsrc, hfirst, ← hsrc, cast_le,
      h.layout.le_iff]
    constructor
    · intro hcopies
      have hle : s / 64 + 1 ≤ (s + a.nelem * a.sizeof) / 64 := by
        by_contra hlt
        exact h.not_copies_short hv (Nat.lt_of_not_le hlt) hcopies
      exact ⟨hle, fun i hi hown => h.not_copies_own hv hle hi hown hcopies⟩
    · rintro ⟨hle, hother⟩
      exact h.copies_to_buffer hv hle hother
  | two_d p k hsrc hk hlow hhigh =>
    have h : InMemory p a.bytes k := ⟨hlow, hhigh, hk⟩
    have hunpacks := h.unpacks (m := m) (zero_le _)
    rw [cast_zero, add_zero, ← hsrc] at hunpacks
    rw [if_pos hunpacks.two_d, hunpacks.core]
    have hfits : Fits .acquirer a.bytes ↔ a.bytes < 2 ^ 32 ∨ 2 ^ 31 ≤ a.bytes % 2 ^ 32 := by
      simp only [Fits, forall_const]
    rw [← hfits]
    by_cases hzero : a.nelem = 0
    · obtain ⟨c, hc, hawaited, hrequests⟩ := make_cache_zero m .acquirer a.mycore a.sizeof a.src
        (a.dstAddress.pointer m)
      rw [← hzero] at hc
      have hnone := no_copies hunpacks.two_d hc hrequests
      have hcomplete : hv.Complete := by
        refine ⟨?_, by simp [hnone], by simp [bytes, hzero]⟩
        intro x hx
        rw [(caches_two_d hunpacks.two_d hc).1] at hx
        obtain rfl := mem_singleton.mp hx
        rw [hawaited, hrequests]
        rfl
      refine iff_of_true (hcomplete.copies_to_buffer ?_ ?_) (.inl hzero)
      · rw [if_pos hunpacks.two_d]
        exact isSome_iff_exists.mpr ⟨c, hc⟩
      · intro x hx r hr
        rw [(caches_two_d hunpacks.two_d hc).1] at hx
        obtain rfl := mem_singleton.mp hx
        rw [hrequests] at hr
        cases hr
    · by_cases hcore : k = a.mycore
      · refine iff_of_false (not_copies_own_buffer hv hsrc h hzero hcore) ?_
        rintro (h0 | ⟨hne, -⟩)
        · exact hzero h0
        · exact hne hcore
      · rw [or_iff_right hzero, and_iff_right hcore]
        split_ifs with hlocale
        · refine ⟨fun hcopies => ?_, fun hcond => ?_⟩
          · by_contra hcond
            exact not_copies_wrapped hv hsrc h hzero hcore hlocale hcond hcopies
          · exact copies_from_buffer hv hsrc h hzero hcore hcond (.inl hlocale)
        · refine ⟨fun hcopies => ?_, fun hlt => ?_⟩
          · by_contra hlong
            exact not_copies_truncated hv hsrc h hzero hcore hlocale (Nat.le_of_not_lt hlong) hcopies
          · exact copies_from_buffer hv hsrc h hzero hcore (fun _ => .inl (by omega)) (.inr hlt)

/-- Three words from a buffer on core `k` to one on core 0; each core is a locale. -/
def threeWords (k : Core) : BufferArgs := ⟨8, 4096, 0, TwoDimensional 8192 k, 3, 8, id⟩

theorem threeWords_inMemory {k : Core} (hk : 0 ≤ k ∧ k < 2 ^ 15) :
    InMemory 8192 (threeWords k).bytes k := by
  refine ⟨by norm_num, ?_, hk⟩
  simp [bytes, threeWords]

theorem threeWords_valid (m : Machine) {k : Core} (hk : 0 ≤ k ∧ k < 2 ^ 15) :
    (threeWords k).Valid m := by
  have h := threeWords_inMemory hk
  refine ⟨by simp [threeWords], by simp [threeWords], by simp [threeWords],
    by simp [bytes, threeWords], .two_d 8192 k rfl hk h.low h.high, ?_,
    by simp [threeWords], by simp [threeWords]⟩
  intro i hi j hj heq
  rw [srcPlace_two_d rfl h hi.le] at heq
  have hat := congrArg Prod.snd heq
  simp only [dstPlace, bytes, threeWords] at hat hi hj
  omega

/-- They arrive from another core. -/
theorem three_words_copied : CopiesToBuffer ⟨2, by decide, 0⟩ (threeWords 1) := by
  have h := threeWords_inMemory (k := 1) (by decide)
  have hunpacks := h.unpacks (m := ⟨2, by decide, 0⟩) (zero_le _)
  rw [cast_zero, add_zero] at hunpacks
  refine (memcpy_to_buffer_iff _ _ (threeWords_valid _ (by decide))).mpr ?_
  have h2d : (threeWords 1).src.is_2D = true := hunpacks.two_d
  rw [if_pos h2d]
  right
  have hcore : (threeWords 1).src.core ⟨2, by decide, 0⟩ = 1 := hunpacks.core
  rw [hcore]
  decide

/-- On one core nothing is copied. -/
theorem three_words_not_copied :
    (threeWords 0).Valid ⟨2, by decide, 0⟩ ∧ ¬CopiesToBuffer ⟨2, by decide, 0⟩ (threeWords 0) :=
  ⟨threeWords_valid _ (by decide), not_copies_own_buffer (threeWords_valid _ (by decide)) rfl
    (threeWords_inMemory (by decide)) (by decide) rfl⟩

end Grappa
