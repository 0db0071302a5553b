import AdvCompArch.Grappa.CacheRuns
import Mathlib.Tactic.IntervalCases

/-! # What an acquire and a release do

    The invariant of the runs says, for each stage, what the packets there guarantee: from
    the stage on at which a payload is read it is the piece of the source, and from the
    stage on at which it is written the destination has that piece.  Since the packets
    conserve the number of requests and the number of bytes, the counters of the replies
    reach their expected values at the last reply. -/

namespace Grappa

namespace Incoherent

open Transition GlobalAddress ByteMemory Stages Function List Option

variable {m : Machine} {b : Behavior} {R : CachedRange}

/-! ### Pieces of the range -/

/-- A request is for a piece of the range, on one core. -/
structure IsPiece (m : Machine) (R : CachedRange) (r : RequestArgs) : Prop where
  offset_nonneg : 0 ≤ r.offset
  inside : ∀ k < r.request_bytes.toNat, r.offset.toNat + k < R.bytes
  core : ∀ k < r.request_bytes.toNat,
    (R.byte (r.offset.toNat + k)).core m = r.request_address.core m
  pointer : ∀ k < r.request_bytes.toNat,
    (R.byte (r.offset.toNat + k)).pointer m = r.request_address.pointer m + k

theorem mem_byte_addresses {a : GlobalAddress} {n : ℕ} {x : ℤ} :
    x ∈ byte_addresses a n ↔ ∃ i < n, a.raw_bits + i = x := by
  simp [byte_addresses]

theorem CachedRange.raw_bits_byte (R : CachedRange) (i : ℕ) :
    R.byte i = Raw (R.request_address.raw_bits + i) := by
  simp [CachedRange.byte, element, Raw, raw_bits]

theorem Covers.isPiece {rs : List RequestArgs} (h : Covers m R rs) {r : RequestArgs} (hr : r ∈ rs) :
    IsPiece m R r := by
  have haddr := h.addresses r hr
  obtain ⟨hpos, hblock⟩ := h.one_block r hr
  have hmem : ∀ k : ℕ, k < r.request_bytes.toNat →
      ∃ i < R.bytes, R.request_address.raw_bits + (i : ℤ) = r.request_address.raw_bits + k := by
    intro k hk
    rw [← mem_byte_addresses, ← h.partition]
    apply mem_flatMap.mpr
    exact ⟨r, hr, mem_byte_addresses.mpr ⟨k, hk, rfl⟩⟩
  obtain ⟨i₀, -, hi₀⟩ := hmem 0 (by omega)
  have hoff : 0 ≤ r.offset := by omega
  have hbyte : ∀ k : ℕ, R.byte (r.offset.toNat + k) = Raw (r.request_address.raw_bits + k) := by
    intro k
    rw [CachedRange.raw_bits_byte]
    congr 1
    push_cast
    omega
  refine ⟨hoff, ?_, ?_, ?_⟩
  · intro k hk
    obtain ⟨i, hi, heq⟩ := hmem k hk
    omega
  · intro k hk
    rw [hbyte]
    exact (hblock k (by omega)).2.1
  · intro k hk
    rw [hbyte]
    exact (hblock k (by omega)).2.2

theorem Covers.exists_piece {rs : List RequestArgs} (h : Covers m R rs) {i : ℕ} (hi : i < R.bytes) :
    ∃ r ∈ rs, ∃ k < r.request_bytes.toNat, r.offset.toNat + k = i := by
  have hmem : R.request_address.raw_bits + (i : ℤ) ∈ byte_addresses R.request_address R.bytes :=
    mem_byte_addresses.mpr ⟨i, hi, rfl⟩
  rw [← h.partition] at hmem
  obtain ⟨r, hr, hr'⟩ := mem_flatMap.mp hmem
  obtain ⟨k, hk, heq⟩ := mem_byte_addresses.mp hr'
  have haddr := h.addresses r hr
  have hoff := (h.isPiece hr).offset_nonneg
  exact ⟨r, hr, k, hk, by omega⟩

theorem Covers.sum_bytes {rs : List RequestArgs} (h : Covers m R rs) :
    (rs.map fun r => r.request_bytes.toNat).sum = R.bytes := by
  have hlen := congrArg length h.partition
  simpa [length_flatMap, byte_addresses] using hlen

theorem CachedRange.byte_natCast {s : ℕ} (hs : R.request_address = ⟨(s : ℤ)⟩) (i : ℕ) :
    R.byte i = ⟨((s + i : ℕ) : ℤ)⟩ := by
  rw [CachedRange.raw_bits_byte, hs]
  simp [Raw, raw_bits]

theorem CachedRange.byte_injective (R : CachedRange) {i j : ℕ}
    (hcore : (R.byte i).core m = (R.byte j).core m)
    (hpointer : (R.byte i).pointer m = (R.byte j).pointer m) : i = j := by
  obtain ⟨s, hs, -⟩ := R.exists_nat
  simp only [byte_natCast hs, core_natCast, pointer_natCast, Nat.cast_inj, add_left_inj] at hcore hpointer
  have := BlockCyclic.owner_offset_injective (by norm_num) hcore hpointer
  omega

/-! ### Source and destination -/

section data

variable {β : Type*}

/-- Byte `i` of the local copy. -/
def State.localByte (p : ℤ) (s : State β) (i : ℕ) : β := s.buffer (p + i)

/-- Byte `i` of the range in global memory. -/
def State.globalByte (m : Machine) (R : CachedRange) (s : State β) (i : ℕ) : β :=
  s.global ((R.byte i).core m) ((R.byte i).pointer m)

/-- Where the bytes come from. -/
def State.source (m : Machine) (b : Behavior) (R : CachedRange) (p : ℤ) (s : State β) : ℕ → β :=
  match b with
  | .acquirer => s.globalByte m R
  | .releaser => s.localByte p

/-- Where they go. -/
def State.destination (m : Machine) (b : Behavior) (R : CachedRange) (p : ℤ) (s : State β) : ℕ → β :=
  match b with
  | .acquirer => s.localByte p
  | .releaser => s.globalByte m R

/-- The stage from which on the payload of a packet has been read. -/
def Behavior.loaded : Behavior → ℕ
  | .acquirer => 3
  | .releaser => 2

/-- The stage from which on the payload of a packet has been written. -/
def Behavior.stored : Behavior → ℕ
  | .acquirer => 4
  | .releaser => 3

/-- The piece of the bytes `T` that a request is for. -/
def pieceOf (T : ℕ → β) (r : RequestArgs) : List β :=
  (List.range r.request_bytes.toNat).map fun k => T (r.offset.toNat + k)

@[simp] theorem length_pieceOf (T : ℕ → β) (r : RequestArgs) :
    (pieceOf T r).length = r.request_bytes.toNat := by
  simp [pieceOf]

theorem getElem_pieceOf (T : ℕ → β) (r : RequestArgs) {k : ℕ} (hk : k < (pieceOf T r).length) :
    (pieceOf T r)[k] = T (r.offset.toNat + k) := by
  simp [pieceOf]

theorem store_localByte {T : ℕ → β} {r : RequestArgs} (hr : IsPiece m R r) (p : ℤ) (s : State β) :
    let s' := { s with buffer := store s.buffer (p + r.offset) (pieceOf T r) }
    (∀ i, s'.localByte p i = T i ∨ s'.localByte p i = s.localByte p i) ∧
      ∀ k < r.request_bytes.toNat, s'.localByte p (r.offset.toNat + k) = T (r.offset.toNat + k) := by
  have hoff := hr.offset_nonneg
  intro s'
  constructor
  · intro i
    rcases store_cases s.buffer (p + r.offset) (pieceOf T r) (p + i) with ⟨k, hk, hq, heq⟩ | ⟨-, heq⟩
    · have hi : i = r.offset.toNat + k := by omega
      rw [getElem_pieceOf, ← hi] at heq
      exact .inl heq
    · exact .inr heq
  · intro k hk
    have hk' : k < (pieceOf T r).length := by simpa using hk
    have hin : store s.buffer (p + r.offset) (pieceOf T r) (p + r.offset + k) = (pieceOf T r)[k] :=
      store_inside hk'
    rw [getElem_pieceOf] at hin
    have haddr : p + ((r.offset.toNat + k : ℕ) : ℤ) = p + r.offset + k := by
      push_cast
      omega
    exact (congrArg _ haddr).trans hin

theorem store_globalByte {T : ℕ → β} {r : RequestArgs} (hr : IsPiece m R r) (s : State β) :
    let core := r.request_address.core m
    let s' := { s with
      global := update s.global core
        (store (s.global core) (r.request_address.pointer m) (pieceOf T r)) }
    (∀ i, s'.globalByte m R i = T i ∨ s'.globalByte m R i = s.globalByte m R i) ∧
      ∀ k < r.request_bytes.toNat, s'.globalByte m R (r.offset.toNat + k) = T (r.offset.toNat + k) := by
  intro core s'
  have hupdate : ∀ i, (R.byte i).core m = core → s'.globalByte m R i =
      store (s.global core) (r.request_address.pointer m) (pieceOf T r) ((R.byte i).pointer m) := by
    intro i hi
    simp only [State.globalByte, s', hi, update_self]
  constructor
  · intro i
    by_cases hcore : (R.byte i).core m = core
    · rw [hupdate i hcore]
      rcases store_cases (s.global core) (r.request_address.pointer m) (pieceOf T r)
        ((R.byte i).pointer m) with ⟨k, hk, hq, heq⟩ | ⟨-, heq⟩
      · -- the byte written is this one, since places are not shared
        rw [length_pieceOf] at hk
        have hi : i = r.offset.toNat + k := by
          apply R.byte_injective (m := m)
          · rw [hcore, hr.core k hk]
          · rw [hq, hr.pointer k hk]
        rw [getElem_pieceOf, ← hi] at heq
        exact .inl heq
      · rw [heq, State.globalByte, hcore]
        exact .inr rfl
    · right
      simp only [State.globalByte, s', update_of_ne hcore]
  · intro k hk
    rw [hupdate _ (hr.core k hk), hr.pointer k hk]
    rw [store_inside (by simpa using hk), getElem_pieceOf]

end data

/-! ### The invariant -/

section invariant

variable {β : Type*} {o : Object} {rs : List RequestArgs} {T : ℕ → β} {s s' : State β}

/-- No packet is lost or made on the way. -/
structure Conserved (rs : List RequestArgs) (stages : ℕ → List (Packet β)) : Prop where
  packets : weight (fun _ _ => 1) 5 stages = rs.length
  bytes : weight (fun _ x => x.args.request_bytes.toNat) 5 stages =
    (rs.map fun r => r.request_bytes.toNat).sum
  covered : ∀ r ∈ rs, Covered Packet.args 5 stages r
  requested : ∀ i x, x ∈ stages i → x.args ∈ rs

/-- What the packets of a stage guarantee about the bytes `T` of the source. -/
structure Carried (m : Machine) (b : Behavior) (R : CachedRange) (p : ℤ) (T : ℕ → β)
    (s : State β) : Prop where
  source : ∀ i < R.bytes, s.source m b R p i = T i
  payload : ∀ i x, x ∈ s.stages i → b.loaded ≤ i → x.payload = pieceOf T x.args
  destination : ∀ i x, x ∈ s.stages i → b.stored ≤ i → ∀ k < x.args.request_bytes.toNat,
    s.destination m b R p (x.args.offset.toNat + k) = T (x.args.offset.toNat + k)

/-- The counters of the object and where the owner is. -/
structure Counted (b : Behavior) (rs : List RequestArgs) (s : State β) : Prop where
  responses : s.object.response_count_ = (s.stages 4).length
  replied : b = .acquirer → s.object.total_reply_payload_ =
    as_int (((s.stages 4).map fun x => x.args.request_bytes.toNat).sum : ℕ)
  completed : s.object.completed_ = true ↔
    s.object.started_ = true ∧ (s.stages 4).length = rs.length
  suspended : s.owner = .suspended → s.object.thread_ = true ∧ s.object.completed_ = false
  thread : s.object.thread_ = true → s.owner = .suspended ∨ s.owner = .woken
  sending : s.stages 0 ≠ [] → ∃ t, s.owner = .sending t

/-- The invariant of the runs from the object `o` on. -/
structure Inv (m : Machine) (b : Behavior) (R : CachedRange) (o : Object) (rs : List RequestArgs)
    (T : ℕ → β) (s : State β) : Prop where
  pointer : s.object.pointer_ = o.pointer_
  expected : s.object.num_messages_ = o.num_messages_ ∧
    s.object.expected_reply_payload_ = o.expected_reply_payload_
  idle : s.object.started_ = false → (∀ i, s.stages i = []) ∧ s.owner = .running ∧ rs ≠ []
  conserved : s.object.started_ = true → Conserved rs s.stages
  carried : Carried m b R o.pointer_ T s
  counted : Counted b rs s

/-- A move of a packet that keeps its request. -/
theorem Conserved.shift {stages : ℕ → List (Packet β)} {j k : ℕ} {x y : Packet β}
    (h : Conserved rs stages) (hx : (stages j)[k]? = some x) (hy : y.args = x.args) (hj : j + 1 < 5) :
    Conserved rs (Stages.shift stages j k y) where
  packets := by
    have := weight_shift (fun _ _ => 1) hx (y := y) hj
    rw [← h.packets]
    omega
  bytes := by
    have := weight_shift (fun _ x => x.args.request_bytes.toNat) hx (y := y) hj
    rw [← h.bytes]
    rw [hy] at this
    omega
  covered := fun r hr => covered_shift hx hy hj (h.covered r hr)
  requested := by
    intro i z hz
    rcases mem_shift hz with hz | ⟨-, rfl⟩
    · exact h.requested i z hz
    · rw [hy]
      exact h.requested j x (mem_of_getElem? hx)

theorem Conserved.sum_lengths {stages : ℕ → List (Packet β)} (h : Conserved rs stages) :
    (stages 0).length + (stages 1).length + (stages 2).length + (stages 3).length +
      (stages 4).length = rs.length := by
  simpa [weight, Finset.sum_range_succ] using h.packets

theorem Conserved.sum_bytes {stages : ℕ → List (Packet β)} (h : Conserved rs stages)
    (hlast : (stages 4).length = rs.length) :
    ((stages 4).map fun x => x.args.request_bytes.toNat).sum =
      (rs.map fun r => r.request_bytes.toNat).sum := by
  have hsum := h.sum_lengths
  have h0 : stages 0 = [] := eq_nil_of_length_eq_zero (by omega)
  have h1 : stages 1 = [] := eq_nil_of_length_eq_zero (by omega)
  have h2 : stages 2 = [] := eq_nil_of_length_eq_zero (by omega)
  have h3 : stages 3 = [] := eq_nil_of_length_eq_zero (by omega)
  have := h.bytes
  simpa [weight, Finset.sum_range_succ, h0, h1, h2, h3] using this

theorem Carried.shift {p : ℤ} {j k : ℕ} {x y : Packet β} (h : Carried m b R p T s)
    (hx : (s.stages j)[k]? = some x) (hstages : s'.stages = Stages.shift s.stages j k y)
    (hy : y.args = x.args) (hsource : ∀ i < R.bytes, s'.source m b R p i = s.source m b R p i)
    (hdest : ∀ i, s'.destination m b R p i = T i ∨
      s'.destination m b R p i = s.destination m b R p i)
    (hpayload : b.loaded ≤ j + 1 → y.payload = pieceOf T x.args)
    (hstored : b.stored = j + 1 → ∀ k < x.args.request_bytes.toNat,
      s'.destination m b R p (x.args.offset.toNat + k) = T (x.args.offset.toNat + k)) :
    Carried m b R p T s' where
  source := fun i hi => (hsource i hi).trans (h.source i hi)
  payload := by
    intro i z hz hi
    rw [hstages] at hz
    rcases mem_shift hz with hz | ⟨rfl, rfl⟩
    · exact h.payload i z hz hi
    · rw [hpayload hi, hy]
  destination := by
    intro i z hz hi k hk
    rw [hstages] at hz
    rcases mem_shift hz with hz | ⟨rfl, rfl⟩
    · rcases hdest (z.args.offset.toNat + k) with heq | heq
      · exact heq
      · exact heq.trans (h.destination i z hz hi k hk)
    · rw [hy] at hk ⊢
      rcases hi.eq_or_lt with hnow | hbefore
      · exact hstored hnow k hk
      · -- the packet had been written before this move
        rcases hdest (x.args.offset.toNat + k) with heq | heq
        · exact heq
        · exact heq.trans (h.destination j x (mem_of_getElem? hx) (by omega) k hk)

theorem Carried.congr {p : ℤ} (h : Carried m b R p T s) (hstages : s'.stages = s.stages)
    (hbuffer : s'.buffer = s.buffer) (hglobal : s'.global = s.global) : Carried m b R p T s' := by
  have hlocal : s'.localByte p = s.localByte p := by
    funext i
    rw [State.localByte, hbuffer]
    rfl
  have hglob : s'.globalByte m R = s.globalByte m R := by
    funext i
    rw [State.globalByte, hglobal]
    rfl
  have hsource : s'.source m b R p = s.source m b R p := by
    cases b
    · exact hglob
    · exact hlocal
  have hdest : s'.destination m b R p = s.destination m b R p := by
    cases b
    · exact hlocal
    · exact hglob
  refine ⟨?_, ?_, ?_⟩
  · rw [hsource]
    exact h.source
  · rw [hstages]
    exact h.payload
  · rw [hstages, hdest]
    exact h.destination

/-! ### Preservation -/

/-- The object after `reset`, and the requests that it will send. -/
structure Setting (m : Machine) (b : Behavior) (R : CachedRange) (o : Object)
    (rs : List RequestArgs) : Prop where
  requests : do_requests m b R.sizeof R.request_address R.count = some rs
  covers : Covers m R rs
  messages : o.num_messages_ = rs.length
  small : rs.length < 2 ^ 31
  expected : o.expected_reply_payload_ = as_int (R.bytes : ℕ)
  started : o.started_ = true ↔ rs = []
  completed : o.completed_ = o.started_
  fresh : o.response_count_ = 0 ∧ o.total_reply_payload_ = 0 ∧ o.thread_ = false

theorem as_int_add (x y : ℤ) : as_int (as_int x + y) = as_int (x + y) := by
  unfold as_int
  exact Int.bmod_add_bmod ..

theorem Object.reply_cases {o o' : Object} {payload_size : ℤ} (h : o.reply b payload_size = some o') :
    (o'.started_ = o.started_ ∧ o'.pointer_ = o.pointer_ ∧ o'.thread_ = o.thread_ ∧
      o'.num_messages_ = o.num_messages_ ∧
      o'.expected_reply_payload_ = o.expected_reply_payload_) ∧
    o'.response_count_ = as_int (o.response_count_ + 1) ∧
    o'.completed_ = (o.completed_ || decide (as_int (o.response_count_ + 1) = o.num_messages_)) ∧
    (b = .acquirer → o'.total_reply_payload_ = as_int (o.total_reply_payload_ + payload_size)) := by
  simp only [Object.reply] at h
  split_ifs at h with hlast hcheck
  · cases h
    cases b <;> simp [hlast]
  · cases h
    cases b <;> simp [hlast]

theorem Inv.advance_quiet (h : Inv m b R o rs T s) {j k : ℕ}
    {x y : Packet β} (hj : j = 1 ∨ j = 2) (hx : (s.stages j)[k]? = some x)
    (hstages : s'.stages = Stages.shift s.stages j k y) (hy : y.args = x.args) (hobject : s'.object = s.object)
    (howner : s'.owner = s.owner) (hcarried : Carried m b R o.pointer_ T s') :
    Inv m b R o rs T s' := by
  have hstarted : s.object.started_ = true := by
    by_contra hns
    have hnil := (h.idle (by simpa using hns)).1 j
    rw [hnil] at hx
    cases hx
  have h4 : s'.stages 4 = s.stages 4 := by
    rw [hstages]
    exact shift_other (by omega) (by omega)
  have h0 : s'.stages 0 = s.stages 0 := by
    rw [hstages]
    exact shift_other (by omega) (by omega)
  have hcount := h.counted
  constructor
  · rw [hobject]
    exact h.pointer
  · rw [hobject]
    exact h.expected
  · rw [hobject, hstarted]
    nofun
  · intro _
    rw [hstages]
    exact (h.conserved hstarted).shift hx hy (by omega)
  · exact hcarried
  · constructor
    · rw [hobject, h4]
      exact hcount.responses
    · rw [hobject, h4]
      exact hcount.replied
    · rw [hobject, h4]
      exact hcount.completed
    · rw [hobject, howner]
      exact hcount.suspended
    · rw [hobject, howner]
      exact hcount.thread
    · rw [h0, howner]
      exact hcount.sending

/-- A reply is counted; the last one completes the exchange and wakes the owner. -/
theorem Inv.advance_reply (hset : Setting m b R o rs) (h : Inv m b R o rs T s) {k : ℕ}
    {x : Packet β} (hx : (s.stages 3)[k]? = some x) {o' : Object}
    (hreply : s.object.reply b x.payload.length = some o')
    (hstages : s'.stages = Stages.shift s.stages 3 k x) (hobject : s'.object = o')
    (howner : s'.owner =
      if o'.response_count_ = o'.num_messages_ ∧ o'.thread_ then .woken else s.owner)
    (hcarried : Carried m b R o.pointer_ T s') : Inv m b R o rs T s' := by
  have hmem := mem_of_getElem? hx
  have hstarted : s.object.started_ = true := by
    by_contra hns
    have hnil := (h.idle (by simpa using hns)).1 3
    rw [hnil] at hx
    cases hx
  have hcons := h.conserved hstarted
  have hcons' : Conserved rs s'.stages := by
    rw [hstages]
    exact hcons.shift hx rfl (by omega)
  have hcount := h.counted
  have h4 : s'.stages 4 = s.stages 4 ++ [x] := by
    rw [hstages]
    exact shift_to
  have h0 : s'.stages 0 = s.stages 0 := by
    rw [hstages]
    exact shift_other (by omega) (by omega)
  have hlen : (s'.stages 4).length = (s.stages 4).length + 1 := by
    rw [h4, length_append, length_singleton]
  have hle := hcons'.sum_lengths
  have hresp : as_int (s.object.response_count_ + 1) = (s'.stages 4).length := by
    rw [hcount.responses, hlen, ← Nat.cast_succ]
    exact as_int_natCast (by have := hset.small; omega)
  have hnum : s.object.num_messages_ = rs.length := h.expected.1.trans hset.messages
  have hpayload : x.payload = pieceOf T x.args := h.carried.payload 3 x hmem (by cases b <;> decide)
  -- before this reply the exchange was not complete
  have hnot : s.object.completed_ = false := by
    by_contra hc
    have := (hcount.completed.mp (by simpa using hc)).2
    omega
  obtain ⟨⟨hst, hptr, hthread, hnum', hexp⟩, hcount', hdone, htotal⟩ := Object.reply_cases hreply
  have hlast : o'.response_count_ = o'.num_messages_ ↔ (s'.stages 4).length = rs.length := by
    rw [hcount', hnum', hresp, hnum, Nat.cast_inj]
  have hcompleted : o'.completed_ = decide ((s'.stages 4).length = rs.length) := by
    simp only [hdone, hnot, hresp, hnum, Nat.cast_inj, Bool.false_or]
  constructor
  · rw [hobject, hptr]
    exact h.pointer
  · rw [hobject, hnum', hexp]
    exact h.expected
  · rw [hobject, hst, hstarted]
    nofun
  · exact fun _ => hcons'
  · exact hcarried
  · constructor
    · rw [hobject, hcount']
      exact hresp
    · intro hb
      rw [hobject, htotal hb, hcount.replied hb, h4, as_int_add, hpayload, length_pieceOf]
      congr 1
      simp
    · rw [hobject, hcompleted, hst, decide_eq_true_eq]
      exact ⟨fun hl => ⟨hstarted, hl⟩, fun hl => hl.2⟩
    · rw [howner, hobject, hthread, hcompleted]
      intro hsus
      by_cases hl : (s'.stages 4).length = rs.length
      · -- the last reply wakes a suspended owner
        by_cases hth : s.object.thread_ = true
        · rw [if_pos ⟨hlast.mpr hl, hth⟩] at hsus
          cases hsus
        · rw [if_neg (fun hc => hth hc.2)] at hsus
          exact absurd (hcount.suspended hsus).1 hth
      · rw [if_neg (fun hc => hl (hlast.mp hc.1))] at hsus
        exact ⟨(hcount.suspended hsus).1, decide_eq_false hl⟩
    · rw [howner, hobject, hthread]
      intro hth
      split_ifs
      · exact .inr rfl
      · exact hcount.thread hth
    · rw [h0]
      intro hne
      obtain ⟨t, ht⟩ := hcount.sending hne
      refine ⟨t, ?_⟩
      rw [howner, if_neg, ht]
      -- while a message is unsent the exchange is not complete
      rintro ⟨hl, -⟩
      have hpos : 0 < (s'.stages 0).length := by
        rw [h0]
        exact length_pos_of_ne_nil hne
      have := hlast.mp hl
      omega

theorem Inv.advance (hset : Setting m b R o rs) (h : Inv m b R o rs T s) {j k : ℕ}
    (hstep : s.advance m b j k = some s') : Inv m b R o rs T s' := by
  unfold State.advance at hstep
  cases hx : (s.stages j)[k]? with
  | none => simp [hx] at hstep
  | some x =>
    rw [hx] at hstep
    obtain ⟨⟨y, s₁⟩, hhandle, heq⟩ := map_eq_some_iff.mp hstep
    have hs' : s' = { s₁ with stages := Stages.shift s₁.stages j k y } := heq.symm
    subst hs'
    have hmem := mem_of_getElem? hx
    have hstarted : s.object.started_ = true := by
      by_contra hns
      have hnil := (h.idle (by simpa using hns)).1 j
      rw [hnil] at hx
      cases hx
    have hpiece := hset.covers.isPiece ((h.conserved hstarted).requested j x hmem)
    have hsource := h.carried.source
    unfold State.handle at hhandle
    match b, j with
    | .acquirer, 1 =>
      cases hhandle
      exact h.advance_quiet (.inl rfl) hx rfl rfl rfl rfl
        (h.carried.shift hx rfl rfl (fun _ _ => rfl) (fun _ => .inr rfl)
          (fun hc => absurd hc (by decide)) fun hc => absurd hc (by decide))
    | .acquirer, 2 =>
      cases hhandle
      refine h.advance_quiet (.inr rfl) hx rfl rfl rfl rfl
        (h.carried.shift hx rfl rfl (fun _ _ => rfl) (fun _ => .inr rfl) ?_ fun hc => absurd hc (by decide))
      -- the bytes of the piece, read on its core
      intro _
      apply map_congr_left
      intro i hi
      have hi' := mem_range.mp hi
      rw [← hsource _ (hpiece.inside i hi'), State.source, State.globalByte, hpiece.core i hi',
        hpiece.pointer i hi']
    | .releaser, 1 =>
      cases hhandle
      refine h.advance_quiet (.inl rfl) hx rfl rfl rfl rfl
        (h.carried.shift hx rfl rfl (fun _ _ => rfl) (fun _ => .inr rfl) ?_ fun hc => absurd hc (by decide))
      intro _
      apply map_congr_left
      intro i hi
      have hi' := mem_range.mp hi
      have hoff := hpiece.offset_nonneg
      rw [← hsource _ (hpiece.inside i hi'), State.source, State.localByte, h.pointer]
      congr 1
      push_cast
      omega
    | .releaser, 2 =>
      cases hhandle
      have hpayload := h.carried.payload 2 x hmem (by decide)
      obtain ⟨hother, hthis⟩ := store_globalByte (T := T) hpiece s
      rw [← hpayload] at hother hthis
      exact h.advance_quiet (.inr rfl) hx rfl rfl rfl rfl
        (h.carried.shift hx rfl rfl (fun _ _ => rfl) hother (fun _ => hpayload) fun _ => hthis)
    | .acquirer, 3 =>
      obtain ⟨s₂, hs₂, heq⟩ := map_eq_some_iff.mp hhandle
      cases heq
      obtain ⟨o', ho', rfl⟩ := map_eq_some_iff.mp hs₂
      have hpayload := h.carried.payload 3 x hmem (by decide)
      have hpointer : o'.pointer_ = o.pointer_ := by
        rw [(Object.reply_cases ho').1.2.1]
        exact h.pointer
      obtain ⟨hother, hthis⟩ := store_localByte (T := T) hpiece o.pointer_ s
      rw [← hpayload, ← hpointer] at hother hthis
      refine h.advance_reply hset hx ho' rfl rfl rfl
        (h.carried.shift hx rfl rfl (fun _ _ => rfl) ?_ (fun _ => hpayload) fun _ => ?_)
      · rw [← hpointer]
        exact hother
      · rw [← hpointer]
        exact hthis
    | .releaser, 3 =>
      obtain ⟨s₂, hs₂, heq⟩ := map_eq_some_iff.mp hhandle
      cases heq
      obtain ⟨o', ho', rfl⟩ := map_eq_some_iff.mp hs₂
      have hpayload := h.carried.payload 3 x hmem (by decide)
      exact h.advance_reply hset hx ho' rfl rfl rfl
        (h.carried.shift hx rfl rfl (fun _ _ => rfl) (fun _ => .inr rfl) (fun _ => hpayload)
          fun hc => absurd hc (by decide))
    | .acquirer, 0 => cases hhandle
    | .releaser, 0 => cases hhandle
    | .acquirer, _ + 4 => cases hhandle
    | .releaser, _ + 4 => cases hhandle

theorem Inv.of_still (h : Inv m b R o rs T s) (hstages : s'.stages = s.stages)
    (hbuffer : s'.buffer = s.buffer) (hglobal : s'.global = s.global)
    (hobject : ∃ t, s'.object = { s.object with thread_ := t })
    (hidle : s.object.started_ = false → s'.owner = .running)
    (hsus : s'.owner = .suspended → s'.object.thread_ = true ∧ s'.object.completed_ = false)
    (hthread : s'.object.thread_ = true → s'.owner = .suspended ∨ s'.owner = .woken)
    (hsend : s.stages 0 ≠ [] → ∃ t, s'.owner = .sending t) : Inv m b R o rs T s' := by
  obtain ⟨t, ht⟩ := hobject
  have hcount := h.counted
  constructor
  · rw [ht]
    exact h.pointer
  · rw [ht]
    exact h.expected
  · rw [ht, hstages]
    exact fun hns => ⟨(h.idle hns).1, hidle hns, (h.idle hns).2.2⟩
  · rw [ht, hstages]
    exact h.conserved
  · exact h.carried.congr hstages hbuffer hglobal
  · constructor
    · rw [ht, hstages]
      exact hcount.responses
    · rw [ht, hstages]
      exact hcount.replied
    · rw [ht, hstages]
      exact hcount.completed
    · exact hsus
    · exact hthread
    · rw [hstages]
      exact hsend

theorem Conserved.init {stages : ℕ → List (Packet β)} (h0 : stages 0 = rs.map fun args => ⟨args, []⟩)
    (hrest : ∀ i ≠ 0, stages i = []) : Conserved rs stages where
  packets := by simp [weight, Finset.sum_range_succ, h0, hrest]
  bytes := by simp [weight, Finset.sum_range_succ, h0, hrest, comp_def]
  covered := by
    intro r hr
    refine ⟨0, by omega, ⟨r, []⟩, ?_, rfl⟩
    rw [h0]
    exact mem_map.mpr ⟨r, hr, rfl⟩
  requested := by
    intro i x hx
    by_cases hi : i = 0
    · subst hi
      rw [h0] at hx
      obtain ⟨r, hr, rfl⟩ := mem_map.mp hx
      exact hr
    · rw [hrest i hi] at hx
      cases hx

/-- The first start puts all requests before the sending loop. -/
theorem Inv.start (hset : Setting m b R o rs) (h : Inv m b R o rs T s)
    (hns : s.object.started_ = false) {t : Bool} (hstep : s.start m b R t = some s') : Inv m b R o rs T s' := by
  unfold State.start at hstep
  rw [hset.requests] at hstep
  obtain ⟨hnil, hrun, hfresh⟩ := h.idle hns
  have hcount := h.counted
  have hs' : s' = { s with
      object := { s.object with started_ := true }
      stages := update s.stages 0 (rs.map fun args => ⟨args, []⟩)
      owner := .sending t } := (some.inj hstep).symm
  have hzero : s'.stages 0 = rs.map fun args => ⟨args, []⟩ := by
    rw [hs']
    simp only [update_self]
  have hrest : ∀ i ≠ 0, s'.stages i = [] := by
    intro i hi
    rw [hs']
    have hne : update s.stages 0 (rs.map fun args => (⟨args, []⟩ : Packet β)) i = s.stages i :=
      update_of_ne hi ..
    exact hne.trans (hnil i)
  -- a packet that has been read or written is at a later stage
  have hlater : ∀ i x, x ∈ s'.stages i → i = 0 := by
    intro i x hx
    by_contra hi
    rw [hrest i hi] at hx
    cases hx
  have hloaded : 0 < b.loaded ∧ 0 < b.stored := by cases b <;> decide
  have hfour : s'.stages 4 = s.stages 4 := (hrest 4 (by omega)).trans (hnil 4).symm
  have hobject : s'.object = { s.object with started_ := true } := by rw [hs']
  have howner : s'.owner = .sending t := by rw [hs']
  constructor
  · rw [hobject]
    exact h.pointer
  · rw [hobject]
    exact h.expected
  · rw [hobject]
    nofun
  · exact fun _ => .init hzero hrest
  · constructor
    · rw [hs']
      exact h.carried.source
    · intro i x hx hi
      have := hlater i x hx
      omega
    · intro i x hx hi
      have := hlater i x hx
      omega
  · have hnot : s.object.completed_ ≠ true := by
      intro hc
      simp [hcount.completed, hns] at hc
    constructor
    · rw [hobject, hfour]
      exact hcount.responses
    · rw [hobject, hfour]
      exact hcount.replied
    · rw [hobject, hfour, hnil 4]
      exact ⟨fun hc => absurd hc hnot, fun hc => absurd (eq_nil_of_length_eq_zero hc.2.symm) hfresh⟩
    · rw [howner]
      nofun
    · rw [hobject]
      intro hth
      rcases hcount.thread hth with ho | ho
      · rw [hrun] at ho
        cases ho
      · rw [hrun] at ho
        cases ho
    · exact fun _ => ⟨t, howner⟩

theorem Inv.send (h : Inv m b R o rs T s) {x : Packet β} (hx : (s.stages 0)[0]? = some x) :
    Inv m b R o rs T { s with stages := Stages.shift s.stages 0 0 x } := by
  have hcount := h.counted
  have hloaded : 1 < b.loaded ∧ 1 < b.stored := by cases b <;> decide
  have h4 : Stages.shift s.stages 0 0 x 4 = s.stages 4 := shift_other (by omega) (by omega)
  constructor
  · exact h.pointer
  · exact h.expected
  · intro hns
    rw [(h.idle hns).1] at hx
    cases hx
  · exact fun hst => (h.conserved hst).shift hx rfl (by omega)
  · apply h.carried.shift hx rfl rfl
    · cases b <;> exact fun _ _ => rfl
    · cases b <;> exact fun _ => .inr rfl
    · omega
    · omega
  · constructor
    · simp only [h4]
      exact hcount.responses
    · simp only [h4]
      exact hcount.replied
    · simp only [h4]
      exact hcount.completed
    · exact hcount.suspended
    · exact hcount.thread
    · intro _
      apply hcount.sending
      intro hnil
      rw [hnil] at hx
      cases hx

theorem Inv.inside (hset : Setting m b R o rs) (h : Inv m b R o rs T s) {i : ℕ} {x : Packet β}
    (hx : x ∈ s.stages i) {k : ℕ} (hk : k < x.args.request_bytes.toNat) :
    x.args.offset.toNat + k < R.bytes := by
  have hst : s.object.started_ = true := by
    by_contra hns
    rw [(h.idle (by simpa using hns)).1 i] at hx
    cases hx
  exact (hset.covers.isPiece ((h.conserved hst).requested i x hx)).inside k hk

theorem Carried.other {p : ℤ} (h : Carried m b R p T s)
    (hinside : ∀ i x, x ∈ s.stages i → ∀ k < x.args.request_bytes.toNat,
      x.args.offset.toNat + k < R.bytes)
    {c : Core} {q : ℤ} (hin : ¬R.Holds m c q) (v : β) : Carried m b R p T
      { s with global := update s.global c (update (s.global c) q v) } := by
  have hglobal : ∀ i < R.bytes, update s.global c (update (s.global c) q v)
      ((R.byte i).core m) ((R.byte i).pointer m) = s.globalByte m R i := by
    intro i hi
    by_cases hc : (R.byte i).core m = c
    · have hq : (R.byte i).pointer m ≠ q := fun hq => hin ⟨i, hi, hc, hq⟩
      rw [hc, update_self, update_of_ne hq, State.globalByte, hc]
    · rw [update_of_ne hc, State.globalByte]
  cases b with
  | acquirer =>
    exact ⟨fun i hi => (hglobal i hi).trans (h.source i hi), h.payload, h.destination⟩
  | releaser =>
    refine ⟨h.source, h.payload, fun i x hx hi k hk => ?_⟩
    exact (hglobal _ (hinside i x hx k hk)).trans (h.destination i x hx hi k hk)

/-- **Every step keeps the invariant.** -/
theorem Inv.step (hset : Setting m b R o rs) (h : Inv m b R o rs T s) {l : Label β}
    (hstep : next m b R s l = some s') : Inv m b R o rs T s' := by
  have hcount := h.counted
  cases l with
  | start =>
    simp only [next] at hstep
    split_ifs at hstep with hrun hst
    · cases hstep
      exact h
    · have hns : s.object.started_ = false := by simpa using hst
      exact h.start hset hns hstep
  | block =>
    simp only [next] at hstep
    split_ifs at hstep with hrun hc hst
    · cases hstep
      exact h
    · cases hstep
      have hrun' : s.owner = .running := by simpa using hrun
      refine h.of_still rfl rfl rfl ⟨_, rfl⟩ ?_ nofun ?_ ?_
      · intro hns
        rw [hst] at hns
        cases hns
      · intro hth
        rcases hcount.thread hth with ho | ho
        · rw [hrun'] at ho
          cases ho
        · rw [hrun'] at ho
          cases ho
      · intro hne
        obtain ⟨t, ht⟩ := hcount.sending hne
        rw [hrun'] at ht
        cases ht
    · have hns : s.object.started_ = false := by simpa using hst
      exact h.start hset hns hstep
  | send =>
    simp only [next] at hstep
    split at hstep
    · rename_i t x howner hx
      cases hstep
      exact h.send hx
    · cases hstep
  | sent =>
    simp only [next] at hstep
    split at hstep
    · rename_i t howner hnil
      cases hstep
      have hthread : s.object.thread_ = true → False := by
        intro hth
        rcases hcount.thread hth with ho | ho
        · rw [howner] at ho
          cases ho
        · rw [howner] at ho
          cases ho
      refine h.of_still rfl rfl rfl ⟨_, rfl⟩ ?_ ?_ (fun hth => (hthread hth).elim) fun hne => absurd hnil hne
      · intro hns
        rw [(h.idle hns).2.1] at howner
        cases howner
      · intro hsus
        cases t <;> cases hsus
    · cases hstep
  | check =>
    simp only [next] at hstep
    split_ifs at hstep with howner hc
    · cases hstep
      have ho : s.owner = .checking := by simpa using howner
      refine h.of_still rfl rfl rfl ⟨_, rfl⟩ (fun _ => rfl) nofun ?_ ?_
      · intro hth
        rcases hcount.thread hth with hs | hs
        · rw [ho] at hs
          cases hs
        · rw [ho] at hs
          cases hs
      · intro hne
        obtain ⟨t, ht⟩ := hcount.sending hne
        rw [ho] at ht
        cases ht
    · cases hstep
      have ho : s.owner = .checking := by simpa using howner
      refine h.of_still rfl rfl rfl ⟨_, rfl⟩ ?_ ?_ (fun _ => .inl rfl) ?_
      · intro hns
        rw [(h.idle hns).2.1] at ho
        cases ho
      · intro _
        exact ⟨rfl, by simpa using hc⟩
      · intro hne
        obtain ⟨t, ht⟩ := hcount.sending hne
        rw [ho] at ht
        cases ht
  | resume =>
    simp only [next] at hstep
    split_ifs at hstep with howner
    cases hstep
    have ho : s.owner = .woken := by simpa using howner
    refine h.of_still rfl rfl rfl ⟨_, rfl⟩ ?_ nofun nofun ?_
    · intro hns
      rw [(h.idle hns).2.1] at ho
      cases ho
    · intro hne
      obtain ⟨t, ht⟩ := hcount.sending hne
      rw [ho] at ht
      cases ht
  | advance j k => exact h.advance hset hstep
  | other c p v =>
    simp only [next] at hstep
    split_ifs at hstep with hin
    cases hstep
    have hinside : ∀ i x, x ∈ s.stages i → ∀ k < x.args.request_bytes.toNat,
        x.args.offset.toNat + k < R.bytes := fun i x hx k hk => h.inside hset hx hk
    exact { h with carried := h.carried.other hinside hin v, counted := { hcount with } }

/-! ### Every run -/

variable {buffer : ℤ → β} {global : Core → ℤ → β} {mycore : Core} {o₀ : Object}

theorem SendsAll.setting (h : SendsAll m b R)
    (hreset : reset m b mycore R.sizeof R.request_address R.count o₀ = some o) :
    ∃ rs, Setting m b R o rs := by
  obtain ⟨rs, hrs, hlen, hcov⟩ := h
  have hlin : R.request_address.is_2D = false := by simpa [is_linear] using R.is_linear
  have hbytes : R.bytes = 0 ↔ R.count = 0 := by
    have := R.sizeof_pos
    unfold CachedRange.bytes
    rw [Nat.mul_eq_zero]
    omega
  have hsum := hcov.sum_bytes
  have hempty : rs = [] ↔ R.count = 0 := by
    constructor
    · rintro rfl
      exact hbytes.mp hsum.symm
    · intro hc
      rw [num_messages, if_pos hc] at hlen
      exact eq_nil_of_length_eq_zero (by exact_mod_cast hlen)
  have hsmall : rs.length < 2 ^ 31 := by
    by_cases hc : R.count = 0
    · rw [hempty.mpr hc]
      norm_num
    · have hlt := Int.bmod_lt (x := R.blocks) (m := 2 ^ 32) (by norm_num)
      rw [num_messages_eq m R hc, as_int] at hlen
      norm_num at hlt hlen ⊢
      omega
  have hexp : as_int ((R.sizeof : ℤ) * R.count) = as_int (R.bytes : ℕ) := by
    unfold CachedRange.bytes
    push_cast
    rw [mul_comm]
  refine ⟨rs, ?_⟩
  simp only [reset, hlin, Bool.false_eq_true, false_and, if_false] at hreset
  split_ifs at hreset with hcheck hc
  · cases hreset
    refine ⟨hrs, hcov, hlen.symm, hsmall, ?_, by simp [hempty, hc], rfl, rfl, rfl, rfl⟩
    simp only [hexp]
  · cases hreset
    refine ⟨hrs, hcov, hlen.symm, hsmall, ?_, by simp [hempty, hc], rfl, rfl, rfl, rfl⟩
    simp only [hexp]

/-- The bytes that are to be copied. -/
def original (m : Machine) (b : Behavior) (R : CachedRange) (o : Object) (buffer : ℤ → β)
    (global : Core → ℤ → β) : ℕ → β :=
  (system m b R o buffer global).init.source m b R o.pointer_

theorem Setting.inv (hset : Setting m b R o rs)
    (hs : (system m b R o buffer global).Reachable s) :
    Inv m b R o rs (original m b R o buffer global) s := by
  obtain ⟨hresp, htotal, hthread⟩ := hset.fresh
  apply hs.invariant
  · constructor
    · rfl
    · exact ⟨rfl, rfl⟩
    · intro hns
      refine ⟨fun _ => rfl, rfl, fun hnil => ?_⟩
      rw [show (system m b R o buffer global).init.object.started_ = true from
        hset.started.mpr hnil] at hns
      cases hns
    · intro hst
      have hnil : rs = [] := hset.started.mp hst
      exact .init (by rw [hnil]; rfl) fun _ _ => rfl
    · exact ⟨fun _ _ => rfl, fun _ _ hx => absurd hx not_mem_nil,
        fun _ _ hx => absurd hx not_mem_nil⟩
    · refine ⟨hresp, fun _ => ?_, ?_, nofun, ?_, fun hne => absurd rfl hne⟩
      · show o.total_reply_payload_ = as_int ((0 : ℕ) : ℤ)
        rw [htotal]
        simp [as_int]
      · show o.completed_ = true ↔ o.started_ = true ∧ 0 = rs.length
        rw [hset.completed]
        refine ⟨fun hst => ⟨hst, ?_⟩, fun hst => hst.1⟩
        rw [hset.started.mp hst, length_nil]
      · intro hth
        rw [show o.thread_ = true from hth] at hthread
        cases hthread
  · exact fun t l t' hinv hstep => hinv.step hset hstep

/-- What holds in every state of an exchange. -/
structure Exchanged (m : Machine) (b : Behavior) (R : CachedRange) (o : Object) (buffer : ℤ → β)
    (global : Core → ℤ → β) (s : State β) : Prop where
  /-- The exchange is complete exactly when no packet is on its way. -/
  completed_iff : s.object.completed_ = true ↔ s.object.started_ = true ∧ ∀ i < 4, s.stages i = []
  /-- Then the local copy and the range agree, on the bytes that the source has had all along. -/
  copied : s.object.completed_ = true → ∀ i < R.bytes,
    s.localByte s.object.pointer_ i = s.globalByte m R i ∧
      s.globalByte m R i = original m b R o buffer global i
  /-- A suspended owner will still be woken. -/
  suspended : s.owner = .suspended → s.object.completed_ = false ∧ s.object.thread_ = true
  /-- The loop can go on sending, and every message can be handled: no check fails. -/
  sendable : s.stages 0 ≠ [] → (next m b R s .send).isSome = true
  handled : ∀ j k, 1 ≤ j → j < 4 → k < (s.stages j).length →
    (next m b R s (.advance j k)).isSome = true

/-- A reply passes the check of the payload. -/
theorem Inv.reply_isSome (hset : Setting m b R o rs) (h : Inv m b R o rs T s) {k : ℕ}
    {x : Packet β} (hx : (s.stages 3)[k]? = some x) :
    (s.object.reply b x.payload.length).isSome = true := by
  have hmem := mem_of_getElem? hx
  have hstarted : s.object.started_ = true := by
    by_contra hns
    have hnil := (h.idle (by simpa using hns)).1 3
    rw [hnil] at hx
    cases hx
  have hcons' := (h.conserved hstarted).shift hx rfl (by omega)
  have h4 : shift s.stages 3 k x 4 = s.stages 4 ++ [x] := shift_to
  have hlen4 : (shift s.stages 3 k x 4).length = (s.stages 4).length + 1 := by
    rw [h4, length_append, length_singleton]
  have hle := hcons'.sum_lengths
  have hpayload : x.payload = pieceOf T x.args := h.carried.payload 3 x hmem (by cases b <;> decide)
  simp only [Object.reply]
  split_ifs with hlast hcheck
  · -- at the last reply all bytes have arrived
    obtain ⟨rfl, hne⟩ := hcheck
    refine absurd ?_ hne
    have hlen : (shift s.stages 3 k x 4).length = rs.length := by
      have hsmall := hset.small
      rw [h.expected.1, hset.messages, h.counted.responses, ← Nat.cast_succ,
        as_int_natCast (by omega)] at hlast
      omega
    have hbytes := hcons'.sum_bytes hlen
    rw [hset.covers.sum_bytes, h4] at hbytes
    simp only [map_append, map_cons, map_nil, sum_append, sum_cons,
      sum_nil, add_zero] at hbytes
    simp only [h.counted.replied rfl, h.expected.2, hset.expected, as_int_add, hpayload,
      length_pieceOf, ← hbytes]
    push_cast
    rfl
  · rfl
  · rfl

/-- **Every state of an exchange** whose requests are all sent is as it should be. -/
theorem Inv.exchanged (hset : Setting m b R o rs)
    (h : Inv m b R o rs (original m b R o buffer global) s) : Exchanged m b R o buffer global s where
  completed_iff := by
    rw [h.counted.completed]
    refine and_congr_right fun hst => ?_
    have hsum := (h.conserved hst).sum_lengths
    constructor
    · intro hlast i hi
      apply eq_nil_of_length_eq_zero
      interval_cases i <;> omega
    · intro hnil
      simp only [hnil 0 (by omega), hnil 1 (by omega), hnil 2 (by omega), hnil 3 (by omega),
        length_nil] at hsum
      omega
  copied := by
    intro hc i hi
    obtain ⟨hst, hlast⟩ := h.counted.completed.mp hc
    have hsum := (h.conserved hst).sum_lengths
    -- the packet with this byte has been processed
    obtain ⟨r, hr, k, hk, rfl⟩ := hset.covers.exists_piece hi
    obtain ⟨j, hj, x, hx, rfl⟩ := (h.conserved hst).covered r hr
    have hpos := length_pos_of_mem hx
    have hj4 : j = 4 := by interval_cases j <;> omega
    have hdest := h.carried.destination j x hx (by subst hj4; cases b <;> decide) k hk
    have hsource := h.carried.source _ hi
    rw [h.pointer]
    cases b with
    | acquirer => exact ⟨hdest.trans hsource.symm, hsource⟩
    | releaser => exact ⟨hsource.trans hdest.symm, hdest⟩
  suspended := fun hsus => (h.counted.suspended hsus).symm
  sendable := by
    intro hne
    obtain ⟨t, ht⟩ := h.counted.sending hne
    obtain ⟨x, l, hl⟩ := exists_cons_of_ne_nil hne
    simp [next, ht, hl]
  handled := by
    intro j k hlo hhi hk
    have hx := getElem?_eq_getElem hk
    simp only [next, State.advance, hx, isSome_map]
    interval_cases j
    · cases b <;> rfl
    · cases b <;> rfl
    · have := h.reply_isSome hset hx
      cases b <;> simpa [State.handle, State.reply] using this

end invariant

/-- The acquire (release) of a range is correct: the messages are those announced, they cover the
    range block by block, and every run on an object that has been reset does what it should. -/
def Correct (m : Machine) (b : Behavior) (R : CachedRange) : Prop :=
  SendsAll m b R ∧
    ∀ (mycore : Core) (o₀ o : Object),
      reset m b mycore R.sizeof R.request_address R.count o₀ = some o →
      ∀ (β : Type) (buffer : ℤ → β) (global : Core → ℤ → β) (s : State β),
        (system m b R o buffer global).Reachable s → Exchanged m b R o buffer global s

theorem correct_of_sendsAll (h : SendsAll m b R) : Correct m b R := by
  refine ⟨h, fun mycore o₀ o hreset β buffer global s hs => ?_⟩
  obtain ⟨rs, hset⟩ := h.setting hreset
  exact (hset.inv hs).exchanged hset

theorem acquirer_correct_iff (m : Machine) (R : CachedRange) :
    Correct m .acquirer R ↔ R.last_offset < 2 ^ 31 := by
  rw [← acquirer_sendsAll_iff m R]
  exact ⟨fun h => h.1, correct_of_sendsAll⟩

/-- **Acquire and release are correct exactly when their counters are wide enough**: the acquirer
    when the last block that the range touches starts at an offset below `2^31`, the releaser
    when the range touches fewer than `2^31` blocks. -/
theorem correct_iff (m : Machine) (R : CachedRange) :
    (Correct m .acquirer R ↔ R.last_offset < 2 ^ 31) ∧ (Correct m .releaser R ↔ R.blocks < 2 ^ 31) := by
  refine ⟨acquirer_correct_iff m R, ?_⟩
  rw [← releaser_sendsAll_iff m R]
  exact ⟨fun h => h.1, correct_of_sendsAll⟩

/-- An array of `2^28 + 1` eight-byte integers at address 0. -/
def wideRange : CachedRange :=
  ⟨8, ⟨0⟩, 2 ^ 28 + 1, by norm_num, is_linear_zero, by norm_num [raw_bits]⟩

/-- The last request of its acquire is never sent, although `reset` has counted it. -/
theorem wide_acquire_incorrect : ¬Correct ⟨1, Nat.one_pos, 0⟩ .acquirer wideRange := by
  rintro ⟨hsends, -⟩
  have hlt := (acquirer_sendsAll_iff _ _).mp hsends
  norm_num [CachedRange.last_offset, CachedRange.bytes, wideRange, raw_bits, block_size] at hlt

end Incoherent

end Grappa
