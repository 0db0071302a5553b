import AdvCompArch.Grappa.Addressing
import Mathlib.Algebra.BigOperators.Group.List.Basic

/-! # Aggregation of messages into buffers

    `aggregate_to_buffer` writes the messages of a list one behind the other:
    a word with the destination and the deserializer's address, the functor, and,
    for payload messages, the length of the payload in a signed 16-bit field and
    the payload.  `deaggregate_buffer` walks the bytes and calls the functors.

    Writer and reader agree on everything but the length field, which is narrower
    than the size it stores; `aggregation_round_trip` says what follows. -/

namespace Grappa

open List Option FixedWidth

/-- An instantiation of `deserialize_and_call`: the size of its functor type, and whether it
    is the one of `PayloadMessage` (or the one of `Message`). -/
structure Deserializer where
  sizeofT : ℕ
  payload : Bool
  deriving DecidableEq

/-- The program text: the deserializer at an address, if there is one. -/
abbrev Code := ℤ → Option Deserializer

/-- A message as the aggregator sees it.  `storage` are the bytes of the functor; `payload` is
    there in a `PayloadMessage`. -/
structure Message (code : Code) where
  destination : Core
  fp : ℤ
  storage : List UInt8
  payload : Option (List UInt8)
  /-- `Core` is a signed 16-bit number. -/
  destination_range : -2 ^ 15 ≤ destination ∧ destination < 2 ^ 15
  /-- Code addresses fit in 48 bits. -/
  fp_range : -2 ^ 47 ≤ fp ∧ fp < 2 ^ 47
  fp_ne_zero : fp ≠ 0
  fp_code : code fp = some ⟨storage.length, payload.isSome⟩

/-- What a functor is called with: its own bytes and, for payload messages, the payload with
    the size it is given. -/
structure Call where
  fp : ℤ
  obj : List UInt8
  payload : Option (ℤ × List UInt8)
  deriving DecidableEq

/-- `MessageFPAddr`: destination and deserializer in one word. -/
def MessageFPAddr (dest fp : ℤ) : ℕ := (dest % 2 ^ 16).toNat + 2 ^ 16 * (fp % 2 ^ 48).toNat

/-- The fields of the header word. -/
def MessageFPAddr.dest (raw : ℕ) : ℤ := Int.bmod ((raw : ℤ) % 2 ^ 16) (2 ^ 16)

def MessageFPAddr.fp (raw : ℕ) : ℤ := Int.bmod ((raw : ℤ) / 2 ^ 16) (2 ^ 48)

namespace Message

variable {code : Code}

def payload_size (m : Message code) : ℕ :=
  match m.payload with
  | none => 0
  | some p => p.length

def serialized_size (m : Message code) : ℕ :=
  match m.payload with
  | none => 8 + m.storage.length
  | some p => 8 + m.storage.length + 2 + p.length

/-- The bytes that `serialize_to` writes. -/
def bytes (m : Message code) : List UInt8 :=
  store 8 (MessageFPAddr m.destination m.fp) ++ m.storage ++
    match m.payload with
    | none => []
    | some p => storeInt 2 p.length ++ p

/-- `serialize_to(p, max_size)`: the bytes written, or `none` if it returns `p`. -/
def serialize_to (m : Message code) (max_size : ℕ) : Option (List UInt8) :=
  if m.serialized_size > max_size then none else some m.bytes

/-- The call that the sender means. -/
def call (m : Message code) : Call :=
  ⟨m.fp, m.storage, m.payload.map fun p => ((p.length : ℤ), p)⟩

theorem serialized_size_pos (m : Message code) : 0 < m.serialized_size := by
  unfold serialized_size
  split <;> omega

theorem length_bytes (m : Message code) : m.bytes.length = m.serialized_size := by
  unfold bytes serialized_size
  cases m.payload <;> simp
  omega

end Message

/-- `aggregate_to_buffer(buffer, &messages, max)` after `size` bytes: the bytes written and the
    rest of the message list. -/
def aggregate_to_buffer {code : Code} (max : ℕ) :
    (size : ℕ) → List (Message code) → List UInt8 × List (Message code)
  | _, [] => ([], [])
  | size, m :: ms =>
    match m.serialize_to (max - size) with
    | none => ([], m :: ms)
    | some bs =>
      let r := aggregate_to_buffer max (size + bs.length) ms
      (bs ++ r.1, r.2)

/-- Read `n` bytes of memory. -/
def field (buffer : List UInt8) (pos n : ℕ) : Option (List UInt8) :=
  if pos + n ≤ buffer.length then some ((buffer.drop pos).take n) else none

/-- `Message<T>::deserialize_and_call(t)`: the call made and the address of the next message. -/
def Message.deserialize_and_call (fp : ℤ) (sizeofT : ℕ) (buffer : List UInt8) (t : ℕ) :
    Option (Call × ℕ) :=
  match field buffer t sizeofT with
  | none => none
  | some obj => some (⟨fp, obj, none⟩, t + sizeofT)

/-- `(*obj)(t, payload_size)`, and the address the reader goes on at.  A negative length moves
    it backwards. -/
def PayloadMessage.call_functor (fp : ℤ) (obj buffer : List UInt8) (t : ℕ) (payload_size : ℤ) :
    Option (Call × ℕ) :=
  match field buffer t payload_size.toNat with
  | none => none
  | some payload =>
    if (t : ℤ) + payload_size < 0 then none
    else some (⟨fp, obj, some (payload_size, payload)⟩, ((t : ℤ) + payload_size).toNat)

/-- `PayloadMessage<T>::deserialize_and_call(t)`: the length is read from an `int16_t` field. -/
def PayloadMessage.deserialize_and_call (fp : ℤ) (sizeofT : ℕ) (buffer : List UInt8) (t : ℕ) :
    Option (Call × ℕ) :=
  match field buffer t sizeofT, field buffer (t + sizeofT) 2 with
  | some obj, some length =>
    PayloadMessage.call_functor fp obj buffer (t + sizeofT + 2) (loadInt 2 length)
  | _, _ => none

/-- `MessageBase::deserialize_and_call(buffer)` on core `mycore`.  `none` if a `CHECK` fails or
    the program runs into memory or code that is not there. -/
def deserialize_and_call (code : Code) (mycore : Core) (buffer : List UInt8) (pos : ℕ) :
    Option (Call × ℕ) :=
  match field buffer pos 8 with
  | none => none
  | some word =>
    let gfp := load word
    let fp := MessageFPAddr.fp gfp
    if fp = 0 ∨ MessageFPAddr.dest gfp ≠ mycore then none
    else
      match code fp with
      | none => none
      | some ⟨sizeofT, false⟩ => Message.deserialize_and_call fp sizeofT buffer (pos + 8)
      | some ⟨sizeofT, true⟩ => PayloadMessage.deserialize_and_call fp sizeofT buffer (pos + 8)

/-- `deaggregate_buffer` from `pos` up to `stop`, in at most `fuel` rounds: the calls made and
    where the reader stopped. -/
def deaggregate_buffer (code : Code) (mycore : Core) (buffer : List UInt8) (stop : ℕ) :
    (fuel : ℕ) → (pos : ℕ) → Option (List Call × ℕ)
  | 0, pos => if pos < stop then none else some ([], pos)
  | fuel + 1, pos =>
    if pos < stop then
      match deserialize_and_call code mycore buffer pos with
      | none => none
      | some (c, next) =>
        match deaggregate_buffer code mycore buffer stop fuel next with
        | none => none
        | some (cs, last) => some (c :: cs, last)
    else some ([], pos)

/-! ### The writer -/

section writer

variable {code : Code}

/-- The writer serializes a prefix of the list that fits, and stops at the first message that
    does not. -/
theorem aggregate_to_buffer_spec (max : ℕ) (msgs : List (Message code)) (size : ℕ)
    (hsize : size ≤ max) :
    ∃ sent, msgs = sent ++ (aggregate_to_buffer max size msgs).2 ∧
      (aggregate_to_buffer max size msgs).1 = sent.flatMap Message.bytes ∧
      size + (sent.map Message.serialized_size).sum ≤ max ∧
      ∀ m rest, (aggregate_to_buffer max size msgs).2 = m :: rest →
        max < size + (sent.map Message.serialized_size).sum + m.serialized_size := by
  induction msgs generalizing size with
  | nil =>
    refine ⟨[], rfl, rfl, by simpa using hsize, ?_⟩
    intro m rest h
    simp [aggregate_to_buffer] at h
  | cons m ms ih =>
    by_cases hfit : m.serialized_size > max - size
    · -- the message does not fit: it stays at the head of the list
      have hnone : m.serialize_to (max - size) = none := if_pos hfit
      refine ⟨[], ?_, ?_, by simpa using hsize, ?_⟩
      · simp [aggregate_to_buffer, hnone]
      · simp [aggregate_to_buffer, hnone]
      · intro m' rest h
        simp only [aggregate_to_buffer, hnone, cons.injEq] at h
        obtain ⟨rfl, -⟩ := h
        simp only [map_nil, sum_nil]
        omega
    · have hsome : m.serialize_to (max - size) = some m.bytes := if_neg hfit
      have hlen := m.length_bytes
      obtain ⟨sent, hmsgs, hbytes, hle, hmax⟩ := ih (size + m.bytes.length) (by omega)
      refine ⟨m :: sent, ?_, ?_, ?_, ?_⟩
      · simp only [aggregate_to_buffer, hsome, cons_append, ← hmsgs]
      · simp only [aggregate_to_buffer, hsome, hbytes, flatMap_cons]
      · simp only [map_cons, sum_cons]
        omega
      · intro m' rest h
        have := hmax m' rest (by simpa only [aggregate_to_buffer, hsome] using h)
        simp only [map_cons, sum_cons]
        omega

theorem length_flatMap_bytes (msgs : List (Message code)) :
    (msgs.flatMap Message.bytes).length = (msgs.map Message.serialized_size).sum := by
  induction msgs with
  | nil => rfl
  | cons m ms ih => rw [flatMap_cons, length_append, ih, m.length_bytes, map_cons,
      sum_cons]

end writer

/-! ### The reader -/

theorem field_append (pre xs post : List UInt8) {n : ℕ} (hn : xs.length = n) :
    field (pre ++ (xs ++ post)) pre.length n = some xs := by
  subst hn
  unfold field
  rw [if_pos (by simp), drop_left, take_left]

theorem emod_bmod_of_range {x : ℤ} {n : ℕ} (hlo : -(n : ℤ) ≤ 2 * x) (hhi : 2 * x < n) :
    Int.bmod (x % (n : ℤ)) n = x := by
  rw [Int.emod_bmod]
  exact Int.bmod_eq_of_le_mul_two (by omega) (by omega)

theorem MessageFPAddr.dest_eq {dest fp : ℤ} (hdest : -2 ^ 15 ≤ dest ∧ dest < 2 ^ 15) :
    MessageFPAddr.dest (MessageFPAddr dest fp) = dest := by
  have hlow : (MessageFPAddr dest fp : ℤ) % 2 ^ 16 = dest % ((2 ^ 16 : ℕ) : ℤ) := by
    unfold MessageFPAddr
    omega
  unfold MessageFPAddr.dest
  rw [hlow]
  exact emod_bmod_of_range (by omega) (by omega)

theorem MessageFPAddr.fp_eq {dest fp : ℤ} (hfp : -2 ^ 47 ≤ fp ∧ fp < 2 ^ 47) :
    MessageFPAddr.fp (MessageFPAddr dest fp) = fp := by
  have hhigh : (MessageFPAddr dest fp : ℤ) / 2 ^ 16 = fp % ((2 ^ 48 : ℕ) : ℤ) := by
    unfold MessageFPAddr
    omega
  unfold MessageFPAddr.fp
  rw [hhigh]
  exact emod_bmod_of_range (by omega) (by omega)

theorem load_header (dest fp : ℤ) :
    load (store 8 (MessageFPAddr dest fp)) = MessageFPAddr dest fp := by
  apply load_store_of_lt
  unfold MessageFPAddr
  omega

theorem loadInt_two_le (bs : List UInt8) : loadInt 2 bs ≤ 32767 := by
  have := loadInt_lt 2 bs
  omega

theorem PayloadMessage.call_functor_natCast {fp : ℤ} {obj buffer p : List UInt8} {t n : ℕ}
    (h : field buffer t n = some p) :
    PayloadMessage.call_functor fp obj buffer t n = some (⟨fp, obj, some (n, p)⟩, t + n) := by
  unfold PayloadMessage.call_functor
  rw [Int.toNat_natCast, h]
  show (if (t : ℤ) + n < 0 then none else _) = _
  rw [if_neg (by omega), ← Nat.cast_add, Int.toNat_natCast]

section reader

variable {code : Code}

/-- A message whose payload size survives the 16-bit field is read back as it was sent. -/
theorem deserialize_and_call_bytes (m : Message code) (hsize : m.payload_size ≤ 32767)
    (pre post : List UInt8) :
    deserialize_and_call code m.destination (pre ++ (m.bytes ++ post)) pre.length =
      some (m.call, pre.length + m.serialized_size) := by
  obtain ⟨hdr, hhdr⟩ : ∃ hdr, hdr = store 8 (MessageFPAddr m.destination m.fp) :=
    ⟨_, rfl⟩
  have hdest : MessageFPAddr.dest (load hdr) = m.destination := by
    rw [hhdr, load_header, MessageFPAddr.dest_eq m.destination_range]
  have hfp : MessageFPAddr.fp (load hdr) = m.fp := by
    rw [hhdr, load_header, MessageFPAddr.fp_eq m.fp_range]
  have hlen : hdr.length = 8 := by rw [hhdr, length_store]
  have hcheck : ¬ (m.fp = 0 ∨ m.destination ≠ m.destination) := by
    simp [m.fp_ne_zero]
  have hcode := m.fp_code
  cases hp : m.payload with
  | none =>
    have hbytes : m.bytes = hdr ++ m.storage := by simp [Message.bytes, hp, hhdr]
    have h1 : field (pre ++ (m.bytes ++ post)) pre.length 8 = some hdr := by
      rw [hbytes, append_assoc]
      exact field_append _ _ _ hlen
    have h2 : field (pre ++ (m.bytes ++ post)) (pre.length + 8) m.storage.length =
        some m.storage := by
      have := field_append (pre ++ hdr) m.storage post rfl
      simpa [hbytes, append_assoc, hlen] using this
    rw [hp, isSome_none] at hcode
    unfold deserialize_and_call
    simp only [h1, hdest, hfp, hcheck, if_false, hcode, Message.deserialize_and_call, h2,
      Message.call, hp, map_none, Message.serialized_size, add_assoc]
  | some p =>
    have hp' : p.length ≤ 32767 := by simpa [Message.payload_size, hp] using hsize
    obtain ⟨len, hlenf⟩ : ∃ len, len = storeInt 2 (p.length : ℤ) := ⟨_, rfl⟩
    have hlen2 : len.length = 2 := by rw [hlenf, length_storeInt]
    have hload : loadInt 2 len = p.length := by
      rw [hlenf]
      exact loadInt_storeInt_of_range (by omega) (by omega)
    have hbytes : m.bytes = hdr ++ m.storage ++ (len ++ p) := by
      simp [Message.bytes, hp, hhdr, hlenf]
    have h1 : field (pre ++ (m.bytes ++ post)) pre.length 8 = some hdr := by
      have := field_append pre hdr (m.storage ++ (len ++ p) ++ post) hlen
      simpa [hbytes, append_assoc] using this
    have h2 : field (pre ++ (m.bytes ++ post)) (pre.length + 8) m.storage.length =
        some m.storage := by
      have := field_append (pre ++ hdr) m.storage (len ++ p ++ post) rfl
      simpa [hbytes, append_assoc, hlen] using this
    have h3 : field (pre ++ (m.bytes ++ post)) (pre.length + 8 + m.storage.length) 2 =
        some len := by
      have := field_append (pre ++ hdr ++ m.storage) len (p ++ post) hlen2
      simpa [hbytes, append_assoc, hlen, add_assoc] using this
    have h4 : field (pre ++ (m.bytes ++ post)) (pre.length + 8 + m.storage.length + 2) p.length =
        some p := by
      have := field_append (pre ++ hdr ++ m.storage ++ len) p post rfl
      simpa [hbytes, append_assoc, hlen, hlen2, add_assoc] using this
    have hread : PayloadMessage.deserialize_and_call m.fp m.storage.length
        (pre ++ (m.bytes ++ post)) (pre.length + 8) =
        some (⟨m.fp, m.storage, some (p.length, p)⟩,
          pre.length + 8 + m.storage.length + 2 + p.length) := by
      unfold PayloadMessage.deserialize_and_call
      rw [h2, h3]
      show PayloadMessage.call_functor _ _ _ _ (loadInt 2 len) = _
      rw [hload, PayloadMessage.call_functor_natCast h4]
    rw [hp, isSome_some] at hcode
    unfold deserialize_and_call
    rw [h1]
    simp only [hdest, hfp, hcheck, if_false, hcode, hread, Message.call, hp, map_some,
      Message.serialized_size, add_assoc]

theorem deaggregate_buffer_bytes (mycore : Core) (msgs : List (Message code))
    (hdest : ∀ m ∈ msgs, m.destination = mycore) (hsize : ∀ m ∈ msgs, m.payload_size ≤ 32767)
    (pre post : List UInt8) :
    deaggregate_buffer code mycore (pre ++ (msgs.flatMap Message.bytes ++ post))
        (pre.length + (msgs.map Message.serialized_size).sum) msgs.length pre.length =
      some (msgs.map Message.call, pre.length + (msgs.map Message.serialized_size).sum) := by
  induction msgs generalizing pre with
  | nil => simp [deaggregate_buffer]
  | cons m ms ih =>
    have hpos := m.serialized_size_pos
    have hcall := deserialize_and_call_bytes m (hsize m (by simp)) pre
      (ms.flatMap Message.bytes ++ post)
    rw [hdest m (by simp)] at hcall
    have hrest := ih (fun m hm => hdest m (by simp [hm])) (fun m hm => hsize m (by simp [hm]))
      (pre ++ m.bytes)
    simp only [length_append, m.length_bytes, append_assoc] at hrest
    have hlt : pre.length < pre.length + ((m :: ms).map Message.serialized_size).sum := by
      rw [map_cons, sum_cons]
      omega
    rw [length_cons, deaggregate_buffer, if_pos hlt]
    simp only [flatMap_cons, append_assoc, hcall, map_cons, sum_cons,
      ← add_assoc, hrest]

theorem Message.payload_of_call {fp : ℤ} {sizeofT t next : ℕ} {buffer : List UInt8} {c : Call}
    (h : Message.deserialize_and_call fp sizeofT buffer t = some (c, next)) :
    c.payload = none := by
  unfold Message.deserialize_and_call at h
  split at h
  · cases h
  · obtain ⟨rfl, -⟩ := Prod.mk.inj (some.inj h)
    rfl

theorem PayloadMessage.payload_of_call_functor {fp size : ℤ} {t next : ℕ}
    {obj buffer : List UInt8} {c : Call}
    (h : PayloadMessage.call_functor fp obj buffer t size = some (c, next)) :
    ∃ p, c.payload = some (size, p) := by
  unfold PayloadMessage.call_functor at h
  split at h
  · cases h
  · next p _ =>
    obtain ⟨-, h⟩ := ite_none_left_eq_some.mp h
    obtain ⟨rfl, -⟩ := Prod.mk.inj (some.inj h)
    exact ⟨p, rfl⟩

theorem PayloadMessage.payload_of_call {fp : ℤ} {sizeofT t next : ℕ} {buffer : List UInt8} {c : Call}
    (h : PayloadMessage.deserialize_and_call fp sizeofT buffer t = some (c, next)) :
    ∃ size p, c.payload = some (size, p) ∧ size ≤ 32767 := by
  unfold PayloadMessage.deserialize_and_call at h
  split at h
  · next obj length _ _ =>
    obtain ⟨p, hp⟩ := PayloadMessage.payload_of_call_functor h
    exact ⟨_, p, hp, loadInt_two_le length⟩
  · cases h

theorem deserialize_and_call_payload_size {mycore : Core} {buffer : List UInt8} {pos next : ℕ}
    {c : Call} (h : deserialize_and_call code mycore buffer pos = some (c, next)) {size : ℤ}
    {p : List UInt8} (hc : c.payload = some (size, p)) : size ≤ 32767 := by
  unfold deserialize_and_call at h
  cases hword : field buffer pos 8 with
  | none => simp [hword] at h
  | some word =>
    simp only [hword, ite_none_left_eq_some] at h
    obtain ⟨-, h⟩ := h
    split at h
    · cases h
    · -- a functor-only message has no payload
      rw [Message.payload_of_call h] at hc
      cases hc
    · obtain ⟨size', p', hp', hle⟩ := PayloadMessage.payload_of_call h
      rw [hp'] at hc
      cases hc
      exact hle

theorem deaggregate_buffer_payload_size {mycore : Core} {buffer : List UInt8} {stop : ℕ} :
    ∀ {fuel pos last : ℕ} {cs : List Call},
      deaggregate_buffer code mycore buffer stop fuel pos = some (cs, last) →
      ∀ c ∈ cs, ∀ size p, c.payload = some (size, p) → size ≤ 32767 := by
  intro fuel
  induction fuel with
  | zero =>
    intro pos last cs h c hc
    unfold deaggregate_buffer at h
    obtain ⟨-, h⟩ := ite_none_left_eq_some.mp h
    obtain ⟨rfl, -⟩ := Prod.mk.inj (some.inj h)
    cases hc
  | succ fuel ih =>
    intro pos last cs h c hc size p hsize
    unfold deaggregate_buffer at h
    split at h
    · split at h
      · cases h
      · next c' next hcall =>
        split at h
        · cases h
        · next cs' last' hrest =>
          obtain ⟨rfl, -⟩ := Prod.mk.inj (some.inj h)
          rcases mem_cons.mp hc with rfl | hc
          · exact deserialize_and_call_payload_size hcall hsize
          · exact ih hrest c hc size p hsize
    · obtain ⟨rfl, -⟩ := Prod.mk.inj (some.inj h)
      cases hc

/-- What aggregation is for: the messages `sent` are a prefix of the list, the rest is returned
    because its first message has no room, and the reader makes exactly the calls of `sent`, in
    order, and stops at the end of the bytes written. -/
structure RoundTrip (mycore : Core) (max : ℕ) (msgs sent : List (Message code)) : Prop where
  split : msgs = sent ++ (aggregate_to_buffer max 0 msgs).2
  stops : ∀ m rest, (aggregate_to_buffer max 0 msgs).2 = m :: rest →
    max < (sent.map Message.serialized_size).sum + m.serialized_size
  executes : ∃ fuel, deaggregate_buffer code mycore (aggregate_to_buffer max 0 msgs).1
    (aggregate_to_buffer max 0 msgs).1.length fuel 0 =
      some (sent.map Message.call, (aggregate_to_buffer max 0 msgs).1.length)

/-- A call with a payload above the 16-bit range is never made. -/
theorem payload_size_le_of_call {mycore : Core} {buffer : List UInt8} {stop fuel pos last : ℕ}
    {cs : List Call} (h : deaggregate_buffer code mycore buffer stop fuel pos = some (cs, last))
    {m : Message code} (hm : m.call ∈ cs) : m.payload_size ≤ 32767 := by
  cases hp : m.payload with
  | none => simp [Message.payload_size, hp]
  | some p =>
    have hcall : m.call.payload = some ((p.length : ℤ), p) := by simp [Message.call, hp]
    have hle := deaggregate_buffer_payload_size h m.call hm _ _ hcall
    simp only [Message.payload_size, hp]
    omega

/-- **Aggregation round trip.**  For messages to one core, writer and reader agree if and only if
    every message that has room in the buffer behind those before it carries a payload of at
    most 32767 bytes. -/
theorem aggregation_round_trip (code : Code) (mycore : Core) (max : ℕ)
    (msgs : List (Message code)) (hdest : ∀ m ∈ msgs, m.destination = mycore) :
    (∃ sent, RoundTrip mycore max msgs sent) ↔
      ∀ pre m post, msgs = pre ++ m :: post →
        ((pre ++ [m]).map Message.serialized_size).sum ≤ max → m.payload_size ≤ 32767 := by
  obtain ⟨sent₀, hsplit, hbytes, htotal, hstops⟩ := aggregate_to_buffer_spec max msgs 0 (Nat.zero_le _)
  simp only [Nat.zero_add] at htotal hstops
  have hlen : (aggregate_to_buffer max 0 msgs).1.length =
      (sent₀.map Message.serialized_size).sum := by
    rw [hbytes, length_flatMap_bytes]
  constructor
  · rintro ⟨sent, hsent, -, fuel, hexec⟩ pre m post hmsgs hroom
    -- the two prefixes are the same one
    obtain rfl : sent = sent₀ := append_cancel_right (hsent.symm.trans hsplit)
    have hpre : (pre ++ [m]) <+: msgs := ⟨post, by rw [hmsgs]; simp⟩
    have hpre' : sent <+: msgs := ⟨_, hsplit.symm⟩
    have hmem : m ∈ sent := by
      rcases prefix_or_prefix_of_prefix hpre hpre' with ⟨ext, hext⟩ | ⟨ext, hext⟩
      · rw [← hext]
        simp
      · -- a shorter prefix would have stopped at a message that has room
        cases ext with
        | nil =>
          rw [append_nil] at hext
          rw [hext]
          simp
        | cons m' ext =>
          exfalso
          have hrest : (aggregate_to_buffer max 0 msgs).2 = m' :: (ext ++ post) := by
            apply (append_right_inj sent).mp
            calc sent ++ (aggregate_to_buffer max 0 msgs).2 = pre ++ m :: post := by
                  rw [← hsplit, hmsgs]
              _ = pre ++ [m] ++ post := append_cons _ _ _
              _ = sent ++ m' :: (ext ++ post) := by rw [← hext]; simp
          have hlt := hstops m' _ hrest
          rw [← hext] at hroom
          simp only [map_append, map_cons, sum_append, sum_cons] at hroom
          omega
    exact payload_size_le_of_call hexec (mem_map_of_mem hmem)
  · intro hcond
    refine ⟨sent₀, hsplit, hstops, sent₀.length, ?_⟩
    have hfit : ∀ m ∈ sent₀, m.payload_size ≤ 32767 := by
      intro m hm
      obtain ⟨pre, post, hpp⟩ := append_of_mem hm
      have hmsgs : msgs = pre ++ m :: (post ++ (aggregate_to_buffer max 0 msgs).2) := by
        rw [← cons_append, ← append_assoc, ← hpp]
        exact hsplit
      apply hcond pre m _ hmsgs
      rw [hpp] at htotal
      simp only [map_append, map_cons, sum_append, sum_cons] at htotal ⊢
      simp only [map_nil, sum_nil]
      omega
    have hread := deaggregate_buffer_bytes mycore sent₀
      (fun m hm => hdest m (by rw [hsplit]; simp [hm])) hfit [] []
    simp only [length_nil, zero_add, nil_append, append_nil] at hread
    rw [hlen, hbytes]
    exact hread

end reader

/-- A program with one deserializer, for payload messages with a functor of one byte. -/
def oneDeserializer : Code := fun fp => if fp = 4096 then some ⟨1, true⟩ else none

/-- A message to core 1 with a payload of `n` zero bytes. -/
def zeroPayload (n : ℕ) : Message oneDeserializer where
  destination := 1
  fp := 4096
  storage := [7]
  payload := some (List.replicate n 0)
  destination_range := by norm_num
  fp_range := by norm_num
  fp_ne_zero := by norm_num
  fp_code := rfl

theorem zeroPayload_payload_size (n : ℕ) : (zeroPayload n).payload_size = n :=
  length_replicate

theorem zeroPayload_serialized_size (n : ℕ) : (zeroPayload n).serialized_size = 11 + n :=
  congrArg (11 + ·) (zeroPayload_payload_size n)

theorem aggregation_round_trip_zeroPayload :
    ∃ sent, RoundTrip 1 500000 [zeroPayload 3, zeroPayload 5] sent := by
  apply (aggregation_round_trip oneDeserializer 1 500000 [zeroPayload 3, zeroPayload 5] _).mpr
  · intro pre m post hmsgs _
    have hm : m ∈ [zeroPayload 3, zeroPayload 5] := by
      rw [hmsgs]
      simp
    rcases mem_pair.mp hm with rfl | rfl <;> rw [zeroPayload_payload_size] <;> norm_num
  · intro m hm
    rcases mem_pair.mp hm with rfl | rfl <;> rfl

/-- A payload of 32768 bytes has room in a buffer of half a megabyte, but its length is read
    back as a negative number. -/
theorem round_trip_fails_for_large_payload :
    (zeroPayload 32768).serialized_size ≤ 500000 ∧
      ¬ ∃ sent, RoundTrip 1 500000 [zeroPayload 32768] sent := by
  have hsize := zeroPayload_serialized_size 32768
  refine ⟨by rw [hsize]; norm_num, ?_⟩
  rintro ⟨sent, hsplit, hstops, fuel, hexec⟩
  have hsent : sent ≠ [] := by
    rintro rfl
    rw [nil_append] at hsplit
    have hlt := hstops (zeroPayload 32768) [] hsplit.symm
    rw [hsize, map_nil, sum_nil] at hlt
    omega
  obtain ⟨m, ms, rfl⟩ := exists_cons_of_ne_nil hsent
  have hm : m = zeroPayload 32768 := (cons.inj hsplit).1.symm
  have hle := payload_size_le_of_call hexec (m := m) (by simp)
  rw [hm, zeroPayload_payload_size] at hle
  omega

end Grappa
