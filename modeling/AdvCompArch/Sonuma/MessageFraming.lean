import AdvCompArch.Lib.FixedWidth
import AdvCompArch.Lib.Transition

/-! # Messages on the sockets between daemons

    A message is packed into bytes and written to a socket with `sendall`; the daemon of the
    other node takes the length of a message from the socket, then the rest of it, and unpacks
    it.  The socket keeps the bytes in order, but each call gets only as many of them as happen
    to be there. -/

namespace Sonuma

open List Transition Option FixedWidth

def MAX_RPC_BYTES : ℕ := 4096

/-- Length, type, flag, and three numbers of two bytes. -/
def calcTotalHeaderBytes : ℕ := 12

def getLenParamBytes : ℕ := 4

/-- What `tmp_copies` holds. -/
def RECV_BUFFER_BYTES : ℕ := MAX_RPC_BYTES + calcTotalHeaderBytes

/-- A message between daemons.  The constructors set both lengths by the payload. -/
@[ext] structure RmcMessage where
  message_len : UInt32
  msg_type : UInt8
  terminate_to_senders_qp : UInt8
  rpc_id : UInt16
  senders_qp : UInt16
  slot : UInt16
  payload : List UInt8
  payload_len : UInt32
  payload_len_eq : payload_len = UInt32.ofNat payload.length
  message_len_eq : message_len = UInt32.ofNat calcTotalHeaderBytes + payload_len
  deriving DecidableEq

namespace RmcMessage

/-- The constructor of a message with the payload `aPayload`. -/
def withPayload (anRPC_ID aQP aSlot : UInt16) (aType : UInt8) (aPayload : List UInt8)
    (useQP_terminate : UInt8) : RmcMessage where
  message_len := UInt32.ofNat calcTotalHeaderBytes + UInt32.ofNat aPayload.length
  msg_type := aType
  terminate_to_senders_qp := useQP_terminate
  rpc_id := anRPC_ID
  senders_qp := aQP
  slot := aSlot
  payload := aPayload
  payload_len := UInt32.ofNat aPayload.length
  payload_len_eq := rfl
  message_len_eq := rfl

/-- The constructor without a payload. -/
def bare (anRPC_ID aQP aSlot : UInt16) (aType : UInt8) : RmcMessage where
  message_len := UInt32.ofNat calcTotalHeaderBytes
  msg_type := aType
  terminate_to_senders_qp := 'f'.toUInt8
  rpc_id := anRPC_ID
  senders_qp := aQP
  slot := aSlot
  payload := []
  payload_len := 0
  payload_len_eq := rfl
  message_len_eq := rfl

/-- The constructor of the message that frees a slot; its `rpc_id` should never be read. -/
def recvDone (aQP aSlot : UInt16) (aType : UInt8) : RmcMessage := bare 0 aQP aSlot aType

/-- The payload is the part that is not written in network order. -/
def pack (m : RmcMessage) : List UInt8 :=
  storeNet 4 m.message_len.toNat ++
    [m.msg_type, m.terminate_to_senders_qp] ++
    storeNet 2 m.rpc_id.toNat ++
    storeNet 2 m.senders_qp.toNat ++
    storeNet 2 m.slot.toNat ++
    if m.payload_len ≠ 0 then m.payload.take m.payload_len.toNat else []

/-- The length in the first bytes of a buffer. -/
def msgLength (buf : List UInt8) : UInt32 :=
  UInt32.ofNat (loadNet (buf.take getLenParamBytes))

/-- The number of two bytes at an offset of a buffer. -/
def half (buf : List UInt8) (offset : ℕ) : UInt16 :=
  UInt16.ofNat (loadNet ((buf.drop offset).take 2))

/-- None where the payload is read beyond the end of the buffer. -/
def unpackToRMC_Message (buf : List UInt8) : Option RmcMessage :=
  let message_len := msgLength buf
  let mType := buf.getD 4 0
  let terminate_to_senders_qp := buf.getD 5 0
  let rpc_id := half buf 6
  let senders_qp := half buf 8
  let slot := half buf 10
  if mType = 's'.toUInt8 then
    let payloadLen := (message_len - UInt32.ofNat calcTotalHeaderBytes).toNat
    if calcTotalHeaderBytes + payloadLen ≤ buf.length then
      some (withPayload rpc_id senders_qp slot mType
        ((buf.drop calcTotalHeaderBytes).take payloadLen) terminate_to_senders_qp)
    else none
  else some (bare rpc_id senders_qp slot mType)

/-- A message of the types that there are, with a payload that has room in a slot. -/
def Sendable (m : RmcMessage) : Prop :=
  m.msg_type ∈ ['s'.toUInt8, 'g'.toUInt8, 'n'.toUInt8] ∧ m.payload.length ≤ MAX_RPC_BYTES

instance (m : RmcMessage) : Decidable m.Sendable := inferInstanceAs (Decidable (_ ∧ _))

/-- Only a message of type `s` has a payload and the flag. -/
def Plain (m : RmcMessage) : Prop :=
  m.msg_type = 's'.toUInt8 ∨ m.payload = [] ∧ m.terminate_to_senders_qp = 'f'.toUInt8

instance (m : RmcMessage) : Decidable m.Plain := inferInstanceAs (Decidable (_ ∨ _))

variable {m : RmcMessage}

theorem Sendable.payload_len (h : m.Sendable) : m.payload_len.toNat = m.payload.length := by
  have hle : m.payload.length ≤ 4096 := h.2
  rw [m.payload_len_eq, UInt32.toNat_ofNat']
  omega

theorem Sendable.message_len (h : m.Sendable) :
    m.message_len.toNat = calcTotalHeaderBytes + m.payload.length := by
  have hle : m.payload.length ≤ 4096 := h.2
  rw [m.message_len_eq, UInt32.toNat_add, h.payload_len]
  simp only [calcTotalHeaderBytes, UInt32.toNat_ofNat']
  omega

/-- The bytes of a message that can be sent. -/
theorem Sendable.pack_eq (h : m.Sendable) :
    m.pack = storeNet 4 m.message_len.toNat ++
      (m.msg_type :: m.terminate_to_senders_qp :: (storeNet 2 m.rpc_id.toNat ++
        (storeNet 2 m.senders_qp.toNat ++
          (storeNet 2 m.slot.toNat ++ m.payload)))) := by
  have hpay : (if m.payload_len ≠ 0 then m.payload.take m.payload_len.toNat else []) =
      m.payload := by
    split
    · rw [h.payload_len, take_length]
    · rename_i hzero
      have hlen := h.payload_len
      rw [not_not.mp hzero] at hlen
      exact (length_eq_zero_iff.mp hlen.symm).symm
  unfold pack
  rw [hpay]
  simp

theorem Sendable.length_pack (h : m.Sendable) : m.pack.length = m.message_len.toNat := by
  rw [h.pack_eq, h.message_len]
  simp [calcTotalHeaderBytes]
  omega

theorem msgLength_eq {len : UInt32} {buf after : List UInt8}
    (hbuf : buf = storeNet 4 len.toNat ++ after) : msgLength buf = len := by
  have hlt : len.toNat < 256 ^ 4 := len.toNat_lt
  have hfirst : buf.take getLenParamBytes = storeNet 4 len.toNat := by
    rw [hbuf]
    exact take_left' (length_storeNet _ _)
  rw [msgLength, hfirst, loadNet_storeNet hlt, UInt32.ofNat_toNat]

theorem half_eq {a : UInt16} {buf : List UInt8} {offset : ℕ} (before after : List UInt8)
    (hbuf : buf = before ++ (storeNet 2 a.toNat ++ after))
    (hoff : before.length = offset) : half buf offset = a := by
  have hlt : a.toNat < 256 ^ 2 := a.toNat_lt
  rw [half, hbuf, drop_left' hoff, take_left' (length_storeNet _ _),
    loadNet_storeNet hlt, UInt16.ofNat_toNat]

theorem eq_withPayload (m : RmcMessage) :
    withPayload m.rpc_id m.senders_qp m.slot m.msg_type m.payload m.terminate_to_senders_qp =
      m := by
  ext1 <;> try rfl
  · rw [m.message_len_eq, m.payload_len_eq]
    rfl
  · rw [m.payload_len_eq]
    rfl

/-- **The bytes of a message give the message back**, but for what a message of another type
    than `s` has as payload and as flag. -/
theorem unpack_pack (h : m.Sendable) (pad : List UInt8) :
    unpackToRMC_Message (m.pack ++ pad) =
      some (if m.msg_type = 's'.toUInt8 then m
        else bare m.rpc_id m.senders_qp m.slot m.msg_type) := by
  generalize hL : storeNet 4 m.message_len.toNat = lenBytes
  generalize hA : storeNet 2 m.rpc_id.toNat = rpcBytes
  generalize hB : storeNet 2 m.senders_qp.toNat = qpBytes
  generalize hC : storeNet 2 m.slot.toNat = slotBytes
  have hl : lenBytes.length = 4 := by rw [← hL, length_storeNet]
  have ha : rpcBytes.length = 2 := by rw [← hA, length_storeNet]
  have hb : qpBytes.length = 2 := by rw [← hB, length_storeNet]
  have hc : slotBytes.length = 2 := by rw [← hC, length_storeNet]
  have hbuf : m.pack ++ pad = lenBytes ++ (m.msg_type :: m.terminate_to_senders_qp ::
      (rpcBytes ++ (qpBytes ++ (slotBytes ++ (m.payload ++ pad))))) := by
    rw [h.pack_eq, hL, hA, hB, hC]
    simp
  have hmlen : msgLength (m.pack ++ pad) = m.message_len := by
    rw [← hL] at hbuf
    exact msgLength_eq hbuf
  have htype : (m.pack ++ pad).getD 4 0 = m.msg_type := by
    rw [hbuf]
    simp [hl]
  have hterm : (m.pack ++ pad).getD 5 0 = m.terminate_to_senders_qp := by
    rw [hbuf]
    simp [getElem?_append, hl]
  have hrpc : half (m.pack ++ pad) 6 = m.rpc_id := by
    apply half_eq (lenBytes ++ [m.msg_type, m.terminate_to_senders_qp])
      (qpBytes ++ (slotBytes ++ (m.payload ++ pad)))
    · simp [hbuf, hA]
    · simp [hl]
  have hqp : half (m.pack ++ pad) 8 = m.senders_qp := by
    apply half_eq (lenBytes ++ [m.msg_type, m.terminate_to_senders_qp] ++ rpcBytes)
      (slotBytes ++ (m.payload ++ pad))
    · simp [hbuf, hB]
    · simp [hl, ha]
  have hslot : half (m.pack ++ pad) 10 = m.slot := by
    apply half_eq (lenBytes ++ [m.msg_type, m.terminate_to_senders_qp] ++ rpcBytes ++ qpBytes)
      (m.payload ++ pad)
    · simp [hbuf, hC]
    · simp [hl, ha, hb]
  have hplen : (m.message_len - UInt32.ofNat calcTotalHeaderBytes).toNat = m.payload.length := by
    rw [m.message_len_eq, UInt32.add_comm, UInt32.add_sub_cancel, h.payload_len]
  have hlen : calcTotalHeaderBytes + m.payload.length ≤ (m.pack ++ pad).length := by
    rw [length_append, h.length_pack, h.message_len]
    exact Nat.le_add_right _ _
  have hpay : ((m.pack ++ pad).drop calcTotalHeaderBytes).take m.payload.length = m.payload := by
    have hhead : m.pack ++ pad =
        (lenBytes ++ [m.msg_type, m.terminate_to_senders_qp] ++ rpcBytes ++ qpBytes ++ slotBytes) ++
          (m.payload ++ pad) := by
      simp [hbuf]
    rw [hhead, drop_left' (by simp [hl, ha, hb, hc, calcTotalHeaderBytes]),
      take_left' rfl]
  simp only [unpackToRMC_Message, hmlen, htype, hterm, hrpc, hqp, hslot, hplen, hlen, hpay, if_true,
    eq_withPayload]
  split <;> rfl

theorem unpack_eq_iff (h : m.Sendable) (pad : List UInt8) :
    unpackToRMC_Message (m.pack ++ pad) = some m ↔ m.Plain := by
  rw [unpack_pack h, some.injEq]
  by_cases htype : m.msg_type = 's'.toUInt8
  · rw [if_pos htype]
    exact ⟨fun _ => .inl htype, fun _ => rfl⟩
  · rw [if_neg htype]
    constructor
    · intro heq
      have hpay : m.payload = [] := congrArg RmcMessage.payload heq.symm
      have hterm : m.terminate_to_senders_qp = 'f'.toUInt8 :=
        congrArg RmcMessage.terminate_to_senders_qp heq.symm
      exact .inr ⟨hpay, hterm⟩
    · intro hplain
      obtain ⟨hpay, hterm⟩ := hplain.resolve_left htype
      have hlen : m.payload_len = 0 := by rw [m.payload_len_eq, hpay]; rfl
      ext1
      case message_len => rw [m.message_len_eq, hlen]; rfl
      case payload_len => exact hlen.symm
      case payload => exact hpay.symm
      case terminate_to_senders_qp => exact hterm.symm
      all_goals rfl

end RmcMessage

/-! ### One socket -/

/-- A call of `sendall` that is under way or has returned. -/
structure Sendall where
  buf : List UInt8
  total : ℕ
  bytesLeft : ℕ

/-- What is still to be sent. -/
def Sendall.pending (c : Sendall) : List UInt8 := c.buf.drop c.total

def sendall (buf : List UInt8) : Sendall := ⟨buf, 0, buf.length⟩

/-- Where the receive loop stands, and what is in `rbuf` there. -/
inductive RecvPhase where
  /-- Before the non-blocking call for a length. -/
  | poll
  /-- Before the blocking call for the rest of a length. -/
  | restOfLength (rbuf : List UInt8)
  /-- Before the blocking call for the rest of a message. -/
  | restOfMessage (rbuf : List UInt8)
  /-- An assertion has failed, or memory outside of `tmp_copies` was used. -/
  | failed

namespace RecvPhase

def rbuf : RecvPhase → List UInt8
  | restOfLength rbuf | restOfMessage rbuf => rbuf
  | _ => []

/-- The number of bytes that the call asks for. -/
def asks : RecvPhase → ℕ
  | poll => getLenParamBytes
  | restOfLength rbuf => getLenParamBytes - rbuf.length
  | restOfMessage rbuf => (RmcMessage.msgLength rbuf - UInt32.ofNat getLenParamBytes).toNat
  | failed => 0

end RecvPhase

/-- The buffer, cleared but for the bytes that were received. -/
def tmp_copies (rbuf : List UInt8) : List UInt8 :=
  rbuf ++ List.replicate (RECV_BUFFER_BYTES - rbuf.length) 0

/-- A socket with its sender and its receiver, and the messages sent and received over it. -/
structure Socket where
  sent : List RmcMessage
  sendall : Sendall
  stream : List UInt8
  phase : RecvPhase
  received : List RmcMessage

namespace Socket

variable (s : Socket)

/-- What the receive loop does with the bytes that a call got. -/
def recvd (got : List UInt8) : Socket :=
  match s.phase with
  | .poll =>
    if got.length < getLenParamBytes then { s with phase := .restOfLength got }
    else { s with phase := .restOfMessage got }
  | .restOfLength rbuf =>
    -- the assertion on `nrecvd + rec_round_2`
    if rbuf.length + got.length = getLenParamBytes then
      { s with phase := .restOfMessage (rbuf ++ got) }
    else { s with phase := .failed }
  | .restOfMessage rbuf =>
    if got = [] then { s with phase := .poll }
    else if RECV_BUFFER_BYTES < (rbuf ++ got).length then { s with phase := .failed }
    else match RmcMessage.unpackToRMC_Message (tmp_copies (rbuf ++ got)) with
      | none => { s with phase := .failed }
      | some msgReceived => { s with phase := .poll, received := s.received ++ [msgReceived] }
  | .failed => s

/-- A call of `recv` gets the next `n` bytes. -/
def recv (n : ℕ) : Socket := recvd { s with stream := s.stream.drop n } (s.stream.take n)

inductive Label where
  /-- A message is packed, and `sendall` called. -/
  | pack (m : RmcMessage)
  /-- A call of `send` takes `n` bytes. -/
  | send (n : ℕ)
  /-- The non-blocking call gets nothing. -/
  | wouldBlock
  /-- A call of `recv` gets `n` bytes. -/
  | recv (n : ℕ)

/-- The sender waits for `sendall`; a call of `recv` gets between 1 byte and what it asks for. -/
def next : Label → Option Socket
  | .pack m =>
    if s.sendall.total ≥ s.sendall.buf.length ∧ m.Sendable then
      some { s with sent := s.sent ++ [m], sendall := Sonuma.sendall m.pack }
    else none
  | .send n =>
    if s.sendall.total < s.sendall.buf.length ∧ n ≤ s.sendall.bytesLeft then
      some { s with
        stream := s.stream ++ s.sendall.pending.take n
        sendall := ⟨s.sendall.buf, s.sendall.total + n, s.sendall.bytesLeft - n⟩ }
    else none
  | .wouldBlock =>
    match s.phase with
    | .poll => some s
    | _ => none
  | .recv n =>
    if (0 < n ∨ s.phase.asks = 0) ∧ n ≤ s.phase.asks ∧ n ≤ s.stream.length then
      some (s.recv n)
    else none

def init : Socket := ⟨[], ⟨[], 0, 0⟩, [], .poll, []⟩

def system : Transition.System Socket Label where
  init := init
  next := next

/-- The messages received are the first of those sent, and what has not been received is, byte by
    byte, the other messages. -/
structure Faithful : Prop where
  running : s.phase ≠ .failed
  received_eq : s.received = s.sent.take s.received.length
  aligned : s.phase.rbuf ++ (s.stream ++ s.sendall.pending) =
    (s.sent.drop s.received.length).flatMap RmcMessage.pack
  complete : s.phase = .poll → s.stream = [] → s.sendall.pending = [] → s.received = s.sent

/-- A blocking call gets all it asks for; and the message taken is one that comes back as it
    is. -/
def WholeReads : Label → Prop
  | .recv n =>
    match s.phase with
    | .restOfLength _ => n = s.phase.asks
    | .restOfMessage _ => n = s.phase.asks ∧ ∀ m ∈ s.sent[s.received.length]?, m.Plain
    | _ => True
  | _ => True

/-- What holds besides in every state in which the receiver is aligned. -/
structure Inv : Prop extends s.Faithful where
  sendable : ∀ m ∈ s.sent, m.Sendable
  -- the sender's counters, and what the receiver has in its two buffers
  bytesLeft : s.sendall.total + s.sendall.bytesLeft = s.sendall.buf.length
  length_short : ∀ r, s.phase = .restOfLength r → r.length < getLenParamBytes
  length_whole : ∀ r, s.phase = .restOfMessage r → r.length = getLenParamBytes

variable {s} {s' : Socket} {l : Label}

theorem init_inv : init.Inv where
  running := by simp [init]
  received_eq := rfl
  aligned := rfl
  complete _ _ _ := rfl
  sendable := by simp [init]
  bytesLeft := rfl
  length_short := by simp [init]
  length_whole := by simp [init]

theorem complete_of_aligned (hsendable : ∀ m ∈ s.sent, m.Sendable)
    (hreceived : s.received = s.sent.take s.received.length)
    (haligned : s.phase.rbuf ++ (s.stream ++ s.sendall.pending) =
      (s.sent.drop s.received.length).flatMap RmcMessage.pack)
    (hphase : s.phase = .poll) (hstream : s.stream = []) (hpending : s.sendall.pending = []) :
    s.received = s.sent := by
  have hnone : s.sent.drop s.received.length = [] := by
    cases hrest : s.sent.drop s.received.length with
    | nil => rfl
    | cons m rest =>
      -- a message has at least its header
      have hm : m ∈ s.sent := mem_of_mem_drop (hrest ▸ mem_cons_self)
      have hlen := congrArg length haligned
      rw [hphase, hstream, hpending, hrest] at hlen
      simp [RecvPhase.rbuf, (hsendable m hm).length_pack, (hsendable m hm).message_len,
        calcTotalHeaderBytes] at hlen
      omega
  calc s.received = s.sent.take s.received.length := hreceived
    _ = s.sent.take s.received.length ++ s.sent.drop s.received.length := by
      rw [hnone, append_nil]
    _ = s.sent := take_append_drop _ _

theorem Inv.received_le (hi : s.Inv) : s.received.length ≤ s.sent.length := by
  have := congrArg length hi.received_eq
  rw [length_take] at this
  omega

/-! ### The sender -/

theorem pack_inv (hi : s.Inv) {m : RmcMessage} (hm : m.Sendable)
    (hreturned : s.sendall.total ≥ s.sendall.buf.length) :
    Inv { s with sent := s.sent ++ [m], sendall := Sonuma.sendall m.pack } := by
  have hpending : s.sendall.pending = [] := drop_eq_nil_of_le hreturned
  have hsendable : ∀ m' ∈ s.sent ++ [m], m'.Sendable := by
    intro m' hm'
    rcases mem_append.mp hm' with h | h
    · exact hi.sendable m' h
    · rwa [mem_singleton.mp h]
  have hreceived : s.received = (s.sent ++ [m]).take s.received.length := by
    rw [take_append_of_le_length hi.received_le]
    exact hi.received_eq
  have haligned : s.phase.rbuf ++ (s.stream ++ (Sonuma.sendall m.pack).pending) =
      ((s.sent ++ [m]).drop s.received.length).flatMap RmcMessage.pack := by
    have hold := hi.aligned
    rw [hpending, append_nil] at hold
    rw [drop_append_of_le_length hi.received_le, flatMap_append, ← hold]
    simp [Sonuma.sendall, Sendall.pending]
  exact {
    running := hi.running
    received_eq := hreceived
    aligned := haligned
    complete := complete_of_aligned hsendable hreceived haligned
    sendable := hsendable
    bytesLeft := zero_add _
    length_short := hi.length_short
    length_whole := hi.length_whole }

theorem send_inv (hi : s.Inv) {n : ℕ} (hn : n ≤ s.sendall.bytesLeft) :
    Inv { s with
      stream := s.stream ++ s.sendall.pending.take n
      sendall := ⟨s.sendall.buf, s.sendall.total + n, s.sendall.bytesLeft - n⟩ } := by
  have hbytes : s.stream ++ s.sendall.pending.take n ++ s.sendall.buf.drop (s.sendall.total + n) =
      s.stream ++ s.sendall.pending := by
    rw [← drop_drop, append_assoc, Sendall.pending, take_append_drop]
  have haligned : s.phase.rbuf ++ (s.stream ++ s.sendall.pending.take n ++
      s.sendall.buf.drop (s.sendall.total + n)) =
        (s.sent.drop s.received.length).flatMap RmcMessage.pack := by
    rw [hbytes]
    exact hi.aligned
  exact {
    running := hi.running
    received_eq := hi.received_eq
    aligned := haligned
    complete := complete_of_aligned hi.sendable hi.received_eq haligned
    sendable := hi.sendable
    bytesLeft := by
      have := hi.bytesLeft
      show s.sendall.total + n + (s.sendall.bytesLeft - n) = s.sendall.buf.length
      omega
    length_short := hi.length_short
    length_whole := hi.length_whole }

/-! ### The receiver -/

theorem recv_bytes (n : ℕ) (rbuf : List UInt8) :
    rbuf ++ s.stream.take n ++ (s.stream.drop n ++ s.sendall.pending) =
      rbuf ++ (s.stream ++ s.sendall.pending) := by
  rw [append_assoc, ← append_assoc (s.stream.take n), take_append_drop]

theorem buffer_inv (hi : s.Inv) {n : ℕ} {phase : RecvPhase}
    (hrbuf : phase.rbuf = s.phase.rbuf ++ s.stream.take n) (hrunning : phase ≠ .failed)
    (hpoll : phase ≠ .poll)
    (hshort : ∀ r, phase = .restOfLength r → r.length < getLenParamBytes)
    (hwhole : ∀ r, phase = .restOfMessage r → r.length = getLenParamBytes) :
    Inv { s with stream := s.stream.drop n, phase := phase } where
  running := hrunning
  received_eq := hi.received_eq
  aligned := by
    show phase.rbuf ++ (s.stream.drop n ++ s.sendall.pending) = _
    rw [hrbuf, recv_bytes]
    exact hi.aligned
  complete h := absurd h hpoll
  sendable := hi.sendable
  bytesLeft := hi.bytesLeft
  length_short := hshort
  length_whole := hwhole

theorem poll_inv (hi : s.Inv) {n : ℕ} (hphase : s.phase = .poll) (hn : n ≤ s.phase.asks)
    (hstream : n ≤ s.stream.length) :
    (s.recv n).Inv := by
  have hgot : (s.stream.take n).length = n := length_take_of_le hstream
  have hn' : n ≤ getLenParamBytes := by
    rw [hphase] at hn
    exact hn
  have hrbuf : s.stream.take n = s.phase.rbuf ++ s.stream.take n := by
    rw [hphase]
    rfl
  simp only [recv, recvd, hphase, hgot]
  split
  · rename_i hlt
    apply @buffer_inv s hi n (.restOfLength (s.stream.take n)) hrbuf
    · simp
    · simp
    · intro r hr
      obtain rfl := RecvPhase.restOfLength.inj hr
      rwa [hgot]
    · simp
  · rename_i hge
    apply @buffer_inv s hi n (.restOfMessage (s.stream.take n)) hrbuf
    · simp
    · simp
    · simp
    · intro r hr
      obtain rfl := RecvPhase.restOfMessage.inj hr
      omega

theorem length_inv (hi : s.Inv) {n : ℕ} {rbuf : List UInt8} (hphase : s.phase = .restOfLength rbuf)
    (hn : n = s.phase.asks) (hstream : n ≤ s.stream.length) :
    (s.recv n).Inv := by
  have hgot : (s.stream.take n).length = n := length_take_of_le hstream
  have hshort := hi.length_short rbuf hphase
  have hwhole : rbuf.length + n = getLenParamBytes := by
    rw [hphase] at hn
    simp only [RecvPhase.asks] at hn
    omega
  have hrbuf : rbuf ++ s.stream.take n = s.phase.rbuf ++ s.stream.take n := by
    rw [hphase]
    rfl
  simp only [recv, recvd, hphase, hgot, hwhole, if_true]
  apply @buffer_inv s hi n (.restOfMessage (rbuf ++ s.stream.take n)) hrbuf
  · simp
  · simp
  · simp
  · intro r hr
    obtain rfl := RecvPhase.restOfMessage.inj hr
    rw [length_append, hgot, hwhole]

/-- Once its length is there, the message that is taken is the next one that was sent, and the
    call asks for the rest of it. -/
theorem Inv.current (hi : s.Inv) {rbuf : List UInt8} (hphase : s.phase = .restOfMessage rbuf) :
    ∃ m, s.sent[s.received.length]? = some m ∧ m.Sendable ∧
      rbuf.length + s.phase.asks = m.pack.length ∧ 0 < s.phase.asks ∧
      rbuf ++ (s.stream ++ s.sendall.pending) =
        m.pack ++ (s.sent.drop (s.received.length + 1)).flatMap RmcMessage.pack := by
  have hlen := hi.length_whole rbuf hphase
  have hbytes : rbuf ++ (s.stream ++ s.sendall.pending) =
      (s.sent.drop s.received.length).flatMap RmcMessage.pack := by
    have := hi.aligned
    rw [hphase] at this
    exact this
  have hk : s.received.length < s.sent.length := by
    by_contra hge
    rw [drop_eq_nil_of_le (by omega), flatMap_nil] at hbytes
    rw [(append_eq_nil_iff.mp hbytes).1] at hlen
    cases hlen
  rw [drop_eq_getElem_cons hk, flatMap_cons] at hbytes
  generalize hm : s.sent[s.received.length] = m at hbytes
  have hsend : m.Sendable := hi.sendable m (hm ▸ getElem_mem hk)
  have hmsg : RmcMessage.msgLength rbuf = m.message_len := by
    rw [hsend.pack_eq, append_assoc] at hbytes
    have hfirst := (append_inj hbytes (by rw [hlen, length_storeNet]; rfl)).1
    exact RmcMessage.msgLength_eq (hfirst.trans (append_nil _).symm)
  have hasks : s.phase.asks + getLenParamBytes = m.message_len.toNat := by
    rw [hphase, RecvPhase.asks, hmsg, UInt32.toNat_sub_of_le]
    · have := hsend.message_len
      simp only [calcTotalHeaderBytes, getLenParamBytes, UInt32.toNat_ofNat'] at *
      omega
    · have := hsend.message_len
      rw [UInt32.le_iff_toNat_le, this]
      simp [calcTotalHeaderBytes, getLenParamBytes]
      omega
  refine ⟨m, by rw [getElem?_eq_getElem hk, hm], hsend, ?_, ?_, hbytes⟩
  · rw [hlen, hsend.length_pack]
    omega
  · have := hsend.message_len
    simp only [calcTotalHeaderBytes, getLenParamBytes] at *
    omega

theorem message_inv (hi : s.Inv) {n : ℕ} {rbuf : List UInt8} (hphase : s.phase = .restOfMessage rbuf)
    (hn : n = s.phase.asks) (hstream : n ≤ s.stream.length)
    (hplain : ∀ m ∈ s.sent[s.received.length]?, m.Plain) :
    (s.recv n).Inv := by
  obtain ⟨m, hm, hsend, hlen, hpos, hbytes⟩ := hi.current hphase
  have hgot : (s.stream.take n).length = n := length_take_of_le hstream
  have hsplit : rbuf ++ s.stream.take n = m.pack ∧ s.stream.drop n ++ s.sendall.pending =
      (s.sent.drop (s.received.length + 1)).flatMap RmcMessage.pack := by
    rw [← recv_bytes n rbuf] at hbytes
    exact append_inj hbytes (by rw [length_append, hgot, hn, hlen])
  have hne : s.stream.take n ≠ [] := by
    intro hnil
    rw [hnil] at hgot
    rw [hn] at hgot
    exact absurd hgot.symm (ne_of_gt hpos)
  have hfits : ¬RECV_BUFFER_BYTES < m.pack.length := by
    have hpay : m.payload.length ≤ MAX_RPC_BYTES := hsend.2
    rw [hsend.length_pack, hsend.message_len, RECV_BUFFER_BYTES]
    omega
  have hunpack : RmcMessage.unpackToRMC_Message (tmp_copies m.pack) = some m :=
    (RmcMessage.unpack_eq_iff hsend _).mpr (hplain m hm)
  have hreceived : s.received ++ [m] = s.sent.take (s.received ++ [m]).length := by
    rw [length_append, length_singleton, take_add_one, hm, ← hi.received_eq]
    rfl
  have haligned : s.stream.drop n ++ s.sendall.pending =
      (s.sent.drop (s.received ++ [m]).length).flatMap RmcMessage.pack := by
    rw [length_append, length_singleton]
    exact hsplit.2
  simp only [recv, recvd, hphase, hne, if_false, hsplit.1, hfits, hunpack]
  exact {
    running := by simp
    received_eq := hreceived
    aligned := haligned
    complete := complete_of_aligned hi.sendable hreceived haligned
    sendable := hi.sendable
    bytesLeft := hi.bytesLeft
    length_short := by simp
    length_whole := by simp }

theorem next_inv (hi : s.Inv) (hwhole : s.WholeReads l) (h : s.next l = some s') : s'.Inv := by
  cases l with
  | pack m =>
    obtain ⟨⟨hreturned, hm⟩, rfl⟩ := ite_some_none_eq_some.mp h
    exact pack_inv hi hm hreturned
  | send n =>
    obtain ⟨⟨-, hn⟩, rfl⟩ := ite_some_none_eq_some.mp h
    exact send_inv hi hn
  | wouldBlock =>
    cases hphase : s.phase with
    | poll =>
      simp only [next, hphase, some.injEq] at h
      rwa [← h]
    | restOfLength rbuf => simp [next, hphase] at h
    | restOfMessage rbuf => simp [next, hphase] at h
    | failed => simp [next, hphase] at h
  | recv n =>
    obtain ⟨⟨-, hn, hstream⟩, rfl⟩ := ite_some_none_eq_some.mp h
    cases hphase : s.phase with
    | poll => exact poll_inv hi hphase hn hstream
    | restOfLength rbuf =>
      simp only [WholeReads, hphase] at hwhole
      exact length_inv hi hphase (hphase ▸ hwhole) hstream
    | restOfMessage rbuf =>
      simp only [WholeReads, hphase] at hwhole
      exact message_inv hi hphase (hphase ▸ hwhole.1) hstream hwhole.2
    | failed => exact absurd hphase hi.running

/-! ### Calls that get less -/

theorem length_short_fails (hi : s.Inv) {n : ℕ} {rbuf : List UInt8}
    (hphase : s.phase = .restOfLength rbuf) (hn : n ≤ s.phase.asks) (hshort : n ≠ s.phase.asks)
    (hstream : n ≤ s.stream.length) :
    (s.recv n).phase = .failed := by
  have hgot : (s.stream.take n).length = n := length_take_of_le hstream
  have := hi.length_short rbuf hphase
  have hne : rbuf.length + n ≠ getLenParamBytes := by
    rw [hphase] at hn hshort
    simp only [RecvPhase.asks] at hn hshort
    omega
  simp [recv, recvd, hphase, min_eq_left hstream, hne]

theorem recvd_message {n : ℕ} {rbuf : List UInt8} (hphase : s.phase = .restOfMessage rbuf)
    (hne : s.stream.take n ≠ []) (hgood : (s.recv n).Faithful) :
    ∃ msgReceived, RmcMessage.unpackToRMC_Message (tmp_copies (rbuf ++ s.stream.take n)) =
        some msgReceived ∧
      Faithful { s with
        stream := s.stream.drop n, phase := .poll, received := s.received ++ [msgReceived] } := by
  simp only [recv, recvd, hphase, hne, if_false] at hgood
  split at hgood
  · exact absurd rfl hgood.running
  · split at hgood
    · exact absurd rfl hgood.running
    · rename_i m hm
      exact ⟨m, hm, hgood⟩

/-- **A message taken with a part of its bytes, or one that does not come back as it is**, leaves
    the receiver in a state that is not faithful. -/
theorem message_unfaithful (hi : s.Inv) {n : ℕ} {rbuf : List UInt8}
    (hphase : s.phase = .restOfMessage rbuf) (hpos : 0 < n)
    (hstream : n ≤ s.stream.length)
    (hbad : ¬(n = s.phase.asks ∧ ∀ m ∈ s.sent[s.received.length]?, m.Plain)) :
    ¬(s.recv n).Faithful := by
  intro hgood
  obtain ⟨m, hm, hsend, hlen, -, hbytes⟩ := hi.current hphase
  have hgot : (s.stream.take n).length = n := length_take_of_le hstream
  have hne : s.stream.take n ≠ [] := by
    intro hnil
    rw [hnil] at hgot
    exact absurd hgot.symm (ne_of_gt hpos)
  obtain ⟨m', hunpack, hgood'⟩ := recvd_message hphase hne hgood
  -- the bytes that are left are those after the message, so the call got all of it
  have hrest : s.stream.drop n ++ s.sendall.pending =
      (s.sent.drop (s.received.length + 1)).flatMap RmcMessage.pack := by
    have := hgood'.aligned
    rw [length_append, length_singleton] at this
    exact this
  rw [← recv_bytes n rbuf, hrest] at hbytes
  have hpack : rbuf ++ s.stream.take n = m.pack := append_cancel_right hbytes
  have hfull : n = s.phase.asks := by
    have := congrArg length hpack
    rw [length_append, hgot] at this
    omega
  -- and the message received is the one sent
  have hsame : m' = m := by
    have h := hgood'.received_eq
    simp only [length_append, length_singleton, take_add_one, hm] at h
    rw [← hi.received_eq] at h
    simpa using h
  subst hsame
  apply hbad
  refine ⟨hfull, fun m hm' => ?_⟩
  obtain rfl : m = m' := by
    rw [hm] at hm'
    exact (mem_some_iff.mp hm').symm
  rw [hpack] at hunpack
  exact (RmcMessage.unpack_eq_iff hsend _).mp hunpack

theorem next_unfaithful (hi : s.Inv) (hbad : ¬s.WholeReads l) (h : s.next l = some s') :
    ¬s'.Faithful := by
  cases l with
  | recv n =>
    obtain ⟨⟨hpos, hn, hstream⟩, rfl⟩ := ite_some_none_eq_some.mp h
    cases hphase : s.phase with
    | poll => simp [WholeReads, hphase] at hbad
    | failed => exact absurd hphase hi.running
    | restOfLength rbuf =>
      simp only [WholeReads, hphase] at hbad
      intro hgood
      exact hgood.running (length_short_fails hi hphase hn (hphase ▸ hbad) hstream)
    | restOfMessage rbuf =>
      simp only [WholeReads, hphase] at hbad
      obtain ⟨-, -, -, -, hasks, -⟩ := hi.current hphase
      have hn : 0 < n := hpos.resolve_right (ne_of_gt hasks)
      exact message_unfaithful hi hphase hn hstream (hphase ▸ hbad)
  | pack m => simp [WholeReads] at hbad
  | send n => simp [WholeReads] at hbad
  | wouldBlock => simp [WholeReads] at hbad

/-! ### The law -/

/-- **Messages are received as they were sent** all along a run exactly when every blocking call
    of the run gets all it asks for, and only messages of type `s` carry something. -/
theorem message_framing_iff {ls : List Label} (hrun : system.run init ls = some s) :
    system.Throughout Faithful init ls ↔ system.Always WholeReads init ls := by
  have hgood : ∀ s : Socket, s.Inv → s.Faithful := fun _ hi => hi.toFaithful
  have h : system.Throughout Faithful init ls ∧ system.Always (fun _ _ => True) init ls ↔
      system.Always WholeReads init ls :=
    System.throughout_iff_always hgood
      (fun _ _ _ hi hP hl => ⟨next_inv hi hP hl, trivial⟩)
      (fun _ _ _ hi hP hl hstep => next_unfaithful hi hP hl hstep.2) init_inv hrun
  rw [← h]
  exact ⟨fun hG => ⟨hG, System.always_true _ _⟩, fun hG => hG.1⟩

/-- A message with one byte and the message that frees its slot, cut inside the first length. -/
theorem message_framing_two :
    let ls : List Label :=
      [.pack (.withPayload 1 0 3 's'.toUInt8 [7] 'f'.toUInt8), .wouldBlock, .send 2, .recv 2,
        .send 11, .recv 2, .recv 9, .pack (.recvDone 0 3 'g'.toUInt8), .send 12, .recv 4, .recv 8]
    system.Throughout Faithful init ls ↔ system.Always WholeReads init ls := by
  intro ls
  have hsome : (system.run init ls).isSome := by decide +kernel
  obtain ⟨s, hrun⟩ := isSome_iff_exists.mp hsome
  exact message_framing_iff hrun

/-- The call for the rest of a message gets all but its last byte: the message is handed on with a
    zero in the place of that byte, which stays in the socket as the start of the next length. -/
theorem message_short_body :
    ¬∀ ls s, system.run init ls = some s → s.Faithful := by
  intro h
  let ls : List Label :=
    [.pack (.withPayload 1 0 3 's'.toUInt8 [7] 'f'.toUInt8), .send 13, .recv 4, .recv 8]
  have hend : (system.run init ls).map (fun s =>
      (s.sent.map RmcMessage.payload, s.received.map RmcMessage.payload, s.stream)) =
        some ([[7]], [[0]], [7]) := by decide +kernel
  obtain ⟨s, hrun, heq⟩ := map_eq_some_iff.mp hend
  simp only [Prod.mk.injEq] at heq
  obtain ⟨hsent, hreceived, -⟩ := heq
  have hsame := congrArg (map RmcMessage.payload) (h ls s hrun).received_eq
  rw [map_take, hsent, hreceived] at hsame
  have hlen : s.received.length = 1 := by
    rw [← length_map (f := RmcMessage.payload), hreceived]
    rfl
  rw [hlen] at hsame
  cases hsame

end Socket

end Sonuma
