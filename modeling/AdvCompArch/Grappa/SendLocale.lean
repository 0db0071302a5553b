import AdvCompArch.Grappa.Aggregation
import AdvCompArch.Lib.Transition

/-! # Sending a locale's messages

    `send_locale` drains the message lists for the cores of one destination locale
    into as many buffers as it takes.  It is modelled as a machine that takes the
    steps of its nested loops one at a time: the choice of the next list
    (`MessageListChooser`), the serialization of as much of the current list as has
    room, and the posting of the buffer.  `receive_buffer` cuts a received buffer into
    the slices of the locale's cores.

    `sendMeasure` decreases with every step, `SendInv` relates what was sent, what is
    in the current buffer and what is left to the lists at the start. -/

namespace Grappa

open List

/-- `BUFFER_SIZE`. -/
def BUFFER_SIZE : ℕ := 2 ^ 19

/-- The setting of a `send_locale`: the destination locale has the cores
    `first_core, ..., first_core + locale_cores - 1`, and the source locale equally many. -/
structure SendParams where
  locale_cores : ℕ
  locale_cores_pos : 0 < locale_cores
  first_core : ℕ
  /-- `sizeof(CommunicatorContext)`. -/
  sizeof_context : ℕ

namespace SendParams

variable (p : SendParams)

/-- Bytes of a buffer in front of the payload: three words and the counts. -/
def get_base_size : ℕ := 24 + 4 * p.locale_cores

def get_max_size : ℕ := BUFFER_SIZE - p.get_base_size - p.sizeof_context

def max_core : ℕ := p.first_core + p.locale_cores

theorem get_max_size_lt : p.get_max_size < 2 ^ 32 := by
  unfold get_max_size BUFFER_SIZE
  omega

end SendParams

/-- A buffer as posted: the counts of the destination cores and the payload. -/
structure SentBuffer where
  counts : List ℕ
  payload : List UInt8
  deriving DecidableEq

/-- Where `send_locale` is. -/
inductive SendPc where
  /-- The head of the loop over buffers. -/
  | outer
  /-- The head of the loop that fills a buffer. -/
  | fill
  /-- An iteration of `get_next_list`. -/
  | choose
  /-- The head of the loop that serializes the current list. -/
  | serialize
  /-- After the buffer was filled. -/
  | post
  | finished
  /-- A `CHECK` failed. -/
  | failed
  deriving DecidableEq

/-- The variables of `send_locale`.  `content` and `contents` are for the proofs: what was
    serialized to the current buffer and to the posted ones. -/
structure SendState (code : Code) where
  pc : SendPc
  /-- `MessageListChooser`. -/
  chooser_dest : ℕ
  chooser_source : ℕ
  chooser_done : Bool
  /-- `coreData(dest, locale_core)->messages_`. -/
  lists : ℕ → ℕ → List (Message code)
  current_dest_core : ℕ
  messages_to_send : List (Message code)
  all_message_lists_sent : Bool
  counts : ℕ → ℕ
  payload : List UInt8
  remaining_size : ℕ
  aggregated_size : ℕ
  ready_to_send : Bool
  sent : List SentBuffer
  content : List (ℕ × Message code)
  contents : List (List (ℕ × Message code))

namespace SendState

variable {code : Code}

/-- The start of `send_locale`.  `current_dest_core` is set before it is used. -/
def start (p : SendParams) (lists : ℕ → ℕ → List (Message code)) : SendState code where
  pc := .outer
  chooser_dest := p.first_core
  chooser_source := 0
  chooser_done := false
  lists := lists
  current_dest_core := p.first_core
  messages_to_send := []
  all_message_lists_sent := false
  counts := fun _ => 0
  payload := []
  remaining_size := 0
  aggregated_size := 0
  ready_to_send := false
  sent := []
  content := []
  contents := []

/-- The chooser goes on to the next source core or destination core. -/
def advance (p : SendParams) (s : SendState code) : SendState code :=
  if s.chooser_source + 1 ≥ p.locale_cores then
    { s with
      chooser_source := 0
      chooser_dest := s.chooser_dest + 1
      chooser_done := decide (s.chooser_dest + 1 ≥ p.max_core) }
  else { s with chooser_source := s.chooser_source + 1 }

/-- The head of the loop over buffers: clear a buffer and fill it, or finish. -/
def stepOuter (p : SendParams) (s : SendState code) : SendState code :=
  if s.all_message_lists_sent = false ∨ s.messages_to_send ≠ [] then
    { s with
      pc := .fill
      counts := fun _ => 0
      payload := []
      remaining_size := p.get_max_size
      aggregated_size := 0
      ready_to_send := false }
  else { s with pc := .finished }

/-- The head of the loop that fills a buffer. -/
def stepFill (s : SendState code) : SendState code :=
  if s.ready_to_send = false ∧ (s.all_message_lists_sent = false ∨ s.messages_to_send ≠ []) then
    if s.messages_to_send = [] then
      -- `get_next_list` returns NULL once the chooser is done
      if s.chooser_done then { s with all_message_lists_sent := true, pc := .post }
      else { s with pc := .choose }
    else { s with pc := .serialize }
  else { s with pc := .post }

/-- An iteration of `get_next_list`; its last one is followed by `grab_messages`. -/
def stepChoose (p : SendParams) (s : SendState code) : SendState code :=
  let d := s.chooser_dest
  let c := s.chooser_source
  let s' := { s with current_dest_core := d }.advance p
  if s.lists d c = [] ∧ s'.chooser_done = false then s'
  else
    { s' with
      messages_to_send := s.lists d c
      lists := fun d' c' => if d' = d ∧ c' = c then [] else s.lists d' c'
      pc := .serialize }

/-- The bookkeeping after `aggregate_to_buffer` wrote `bytes` and left `rest`. -/
def record (p : SendParams) (s : SendState code) (bytes : List UInt8)
    (rest : List (Message code)) : SendState code :=
  let current_aggregated_size := bytes.length
  let index := s.current_dest_core - p.first_core
  { s with
    messages_to_send := rest
    counts := fun i =>
      if i = index then (s.counts i + current_aggregated_size) % 2 ^ 32 else s.counts i
    payload := s.payload ++ bytes
    aggregated_size := s.aggregated_size + current_aggregated_size
    remaining_size := s.remaining_size - current_aggregated_size
    ready_to_send := decide (s.remaining_size - current_aggregated_size = 0 ∨
      current_aggregated_size = 0)
    content := s.content ++
      (s.messages_to_send.take (s.messages_to_send.length - rest.length)).map
        fun m => (s.current_dest_core, m) }

/-- The head of the loop that serializes the current list. -/
def stepSerialize (p : SendParams) (s : SendState code) : SendState code :=
  match s.messages_to_send with
  | [] => { s with pc := .fill }
  | m :: _ =>
    if s.ready_to_send then { s with pc := .fill }
    else
      let r := aggregate_to_buffer s.remaining_size 0 s.messages_to_send
      if s.aggregated_size < p.get_max_size ∧ 0 < s.remaining_size ∧
          m.destination = s.current_dest_core ∧
          s.aggregated_size + r.1.length ≤ p.get_max_size then
        s.record p r.1 r.2
      else { s with pc := .failed }

/-- Post the buffer if it holds anything. -/
def stepPost (p : SendParams) (s : SendState code) : SendState code :=
  if s.aggregated_size > 0 then
    { s with
      pc := .outer
      sent := s.sent ++ [⟨(List.range p.locale_cores).map s.counts, s.payload⟩]
      content := []
      contents := s.contents ++ [s.content] }
  else { s with pc := .outer }

def step (p : SendParams) (s : SendState code) : Option (SendState code) :=
  match s.pc with
  | .outer => some (s.stepOuter p)
  | .fill => some s.stepFill
  | .choose => some (s.stepChoose p)
  | .serialize => some (s.stepSerialize p)
  | .post => some (s.stepPost p)
  | .finished => none
  | .failed => none

end SendState

/-- `send_locale` as a system: its steps are determined. -/
def sendLocale {code : Code} (p : SendParams) (lists : ℕ → ℕ → List (Message code)) :
    Transition.System (SendState code) Unit :=
  ⟨.start p lists, fun s _ => s.step p⟩

/-! ### The chooser -/

section chooser

variable {code : Code} {p : SendParams}

/-- The lists from that of destination `d` and source `c` on, in the order of the chooser. -/
def listsFrom (p : SendParams) (d c : ℕ) : List (ℕ × ℕ) :=
  (List.range' c (p.locale_cores - c)).map (fun c' => (d, c')) ++
    (List.range' (d + 1) (p.max_core - (d + 1))).flatMap fun d' =>
      (List.range' 0 p.locale_cores).map fun c' => (d', c')

/-- The lists that the chooser has not come to. -/
def SendState.ahead (p : SendParams) (s : SendState code) : List (ℕ × ℕ) :=
  if s.chooser_done then [] else listsFrom p s.chooser_dest s.chooser_source

/-- The messages of a list with the core it is for. -/
def tagged (d : ℕ) (msgs : List (Message code)) : List (ℕ × Message code) :=
  msgs.map fun m => (d, m)

/-- All messages of the lists, in the order of the chooser. -/
def allMessages (p : SendParams) (lists : ℕ → ℕ → List (Message code)) :
    List (ℕ × Message code) :=
  (listsFrom p p.first_core 0).flatMap fun q => tagged q.1 (lists q.1 q.2)

/-- The messages that are not serialized yet. -/
def SendState.left (p : SendParams) (s : SendState code) : List (ℕ × Message code) :=
  tagged s.current_dest_core s.messages_to_send ++
    (s.ahead p).flatMap fun q => tagged q.1 (s.lists q.1 q.2)

/-- The chooser is inside its ranges. -/
def SendState.InRange (p : SendParams) (s : SendState code) : Prop :=
  s.chooser_done = false →
    p.first_core ≤ s.chooser_dest ∧ s.chooser_dest < p.max_core ∧
      s.chooser_source < p.locale_cores

theorem mem_listsFrom {d c : ℕ} {q : ℕ × ℕ} :
    q ∈ listsFrom p d c ↔ (q.1 = d ∧ c ≤ q.2 ∧ q.2 < p.locale_cores) ∨
      (d < q.1 ∧ q.1 < p.max_core ∧ q.2 < p.locale_cores) := by
  obtain ⟨d', c'⟩ := q
  simp only [listsFrom, mem_append, mem_map, mem_flatMap, mem_range'_1,
    Prod.mk.injEq]
  constructor
  · rintro (⟨x, hx, rfl, rfl⟩ | ⟨x, hx, y, hy, rfl, rfl⟩)
    · left
      omega
    · right
      omega
  · rintro (⟨rfl, h1, h2⟩ | ⟨h1, h2, h3⟩)
    · left
      exact ⟨c', by omega, rfl, rfl⟩
    · right
      exact ⟨d', by omega, c', by omega, rfl, rfl⟩

theorem listsFrom_cons {d c : ℕ} (hc : c < p.locale_cores) :
    listsFrom p d c = (d, c) :: listsFrom p d (c + 1) := by
  unfold listsFrom
  obtain ⟨n, hn⟩ : ∃ n, p.locale_cores - c = n + 1 := ⟨p.locale_cores - c - 1, by omega⟩
  rw [hn, show p.locale_cores - (c + 1) = n by omega, range'_succ]
  rfl

theorem listsFrom_next {d : ℕ} (hd : d + 1 < p.max_core) :
    listsFrom p d p.locale_cores = listsFrom p (d + 1) 0 := by
  unfold listsFrom
  obtain ⟨n, hn⟩ : ∃ n, p.max_core - (d + 1) = n + 1 := ⟨p.max_core - (d + 1) - 1, by omega⟩
  rw [hn, show p.max_core - (d + 1 + 1) = n by omega, range'_succ, Nat.sub_self]
  simp

theorem listsFrom_end {d : ℕ} (hd : p.max_core ≤ d + 1) :
    listsFrom p d p.locale_cores = [] := by
  unfold listsFrom
  rw [Nat.sub_self, Nat.sub_eq_zero_of_le hd]
  rfl

/-- What the chooser does in one iteration: it passes one list and stays in its ranges. -/
theorem SendState.ahead_advance {s : SendState code} (hdone : s.chooser_done = false)
    (hrange : s.InRange p) :
    s.ahead p = (s.chooser_dest, s.chooser_source) :: (s.advance p).ahead p ∧
      (s.advance p).InRange p := by
  obtain ⟨hlo, hhi, hsrc⟩ := hrange hdone
  unfold SendState.ahead SendState.InRange SendState.advance
  rw [hdone, listsFrom_cons hsrc]
  by_cases hlast : s.chooser_source + 1 ≥ p.locale_cores
  · -- the last source core: on to the next destination core
    have hcores : s.chooser_source + 1 = p.locale_cores := by omega
    by_cases hend : s.chooser_dest + 1 ≥ p.max_core
    · simp [hend, hcores, listsFrom_end hend]
    · simp only [hend, hcores, listsFrom_next (by omega : s.chooser_dest + 1 < p.max_core)]
      simp
      omega
  · simp [hlast]
    omega

theorem SendState.advance_eq (p : SendParams) (s : SendState code) :
    ∃ d c done, s.advance p =
      { s with chooser_dest := d, chooser_source := c, chooser_done := done } := by
  unfold SendState.advance
  split
  · exact ⟨_, _, _, rfl⟩
  · exact ⟨_, _, _, rfl⟩

theorem SendState.mem_ahead_advance {s : SendState code} (hdone : s.chooser_done = false)
    (hrange : s.InRange p) {q : ℕ × ℕ} (hq : q ∈ (s.advance p).ahead p) :
    s.chooser_dest ≤ q.1 ∧ ¬ (q.1 = s.chooser_dest ∧ q.2 = s.chooser_source) := by
  have hall := (SendState.ahead_advance hdone hrange).1
  unfold SendState.ahead at hall hq
  rw [hdone, if_neg Bool.false_ne_true, listsFrom_cons (hrange hdone).2.2] at hall
  rw [← (cons.inj hall).2, mem_listsFrom] at hq
  omega

end chooser

/-! ### The invariant -/

section invariant

variable {code : Code} {p : SendParams}

/-- The messages of a buffer for core `d`, in order. -/
def forCore (d : ℕ) (content : List (ℕ × Message code)) : List (Message code) :=
  (content.filter fun e => e.1 = d).map Prod.snd

/-- Their size, which is the count of the core. -/
def sliceSize (d : ℕ) (content : List (ℕ × Message code)) : ℕ :=
  ((forCore d content).map Message.serialized_size).sum

def contentBytes (content : List (ℕ × Message code)) : List UInt8 :=
  content.flatMap fun e => e.2.bytes

theorem forCore_append (d : ℕ) (xs ys : List (ℕ × Message code)) :
    forCore d (xs ++ ys) = forCore d xs ++ forCore d ys := by
  simp [forCore]

theorem forCore_tagged_self (d : ℕ) (msgs : List (Message code)) :
    forCore d (tagged d msgs) = msgs := by
  unfold forCore
  rw [filter_eq_self.mpr (by simp [tagged])]
  simp [tagged]

theorem forCore_tagged_of_ne {d d' : ℕ} (h : d' ≠ d) (msgs : List (Message code)) :
    forCore d (tagged d' msgs) = [] := by
  simp [forCore, tagged, h]

theorem contentBytes_append (xs ys : List (ℕ × Message code)) :
    contentBytes (xs ++ ys) = contentBytes xs ++ contentBytes ys := flatMap_append

theorem contentBytes_tagged (d : ℕ) (msgs : List (Message code)) :
    contentBytes (tagged d msgs) = msgs.flatMap Message.bytes := by
  simp [contentBytes, tagged, flatMap_map]

theorem tagged_append (d : ℕ) (xs ys : List (Message code)) :
    tagged d (xs ++ ys) = tagged d xs ++ tagged d ys := map_append

theorem sliceSize_le (d : ℕ) (content : List (ℕ × Message code)) :
    sliceSize d content ≤ (contentBytes content).length := by
  induction content with
  | nil => exact le_refl _
  | cons e content ih =>
    have hcons : forCore d (e :: content) = (if e.1 = d then [e.2] else []) ++ forCore d content := by
      by_cases h : e.1 = d <;> simp [forCore, h]
    unfold sliceSize at ih ⊢
    rw [hcons, contentBytes, flatMap_cons, length_append, e.2.length_bytes]
    unfold contentBytes at ih
    split
    · rw [singleton_append, map_cons, sum_cons]
      omega
    · rw [nil_append]
      omega

/-- What a buffer with a content looks like: the counts are the sizes of the slices, the payload
    is the content, and the messages are in the order of their cores. -/
structure Holds (p : SendParams) (b : SentBuffer) (content : List (ℕ × Message code)) : Prop where
  counts : b.counts = (List.range p.locale_cores).map fun i => sliceSize (p.first_core + i) content
  payload : b.payload = contentBytes content
  sorted : content.Pairwise fun e e' => e.1 ≤ e'.1
  size : b.payload.length ≤ p.get_max_size

/-- A message that the caller may put on the list for core `d`. -/
structure Sendable (p : SendParams) (d : ℕ) (m : Message code) : Prop where
  destination : m.destination = d
  fits : m.serialized_size ≤ p.get_max_size

/-- The caller's part: the messages of a list are for its core, and each fits in one buffer. -/
def ListsSendable (p : SendParams) (lists : ℕ → ℕ → List (Message code)) : Prop :=
  ∀ d c, p.first_core ≤ d → d < p.max_core → c < p.locale_cores →
    ∀ m ∈ lists d c, Sendable p d m

theorem mem_allMessages {lists : ℕ → ℕ → List (Message code)} {e : ℕ × Message code} :
    e ∈ allMessages p lists ↔
      p.first_core ≤ e.1 ∧ e.1 < p.max_core ∧ ∃ c < p.locale_cores, e.2 ∈ lists e.1 c := by
  have hlt : p.first_core < p.max_core := Nat.lt_add_of_pos_right p.locale_cores_pos
  unfold allMessages tagged
  simp only [mem_flatMap, mem_map, mem_listsFrom]
  constructor
  · rintro ⟨⟨d, c⟩, hq, m, hm, rfl⟩
    rcases hq with ⟨rfl, hc⟩ | ⟨hd, hc⟩
    · exact ⟨le_refl _, hlt, c, hc.2, hm⟩
    · exact ⟨hd.le, hc.1, c, hc.2, hm⟩
  · rintro ⟨hlo, hhi, c, hc, hm⟩
    refine ⟨(e.1, c), ?_, e.2, hm, rfl⟩
    simp only
    omega

theorem ListsSendable.all {lists : ℕ → ℕ → List (Message code)} (h : ListsSendable p lists)
    {e : ℕ × Message code} (he : e ∈ allMessages p lists) :
    p.first_core ≤ e.1 ∧ e.1 < p.max_core ∧ Sendable p e.1 e.2 := by
  obtain ⟨hlo, hhi, c, hc, hm⟩ := mem_allMessages.mp he
  exact ⟨hlo, hhi, h e.1 c hlo hhi hc e.2 hm⟩

/-- While a buffer is filled. -/
structure Filling (p : SendParams) (s : SendState code) : Prop where
  counts : ∀ i, s.counts i = sliceSize (p.first_core + i) s.content
  payload : s.payload = contentBytes s.content
  sorted : s.content.Pairwise fun e e' => e.1 ≤ e'.1
  behind : ∀ e ∈ s.content, e.1 ≤ s.current_dest_core
  aggregated : s.aggregated_size = s.payload.length
  remaining : s.aggregated_size + s.remaining_size = p.get_max_size
  /-- A buffer that takes more has room, or nothing in it. -/
  room : s.ready_to_send = false → s.content ≠ [] → 0 < s.remaining_size

/-- The parts of `SendInv` that do not depend on where the program is. -/
structure Draining (p : SendParams) (lists : ℕ → ℕ → List (Message code)) (s : SendState code) :
    Prop where
  split : s.contents.flatten ++ s.content ++ s.left p = allMessages p lists
  posted : List.Forall₂ (Holds p) s.sent s.contents
  range : s.InRange p
  order : ∀ q ∈ s.ahead p, s.current_dest_core ≤ q.1
  ended : s.all_message_lists_sent = true → s.chooser_done = true

/-- What holds at each place of the program. -/
def AtPc (p : SendParams) (s : SendState code) : Prop :=
  match s.pc with
  | .outer => s.content = []
  | .fill => Filling p s ∧ (s.ready_to_send = false → s.messages_to_send ≠ [] → s.content = [])
  | .choose => Filling p s ∧ s.chooser_done = false ∧ s.messages_to_send = [] ∧
      s.ready_to_send = false
  | .serialize => Filling p s
  | .post => Filling p s
  | .finished => s.content = [] ∧ s.all_message_lists_sent = true ∧ s.messages_to_send = []
  | .failed => False

/-- **The invariant of `send_locale`.** -/
structure SendInv (p : SendParams) (lists : ℕ → ℕ → List (Message code)) (s : SendState code) :
    Prop where
  draining : Draining p lists s
  atPc : AtPc p s

/-! ### Every step keeps the invariant -/

/-- What is left to send are messages of the lists. -/
theorem Draining.left_sendable {lists : ℕ → ℕ → List (Message code)} {s : SendState code}
    (h : Draining p lists s) (hlists : ListsSendable p lists) {m : Message code}
    (hm : m ∈ s.messages_to_send) :
    p.first_core ≤ s.current_dest_core ∧ s.current_dest_core < p.max_core ∧
      Sendable p s.current_dest_core m := by
  have hleft : (s.current_dest_core, m) ∈ s.left p := by
    unfold SendState.left
    exact mem_append_left _ (mem_map_of_mem hm)
  apply hlists.all (e := (s.current_dest_core, m))
  rw [← h.split]
  exact mem_append_right _ hleft

theorem stepSerialize_leave {s : SendState code}
    (h : s.messages_to_send = [] ∨ s.ready_to_send = true) :
    s.stepSerialize p = { s with pc := .fill } := by
  unfold SendState.stepSerialize
  split
  · rfl
  · next hcons =>
    rw [hcons] at h
    rw [if_pos (h.resolve_left (cons_ne_nil _ _))]

/-- **What a step at the serializing loop does**: it leaves the loop, or it moves a part of the
    list that has room to the buffer, which is empty only if the buffer is not. -/
theorem stepSerialize_cases {lists : ℕ → ℕ → List (Message code)} {s : SendState code}
    (h : Draining p lists s) (hfill : Filling p s) (hlists : ListsSendable p lists) :
    ((s.messages_to_send = [] ∨ s.ready_to_send = true) ∧
        s.stepSerialize p = { s with pc := .fill }) ∨
      ∃ chunk rest, s.messages_to_send = chunk ++ rest ∧ s.messages_to_send ≠ [] ∧
        s.ready_to_send = false ∧ (chunk.flatMap Message.bytes).length ≤ s.remaining_size ∧
        (chunk = [] → s.content ≠ []) ∧
        s.stepSerialize p = s.record p (chunk.flatMap Message.bytes) rest := by
  by_cases hleave : s.messages_to_send = [] ∨ s.ready_to_send = true
  · left
    exact ⟨hleave, stepSerialize_leave hleave⟩
  · right
    push Not at hleave
    obtain ⟨hne, hbusy⟩ := hleave
    have hready : s.ready_to_send = false := Bool.eq_false_of_not_eq_true hbusy
    obtain ⟨m, ms, hmsgs⟩ := exists_cons_of_ne_nil hne
    obtain ⟨chunk, hsplit, hbytes, htotal, hstops⟩ :=
      aggregate_to_buffer_spec s.remaining_size s.messages_to_send 0 (Nat.zero_le _)
    obtain ⟨-, -, hsend⟩ := h.left_sendable hlists (m := m) (by simp [hmsgs])
    have hfits := hsend.fits
    have hpos := m.serialized_size_pos
    have hlen := length_flatMap_bytes chunk
    have hremaining := hfill.remaining
    have haggregated := hfill.aggregated
    have hroom : 0 < s.remaining_size := by
      by_cases hcontent : s.content = []
      · -- an empty buffer has room for every message
        have hzero : s.payload.length = 0 := by
          rw [hfill.payload, hcontent]
          rfl
        omega
      · exact hfill.room hready hcontent
    refine ⟨chunk, _, hsplit, hne, hready, by omega, ?_, ?_⟩
    · rintro rfl hcontent
      -- nothing was written although the buffer is empty: the first message does not fit
      have hrest : (aggregate_to_buffer s.remaining_size 0 s.messages_to_send).2 = m :: ms := by
        rw [nil_append] at hsplit
        rw [← hsplit, hmsgs]
      have hlt := hstops m ms hrest
      have hzero : s.payload.length = 0 := by
        rw [hfill.payload, hcontent]
        rfl
      rw [map_nil, sum_nil] at hlt
      omega
    · have hchecks : s.aggregated_size < p.get_max_size ∧ 0 < s.remaining_size ∧
          m.destination = s.current_dest_core ∧
          s.aggregated_size +
            (aggregate_to_buffer s.remaining_size 0 s.messages_to_send).1.length ≤
              p.get_max_size := by
        refine ⟨by omega, hroom, hsend.destination, ?_⟩
        rw [hbytes]
        omega
      unfold SendState.stepSerialize
      split
      · next hnil =>
        rw [hmsgs] at hnil
        cases hnil
      · next m' _ hcons =>
        obtain rfl : m = m' := (cons.inj (hmsgs.symm.trans hcons)).1
        rw [if_neg (by simp [hready])]
        show (if _ then _ else _) = _
        rw [if_pos hchecks, hbytes]

theorem Filling.record {s : SendState code} (h : Filling p s) {chunk rest : List (Message code)}
    (hmsgs : s.messages_to_send = chunk ++ rest) (hfirst : p.first_core ≤ s.current_dest_core)
    (hroom : (chunk.flatMap Message.bytes).length ≤ s.remaining_size) :
    (s.record p (chunk.flatMap Message.bytes) rest).content =
        s.content ++ tagged s.current_dest_core chunk ∧
      Filling p (s.record p (chunk.flatMap Message.bytes) rest) := by
  have hcontent : (s.record p (chunk.flatMap Message.bytes) rest).content =
      s.content ++ tagged s.current_dest_core chunk := by
    have hlen : (chunk ++ rest).length - rest.length = chunk.length := by simp
    unfold SendState.record tagged
    simp only [hmsgs, hlen, take_left]
  have hlen := length_flatMap_bytes chunk
  have haggregated := h.aggregated
  have hremaining := h.remaining
  refine ⟨hcontent, ⟨?_, ?_, ?_, ?_, ?_, ?_, ?_⟩⟩
  · intro i
    have hmax := p.get_max_size_lt
    have hle := sliceSize_le (p.first_core + i) s.content
    rw [← h.payload, ← haggregated] at hle
    have hsum : sliceSize (p.first_core + i) (s.content ++ tagged s.current_dest_core chunk) =
        sliceSize (p.first_core + i) s.content +
          if p.first_core + i = s.current_dest_core then
            (chunk.flatMap Message.bytes).length else 0 := by
      unfold sliceSize
      rw [forCore_append, map_append, sum_append, hlen]
      split
      · next heq => rw [heq, forCore_tagged_self]
      · next hne => rw [forCore_tagged_of_ne (Ne.symm hne)]; rfl
    rw [hcontent, hsum, ← h.counts i]
    rw [← h.counts i] at hle
    unfold SendState.record
    by_cases heq : i = s.current_dest_core - p.first_core
    · have hcore : p.first_core + i = s.current_dest_core := by omega
      simp only [if_pos heq, if_pos hcore]
      exact Nat.mod_eq_of_lt (by omega)
    · have hcore : ¬ p.first_core + i = s.current_dest_core := by omega
      simp only [if_neg heq, if_neg hcore, add_zero]
  · rw [hcontent, contentBytes_append, contentBytes_tagged, ← h.payload]
    rfl
  · rw [hcontent]
    refine pairwise_append.mpr ⟨h.sorted, ?_, ?_⟩
    · apply pairwise_of_forall_mem_list
      intro e he e' he'
      obtain ⟨m, -, rfl⟩ := mem_map.mp he
      obtain ⟨m', -, rfl⟩ := mem_map.mp he'
      exact le_refl _
    · intro e he e' he'
      obtain ⟨m, -, rfl⟩ := mem_map.mp he'
      exact h.behind e he
  · intro e he
    rw [hcontent] at he
    rcases mem_append.mp he with he | he
    · exact h.behind e he
    · obtain ⟨m, -, rfl⟩ := mem_map.mp he
      exact le_refl _
  · unfold SendState.record
    simp only [length_append]
    omega
  · unfold SendState.record
    simp only
    omega
  · intro hready _
    unfold SendState.record at hready ⊢
    simp only [decide_eq_false_iff_not, not_or] at hready ⊢
    omega

theorem Draining.goto {lists : ℕ → ℕ → List (Message code)} {s : SendState code}
    (h : Draining p lists s) (pc : SendPc) : Draining p lists { s with pc := pc } :=
  ⟨h.split, h.posted, h.range, h.order, h.ended⟩

theorem Filling.goto {s : SendState code} (h : Filling p s) (pc : SendPc) :
    Filling p { s with pc := pc } :=
  ⟨h.counts, h.payload, h.sorted, h.behind, h.aggregated, h.remaining, h.room⟩

theorem sendInv_stepOuter {lists : ℕ → ℕ → List (Message code)} {s : SendState code}
    (h : Draining p lists s) (hcontent : s.content = []) : SendInv p lists (s.stepOuter p) := by
  unfold SendState.stepOuter
  split
  · refine ⟨⟨h.split, h.posted, h.range, h.order, h.ended⟩, ?_, ?_⟩
    · -- the cleared buffer holds nothing
      refine ⟨?_, ?_, ?_, ?_, rfl, ?_, ?_⟩
      · intro i
        rw [hcontent]
        rfl
      · rw [hcontent]
        rfl
      · rw [hcontent]
        exact List.Pairwise.nil
      · rw [hcontent]
        intro e he
        cases he
      · exact zero_add _
      · intro _ hne
        exact absurd hcontent hne
    · intro _ _
      exact hcontent
  · next hend =>
    push Not at hend
    exact ⟨h.goto _, hcontent, Bool.eq_true_of_not_eq_false hend.1, hend.2⟩

theorem sendInv_stepFill {lists : ℕ → ℕ → List (Message code)} {s : SendState code}
    (h : Draining p lists s) (hfill : Filling p s) : SendInv p lists s.stepFill := by
  unfold SendState.stepFill
  split
  · next hloop =>
    split
    · next hmsgs =>
      split
      · next hdone =>
        refine ⟨⟨h.split, h.posted, h.range, h.order, fun _ => hdone⟩, ?_⟩
        exact ⟨hfill.counts, hfill.payload, hfill.sorted, hfill.behind, hfill.aggregated,
          hfill.remaining, hfill.room⟩
      · next hdone =>
        exact ⟨h.goto _, hfill.goto _, Bool.eq_false_of_not_eq_true hdone, hmsgs, hloop.1⟩
    · exact ⟨h.goto _, hfill.goto _⟩
  · exact ⟨h.goto _, hfill.goto _⟩

theorem sendInv_stepChoose {lists : ℕ → ℕ → List (Message code)} {s : SendState code}
    (h : Draining p lists s) (hfill : Filling p s) (hdone : s.chooser_done = false)
    (hmsgs : s.messages_to_send = []) (hready : s.ready_to_send = false)
    (hpc : s.pc = .choose) : SendInv p lists (s.stepChoose p) := by
  have hall := SendState.ahead_advance (s := { s with current_dest_core := s.chooser_dest })
    hdone h.range
  have hother := fun q => SendState.mem_ahead_advance (q := q)
    (s := { s with current_dest_core := s.chooser_dest }) hdone h.range
  have hcurrent : s.current_dest_core ≤ s.chooser_dest := by
    apply h.order (s.chooser_dest, s.chooser_source)
    rw [show s.ahead p = _ from hall.1]
    exact mem_cons_self
  have hnone : ∀ d, tagged d s.messages_to_send = [] := by
    intro d
    rw [hmsgs]
    rfl
  have hsplit := h.split
  unfold SendState.left at hsplit
  rw [show s.ahead p = _ from hall.1, hnone, nil_append, flatMap_cons] at hsplit
  obtain ⟨d', c', done', hadv⟩ :=
    SendState.advance_eq p { s with current_dest_core := s.chooser_dest }
  unfold SendState.stepChoose
  simp only
  rw [hadv] at hall hother hsplit ⊢
  split
  · next hskip =>
    -- an empty list, and the chooser goes on
    have hfill' : Filling p { s with
        current_dest_core := s.chooser_dest, chooser_dest := d', chooser_source := c'
        chooser_done := done' } :=
      ⟨hfill.counts, hfill.payload, hfill.sorted, fun e he => (hfill.behind e he).trans hcurrent,
        hfill.aggregated, hfill.remaining, hfill.room⟩
    refine ⟨⟨?_, h.posted, hall.2, fun q hq => (hother q hq).1, ?_⟩, ?_⟩
    · unfold SendState.left
      rw [← hsplit, hskip.1]
      show _ ++ (tagged _ s.messages_to_send ++ _) = _
      rw [hnone]
      rfl
    · intro hover
      exact absurd (h.ended hover) (by simp [hdone])
    · unfold AtPc
      simp only [hpc]
      exact ⟨hfill'.goto _, hskip.2, hmsgs, hready⟩
  · -- the list is taken
    refine ⟨⟨?_, h.posted, hall.2, fun q hq => (hother q hq).1, ?_⟩, ?_⟩
    · have hsame : ((SendState.ahead p { s with
            current_dest_core := s.chooser_dest, chooser_dest := d', chooser_source := c'
            chooser_done := done' }).flatMap fun q => tagged q.1
              (if q.1 = s.chooser_dest ∧ q.2 = s.chooser_source then [] else s.lists q.1 q.2)) =
          (SendState.ahead p { s with
            current_dest_core := s.chooser_dest, chooser_dest := d', chooser_source := c'
            chooser_done := done' }).flatMap fun q => tagged q.1 (s.lists q.1 q.2) := by
        apply flatMap_congr
        intro q hq
        rw [if_neg (hother q hq).2]
      rw [← hsplit, ← hsame]
      rfl
    · intro hover
      exact absurd (h.ended hover) (by simp [hdone])
    · exact ⟨hfill.counts, hfill.payload, hfill.sorted,
        fun e he => (hfill.behind e he).trans hcurrent, hfill.aggregated, hfill.remaining,
        hfill.room⟩

theorem sendInv_stepSerialize {lists : ℕ → ℕ → List (Message code)} {s : SendState code}
    (hlists : ListsSendable p lists) (h : Draining p lists s) (hfill : Filling p s)
    (hpc : s.pc = .serialize) : SendInv p lists (s.stepSerialize p) := by
  rcases stepSerialize_cases h hfill hlists with ⟨hleave, heq⟩ |
    ⟨chunk, rest, hmsgs, hne, hready, hroom, hempty, heq⟩
  · rw [heq]
    refine ⟨h.goto _, hfill.goto _, ?_⟩
    intro hready hne
    exact absurd hready (by simp [hleave.resolve_left hne])
  · obtain ⟨m, hm⟩ := exists_mem_of_ne_nil _ hne
    obtain ⟨hcontent, hfill'⟩ := hfill.record hmsgs (h.left_sendable hlists hm).1 hroom
    rw [heq]
    refine ⟨⟨?_, h.posted, h.range, h.order, h.ended⟩, ?_⟩
    · rw [hcontent, ← h.split]
      unfold SendState.left
      rw [hmsgs, tagged_append]
      simp only [append_assoc]
      rfl
    · unfold AtPc
      simp only [show (s.record p (chunk.flatMap Message.bytes) rest).pc = .serialize from hpc]
      exact hfill'

theorem Filling.holds {s : SendState code} (h : Filling p s) :
    Holds p ⟨(List.range p.locale_cores).map s.counts, s.payload⟩ s.content where
  counts := by
    show map _ _ = _
    exact map_congr_left fun i _ => h.counts i
  payload := h.payload
  sorted := h.sorted
  size := by
    have haggregated := h.aggregated
    have hremaining := h.remaining
    show s.payload.length ≤ _
    omega

theorem content_eq_nil {content : List (ℕ × Message code)}
    (h : (contentBytes content).length = 0) : content = [] := by
  cases content with
  | nil => rfl
  | cons e content =>
    have hpos := e.2.serialized_size_pos
    rw [contentBytes, flatMap_cons, length_append, e.2.length_bytes] at h
    omega

theorem sendInv_stepPost {lists : ℕ → ℕ → List (Message code)} {s : SendState code}
    (h : Draining p lists s) (hfill : Filling p s) : SendInv p lists (s.stepPost p) := by
  unfold SendState.stepPost
  split
  · refine ⟨⟨?_, ?_, h.range, h.order, h.ended⟩, rfl⟩
    · rw [← h.split]
      simp only [flatten_append, flatten_cons, flatten_nil, append_nil]
      rfl
    · exact rel_append h.posted (.cons hfill.holds .nil)
  · next hzero =>
    refine ⟨h.goto _, content_eq_nil ?_⟩
    rw [← hfill.payload, ← hfill.aggregated]
    omega

theorem sendInv_step {lists : ℕ → ℕ → List (Message code)} (hlists : ListsSendable p lists)
    {s s' : SendState code} (h : SendInv p lists s) (hstep : s.step p = some s') :
    SendInv p lists s' := by
  obtain ⟨hd, hat⟩ := h
  unfold SendState.step at hstep
  unfold AtPc at hat
  cases hpc : s.pc with
  | outer =>
    simp only [hpc, Option.some.injEq] at hstep hat
    exact hstep ▸ sendInv_stepOuter hd hat
  | fill =>
    simp only [hpc, Option.some.injEq] at hstep hat
    exact hstep ▸ sendInv_stepFill hd hat.1
  | choose =>
    simp only [hpc, Option.some.injEq] at hstep hat
    exact hstep ▸ sendInv_stepChoose hd hat.1 hat.2.1 hat.2.2.1 hat.2.2.2 hpc
  | serialize =>
    simp only [hpc, Option.some.injEq] at hstep hat
    exact hstep ▸ sendInv_stepSerialize hlists hd hat hpc
  | post =>
    simp only [hpc, Option.some.injEq] at hstep hat
    exact hstep ▸ sendInv_stepPost hd hat
  | finished => simp [hpc] at hstep
  | failed => simp [hpc] at hstep

theorem sendInv_start (p : SendParams) (lists : ℕ → ℕ → List (Message code)) :
    SendInv p lists (.start p lists) := by
  refine ⟨⟨rfl, .nil, ?_, ?_, ?_⟩, rfl⟩
  · intro _
    exact ⟨le_refl _, Nat.lt_add_of_pos_right p.locale_cores_pos, p.locale_cores_pos⟩
  · intro q hq
    have hq' : q ∈ listsFrom p p.first_core 0 := hq
    show p.first_core ≤ q.1
    rcases mem_listsFrom.mp hq' with ⟨hd, -⟩ | ⟨hd, -⟩ <;> omega
  · intro hover
    cases hover

/-! ### Termination -/

/-- What is left to do: messages to serialize, lists to look at, and to find that there are no
    more. -/
def sendWork (p : SendParams) (s : SendState code) : ℕ :=
  (s.left p).length + (s.ahead p).length + if s.all_message_lists_sent then 0 else 1

/-- How far the next step is that makes progress on it. -/
def sendRank (s : SendState code) : ℕ :=
  match s.pc with
  | .outer => 3
  | .fill =>
    if s.ready_to_send = false ∧ (s.all_message_lists_sent = false ∨ s.messages_to_send ≠ [])
    then 2 else 5
  | .choose => 0
  | .serialize =>
    if s.messages_to_send = [] ∨ s.ready_to_send = true then 6
    else if s.content = [] then 1 else 7
  | .post => 4
  | .finished => 0
  | .failed => 0

theorem sendWork_eq (p : SendParams) (s : SendState code) :
    sendWork p s = s.messages_to_send.length +
      ((s.ahead p).flatMap fun q => tagged q.1 (s.lists q.1 q.2)).length + (s.ahead p).length +
        if s.all_message_lists_sent then 0 else 1 := by
  unfold sendWork SendState.left tagged
  rw [length_append, length_map]

def sendMeasure (p : SendParams) (s : SendState code) : ℕ := 8 * sendWork p s + sendRank s

theorem sendRank_le (s : SendState code) : sendRank s ≤ 7 := by
  unfold sendRank
  split
  all_goals try omega
  all_goals split_ifs <;> omega

/-- Progress on the work pays for every rank. -/
theorem sendMeasure_lt_of_work {s s' : SendState code} (h : sendWork p s' < sendWork p s) :
    sendMeasure p s' < sendMeasure p s := by
  have := sendRank_le s'
  unfold sendMeasure
  omega

theorem sendMeasure_lt_of_rank {s s' : SendState code} {n : ℕ} (h : sendWork p s' = sendWork p s)
    (hrank : sendRank s = n) (hlt : sendRank s' < n) : sendMeasure p s' < sendMeasure p s := by
  unfold sendMeasure
  omega

theorem sendMeasure_stepOuter {s : SendState code} (hpc : s.pc = .outer) :
    sendMeasure p (s.stepOuter p) < sendMeasure p s := by
  have hrank : sendRank s = 3 := by simp [sendRank, hpc]
  unfold SendState.stepOuter
  split
  · next hloop =>
    refine sendMeasure_lt_of_rank (by rfl) hrank ?_
    simp [sendRank, hloop]
  · refine sendMeasure_lt_of_rank (by rfl) hrank ?_
    simp [sendRank]

theorem sendMeasure_stepFill {s : SendState code} (hpc : s.pc = .fill)
    (hfresh : s.ready_to_send = false → s.messages_to_send ≠ [] → s.content = []) :
    sendMeasure p s.stepFill < sendMeasure p s := by
  unfold SendState.stepFill
  split
  · next hloop =>
    have hrank : sendRank s = 2 := by simp [sendRank, hpc, hloop]
    split
    · next hmsgs =>
      have hmore : s.all_message_lists_sent = false := by
        rcases hloop.2 with h | h
        · exact h
        · exact absurd hmsgs h
      split
      · -- the chooser is done, and this is noted
        apply sendMeasure_lt_of_work
        show _ + _ + 0 < _ + _ + ite _ _ _
        rw [hmore]
        exact Nat.lt_succ_self _
      · refine sendMeasure_lt_of_rank (by rfl) hrank ?_
        simp [sendRank]
    · next hmsgs =>
      refine sendMeasure_lt_of_rank (by rfl) hrank ?_
      simp [sendRank, hmsgs, hloop.1, hfresh hloop.1 hmsgs]
  · next hloop =>
    have hrank : sendRank s = 5 := by
      unfold sendRank
      rw [hpc]
      exact if_neg hloop
    refine sendMeasure_lt_of_rank (by rfl) hrank ?_
    simp [sendRank]

theorem sendMeasure_stepSerialize {lists : ℕ → ℕ → List (Message code)} {s : SendState code}
    (hlists : ListsSendable p lists) (h : Draining p lists s) (hfill : Filling p s)
    (hpc : s.pc = .serialize) : sendMeasure p (s.stepSerialize p) < sendMeasure p s := by
  rcases stepSerialize_cases h hfill hlists with ⟨hleave, heq⟩ |
    ⟨chunk, rest, hmsgs, hne, hready, hroom, hempty, heq⟩
  · rw [heq]
    have hrank : sendRank s = 6 := by simp [sendRank, hpc, hleave]
    refine sendMeasure_lt_of_rank (by rfl) hrank ?_
    unfold sendRank
    simp only
    split_ifs <;> omega
  · rw [heq]
    by_cases hchunk : chunk = []
    · -- nothing had room: the buffer is ready
      obtain rfl : s.messages_to_send = rest := by rw [hmsgs, hchunk, nil_append]
      subst hchunk
      have hrank : sendRank s = 7 := by simp [sendRank, hpc, hne, hready, hempty rfl]
      refine sendMeasure_lt_of_rank (by rfl) hrank ?_
      simp [sendRank, SendState.record, hpc]
    · apply sendMeasure_lt_of_work
      have hpos := length_pos_iff.mpr hchunk
      rw [sendWork_eq, sendWork_eq, hmsgs, length_append]
      show rest.length + ((s.ahead p).flatMap fun q => tagged q.1 (s.lists q.1 q.2)).length +
        (s.ahead p).length + _ < _
      exact Nat.add_lt_add_right (by omega) _

theorem stepChoose_frame {s : SendState code} (hdone : s.chooser_done = false)
    (hrange : s.InRange p) :
    (s.stepChoose p).contents = s.contents ∧ (s.stepChoose p).content = s.content ∧
      (s.stepChoose p).all_message_lists_sent = s.all_message_lists_sent ∧
      s.ahead p = (s.chooser_dest, s.chooser_source) :: (s.stepChoose p).ahead p := by
  have hall := SendState.ahead_advance (s := { s with current_dest_core := s.chooser_dest })
    hdone hrange
  obtain ⟨d', c', done', hadv⟩ :=
    SendState.advance_eq p { s with current_dest_core := s.chooser_dest }
  unfold SendState.stepChoose
  simp only
  rw [hadv] at hall ⊢
  split
  · exact ⟨rfl, rfl, rfl, hall.1⟩
  · exact ⟨rfl, rfl, rfl, hall.1⟩

theorem sendMeasure_stepChoose {lists : ℕ → ℕ → List (Message code)} {s : SendState code}
    (h : Draining p lists s) (h' : Draining p lists (s.stepChoose p))
    (hdone : s.chooser_done = false) : sendMeasure p (s.stepChoose p) < sendMeasure p s := by
  obtain ⟨hcontents, hcontent, hall, hahead⟩ := stepChoose_frame hdone h.range
  have hleft : (s.stepChoose p).left p = s.left p := by
    have hsplit := h'.split
    rw [hcontents, hcontent, ← h.split] at hsplit
    exact append_cancel_left hsplit
  apply sendMeasure_lt_of_work
  unfold sendWork
  rw [hleft, hall, hahead, length_cons]
  exact Nat.add_lt_add_right (by omega) _

theorem sendMeasure_stepPost {s : SendState code} (hpc : s.pc = .post) :
    sendMeasure p (s.stepPost p) < sendMeasure p s := by
  have hrank : sendRank s = 4 := by simp [sendRank, hpc]
  unfold SendState.stepPost
  split
  · refine sendMeasure_lt_of_rank (by rfl) hrank ?_
    simp [sendRank]
  · refine sendMeasure_lt_of_rank (by rfl) hrank ?_
    simp [sendRank]

theorem sendMeasure_step {lists : ℕ → ℕ → List (Message code)} (hlists : ListsSendable p lists)
    {s s' : SendState code} (h : SendInv p lists s) (hstep : s.step p = some s') :
    sendMeasure p s' < sendMeasure p s := by
  have hinv' := sendInv_step hlists h hstep
  obtain ⟨hd, hat⟩ := h
  unfold SendState.step at hstep
  unfold AtPc at hat
  cases hpc : s.pc with
  | outer =>
    simp only [hpc, Option.some.injEq] at hstep
    exact hstep ▸ sendMeasure_stepOuter hpc
  | fill =>
    simp only [hpc, Option.some.injEq] at hstep hat
    exact hstep ▸ sendMeasure_stepFill hpc hat.2
  | choose =>
    simp only [hpc, Option.some.injEq] at hstep hat
    subst hstep
    exact sendMeasure_stepChoose hd hinv'.draining hat.2.1
  | serialize =>
    simp only [hpc, Option.some.injEq] at hstep hat
    exact hstep ▸ sendMeasure_stepSerialize hlists hd hat hpc
  | post =>
    simp only [hpc, Option.some.injEq] at hstep
    exact hstep ▸ sendMeasure_stepPost hpc
  | finished => simp [hpc] at hstep
  | failed => simp [hpc] at hstep

theorem sendLocale_finishes {lists : ℕ → ℕ → List (Message code)}
    (hlists : ListsSendable p lists) :
    ∃ ls s, (sendLocale p lists).run (.start p lists) ls = some s ∧ s.pc = .finished ∧
      s.contents.flatten = allMessages p lists ∧ List.Forall₂ (Holds p) s.sent s.contents := by
  obtain ⟨ls, s, hrun, hinv, hhalt⟩ := (sendLocale p lists).run_to_halt
    (SendInv p lists) (sendMeasure p)
    (fun s _ s' hs hnext => ⟨sendInv_step hlists hs hnext, sendMeasure_step hlists hs hnext⟩)
    (sendInv_start p lists)
  obtain ⟨hd, hat⟩ := hinv
  have hstop : s.step p = none := hhalt ()
  have hpc : s.pc = .finished := by
    unfold SendState.step at hstop
    unfold AtPc at hat
    cases hpc : s.pc <;> simp [hpc] at hstop hat ⊢
  refine ⟨ls, s, hrun, hpc, ?_, hd.posted⟩
  unfold AtPc at hat
  simp only [hpc] at hat
  obtain ⟨hcontent, hall, hmsgs⟩ := hat
  have hsplit := hd.split
  have hleft : s.left p = [] := by
    unfold SendState.left SendState.ahead
    rw [hmsgs, hd.ended hall]
    rfl
  rw [hcontent, hleft, append_nil, append_nil] at hsplit
  exact hsplit

end invariant

end Grappa
