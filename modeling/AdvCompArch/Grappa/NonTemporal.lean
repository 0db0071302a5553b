import Mathlib.Data.BitVec

/-! # Messages through a non-temporal buffer

    Messages of whole words are gathered in a cache line, which is written out when it is
    full or, padded with zeros, when the buffer is flushed.  A buffer begins with space for a
    header.  The receiver runs through the words after the header: a zero word is skipped,
    and any other one begins a message, whose deserializer says where it ends.  Nothing
    checks that the lines fit in the memory of the buffer. -/

namespace Grappa.NonTemporal

open Option List

abbrev Word := BitVec 64

/-- The deserializers, which are known by the address of their code: how many words the functor
    of each of them has.  The message has a word more. -/
structure Handlers where
  storage_words : BitVec 32 → ℕ

/-- A message of a type with such a deserializer; its address is representable in 32 bits, and
    not null. -/
structure NTMessage (h : Handlers) where
  dest_ : BitVec 16
  fp_ : BitVec 32
  storage_ : List Word
  fp_ne : fp_ ≠ 0
  length_storage : storage_.length = h.storage_words fp_

variable {h : Handlers}

namespace NTMessage

variable (m : NTMessage h)

/-- The size that the message carries, in bytes. -/
def size_ : BitVec 16 := BitVec.ofNat 16 (8 * (1 + m.storage_.length))

/-- The fields of `NTMessageBase`, the first one lowest. -/
def base : Word := m.fp_ ++ (m.size_ ++ m.dest_)

def words : List Word := m.base :: m.storage_

end NTMessage

/-- The address of the deserializer in the first word of a message. -/
def fp (base : Word) : BitVec 32 := base.extractLsb' 32 32

/-! ### The buffer -/

def local_buffer_size : ℕ := 8

/-- `BUFFER_SIZE`, in words. -/
def buffer_words : ℕ := 2 ^ 19 / 8

structure NTBuffer where
  localbuf_ : ℕ → Word
  buffer_ : Option (ℕ → Word)
  position_ : ℕ
  local_position_ : ℕ

/-- What `take_buffer` returns; the size is in words. -/
structure Taken where
  buffer : Option (ℕ → Word)
  size : ℕ

namespace NTBuffer

def empty (localbuf : ℕ → Word) : NTBuffer := ⟨localbuf, none, 0, 0⟩

/-- The words `dst, …, dst + 7` are stored. -/
def store_line (buffer : ℕ → Word) (dst : ℕ) (src : ℕ → Word) : ℕ → Word :=
  fun i => if dst ≤ i ∧ i < dst + local_buffer_size then src (i - dst) else buffer i

variable (fresh : ℕ → Word) (b : NTBuffer)

/-- The line is padded and written out; a new buffer has the words `fresh`.  There is no result
    if the line is not within the buffer. -/
def flush : Option NTBuffer :=
  if b.local_position_ > 0 then
    let localbuf := fun i => if b.local_position_ ≤ i then 0 else b.localbuf_ i
    let buffer := b.buffer_.getD fresh
    if b.position_ + local_buffer_size ≤ buffer_words then
      some ⟨localbuf, some (store_line buffer b.position_ localbuf),
        b.position_ + local_buffer_size, 0⟩
    else none
  else some b

def actual_enqueue : List Word → NTBuffer → Option NTBuffer
  | [], b => some b
  | word :: words, b =>
    let b := { b with
      localbuf_ := Function.update b.localbuf_ b.local_position_ word
      local_position_ := b.local_position_ + 1 }
    if b.local_position_ = local_buffer_size then
      (b.flush fresh).bind (actual_enqueue words)
    else actual_enqueue words b

/-- The words of the header are not initialized. -/
def enqueue (header words : List Word) : Option NTBuffer :=
  if b.position_ = 0 ∧ b.local_position_ = 0 then
    (b.actual_enqueue fresh header).bind (actual_enqueue fresh words)
  else b.actual_enqueue fresh words

def take_buffer : Option (NTBuffer × Taken) := do
  let b ← b.flush fresh
  some ({ b with buffer_ := none, position_ := 0 }, ⟨b.buffer_, b.position_⟩)

end NTBuffer

/-! ### The receiver -/

/-- What the receiver does with the words. -/
inductive Event
  /-- The deserializer at `fp` is called, and runs the message. -/
  | runs (fp : BitVec 32) (words : List Word)
  | skips
  deriving DecidableEq

def Event.words? : Event → Option (List Word)
  | runs _ words => some words
  | skips => none

/-- The words are read from `buf` on, up to `stop`; returns where it has come to. -/
def deaggregate_nt_buffer (h : Handlers) (mem : ℕ → Word) (buf stop : ℕ) : List Event × ℕ :=
  if buf < stop then
    if mem buf ≠ 0 then
      let words := 1 + h.storage_words (fp (mem buf))
      let rest := deaggregate_nt_buffer h mem (buf + words) stop
      (.runs (fp (mem buf)) ((range words).map fun i => mem (buf + i)) :: rest.1, rest.2)
    else
      let rest := deaggregate_nt_buffer h mem (buf + 1) stop
      (.skips :: rest.1, rest.2)
  else ([], buf)
termination_by stop - buf
decreasing_by all_goals omega

/-! ### Runs -/

inductive Op (h : Handlers)
  | enqueue (m : NTMessage h)
  | flush
  | take

def Op.message? : Op h → Option (NTMessage h)
  | enqueue m => some m
  | flush | take => none

section runs

/-- The length of the header, and what the memory of buffers and headers happens to contain. -/
structure Setting where
  initial_offset : ℕ
  header : ℕ → Word
  fresh : ℕ → Word

variable (g : Setting)

def Setting.offset : List Word := (range g.initial_offset).map g.header

def step (b : NTBuffer) : Op h → Option (NTBuffer × List Taken)
  | .enqueue m => (b.enqueue g.fresh g.offset m.words).map fun b => (b, [])
  | .flush => (b.flush g.fresh).map fun b => (b, [])
  | .take => (b.take_buffer g.fresh).map fun (b, t) => (b, [t])

/-- The operations one after the other, with the buffers that are taken. -/
def run (b : NTBuffer) : List (Op h) → Option (NTBuffer × List Taken)
  | [] => some (b, [])
  | op :: ops => do
    let (b, taken) ← step g b op
    let (b, rest) ← run b ops
    some (b, taken ++ rest)

end runs

/-! ### The abstract buffer -/

/-- What is in a buffer after its header. -/
inductive Item (h : Handlers)
  | message (m : NTMessage h)
  | padding

namespace Item

def words : Item h → List Word
  | message m => m.words
  | padding => [0]

/-- What the receiver should make of it. -/
def event : Item h → Event
  | message m => .runs m.fp_ m.words
  | padding => .skips

def message? : Item h → Option (NTMessage h)
  | message m => some m
  | padding => none

end Item

/-- The words of a buffer with such items: without any there is no header. -/
def contents (g : Setting) (items : List (Item h)) : List Word :=
  if items.isEmpty then [] else g.offset ++ items.flatMap Item.words

/-- The padding that fills the last line. -/
def pad (g : Setting) (items : List (Item h)) : List (Item h) :=
  items ++ replicate ((8 - (contents g items).length % 8) % 8) .padding

namespace Spec

/-- The operations on the items of the buffer, with the items of those that are taken. -/
def step (g : Setting) (items : List (Item h)) : Op h → List (Item h) × List (List (Item h))
  | .enqueue m => (items ++ [.message m], [])
  | .flush => (pad g items, [])
  | .take => ([], [pad g items])

def run (g : Setting) (items : List (Item h)) : List (Op h) →
    List (Item h) × List (List (Item h))
  | [] => (items, [])
  | op :: ops =>
    ((run g (step g items op).1 ops).1, (step g items op).2 ++ (run g (step g items op).1 ops).2)

/-- No more is put into a buffer than it has room for. -/
def Fits (g : Setting) (items : List (Item h)) : List (Op h) → Prop
  | [] => True
  | op :: ops =>
    (contents g (step g items op).1).length ≤ buffer_words ∧ Fits g (step g items op).1 ops

end Spec

/-! ### The words of a buffer -/

/-- The lines that are written out and the one that is not are these words. -/
structure Holds (b : NTBuffer) (l : List Word) : Prop where
  line : b.local_position_ ≤ 8
  aligned : b.position_ % 8 = 0
  length : b.position_ + b.local_position_ = l.length
  written : ∀ i < b.position_, ∃ mem, b.buffer_ = some mem ∧ l[i]? = some (mem i)
  gathered : ∀ i < b.local_position_, l[b.position_ + i]? = some (b.localbuf_ i)
  allocated : b.buffer_ = none ↔ b.position_ = 0

variable {b : NTBuffer} {l : List Word} {fresh : ℕ → Word}

theorem empty_holds (localbuf : ℕ → Word) : Holds (.empty localbuf) [] :=
  ⟨Nat.zero_le 8, rfl, rfl, fun _ hi => absurd hi (Nat.not_lt_zero _),
    fun _ hi => absurd hi (Nat.not_lt_zero _), iff_of_true rfl rfl⟩

theorem store_line_outside {buffer src : ℕ → Word} {dst i : ℕ} (hi : i < dst) :
    NTBuffer.store_line buffer dst src i = buffer i :=
  if_neg fun h => absurd h.1 (Nat.not_le.mpr hi)

theorem store_line_inside {buffer src : ℕ → Word} {dst i : ℕ} (hlo : dst ≤ i) (hhi : i < dst + 8) :
    NTBuffer.store_line buffer dst src i = src (i - dst) :=
  if_pos ⟨hlo, hhi⟩

theorem flush_eq_self (h0 : b.local_position_ = 0) : b.flush fresh = some b := by
  rw [NTBuffer.flush, if_neg (by omega)]

/-- **The line is padded** and written out. -/
theorem Holds.flush (h : Holds b l) (fresh : ℕ → Word) (hpos : 0 < b.local_position_)
    (hroom : b.position_ + 8 ≤ buffer_words) :
    ∃ b', b.flush fresh = some b' ∧
      Holds b' (l ++ replicate (8 - b.local_position_) 0) ∧ b'.local_position_ = 0 := by
  have hlength := h.length
  have hline := h.line
  have haligned := h.aligned
  have hroom : b.position_ + local_buffer_size ≤ buffer_words := hroom
  rw [NTBuffer.flush, if_pos hpos]
  dsimp only
  rw [if_pos hroom]
  refine ⟨_, rfl, ⟨Nat.zero_le 8, ?_, ?_, ?_, ?_, ?_⟩, rfl⟩
  · show (b.position_ + 8) % 8 = 0
    omega
  · show b.position_ + 8 + 0 = _
    rw [length_append, length_replicate]
    omega
  · intro i hi
    have hi : i < b.position_ + 8 := hi
    refine ⟨_, rfl, ?_⟩
    by_cases hold : i < b.position_
    · -- a line that was there before
      obtain ⟨mem, hmem, hword⟩ := h.written i hold
      rw [getElem?_append_left (by omega), hword, store_line_outside (by omega), hmem]
      rfl
    · rw [store_line_inside (by omega) hi]
      by_cases hgathered : i - b.position_ < b.local_position_
      · have hword := h.gathered _ hgathered
        rw [show b.position_ + (i - b.position_) = i by omega] at hword
        rw [getElem?_append_left (by omega), hword, if_neg (by omega)]
      · rw [getElem?_append_right (by omega), getElem?_replicate, if_pos (by omega),
          if_pos (by omega)]
  · exact fun i hi => absurd hi (Nat.not_lt_zero i)
  · exact iff_of_false (some_ne_none _) (Nat.succ_ne_zero _)

theorem Holds.put (h : Holds b l) (hlt : b.local_position_ < 8) (word : Word) :
    Holds { b with
      localbuf_ := Function.update b.localbuf_ b.local_position_ word
      local_position_ := b.local_position_ + 1 } (l ++ [word]) where
  line := hlt
  aligned := h.aligned
  length := by
    have hlength := h.length
    rw [length_append, length_singleton, ← hlength]
    rfl
  written := by
    intro i hi
    obtain ⟨mem, hmem, hword⟩ := h.written i hi
    have hlength := h.length
    have hi : i < b.position_ := hi
    exact ⟨mem, hmem, by rw [getElem?_append_left (by omega), hword]⟩
  gathered := by
    intro i hi
    have hi : i < b.local_position_ + 1 := hi
    have hlength := h.length
    show (l ++ [word])[b.position_ + i]? =
      some (Function.update b.localbuf_ b.local_position_ word i)
    rcases Nat.lt_succ_iff_lt_or_eq.mp hi with hi | rfl
    · rw [getElem?_append_left (by omega), h.gathered i hi,
        Function.update_of_ne (by omega)]
    · rw [hlength, getElem?_concat_length, Function.update_self]
  allocated := h.allocated

theorem Holds.actual_enqueue (h : Holds b l) (fresh : ℕ → Word) (words : List Word)
    (hlt : b.local_position_ < 8) (hroom : l.length + words.length < buffer_words + 8) :
    ∃ b', b.actual_enqueue fresh words = some b' ∧ Holds b' (l ++ words) ∧
      b'.local_position_ < 8 := by
  induction words generalizing b l with
  | nil => exact ⟨b, rfl, by rwa [append_nil], hlt⟩
  | cons word words ih =>
    have hput := h.put hlt word
    have hlength := hput.length
    rw [length_append, length_singleton] at hlength
    rw [length_cons] at hroom
    have hcons : l ++ word :: words = l ++ [word] ++ words := by simp
    rw [NTBuffer.actual_enqueue, hcons]
    dsimp only at hlength ⊢
    by_cases hfull : b.local_position_ + 1 = local_buffer_size
    · have hfull8 : b.local_position_ + 1 = 8 := hfull
      have haligned := h.aligned
      have hwords : buffer_words = 65536 := rfl
      obtain ⟨b', hflush, hholds, hzero⟩ := hput.flush fresh (Nat.succ_pos _)
        (by simp only; omega)
      dsimp only at hholds
      rw [hfull8, Nat.sub_self, replicate_zero, append_nil] at hholds
      obtain ⟨b'', hrest, hholds, hlt⟩ := ih hholds (by omega)
        (by rw [length_append, length_singleton]; omega)
      exact ⟨b'', by rw [if_pos hfull, hflush, bind_some, hrest], hholds, hlt⟩
    · rw [if_neg hfull]
      have hne : b.local_position_ + 1 ≠ 8 := hfull
      exact ih hput (by simp only; omega)
        (by rw [length_append, length_singleton]; omega)

/-! ### The items of a buffer -/

section items

variable {g : Setting} {items : List (Item h)}

theorem length_offset : g.offset.length = g.initial_offset := by
  rw [Setting.offset, length_map, length_range]

theorem contents_eq_nil_iff : contents g items = [] ↔ items = [] := by
  cases items with
  | nil => exact iff_of_true rfl rfl
  | cons item items =>
    rw [contents, if_neg (by simp)]
    cases item <;> simp [Item.words, NTMessage.words]

theorem contents_append (more : List (Item h)) (hne : items ≠ []) :
    contents g (items ++ more) = contents g items ++ more.flatMap Item.words := by
  rw [contents, contents, if_neg (by simp [hne]), if_neg (by simp [hne]), flatMap_append,
    append_assoc]

theorem contents_message (m : NTMessage h) : contents g [.message m] = g.offset ++ m.words := by
  simp [contents, Item.words]

theorem words_replicate_padding (k : ℕ) :
    (replicate k (Item.padding (h := h))).flatMap Item.words = replicate k 0 := by
  induction k with
  | zero => rfl
  | succ k ih => rw [replicate_succ, flatMap_cons, ih, replicate_succ]; rfl

/-- **A message is put** into the buffer, after a header if it is the first one. -/
theorem Holds.enqueue (hb : Holds b (contents g items)) (hlt : b.local_position_ < 8)
    (m : NTMessage h)
    (hroom : (contents g (items ++ [.message m])).length < buffer_words + 8) :
    ∃ b', b.enqueue g.fresh g.offset m.words = some b' ∧
      Holds b' (contents g (items ++ [.message m])) ∧ b'.local_position_ < 8 := by
  have hlength := hb.length
  by_cases hne : items = []
  · subst hne
    rw [nil_append, contents_message] at hroom ⊢
    rw [length_append] at hroom
    have hempty : b.position_ = 0 ∧ b.local_position_ = 0 := by
      have hzero : (contents g ([] : List (Item h))).length = 0 := rfl
      omega
    obtain ⟨b', hheader, hholds, hlt'⟩ := hb.actual_enqueue g.fresh g.offset hlt (by
        omega)
    obtain ⟨b'', hwords, hholds, hlt''⟩ := hholds.actual_enqueue g.fresh m.words hlt' (by
        rw [length_append]
        omega)
    refine ⟨b'', ?_, hholds, hlt''⟩
    rw [NTBuffer.enqueue, if_pos hempty, hheader, bind_some, hwords]
  · have hused : ¬ (b.position_ = 0 ∧ b.local_position_ = 0) := by
      have hpos : (contents g items).length ≠ 0 := fun h0 =>
        hne (contents_eq_nil_iff.mp (length_eq_zero_iff.mp h0))
      omega
    have hone : [Item.message m].flatMap Item.words = m.words := by simp [Item.words]
    rw [contents_append _ hne, hone] at hroom ⊢
    rw [length_append] at hroom
    obtain ⟨b', hwords, hholds, hlt'⟩ := hb.actual_enqueue g.fresh m.words hlt hroom
    exact ⟨b', by rw [NTBuffer.enqueue, if_neg hused, hwords], hholds, hlt'⟩

theorem Holds.flush_items (hb : Holds b (contents g items)) (hlt : b.local_position_ < 8)
    (hroom : (contents g items).length ≤ buffer_words) :
    ∃ b', b.flush g.fresh = some b' ∧ Holds b' (contents g (pad g items)) ∧
      b'.local_position_ = 0 := by
  have hlength := hb.length
  have haligned := hb.aligned
  rw [pad, ← hlength]
  by_cases hzero : b.local_position_ = 0
  · rw [show (8 - (b.position_ + b.local_position_) % 8) % 8 = 0 by omega, replicate_zero,
      append_nil]
    exact ⟨b, flush_eq_self hzero, hb, hzero⟩
  · have hwords : buffer_words = 65536 := rfl
    obtain ⟨b', hflush, hholds, hzero'⟩ := hb.flush g.fresh (by omega) (by omega)
    have hne : items ≠ [] := fun hnil => by
      rw [contents_eq_nil_iff.mpr hnil] at hlength
      exact hzero (Nat.eq_zero_of_add_eq_zero_left hlength)
    rw [contents_append _ hne, words_replicate_padding,
      show (8 - (b.position_ + b.local_position_) % 8) % 8 = 8 - b.local_position_ by omega]
    exact ⟨b', hflush, hholds, hzero'⟩

end items

/-! ### What the receiver makes of the items -/

section receiver

/-- The words from `pos` on are those of a list. -/
def Reads (mem : ℕ → Word) (pos : ℕ) (l : List Word) : Prop :=
  ∀ i w, l[i]? = some w → mem (pos + i) = w

variable {mem : ℕ → Word} {pos : ℕ} {l l' : List Word}

theorem Reads.left (hr : Reads mem pos (l ++ l')) : Reads mem pos l := by
  intro i w hi
  have hlt : i < l.length := (List.getElem?_eq_some_iff.mp hi).1
  exact hr i w (by rw [getElem?_append_left hlt, hi])

theorem Reads.right (hr : Reads mem pos (l ++ l')) : Reads mem (pos + l.length) l' := by
  intro i w hi
  rw [add_assoc]
  exact hr _ w (by rw [getElem?_append_right (by omega), Nat.add_sub_cancel_left, hi])

theorem Reads.map_eq (hr : Reads mem pos l) : (range l.length).map (fun i => mem (pos + i)) = l := by
  apply ext_getElem (by simp)
  intro i hi hi'
  rw [getElem_map, getElem_range]
  exact hr i _ (getElem?_eq_getElem hi')

/-- The address of the deserializer is found in the first word. -/
theorem fp_base (m : NTMessage h) : fp m.base = m.fp_ := BitVec.extractLsb'_append_eq_left

theorem base_ne_zero (m : NTMessage h) : m.base ≠ 0 := by
  intro hzero
  have hfp := fp_base m
  rw [hzero] at hfp
  exact m.fp_ne hfp.symm

theorem length_words (m : NTMessage h) : m.words.length = 1 + h.storage_words m.fp_ := by
  rw [NTMessage.words, length_cons, m.length_storage, add_comm]

theorem deaggregate_message {stop : ℕ} (m : NTMessage h) (hlt : pos < stop)
    (hr : Reads mem pos m.words) : deaggregate_nt_buffer h mem pos stop =
      (.runs m.fp_ m.words :: (deaggregate_nt_buffer h mem (pos + m.words.length) stop).1,
        (deaggregate_nt_buffer h mem (pos + m.words.length) stop).2) := by
  have hbase : mem pos = m.base := hr 0 _ rfl
  have hne : mem pos ≠ 0 := by
    rw [hbase]
    exact base_ne_zero m
  conv_lhs => rw [deaggregate_nt_buffer]
  rw [if_pos hlt, if_pos hne, hbase, fp_base, ← length_words]
  dsimp only
  rw [hr.map_eq]

theorem deaggregate_padding {stop : ℕ} (hlt : pos < stop) (hzero : mem pos = 0) :
    deaggregate_nt_buffer h mem pos stop =
      (.skips :: (deaggregate_nt_buffer h mem (pos + 1) stop).1,
        (deaggregate_nt_buffer h mem (pos + 1) stop).2) := by
  conv_lhs => rw [deaggregate_nt_buffer]
  rw [if_pos hlt, if_neg (not_not_intro hzero)]

/-- **What is received**: every message is run, every padding word is skipped, and the end is
    where the words end. -/
theorem deaggregate_items {items : List (Item h)} (hr : Reads mem pos (items.flatMap Item.words)) :
    deaggregate_nt_buffer h mem pos (pos + (items.flatMap Item.words).length) =
      (items.map Item.event, pos + (items.flatMap Item.words).length) := by
  induction items generalizing pos with
  | nil =>
    rw [deaggregate_nt_buffer, if_neg (by simp)]
    rfl
  | cons item items ih =>
    rw [flatMap_cons] at hr ⊢
    have hrest := ih hr.right
    rw [length_append, ← add_assoc]
    cases item with
    | message m =>
      have hpos : 0 < (Item.message m).words.length := Nat.succ_pos _
      rw [deaggregate_message m (by omega) hr.left, show m.words = (Item.message m).words from rfl,
        hrest]
      rfl
    | padding =>
      have hpos : 0 < (Item.padding : Item h).words.length := Nat.one_pos
      have hzero : mem pos = 0 := hr.left 0 _ rfl
      rw [deaggregate_padding (by omega) hzero]
      have hnext : pos + 1 = pos + (Item.padding : Item h).words.length := rfl
      rw [hnext, hrest]
      rfl

end receiver

/-! ### Runs -/

section runs

variable {g : Setting} {items : List (Item h)}

/-- A buffer that was taken has these items. -/
structure Taken.Has (g : Setting) (t : Taken) (items : List (Item h)) : Prop where
  size : t.size = (contents g items).length
  allocated : t.buffer = none ↔ items = []
  reads : ∀ mem, t.buffer = some mem → Reads mem 0 (contents g items)

/-- **The buffer is taken**, padded. -/
theorem Holds.take_buffer (hb : Holds b (contents g items)) (hlt : b.local_position_ < 8)
    (hroom : (contents g items).length ≤ buffer_words) :
    ∃ b' t, b.take_buffer g.fresh = some (b', t) ∧ Holds b' (contents g ([] : List (Item h))) ∧
      b'.local_position_ = 0 ∧ t.Has g (pad g items) := by
  obtain ⟨b', hflush, hholds, hzero⟩ := hb.flush_items hlt hroom
  have hlength := hholds.length
  refine ⟨{ b' with buffer_ := none, position_ := 0 }, ⟨b'.buffer_, b'.position_⟩, ?_, ?_, hzero,
    ?_, ?_, ?_⟩
  · rw [NTBuffer.take_buffer, hflush]
    rfl
  · refine ⟨hholds.line, rfl, ?_, fun _ hi => absurd hi (Nat.not_lt_zero _), ?_,
      iff_of_true rfl rfl⟩
    · show 0 + b'.local_position_ = 0
      omega
    · intro i hi
      have hi : i < b'.local_position_ := hi
      omega
  · show b'.position_ = _
    omega
  · show b'.buffer_ = none ↔ _
    rw [hholds.allocated, ← contents_eq_nil_iff (g := g), ← length_eq_zero_iff]
    omega
  · intro mem hmem i w hi
    have hlt := (List.getElem?_eq_some_iff.mp hi).1
    obtain ⟨mem', hmem', hword⟩ := hholds.written i (by omega)
    have hsame : some mem = some mem' := hmem.symm.trans hmem'
    rw [hi, some_inj, ← some.inj hsame] at hword
    rw [hword, zero_add]

theorem Holds.step (hb : Holds b (contents g items)) (hlt : b.local_position_ < 8)
    (hroom : (contents g items).length ≤ buffer_words) {op : Op h}
    (hroom' : (contents g (Spec.step g items op).1).length ≤ buffer_words) :
    ∃ b' taken, step g b op = some (b', taken) ∧ Holds b' (contents g (Spec.step g items op).1) ∧
      b'.local_position_ < 8 ∧ List.Forall₂ (Taken.Has g) taken (Spec.step g items op).2 := by
  cases op with
  | enqueue m =>
    have hroom' : (contents g (items ++ [.message m])).length ≤ buffer_words := hroom'
    obtain ⟨b', heq, hholds, hlt'⟩ := hb.enqueue hlt m (by omega)
    exact ⟨b', [], by rw [NonTemporal.step, heq]; rfl, hholds, hlt', .nil⟩
  | flush =>
    obtain ⟨b', heq, hholds, hzero⟩ := hb.flush_items hlt hroom
    exact ⟨b', [], by rw [NonTemporal.step, heq]; rfl, hholds, by omega, .nil⟩
  | take =>
    obtain ⟨b', t, heq, hholds, hzero, hhas⟩ := hb.take_buffer hlt hroom
    exact ⟨b', [t], by rw [NonTemporal.step, heq]; rfl, hholds, by omega, .cons hhas .nil⟩

theorem run_holds (hb : Holds b (contents g items)) (hlt : b.local_position_ < 8)
    (hroom : (contents g items).length ≤ buffer_words) {ops : List (Op h)}
    (hfits : Spec.Fits g items ops) :
    ∃ b' taken, run g b ops = some (b', taken) ∧
      List.Forall₂ (Taken.Has g) taken (Spec.run g items ops).2 := by
  induction ops generalizing b items with
  | nil => exact ⟨b, [], rfl, .nil⟩
  | cons op ops ih =>
    obtain ⟨b', taken, hstep, hholds, hlt', htaken⟩ := hb.step hlt hroom hfits.1
    obtain ⟨b'', rest, hrun, hrest⟩ := ih hholds hlt' hfits.1 hfits.2
    refine ⟨b'', taken ++ rest, ?_, rel_append htaken hrest⟩
    simp only [run, hstep, hrun, bind_eq_bind, bind_some]

theorem Spec.run_messages (g : Setting) (items : List (Item h)) (ops : List (Op h)) :
    ((Spec.run g items ops).2.flatten ++ (Spec.run g items ops).1).filterMap Item.message? =
      items.filterMap Item.message? ++ ops.filterMap Op.message? := by
  have hpad : ∀ items : List (Item h),
      (pad g items).filterMap Item.message? = items.filterMap Item.message? := by
    intro items
    rw [pad, filterMap_append, filterMap_replicate_of_none rfl, append_nil]
  induction ops generalizing items with
  | nil => simp [Spec.run]
  | cons op ops ih =>
    rw [Spec.run, flatten_append, append_assoc, filterMap_append, ih]
    cases op with
    | enqueue m => simp [Spec.step, Op.message?, Item.message?]
    | flush =>
      rw [filterMap_cons_none (f := Op.message?) rfl, ← hpad items]
      rfl
    | take =>
      rw [filterMap_cons_none (f := Op.message?) rfl, ← hpad items]
      simp [Spec.step]

end runs

/-- The receiver goes through a buffer that was taken, after its header. -/
def received (h : Handlers) (g : Setting) (t : Taken) : List Event × ℕ :=
  match t.buffer with
  | some mem => deaggregate_nt_buffer h mem g.initial_offset t.size
  | none => ([], t.size)

theorem Taken.Has.received_eq {g : Setting} {t : Taken} {items : List (Item h)}
    (ht : t.Has g items) : received h g t = (items.map Item.event, t.size) := by
  rw [received]
  cases hbuffer : t.buffer with
  | none =>
    rw [ht.allocated.mp hbuffer]
    rfl
  | some mem =>
    have hne : items ≠ [] := fun hnil =>
      some_ne_none mem (hbuffer.symm.trans (ht.allocated.mpr hnil))
    have hreads := ht.reads mem hbuffer
    have hsize := ht.size
    rw [contents, if_neg (by simpa using hne)] at hreads hsize
    have hright := hreads.right
    rw [zero_add, length_offset] at hright
    rw [hsize, length_append, length_offset]
    exact deaggregate_items hright

/-- **The round trip.**  As long as no more is put into a buffer than it has room for, nothing
    goes wrong, and each buffer that is taken holds, after its header, the messages that were
    put into it since the last one was taken, and zero words between some of them.  The receiver
    skips these words, runs the messages, with all their words, and stops at the end. -/
theorem round_trip (g : Setting) (localbuf : ℕ → Word) {ops : List (Op h)}
    (hfits : Spec.Fits g [] ops) :
    ∃ b taken, run g (.empty localbuf) ops = some (b, taken) ∧
      List.Forall₂ (fun t items => t.Has g items ∧
        received h g t = (items.map Item.event, t.size)) taken (Spec.run g [] ops).2 ∧
      (taken.flatMap fun t => (received h g t).1).filterMap Event.words? ++
          ((Spec.run g [] ops).1.filterMap Item.message?).map NTMessage.words =
        (ops.filterMap Op.message?).map NTMessage.words := by
  have hroom : (contents g ([] : List (Item h))).length ≤ buffer_words := Nat.zero_le _
  obtain ⟨b, taken, hrun, htaken⟩ := run_holds (empty_holds localbuf) (Nat.succ_pos 7) hroom
    hfits
  have hmessages := Spec.run_messages g [] ops
  rw [filterMap_append, filterMap_nil, nil_append] at hmessages
  refine ⟨b, taken, hrun, htaken.imp fun t items ht => ⟨ht, ht.received_eq⟩, ?_⟩
  have hevents : (taken.flatMap fun t => (received h g t).1) =
      (Spec.run g [] ops).2.flatten.map Item.event := by
    clear hmessages hrun
    generalize (Spec.run g [] ops).2 = layout at htaken
    induction htaken with
    | nil => rfl
    | cons ht _ ih => rw [flatMap_cons, flatten_cons, map_append, ht.received_eq, ih]
  have hwords : ∀ items : List (Item h), (items.map Item.event).filterMap Event.words? =
      (items.filterMap Item.message?).map NTMessage.words := by
    intro items
    rw [filterMap_map, map_filterMap]
    apply filterMap_congr
    intro item _
    cases item <;> rfl
  rw [hevents, hwords, ← hmessages, map_append]

/-- Messages whose functors have as many words as the address of the deserializer says. -/
def example_handlers : Handlers := ⟨BitVec.toNat⟩

/-- A message of such a type, whose functor has zero words only. -/
def example_message (fp : BitVec 32) (hfp : fp ≠ 0) : NTMessage example_handlers where
  dest_ := 1
  fp_ := fp
  storage_ := replicate fp.toNat 0
  fp_ne := hfp
  length_storage := length_replicate

/-- Without a header. -/
def example_setting : Setting := ⟨0, fun _ => 0, fun _ => 0⟩

/-- A message of 10 words, a flush and a message of two words: both are received. -/
theorem round_trip_two : ∃ b taken,
    run example_setting (.empty fun _ => 0)
      [.enqueue (example_message 9 (by decide)), .flush, .enqueue (example_message 1 (by decide)),
        .take] = some (b, taken) ∧
    (taken.flatMap fun t => (received example_handlers example_setting t).1).filterMap
        Event.words? =
      [(example_message 9 (by decide)).words, (example_message 1 (by decide)).words] := by
  have hfits : Spec.Fits example_setting [] [.enqueue (example_message 9 (by decide)), .flush,
      .enqueue (example_message 1 (by decide)), .take] :=
    ⟨by decide +kernel, by decide +kernel, by decide +kernel, by decide +kernel, trivial⟩
  obtain ⟨b, taken, hrun, -, hwords⟩ := round_trip example_setting (fun _ => 0) hfits
  exact ⟨b, taken, hrun, (append_nil _).symm.trans hwords⟩

/-- **The memory of the buffer is not checked**: a message that does not fit in it is written
    beyond its end when the buffer is taken. -/
theorem overflow : run example_setting (.empty fun _ => 0)
    [.enqueue (example_message 65536 (by decide)), .take] = none := by
  generalize hm : example_message 65536 (by decide) = m
  have hlength : (contents example_setting [.message m]).length = 65537 := by
    rw [contents_message, length_append, length_words, ← hm]
    rfl
  have hwords : buffer_words = 65536 := rfl
  have hempty : Holds (.empty fun _ => 0)
      (contents example_setting ([] : List (Item example_handlers))) := empty_holds _
  obtain ⟨b, henqueue, hholds, hlt⟩ := hempty.enqueue (Nat.succ_pos 7) m
    (by rw [nil_append, hlength]; decide)
  rw [nil_append] at hholds
  have hused := hholds.length
  have haligned := hholds.aligned
  have hflush : b.flush example_setting.fresh = none := by
    have hout : ¬ b.position_ + local_buffer_size ≤ buffer_words := by
      have hline : local_buffer_size = 8 := rfl
      omega
    rw [NTBuffer.flush, if_pos (by omega)]
    dsimp only
    rw [if_neg hout]
  simp only [run, step, henqueue, map_some, bind_eq_bind, bind_some,
    NTBuffer.take_buffer, hflush, bind_none, map_none]

end Grappa.NonTemporal
