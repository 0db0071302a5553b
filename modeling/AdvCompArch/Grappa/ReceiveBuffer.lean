import AdvCompArch.Grappa.SendLocale

/-! # Receiving a locale's buffers

    `receive_buffer` finds the slices of a buffer from the counts only.  A buffer as
    `send_locale` posts it is laid out slice by slice (`Layout`), so the slices are
    those of the cores, and every message is run once where it was sent to.  As in a
    single buffer, this depends on the field for the payload length:
    `locale_delivery` says when. -/

namespace Grappa

open List

/-- The part of a received buffer that a core deaggregates. -/
structure Slice where
  core : ℕ
  buf : ℕ
  size : ℕ
  deriving DecidableEq

/-- The loop over the counts: the slices that are not empty, with their cores. -/
def slices (first_core : ℕ) : (locale_core current_buf : ℕ) → List ℕ → List Slice
  | _, _, [] => []
  | locale_core, current_buf, n :: counts =>
    (if n > 0 then [⟨first_core + locale_core, current_buf, n⟩] else []) ++
      slices first_core (locale_core + 1) (current_buf + n) counts

/-- `receive_buffer` on core `mycore` of the destination locale: the slices of the other cores
    are enqueued to them, its own slice is deaggregated afterwards. -/
def receive_buffer (p : SendParams) (mycore : ℕ) (b : SentBuffer) : List Slice :=
  let all := slices p.first_core 0 0 b.counts
  all.filter (fun s => s.core ≠ mycore) ++ all.filter (fun s => s.core = mycore)

/-- `deaggregate_buffer` on a slice makes the calls, on the core of the slice, and stops at the
    end of the slice. -/
def Slice.Runs (code : Code) (payload : List UInt8) (s : Slice) (calls : List (ℕ × Call)) : Prop :=
  ∃ fuel cs, deaggregate_buffer code s.core payload (s.buf + s.size) fuel s.buf =
      some (cs, s.buf + s.size) ∧
    calls = cs.map fun c => (s.core, c)

section layout

variable {code : Code} {p : SendParams}

/-- What the messages of a slice are to do. -/
def sliceCalls (d : ℕ) (content : List (ℕ × Message code)) : List (ℕ × Call) :=
  (forCore d content).map fun m => (d, m.call)

/-- A buffer, its content and the slices that its receiver makes of it: the counts are the sizes
    of the slices, the slices stand one behind the other, and each core with messages is handed
    the bytes of its messages. -/
structure Layout (p : SendParams) (mycore : ℕ) (b : SentBuffer)
    (content : List (ℕ × Message code)) : Prop where
  counts : b.counts = (List.range' 0 p.locale_cores).map fun i => sliceSize (p.first_core + i) content
  payload : b.payload = (List.range' 0 p.locale_cores).flatMap fun i =>
    (forCore (p.first_core + i) content).flatMap Message.bytes
  size : b.payload.length ≤ p.get_max_size
  cores : ((receive_buffer p mycore b).map Slice.core).Perm
    (((List.range' 0 p.locale_cores).map (p.first_core + ·)).filter fun d =>
      forCore d content ≠ [])
  slices : ∀ s ∈ receive_buffer p mycore b,
    (b.payload.drop s.buf).take s.size = (forCore s.core content).flatMap Message.bytes

theorem sliceSize_eq_zero {d : ℕ} {content : List (ℕ × Message code)} :
    sliceSize d content = 0 ↔ forCore d content = [] := by
  unfold sliceSize
  cases h : forCore d content with
  | nil => simp
  | cons m ms =>
    have := m.serialized_size_pos
    simp only [map_cons, sum_cons, reduceCtorEq, iff_false]
    omega

/-- What is done slice by slice is done core by core. -/
theorem slices_flatMap {β : Type} (first : ℕ) (content : List (ℕ × Message code))
    (g : ℕ → List β) (hg : ∀ d, forCore d content = [] → g d = []) (n k pos : ℕ) :
    (slices first k pos ((List.range' k n).map fun i => sliceSize (first + i) content)).flatMap
        (fun s => g s.core) = (List.range' k n).flatMap fun i => g (first + i) := by
  induction n generalizing k pos with
  | zero => rfl
  | succ n ih =>
    rw [range'_succ, map_cons, slices, flatMap_append, ih, flatMap_cons]
    congr 1
    split
    · simp
    · next hzero =>
      -- no slice for a core without messages
      rw [hg _ (sliceSize_eq_zero.mp (Nat.eq_zero_of_not_pos hzero))]
      rfl

theorem slices_split (first : ℕ) (content : List (ℕ × Message code)) (n k : ℕ)
    (pre : List UInt8) {s : Slice}
    (hs : s ∈ slices first k pre.length
      ((List.range' k n).map fun i => sliceSize (first + i) content)) :
    s.size = sliceSize s.core content ∧
      ∃ before after, before.length = s.buf ∧
        pre ++ ((List.range' k n).flatMap fun i =>
          (forCore (first + i) content).flatMap Message.bytes) =
        before ++ ((forCore s.core content).flatMap Message.bytes ++ after) := by
  induction n generalizing k pre with
  | zero => cases hs
  | succ n ih =>
    rw [range'_succ, map_cons, slices, mem_append] at hs
    rw [range'_succ, flatMap_cons]
    rcases hs with hs | hs
    · obtain ⟨-, hs⟩ := mem_ite_nil_right.mp hs
      obtain rfl := mem_singleton.mp hs
      exact ⟨rfl, pre, _, rfl, rfl⟩
    · have hlen : pre.length + sliceSize (first + k) content =
          (pre ++ (forCore (first + k) content).flatMap Message.bytes).length := by
        rw [length_append, length_flatMap_bytes]
        rfl
      rw [hlen] at hs
      rw [← append_assoc]
      exact ih _ _ hs

theorem receive_buffer_perm (mycore : ℕ) (b : SentBuffer) :
    (receive_buffer p mycore b).Perm (slices p.first_core 0 0 b.counts) := by
  unfold receive_buffer
  apply perm_append_comm.trans
  simpa using filter_append_perm (fun s : Slice => s.core = mycore)
    (slices p.first_core 0 0 b.counts)

theorem slices_cores (first : ℕ) (content : List (ℕ × Message code)) (n k pos : ℕ) :
    (slices first k pos ((List.range' k n).map fun i => sliceSize (first + i) content)).map
        Slice.core =
      ((List.range' k n).map (first + ·)).filter fun d => forCore d content ≠ [] := by
  induction n generalizing k pos with
  | zero => rfl
  | succ n ih =>
    rw [range'_succ, map_cons, slices, map_append, ih, map_cons]
    by_cases hnone : forCore (first + k) content = []
    · have hzero : ¬ sliceSize (first + k) content > 0 := by
        rw [sliceSize_eq_zero.mpr hnone]
        exact lt_irrefl 0
      rw [if_neg hzero, filter_cons_of_neg (by simpa using hnone)]
      rfl
    · have hpos : sliceSize (first + k) content > 0 := by
        apply Nat.pos_of_ne_zero
        intro hzero
        exact hnone (sliceSize_eq_zero.mp hzero)
      rw [if_pos hpos, filter_cons_of_pos (by simpa using hnone)]
      rfl

theorem tagged_forCore (d : ℕ) (content : List (ℕ × Message code)) :
    tagged d (forCore d content) = content.filter fun e => e.1 = d := by
  induction content with
  | nil => rfl
  | cons e content ih =>
    unfold tagged forCore at ih ⊢
    by_cases h : e.1 = d
    · simp only [h, filter_cons_of_pos, decide_true, map_cons, ih]
      rw [← h]
    · simp only [h, filter_cons_of_neg, decide_false, Bool.false_eq_true, not_false_eq_true, ih]

theorem content_eq_flatMap {content : List (ℕ × Message code)}
    (hsorted : content.Pairwise fun e e' => e.1 ≤ e'.1)
    (hrange : ∀ e ∈ content, p.first_core ≤ e.1 ∧ e.1 < p.max_core) :
    ((List.range' 0 p.locale_cores).flatMap fun i =>
      tagged (p.first_core + i) (forCore (p.first_core + i) content)) = content := by
  have hall := Distribute.sorted_eq_flatMap_filter (fun e : ℕ × Message code => e.1)
    p.locale_cores hsorted (k := p.first_core) hrange
  rw [← add_zero p.first_core, ← map_add_range', flatMap_map] at hall
  simp only [tagged_forCore]
  exact hall

theorem Holds.layout (mycore : ℕ) {b : SentBuffer} {content : List (ℕ × Message code)}
    (hb : Holds p b content)
    (hrange : ∀ e ∈ content, p.first_core ≤ e.1 ∧ e.1 < p.max_core) :
    Layout p mycore b content := by
  have hpayload : b.payload = (range' 0 p.locale_cores).flatMap fun i =>
      (forCore (p.first_core + i) content).flatMap Message.bytes := by
    rw [hb.payload]
    nth_rewrite 1 [← content_eq_flatMap hb.sorted hrange]
    unfold contentBytes
    rw [flatMap_assoc]
    apply flatMap_congr
    intro i _
    exact contentBytes_tagged _ _
  have hcounts := hb.counts
  rw [range_eq_range'] at hcounts
  refine ⟨hcounts, hpayload, hb.size, ?_, ?_⟩
  · rw [← slices_cores p.first_core content p.locale_cores 0 0, ← hcounts]
    exact (receive_buffer_perm mycore b).map Slice.core
  · intro s hs
    have hs' := (receive_buffer_perm mycore b).mem_iff.mp hs
    rw [hcounts] at hs'
    obtain ⟨hsize, before, after, hbuf, hsplit⟩ :=
      slices_split p.first_core content p.locale_cores 0 [] hs'
    rw [hpayload, ← hbuf, hsize]
    rw [nil_append] at hsplit
    rw [hsplit, drop_left]
    apply take_left'
    rw [length_flatMap_bytes]
    rfl

/-- **A received buffer is run once**: with payloads that fit the length field, the calls made
    are those of the content, each on its core. -/
theorem Holds.runs (mycore : ℕ) {b : SentBuffer} {content : List (ℕ × Message code)}
    (hb : Holds p b content)
    (hcontent : ∀ e ∈ content, p.first_core ≤ e.1 ∧ e.1 < p.max_core ∧
      e.2.destination = e.1 ∧ e.2.payload_size ≤ 32767) :
    ∃ calls, List.Forall₂ (Slice.Runs code b.payload) (receive_buffer p mycore b) calls ∧
      calls.flatten.Perm (content.map fun e => (e.1, e.2.call)) := by
  have hcounts := hb.counts
  rw [range_eq_range'] at hcounts
  have hpayload := (hb.layout mycore fun e he => ⟨(hcontent e he).1, (hcontent e he).2.1⟩).payload
  refine ⟨(receive_buffer p mycore b).map fun s => sliceCalls s.core content, ?_, ?_⟩
  · rw [forall₂_map_right_iff, forall₂_same]
    intro s hs
    rw [(receive_buffer_perm mycore b).mem_iff, hcounts] at hs
    obtain ⟨hsize, before, after, hbuf, hsplit⟩ :=
      slices_split p.first_core content p.locale_cores 0 [] hs
    rw [nil_append] at hsplit
    -- the messages of the slice are messages of the content
    have hmem : ∀ m ∈ forCore s.core content, (s.core, m) ∈ content := by
      intro m hm
      have hm' : (s.core, m) ∈ tagged s.core (forCore s.core content) := mem_map_of_mem hm
      rw [tagged_forCore] at hm'
      exact (mem_filter.mp hm').1
    refine ⟨(forCore s.core content).length, (forCore s.core content).map Message.call, ?_, ?_⟩
    · rw [hpayload, ← hbuf, hsize, hsplit]
      exact deaggregate_buffer_bytes (s.core : Core) (forCore s.core content)
        (fun m hm => (hcontent _ (hmem m hm)).2.2.1) (fun m hm => (hcontent _ (hmem m hm)).2.2.2)
        before after
    · unfold sliceCalls
      rw [map_map]
      rfl
  · rw [← flatMap_def]
    apply ((receive_buffer_perm mycore b).flatMap_right _).trans
    rw [hcounts, slices_flatMap p.first_core content (fun d => sliceCalls d content)]
    · -- the slices together are the content
      have hall := content_eq_flatMap hb.sorted
        fun e he => ⟨(hcontent e he).1, (hcontent e he).2.1⟩
      have hcalls : (content.map fun e => (e.1, e.2.call)) =
          (range' 0 p.locale_cores).flatMap fun i =>
            sliceCalls (p.first_core + i) content := by
        nth_rewrite 1 [← hall]
        rw [map_flatMap]
        apply flatMap_congr
        intro i _
        unfold tagged sliceCalls
        rw [map_map]
        rfl
      rw [hcalls]
    · intro d hd
      unfold sliceCalls
      rw [hd]
      rfl

end layout

/-! ### Delivery -/

section delivery

variable {code : Code}

/-- What a locale's messages are sent for: `send_locale` ends; its buffers together hold the
    messages of the lists once each, laid out in slices of the destination cores; and the slices
    that are handed out on the other side run every message once on its core. -/
def Delivers (p : SendParams) (mycore : ℕ) (lists : ℕ → ℕ → List (Message code)) : Prop :=
  ∃ steps s, (sendLocale p lists).run (.start p lists) steps = some s ∧ s.pc = .finished ∧
    ∃ contents, contents.flatten = allMessages p lists ∧
      List.Forall₂ (Layout p mycore) s.sent contents ∧
      ∃ calls, List.Forall₂ (fun b c => List.Forall₂ (Slice.Runs code b.payload)
          (receive_buffer p mycore b) c) s.sent calls ∧
        calls.flatten.flatten.Perm ((allMessages p lists).map fun e => (e.1, e.2.call))

/-- The layout of all buffers. -/
theorem layout_all {p : SendParams} (mycore : ℕ) {sent : List SentBuffer}
    {contents : List (List (ℕ × Message code))} (h : List.Forall₂ (Holds p) sent contents)
    (hrange : ∀ e ∈ contents.flatten, p.first_core ≤ e.1 ∧ e.1 < p.max_core) :
    List.Forall₂ (Layout p mycore) sent contents := by
  induction h with
  | nil => exact .nil
  | cons hb _ ih =>
    rw [flatten_cons] at hrange
    apply List.Forall₂.cons
    · exact hb.layout mycore fun e he => hrange e (mem_append_left _ he)
    · exact ih fun e he => hrange e (mem_append_right _ he)

theorem runs_all (p : SendParams) (mycore : ℕ) {sent : List SentBuffer}
    {contents : List (List (ℕ × Message code))} (h : List.Forall₂ (Holds p) sent contents)
    (hcontent : ∀ e ∈ contents.flatten, p.first_core ≤ e.1 ∧ e.1 < p.max_core ∧
      e.2.destination = e.1 ∧ e.2.payload_size ≤ 32767) :
    ∃ calls, List.Forall₂ (fun b c => List.Forall₂ (Slice.Runs code b.payload)
        (receive_buffer p mycore b) c) sent calls ∧
      calls.flatten.flatten.Perm (contents.flatten.map fun e => (e.1, e.2.call)) := by
  induction h with
  | nil => exact ⟨[], .nil, .nil⟩
  | cons hb _ ih =>
    rw [flatten_cons] at hcontent ⊢
    obtain ⟨calls, hruns, hperm⟩ := ih fun e he => hcontent e (mem_append_right _ he)
    obtain ⟨c, hc, hcperm⟩ := hb.runs mycore fun e he => hcontent e (mem_append_left _ he)
    refine ⟨c :: calls, .cons hc hruns, ?_⟩
    rw [flatten_cons, flatten_append, map_append]
    exact hcperm.append hperm

theorem Slice.Runs.payload_size {payload : List UInt8} {s : Slice} {calls : List (ℕ × Call)}
    (h : s.Runs code payload calls) {d : ℕ} {m : Message code} (hm : (d, m.call) ∈ calls) :
    m.payload_size ≤ 32767 := by
  obtain ⟨fuel, cs, hcs, rfl⟩ := h
  obtain ⟨c, hc, heq⟩ := mem_map.mp hm
  have hcall : m.call ∈ cs := by
    rw [← (Prod.mk.inj heq).2]
    exact hc
  exact payload_size_le_of_call hcs hcall

theorem exists_of_forall₂_mem {α β : Type} {R : α → β → Prop} {xs : List α} {ys : List β}
    (h : List.Forall₂ R xs ys) {y : β} (hy : y ∈ ys) : ∃ x, R x y := by
  induction h with
  | nil => cases hy
  | cons hxy _ ih =>
    rcases mem_cons.mp hy with rfl | hy
    · exact ⟨_, hxy⟩
    · exact ih hy

theorem Delivers.payload_size {p : SendParams} {mycore : ℕ} {lists : ℕ → ℕ → List (Message code)}
    (h : Delivers p mycore lists) {e : ℕ × Message code} (he : e ∈ allMessages p lists) :
    e.2.payload_size ≤ 32767 := by
  obtain ⟨_, _, -, -, _, -, -, calls, hruns, hperm⟩ := h
  have hcall : (e.1, e.2.call) ∈ calls.flatten.flatten := by
    rw [hperm.mem_iff]
    exact mem_map_of_mem he
  -- the call is one of a slice of some buffer
  obtain ⟨c, hc, hmem⟩ := mem_flatten.mp hcall
  obtain ⟨cs, hcs, hc⟩ := mem_flatten.mp hc
  obtain ⟨b, hb⟩ := exists_of_forall₂_mem hruns hcs
  obtain ⟨s, hs⟩ := exists_of_forall₂_mem hb hc
  exact hs.payload_size hmem

/-- **Locale delivery.**  With messages that each fit in a buffer, `send_locale` and
    `receive_buffer` deliver the lists if and only if every message carries a payload of at most
    32767 bytes. -/
theorem locale_delivery (code : Code) (p : SendParams) (mycore : ℕ)
    (lists : ℕ → ℕ → List (Message code)) (hlists : ListsSendable p lists) :
    Delivers p mycore lists ↔
      ∀ d c, p.first_core ≤ d → d < p.max_core → c < p.locale_cores →
        ∀ m ∈ lists d c, m.payload_size ≤ 32767 := by
  constructor
  · intro h d c hlo hhi hc m hm
    exact h.payload_size (e := (d, m)) (mem_allMessages.mpr ⟨hlo, hhi, c, hc, hm⟩)
  · intro hsize
    obtain ⟨steps, s, hrun, hpc, hall, hposted⟩ := sendLocale_finishes hlists
    have hcontent : ∀ e ∈ s.contents.flatten, p.first_core ≤ e.1 ∧ e.1 < p.max_core ∧
        e.2.destination = e.1 ∧ e.2.payload_size ≤ 32767 := by
      intro e he
      rw [hall] at he
      obtain ⟨hlo, hhi, c, hc, hm⟩ := mem_allMessages.mp he
      exact ⟨hlo, hhi, (hlists.all he).2.2.destination, hsize e.1 c hlo hhi hc e.2 hm⟩
    refine ⟨steps, s, hrun, hpc, s.contents, hall, ?_, ?_⟩
    · exact layout_all mycore hposted fun e he => ⟨(hcontent e he).1, (hcontent e he).2.1⟩
    · rw [← hall]
      exact runs_all p mycore hposted hcontent

end delivery

/-- A locale of two cores. -/
def twoCores : SendParams := ⟨2, by norm_num, 0, 88⟩

/-- So many messages of each core for core 1. -/
def messagesForOne (k n : ℕ) : ℕ → ℕ → List (Message oneDeserializer) :=
  fun d _ => if d = 1 then replicate k (zeroPayload n) else []

theorem mem_messagesForOne {k n d c : ℕ} {m : Message oneDeserializer} :
    m ∈ messagesForOne k n d c ↔ d = 1 ∧ k ≠ 0 ∧ m = zeroPayload n := by
  unfold messagesForOne
  split
  · next h => simp [h]
  · next h => simp [h]

theorem listsSendable_messagesForOne {k n : ℕ} (hn : n ≤ 500000) :
    ListsSendable twoCores (messagesForOne k n) := by
  intro d c _ _ _ m hm
  obtain ⟨rfl, -, rfl⟩ := mem_messagesForOne.mp hm
  refine ⟨rfl, ?_⟩
  rw [zeroPayload_serialized_size]
  have hmax : twoCores.get_max_size = 524168 := by decide
  omega

/-- Three buffers. -/
theorem locale_delivery_two_sources : Delivers twoCores 0 (messagesForOne 20 30000) := by
  apply (locale_delivery oneDeserializer twoCores 0 (messagesForOne 20 30000)
    (listsSendable_messagesForOne (by norm_num))).mpr
  intro d c _ _ _ m hm
  obtain ⟨-, -, rfl⟩ := mem_messagesForOne.mp hm
  rw [zeroPayload_payload_size]
  norm_num

/-- A message with a payload of 32768 bytes fits in a buffer and is not delivered. -/
theorem large_payload_not_delivered :
    ListsSendable twoCores (messagesForOne 1 32768) ∧
      ¬ Delivers twoCores 0 (messagesForOne 1 32768) := by
  refine ⟨listsSendable_messagesForOne (by norm_num), ?_⟩
  intro h
  have hle := h.payload_size (e := (1, zeroPayload 32768)) (mem_allMessages.mpr
    ⟨by decide, by decide, 0, by decide, mem_messagesForOne.mpr ⟨rfl, one_ne_zero, rfl⟩⟩)
  rw [zeroPayload_payload_size] at hle
  omega

end Grappa
