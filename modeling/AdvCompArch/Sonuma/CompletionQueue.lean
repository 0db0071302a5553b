import AdvCompArch.Lib.SenseRing
import AdvCompArch.Sonuma.SharedReceiveQueue
import Mathlib.Data.List.Forall2

/-! # Completion queues of remote procedure calls

    The daemon tells an application about a request, a response or a NACK by an entry of the
    completion queue of its queue pair; the application reads the entries in turn.  The two
    share a ring of entries with sense reversal.  Each kind of event sets some fields of the
    entry at the head and leaves the others as they are, and no kind resets `is_nack`. -/

namespace Sonuma

open Function Option

def MAX_NUM_WQ : ℕ := 64

theorem place_ne {i j : ℕ} (hij : i < j) (hj : j < i + MAX_NUM_WQ) :
    i % MAX_NUM_WQ ≠ j % MAX_NUM_WQ := by
  simp only [MAX_NUM_WQ] at *
  omega

def MAX_NODE_CNT : ℕ := 16

/-- The sense bit `SR` is 0 or 1. -/
structure CqEntry where
  SR : Bool
  tid : ℕ
  sending_nid : ℕ
  sending_qp : Option ℕ
  slot_idx : ℕ
  length : ℕ
  is_nack : Bool
  deriving DecidableEq

structure RmcCq where
  q : ℕ → CqEntry
  tail : ℕ
  SR : Bool
  connected : Bool

/-- The memory is cleared; all places have the sense that is not the one of the first round. -/
def alloc_cq : RmcCq := ⟨fun _ => ⟨false, 0, 0, some 0, 0, 0, false⟩, 0, true, false⟩

def kal_reg_cq (cq : RmcCq) : RmcCq := { cq with connected := true }

/-- What the daemon tells an application. -/
inductive CqEvent where
  /-- The dispatch of a request. -/
  | request (sending_nid : ℕ) (sending_qp : Option ℕ) (slot_idx length : ℕ)
  /-- The direct dispatch of a response. -/
  | response (sending_nid slot_idx length : ℕ)
  | nack (sending_nid : ℕ)
  deriving DecidableEq

/-- What the application is given: the arguments of the callback and the entry itself. -/
structure CqRead where
  sending_nid : ℕ
  sending_qp : Option ℕ
  slot_idx : ℕ
  length : ℕ
  is_nack : Bool
  deriving DecidableEq

namespace CqEvent

/-- The fields that are set in an entry. -/
def write : CqEvent → CqEntry → CqEntry
  | .request nid qp slot len, e =>
    { e with sending_nid := nid, sending_qp := qp, slot_idx := slot, length := len }
  | .response nid slot len, e => { e with sending_nid := nid, slot_idx := slot, length := len }
  | .nack nid, e => { e with sending_nid := nid, is_nack := true }

def isNack : CqEvent → Bool
  | .nack _ => true
  | _ => false

def sending_nid : CqEvent → ℕ
  | .request nid _ _ _ | .response nid _ _ | .nack nid => nid

/-- The slot and the length; a NACK has none. -/
def message : CqEvent → Option (ℕ × ℕ)
  | .request _ _ slot len | .response _ slot len => some (slot, len)
  | .nack _ => none

/-- The node is one of the nodes and the slot one of the slots. -/
def InRange (ev : CqEvent) : Prop :=
  ev.sending_nid < MAX_NODE_CNT ∧ ∀ m ∈ ev.message, m.1 < MAX_NUM_SRQ_SLOTS

instance (ev : CqEvent) : Decidable ev.InRange := inferInstanceAs (Decidable (_ ∧ _))

/-- The application is told what has happened. -/
structure Reads (ev : CqEvent) (r : CqRead) : Prop where
  is_nack : r.is_nack = ev.isNack
  sending_nid : r.sending_nid = ev.sending_nid
  message : ∀ m ∈ ev.message, (r.slot_idx, r.length) = m

end CqEvent

/-- `slot_idx` is given as a 16 bit number. -/
def CqEntry.read (e : CqEntry) : CqRead :=
  ⟨e.sending_nid, e.sending_qp, e.slot_idx % 2 ^ 16, e.length, e.is_nack⟩

namespace RmcCq

variable (cq : RmcCq)

/-- The entry at the tail has arrived. -/
def arrived : Bool := (cq.q cq.tail).SR == cq.SR

def advance_tail : RmcCq :=
  if cq.tail + 1 ≥ MAX_NUM_WQ then { cq with tail := 0, SR := !cq.SR }
  else { cq with tail := cq.tail + 1 }

theorem advance_tail_eq : cq.advance_tail =
    { cq with
      tail := if cq.tail + 1 ≥ MAX_NUM_WQ then 0 else cq.tail + 1
      SR := if cq.tail + 1 ≥ MAX_NUM_WQ then !cq.SR else cq.SR } := by
  unfold advance_tail
  split <;> rfl

/-- None while it waits for an entry. -/
def rmc_poll_cq_rpc : Option (CqRead × RmcCq) :=
  if cq.arrived then some ((cq.q cq.tail).read, cq.advance_tail) else none

/-- The entry is none, with a sending node of -1, when none has arrived. -/
def rmc_test_cq_rpc : Option CqRead × RmcCq :=
  if cq.arrived then (some (cq.q cq.tail).read, cq.advance_tail) else (none, cq)

end RmcCq

/-- A completion queue, its cursor in the daemon and what has happened to it. -/
structure CqRun where
  cq : RmcCq
  local_cq_head : ℕ
  local_cq_SR : Bool
  produced : List CqEvent
  read : List CqRead

namespace CqRun

inductive Label where
  | produce (ev : CqEvent)
  | poll
  | test

variable (s : CqRun)

/-- The entry at the head, `SR` set last. -/
def stored (ev : CqEvent) : CqEntry :=
  { ev.write (s.cq.q s.local_cq_head) with SR := s.local_cq_SR }

def produce (ev : CqEvent) : CqRun :=
  let q := Function.update s.cq.q s.local_cq_head (s.stored ev)
  let s := { s with cq := { s.cq with q := q }, produced := s.produced ++ [ev] }
  if s.local_cq_head + 1 ≥ MAX_NUM_WQ then
    { s with local_cq_head := 0, local_cq_SR := !s.local_cq_SR }
  else { s with local_cq_head := s.local_cq_head + 1 }

/-- At most `MAX_NUM_WQ` entries are unread. -/
def next : Label → Option CqRun
  | .produce ev =>
    if s.produced.length < s.read.length + MAX_NUM_WQ ∧ ev.InRange then some (s.produce ev) else none
  | .poll => s.cq.rmc_poll_cq_rpc.map fun r => { s with cq := r.2, read := s.read ++ [r.1] }
  | .test =>
    match s.cq.rmc_test_cq_rpc with
    | (some r, cq) => some { s with cq := cq, read := s.read ++ [r] }
    | (none, cq) => some { s with cq := cq }

def init : CqRun := ⟨kal_reg_cq alloc_cq, 0, true, [], []⟩

def system : Transition.System CqRun Label where
  init := init
  next := next

/-! ### What the ring holds -/

/-- The event at this number is a NACK. -/
def nackAt (i : ℕ) : Bool := s.produced[i]?.any CqEvent.isNack

/-- The entry tells of the event, but for its being a NACK. -/
def Told (ev : CqEvent) (r : CqRead) : Prop :=
  r.sending_nid = ev.sending_nid ∧ ∀ m ∈ ev.message, (r.slot_idx, r.length) = m

/-- The two cursors stand at the number of events produced and read, the entries of the last
    round tell of their events, and an entry is a NACK when an event at its place was one. -/
structure Inv : Prop where
  read_le : s.read.length ≤ s.produced.length
  unread_le : s.produced.length ≤ s.read.length + MAX_NUM_WQ
  head : s.local_cq_head = s.produced.length % MAX_NUM_WQ
  head_sense : s.local_cq_SR = SenseRing.sense MAX_NUM_WQ s.produced.length
  tail : s.cq.tail = s.read.length % MAX_NUM_WQ
  tail_sense : s.cq.SR = SenseRing.sense MAX_NUM_WQ s.read.length
  bits : ∀ k < MAX_NUM_WQ, (s.cq.q k).SR = SenseRing.shows MAX_NUM_WQ s.produced.length k
  nacks : ∀ k < MAX_NUM_WQ, (s.cq.q k).is_nack = true ↔
    ∃ i, i % MAX_NUM_WQ = k ∧ s.nackAt i = true
  entries : ∀ i ev, s.produced.length ≤ i + MAX_NUM_WQ → s.produced[i]? = some ev →
    Told ev (s.cq.q (i % MAX_NUM_WQ)).read
  told : ∀ (j : ℕ) r, s.read[j]? = some r → ∃ ev, s.produced[j]? = some ev ∧ Told ev r ∧
    (r.is_nack = true ↔ ∃ i ≤ j, i % MAX_NUM_WQ = j % MAX_NUM_WQ ∧ s.nackAt i = true)

variable {s} {s' : CqRun} {l : Label}

theorem init_inv : init.Inv where
  read_le := Nat.le_refl _
  unread_le := Nat.zero_le _
  head := rfl
  head_sense := rfl
  tail := rfl
  tail_sense := rfl
  bits := by simp [init, kal_reg_cq, alloc_cq]
  nacks := by simp [init, kal_reg_cq, alloc_cq, nackAt]
  entries := by simp [init]
  told := by simp [init]

/-- **An entry has arrived** exactly when one is unread. -/
theorem Inv.arrived_iff (hi : s.Inv) :
    s.cq.arrived = true ↔ s.read.length < s.produced.length := by
  rw [RmcCq.arrived, beq_iff_eq, hi.tail, hi.bits _ (Nat.mod_lt _ (by decide)), hi.tail_sense]
  exact SenseRing.shows_iff (by decide) hi.read_le hi.unread_le

/-! ### The entry at the head is written -/

theorem nackAt_snoc {ev : CqEvent} {i : ℕ}
    (hs' : s'.produced = s.produced ++ [ev]) :
    s'.nackAt i = true ↔ s.nackAt i = true ∨ i = s.produced.length ∧ ev.isNack = true := by
  unfold nackAt
  rw [hs']
  rcases Nat.lt_trichotomy i s.produced.length with hlt | rfl | hgt
  · simp [List.getElem?_append_left hlt, ne_of_lt hlt]
  · simp
  · have hnone : (s.produced ++ [ev])[i]? = none := by simp; omega
    have hnone' : s.produced[i]? = none := by simp; omega
    have hne : i ≠ s.produced.length := by omega
    simp [hnone, hnone', hne]

theorem write_is_nack (ev : CqEvent) (e : CqEntry) :
    (ev.write e).is_nack = true ↔ e.is_nack = true ∨ ev.isNack = true := by
  cases ev <;> simp [CqEvent.write, CqEvent.isNack]

theorem told_write {ev : CqEvent} (h : ev.InRange) (e : CqEntry) (sr : Bool) :
    Told ev { ev.write e with SR := sr }.read := by
  obtain ⟨-, hslot⟩ := h
  -- the slot fits in the byte that it is written to
  have hbyte {slot len : ℕ} (hm : (slot, len) ∈ ev.message) : slot < 256 := hslot (slot, len) hm
  cases ev with
  | request nid qp slot len =>
    refine ⟨rfl, fun m hm => ?_⟩
    obtain rfl := mem_some_iff.mp hm
    have hlt := hbyte hm
    simp only [CqEvent.write, CqEntry.read, Prod.mk.injEq, and_true]
    omega
  | response nid slot len =>
    refine ⟨rfl, fun m hm => ?_⟩
    obtain rfl := mem_some_iff.mp hm
    have hlt := hbyte hm
    simp only [CqEvent.write, CqEntry.read, Prod.mk.injEq, and_true]
    omega
  | nack nid => exact ⟨rfl, by simp [CqEvent.message]⟩

theorem produce_eq (ev : CqEvent) : s.produce ev =
    { s with
      cq := { s.cq with q := update s.cq.q s.local_cq_head (s.stored ev) }
      produced := s.produced ++ [ev]
      local_cq_head := if s.local_cq_head + 1 ≥ MAX_NUM_WQ then 0 else s.local_cq_head + 1
      local_cq_SR := if s.local_cq_head + 1 ≥ MAX_NUM_WQ then !s.local_cq_SR else s.local_cq_SR } := by
  unfold produce
  split <;> simp_all

/-- **An event is produced.** -/
theorem produce_inv (hi : s.Inv) {ev : CqEvent}
    (hroom : s.produced.length < s.read.length + MAX_NUM_WQ) (hev : ev.InRange) :
    (s.produce ev).Inv := by
  have hlen : (s.produced ++ [ev]).length = s.produced.length + 1 := by simp
  have hpos : 0 < MAX_NUM_WQ := by decide
  generalize hs' : s.produce ev = s'
  rw [produce_eq] at hs'
  have hprod : s'.produced = s.produced ++ [ev] := by rw [← hs']
  have hread : s'.read = s.read := by rw [← hs']
  have hhead : s.local_cq_head = s.produced.length % MAX_NUM_WQ := hi.head
  have hq : s'.cq.q =
      update s.cq.q (s.produced.length % MAX_NUM_WQ) (s.stored ev) := by
    rw [← hs', ← hhead]
  obtain ⟨hcursor, hsense⟩ := SenseRing.cursor_succ hpos hhead hi.head_sense
  constructor
  case read_le =>
    rw [hread, hprod, hlen]
    have := hi.read_le
    omega
  case unread_le =>
    rw [hread, hprod, hlen]
    omega
  case head =>
    rw [hprod, hlen, ← hs']
    exact hcursor
  case head_sense =>
    rw [hprod, hlen, ← hs']
    exact hsense
  case tail =>
    rw [hread, ← hs']
    exact hi.tail
  case tail_sense =>
    rw [hread, ← hs']
    exact hi.tail_sense
  case bits =>
    intro k hk
    rw [hprod, hlen, SenseRing.shows_succ hk, hq]
    by_cases hkh : k = s.produced.length % MAX_NUM_WQ
    · simp [hkh, stored, hi.head_sense]
    · simp [hkh, hi.bits k hk]
  case nacks =>
    intro k hk
    simp only [nackAt_snoc hprod]
    rw [hq]
    by_cases hkh : k = s.produced.length % MAX_NUM_WQ
    · rw [hkh, update_self, stored, write_is_nack, hhead, hi.nacks _ (Nat.mod_lt _ hpos)]
      constructor
      · rintro (⟨i, hik, hn⟩ | hn)
        · exact ⟨i, hik, .inl hn⟩
        · exact ⟨s.produced.length, rfl, .inr ⟨rfl, hn⟩⟩
      · rintro ⟨i, hik, hn | ⟨-, hn⟩⟩
        · exact .inl ⟨i, hik, hn⟩
        · exact .inr hn
    · rw [update_of_ne hkh, hi.nacks k hk]
      constructor
      · rintro ⟨i, hik, hn⟩
        exact ⟨i, hik, .inl hn⟩
      · rintro ⟨i, hik, hn | ⟨rfl, -⟩⟩
        · exact ⟨i, hik, hn⟩
        · exact absurd hik.symm hkh
  case entries =>
    intro i ev' hlast hget
    rw [hprod] at hlast hget
    rw [hlen] at hlast
    rw [hq]
    by_cases hinew : i = s.produced.length
    · subst hinew
      obtain rfl : ev = ev' := by simpa using hget
      rw [update_self]
      exact told_write hev _ _
    · -- an entry of the last round is at another place than the one that is written
      have hi_lt : i < s.produced.length := by
        have := (List.getElem?_eq_some_iff.mp hget).1
        rw [hlen] at this
        omega
      rw [List.getElem?_append_left hi_lt] at hget
      have hne : i % MAX_NUM_WQ ≠ s.produced.length % MAX_NUM_WQ := by
        simp only [MAX_NUM_WQ] at *
        omega
      rw [update_of_ne hne]
      exact hi.entries i ev' (by omega) hget
  case told =>
    intro j r hr
    rw [hread] at hr
    obtain ⟨ev', hget, htold, hnack⟩ := hi.told j r hr
    have hj : j < s.produced.length := (List.getElem?_eq_some_iff.mp hget).1
    refine ⟨ev', ?_, htold, ?_⟩
    · rw [hprod, List.getElem?_append_left hj]
      exact hget
    · rw [hnack]
      simp only [nackAt_snoc hprod]
      constructor
      · rintro ⟨i, hij, hmod, hn⟩
        exact ⟨i, hij, hmod, .inl hn⟩
      · rintro ⟨i, hij, hmod, hn | ⟨rfl, -⟩⟩
        · exact ⟨i, hij, hmod, hn⟩
        · omega

/-! ### The entry at the tail is read -/

/-- **An entry is read.** -/
theorem consume_inv (hi : s.Inv) (harrived : s.cq.arrived = true) :
    Inv { s with cq := s.cq.advance_tail, read := s.read ++ [(s.cq.q s.cq.tail).read] } := by
  have hlt := hi.arrived_iff.mp harrived
  have hpos : 0 < MAX_NUM_WQ := by decide
  have hlen (r : CqRead) : (s.read ++ [r]).length = s.read.length + 1 := by simp
  have hq : s.cq.advance_tail.q = s.cq.q := by rw [RmcCq.advance_tail_eq]
  have htail : s.cq.tail = s.read.length % MAX_NUM_WQ := hi.tail
  obtain ⟨hcursor, hsense⟩ := SenseRing.cursor_succ hpos htail hi.tail_sense
  constructor
  case read_le =>
    simp only [hlen]
    omega
  case unread_le =>
    simp only [hlen]
    have := hi.unread_le
    omega
  case head => exact hi.head
  case head_sense => exact hi.head_sense
  case tail =>
    simp only [hlen, RmcCq.advance_tail_eq]
    exact hcursor
  case tail_sense =>
    simp only [hlen, RmcCq.advance_tail_eq]
    exact hsense
  case bits =>
    simp only [hq]
    exact hi.bits
  case nacks =>
    simp only [hq]
    exact hi.nacks
  case entries =>
    simp only [hq]
    exact hi.entries
  case told =>
    intro j r hr
    rcases Nat.lt_trichotomy j s.read.length with hj | rfl | hj
    · rw [List.getElem?_append_left hj] at hr
      exact hi.told j r hr
    · obtain rfl : (s.cq.q s.cq.tail).read = r := by simpa using hr
      obtain ⟨ev, hget⟩ : ∃ ev, s.produced[s.read.length]? = some ev :=
        ⟨_, List.getElem?_eq_getElem hlt⟩
      have hbehind := hi.unread_le
      refine ⟨ev, hget, ?_, ?_⟩
      · rw [htail]
        exact hi.entries _ ev hbehind hget
      · change (s.cq.q s.cq.tail).is_nack = true ↔ _
        rw [htail, hi.nacks _ (Nat.mod_lt _ hpos)]
        constructor
        · rintro ⟨i, hmod, hn⟩
          -- no event of the round after this entry's has been produced
          have hi_lt : i < s.produced.length := by
            by_contra hge
            have hnone : s.produced[i]? = none := by simp; omega
            simp [nackAt, hnone] at hn
          refine ⟨i, ?_, hmod, hn⟩
          simp only [MAX_NUM_WQ] at *
          omega
        · rintro ⟨i, -, hmod, hn⟩
          exact ⟨i, hmod, hn⟩
    · have hnone : (s.read ++ [(s.cq.q s.cq.tail).read])[j]? = none := by simp; omega
      simp [hnone] at hr

theorem next_inv (hi : s.Inv) (h : s.next l = some s') : s'.Inv := by
  cases l with
  | produce ev =>
    obtain ⟨⟨hroom, hev⟩, rfl⟩ := ite_some_none_eq_some.mp h
    exact produce_inv hi hroom hev
  | poll =>
    obtain ⟨r, hr, rfl⟩ := map_eq_some_iff.mp h
    obtain ⟨harrived, rfl⟩ := ite_some_none_eq_some.mp hr
    exact consume_inv hi harrived
  | test =>
    unfold next RmcCq.rmc_test_cq_rpc at h
    cases harrived : s.cq.arrived with
    | true =>
      simp only [harrived, if_true] at h
      cases h
      exact consume_inv hi harrived
    | false =>
      simp only [harrived, Bool.false_eq_true, if_false] at h
      cases h
      exact hi

/-! ### The law -/

/-- What was read tells of the events in turn. -/
def Faithful (s : CqRun) : Prop :=
  List.Forall₂ CqEvent.Reads (s.produced.take s.read.length) s.read

/-- No request and no response that was read follows a NACK at the same place of the ring. -/
def NoStaleNack (s : CqRun) : Prop :=
  ∀ i j, i < j → j < s.read.length → i % MAX_NUM_WQ = j % MAX_NUM_WQ →
    s.nackAt i = true → s.nackAt j = true

theorem nackAt_of_get {j : ℕ} {ev : CqEvent} (h : s.produced[j]? = some ev) :
    s.nackAt j = ev.isNack := by
  simp [nackAt, h]

theorem Inv.faithful_iff (hi : s.Inv) : s.Faithful ↔ s.NoStaleNack := by
  unfold Faithful
  rw [List.forall₂_iff_get]
  constructor
  · intro ⟨_, hreads⟩ i j hij hj hmod hn
    have hj' : j < (s.produced.take s.read.length).length := by
      have := hi.read_le
      simp
      omega
    obtain ⟨ev, hget, -, hnack⟩ := hi.told j _ (List.getElem?_eq_getElem hj)
    have hev := (hreads j hj' hj).is_nack
    have heq : (s.produced.take s.read.length).get ⟨j, hj'⟩ = ev := by
      have := (List.getElem?_eq_some_iff.mp hget).2
      simpa using this
    rw [heq] at hev
    rw [nackAt_of_get hget, ← hev]
    exact hnack.mpr ⟨i, le_of_lt hij, hmod, hn⟩
  · intro hstale
    refine ⟨by simpa using hi.read_le, ?_⟩
    intro j hj' hj
    obtain ⟨ev, hget, ⟨hnid, hmsg⟩, hnack⟩ := hi.told j _ (List.getElem?_eq_getElem hj)
    have heq : (s.produced.take s.read.length).get ⟨j, hj'⟩ = ev := by
      have := (List.getElem?_eq_some_iff.mp hget).2
      simpa using this
    rw [heq]
    refine ⟨?_, hnid, hmsg⟩
    rw [Bool.eq_iff_iff]
    refine hnack.trans ⟨?_, ?_⟩
    · rintro ⟨i, hij, hmod, hn⟩
      rw [← nackAt_of_get hget]
      rcases Nat.lt_or_eq_of_le hij with hlt | rfl
      · exact hstale i j hlt hj hmod hn
      · exact hn
    · intro hn
      exact ⟨j, le_refl _, rfl, by rw [nackAt_of_get hget, hn]⟩

/-- **Completion entries are faithful** exactly when no request and no response that was read
    follows a NACK at its place of the ring; and an entry has arrived exactly when one is
    unread. -/
theorem cq_rpc_faithful_iff {ls : List Label} (hrun : system.run init ls = some s) :
    (s.cq.arrived = true ↔ s.read.length < s.produced.length) ∧ (s.Faithful ↔ s.NoStaleNack) := by
  have hi : s.Inv := Transition.System.Reachable.invariant Inv init_inv
    (fun _ _ _ hi h => next_inv hi h) ⟨ls, hrun⟩
  exact ⟨hi.arrived_iff, hi.faithful_iff⟩

/-- A request and a NACK are told and read. -/
theorem cq_rpc_two_events :
    let s := (init.produce (.request 1 (some 0) 5 64)).produce (.nack 2)
    let s' : CqRun := { s with
      cq := { s.cq with tail := 2 }
      read := [⟨1, some 0, 5, 64, false⟩, ⟨2, some 0, 0, 0, true⟩] }
    (s'.cq.arrived = true ↔ s'.read.length < s'.produced.length) ∧
      (s'.Faithful ↔ s'.NoStaleNack) :=
  @cq_rpc_faithful_iff _
    [.produce (.request 1 (some 0) 5 64), .poll, .produce (.nack 2), .test] rfl

/-- A NACK is read, 63 requests come after it, and the request at its place is read as a NACK. -/
theorem cq_rpc_stale_nack :
    ¬∀ ls s, system.run init ls = some s → s.Faithful := by
  intro h
  let ls : List Label := [.produce (.nack 1), .poll] ++
    (List.replicate 64 [.produce (.request 1 (some 0) 0 64), .poll]).flatten
  have hend : (system.run init ls).map (fun s => (s.read.length, s.nackAt 0, s.nackAt 64)) =
      some (65, true, false) := by decide +kernel
  obtain ⟨s, hrun, heq⟩ := map_eq_some_iff.mp hend
  simp only [Prod.mk.injEq] at heq
  obtain ⟨hlen, hfirst, hlast⟩ := heq
  have hi : s.Inv := Transition.System.Reachable.invariant Inv init_inv
    (fun _ _ _ hi h => next_inv hi h) ⟨ls, hrun⟩
  have := hi.faithful_iff.mp (h ls s hrun) 0 64 (by omega) (by omega) rfl hfirst
  rw [hlast] at this
  cases this

end CqRun

end Sonuma
