import AdvCompArch.Lib.Assignment
import AdvCompArch.Sonuma.CompletionQueue

/-! # Publication of sends and receives

    `rmc_send` and `rmc_recv` store the fields of an entry of the work queue one after the other.
    The sense bit, which tells the daemon that the entry is there, is not the last of them: two
    fields of each kind of entry are stored behind it.  One step is one store to or one load from
    the ring. -/

namespace Sonuma.Publication

open List

/-- The fields of an entry that sends and receives use. -/
inductive Field where
  | op | SR | valid | buf_addr | buf_offset | nid | length
  | slot_idx | qp_num_at_receiver | send_qp_terminate | dispatch_on_recv
  deriving DecidableEq

/-- Every field is a number: the code of a character, a flag as 0 or 1. -/
abbrev WqEntry := Field → ℕ

inductive Call where
  | rmc_send (lbuff_ptr : ℕ) (lbuff_offset : ℤ) (size : ℕ) (snid : ℤ) (sending_qp : ℕ)
      (send_qp_terminate : Bool)
  | rmc_recv (snid : ℤ) (sending_qp slot_idx : ℕ) (dispatch : Bool)

namespace Call

/-- The stores before that of the sense bit, in their order. -/
def before : Call → List (Field × ℕ)
  | .rmc_send lbuff_ptr lbuff_offset size snid _ _ =>
    [(.buf_addr, lbuff_ptr), (.buf_offset, (lbuff_offset % 18446744073709551616).toNat),
      (.length, if size < 64 then 64 else size), (.op, 's'.toNat),
      (.nid, (snid % 65536).toNat), (.valid, 1)]
  | .rmc_recv snid _ _ _ =>
    [(.length, 64), (.op, 'g'.toNat), (.nid, (snid % 65536).toNat), (.valid, 1)]

/-- The stores after that of the sense bit. -/
def after : Call → List (Field × ℕ)
  | .rmc_send _ _ _ _ sending_qp send_qp_terminate =>
    [(.qp_num_at_receiver, sending_qp), (.send_qp_terminate, send_qp_terminate.toNat)]
  | .rmc_recv _ _ slot_idx dispatch =>
    [(.slot_idx, slot_idx), (.dispatch_on_recv, dispatch.toNat)]

/-- All stores of a call, with the sense bit of the queue. -/
def stores (c : Call) (SR : Bool) : List (Field × ℕ) := c.before ++ (.SR, SR.toNat) :: c.after

/-- The value of a field that the call was given; a call does not give every field. -/
def given (c : Call) (f : Field) : Option ℕ := (c.before ++ c.after).lookup f

end Call

/-- Where the application stands. -/
inductive AppPc where
  | idle
  /-- Before the load of the valid bit at the head. -/
  | wait (c : Call)
  /-- Before these stores; after the last one the cursor goes on. -/
  | post (rest : List (Field × ℕ))

/-- Where the daemon stands. -/
inductive DaemonPc where
  /-- Before the load of the sense bit at the tail. -/
  | poll
  /-- Before the load of the operation. -/
  | switch
  /-- Before these loads. -/
  | load (rest : List Field)
  /-- Before the second load of the operation, after which the cursor goes on. -/
  | notify
  /-- Before the store of the valid bit at the place of the entry. -/
  | clear (curr : ℕ)

/-- The field that is loaded next, if it is one of an entry that was found. -/
def DaemonPc.loads : DaemonPc → Option Field
  | .switch | .notify => some .op
  | .load (f :: _) => some f
  | _ => none

/-- What is loaded to send a message: the number of the receiver's queue pair only if the message
    terminates there. -/
def sendLoads : List Field :=
  [.nid, .send_qp_terminate, .send_qp_terminate, .qp_num_at_receiver, .slot_idx, .op, .buf_offset,
    .length]

/-- What is loaded to free a slot. -/
def recvLoads : List Field := [.nid, .slot_idx, .op, .dispatch_on_recv, .slot_idx]

/-- The loads that are left after a field was found to have a value. -/
def following : Field → ℕ → List Field → List Field
  | .send_qp_terminate, 0, .qp_num_at_receiver :: rest => rest
  | _, _, rest => rest

/-- A work queue with its application and the daemon; and the calls that went past the wait for
    the valid bit, the number of them that have returned, and of entries the daemon is done with. -/
structure State where
  q : ℕ → WqEntry
  head : ℕ
  SR : Bool
  app : AppPc
  daemon : DaemonPc
  local_wq_tail : ℕ
  local_wq_SR : Bool
  calls : List Call
  returned : ℕ
  processed : ℕ

namespace State

variable (s : State)

/-- One field of one place of the ring is stored. -/
def set (k : ℕ) (f : Field) (v : ℕ) : State :=
  { s with q := Function.update s.q k (Function.update (s.q k) f v) }

/-- The application's cursor goes on, and the call returns. -/
def advance_head : State :=
  { s with
    head := if s.head + 1 ≥ MAX_NUM_WQ then 0 else s.head + 1
    SR := if s.head + 1 ≥ MAX_NUM_WQ then !s.SR else s.SR
    app := .idle
    returned := s.returned + 1 }

/-- The next step of the application in its call. -/
def appStep : Option State :=
  match s.app with
  | .idle => none
  | .wait c =>
    if s.q s.head .valid ≠ 0 then some s
    else some { s with app := .post (c.stores s.SR), calls := s.calls ++ [c] }
  | .post [] => some s.advance_head
  | .post ((f, v) :: rest) => some { s.set s.head f v with app := .post rest }

/-- The entry that the daemon works on, or waits for. -/
def curr : WqEntry := s.q s.local_wq_tail

/-- The daemon's cursor goes on. -/
def advance_tail : State :=
  { s with
    local_wq_tail := if s.local_wq_tail + 1 ≥ MAX_NUM_WQ then 0 else s.local_wq_tail + 1
    local_wq_SR := if s.local_wq_tail + 1 ≥ MAX_NUM_WQ then !s.local_wq_SR else s.local_wq_SR
    daemon := .clear s.local_wq_tail
    processed := s.processed + 1 }

def daemonStep : State :=
  match s.daemon with
  | .poll => if s.curr .SR = s.local_wq_SR.toNat then { s with daemon := .switch } else s
  | .switch =>
    if s.curr .op = 's'.toNat then { s with daemon := .load sendLoads }
    else if s.curr .op = 'g'.toNat then { s with daemon := .load recvLoads }
    else { s with daemon := .notify }
  | .load [] => { s with daemon := .notify }
  | .load (f :: rest) => { s with daemon := .load (following f (s.curr f) rest) }
  | .notify =>
    if s.curr .op = 's'.toNat ∨ s.curr .op = 'g'.toNat then s.advance_tail
    else { s with daemon := .poll }
  | .clear curr => { s.set curr .valid 0 with daemon := .poll }

end State

inductive Label where
  | call (c : Call)
  /-- The application goes on in its call. -/
  | app
  | daemon

namespace State

variable (s : State)

def next : Label → Option State
  | .call c =>
    match s.app with
    | .idle => some { s with app := .wait c }
    | _ => none
  | .app => s.appStep
  | .daemon => some s.daemonStep

/-- A cleared queue; the daemon waits for the sense of the first round. -/
def init : State where
  q _ _ := 0
  head := 0
  SR := true
  app := .idle
  daemon := .poll
  local_wq_tail := 0
  local_wq_SR := true
  calls := []
  returned := 0
  processed := 0

def system : Transition.System State Label where
  init := init
  next := next

/-- The daemon loads what the call that stores the entry was given. -/
def Faithful : Label → Prop
  | .daemon => ∀ f ∈ s.daemon.loads, ∃ c ∈ s.calls[s.processed]?, ∀ v ∈ c.given f, s.curr f = v
  | _ => True

/-- The daemon does not overtake the application: of an entry whose call has not returned, a field
    that is still to be stored is loaded only if it has the value already. -/
def Settled : Label → Prop
  | .daemon => ∀ f ∈ s.daemon.loads, ∀ rest, s.app = .post rest → s.local_wq_tail = s.head →
      ∀ v, (f, v) ∈ rest → s.curr f = v
  | _ => True

end State

/-! ### The stores of a call -/

section stores

variable {c : Call} {SR : Bool} {f : Field} {v : ℕ}

theorem Call.nodup_stores (c : Call) (SR : Bool) : ((c.stores SR).map Prod.fst).Nodup := by
  cases c <;> simp [stores, before, after]

theorem Call.mem_stores (hf : f ≠ .SR) : (f, v) ∈ c.stores SR ↔ c.given f = some v := by
  have hnodup : ((c.before ++ c.after).map Prod.fst).Nodup := by
    cases c <;> simp [before, after]
  rw [given, Assignment.lookup_eq_some_iff_mem hnodup, stores]
  simp [hf]

theorem Call.eq_of_mem_SR (h : (.SR, v) ∈ c.stores SR) : v = SR.toNat := by
  cases c <;> simpa [stores, before, after] using h

theorem Call.given_SR : c.given .SR = none := by
  cases c <;> rfl

theorem Call.given_valid : c.given .valid = some 1 := by
  cases c <;> rfl

end stores

namespace State

variable (s : State)

/-- A field of the entry of the current call is still to be stored. -/
def Pending (f : Field) : Prop :=
  match s.app with
  | .post rest => f ∈ rest.map Prod.fst
  | _ => False

/-- The entries whose sense bits have been stored. -/
def Published (n : ℕ) : Prop :=
  s.Pending .SR ∧ n = s.returned ∨ ¬s.Pending .SR ∧ n = s.calls.length

/-- The entries whose valid bits have been cleared. -/
def cleared : ℕ :=
  match s.daemon with
  | .clear _ => s.processed - 1
  | _ => s.processed

/-- What holds where the application stands. -/
def AppOk : Prop :=
  match s.app with
  | .post rest => s.calls.length = s.returned + 1 ∧
      ∃ c, s.calls[s.returned]? = some c ∧ ∃ done, done ++ rest = c.stores s.SR
  | _ => s.calls.length = s.returned

/-- What holds where the daemon stands when `n` entries have been published. -/
def DaemonOk (n : ℕ) : Prop :=
  match s.daemon with
  | .poll => s.processed ≤ n
  | .clear curr => s.processed ≤ n ∧ 0 < s.processed ∧
      curr = (s.processed - 1) % MAX_NUM_WQ
  | _ => s.processed < n

/-- **The invariant.** -/
structure Inv (n : ℕ) : Prop where
  published : s.Published n
  app : s.AppOk
  daemon : s.DaemonOk n
  bounded : s.calls.length ≤ s.cleared + MAX_NUM_WQ
  head : s.head = s.returned % MAX_NUM_WQ
  sense : s.SR = SenseRing.sense MAX_NUM_WQ s.returned
  tail : s.local_wq_tail = s.processed % MAX_NUM_WQ
  tail_sense : s.local_wq_SR = SenseRing.sense MAX_NUM_WQ s.processed
  bits : ∀ k < MAX_NUM_WQ, s.q k .SR = (SenseRing.shows MAX_NUM_WQ n k).toNat
  -- until its valid bit is cleared, an entry has what its call was given and has stored
  held : ∀ i c f v, s.cleared ≤ i → s.calls[i]? = some c → c.given f = some v →
    (s.Pending f → i < s.returned) → s.q (i % MAX_NUM_WQ) f = v

variable {s} {n : ℕ}

theorem init_inv : init.Inv 0 where
  published := .inr ⟨fun h => h, rfl⟩
  app := rfl
  daemon := Nat.le_refl _
  bounded := Nat.zero_le _
  head := rfl
  sense := rfl
  tail := rfl
  tail_sense := rfl
  bits k _ := by rw [SenseRing.shows_zero]; rfl
  held i c f v _ hc := by simp [init] at hc

/-! ### The application -/

theorem call_inv {c : Call} (hi : s.Inv n) (happ : s.app = .idle) :
    Inv { s with app := .wait c } n :=
  { hi with
    published := by simpa [Published, Pending, happ] using hi.published
    app := by simpa [AppOk, happ] using hi.app
    daemon := hi.daemon
    held := fun i c f v hlo hc hgiven _ =>
      hi.held i c f v hlo hc hgiven (by simp [Pending, happ]) }

/-- **The entry at the head is free** when its valid bit is found to be cleared. -/
theorem enter_inv {c : Call} (hi : s.Inv n) (happ : s.app = .wait c)
    (hvalid : s.q s.head .valid = 0) :
    Inv { s with app := .post (c.stores s.SR), calls := s.calls ++ [c] } n := by
  have hlen : s.calls.length = s.returned := by simpa [AppOk, happ] using hi.app
  have hn : n = s.calls.length := by simpa [Published, Pending, happ] using hi.published
  have hfree : s.calls.length < s.cleared + MAX_NUM_WQ := by
    rcases Nat.lt_or_eq_of_le hi.bounded with hlt | heq
    · exact hlt
    · -- the place is the one of the first entry that is not cleared
      have hround : 0 < MAX_NUM_WQ := by decide
      have hlt : s.cleared < s.calls.length := by omega
      have hset := hi.held _ _ .valid 1 (le_refl _) (getElem?_eq_getElem hlt)
        Call.given_valid (by simp [Pending, happ])
      rw [hi.head, ← hlen, heq, Nat.add_mod_right, hset] at hvalid
      exact absurd hvalid Nat.one_ne_zero
  exact
  { hi with
    published := .inl ⟨by simp [Pending, Call.stores], hn.trans hlen⟩
    app := by
      refine ⟨by simp [hlen], c, by simp [hlen], [], rfl⟩
    daemon := hi.daemon
    bounded := by
      rw [length_append]
      exact hfree
    held := by
      intro i c' f v hlo hc' hgiven hpending
      by_cases hold : i < s.calls.length
      · rw [getElem?_append_left hold] at hc'
        exact hi.held i c' f v hlo hc' hgiven (by simp [Pending, happ])
      · -- nothing of the new entry is stored
        rw [getElem?_append_right (by omega), getElem?_singleton] at hc'
        split_ifs at hc'
        cases hc'
        have hf : f ≠ .SR := by
          rintro rfl
          simp [Call.given_SR] at hgiven
        have hmem : (f, v) ∈ c.stores s.SR := (Call.mem_stores hf).mpr hgiven
        have hlt : i < s.returned := hpending (mem_map.mpr ⟨_, hmem, rfl⟩)
        omega }

theorem set_q (k : ℕ) (f : Field) (v j : ℕ) (g : Field) :
    (s.set k f v).q j g = if j = k ∧ g = f then v else s.q j g := by
  change Function.update s.q k _ j g = _
  rw [Function.update_apply]
  split_ifs with hj hboth hboth
  · rw [hboth.2, Function.update_self]
  · have hg : g ≠ f := fun hg => hboth ⟨hj, hg⟩
    rw [Function.update_of_ne hg, hj]
  · exact absurd hboth.1 hj
  · rfl

theorem DaemonOk.mono {m : ℕ} (h : s.DaemonOk n) (hle : n ≤ m) : s.DaemonOk m := by
  unfold DaemonOk at *
  split at h
  · exact h.trans hle
  · exact ⟨h.1.trans hle, h.2⟩
  · exact lt_of_lt_of_le h hle

theorem Inv.posting {rest : List (Field × ℕ)} (hi : s.Inv n) (happ : s.app = .post rest) :
    s.calls.length = s.returned + 1 ∧
      ∃ c, s.calls[s.returned]? = some c ∧ ∃ done, done ++ rest = c.stores s.SR := by
  simpa [AppOk, happ] using hi.app

/-- A field is stored: if it is the sense bit, one more entry is published. -/
theorem store_inv {f : Field} {v : ℕ} {rest : List (Field × ℕ)} (hi : s.Inv n)
    (happ : s.app = .post ((f, v) :: rest)) :
    Inv { s.set s.head f v with app := .post rest } (if f = .SR then n + 1 else n) := by
  obtain ⟨hlen, c, hc, done, hstores⟩ := hi.posting happ
  have hpub : (f = .SR ∨ .SR ∈ rest.map Prod.fst) ∧ n = s.returned ∨
      ¬(f = .SR ∨ .SR ∈ rest.map Prod.fst) ∧ n = s.calls.length := by
    simpa [Published, Pending, happ, eq_comm] using hi.published
  have hmem : (f, v) ∈ c.stores s.SR := hstores ▸ mem_append_right _ mem_cons_self
  have hnot : f ∉ rest.map Prod.fst := by
    have hnodup := c.nodup_stores s.SR
    rw [← hstores, map_append] at hnodup
    exact (nodup_cons.mp (nodup_append.mp hnodup).2.1).1
  exact
  { hi with
    published := by
      split_ifs with hf
      · subst hf
        refine .inr ⟨hnot, ?_⟩
        rcases hpub with ⟨-, hn⟩ | ⟨hno, -⟩
        · exact hn ▸ hlen.symm
        · exact absurd (.inl rfl) hno
      · exact hpub.imp (fun h => ⟨h.1.resolve_left hf, h.2⟩)
          (fun h => ⟨fun hrest => h.1 (.inr hrest), h.2⟩)
    app := ⟨hlen, c, hc, done ++ [(f, v)], (append_assoc ..).trans hstores⟩
    daemon := by
      have hmono := DaemonOk.mono (m := if f = .SR then n + 1 else n) hi.daemon
        (by split_ifs <;> omega)
      exact hmono
    bits := by
      intro k hk
      change (s.set s.head f v).q k .SR = _
      rw [set_q, hi.bits k hk]
      by_cases hf : f = .SR
      · subst hf
        have hn : n = s.returned := by
          rcases hpub with ⟨-, hn⟩ | ⟨hno, -⟩
          · exact hn
          · exact absurd (.inl rfl) hno
        rw [if_pos rfl, SenseRing.shows_succ hk, Call.eq_of_mem_SR hmem, hi.head, hi.sense, hn]
        split_ifs with h1 h2 h2
        · rfl
        · exact absurd h1.1 h2
        · exact absurd ⟨h2, rfl⟩ h1
        · rfl
      · rw [if_neg hf, if_neg fun h => hf h.2.symm]
    held := by
      intro i c' g w hlo hc' hgiven hpending
      have hlt : i < s.calls.length := (List.getElem?_eq_some_iff.mp hc').1
      have hbounded := hi.bounded
      change (s.set s.head f v).q _ g = w
      rw [set_q, hi.head]
      split_ifs with hsame
      · obtain ⟨hplace, rfl⟩ := hsame
        have hcur : i = s.returned := by
          by_contra hne
          have hlo : s.cleared ≤ i := hlo
          exact place_ne (by omega) (by omega) hplace
        subst hcur
        obtain rfl : c = c' := Option.some.inj (hc.symm.trans hc')
        have hf : g ≠ .SR := by
          rintro rfl
          simp [Call.given_SR] at hgiven
        exact Option.some.inj (((Call.mem_stores hf).mp hmem).symm.trans hgiven)
      · refine hi.held i c' g w hlo hc' hgiven fun hold => ?_
        have hold : g ∈ ((f, v) :: rest).map Prod.fst := by simpa only [Pending, happ] using hold
        rcases mem_cons.mp hold with rfl | hrest
        · by_contra hge
          exact hsame ⟨by rw [show i = s.returned by omega], rfl⟩
        · exact hpending hrest }

theorem return_inv (hi : s.Inv n) (happ : s.app = .post []) : s.advance_head.Inv n := by
  have hlen := (hi.posting happ).1
  have hcursor := SenseRing.cursor_succ (by decide) hi.head hi.sense
  exact
  { hi with
    published := by simpa [Published, Pending, happ, advance_head] using hi.published
    app := hlen
    daemon := hi.daemon
    bounded := hi.bounded
    head := hcursor.1
    sense := hcursor.2
    held := fun i c f v hlo hc hgiven _ =>
      hi.held i c f v hlo hc hgiven (by simp [Pending, happ]) }

theorem app_inv (hi : s.Inv n) {s' : State} (h : s.appStep = some s') : ∃ m, s'.Inv m := by
  rw [appStep] at h
  split at h
  · cases h
  · next c happ =>
    split at h
    · cases h
      exact ⟨n, hi⟩
    · next hvalid =>
      cases h
      exact ⟨n, enter_inv hi happ (not_not.mp hvalid)⟩
  · next happ =>
    cases h
    exact ⟨n, return_inv hi happ⟩
  · next f v rest happ =>
    cases h
    exact ⟨_, store_inv hi happ⟩

/-! ### The daemon -/

theorem Inv.le_calls (hi : s.Inv n) :
    s.returned ≤ n ∧ n ≤ s.calls.length ∧ s.calls.length ≤ s.returned + 1 := by
  have happ := hi.app
  have hpub := hi.published
  unfold AppOk at happ
  unfold Published at hpub
  split at happ
  · omega
  · omega

theorem toNat_inj {a b : Bool} : a.toNat = b.toNat ↔ a = b := by
  cases a <;> cases b <;> decide

theorem Inv.found_iff (hi : s.Inv n) (hle : s.processed ≤ n) :
    s.curr .SR = s.local_wq_SR.toNat ↔ s.processed < n := by
  have hlt : s.processed % MAX_NUM_WQ < MAX_NUM_WQ := Nat.mod_lt _ (by decide)
  have hbehind : n ≤ s.processed + MAX_NUM_WQ := by
    have hn := hi.le_calls
    have hbounded := hi.bounded
    have hcleared : s.cleared ≤ s.processed := by
      unfold cleared
      split
      · exact Nat.sub_le _ _
      · exact le_refl _
    omega
  rw [curr, hi.tail, hi.bits _ hlt, hi.tail_sense, ← SenseRing.shows_iff (by decide) hle hbehind]
  exact toNat_inj

theorem Inv.move (hi : s.Inv n) {pc : DaemonPc}
    (hcleared : cleared { s with daemon := pc } = s.cleared) (hpc : DaemonOk { s with daemon := pc } n) :
    Inv { s with daemon := pc } n :=
  { hi with
    published := hi.published
    app := hi.app
    daemon := hpc
    bounded := hcleared ▸ hi.bounded
    held := by
      rw [hcleared]
      exact hi.held }

theorem advance_inv (hi : s.Inv n) (hdaemon : s.daemon = .notify) : s.advance_tail.Inv n := by
  have hlt : s.processed < n := by simpa [DaemonOk, hdaemon] using hi.daemon
  have hcleared : s.cleared = s.processed := by simp [cleared, hdaemon]
  have hcursor := SenseRing.cursor_succ (by decide) hi.tail hi.tail_sense
  exact
  { hi with
    published := hi.published
    app := hi.app
    daemon := ⟨hlt, Nat.succ_pos _, hi.tail⟩
    bounded := by
      have hbounded := hi.bounded
      rwa [hcleared] at hbounded
    tail := hcursor.1
    tail_sense := hcursor.2
    held := fun i c f v hlo => hi.held i c f v (hcleared.trans_le hlo) }

theorem clear_inv {k : ℕ} (hi : s.Inv n) (hdaemon : s.daemon = .clear k) :
    Inv { s.set k .valid 0 with daemon := .poll } n := by
  obtain ⟨hle, hpos, hk⟩ : s.processed ≤ n ∧ 0 < s.processed ∧
      k = (s.processed - 1) % MAX_NUM_WQ := by
    simpa [DaemonOk, hdaemon] using hi.daemon
  have hcleared : s.cleared = s.processed - 1 := by simp [cleared, hdaemon]
  have hbounded := hi.bounded
  exact
  { hi with
    published := hi.published
    app := hi.app
    daemon := hle
    bounded := by
      change s.calls.length ≤ s.processed + MAX_NUM_WQ
      omega
    bits := by
      intro j hj
      change (s.set k .valid 0).q j .SR = _
      rw [set_q, if_neg (by simp)]
      exact hi.bits j hj
    held := by
      intro i c f v hlo hc hgiven hpending
      have hlo : s.processed ≤ i := hlo
      have hlt := (List.getElem?_eq_some_iff.mp hc).1
      have hlt : i < s.calls.length := hlt
      change (s.set k .valid 0).q _ f = v
      rw [set_q, if_neg]
      · exact hi.held i c f v (by omega) hc hgiven hpending
      · rintro ⟨hplace, -⟩
        exact place_ne (i := s.processed - 1) (j := i) (by omega) (by omega)
          (hk.symm.trans hplace.symm) }

theorem daemon_inv (hi : s.Inv n) : s.daemonStep.Inv n := by
  unfold daemonStep
  split
  · next hdaemon =>
    have hle : s.processed ≤ n := by simpa [DaemonOk, hdaemon] using hi.daemon
    split_ifs with hfound
    · exact hi.move (by simp [cleared, hdaemon]) ((hi.found_iff hle).mp hfound)
    · exact hi
  · next hdaemon =>
    have hlt : s.processed < n := by simpa [DaemonOk, hdaemon] using hi.daemon
    split_ifs
    all_goals exact hi.move (by simp [cleared, hdaemon]) hlt
  · next hdaemon =>
    have hlt : s.processed < n := by simpa [DaemonOk, hdaemon] using hi.daemon
    exact hi.move (by simp [cleared, hdaemon]) hlt
  · next hdaemon =>
    have hlt : s.processed < n := by simpa [DaemonOk, hdaemon] using hi.daemon
    exact hi.move (by simp [cleared, hdaemon]) hlt
  · next hdaemon =>
    have hlt : s.processed < n := by simpa [DaemonOk, hdaemon] using hi.daemon
    split_ifs
    · exact advance_inv hi hdaemon
    · exact hi.move (by simp [cleared, hdaemon]) hlt.le
  · next hdaemon => exact clear_inv hi hdaemon

theorem next_inv (hi : s.Inv n) {l : Label} {s' : State} (h : s.next l = some s') :
    ∃ m, s'.Inv m := by
  cases l with
  | call c =>
    rw [next] at h
    split at h
    · next happ =>
      cases h
      exact ⟨n, call_inv hi happ⟩
    · cases h
  | app => exact app_inv hi h
  | daemon =>
    cases h
    exact ⟨n, daemon_inv hi⟩

theorem Inv.loads_lt (hi : s.Inv n) {f : Field} (hf : f ∈ s.daemon.loads) :
    s.processed < n ∧ s.cleared = s.processed := by
  have hdaemon := hi.daemon
  unfold DaemonOk at hdaemon
  unfold cleared
  unfold DaemonPc.loads at hf
  cases hpc : s.daemon with
  | poll => simp [hpc] at hf
  | clear curr => simp [hpc] at hf
  | switch => simpa [hpc] using hdaemon
  | load rest => simpa [hpc] using hdaemon
  | notify => simpa [hpc] using hdaemon

/-- **Exact condition** for one step: the daemon loads what was given if and only if it does not
    overtake the store of another value. -/
theorem Inv.faithful_iff (hi : s.Inv n) (l : Label) : s.Faithful l ↔ s.Settled l := by
  cases l with
  | call c => exact Iff.rfl
  | app => exact Iff.rfl
  | daemon =>
    refine forall₂_congr fun f hf => ?_
    obtain ⟨hlt, hcleared⟩ := hi.loads_lt hf
    obtain ⟨hret, hcalls, hone⟩ := hi.le_calls
    have hc : s.calls[s.processed]? = some s.calls[s.processed] :=
      getElem?_eq_getElem (by omega)
    constructor
    · rintro ⟨c, hc, hgiven⟩ rest happ hplace v hv
      obtain ⟨hlen, c', hc', done, hstores⟩ := hi.posting happ
      have hcur : s.processed = s.returned := by
        by_contra hne
        have hbounded := hi.bounded
        exact place_ne (i := s.processed) (j := s.returned) (by omega) (by omega)
          (hi.tail.symm.trans (hplace.trans hi.head))
      rw [← hcur] at hc'
      obtain rfl : c = c' := Option.some.inj ((Option.mem_def.mp hc).symm.trans hc')
      have hf : f ≠ .SR := by
        -- the sense bit of the current entry has been stored
        rintro rfl
        have hpending : s.Pending .SR := by
          rw [Pending, happ]
          exact mem_map.mpr ⟨_, hv, rfl⟩
        rcases hi.published with ⟨-, hn⟩ | ⟨hno, -⟩
        · omega
        · exact hno hpending
      exact hgiven v ((Call.mem_stores hf).mp (hstores ▸ mem_append_right _ hv))
    · intro hsettled
      refine ⟨_, hc, fun v hv => ?_⟩
      by_cases hpending : s.Pending f ∧ s.returned ≤ s.processed
      · obtain ⟨hp, hge⟩ := hpending
        have hcur : s.processed = s.returned := by omega
        unfold Pending at hp
        split at hp
        · next rest happ =>
          obtain ⟨-, c', hc', done, hstores⟩ := hi.posting happ
          obtain ⟨⟨f', w⟩, hw, rfl⟩ := mem_map.mp hp
          rw [← hcur, hc] at hc'
          cases hc'
          have hf : f' ≠ .SR := by
            rintro rfl
            simp [Call.given_SR] at hv
          have hgiven := (Call.mem_stores hf).mp (hstores ▸ mem_append_right _ hw)
          rw [hsettled rest happ (hi.tail.trans (hcur ▸ hi.head.symm)) w hw]
          exact Option.some.inj (hgiven.symm.trans hv)
        · exact hp.elim
      · rw [curr, hi.tail]
        exact hi.held _ _ f v hcleared.le hc hv fun hp => by
          by_contra hge
          exact hpending ⟨hp, by omega⟩

/-- **Publication**: in every run of the application and the daemon, every load of a field of an
    entry finds what the call was given, if and only if no load overtakes the store of another value
    into the field. -/
theorem published_iff_settled (ls : List Label) :
    system.Always Faithful init ls ↔ system.Always Settled init ls := by
  refine Transition.System.always_congr (fun s => ∃ n, s.Inv n) ?_ ?_ ⟨0, init_inv⟩ ls
  · rintro s l s' ⟨n, hi⟩ h
    exact next_inv hi h
  · rintro s l ⟨n, hi⟩
    exact hi.faithful_iff l

instance decidableFaithful : ∀ (s : State) (l : Label), Decidable (s.Faithful l)
  | s, .daemon => inferInstanceAs (Decidable (∀ f ∈ s.daemon.loads,
      ∃ c ∈ s.calls[s.processed]?, ∀ v ∈ c.given f, s.curr f = v))
  | _, .call _ => isTrue trivial
  | _, .app => isTrue trivial

/-- A message that terminates at the receiver's queue pair 5: the daemon finds the entry and sends
    the message before the two last stores, and takes the flag for unset. -/
theorem rmc_send_overtaken : ¬system.Always Faithful init
    ([.call (.rmc_send 0 0 64 1 5 true)] ++ replicate 8 .app ++ replicate 4 .daemon) := by
  decide +kernel

end State

end Sonuma.Publication
