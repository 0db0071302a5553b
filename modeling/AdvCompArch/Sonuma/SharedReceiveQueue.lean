import AdvCompArch.Lib.Transition

/-! # The shared receive queue

    The daemon keeps the messages of all remote nodes in one ring of slots.  A message is
    entered at `head`; the application frees a slot when it is done with it, in any order,
    and `tail` then moves over the freed slots.  `head = tail` means an empty or a full ring,
    which the flag `full` tells apart. -/

namespace Sonuma

open Function Option

def MAX_NUM_SRQ_SLOTS : ℕ := 256

/-- All metadata used for making the CQ entry later upon dispatch. -/
structure RpcSrqEntry where
  sending_nid : ℕ
  /-- Not set in the entry of a response. -/
  sending_qp : Option ℕ
  slot_idx : ℕ
  length : ℕ
  valid : Bool
  deriving DecidableEq

structure RpcSrq where
  q : ℕ → RpcSrqEntry
  head : ℕ
  tail : ℕ
  dispatch_slot : ℕ
  full : Bool

namespace RpcSrq

variable (srq : RpcSrq)

def srq_empty : Bool := !srq.full && srq.head == srq.tail

def srq_full : Bool := srq.full

def advance_srq_head : RpcSrq :=
  let head := (srq.head + 1) % MAX_NUM_SRQ_SLOTS
  { srq with head := head, full := head == srq.tail }

def advance_dispatch_slot : RpcSrq :=
  { srq with dispatch_slot := (srq.dispatch_slot + 1) % MAX_NUM_SRQ_SLOTS }

/-- The loop of `advance_srq_tail_multiple`, for as many rounds as there are slots. -/
def skip_invalid : ℕ → RpcSrq → RpcSrq
  | 0, srq => srq
  | fuel + 1, srq =>
    if (srq.q srq.tail).valid = false ∧ srq.tail ≠ srq.head then
      skip_invalid fuel { srq with tail := (srq.tail + 1) % MAX_NUM_SRQ_SLOTS }
    else srq

def advance_srq_tail_multiple : RpcSrq :=
  { skip_invalid MAX_NUM_SRQ_SLOTS srq with full := false }

/-- `*newEntry` as it is stored in the slot at `head`. -/
def placed (newEntry : RpcSrqEntry) : RpcSrqEntry :=
  { newEntry with slot_idx := srq.head, valid := true }

/-- The slot of the entry, none for the -1 of a full queue. -/
def enqueue_in_srq (newEntry : RpcSrqEntry) : Option ℕ × RpcSrq :=
  if !srq.srq_full then
    (some srq.head,
      { srq with q := Function.update srq.q srq.head (srq.placed newEntry) }.advance_srq_head)
  else (none, srq)

/-- None where the assertion fails; the entry is none where nothing is written to it. -/
def get_dispatch_entry_from_srq : Option (Option RpcSrqEntry × RpcSrq) :=
  if !srq.srq_empty then
    if (srq.q srq.dispatch_slot).valid = true then
      some (some (srq.q srq.dispatch_slot), srq.advance_dispatch_slot)
    else none
  else some (none, srq)

/-- The slot is not valid any more. -/
def invalidate (idx : ℕ) : RpcSrq :=
  { srq with q := Function.update srq.q idx { srq.q idx with valid := false } }

/-- None where the assertion fails. -/
def reset_srq_entry_invalid (idx : ℕ) : Option (Bool × RpcSrq) :=
  if !srq.srq_empty then
    if (srq.q idx).valid = true then
      some (true, (srq.invalidate idx).advance_srq_tail_multiple)
    else none
  else some (false, srq)

def srq_init : RpcSrq := ⟨fun _ => ⟨0, some 0, 0, 0, false⟩, 0, 0, 0, false⟩

/-! ### Runs of calls -/

inductive Call where
  | enqueue_in_srq (newEntry : RpcSrqEntry)
  | get_dispatch_entry_from_srq
  | reset_srq_entry_invalid (idx : ℕ)

/-- A slot is freed while its entry is valid. -/
def next : Call → Option RpcSrq
  | .enqueue_in_srq newEntry => some (srq.enqueue_in_srq newEntry).2
  | .get_dispatch_entry_from_srq => srq.get_dispatch_entry_from_srq.map Prod.snd
  | .reset_srq_entry_invalid idx =>
    if idx < MAX_NUM_SRQ_SLOTS ∧ (srq.q idx).valid = true then
      (srq.reset_srq_entry_invalid idx).map Prod.snd
    else none

def system : Transition.System RpcSrq Call where
  init := srq_init
  next := next

/-- The number of slots from `a` on before `b`, around the end. -/
def dist (a b : ℕ) : ℕ := (b + MAX_NUM_SRQ_SLOTS - a) % MAX_NUM_SRQ_SLOTS

/-- The slot before `head`. -/
def last : ℕ := (srq.head + (MAX_NUM_SRQ_SLOTS - 1)) % MAX_NUM_SRQ_SLOTS

/-- The window from `tail` to `head` holds the valid slots, and starts with one; a full one also
    ends with one. -/
structure Inv : Prop where
  head_lt : srq.head < MAX_NUM_SRQ_SLOTS
  tail_lt : srq.tail < MAX_NUM_SRQ_SLOTS
  full_eq : srq.full = true → srq.head = srq.tail
  tail_valid : srq.full = true ∨ srq.head ≠ srq.tail → (srq.q srq.tail).valid = true
  inside : ∀ i < MAX_NUM_SRQ_SLOTS, (srq.q i).valid = true →
    srq.full = true ∨ dist srq.tail i < dist srq.tail srq.head
  last_valid : srq.full = true → (srq.q srq.last).valid = true

variable {srq} {srq' : RpcSrq}

theorem dist_le (a b : ℕ) : dist a b ≤ MAX_NUM_SRQ_SLOTS :=
  Nat.le_of_lt (Nat.mod_lt _ (by decide))

theorem init_inv : srq_init.Inv where
  head_lt := by decide
  tail_lt := by decide
  full_eq := by decide
  tail_valid := by decide
  inside := by intro i _ h; cases h
  last_valid := by decide

/-! ### The loop over freed slots -/

theorem skip_invalid_eq (fuel : ℕ) (srq : RpcSrq) :
    skip_invalid fuel srq = { srq with tail := (skip_invalid fuel srq).tail } := by
  induction fuel generalizing srq with
  | zero => rfl
  | succ fuel ih =>
    unfold skip_invalid
    split
    · rw [ih]
    · rfl

/-- **The loop moves over invalid slots**, and stops at a valid one or at `head`. -/
theorem skip_invalid_tail {fuel : ℕ} {srq : RpcSrq} (htail : srq.tail < MAX_NUM_SRQ_SLOTS)
    (hhead : srq.head < MAX_NUM_SRQ_SLOTS) (hfuel : dist srq.tail srq.head ≤ fuel) :
    ∃ k ≤ dist srq.tail srq.head,
      (skip_invalid fuel srq).tail = (srq.tail + k) % MAX_NUM_SRQ_SLOTS ∧
      (∀ j < k, (srq.q ((srq.tail + j) % MAX_NUM_SRQ_SLOTS)).valid = false) ∧
      ((skip_invalid fuel srq).tail = srq.head ∨
        (srq.q (skip_invalid fuel srq).tail).valid = true) := by
  induction fuel generalizing srq with
  | zero =>
    -- no slot is left before `head`
    refine ⟨0, Nat.zero_le _, ?_, by simp, .inl ?_⟩
    · simp [skip_invalid, Nat.mod_eq_of_lt htail]
    · simp only [skip_invalid]
      simp only [dist, MAX_NUM_SRQ_SLOTS] at *
      omega
  | succ fuel ih =>
    unfold skip_invalid
    split
    · rename_i hskip
      obtain ⟨hinvalid, hne⟩ := hskip
      have hstep : dist ((srq.tail + 1) % MAX_NUM_SRQ_SLOTS) srq.head + 1 =
          dist srq.tail srq.head := by
        simp only [dist, MAX_NUM_SRQ_SLOTS] at *
        omega
      obtain ⟨k, hk, htail', hover, hstop⟩ :=
        @ih { srq with tail := (srq.tail + 1) % MAX_NUM_SRQ_SLOTS }
          (Nat.mod_lt _ (by decide)) hhead (by simp only; omega)
      simp only at hk htail' hover hstop
      refine ⟨k + 1, by omega, ?_, ?_, hstop⟩
      · rw [htail']
        simp only [MAX_NUM_SRQ_SLOTS]
        omega
      · intro j hj
        cases j with
        | zero => simpa [Nat.mod_eq_of_lt htail] using hinvalid
        | succ j =>
          have := hover j (by omega)
          rwa [Nat.mod_add_mod, Nat.add_assoc, Nat.add_comm 1 j] at this
    · rename_i hstop
      refine ⟨0, Nat.zero_le _, by simp [Nat.mod_eq_of_lt htail], by simp, ?_⟩
      rw [not_and_or, not_not] at hstop
      exact hstop.symm.imp id (by simp)

/-! ### What the calls keep -/

theorem enqueue_inv (hi : srq.Inv) (newEntry : RpcSrqEntry) :
    (srq.enqueue_in_srq newEntry).2.Inv := by
  obtain ⟨hhead, htail, hfull, hvalid, hinside, hlast⟩ := hi
  unfold enqueue_in_srq srq_full
  cases hf : srq.full with
  | true => exact ⟨hhead, htail, hfull, hvalid, hinside, hlast⟩
  | false =>
    simp only [Bool.not_false, if_true, advance_srq_head]
    constructor
    case head_lt => exact Nat.mod_lt _ (by decide)
    case tail_lt => exact htail
    case full_eq => simp
    case tail_valid =>
      intro _
      by_cases ht : srq.tail = srq.head
      · simp [ht, placed]
      · simpa [update_of_ne ht] using hvalid (.inr (Ne.symm ht))
    case inside =>
      intro i hi hv
      by_cases hlast : (srq.head + 1) % MAX_NUM_SRQ_SLOTS = srq.tail
      · exact .inl (by simpa using hlast)
      · -- the window grows by the slot at `head`
        right
        have hold : i = srq.head ∨ dist srq.tail i < dist srq.tail srq.head := by
          by_cases hih : i = srq.head
          · exact .inl hih
          · have hvi : (srq.q i).valid = true := by simpa [update_of_ne hih] using hv
            exact .inr ((hinside i hi hvi).resolve_left (by simp [hf]))
        simp only [dist, MAX_NUM_SRQ_SLOTS] at *
        omega
    case last_valid =>
      intro _
      have hnew : ((srq.head + 1) % MAX_NUM_SRQ_SLOTS + (MAX_NUM_SRQ_SLOTS - 1)) %
          MAX_NUM_SRQ_SLOTS = srq.head := by
        simp only [MAX_NUM_SRQ_SLOTS] at *
        omega
      simp [last, hnew, placed]

theorem get_dispatch_inv (hi : srq.Inv) {e : Option RpcSrqEntry}
    (h : srq.get_dispatch_entry_from_srq = some (e, srq')) : srq'.Inv := by
  unfold get_dispatch_entry_from_srq at h
  split at h
  · obtain ⟨-, heq⟩ := ite_none_right_eq_some.mp h
    obtain ⟨-, rfl⟩ := Prod.mk.inj (some.inj heq)
    exact ⟨hi.head_lt, hi.tail_lt, hi.full_eq, hi.tail_valid, hi.inside, hi.last_valid⟩
  · obtain ⟨-, rfl⟩ := Prod.mk.inj (some.inj h)
    exact hi

theorem Inv.empty_iff (hi : srq.Inv) :
    srq.srq_empty = true ↔ ∀ i < MAX_NUM_SRQ_SLOTS, (srq.q i).valid = false := by
  constructor
  · intro hempty i hlt
    simp only [srq_empty, Bool.and_eq_true, Bool.not_eq_true', beq_iff_eq] at hempty
    by_contra hv
    rcases hi.inside i hlt (by simpa using hv) with hf | hin
    · rw [hempty.1] at hf
      cases hf
    · simp only [dist, hempty.2] at hin
      simp only [MAX_NUM_SRQ_SLOTS] at *
      omega
  · intro hnone
    have htail := hnone srq.tail hi.tail_lt
    by_contra hne
    have hwindow : srq.full = true ∨ srq.head ≠ srq.tail := by
      simp only [srq_empty, Bool.and_eq_true, Bool.not_eq_true', beq_iff_eq] at hne
      cases hf : srq.full <;> simp_all
    rw [hi.tail_valid hwindow] at htail
    cases htail

theorem Inv.full_iff (hi : srq.Inv) :
    srq.srq_full = true ↔ (srq.q srq.head).valid = true := by
  constructor
  · intro hf
    rw [hi.full_eq hf]
    exact hi.tail_valid (.inl hf)
  · intro hv
    rcases hi.inside srq.head hi.head_lt hv with hf | hin
    · exact hf
    · exact absurd hin (Nat.lt_irrefl _)

/-- **A free of a valid slot** of a queue that is not full keeps the window. -/
theorem reset_inv (hi : srq.Inv) (hf : srq.full = false) {idx : ℕ}
    (hv : (srq.q idx).valid = true) :
    (srq.invalidate idx).advance_srq_tail_multiple.Inv ∧
    ∃ k, (srq.invalidate idx).advance_srq_tail_multiple.tail =
        (srq.tail + k) % MAX_NUM_SRQ_SLOTS ∧ k ≤ dist srq.tail srq.head ∧
      ∀ j < k, ((srq.invalidate idx).q ((srq.tail + j) % MAX_NUM_SRQ_SLOTS)).valid = false := by
  obtain ⟨hhead, htail, -, -, hinside, -⟩ := hi
  obtain ⟨k, hk, htail', hover, hstop⟩ :=
    @skip_invalid_tail MAX_NUM_SRQ_SLOTS (srq.invalidate idx) htail hhead (dist_le _ _)
  have heq : (srq.invalidate idx).advance_srq_tail_multiple =
      { srq.invalidate idx with tail := (srq.tail + k) % MAX_NUM_SRQ_SLOTS, full := false } := by
    unfold advance_srq_tail_multiple
    rw [skip_invalid_eq, htail']
    rfl
  rw [htail'] at hstop
  refine ⟨?_, k, by rw [heq], hk, hover⟩
  rw [heq]
  constructor
  case head_lt => exact hhead
  case tail_lt => exact Nat.mod_lt _ (by decide)
  case full_eq => simp
  case tail_valid =>
    intro hne
    exact hstop.resolve_left (Ne.symm (hne.resolve_left (by simp)))
  case inside =>
    intro i hlt hvi
    right
    have hvalid : (srq.q i).valid = true := by
      by_cases hidx : i = idx
      · rw [hidx]
        exact hv
      · simpa [invalidate, update_of_ne hidx] using hvi
    have hin := (hinside i hlt hvalid).resolve_left (by simp [hf])
    -- the slots that were skipped are not valid, so `i` is not one of them
    have hbehind : k ≤ dist srq.tail i := by
      by_contra hlt'
      have hslot : (srq.tail + dist srq.tail i) % MAX_NUM_SRQ_SLOTS = i := by
        simp only [dist, MAX_NUM_SRQ_SLOTS] at *
        omega
      have hskipped := hover (dist srq.tail i) (by omega)
      change ((srq.invalidate idx).q ((srq.tail + dist srq.tail i) % _)).valid = false at hskipped
      rw [hslot, hvi] at hskipped
      cases hskipped
    change dist ((srq.tail + k) % MAX_NUM_SRQ_SLOTS) i <
      dist ((srq.tail + k) % MAX_NUM_SRQ_SLOTS) srq.head
    change k ≤ dist srq.tail srq.head at hk
    simp only [dist, MAX_NUM_SRQ_SLOTS] at *
    omega
  case last_valid => simp

/-! ### The law -/

/-- What `srq_full` and `srq_empty` say: the next slot to be handed out is still valid, and no
    slot is. -/
structure SafeState (srq : RpcSrq) : Prop where
  full_iff : srq.srq_full = true ↔ (srq.q srq.head).valid = true
  empty_iff : srq.srq_empty = true ↔ ∀ i < MAX_NUM_SRQ_SLOTS, (srq.q i).valid = false

/-- An entry is not entered over a valid one; a free succeeds, and moves the tail over invalid
    slots only; the other calls do not move it. -/
def SafeCall (srq : RpcSrq) : Call → Prop
  | .enqueue_in_srq newEntry =>
    (srq.enqueue_in_srq newEntry).2.tail = srq.tail ∧
    ∀ i < MAX_NUM_SRQ_SLOTS, (srq.q i).valid = true →
      (srq.enqueue_in_srq newEntry).2.q i = srq.q i
  | .get_dispatch_entry_from_srq =>
    ∀ e srq', srq.get_dispatch_entry_from_srq = some (e, srq') → srq'.tail = srq.tail
  | .reset_srq_entry_invalid idx =>
    ∃ srq', srq.reset_srq_entry_invalid idx = some (true, srq') ∧
      ∃ k ≤ MAX_NUM_SRQ_SLOTS, srq'.tail = (srq.tail + k) % MAX_NUM_SRQ_SLOTS ∧
        ∀ j < k, (srq'.q ((srq.tail + j) % MAX_NUM_SRQ_SLOTS)).valid = false

/-- No slot of a full queue is freed. -/
def FreesBeforeFull (srq : RpcSrq) : Call → Prop
  | .reset_srq_entry_invalid _ => srq.srq_full = false
  | _ => True

instance : ∀ (srq : RpcSrq) (c : Call), Decidable (srq.FreesBeforeFull c)
  | srq, .reset_srq_entry_invalid _ => inferInstanceAs (Decidable (srq.srq_full = false))
  | _, .enqueue_in_srq _ | _, .get_dispatch_entry_from_srq => inferInstanceAs (Decidable True)

theorem Inv.safeState (hi : srq.Inv) : srq.SafeState := ⟨hi.full_iff, hi.empty_iff⟩

/-- A valid slot of a queue in order is freed by the assertion's branch. -/
theorem Inv.reset_eq (hi : srq.Inv) {idx : ℕ} (hidx : idx < MAX_NUM_SRQ_SLOTS)
    (hv : (srq.q idx).valid = true) :
    srq.reset_srq_entry_invalid idx =
      some (true, (srq.invalidate idx).advance_srq_tail_multiple) := by
  have hne : srq.srq_empty = false := by
    by_contra hempty
    rw [hi.empty_iff.mp (by simpa using hempty) idx hidx] at hv
    cases hv
  simp [reset_srq_entry_invalid, hne, hv]

/-- **A call** that frees no slot of a full queue keeps it in order and is safe. -/
theorem next_safe {c : Call} (hi : srq.Inv) (hfree : srq.FreesBeforeFull c)
    (h : srq.next c = some srq') : srq'.Inv ∧ srq.SafeCall c := by
  cases c with
  | enqueue_in_srq newEntry =>
    cases h
    refine ⟨enqueue_inv hi newEntry, ?_, ?_⟩
    · unfold enqueue_in_srq
      split <;> rfl
    · intro i _ hv
      unfold enqueue_in_srq
      split
      · rename_i hf
        -- the slot at `head` is free, so it is not this one
        have hih : i ≠ srq.head := by
          rintro rfl
          rw [hi.full_iff.mpr hv] at hf
          cases hf
        simp [advance_srq_head, update_of_ne hih]
      · rfl
  | get_dispatch_entry_from_srq =>
    obtain ⟨⟨e, t⟩, heq, rfl⟩ := map_eq_some_iff.mp h
    refine ⟨get_dispatch_inv hi heq, ?_⟩
    intro e srq' heq'
    unfold get_dispatch_entry_from_srq at heq'
    split at heq'
    · obtain ⟨-, heq'⟩ := ite_none_right_eq_some.mp heq'
      obtain ⟨-, rfl⟩ := Prod.mk.inj (some.inj heq')
      rfl
    · obtain ⟨-, rfl⟩ := Prod.mk.inj (some.inj heq')
      rfl
  | reset_srq_entry_invalid idx =>
    obtain ⟨⟨hidx, hv⟩, heq⟩ := ite_none_right_eq_some.mp h
    obtain ⟨hinv, k, htail, hk, hover⟩ := reset_inv hi hfree hv
    rw [hi.reset_eq hidx hv, map_some, some.injEq] at heq
    subst heq
    refine ⟨hinv, _, hi.reset_eq hidx hv, k, ?_, htail, ?_⟩
    · exact Nat.le_trans hk (dist_le _ _)
    · intro j hj
      rw [advance_srq_tail_multiple, skip_invalid_eq]
      exact hover j hj

/-- **A free of a slot of a full queue** leaves a queue that says it is empty, while the slot
    before `head` or the one at `tail` is valid. -/
theorem reset_full {idx : ℕ} (hi : srq.Inv) (hf : srq.full = true)
    (h : srq.next (.reset_srq_entry_invalid idx) = some srq') : ¬srq'.SafeState := by
  intro hsafe
  obtain ⟨⟨hidx, hv⟩, heq⟩ := ite_none_right_eq_some.mp h
  rw [hi.reset_eq hidx hv, map_some, some.injEq] at heq
  -- the loop does not start, as `tail = head`
  have hskip : skip_invalid MAX_NUM_SRQ_SLOTS (srq.invalidate idx) = srq.invalidate idx := by
    unfold MAX_NUM_SRQ_SLOTS skip_invalid
    rw [if_neg]
    exact fun hne => hne.2 (hi.full_eq hf).symm
  rw [advance_srq_tail_multiple, hskip] at heq
  subst heq
  have hempty := hsafe.empty_iff.mp (by simp [srq_empty, invalidate, hi.full_eq hf])
  by_cases hidx' : idx = srq.tail
  · -- the slot before `head` is still valid
    have hlast : srq.last < MAX_NUM_SRQ_SLOTS := by
      unfold last MAX_NUM_SRQ_SLOTS
      omega
    have hne : srq.last ≠ idx := by
      rw [hidx', ← hi.full_eq hf]
      simp only [last, MAX_NUM_SRQ_SLOTS] at *
      omega
    have hother := hempty srq.last hlast
    simp [invalidate, update_of_ne hne, hi.last_valid hf] at hother
  · have hother := hempty srq.tail hi.tail_lt
    simp [invalidate, update_of_ne (Ne.symm hidx'), hi.tail_valid (.inl hf)] at hother

/-- **The queue does what it is for** in exactly the runs that free no slot of a full queue. -/
theorem srq_safe_iff {calls : List Call} (hrun : system.run srq_init calls = some srq) :
    system.Throughout SafeState srq_init calls ∧ system.Always SafeCall srq_init calls ↔
      system.Always FreesBeforeFull srq_init calls := by
  apply Transition.System.throughout_iff_always (fun _ hi => Inv.safeState hi)
  case hstep => exact fun _ _ _ => next_safe
  case hbad =>
    intro s c s' hi hfree h hsafe
    cases c with
    | reset_srq_entry_invalid idx => exact reset_full hi (eq_true_of_ne_false hfree) h hsafe.2
    | enqueue_in_srq newEntry | get_dispatch_entry_from_srq => exact hfree trivial
  case hs => exact init_inv
  case hrun => exact hrun

/-- Two messages enter, the second is freed and then the first. -/
theorem srq_safe_two :
    let e : RpcSrqEntry := ⟨1, some 0, 0, 64, false⟩
    let calls : List Call := [.enqueue_in_srq e, .enqueue_in_srq e, .get_dispatch_entry_from_srq,
      .reset_srq_entry_invalid 1, .reset_srq_entry_invalid 0]
    system.Throughout SafeState srq_init calls ∧ system.Always SafeCall srq_init calls :=
  (srq_safe_iff rfl).mpr (by decide +kernel)

/-- 256 messages fill the queue, and the free of slot 0 makes it say that it is empty: 255 slots
    are still valid. -/
theorem srq_empty_when_full_freed :
    ¬∀ calls srq, system.run srq_init calls = some srq → system.Throughout SafeState srq_init calls := by
  intro h
  let calls : List Call :=
    List.replicate 256 (.enqueue_in_srq ⟨1, some 0, 0, 64, false⟩) ++ [.reset_srq_entry_invalid 0]
  have hend : (system.run srq_init calls).map (fun s => (s.srq_empty, (s.q 1).valid)) =
      some (true, true) := by decide +kernel
  obtain ⟨srq, hrun, heq⟩ := map_eq_some_iff.mp hend
  obtain ⟨hempty, hvalid⟩ := Prod.mk.inj heq
  rw [((h calls srq hrun).last hrun).empty_iff.mp hempty 1 (by decide)] at hvalid
  cases hvalid

end RpcSrq

end Sonuma
