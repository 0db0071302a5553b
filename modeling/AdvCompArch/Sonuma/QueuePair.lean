import AdvCompArch.Sonuma.CompletionQueue

/-! # Queue pairs for one-sided operations

    The application posts reads and writes of remote memory into the work queue of its queue
    pair, the daemon executes them and tells their places by the completion queue, and the
    application clears the valid bits of these places and calls a handler.  Both rings are
    shared memory without locks.  One step is one store to or one load from it: the
    application stands between two stores of an entry or inside of `rmc_check_cq`, the daemon
    between two loads of an entry or between the stores of a completion.

    `QueuePairInvariant` proves what all interleavings keep. -/

namespace Sonuma

/-- An entry of a work queue; `op` is a character, and the sense bit `SR` is 0 or 1. -/
structure WqEntry where
  op : Char
  SR : Bool
  /-- Set with a new entry, unset when the entry is completed. -/
  valid : Bool
  buf_addr : ℕ
  buf_offset : ℕ
  cid : ℕ
  nid : ℕ
  offset : ℕ
  length : ℕ
  deriving DecidableEq

/-- The fields, each of which is stored and loaded by itself. -/
inductive WqField where
  | buf_addr | buf_offset | cid | offset | length | op | nid | valid | SR
  deriving DecidableEq

structure RmcWq where
  q : ℕ → WqEntry
  head : ℕ
  SR : Bool
  connected : Bool

/-- What a copy between local and remote memory depends on. -/
structure RemoteOp where
  op : Char
  nid : ℕ
  offset : ℕ
  buf_offset : ℕ
  length : ℕ
  deriving DecidableEq

namespace WqEntry

/-- One field of the entry `e` is copied over. -/
def copy (e : WqEntry) (old : WqEntry) : WqField → WqEntry
  | .buf_addr => { old with buf_addr := e.buf_addr }
  | .buf_offset => { old with buf_offset := e.buf_offset }
  | .cid => { old with cid := e.cid }
  | .offset => { old with offset := e.offset }
  | .length => { old with length := e.length }
  | .op => { old with op := e.op }
  | .nid => { old with nid := e.nid }
  | .valid => { old with valid := e.valid }
  | .SR => { old with SR := e.SR }

/-- Several fields are copied, one after the other. -/
def copyAll (e old : WqEntry) (fields : List WqField) : WqEntry := fields.foldl e.copy old

def remote (e : WqEntry) : RemoteOp := ⟨e.op, e.nid, e.offset, e.buf_offset, e.length⟩

/-- A cleared entry. -/
def zero : WqEntry := ⟨'\x00', false, false, 0, 0, 0, 0, 0, 0⟩

/-- A read or a write. -/
def OneSided (e : WqEntry) : Prop := e.op = 'r' ∨ e.op = 'w'

instance (e : WqEntry) : Decidable e.OneSided := inferInstanceAs (Decidable (_ ∨ _))

end WqEntry

def alloc_wq : RmcWq := ⟨fun _ => .zero, 0, true, false⟩

def kal_reg_wq (wq : RmcWq) : RmcWq := { wq with connected := true }

namespace RmcWq

variable (wq : RmcWq)

/-- The entry that `rmc_rread_async` and `rmc_rwrite_async` store: at least 64 bytes, and node and
    context as 16 bit numbers. -/
def async_entry (op : Char) (lbuff_base lbuff_offset snid ctx_id ctx_offset length : ℕ) : WqEntry where
  op := op
  SR := wq.SR
  valid := true
  buf_addr := lbuff_base
  buf_offset := lbuff_offset
  cid := ctx_id % 2 ^ 16
  nid := snid % 2 ^ 16
  offset := ctx_offset
  length := if length < 64 then 64 else length

def rmc_rread_async (lbuff_base lbuff_offset snid ctx_id ctx_offset length : ℕ) : WqEntry :=
  wq.async_entry 'r' lbuff_base lbuff_offset snid ctx_id ctx_offset length

def rmc_rwrite_async (lbuff_base lbuff_offset snid ctx_id ctx_offset length : ℕ) : WqEntry :=
  wq.async_entry 'w' lbuff_base lbuff_offset snid ctx_id ctx_offset length

/-- The fields in the order in which they are stored: the sense bit, which the daemon polls, is the
    last, after the valid bit. -/
def storeOrder : List WqField :=
  [.buf_addr, .buf_offset, .cid, .offset, .length, .op, .nid, .valid, .SR]

/-- The fields in the order in which the daemon loads them. -/
def loadOrder : List WqField := [.op, .buf_offset, .nid, .offset, .length]

/-- A place of the ring is changed. -/
def set (k : ℕ) (e : WqEntry) : RmcWq := { wq with q := Function.update wq.q k e }

/-- The application's cursor goes on. -/
def advance_head : RmcWq :=
  if wq.head + 1 ≥ MAX_NUM_WQ then { wq with head := 0, SR := !wq.SR }
  else { wq with head := wq.head + 1 }

theorem advance_head_eq : wq.advance_head =
    { wq with
      head := if wq.head + 1 ≥ MAX_NUM_WQ then 0 else wq.head + 1
      SR := if wq.head + 1 ≥ MAX_NUM_WQ then !wq.SR else wq.SR } := by
  unfold advance_head
  split <;> rfl

end RmcWq

/-- Where the application stands; `check` is true in `rmc_check_cq` and false in `rmc_drain_cq`. -/
inductive AppPc where
  /-- Between two calls. -/
  | idle
  /-- Before the load of the sense bit at the tail. -/
  | load_SR (check : Bool)
  | load_tid (check : Bool)
  | clear_valid (check : Bool) (tid : ℕ)
  | handler (check : Bool) (tid : ℕ)
  /-- Before the load of the valid bit at the head, at the end of the outer loop. -/
  | load_valid
  /-- Before the store of field number `k` of the entry `e`. -/
  | post (k : ℕ) (e : WqEntry)

/-- Where the daemon stands in its work on a queue pair. -/
inductive DaemonPc where
  /-- Before the load of the sense bit at the tail. -/
  | poll
  /-- Before load number `k`, with what was loaded so far; the copy of memory follows the last. -/
  | load (k : ℕ) (curr : WqEntry)
  /-- After the copy of memory. -/
  | notify
  | store_tid (compl_idx : ℕ)
  | store_SR

/-- A queue pair with its application and the daemon; and what was posted, with its place in the
    ring, executed, completed, taken from the completion queue and handled so far. -/
structure QueuePair where
  wq : RmcWq
  cq : RmcCq
  app : AppPc
  /-- `rmc_check_cq` has returned since the last entry was posted. -/
  checked : Bool
  daemon : DaemonPc
  local_wq_tail : ℕ
  local_wq_SR : Bool
  local_cq_head : ℕ
  local_cq_SR : Bool
  posted : List (ℕ × WqEntry)
  executed : List RemoteOp
  completed : ℕ
  consumed : ℕ
  handled : List ℕ

namespace QueuePair

variable (s : QueuePair)

/-! ### The application -/

/-- A field of a new entry is stored; after the last one the cursor goes on. -/
def store (k : ℕ) (e : WqEntry) (f : WqField) : QueuePair :=
  let wq := s.wq.set s.wq.head (e.copy (s.wq.q s.wq.head) f)
  if k + 1 < RmcWq.storeOrder.length then { s with wq := wq, app := .post (k + 1) e }
  else { s with
    wq := wq.advance_head
    app := .idle
    posted := s.posted ++ [(s.wq.head, e)] }

/-- The valid bit is cleared, and the cursor of the completion queue goes on. -/
def clear (check : Bool) (tid : ℕ) : QueuePair :=
  { s with
    wq := s.wq.set tid { s.wq.q tid with valid := false }
    cq := s.cq.advance_tail
    app := .handler check tid
    consumed := s.consumed + 1 }

/-- The next step of the application in its call. -/
def appStep : Option QueuePair :=
  match s.app with
  | .idle => none
  | .load_SR check =>
    if s.cq.arrived then some { s with app := .load_tid check }
    else some { s with app := if check then .load_valid else .idle }
  | .load_tid check => some { s with app := .clear_valid check (s.cq.q s.cq.tail).tid }
  | .clear_valid check tid => some (s.clear check tid)
  | .handler check tid => some { s with app := .load_SR check, handled := s.handled ++ [tid] }
  | .load_valid =>
    if (s.wq.q s.wq.head).valid then some { s with app := .load_SR true }
    else some { s with app := .idle, checked := true }
  | .post k e => RmcWq.storeOrder[k]?.map (s.store k e)

/-! ### The daemon -/

/-- The memory is copied, for a read or a write. -/
def execute (curr : WqEntry) : QueuePair :=
  { s with
    daemon := .notify
    executed := if curr.OneSided then s.executed ++ [curr.remote] else s.executed }

/-- The daemon's cursor in the work queue goes on. -/
def advance_wq_tail : QueuePair :=
  if s.local_wq_tail + 1 ≥ MAX_NUM_WQ then
    { s with local_wq_tail := 0, local_wq_SR := !s.local_wq_SR }
  else { s with local_wq_tail := s.local_wq_tail + 1 }

/-- The daemon's cursor in the completion queue goes on. -/
def advance_cq_head : QueuePair :=
  if s.local_cq_head + 1 ≥ MAX_NUM_WQ then
    { s with local_cq_head := 0, local_cq_SR := !s.local_cq_SR }
  else { s with local_cq_head := s.local_cq_head + 1 }

theorem advance_wq_tail_eq : s.advance_wq_tail =
    { s with
      local_wq_tail := if s.local_wq_tail + 1 ≥ MAX_NUM_WQ then 0 else s.local_wq_tail + 1
      local_wq_SR := if s.local_wq_tail + 1 ≥ MAX_NUM_WQ then !s.local_wq_SR
        else s.local_wq_SR } := by
  unfold advance_wq_tail
  split <;> rfl

theorem advance_cq_head_eq : s.advance_cq_head =
    { s with
      local_cq_head := if s.local_cq_head + 1 ≥ MAX_NUM_WQ then 0 else s.local_cq_head + 1
      local_cq_SR := if s.local_cq_head + 1 ≥ MAX_NUM_WQ then !s.local_cq_SR
        else s.local_cq_SR } := by
  unfold advance_cq_head
  split <;> rfl

/-- The entry at the head of the completion queue is changed. -/
def setCq (e : CqEntry) : QueuePair :=
  { s with cq := { s.cq with q := Function.update s.cq.q s.local_cq_head e } }

/-- The entry that the daemon works on, or waits for. -/
def curr : WqEntry := s.wq.q s.local_wq_tail

/-- The daemon finds an entry. -/
def found : Bool := s.wq.connected && s.curr.SR == s.local_wq_SR

def daemonStep : QueuePair :=
  match s.daemon with
  | .poll => if s.found then { s with daemon := .load 0 .zero } else s
  | .load k got =>
    match RmcWq.loadOrder[k]? with
    | some f => { s with daemon := .load (k + 1) (s.curr.copy got f) }
    | none => s.execute got
  | .notify =>
    if s.curr.OneSided then { s with daemon := .store_tid s.local_wq_tail }.advance_wq_tail
    else { s with daemon := .poll }
  | .store_tid compl_idx =>
    { s with daemon := .store_SR }.setCq { s.cq.q s.local_cq_head with tid := compl_idx }
  | .store_SR =>
    ({ s with daemon := .poll, completed := s.completed + 1 }.setCq
      { s.cq.q s.local_cq_head with SR := s.local_cq_SR }).advance_cq_head

/-! ### Steps -/

inductive Label where
  /-- The calls of the application. -/
  | rmc_check_cq
  | rmc_drain_cq
  | rmc_rread_async (lbuff_base lbuff_offset snid ctx_id ctx_offset length : ℕ)
  | rmc_rwrite_async (lbuff_base lbuff_offset snid ctx_id ctx_offset length : ℕ)
  /-- The application goes on in its call. -/
  | app
  | daemon

/-- The application calls a function that reads completions. -/
def call (pc : AppPc) : Option QueuePair :=
  match s.app with
  | .idle => some { s with app := pc }
  | _ => none

/-- The application posts an entry, only after `rmc_check_cq`. -/
def post (e : WqEntry) : Option QueuePair :=
  match s.app with
  | .idle => if s.checked then some { s with app := .post 0 e, checked := false } else none
  | _ => none

def next : Label → Option QueuePair
  | .rmc_check_cq => s.call (.load_SR true)
  | .rmc_drain_cq => s.call (.load_SR false)
  | .rmc_rread_async base off snid cid coff len =>
    s.post (s.wq.rmc_rread_async base off snid cid coff len)
  | .rmc_rwrite_async base off snid cid coff len =>
    s.post (s.wq.rmc_rwrite_async base off snid cid coff len)
  | .app => s.appStep
  | .daemon => some s.daemonStep

/-- Both queues are allocated and registered. -/
def init : QueuePair where
  wq := kal_reg_wq alloc_wq
  cq := kal_reg_cq alloc_cq
  app := .idle
  checked := false
  daemon := .poll
  local_wq_tail := 0
  local_wq_SR := true
  local_cq_head := 0
  local_cq_SR := true
  posted := []
  executed := []
  completed := 0
  consumed := 0
  handled := []

def system : Transition.System QueuePair Label where
  init := init
  next := next

end QueuePair

end Sonuma
