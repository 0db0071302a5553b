import AdvCompArch.Lib.ByteMemory
import AdvCompArch.Lib.Stages
import AdvCompArch.Lib.Transition
import AdvCompArch.Grappa.IncoherentCache

/-! # Acquire and release as message exchanges

    The owner of a cache starts an acquire (or a release), sends its requests one at a time
    and may block until the last reply.  Requests and replies are handled in any order, and
    a payload is read when its message is copied into a send buffer, which is some time
    after the message was created.  Meanwhile the rest of the system may write to any global
    byte that does not belong to the range.

    A request passes through five stages:

    * 0: not sent yet;
    * 1: the request message is in flight (release: its payload is still to be read);
    * 2: acquire: the reply message waits for its payload; release: the request message is
      in flight with its payload;
    * 3: the reply message is in flight;
    * 4: the reply has been processed. -/

namespace Grappa

namespace Incoherent

open Transition GlobalAddress ByteMemory

/-- The fields of `IncoherentAcquirer` and `IncoherentReleaser`; the payload counters belong
    to the acquirer only. -/
structure Object where
  /-- `acquire_started_` resp. `release_started_` -/
  started_ : Bool
  /-- `acquired_` resp. `released_` -/
  completed_ : Bool
  /-- The local copy, `*pointer_`. -/
  pointer_ : ℤ
  /-- Is `thread_` set? -/
  thread_ : Bool
  num_messages_ : ℤ
  response_count_ : ℤ
  total_reply_payload_ : ℤ
  expected_reply_payload_ : ℤ
  deriving DecidableEq

variable (m : Machine)

/-- `reset()` on core `mycore`; `none` if its check fails. -/
def reset (b : Behavior) (mycore : Core) (sizeof : ℕ) (request_address : GlobalAddress) (count : ℕ)
    (o : Object) : Option Object :=
  if o.started_ && !o.completed_ then none
  else
    let o : Object :=
      { started_ := false, completed_ := false, pointer_ := o.pointer_, thread_ := false,
        num_messages_ := num_messages m sizeof request_address count, response_count_ := 0,
        total_reply_payload_ := 0, expected_reply_payload_ := as_int (sizeof * count) }
    if count = 0 then
      let pointer_ := match b with
        | .acquirer => 0
        | .releaser => o.pointer_
      some { o with started_ := true, completed_ := true, pointer_ }
    else if request_address.is_2D ∧ request_address.core m = mycore then
      let pointer_ := match b with
        | .acquirer => request_address.pointer m
        | .releaser => o.pointer_
      some { o with started_ := true, completed_ := true, pointer_ }
    else some o

/-- A request on its way, with the payload of its message once that has been read. -/
structure Packet (β : Type*) where
  args : RequestArgs
  payload : List β
  deriving DecidableEq

/-- Where the owner of the cache is. -/
inductive Owner
  | running
  /-- In the sending loop; `then_block` if `block_until_acquired` has called it. -/
  | sending (then_block : Bool)
  /-- At the condition of `while (!acquired_)`. -/
  | checking
  | suspended
  | woken
  deriving DecidableEq

/-- The object, the packets at each stage, the memory of the requesting core that holds the
    local copy, and the memory that backs global addresses on each core. -/
structure State (β : Type*) where
  object : Object
  stages : ℕ → List (Packet β)
  buffer : ℤ → β
  global : Core → ℤ → β
  owner : Owner

inductive Label (β : Type*)
  /-- `start_acquire()` -/
  | start
  /-- `block_until_acquired()` -/
  | block
  /-- the sending loop creates the next message -/
  | send
  /-- the sending loop ends -/
  | sent
  /-- `while (!acquired_)` -/
  | check
  /-- the owner goes on after `suspend()` -/
  | resume
  /-- packet `k` of stage `j` goes on -/
  | advance (j k : ℕ)
  /-- another task writes to a global byte -/
  | other (c : Core) (p : ℤ) (v : β)
  deriving DecidableEq

variable {β : Type*}

/-- `acquire_reply` resp. `release_reply` for a reply with this number of payload bytes; `none`
    if the check of the payload fails. -/
def Object.reply (b : Behavior) (payload_size : ℤ) (o : Object) : Option Object :=
  let response_count_ := as_int (o.response_count_ + 1)
  let total_reply_payload_ := match b with
    | .acquirer => as_int (o.total_reply_payload_ + payload_size)
    | .releaser => o.total_reply_payload_
  let o := { o with response_count_, total_reply_payload_ }
  if o.response_count_ = o.num_messages_ then
    if b = .acquirer ∧ o.total_reply_payload_ ≠ o.expected_reply_payload_ then none
    else some { o with completed_ := true }
  else some o

/-- The reply handler: `acquire_reply` first copies the payload. -/
def State.reply (b : Behavior) (x : Packet β) (s : State β) : Option (State β) :=
  (s.object.reply b x.payload.length).map fun o =>
    { s with
      object := o
      buffer := match b with
        | .acquirer => store s.buffer (o.pointer_ + x.args.offset) x.payload
        | .releaser => s.buffer
      -- the last reply wakes the owner
      owner := if o.response_count_ = o.num_messages_ ∧ o.thread_ then .woken else s.owner }

/-- What happens to a packet of stage `j` when it goes on. -/
def State.handle (b : Behavior) (j : ℕ) (x : Packet β) (s : State β) :
    Option (Packet β × State β) :=
  let request_bytes := x.args.request_bytes.toNat
  let core := x.args.request_address.core m
  let pointer := x.args.request_address.pointer m
  match b, j with
  -- the request is handled on its core, which creates the reply
  | .acquirer, 1 => some (x, s)
  | .acquirer, 2 => some ({ x with payload := load (s.global core) pointer request_bytes }, s)
  | .releaser, 1 =>
    some ({ x with payload := load s.buffer (s.object.pointer_ + x.args.offset) request_bytes }, s)
  | .releaser, 2 =>
    some (x, { s with global := Function.update s.global core (store (s.global core) pointer x.payload) })
  | _, 3 => (s.reply b x).map fun s => (x, s)
  | _, _ => none

/-- A byte of the range. -/
def CachedRange.byte (R : CachedRange) (i : ℕ) : GlobalAddress := R.request_address.element 1 i

/-- The byte at `p` on core `c` belongs to the range. -/
def CachedRange.Holds (R : CachedRange) (c : Core) (p : ℤ) : Prop :=
  ∃ i < R.bytes, (R.byte i).core m = c ∧ (R.byte i).pointer m = p

instance (R : CachedRange) (c : Core) (p : ℤ) : Decidable (R.Holds m c p) :=
  decidable_of_iff (∃ i, i < R.bytes ∧ (R.byte i).core m = c ∧ (R.byte i).pointer m = p) (by
    simp [CachedRange.Holds])

def State.advance (b : Behavior) (j k : ℕ) (s : State β) : Option (State β) :=
  match (s.stages j)[k]? with
  | none => none
  | some x => (s.handle m b j x).map fun (y, s) => { s with stages := Stages.shift s.stages j k y }

/-- `start_acquire()` for an object that has not been started: it enters the sending loop. -/
def State.start (b : Behavior) (R : CachedRange) (then_block : Bool) (s : State β) :
    Option (State β) :=
  (do_requests m b R.sizeof R.request_address R.count).map fun rs =>
    { s with
      object := { s.object with started_ := true }
      stages := Function.update s.stages 0 (rs.map fun args => ⟨args, []⟩)
      owner := .sending then_block }

def next (b : Behavior) (R : CachedRange) (s : State β) : Label β → Option (State β)
  | .start =>
    if s.owner ≠ .running then none
    else if s.object.started_ then some s
    else s.start m b R false
  | .block =>
    if s.owner ≠ .running then none
    else if s.object.completed_ then some s
    else if s.object.started_ then some { s with owner := .checking }
    else s.start m b R true
  | .send =>
    match s.owner, (s.stages 0)[0]? with
    | .sending _, some x => some { s with stages := Stages.shift s.stages 0 0 x }
    | _, _ => none
  | .sent =>
    match s.owner, s.stages 0 with
    | .sending then_block, [] => some { s with owner := if then_block then .checking else .running }
    | _, _ => none
  | .check =>
    if s.owner ≠ .checking then none
    else if s.object.completed_ then some { s with owner := .running }
    else some { s with object := { s.object with thread_ := true }, owner := .suspended }
  | .resume =>
    if s.owner ≠ .woken then none
    else some { s with object := { s.object with thread_ := false }, owner := .checking }
  | .advance j k => s.advance m b j k
  | .other c p v =>
    if R.Holds m c p then none
    else some { s with global := Function.update s.global c (Function.update (s.global c) p v) }

/-- All runs of one acquire resp. release on an object that has just been reset. -/
def system (b : Behavior) (R : CachedRange) (o : Object) (buffer : ℤ → β) (global : Core → ℤ → β) :
    System (State β) (Label β) :=
  ⟨⟨o, fun _ => [], buffer, global, .running⟩, next m b R⟩

end Incoherent

end Grappa
