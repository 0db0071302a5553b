import AdvCompArch.Grappa.CombinerAlone
import AdvCompArch.Lib.Assignment

/-! # The operations of a global hash map

    The cells are spread over the cores; a key is in the cell of its hash.  With flat
    combining, the inserts and lookups of a core are collected in a proxy, whose `sync()`
    sends a message for each key and waits for the completions.  Without, an operation is
    one `delegate::call` on its cell.

    `Cell::lookup` has its result in a `std::pair<bool,K>`: the value is converted to the
    type of the keys and back. -/

namespace Grappa

namespace GlobalHashMap

open Assignment (assign)

variable {K V : Type}

/-- The types, the hash function and the flag of a map. -/
structure Config (K V : Type) where
  capacity : ℕ
  hash : K → ℕ
  /-- The conversions between values and keys. -/
  toK : V → K
  toV : K → V
  /-- `V()`. -/
  zero : V
  /-- What a variable of type `V` holds before anything is assigned to it. -/
  fresh : V
  flat_combining : Bool

/-- The entries of a cell. -/
abbrev Cell (K V : Type) := List (K × V)

section Cells

variable [DecidableEq K] (cfg : Config K V)

/-- `Cell::lookup`: what a `std::pair<bool,K>` makes of the value. -/
def Cell.lookup (c : Cell K V) (key : K) : Bool × V :=
  match List.lookup key c with
  | some val => (true, cfg.toV (cfg.toK val))
  | none => (false, cfg.toV (cfg.toK cfg.zero))

def Cell.insert (c : Cell K V) (key : K) (val : V) : Cell K V := assign c key val

/-- The lookup that the `sync()` of a proxy makes in a cell. -/
def Cell.find (c : Cell K V) (key : K) : Bool × V :=
  match List.lookup key c with
  | some val => (true, val)
  | none => (false, cfg.fresh)

def computeIndex (key : K) : ℕ := cfg.hash key % cfg.capacity

end Cells

/-! ### The proxy -/

inductive MapRequest (K V : Type) where
  | insert (key : K) (val : V)
  | lookup (key : K)
  deriving DecidableEq

/-- The inserts and lookups of a batch; a `ResultEntry` is named by its call, the last of a key
    first. -/
structure Proxy (K V : Type) where
  map : List (K × V)
  lookups : List (K × List ℕ)

def LOCAL_HASH_SIZE : ℕ := 2 ^ 10

def is_full (p : Proxy K V) : Bool :=
  LOCAL_HASH_SIZE ≤ p.map.length || LOCAL_HASH_SIZE ≤ p.lookups.length

section Combining

variable [DecidableEq K]

/-- The functors of `insert` and `lookup`. -/
def func (call : ℕ) (r : MapRequest K V) (p : Proxy K V) :
    Answer (Proxy K V) (ℕ × Bool × V) :=
  match r with
  | .insert key val => ⟨.BLOCKED, { p with map := assign p.map key val }, [], none⟩
  | .lookup key =>
    -- the entry goes in front of those of the same key
    let re := call :: (List.lookup key p.lookups).getD []
    ⟨.BLOCKED, { p with lookups := assign p.lookups key re }, [], none⟩

/-- What the entries of the lookups get, from the answer for each key. -/
def answers (p : Proxy K V) (answer : K → Bool × V) : List (ℕ × Bool × V) :=
  p.lookups.flatMap fun e => e.2.map fun re => (re, answer e.1)

def proxy (K V : Type) [DecidableEq K] :
    Combined (Proxy K V) (MapRequest K V) (ℕ × Bool × V) (K → Bool × V) where
  func := func
  is_full := is_full
  clear := fun _ => ⟨[], []⟩
  clone_fresh := fun _ => ⟨[], []⟩
  sync := answers

end Combining

/-! ### The messages -/

inductive Message (K V : Type) where
  | insert (key : K) (val : V)
  /-- The lookup of a `sync()`. -/
  | find (key : K)
  /-- The `delegate::call` of a lookup. -/
  | lookup (key : K)
  /-- A completion, with the answer of a lookup. -/
  | done (answer : Option (K × Bool × V))
  deriving DecidableEq

/-- The messages that `Proxy::sync` sends. -/
def sync_messages (p : Proxy K V) : List (Message K V) :=
  p.map.map (fun e => .insert e.1 e.2) ++ p.lookups.map fun e => .find e.1

/-- The message of an operation without flat combining. -/
def delegate_message : MapRequest K V → Message K V
  | .insert key val => .insert key val
  | .lookup key => .lookup key

/-- An operation that was called: how many completions it waits for, and the answers it has got. -/
structure Running (K V : Type) where
  core : ℕ
  task : Worker
  request : MapRequest K V
  count : ℕ
  answer : K → Bool × V

structure MapRun (K V : Type) where
  cells : ℕ → Cell K V
  proxies : ℕ → FlatCombiner (Proxy K V) (MapRequest K V) (ℕ × Bool × V)
  running : Option (Running K V)
  messages : List (Message K V)
  /-- The operations that returned, with what a lookup returned and wrote to `*val`; the last first. -/
  history : List (MapRequest K V × Option (Bool × V))

/-- What an operation returns: a lookup, what was found. -/
def result (found : K → Option (Bool × V)) : MapRequest K V → Option (Bool × V)
  | .insert _ _ => none
  | .lookup key => found key

namespace MapRun

variable [DecidableEq K] (cfg : Config K V) (s : MapRun K V)

/-- An operation is called, the message at this place arrives, or an operation returns. -/
inductive Label (K V : Type) where
  | call (core : ℕ) (t : Worker) (r : MapRequest K V)
  | deliver (i : ℕ)
  | ret

/-- An operation up to the point where it waits. -/
def call (core : ℕ) (t : Worker) (r : MapRequest K V) : Option (MapRun K V) :=
  if cfg.flat_combining then
    ((s.proxies core).next (proxy K V) (.combine t r)).bind fun fc =>
      match fc.tasks t with
      | .syncing f _ =>
        let p := (fc.flushers f).id
        some { s with
          proxies := Function.update s.proxies core fc
          running := some ⟨core, t, r, p.map.length + p.lookups.length, fun _ => (false, cfg.zero)⟩
          messages := sync_messages p ++ s.messages }
      | _ => none
  else
    some { s with
      running := some ⟨core, t, r, 1, fun _ => (false, cfg.zero)⟩
      messages := delegate_message r :: s.messages }

/-- A cell is changed. -/
def setCell (i : ℕ) (c : Cell K V) : MapRun K V := { s with cells := Function.update s.cells i c }

/-- A message is handled. -/
def handle : Message K V → MapRun K V
  | .insert key val =>
    let i := computeIndex cfg key
    { s.setCell i ((s.cells i).insert key val) with messages := .done none :: s.messages }
  | .find key =>
    { s with messages :=
        .done (some (key, (s.cells (computeIndex cfg key)).find cfg key)) :: s.messages }
  | .lookup key =>
    { s with messages :=
        .done (some (key, (s.cells (computeIndex cfg key)).lookup cfg key)) :: s.messages }
  | .done a =>
    { s with running := s.running.map fun o =>
        { o with
          count := o.count - 1
          answer := match a with
            | some (key, x) => Function.update o.answer key x
            | none => o.answer } }

/-- The end of an operation, whose completions have all arrived. -/
def finish (o : Running K V) : Option (MapRun K V) :=
  if cfg.flat_combining then
    match (s.proxies o.core).tasks o.task with
    | .syncing _ call =>
      ((s.proxies o.core).next (proxy K V) (.sync_done o.task o.answer)).map fun fc =>
        -- `*val = re.val; return re.found;`
        { s with
          proxies := Function.update s.proxies o.core fc
          running := none
          history := (o.request, result (fun _ => List.lookup call fc.history.outs) o.request) ::
            s.history }
    | _ => none
  else
    some { s with
      running := none
      history := (o.request, result (fun key => some (o.answer key)) o.request) :: s.history }

def next : Label K V → Option (MapRun K V)
  | .call core t r =>
    match s.running with
    | none => s.call cfg core t r
    | some _ => none
  | .deliver i =>
    match s.messages[i]? with
    | some m => some ({ s with messages := s.messages.eraseIdx i }.handle cfg m)
    | none => none
  | .ret =>
    match s.running with
    | some o => if o.count = 0 then s.finish cfg o else none
    | none => none

/-- A map that was created. -/
def init : MapRun K V where
  cells := fun _ => []
  proxies := fun _ => .new (proxy K V) ⟨[], []⟩
  running := none
  messages := []
  history := []

def system : Transition.System (MapRun K V) (Label K V) := ⟨init, fun s l => s.next cfg l⟩

end MapRun

end GlobalHashMap

end Grappa
