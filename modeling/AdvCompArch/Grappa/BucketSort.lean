import AdvCompArch.Grappa.LoopDecomposition
import AdvCompArch.Lib.Distribute
import AdvCompArch.Lib.Phased

/-! # The bucket sort

    `bucket_sort` of the sort application, and the number of buckets that the program gives it.
    The main task goes from one loop to the next: each core counts its keys by bucket, the counts
    are added up, the buckets are reserved, the keys are appended to them by delegates that arrive
    in any order, and the sorted buckets are written back.

    `qsort` and `allreduce_inplace` are parameters.  A vector, an array or a bucket that is left is
    taken as a failed check. -/

namespace Grappa

namespace BucketSort

/-! ### Parameters -/

/-- `log2buckets`, `log2maxkey` and the layout of the two arrays over the cores. -/
structure Config (n : ℕ) where
  nelems : ℕ
  /-- The argument of `bucket_sort`, a `size_t`. -/
  nbuckets : ℕ
  log2buckets : ℕ
  log2maxkey : ℕ
  array_core : ℕ → Fin (n + 1)
  bucket_core : ℕ → Fin (n + 1)
  /-- With `collective_add`: what the vector of each core is afterwards. -/
  allreduce_inplace : (Fin (n + 1) → List ℕ) → Fin (n + 1) → List ℕ
  qsort : (ℕ → ℕ → ℤ) → List ℕ → List ℕ

def Config.LOBITS {n : ℕ} (cfg : Config n) : ℕ := cfg.log2maxkey - cfg.log2buckets

/-- `v >> LOBITS` -/
def Config.bucket_of {n : ℕ} (cfg : Config n) (v : ℕ) : ℕ := v >>> cfg.LOBITS

def ui64cmp (a b : ℕ) : ℤ := if a < b then -1 else if a > b then 1 else 0

/-- `BUFSIZE / sizeof(uint64_t)` -/
def NBUF : ℕ := 2 ^ 22 / 8

/-- The elements that a `forall` visits: its count travels in 48 bits. -/
def forall_count (nelems : ℕ) : ℕ := (bits48 nelems).toNat

/-- `max_size()` of a `std::vector<size_t>` -/
def max_size : ℕ := 2 ^ 60 - 1

/-- `resize` of a `std::vector<size_t>`, which throws above its `max_size()`. -/
def resize (v : List ℕ) (size : ℕ) : Option (List ℕ) :=
  if size ≤ max_size then some (v.take size ++ List.replicate (size - v.length) 0) else none

/-! ### State -/

/-- A `bucket_t`; `nelems` is the length of `v`. -/
structure Bucket where
  v : List ℕ
  maxelems : ℕ
  deriving DecidableEq

inductive Phase
  | start
  | setup
  | histogram
  | offsets
  | reserve
  | scatter
  | sort
  | put_back
  deriving DecidableEq

structure State (n : ℕ) where
  array : ℕ → ℕ
  counts : Fin (n + 1) → List ℕ
  offsets : Fin (n + 1) → List ℕ
  bucketlist : ℕ → Bucket
  /-- A check has failed. -/
  aborted : Bool
  phase : Phase

/-- The iterations of the loops, and the delegates. -/
inductive Item (n : ℕ)
  | setup (c : Fin (n + 1))
  | histogram (i : ℕ)
  | offsets (c : Fin (n + 1))
  | reserve (id : ℕ)
  | scatter (i : ℕ)
  | append (b v : ℕ)
  | sort (bucket_id : ℕ)
  /-- The loop `for_buffered` at `i`. -/
  | put_back (b i : ℕ)
  /-- An element of a release. -/
  | write (address v : ℕ)
  deriving DecidableEq

/-! ### Steps -/

variable {n : ℕ} (cfg : Config n)

def State.abort (s : State n) : State n × List (Item n) := ({ s with aborted := true }, [])

/-- The prefix sums of a core, from an offset on. -/
def prefix_sums (offset : ℕ) : List ℕ → List ℕ
  | [] => []
  | count :: counts => offset :: prefix_sums (offset + count) counts

def Bucket.append (b : Bucket) (val : ℕ) : Bucket := { b with v := b.v ++ [val] }

def State.setBucket (s : State n) (b : ℕ) (bucket : Bucket) : State n :=
  { s with bucketlist := Function.update s.bucketlist b bucket }

def Item.exec (s : State n) : Item n → State n × List (Item n)
  | .setup c =>
    match resize (s.counts c) cfg.nbuckets, resize (s.offsets c) cfg.nbuckets with
    | some zeroed, some resized =>
      ({ s with
        counts := Function.update s.counts c (zeroed.map fun _ => 0)
        offsets := Function.update s.offsets c resized }, [])
    | _, _ => s.abort
  | .histogram i =>
    let c := cfg.array_core i
    let b := cfg.bucket_of (s.array i)
    if b < (s.counts c).length then
      ({ s with counts := Function.update s.counts c ((s.counts c).modify b (· + 1)) }, [])
    else s.abort
  | .offsets c =>
    if 0 < (s.offsets c).length ∧ (s.offsets c).length = (s.counts c).length then
      ({ s with offsets := Function.update s.offsets c (prefix_sums 0 (s.counts c)) }, [])
    else s.abort
  | .reserve id =>
    match (s.counts (cfg.bucket_core id))[id]? with
    | some count => (s.setBucket id ⟨[], count⟩, [])
    | none => s.abort
  | .scatter i =>
    let v := s.array i
    let b := cfg.bucket_of v
    if b < (s.counts (cfg.array_core i)).length then (s, [.append b v]) else s.abort
  | .append b v =>
    let bucket := (s.bucketlist b).append v
    if bucket.v.length ≤ bucket.maxelems then (s.setBucket b bucket, []) else s.abort
  | .sort b =>
    let bucket := s.bucketlist b
    if bucket.v.length = 0 then (s, [])
    else if 0 < bucket.maxelems then (s.setBucket b { bucket with v := cfg.qsort ui64cmp bucket.v }, [])
    else s.abort
  | .put_back b i =>
    let bucket := s.bucketlist b
    if i < bucket.v.length then
      match (s.offsets (cfg.bucket_core b))[b]? with
      | some offset =>
        if i < bucket.maxelems then
          (s, ((bucket.v.drop i).take NBUF).mapIdx (fun j v => .write (offset + i + j) v) ++
            [.put_back b (i + NBUF)])
        else s.abort
      | none => s.abort
    else (s, [])
  | .write address v => ({ s with array := Function.update s.array address v }, [])

/-- The main task between two loops. -/
def State.advance (s : State n) : Option (State n × List (Item n)) :=
  match s.phase with
  | .start => some ({ s with phase := .setup }, (List.finRange (n + 1)).map .setup)
  | .setup => some ({ s with phase := .histogram }, (List.range (forall_count cfg.nelems)).map .histogram)
  | .histogram =>
    if ∀ c, cfg.nbuckets = (s.counts c).length then
      some ({ s with phase := .offsets, counts := cfg.allreduce_inplace s.counts },
        (List.finRange (n + 1)).map .offsets)
    else some s.abort
  | .offsets =>
    some ({ s with phase := .reserve }, (List.range (forall_count cfg.nbuckets)).map .reserve)
  | .reserve => some ({ s with phase := .scatter }, (List.range (forall_count cfg.nelems)).map .scatter)
  | .scatter => some ({ s with phase := .sort }, (List.range (forall_count cfg.nbuckets)).map .sort)
  | .sort =>
    some ({ s with phase := .put_back }, (List.range (forall_count cfg.nbuckets)).map (.put_back · 0))
  | .put_back => none

/-- Nothing goes on after a failed check. -/
def bucket_sort : Phased.Program (State n) (Item n) where
  exec := fun s x => if s.aborted then none else some (x.exec cfg s)
  advance := fun s => if s.aborted then none else s.advance cfg

/-- Before the sort: the vectors are empty, and the buckets are what the memory holds. -/
def init (keys : ℕ → ℕ) (memory : ℕ → Bucket) : State n :=
  ⟨keys, fun _ => [], fun _ => [], memory, false, .start⟩

/-- The array, as a list. -/
def State.elements (s : State n) (nelems : ℕ) : List ℕ := (List.range nelems).map s.array

/-! ### The number of buckets -/

/-- `nbuckets = 1L << log2buckets`, where `nbuckets` is an `int`; undefined if the shift is by 64. -/
def parse_nbuckets (log2buckets : ℕ) : Option ℤ :=
  if log2buckets < 64 then some (Int.bmod (2 ^ log2buckets) (2 ^ 32)) else none

/-- An `int` that is passed as a `size_t`. -/
def size_t (x : ℤ) : ℕ := (x % 2 ^ 64).toNat

end BucketSort

end Grappa
