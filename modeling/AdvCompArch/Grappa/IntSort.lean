import AdvCompArch.Grappa.BucketSort

/-! # The integer sort of the NAS benchmarks

    `rank` and `full_verify`.  Each `rank` counts the keys of each core by bucket, adds the counts
    up, reserves the buckets, appends the keys to them by delegates that arrive in any order, and
    then ranks the keys of every bucket on the core that has it.  `full_verify` writes every key at
    its rank, and compares neighbours.

    `allreduce_inplace` is a parameter.  A vector, an array or a bucket that is left is taken as a
    failed check. -/

namespace Grappa

namespace IntSort

/-! ### Parameters -/

/-- The parameters of one sort, and the layout of the arrays over the cores. -/
structure Config (n : ℕ) where
  nkeys : ℕ
  log2buckets : ℕ
  log2maxkey : ℕ
  /-- `rank` is called with `0` to `niterations`. -/
  niterations : ℕ
  key_array : ℕ → ℕ
  key_core : ℕ → Fin (n + 1)
  bucket_core : ℕ → Fin (n + 1)
  sorted_core : ℕ → Fin (n + 1)
  /-- With `collective_add`: what the vector of each core is afterwards. -/
  allreduce_inplace : (Fin (n + 1) → List ℕ) → Fin (n + 1) → List ℕ
  /-- What fresh memory of the locale holds. -/
  storage : ℕ → ℕ

section parameters

variable {n : ℕ} (cfg : Config n)

/-- `nbuckets = 1L << log2buckets` -/
def Config.nbuckets : ℕ := 2 ^ cfg.log2buckets

def Config.BSHIFT : ℕ := cfg.log2maxkey - cfg.log2buckets

/-- `size_t b = k >> BSHIFT` -/
def Config.bucket_of (k : ℕ) : ℕ := k >>> cfg.BSHIFT

/-- `size_t bucket_range = 1 << BSHIFT` -/
def Config.bucket_range : ℕ := 2 ^ cfg.BSHIFT

/-- `size_t min_key = bucket_range * b_id` -/
def Config.min_key (b_id : ℕ) : ℕ := cfg.bucket_range * b_id

/-- The array, as a list. -/
def Config.keys : List ℕ := (List.range cfg.nkeys).map cfg.key_array

end parameters

/-! ### State -/

/-- A `LocalVector<size_t>`; `max_elem` is the length of `_storage`. -/
structure LocalVector where
  _storage : List ℕ
  _size : ℕ
  deriving DecidableEq

namespace LocalVector

/-- Storage that is too short is given back, with what it held. -/
def reserve (memory : ℕ → ℕ) (v : LocalVector) (m : ℕ) : LocalVector :=
  if v._storage.length < m then { v with _storage := (List.range m).map memory } else v

def resize (memory : ℕ → ℕ) (v : LocalVector) (m : ℕ) : LocalVector :=
  { v.reserve memory m with _size := m }

end LocalVector

/-- A `bucket_t`; `nelems` is the length of `v`. -/
structure Bucket where
  v : List ℕ
  maxelems : ℕ
  key_ranks : List ℕ
  deriving DecidableEq

/-- The phase of a `rank` comes with its iteration. -/
inductive Phase
  | start
  | construct
  | setup (iteration : ℕ)
  | histogram (iteration : ℕ)
  | offsets (iteration : ℕ)
  | reserve (iteration : ℕ)
  | scatter (iteration : ℕ)
  | local_rank (iteration : ℕ)
  | memset
  | verify
  | check
  deriving DecidableEq

structure State (n : ℕ) where
  counts : Fin (n + 1) → LocalVector
  bucket_ranks : Fin (n + 1) → LocalVector
  bucketlist : ℕ → Bucket
  sorted_keys : ℕ → ℤ
  /-- The loop variable `i` of `full_verify`, for each bucket. -/
  next : ℕ → ℕ
  /-- The writes of `full_verify` to `sorted_keys` that have arrived. -/
  written : List (ℕ × ℕ)
  /-- A check has failed. -/
  aborted : Bool
  phase : Phase

/-- The iterations of the loops, and the delegates. -/
inductive Item (n : ℕ)
  | construct (id : ℕ)
  | setup (c : Fin (n + 1))
  | histogram (i : ℕ)
  | offsets (c : Fin (n + 1))
  | reserve (id : ℕ)
  | scatter (i : ℕ)
  | append (b v : ℕ)
  | local_rank (b_id : ℕ)
  | memset (c : Fin (n + 1))
  | verify (b_id : ℕ)
  | write (address k : ℕ)
  | check (i : ℕ)
  deriving DecidableEq

/-! ### Steps -/

variable {n : ℕ} (cfg : Config n)

def State.abort (s : State n) : State n × List (Item n) := ({ s with aborted := true }, [])

def State.setBucket (s : State n) (b : ℕ) (bucket : Bucket) : State n :=
  { s with bucketlist := Function.update s.bucketlist b bucket }

def Bucket.append (b : Bucket) (val : ℕ) : Bucket := { b with v := b.v ++ [val] }

/-- `key_counts[v]++` for each value, where `key_counts` is `key_ranks - min_key`. -/
def count_keys (min_key : ℕ) : List ℕ → List ℕ → Option (List ℕ)
  | key_ranks, [] => some key_ranks
  | key_ranks, v :: b_buf =>
    if min_key ≤ v ∧ v - min_key < key_ranks.length then
      count_keys min_key (key_ranks.modify (v - min_key) (· + 1)) b_buf
    else none

def Item.exec (s : State n) : Item n → State n × List (Item n)
  | .construct id => (s.setBucket id { s.bucketlist id with v := [] }, [])
  | .setup c =>
    let resized := (s.counts c).resize cfg.storage cfg.nbuckets
    ({ s with
      counts := Function.update s.counts c
        { resized with _storage := resized._storage.mapIdx fun i x => if i < cfg.nbuckets then 0 else x }
      bucket_ranks := Function.update s.bucket_ranks c
        ((s.bucket_ranks c).resize cfg.storage cfg.nbuckets) }, [])
  | .histogram i =>
    let c := cfg.key_core i
    let b := cfg.bucket_of (cfg.key_array i)
    if b < (s.counts c)._storage.length then
      ({ s with
        counts := Function.update s.counts c
          { s.counts c with _storage := (s.counts c)._storage.modify b (· + 1) } }, [])
    else s.abort
  | .offsets c =>
    let ranks := BucketSort.prefix_sums 0 ((s.counts c)._storage.take cfg.nbuckets)
    if cfg.nbuckets ≤ (s.counts c)._storage.length ∧
        cfg.nbuckets ≤ (s.bucket_ranks c)._storage.length then
      ({ s with
        bucket_ranks := Function.update s.bucket_ranks c
          { s.bucket_ranks c with
            _storage := ranks ++ (s.bucket_ranks c)._storage.drop cfg.nbuckets } }, [])
    else s.abort
  | .reserve id =>
    match (s.counts (cfg.bucket_core id))._storage[id]? with
    | some count => (s.setBucket id { s.bucketlist id with v := [], maxelems := count }, [])
    | none => s.abort
  | .scatter i =>
    let v := cfg.key_array i
    let b := cfg.bucket_of v
    if b < (s.counts (cfg.key_core i))._size then (s, [.append b v]) else s.abort
  | .append b v =>
    let bucket := (s.bucketlist b).append v
    if bucket.v.length ≤ bucket.maxelems then (s.setBucket b bucket, []) else s.abort
  | .local_rank b_id =>
    let b := s.bucketlist b_id
    if b.v.length = 0 then (s, [])
    else if b_id < cfg.nbuckets ∧ 0 < b.maxelems then
      match count_keys (cfg.min_key b_id) (List.replicate cfg.bucket_range 0) b.v,
        (s.bucket_ranks (cfg.bucket_core b_id))._storage[b_id]? with
      | some key_counts, some accum =>
        (s.setBucket b_id { b with key_ranks := BucketSort.prefix_sums accum key_counts }, [])
      | _, _ => s.abort
    else s.abort
  | .memset c =>
    ({ s with
      sorted_keys := fun i => if i < cfg.nkeys ∧ cfg.sorted_core i = c then -1 else s.sorted_keys i },
      [])
  | .verify b_id =>
    let b := s.bucketlist b_id
    let i := s.next b_id
    match b.v[i]? with
    | some k =>
      if i < b.maxelems ∧ b_id <<< cfg.BSHIFT ≤ k then
        match b.key_ranks[k - b_id <<< cfg.BSHIFT]? with
        | some rank =>
          if rank < cfg.nkeys then
            ({ s.setBucket b_id
                { b with key_ranks := b.key_ranks.modify (k - b_id <<< cfg.BSHIFT) (· + 1) } with
              next := Function.update s.next b_id (i + 1) }, [.write rank k, .verify b_id])
          else s.abort
        | none => s.abort
      else s.abort
    | none => (s, [])
  | .write address k =>
    ({ s with
      sorted_keys := Function.update s.sorted_keys address k
      written := s.written ++ [(address, k)] }, [])
  | .check i => if s.sorted_keys i ≤ s.sorted_keys (i + 1) then (s, []) else s.abort

/-- The counts of all cores are added up. -/
def State.allreduce (s : State n) : State n :=
  { s with
    counts := fun c => { s.counts c with
      _storage := cfg.allreduce_inplace (fun c => (s.counts c)._storage.take (s.counts c)._size) c ++
        (s.counts c)._storage.drop (s.counts c)._size } }

/-- The main task between two loops. -/
def State.advance (s : State n) : Option (State n × List (Item n)) :=
  match s.phase with
  | .start =>
    some ({ s with phase := .construct },
      (List.range (BucketSort.forall_count cfg.nbuckets)).map .construct)
  | .construct => some ({ s with phase := .setup 0 }, (List.finRange (n + 1)).map .setup)
  | .setup iteration =>
    some ({ s with phase := .histogram iteration },
      (List.range (BucketSort.forall_count cfg.nkeys)).map .histogram)
  | .histogram iteration =>
    some ({ s.allreduce cfg with phase := .offsets iteration }, (List.finRange (n + 1)).map .offsets)
  | .offsets iteration =>
    some ({ s with phase := .reserve iteration },
      (List.range (BucketSort.forall_count cfg.nbuckets)).map .reserve)
  | .reserve iteration =>
    some ({ s with phase := .scatter iteration },
      (List.range (BucketSort.forall_count cfg.nkeys)).map .scatter)
  | .scatter iteration =>
    some ({ s with phase := .local_rank iteration }, (List.range cfg.nbuckets).map .local_rank)
  | .local_rank iteration =>
    if iteration < cfg.niterations then
      some ({ s with phase := .setup (iteration + 1) }, (List.finRange (n + 1)).map .setup)
    else some ({ s with phase := .memset, written := [] }, (List.finRange (n + 1)).map .memset)
  | .memset =>
    some ({ s with phase := .verify, next := fun _ => 0 },
      (List.range (BucketSort.forall_count cfg.nbuckets)).map .verify)
  | .verify =>
    some ({ s with phase := .check },
      (List.range (BucketSort.forall_count (cfg.nkeys - 1))).map .check)
  | .check => none

/-- The calls of `rank`, and `full_verify`.  Nothing goes on after a failed check. -/
def is_benchmark : Phased.Program (State n) (Item n) where
  exec := fun s x => if s.aborted then none else some (x.exec cfg s)
  advance := fun s => if s.aborted then none else s.advance cfg

/-- Before the first `rank`: the vectors are empty, and the buckets are what the memory holds. -/
def init (memory : ℕ → Bucket) (sorted_keys : ℕ → ℤ) : State n :=
  ⟨fun _ => ⟨[], 0⟩, fun _ => ⟨[], 0⟩, memory, sorted_keys, fun _ => 0, [], false, .start⟩

end IntSort

end Grappa
