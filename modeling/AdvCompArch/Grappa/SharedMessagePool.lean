import AdvCompArch.Lib.Extents
import AdvCompArch.Lib.Transition
import Mathlib.Data.List.FinRange
import Mathlib.Data.Nat.Bitwise

/-! # The shared message pool

    Messages on the heap come from `SharedMessagePool::alloc`: those of more than
    `MAX_POOL_MESSAGE_SIZE` bytes from the heap of the locale, the others from a pool for their
    number of cache lines.  A pool carves objects of one size off chunks from the locale's heap,
    and keeps the objects that have been freed on `ALLOCATOR_PREFETCH_DISTANCE` lists in turn,
    linked through the objects themselves.

    There are pools for up to `MAX_POOL_CACHELINE_COUNT` cache lines, and the pool at index `i`
    has objects of `i + 1` of them; but a message of `i` cache lines is given to the pool at
    index `i`, so that a message of exactly `MAX_POOL_MESSAGE_SIZE` bytes is sent beyond the last
    one.

    The heap of the locale gives any memory that is apart from what the pool and the large
    messages hold, and the owner of a message writes to all of it. -/

namespace Grappa

open Extents Function List Transition Option

def CACHE_LINE_SIZE : ℕ := 64

def MAX_POOL_MESSAGE_SIZE : ℕ := 1 <<< 10

def MAX_POOL_MESSAGE_SIZE_PREALLOCATED_CUTOFF : ℕ := 1 <<< 8

def MAX_POOL_CACHELINE_COUNT : ℕ := MAX_POOL_MESSAGE_SIZE / CACHE_LINE_SIZE

def ALLOCATOR_PREFETCH_DISTANCE : ℕ := 8

instance : NeZero ALLOCATOR_PREFETCH_DISTANCE := ⟨by decide⟩

instance : NeZero MAX_POOL_CACHELINE_COUNT := ⟨by decide⟩

/-- `ALIGN_UP`. -/
def align_up (x y : ℕ) : ℕ := if x &&& (y - 1) ≠ 0 then x - (x &&& (y - 1)) + y else x

/-- A chunk, with the offset of what has not been carved off. -/
structure MemoryChunk where
  chunk : ℕ
  chunk_size : ℕ
  offset : ℕ
  deriving DecidableEq

/-- An `aligned_allocator`, with the last chunk first. -/
structure AlignedAllocator where
  align_on : ℕ
  chunk_size : ℕ
  chunks : List MemoryChunk
  deriving DecidableEq

structure AlignedPoolAllocator where
  aa : AlignedAllocator
  object_size : ℕ
  first_index : Fin ALLOCATOR_PREFETCH_DISTANCE
  firsts : Fin ALLOCATOR_PREFETCH_DISTANCE → Option ℕ

/-- The index of a size class. -/
abbrev PoolIndex : Type := Fin MAX_POOL_CACHELINE_COUNT

/-- A message that has been allocated: its memory, its size, and the pool it is from, none for
    the heap of the locale. -/
structure PoolBlock where
  extent : Extent
  sz : ℕ
  pool : Option PoolIndex
  deriving DecidableEq

/-- The pools; the links in the memory of free objects; the bytes allocated for the pools; the
    live messages; and the indexes that have been used with `message_pool`, and for each free
    where the block was from and where it went. -/
structure SharedMessagePool where
  message_pool : PoolIndex → AlignedPoolAllocator
  links : ℕ → Option ℕ
  shared_pool_total_allocated : ℕ
  live : List PoolBlock
  accessed : List ℕ
  returned : List (Option PoolIndex × Option PoolIndex)

/-! ### Chunks -/

namespace MemoryChunk

def extent (c : MemoryChunk) : Extent := ⟨c.chunk, c.chunk_size⟩

/-- What has not been carved off. -/
def rest (c : MemoryChunk) : Extent := ⟨c.chunk + c.offset, c.chunk_size - c.offset⟩

theorem rest_inside {c : MemoryChunk} (h : c.offset ≤ c.chunk_size) : c.rest.Inside c.extent := by
  constructor
  · exact Nat.le_add_right _ _
  · show c.chunk + c.offset + (c.chunk_size - c.offset) ≤ c.chunk + c.chunk_size
    omega

/-- An object at the offset is in what has not been carved off, before what is then left. -/
theorem carve_rest {c : MemoryChunk} {size : ℕ} (h : size ≤ c.chunk_size - c.offset) :
    Extent.Inside ⟨c.chunk + c.offset, size⟩ c.rest ∧
      Extent.Inside { c with offset := c.offset + size }.rest c.rest ∧
      Extent.Apart ⟨c.chunk + c.offset, size⟩ { c with offset := c.offset + size }.rest := by
  refine ⟨⟨le_refl _, ?_⟩, ⟨?_, ?_⟩, .inl ?_⟩
  · show c.chunk + c.offset + size ≤ c.chunk + c.offset + (c.chunk_size - c.offset)
    omega
  · show c.chunk + c.offset ≤ c.chunk + (c.offset + size)
    omega
  · show c.chunk + (c.offset + size) + (c.chunk_size - (c.offset + size)) ≤
      c.chunk + c.offset + (c.chunk_size - c.offset)
    omega
  · show c.chunk + c.offset + size ≤ c.chunk + (c.offset + size)
    omega

end MemoryChunk

namespace AlignedAllocator

variable (aa : AlignedAllocator) (size : ℕ)

def init (align_on chunk_size : ℕ) : AlignedAllocator := ⟨align_on, chunk_size, []⟩

/-- The size of another chunk. -/
def new_chunk_size : ℕ := max size aa.chunk_size + aa.align_on

/-- `_aligned_allocator_append_chunk`, with the memory at `p`. -/
def append_chunk (p : ℕ) : AlignedAllocator :=
  { aa with chunks := ⟨p, aa.new_chunk_size size, align_up p aa.align_on - p⟩ :: aa.chunks }

/-- There is no chunk, or the last one has no room. -/
def full : Bool :=
  match aa.chunks with
  | [] => true
  | c :: _ => c.chunk_size - c.offset < size

/-- An object is carved off the last chunk. -/
def carve : Option (ℕ × AlignedAllocator) :=
  match aa.chunks with
  | [] => none
  | c :: cs =>
    some (c.chunk + c.offset, { aa with chunks := { c with offset := c.offset + size } :: cs })

end AlignedAllocator

/-! ### Pools -/

namespace AlignedPoolAllocator

def init (align_on object_size chunk_count : ℕ) : AlignedPoolAllocator :=
  let object_size := max object_size 8
  ⟨AlignedAllocator.init align_on (object_size * chunk_count), object_size, 0, fun _ => none⟩

/-- The default list if it has an object, or the first one that has; and that object. -/
def search (apa : AlignedPoolAllocator) : Option (Fin ALLOCATOR_PREFETCH_DISTANCE × ℕ) :=
  match apa.firsts apa.first_index with
  | some ret => some (apa.first_index, ret)
  | none => (List.finRange _).findSome? fun index => (apa.firsts index).map fun ret => (index, ret)

theorem firsts_of_search {apa : AlignedPoolAllocator} {index : Fin ALLOCATOR_PREFETCH_DISTANCE}
    {ret : ℕ} (h : apa.search = some (index, ret)) : apa.firsts index = some ret := by
  unfold search at h
  split at h
  · rename_i first hfirst
    cases h
    exact hfirst
  · obtain ⟨k, -, hk⟩ := exists_of_findSome?_eq_some h
    obtain ⟨first, hfirst, heq⟩ := map_eq_some_iff.mp hk
    cases heq
    exact hfirst

/-- The list `index` starts with `first`, and the next one is in turn. -/
def setFirst (apa : AlignedPoolAllocator) (index : Fin ALLOCATOR_PREFETCH_DISTANCE)
    (first : Option ℕ) : AlignedPoolAllocator :=
  { apa with firsts := Function.update apa.firsts index first, first_index := index + 1 }

end AlignedPoolAllocator

namespace SharedMessagePool

variable (shared_pool_chunk_size shared_pool_max_size : ℕ) (s : SharedMessagePool)
  (i : PoolIndex) (sz : ℕ) (no_switch : Bool) (p : ℕ)

/-- `activate`, for the pool at index `i`. -/
def activate : AlignedPoolAllocator :=
  let message_size := (i.val + 1) * CACHE_LINE_SIZE
  let chunk_count :=
    if MAX_POOL_MESSAGE_SIZE_PREALLOCATED_CUTOFF / CACHE_LINE_SIZE ≤ i.val then 1
    else shared_pool_chunk_size / message_size
  AlignedPoolAllocator.init CACHE_LINE_SIZE message_size chunk_count

def setPool (apa : AlignedPoolAllocator) : SharedMessagePool :=
  { s with message_pool := Function.update s.message_pool i apa }

/-- Memory that the heap of the locale can give: apart from the chunks and the large messages. -/
def Fresh (e : Extent) : Prop :=
  (∀ j, ∀ c ∈ (s.message_pool j).aa.chunks, e.Apart c.extent) ∧
    ∀ b ∈ s.live, b.pool = none → e.Apart b.extent

instance (e : Extent) : Decidable (s.Fresh e) := inferInstanceAs (Decidable (_ ∧ _))

/-- A chunk is appended; what counts as allocated is its structure and its memory. -/
def append_chunk (size : ℕ) : SharedMessagePool :=
  let apa := s.message_pool i
  { s.setPool i { apa with aa := apa.aa.append_chunk size p } with
    shared_pool_total_allocated := s.shared_pool_total_allocated + CACHE_LINE_SIZE +
      max (apa.aa.new_chunk_size size) CACHE_LINE_SIZE }

/-- A new object is carved off the last chunk. -/
def carve (size : ℕ) : Option SharedMessagePool :=
  ((s.message_pool i).aa.carve size).map fun (q, aa) =>
    { s.setPool i { s.message_pool i with aa := aa } with
      live := ⟨⟨q, (s.message_pool i).object_size⟩, sz, some i⟩ :: s.live }

/-- `aligned_allocator_alloc` of an object; a chunk that has just been appended has room. -/
def new_object : Option SharedMessagePool :=
  let apa := s.message_pool i
  let size := align_up apa.object_size apa.aa.align_on
  if apa.aa.full size then
    if s.Fresh ⟨p, apa.aa.new_chunk_size size⟩ then (s.append_chunk i p size).carve i sz size
    else none
  else s.carve i sz size

/-- An object is taken from the list `index`. -/
def take (index : Fin ALLOCATOR_PREFETCH_DISTANCE) (ret : ℕ) : SharedMessagePool :=
  { s.setPool i ((s.message_pool i).setFirst index (s.links ret)) with
    links := Function.update s.links ret none
    live := ⟨⟨ret, (s.message_pool i).object_size⟩, sz, some i⟩ :: s.live }

/-- A round of the loop in `aligned_pool_allocator_alloc`; where the pool has reached its limit
    the task yields, and another round comes later. -/
def aligned_pool_allocator_alloc : Option SharedMessagePool :=
  match (s.message_pool i).search with
  | some (index, ret) => some (s.take i sz index ret)
  | none =>
    if s.shared_pool_total_allocated < shared_pool_max_size ∨ no_switch then
      s.new_object i sz p
    else some s

/-- The object becomes the first one of the list whose turn it is. -/
def aligned_pool_allocator_free (b : PoolBlock) : SharedMessagePool :=
  let apa := s.message_pool i
  { s.setPool i (apa.setFirst apa.first_index (some b.extent.start)) with
    links := Function.update s.links b.extent.start (apa.firsts apa.first_index)
    live := s.live.erase b
    returned := (b.pool, some i) :: s.returned }

/-- A message of a large size. -/
def locale_alloc : Option SharedMessagePool :=
  if s.Fresh ⟨p, sz⟩ then some { s with live := ⟨⟨p, sz⟩, sz, none⟩ :: s.live } else none

def locale_free (b : PoolBlock) : SharedMessagePool :=
  { s with live := s.live.erase b, returned := (b.pool, none) :: s.returned }

/-- `message_pool` is used with this index. -/
def access (cacheline_count : ℕ) : SharedMessagePool :=
  { s with accessed := cacheline_count :: s.accessed }

/-- `alloc`; nothing is known of what an access beyond the last pool gives. -/
def alloc : Option SharedMessagePool :=
  let cacheline_count := sz / CACHE_LINE_SIZE
  if cacheline_count * CACHE_LINE_SIZE = sz then
    if MAX_POOL_MESSAGE_SIZE < sz then s.locale_alloc sz p
    else if h : cacheline_count < MAX_POOL_CACHELINE_COUNT then
      (s.access cacheline_count).aligned_pool_allocator_alloc shared_pool_max_size
        ⟨cacheline_count, h⟩ sz no_switch p
    else some (s.access cacheline_count)
  else none

def free (b : PoolBlock) : SharedMessagePool :=
  let cacheline_count := b.sz / CACHE_LINE_SIZE
  if MAX_POOL_MESSAGE_SIZE < b.sz then s.locale_free b
  else if h : cacheline_count < MAX_POOL_CACHELINE_COUNT then
    (s.access cacheline_count).aligned_pool_allocator_free ⟨cacheline_count, h⟩ b
  else s.access cacheline_count

inductive Label where
  /-- A message is allocated, in a region where the task must not switch or elsewhere; `p` is the
      memory from the heap of the locale. -/
  | alloc (sz : ℕ) (no_switch : Bool) (p : ℕ)
  /-- A message has been sent and is deleted. -/
  | free (b : PoolBlock)
  /-- The owner of a message writes a word. -/
  | write (a : ℕ) (v : Option ℕ)
  deriving DecidableEq

/-- The word at `a` is in a live message. -/
def Owned (a : ℕ) : Prop := ∃ b ∈ s.live, b.extent.start ≤ a ∧ a + 8 ≤ b.extent.start + b.sz

instance (a : ℕ) : Decidable (s.Owned a) := List.decidableBEx _ _

def next : Label → Option SharedMessagePool
  | .alloc sz no_switch p => s.alloc shared_pool_max_size sz no_switch p
  | .free b => if b ∈ s.live then some (s.free b) else none
  | .write a v => if s.Owned a then some { s with links := Function.update s.links a v } else none

/-- After `activate`. -/
def init : SharedMessagePool := ⟨activate shared_pool_chunk_size, fun _ => none, 0, [], [], []⟩

def system : Transition.System SharedMessagePool Label where
  init := init shared_pool_chunk_size
  next := next shared_pool_max_size

/-! ### The invariant -/

/-- An object of the pool at index `i`. -/
def object (a : ℕ) : Extent := ⟨a, (i.val + 1) * CACHE_LINE_SIZE⟩

/-- The extent is in a chunk of the pool. -/
def Holds (apa : AlignedPoolAllocator) (e : Extent) : Prop :=
  ∃ c ∈ apa.aa.chunks, e.Inside c.extent

/-- Where memory of the pools can be. -/
inductive Place where
  | live
  | free (i : PoolIndex) (index : Fin ALLOCATOR_PREFETCH_DISTANCE)
  | rest (i : PoolIndex)
  deriving DecidableEq

/-- The objects on the lists. -/
abbrev FreeLists : Type := PoolIndex → Fin ALLOCATOR_PREFETCH_DISTANCE → List ℕ

variable (free : FreeLists)

def place : Place → List Extent
  | .live => s.live.map PoolBlock.extent
  | .free i index => (free i index).map (object i)
  | .rest i => ((s.message_pool i).aa.chunks.take 1).map MemoryChunk.rest

/-- A pool, with the objects on its lists. -/
structure PoolOk (apa : AlignedPoolAllocator) (links : ℕ → Option ℕ)
    (free : Fin ALLOCATOR_PREFETCH_DISTANCE → List ℕ) : Prop where
  object_size : apa.object_size = (i.val + 1) * CACHE_LINE_SIZE
  align_on : apa.aa.align_on = CACHE_LINE_SIZE
  offset_le : ∀ c ∈ apa.aa.chunks, c.offset ≤ c.chunk_size
  linked : ∀ index, Linked links (apa.firsts index) (free index)
  inside : ∀ index, ∀ a ∈ free index, Holds apa (object i a)

/-- The memory of a live message. -/
def BlockOk (b : PoolBlock) : Prop :=
  match b.pool with
  | some i => b.extent.size = (i.val + 1) * CACHE_LINE_SIZE ∧ b.sz = i.val * CACHE_LINE_SIZE ∧
      Holds (s.message_pool i) b.extent
  | none => b.extent.size = b.sz ∧ MAX_POOL_MESSAGE_SIZE < b.sz

structure Inv : Prop where
  pools : ∀ i, PoolOk i (s.message_pool i) s.links (free i)
  blocks : ∀ b ∈ s.live, s.BlockOk b
  spread : Spread (s.place free)
  accessed : ∀ n ∈ s.accessed, n < MAX_POOL_CACHELINE_COUNT
  returned : ∀ r ∈ s.returned, r.1 = r.2

variable {shared_pool_chunk_size shared_pool_max_size s i sz no_switch p free}
  {s' : SharedMessagePool} {apa apa' : AlignedPoolAllocator} {size : ℕ} {b : PoolBlock}

theorem align_up_two_pow (x k : ℕ) : x ≤ align_up x (2 ^ k) ∧ align_up x (2 ^ k) < x + 2 ^ k := by
  unfold align_up
  rw [Nat.and_two_pow_sub_one_eq_mod]
  have hlt : x % 2 ^ k < 2 ^ k := Nat.mod_lt _ (Nat.two_pow_pos k)
  have hle : x % 2 ^ k ≤ x := Nat.mod_le _ _
  split <;> omega

theorem align_up_cache_line (x : ℕ) :
    x ≤ align_up x CACHE_LINE_SIZE ∧ align_up x CACHE_LINE_SIZE < x + CACHE_LINE_SIZE :=
  align_up_two_pow x 6

theorem align_up_mul (n : ℕ) :
    align_up (n * CACHE_LINE_SIZE) CACHE_LINE_SIZE = n * CACHE_LINE_SIZE := by
  have hmod : n * CACHE_LINE_SIZE &&& (CACHE_LINE_SIZE - 1) =
      n * CACHE_LINE_SIZE % CACHE_LINE_SIZE :=
    Nat.and_two_pow_sub_one_eq_mod _ 6
  unfold align_up
  rw [hmod, Nat.mul_mod_left]
  exact if_neg (by simp)

theorem init_inv : (init shared_pool_chunk_size).Inv (fun _ _ => []) where
  pools := by
    intro i
    exact {
      object_size := by
        show max ((i.val + 1) * CACHE_LINE_SIZE) 8 = _
        simp only [CACHE_LINE_SIZE]
        omega
      align_on := rfl
      offset_le := by simp [init, activate, AlignedPoolAllocator.init, AlignedAllocator.init]
      linked := fun _ => rfl
      inside := by simp }
  blocks := by simp [init]
  spread := by
    apply Spread.of_empty
    intro q
    cases q with
    | live => rfl
    | free i index => rfl
    | rest i => rfl
  accessed := by simp [init]
  returned := by simp [init]

/-! ### What the invariant says of memory -/

theorem PoolOk.rest_inside {links : ℕ → Option ℕ}
    {free : Fin ALLOCATOR_PREFETCH_DISTANCE → List ℕ} (h : PoolOk i apa links free)
    {c : MemoryChunk} (hc : c ∈ apa.aa.chunks) : c.rest.Inside c.extent :=
  MemoryChunk.rest_inside (h.offset_le c hc)

theorem BlockOk.sz_le (h : s.BlockOk b) : b.sz ≤ b.extent.size := by
  unfold BlockOk at h
  split at h
  · obtain ⟨hsize, hsz, -⟩ := h
    rw [hsize, hsz]
    exact Nat.mul_le_mul_right _ (Nat.le_succ _)
  · exact h.1.ge

theorem BlockOk.size_pos (h : s.BlockOk b) : 0 < b.extent.size := by
  unfold BlockOk at h
  split at h
  · rw [h.1]
    exact Nat.mul_pos (Nat.succ_pos _) (by decide)
  · rw [h.1]
    exact Nat.zero_lt_of_lt h.2

/-- **Fresh memory is apart** from all that is in use. -/
theorem Inv.fresh_apart (hi : s.Inv free) {e : Extent} (hfresh : s.Fresh e) (q : Place) :
    ∀ f ∈ s.place free q, e.Apart f := by
  have hheld {i : PoolIndex} {f : Extent} (h : Holds (s.message_pool i) f) : e.Apart f := by
    obtain ⟨c, hc, hin⟩ := h
    exact (hfresh.1 i c hc).inside (.refl _) hin
  intro f hf
  cases q with
  | live =>
    obtain ⟨b, hb, rfl⟩ := mem_map.mp hf
    have hok := hi.blocks b hb
    cases hpool : b.pool with
    | none => exact hfresh.2 b hb hpool
    | some i =>
      unfold BlockOk at hok
      rw [hpool] at hok
      exact hheld hok.2.2
  | free i index =>
    obtain ⟨a, ha, rfl⟩ := mem_map.mp hf
    exact hheld ((hi.pools i).inside index a ha)
  | rest i =>
    obtain ⟨c, hc, rfl⟩ := mem_map.mp hf
    have hc := mem_of_mem_take hc
    exact hheld ⟨c, hc, (hi.pools i).rest_inside hc⟩

theorem Inv.not_free (hi : s.Inv free) (hb : b ∈ s.live) {a : ℕ}
    (ha : b.extent.start ≤ a ∧ a < b.extent.stop) (i : PoolIndex)
    (index : Fin ALLOCATOR_PREFETCH_DISTANCE) : a ∉ free i index := by
  intro hmem
  have hapart := hi.spread.across .live (.free i index) (by simp) b.extent
    (mem_map_of_mem hb) (object i a) (mem_map_of_mem hmem)
  refine hapart.absurd ha ⟨le_refl _, ?_⟩
  show a < a + (i.val + 1) * CACHE_LINE_SIZE
  exact Nat.lt_add_of_pos_right (Nat.mul_pos (Nat.succ_pos _) (by decide))

theorem PoolOk.update_links {links : ℕ → Option ℕ}
    {free : Fin ALLOCATOR_PREFETCH_DISTANCE → List ℕ} (h : PoolOk i apa links free) {a : ℕ}
    (ha : ∀ index, a ∉ free index) (v : Option ℕ) :
    PoolOk i apa (Function.update links a v) free :=
  { h with linked := fun index => (h.linked index).update (ha index) }

theorem BlockOk.mono (h : s.BlockOk b)
    (hkeep : ∀ i e, Holds (s.message_pool i) e → Holds (s'.message_pool i) e) : s'.BlockOk b := by
  unfold BlockOk at h ⊢
  split at h
  · exact ⟨h.1, h.2.1, hkeep _ _ h.2.2⟩
  · exact h

theorem pools_update {links : ℕ → Option ℕ}
    {lists : Fin ALLOCATOR_PREFETCH_DISTANCE → List ℕ} (hnew : PoolOk i apa links lists)
    (hother : ∀ j, j ≠ i → PoolOk j (s.message_pool j) links (free j)) (j : PoolIndex) :
    PoolOk j (Function.update s.message_pool i apa j) links (Function.update free i lists j) := by
  by_cases hji : j = i
  · subst hji
    rw [update_self, update_self]
    exact hnew
  · rw [update_of_ne hji, update_of_ne hji]
    exact hother j hji

theorem holds_update (hkeep : ∀ e, Holds (s.message_pool i) e → Holds apa e) (j : PoolIndex)
    (e : Extent) (h : Holds (s.message_pool j) e) :
    Holds (Function.update s.message_pool i apa j) e := by
  by_cases hji : j = i
  · subst hji
    rw [update_self]
    exact hkeep e h
  · rwa [update_of_ne hji]

/-! ### Chunks -/

/-- **A chunk is appended.** -/
theorem append_chunk_inv (hi : s.Inv free)
    (hfresh : s.Fresh ⟨p, (s.message_pool i).aa.new_chunk_size size⟩) :
    (s.append_chunk i p size).Inv free := by
  have hpool := hi.pools i
  generalize hc : (⟨p, (s.message_pool i).aa.new_chunk_size size,
    align_up p (s.message_pool i).aa.align_on - p⟩ : MemoryChunk) = c
  generalize hapa : { s.message_pool i with
    aa := (s.message_pool i).aa.append_chunk size p } = apa
  have hchunks : apa.aa.chunks = c :: (s.message_pool i).aa.chunks := by
    rw [← hapa, ← hc]
    rfl
  have hoffset : c.offset ≤ c.chunk_size := by
    have halign := align_up_cache_line p
    rw [← hc]
    show align_up p (s.message_pool i).aa.align_on - p ≤
      max size (s.message_pool i).aa.chunk_size + (s.message_pool i).aa.align_on
    rw [hpool.align_on]
    omega
  have hkeep (e : Extent) (h : Holds (s.message_pool i) e) : Holds apa e := by
    obtain ⟨d, hd, hin⟩ := h
    refine ⟨d, ?_, hin⟩
    rw [hchunks]
    exact mem_cons_of_mem _ hd
  have hok : PoolOk i apa s.links (free i) := {
    object_size := by
      rw [← hapa]
      exact hpool.object_size
    align_on := by
      rw [← hapa]
      exact hpool.align_on
    offset_le := by
      intro d hd
      rw [hchunks] at hd
      rcases mem_cons.mp hd with rfl | hd
      · exact hoffset
      · exact hpool.offset_le d hd
    linked := by
      rw [← hapa]
      exact hpool.linked
    inside := fun index a ha => hkeep _ (hpool.inside index a ha) }
  have hpools : (s.append_chunk i p size).message_pool = update s.message_pool i apa := by
    rw [← hapa]
    rfl
  exact { hi with
    pools := by
      intro j
      rw [hpools, ← update_eq_self i free]
      exact pools_update hok (fun j _ => hi.pools j) j
    blocks := by
      intro b hb
      apply (hi.blocks b hb).mono
      rw [hpools]
      exact holds_update hkeep
    spread := by
      have hrest : (s.append_chunk i p size).place free (.rest i) = [c.rest] := by
        show (((s.append_chunk i p size).message_pool i).aa.chunks.take 1).map _ = _
        rw [hpools, update_self, hchunks]
        rfl
      apply hi.spread.change (i := .rest i)
      · rw [hrest]
        exact pairwise_singleton _ _
      · intro q _ e he f hf
        rw [hrest, mem_singleton] at he
        rw [he]
        -- all other memory is apart from the whole chunk
        refine (hi.fresh_apart hfresh q f hf).inside ?_ (.refl _)
        have hin : c.rest.Inside c.extent :=
          hok.rest_inside (by rw [hchunks]; exact mem_cons_self ..)
        rw [← hc] at hin ⊢
        exact hin
      · intro q hq
        cases q with
        | live => rfl
        | free j index => rfl
        | rest j =>
          have hji : j ≠ i := fun h => hq (congrArg _ h)
          show (((s.append_chunk i p size).message_pool j).aa.chunks.take 1).map _ = _
          rw [hpools, update_of_ne hji]
          rfl }

theorem append_chunk_room (hi : s.Inv free) :
    ((s.append_chunk i p size).message_pool i).aa.full size = false := by
  have hpools : ((s.append_chunk i p size).message_pool i).aa =
      (s.message_pool i).aa.append_chunk size p := by
    show (update s.message_pool i _ i).aa = _
    rw [update_self]
  rw [hpools]
  show decide (max size (s.message_pool i).aa.chunk_size + (s.message_pool i).aa.align_on -
    (align_up p (s.message_pool i).aa.align_on - p) < size) = false
  have halign := align_up_cache_line p
  have hle := le_max_left size (s.message_pool i).aa.chunk_size
  rw [(hi.pools i).align_on, decide_eq_false_iff_not]
  omega

/-- **An object is carved off** the last chunk. -/
theorem carve_inv (hi : s.Inv free) (hroom : (s.message_pool i).aa.full size = false)
    (hsize : size = (i.val + 1) * CACHE_LINE_SIZE) (hsz : sz = i.val * CACHE_LINE_SIZE)
    (h : s.carve i sz size = some s') : s'.Inv free := by
  have hpool := hi.pools i
  cases hchunks : (s.message_pool i).aa.chunks with
  | nil => simp [AlignedAllocator.full, hchunks] at hroom
  | cons c cs =>
  have hroom : size ≤ c.chunk_size - c.offset := by
    simpa [AlignedAllocator.full, hchunks] using hroom
  have hoffset : c.offset ≤ c.chunk_size := hpool.offset_le c (by simp [hchunks])
  generalize hc' : ({ c with offset := c.offset + size } : MemoryChunk) = c'
  have hextent : c'.extent = c.extent := by
    rw [← hc']
    rfl
  generalize hapa : { s.message_pool i with
    aa := { (s.message_pool i).aa with chunks := c' :: cs } } = apa
  have hkeep (e : Extent) (h : Holds (s.message_pool i) e) : Holds apa e := by
    obtain ⟨d, hd, hin⟩ := h
    rw [hchunks] at hd
    rw [← hapa]
    rcases mem_cons.mp hd with rfl | hd
    · exact ⟨c', mem_cons_self .., hextent ▸ hin⟩
    · exact ⟨d, mem_cons_of_mem _ hd, hin⟩
  have hok : PoolOk i apa s.links (free i) := {
    object_size := by
      rw [← hapa]
      exact hpool.object_size
    align_on := by
      rw [← hapa]
      exact hpool.align_on
    offset_le := by
      intro d hd
      rw [← hapa] at hd
      rcases mem_cons.mp hd with rfl | hd
      · rw [← hc']
        show c.offset + size ≤ c.chunk_size
        omega
      · exact hpool.offset_le d (by simp [hchunks, hd])
    linked := by
      rw [← hapa]
      exact hpool.linked
    inside := fun index a ha => hkeep _ (hpool.inside index a ha) }
  obtain ⟨heinside, hinside, hapart⟩ := MemoryChunk.carve_rest hroom
  rw [hc'] at hinside hapart
  generalize he : (⟨c.chunk + c.offset, size⟩ : Extent) = e at heinside hapart
  have hesize : e.size = (s.message_pool i).object_size := by
    rw [← he, hpool.object_size]
    exact hsize
  have heq : s' = { s.setPool i apa with live := ⟨e, sz, some i⟩ :: s.live } := by
    unfold carve at h
    rw [AlignedAllocator.carve, hchunks] at h
    rw [← some.inj h, ← he, ← hapa, ← hc', hpool.object_size, hsize]
  subst heq
  exact { hi with
    pools := by
      intro j
      show PoolOk j (update s.message_pool i apa j) s.links (free j)
      rw [← update_eq_self i free]
      exact pools_update hok (fun j _ => hi.pools j) j
    blocks := by
      intro b hb
      have hkeeps := holds_update hkeep
      rcases mem_cons.mp hb with rfl | hb
      · refine ⟨hesize.trans hpool.object_size, hsz, hkeeps i e ⟨c, by simp [hchunks], ?_⟩⟩
        exact heinside.trans (hpool.rest_inside (by simp [hchunks]))
      · exact (hi.blocks b hb).mono hkeeps
    spread := by
      apply hi.spread.carve (i := .rest i) (j := .live) (by simp) _ heinside hinside hapart
      · show ((update s.message_pool i apa i).aa.chunks.take 1).map _ = _
        rw [update_self, ← hapa]
        rfl
      · rfl
      · intro q hq hlive
        cases q with
        | live => exact absurd rfl hlive
        | free j index => rfl
        | rest j =>
          have hji : j ≠ i := fun h => hq (congrArg _ h)
          show ((update s.message_pool i apa j).aa.chunks.take 1).map _ = _
          rw [update_of_ne hji]
          rfl
      · show ((s.message_pool i).aa.chunks.take 1).map _ = _
        rw [hchunks]
        rfl }

theorem new_object_inv (hi : s.Inv free) (hsz : sz = i.val * CACHE_LINE_SIZE)
    (h : s.new_object i sz p = some s') : s'.Inv free := by
  have hsize : align_up (s.message_pool i).object_size (s.message_pool i).aa.align_on =
      (i.val + 1) * CACHE_LINE_SIZE := by
    rw [(hi.pools i).object_size, (hi.pools i).align_on, align_up_mul]
  unfold new_object at h
  simp only [hsize] at h
  split at h
  · obtain ⟨hfresh, hcarve⟩ := ite_none_right_eq_some.mp h
    exact carve_inv (append_chunk_inv hi hfresh) (append_chunk_room hi) rfl hsz hcarve
  · rename_i hroom
    exact carve_inv hi (Bool.eq_false_of_not_eq_true hroom) rfl hsz h

/-! ### Lists -/

variable {index : Fin ALLOCATOR_PREFETCH_DISTANCE} {ret : ℕ} {l : List ℕ}

/-- The lists with another list at one index. -/
def setList (free : FreeLists) (i : PoolIndex) (index : Fin ALLOCATOR_PREFETCH_DISTANCE)
    (l : List ℕ) : FreeLists :=
  Function.update free i (Function.update (free i) index l)

theorem setList_self : setList free i index l i index = l := by
  rw [setList, update_self, update_self]

theorem setList_of_ne {j : PoolIndex} {k : Fin ALLOCATOR_PREFETCH_DISTANCE}
    (h : Place.free j k ≠ .free i index) : setList free i index l j k = free j k := by
  unfold setList
  by_cases hji : j = i
  · subst hji
    rw [update_self, update_of_ne fun hk => h (congrArg _ hk)]
  · rw [update_of_ne hji]

/-- **One list changes**, with its first object and a link in memory that no other list uses. -/
theorem pools_setList (hi : s.Inv free) {a : ℕ} {v first : Option ℕ}
    (hother : ∀ j k, Place.free j k ≠ .free i index → a ∉ free j k)
    (hlinked : Linked (Function.update s.links a v) first l)
    (hinside : ∀ x ∈ l, Holds (s.message_pool i) (object i x)) (j : PoolIndex) :
    PoolOk j (Function.update s.message_pool i ((s.message_pool i).setFirst index first) j)
      (Function.update s.links a v) (setList free i index l j) := by
  apply pools_update
  · have hpool := hi.pools i
    exact { hpool with
      linked := Linked.update_list hpool.linked
        (fun k hk => hother i k fun h => hk (Place.free.inj h).2) hlinked
      inside := forall_update_list hpool.inside hinside }
  · intro j hji
    exact (hi.pools j).update_links (fun k => hother j k fun h => hji (Place.free.inj h).1) v

theorem place_setList {first : Option ℕ} {q : Place} (hq : q ≠ .free i index) (hlive : q ≠ .live)
    (hpool : s'.message_pool =
      Function.update s.message_pool i ((s.message_pool i).setFirst index first)) :
    s'.place (setList free i index l) q = s.place free q := by
  cases q with
  | live => exact absurd rfl hlive
  | free j k =>
    show (setList free i index l j k).map (object j) = _
    rw [setList_of_ne hq]
    rfl
  | rest j =>
    show ((s'.message_pool j).aa.chunks.take 1).map _ = _
    rw [hpool]
    by_cases hji : j = i
    · subst hji
      rw [update_self]
      rfl
    · rw [update_of_ne hji]
      rfl

theorem not_apart_self {j : PoolIndex} {a : ℕ} : ¬(object i a).Apart (object j a) := by
  have hin (k : PoolIndex) : (object k a).start ≤ a ∧ a < (object k a).stop :=
    ⟨Nat.le_refl _, Nat.lt_add_of_pos_right (Nat.mul_pos (Nat.succ_pos _) (by decide))⟩
  intro h
  exact h.absurd (hin i) (hin j)

/-- **An object is taken** from a list. -/
theorem take_inv (hi : s.Inv free) (hsz : sz = i.val * CACHE_LINE_SIZE)
    (hfirst : (s.message_pool i).firsts index = some ret) :
    ∃ free', (s.take i sz index ret).Inv free' := by
  have hlinked := (hi.pools i).linked index
  rw [hfirst] at hlinked
  obtain ⟨t, hlist, htail⟩ := hlinked.pop
  have hmem : ret ∈ free i index := by
    rw [hlist]
    exact mem_cons_self ..
  -- the object is on this list only, and only once, so that its link can be cleared
  have hwithin : ret ∉ t := by
    intro ht
    have hpair : ((free i index).map (object i)).Pairwise Extent.Apart :=
      hi.spread.within (.free i index)
    rw [hlist] at hpair
    exact not_apart_self ((pairwise_cons.mp hpair).1 _ (mem_map_of_mem ht))
  have hother : ∀ j k, Place.free j k ≠ .free i index → ret ∉ free j k := by
    intro j k hne ht
    exact not_apart_self (hi.spread.across _ _ hne _ (mem_map_of_mem ht) _
      (mem_map_of_mem hmem))
  refine ⟨setList free i index t, ?_⟩
  exact { hi with
    pools := by
      apply pools_setList hi hother (htail.update hwithin)
      intro x hx
      apply (hi.pools i).inside index
      rw [hlist]
      exact mem_cons_of_mem _ hx
    blocks := by
      intro b hb
      have hkeeps := @holds_update s i
        ((s.message_pool i).setFirst index (s.links ret)) (fun e h => h)
      rcases mem_cons.mp hb with rfl | hb
      · refine ⟨(hi.pools i).object_size, hsz, hkeeps i _ ?_⟩
        have hin := (hi.pools i).inside index ret hmem
        show Holds _ ⟨ret, (s.message_pool i).object_size⟩
        rw [(hi.pools i).object_size]
        exact hin
      · exact (hi.blocks b hb).mono hkeeps
    spread := by
      apply hi.spread.move (i := .free i index) (j := .live) (e := object i ret)
        (l := t.map (object i)) (by simp)
      · show ((free i index).map (object i)).Perm _
        rw [hlist]
        rfl
      · show (setList free i index t i index).map (object i) = _
        rw [setList_self]
      · show _ :: _ = _
        rw [(hi.pools i).object_size]
        rfl
      · exact fun q hq hlive => place_setList hq hlive rfl }

theorem aligned_pool_allocator_alloc_inv (hi : s.Inv free) (hsz : sz = i.val * CACHE_LINE_SIZE)
    (h : s.aligned_pool_allocator_alloc shared_pool_max_size i sz no_switch p = some s') :
    ∃ free', s'.Inv free' := by
  unfold aligned_pool_allocator_alloc at h
  split at h
  · rename_i index ret hsearch
    cases h
    exact take_inv hi hsz (AlignedPoolAllocator.firsts_of_search hsearch)
  · split at h
    · exact ⟨free, new_object_inv hi hsz h⟩
    · cases h
      exact ⟨free, hi⟩

theorem aligned_pool_allocator_free_inv (hi : s.Inv free) (hb : b ∈ s.live)
    (hpool : b.pool = some i) : ∃ free', (s.aligned_pool_allocator_free i b).Inv free' := by
  have hok := hi.blocks b hb
  unfold BlockOk at hok
  rw [hpool] at hok
  obtain ⟨hsize, -, hholds⟩ := hok
  have hextent : b.extent = object i b.extent.start := by
    unfold object
    rw [← hsize]
  have hstart : b.extent.start ≤ b.extent.start ∧ b.extent.start < b.extent.stop :=
    ⟨le_refl _, Nat.lt_add_of_pos_right (hi.blocks b hb).size_pos⟩
  have hnot := hi.not_free hb hstart
  generalize hindex : (s.message_pool i).first_index = index
  have hlinked := ((hi.pools i).linked index).push (hnot i index)
  refine ⟨setList free i index (b.extent.start :: free i index), ?_⟩
  unfold aligned_pool_allocator_free
  simp only [hindex]
  exact { hi with
    pools := by
      apply pools_setList hi (fun j k _ => hnot j k) hlinked
      intro x hx
      rcases mem_cons.mp hx with rfl | hx
      · exact hextent ▸ hholds
      · exact (hi.pools i).inside index x hx
    blocks := by
      intro d hd
      exact (hi.blocks d (mem_of_mem_erase hd)).mono (holds_update fun e h => h)
    spread := by
      apply hi.spread.move (i := .live) (j := .free i index) (e := b.extent)
        (l := (s.live.erase b).map PoolBlock.extent) (by simp)
      · exact (perm_cons_erase hb).map PoolBlock.extent
      · rfl
      · show (setList free i index _ i index).map (object i) = _
        rw [setList_self, map_cons, ← hextent]
        rfl
      · exact fun q hlive hq => place_setList hq hlive rfl
    returned := by
      intro r hr
      rcases mem_cons.mp hr with rfl | hr
      · exact hpool
      · exact hi.returned r hr }

/-! ### Runs -/

theorem access_inv (hi : s.Inv free) {n : ℕ} (hn : n < MAX_POOL_CACHELINE_COUNT) :
    (s.access n).Inv free :=
  { hi with
    accessed := by
      intro m hm
      rcases mem_cons.mp hm with rfl | hm
      · exact hn
      · exact hi.accessed m hm }

theorem locale_alloc_inv (hi : s.Inv free) (hsz : MAX_POOL_MESSAGE_SIZE < sz)
    (h : s.locale_alloc sz p = some s') : s'.Inv free := by
  obtain ⟨hfresh, rfl⟩ := ite_some_none_eq_some.mp h
  exact { hi with
    blocks := by
      intro b hb
      rcases mem_cons.mp hb with rfl | hb
      · exact ⟨rfl, hsz⟩
      · exact hi.blocks b hb
    spread := by
      apply hi.spread.insert (i := .live) (hi.fresh_apart hfresh) rfl
      intro q hq
      cases q with
      | live => exact absurd rfl hq
      | free j k => rfl
      | rest j => rfl }

theorem locale_free_inv (hi : s.Inv free) (hb : b ∈ s.live) (hpool : b.pool = none) :
    (s.locale_free b).Inv free :=
  { hi with
    blocks := fun d hd => hi.blocks d (mem_of_mem_erase hd)
    spread := by
      apply hi.spread.drop (i := .live) (e := b.extent)
        (l := (s.live.erase b).map PoolBlock.extent)
      · exact (perm_cons_erase hb).map PoolBlock.extent
      · rfl
      · intro q hq
        cases q with
        | live => exact absurd rfl hq
        | free j k => rfl
        | rest j => rfl
    returned := by
      intro r hr
      rcases mem_cons.mp hr with rfl | hr
      · exact hpool
      · exact hi.returned r hr }

theorem write_inv (hi : s.Inv free) {a : ℕ} (ha : s.Owned a) (v : Option ℕ) :
    Inv { s with links := update s.links a v } free := by
  obtain ⟨b, hb, hlo, hhi⟩ := ha
  have hsz := (hi.blocks b hb).sz_le
  have hin : b.extent.start ≤ a ∧ a < b.extent.stop := by
    refine ⟨hlo, ?_⟩
    show a < b.extent.start + b.extent.size
    omega
  -- the word is in a live message, so that no list goes through it
  exact { hi with
    pools := fun i => (hi.pools i).update_links (hi.not_free hb hin i) v }

/-- No message of `MAX_POOL_MESSAGE_SIZE` bytes is allocated. -/
def Pooled (_ : SharedMessagePool) : Label → Prop
  | .alloc sz _ _ => sz ≠ MAX_POOL_MESSAGE_SIZE
  | _ => True

theorem alloc_inv (hi : s.Inv free) (hsz : sz ≠ MAX_POOL_MESSAGE_SIZE)
    (h : s.alloc shared_pool_max_size sz no_switch p = some s') : ∃ free', s'.Inv free' := by
  obtain ⟨hlines, h⟩ := ite_none_right_eq_some.mp h
  split at h
  · rename_i hlarge
    exact ⟨free, locale_alloc_inv hi hlarge h⟩
  · rename_i hsmall
    split at h
    · rename_i hlt
      exact aligned_pool_allocator_alloc_inv (i := ⟨_, hlt⟩) (access_inv hi hlt) hlines.symm h
    · rename_i hnot
      simp only [MAX_POOL_CACHELINE_COUNT, MAX_POOL_MESSAGE_SIZE, CACHE_LINE_SIZE] at *
      omega

theorem free_inv (hi : s.Inv free) (hb : b ∈ s.live) : ∃ free', (s.free b).Inv free' := by
  have hok := hi.blocks b hb
  unfold BlockOk at hok
  unfold SharedMessagePool.free
  cases hpool : b.pool with
  | none =>
    rw [hpool] at hok
    simp only [hok.2, if_true]
    exact ⟨free, locale_free_inv hi hb hpool⟩
  | some i =>
    rw [hpool] at hok
    obtain ⟨-, hsz, -⟩ := hok
    have hlt := i.isLt
    -- the size gives the index that the block has been allocated with
    have hindex : b.sz / CACHE_LINE_SIZE = i.val := by
      rw [hsz]
      exact Nat.mul_div_cancel _ (by decide)
    have hsmall : ¬MAX_POOL_MESSAGE_SIZE < b.sz := by
      simp only [MAX_POOL_CACHELINE_COUNT, MAX_POOL_MESSAGE_SIZE, CACHE_LINE_SIZE] at *
      omega
    simp only [hsmall, if_false, hindex, hlt, dif_pos]
    exact aligned_pool_allocator_free_inv (access_inv hi hlt) hb hpool

/-- **Every other step keeps the invariant.** -/
theorem next_inv {l : Label} (hi : ∃ free, s.Inv free) (hl : Pooled s l)
    (h : s.next shared_pool_max_size l = some s') : ∃ free, s'.Inv free := by
  obtain ⟨free, hi⟩ := hi
  cases l with
  | alloc sz no_switch p => exact alloc_inv hi hl h
  | free b =>
    obtain ⟨hb, rfl⟩ := ite_some_none_eq_some.mp h
    exact free_inv hi hb
  | write a v =>
    obtain ⟨ha, rfl⟩ := ite_some_none_eq_some.mp h
    exact ⟨free, write_inv hi ha v⟩

/-! ### The law -/

variable (s) in
structure Safe : Prop where
  /-- `message_pool` is used with the indexes of pools that exist. -/
  accessed : ∀ n ∈ s.accessed, n < MAX_POOL_CACHELINE_COUNT
  /-- Every message has the bytes that were asked for. -/
  room : ∀ b ∈ s.live, b.sz ≤ b.extent.size
  /-- No two live messages share memory. -/
  apart : (s.live.map PoolBlock.extent).Pairwise Extent.Apart
  /-- The memory of a message is in a chunk of its pool. -/
  held : ∀ b ∈ s.live, ∀ i, b.pool = some i → Holds (s.message_pool i) b.extent
  /-- Every block has been returned to the pool that it was taken from. -/
  returned : ∀ r ∈ s.returned, r.1 = r.2
  /-- The lists of a pool are made of objects of its own that no message uses. -/
  lists : ∀ i index, ∃ l, Linked s.links ((s.message_pool i).firsts index) l ∧
    ∀ a ∈ l, Holds (s.message_pool i) (object i a) ∧
      ∀ b ∈ s.live, b.extent.Apart (object i a)

theorem Inv.safe (hi : s.Inv free) : s.Safe where
  accessed := hi.accessed
  room := fun b hb => (hi.blocks b hb).sz_le
  apart := hi.spread.within .live
  held := by
    intro b hb i hpool
    have hok := hi.blocks b hb
    unfold BlockOk at hok
    rw [hpool] at hok
    exact hok.2.2
  returned := hi.returned
  lists := by
    intro i index
    refine ⟨free i index, (hi.pools i).linked index, fun a ha => ?_⟩
    refine ⟨(hi.pools i).inside index a ha, fun b hb => ?_⟩
    exact hi.spread.across .live (.free i index) (by simp) _ (mem_map_of_mem hb) _
      (mem_map_of_mem ha)

theorem not_safe_of_max {l : Label} (hl : ¬Pooled s l)
    (h : s.next shared_pool_max_size l = some s') : ¬s'.Safe := by
  cases l with
  | free b => exact absurd trivial hl
  | write a v => exact absurd trivial hl
  | alloc sz no_switch p =>
    -- it is not larger than the largest pooled size, and its number of cache lines is no index
    obtain rfl : sz = MAX_POOL_MESSAGE_SIZE := not_not.mp hl
    have heq : s' = s.access MAX_POOL_CACHELINE_COUNT := (some.inj h).symm
    intro hsafe
    have hlt := hsafe.accessed MAX_POOL_CACHELINE_COUNT (heq ▸ mem_cons_self ..)
    exact lt_irrefl _ hlt

/-- **The pool is safe** if and only if no message of the largest pooled size is allocated. -/
theorem pool_safe_iff {ls : List Label}
    (hrun : (system shared_pool_chunk_size shared_pool_max_size).run
      (init shared_pool_chunk_size) ls = some s) :
    (system shared_pool_chunk_size shared_pool_max_size).Throughout Safe
        (init shared_pool_chunk_size) ls ↔
      (system shared_pool_chunk_size shared_pool_max_size).Always Pooled
        (init shared_pool_chunk_size) ls := by
  have hgood : ∀ s : SharedMessagePool, (∃ free, s.Inv free) → s.Safe :=
    fun _ ⟨_, hi⟩ => hi.safe
  have hiff := System.throughout_iff_always (Q := fun _ _ => True) hgood
    (fun _ _ _ hi hl h => ⟨next_inv hi hl h, trivial⟩)
    (fun _ _ _ _ hl h hgood => not_safe_of_max hl h hgood.2) ⟨_, init_inv⟩ hrun
  rw [← hiff]
  exact (and_iff_left (System.always_true _ _)).symm

/-- Two small messages and a large one; the first one is written to, freed and allocated again. -/
theorem pool_three_messages :
    let ls : List Label := [.alloc 64 false 1000, .alloc 64 false 0, .alloc 1088 false 50000,
      .write 1024 (some 7), .free ⟨⟨1024, 128⟩, 64, some 1⟩, .alloc 64 false 0]
    ∃ s, (system (1 <<< 13) (1 <<< 20)).run (init (1 <<< 13)) ls = some s ∧
      s.live = [⟨⟨1024, 128⟩, 64, some 1⟩, ⟨⟨50000, 1088⟩, 1088, none⟩,
        ⟨⟨1152, 128⟩, 64, some 1⟩] ∧
      ((system (1 <<< 13) (1 <<< 20)).Throughout Safe (init (1 <<< 13)) ls ↔
        (system (1 <<< 13) (1 <<< 20)).Always Pooled (init (1 <<< 13)) ls) := by
  intro ls
  have hend : ((system (1 <<< 13) (1 <<< 20)).run (init (1 <<< 13)) ls).map
      SharedMessagePool.live = some [⟨⟨1024, 128⟩, 64, some 1⟩, ⟨⟨50000, 1088⟩, 1088, none⟩,
        ⟨⟨1152, 128⟩, 64, some 1⟩] := by
    decide +kernel
  obtain ⟨s, hrun, hs⟩ := map_eq_some_iff.mp hend
  exact ⟨s, hrun, hs, pool_safe_iff hrun⟩

/-- A message of 1024 bytes goes to index 16 of 16 pools. -/
theorem largest_pooled_message :
    ∃ s, (system (1 <<< 13) (1 <<< 20)).run (init (1 <<< 13)) [.alloc 1024 false 0] = some s ∧
      s.accessed = [16] ∧ ¬s.Safe := by
  have hend : ((system (1 <<< 13) (1 <<< 20)).run (init (1 <<< 13)) [.alloc 1024 false 0]).map
      SharedMessagePool.accessed = some [16] := by
    decide +kernel
  obtain ⟨s, hrun, hs⟩ := map_eq_some_iff.mp hend
  refine ⟨s, hrun, hs, fun hsafe => ?_⟩
  have hlt := hsafe.accessed 16 (by simp [hs])
  exact absurd hlt (by decide)

end SharedMessagePool

end Grappa
