import AdvCompArch.Grappa.SharedMessagePool
import AdvCompArch.Lib.Census

/-! # The aligned pool allocator

    `aligned_pool_allocator`, for objects of any size and alignment.  Objects that are freed go to
    its lists in turn, linked through their own memory; others are carved off the last chunk.  The
    allocator counts down where an object is freed, and up where one is taken off a list.

    A call that finds nothing on the lists while the pools are at their limit waits, and other
    calls come meanwhile.  Whoever has an object writes to it. -/

namespace Grappa

open Extents Function List

/-- What the allocator is made with; the alignment is a power of two, as `ALIGN_UP` needs it. -/
structure AlignedPoolConfig where
  log_align_on : ℕ
  object_size : ℕ
  chunk_count : ℕ
  shared_pool_max_size : ℤ
  /-- The size of a chunk is a `size_t`. -/
  fits : max (align_up (max object_size 8) (2 ^ log_align_on)) (max object_size 8 * chunk_count) +
    2 ^ log_align_on < 2 ^ 64

namespace AlignedPoolConfig

variable (cfg : AlignedPoolConfig)

def align_on : ℕ := 2 ^ cfg.log_align_on

/-- The aligned size of the objects, which have room for a link. -/
def size : ℕ := align_up (max cfg.object_size 8) cfg.align_on

def object (a : ℕ) : Extent := ⟨a, cfg.size⟩

end AlignedPoolConfig

/-- An `aligned_pool_allocator` with its counts, the links in the memory of free objects, and the
    objects that are outstanding. -/
structure AlignedPool where
  apa : AlignedPoolAllocator
  allocated_objects : ℤ
  newly_allocated_objects : ℤ
  links : ℕ → Option ℕ
  outstanding : List ℕ

namespace AlignedPool

variable (cfg : AlignedPoolConfig) (s : AlignedPool)

def init : AlignedPool where
  apa := AlignedPoolAllocator.init cfg.align_on cfg.object_size cfg.chunk_count
  allocated_objects := 0
  newly_allocated_objects := 0
  links := fun _ => none
  outstanding := []

/-- Memory that `locale_alloc_aligned` can give. -/
def Fresh (e : Extent) : Prop :=
  CACHE_LINE_SIZE ∣ e.start ∧ ∀ c ∈ s.apa.aa.chunks, e.Apart c.extent

instance (e : Extent) : Decidable (s.Fresh e) := inferInstanceAs (Decidable (_ ∧ _))

/-- A chunk is appended, with the memory at `p`. -/
def append_chunk (size p : ℕ) : AlignedPool :=
  { s with apa := { s.apa with aa := s.apa.aa.append_chunk size p } }

/-- A new object is carved off the last chunk. -/
def carve (size : ℕ) : Option AlignedPool :=
  (s.apa.aa.carve size).map fun (ret, aa) =>
    { s with
      apa := { s.apa with aa }
      newly_allocated_objects := s.newly_allocated_objects + 1
      outstanding := ret :: s.outstanding }

/-- `aligned_allocator_alloc` of an object; a chunk that has just been appended has room. -/
def new_object (p : ℕ) : Option AlignedPool :=
  let size := align_up s.apa.object_size s.apa.aa.align_on
  if s.apa.aa.full size then
    if s.Fresh ⟨p, s.apa.aa.new_chunk_size size⟩ then (s.append_chunk size p).carve size else none
  else s.carve size

/-- An object is taken from the list `index`. -/
def take (index : Fin ALLOCATOR_PREFETCH_DISTANCE) (ret : ℕ) : AlignedPool :=
  { s with
    apa := s.apa.setFirst index (s.links ret)
    allocated_objects := s.allocated_objects + 1
    links := update s.links ret none
    outstanding := ret :: s.outstanding }

/-- A round of the loop in `aligned_pool_allocator_alloc`; where the pools have reached their limit
    the task yields, and another round comes later. -/
def aligned_pool_allocator_alloc (shared_pool_total_allocated : ℤ) (in_no_switch_region : Bool)
    (p : ℕ) : Option AlignedPool :=
  match s.apa.search with
  | some (index, ret) => some (s.take index ret)
  | none =>
    if shared_pool_total_allocated < cfg.shared_pool_max_size ∨ in_no_switch_region then
      s.new_object p
    else some s

def aligned_pool_allocator_free (a : ℕ) : AlignedPool :=
  { s with
    apa := s.apa.setFirst s.apa.first_index (some a)
    allocated_objects := s.allocated_objects - 1
    links := update s.links a (s.apa.firsts s.apa.first_index)
    outstanding := s.outstanding.erase a }

def aligned_pool_allocator_freelist_size : ℤ := -1 * s.allocated_objects

inductive Label where
  /-- A call to allocate, or another round of it, when all pools together have allocated that
      much; `p` is the memory from the heap of the locale. -/
  | alloc (shared_pool_total_allocated : ℤ) (in_no_switch_region : Bool) (p : ℕ)
  | free (a : ℕ)
  /-- The owner of an object writes a word. -/
  | write (a : ℕ) (v : Option ℕ)
  deriving DecidableEq

/-- The word at `a` is in an object that is outstanding. -/
def Owned (a : ℕ) : Prop := ∃ o ∈ s.outstanding, o ≤ a ∧ a + 8 ≤ o + s.apa.object_size

instance (a : ℕ) : Decidable (s.Owned a) := List.decidableBEx _ _

def next : Label → Option AlignedPool
  | .alloc total no_switch p => s.aligned_pool_allocator_alloc cfg total no_switch p
  | .free a => if a ∈ s.outstanding then some (s.aligned_pool_allocator_free a) else none
  | .write a v => if s.Owned a then some { s with links := update s.links a v } else none

def system : Transition.System AlignedPool Label := ⟨init cfg, next cfg⟩

/-! ### The invariant -/

/-- The object at `a` is inside a chunk, a number of objects after the first aligned address. -/
def Placed (a : ℕ) : Prop :=
  ∃ c ∈ s.apa.aa.chunks, (cfg.object a).Inside c.extent ∧
    ∃ k, a = align_up c.chunk cfg.align_on + k * cfg.size

/-- Where memory of the chunks can be. -/
inductive Place where
  | outstanding
  | free (index : Fin ALLOCATOR_PREFETCH_DISTANCE)
  | rest
  deriving DecidableEq

variable (free : Fin ALLOCATOR_PREFETCH_DISTANCE → List ℕ)

def place : Place → List Extent
  | .outstanding => s.outstanding.map cfg.object
  | .free index => (free index).map cfg.object
  | .rest => (s.apa.aa.chunks.take 1).map MemoryChunk.rest

structure Inv : Prop where
  object_size : s.apa.object_size = max cfg.object_size 8
  align_on : s.apa.aa.align_on = cfg.align_on
  aligned : ∀ c ∈ s.apa.aa.chunks, CACHE_LINE_SIZE ∣ c.chunk
  /-- The next object would be at its place. -/
  offsets : ∀ c ∈ s.apa.aa.chunks, c.offset ≤ c.chunk_size ∧
    ∃ k, c.chunk + c.offset = align_up c.chunk cfg.align_on + k * cfg.size
  linked : ∀ index, Linked s.links (s.apa.firsts index) (free index)
  placed : ∀ a ∈ s.outstanding, s.Placed cfg a
  placed_free : ∀ index, ∀ a ∈ free index, s.Placed cfg a
  spread : Spread (s.place cfg free)
  count : s.allocated_objects = -((∑ index, (free index).length : ℕ) : ℤ)

variable {cfg s free} {s' : AlignedPool} {p a : ℕ} {index : Fin ALLOCATOR_PREFETCH_DISTANCE}

theorem init_inv : (init cfg).Inv cfg fun _ => [] where
  object_size := rfl
  align_on := rfl
  aligned := by simp [init, AlignedPoolAllocator.init, AlignedAllocator.init]
  offsets := by simp [init, AlignedPoolAllocator.init, AlignedAllocator.init]
  linked := fun _ => rfl
  placed := by simp [init]
  placed_free := by simp
  spread := by
    apply Spread.of_empty
    intro q
    cases q with
    | outstanding => rfl
    | free index => rfl
    | rest => rfl
  count := by simp [init]

/-! ### What the invariant says of memory -/

theorem size_pos : 0 < cfg.size := by
  have hle : max cfg.object_size 8 ≤ cfg.size := (SharedMessagePool.align_up_two_pow _ _).1
  omega

theorem Placed.mono (h : s.Placed cfg a)
    (hkeep : ∀ c ∈ s.apa.aa.chunks, ∃ d ∈ s'.apa.aa.chunks, d.chunk = c.chunk ∧
      d.chunk_size = c.chunk_size) : s'.Placed cfg a := by
  obtain ⟨c, hc, hin, hk⟩ := h
  obtain ⟨d, hd, hchunk, hsize⟩ := hkeep c hc
  have hextent : d.extent = c.extent := by
    unfold MemoryChunk.extent
    rw [hchunk, hsize]
  exact ⟨d, hd, hextent ▸ hin, hchunk ▸ hk⟩

theorem Inv.fresh_apart (hi : s.Inv cfg free) {e : Extent} (hfresh : s.Fresh e) (q : Place) :
    ∀ f ∈ s.place cfg free q, e.Apart f := by
  have hplaced {a : ℕ} (h : s.Placed cfg a) : e.Apart (cfg.object a) := by
    obtain ⟨c, hc, hin, -⟩ := h
    exact (hfresh.2 c hc).inside (.refl _) hin
  intro f hf
  cases q with
  | outstanding =>
    obtain ⟨a, ha, rfl⟩ := mem_map.mp hf
    exact hplaced (hi.placed a ha)
  | free index =>
    obtain ⟨a, ha, rfl⟩ := mem_map.mp hf
    exact hplaced (hi.placed_free index a ha)
  | rest =>
    obtain ⟨c, hc, rfl⟩ := mem_map.mp hf
    have hc := mem_of_mem_take hc
    exact (hfresh.2 c hc).inside (.refl _)
      (MemoryChunk.rest_inside (hi.offsets c hc).1)

theorem mem_object : (cfg.object a).start ≤ a ∧ a < (cfg.object a).stop :=
  ⟨le_refl _, Nat.lt_add_of_pos_right size_pos⟩

theorem Inv.not_free (hi : s.Inv cfg free) {o : ℕ} (ho : o ∈ s.outstanding)
    (ha : (cfg.object o).start ≤ a ∧ a < (cfg.object o).stop) (index) : a ∉ free index := by
  intro hmem
  have hapart := hi.spread.across .outstanding (.free index) (by simp) _ (mem_map_of_mem ho) _
    (mem_map_of_mem hmem)
  exact hapart.absurd ha mem_object

/-! ### New objects -/

theorem append_chunk_inv (hi : s.Inv cfg free)
    (hfresh : s.Fresh ⟨p, s.apa.aa.new_chunk_size cfg.size⟩) :
    (s.append_chunk cfg.size p).Inv cfg free := by
  have halign := SharedMessagePool.align_up_two_pow p cfg.log_align_on
  have hkeep {a : ℕ} (h : s.Placed cfg a) : (s.append_chunk cfg.size p).Placed cfg a :=
    h.mono fun c hc => ⟨c, mem_cons_of_mem _ hc, rfl, rfl⟩
  have hoffset : align_up p s.apa.aa.align_on - p ≤ s.apa.aa.new_chunk_size cfg.size := by
    show _ ≤ max cfg.size s.apa.aa.chunk_size + s.apa.aa.align_on
    rw [hi.align_on]
    unfold AlignedPoolConfig.align_on
    omega
  exact { hi with
    aligned := by
      intro c hc
      rcases mem_cons.mp hc with rfl | hc
      · exact hfresh.1
      · exact hi.aligned c hc
    offsets := by
      intro c hc
      rcases mem_cons.mp hc with rfl | hc
      · refine ⟨hoffset, 0, ?_⟩
        show p + (align_up p s.apa.aa.align_on - p) = align_up p cfg.align_on + 0 * cfg.size
        rw [hi.align_on]
        unfold AlignedPoolConfig.align_on
        omega
      · exact hi.offsets c hc
    placed := fun a ha => hkeep (hi.placed a ha)
    placed_free := fun index a ha => hkeep (hi.placed_free index a ha)
    spread := by
      apply hi.spread.change (i := .rest)
      · exact pairwise_singleton _ _
      · intro q _ e he f hf
        rw [mem_singleton.mp he]
        -- all other memory is apart from the whole chunk
        exact (hi.fresh_apart hfresh q f hf).inside (MemoryChunk.rest_inside hoffset)
          (.refl _)
      · intro q hq
        cases q with
        | outstanding => rfl
        | free index => rfl
        | rest => exact absurd rfl hq }

theorem append_chunk_room (hi : s.Inv cfg free) :
    (s.append_chunk cfg.size p).apa.aa.full cfg.size = false := by
  show decide (max cfg.size s.apa.aa.chunk_size + s.apa.aa.align_on -
    (align_up p s.apa.aa.align_on - p) < cfg.size) = false
  have halign := SharedMessagePool.align_up_two_pow p cfg.log_align_on
  rw [hi.align_on, decide_eq_false_iff_not]
  unfold AlignedPoolConfig.align_on
  omega

/-- **An object is carved off** the last chunk. -/
theorem carve_inv (hi : s.Inv cfg free) (hroom : s.apa.aa.full cfg.size = false)
    (h : s.carve cfg.size = some s') : s'.Inv cfg free := by
  unfold carve AlignedAllocator.carve at h
  unfold AlignedAllocator.full at hroom
  cases hchunks : s.apa.aa.chunks with
  | nil => simp [hchunks] at h
  | cons c cs =>
  have hc : c ∈ s.apa.aa.chunks := by
    rw [hchunks]
    exact mem_cons_self ..
  have hcs {d : MemoryChunk} (hd : d ∈ cs) : d ∈ s.apa.aa.chunks := by
    rw [hchunks]
    exact mem_cons_of_mem _ hd
  obtain ⟨hoffset, k, hk⟩ := hi.offsets c hc
  have hroom : cfg.size ≤ c.chunk_size - c.offset := by
    simpa [hchunks] using hroom
  rw [hchunks] at h
  cases h
  generalize hc' : ({ c with offset := c.offset + cfg.size } : MemoryChunk) = c'
  obtain ⟨hinside, hrest, hapart⟩ := MemoryChunk.carve_rest hroom
  rw [hc'] at hrest hapart
  have hkeep : ∀ d ∈ s.apa.aa.chunks, ∃ d' ∈ c' :: cs, d'.chunk = d.chunk ∧
      d'.chunk_size = d.chunk_size := by
    intro d hd
    rw [hchunks] at hd
    rcases mem_cons.mp hd with rfl | hd
    · refine ⟨c', mem_cons_self .., ?_⟩
      rw [← hc']
      exact ⟨rfl, rfl⟩
    · exact ⟨d, mem_cons_of_mem _ hd, rfl, rfl⟩
  exact { hi with
    aligned := by
      intro d hd
      rcases mem_cons.mp hd with rfl | hd
      · rw [← hc']
        exact hi.aligned c hc
      · exact hi.aligned d (hcs hd)
    offsets := by
      intro d hd
      rcases mem_cons.mp hd with rfl | hd
      · rw [← hc']
        refine ⟨?_, k + 1, ?_⟩
        · show c.offset + cfg.size ≤ c.chunk_size
          omega
        · show c.chunk + (c.offset + cfg.size) = _
          rw [← add_assoc, hk, Nat.succ_mul, add_assoc]
      · exact hi.offsets d (hcs hd)
    placed := by
      intro a ha
      refine Placed.mono (s := s) ?_ hkeep
      rcases mem_cons.mp ha with rfl | ha
      · exact ⟨c, hc, hinside.trans (MemoryChunk.rest_inside hoffset), k, hk⟩
      · exact hi.placed a ha
    placed_free := fun index a ha => (hi.placed_free index a ha).mono hkeep
    spread := by
      apply hi.spread.carve (i := .rest) (j := .outstanding) (by simp) _ hinside hrest hapart
      · rfl
      · rfl
      · intro q hq hout
        cases q with
        | outstanding => exact absurd rfl hout
        | free index => rfl
        | rest => exact absurd rfl hq
      · show (s.apa.aa.chunks.take 1).map _ = _
        rw [hchunks]
        rfl }

theorem new_object_inv (hi : s.Inv cfg free) (h : s.new_object p = some s') :
    s'.Inv cfg free := by
  have hsize : align_up s.apa.object_size s.apa.aa.align_on = cfg.size := by
    rw [hi.object_size, hi.align_on]
    rfl
  unfold new_object at h
  simp only [hsize] at h
  split at h
  · obtain ⟨hfresh, hcarve⟩ := Option.ite_none_right_eq_some.mp h
    exact carve_inv (append_chunk_inv hi hfresh) (append_chunk_room hi) hcarve
  · rename_i hroom
    exact carve_inv hi (Bool.eq_false_of_not_eq_true hroom) h

/-! ### Lists -/

variable {ret : ℕ} {l : List ℕ}

theorem place_update {q : Place} (hq : q ≠ .free index) (hout : q ≠ .outstanding)
    (haa : s'.apa.aa = s.apa.aa) :
    s'.place cfg (update free index l) q = s.place cfg free q := by
  cases q with
  | outstanding => exact absurd rfl hout
  | free k =>
    show (update free index l k).map _ = _
    rw [update_of_ne fun h => hq (congrArg _ h)]
    rfl
  | rest =>
    show (s'.apa.aa.chunks.take 1).map _ = _
    rw [haa]
    rfl

theorem total_update (free : Fin ALLOCATOR_PREFETCH_DISTANCE → List ℕ) (index) (l : List ℕ) :
    ∑ k, (update free index l k).length + (free index).length =
      ∑ k, (free k).length + l.length := by
  have hsum := Census.sum_add_of_eq_off (Finset.mem_univ index)
    (f := fun k => (free k).length) (g := fun k => (update free index l k).length) ?_
  · rwa [update_self] at hsum
  · intro k _ hk
    rw [update_of_ne hk]

/-- **An object is taken** from a list. -/
theorem take_inv (hi : s.Inv cfg free) (hfirst : s.apa.firsts index = some ret) :
    ∃ free', (s.take index ret).Inv cfg free' := by
  have hlinked := hi.linked index
  rw [hfirst] at hlinked
  obtain ⟨t, hlist, htail⟩ := hlinked.pop
  have hmem : ret ∈ free index := by
    rw [hlist]
    exact mem_cons_self ..
  -- the object is on this list only, and only once, so that its link can be cleared
  have hwithin : ret ∉ t := by
    intro ht
    have hpair : ((free index).map cfg.object).Pairwise Extent.Apart :=
      hi.spread.within (.free index)
    rw [hlist] at hpair
    have hapart := (pairwise_cons.mp hpair).1 _ (mem_map_of_mem ht)
    exact hapart.absurd mem_object mem_object
  have hother : ∀ k, k ≠ index → ret ∉ free k := by
    intro k hne ht
    have hapart := hi.spread.across (.free k) (.free index) (fun h => hne (Place.free.inj h)) _
      (mem_map_of_mem ht) _ (mem_map_of_mem hmem)
    exact hapart.absurd mem_object mem_object
  have hleft : ∀ x ∈ t, s.Placed cfg x := by
    intro x hx
    apply hi.placed_free index
    rw [hlist]
    exact mem_cons_of_mem _ hx
  refine ⟨update free index t, ?_⟩
  exact { hi with
    linked := Linked.update_list hi.linked hother (htail.update hwithin)
    placed := by
      intro a ha
      rcases mem_cons.mp ha with rfl | ha
      · exact hi.placed_free index _ hmem
      · exact hi.placed a ha
    placed_free := forall_update_list hi.placed_free hleft
    spread := by
      apply hi.spread.move (i := .free index) (j := .outstanding) (e := cfg.object ret)
        (l := t.map cfg.object) (by simp)
      · show ((free index).map cfg.object).Perm _
        rw [hlist]
        rfl
      · show (update free index t index).map cfg.object = _
        rw [update_self]
      · rfl
      · exact fun q hq hout => place_update hq hout rfl
    count := by
      have htotal := total_update free index t
      have hcount := hi.count
      rw [hlist, length_cons] at htotal
      show s.allocated_objects + 1 = _
      omega }

theorem alloc_inv {total : ℤ} {no_switch : Bool} (hi : s.Inv cfg free)
    (h : s.aligned_pool_allocator_alloc cfg total no_switch p = some s') :
    ∃ free', s'.Inv cfg free' := by
  unfold aligned_pool_allocator_alloc at h
  split at h
  · rename_i index ret hsearch
    cases h
    exact take_inv hi (AlignedPoolAllocator.firsts_of_search hsearch)
  · split at h
    · exact ⟨free, new_object_inv hi h⟩
    · cases h
      exact ⟨free, hi⟩

theorem free_inv (hi : s.Inv cfg free) (ha : a ∈ s.outstanding) :
    ∃ free', (s.aligned_pool_allocator_free a).Inv cfg free' := by
  have hnot := hi.not_free ha mem_object
  unfold aligned_pool_allocator_free
  generalize s.apa.first_index = index
  refine ⟨update free index (a :: free index), ?_⟩
  exact { hi with
    linked := Linked.update_list hi.linked (fun k _ => hnot k)
      ((hi.linked index).push (hnot index))
    placed := fun b hb => hi.placed b (mem_of_mem_erase hb)
    placed_free := by
      refine forall_update_list hi.placed_free fun x hx => ?_
      rcases mem_cons.mp hx with rfl | hx
      · exact hi.placed _ ha
      · exact hi.placed_free index x hx
    spread := by
      apply hi.spread.move (i := .outstanding) (j := .free index) (e := cfg.object a)
        (l := (s.outstanding.erase a).map cfg.object) (by simp)
      · exact (perm_cons_erase ha).map cfg.object
      · rfl
      · show (update free index _ index).map cfg.object = _
        rw [update_self]
        rfl
      · exact fun q hout hq => place_update hq hout rfl
    count := by
      have htotal := total_update free index (a :: free index)
      have hcount := hi.count
      rw [length_cons] at htotal
      show s.allocated_objects - 1 = _
      omega }

theorem write_inv (hi : s.Inv cfg free) (ha : s.Owned a) (v : Option ℕ) :
    Inv cfg { s with links := update s.links a v } free := by
  obtain ⟨o, ho, hlo, hhi⟩ := ha
  have hle : max cfg.object_size 8 ≤ cfg.size := (SharedMessagePool.align_up_two_pow _ _).1
  rw [hi.object_size] at hhi
  have hin : (cfg.object o).start ≤ a ∧ a < (cfg.object o).stop := by
    refine ⟨hlo, ?_⟩
    show a < o + cfg.size
    omega
  -- the word is in an object that is outstanding, so that no list goes through it
  exact { hi with linked := fun k => (hi.linked k).update (hi.not_free ho hin k) }

theorem next_inv {l : Label} (hi : ∃ free, s.Inv cfg free) (h : s.next cfg l = some s') :
    ∃ free, s'.Inv cfg free := by
  obtain ⟨free, hi⟩ := hi
  cases l with
  | alloc total no_switch p => exact alloc_inv hi h
  | free a =>
    obtain ⟨ha, rfl⟩ := Option.ite_some_none_eq_some.mp h
    exact free_inv hi ha
  | write a v =>
    obtain ⟨ha, rfl⟩ := Option.ite_some_none_eq_some.mp h
    exact ⟨free, write_inv hi ha v⟩

/-! ### The law -/

variable (cfg s) in
structure Safe : Prop where
  /-- No object is given to two. -/
  distinct : s.outstanding.Nodup
  apart : (s.outstanding.map cfg.object).Pairwise Extent.Apart
  /-- Every object is at its place in a chunk, which counts from the start of the chunk where
      the heap of the locale aligns the chunks. -/
  placed : ∀ a ∈ s.outstanding, s.Placed cfg a
  aligned : cfg.align_on ∣ CACHE_LINE_SIZE →
    ∀ c ∈ s.apa.aa.chunks, align_up c.chunk cfg.align_on = c.chunk
  freelist_size : ∃ lists : Fin ALLOCATOR_PREFETCH_DISTANCE → List ℕ,
    (∀ index, Linked s.links (s.apa.firsts index) (lists index)) ∧
      s.aligned_pool_allocator_freelist_size = ((∑ index, (lists index).length : ℕ) : ℤ)

theorem align_up_of_dvd (h : cfg.align_on ∣ p) : align_up p cfg.align_on = p := by
  have hand : p &&& (2 ^ cfg.log_align_on - 1) = p % 2 ^ cfg.log_align_on :=
    Nat.and_two_pow_sub_one_eq_mod _ _
  have hmod : p % 2 ^ cfg.log_align_on = 0 := Nat.mod_eq_zero_of_dvd h
  unfold align_up AlignedPoolConfig.align_on
  rw [hand, hmod]
  exact if_neg (by simp)

theorem Inv.safe (hi : s.Inv cfg free) : s.Safe cfg where
  distinct := by
    have hpair := pairwise_map.mp (hi.spread.within .outstanding)
    apply hpair.imp
    rintro a _ hapart rfl
    exact hapart.absurd mem_object mem_object
  apart := hi.spread.within .outstanding
  placed := hi.placed
  aligned := fun hdvd c hc => align_up_of_dvd (hdvd.trans (hi.aligned c hc))
  freelist_size := by
    refine ⟨free, hi.linked, ?_⟩
    show -1 * s.allocated_objects = _
    rw [hi.count, neg_one_mul, neg_neg]

/-- **The allocator is safe** after every sequence of calls. -/
theorem aligned_pool_safe (hs : (system cfg).Reachable s) : s.Safe cfg := by
  have hinv : ∃ free, s.Inv cfg free :=
    Transition.System.Reachable.invariant (fun s => ∃ free, s.Inv cfg free) ⟨_, init_inv⟩
      (fun _ _ _ hi h => next_inv hi h) hs
  obtain ⟨free, hi⟩ := hinv
  exact hi.safe

/-- Two objects, of which the first is freed and taken again. -/
theorem aligned_pool_two_objects :
    let cfg : AlignedPoolConfig := ⟨6, 100, 4, 1000, by decide⟩
    ∃ s, (system cfg).run (init cfg) [.alloc 0 false 1024, .alloc 800 false 0, .free 1024,
        .write 1152 (some 7), .alloc 1000 false 0] = some s ∧
      s.outstanding = [1024, 1152] ∧ s.Safe cfg := by
  intro cfg
  have hend : ((system cfg).run (init cfg) [.alloc 0 false 1024, .alloc 800 false 0,
      .free 1024, .write 1152 (some 7), .alloc 1000 false 0]).map outstanding =
      some [1024, 1152] := by
    decide +kernel
  obtain ⟨s, hrun, hs⟩ := Option.map_eq_some_iff.mp hend
  exact ⟨s, hrun, hs, aligned_pool_safe ⟨_, hrun⟩⟩

end AlignedPool

end Grappa
