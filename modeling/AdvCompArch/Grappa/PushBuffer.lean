import AdvCompArch.Lib.Census
import AdvCompArch.Lib.Transition

/-! # Push buffers

    Every core stages what its tasks push in a buffer of its own; a full buffer is flushed: the
    next empty buffer becomes the current one, a fetch-and-add on the shared index reserves a
    range of the target array, and a write-only cache over the range is released into it.  The
    task of the flush is suspended for both, and other tasks of the core go on to push and to
    flush. -/

namespace Grappa

open Function Option Multiset List

/-- A task in the middle of `flush`: what it has saved, the range that it has reserved, and the
    elements that have arrived. -/
structure PushFlush (cores : ℕ) where
  core : Fin cores
  save_buf : ℕ
  save_size : ℕ
  offset : Option ℕ
  released : List ℕ
  deriving DecidableEq

/-- The push buffers of all cores, the shared index and the target array; and what was pushed, and
    what has got a place in the target, in the order of the places. -/
structure PushBuffers (cores : ℕ) (T : Type*) where
  buf : Fin cores → ℕ → ℕ → T
  curr_buf : Fin cores → ℕ
  curr_size : Fin cores → ℕ → ℕ
  shared_index : ℕ
  target_array : ℕ → Option T
  flushes : List (PushFlush cores)
  pushed : List T
  placed : List T

namespace PushBuffers

variable {cores : ℕ} {T : Type*} (NBUFS BUFSIZE : ℕ) (s : PushBuffers cores T)

/-- The loop of `flush`, with as many rounds as there are buffers; none where no buffer is left. -/
def nextBuffer (curr_size : ℕ → ℕ) (save_buf : ℕ) : ℕ → ℕ → Option ℕ
  | 0, _ => none
  | fuel + 1, curr_buf =>
    if curr_size curr_buf ≠ 0 then
      if (curr_buf + 1) % NBUFS ≠ save_buf then
        nextBuffer curr_size save_buf fuel ((curr_buf + 1) % NBUFS)
      else none
    else some curr_buf

/-- One entry of a table with a row for each core is changed. -/
def setAt {V : Type*} (table : Fin cores → ℕ → V) (c : Fin cores) (b : ℕ) (v : V) :
    Fin cores → ℕ → V := Function.update table c (Function.update (table c) b v)

/-- A flush up to its fetch-and-add; nothing is reserved for an empty buffer. -/
def flush (c : Fin cores) : Option (PushBuffers cores T) :=
  let save_buf := s.curr_buf c
  let save_size := s.curr_size c save_buf
  (nextBuffer NBUFS (s.curr_size c) save_buf NBUFS save_buf).map fun curr_buf =>
    if save_size > 0 then
      { s with
        curr_buf := Function.update s.curr_buf c curr_buf
        flushes := ⟨c, save_buf, save_size, none, []⟩ :: s.flushes }
    else
      { s with
        curr_buf := Function.update s.curr_buf c curr_buf
        curr_size := setAt s.curr_size c save_buf 0 }

/-- The element is stored in the current buffer. -/
def store (c : Fin cores) (o : T) : PushBuffers cores T :=
  let b := s.curr_buf c
  { s with
    buf := setAt s.buf c b (Function.update (s.buf c b) (s.curr_size c b) o)
    curr_size := setAt s.curr_size c b (s.curr_size c b + 1)
    pushed := s.pushed ++ [o] }

/-- None where a `CHECK` fails. -/
def push (c : Fin cores) (o : T) : Option (PushBuffers cores T) :=
  let size := s.curr_size c (s.curr_buf c) + 1
  if size ≤ BUFSIZE then
    if size = BUFSIZE then (s.store c o).flush NBUFS c else some (s.store c o)
  else none

/-- The first elements of a buffer. -/
def content (c : Fin cores) (b n : ℕ) : List T := (List.range n).map (s.buf c b)

/-- A flush goes on. -/
def advance (f f' : PushFlush cores) : List (PushFlush cores) := f' :: s.flushes.erase f

/-- The fetch-and-add of a flush reaches the shared index. -/
def fetch_and_add (f : PushFlush cores) : PushBuffers cores T :=
  { s with
    shared_index := s.shared_index + f.save_size
    flushes := s.advance f { f with offset := some s.shared_index, released := [] }
    placed := s.placed ++ s.content f.core f.save_buf f.save_size }

/-- An element of a flush reaches the target array. -/
def release (f : PushFlush cores) (offset i : ℕ) : PushBuffers cores T :=
  { s with
    target_array := Function.update s.target_array (offset + i) (some (s.buf f.core f.save_buf i))
    flushes := s.advance f { f with released := i :: f.released } }

/-- The cache of a flush is released, and its buffer is empty again. -/
def finish (f : PushFlush cores) : PushBuffers cores T :=
  { s with
    curr_size := setAt s.curr_size f.core f.save_buf 0
    flushes := s.flushes.erase f }

inductive Label (cores : ℕ) (T : Type*) where
  | push (c : Fin cores) (o : T)
  | flush (c : Fin cores)
  | fetch_and_add (f : PushFlush cores)
  | release (f : PushFlush cores) (i : ℕ)
  | finish (f : PushFlush cores)
  deriving DecidableEq

def next : Label cores T → Option (PushBuffers cores T)
  | .push c o => s.push NBUFS BUFSIZE c o
  | .flush c => s.flush NBUFS c
  | .fetch_and_add f =>
    if f ∈ s.flushes ∧ f.offset = none then some (s.fetch_and_add f) else none
  | .release f i =>
    f.offset.bind fun offset =>
      if f ∈ s.flushes ∧ i < f.save_size then some (s.release f offset i) else none
  | .finish f =>
    if f ∈ s.flushes ∧ f.offset.isSome ∧ ∀ i < f.save_size, i ∈ f.released then
      some (s.finish f)
    else none

/-- After `setup`, on a shared index of zero. -/
def init [Inhabited T] : PushBuffers cores T where
  buf := fun _ _ _ => default
  curr_buf := fun _ => 0
  curr_size := fun _ _ => 0
  shared_index := 0
  target_array := fun _ => none
  flushes := []
  pushed := []
  placed := []

def system [Inhabited T] : Transition.System (PushBuffers cores T) (Label cores T) where
  init := init
  next := next NBUFS BUFSIZE

/-! ### The loop of `flush` -/

variable {NBUFS BUFSIZE} {s} {s' : PushBuffers cores T} {l : Label cores T} {c : Fin cores}
  {f : PushFlush cores}

theorem nextBuffer_empty {sizes : ℕ → ℕ} {save fuel cur b : ℕ}
    (h : nextBuffer NBUFS sizes save fuel cur = some b) : sizes b = 0 := by
  induction fuel generalizing cur with
  | zero => cases h
  | succ fuel ih =>
    unfold nextBuffer at h
    split at h
    · split at h
      · exact ih h
      · cases h
    · rename_i hzero
      cases h
      omega

/-! ### The invariant -/

@[simp] theorem setAt_self {V : Type*} (table : Fin cores → ℕ → V) (c : Fin cores) (b : ℕ) (v : V) :
    setAt table c b v c b = v := by simp [setAt]

theorem setAt_of_ne {V : Type*} (table : Fin cores → ℕ → V) {c d : Fin cores} {b k : ℕ} (v : V)
    (h : d = c → k ≠ b) : setAt table c b v d k = table d k := by
  unfold setAt
  by_cases hd : d = c
  · subst hd
    simp [h rfl]
  · simp [hd]

variable (s) in
/-- What is in the current buffer of a core. -/
def current (c : Fin cores) : List T := s.content c (s.curr_buf c) (s.curr_size c (s.curr_buf c))

variable (s) in
/-- What a flush has to find a place for. -/
def waiting (f : PushFlush cores) : Multiset T :=
  if f.offset = none then (s.content f.core f.save_buf f.save_size : Multiset T) else 0

/-- The buffer that a flush has saved. -/
def key (f : PushFlush cores) : Fin cores × ℕ := (f.core, f.save_buf)

variable (s) in
/-- **The invariant**: the buffers that are not empty are the current ones and those that are
    flushed, each by one task; what is in the places reserved is in a buffer that is flushed or in
    the target. -/
structure Inv : Prop where
  -- each flush has a buffer of its own, which is not the current one
  saved : ∀ f ∈ s.flushes, f.save_buf ≠ s.curr_buf f.core ∧
    s.curr_size f.core f.save_buf = f.save_size ∧ 0 < f.save_size
  nodup : (s.flushes.map key).Nodup
  busy : ∀ c b, b ≠ s.curr_buf c → s.curr_size c b ≠ 0 → (c, b) ∈ s.flushes.map key
  -- the places that the shared index has given away
  index : s.shared_index = s.placed.length
  reserved : ∀ f ∈ s.flushes, ∀ o, f.offset = some o →
    ∀ i < f.save_size, s.placed[o + i]? = some (s.buf f.core f.save_buf i)
  target : ∀ (j : ℕ) t, s.placed[j]? = some t → s.target_array j = some t ∨
    ∃ f ∈ s.flushes, ∃ o i, f.offset = some o ∧ j = o + i ∧ i < f.save_size ∧ i ∉ f.released
  -- an element has a place, or it is in a flush without places, or in a current buffer
  account : (s.pushed : Multiset T) =
    s.placed + ((s.flushes.map s.waiting).sum + ∑ c, (s.current c : Multiset T))

theorem init_inv [Inhabited T] : (init : PushBuffers cores T).Inv where
  saved := by simp [init]
  nodup := by simp [init]
  busy := by simp [init]
  index := rfl
  reserved := by simp [init]
  target := by simp [init]
  account := by simp [init, current, content]

/-! ### Pushes -/

theorem content_congr {t : PushBuffers cores T} {b : ℕ} (h : t.buf c b = s.buf c b) (n : ℕ) :
    t.content c b n = s.content c b n := by
  rw [content, content, h]

theorem map_range_update (g : ℕ → T) (n : ℕ) (o : T) :
    (List.range (n + 1)).map (Function.update g n o) = (List.range n).map g ++ [o] := by
  have hsame : (List.range n).map (update g n o) = (List.range n).map g := by
    apply List.map_congr_left
    intro i hi
    exact update_of_ne (ne_of_lt (List.mem_range.mp hi)) ..
  rw [List.range_succ, List.map_append, hsame]
  simp

theorem current_store (s : PushBuffers cores T) (c : Fin cores) (o : T) :
    (s.store c o).current c = s.current c ++ [o] := by
  have hsize : (s.store c o).curr_size c (s.curr_buf c) = s.curr_size c (s.curr_buf c) + 1 :=
    setAt_self ..
  have hbuf : (s.store c o).buf c (s.curr_buf c) =
      update (s.buf c (s.curr_buf c)) (s.curr_size c (s.curr_buf c)) o := setAt_self ..
  show (s.store c o).content c (s.curr_buf c) ((s.store c o).curr_size c (s.curr_buf c)) = _
  rw [hsize, content, hbuf]
  exact map_range_update ..

/-- **An element is stored.** -/
theorem store_inv (hi : s.Inv) (c : Fin cores) (o : T) : (s.store c o).Inv := by
  have hsize (f : PushFlush cores) (hf : f ∈ s.flushes) :
      (s.store c o).curr_size f.core f.save_buf = s.curr_size f.core f.save_buf :=
    setAt_of_ne _ _ fun h => h ▸ (hi.saved f hf).1
  have hbuf (f : PushFlush cores) (hf : f ∈ s.flushes) :
      (s.store c o).buf f.core f.save_buf = s.buf f.core f.save_buf :=
    setAt_of_ne _ _ fun h => h ▸ (hi.saved f hf).1
  constructor
  case saved =>
    intro f hf
    rw [hsize f hf]
    exact hi.saved f hf
  case nodup => exact hi.nodup
  case busy =>
    intro d b hb hne
    have hold : (s.store c o).curr_size d b = s.curr_size d b :=
      setAt_of_ne _ _ fun h => h ▸ hb
    rw [hold] at hne
    exact hi.busy d b hb hne
  case index => exact hi.index
  case reserved =>
    intro f hf
    rw [hbuf f hf]
    exact hi.reserved f hf
  case target => exact hi.target
  case account =>
    have hwaiting : s.flushes.map (s.store c o).waiting = s.flushes.map s.waiting := by
      apply map_congr_left
      intro f hf
      unfold waiting
      rw [content_congr (hbuf f hf)]
    have hcurrent : ((s.store c o).current c : Multiset T) = s.current c + {o} := by
      rw [current_store, ← coe_add]
      rfl
    have hother (d : Fin cores) (hd : d ≠ c) :
        ((s.store c o).current d : Multiset T) = s.current d := by
      have hsize : (s.store c o).curr_size d = s.curr_size d := update_of_ne hd ..
      have hbuf : (s.store c o).buf d = s.buf d := update_of_ne hd ..
      unfold current content
      rw [hsize, hbuf]
      rfl
    have hsum := Census.sum_eq_add hcurrent hother
    show ((s.pushed ++ [o] : List T) : Multiset T) = s.placed +
      ((s.flushes.map (s.store c o).waiting).sum + ∑ d, ((s.store c o).current d : Multiset T))
    rw [hwaiting, hsum, ← coe_add, hi.account, coe_singleton]
    abel

/-! ### Flushes -/

/-- **A flush begins**: the current buffer is saved, and an empty one is current. -/
theorem saved_inv (hi : s.Inv) (c : Fin cores) {b : ℕ} (hempty : s.curr_size c b = 0)
    (hsize : 0 < s.curr_size c (s.curr_buf c)) :
    Inv { s with
      curr_buf := update s.curr_buf c b
      flushes := ⟨c, s.curr_buf c, s.curr_size c (s.curr_buf c), none, []⟩ :: s.flushes } := by
  have hne : s.curr_buf c ≠ b := by
    intro h
    rw [h, hempty] at hsize
    cases hsize
  constructor
  case saved =>
    intro f hf
    rcases List.mem_cons.mp hf with rfl | hf
    · exact ⟨by simpa using hne, rfl, hsize⟩
    · obtain ⟨hcurr, hfsize, hpos⟩ := hi.saved f hf
      refine ⟨?_, hfsize, hpos⟩
      show f.save_buf ≠ update s.curr_buf c b f.core
      by_cases hc : f.core = c
      · -- the buffer that is saved is not empty
        rw [hc, update_self]
        intro heq
        rw [hc, heq, hempty] at hfsize
        omega
      · rw [update_of_ne hc]
        exact hcurr
  case nodup =>
    show ((c, s.curr_buf c) :: s.flushes.map key).Nodup
    rw [List.nodup_cons]
    refine ⟨?_, hi.nodup⟩
    intro hmem
    obtain ⟨f, hf, heq⟩ := mem_map.mp hmem
    obtain ⟨hcore, hbuf⟩ := Prod.mk.inj heq
    exact (hi.saved f hf).1 (hbuf.trans (hcore ▸ rfl))
  case busy =>
    intro d k hk hne'
    show (d, k) ∈ (c, s.curr_buf c) :: s.flushes.map key
    by_cases hd : d = c
    · subst hd
      by_cases hkc : k = s.curr_buf d
      · rw [hkc]
        exact mem_cons_self
      · exact mem_cons_of_mem _ (hi.busy d k hkc hne')
    · have hk' : k ≠ s.curr_buf d := by simpa [hd] using hk
      exact mem_cons_of_mem _ (hi.busy d k hk' hne')
  case index => exact hi.index
  case reserved =>
    intro f hf o ho
    rcases mem_cons.mp hf with rfl | hf
    · cases ho
    · exact hi.reserved f hf o ho
  case target =>
    intro j t hj
    rcases hi.target j t hj with h | ⟨f, hf, h⟩
    · exact .inl h
    · exact .inr ⟨f, mem_cons_of_mem _ hf, h⟩
  case account =>
    -- the content of the current buffer goes over to the new flush
    let s' : PushBuffers cores T := { s with curr_buf := update s.curr_buf c b }
    have hcurrent : (s.current c : Multiset T) = s'.current c + s.current c := by
      have hnone : s'.current c = [] := by
        unfold current content
        simp [s', hempty]
      simp [hnone]
    have hother (d : Fin cores) (hd : d ≠ c) : (s.current d : Multiset T) = s'.current d := by
      unfold current
      simp [s', hd, content]
    have hsum := Census.sum_eq_add hcurrent hother
    have hacc := hi.account
    rw [hsum] at hacc
    show (s.pushed : Multiset T) =
      s.placed + (s.current c + (s.flushes.map s.waiting).sum + ∑ d, (s'.current d : Multiset T))
    rw [hacc]
    abel

theorem flush_inv (hi : s.Inv) (h : s.flush NBUFS c = some s') : s'.Inv := by
  obtain ⟨b, hb, heq⟩ := map_eq_some_iff.mp h
  have hempty := nextBuffer_empty hb
  split at heq
  · rename_i hsize
    subst heq
    exact saved_inv hi c hempty hsize
  · rename_i hsize
    -- the current buffer is empty, and stays the current one
    have hzero : s.curr_size c (s.curr_buf c) = 0 := by omega
    have hcurr : b = s.curr_buf c := by
      cases hn : NBUFS with
      | zero =>
        rw [hn] at hb
        cases hb
      | succ n =>
        rw [hn, nextBuffer, if_neg (not_not.mpr hzero)] at hb
        exact (some.inj hb).symm
    have hsame : setAt s.curr_size c (s.curr_buf c) 0 = s.curr_size := by
      unfold setAt
      rw [← hzero, update_eq_self, update_eq_self]
    rw [← heq, hcurr, hsame, update_eq_self]
    exact hi

theorem push_inv (hi : s.Inv) {o : T} (h : s.push NBUFS BUFSIZE c o = some s') : s'.Inv := by
  obtain ⟨-, hrest⟩ := ite_none_right_eq_some.mp h
  have hstore := store_inv hi c o
  split at hrest
  · exact flush_inv hstore hrest
  · cases hrest
    exact hstore

/-! ### A flush goes on -/

theorem mem_advance {f' g : PushFlush cores} (hg : g ∈ s.advance f f') : g = f' ∨ g ∈ s.flushes := by
  rcases mem_cons.mp hg with h | h
  · exact .inl h
  · exact .inr (mem_of_mem_erase h)

theorem mem_advance_of_ne {f' g : PushFlush cores} (hg : g ∈ s.flushes) (hne : g ≠ f) :
    g ∈ s.advance f f' :=
  List.mem_cons_of_mem _ ((List.mem_erase_of_ne hne).mpr hg)

theorem advance_keys {f' : PushFlush cores} (hf : f ∈ s.flushes) (hkey : key f' = key f) :
    ((s.advance f f').map key).Perm (s.flushes.map key) := by
  show (key f' :: (s.flushes.erase f).map key).Perm (s.flushes.map key)
  rw [hkey]
  exact ((perm_cons_erase hf).map key).symm

theorem advance_sum {f' : PushFlush cores} (hf : f ∈ s.flushes) (w : PushFlush cores → Multiset T) :
    ((s.advance f f').map w).sum + w f = (s.flushes.map w).sum + w f' := by
  have h := ((List.perm_cons_erase hf).map w).sum_eq
  rw [h, advance, List.map_cons, List.map_cons, List.sum_cons, List.sum_cons]
  abel

/-- A flush goes on, and the places given away so far stay as they are. -/
theorem advance_inv (hi : s.Inv) (hf : f ∈ s.flushes) {o : Option ℕ} {r : List ℕ} {f' : PushFlush cores}
    (hf' : f' = { f with offset := o, released := r }) {p : List T} {t : ℕ → Option T} {k : ℕ}
    (hindex : k = p.length) (hold : ∀ (j : ℕ) x, s.placed[j]? = some x → p[j]? = some x)
    (hreserved : ∀ j, o = some j → ∀ i < f.save_size, p[j + i]? = some (s.buf f.core f.save_buf i))
    (htarget : ∀ (j : ℕ) x, p[j]? = some x → t j = some x ∨ ∃ g ∈ s.advance f f', ∃ o i,
      g.offset = some o ∧ j = o + i ∧ i < g.save_size ∧ i ∉ g.released)
    (hwaiting : (p : Multiset T) + s.waiting f' = s.placed + s.waiting f) :
    Inv { s with target_array := t, shared_index := k, flushes := s.advance f f', placed := p } := by
  have hkeys : ((s.advance f f').map key).Perm (s.flushes.map key) :=
    advance_keys hf (by rw [hf']; rfl)
  constructor
  case saved =>
    intro g hg
    rcases mem_advance hg with rfl | hg
    · rw [hf']
      exact hi.saved f hf
    · exact hi.saved g hg
  case nodup => exact hkeys.nodup_iff.mpr hi.nodup
  case busy => exact fun d k hk hne => hkeys.mem_iff.mpr (hi.busy d k hk hne)
  case index => exact hindex
  case reserved =>
    intro g hg j hj i hin
    rcases mem_advance hg with rfl | hg
    · rw [hf'] at hj hin ⊢
      exact hreserved j hj i hin
    · exact hold _ _ (hi.reserved g hg j hj i hin)
  case target => exact htarget
  case account =>
    have hsum := @advance_sum _ _ s f f' hf s.waiting
    have hmoved : (p : Multiset T) + ((s.advance f f').map s.waiting).sum =
        s.placed + (s.flushes.map s.waiting).sum := by
      apply add_right_cancel (b := s.waiting f)
      rw [add_assoc, hsum, add_left_comm, hwaiting]
      abel
    show (s.pushed : Multiset T) =
      p + (((s.advance f f').map s.waiting).sum + ∑ c, (s.current c : Multiset T))
    rw [hi.account, ← add_assoc, ← add_assoc, hmoved]

/-- **The range is reserved**, and what the flush has saved gets its places. -/
theorem fetch_and_add_inv (hi : s.Inv) (hf : f ∈ s.flushes) (hoff : f.offset = none) :
    (s.fetch_and_add f).Inv := by
  have hlen : (s.content f.core f.save_buf f.save_size).length = f.save_size := by simp [content]
  apply advance_inv hi hf rfl
  case hindex => rw [length_append, hlen, hi.index]
  case hold =>
    intro j x hj
    rw [List.getElem?_append_left (List.getElem?_eq_some_iff.mp hj).1]
    exact hj
  case hreserved =>
    intro j hj i hin
    cases hj
    rw [hi.index, getElem?_append_right (Nat.le_add_right _ _), Nat.add_sub_cancel_left, content,
      getElem?_map, getElem?_range hin]
    rfl
  case htarget =>
    intro j t hj
    rcases lt_or_ge j s.placed.length with hlt | hge
    · rw [getElem?_append_left hlt] at hj
      rcases hi.target j t hj with h | ⟨g, hg, o, i, ho, h⟩
      · exact .inl h
      · -- the flush that has no range yet is not the one that covers this place
        have hne : g ≠ f := by
          rintro rfl
          rw [hoff] at ho
          cases ho
        exact .inr ⟨g, mem_advance_of_ne hg hne, o, i, ho, h⟩
    · have hlt := (List.getElem?_eq_some_iff.mp hj).1
      rw [length_append, hlen] at hlt
      refine .inr ⟨_, mem_cons_self, s.shared_index, j - s.placed.length, rfl, ?_, ?_, not_mem_nil⟩
      · rw [hi.index]
        omega
      · show j - s.placed.length < f.save_size
        omega
  case hwaiting =>
    have hbefore : s.waiting f = s.content f.core f.save_buf f.save_size := if_pos hoff
    rw [hbefore, coe_add]
    exact add_zero _

/-- **An element arrives** at its place. -/
theorem release_inv (hi : s.Inv) (hf : f ∈ s.flushes) {o i : ℕ} (ho : f.offset = some o)
    (hin : i < f.save_size) : (s.release f o i).Inv := by
  have hplace := hi.reserved f hf o ho i hin
  apply advance_inv hi hf (o := f.offset) (r := i :: f.released) rfl
  case hindex => exact hi.index
  case hold => exact fun _ _ hj => hj
  case hreserved => exact hi.reserved f hf
  case htarget =>
    intro j t hj
    by_cases hji : j = o + i
    · subst hji
      rw [hplace] at hj
      rw [update_self]
      exact .inl hj
    · rw [update_of_ne hji]
      rcases hi.target j t hj with h | ⟨g, hg, o', i', ho', hj', hin', hnot⟩
      · exact .inl h
      · by_cases hgf : g = f
        · subst hgf
          obtain rfl : o = o' := some.inj (ho.symm.trans ho')
          have hii : i' ≠ i := fun h => hji (h ▸ hj')
          exact .inr ⟨_, mem_cons_self, o, i', ho, hj', hin', by simp [hii, hnot]⟩
        · exact .inr ⟨g, mem_advance_of_ne hg hgf, o', i', ho', hj', hin', hnot⟩
  case hwaiting => rfl

/-- **A flush completes**, and its buffer is empty. -/
theorem finish_inv (hi : s.Inv) (hf : f ∈ s.flushes) (hoff : f.offset.isSome)
    (hall : ∀ i < f.save_size, i ∈ f.released) : (s.finish f).Inv := by
  have hperm := List.perm_cons_erase hf
  have hkey : key f ∉ (s.flushes.erase f).map key := by
    have hnodup := (hperm.map key).nodup_iff.mp hi.nodup
    exact (nodup_cons.mp hnodup).1
  -- another flush is of another buffer
  have hother (g : PushFlush cores) (hg : g ∈ s.flushes.erase f) :
      (s.finish f).curr_size g.core g.save_buf = s.curr_size g.core g.save_buf := by
    apply setAt_of_ne
    intro hcore hbuf
    apply hkey
    have : key g = key f := Prod.ext hcore hbuf
    exact this ▸ mem_map_of_mem hg
  have hcurr (d : Fin cores) :
      (s.finish f).curr_size d (s.curr_buf d) = s.curr_size d (s.curr_buf d) := by
    apply setAt_of_ne
    intro hcore hbuf
    subst hcore
    exact (hi.saved f hf).1 hbuf.symm
  constructor
  case saved =>
    intro g hg
    rw [hother g hg]
    exact hi.saved g (mem_of_mem_erase hg)
  case nodup => exact hi.nodup.sublist (erase_sublist.map key)
  case busy =>
    intro d k hk hne
    have hdk : (d, k) ≠ key f := by
      intro heq
      cases heq
      exact hne (setAt_self ..)
    have hold : (s.finish f).curr_size d k = s.curr_size d k :=
      setAt_of_ne _ _ fun hd hb => hdk (Prod.ext hd hb)
    rw [hold] at hne
    have hmem := (hperm.map key).mem_iff.mp (hi.busy d k hk hne)
    exact (mem_cons.mp hmem).resolve_left hdk
  case index => exact hi.index
  case reserved => exact fun g hg => hi.reserved g (mem_of_mem_erase hg)
  case target =>
    intro j t hj
    rcases hi.target j t hj with h | ⟨g, hg, o, i, ho, hjo, hin, hnot⟩
    · exact .inl h
    · have hgf : g ≠ f := by
        rintro rfl
        exact hnot (hall i hin)
      exact .inr ⟨g, (List.mem_erase_of_ne hgf).mpr hg, o, i, ho, hjo, hin, hnot⟩
  case account =>
    have hsum : ((s.flushes.erase f).map s.waiting).sum = (s.flushes.map s.waiting).sum := by
      have h := (hperm.map s.waiting).sum_eq
      have hzero : s.waiting f = 0 := if_neg (isSome_iff_ne_none.mp hoff)
      rw [h, List.map_cons, List.sum_cons, hzero, zero_add]
    have hcurrent (d : Fin cores) : (s.finish f).current d = s.current d := by
      exact congrArg (s.content d (s.curr_buf d)) (hcurr d)
    show (s.pushed : Multiset T) = s.placed +
      (((s.flushes.erase f).map s.waiting).sum + ∑ d, ((s.finish f).current d : Multiset T))
    rw [hsum]
    simp only [hcurrent]
    exact hi.account

/-! ### Runs -/

theorem next_inv (hi : s.Inv) (h : s.next NBUFS BUFSIZE l = some s') : s'.Inv := by
  cases l with
  | push c o => exact push_inv hi h
  | flush c => exact flush_inv hi h
  | fetch_and_add f =>
    obtain ⟨⟨hf, hoff⟩, rfl⟩ := ite_some_none_eq_some.mp h
    exact fetch_and_add_inv hi hf hoff
  | release f i =>
    obtain ⟨o, ho, hrest⟩ := bind_eq_some_iff.mp h
    obtain ⟨⟨hf, hin⟩, rfl⟩ := ite_some_none_eq_some.mp hrest
    exact release_inv hi hf ho hin
  | finish f =>
    obtain ⟨⟨hf, hoff, hall⟩, rfl⟩ := ite_some_none_eq_some.mp h
    exact finish_inv hi hf hoff hall

/-- What was pushed is in the target array, each element at a place of its own. -/
structure Complete (s : PushBuffers cores T) : Prop where
  shared_index : s.shared_index = s.pushed.length
  placed : s.placed.Perm s.pushed
  target : ∀ (j : ℕ) t, s.placed[j]? = some t → s.target_array j = some t

theorem Inv.complete (hi : s.Inv) (hflushes : s.flushes = [])
    (hempty : ∀ c, s.curr_size c (s.curr_buf c) = 0) : s.Complete := by
  have hcurrent (c : Fin cores) : s.current c = [] := by
    unfold current
    rw [hempty]
    rfl
  have hperm : s.placed.Perm s.pushed := by
    have h := hi.account
    simp only [hflushes, hcurrent, map_nil, sum_nil, coe_nil,
      Finset.sum_const_zero, add_zero] at h
    exact (coe_eq_coe.mp h).symm
  constructor
  case shared_index => rw [hi.index, hperm.length_eq]
  case placed => exact hperm
  case target =>
    intro j t hj
    rcases hi.target j t hj with h | ⟨f, hf, -⟩
    · exact h
    · rw [hflushes] at hf
      cases hf

/-! ### The size of the current buffer -/

theorem flush_room (hpos : 0 < BUFSIZE)
    (hr : ∀ d, d ≠ c → s.curr_size d (s.curr_buf d) < BUFSIZE) (h : s.flush NBUFS c = some s') :
    ∀ d, s'.curr_size d (s'.curr_buf d) < BUFSIZE := by
  obtain ⟨b, hb, heq⟩ := map_eq_some_iff.mp h
  have hempty := nextBuffer_empty hb
  intro d
  split at heq
  · subst heq
    show s.curr_size d (update s.curr_buf c b d) < BUFSIZE
    by_cases hd : d = c
    · subst hd
      rwa [update_self, hempty]
    · rw [update_of_ne hd]
      exact hr d hd
  · subst heq
    show setAt s.curr_size c (s.curr_buf c) 0 d (update s.curr_buf c b d) < BUFSIZE
    by_cases hd : d = c
    · subst hd
      rw [update_self]
      by_cases hbc : b = s.curr_buf d
      · rw [hbc, setAt_self]
        exact hpos
      · rwa [setAt_of_ne _ _ fun _ => hbc, hempty]
    · rw [setAt_of_ne _ _ fun h => absurd h hd, update_of_ne hd]
      exact hr d hd

theorem next_room (hpos : 0 < BUFSIZE) (hi : s.Inv)
    (hr : ∀ d, s.curr_size d (s.curr_buf d) < BUFSIZE) (h : s.next NBUFS BUFSIZE l = some s') :
    ∀ d, s'.curr_size d (s'.curr_buf d) < BUFSIZE := by
  cases l with
  | push c o =>
    obtain ⟨hle, hrest⟩ := ite_none_right_eq_some.mp h
    have hother (d : Fin cores) (hd : d ≠ c) :
        (s.store c o).curr_size d ((s.store c o).curr_buf d) < BUFSIZE := by
      show setAt s.curr_size c _ _ d (s.curr_buf d) < BUFSIZE
      rw [setAt_of_ne _ _ fun h => absurd h hd]
      exact hr d
    split at hrest
    · exact flush_room hpos hother hrest
    · rename_i hnot
      cases hrest
      intro d
      by_cases hd : d = c
      · subst hd
        show setAt s.curr_size d (s.curr_buf d) _ d (s.curr_buf d) < BUFSIZE
        rw [setAt_self]
        omega
      · exact hother d hd
  | flush c => exact flush_room hpos (fun d _ => hr d) h
  | fetch_and_add f =>
    obtain ⟨-, rfl⟩ := ite_some_none_eq_some.mp h
    exact hr
  | release f i =>
    obtain ⟨o, -, hrest⟩ := bind_eq_some_iff.mp h
    obtain ⟨-, rfl⟩ := ite_some_none_eq_some.mp hrest
    exact hr
  | finish f =>
    obtain ⟨⟨hf, -, -⟩, rfl⟩ := ite_some_none_eq_some.mp h
    intro d
    show setAt s.curr_size f.core f.save_buf 0 d (s.curr_buf d) < BUFSIZE
    rw [setAt_of_ne]
    · exact hr d
    · intro hcore hbuf
      subst hcore
      exact (hi.saved f hf).1 hbuf.symm

/-! ### The law -/

/-- **Push buffers lose nothing**: when no flush is under way and the current buffers are empty,
    the target array holds all that was pushed in the places up to the shared index; and the `CHECK`
    on the size of a buffer does not fail at the next push. -/
theorem push_buffer_complete [Inhabited T] {ls : List (Label cores T)}
    (hrun : (system NBUFS BUFSIZE).run (init : PushBuffers cores T) ls = some s) :
    (s.flushes = [] → (∀ c, s.curr_size c (s.curr_buf c) = 0) → s.Complete) ∧
      (0 < BUFSIZE → ∀ c, s.curr_size c (s.curr_buf c) + 1 ≤ BUFSIZE) := by
  have hreach : (system NBUFS BUFSIZE).Reachable s := ⟨ls, hrun⟩
  have hi : s.Inv := hreach.invariant Inv init_inv fun _ _ _ hi h => next_inv hi h
  refine ⟨hi.complete, fun hpos => ?_⟩
  have hboth := hreach.invariant
    (fun s => s.Inv ∧ ∀ d, s.curr_size d (s.curr_buf d) < BUFSIZE)
    ⟨init_inv, fun _ => hpos⟩
    (fun _ _ _ h hnext => ⟨next_inv h.1 hnext, next_room hpos h.1 h.2 hnext⟩)
  exact hboth.2

/-- Two cores push three elements; one buffer fills up, and the others are flushed at the end. -/
theorem push_buffer_three :
    let ls : List (Label 2 ℕ) := [.push 0 5, .push 1 6, .push 0 7,
      .fetch_and_add ⟨0, 0, 2, none, []⟩, .flush 1, .fetch_and_add ⟨1, 0, 1, none, []⟩,
      .release ⟨0, 0, 2, some 0, []⟩ 1, .release ⟨1, 0, 1, some 2, []⟩ 0,
      .release ⟨0, 0, 2, some 0, [1]⟩ 0, .finish ⟨1, 0, 1, some 2, [0]⟩,
      .finish ⟨0, 0, 2, some 0, [0, 1]⟩]
    ∃ s, (system 3 2).run (init : PushBuffers 2 ℕ) ls = some s ∧
      (s.flushes, s.pushed, s.placed) = ([], [5, 6, 7], [5, 7, 6]) ∧
      (s.flushes = [] → (∀ c, s.curr_size c (s.curr_buf c) = 0) → s.Complete) ∧
      (0 < 2 → ∀ c, s.curr_size c (s.curr_buf c) + 1 ≤ 2) := by
  intro ls
  have hend : ((system 3 2).run (init : PushBuffers 2 ℕ) ls).map
      (fun s => (s.flushes, s.pushed, s.placed)) = some ([], [5, 6, 7], [5, 7, 6]) := by
    decide +kernel
  obtain ⟨s, hrun, hs⟩ := map_eq_some_iff.mp hend
  exact ⟨s, hrun, hs, push_buffer_complete hrun⟩

end PushBuffers

end Grappa
