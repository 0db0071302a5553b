import AdvCompArch.Grappa.MessageBase

/-! # Queues of public tasks

    Each core keeps its public tasks on a stack.  The owner pushes and pops at the top;
    a steal takes a segment from the bottom, by moving `bottom` up.  The segment stays
    where it is until the reply that points to it has been copied, and `bottom` only
    moves down again when no reply points into the stack.

    * the operations of one queue, as the source has them;
    * `Queue.Keeps`: what every operation but a steal leaves alone. -/

namespace Grappa

/-- The size of the queues and of a task.  `TaskManager` gives a queue `1 << 19` entries or a
    fraction of it. -/
structure StealParams where
  stackSize : ℕ
  stackSize_le : stackSize ≤ 2 ^ 19
  sizeofT : ℕ

/-- Conversion to a 32-bit `int`. -/
def toInt (x : ℤ) : ℤ := Int.bmod x (2 ^ 32)

theorem toInt_of_range {x : ℤ} (hlo : -2 ^ 31 ≤ x) (hhi : x < 2 ^ 31) : toInt x = x :=
  Int.bmod_eq_of_le (by norm_num; omega) (by norm_num; omega)

/-- `StealQueue<T>`.  `stack` is memory: it has some contents at every index. -/
structure Queue (T : Type) where
  bottom : ℕ
  top : ℕ
  numVictimSegments : ℕ
  stack : ℕ → T

/-- `len` entries of the memory from `start` on. -/
def segment {T : Type} (stack : ℕ → T) (start len : ℕ) : List T :=
  (List.range' start len).map stack

namespace Queue

variable {T : Type}

def depth (q : Queue T) : ℕ := q.top - q.bottom

/-- The tasks in `[bottom, top)`. -/
def tasks (q : Queue T) : List T := segment q.stack q.bottom (q.top - q.bottom)

def mkEmpty (q : Queue T) : Queue T := { q with bottom := 0, top := 0 }

/-- `reclaimSpace` where nothing else is pending, which it never is: work sharing and the global
    queue are commented out. -/
def reclaimSpace (q : Queue T) : Queue T := if q.depth = 0 then q.mkEmpty else q

/-- The attempt to reclaim space in `steal_locally` and in the reply. -/
def try_reclaim (q : Queue T) : Queue T := if q.numVictimSegments = 0 then q.reclaimSpace else q

/-- `push`, `none` if its `CHECK` fails. -/
def push (p : StealParams) (t : T) (q : Queue T) : Option (Queue T) :=
  if q.top < p.stackSize then
    some { q with stack := Function.update q.stack q.top t, top := q.top + 1 }
  else none

/-- `peek` followed by `pop`. -/
def pop (q : Queue T) : Option (T × Queue T) :=
  if q.top > q.bottom then some (q.stack (q.top - 1), { q with top := q.top - 1 }) else none

/-- `memcpy` to the top of the stack. -/
def copyToTop (payload : List T) (q : Queue T) : Queue T :=
  { q with
    stack := fun i => if q.top ≤ i then payload.getD (i - q.top) (q.stack i) else q.stack i
    top := q.top + payload.length }

/-- The reply on the origin, with a payload of `payload_size` bytes. -/
def receive_reply (p : StealParams) (stealAmt : ℕ) (payload : List T) (payload_size : ℤ)
    (q : Queue T) : Option (Queue T) :=
  if (stealAmt * p.sizeofT : ℤ) = payload_size then
    let q := q.try_reclaim
    if q.top + stealAmt < p.stackSize then some (q.copyToTop payload) else none
  else none

/-- The amount that the request takes on the victim. -/
def stealAmt (max_steal : ℤ) (q : Queue T) : ℤ :=
  let victimBottom := toInt q.bottom
  let victimTop := toInt q.top
  let victimHalfWorkAvail := (victimTop - victimBottom).tdiv 2
  toInt (if victimHalfWorkAvail < max_steal then victimHalfWorkAvail else max_steal)

/-- The end of the segment that is reserved. -/
def stealEnd (amt : ℤ) (q : Queue T) : ℕ := (toInt q.bottom + amt).toNat

/-- Reserving the segment, with the count that the reply's constructor increments. -/
def reserve (stop : ℕ) (q : Queue T) : Queue T :=
  { q with bottom := stop, numVictimSegments := q.numVictimSegments + 1 }

/-! ### Segments -/

theorem length_segment (stack : ℕ → T) (start len : ℕ) : (segment stack start len).length = len := by
  simp [segment]

theorem getElem_segment (stack : ℕ → T) (start len i : ℕ)
    (h : i < (segment stack start len).length) :
    (segment stack start len)[i] = stack (start + i) := by
  simp [segment]

theorem segment_congr {stack stack' : ℕ → T} {start len : ℕ}
    (h : ∀ i, start ≤ i → i < start + len → stack' i = stack i) :
    segment stack' start len = segment stack start len := by
  apply List.map_congr_left
  intro i hi
  obtain ⟨hlo, hhi⟩ := List.mem_range'_1.mp hi
  exact h i hlo hhi

theorem segment_append (stack : ℕ → T) (start m n : ℕ) :
    segment stack start (m + n) = segment stack start m ++ segment stack (start + m) n := by
  unfold segment
  rw [← List.map_append, List.range'_append_1]

theorem segment_one (stack : ℕ → T) (start : ℕ) : segment stack start 1 = [stack start] := rfl

/-! ### What the operations do -/

/-- The queue is inside its memory. -/
def InBounds (p : StealParams) (q : Queue T) : Prop := q.bottom ≤ q.top ∧ q.top ≤ p.stackSize

/-- An operation keeps the count of the segments, and, as long as there are any, everything
    below `bottom`. -/
structure Keeps (p : StealParams) (q q' : Queue T) : Prop where
  bounds : q'.InBounds p
  count : q'.numVictimSegments = q.numVictimSegments
  below : q.numVictimSegments ≠ 0 → q.bottom ≤ q'.bottom ∧ ∀ i < q.bottom, q'.stack i = q.stack i

theorem Keeps.trans {p : StealParams} {q q' q'' : Queue T} (h : Keeps p q q') (h' : Keeps p q' q'') :
    Keeps p q q'' where
  bounds := h'.bounds
  count := h'.count.trans h.count
  below := by
    intro hne
    obtain ⟨hle, hsame⟩ := h.below hne
    obtain ⟨hle', hsame'⟩ := h'.below (by rw [h.count]; exact hne)
    refine ⟨hle.trans hle', ?_⟩
    intro i hi
    rw [hsame' i (by omega), hsame i hi]

variable {p : StealParams} {q q' : Queue T}

theorem push_spec {t : T} (h : q.InBounds p) (hpush : q.push p t = some q') :
    Keeps p q q' ∧ q'.tasks = q.tasks ++ [t] := by
  obtain ⟨hroom, hpush⟩ := Option.ite_none_right_eq_some.mp hpush
  cases hpush
  obtain ⟨hle, -⟩ := h
  have hbelow : ∀ i < q.top, Function.update q.stack q.top t i = q.stack i := by
    intro i hi
    exact Function.update_of_ne (by omega) _ _
  refine ⟨⟨⟨by simp only; omega, by simp only; omega⟩, rfl, ?_⟩, ?_⟩
  · intro _
    exact ⟨le_refl _, fun i hi => hbelow i (by omega)⟩
  · unfold tasks
    simp only
    rw [show q.top + 1 - q.bottom = q.top - q.bottom + 1 by omega, segment_append, segment_one,
      show q.bottom + (q.top - q.bottom) = q.top by omega, Function.update_self]
    congr 1
    apply segment_congr
    intro i _ hi
    exact hbelow i (by omega)

theorem pop_spec {t : T} (h : q.InBounds p) (hpop : q.pop = some (t, q')) :
    Keeps p q q' ∧ q.tasks = q'.tasks ++ [t] := by
  obtain ⟨hgt, hpop⟩ := Option.ite_none_right_eq_some.mp hpop
  cases hpop
  obtain ⟨hle, hmax⟩ := h
  refine ⟨⟨⟨by simp only; omega, by simp only; omega⟩, rfl, ?_⟩, ?_⟩
  · intro _
    exact ⟨le_refl _, fun i _ => rfl⟩
  · unfold tasks
    simp only
    rw [show q.top - q.bottom = q.top - 1 - q.bottom + 1 by omega, segment_append, segment_one,
      show q.bottom + (q.top - 1 - q.bottom) = q.top - 1 by omega]

theorem try_reclaim_spec (h : q.InBounds p) : Keeps p q q.try_reclaim ∧ q.try_reclaim.tasks = q.tasks := by
  unfold try_reclaim reclaimSpace
  split_ifs with hcount hdepth
  · -- the queue is empty and no reply points into it
    refine ⟨⟨⟨Nat.le_refl 0, Nat.zero_le _⟩, rfl, ?_⟩, ?_⟩
    · intro hne
      exact absurd hcount hne
    · unfold depth at hdepth
      unfold tasks mkEmpty
      simp only
      rw [hdepth]
      rfl
  · exact ⟨⟨h, rfl, fun _ => ⟨le_refl _, fun _ _ => rfl⟩⟩, rfl⟩
  · exact ⟨⟨h, rfl, fun _ => ⟨le_refl _, fun _ _ => rfl⟩⟩, rfl⟩

theorem copyToTop_spec (payload : List T) (h : q.InBounds p)
    (hroom : q.top + payload.length ≤ p.stackSize) :
    Keeps p q (q.copyToTop payload) ∧ (q.copyToTop payload).tasks = q.tasks ++ payload := by
  obtain ⟨hle, -⟩ := h
  have hbelow : ∀ i < q.top, (q.copyToTop payload).stack i = q.stack i := by
    intro i hi
    exact if_neg (by omega)
  refine ⟨⟨⟨Nat.le_add_right_of_le hle, hroom⟩, rfl, ?_⟩, ?_⟩
  · intro _
    exact ⟨le_refl _, fun i hi => hbelow i (by omega)⟩
  · have hlen : (q.copyToTop payload).top - (q.copyToTop payload).bottom =
        (q.top - q.bottom) + payload.length := by
      show q.top + payload.length - q.bottom = _
      omega
    unfold tasks
    rw [hlen, segment_append]
    congr 1
    · apply segment_congr
      intro i _ hi
      exact hbelow i (by show i < q.top; have : i < q.bottom + (q.top - q.bottom) := hi; omega)
    · -- the new entries are the payload
      have hstart : (q.copyToTop payload).bottom + (q.top - q.bottom) = q.top := by
        show q.bottom + _ = _
        omega
      rw [hstart]
      apply List.ext_getElem
      · rw [length_segment]
      · intro i h1 h2
        rw [getElem_segment]
        show (if q.top ≤ q.top + i then payload.getD (q.top + i - q.top) _ else _) = _
        rw [if_pos (Nat.le_add_right _ _), Nat.add_sub_cancel_left, List.getD_eq_getElem?_getD,
          List.getElem?_eq_getElem h2, Option.getD_some]

/-- **The reply on the origin** adds the stolen tasks to the queue and keeps what replies of this
    queue point to. -/
theorem receive_reply_spec {amt : ℕ} {payload : List T} {size : ℤ} (h : q.InBounds p)
    (hlen : payload.length = amt) (hrecv : q.receive_reply p amt payload size = some q') :
    Keeps p q q' ∧ q'.tasks = q.tasks ++ payload := by
  obtain ⟨-, hrecv⟩ := Option.ite_none_right_eq_some.mp hrecv
  obtain ⟨hroom, hrecv⟩ := Option.ite_none_right_eq_some.mp hrecv
  cases hrecv
  obtain ⟨hkeeps, htasks⟩ := try_reclaim_spec h
  obtain ⟨hkeeps', htasks'⟩ := copyToTop_spec payload hkeeps.bounds (by omega)
  exact ⟨hkeeps.trans hkeeps', by rw [htasks', htasks]⟩

theorem reserve_spec {max_steal : ℤ} (hmax : -2 ^ 31 ≤ max_steal) (h : q.InBounds p)
    (hok : 0 < q.stealAmt max_steal) :
    ∃ amt : ℕ, q.stealAmt max_steal = amt ∧ (toInt q.bottom).toNat = q.bottom ∧
      q.stealEnd amt = q.bottom + amt ∧ (q.reserve (q.bottom + amt)).InBounds p ∧
      q.tasks = segment q.stack q.bottom amt ++ (q.reserve (q.bottom + amt)).tasks := by
  obtain ⟨hle, htop⟩ := h
  have hsize := p.stackSize_le
  have hbottom : toInt q.bottom = q.bottom := toInt_of_range (by omega) (by omega)
  have htop' : toInt q.top = q.top := toInt_of_range (by omega) (by omega)
  have hhalf : ((q.top : ℤ) - q.bottom).tdiv 2 = (((q.top - q.bottom) / 2 : ℕ) : ℤ) := by
    rw [← Nat.cast_sub hle]
    rfl
  have hamt : q.stealAmt max_steal =
      if (((q.top - q.bottom) / 2 : ℕ) : ℤ) < max_steal then
        (((q.top - q.bottom) / 2 : ℕ) : ℤ) else max_steal := by
    unfold stealAmt
    simp only
    rw [hbottom, htop', hhalf]
    apply toInt_of_range
    · split_ifs <;> omega
    · split_ifs <;> omega
  have hrange : q.stealAmt max_steal ≤ (((q.top - q.bottom) / 2 : ℕ) : ℤ) := by
    rw [hamt]
    split_ifs <;> omega
  obtain ⟨amt, hamt'⟩ : ∃ amt : ℕ, q.stealAmt max_steal = amt := Int.eq_ofNat_of_zero_le hok.le
  rw [hamt'] at hrange
  refine ⟨amt, hamt', ?_, ?_, ⟨?_, htop⟩, ?_⟩
  · rw [hbottom, Int.toNat_natCast]
  · unfold stealEnd
    rw [hbottom]
    omega
  · show q.bottom + amt ≤ q.top
    omega
  · have hlen : q.top - q.bottom = amt + (q.top - (q.bottom + amt)) := by omega
    unfold tasks
    rw [hlen]
    exact segment_append q.stack q.bottom amt _

end Queue

end Grappa
