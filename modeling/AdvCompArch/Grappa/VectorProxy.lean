import AdvCompArch.Grappa.CombinedContent
import Mathlib.Data.PNat.Basic

/-! # The proxies of a global vector

    `push`, `pop` and `dequeue` of a `GlobalVector` go through the flat combiner of their
    core.  A push that meets a waiting pop of its batch, or a pop that meets a buffered
    push, is matched with it and signals the condition variable of the batch: pushers,
    poppers and dequeuers all wait there.  While the task that is woken is that of the
    matched request (`InOrder`), every call returns with its request fulfilled; a
    dequeuer that waits behind it is woken in its place. -/

namespace Grappa

namespace VectorProxy

open FlatCombiner (ContentRule EffectRule Content Paired Label)

variable {V : Type}

inductive VectorRequest (V : Type) where
  | push (v : V)
  | pop
  | dequeue
  deriving DecidableEq

/-- What happens to the values; requests are named by their calls. -/
inductive VectorEvent (V : Type) where
  /-- The value of a push was stored by `Master::push`. -/
  | stored (push : ℕ) (v : V)
  /-- The value of a push was written to the slot of a pop. -/
  | handed (push pop : ℕ) (v : V)
  /-- `Master::pop` or `Master::dequeue` has filled the buffer. -/
  | delivered (vs : List V)
  /-- A value of the buffer was written to the slot of a pop or a dequeue. -/
  | received (call : ℕ) (v : V)
  deriving DecidableEq

/-- The arrays of a `Proxy`, the last element first; a slot is named by its call, and a value comes
    with the call that pushed it. -/
structure Proxy (V : Type) where
  buffer : List (ℕ × V)
  deqs : List ℕ
  pops : List ℕ
  deriving DecidableEq

/-- What `Master::pop` and `Master::dequeue` put at each place of the buffer. -/
structure Delivery (V : Type) where
  popped : ℕ → V
  dequeued : ℕ → V

/-- The functor of `push(e)`. -/
def push (call : ℕ) (e : V) (p : Proxy V) : Answer (Proxy V) (VectorEvent V) :=
  match p.pops with
  | q :: pops => ⟨.MATCHED, { p with pops := pops }, [.handed call q e], some q⟩
  | [] => ⟨.BLOCKED, { p with buffer := (call, e) :: p.buffer }, [], none⟩

/-- The functor of `pop()`. -/
def pop (call : ℕ) (p : Proxy V) : Answer (Proxy V) (VectorEvent V) :=
  match p.buffer with
  | (q, v) :: buffer => ⟨.MATCHED, { p with buffer := buffer }, [.handed q call v], some q⟩
  | [] => ⟨.BLOCKED, { p with pops := call :: p.pops }, [], none⟩

/-- The functor of `dequeue()`. -/
def dequeue (call : ℕ) (p : Proxy V) : Answer (Proxy V) (VectorEvent V) :=
  ⟨.BLOCKED, { p with deqs := call :: p.deqs }, [], none⟩

def is_full (BUFFER_CAPACITY : ℕ) (p : Proxy V) : Bool :=
  p.buffer.length == BUFFER_CAPACITY || p.deqs.length == BUFFER_CAPACITY ||
    p.pops.length == BUFFER_CAPACITY

/-- `*slots[i] = buffer[i]` for every `i`, once the buffer is filled. -/
def fill (slots : List ℕ) (buffer : ℕ → V) : List (VectorEvent V) :=
  .delivered ((List.range slots.length).map buffer) ::
    slots.reverse.zipIdx.map fun slot => .received slot.1 (buffer slot.2)

def sync (p : Proxy V) (d : Delivery V) : List (VectorEvent V) :=
  (if p.buffer ≠ [] then p.buffer.map fun x => .stored x.1 x.2
    else if p.pops ≠ [] then fill p.pops d.popped
    else []) ++
  if p.deqs ≠ [] then fill p.deqs d.dequeued else []

/-- The combined type of `GlobalVector<V, BUFFER_CAPACITY>`. -/
def proxy (V : Type) (BUFFER_CAPACITY : ℕ+) :
    Combined (Proxy V) (VectorRequest V) (VectorEvent V) (Delivery V) where
  func
    | call, .push e => push call e
    | call, .pop => pop call
    | call, .dequeue => dequeue call
  is_full := is_full BUFFER_CAPACITY
  clear := fun _ => ⟨[], [], []⟩
  clone_fresh := fun _ => ⟨[], [], []⟩
  sync := sync

/-! ### What the callers are promised -/

/-- The calls whose request an event fulfils. -/
def VectorEvent.settles : VectorEvent V → List ℕ
  | .stored c _ => [c]
  | .handed c d _ => [c, d]
  | .delivered _ => []
  | .received c _ => [c]

/-- The values written to result slots. -/
def VectorEvent.written : VectorEvent V → List V
  | .handed _ _ v => [v]
  | .received _ v => [v]
  | _ => []

/-- The values that come from a matched push or from the vector. -/
def VectorEvent.supplied : VectorEvent V → List V
  | .handed _ _ v => [v]
  | .delivered vs => vs
  | _ => []

/-- The event is as the requests of its calls ask for. -/
def VectorEvent.Asked (rs : List (VectorRequest V)) : VectorEvent V → Prop
  | .stored c v => rs[c]? = some (.push v)
  | .handed c d v => rs[c]? = some (.push v) ∧ rs[d]? = some .pop
  | .delivered _ => True
  | .received c _ => rs[c]? = some .pop ∨ rs[c]? = some .dequeue

/-- What flat combining is to guarantee for the calls of a core on a vector. -/
structure Fulfilled (BUFFER_CAPACITY : ℕ+)
    (fc : FlatCombiner (Proxy V) (VectorRequest V) (VectorEvent V)) : Prop where
  /-- A call that returned was settled: a push was stored or handed to a pop, and a value was written
      to the slot of a pop or a dequeue. -/
  settled : ∀ c ∈ fc.history.returned, ∃ e ∈ fc.history.outs, c ∈ e.settles
  asked : ∀ e ∈ fc.history.outs, e.Asked fc.history.requests
  /-- No call is settled twice. -/
  once : (fc.history.outs.flatMap VectorEvent.settles).Nodup
  /-- Each value that was handed over or delivered is in one slot. -/
  unshared : (fc.history.outs.flatMap VectorEvent.written).Perm
    (fc.history.outs.flatMap VectorEvent.supplied)
  /-- No array is overrun. -/
  bounded : ∀ s, s = fc.current ∨ (fc.flushers s).sender ≠ none →
    (fc.flushers s).id.buffer.length ≤ BUFFER_CAPACITY ∧
      (fc.flushers s).id.deqs.length ≤ BUFFER_CAPACITY ∧
      (fc.flushers s).id.pops.length ≤ BUFFER_CAPACITY

/-- The last task to wait on the current batch is that of this call. -/
def LastWaiter (fc : FlatCombiner (Proxy V) (VectorRequest V) (VectorEvent V)) (c : ℕ) : Prop :=
  ∃ w ws, (fc.flushers fc.current).waiters = w :: ws ∧ fc.tasks w = .waiting fc.current c

instance (fc : FlatCombiner (Proxy V) (VectorRequest V) (VectorEvent V)) (c : ℕ) :
    Decidable (LastWaiter fc c) :=
  match h : (fc.flushers fc.current).waiters with
  | [] => isFalse (by rintro ⟨w, ws, hw, -⟩; rw [h] at hw; cases hw)
  | w :: ws => decidable_of_iff (fc.tasks w = .waiting fc.current c) (by simp [LastWaiter, h])

/-- A push or a pop that meets its partner finds the partner's task to be the last waiter. -/
def InOrder (fc : FlatCombiner (Proxy V) (VectorRequest V) (VectorEvent V)) :
    Label (VectorRequest V) (Delivery V) → Prop
  | .combine _ (.push _) => ∀ c ∈ (fc.flushers fc.current).id.pops.head?, LastWaiter fc c
  | .combine _ .pop => ∀ x ∈ (fc.flushers fc.current).id.buffer.head?, LastWaiter fc x.1
  | _ => True

instance (fc : FlatCombiner (Proxy V) (VectorRequest V) (VectorEvent V)) :
    ∀ lb, Decidable (InOrder fc lb)
  | .combine _ (.push _) => by
    unfold InOrder
    infer_instance
  | .combine _ .pop => by
    unfold InOrder
    infer_instance
  | .combine _ .dequeue => isTrue trivial
  | .resume _ => isTrue trivial
  | .sync_done _ _ => isTrue trivial

/-! ### What a proxy holds -/

/-- The arrays hold the requests of the batch; pushes and pops do not wait together. -/
structure Holds (BUFFER_CAPACITY : ℕ+) (rs : List (VectorRequest V)) (p : Proxy V) (b : List ℕ) :
    Prop where
  batch : (p.buffer.map Prod.fst ++ (p.pops ++ p.deqs)).Perm b
  pushes : ∀ x ∈ p.buffer, rs[x.1]? = some (.push x.2)
  pops : ∀ c ∈ p.pops, rs[c]? = some .pop
  deqs : ∀ c ∈ p.deqs, rs[c]? = some .dequeue
  one_side : p.buffer = [] ∨ p.pops = []
  bounded : p.buffer.length ≤ BUFFER_CAPACITY ∧ p.deqs.length ≤ BUFFER_CAPACITY ∧
    p.pops.length ≤ BUFFER_CAPACITY
  nodup : b.Nodup

structure Room (BUFFER_CAPACITY : ℕ+) (p : Proxy V) : Prop where
  buffer : p.buffer.length < BUFFER_CAPACITY
  deqs : p.deqs.length < BUFFER_CAPACITY
  pops : p.pops.length < BUFFER_CAPACITY

theorem getElem?_snoc {rs : List (VectorRequest V)} {c : ℕ} {r : VectorRequest V}
    (h : rs[c]? = some r) (r' : VectorRequest V) : (rs ++ [r'])[c]? = some r := by
  obtain ⟨hlt, -⟩ := List.getElem?_eq_some_iff.mp h
  rw [List.getElem?_append_left hlt]
  exact h

theorem getElem?_new (rs : List (VectorRequest V)) (r : VectorRequest V) :
    (rs ++ [r])[rs.length]? = some r := by simp

theorem ne_of_getElem? {rs : List (VectorRequest V)} {c : ℕ} {r : VectorRequest V}
    (h : rs[c]? = some r) : c ≠ rs.length := by
  obtain ⟨hlt, -⟩ := List.getElem?_eq_some_iff.mp h
  exact hlt.ne

theorem perm_filter_ne {q : ℕ} {l b : List ℕ} (h : (q :: l).Perm b) (hb : b.Nodup) :
    l.Perm (b.filter fun d => d ≠ q) := by
  have hnot : q ∉ l := (List.nodup_cons.mp (h.nodup_iff.mpr hb)).1
  have hself : l.filter (fun d => d ≠ q) = l := by
    apply List.filter_eq_self.mpr
    intro d hd
    have hne : d ≠ q := by
      intro heq
      exact hnot (heq ▸ hd)
    simpa using hne
  have hfilter := h.filter fun d => d ≠ q
  rw [List.filter_cons_of_neg (by simp), hself] at hfilter
  exact hfilter

variable {BUFFER_CAPACITY : ℕ+} {rs : List (VectorRequest V)} {p : Proxy V} {b : List ℕ}

theorem Holds.new_call (h : Holds BUFFER_CAPACITY rs p b) : rs.length ∉ b := by
  intro hmem
  rw [← h.batch.mem_iff, List.mem_append, List.mem_append] at hmem
  rcases hmem with hmem | hmem | hmem
  · obtain ⟨x, hx, hxc⟩ := List.mem_map.mp hmem
    exact ne_of_getElem? (h.pushes x hx) hxc
  · exact ne_of_getElem? (h.pops _ hmem) rfl
  · exact ne_of_getElem? (h.deqs _ hmem) rfl

theorem Holds.mono (h : Holds BUFFER_CAPACITY rs p b) (r : VectorRequest V) :
    Holds BUFFER_CAPACITY (rs ++ [r]) p b where
  batch := h.batch
  pushes := fun x hx => getElem?_snoc (h.pushes x hx) r
  pops := fun c hc => getElem?_snoc (h.pops c hc) r
  deqs := fun c hc => getElem?_snoc (h.deqs c hc) r
  one_side := h.one_side
  bounded := h.bounded
  nodup := h.nodup

theorem Holds.room (h : Holds BUFFER_CAPACITY rs p b) (hfull : is_full BUFFER_CAPACITY p = false) :
    Room BUFFER_CAPACITY p := by
  obtain ⟨h1, h2, h3⟩ := h.bounded
  simp only [is_full, Bool.or_eq_false_iff, beq_eq_false_iff_ne, ne_eq] at hfull
  obtain ⟨⟨h1', h2'⟩, h3'⟩ := hfull
  exact ⟨by omega, by omega, by omega⟩

theorem Holds.push_blocked (h : Holds BUFFER_CAPACITY rs p b) (hroom : Room BUFFER_CAPACITY p) (e : V)
    (hpops : p.pops = []) :
    Holds BUFFER_CAPACITY (rs ++ [.push e]) { p with buffer := (rs.length, e) :: p.buffer }
      (rs.length :: b) := by
  have hm := h.mono (.push e)
  constructor
  case batch => exact h.batch.cons rs.length
  case pushes =>
    intro x hx
    rcases List.mem_cons.mp hx with heq | hx
    · rw [heq]
      exact getElem?_new rs _
    · exact hm.pushes x hx
  case pops => exact hm.pops
  case deqs => exact hm.deqs
  case one_side => exact .inr hpops
  case bounded => exact ⟨hroom.buffer, h.bounded.2⟩
  case nodup => exact List.nodup_cons.mpr ⟨h.new_call, h.nodup⟩

theorem Holds.pop_blocked (h : Holds BUFFER_CAPACITY rs p b) (hroom : Room BUFFER_CAPACITY p)
    (hbuffer : p.buffer = []) :
    Holds BUFFER_CAPACITY (rs ++ [.pop]) { p with pops := rs.length :: p.pops }
      (rs.length :: b) := by
  have hm := h.mono .pop
  have hbatch := h.batch
  rw [hbuffer] at hbatch
  constructor
  case batch =>
    rw [hbuffer]
    exact hbatch.cons rs.length
  case pushes => exact hm.pushes
  case pops =>
    intro c hc
    rcases List.mem_cons.mp hc with heq | hc
    · rw [heq]
      exact getElem?_new rs _
    · exact hm.pops c hc
  case deqs => exact hm.deqs
  case one_side => exact .inl hbuffer
  case bounded => exact ⟨h.bounded.1, h.bounded.2.1, hroom.pops⟩
  case nodup => exact List.nodup_cons.mpr ⟨h.new_call, h.nodup⟩

theorem Holds.dequeue_blocked (h : Holds BUFFER_CAPACITY rs p b) (hroom : Room BUFFER_CAPACITY p) :
    Holds BUFFER_CAPACITY (rs ++ [.dequeue]) { p with deqs := rs.length :: p.deqs }
      (rs.length :: b) := by
  have hm := h.mono .dequeue
  constructor
  case batch =>
    -- the new call comes to the front
    have hfront : (p.buffer.map Prod.fst ++ (p.pops ++ rs.length :: p.deqs)).Perm
        (rs.length :: (p.buffer.map Prod.fst ++ (p.pops ++ p.deqs))) := by
      rw [← List.append_assoc, ← List.append_assoc]
      exact List.perm_middle
    exact hfront.trans (h.batch.cons rs.length)
  case pushes => exact hm.pushes
  case pops => exact hm.pops
  case deqs =>
    intro c hc
    rcases List.mem_cons.mp hc with heq | hc
    · rw [heq]
      exact getElem?_new rs _
    · exact hm.deqs c hc
  case one_side => exact h.one_side
  case bounded => exact ⟨h.bounded.1, hroom.deqs, h.bounded.2.2⟩
  case nodup => exact List.nodup_cons.mpr ⟨h.new_call, h.nodup⟩

theorem Holds.push_matched (h : Holds BUFFER_CAPACITY rs p b) (hroom : Room BUFFER_CAPACITY p)
    (r : VectorRequest V) {q : ℕ} {pops : List ℕ} (hpops : p.pops = q :: pops) :
    Holds BUFFER_CAPACITY (rs ++ [r]) { p with pops := pops } (b.filter fun d => d ≠ q) ∧
      Room BUFFER_CAPACITY { p with pops := pops } := by
  have hm := h.mono r
  have hbuffer : p.buffer = [] := by
    rcases h.one_side with hnil | hnil
    · exact hnil
    · rw [hpops] at hnil
      cases hnil
  have hbatch := h.batch
  have hlt := hroom.pops
  rw [hpops] at hlt
  have hlen : pops.length < BUFFER_CAPACITY := (Nat.lt_succ_self _).trans hlt
  rw [hbuffer, hpops] at hbatch
  refine ⟨?_, hroom.buffer, hroom.deqs, hlen⟩
  constructor
  case batch =>
    rw [hbuffer]
    exact perm_filter_ne hbatch h.nodup
  case pushes => exact hm.pushes
  case pops =>
    intro c hc
    apply hm.pops
    rw [hpops]
    exact List.mem_cons_of_mem _ hc
  case deqs => exact hm.deqs
  case one_side => exact .inl hbuffer
  case bounded => exact ⟨h.bounded.1, h.bounded.2.1, hlen.le⟩
  case nodup => exact h.nodup.filter _

theorem Holds.pop_matched (h : Holds BUFFER_CAPACITY rs p b) (hroom : Room BUFFER_CAPACITY p)
    (r : VectorRequest V) {x : ℕ × V} {buffer : List (ℕ × V)} (hbuffer : p.buffer = x :: buffer) :
    Holds BUFFER_CAPACITY (rs ++ [r]) { p with buffer := buffer } (b.filter fun d => d ≠ x.1) ∧
      Room BUFFER_CAPACITY { p with buffer := buffer } := by
  have hm := h.mono r
  have hpops : p.pops = [] := by
    rcases h.one_side with hnil | hnil
    · rw [hbuffer] at hnil
      cases hnil
    · exact hnil
  have hbatch := h.batch
  have hlt := hroom.buffer
  rw [hbuffer] at hlt
  have hlen : buffer.length < BUFFER_CAPACITY := (Nat.lt_succ_self _).trans hlt
  rw [hbuffer, hpops] at hbatch
  refine ⟨?_, hlen, hroom.deqs, hroom.pops⟩
  constructor
  case batch =>
    rw [hpops]
    exact perm_filter_ne hbatch h.nodup
  case pushes =>
    intro y hy
    apply hm.pushes
    rw [hbuffer]
    exact List.mem_cons_of_mem _ hy
  case pops => exact hm.pops
  case deqs => exact hm.deqs
  case one_side => exact .inr hpops
  case bounded => exact ⟨hlen.le, h.bounded.2⟩
  case nodup => exact h.nodup.filter _

/-- **What a proxy holds** is kept by its functors and by `clear()`. -/
theorem contentRule_holds (V : Type) (BUFFER_CAPACITY : ℕ+) :
    ContentRule (proxy V BUFFER_CAPACITY) (Holds BUFFER_CAPACITY) (Room BUFFER_CAPACITY) := by
  constructor
  case clear =>
    intro rs y
    have hpos := BUFFER_CAPACITY.pos
    exact ⟨⟨List.Perm.refl _, nofun, nofun, nofun, .inl rfl,
      ⟨Nat.zero_le _, Nat.zero_le _, Nat.zero_le _⟩, List.nodup_nil⟩, hpos, hpos, hpos⟩
  case mono =>
    intro rs r p b _ h
    exact h.mono r
  case blocked =>
    intro rs r p b h hroom hs
    have hholds : Holds BUFFER_CAPACITY (rs ++ [r])
        ((proxy V BUFFER_CAPACITY).func rs.length r p).id (rs.length :: b) := by
      cases r with
      | push e =>
        cases hpops : p.pops with
        | nil => simpa [proxy, push, hpops] using h.push_blocked hroom e hpops
        | cons q pops => simp [proxy, push, hpops] at hs
      | pop =>
        cases hbuffer : p.buffer with
        | nil => simpa [proxy, pop, hbuffer] using h.pop_blocked hroom hbuffer
        | cons x buffer => simp [proxy, pop, hbuffer] at hs
      | dequeue => exact h.dequeue_blocked hroom
    exact ⟨hholds, fun hfull => hholds.room hfull⟩
  case matched =>
    intro rs r p b c h hroom hs hc
    cases r with
    | push e =>
      cases hpops : p.pops with
      | nil => simp [proxy, push, hpops] at hs
      | cons q pops =>
        obtain rfl : q = c := by simpa [proxy, push, hpops] using hc
        simpa [proxy, push, hpops] using h.push_matched hroom (.push e) hpops
    | pop =>
      cases hbuffer : p.buffer with
      | nil => simp [proxy, pop, hbuffer] at hs
      | cons x buffer =>
        obtain rfl : x.1 = c := by simpa [proxy, pop, hbuffer] using hc
        simpa [proxy, pop, hbuffer] using h.pop_matched hroom .pop hbuffer
    | dequeue => cases hs
  case satisfied =>
    intro rs r p b _ _ hs
    cases r with
    | push e => cases hpops : p.pops <;> simp [proxy, push, hpops] at hs
    | pop => cases hbuffer : p.buffer <;> simp [proxy, pop, hbuffer] at hs
    | dequeue => cases hs

/-! ### What happens to the values -/

/-- The events so far, and the calls that are satisfied. -/
structure Effects (rs : List (VectorRequest V)) (outs : List (VectorEvent V)) (sat : List ℕ) :
    Prop where
  asked : ∀ e ∈ outs, e.Asked rs
  settles : (outs.flatMap VectorEvent.settles).Perm sat
  unshared : (outs.flatMap VectorEvent.written).Perm (outs.flatMap VectorEvent.supplied)

theorem Effects.append {rs : List (VectorRequest V)} {outs outs' : List (VectorEvent V)}
    {sat sat' : List ℕ} (h : Effects rs outs sat) (h' : Effects rs outs' sat') :
    Effects rs (outs ++ outs') (sat ++ sat') := by
  constructor
  case asked =>
    intro e he
    rcases List.mem_append.mp he with he | he
    · exact h.asked e he
    · exact h'.asked e he
  case settles =>
    rw [List.flatMap_append]
    exact h.settles.append h'.settles
  case unshared =>
    rw [List.flatMap_append, List.flatMap_append]
    exact h.unshared.append h'.unshared

theorem Effects.nil (rs : List (VectorRequest V)) : Effects rs [] [] :=
  ⟨nofun, List.Perm.refl _, List.Perm.refl _⟩

theorem VectorEvent.Asked.snoc {rs : List (VectorRequest V)} {e : VectorEvent V} (h : e.Asked rs)
    (r : VectorRequest V) : e.Asked (rs ++ [r]) := by
  cases e with
  | stored c v => exact getElem?_snoc h r
  | handed c d v => exact ⟨getElem?_snoc h.1 r, getElem?_snoc h.2 r⟩
  | delivered vs => trivial
  | received c v =>
    rcases h with h | h
    · exact .inl (getElem?_snoc h r)
    · exact .inr (getElem?_snoc h r)

theorem Effects.mono {rs : List (VectorRequest V)} {outs : List (VectorEvent V)} {sat : List ℕ}
    (h : Effects rs outs sat) (r : VectorRequest V) : Effects (rs ++ [r]) outs sat :=
  ⟨fun e he => (h.asked e he).snoc r, h.settles, h.unshared⟩

theorem flatMap_map_eq_map {α β γ : Type} {f : α → β} {g : β → List γ} {h : α → γ}
    (hg : ∀ x, g (f x) = [h x]) (l : List α) : (l.map f).flatMap g = l.map h := by
  rw [List.flatMap_map, List.map_eq_flatMap]
  simp only [hg]

theorem effects_stored {rs : List (VectorRequest V)} {buffer : List (ℕ × V)}
    (h : ∀ x ∈ buffer, rs[x.1]? = some (.push x.2)) :
    Effects rs (buffer.map fun x => .stored x.1 x.2) (buffer.map Prod.fst) := by
  constructor
  case asked =>
    intro e he
    obtain ⟨x, hx, rfl⟩ := List.mem_map.mp he
    exact h x hx
  case settles =>
    apply List.Perm.of_eq
    exact flatMap_map_eq_map (g := VectorEvent.settles) (fun _ => rfl) buffer
  case unshared =>
    rw [List.flatMap_map, List.flatMap_map]
    exact List.Perm.refl _

theorem effects_fill {rs : List (VectorRequest V)} {slots : List ℕ} (buffer : ℕ → V)
    (h : ∀ c ∈ slots, rs[c]? = some .pop ∨ rs[c]? = some .dequeue) :
    Effects rs (fill slots buffer) slots := by
  constructor
  case asked =>
    intro e he
    rcases List.mem_cons.mp he with heq | he
    · rw [heq]
      trivial
    · obtain ⟨slot, hslot, rfl⟩ := List.mem_map.mp he
      have hmem : slot.1 ∈ slots.reverse := by
        have hfst := List.mem_map_of_mem (f := Prod.fst) hslot
        rwa [List.zipIdx_map_fst] at hfst
      exact h slot.1 (List.mem_reverse.mp hmem)
  case settles =>
    have hfst : (fill slots buffer).flatMap VectorEvent.settles = slots.reverse := by
      calc (fill slots buffer).flatMap VectorEvent.settles
          = slots.reverse.zipIdx.map Prod.fst :=
            flatMap_map_eq_map (g := VectorEvent.settles) (fun _ => rfl) slots.reverse.zipIdx
        _ = slots.reverse := List.zipIdx_map_fst ..
    rw [hfst]
    exact List.reverse_perm slots
  case unshared =>
    have hwritten : (fill slots buffer).flatMap VectorEvent.written =
        (slots.reverse.zipIdx.map Prod.snd).map buffer := by
      rw [List.map_map]
      exact flatMap_map_eq_map (g := VectorEvent.written) (fun _ => rfl) slots.reverse.zipIdx
    have hsupplied : (fill slots buffer).flatMap VectorEvent.supplied =
        (List.range slots.length).map buffer := by
      simp [fill, VectorEvent.supplied, List.flatMap_map]
    rw [hwritten, hsupplied, List.zipIdx_map_snd, List.length_reverse, List.range_eq_range']

theorem Holds.effects_sync (h : Holds BUFFER_CAPACITY rs p b) (d : Delivery V) :
    Effects rs (sync p d) b := by
  have hpops := fun c hc => Or.inl (b := rs[c]? = some .dequeue) (h.pops c hc)
  have hdeqs := fun c hc => Or.inr (a := rs[c]? = some .pop) (h.deqs c hc)
  -- the two sides of the proxy, one of which is empty
  have hfirst : Effects rs (if p.buffer ≠ [] then p.buffer.map fun x => .stored x.1 x.2
      else if p.pops ≠ [] then fill p.pops d.popped else []) (p.buffer.map Prod.fst ++ p.pops) := by
    by_cases hbuffer : p.buffer = []
    · rw [if_neg (not_not_intro hbuffer), hbuffer]
      by_cases hnil : p.pops = []
      · rw [if_neg (not_not_intro hnil), hnil]
        exact Effects.nil rs
      · rw [if_pos hnil]
        exact effects_fill d.popped hpops
    · have hnil : p.pops = [] := h.one_side.resolve_left hbuffer
      rw [if_pos hbuffer, hnil, List.append_nil]
      exact effects_stored h.pushes
  have hsecond : Effects rs (if p.deqs ≠ [] then fill p.deqs d.dequeued else []) p.deqs := by
    by_cases hnil : p.deqs = []
    · rw [if_neg (not_not_intro hnil), hnil]
      exact Effects.nil rs
    · rw [if_pos hnil]
      exact effects_fill d.dequeued hdeqs
  have hboth := hfirst.append hsecond
  exact ⟨hboth.asked, hboth.settles.trans (by rw [List.append_assoc]; exact h.batch), hboth.unshared⟩

theorem effects_handed {rs : List (VectorRequest V)} {c d : ℕ} {v : V}
    (hpush : rs[c]? = some (.push v)) (hpop : rs[d]? = some .pop) {sat : List ℕ}
    (hsat : sat.Perm [c, d]) : Effects rs [.handed c d v] sat where
  asked := by
    intro e he
    obtain rfl := List.mem_singleton.mp he
    exact ⟨hpush, hpop⟩
  settles := hsat.symm
  unshared := List.Perm.refl _

theorem effects_func (V : Type) (BUFFER_CAPACITY : ℕ+) {rs : List (VectorRequest V)}
    (r : VectorRequest V) {p : Proxy V} {b : List ℕ} (h : Holds BUFFER_CAPACITY rs p b) :
    Effects (rs ++ [r]) ((proxy V BUFFER_CAPACITY).func rs.length r p).outs
      (FlatCombiner.Answer.satisfies ((proxy V BUFFER_CAPACITY).func rs.length r p) rs.length) := by
  cases r with
  | push e =>
    cases hpops : p.pops with
    | nil =>
      have hfunc : (proxy V BUFFER_CAPACITY).func rs.length (.push e) p =
          ⟨.BLOCKED, { p with buffer := (rs.length, e) :: p.buffer }, [], none⟩ := by
        simp [proxy, push, hpops]
      rw [hfunc]
      exact Effects.nil _
    | cons q pops =>
      have hfunc : (proxy V BUFFER_CAPACITY).func rs.length (.push e) p =
          ⟨.MATCHED, { p with pops := pops }, [.handed rs.length q e], some q⟩ := by
        simp [proxy, push, hpops]
      have hq := h.pops q (by rw [hpops]; exact List.mem_cons_self)
      rw [hfunc]
      exact effects_handed (getElem?_new rs _) (getElem?_snoc hq _) (List.Perm.refl _)
  | pop =>
    cases hbuffer : p.buffer with
    | nil =>
      have hfunc : (proxy V BUFFER_CAPACITY).func rs.length .pop p =
          ⟨.BLOCKED, { p with pops := rs.length :: p.pops }, [], none⟩ := by
        simp [proxy, pop, hbuffer]
      rw [hfunc]
      exact Effects.nil _
    | cons x buffer =>
      have hfunc : (proxy V BUFFER_CAPACITY).func rs.length .pop p =
          ⟨.MATCHED, { p with buffer := buffer }, [.handed x.1 rs.length x.2], some x.1⟩ := by
        simp [proxy, pop, hbuffer]
      have hx := h.pushes x (by rw [hbuffer]; exact List.mem_cons_self)
      rw [hfunc]
      exact effects_handed (getElem?_snoc hx _) (getElem?_new rs _) (List.Perm.swap ..)
  | dequeue => exact Effects.nil _

theorem effectRule_effects (V : Type) (BUFFER_CAPACITY : ℕ+) :
    EffectRule (proxy V BUFFER_CAPACITY) (Holds BUFFER_CAPACITY) Effects where
  func := by
    intro rs outs sat r p b hq h _
    exact (effects_func V BUFFER_CAPACITY r h).append (hq.mono r)
  sync := by
    intro rs outs sat p b d hq h
    exact (h.effects_sync d).append hq

/-! ### Runs -/

theorem paired_of_inOrder (BUFFER_CAPACITY : ℕ+)
    {fc : FlatCombiner (Proxy V) (VectorRequest V) (VectorEvent V)}
    {lb : Label (VectorRequest V) (Delivery V)} (h : InOrder fc lb) :
    Paired (proxy V BUFFER_CAPACITY) fc lb := by
  cases lb with
  | combine t r =>
    intro hmatched
    cases r with
    | push e =>
      cases hpops : (fc.flushers fc.current).id.pops with
      | nil => simp [proxy, push, hpops] at hmatched
      | cons q pops =>
        obtain ⟨w, ws, hw, ht⟩ := h q (by rw [hpops]; rfl)
        exact ⟨w, ws, q, hw, ht, by simp [proxy, push, hpops]⟩
    | pop =>
      cases hbuffer : (fc.flushers fc.current).id.buffer with
      | nil => simp [proxy, pop, hbuffer] at hmatched
      | cons x buffer =>
        obtain ⟨w, ws, hw, ht⟩ := h x (by rw [hbuffer]; rfl)
        exact ⟨w, ws, x.1, hw, ht, by simp [proxy, pop, hbuffer]⟩
    | dequeue => cases hmatched
  | resume t => trivial
  | sync_done t d => trivial

/-- **Every caller is fulfilled**, in every run whose matched requests find their partner's task to be
    the last waiter. -/
theorem fulfils_every_caller (V : Type) (BUFFER_CAPACITY : ℕ+) (initial : Proxy V)
    (steps : List (Label (VectorRequest V) (Delivery V)))
    (fc : FlatCombiner (Proxy V) (VectorRequest V) (VectorEvent V))
    (hrun : (FlatCombiner.system (proxy V BUFFER_CAPACITY) initial).run
      (FlatCombiner.new (proxy V BUFFER_CAPACITY) initial) steps = some fc)
    (horder : (FlatCombiner.system (proxy V BUFFER_CAPACITY) initial).Always InOrder
      (FlatCombiner.new (proxy V BUFFER_CAPACITY) initial) steps) :
    Fulfilled BUFFER_CAPACITY fc := by
  have hrule := contentRule_holds V BUFFER_CAPACITY
  obtain ⟨h, hc, hq⟩ : fc.Inv ∧ fc.Content (Holds BUFFER_CAPACITY) (Room BUFFER_CAPACITY) ∧
      Effects fc.history.requests fc.history.outs fc.history.satisfied := by
    apply Transition.System.invariant_under
      (fun fc : FlatCombiner (Proxy V) (VectorRequest V) (VectorEvent V) => fc.Inv ∧
        fc.Content (Holds BUFFER_CAPACITY) (Room BUFFER_CAPACITY) ∧
        Effects fc.history.requests fc.history.outs fc.history.satisfied) _ _ horder hrun
    · intro fc lb fc' hfc hlb hstep
      obtain ⟨h, hc, hq⟩ := hfc
      have hp := paired_of_inOrder BUFFER_CAPACITY hlb
      exact ⟨h.next hp hstep, hc.next hrule h hp hstep,
        hc.effect (effectRule_effects V BUFFER_CAPACITY) h hq hstep⟩
    · exact ⟨FlatCombiner.inv_new initial, FlatCombiner.content_new hrule initial, Effects.nil []⟩
  constructor
  case settled =>
    intro c hreturned
    have hmem := hq.settles.mem_iff.mpr (h.ledger.returned c hreturned)
    exact List.mem_flatMap.mp hmem
  case asked => exact hq.asked
  case once => exact hq.settles.nodup_iff.mpr h.ledger.satisfied_nodup
  case unshared => exact hq.unshared
  case bounded =>
    intro s hs
    exact (hc.holds s hs).bounded

/-- A push is flushed; a pop waits behind it, and the next push is matched with it. -/
def matchedPop : List (Label (VectorRequest ℕ) (Delivery ℕ)) :=
  [.combine 0 (.push 7), .combine 1 .pop, .combine 2 (.push 8), .resume 1,
    .sync_done 0 ⟨fun _ => 0, fun _ => 0⟩]

theorem fulfils_every_caller_matchedPop :
    ∃ fc, (FlatCombiner.system (proxy ℕ 1024) ⟨[], [], []⟩).run
      (FlatCombiner.new (proxy ℕ 1024) ⟨[], [], []⟩) matchedPop = some fc ∧ Fulfilled 1024 fc := by
  have hrun : ((FlatCombiner.system (proxy ℕ 1024) ⟨[], [], []⟩).run
      (FlatCombiner.new (proxy ℕ 1024) ⟨[], [], []⟩) matchedPop).isSome := by decide
  obtain ⟨fc, hfc⟩ := Option.isSome_iff_exists.mp hrun
  exact ⟨fc, hfc, fulfils_every_caller ℕ 1024 ⟨[], [], []⟩ matchedPop fc hfc (by decide)⟩

/-- A push is flushed; a pop and a dequeue wait behind it.  The next push is matched with the pop, and
    the dequeuer is woken: it returns, and its slot was not written. -/
theorem dequeuer_returns_unserved :
    ∃ fc, (FlatCombiner.system (proxy ℕ 1024) ⟨[], [], []⟩).run
      (FlatCombiner.new (proxy ℕ 1024) ⟨[], [], []⟩)
      [.combine 0 (.push 7), .combine 1 .pop, .combine 2 .dequeue, .combine 3 (.push 8),
        .resume 2] = some fc ∧
      2 ∈ fc.history.returned ∧ fc.history.requests[2]? = some .dequeue ∧
      ¬ Fulfilled 1024 fc := by
  have hend : ((FlatCombiner.system (proxy ℕ 1024) ⟨[], [], []⟩).run
      (FlatCombiner.new (proxy ℕ 1024) ⟨[], [], []⟩)
      [.combine 0 (.push 7), .combine 1 .pop, .combine 2 .dequeue, .combine 3 (.push 8),
        .resume 2]).map
      (fun fc => (fc.history.returned, fc.history.requests[2]?, fc.history.outs)) =
        some ([2, 3], some .dequeue, [.handed 3 1 8]) := by
    decide +kernel
  obtain ⟨fc, hfc, hhistory⟩ := Option.map_eq_some_iff.mp hend
  obtain ⟨hreturned, hrest⟩ := Prod.mk.inj hhistory
  obtain ⟨hrequest, houts⟩ := Prod.mk.inj hrest
  have hmem : 2 ∈ fc.history.returned := by
    rw [hreturned]
    exact List.mem_cons_self
  refine ⟨fc, hfc, hmem, hrequest, ?_⟩
  intro h
  obtain ⟨e, he, hsettles⟩ := h.settled 2 hmem
  rw [houts] at he
  obtain rfl := List.mem_singleton.mp he
  exact absurd hsettles (by decide)

end VectorProxy

end Grappa
