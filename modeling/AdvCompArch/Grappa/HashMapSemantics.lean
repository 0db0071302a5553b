import AdvCompArch.Grappa.ExactlyOnce
import AdvCompArch.Grappa.GlobalHashMap

/-! # What the lookups of a global hash map return

    In a sequence of operations, with flat combining a lookup returns the value that was
    inserted last under its key.  Without, it returns what is left of that value after a
    conversion to the type of the keys and back. -/

namespace Grappa

namespace GlobalHashMap

open Function Transition Option List MapRun

open Assignment (assign lookup_assign_self lookup_assign_of_ne)
open FlatCombiner (MadeBy contentRule_madeBy)

variable {K V : Type} [DecidableEq K]

/-- The value that was inserted last under a key. -/
def lastInsert : List (MapRequest K V × Option (Bool × V)) → K → Option V
  | [], _ => none
  | (.insert k v, _) :: hist, key => if k = key then some v else lastInsert hist key
  | (.lookup _, _) :: hist, key => lastInsert hist key

/-- Each lookup returned true exactly if its key was inserted before, and then the value that was
    inserted last. -/
def MapSemantics : List (MapRequest K V × Option (Bool × V)) → Prop
  | [] => True
  | (.lookup key, result) :: hist =>
    (match lastInsert hist key with
      | some v => result = some (true, v)
      | none => ∃ v, result = some (false, v)) ∧ MapSemantics hist
  | (.insert _ _, _) :: hist => MapSemantics hist

/-- Two results of an operation are the same: a value counts if it was found. -/
def SameResult : Option (Bool × V) → Option (Bool × V) → Prop
  | none, none => True
  | some (true, v), some (true, v') => v = v'
  | some (false, _), some (false, _) => True
  | _, _ => False

/-- Two histories of the same operations have the same results. -/
def SameResults (hist hist' : List (MapRequest K V × Option (Bool × V))) : Prop :=
  List.Forall₂ (fun x x' => x.1 = x'.1 ∧ SameResult x.2 x'.2) hist hist'

/-- The values that are looked up come back from the type of the keys as they are. -/
def RoundTrips (cfg : Config K V) : List (MapRequest K V × Option (Bool × V)) → Prop
  | [] => True
  | (.lookup key, _) :: hist =>
    (∀ v, lastInsert hist key = some v → cfg.toV (cfg.toK v) = v) ∧ RoundTrips cfg hist
  | (.insert _ _, _) :: hist => RoundTrips cfg hist

/-- What a lookup returns, from the value in the cell. -/
def outcome (cfg : Config K V) : Option V → Bool × V
  | some v => (true, if cfg.flat_combining then v else cfg.toV (cfg.toK v))
  | none => (false, if cfg.flat_combining then cfg.fresh else cfg.toV (cfg.toK cfg.zero))

/-- Each lookup returned the outcome for the value that was inserted last. -/
def Returns (cfg : Config K V) : List (MapRequest K V × Option (Bool × V)) → Prop
  | [] => True
  | (.lookup key, result) :: hist =>
    result = some (outcome cfg (lastInsert hist key)) ∧ Returns cfg hist
  | (.insert _ _, result) :: hist => result = none ∧ Returns cfg hist

/-! ### An operation alone on its flat combiner -/

/-- The proxy of a batch with one request. -/
def single (call : ℕ) : MapRequest K V → Proxy K V
  | .insert key val => ⟨[(key, val)], []⟩
  | .lookup key => ⟨[], [(key, [call])]⟩

abbrev Resting (fc : FlatCombiner (Proxy K V) (MapRequest K V) (ℕ × Bool × V)) : Prop :=
  fc.Resting (MadeBy (proxy K V)) fun _ => True

abbrev InSync (fc : FlatCombiner (Proxy K V) (MapRequest K V) (ℕ × Bool × V)) (t : Worker)
    (f c : ℕ) (r : MapRequest K V) : Prop :=
  fc.InSync (MadeBy (proxy K V)) (fun _ => True) t f c (single c r)

theorem proxy_blocked (c : ℕ) (r : MapRequest K V) (p : Proxy K V) :
    ((proxy K V).func c r p).status = .BLOCKED := by
  cases r <;> rfl

theorem func_nil (c : ℕ) (r : MapRequest K V) :
    ((proxy K V).func c r ⟨[], []⟩).id = single c r := by
  cases r <;> rfl

variable {fc : FlatCombiner (Proxy K V) (MapRequest K V) (ℕ × Bool × V)}

/-- **A call** in a combiner in which nobody is starts a `sync()` of its request. -/
theorem call_alone (h : Resting fc) (t : Worker) (r : MapRequest K V) :
    ∃ fc', fc.next (proxy K V) (.combine t r) = some fc' ∧ ∃ f, InSync fc' t f fc.call r := by
  obtain ⟨x, fc', f, ⟨-, y, hx⟩, hnext, hsync⟩ :=
    h.combine (contentRule_madeBy proxy_blocked) t r fun x _ => proxy_blocked _ _ x
  have hnil : x = ⟨[], []⟩ := hx
  rw [hnil, func_nil] at hsync
  exact ⟨fc', hnext, f, hsync⟩

theorem sync_done_alone {t : Worker} {f c : ℕ} {r : MapRequest K V} (h : InSync fc t f c r)
    (answer : K → Bool × V) :
    ∃ fc', fc.next (proxy K V) (.sync_done t answer) = some fc' ∧ Resting fc' ∧
      ∀ key, r = .lookup key → List.lookup c fc'.history.outs = some (answer key) := by
  obtain ⟨fc', hnext, hresting, houts⟩ := h.sync_done (contentRule_madeBy proxy_blocked) answer
  refine ⟨fc', hnext, hresting, ?_⟩
  rintro key rfl
  rw [houts]
  simp [proxy, answers, single]

/-! ### The cells -/

/-- Each key has its value in its cell. -/
def CellsHold (cfg : Config K V) (cells : ℕ → Cell K V) (f : K → Option V) : Prop :=
  ∀ key, List.lookup key (cells (computeIndex cfg key)) = f key

variable {cfg : Config K V} {cells : ℕ → Cell K V}
  {hist : List (MapRequest K V × Option (Bool × V))}

/-- **An insert** in the cell of its key. -/
theorem CellsHold.insert (h : CellsHold cfg cells (lastInsert hist)) (key : K) (val : V)
    (x : Option (Bool × V)) :
    CellsHold cfg (Function.update cells (computeIndex cfg key)
        ((cells (computeIndex cfg key)).insert key val))
      (lastInsert ((.insert key val, x) :: hist)) := by
  intro k
  unfold lastInsert
  by_cases hk : key = k
  · subst hk
    rw [if_pos rfl, update_self]
    exact lookup_assign_self ..
  · rw [if_neg hk]
    by_cases hi : computeIndex cfg k = computeIndex cfg key
    · -- another key of the same cell
      rw [hi, update_self, ← h k, hi]
      exact lookup_assign_of_ne _ (Ne.symm hk) val
    · rw [update_of_ne hi]
      exact h k

/-! ### Sequences of operations -/

/-- The message of an operation. -/
def message (cfg : Config K V) : MapRequest K V → Message K V
  | .insert key val => .insert key val
  | .lookup key => if cfg.flat_combining then .find key else .lookup key

/-- What the completion of an operation brings. -/
def Answered (cfg : Config K V) (hist : List (MapRequest K V × Option (Bool × V)))
    (a : Option (K × Bool × V)) : MapRequest K V → Prop
  | .insert _ _ => a = none
  | .lookup key => a = some (key, outcome cfg (lastInsert hist key))

/-- How far the operation that was called has come, and what holds then. -/
inductive Stands (cfg : Config K V) (cells : ℕ → Cell K V)
    (hist : List (MapRequest K V × Option (Bool × V))) :
    Option (Running K V) → List (Message K V) → Prop where
  | idle (hcells : CellsHold cfg cells (lastInsert hist)) : Stands cfg cells hist none []
  | sent (o : Running K V) (hcount : o.count = 1) (hcells : CellsHold cfg cells (lastInsert hist)) :
      Stands cfg cells hist (some o) [message cfg o.request]
  | answered (o : Running K V) (hcount : o.count = 1)
      (hcells : CellsHold cfg cells (lastInsert ((o.request, none) :: hist)))
      (a : Option (K × Bool × V)) (ha : Answered cfg hist a o.request) :
      Stands cfg cells hist (some o) [.done a]
  | finished (o : Running K V) (hcount : o.count = 0)
      (hcells : CellsHold cfg cells (lastInsert ((o.request, none) :: hist)))
      (ha : ∀ key, o.request = .lookup key → o.answer key = outcome cfg (lastInsert hist key)) :
      Stands cfg cells hist (some o) []

/-- The combiner of a core, when this operation was called. -/
def ProxyOk (core : ℕ) (fc : FlatCombiner (Proxy K V) (MapRequest K V) (ℕ × Bool × V)) :
    Option (Running K V) → Prop
  | some o => (o.core = core → ∃ f c, InSync fc o.task f c o.request) ∧
    (o.core ≠ core → Resting fc)
  | none => Resting fc

structure Sequential (cfg : Config K V) (s : MapRun K V) : Prop where
  stands : Stands cfg s.cells s.history s.running s.messages
  returns : Returns cfg s.history
  proxies : cfg.flat_combining = true → ∀ core, ProxyOk core (s.proxies core) s.running

variable {s : MapRun K V}

omit [DecidableEq K] in
/-- The messages of a batch with one request, and how many completions are waited for. -/
theorem sync_messages_single (hflat : cfg.flat_combining = true) (c : ℕ) (r : MapRequest K V) :
    sync_messages (single c r) = [message cfg r] ∧
      (single c r).map.length + (single c r).lookups.length = 1 := by
  cases r <;> simp [sync_messages, single, message, hflat]

omit [DecidableEq K] in
theorem delegate_message_eq (hflat : cfg.flat_combining ≠ true) (r : MapRequest K V) :
    delegate_message r = message cfg r := by
  cases r <;> simp [delegate_message, message, hflat]

theorem Sequential.call (h : Sequential cfg s) (hrunning : s.running = none) {core : ℕ}
    {t : Worker} {r : MapRequest K V} {s' : MapRun K V} (hstep : s.call cfg core t r = some s') :
    Sequential cfg s' := by
  obtain ⟨hstands, hreturns, hproxies⟩ := h
  rw [hrunning] at hstands hproxies
  obtain ⟨hmessages, hcells⟩ :
      s.messages = [] ∧ CellsHold cfg s.cells (lastInsert s.history) := by
    generalize s.messages = messages at hstands
    cases hstands with
    | idle hcells => exact ⟨rfl, hcells⟩
  unfold MapRun.call at hstep
  by_cases hflat : cfg.flat_combining = true
  · rw [if_pos hflat] at hstep
    obtain ⟨fc, hnext, f, hsync⟩ := call_alone (show Resting _ from hproxies hflat core) t r
    obtain ⟨hsent, hcount⟩ := sync_messages_single hflat (s.proxies core).call r
    rw [hnext, bind_some, hsync.task] at hstep
    simp only [hsync.id, hsent, hcount, hmessages] at hstep
    cases hstep
    refine ⟨?_, hreturns, ?_⟩
    · exact Stands.sent ⟨core, t, r, 1, fun _ => (false, cfg.zero)⟩ rfl hcells
    · intro _ core'
      by_cases hcore : core = core'
      · subst hcore
        refine ⟨fun _ => ⟨f, (s.proxies core).call, ?_⟩, fun hne => absurd rfl hne⟩
        simp only [update_self]
        exact hsync
      · refine ⟨fun heq => absurd heq hcore, fun _ => ?_⟩
        simp only [update_of_ne (Ne.symm hcore)]
        exact hproxies hflat core'
  · rw [if_neg hflat, hmessages, delegate_message_eq hflat] at hstep
    cases hstep
    exact ⟨.sent ⟨core, t, r, 1, fun _ => (false, cfg.zero)⟩ rfl hcells, hreturns,
      fun heq => absurd heq hflat⟩

theorem outcome_eq (hcells : CellsHold cfg s.cells (lastInsert s.history)) (key : K) :
    (cfg.flat_combining = true →
        Cell.find cfg (s.cells (computeIndex cfg key)) key =
          outcome cfg (lastInsert s.history key)) ∧
      (cfg.flat_combining ≠ true →
        Cell.lookup cfg (s.cells (computeIndex cfg key)) key =
          outcome cfg (lastInsert s.history key)) := by
  rw [← hcells key]
  unfold Cell.find Cell.lookup outcome
  constructor
  · intro hflat
    cases lookup key (s.cells (computeIndex cfg key)) <;> simp [hflat]
  · intro hflat
    cases lookup key (s.cells (computeIndex cfg key)) <;> simp [hflat]

/-- **A message arrives**. -/
theorem Sequential.deliver (h : Sequential cfg s) {i : ℕ} {s' : MapRun K V}
    (hstep : s.next cfg (.deliver i) = some s') : Sequential cfg s' := by
  obtain ⟨hstands, hreturns, hproxies⟩ := h
  unfold MapRun.next at hstep
  simp only at hstep
  split at hstep
  · next m hm =>
    cases hstep
    -- there is one message
    have hone : ∀ m' : Message K V, s.messages = [m'] → m = m' ∧ s.messages.eraseIdx i = [] := by
      intro m' heq
      rw [heq] at hm ⊢
      cases i with
      | zero => exact ⟨(some.inj hm).symm, rfl⟩
      | succ i => cases hm
    generalize hrunning : s.running = running at hstands hproxies
    generalize hmessages : s.messages = messages at hstands
    cases hstands with
    | idle hcells =>
      rw [hmessages] at hm
      cases hm
    | finished o hcount hcells ha =>
      rw [hmessages] at hm
      cases hm
    | sent o hcount hcells =>
      obtain ⟨rfl, hrest⟩ := hone _ hmessages
      rw [hmessages] at hrest
      rw [hrest]
      cases hr : o.request with
      | insert key val =>
        have hcells' : CellsHold cfg (update s.cells (computeIndex cfg key)
            ((s.cells (computeIndex cfg key)).insert key val))
            (lastInsert ((o.request, none) :: s.history)) := by
          rw [hr]
          exact hcells.insert key val none
        exact ⟨.answered o hcount hcells' none (by rw [hr]; rfl), hreturns, hproxies⟩
      | lookup key =>
        obtain ⟨hfind, hlookup⟩ := outcome_eq hcells key
        have hhandle : handle cfg ⟨s.cells, s.proxies, some o, [], s.history⟩
            (message cfg (.lookup key)) = ⟨s.cells, s.proxies, some o,
              [.done (some (key, outcome cfg (lastInsert s.history key)))], s.history⟩ := by
          by_cases hflat : cfg.flat_combining = true
          · have hmessage : message cfg (.lookup key) = .find key := if_pos hflat
            rw [hmessage, ← hfind hflat]
            rfl
          · have hmessage : message cfg (.lookup key) = .lookup key := if_neg hflat
            rw [hmessage, ← hlookup hflat]
            rfl
        have hcells' : CellsHold cfg s.cells (lastInsert ((o.request, none) :: s.history)) := by
          rw [hr]
          exact hcells
        rw [hhandle]
        exact ⟨.answered o hcount hcells' _ (by rw [hr]; rfl), hreturns, hproxies⟩
    | answered o hcount hcells a ha =>
      obtain ⟨rfl, hrest⟩ := hone _ hmessages
      rw [hmessages] at hrest
      rw [hrest]
      refine ⟨?_, hreturns, hproxies⟩
      apply Stands.finished
      case hcount => simp only [hcount]
      case hcells => exact hcells
      case ha =>
        intro key hkey
        rw [show o.request = .lookup key from hkey] at ha
        obtain rfl : a = some (key, outcome cfg (lastInsert s.history key)) := ha
        exact update_self ..
  · cases hstep

/-- **An operation returns**. -/
theorem Sequential.ret (h : Sequential cfg s) {s' : MapRun K V}
    (hstep : s.next cfg .ret = some s') : Sequential cfg s' := by
  obtain ⟨hstands, hreturns, hproxies⟩ := h
  unfold MapRun.next at hstep
  simp only at hstep
  split at hstep
  · next o hrunning =>
    obtain ⟨hzero, hstep⟩ := ite_none_right_eq_some.mp hstep
    rw [hrunning] at hstands hproxies
    generalize hmessages : s.messages = messages at hstands
    cases hstands with
    | sent o hcount hcells => omega
    | answered o hcount hcells a ha => omega
    | finished o hcount hcells ha =>
      -- what the operation returns
      have hresult : ∀ found : K → Option (Bool × V),
          (∀ key, o.request = .lookup key → found key = some (o.answer key)) →
          Returns cfg ((o.request, result found o.request) :: s.history) := by
        intro found hfound
        cases hr : o.request with
        | insert key val => exact ⟨rfl, hreturns⟩
        | lookup key => exact ⟨(hfound key hr).trans (congrArg some (ha key hr)), hreturns⟩
      have hcells' : ∀ x, CellsHold cfg s.cells (lastInsert ((o.request, x) :: s.history)) := by
        intro x
        cases hr : o.request with
        | insert key val =>
          rw [hr] at hcells
          exact hcells
        | lookup key =>
          rw [hr] at hcells
          exact hcells
      unfold finish at hstep
      by_cases hflat : cfg.flat_combining = true
      · obtain ⟨f, c, hsync⟩ := (hproxies hflat o.core).1 rfl
        obtain ⟨fc, hnext, hresting, hvalue⟩ := sync_done_alone hsync o.answer
        rw [if_pos hflat] at hstep
        simp only [hsync.task, hnext, map_some] at hstep
        cases hstep
        refine ⟨?_, hresult _ hvalue, ?_⟩
        · rw [hmessages]
          exact .idle (hcells' _)
        · intro _ core
          show Resting (update s.proxies o.core fc core)
          by_cases hc : core = o.core
          · rw [hc, update_self]
            exact hresting
          · rw [update_of_ne hc]
            exact (hproxies hflat core).2 (Ne.symm hc)
      · rw [if_neg hflat] at hstep
        cases hstep
        refine ⟨?_, hresult _ fun _ _ => rfl, fun heq => absurd heq hflat⟩
        rw [hmessages]
        exact .idle (hcells' _)
  · cases hstep

theorem returns_of_run {steps : List (MapRun.Label K V)}
    (hrun : (system cfg).run init steps = some s) : Returns cfg s.history := by
  have hinit : Sequential cfg (init : MapRun K V) :=
    ⟨.idle fun _ => rfl, trivial, fun _ _ => ⟨FlatCombiner.inv_new _,
      FlatCombiner.content_new (contentRule_madeBy proxy_blocked) _, fun _ => rfl⟩⟩
  have h : Sequential cfg s := by
    apply System.invariant_under (P := fun _ _ => True) (Sequential cfg) _ hinit
      (System.always_true _ _) hrun
    intro s l s' h _ hstep
    cases l with
    | call core t r =>
      unfold system MapRun.next at hstep
      simp only at hstep
      split at hstep
      · next hrunning => exact h.call hrunning hstep
      · cases hstep
    | deliver i => exact h.deliver hstep
    | ret => exact h.ret hstep
  exact h.returns

/-! ### The two paths -/

theorem lastInsert_congr {hist hist' : List (MapRequest K V × Option (Bool × V))}
    (h : hist.map Prod.fst = hist'.map Prod.fst) (key : K) :
    lastInsert hist key = lastInsert hist' key := by
  induction hist generalizing hist' with
  | nil =>
    obtain rfl := map_eq_nil_iff.mp h.symm
    rfl
  | cons x hist ih =>
    cases hist' with
    | nil => cases h
    | cons x' hist' =>
      obtain ⟨r, result⟩ := x
      obtain ⟨r', result'⟩ := x'
      obtain ⟨heq, htail⟩ := cons.inj h
      obtain rfl : r = r' := heq
      cases r with
      | insert k v =>
        unfold lastInsert
        rw [ih htail]
      | lookup k =>
        have htl : lastInsert hist key = lastInsert hist' key := ih htail
        exact htl

theorem mapSemantics_of_flat (hflat : cfg.flat_combining = true)
    {hist : List (MapRequest K V × Option (Bool × V))} (h : Returns cfg hist) :
    MapSemantics hist := by
  induction hist with
  | nil => trivial
  | cons x hist ih =>
    obtain ⟨r, x⟩ := x
    cases r with
    | insert k v => exact ih h.2
    | lookup key =>
      obtain ⟨rfl, hreturns⟩ := h
      refine ⟨?_, ih hreturns⟩
      cases lastInsert hist key with
      | none => exact ⟨_, rfl⟩
      | some v => simp [outcome, hflat]

theorem mapSemantics_iff_roundTrips (hflat : cfg.flat_combining ≠ true)
    {hist : List (MapRequest K V × Option (Bool × V))} (h : Returns cfg hist) :
    MapSemantics hist ↔ RoundTrips cfg hist := by
  induction hist with
  | nil => exact Iff.rfl
  | cons x hist ih =>
    obtain ⟨r, x⟩ := x
    cases r with
    | insert k v => exact ih h.2
    | lookup key =>
      obtain ⟨rfl, hreturns⟩ := h
      unfold MapSemantics RoundTrips
      rw [ih hreturns]
      apply and_congr_left
      intro _
      cases lastInsert hist key with
      | none => simp [outcome]
      | some v => simp [outcome, hflat]

theorem sameResults_of_mapSemantics {cfg' : Config K V}
    {hist hist' : List (MapRequest K V × Option (Bool × V))}
    (hops : hist.map Prod.fst = hist'.map Prod.fst) (h : MapSemantics hist)
    (h' : MapSemantics hist') (hr : Returns cfg hist) (hr' : Returns cfg' hist') :
    SameResults hist hist' := by
  induction hist generalizing hist' with
  | nil =>
    obtain rfl := map_eq_nil_iff.mp hops.symm
    exact Forall₂.nil
  | cons x hist ih =>
    cases hist' with
    | nil => cases hops
    | cons x' hist' =>
      obtain ⟨r, x⟩ := x
      obtain ⟨r', x'⟩ := x'
      obtain ⟨heq, htail⟩ := cons.inj hops
      obtain rfl : r = r' := heq
      cases r with
      | insert k v =>
        obtain ⟨rfl, hreturns⟩ := hr
        obtain ⟨rfl, hreturns'⟩ := hr'
        exact Forall₂.cons ⟨rfl, trivial⟩ (ih htail h h' hreturns hreturns')
      | lookup key =>
        refine Forall₂.cons ⟨rfl, ?_⟩ (ih htail h.2 h'.2 hr.2 hr'.2)
        have hfound := h.1
        have hfound' := h'.1
        rw [← lastInsert_congr htail key] at hfound'
        cases hl : lastInsert hist key with
        | none =>
          rw [hl] at hfound hfound'
          obtain ⟨v, rfl⟩ := hfound
          obtain ⟨v', rfl⟩ := hfound'
          trivial
        | some v =>
          rw [hl] at hfound hfound'
          rw [show x = _ from hfound, show x' = _ from hfound']
          rfl

/-- **A global hash map** answers the same operations rightly, and alike, with flat combining and
    without, if and only if every value that is looked up comes back from the type of the keys. -/
theorem hash_map_semantics_iff (cfg : Config K V) (steps steps' : List (MapRun.Label K V))
    (s s' : MapRun K V)
    (hrun : (MapRun.system { cfg with flat_combining := false }).run MapRun.init steps = some s)
    (hrun' : (MapRun.system { cfg with flat_combining := true }).run MapRun.init steps' = some s')
    (hops : s.history.map Prod.fst = s'.history.map Prod.fst) :
    (MapSemantics s.history ∧ MapSemantics s'.history ∧ SameResults s.history s'.history) ↔
      RoundTrips cfg s.history := by
  have hr := returns_of_run hrun
  have hr' := returns_of_run hrun'
  have hsame : RoundTrips { cfg with flat_combining := false } s.history ↔
      RoundTrips cfg s.history := by
    generalize s.history = hist
    induction hist with
    | nil => exact Iff.rfl
    | cons x hist ih =>
      obtain ⟨r, x⟩ := x
      cases r with
      | insert k v => exact ih
      | lookup key => exact and_congr_right fun _ => ih
  have hiff := (mapSemantics_iff_roundTrips (by simp) hr).trans hsame
  have hflat := mapSemantics_of_flat rfl hr'
  constructor
  · exact fun h => hiff.mp h.1
  · intro hround
    have h := hiff.mpr hround
    exact ⟨h, hflat, sameResults_of_mapSemantics hops h hflat hr hr'⟩

/-- Keys of one byte, and values of eight. -/
def byteKeys : Config UInt8 UInt64 where
  capacity := 4
  hash := UInt8.toNat
  toK := UInt64.toUInt8
  toV := UInt8.toUInt64
  zero := 0
  fresh := 0
  flat_combining := false

/-- An insert under key 1 and its lookup from another core. -/
def insertThenLookup (v : UInt64) : List (MapRun.Label UInt8 UInt64) :=
  [.call 0 0 (.insert 1 v), .deliver 0, .deliver 0, .ret, .call 1 0 (.lookup 1), .deliver 0,
    .deliver 0, .ret]

theorem hash_map_semantics_iff_byteKeys :
    ∃ s s', (MapRun.system { byteKeys with flat_combining := false }).run MapRun.init
        (insertThenLookup 7) = some s ∧
      (MapRun.system { byteKeys with flat_combining := true }).run MapRun.init
        (insertThenLookup 7) = some s' ∧
      MapSemantics s.history ∧ MapSemantics s'.history ∧ SameResults s.history s'.history := by
  have hrun : ((system { byteKeys with flat_combining := false }).run init
      (insertThenLookup 7)).map history =
      some [(.lookup 1, some (true, 7)), (.insert 1 7, none)] := by decide +kernel
  have hrun' : ((system { byteKeys with flat_combining := true }).run init
      (insertThenLookup 7)).map history =
      some [(.lookup 1, some (true, 7)), (.insert 1 7, none)] := by decide +kernel
  obtain ⟨s, hs, hhistory⟩ := map_eq_some_iff.mp hrun
  obtain ⟨s', hs', hhistory'⟩ := map_eq_some_iff.mp hrun'
  have hiff := hash_map_semantics_iff byteKeys _ _ s s' hs hs' (by rw [hhistory, hhistory'])
  refine ⟨s, s', hs, hs', hiff.mpr ?_⟩
  rw [hhistory]
  refine ⟨?_, trivial⟩
  intro v hv
  obtain rfl : 7 = v := by simpa [lastInsert] using hv
  decide

/-- The value 256 does not fit in a key: the lookup finds it, and returns 0. -/
theorem lookup_truncates :
    ∃ s, (MapRun.system { byteKeys with flat_combining := false }).run MapRun.init
        (insertThenLookup 256) = some s ∧
      s.history = [(.lookup 1, some (true, 0)), (.insert 1 256, none)] ∧
      ¬ MapSemantics s.history := by
  have hrun : ((system { byteKeys with flat_combining := false }).run init
      (insertThenLookup 256)).map history =
      some [(.lookup 1, some (true, 0)), (.insert 1 256, none)] := by decide +kernel
  obtain ⟨s, hs, hhistory⟩ := map_eq_some_iff.mp hrun
  refine ⟨s, hs, hhistory, ?_⟩
  rw [hhistory]
  intro h
  have hfound : some (true, (0 : UInt64)) = some (true, 256) := h.1
  exact absurd hfound (by decide)

end GlobalHashMap

end Grappa
