import AdvCompArch.Lib.Subtasks
import AdvCompArch.Lib.SimplePaths
import Mathlib.Algebra.BigOperators.Fin
import Mathlib.Data.Set.Card

/-! # Isomorphic paths

    `find_iso_paths` counts the paths from a vertex that have the colours of a pattern.  All
    its recursive calls work on one stack with the rest of the pattern and on one list of the
    vertices of the path so far; each call takes back what it has done to them.
    `grappa_iso_paths` searches from all vertices at once.  It collects the results in a loop
    over an `int`, which does not get to the end of `2 ^ 31` vertices (`iso_paths_iff`). -/

namespace Grappa

namespace IsoPath

open SimplePaths List Phased

structure Graph where
  nv : ℕ
  local_adj : Fin nv → List (Fin nv)
  nodup : ∀ v, (local_adj v).Nodup

/-! ### The search -/

/-- What a call leaves: the number of paths, the stack, whose top is its head, and the list. -/
structure Search (g : Graph) where
  paths : ℕ
  pattern : List ℤ
  visited_nodes : List (Fin g.nv)
  deriving DecidableEq

variable (g : Graph) (vertex_data : Fin g.nv → ℤ)

/-- An iteration of the loop over the adjacencies of `node`, where `search` is the recursive call. -/
def iterate (search : Fin g.nv → List ℤ → List (Fin g.nv) → Option (Search g)) (node : Fin g.nv)
    (color : ℤ) (s : Search g) (next_node : Fin g.nv) : Option (Search g) :=
  -- add the current node to the list of visited nodes, and remove it afterwards
  let visited_nodes := s.visited_nodes ++ [node]
  if next_node ∈ visited_nodes then some ⟨s.paths, s.pattern, visited_nodes.dropLast⟩
  else (search next_node s.pattern.tail visited_nodes).map fun r =>
    ⟨s.paths + r.paths, color :: r.pattern, r.visited_nodes.dropLast⟩

/-- `find_iso_paths`; `none` if more calls are nested than `fuel`. -/
def find_iso_paths : (fuel : ℕ) → Fin g.nv → List ℤ → List (Fin g.nv) → Option (Search g)
  | 0, _, _, _ => none
  | _ + 1, _, [], visited_nodes => some ⟨0, [], visited_nodes⟩
  | fuel + 1, node, color :: rest, visited_nodes =>
    if color = vertex_data node then
      -- end of path
      if rest.length + 1 = 1 then some ⟨1, color :: rest, visited_nodes⟩
      else (g.local_adj node).foldlM (iterate g (find_iso_paths fuel) node color)
        ⟨0, color :: rest, visited_nodes⟩
    else some ⟨0, color :: rest, visited_nodes⟩

variable {g vertex_data} {pattern : List ℤ} {visited_nodes : List (Fin g.nv)} {node : Fin g.nv}
  {fuel : ℕ}

/-- **A search** finds the paths that leave out the visited vertices; the stack and the list are
    afterwards as they were. -/
theorem find_iso_paths_eq (hpattern : pattern ≠ []) (hfuel : pattern.length ≤ fuel) :
    find_iso_paths g vertex_data fuel node pattern visited_nodes =
      some ⟨(paths g.local_adj vertex_data pattern visited_nodes node).length, pattern,
        visited_nodes⟩ := by
  induction pattern generalizing visited_nodes node fuel with
  | nil => exact absurd rfl hpattern
  | cons color rest ih =>
    obtain ⟨fuel, rfl⟩ : ∃ n, fuel = n + 1 := Nat.exists_eq_succ_of_ne_zero (by
      rw [length_cons] at hfuel
      omega)
    rw [length_cons] at hfuel
    rw [find_iso_paths, paths]
    by_cases hcolor : color = vertex_data node
    · rw [if_pos hcolor, if_pos hcolor.symm]
      by_cases hrest : rest = []
      · rw [if_pos hrest, if_pos (by rw [hrest, length_nil]), length_singleton]
      · have hlength : rest.length ≠ 0 := fun h => hrest (length_eq_zero_iff.mp h)
        rw [if_neg hrest, if_neg (by omega)]
        -- the loop over the neighbours, from any number of paths found so far
        have hloop : ∀ (nodes : List (Fin g.nv)) (found : ℕ),
            nodes.foldlM (iterate g (find_iso_paths g vertex_data fuel) node color)
              ⟨found, color :: rest, visited_nodes⟩ =
            some ⟨found + ((nodes.filter (· ∉ visited_nodes ++ [node])).flatMap fun w =>
              (paths g.local_adj vertex_data rest (visited_nodes ++ [node]) w).map
                (node :: ·)).length, color :: rest, visited_nodes⟩ := by
          intro nodes
          induction nodes with
          | nil => intro found; rfl
          | cons next_node nodes ihnodes =>
            intro found
            rw [foldlM_cons, iterate]
            by_cases hvisited : next_node ∈ visited_nodes ++ [node]
            · have hskip : (next_node :: nodes).filter (fun w => w ∉ visited_nodes ++ [node]) =
                  nodes.filter (fun w => w ∉ visited_nodes ++ [node]) :=
                filter_cons_of_neg (by
                  simp only [decide_eq_true_eq, not_not]
                  exact hvisited)
              rw [if_pos hvisited, hskip]
              simp only [dropLast_concat, Option.bind_eq_bind, Option.bind_some, ihnodes]
            · have hkeep : (next_node :: nodes).filter (fun w => w ∉ visited_nodes ++ [node]) =
                  next_node :: nodes.filter (fun w => w ∉ visited_nodes ++ [node]) :=
                filter_cons_of_pos (decide_eq_true hvisited)
              rw [if_neg hvisited, hkeep]
              simp only [tail_cons, ih hrest (Nat.le_of_succ_le_succ hfuel), Option.map_some,
                Option.bind_eq_bind, Option.bind_some, dropLast_concat, ihnodes,
                flatMap_cons, length_append, length_map, add_assoc]
        rw [hloop, zero_add]
    · rw [if_neg hcolor, if_neg (Ne.symm hcolor), length_nil]

theorem encard_isPath : {p | IsPath g.local_adj vertex_data pattern node p}.encard =
    (paths g.local_adj vertex_data pattern [] node).length := by
  have hset : {p | IsPath g.local_adj vertex_data pattern node p} =
      (paths g.local_adj vertex_data pattern [] node).toFinset := by
    ext p
    rw [Set.mem_ofPred_eq, Finset.mem_coe, mem_toFinset, mem_paths]
    exact (and_iff_left fun x _ => not_mem_nil).symm
  rw [hset, Set.encard_coe_eq_coe_finsetCard, toFinset_card_of_nodup (nodup_paths g.nodup)]

/-! ### The program -/

inductive Phase
  | start
  | transform
  | search
  | returned
  deriving DecidableEq

structure State (g : Graph) where
  vertex_data : Fin g.nv → ℤ
  global_pattern : ℕ → ℤ
  results : Fin g.nv → ℤ
  returned : Option ℤ
  phase : Phase

inductive Item (g : Graph)
  /-- An iteration of `transform_vertices`. -/
  | parent (v : Fin g.nv)
  /-- The search from a vertex. -/
  | search (v : Fin g.nv)
  /-- The `delegate::write` of what it has found. -/
  | write (v : Fin g.nv) (num_paths : ℤ)
  deriving DecidableEq

/-- The colour of a vertex is its number's parity. -/
def set_color2 (vertex_data : Fin g.nv → ℤ) : Fin g.nv → ℤ :=
  (List.finRange g.nv).foldl (fun data n => Function.update data n ((n : ℕ) % 2 : ℤ)) vertex_data

/-- The pattern is written to global memory. -/
def write_pattern (vpattern : List ℤ) (memory : ℕ → ℤ) : ℕ → ℤ :=
  (List.range vpattern.length).foldl (fun m i => Function.update m i (vpattern.getD i 0)) memory

/-- The stack that a search makes of it, with the last colour at the bottom. -/
def read_pattern (psize : ℕ) (global_pattern : ℕ → ℤ) : List ℤ :=
  (List.range psize).reverse.foldl (fun pattern i => global_pattern i :: pattern) []

def Item.exec (psize : ℕ) (s : State g) : Item g → Option (State g × List (Item g))
  | .parent v => some ({ s with vertex_data := Function.update s.vertex_data v 1 }, [])
  | .search v =>
    (find_iso_paths g s.vertex_data psize v (read_pattern psize s.global_pattern) []).map fun r =>
      (s, [.write v r.paths])
  | .write v num_paths => some ({ s with results := Function.update s.results v num_paths }, [])

/-- `results+j`; `none` outside of the array. -/
def read (results : Fin g.nv → ℤ) (j : ℤ) : Option ℤ :=
  if h : 0 ≤ j ∧ j < g.nv then some (results ⟨j.toNat, by omega⟩) else none

/-- `for (int j = 0; j < g->nv; j++)`; `none` if it reads outside of the results, or does not end
    in `fuel` iterations. -/
def collect (results : Fin g.nv → ℤ) : (fuel : ℕ) → (j grappa_paths : ℤ) → Option ℤ
  | 0, _, _ => none
  | fuel + 1, j, grappa_paths =>
    if j < g.nv then
      (read results j).bind fun num_paths =>
        collect results fuel (Int.bmod (j + 1) (2 ^ 32)) (grappa_paths + num_paths)
    else some grappa_paths

def State.advance (vpattern : List ℤ) (s : State g) : Option (State g × List (Item g)) :=
  match s.phase with
  | .start => some ({ s with phase := .transform }, (List.finRange g.nv).map .parent)
  | .transform =>
    some ({ s with
      phase := .search
      vertex_data := set_color2 s.vertex_data
      global_pattern := write_pattern vpattern s.global_pattern },
      (List.finRange g.nv).map .search)
  -- collect the result path count
  | .search => (collect s.results (g.nv + 1) 0 0).map fun grappa_paths =>
    ({ s with phase := .returned, returned := some grappa_paths }, [])
  | .returned => none

variable (g) in
def grappa_iso_paths (vpattern : List ℤ) : Phased.Program (State g) (Item g) :=
  ⟨Item.exec vpattern.length, State.advance vpattern⟩

/-- What the memory holds before. -/
def init (vertex_data : Fin g.nv → ℤ) (global_pattern : ℕ → ℤ) (results : Fin g.nv → ℤ) : State g :=
  ⟨vertex_data, global_pattern, results, none, .start⟩

/-! ### What holds in every state -/

variable {s s' : State g} {vpattern : List ℤ} {x : Item g} {rest : Multiset (Item g)}
  {new : List (Item g)}

def parity (v : Fin g.nv) : ℤ := (v : ℕ) % 2

theorem set_color2_eq (vertex_data : Fin g.nv → ℤ) : set_color2 vertex_data = parity := by
  have hloop : ∀ (nodes : List (Fin g.nv)) (data : Fin g.nv → ℤ) (v : Fin g.nv),
      nodes.foldl (fun (data : Fin g.nv → ℤ) n => Function.update data n ((n : ℕ) % 2 : ℤ)) data v =
        if v ∈ nodes then parity v else data v := by
    intro nodes
    induction nodes with
    | nil => intros; rfl
    | cons n nodes ih =>
      intro data v
      rw [foldl_cons, ih]
      by_cases hv : v = n
      · subst hv
        simp [parity]
      · simp [hv]
  funext v
  rw [set_color2, hloop, if_pos (mem_finRange v)]

theorem read_write_pattern (memory : ℕ → ℤ) :
    read_pattern vpattern.length (write_pattern vpattern memory) = vpattern := by
  have hwrite : ∀ (is : List ℕ) (m : ℕ → ℤ) (j : ℕ),
      is.foldl (fun m i => Function.update m i (vpattern.getD i 0)) m j =
        if j ∈ is then vpattern.getD j 0 else m j := by
    intro is
    induction is with
    | nil => intros; rfl
    | cons i is ih =>
      intro m j
      rw [foldl_cons, ih]
      by_cases hj : j = i
      · subst hj
        simp
      · simp [hj]
  have hread : ∀ n, read_pattern n (write_pattern vpattern memory) =
      (range n).map (write_pattern vpattern memory) := by
    intro n
    rw [read_pattern, foldl_reverse]
    induction range n with
    | nil => rfl
    | cons i is ih => rw [foldr_cons, ih, map_cons]
  rw [hread]
  apply ext_getElem (by simp)
  intro i hi hi'
  rw [getElem_map, getElem_range, write_pattern, hwrite, if_pos (mem_range.mpr hi'),
    getD_eq_getElem?_getD, getElem?_eq_getElem hi', Option.getD_some]

theorem collect_from {results : Fin g.nv → ℤ} (hnv : g.nv < 2 ^ 31) (k : ℕ) (hk : k ≤ g.nv)
    (grappa_paths : ℤ) : collect results (k + 1) (g.nv - k : ℕ) grappa_paths =
      some (grappa_paths + (((List.finRange g.nv).drop (g.nv - k)).map results).sum) := by
  induction k generalizing grappa_paths with
  | zero => simp [collect, drop_eq_nil_of_le]
  | succ k ih =>
    have hj : g.nv - (k + 1) < g.nv := by omega
    have hnext : Int.bmod ((g.nv - (k + 1) : ℕ) + 1) (2 ^ 32) = (g.nv - k : ℕ) := by
      rw [Int.bmod_eq_of_le (by omega) (by omega)]
      omega
    have hread : read results (g.nv - (k + 1) : ℕ) = some (results ⟨g.nv - (k + 1), hj⟩) := by
      rw [read, dif_pos ⟨by omega, by omega⟩]
      rfl
    have hdrop : (List.finRange g.nv).drop (g.nv - (k + 1)) =
        ⟨g.nv - (k + 1), hj⟩ :: (List.finRange g.nv).drop (g.nv - k) := by
      rw [drop_eq_getElem_cons (by simpa using hj), getElem_finRange,
        show g.nv - (k + 1) + 1 = g.nv - k by omega]
      rfl
    rw [collect, if_pos (by omega), hread, Option.bind_some, hnext, ih (by omega), hdrop, map_cons,
      sum_cons, add_assoc]

/-- The loop collects the results of fewer than `2 ^ 31` vertices, -/
theorem collect_eq {results : Fin g.nv → ℤ} (hnv : g.nv < 2 ^ 31) :
    collect results (g.nv + 1) 0 0 = some ((List.finRange g.nv).map results).sum := by
  have h := @collect_from g results hnv g.nv le_rfl 0
  rwa [Nat.sub_self, drop_zero, zero_add] at h

theorem collect_eq_none {results : Fin g.nv → ℤ} (hnv : 2 ^ 31 ≤ g.nv) (fuel : ℕ) :
    ∀ j grappa_paths, j < 2 ^ 31 → collect results fuel j grappa_paths = none := by
  induction fuel with
  | zero => intros; rfl
  | succ fuel ih =>
    intro j grappa_paths hj
    rw [collect, if_pos (by omega)]
    have hnext := Int.bmod_lt (x := j + 1) (m := 2 ^ 32) (by decide)
    cases read results j with
    | none => rfl
    | some num_paths => exact ih _ _ (by omega)

variable (g) in
/-- The number of paths from a vertex. -/
def count (vpattern : List ℤ) (v : Fin g.nv) : ℕ := (paths g.local_adj parity vpattern [] v).length

/-- The searches: what the memory holds, and that of each vertex the result is there, or it is
    still to come. -/
structure Searching (vpattern : List ℤ) (s : State g) (pool : Multiset (Item g)) : Prop where
  colors : s.vertex_data = parity
  pattern : read_pattern vpattern.length s.global_pattern = vpattern
  items : ∀ x ∈ pool, ∃ v, x = .search v ∨ x = .write v (count g vpattern v)
  results : ∀ v, s.results v = count g vpattern v ∨ .search v ∈ pool ∨ .write v (count g vpattern v) ∈ pool

def Inv (vpattern : List ℤ) (s : State g) (pool : Multiset (Item g)) : Prop :=
  match s.phase with
  | .start => pool = 0
  | .transform => ∀ x ∈ pool, ∃ v, x = .parent v
  | .search => Searching vpattern s pool
  | .returned => pool = 0 ∧ s.returned = some (∑ v, (count g vpattern v : ℤ))

/-- **A search** of the program. -/
theorem Searching.exec_search {pool : Multiset (Item g)} (hpattern : vpattern ≠ [])
    (h : Searching vpattern s pool) (v : Fin g.nv) :
    Item.exec vpattern.length s (.search v) = some (s, [.write v (count g vpattern v)]) := by
  rw [Item.exec, h.colors, h.pattern, find_iso_paths_eq hpattern (le_refl _)]
  rfl

theorem exec_inv (hpattern : vpattern ≠ []) (h : Inv vpattern s (x ::ₘ rest))
    (hx : Item.exec vpattern.length s x = some (s', new)) : Inv vpattern s' (rest + new) := by
  unfold Inv at h
  split at h <;> rename_i hphase
  · exact absurd h (Multiset.cons_ne_zero)
  · obtain ⟨v, rfl⟩ := h x (Multiset.mem_cons_self _ _)
    cases hx
    simp only [Inv, hphase, Multiset.coe_nil, add_zero]
    exact fun y hy => h y (Multiset.mem_cons_of_mem hy)
  · have hrest : ∀ y ∈ rest, ∃ v, y = .search v ∨ y = .write v (count g vpattern v) :=
      fun y hy => h.items y (Multiset.mem_cons_of_mem hy)
    obtain ⟨v, rfl | rfl⟩ := h.items x (Multiset.mem_cons_self _ _)
    · rw [h.exec_search hpattern] at hx
      cases hx
      rw [Inv, hphase]
      refine ⟨h.colors, h.pattern, fun y hy => ?_, fun w => ?_⟩
      · rcases Multiset.mem_add.mp hy with hy | hy
        · exact hrest y hy
        · exact ⟨v, .inr (mem_singleton.mp (Multiset.mem_coe.mp hy))⟩
      · by_cases hw : w = v
        · subst hw
          simp
        · have hresult := h.results w
          simp only [Multiset.mem_cons, Item.search.injEq, hw, false_or, reduceCtorEq] at hresult
          simp only [Multiset.mem_add]
          tauto
    · cases hx
      simp only [Inv, hphase, Multiset.coe_nil, add_zero]
      refine ⟨h.colors, h.pattern, hrest, fun w => ?_⟩
      by_cases hw : w = v
      · subst hw
        simp
      · have hresult := h.results w
        simp only [Multiset.mem_cons, Item.write.injEq, hw, false_and, false_or,
          reduceCtorEq] at hresult
        simpa [hw] using hresult
  · exact absurd h.1 (Multiset.cons_ne_zero)

theorem advance_inv (hnv : g.nv < 2 ^ 31) (h : Inv vpattern s 0) (hx : s.advance vpattern = some (s', new)) :
    Inv vpattern s' new := by
  unfold Inv at h
  split at h <;> rename_i hphase <;> rw [State.advance, hphase] at hx
  · cases hx
    intro x hx
    obtain ⟨v, -, rfl⟩ := mem_map.mp (Multiset.mem_coe.mp hx)
    exact ⟨v, rfl⟩
  · cases hx
    refine ⟨set_color2_eq _, read_write_pattern _, fun x hx => ?_, fun v => ?_⟩
    · obtain ⟨v, -, rfl⟩ := mem_map.mp (Multiset.mem_coe.mp hx)
      exact ⟨v, .inl rfl⟩
    · exact .inr (.inl (Multiset.mem_coe.mpr (mem_map_of_mem (mem_finRange v))))
  · simp only [collect_eq hnv] at hx
    cases hx
    have hresults : ∀ v, s.results v = count g vpattern v := by
      intro v
      simpa using h.results v
    refine ⟨rfl, ?_⟩
    dsimp only
    rw [map_congr_left fun v _ => hresults v, ← ofFn_eq_map, sum_ofFn]
  · cases hx

/-- A search only writes its result. -/
def Item.rank : Item g → ℕ
  | .search _ => 1
  | _ => 0

theorem terminates (s₀ : State g) :
    ((grappa_iso_paths g vpattern).system s₀).Terminates ⟨s₀, []⟩ := by
  refine Program.terminates_of_rank (fun _ _ => True) Item.rank
    (fun s _ => match s.phase with | .start => 3 | .transform => 2 | .search => 1 | .returned => 0)
    trivial (fun s x rest s' new _ hx => ⟨trivial, .inr ?_⟩) fun s s' new _ hx => ⟨trivial, ?_⟩
  · cases x with
    | parent v | write v num_paths =>
      cases hx
      simp
    | search v =>
      obtain ⟨r, -, heq⟩ := Option.map_eq_some_iff.mp hx
      cases heq
      simp [Item.rank]
  · simp only [grappa_iso_paths, State.advance] at hx
    split at hx
    · cases hx
      simp
    · cases hx
      simp
    · obtain ⟨total, -, heq⟩ := Option.map_eq_some_iff.mp hx
      cases heq
      simp
    · cases hx

/-- Every item can go on, so a run that cannot be continued has returned. -/
theorem returns (hnv : g.nv < 2 ^ 31) (hpattern : vpattern ≠ []) {t : Phased.State (State g) (Item g)}
    (hinv : Inv vpattern t.shared t.pool)
    (hstuck : ∀ l, (grappa_iso_paths g vpattern).next t l = none) : t.shared.phase = .returned := by
  have hgo : ∀ x ∈ t.pool, (grappa_iso_paths g vpattern).exec t.shared x ≠ none := by
    intro x hx
    cases x with
    | parent v => exact Option.some_ne_none _
    | write v num_paths => exact Option.some_ne_none _
    | search v =>
      have hx := Multiset.mem_coe.mpr hx
      unfold Inv at hinv
      split at hinv
      · exact absurd hx (hinv ▸ Multiset.notMem_zero _)
      · obtain ⟨w, hw⟩ := hinv _ hx
        cases hw
      · have hgo := hinv.exec_search hpattern v
        exact fun hnone => Option.some_ne_none _ (hgo.symm.trans hnone)
      · exact absurd hx (hinv.1 ▸ Multiset.notMem_zero _)
  have hret := (Program.ended_of_stuck hgo hstuck).2
  simp only [grappa_iso_paths, State.advance, collect_eq hnv] at hret
  split at hret
  · cases hret
  · cases hret
  · cases hret
  · assumption

/-- A search terminates, leaves the stack and the list as they were, and returns the number of
    paths from its vertex. -/
def Finds (g : Graph) (pattern : List ℤ) : Prop :=
  ∀ (vertex_data : Fin g.nv → ℤ) node, ∃ n : ℕ,
    (∀ fuel, pattern.length ≤ fuel →
      find_iso_paths g vertex_data fuel node pattern [] = some ⟨n, pattern, []⟩) ∧
    {p | IsPath g.local_adj vertex_data pattern node p}.encard = n

/-- Every run of the program ends, having returned the sum of these numbers over all vertices,
    coloured by their parity. -/
def ReturnsSum (g : Graph) (pattern : List ℤ) : Prop :=
  ∀ vertex_data global_pattern results,
    let run := (grappa_iso_paths g pattern).system (init vertex_data global_pattern results)
    run.Terminates run.init ∧
      ∀ t, run.Reachable t → (∀ l, run.next t l = none) →
        ∃ n : Fin g.nv → ℕ, (∀ v, {p | IsPath g.local_adj parity pattern v p}.encard = n v) ∧
          t.shared.returned = some (∑ v, (n v : ℤ))

theorem returns_sum (hnv : g.nv < 2 ^ 31) (hpattern : vpattern ≠ []) : ReturnsSum g vpattern := by
  intro vertex_data global_pattern results run
  refine ⟨terminates _, fun t ht hstuck => ⟨count g vpattern, fun v => encard_isPath, ?_⟩⟩
  have hinit : Inv vpattern (init vertex_data global_pattern results) 0 := rfl
  have hinv : Inv vpattern t.shared t.pool := Program.Reachable.inv (Inv vpattern) hinit
    (fun _ _ _ _ _ h hx => exec_inv hpattern h hx) (fun _ _ _ h hx => advance_inv hnv h hx) ht
  have hret := returns hnv hpattern hinv hstuck
  rw [Inv, hret] at hinv
  exact hinv.2

/-- With `2 ^ 31` vertices or more the program does not return. -/
theorem not_returns_sum (hnv : 2 ^ 31 ≤ g.nv) : ¬ReturnsSum g vpattern := by
  intro h
  obtain ⟨hend, hsum⟩ := h (fun _ => 0) (fun _ => 0) (fun _ => 0)
  obtain ⟨ls, t, hrun, hstuck⟩ := hend.exists_end
  obtain ⟨n, -, hret⟩ := hsum t ⟨ls, hrun⟩ hstuck
  have hnone : t.shared.returned = none := by
    refine Program.Reachable.inv (fun s _ => s.returned = none) rfl ?_ ?_ ⟨ls, hrun⟩
    · intro s x rest s' new hs hx
      cases x with
      | parent v | write v num_paths =>
        cases hx
        exact hs
      | search v =>
        obtain ⟨r, -, heq⟩ := Option.map_eq_some_iff.mp hx
        cases heq
        exact hs
    · intro s s' new hs hx
      simp only [grappa_iso_paths, State.advance,
        @collect_eq_none g s.results hnv (g.nv + 1) 0 0 (by decide)] at hx
      split at hx <;> cases hx <;> exact hs
  rw [hnone] at hret
  cases hret

/-- **When the isomorphic path search is right**: the searches are, and the program returns the
    sum of what they find exactly if there are fewer than `2 ^ 31` vertices. -/
theorem iso_paths_iff (g : Graph) {pattern : List ℤ} (hk : 1 ≤ pattern.length) :
    Finds g pattern ∧ ReturnsSum g pattern ↔ g.nv < 2 ^ 31 := by
  have hpattern : pattern ≠ [] := ne_nil_of_length_pos hk
  constructor
  · intro h
    by_contra hnv
    exact not_returns_sum (Nat.le_of_not_lt hnv) h.2
  · intro hnv
    exact ⟨fun vertex_data node => ⟨_, fun fuel hfuel => find_iso_paths_eq hpattern hfuel,
      encard_isPath⟩, returns_sum hnv hpattern⟩

/-- A graph of `2 ^ 31` vertices without edges. -/
def isolated : Graph := ⟨2 ^ 31, fun _ => [], fun _ => nodup_nil⟩

theorem isolated_does_not_return : ¬(Finds isolated [0] ∧ ReturnsSum isolated [0]) :=
  fun h => not_returns_sum (g := isolated) le_rfl h.2

/-- A triangle. -/
def triangle : Graph where
  nv := 3
  local_adj := fun v => (List.finRange 3).filter (· ≠ v)
  nodup := fun _ => (List.nodup_finRange 3).filter _

/-- There are two paths with the colours 0, 1, 0 in a triangle. -/
theorem iso_paths_triangle :
    ∃ t, ((grappa_iso_paths triangle [0, 1, 0]).system (init (fun _ => 7) (fun _ => 7)
      fun _ => 7)).Reachable t ∧ t.shared.returned = some 2 := by
  obtain ⟨-, hprogram⟩ := (@iso_paths_iff triangle [0, 1, 0] (by decide)).mpr (by decide)
  obtain ⟨hend, hreturns⟩ := hprogram (fun _ => 7) (fun _ => 7) (fun _ => 7)
  obtain ⟨ls, t, hrun, hstuck⟩ := hend.exists_end
  obtain ⟨n, hn, hret⟩ := hreturns t ⟨ls, hrun⟩ hstuck
  have hcount : ∀ v, n v = count triangle [0, 1, 0] v := by
    intro v
    exact_mod_cast (hn v).symm.trans encard_isPath
  refine ⟨t, ⟨ls, hrun⟩, ?_⟩
  rw [hret]
  simp only [hcount]
  decide

end IsoPath

end Grappa
