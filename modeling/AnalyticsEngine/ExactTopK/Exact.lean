import AnalyticsEngine.ExactTopK.Schedule

/-!
# The lists are exact

`exactList` states what a row's published list is for: the first `k` of all other rows by score
descending and position ascending, then empty slots. `exactTopK_exact` says that every schedule
of every run, from the empty state or from any checkpointed one, hands over exactly these lists,
one call a block, as long as positions fit an `int32` below `_PAD_POSITION`; at `2^31` rows the
last row's position is the padding mark and no list can name it (`exactTopK_pad_collision`).
-/

namespace AnalyticsEngine.ExactTopK
open Library

variable {α : Type*} [LinearOrder α]

/-! ### The published order -/

def ranksBefore (score : ℕ → ℕ → α) (r a b : ℕ) : Bool :=
  decide (score r b < score r a ∨ (score r a = score r b ∧ a ≤ b))

/-- All other rows, by score descending, then position ascending. -/
def neighbours (n : ℕ) (score : ℕ → ℕ → α) (r : ℕ) : List ℕ :=
  ((List.range n).filter fun c => c ≠ r).mergeSort (ranksBefore score r)

/-- The list row `r` publishes: its first `k` neighbours, then empty slots. -/
def exactList (n k : ℕ) (score : ℕ → ℕ → α) (r : ℕ) : List (Entry α) :=
  ((neighbours n score r).take k).map (fun c => ⟨real (score r c), toInt32 c⟩) ++
    List.replicate (k - (neighbours n score r).length) emptyEntry

theorem neighbours_pairwise (n : ℕ) (score : ℕ → ℕ → α) (r : ℕ) :
    (neighbours n score r).Pairwise fun a b => ranksBefore score r a b := by
  refine List.pairwise_mergeSort ?_ ?_ _
  · intro a b c hab hbc
    simp only [ranksBefore, decide_eq_true_eq] at *
    rcases hab with hab | ⟨hab, hab'⟩ <;> rcases hbc with hbc | ⟨hbc, hbc'⟩
    · exact Or.inl (hbc.trans hab)
    · exact Or.inl (hbc ▸ hab)
    · exact Or.inl (hab ▸ hbc)
    · exact Or.inr ⟨hab.trans hbc, hab'.trans hbc'⟩
  · intro a b
    simp only [ranksBefore, Bool.or_eq_true, decide_eq_true_eq]
    rcases lt_trichotomy (score r a) (score r b) with h | h | h
    · exact Or.inr (Or.inl h)
    · rcases le_total a b with h' | h'
      · exact Or.inl (Or.inr ⟨h, h'⟩)
      · exact Or.inr (Or.inr ⟨h.symm, h'⟩)
    · exact Or.inl (Or.inl h)

theorem neighbours_perm (n : ℕ) (score : ℕ → ℕ → α) (r : ℕ) :
    (neighbours n score r).Perm ((List.range n).filter fun c => c ≠ r) :=
  List.mergeSort_perm _ _

theorem mem_neighbours {n : ℕ} {score : ℕ → ℕ → α} {r c : ℕ} :
    c ∈ neighbours n score r ↔ c < n ∧ c ≠ r := by
  rw [(neighbours_perm n score r).mem_iff, List.mem_filter, List.mem_range, decide_eq_true_eq]

theorem neighbours_nodup (n : ℕ) (score : ℕ → ℕ → α) (r : ℕ) : (neighbours n score r).Nodup :=
  (neighbours_perm n score r).nodup_iff.mpr (List.nodup_range.filter _)

theorem length_neighbours {n : ℕ} (score : ℕ → ℕ → α) {r : ℕ} (hr : r < n) :
    (neighbours n score r).length = n - 1 := by
  rw [(neighbours_perm n score r).length_eq]
  have hsplit := List.length_eq_length_filter_add (l := List.range n) fun c => decide (c ≠ r)
  have hfilter : ((List.range n).filter fun c => !decide (c ≠ r)) =
      (List.range n).filter (· == r) := by
    apply List.filter_congr
    intro c _
    by_cases h : c = r <;> simp [h]
  have hself : ((List.range n).filter fun c => !decide (c ≠ r)).length = 1 := by
    rw [hfilter, ← List.count_eq_length_filter,
      List.count_eq_one_of_mem List.nodup_range (List.mem_range.mpr hr)]
  rw [List.length_range, hself] at hsplit
  omega

theorem length_exactList (n k : ℕ) (score : ℕ → ℕ → α) (r : ℕ) :
    (exactList n k score r).length = k := by
  unfold exactList
  simp only [List.length_append, List.length_map, List.length_take, List.length_replicate]
  omega

namespace Config
variable {cfg : Config α}

theorem entry_le {r a b : ℕ} (ha : a < 2 ^ 32) (hb : b < 2 ^ 32) :
    ranksBefore cfg.score r a b = true → cfg.entry r a ≤ cfg.entry r b := by
  intro h
  simp only [ranksBefore, decide_eq_true_eq] at h
  rcases h with h | ⟨h, hle⟩
  · have hlt : real (cfg.score r b) < real (cfg.score r a) :=
      lt_of_not_ge fun hge => absurd (real_le_real.mp hge) (not_le_of_gt h)
    exact (lt_of_score_lt hlt).le
  · change rankKey (cfg.entry r a) ≤ rankKey (cfg.entry r b)
    rw [rankKey, rankKey, Prod.Lex.toLex_le_toLex]
    refine Or.inr ⟨?_, ?_⟩
    · simp only [entry, h]
    · simpa only [entry, toNat_toInt32 ha, toNat_toInt32 hb] using hle

theorem sort_entries (hv : cfg.Valid) (r : ℕ) :
    (cfg.entries r ((Finset.range cfg.n).filter fun c => c ≠ r)).sort =
      (neighbours cfg.n cfg.score r).map (cfg.entry r) := by
  have hn := hv.n_le
  have hlt : ∀ c ∈ neighbours cfg.n cfg.score r, c < 2 ^ 32 := fun c hc => by
    have := (mem_neighbours.mp hc).1
    omega
  have hnd : ((neighbours cfg.n cfg.score r).map (cfg.entry r)).Nodup :=
    List.Nodup.map_on (fun a ha b hb h => entry_injOn r (hlt a ha) (hlt b hb) h)
      (neighbours_nodup _ _ _)
  have hset : ((neighbours cfg.n cfg.score r).map (cfg.entry r)).toFinset =
      cfg.entries r ((Finset.range cfg.n).filter fun c => c ≠ r) := by
    ext e
    simp only [List.mem_toFinset, List.mem_map, entries, Finset.mem_image, Finset.mem_filter,
      Finset.mem_range, mem_neighbours]
  rw [← hset]
  refine (List.toFinset_sort (· ≤ ·) hnd).mpr ?_
  rw [List.pairwise_map]
  exact (neighbours_pairwise cfg.n cfg.score r).imp_of_mem fun ha hb h =>
    entry_le (hlt _ ha) (hlt _ hb) h

theorem card_entries (hv : cfg.Valid) (r : ℕ) :
    (cfg.entries r ((Finset.range cfg.n).filter fun c => c ≠ r)).card =
      (neighbours cfg.n cfg.score r).length := by
  have hcard := congrArg List.length (sort_entries hv r)
  rwa [Finset.length_sort, List.length_map] at hcard

/-- A row that has seen every other row publishes its exact list. -/
theorem sortedList_exact (hv : cfg.Valid) {r : ℕ} {state : TopKState α}
    (h : cfg.RowInv state r ((Finset.range cfg.n).filter fun c => c ≠ r)) :
    sortedList (state.lists r) = exactList cfg.n cfg.k cfg.score r := by
  set E := cfg.entries r ((Finset.range cfg.n).filter fun c => c ≠ r)
  have hE : ∀ e ∈ E, IsReal e := entries_isReal hv r (Finset.filter_subset _ _)
  have hlist : exactList cfg.n cfg.k cfg.score r =
      E.sort.take cfg.k ++ List.replicate (cfg.k - E.card) emptyEntry := by
    rw [sort_entries hv r, card_entries hv r, exactList, List.map_take]
    rfl
  have hperm : (state.lists r).Perm (exactList cfg.n cfg.k cfg.score r) := by
    rw [← Multiset.coe_eq_coe, h.1, hlist, rowList, ← sort_kBest, ← Multiset.coe_add,
      Finset.sort_eq, Multiset.coe_replicate]
  have hsorted : (exactList cfg.n cfg.k cfg.score r).Pairwise (· ≤ ·) := by
    rw [hlist]
    refine List.pairwise_append.mpr ⟨(E.pairwise_sort (· ≤ ·)).sublist (List.take_sublist _ _),
      ?_, ?_⟩
    · exact List.pairwise_replicate.mpr (Or.inr le_rfl)
    · intro a ha b hb
      obtain rfl := List.eq_of_mem_replicate hb
      exact (isReal_lt (hE a ((Finset.mem_sort (· ≤ ·)).mp (List.mem_of_mem_take ha))) rfl).le
  exact ((List.mergeSort_perm _ _).trans hperm).eq_of_pairwise' (pairwise_mergeSort_le _) hsorted

end Config

/-! ### Runs -/

/- The states a call may start from: empty at block 0, or what an earlier call on the same
vectors with the same `k` and `block_rows` handed to `after_block`. -/
inductive Start (cfg : Config α) : ℕ → TopKState α → Prop where
  | empty : Start cfg 0 (TopKState.empty cfg.k)
  | resumed {part : Partition (Entry α)} {schedule : ℕ → List Event} {start : ℕ}
      {state : TopKState α} {calls : List (BlockCall α)} {call : BlockCall α} :
      Start cfg start state → exactTopK part cfg schedule start state = .ok (some calls) →
      call ∈ calls → Start cfg call.nextBlock call.state

variable {cfg : Config α}

theorem blockCall_exact (hv : cfg.Valid) (part : Partition (Entry α)) {i : ℕ} {es : List Event}
    {state next : TopKState α} (h : cfg.Boundary i state)
    (hrun : runBlock part cfg i es state = some next) :
    (blockCall cfg i next).lists = (List.range (cfg.validRows i)).map (fun r =>
        exactList cfg.n cfg.k cfg.score (i * cfg.blockRows + r)) ∧
      cfg.Boundary (i + 1) next := by
  obtain ⟨hnext, hrows⟩ := Config.runBlock_inv hv part h hrun
  refine ⟨List.map_congr_left fun ρ hρ => ?_, hnext⟩
  obtain ⟨hn, hdiv⟩ := Config.local_global hv (List.mem_range.mp hρ)
  exact Config.sortedList_exact hv (hrows _ hn hdiv)

theorem runBlocks_exact (hv : cfg.Valid) (part : Partition (Entry α)) (schedule : ℕ → List Event)
    (m : ℕ) {start : ℕ} {state : TopKState α} {calls : List (BlockCall α)}
    (h : cfg.Boundary start state)
    (hrun : runBlocks part cfg schedule (List.range' start m) state = some calls) :
    (calls.map fun call => (call.rowStart, call.lists)) =
        (List.range' start m).map (fun i => (i * cfg.blockRows,
          (List.range (cfg.validRows i)).map fun r =>
            exactList cfg.n cfg.k cfg.score (i * cfg.blockRows + r))) ∧
      ∀ call ∈ calls, cfg.Boundary call.nextBlock call.state := by
  induction m generalizing start state calls with
  | zero =>
    simp only [List.range'_zero, runBlocks, Option.some.injEq] at hrun
    subst hrun
    simp
  | succ m ih =>
    rw [List.range'_succ, runBlocks, Option.bind_eq_some_iff] at hrun
    obtain ⟨next, hblock, hrest⟩ := hrun
    obtain ⟨rest, hrun', rfl⟩ := Option.map_eq_some_iff.mp hrest
    obtain ⟨hlists, hnext⟩ := blockCall_exact hv part h hblock
    obtain ⟨hcalls, hstates⟩ := ih hnext hrun'
    constructor
    · rw [List.map_cons, hcalls, List.range'_succ, List.map_cons]
      congr 1
      exact Prod.ext rfl hlists
    · intro call hcall
      rcases List.mem_cons.mp hcall with rfl | hcall
      · exact hnext
      · exact hstates call hcall

theorem exactTopK_ok (hv : cfg.Valid) (part : Partition (Entry α)) (schedule : ℕ → List Event)
    (start : ℕ) (state : TopKState α) :
    exactTopK part cfg schedule start state =
      .ok (runBlocks part cfg schedule (List.range' start (cfg.nBlocks - start)) state) := by
  rw [exactTopK, if_neg (by simpa using hv.segments)]

theorem start_boundary (hv : cfg.Valid) {start : ℕ} {state : TopKState α}
    (h : Start cfg start state) : cfg.Boundary start state := by
  induction h with
  | empty => exact Config.boundary_empty hv
  | resumed _ hrun hcall ih =>
    rw [exactTopK_ok hv, Except.ok.injEq] at hrun
    exact (runBlocks_exact hv _ _ _ ih hrun).2 _ hcall

/-- Every run of a catalog whose positions fit hands over the exact lists, block by block. -/
theorem exactTopK_exact (hv : cfg.Valid) {start : ℕ} {state : TopKState α}
    (hstart : Start cfg start state) (part : Partition (Entry α)) (schedule : ℕ → List Event)
    {calls : List (BlockCall α)}
    (hrun : exactTopK part cfg schedule start state = .ok (some calls)) :
    (calls.map fun call => (call.rowStart, call.lists)) =
        (List.range' start (cfg.nBlocks - start)).map (fun i => (i * cfg.blockRows,
          (List.range (cfg.validRows i)).map fun r =>
            exactList cfg.n cfg.k cfg.score (i * cfg.blockRows + r))) ∧
      ∀ r < cfg.n, ((neighbours cfg.n cfg.score r).take cfg.k).length = min cfg.k (cfg.n - 1) ∧
        r ∉ (neighbours cfg.n cfg.score r).take cfg.k ∧
        ((neighbours cfg.n cfg.score r).take cfg.k).Nodup ∧
        ∀ a ∈ (neighbours cfg.n cfg.score r).take cfg.k, ∀ b < cfg.n, b ≠ r →
          b ∉ (neighbours cfg.n cfg.score r).take cfg.k → cfg.score r a = cfg.score r b →
          a < b := by
  rw [exactTopK_ok hv, Except.ok.injEq] at hrun
  refine ⟨(runBlocks_exact hv part schedule _ (start_boundary hv hstart) hrun).1, ?_⟩
  intro r hr
  refine ⟨?_, ?_, ?_, ?_⟩
  · rw [List.length_take, length_neighbours cfg.score hr]
  · exact fun h => (mem_neighbours.mp (List.mem_of_mem_take h)).2 rfl
  · exact (neighbours_nodup _ _ _).sublist (List.take_sublist _ _)
  · intro a ha b hb hbr hnot htie
    have hpair := neighbours_pairwise cfg.n cfg.score r
    rw [← List.take_append_drop cfg.k (neighbours cfg.n cfg.score r)] at hpair
    have hbmem : b ∈ (neighbours cfg.n cfg.score r).drop cfg.k := by
      have hmem : b ∈ neighbours cfg.n cfg.score r := mem_neighbours.mpr ⟨hb, hbr⟩
      rw [← List.take_append_drop cfg.k (neighbours cfg.n cfg.score r)] at hmem
      exact (List.mem_append.mp hmem).resolve_left hnot
    have hrank := (List.pairwise_append.mp hpair).2.2 a ha b hbmem
    simp only [ranksBefore, decide_eq_true_eq] at hrank
    have hle : a ≤ b := by
      rcases hrank with h | h
      · exact absurd htie.symm (ne_of_lt h)
      · exact h.2
    exact lt_of_le_of_ne hle fun h => hnot (h ▸ ha)

/-! ### Schedules exist -/

theorem runEvents_append (part : Partition (Entry α)) (i : ℕ) (p : Pool α) (es fs : List Event) :
    runEvents part cfg i p (es ++ fs) =
      (runEvents part cfg i p es).bind fun q => runEvents part cfg i q fs := by
  induction es generalizing p with
  | nil => rfl
  | cons e es ih =>
    rw [List.cons_append, runEvents, runEvents, Option.bind_assoc]
    exact congrArg _ (funext fun q => ih q)

section
variable (cfg)

theorem exists_reads (part : Partition (Entry α)) {i j : ℕ} (hij : i ≤ j) (hj : j < cfg.nBlocks)
    (p : Pool α) (hside : (p.tasks j).side ≠ .done) (m : ℕ)
    (hm : m ≤ cfg.validRows ((p.tasks j).side.target i j)) :
    ∃ es q, runEvents part cfg i p es = some q ∧ (q.tasks j).side = (p.tasks j).side ∧
      (∀ r < m, ((q.tasks j).copied r).isSome) ∧ ∀ j', j' ≠ j → q.tasks j' = p.tasks j' := by
  induction m with
  | zero => exact ⟨[], p, rfl, rfl, by simp, fun _ _ => rfl⟩
  | succ m ih =>
    obtain ⟨es, q, hrun, hq, hread, hframe⟩ := ih (by omega)
    by_cases hcopied : ((q.tasks j).copied m).isSome
    · refine ⟨es, q, hrun, hq, ?_, hframe⟩
      intro r hr
      rcases Nat.lt_succ_iff_lt_or_eq.mp hr with h | rfl
      · exact hread r h
      · exact hcopied
    · have hnone : (q.tasks j).copied m = none := by simpa using hcopied
      have hguard : i ≤ j ∧ j < cfg.nBlocks ∧ (q.tasks j).side ≠ .done ∧
          m < cfg.validRows ((q.tasks j).side.target i j) ∧ (q.tasks j).copied m = none := by
        rw [hq]
        exact ⟨hij, hj, hside, by omega, hnone⟩
      obtain ⟨q', hstep, value, htasks⟩ : ∃ q', stepEvent part cfg i q (.read j m) = some q' ∧
          ∃ value, q'.tasks = Function.update q.tasks j
            ⟨(q.tasks j).side, Function.update (q.tasks j).copied m (some value)⟩ := by
        simp only [stepEvent]
        rw [if_pos hguard]
        exact ⟨_, rfl, _, rfl⟩
      refine ⟨es ++ [.read j m], q', ?_, ?_, ?_, ?_⟩
      · rw [runEvents_append, hrun, Option.bind_some, runEvents, hstep]
        rfl
      · rw [htasks, Function.update_self]
        exact hq
      · intro r hr
        rw [htasks, Function.update_self]
        rcases Nat.lt_succ_iff_lt_or_eq.mp hr with h | rfl
        · simp only [Function.update_of_ne (show r ≠ m by omega)]
          exact hread r h
        · simp only [Function.update_self, Option.isSome_some]
      · intro j' hj'
        rw [htasks, Function.update_of_ne hj']
        exact hframe j' hj'

theorem exists_update (part : Partition (Entry α)) {i j : ℕ} (hij : i ≤ j) (hj : j < cfg.nBlocks)
    (p : Pool α) (hside : (p.tasks j).side ≠ .done) :
    ∃ es q, runEvents part cfg i p es = some q ∧
      (q.tasks j).side = (p.tasks j).side.next i j ∧ ∀ j', j' ≠ j → q.tasks j' = p.tasks j' := by
  obtain ⟨es, q, hrun, hq, hread, hframe⟩ :=
    exists_reads cfg part hij hj p hside _ le_rfl
  have hguard : i ≤ j ∧ j < cfg.nBlocks ∧ (q.tasks j).side ≠ .done ∧
      ∀ r < cfg.validRows ((q.tasks j).side.target i j), ((q.tasks j).copied r).isSome := by
    rw [hq]
    exact ⟨hij, hj, hside, hread⟩
  obtain ⟨q', hstep, htasks⟩ : ∃ q', stepEvent part cfg i q (.merge j) = some q' ∧
      q'.tasks = Function.update q.tasks j (Task.start ((q.tasks j).side.next i j)) := by
    simp only [stepEvent]
    rw [if_pos hguard]
    exact ⟨_, rfl, rfl⟩
  refine ⟨es ++ [.merge j], q', ?_, ?_, ?_⟩
  · rw [runEvents_append, hrun, Option.bind_some, runEvents, hstep]
    rfl
  · rw [htasks, Function.update_self, hq]
    rfl
  · intro j' hj'
    rw [htasks, Function.update_of_ne hj']
    exact hframe j' hj'

theorem exists_finish (part : Partition (Entry α)) {i j : ℕ} (hij : i ≤ j) (hj : j < cfg.nBlocks)
    (p : Pool α) : ∃ es q, runEvents part cfg i p es = some q ∧ (q.tasks j).side = .done ∧
      ∀ j', j' ≠ j → q.tasks j' = p.tasks j' := by
  have hcolumns : ∀ p : Pool α, (p.tasks j).side = .columns → ∃ es q,
      runEvents part cfg i p es = some q ∧ (q.tasks j).side = .done ∧
        ∀ j', j' ≠ j → q.tasks j' = p.tasks j' := by
    intro p hp
    obtain ⟨es, q, hrun, hq, hframe⟩ := exists_update cfg part hij hj p (by rw [hp]; decide)
    exact ⟨es, q, hrun, by rw [hq, hp]; rfl, hframe⟩
  cases hp : (p.tasks j).side with
  | done => exact ⟨[], p, rfl, hp, fun _ _ => rfl⟩
  | columns => exact hcolumns p hp
  | rows =>
    obtain ⟨es, q, hrun, hq, hframe⟩ := exists_update cfg part hij hj p (by rw [hp]; decide)
    rw [hp, Side.next] at hq
    split_ifs at hq with hji
    · exact ⟨es, q, hrun, hq, hframe⟩
    · obtain ⟨fs, q', hrun', hq', hframe'⟩ := hcolumns q hq
      refine ⟨es ++ fs, q', ?_, hq', fun j' h => (hframe' j' h).trans (hframe j' h)⟩
      rw [runEvents_append, hrun]
      exact hrun'

/-- No order of events gets stuck: from any point the tasks of a row block can all finish. -/
theorem exists_completion (part : Partition (Entry α)) (i : ℕ) (p : Pool α) :
    ∃ es q, runEvents part cfg i p es = some q ∧ q.finished cfg i := by
  have hall : ∀ m, m ≤ cfg.nBlocks → ∃ es q, runEvents part cfg i p es = some q ∧
      ∀ j < m, i ≤ j → (q.tasks j).side = .done := by
    intro m
    induction m with
    | zero => exact fun _ => ⟨[], p, rfl, by simp⟩
    | succ m ih =>
      intro hm
      obtain ⟨es, q, hrun, hq⟩ := ih (by omega)
      by_cases him : i ≤ m
      · obtain ⟨fs, q', hrun', hq', hframe⟩ := exists_finish cfg part him (show m < cfg.nBlocks by omega) q
        refine ⟨es ++ fs, q', ?_, ?_⟩
        · rw [runEvents_append, hrun]
          exact hrun'
        · intro j hj hij
          rcases Nat.lt_succ_iff_lt_or_eq.mp hj with h | rfl
          · rw [hframe j (by omega)]
            exact hq j h hij
          · exact hq'
      · exact ⟨es, q, hrun, fun j hj hij => by omega⟩
  exact hall _ le_rfl

theorem exists_runBlocks (part : Partition (Entry α)) (m start : ℕ) (state : TopKState α) :
    ∃ schedule calls, runBlocks part cfg schedule (List.range' start m) state = some calls := by
  induction m generalizing start state with
  | zero => exact ⟨fun _ => [], [], rfl⟩
  | succ m ih =>
    obtain ⟨es, q, hrun, hfin⟩ :=
      exists_completion cfg part start ⟨state, fun _ => Task.start .rows⟩
    obtain ⟨schedule, calls, hrest⟩ := ih (start + 1) q.state
    have hblock : runBlock part cfg start es state = some q.state := by
      rw [runBlock, hrun, Option.bind_some, if_pos hfin]
    have hcongr : ∀ (l : List ℕ) (s : TopKState α), start ∉ l →
        runBlocks part cfg (Function.update schedule start es) l s =
          runBlocks part cfg schedule l s := by
      intro l
      induction l with
      | nil => exact fun _ _ => rfl
      | cons i l ihl =>
        intro s hnot
        rw [List.mem_cons, not_or] at hnot
        rw [runBlocks, runBlocks, Function.update_of_ne (Ne.symm hnot.1)]
        exact congrArg _ (funext fun next => by rw [ihl next hnot.2])
    have hstart : start ∉ List.range' (start + 1) m := by
      intro hmem
      have := (List.mem_range'_1.mp hmem).1
      omega
    refine ⟨Function.update schedule start es, blockCall cfg start q.state :: calls, ?_⟩
    rw [List.range'_succ, runBlocks, Function.update_self, hblock, Option.bind_some,
      hcongr _ _ hstart, hrest]
    rfl

end

def threeRows : Config ℕ where
  n := 3
  k := 2
  blockRows := 64
  score r c := r * c

def threeRowsSchedule : ℕ → List Event :=
  fun _ => [.read 0 0, .read 0 1, .read 0 2, .merge 0]

theorem threeRows_valid : threeRows.Valid where
  k_pos := by decide
  rows_pos := by decide
  segments := by decide
  n_le := by decide
  symm r c := Nat.mul_comm r c

theorem exactTopK_exact_threeRows : ∃ calls,
    exactTopK (sortPartition (Entry ℕ)) threeRows threeRowsSchedule 0 (TopKState.empty 2) =
      .ok (some calls) ∧
    (calls.map fun call => (call.rowStart, call.lists)) =
      [(0, [exactList 3 2 threeRows.score 0, exactList 3 2 threeRows.score 1,
        exactList 3 2 threeRows.score 2])] := by
  refine ⟨_, rfl, ?_⟩
  exact (exactTopK_exact threeRows_valid Start.empty (sortPartition (Entry ℕ))
    threeRowsSchedule rfl).1

/-! ### Positions beyond `int32` -/

def NoPad (state : TopKState α) : Prop := ∀ r, ∀ e ∈ state.lists r, e.position ≠ padPosition

theorem emptyPosition_ne_padPosition : emptyPosition ≠ padPosition := by decide

omit [LinearOrder α] in
theorem noPad_empty (k : ℕ) : NoPad (TopKState.empty k : TopKState α) := by
  intro r e he
  obtain rfl := List.eq_of_mem_replicate he
  exact emptyPosition_ne_padPosition

theorem noPad_applyCandidates (part : Partition (Entry α)) (k : ℕ) {state : TopKState α}
    (rowStart colStart : ℕ) (cands : List (Candidate α)) (h : NoPad state) :
    NoPad (applyCandidates part k state rowStart colStart cands) := by
  intro r e he
  simp only [applyCandidates] at he
  split at he
  · exact h r e he
  · simp only [merge] at he
    split at he
    · obtain ⟨e', _, rfl⟩ := List.mem_map.mp he
      rw [unpad]
      split
      · exact emptyPosition_ne_padPosition
      · assumption
    · exact h r e he

theorem noPad_stepEvent (part : Partition (Entry α)) (i : ℕ) (e : Event) {p q : Pool α}
    (h : NoPad p.state) (hstep : stepEvent part cfg i p e = some q) : NoPad q.state := by
  cases e with
  | read j r =>
    simp only [stepEvent] at hstep
    split_ifs at hstep
    rw [← Option.some.inj hstep]
    exact h
  | merge j =>
    simp only [stepEvent] at hstep
    split_ifs at hstep
    rw [← Option.some.inj hstep]
    exact noPad_applyCandidates part _ _ _ _ h

theorem best_heads {n : ℕ} {score : ℕ → ℕ → α} {r best : ℕ} (hbest : best < n) (hne : best ≠ r)
    (hmax : ∀ c, c ≠ best → score r c < score r best) :
    best ∈ (neighbours n score r).take 1 := by
  have hmem : best ∈ neighbours n score r := mem_neighbours.mpr ⟨hbest, hne⟩
  have hpair := neighbours_pairwise n score r
  cases hlist : neighbours n score r with
  | nil => simp [hlist] at hmem
  | cons head tail =>
    rw [hlist] at hmem hpair
    rcases List.mem_cons.mp hmem with rfl | htail
    · simp
    · have hrank := (List.pairwise_cons.mp hpair).1 best htail
      simp only [ranksBefore, decide_eq_true_eq] at hrank
      by_cases hh : head = best
      · simp [hh]
      · have := hmax head hh
        rcases hrank with h | h
        · exact absurd this (not_lt_of_gt h)
        · exact absurd h.1 (ne_of_lt this)

/- A catalog one row too long: row 0 is closest to the last row. -/
def longCatalog : Config ℕ where
  n := 2 ^ 31
  k := 1
  blockRows := 64
  score r c := if r + c = 2 ^ 31 - 1 ∧ (r = 0 ∨ c = 0) then 1 else 0

theorem longCatalog_score (c : ℕ) :
    longCatalog.score 0 c = if c = 2 ^ 31 - 1 then 1 else 0 := by
  have hiff : (0 + c = 2 ^ 31 - 1 ∧ (0 = 0 ∨ c = 0)) ↔ c = 2 ^ 31 - 1 := by omega
  exact if_congr hiff rfl rfl

theorem longCatalog_symm (r c : ℕ) : longCatalog.score r c = longCatalog.score c r := by
  simp only [longCatalog, Nat.add_comm r c, or_comm (a := r = 0)]

theorem longCatalog_best : 2 ^ 31 - 1 ∈ (neighbours longCatalog.n longCatalog.score 0).take 1 := by
  apply best_heads (by simp only [longCatalog]; omega) (by omega)
  intro c hc
  rw [longCatalog_score, longCatalog_score, if_neg hc, if_pos rfl]
  exact Nat.zero_lt_one

/-- Some run finishes, and no entry of the first list it hands over is at the last row. -/
theorem longCatalog_run : ∃ schedule call rest list,
    exactTopK (sortPartition (Entry ℕ)) longCatalog schedule 0 (TopKState.empty longCatalog.k) =
      .ok (some (call :: rest)) ∧
    call.rowStart = 0 ∧ call.lists[0]? = some list ∧ ∀ e ∈ list, e.position ≠ padPosition := by
  obtain ⟨schedule, calls, hrun⟩ := exists_runBlocks longCatalog
    (sortPartition (Entry ℕ)) longCatalog.nBlocks 0 (TopKState.empty longCatalog.k)
  have hok : exactTopK (sortPartition (Entry ℕ)) longCatalog schedule 0
      (TopKState.empty longCatalog.k) = .ok (some calls) := by
    rw [exactTopK, if_neg (by decide), Nat.sub_zero, hrun]
  obtain ⟨m, hm⟩ : ∃ m, longCatalog.nBlocks = m + 1 :=
    ⟨longCatalog.nBlocks - 1, by simp only [Config.nBlocks, longCatalog]; omega⟩
  rw [hm, List.range'_succ, runBlocks, Option.bind_eq_some_iff] at hrun
  obtain ⟨next, hblock, hrest⟩ := hrun
  obtain ⟨rest, _, rfl⟩ := Option.map_eq_some_iff.mp hrest
  obtain ⟨p, hevents, hlast⟩ := Option.bind_eq_some_iff.mp hblock
  split_ifs at hlast
  have hpad : NoPad next := by
    rw [← Option.some.inj hlast]
    exact Config.runEvents_induction (P := fun p => NoPad p.state)
      (fun _ e _ => noPad_stepEvent _ _ e) (noPad_empty _) hevents
  have hvalid : longCatalog.validRows 0 = 64 := by
    simp only [Config.validRows, longCatalog]
    omega
  refine ⟨schedule, blockCall longCatalog 0 next, rest, sortedList (next.lists 0), hok,
    Nat.zero_mul _, ?_, ?_⟩
  · unfold blockCall
    rw [hvalid, List.getElem?_map, List.getElem?_range (show 0 < 64 by decide), Option.map_some,
      Nat.zero_mul]
  · intro e he
    exact hpad 0 e (List.mem_mergeSort.mp he)

/-- At `2^31` rows some run hands row 0 a list without its closest row. -/
theorem exactTopK_pad_collision :
    (∀ r c, longCatalog.score r c = longCatalog.score c r) ∧ 1 ≤ longCatalog.k ∧
    0 < longCatalog.blockRows ∧ longCatalog.blockRows % segmentRows = 0 ∧
    ∃ schedule calls, exactTopK (sortPartition (Entry ℕ)) longCatalog schedule 0
        (TopKState.empty longCatalog.k) = .ok (some calls) ∧
      (calls.map fun call => (call.rowStart, call.lists)) ≠
        (List.range' 0 longCatalog.nBlocks).map (fun i => (i * longCatalog.blockRows,
          (List.range (longCatalog.validRows i)).map fun r =>
            exactList longCatalog.n longCatalog.k longCatalog.score
              (i * longCatalog.blockRows + r))) := by
  refine ⟨longCatalog_symm, by decide, by decide, by decide, ?_⟩
  obtain ⟨schedule, call, rest, list, hrun, _, hlist, hpad⟩ := longCatalog_run
  refine ⟨schedule, call :: rest, hrun, ?_⟩
  intro hexact
  obtain ⟨m, hm⟩ : ∃ m, longCatalog.nBlocks = m + 1 :=
    ⟨longCatalog.nBlocks - 1, by simp only [Config.nBlocks, longCatalog]; omega⟩
  rw [hm, List.range'_succ, List.map_cons, List.map_cons, List.cons.injEq] at hexact
  have hlists := congrArg (fun q => q.2[0]?) hexact.1
  have hvalid : longCatalog.validRows 0 = 64 := by
    simp only [Config.validRows, longCatalog]
    omega
  simp only [hlist, hvalid, List.getElem?_map, List.getElem?_range (show 0 < 64 by decide),
    Option.map_some, Option.some.injEq, Nat.zero_mul, Nat.add_zero] at hlists
  have hentry : (⟨real (longCatalog.score 0 (2 ^ 31 - 1)), padPosition⟩ : Entry ℕ) ∈ list := by
    rw [hlists]
    exact List.mem_append_left _ (List.mem_map.mpr ⟨2 ^ 31 - 1, longCatalog_best, rfl⟩)
  exact hpad _ hentry rfl

end AnalyticsEngine.ExactTopK
