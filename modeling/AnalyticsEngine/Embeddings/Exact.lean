import AnalyticsEngine.Embeddings.FastRP
import Mathlib.Algebra.Order.Field.Rat
import Mathlib.Data.List.MinMax
import Mathlib.Data.List.TakeWhile

/-!
# Blocks, passes and threads do not change a value

`embedding` is the direct definition: every power of the whole projection matrix, normalized and
summed in order. A block of `_fastrp` is a window of those matrices (`Holds`), kept by the
propagator and its slices; the sums of the first pass are the same folds cut at block
boundaries. So every path returns the direct value (`fastrp_exact`).
-/

namespace AnalyticsEngine.Embeddings
open Library

variable {F D O : Type*}

/-! ### The direct definition -/

section
variable (ar : Arithmetic F D O) (transition : Csr F) (config : FastRPConfig ar) (r : Block F)

/-- `P^k R`. -/
def propagated : ℕ → Block F
  | 0 => r
  | k + 1 => transition.matmul ar (propagated k)

def addSquare (x : Block F) (v : ℕ) (total : D) (c : ℕ) : D :=
  ar.add64 total (ar.mul64 (ar.widen (x v c)) (ar.widen (x v c)))

/- `w / |x[v]|`, the columns summed in order, and `w` for a zero row. -/
def rowScale (w : D) (x : Block F) (v : ℕ) : F :=
  let norm := ar.sqrt64 ((List.range config.dim).foldl (addSquare ar x v) ar.zero64)
  ar.narrow (ar.div64 w (if ar.isZero norm then ar.one64 else norm))

def normalized (w : D) (x : Block F) (v j : ℕ) : F := ar.mul (rowScale ar config w x v) (x v j)

def summands (v j : ℕ) : List F :=
  (if config.hasSelf then [normalized ar config config.selfWeight r v j] else []) ++
    config.activePowers.map fun k =>
      normalized ar config (config.weight k) (propagated ar transition r (k + 1)) v j

/-- The embedding of node `v` in column `j`. -/
def embedding (v j : ℕ) : F := (summands ar transition config r v j).foldl ar.add ar.zero

end

def rowOf (selected : Option (List ℕ)) (i : ℕ) : ℕ :=
  match selected with
  | none => i
  | some rows => rows.getD i 0

/-! ### Powers -/

theorem filter_range_le {p : ℕ → Bool} {m n : ℕ} (hmn : m ≤ n) (h : ∀ k, p k = true → k < m) :
    (List.range n).filter p = (List.range m).filter p := by
  obtain ⟨d, rfl⟩ := Nat.exists_eq_add_of_le hmn
  rw [List.range_add, List.filter_append]
  have hnil : ((List.range d).map (m + ·)).filter p = [] := by
    apply List.filter_eq_nil_iff.mpr
    intro k hk hpk
    obtain ⟨i, _, rfl⟩ := List.mem_map.mp hk
    have := h _ hpk
    omega
  rw [hnil, List.append_nil]

theorem active_lt_length {ar : Arithmetic F D O} {config : FastRPConfig ar} {k : ℕ}
    (hk : config.active k = true) : k < config.weights.length := by
  unfold FastRPConfig.active at hk
  by_contra hge
  rw [List.getElem?_eq_none (not_lt.mp hge)] at hk
  cases hk

theorem active_lt_powers {ar : Arithmetic F D O} {config : FastRPConfig ar} {k : ℕ}
    (hk : config.active k = true) : k < config.powers := by
  have hmem : k ∈ config.activePowers :=
    List.mem_filter.mpr ⟨List.mem_range.mpr (active_lt_length hk), hk⟩
  exact Nat.lt_succ_of_le (List.le_max_of_le' 0 hmem le_rfl)

theorem activePowers_eq {ar : Arithmetic F D O} (config : FastRPConfig ar) :
    (List.range config.powers).filter config.active = config.activePowers := by
  rcases Nat.le_total config.powers config.weights.length with hle | hle
  · exact (filter_range_le hle fun _ => active_lt_powers).symm
  · exact filter_range_le hle fun _ => active_lt_length

/-! ### One block -/

namespace Job

variable {ar : Arithmetic F D O}

/-- The slices cover the rows, and there is a row for every selected position. -/
structure Proper (job : Job ar) (r : Block F) : Prop where
  valid : job.transition.Valid
  projection : job.projection.Independent r
  slices : job.slices.flatMap sliceRows = List.range job.transition.rows
  slices_le : ∀ s ∈ job.slices, s.2 ≤ job.transition.rows
  selected : ∀ rows, job.selected = some rows → ∀ v ∈ rows, v < job.transition.rows
  blockColumns : 1 ≤ job.blockColumns

def Holds (job : Job ar) (s : ℕ × ℕ) (x current : Block F) : Prop :=
  ∀ v < job.transition.rows, ∀ j, s.1 + j < s.2 → current v j = x v (s.1 + j)

variable {job : Job ar} {r : Block F}

theorem project_holds (h : job.Proper r) (call : Call) (s : ℕ × ℕ) :
    job.Holds s r (job.project call s.1 s.2) := by
  intro v hv j hj
  unfold project
  cases job.executor with
  | none =>
    have hentry := h.projection s.1 s.2 0 job.transition.rows v j (by omega) hj
    rw [Nat.zero_add] at hentry
    exact hentry
  | some executor =>
    obtain ⟨junk, order, horder, hrun⟩ := executor.spec call
      (sliceWrites (stepSlices job.transition.rows taskRows)
        fun t i => job.projection.columns s.1 s.2 t.1 t.2 (i - t.1))
    simp only
    rw [hrun]
    refine fill_read (fun v (row : ℕ → F) => row j = r v (s.1 + j))
      (stepSlices_rows _ (by decide)) ?_ horder junk hv
    intro t _ i hi
    obtain ⟨hlo, hhi⟩ := mem_sliceRows.mp hi
    have hentry := h.projection s.1 s.2 t.1 t.2 (i - t.1) j (by omega) hj
    rw [Nat.add_sub_cancel' hlo] at hentry
    exact hentry

/-- The propagator computes every row of the product, threaded or not. -/
theorem propagate_row (h : job.Proper r) (call : Call) (block : Block F) {v : ℕ}
    (hv : v < job.transition.rows) :
    job.propagate call block v = job.transition.matmul ar block v := by
  unfold propagate
  cases job.executor with
  | none => rfl
  | some executor =>
    obtain ⟨junk, order, horder, hrun⟩ := executor.spec call (sliceWrites job.slices fun s i =>
      (job.transition.slice s.1 s.2).matmul ar block (i - s.1))
    simp only
    rw [hrun]
    refine fill_read (fun v row => row = job.transition.matmul ar block v) h.slices ?_ horder
      junk hv
    intro s hs i hi
    obtain ⟨hlo, hhi⟩ := mem_sliceRows.mp hi
    rw [Csr.matmul_slice ar h.valid (h.slices_le s hs) (by omega), Nat.add_sub_cancel' hlo]

theorem propagate_holds (h : job.Proper r) (call : Call) {s : ℕ × ℕ} {x current : Block F}
    (hcurrent : job.Holds s x current) :
    job.Holds s (job.transition.matmul ar x) (job.propagate call current) := by
  intro v hv j hj
  rw [propagate_row h call current hv]
  unfold Csr.matmul
  apply List.foldl_ext
  intro sum e he
  rw [hcurrent e.1 (Csr.entry_lt h.valid he) j hj]

/-- What the loop over the powers keeps: after `k` steps `good k` holds of the accumulator. -/
theorem powerLoop_good (h : job.Proper r) {σ : Type*} (good : ℕ → σ → Prop) {pass : ℕ}
    {s : ℕ × ℕ} {visit : ℕ → Block F → σ → σ} {current : Block F} {acc : σ}
    (hcurrent : job.Holds s r current) (hacc : good 0 acc)
    (hvisit : ∀ k acc current, job.Holds s (propagated ar job.transition r (k + 1)) current →
      good k acc → good (k + 1) (visit k current acc)) :
    good job.config.powers (job.powerLoop pass s.1 visit current acc) := by
  unfold powerLoop
  generalize job.config.powers = m
  have hloop : ∀ state : Block F × σ, state = (List.range m).foldl (fun state k =>
      let current := job.propagate ⟨pass, s.1, k + 1⟩ state.1
      (current, visit k current state.2)) (current, acc) →
      job.Holds s (propagated ar job.transition r m) state.1 ∧ good m state.2 := by
    induction m with
    | zero =>
      intro state heq
      subst heq
      exact ⟨hcurrent, hacc⟩
    | succ m ih =>
      intro state heq
      subst heq
      rw [List.range_succ, List.foldl_append]
      obtain ⟨hbefore, hgood⟩ := ih _ rfl
      have hafter := propagate_holds h ⟨pass, s.1, m + 1⟩ hbefore
      exact ⟨hafter, hvisit m _ _ hafter hgood⟩
  exact (hloop _ rfl).2

/-! ### The squared norms -/

theorem accumulateSquares_row {s : ℕ × ℕ} {x current : Block F} (hcurrent : job.Holds s x current)
    {v : ℕ} (hv : v < job.transition.rows) (total : ℕ → D) :
    accumulateSquares ar current (s.2 - s.1) total v =
      (sliceRows s).foldl (addSquare ar x v) (total v) := by
  have hrow : ∀ (columns : List ℕ) (total : ℕ → D), columns.foldl (fun total j => fun i =>
      ar.add64 (total i) (ar.mul64 (ar.widen (current i j)) (ar.widen (current i j)))) total v =
        columns.foldl (addSquare ar current v) (total v) := by
    intro columns
    induction columns with
    | nil => exact fun _ => rfl
    | cons j columns ih => exact fun total => ih _
  unfold accumulateSquares sliceRows
  rw [hrow, List.range'_eq_map_range, List.foldl_map]
  apply List.foldl_ext
  intro total j hj
  have hj' := List.mem_range.mp hj
  unfold addSquare
  rw [hcurrent v hv j (by omega)]

structure Summed (job : Job ar) (r : Block F) (columns : List ℕ) (sums : Sums D) : Prop where
  self : job.config.hasSelf = true → ∀ v < job.transition.rows,
    sums.self v = columns.foldl (addSquare ar r v) ar.zero64
  powers : ∀ k, job.config.active k = true → ∀ v < job.transition.rows, sums.powers k v =
    columns.foldl (addSquare ar (propagated ar job.transition r (k + 1)) v) ar.zero64

theorem sumBlock_summed (h : job.Proper r) {columns : List ℕ} {sums : Sums D}
    (hsums : job.Summed r columns sums) (s : ℕ × ℕ) :
    job.Summed r (columns ++ sliceRows s) (job.sumBlock sums s) := by
  have hproject := project_holds h ⟨1, s.1, 0⟩ s
  -- after `k` steps the self sum and the sums of the powers below `k` have the new columns
  let good := fun (k : ℕ) (acc : Sums D) =>
    (job.config.hasSelf = true → ∀ v < job.transition.rows,
      acc.self v = (columns ++ sliceRows s).foldl (addSquare ar r v) ar.zero64) ∧
    ∀ m, job.config.active m = true → ∀ v < job.transition.rows, acc.powers m v =
      (if m < k then columns ++ sliceRows s else columns).foldl
        (addSquare ar (propagated ar job.transition r (m + 1)) v) ar.zero64
  have hloop : good job.config.powers (job.sumBlock sums s) := by
    unfold sumBlock
    apply powerLoop_good h good hproject
    · constructor
      · intro hself v hv
        rw [if_pos hself, List.foldl_append, ← hsums.self hself v hv]
        exact accumulateSquares_row hproject hv _
      · intro m hm v hv
        rw [if_neg (Nat.not_lt_zero m), ← hsums.powers m hm v hv]
        split_ifs <;> rfl
    · intro k acc current hcurrent hgood
      simp only
      split_ifs with hk
      · refine ⟨hgood.1, ?_⟩
        intro m hm v hv
        by_cases hmk : m = k
        · subst hmk
          have hbefore := hgood.2 m hm v hv
          rw [if_neg (lt_irrefl m)] at hbefore
          simp only [Function.update_self]
          rw [accumulateSquares_row hcurrent hv, hbefore, if_pos (Nat.lt_succ_self m),
            List.foldl_append]
        · simp only [Function.update_of_ne hmk]
          rw [hgood.2 m hm v hv]
          simp only [Nat.lt_succ_iff_lt_or_eq, hmk, or_false]
      · refine ⟨hgood.1, ?_⟩
        intro m hm v hv
        have hmk : m ≠ k := fun heq => hk (heq ▸ hm)
        rw [hgood.2 m hm v hv]
        simp only [Nat.lt_succ_iff_lt_or_eq, hmk, or_false]
  refine ⟨hloop.1, ?_⟩
  intro k hk v hv
  rw [hloop.2 k hk v hv, if_pos (active_lt_powers hk)]

/-- The first pass sums every column in order. -/
theorem sums_summed (h : job.Proper r) :
    job.Summed r (List.range job.config.dim) job.sums := by
  -- by induction on the blocks, whatever columns came before them
  have hfold : ∀ (slices : List (ℕ × ℕ)) (columns : List ℕ) (sums : Sums D),
      job.Summed r columns sums →
        job.Summed r (columns ++ slices.flatMap sliceRows) (slices.foldl job.sumBlock sums) := by
    intro slices
    induction slices with
    | nil =>
      intro columns sums hsums
      rw [List.flatMap_nil, List.append_nil]
      exact hsums
    | cons s slices ih =>
      intro columns sums hsums
      rw [List.flatMap_cons, ← List.append_assoc]
      exact ih _ _ (sumBlock_summed h hsums s)
  have hnone : job.Summed r [] (noSums ar) :=
    ⟨fun _ _ _ => rfl, fun _ _ _ _ => rfl⟩
  have hall := hfold job.blocks [] _ hnone
  rw [List.nil_append] at hall
  unfold blocks at hall
  rw [stepSlices_rows _ h.blockColumns] at hall
  exact hall

/-! ### The second pass -/

theorem rowOf_lt (h : job.Proper r) {i : ℕ} (hi : i < outRows job.selected job.transition.rows) :
    rowOf job.selected i < job.transition.rows := by
  unfold outRows at hi
  unfold rowOf
  cases hselected : job.selected with
  | none =>
    rw [hselected] at hi
    exact hi
  | some rows =>
    rw [hselected] at hi
    simp only at hi ⊢
    rw [List.getD_eq_getElem?_getD, List.getElem?_eq_getElem hi]
    exact h.selected rows hselected _ (List.getElem_mem hi)

/- Whole rows and picked rows are scaled alike, the product of `float32` being commutative. -/
theorem addScaled_entry (selected : Option (List ℕ)) (scale : ℕ → F) (current block : Block F)
    (i j : ℕ) : addScaled ar selected scale current block i j =
      ar.add (block i j) (ar.mul (scale i) (current (rowOf selected i) j)) := by
  cases selected with
  | none => rfl
  | some rows =>
    unfold addScaled rowOf
    simp only
    rw [ar.mul_comm]

theorem scale_entry {w : D} {sum : ℕ → D} {selected : Option (List ℕ)} {x : Block F} {i : ℕ}
    (hsum : sum (rowOf selected i) =
      (List.range job.config.dim).foldl (addSquare ar x (rowOf selected i)) ar.zero64) :
    scale ar w sum selected i = rowScale ar job.config w x (rowOf selected i) := by
  unfold scale rowScale
  rw [← hsum]
  cases selected <;> rfl

theorem scaleOf_entry (h : job.Proper r) {s : ℕ × ℕ} (hs : s ∈ job.blocks) {w : D} {sum : ℕ → D}
    {x current : Block F} (hcurrent : job.Holds s x current)
    (hsum : job.blocks.length ≠ 1 → ∀ v < job.transition.rows,
      sum v = (List.range job.config.dim).foldl (addSquare ar x v) ar.zero64) {i : ℕ}
    (hi : i < outRows job.selected job.transition.rows) :
    job.scaleOf w sum current (s.2 - s.1) i = rowScale ar job.config w x (rowOf job.selected i) := by
  have hrow := rowOf_lt h hi
  unfold scaleOf
  split_ifs with hone
  · -- the only block holds all columns, so its own squares are the whole sum
    apply scale_entry
    rw [accumulateSquares_row hcurrent hrow]
    obtain ⟨t, ht⟩ := List.length_eq_one_iff.mp hone
    have hcolumns := stepSlices_rows job.config.dim h.blockColumns
    unfold blocks at ht hs
    rw [ht, List.mem_singleton] at hs
    rw [ht, List.flatMap_singleton, ← hs] at hcolumns
    rw [hcolumns]
  · exact scale_entry (hsum hone _ hrow)

theorem embedBlock_entry (h : job.Proper r) {sums : Sums D}
    (hsums : job.blocks.length ≠ 1 → job.Summed r (List.range job.config.dim) sums) {s : ℕ × ℕ}
    (hs : s ∈ job.blocks) {i j : ℕ} (hi : i < outRows job.selected job.transition.rows) (hj : s.1 + j < s.2) :
    job.embedBlock sums s i j =
      embedding ar job.transition job.config r (rowOf job.selected i) (s.1 + j) := by
  have hrow := rowOf_lt h hi
  have hproject := project_holds h ⟨2, s.1, 0⟩ s
  -- after `k` steps the block holds the self term and the terms of the powers below `k`
  let terms := fun k : ℕ =>
    (if job.config.hasSelf then [normalized ar job.config job.config.selfWeight r
      (rowOf job.selected i) (s.1 + j)] else []) ++
      ((List.range k).filter job.config.active).map fun k => normalized ar job.config
        (job.config.weight k) (propagated ar job.transition r (k + 1)) (rowOf job.selected i)
        (s.1 + j)
  let good := fun (k : ℕ) (block : Block F) => block i j = (terms k).foldl ar.add ar.zero
  have hloop : good job.config.powers (job.embedBlock sums s) := by
    unfold embedBlock
    apply powerLoop_good h good hproject
    · simp only [good, terms, List.range_zero, List.filter_nil, List.map_nil, List.append_nil]
      split_ifs with hself
      · rw [addScaled_entry, scaleOf_entry h hs hproject
          (fun hne => (hsums hne).self hself) hi, hproject _ hrow j hj]
        rfl
      · rfl
    · intro k block current hcurrent hgood
      have hblock : block i j = (terms k).foldl ar.add ar.zero := hgood
      by_cases hk : job.config.active k = true
      · have hterms : terms (k + 1) = terms k ++ [normalized ar job.config (job.config.weight k)
            (propagated ar job.transition r (k + 1)) (rowOf job.selected i) (s.1 + j)] := by
          simp only [terms, List.range_succ, List.filter_append, List.filter_singleton, hk, cond_true,
            List.map_append, List.map_cons, List.map_nil, List.append_assoc]
        simp only [good]
        rw [if_pos hk, hterms, List.foldl_append, ← hblock, addScaled_entry, scaleOf_entry h hs
          hcurrent (fun hne => (hsums hne).powers k hk) hi, hcurrent _ hrow j hj]
        rfl
      · have hterms : terms (k + 1) = terms k := by
          simp only [terms, List.range_succ, List.filter_append, List.filter_singleton,
            Bool.eq_false_iff.mpr hk, cond_false, List.append_nil]
        simp only [good]
        rw [if_neg hk, hterms]
        exact hblock
  apply hloop.trans
  unfold embedding summands
  simp only [terms]
  rw [activePowers_eq]

theorem run_entry (h : job.Proper r) {i j : ℕ} (hi : i < outRows job.selected job.transition.rows) (hj : j < job.config.dim) :
    job.run i j = ar.store (embedding ar job.transition job.config r (rowOf job.selected i) j) := by
  have hblock : ∃ s ∈ job.blocks, s.1 ≤ j ∧ j < s.2 := by
    have hmem : j ∈ job.blocks.flatMap sliceRows := by
      unfold blocks
      rw [stepSlices_rows _ h.blockColumns]
      exact List.mem_range.mpr hj
    obtain ⟨s, hs, hjs⟩ := List.mem_flatMap.mp hmem
    exact ⟨s, hs, mem_sliceRows.mp hjs⟩
  have hsums : job.blocks.length ≠ 1 → job.Summed r (List.range job.config.dim)
      (if job.blocks.length > 1 then job.sums else noSums ar) := by
    intro hne
    obtain ⟨s, hs, _⟩ := hblock
    have hpos := List.length_pos_of_mem hs
    rw [if_pos (by omega)]
    exact sums_summed h
  unfold run
  apply foldl_read (fun out : Block O => out i j) fun s : ℕ × ℕ => s.1 ≤ j ∧ j < s.2
  · intro s hs hjs out
    unfold storeBlock
    rw [if_pos hjs, embedBlock_entry h hsums hs hi (by omega), Nat.add_sub_cancel' hjs.1]
  · intro s _ hjs out
    exact if_neg hjs
  · exact hblock

end Job

/-! ### The slices of the propagator -/

theorem searchsorted_le {m : Csr F} (hm : m.Valid) {x : ℚ} (hx : x ≤ m.nnz) :
    searchsorted m.indptr x ≤ m.rows := by
  by_contra hlt
  rw [not_le] at hlt
  unfold searchsorted at hlt
  have hmem := List.getElem_mem hlt
  have hvalue := List.mem_takeWhile_imp hmem
  rw [(List.takeWhile_prefix _).getElem hlt] at hvalue
  have hlast := hm.last
  unfold Csr.start at hlast
  rw [List.getD_eq_getElem?_getD, List.getElem?_eq_getElem (by rw [hm.length_indptr]; omega),
    Option.getD_some] at hlast
  rw [hlast] at hvalue
  exact absurd (of_decide_eq_true hvalue) (not_lt.mpr hx)

theorem propagator_bounds {m : Csr F} (hm : m.Valid) {targets : List ℚ}
    (htargets : ∀ x ∈ targets, x ≤ m.nnz) :
    ∀ b ∈ (targets.map (searchsorted m.indptr)).toFinset.sort (· ≤ ·), b ≤ m.rows := by
  intro b hb
  rw [Finset.mem_sort, List.mem_toFinset, List.mem_map] at hb
  obtain ⟨x, hx, rfl⟩ := hb
  exact searchsorted_le hm (htargets x hx)

theorem propagatorSlices_rows (env : Surroundings F) {m : Csr F} (hm : m.Valid) (threads : ℕ) :
    (propagatorSlices env.linspace m threads).flatMap sliceRows = List.range m.rows ∧
      ∀ s ∈ propagatorSlices env.linspace m threads, s.2 ≤ m.rows := by
  unfold propagatorSlices
  simp only
  generalize htargets : ((env.linspace m.nnz (max (4 * threads)
    ((m.rows + taskRows - 1) / taskRows) + 1)).drop 1).dropLast = targets
  have hle : ∀ x ∈ targets, x ≤ m.nnz := by
    intro x hx
    rw [← htargets] at hx
    exact (env.linspace_mem _ _ x (List.mem_of_mem_drop (List.mem_of_mem_dropLast hx))).2
  have hbounds := propagator_bounds hm hle
  constructor
  · rw [pairwise_rows, Nat.sub_zero, List.range_eq_range']
    refine List.pairwise_cons.mpr ⟨fun _ _ => Nat.zero_le _, ?_⟩
    refine List.pairwise_append.mpr ⟨Finset.pairwise_sort _ _, List.pairwise_singleton _ _, ?_⟩
    intro b hb n hn
    rw [List.mem_singleton.mp hn]
    exact hbounds b hb
  · intro s hs
    have hmem := (mem_pairwise (List.mem_of_mem_filter hs)).2
    rcases List.mem_cons.mp hmem with hzero | hmem
    · rw [hzero]
      exact Nat.zero_le _
    · rcases List.mem_append.mp hmem with hb | hn
      · exact hbounds _ hb
      · rw [List.mem_singleton.mp hn]

/-- `fastrp` returns the direct embeddings of the selected nodes, each stored once, for every
block width and number of threads; the threaded slices hold every row once. -/
theorem fastrp_exact (ar : Arithmetic F D O) (env : Surroundings F) (adjacency : Adjacency F)
    (config : FastRPConfig ar) (rows : Option (List ℕ)) (projection : Option (Projection F))
    (blockColumns threads : ℕ) (hblockColumns : 1 ≤ blockColumns) (hthreads : 1 ≤ threads)
    (hrows : ∀ selected, rows = some selected → ∀ v ∈ selected, v < adjacency.transition.rows)
    {p : Projection F} (hp : projectionOf ar env.junk adjacency config projection = .ok p)
    (r : Block F) (hr : p.Independent r) :
    (propagatorSlices env.linspace adjacency.transition threads).flatMap sliceRows =
        List.range adjacency.transition.rows ∧
      ∃ out, fastrp ar env adjacency config rows blockColumns projection threads = .ok out ∧
        ∀ i < outRows rows adjacency.transition.rows, ∀ j < config.dim,
          out i j = ar.store (embedding ar adjacency.transition config r (rowOf rows i) j) := by
  obtain ⟨hslices, hslices_le⟩ := propagatorSlices_rows env adjacency.valid threads
  refine ⟨hslices, (fastrpJob env adjacency config rows blockColumns p threads).run, ?_, ?_⟩
  · unfold fastrp
    rw [if_neg (by omega), hp]
  · intro i hi j hj
    exact Job.run_entry ⟨adjacency.valid, hr, hslices, hslices_le, hrows, hblockColumns⟩ hi hj

/-! ### The default projection -/

def defaultScale (ar : Arithmetic F D O) (beta : D) (degree : ℕ → ℕ) (v : ℕ) : Option F :=
  if ar.isZero beta then none
  else some (ar.narrow (ar.pow64 (ar.ofNat64 (max (degree v) 1)) beta))

def defaultBlock {ar : Arithmetic F D O} (adjacency : Adjacency F) (config : FastRPConfig ar) :
    Block F := fun v column =>
  hashedEntry ar (Fin.ofNat (2 ^ 64) config.seed.toNat) (adjacency.nodes.keys.getD v 0)
    (defaultScale ar config.beta adjacency.degree v) column

theorem projectionOf_default {ar : Arithmetic F D O} (junk : ℕ → Block F) (adjacency : Adjacency F)
    {config : FastRPConfig ar} (hseed : 0 ≤ config.seed ∧ config.seed < 2 ^ 64) :
    ∃ p, projectionOf ar junk adjacency config none = .ok p ∧
      p.Independent (defaultBlock adjacency config) := by
  unfold projectionOf HashedProjection.new
  simp only
  rw [if_neg (by omega)]
  split_ifs with hbeta
  · refine ⟨_, rfl, ?_⟩
    unfold defaultBlock defaultScale
    simp only [hbeta, if_true]
    exact toProjection_independent ar _ _
  · refine ⟨_, rfl, ?_⟩
    unfold defaultBlock defaultScale
    simp only [hbeta, Bool.false_eq_true, if_false]
    exact toProjection_independent ar _ _

/-! ### A run -/

/-- Integers in place of every float, and no square root. -/
def integerArithmetic : Arithmetic ℤ ℤ ℤ where
  zero := 0
  add := (· + ·)
  mul := (· * ·)
  mul_comm := Int.mul_comm
  sqrt3 := 1
  neg := Neg.neg
  zero64 := 0
  one64 := 1
  add64 := (· + ·)
  mul64 := (· * ·)
  div64 := (· / ·)
  pow64 a _ := a
  sqrt64 := id
  ofNat64 := Int.ofNat
  isZero a := a = 0
  widen := id
  narrow := id
  store := id

def inOrder : Surroundings ℤ where
  executor := ⟨fun _ writes => applyWrites writes fun _ _ => 0, fun _ writes =>
    ⟨fun _ _ => 0, writes, List.Perm.refl _, rfl⟩⟩
  linspace stop num := (List.range num).map fun i : ℕ => (stop : ℚ) * (i / (num - 1 : ℕ))
  linspace_mem stop num x hx := by
    obtain ⟨i, hi, rfl⟩ := List.mem_map.mp hx
    have hle : i ≤ num - 1 := Nat.le_sub_one_of_lt (List.mem_range.mp hi)
    have hratio : ((i : ℚ) / (num - 1 : ℕ)) ≤ 1 :=
      div_le_one_of_le₀ (by exact_mod_cast hle) (Nat.cast_nonneg _)
    have hratio' : 0 ≤ ((i : ℚ) / (num - 1 : ℕ)) := div_nonneg (Nat.cast_nonneg _) (Nat.cast_nonneg _)
    exact ⟨mul_nonneg (Nat.cast_nonneg _) hratio', mul_le_of_le_one_right (Nat.cast_nonneg _) hratio⟩
  junk _ _ _ := 7

def oneEdge : Adjacency ℤ where
  nodes := ⟨[3, 5], by decide, by decide⟩
  transition := Csr.ofRows [[(1, 1)], [(0, 1)]]
  degree _ := 1
  valid := Csr.valid_ofRows (by decide)
  square := rfl

def twoTerms : FastRPConfig integerArithmetic where
  dim := 3
  weights := [6, 0, 12]
  beta := 0
  selfWeight := 3
  seed := 1
  dim_pos := by decide
  some_weight := ⟨6, by decide, rfl⟩

def rampProjection : Projection ℤ where
  columns _ _ lo _ i _ := lo + i + 1

theorem fastrp_exact_oneEdge : ∃ out,
    fastrp integerArithmetic inOrder oneEdge twoTerms (some [1, 0, 1]) 2 (some rampProjection) 3 =
        .ok out ∧ out 0 2 = 6 := by
  have hselected : ∀ selected, some [1, 0, 1] = some selected → ∀ v ∈ selected,
      v < oneEdge.transition.rows := by
    intro selected heq
    cases heq
    decide
  have hramp : rampProjection.Independent fun v _ => v + 1 := by
    intro start stop lo hi i j _ _
    simp [rampProjection]
  obtain ⟨out, hout, hentry⟩ := (fastrp_exact integerArithmetic inOrder oneEdge twoTerms
    (some [1, 0, 1]) (some rampProjection) 2 3 (by decide) (by decide) hselected rfl _ hramp).2
  exact ⟨out, hout, (hentry 0 (by decide) 2 (by decide)).trans (by decide)⟩

end AnalyticsEngine.Embeddings
