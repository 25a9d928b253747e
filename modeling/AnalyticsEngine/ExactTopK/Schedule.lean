import AnalyticsEngine.ExactTopK.Update

/-!
# Any order of the tasks of a row block

`seen` reads off from the tasks' progress which columns each row has folded in. `PoolInv` holds
of the pool a row block starts with, every event preserves it (`stepEvent_inv`, one case for a
threshold read and one for each kind of merge), and once every task is done it says that the
rows of the block have seen every other row (`runBlock_inv`).
-/

namespace AnalyticsEngine.ExactTopK
open Library

variable {α : Type*}

namespace Config
variable {cfg : Config α}

theorem div_lt_nBlocks (hB : 0 < cfg.blockRows) {r : ℕ} (hr : r < cfg.n) :
    r / cfg.blockRows < cfg.nBlocks := by
  rw [nBlocks, Nat.div_lt_iff_lt_mul hB]
  have h := Nat.div_add_mod (cfg.n + cfg.blockRows - 1) cfg.blockRows
  have hlt := Nat.mod_lt (cfg.n + cfg.blockRows - 1) hB
  rw [Nat.mul_comm] at h
  omega

theorem row_local (hB : 0 < cfg.blockRows) {r : ℕ} (hr : r < cfg.n) :
    r % cfg.blockRows < cfg.validRows (r / cfg.blockRows) ∧
      r / cfg.blockRows * cfg.blockRows + r % cfg.blockRows = r := by
  have h := Nat.div_add_mod' r cfg.blockRows
  have hlt := Nat.mod_lt r hB
  refine ⟨?_, h⟩
  rw [validRows]
  omega

variable (cfg) in
/-- The columns row `r` has folded in once all row blocks before `i` are complete and the tasks
of row block `i` have come as far as `side` says. -/
def seen (i : ℕ) (side : ℕ → Side) (r : ℕ) : Finset ℕ :=
  (Finset.range cfg.n).filter fun c => c ≠ r ∧ (c / cfg.blockRows < i ∨
    (if r / cfg.blockRows = i then side (c / cfg.blockRows) ≠ .rows
      else c / cfg.blockRows = i ∧ side (r / cfg.blockRows) = .done))

theorem seen_subset (i : ℕ) (side : ℕ → Side) (r : ℕ) : cfg.seen i side r ⊆ Finset.range cfg.n :=
  Finset.filter_subset _ _

variable (cfg) in
def seenBefore (i r : ℕ) : Finset ℕ :=
  (Finset.range cfg.n).filter fun c => c ≠ r ∧ c / cfg.blockRows < i

theorem seen_start (i r : ℕ) :
    cfg.seen i (fun _ => .rows) r = cfg.seenBefore i r := by
  apply Finset.filter_congr
  intro c _
  by_cases h : r / cfg.blockRows = i
  · simp [h]
  · simp [h]

theorem seen_finished {i r : ℕ} (hB : 0 < cfg.blockRows) {side : ℕ → Side}
    (hdone : ∀ j < cfg.nBlocks, i ≤ j → side j = .done) (hrn : r < cfg.n)
    (hr : i ≤ r / cfg.blockRows) :
    cfg.seen i side r = if r / cfg.blockRows = i then
      (Finset.range cfg.n).filter (fun c => c ≠ r) else cfg.seenBefore (i + 1) r := by
  have hrdone := hdone _ (div_lt_nBlocks hB hrn) hr
  split_ifs with h
  · apply Finset.filter_congr
    intro c hc
    have hcb := div_lt_nBlocks hB (Finset.mem_range.mp hc)
    rw [if_pos h]
    constructor
    · exact fun hcr => hcr.1
    · intro hcr
      refine ⟨hcr, ?_⟩
      by_cases hlt : c / cfg.blockRows < i
      · exact Or.inl hlt
      · rw [hdone _ hcb (by omega)]
        exact Or.inr (by decide)
  · apply Finset.filter_congr
    intro c _
    rw [if_neg h, hrdone]
    have hiff : (c / cfg.blockRows < i ∨ c / cfg.blockRows = i ∧ Side.done = Side.done) ↔
        c / cfg.blockRows < i + 1 := by
      simp only [and_true]
      omega
    rw [hiff]

theorem seen_rows {i j r : ℕ} {side : ℕ → Side} {s : Side} (hs : s ≠ .rows)
    (hr : r / cfg.blockRows = i) :
    cfg.seen i (Function.update side j s) r = cfg.seen i side r ∪ cfg.blockColumns j r := by
  ext c
  simp only [seen, blockColumns, Finset.mem_union, Finset.mem_filter, if_pos hr]
  by_cases hcj : c / cfg.blockRows = j
  · rw [hcj, Function.update_self]
    tauto
  · rw [Function.update_of_ne hcj]
    tauto

theorem seen_columns {i j r : ℕ} {side : ℕ → Side} (hr : r / cfg.blockRows = j) (hij : j ≠ i) :
    cfg.seen i (Function.update side j .done) r = cfg.seen i side r ∪ cfg.blockColumns i r := by
  ext c
  simp only [seen, blockColumns, Finset.mem_union, Finset.mem_filter, hr, if_neg hij,
    Function.update_self]
  tauto

theorem seen_rows_frame {i j r : ℕ} {side : ℕ → Side} (hr : r / cfg.blockRows ≠ i)
    (hside : side j = .rows) (s : Side) (hs : j = i ∨ s = .columns) :
    cfg.seen i (Function.update side j s) r = cfg.seen i side r := by
  apply Finset.filter_congr
  intro c _
  rw [if_neg hr, if_neg hr]
  by_cases hrj : r / cfg.blockRows = j
  · have hsc : s = .columns := hs.resolve_left fun h => hr (hrj.trans h)
    rw [hrj, Function.update_self, hside, hsc]
    simp
  · rw [Function.update_of_ne hrj]

theorem seen_columns_frame {i j r : ℕ} {side : ℕ → Side} (hr : r / cfg.blockRows ≠ j)
    (hside : side j = .columns) :
    cfg.seen i (Function.update side j .done) r = cfg.seen i side r := by
  apply Finset.filter_congr
  intro c _
  rw [Function.update_of_ne hr]
  split_ifs with h
  · by_cases hcj : c / cfg.blockRows = j
    · rw [hcj, Function.update_self, hside]
      simp
    · rw [Function.update_of_ne hcj]
  · rfl

/-! ### The pool invariant -/

def sides (p : Pool α) (j : ℕ) : Side := (p.tasks j).side

theorem sides_update (p : Pool α) (state : TopKState α) (j : ℕ) (task : Task α) :
    sides ⟨state, Function.update p.tasks j task⟩ = Function.update (sides p) j task.side := by
  funext q
  by_cases hq : q = j
  · subst hq
    simp [sides]
  · simp [sides, Function.update_of_ne hq]

theorem sides_copy (p : Pool α) (j : ℕ) (copied : ℕ → Option (Score α)) :
    sides { p with tasks := Function.update p.tasks j { p.tasks j with copied := copied } } =
      sides p := by
  rw [sides_update]
  exact Function.update_eq_self j _

variable [LinearOrder α]

variable (cfg) in
/-- What holds in every pool a schedule of row block `i` reaches. -/
structure PoolInv (i : ℕ) (p : Pool α) : Prop where
  diagonal : sides p i ≠ .columns
  rows : ∀ r < cfg.n, i ≤ r / cfg.blockRows →
    cfg.RowInv p.state r (cfg.seen i (sides p) r)
  copied : ∀ j, i ≤ j → ∀ ρ < cfg.validRows ((sides p j).target i j), ∀ t,
    (p.tasks j).copied ρ = some t →
      cfg.Covers ((sides p j).target i j * cfg.blockRows + ρ)
        (cfg.seen i (sides p) ((sides p j).target i j * cfg.blockRows + ρ)) t

theorem read_inv (hv : cfg.Valid) {i j ρ : ℕ} {p : Pool α} (h : cfg.PoolInv i p) (hij : i ≤ j)
    (hρ : ρ < cfg.validRows ((sides p j).target i j)) :
    cfg.PoolInv i { p with
      tasks := Function.update p.tasks j { p.tasks j with
        copied := Function.update (p.tasks j).copied ρ
          (some (p.state.thresholds ((sides p j).target i j * cfg.blockRows + ρ))) } } where
  diagonal := by
    rw [sides_copy]
    exact h.diagonal
  rows := by
    rw [sides_copy]
    exact h.rows
  copied := by
    rw [sides_copy]
    intro j' hij' ρ' hρ' t ht
    by_cases hj : j' = j
    · subst hj
      simp only [Function.update_self] at ht
      by_cases hρρ : ρ' = ρ
      · subst hρρ
        simp only [Function.update_self, Option.some.injEq] at ht
        have hglobal := local_global hv hρ
        have hblock : i ≤ ((sides p j').target i j' * cfg.blockRows + ρ') / cfg.blockRows := by
          rw [hglobal.2]
          cases sides p j' <;> simp only [Side.target] <;> omega
        rw [← ht]
        exact (h.rows _ hglobal.1 hblock).covers
      · simp only [Function.update_of_ne hρρ] at ht
        exact h.copied j' hij' ρ' hρ' t ht
    · simp only [Function.update_of_ne hj] at ht
      exact h.copied j' hij' ρ' hρ' t ht

/-- After a merge the finished update's copies are gone and every other one is still covered. -/
theorem merged_copied {i j : ℕ} {p : Pool α} (h : cfg.PoolInv i p) (state : TopKState α)
    (side : Side) (hgrow : ∀ r, cfg.seen i (sides p) r ⊆
      cfg.seen i (Function.update (sides p) j side) r) :
    ∀ j', i ≤ j' → ∀ ρ < cfg.validRows
        ((sides ⟨state, Function.update p.tasks j (Task.start side)⟩ j').target i j'), ∀ t,
      (Function.update p.tasks j (Task.start side) j').copied ρ = some t →
      cfg.Covers ((sides ⟨state, Function.update p.tasks j (Task.start side)⟩ j').target i j' *
          cfg.blockRows + ρ)
        (cfg.seen i (sides ⟨state, Function.update p.tasks j (Task.start side)⟩)
          ((sides ⟨state, Function.update p.tasks j (Task.start side)⟩ j').target i j' *
            cfg.blockRows + ρ)) t := by
  intro j' hij' ρ hρ t ht
  rw [sides_update] at hρ ⊢
  by_cases hj : j' = j
  · subst hj
    rw [Function.update_self] at ht
    simp [Task.start] at ht
  · rw [Function.update_of_ne hj] at ht hρ ⊢
    exact (h.copied j' hij' ρ hρ t ht).mono (hgrow _)

theorem stale_covers {i j ρ : ℕ} {p : Pool α} (h : cfg.PoolInv i p) (hij : i ≤ j)
    (hρ : ρ < cfg.validRows ((sides p j).target i j)) (hread : ((p.tasks j).copied ρ).isSome) :
    cfg.Covers ((sides p j).target i j * cfg.blockRows + ρ)
      (cfg.seen i (sides p) ((sides p j).target i j * cfg.blockRows + ρ))
      (((p.tasks j).copied ρ).getD floor) := by
  obtain ⟨t, ht⟩ := Option.isSome_iff_exists.mp hread
  rw [ht, Option.getD_some]
  exact h.copied j hij ρ hρ t ht

/-- A merge of task `(i, j)` updates the rows of block `b` by the columns of block `d`, which are
new to them. -/
theorem merge_inv (hv : cfg.Valid) (part : Partition (Entry α)) {i j b d : ℕ} {p : Pool α}
    (h : cfg.PoolInv i p) (hij : i ≤ j) (side : Side) {v : View α} (hs : cfg.Shows b d v)
    (htarget : (sides p j).target i j = b)
    (hread : ∀ r < cfg.validRows b, ((p.tasks j).copied r).isSome)
    (hdiagonal : Function.update (sides p) j side i ≠ .columns)
    (hnew : ∀ r, r / cfg.blockRows = b →
      Disjoint (cfg.seen i (sides p) r) (cfg.blockColumns d r))
    (hadds : ∀ r, r / cfg.blockRows = b → cfg.seen i (Function.update (sides p) j side) r =
      cfg.seen i (sides p) r ∪ cfg.blockColumns d r)
    (hkeeps : ∀ r, r / cfg.blockRows ≠ b → cfg.seen i (Function.update (sides p) j side) r =
      cfg.seen i (sides p) r) :
    cfg.PoolInv i
      { state := applyCandidates part cfg.k p.state (b * cfg.blockRows) (d * cfg.blockRows)
          (candidates cfg.k v (cfg.validRows b) fun r => ((p.tasks j).copied r).getD floor)
        tasks := Function.update p.tasks j (Task.start side) } := by
  have hgrow : ∀ r, cfg.seen i (sides p) r ⊆ cfg.seen i (Function.update (sides p) j side) r := by
    intro r
    by_cases hr : r / cfg.blockRows = b
    · rw [hadds r hr]
      exact Finset.subset_union_left
    · rw [hkeeps r hr]
  have hside : (Task.start side : Task α).side = side := rfl
  refine ⟨?_, ?_, merged_copied h _ _ hgrow⟩
  · rw [sides_update, hside]
    exact hdiagonal
  · intro r hrn hr
    rw [sides_update, hside]
    have hrow := h.rows r hrn hr
    by_cases hrb : r / cfg.blockRows = b
    · obtain ⟨hlocal, hglobal⟩ := row_local hv.rows_pos hrn
      rw [hrb] at hlocal hglobal
      have hcov := stale_covers h hij (by rwa [htarget]) (hread _ hlocal)
      rw [htarget] at hcov
      rw [hadds r hrb]
      rw [← hglobal] at hrow hrb ⊢
      exact update_row hv part hs (fun r => ((p.tasks j).copied r).getD floor) hlocal
        (seen_subset _ _ _) (hnew _ hrb) hrow hcov
    · rw [hkeeps r hrb]
      exact update_frame hv part hs _ hrb hrow

theorem merge_rows_inv (hv : cfg.Valid) (part : Partition (Entry α)) {i j : ℕ} {p : Pool α}
    (h : cfg.PoolInv i p) (hij : i ≤ j) (hside : sides p j = .rows)
    (hread : ∀ r < cfg.validRows i, ((p.tasks j).copied r).isSome) :
    cfg.PoolInv i
      { state := applyCandidates part cfg.k p.state (i * cfg.blockRows) (j * cfg.blockRows)
          (candidates cfg.k (cfg.rowSide i j) (cfg.validRows i)
            fun r => ((p.tasks j).copied r).getD floor)
        tasks := Function.update p.tasks j (Task.start (Side.rows.next i j)) } := by
  have hnext : j = i ∨ Side.rows.next i j = .columns := by
    simp only [Side.next]
    split_ifs with hji
    · exact Or.inl hji
    · exact Or.inr rfl
  have hleft : Side.rows.next i j ≠ .rows := by
    simp only [Side.next]
    split_ifs <;> decide
  apply merge_inv hv part h hij _ (rowSide_shows i j) (by rw [hside]; rfl) hread
  · by_cases hji : i = j
    · subst hji
      rw [Function.update_self]
      simp [Side.next]
    · rw [Function.update_of_ne hji]
      exact h.diagonal
  · intro r hr
    rw [Finset.disjoint_left]
    intro c hc hc'
    rw [seen, Finset.mem_filter, if_pos hr] at hc
    rw [blockColumns, Finset.mem_filter] at hc'
    rw [hc'.2.1, hside] at hc
    rcases hc.2.2 with hlt | hne
    · omega
    · exact hne rfl
  · exact fun r hr => seen_rows hleft hr
  · exact fun r hr => seen_rows_frame hr hside _ hnext

theorem merge_columns_inv (hv : cfg.Valid) (part : Partition (Entry α)) {i j : ℕ} {p : Pool α}
    (h : cfg.PoolInv i p) (hij : i ≤ j) (hside : sides p j = .columns)
    (hread : ∀ r < cfg.validRows j, ((p.tasks j).copied r).isSome) :
    cfg.PoolInv i
      { state := applyCandidates part cfg.k p.state (j * cfg.blockRows) (i * cfg.blockRows)
          (candidates cfg.k (cfg.columnSide i j) (cfg.validRows j)
            fun r => ((p.tasks j).copied r).getD floor)
        tasks := Function.update p.tasks j (Task.start .done) } := by
  have hne : j ≠ i := by
    intro hsame
    subst hsame
    exact h.diagonal hside
  apply merge_inv hv part h hij _ (columnSide_shows hv i j) (by rw [hside]; rfl) hread
  · rw [Function.update_of_ne hne.symm]
    exact h.diagonal
  · intro r hr
    rw [Finset.disjoint_left]
    intro c hc hc'
    rw [seen, Finset.mem_filter, hr, if_neg hne, hside] at hc
    rw [blockColumns, Finset.mem_filter] at hc'
    rcases hc.2.2 with hlt | heq
    · omega
    · exact absurd heq.2 (by decide)
  · exact fun r hr => seen_columns hr hne
  · exact fun r hr => seen_columns_frame hr hside

/-- Every event of a row block preserves the pool invariant. -/
theorem stepEvent_inv (hv : cfg.Valid) (part : Partition (Entry α)) {i : ℕ} {p q : Pool α}
    {e : Event} (h : cfg.PoolInv i p) (hstep : stepEvent part cfg i p e = some q) :
    cfg.PoolInv i q := by
  cases e with
  | read j r =>
    simp only [stepEvent] at hstep
    split_ifs at hstep with hguard
    obtain ⟨hij, _, _, hr, _⟩ := hguard
    rw [← Option.some.inj hstep]
    exact read_inv hv h hij hr
  | merge j =>
    simp only [stepEvent] at hstep
    split_ifs at hstep with hguard
    obtain ⟨hij, _, hnotdone, hread⟩ := hguard
    rw [← Option.some.inj hstep]
    cases hside : (p.tasks j).side with
    | rows =>
      rw [hside] at hread
      have := merge_rows_inv hv part h hij hside hread
      simpa only [taskCandidates, taskColStart, Side.target, hside] using this
    | columns =>
      rw [hside] at hread
      have := merge_columns_inv hv part h hij hside hread
      simpa only [taskCandidates, taskColStart, Side.target, Side.next, hside] using this
    | done => exact absurd hside hnotdone

theorem runEvents_induction {part : Partition (Entry α)} {i : ℕ} {P : Pool α → Prop}
    (hevent : ∀ p e q, P p → stepEvent part cfg i p e = some q → P q) {es : List Event}
    {p q : Pool α} (h : P p) (hrun : runEvents part cfg i p es = some q) : P q := by
  induction es generalizing p with
  | nil =>
    simp only [runEvents, Option.some.injEq] at hrun
    exact hrun ▸ h
  | cons e es ih =>
    obtain ⟨p', hstep, hrest⟩ := Option.bind_eq_some_iff.mp hrun
    exact ih (hevent p e p' h hstep) hrest

/-! ### Block boundaries -/

variable (cfg) in
/-- The state at the boundary before row block `i`: every row from there on has seen exactly the
columns of the earlier blocks. -/
def Boundary (i : ℕ) (state : TopKState α) : Prop :=
  ∀ r < cfg.n, i ≤ r / cfg.blockRows → cfg.RowInv state r (cfg.seenBefore i r)

theorem boundary_empty (hv : cfg.Valid) : cfg.Boundary 0 (TopKState.empty cfg.k) := by
  intro r _ _
  have hnone : cfg.seenBefore 0 r = ∅ := by
    simp [seenBefore]
  rw [hnone]
  exact rowInv_empty hv r

/-- A row block completes its own rows and takes the boundary one block on. -/
theorem runBlock_inv (hv : cfg.Valid) (part : Partition (Entry α)) {i : ℕ} {es : List Event}
    {state next : TopKState α} (h : cfg.Boundary i state)
    (hrun : runBlock part cfg i es state = some next) :
    cfg.Boundary (i + 1) next ∧ ∀ r < cfg.n, r / cfg.blockRows = i →
      cfg.RowInv next r ((Finset.range cfg.n).filter fun c => c ≠ r) := by
  obtain ⟨p, hevents, hlast⟩ := Option.bind_eq_some_iff.mp hrun
  split_ifs at hlast with hfin
  rw [← Option.some.inj hlast]
  have hstart : cfg.PoolInv i ⟨state, fun _ => Task.start .rows⟩ := by
    have hsides : sides (⟨state, fun _ => Task.start .rows⟩ : Pool α) = fun _ => .rows := rfl
    refine ⟨by simp [hsides], ?_, ?_⟩
    · intro r hrn hr
      rw [hsides, seen_start]
      exact h r hrn hr
    · intro j _ ρ _ t ht
      simp [Task.start] at ht
  have hinv := runEvents_induction (fun _ _ _ => stepEvent_inv hv part) hstart hevents
  have hdone : ∀ j < cfg.nBlocks, i ≤ j → sides p j = .done := hfin
  constructor
  · intro r hrn hr
    have hrow := hinv.rows r hrn (by omega)
    rwa [seen_finished hv.rows_pos hdone hrn (by omega), if_neg (by omega)] at hrow
  · intro r hrn hr
    have hrow := hinv.rows r hrn (by omega)
    rwa [seen_finished hv.rows_pos hdone hrn (by omega), if_pos hr] at hrow

end Config

end AnalyticsEngine.ExactTopK
