import AnalyticsEngine.ExactTopK.Merge

/-!
# One update of one row

A row's running list is described by the set `S` of columns it has seen. `RowInv` says that the
list is the row list of those columns' entries and that the threshold was computed from it.
`Covers` is all that is left of a threshold copied earlier: `k` seen columns reach it. It only
grows with `S`, so a stale threshold is as good as a fresh one, and `update_row` takes `RowInv`
from `S` to `S` with a whole block of columns.
-/

namespace AnalyticsEngine.ExactTopK
open Library

variable {α : Type*} [LinearOrder α]

/-! ### Touched rows -/

theorem idxOf_map_add (a : ℕ) (l : List ℕ) (x : ℕ) :
    (l.map (a + ·)).idxOf (a + x) = l.idxOf x := by
  induction l with
  | nil => rfl
  | cons y l ih =>
    have hbeq : (a + y == a + x) = (y == x) := by
      rw [Bool.eq_iff_iff]
      simp
    rw [List.map_cons, List.idxOf_cons, List.idxOf_cons, ih, hbeq]

theorem idxOf_mono {l : List ℕ} (hl : l.Pairwise (· < ·)) {x y : ℕ} (hx : x ∈ l) (hy : y ∈ l)
    (hxy : x ≤ y) : l.idxOf x ≤ l.idxOf y := by
  by_contra hlt
  have hx' := List.idxOf_lt_length_iff.mpr hx
  have hy' := List.idxOf_lt_length_iff.mpr hy
  have h := List.pairwise_iff_getElem.mp hl _ _ hy' hx' (by omega)
  rw [List.getElem_idxOf, List.getElem_idxOf] at h
  omega

theorem dedup_strict {l : List ℕ} (hl : l.Pairwise (· ≤ ·)) : l.dedup.Pairwise (· < ·) :=
  ((hl.sublist (List.dedup_sublist l)).and (List.nodup_dedup l)).imp
    fun h => lt_of_le_of_ne h.1 h.2

omit [LinearOrder α] in
theorem touched_sorted (cands : List (Candidate α)) (e : Candidate α → Entry α)
    (hs : (cands.map Candidate.row).Pairwise (· ≤ ·)) :
    ((cands.map fun c => ((cands.map Candidate.row).dedup.idxOf c.row, e c)).map
      Prod.fst).Pairwise (· ≤ ·) := by
  have hmem : ∀ c ∈ cands, c.row ∈ (cands.map Candidate.row).dedup := fun c hc =>
    List.mem_dedup.mpr (List.mem_map_of_mem hc)
  rw [List.map_map, List.pairwise_map]
  exact (List.pairwise_map.mp hs).imp_of_mem fun ha hb hab =>
    idxOf_mono (dedup_strict hs) (hmem _ ha) (hmem _ hb) hab

omit [LinearOrder α] in
theorem valuesOf_touched (cands : List (Candidate α)) (e : Candidate α → Entry α) (row : ℕ) :
    valuesOf ((cands.map Candidate.row).dedup.idxOf row)
      (cands.map fun c => ((cands.map Candidate.row).dedup.idxOf c.row, e c)) =
      (cands.filter fun c => c.row = row).map e := by
  have hfilter : (cands.filter fun c => decide ((cands.map Candidate.row).dedup.idxOf c.row =
      (cands.map Candidate.row).dedup.idxOf row)) = cands.filter fun c => c.row = row := by
    apply List.filter_congr
    intro c hc
    have hiff := List.idxOf_inj (y := row)
      (List.mem_dedup.mpr (List.mem_map_of_mem (f := Candidate.row) hc))
    rw [decide_eq_decide, hiff]
  rw [valuesOf, List.filter_map, List.map_map]
  exact congrArg (List.map e) hfilter

theorem applyCandidates_touched (part : Partition (Entry α)) (k : ℕ) (state : TopKState α)
    (rowStart colStart : ℕ) (cands : List (Candidate α)) (row : ℕ)
    (hs : (cands.map Candidate.row).Pairwise (· ≤ ·)) (hrow : row ∈ cands.map Candidate.row)
    (hold : (state.lists (rowStart + row)).length = k) :
    ∃ pads,
      (applyCandidates part k state rowStart colStart cands).lists (rowStart + row) =
        (part.run k (state.lists (rowStart + row) ++
          (cands.filter fun c => c.row = row).map
            (fun c => ⟨c.score, toInt32 (colStart + c.col)⟩) ++
          List.replicate pads padEntry)).map unpad ∧
      (applyCandidates part k state rowStart colStart cands).thresholds (rowStart + row) =
        listThreshold
          ((applyCandidates part k state rowStart colStart cands).lists (rowStart + row)) := by
  have hne : cands.isEmpty = false := by
    obtain ⟨c, hc, _⟩ := List.mem_map.mp hrow
    cases cands with
    | nil => simp at hc
    | cons _ _ => rfl
  have hmem : rowStart + row ∈ (cands.map Candidate.row).dedup.map (rowStart + ·) :=
    List.mem_map_of_mem (List.mem_dedup.mpr hrow)
  obtain ⟨pads, hlists, hthr⟩ := merge_row part k state
    ((cands.map Candidate.row).dedup.map (rowStart + ·))
    (cands.map fun c => ((cands.map Candidate.row).dedup.idxOf c.row,
      (⟨c.score, toInt32 (colStart + c.col)⟩ : Entry α)))
    (touched_sorted cands _ hs) (rowStart + row) hmem hold
  rw [idxOf_map_add, valuesOf_touched cands _ row] at hlists
  simp only [applyCandidates, hne, Bool.false_eq_true, if_false]
  exact ⟨pads, hlists, hthr⟩

theorem applyCandidates_frame (part : Partition (Entry α)) (k : ℕ) (state : TopKState α)
    (rowStart colStart : ℕ) (cands : List (Candidate α)) (r : ℕ)
    (hr : ∀ c ∈ cands, rowStart + c.row ≠ r) :
    (applyCandidates part k state rowStart colStart cands).lists r = state.lists r ∧
      (applyCandidates part k state rowStart colStart cands).thresholds r =
        state.thresholds r := by
  have hnot : r ∉ (cands.map Candidate.row).dedup.map (rowStart + ·) := by
    intro h
    obtain ⟨q, hq, rfl⟩ := List.mem_map.mp h
    obtain ⟨c, hc, rfl⟩ := List.mem_map.mp (List.mem_dedup.mp hq)
    exact hr c hc rfl
  simp only [applyCandidates]
  split
  · exact ⟨rfl, rfl⟩
  · simp only [merge, if_neg hnot, and_self]

/-! ### Rows and the columns they have seen -/

namespace Config
variable (cfg : Config α)

/-- What the results about `exact_top_k` assume of a call. -/
structure Valid : Prop where
  k_pos : 1 ≤ cfg.k
  rows_pos : 0 < cfg.blockRows
  segments : cfg.blockRows % segmentRows = 0
  n_le : cfg.n ≤ 2 ^ 31 - 1
  symm : ∀ r c, cfg.score r c = cfg.score c r

def entry (r c : ℕ) : Entry α := ⟨real (cfg.score r c), toInt32 c⟩

def entries (r : ℕ) (S : Finset ℕ) : Finset (Entry α) := S.image (cfg.entry r)

def blockColumns (d r : ℕ) : Finset ℕ :=
  (Finset.range cfg.n).filter fun c => c / cfg.blockRows = d ∧ c ≠ r

/-- Row `r`'s list is the row list of the columns `S`. -/
def RowInv (state : TopKState α) (r : ℕ) (S : Finset ℕ) : Prop :=
  (state.lists r : Multiset (Entry α)) = rowList cfg.k (cfg.entries r S) ∧
    state.thresholds r = listThreshold (state.lists r)

/-- A threshold that `k` of the columns `S` reach, or the floor. -/
def Covers (r : ℕ) (S : Finset ℕ) (t : Score α) : Prop :=
  floor ≤ t ∧ (t ≠ floor → cfg.k ≤ ((cfg.entries r S).filter fun e => t ≤ e.score).card)

variable {cfg}

theorem toNat_toInt32 {c : ℕ} (h : c < 2 ^ 32) : (toInt32 c).toNat = c := by
  rw [toInt32, BitVec.toNat_ofNat, Nat.mod_eq_of_lt h]

omit [LinearOrder α] in
theorem entry_injOn (r : ℕ) : Set.InjOn (cfg.entry r) {c | c < 2 ^ 32} := by
  intro a ha b hb h
  have hpos := congrArg (fun e => e.position.toNat) h
  simp only [entry] at hpos
  rwa [toNat_toInt32 ha, toNat_toInt32 hb] at hpos

theorem entry_isReal (r : ℕ) {c : ℕ} (h : c < 2 ^ 31 - 1) : IsReal (cfg.entry r c) :=
  ⟨floor_lt_real _, by rw [entry, toNat_toInt32 (by omega)]; exact h⟩

theorem entries_isReal (hv : cfg.Valid) (r : ℕ) {S : Finset ℕ} (hS : S ⊆ Finset.range cfg.n) :
    ∀ e ∈ cfg.entries r S, IsReal e := by
  intro e he
  obtain ⟨c, hc, rfl⟩ := Finset.mem_image.mp he
  have hn := Finset.mem_range.mp (hS hc)
  have := hv.n_le
  exact entry_isReal r (by omega)

theorem entries_mono (r : ℕ) {S T : Finset ℕ} (h : S ⊆ T) : cfg.entries r S ⊆ cfg.entries r T :=
  Finset.image_subset_image h

theorem entries_union (r : ℕ) (S T : Finset ℕ) :
    cfg.entries r (S ∪ T) = cfg.entries r S ∪ cfg.entries r T := Finset.image_union _ _

theorem entries_disjoint (hv : cfg.Valid) (r : ℕ) {S T : Finset ℕ}
    (hS : S ⊆ Finset.range cfg.n) (hT : T ⊆ Finset.range cfg.n) (h : Disjoint S T) :
    Disjoint (cfg.entries r S) (cfg.entries r T) := by
  rw [Finset.disjoint_left]
  intro e heS heT
  obtain ⟨a, ha, rfl⟩ := Finset.mem_image.mp heS
  obtain ⟨b, hb, heq⟩ := Finset.mem_image.mp heT
  have han := Finset.mem_range.mp (hS ha)
  have hbn := Finset.mem_range.mp (hT hb)
  have := hv.n_le
  have hab : b = a := entry_injOn r (by simp; omega) (by simp; omega) heq
  subst hab
  exact Finset.disjoint_left.mp h ha hb

theorem Covers.mono {r : ℕ} {S T : Finset ℕ} {t : Score α} (h : cfg.Covers r S t) (hST : S ⊆ T) :
    cfg.Covers r T t :=
  ⟨h.1, fun ht => (h.2 ht).trans
    (Finset.card_le_card (Finset.filter_subset_filter _ (entries_mono r hST)))⟩

theorem RowInv.covers {state : TopKState α} {r : ℕ} {S : Finset ℕ} (h : cfg.RowInv state r S) :
    cfg.Covers r S (state.thresholds r) := by
  rw [h.2]
  exact ⟨le_max_right _ _, fun ht => listThreshold_covers h.1 ht⟩

theorem RowInv.length {state : TopKState α} {r : ℕ} {S : Finset ℕ} (h : cfg.RowInv state r S) :
    (state.lists r).length = cfg.k := by
  have hcard := congrArg Multiset.card h.1
  rwa [card_rowList, Multiset.coe_card] at hcard

theorem rowInv_empty (hv : cfg.Valid) (r : ℕ) : cfg.RowInv (TopKState.empty cfg.k) r ∅ := by
  constructor
  · have hnone : kBest cfg.k (∅ : Finset (Entry α)) = ∅ := kBest_of_card_le (by simp)
    simp only [TopKState.empty, entries, rowList, Finset.image_empty, hnone, Finset.empty_val,
      Finset.card_empty, Nat.sub_zero, zero_add, Multiset.coe_replicate]
  · have hk := hv.k_pos
    obtain ⟨k, hk'⟩ : ∃ k, cfg.k = k + 1 := ⟨cfg.k - 1, by omega⟩
    have hmin : ((List.replicate (k + 1) (emptyEntry : Entry α)).map Entry.score).foldr min posInf
        = negInf := by
      rw [List.replicate_succ, List.map_cons, List.foldr_cons]
      exact min_eq_left (negInf_le _)
    simp only [TopKState.empty, listThreshold, hk', hmin]
    exact (max_eq_right negInf_lt_floor.le).symm

/-! ### What a view shows -/

variable (cfg) in
/-- View `v` shows the columns of block `d` to the rows of block `b`. -/
structure Shows (b d : ℕ) (v : View α) : Prop where
  aligned : v.Aligned
  rows : cfg.validRows b ≤ v.nRows
  cols : cfg.validRows d ≤ v.nCols
  cell : ∀ r c, r < cfg.validRows b → v.score r c =
    if cfg.validRows d ≤ c ∨ (b = d ∧ r = c) then negInf
    else real (cfg.score (b * cfg.blockRows + r) (d * cfg.blockRows + c))
  fin : ∀ r c, v.score r c < posInf

omit [LinearOrder α] in
theorem validRows_le_paddedRows (i : ℕ) : cfg.validRows i ≤ cfg.paddedRows i := by
  rw [paddedRows]
  have h := Nat.div_add_mod (cfg.validRows i + segmentRows - 1) segmentRows
  have hlt := Nat.mod_lt (cfg.validRows i + segmentRows - 1) (show segmentRows > 0 by decide)
  simp only [segmentRows] at *
  omega

theorem blockScores_lt (i j r c : ℕ) : cfg.blockScores i j r c < posInf := by
  rw [blockScores]
  split_ifs
  · exact negInf_lt_posInf
  · exact negInf_lt_posInf
  · exact negInf_lt_posInf
  · exact real_lt_posInf _

theorem rowSide_shows (i j : ℕ) : cfg.Shows i j (cfg.rowSide i j) where
  aligned := rowView_aligned _ (Nat.mul_mod_left _ _)
  rows := validRows_le_paddedRows i
  cols := validRows_le_paddedRows j
  cell r c hr := by
    simp only [rowSide, rowView, blockScores, if_neg (not_le_of_gt hr), eq_comm (a := j)]
    by_cases h : cfg.validRows j ≤ c <;> by_cases h' : i = j ∧ r = c <;> simp [h, h']
  fin r c := blockScores_lt i j r c

theorem columnSide_shows (hv : cfg.Valid) (i j : ℕ) : cfg.Shows j i (cfg.columnSide i j) where
  aligned := columnView_aligned _ (by
    rw [paddedRows, segmentRows, columnSegment, show (64 : ℕ) = 4 * 16 by rfl, ← Nat.mul_assoc]
    exact Nat.mul_mod_left _ _)
  rows := validRows_le_paddedRows j
  cols := validRows_le_paddedRows i
  cell c r hc := by
    simp only [columnSide, columnView, blockScores, if_neg (not_le_of_gt hc), eq_comm (a := c),
      hv.symm (i * cfg.blockRows + r)]
    by_cases h : cfg.validRows i ≤ r <;> by_cases h' : j = i ∧ r = c <;> simp [h, h']
  fin c r := blockScores_lt i j r c

/-! ### The update of a row -/

section
variable {b d ρ : ℕ} {v : View α} {stale : ℕ → Score α}

def chosen (cfg : Config α) (b d : ℕ) (v : View α) (stale : ℕ → Score α) (ρ : ℕ) : Finset ℕ :=
  ((selected cfg.k v (cfg.validRows b) stale ρ).map (d * cfg.blockRows + ·)).toFinset

theorem score_real (hs : cfg.Shows b d v) (hρ : ρ < cfg.validRows b) {c : ℕ}
    (h : floor ≤ v.score ρ c) : c < cfg.validRows d ∧ ¬(b = d ∧ ρ = c) ∧
      v.score ρ c = real (cfg.score (b * cfg.blockRows + ρ) (d * cfg.blockRows + c)) := by
  rw [hs.cell ρ c hρ] at h ⊢
  split_ifs at h with hcond
  · exact absurd h (not_le_of_gt negInf_lt_floor)
  · rw [if_neg hcond]
    simp only [not_or, not_le] at hcond
    exact ⟨hcond.1, hcond.2, rfl⟩

theorem floor_le_rowCut (hρ : ρ < cfg.validRows b) (hstale : floor ≤ stale ρ) :
    floor ≤ rowCut cfg.k v (cfg.validRows b) stale ρ := by
  rw [rowCut, if_pos hρ]
  split_ifs with h
  · exact le_max_right _ _
  · exact hstale

omit [LinearOrder α] in
theorem local_global (hv : cfg.Valid) {c : ℕ} (hc : c < cfg.validRows d) :
    d * cfg.blockRows + c < cfg.n ∧ (d * cfg.blockRows + c) / cfg.blockRows = d := by
  rw [validRows] at hc
  have hB := hv.rows_pos
  refine ⟨by omega, ?_⟩
  rw [Nat.add_comm, Nat.add_mul_div_right _ _ hB, Nat.div_eq_of_lt (by omega), Nat.zero_add]

omit [LinearOrder α] in
theorem mem_blockColumns_local (hv : cfg.Valid) (hρ : ρ < cfg.validRows b) {x : ℕ} :
    x ∈ cfg.blockColumns d (b * cfg.blockRows + ρ) ↔
      ∃ c, c < cfg.validRows d ∧ ¬(b = d ∧ ρ = c) ∧ x = d * cfg.blockRows + c := by
  have hB := hv.rows_pos
  rw [blockColumns, Finset.mem_filter, Finset.mem_range]
  constructor
  · intro hfound
    obtain ⟨hn, hdiv, hne⟩ := hfound
    have hx := Nat.div_add_mod x cfg.blockRows
    have hlt := Nat.mod_lt x hB
    rw [hdiv, Nat.mul_comm] at hx
    refine ⟨x % cfg.blockRows, ?_, ?_, hx.symm⟩
    · rw [validRows]
      omega
    · intro hfound
      obtain ⟨rfl, rfl⟩ := hfound
      exact hne hx.symm
  · intro hfound
    obtain ⟨c, hc, hne, rfl⟩ := hfound
    obtain ⟨hn, hdiv⟩ := local_global hv hc
    refine ⟨hn, hdiv, fun heq => hne ?_⟩
    have hb : b = d := by
      have := (local_global hv hρ).2
      rw [← heq, hdiv] at this
      exact this.symm
    subst hb
    exact ⟨rfl, by omega⟩

theorem mem_chosen (hs : cfg.Shows b d v) {c : ℕ} (hc : c < cfg.validRows d) :
    d * cfg.blockRows + c ∈ cfg.chosen b d v stale ρ ↔
      rowCut cfg.k v (cfg.validRows b) stale ρ ≤ v.score ρ c := by
  rw [chosen, List.mem_toFinset, List.mem_map]
  constructor
  · intro hfound
    obtain ⟨c', hc', heq⟩ := hfound
    obtain rfl : c' = c := by omega
    rw [selected, List.mem_filter] at hc'
    exact of_decide_eq_true hc'.2
  · intro h
    refine ⟨c, ?_, rfl⟩
    rw [selected, List.mem_filter, List.mem_range]
    exact ⟨hc.trans_le hs.cols, decide_eq_true h⟩

theorem chosen_subset (hv : cfg.Valid) (hs : cfg.Shows b d v) (hρ : ρ < cfg.validRows b)
    (hstale : floor ≤ stale ρ) :
    cfg.chosen b d v stale ρ ⊆ cfg.blockColumns d (b * cfg.blockRows + ρ) := by
  intro x hx
  rw [chosen, List.mem_toFinset, List.mem_map] at hx
  obtain ⟨c, hc, rfl⟩ := hx
  rw [selected, List.mem_filter] at hc
  have hreal := score_real hs hρ
    ((floor_le_rowCut hρ hstale).trans (of_decide_eq_true hc.2))
  exact (mem_blockColumns_local hv hρ).mpr ⟨c, hreal.1, hreal.2.1, rfl⟩

theorem candidates_entries (hv : cfg.Valid) (hs : cfg.Shows b d v) (hρ : ρ < cfg.validRows b)
    (hstale : floor ≤ stale ρ) :
    ((((candidates cfg.k v (cfg.validRows b) stale).filter fun c => c.row = ρ).map
      fun c => (⟨c.score, toInt32 (d * cfg.blockRows + c.col)⟩ : Entry α) : List (Entry α)) :
        Multiset (Entry α)) =
      (cfg.entries (b * cfg.blockRows + ρ) (cfg.chosen b d v stale ρ)).val := by
  have hrow := candidates_row cfg.k v hs.aligned (cfg.validRows b) stale hs.fin ρ
    (hρ.trans_le hs.rows)
  have hlist : ((selected cfg.k v (cfg.validRows b) stale ρ).map
        fun c => (⟨ρ, c, v.score ρ c⟩ : Candidate α)).map
        (fun c => (⟨c.score, toInt32 (d * cfg.blockRows + c.col)⟩ : Entry α)) =
      ((selected cfg.k v (cfg.validRows b) stale ρ).map (d * cfg.blockRows + ·)).map
        (cfg.entry (b * cfg.blockRows + ρ)) := by
    rw [List.map_map, List.map_map]
    apply List.map_congr_left
    intro c hc
    rw [selected, List.mem_filter] at hc
    have hreal := score_real hs hρ
      ((floor_le_rowCut hρ hstale).trans (of_decide_eq_true hc.2))
    simp only [Function.comp_apply, entry, hreal.2.2]
  have hnd : ((selected cfg.k v (cfg.validRows b) stale ρ).map (d * cfg.blockRows + ·)).Nodup := by
    refine List.Nodup.map (fun a c h => ?_) (List.nodup_range.filter _)
    simpa using h
  have hinj : Set.InjOn (cfg.entry (b * cfg.blockRows + ρ)) (cfg.chosen b d v stale ρ) := by
    intro x hx y hy h
    have hn := hv.n_le
    have hxn := Finset.mem_range.mp (Finset.mem_filter.mp (chosen_subset hv hs hρ hstale hx)).1
    have hyn := Finset.mem_range.mp (Finset.mem_filter.mp (chosen_subset hv hs hρ hstale hy)).1
    exact entry_injOn _ (by simp; omega) (by simp; omega) h
  rw [Multiset.coe_eq_coe.mpr (hrow.map _), hlist, entries, Finset.image_val_of_injOn hinj, chosen,
    List.toFinset_val, hnd.dedup, Multiset.map_coe]

/-- At first sight the `k` columns at or above the local cut are ahead of a column below it. -/
theorem localCut_ahead (hv : cfg.Valid) (hs : cfg.Shows b d v) (hρ : ρ < cfg.validRows b)
    (S : Finset ℕ) {c : ℕ} (hc : c < cfg.validRows d)
    (hcell : v.score ρ c = real (cfg.score (b * cfg.blockRows + ρ) (d * cfg.blockRows + c)))
    (hdrop : v.score ρ c < localCut cfg.k v ρ) :
    cfg.k ≤ (ahead (cfg.entries (b * cfg.blockRows + ρ)
        (S ∪ cfg.blockColumns d (b * cfg.blockRows + ρ)))
      (cfg.entry (b * cfg.blockRows + ρ) (d * cfg.blockRows + c))).card := by
  have hcutne : localCut cfg.k v ρ ≠ floor := by
    intro h
    rw [h, hcell] at hdrop
    exact absurd (floor_lt_real _) (not_lt_of_gt hdrop)
  have hwide : cfg.k < v.nCols := by
    by_contra hnarrow
    exact not_lt_of_ge (localCut_le cfg.k v ρ c (by omega) (hc.trans_le hs.cols)
      (by rw [hcell]; exact floor_lt_real _)) hdrop
  have hcount := localCut_count cfg.k v ρ hcutne
  rw [min_eq_left hwide.le] at hcount
  -- the columns at or above the cut, all of them real and ahead of `c`
  let high := ((List.range v.nCols).filter fun c => localCut cfg.k v ρ ≤ v.score ρ c)
  have hhigh : ∀ x ∈ high, x < cfg.validRows d ∧ ¬(b = d ∧ ρ = x) ∧
      v.score ρ x = real (cfg.score (b * cfg.blockRows + ρ) (d * cfg.blockRows + x)) ∧
      localCut cfg.k v ρ ≤ v.score ρ x := by
    intro x hx
    have hle := of_decide_eq_true (List.mem_filter.mp hx).2
    have hreal := score_real hs hρ ((le_max_right _ _ : floor ≤ localCut cfg.k v ρ).trans hle)
    exact ⟨hreal.1, hreal.2.1, hreal.2.2, hle⟩
  have hsub : high.toFinset.image (fun x =>
      cfg.entry (b * cfg.blockRows + ρ) (d * cfg.blockRows + x)) ⊆
      ahead (cfg.entries (b * cfg.blockRows + ρ)
        (S ∪ cfg.blockColumns d (b * cfg.blockRows + ρ)))
        (cfg.entry (b * cfg.blockRows + ρ) (d * cfg.blockRows + c)) := by
    intro e he
    obtain ⟨x, hx, rfl⟩ := Finset.mem_image.mp he
    obtain ⟨hx1, hx2, hx3, hx4⟩ := hhigh x (List.mem_toFinset.mp hx)
    refine mem_ahead.mpr ⟨Finset.mem_image_of_mem _ (Finset.mem_union_right _
      ((mem_blockColumns_local hv hρ).mpr ⟨x, hx1, hx2, rfl⟩)), lt_of_score_lt ?_⟩
    simp only [entry]
    rw [← hcell, ← hx3]
    exact hdrop.trans_le hx4
  have hinj : Set.InjOn (fun x => cfg.entry (b * cfg.blockRows + ρ) (d * cfg.blockRows + x))
      high.toFinset := by
    intro x hx y hy h
    have hxv := hhigh x (List.mem_toFinset.mp hx)
    have hyv := hhigh y (List.mem_toFinset.mp hy)
    have hn := hv.n_le
    have hxn := (local_global hv hxv.1).1
    have hyn := (local_global hv hyv.1).1
    have heq := entry_injOn _ (show _ < 2 ^ 32 by omega) (show _ < 2 ^ 32 by omega) h
    omega
  have hcard := Finset.card_le_card hsub
  rw [Finset.card_image_of_injOn hinj, List.toFinset_card_of_nodup (List.nodup_range.filter _)]
    at hcard
  exact hcount.trans hcard

/-- Columns below the cut have `k` better ones among the seen and the new columns. -/
theorem dropped_ahead (hv : cfg.Valid) (hs : cfg.Shows b d v) (hρ : ρ < cfg.validRows b)
    {S : Finset ℕ} (hcov : cfg.Covers (b * cfg.blockRows + ρ) S (stale ρ)) {c : ℕ}
    (hc : c < cfg.validRows d) (hself : ¬(b = d ∧ ρ = c))
    (hdrop : ¬ rowCut cfg.k v (cfg.validRows b) stale ρ ≤ v.score ρ c) :
    cfg.k ≤ (ahead (cfg.entries (b * cfg.blockRows + ρ)
        (S ∪ cfg.blockColumns d (b * cfg.blockRows + ρ)))
      (cfg.entry (b * cfg.blockRows + ρ) (d * cfg.blockRows + c))).card := by
  have hcell : v.score ρ c = real (cfg.score (b * cfg.blockRows + ρ) (d * cfg.blockRows + c)) := by
    rw [hs.cell ρ c hρ, if_neg]
    intro hcases
    rcases hcases with h | h
    · omega
    · exact hself h
  rw [rowCut, if_pos hρ] at hdrop
  by_cases hfloor : stale ρ = floor
  · rw [if_pos hfloor] at hdrop
    exact localCut_ahead hv hs hρ S hc hcell (not_le.mp hdrop)
  · -- a known threshold: the k seen columns that reach it
    rw [if_neg hfloor] at hdrop
    apply (hcov.2 hfloor).trans
    apply Finset.card_le_card
    intro e he
    rw [Finset.mem_filter] at he
    refine mem_ahead.mpr ⟨entries_mono _ Finset.subset_union_left he.1, lt_of_score_lt ?_⟩
    simp only [entry]
    rw [← hcell]
    exact (not_le.mp hdrop).trans_le he.2

/-- An update folds a whole block of columns into a row, whatever its threshold's age. -/
theorem update_row (hv : cfg.Valid) (part : Partition (Entry α)) (hs : cfg.Shows b d v)
    (stale : ℕ → Score α) (hρ : ρ < cfg.validRows b) {state : TopKState α} {S : Finset ℕ}
    (hS : S ⊆ Finset.range cfg.n)
    (hnew : Disjoint S (cfg.blockColumns d (b * cfg.blockRows + ρ)))
    (hrow : cfg.RowInv state (b * cfg.blockRows + ρ) S)
    (hcov : cfg.Covers (b * cfg.blockRows + ρ) S (stale ρ)) :
    cfg.RowInv (applyCandidates part cfg.k state (b * cfg.blockRows) (d * cfg.blockRows)
        (candidates cfg.k v (cfg.validRows b) stale)) (b * cfg.blockRows + ρ)
      (S ∪ cfg.blockColumns d (b * cfg.blockRows + ρ)) := by
  set r := b * cfg.blockRows + ρ
  set C := cfg.blockColumns d r
  set K := cfg.chosen b d v stale ρ
  have hC : C ⊆ Finset.range cfg.n := Finset.filter_subset _ _
  have hK : K ⊆ C := chosen_subset hv hs hρ hcov.1
  have hsame : rowList cfg.k (cfg.entries r S ∪ cfg.entries r K) =
      rowList cfg.k (cfg.entries r (S ∪ C)) := by
    refine rowList_congr (kBest_of_dropped ?_ ?_)
    · rw [entries_union]
      exact Finset.union_subset_union_right (entries_mono r hK)
    · intro e he hnot
      rw [Finset.mem_union, not_or] at hnot
      obtain ⟨x, hx, rfl⟩ := Finset.mem_image.mp he
      have hxS : x ∉ S := fun h => hnot.1 (Finset.mem_image_of_mem _ h)
      have hxK : x ∉ K := fun h => hnot.2 (Finset.mem_image_of_mem _ h)
      have hxC : x ∈ C := (Finset.mem_union.mp hx).resolve_left hxS
      obtain ⟨c, hc, hself, rfl⟩ := (mem_blockColumns_local hv hρ).mp hxC
      exact dropped_ahead hv hs hρ hcov hc hself
        fun h => hxK ((mem_chosen hs hc).mpr h)
  have hentries := candidates_entries hv hs hρ hcov.1
  by_cases htouched : ρ ∈ (candidates cfg.k v (cfg.validRows b) stale).map Candidate.row
  · obtain ⟨pads, hlists, hthr⟩ := applyCandidates_touched part cfg.k state (b * cfg.blockRows)
      (d * cfg.blockRows) _ ρ (candidates_sorted cfg.k v _ stale) htouched hrow.length
    refine ⟨?_, hthr⟩
    rw [hlists, ← hsame]
    exact selection_rowList part cfg.k pads _ _ _ _ (entries_isReal hv r hS)
      (entries_isReal hv r (hK.trans hC))
      (entries_disjoint hv r hS (hK.trans hC) (Finset.disjoint_of_subset_right hK hnew))
      hrow.1 hentries
  · have hframe := applyCandidates_frame part cfg.k state (b * cfg.blockRows)
      (d * cfg.blockRows) (candidates cfg.k v (cfg.validRows b) stale) r (by
        intro c hc heq
        refine htouched (List.mem_map.mpr ⟨c, hc, ?_⟩)
        omega)
    have hempty : (candidates cfg.k v (cfg.validRows b) stale).filter (fun c => c.row = ρ) = [] :=
      List.filter_eq_nil_iff.mpr fun c hc h =>
        htouched (List.mem_map.mpr ⟨c, hc, of_decide_eq_true h⟩)
    rw [hempty] at hentries
    have hKempty : cfg.entries r K = ∅ := Finset.val_eq_zero.mp hentries.symm
    rw [hKempty, Finset.union_empty] at hsame
    constructor
    · rw [hframe.1, hrow.1, hsame]
    · rw [hframe.2, hframe.1, hrow.2]

theorem update_frame (hv : cfg.Valid) (part : Partition (Entry α)) (hs : cfg.Shows b d v)
    (stale : ℕ → Score α) {state : TopKState α} {S : Finset ℕ} {r : ℕ} (hr : r / cfg.blockRows ≠ b)
    (hrow : cfg.RowInv state r S) :
    cfg.RowInv (applyCandidates part cfg.k state (b * cfg.blockRows) (d * cfg.blockRows)
      (candidates cfg.k v (cfg.validRows b) stale)) r S := by
  have hframe := applyCandidates_frame part cfg.k state (b * cfg.blockRows)
    (d * cfg.blockRows) (candidates cfg.k v (cfg.validRows b) stale) r (by
      intro c hc heq
      have hvalid := (mem_candidates_row cfg.k v (cfg.validRows b) stale hs.aligned hs.fin hc).2
      exact hr (heq ▸ (local_global hv hvalid).2))
  exact ⟨by rw [hframe.1, hrow.1], by rw [hframe.2, hframe.1, hrow.2]⟩

end

end Config

end AnalyticsEngine.ExactTopK
