import AnalyticsEngine.Cache.Endpoints
import Mathlib.Data.List.Sort
import Mathlib.Data.Prod.Lex
import Mathlib.Order.OrderDual

/-!
# Label ranks (insights/computations.py, `_label_longevity_ranks`, and insights/insights.py)

The writer gives the real labels the ranks `1..N` and the placeholders those behind them; the
endpoint puts both back into the order of the ranking and cuts at a real label.
-/

namespace AnalyticsEngine.Computations
open Library Cache

/- A row of the API's response, with the truth value of `row.get("is_placeholder", False)`. -/
structure LabelItem where
  labelId : String
  labelName : String
  firstYear : ℤ
  lastYear : Option ℤ
  yearsActive : ℤ
  totalReleases : ℤ
  peakDecade : Option ℤ
  isPlaceholder : Bool

/-! ### The writer -/

/-- The loop of `_label_longevity_ranks`. -/
def ranksFrom : List LabelItem → ℤ → ℤ → List ℤ
  | [], _, _ => []
  | row :: later, realRank, placeholderRank =>
    if row.isPlaceholder then (placeholderRank + 1) :: ranksFrom later realRank (placeholderRank + 1)
    else (realRank + 1) :: ranksFrom later (realRank + 1) placeholderRank

def labelLongevityRanks (results : List LabelItem) : List ℤ :=
  let realCount := results.countP fun row => !row.isPlaceholder
  ranksFrom results 0 realCount

def storedLabel (currentYear rank : ℤ) (row : LabelItem) : LabelRow where
  rank := rank
  labelId := row.labelId
  labelName := row.labelName
  firstYear := row.firstYear
  lastYear := row.lastYear
  yearsActive := row.yearsActive
  totalReleases := row.totalReleases
  peakDecade := row.peakDecade
  stillActive := match row.lastYear with
    | none => false
    | some lastYear => currentYear - 2 ≤ lastYear
  isPlaceholder := row.isPlaceholder

/- insights.label_longevity; `rank` is its primary key. -/
structure LabelTable where
  rows : List LabelRow
  distinct : (rows.map LabelRow.rank).Nodup

def LabelTable.insert (table : LabelTable) (row : LabelRow) : Option LabelTable :=
  if hrank : row.rank ∈ table.rows.map LabelRow.rank then none
  else some {
    rows := table.rows ++ [row]
    distinct := by
      rw [List.map_append, List.map_singleton]
      exact List.nodup_append_comm.mp (List.nodup_cons.mpr ⟨hrank, table.distinct⟩) }

def computeAndStoreLabelLongevity (currentYear : ℤ) (results : List LabelItem)
    (table : LabelTable) : Option (LabelTable × ℕ) :=
  match results with
  | [] => some (table, 0)
  | row :: later =>
    let results := row :: later
    let stored := List.zipWith (storedLabel currentYear) (labelLongevityRanks results) results
    (stored.foldlM LabelTable.insert ⟨[], List.nodup_nil⟩).map fun after => (after, results.length)

/-! ### The reader -/

section
variable {ι : Type*} [LinearOrder ι] (collate : String → ι)

/- Years active descending, then releases descending, then label id. -/
def rankingKey (yearsActive totalReleases : ℤ) (labelId : String) : ℤᵒᵈ ×ₗ ℤᵒᵈ ×ₗ ι :=
  toLex (OrderDual.toDual yearsActive, toLex (OrderDual.toDual totalReleases, collate labelId))

def LabelRow.key (r : LabelRow) : ℤᵒᵈ ×ₗ ℤᵒᵈ ×ₗ ι :=
  rankingKey collate r.yearsActive r.totalReleases r.labelId

def LabelItem.key (row : LabelItem) : ℤᵒᵈ ×ₗ ℤᵒᵈ ×ₗ ι :=
  rankingKey collate row.yearsActive row.totalReleases row.labelId

/-- `WHERE rank <= limit OR is_placeholder ORDER BY` the ranking. -/
def rankedLabels (table : LabelTable) (limit : ℕ) : List LabelRow :=
  (table.rows.filter fun r => r.rank ≤ (limit : ℤ) ∨ r.isPlaceholder).insertionSort
    fun r s => LabelRow.key collate r ≤ LabelRow.key collate s

/-- `WHERE NOT is_placeholder ORDER BY rank LIMIT limit`. -/
def realLabels (table : LabelTable) (limit : ℕ) : List LabelRow :=
  ((table.rows.filter fun r => !r.isPlaceholder).insertionSort
    fun r s => r.rank ≤ s.rank).take limit

def labelLongevity (table : LabelTable) (limit : ℕ) (includePlaceholders : Bool) :
    List LabelRow :=
  if includePlaceholders then trimTrailingPlaceholders (rankedLabels collate table limit) limit
  else realLabels table limit

/-- The endpoint serves these rows. -/
theorem endpoint_labelLongevity {φ : Type*} (table : LabelTable) (answers : Answers φ)
    (hranked : answers.rankedLabels = rankedLabels collate table)
    (hreal : answers.realLabels = realLabels table) (today : ℕ) (recent : 90 ≤ today)
    (limit : Limit 200) (includePlaceholders : Bool) :
    endpointBody ⟨.labelLongevity limit includePlaceholders, today, recent⟩ answers =
      listBody ((labelLongevity collate table limit includePlaceholders).map labelItem) := by
  unfold endpointBody labelLongevity
  simp only [hranked, hreal]

end

/-! ### The ranks -/

/- `first, first + 1, …`, `n` of them. -/
def numbered (first : ℤ) (n : ℕ) : List ℤ := (List.range n).map fun i : ℕ => first + (i : ℤ)

theorem numbered_succ (first : ℤ) (n : ℕ) : numbered first (n + 1) = first :: numbered (first + 1) n := by
  unfold numbered
  rw [List.range_succ_eq_map, List.map_cons, List.map_map]
  congr 1
  · simp
  · refine List.map_congr_left fun i _ => ?_
    simp only [Function.comp_apply, Nat.succ_eq_add_one]
    omega

theorem mem_numbered {first x : ℤ} {n : ℕ} : x ∈ numbered first n ↔ first ≤ x ∧ x < first + n := by
  unfold numbered
  rw [List.mem_map]
  constructor
  · rintro ⟨i, hi, rfl⟩
    have := List.mem_range.mp hi
    omega
  · rintro ⟨hfirst, hlast⟩
    exact ⟨(x - first).toNat, List.mem_range.mpr (by omega), by omega⟩

theorem numbered_nodup (first : ℤ) (n : ℕ) : (numbered first n).Nodup :=
  List.nodup_range.map fun i j h => by omega

theorem numbered_append (first : ℤ) (m n : ℕ) :
    numbered first m ++ numbered (first + m) n = numbered first (m + n) := by
  induction m generalizing first with
  | zero => simp [numbered]
  | succ m ih =>
    have hshift : first + (m + 1 : ℕ) = first + 1 + m := by omega
    rw [numbered_succ, hshift, List.cons_append, ih, Nat.succ_add, numbered_succ]

section
variable {currentYear : ℤ}

def storedFrom (currentYear realRank placeholderRank : ℤ) (results : List LabelItem) :
    List LabelRow :=
  List.zipWith (storedLabel currentYear) (ranksFrom results realRank placeholderRank) results

theorem storedFrom_cons (realRank placeholderRank : ℤ) (row : LabelItem)
    (later : List LabelItem) :
    storedFrom currentYear realRank placeholderRank (row :: later) =
      if row.isPlaceholder then
        storedLabel currentYear (placeholderRank + 1) row ::
          storedFrom currentYear realRank (placeholderRank + 1) later
      else
        storedLabel currentYear (realRank + 1) row ::
          storedFrom currentYear (realRank + 1) placeholderRank later := by
  unfold storedFrom
  rw [ranksFrom]
  split_ifs
  · rfl
  · rfl

/-- The real labels have consecutive ranks in the order of the response. -/
theorem storedFrom_real (realRank placeholderRank : ℤ) (results : List LabelItem) :
    ((storedFrom currentYear realRank placeholderRank results).filter fun r =>
        !r.isPlaceholder).map LabelRow.rank =
      numbered (realRank + 1) (results.countP fun row => !row.isPlaceholder) := by
  induction results generalizing realRank placeholderRank with
  | nil => rfl
  | cons row later ih =>
    rw [storedFrom_cons]
    cases hrow : row.isPlaceholder with
    | true =>
      rw [if_pos rfl, List.filter_cons_of_neg (by simp [storedLabel, hrow]),
        List.countP_cons_of_neg (by simp [hrow])]
      exact ih _ _
    | false =>
      rw [if_neg Bool.false_ne_true, List.filter_cons_of_pos (by simp [storedLabel, hrow]),
        List.countP_cons_of_pos (by simp [hrow]), numbered_succ, List.map_cons, ih]
      rfl

theorem storedFrom_placeholder (realRank placeholderRank : ℤ) (results : List LabelItem) :
    ((storedFrom currentYear realRank placeholderRank results).filter fun r =>
        r.isPlaceholder).map LabelRow.rank =
      numbered (placeholderRank + 1) (results.countP fun row => row.isPlaceholder) := by
  induction results generalizing realRank placeholderRank with
  | nil => rfl
  | cons row later ih =>
    rw [storedFrom_cons]
    cases hrow : row.isPlaceholder with
    | true =>
      rw [if_pos rfl, List.filter_cons_of_pos (by simp [storedLabel, hrow]),
        List.countP_cons_of_pos (by simp [hrow]), numbered_succ, List.map_cons, ih]
      rfl
    | false =>
      rw [if_neg Bool.false_ne_true, List.filter_cons_of_neg (by simp [storedLabel, hrow]),
        List.countP_cons_of_neg (by simp [hrow])]
      exact ih _ _

/-- What a run stores, in the order of the response. -/
def storedLabels (currentYear : ℤ) (results : List LabelItem) : List LabelRow :=
  List.zipWith (storedLabel currentYear) (labelLongevityRanks results) results

theorem storedLabels_eq (results : List LabelItem) : storedLabels currentYear results =
    storedFrom currentYear 0 (results.countP fun row => !row.isPlaceholder) results := rfl

theorem storedLabels_real (results : List LabelItem) :
    ((storedLabels currentYear results).filter fun r => !r.isPlaceholder).map LabelRow.rank =
      numbered 1 (results.countP fun row => !row.isPlaceholder) := by
  rw [storedLabels_eq, storedFrom_real]
  rfl

theorem storedLabels_ranks (results : List LabelItem) :
    ((storedLabels currentYear results).map LabelRow.rank).Perm (numbered 1 results.length) := by
  have hsplit := (List.filter_append_perm (fun r : LabelRow => !r.isPlaceholder)
    (storedLabels currentYear results)).symm.map LabelRow.rank
  simp only [Bool.not_not] at hsplit
  rw [List.map_append, storedLabels_real, storedLabels_eq, storedFrom_placeholder] at hsplit
  have hcount : (results.countP fun row => !row.isPlaceholder) +
      results.countP (fun row => row.isPlaceholder) = results.length := by
    have := List.length_eq_countP_add_countP (fun row : LabelItem => !row.isPlaceholder) (l := results)
    simp only [Bool.not_eq_true, Bool.not_eq_false'] at this
    simpa using this.symm
  rw [← hcount, ← numbered_append 1]
  rwa [Int.add_comm 1]

end

end AnalyticsEngine.Computations
