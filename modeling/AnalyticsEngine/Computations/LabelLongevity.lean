import AnalyticsEngine.Computations.LabelRanks
import AnalyticsEngine.Library.Upsert
import Mathlib.Data.String.Basic

/-!
# What the label longevity endpoint shows

A snapshot splits at its `limit`-th real label (`split_at_real`). The rank filter keeps everything
up to it and only placeholders behind it, and the trim cuts those off.
-/

namespace AnalyticsEngine.Computations
open Library Cache

/-! ### Splits -/

theorem split_at_real {rows : List LabelRow} {n : ℕ}
    (h : n < (rows.filter fun r => !r.isPlaceholder).length) :
    ∃ before row after, rows = before ++ row :: after ∧ row.isPlaceholder = false ∧
      (before.filter fun r => !r.isPlaceholder).length = n := by
  induction rows generalizing n with
  | nil => simp at h
  | cons first rest ih =>
    cases hfirst : first.isPlaceholder with
    | true =>
      rw [List.filter_cons_of_neg (by simp [hfirst])] at h
      obtain ⟨before, row, after, rfl, hrow, hcount⟩ := ih h
      refine ⟨first :: before, row, after, rfl, hrow, ?_⟩
      rw [List.filter_cons_of_neg (by simp [hfirst])]
      exact hcount
    | false =>
      rw [List.filter_cons_of_pos (by simp [hfirst]), List.length_cons] at h
      cases n with
      | zero => exact ⟨[], first, rest, rfl, hfirst, rfl⟩
      | succ n =>
        obtain ⟨before, row, after, rfl, hrow, hcount⟩ := ih (Nat.lt_of_succ_lt_succ h)
        refine ⟨first :: before, row, after, rfl, hrow, ?_⟩
        rw [List.filter_cons_of_pos (by simp [hfirst]), List.length_cons, hcount]

theorem numbered_split {first x : ℤ} {n : ℕ} {before after : List ℤ}
    (h : numbered first n = before ++ x :: after) :
    (∀ y ∈ before, y < first + before.length) ∧ x = first + before.length ∧
      ∀ y ∈ after, first + before.length < y := by
  induction before generalizing first n with
  | nil =>
    cases n with
    | zero => simp [numbered] at h
    | succ n =>
      rw [numbered_succ, List.nil_append] at h
      obtain ⟨rfl, rfl⟩ := List.cons.inj h
      refine ⟨fun y hy => absurd hy List.not_mem_nil, by simp, fun y hy => ?_⟩
      have := (mem_numbered.mp hy).1
      simp only [List.length_nil]
      omega
  | cons y before ih =>
    cases n with
    | zero => simp [numbered] at h
    | succ n =>
      rw [numbered_succ, List.cons_append] at h
      obtain ⟨rfl, hrest⟩ := List.cons.inj h
      obtain ⟨hbefore, hx, hafter⟩ := ih hrest
      simp only [List.length_cons]
      refine ⟨fun z hz => ?_, by omega, fun z hz => ?_⟩
      · rcases List.mem_cons.mp hz with rfl | hz
        · omega
        · have := hbefore z hz
          omega
      · have := hafter z hz
        omega

/-! ### The trim -/

theorem foldr_max_eq {indices : List ℕ} {m : ℕ} (hmem : m ∈ indices) (hle : ∀ i ∈ indices, i ≤ m) :
    indices.foldr max 0 = m := by
  apply le_antisymm
  · clear hmem
    induction indices with
    | nil => exact Nat.zero_le m
    | cons i rest ih =>
      exact max_le (hle i List.mem_cons_self) (ih fun j hj => hle j (List.mem_cons_of_mem _ hj))
  · induction indices with
    | nil => cases hmem
    | cons i rest ih =>
      rcases List.mem_cons.mp hmem with rfl | hmem
      · exact le_max_left _ _
      · exact (ih hmem fun j hj => hle j (List.mem_cons_of_mem _ hj)).trans (le_max_right _ _)

theorem trim_split {before after : List LabelRow} {row : LabelRow} {limit : ℕ}
    (hrow : row.isPlaceholder = false) (hafter : ∀ r ∈ after, r.isPlaceholder = true)
    (hcount : (before.filter fun r => !r.isPlaceholder).length + 1 = limit) :
    trimTrailingPlaceholders (before ++ row :: after) limit = before ++ [row] := by
  have hnone : (after.filter fun r => !r.isPlaceholder) = [] :=
    List.filter_eq_nil_iff.mpr fun r hr => by simp [hafter r hr]
  have hreal : ((before ++ row :: after).filter fun r => !r.isPlaceholder).length = limit := by
    rw [List.filter_append, List.filter_cons_of_pos (by simp [hrow]), hnone, List.length_append,
      List.length_singleton, hcount]
  have hlast : ((List.range (before ++ row :: after).length).filter fun i =>
      ((before ++ row :: after)[i]?.map fun r => !r.isPlaceholder).getD false).foldr max 0 =
        before.length := by
    refine foldr_max_eq ?_ ?_
    · refine List.mem_filter.mpr ⟨List.mem_range.mpr (by simp), ?_⟩
      simp [hrow]
    · intro i hi
      obtain ⟨-, hi⟩ := List.mem_filter.mp hi
      by_contra hbehind
      rw [List.getElem?_append_right (by omega)] at hi
      obtain ⟨j, hj⟩ : ∃ j, i - before.length = j + 1 := ⟨i - before.length - 1, by omega⟩
      rw [hj, List.getElem?_cons_succ] at hi
      cases hget : after[j]? with
      | none =>
        rw [hget] at hi
        cases hi
      | some r =>
        rw [hget] at hi
        simp [hafter r (List.mem_of_getElem? hget)] at hi
  unfold trimTrailingPlaceholders
  simp only [hreal, hlast, lt_irrefl, if_false]
  rw [List.take_append, List.take_of_length_le (by omega)]
  simp

/-! ### Prefixes through a real label -/

section
variable {α : Type*} {isPlaceholder : α → Bool} {limit larger : ℕ} {rows shown shown' : List α}

/-- The prefix of `rows` that ends with the `limit`-th real label, or all of them if there are
fewer. -/
structure PrefixThrough (isPlaceholder : α → Bool) (limit : ℕ) (rows shown : List α) : Prop where
  isPrefix : shown <+: rows
  ends : ((rows.filter fun r => !isPlaceholder r).length < limit ∧ shown = rows) ∨
    ((shown.filter fun r => !isPlaceholder r).length = limit ∧
      ∃ last, shown.getLast? = some last ∧ isPlaceholder last = false)

theorem PrefixThrough.map {β : Type*} {isPlaceholder' : β → Bool} (f : α → β)
    (hf : ∀ r, isPlaceholder' (f r) = isPlaceholder r)
    (h : PrefixThrough isPlaceholder limit rows shown) :
    PrefixThrough isPlaceholder' limit (rows.map f) (shown.map f) := by
  have hcount : ∀ l : List α, ((l.map f).filter fun r => !isPlaceholder' r).length =
      (l.filter fun r => !isPlaceholder r).length := by
    intro l
    rw [List.filter_map, List.length_map]
    simp only [Function.comp_def, hf]
  refine ⟨h.isPrefix.map f, ?_⟩
  rw [hcount, hcount]
  rcases h.ends with ⟨hfew, heq⟩ | ⟨hlimit, last, hlast, hreal⟩
  · exact Or.inl ⟨hfew, congrArg (List.map f) heq⟩
  · refine Or.inr ⟨hlimit, f last, ?_, (hf last).trans hreal⟩
    rw [List.getLast?_map, hlast]
    rfl

theorem PrefixThrough.mono (h : PrefixThrough isPlaceholder limit rows shown)
    (h' : PrefixThrough isPlaceholder larger rows shown') (hlimit : limit ≤ larger) :
    shown <+: shown' := by
  rcases List.prefix_or_prefix_of_prefix h.isPrefix h'.isPrefix with hstart | hstart
  · exact hstart
  · rcases h'.ends with ⟨-, rfl⟩ | ⟨hcount', -⟩
    · exact h.isPrefix
    · have hless := (hstart.sublist.filter fun r => !isPlaceholder r).length_le
      rcases h.ends with ⟨hfew, rfl⟩ | ⟨hcount, last, hlast, hreal⟩
      · omega
      · -- the longer one has no further real label, yet it ends with one
        obtain ⟨rest, rfl⟩ := hstart
        rw [List.filter_append, List.length_append] at hcount
        have hnone : (rest.filter fun r => !isPlaceholder r) = [] :=
          List.eq_nil_of_length_eq_zero (by omega)
        cases hrest : rest.getLast? with
        | none =>
          have hempty := List.getLast?_eq_none_iff.mp hrest
          simp [hempty]
        | some r =>
          rw [List.getLast?_append, hrest] at hlast
          cases hlast
          have hfiltered := List.filter_eq_nil_iff.mp hnone last (List.mem_of_getLast? hrest)
          simp [hreal] at hfiltered

end

/-! ### A snapshot -/

section
variable {ι : Type*} [LinearOrder ι] {collate : String → ι}

/-- Rows in the order of the ranking whose real labels are numbered in it. -/
structure Ranked (collate : String → ι) (rows : List LabelRow) : Prop where
  ordered : rows.Pairwise fun r s => LabelRow.key collate r < LabelRow.key collate s
  real : (rows.filter fun r => !r.isPlaceholder).map LabelRow.rank =
    numbered 1 (rows.filter fun r => !r.isPlaceholder).length

variable {table : LabelTable} {limit : ℕ}

theorem rankedLabels_filter (h : Ranked collate table.rows) (limit : ℕ) :
    rankedLabels collate table limit =
      table.rows.filter fun r => r.rank ≤ (limit : ℤ) ∨ r.isPlaceholder := by
  have hsorted := (h.ordered.imp le_of_lt).filter
    fun r => decide (r.rank ≤ (limit : ℤ) ∨ r.isPlaceholder)
  exact hsorted.insertionSort_eq

theorem realLabels_filter (h : Ranked collate table.rows) (limit : ℕ) :
    realLabels table limit = (table.rows.filter fun r => !r.isPlaceholder).take limit := by
  have hranks : ((table.rows.filter fun r => !r.isPlaceholder).map LabelRow.rank).Pairwise
      (· ≤ ·) := by
    rw [h.real]
    exact List.pairwise_map.mpr (List.pairwise_le_range.imp fun hij => by omega)
  unfold realLabels
  rw [(List.pairwise_map.mp hranks).insertionSort_eq]

/-- The real labels around a real label have ranks around its own. -/
theorem Ranked.split (h : Ranked collate table.rows) {before after : List LabelRow} {row : LabelRow}
    (hsplit : table.rows = before ++ row :: after) (hrow : row.isPlaceholder = false) :
    (∀ r ∈ before, r.isPlaceholder = false →
      r.rank < 1 + (before.filter fun r => !r.isPlaceholder).length) ∧
    row.rank = 1 + (before.filter fun r => !r.isPlaceholder).length ∧
    ∀ r ∈ after, r.isPlaceholder = false →
      1 + (before.filter fun r => !r.isPlaceholder).length < r.rank := by
  have hreal := h.real
  rw [hsplit, List.filter_append, List.filter_cons_of_pos (by simp [hrow]), List.map_append,
    List.map_cons] at hreal
  obtain ⟨hbefore, hrank, hafter⟩ := numbered_split hreal.symm
  rw [List.length_map] at hbefore hrank hafter
  refine ⟨fun r hr hreal => hbefore _ ?_, hrank, fun r hr hreal => hafter _ ?_⟩
  · exact List.mem_map_of_mem (List.mem_filter.mpr ⟨hr, by simp [hreal]⟩)
  · exact List.mem_map_of_mem (List.mem_filter.mpr ⟨hr, by simp [hreal]⟩)

/-- The rank filter keeps rows whose real labels are all within the limit. -/
theorem kept_of_low {rows : List LabelRow}
    (hlow : ∀ r ∈ rows, r.isPlaceholder = false → r.rank ≤ (limit : ℤ)) :
    (rows.filter fun r => r.rank ≤ (limit : ℤ) ∨ r.isPlaceholder) = rows := by
  refine List.filter_eq_self.mpr fun r hr => ?_
  cases hr' : r.isPlaceholder with
  | true => simp
  | false => exact decide_eq_true (Or.inl (hlow r hr hr'))

/-- With placeholders, the endpoint shows a prefix of the snapshot. -/
theorem labelLongevity_all (h : Ranked collate table.rows)
    (hfew : (table.rows.filter fun r => !r.isPlaceholder).length < limit) :
    labelLongevity collate table limit true = table.rows := by
  have hlow : ∀ r ∈ table.rows, r.isPlaceholder = false → r.rank ≤ (limit : ℤ) := by
    intro r hr hreal
    have hmem : r.rank ∈ (table.rows.filter fun r => !r.isPlaceholder).map LabelRow.rank :=
      List.mem_map_of_mem (List.mem_filter.mpr ⟨hr, by simp [hreal]⟩)
    rw [h.real] at hmem
    have := (mem_numbered.mp hmem).2
    omega
  unfold labelLongevity
  rw [if_pos rfl, rankedLabels_filter h, kept_of_low hlow]
  unfold trimTrailingPlaceholders
  rw [if_pos hfew]

theorem labelLongevity_cut (h : Ranked collate table.rows) {before after : List LabelRow}
    {row : LabelRow} (hsplit : table.rows = before ++ row :: after)
    (hrow : row.isPlaceholder = false)
    (hcount : (before.filter fun r => !r.isPlaceholder).length + 1 = limit) :
    labelLongevity collate table limit true = before ++ [row] := by
  obtain ⟨hbefore, hrank, hafter⟩ := h.split hsplit hrow
  have hearlier : ∀ r ∈ before, r.isPlaceholder = false → r.rank ≤ (limit : ℤ) := by
    intro r hr hreal
    have := hbefore r hr hreal
    omega
  have hrest : ∀ r ∈ after.filter fun r => r.rank ≤ (limit : ℤ) ∨ r.isPlaceholder,
      r.isPlaceholder = true := by
    intro r hr
    obtain ⟨hr, hr'⟩ := List.mem_filter.mp hr
    rcases of_decide_eq_true hr' with hlow | hplaceholder
    · by_contra hreal
      have := hafter r hr (Bool.eq_false_iff.mpr hreal)
      omega
    · exact hplaceholder
  have hlow : row.rank ≤ (limit : ℤ) := by omega
  unfold labelLongevity
  rw [if_pos rfl, rankedLabels_filter h, hsplit, List.filter_append, kept_of_low hearlier,
    List.filter_cons_of_pos (by simp [hlow])]
  exact trim_split hrow hrest hcount

theorem labelLongevity_initial (h : Ranked collate table.rows) (hlimit : 1 ≤ limit) :
    PrefixThrough LabelRow.isPlaceholder limit table.rows
      (labelLongevity collate table limit true) := by
  by_cases hfew : (table.rows.filter fun r => !r.isPlaceholder).length < limit
  · rw [labelLongevity_all h hfew]
    exact ⟨List.prefix_refl _, Or.inl ⟨hfew, rfl⟩⟩
  · obtain ⟨before, row, after, hsplit, hrow, hcount⟩ := split_at_real
      (show limit - 1 < (table.rows.filter fun r => !r.isPlaceholder).length by omega)
    rw [labelLongevity_cut h hsplit hrow (by omega)]
    refine ⟨⟨after, ?_⟩, Or.inr ⟨?_, row, List.getLast?_concat, hrow⟩⟩
    · rw [hsplit, List.append_assoc, List.singleton_append]
    · rw [List.filter_append, List.filter_cons_of_pos (by simp [hrow]), List.length_append, hcount]
      simp only [List.filter_nil, List.length_singleton]
      omega

theorem labelLongevity_real (h : Ranked collate table.rows) (hlimit : 1 ≤ limit) :
    labelLongevity collate table limit false =
      (labelLongevity collate table limit true).filter fun r => !r.isPlaceholder := by
  have hreal : labelLongevity collate table limit false = realLabels table limit := rfl
  rw [hreal, realLabels_filter h]
  by_cases hfew : (table.rows.filter fun r => !r.isPlaceholder).length < limit
  · rw [labelLongevity_all h hfew]
    exact List.take_of_length_le hfew.le
  · obtain ⟨before, row, after, hsplit, hrow, hcount⟩ := split_at_real
      (show limit - 1 < (table.rows.filter fun r => !r.isPlaceholder).length by omega)
    rw [labelLongevity_cut h hsplit hrow (by omega), hsplit, List.filter_append, List.filter_append,
      List.filter_cons_of_pos (by simp [hrow]), List.filter_cons_of_pos (by simp [hrow]),
      List.take_append, List.take_of_length_le (by omega)]
    congr 1
    rw [show limit - (before.filter fun r => !r.isPlaceholder).length = 1 by omega]
    rfl

theorem labelLongevity_mono (h : Ranked collate table.rows) {larger : ℕ} (hlimit : 1 ≤ limit)
    (hlarger : limit ≤ larger) (includePlaceholders : Bool) :
    labelLongevity collate table limit includePlaceholders <+:
      labelLongevity collate table larger includePlaceholders := by
  cases includePlaceholders with
  | true =>
    exact (labelLongevity_initial h hlimit).mono
      (labelLongevity_initial h (hlimit.trans hlarger)) hlarger
  | false =>
    show realLabels table limit <+: realLabels table larger
    rw [realLabels_filter h, realLabels_filter h]
    exact List.take_prefix_take_left hlarger

end

/-! ### A run -/

section
variable {currentYear : ℤ} {results : List LabelItem}

/- The columns that come from the response. -/
def LabelRow.item (r : LabelRow) : LabelItem where
  labelId := r.labelId
  labelName := r.labelName
  firstYear := r.firstYear
  lastYear := r.lastYear
  yearsActive := r.yearsActive
  totalReleases := r.totalReleases
  peakDecade := r.peakDecade
  isPlaceholder := r.isPlaceholder

theorem storedFrom_items (realRank placeholderRank : ℤ) (results : List LabelItem) :
    (storedFrom currentYear realRank placeholderRank results).map LabelRow.item = results := by
  induction results generalizing realRank placeholderRank with
  | nil => rfl
  | cons row later ih =>
    rw [storedFrom_cons]
    split_ifs
    · rw [List.map_cons, ih]
      rfl
    · rw [List.map_cons, ih]
      rfl

theorem storedLabels_items (results : List LabelItem) :
    (storedLabels currentYear results).map LabelRow.item = results := by
  rw [storedLabels_eq]
  exact storedFrom_items _ _ _

theorem storedLabels_ranked {ι : Type*} [LinearOrder ι] {collate : String → ι}
    (h : results.Pairwise fun a b => LabelItem.key collate a < LabelItem.key collate b) :
    Ranked collate (storedLabels currentYear results) where
  ordered := by
    have hitems : (storedLabels currentYear results).map LabelRow.item = results :=
      storedLabels_items results
    rw [← hitems] at h
    exact (List.pairwise_map (f := LabelRow.item)).mp h
  real := by
    have hranks : ((storedLabels currentYear results).filter fun r => !r.isPlaceholder).map
        LabelRow.rank = numbered 1 (results.countP fun row => !row.isPlaceholder) :=
      storedLabels_real results
    have hcount := congrArg List.length hranks
    rw [List.length_map] at hcount
    rw [hcount, storedLabels_real]
    simp [numbered]

theorem insert_label {table : LabelTable} {row : LabelRow}
    (hnew : row.rank ∉ table.rows.map LabelRow.rank) :
    ∃ after, table.insert row = pure after ∧ after.rows = table.rows ++ [row] := by
  unfold LabelTable.insert
  rw [dif_neg hnew]
  exact ⟨_, rfl, rfl⟩

theorem computeAndStore_rows (currentYear : ℤ) (row : LabelItem) (later : List LabelItem)
    (before : LabelTable) :
    ∃ after, computeAndStoreLabelLongevity currentYear (row :: later) before =
        some (after, (row :: later).length) ∧
      after.rows = storedLabels currentYear (row :: later) := by
  let cleared : LabelTable := ⟨[], List.nodup_nil⟩
  have hnodup : ((cleared.rows ++ storedLabels currentYear (row :: later)).map
      LabelRow.rank).Nodup := (storedLabels_ranks _).nodup_iff.mpr (numbered_nodup _ _)
  obtain ⟨after, hafter, hrows⟩ := foldlM_insert (fun table row _ => insert_label) hnodup
  refine ⟨after, ?_, hrows⟩
  unfold computeAndStoreLabelLongevity
  exact congrArg (Option.map _) hafter

/-- A run on a response in ranking order stores ranks from which the endpoint shows the response
up to a real label; on an empty response it leaves the table as it was. -/
theorem labelLongevity_agrees {ι : Type*} [LinearOrder ι] (collate : String → ι) (currentYear : ℤ)
    (before : LabelTable) (row : LabelItem) (later : List LabelItem)
    (hordered : (row :: later).Pairwise fun a b => LabelItem.key collate a < LabelItem.key collate b) :
    computeAndStoreLabelLongevity currentYear [] before = some (before, 0) ∧
    ∃ after, computeAndStoreLabelLongevity currentYear (row :: later) before =
        some (after, (row :: later).length) ∧
      after.rows.map LabelRow.item = row :: later ∧
      (after.rows.map LabelRow.rank).Perm (numbered 1 (row :: later).length) ∧
      (after.rows.filter fun r => !r.isPlaceholder).map LabelRow.rank =
        numbered 1 ((row :: later).countP fun item => !item.isPlaceholder) ∧
      ∀ limit ≥ 1,
        PrefixThrough LabelItem.isPlaceholder limit (row :: later)
          ((labelLongevity collate after limit true).map LabelRow.item) ∧
        labelLongevity collate after limit true <+: after.rows ∧
        labelLongevity collate after limit false =
          (labelLongevity collate after limit true).filter (fun r => !r.isPlaceholder) ∧
        ∀ larger ≥ limit, ∀ includePlaceholders,
          labelLongevity collate after limit includePlaceholders <+:
            labelLongevity collate after larger includePlaceholders := by
  refine ⟨rfl, ?_⟩
  obtain ⟨after, hrun, hrows⟩ := computeAndStore_rows currentYear row later before
  have hranked : Ranked collate after.rows := by
    rw [hrows]
    exact storedLabels_ranked hordered
  have hitems : after.rows.map LabelRow.item = row :: later := by
    rw [hrows]
    exact storedLabels_items _
  refine ⟨after, hrun, hitems, ?_, ?_, ?_⟩
  · rw [hrows]
    exact storedLabels_ranks _
  · rw [hrows]
    exact storedLabels_real _
  · intro limit hlimit
    have hstart := labelLongevity_initial hranked hlimit
    refine ⟨?_, hstart.isPrefix, labelLongevity_real hranked hlimit, ?_⟩
    · rw [← hitems]
      exact hstart.map LabelRow.item fun _ => rfl
    · intro larger hlarger includePlaceholders
      exact labelLongevity_mono hranked hlimit hlarger includePlaceholders

end

/-! ### Not On Label between two labels -/

def byCodePoint (labelId : String) : String := labelId

def rankedItem (labelId : String) (yearsActive : ℤ) (isPlaceholder : Bool) : LabelItem :=
  ⟨labelId, labelId, 1950, some 2026, yearsActive, 100, none, isPlaceholder⟩

def mixedResponse : List LabelItem :=
  [rankedItem "1" 80 false, rankedItem "2" 70 true, rankedItem "3" 60 false]

def noLabels : LabelTable := ⟨[], List.nodup_nil⟩

theorem mixedResponse_ordered : mixedResponse.Pairwise fun a b =>
    LabelItem.key byCodePoint a < LabelItem.key byCodePoint b := by
  decide

theorem labelLongevity_agrees_mixed : ∃ after,
    computeAndStoreLabelLongevity 2026 mixedResponse noLabels = some (after, 3) ∧
      labelLongevity byCodePoint after 1 true <+: labelLongevity byCodePoint after 2 true := by
  obtain ⟨-, after, hrun, -, -, -, hshown⟩ := labelLongevity_agrees byCodePoint 2026 noLabels
    (rankedItem "1" 80 false) [rankedItem "2" 70 true, rankedItem "3" 60 false]
    mixedResponse_ordered
  exact ⟨after, hrun, (hshown 1 le_rfl).2.2.2 2 (by decide) true⟩

/-- An empty response stores no ranks and leaves the label of the run before. -/
theorem labelLongevity_empty : ∃ stored after,
    computeAndStoreLabelLongevity 2026 [rankedItem "1" 80 false] noLabels = some (stored, 1) ∧
      computeAndStoreLabelLongevity 2026 [] stored = some (after, 0) ∧
      ¬(after.rows.map LabelRow.rank).Perm (numbered 1 0) ∧
      labelLongevity byCodePoint after 1 true ≠ [] :=
  ⟨_, _, rfl, rfl, by decide, by decide⟩

end AnalyticsEngine.Computations
