import AnalyticsEngine.ExactTopK.Kernel
import AnalyticsEngine.Library.RowFile
import Mathlib.Data.List.MinMax

/-!
# Which candidates a block yields

`candidates` goes through a block twice and in two layouts; what it returns for one row is a
filter of that row's columns (`candidates_row`). The two facts about the filter that the merge
rests on are that the local cut leaves at least `k` columns at or above it (`localCut_count`)
and that it keeps every column of a row no wider than `k` (`localCut_le`).
-/

namespace AnalyticsEngine.ExactTopK
open Library

variable {α : Type*} [LinearOrder α]

@[simp] theorem negInf_lt_floor : (negInf : Score α) < floor := WithBot.bot_lt_coe _

@[simp] theorem floor_lt_real (a : α) : floor < real a :=
  WithBot.coe_lt_coe.mpr (WithBot.bot_lt_coe _)

@[simp] theorem real_lt_posInf (a : α) : real a < posInf :=
  WithBot.coe_lt_coe.mpr (WithBot.coe_lt_coe.mpr (WithTop.coe_lt_top a))

theorem floor_lt_posInf : (floor : Score α) < posInf :=
  WithBot.coe_lt_coe.mpr (WithBot.bot_lt_coe _)

theorem negInf_lt_posInf : (negInf : Score α) < posInf := negInf_lt_floor.trans floor_lt_posInf

theorem negInf_le (s : Score α) : negInf ≤ s := bot_le

theorem real_le_real {a b : α} : real a ≤ real b ↔ a ≤ b := by
  simp only [real, WithBot.coe_le_coe, WithTop.coe_le_coe]

/-! ### Views -/

structure View.Aligned (v : View α) : Prop where
  cols : v.nCols = v.nSegments * v.width
  cell : ∀ r g t, t < v.width → v.segment r g t = v.score r (g * v.width + t)

omit [LinearOrder α] in
theorem rowView_aligned {nRows nCols : ℕ} (scores : ℕ → ℕ → Score α)
    (h : nCols % segmentRows = 0) : (rowView nRows nCols scores).Aligned where
  cols := by
    simp only [rowView]
    exact (Nat.div_mul_cancel (Nat.dvd_of_mod_eq_zero h)).symm
  cell _ _ _ _ := rfl

omit [LinearOrder α] in
theorem columnView_aligned {nRows nCols : ℕ} (scores : ℕ → ℕ → Score α)
    (h : nRows % columnSegment = 0) : (columnView nRows nCols scores).Aligned where
  cols := by
    simp only [columnView]
    exact (Nat.div_mul_cancel (Nat.dvd_of_mod_eq_zero h)).symm
  cell _ _ _ _ := rfl

/-! ### The segment pass -/

theorem filter_map_score {β : Type*} (l : List β) (f : β → ℕ) (p : ℕ → Bool) :
    (l.map f).filter p = (l.filter fun b => p (f b)).map f := by
  rw [List.filter_map]
  rfl

/-- Skipping the segments whose maximum misses the threshold skips no column that clears it. -/
theorem segments_filter (v : View α) (hv : v.Aligned) (r : ℕ) (t : Score α) :
    ((List.range v.nSegments).filter fun g => t ≤ segmentMax v r g).flatMap (fun g =>
      ((List.range v.width).filter fun u => t ≤ v.segment r g u).map fun u =>
        (⟨r, g * v.width + u, v.segment r g u⟩ : Candidate α)) =
    ((List.range v.nCols).filter fun c => t ≤ v.score r c).map fun c => ⟨r, c, v.score r c⟩ := by
  have hmiss : ∀ g, ¬ t ≤ segmentMax v r g →
      ((List.range v.width).filter fun u => t ≤ v.segment r g u) = [] := by
    intro g hg
    rw [List.filter_eq_nil_iff]
    intro u hu hle
    have hmem : v.segment r g u ∈ (List.range v.width).map (v.segment r g) :=
      List.mem_map_of_mem hu
    exact hg ((of_decide_eq_true hle).trans (List.le_max_of_le' negInf hmem le_rfl))
  rw [hv.cols, range_mul, List.filter_flatMap, List.map_flatMap]
  induction List.range v.nSegments with
  | nil => rfl
  | cons g gs ih =>
    have hrow : (((List.range v.width).map fun u => g * v.width + u).filter
          fun c => t ≤ v.score r c).map (fun c => (⟨r, c, v.score r c⟩ : Candidate α)) =
        ((List.range v.width).filter fun u => t ≤ v.segment r g u).map fun u =>
          ⟨r, g * v.width + u, v.segment r g u⟩ := by
      rw [filter_map_score, List.map_map]
      have hfilter : ((List.range v.width).filter fun u => decide (t ≤ v.score r (g * v.width + u))) =
          (List.range v.width).filter fun u => decide (t ≤ v.segment r g u) :=
        List.filter_congr fun u hu => by rw [hv.cell r g u (List.mem_range.mp hu)]
      rw [hfilter]
      apply List.map_congr_left
      intro u hu
      have huw := List.mem_range.mp (List.mem_of_mem_filter hu)
      simp only [Function.comp_apply, hv.cell r g u huw]
    rw [List.flatMap_cons, hrow, ← ih]
    by_cases hg : t ≤ segmentMax v r g
    · rw [List.filter_cons_of_pos (by simpa using hg), List.flatMap_cons]
    · rw [List.filter_cons_of_neg (by simpa using hg), hmiss g hg]
      rfl

theorem flatMap_row {β : Type*} (l : List ℕ) (hl : l.Nodup) (r : ℕ) (f : ℕ → List β) (row : β → ℕ)
    (hf : ∀ q, ∀ b ∈ f q, row b = q) :
    (l.flatMap f).filter (fun b => row b = r) = if r ∈ l then f r else [] := by
  induction l with
  | nil => simp
  | cons q l ih =>
    obtain ⟨hq, hl'⟩ := List.nodup_cons.mp hl
    rw [List.flatMap_cons, List.filter_append, ih hl']
    by_cases h : q = r
    · subst h
      have hall : (f q).filter (fun b => row b = q) = f q :=
        List.filter_eq_self.mpr fun b hb => by simpa using hf q b hb
      rw [hall, if_neg hq, if_pos (List.mem_cons_self ..), List.append_nil]
    · have hnone : (f q).filter (fun b => row b = r) = [] :=
        List.filter_eq_nil_iff.mpr fun b hb => by simpa [hf q b hb] using h
      have hrq : ¬r = q := fun h' => h h'.symm
      rw [hnone, List.nil_append]
      simp only [List.mem_cons, hrq, false_or]

theorem segmentPass_row (v : View α) (hv : v.Aligned) (thresholds : ℕ → Score α) (r : ℕ)
    (hr : r < v.nRows) :
    (segmentPass v thresholds).filter (fun c => c.row = r) =
      ((List.range v.nCols).filter fun c => thresholds r ≤ v.score r c).map fun c =>
        ⟨r, c, v.score r c⟩ := by
  rw [segmentPass]
  simp only [List.flatMap_assoc, List.flatMap_map]
  rw [flatMap_row (List.range v.nRows) List.nodup_range r _ Candidate.row,
    if_pos (List.mem_range.mpr hr)]
  · exact segments_filter v hv r (thresholds r)
  · intro q c hc
    simp only [List.mem_flatMap, List.mem_map] at hc
    obtain ⟨_, _, _, _, rfl⟩ := hc
    rfl

theorem firstSight_row (k : ℕ) (v : View α) (unfilled : List ℕ) (hnd : unfilled.Nodup) (r : ℕ) :
    (firstSight k v unfilled).filter (fun c => c.row = r) =
      if r ∈ unfilled then
        ((List.range v.nCols).filter fun c => localCut k v r ≤ v.score r c).map fun c =>
          ⟨r, c, v.score r c⟩
      else [] := by
  rw [firstSight, flatMap_row unfilled hnd r _ Candidate.row]
  intro q c hc
  obtain ⟨_, _, rfl⟩ := List.mem_map.mp hc
  rfl

/-! ### One row's candidates -/

def rowCut (k : ℕ) (v : View α) (validRows : ℕ) (stale : ℕ → Score α) (r : ℕ) : Score α :=
  if r < validRows then if stale r = floor then localCut k v r else stale r else posInf

def selected (k : ℕ) (v : View α) (validRows : ℕ) (stale : ℕ → Score α) (r : ℕ) : List ℕ :=
  (List.range v.nCols).filter fun c => rowCut k v validRows stale r ≤ v.score r c

theorem candidates_row (k : ℕ) (v : View α) (hv : v.Aligned) (validRows : ℕ)
    (stale : ℕ → Score α) (hfin : ∀ r c, v.score r c < posInf) (r : ℕ) (hr : r < v.nRows) :
    ((candidates k v validRows stale).filter fun c => c.row = r).Perm
      ((selected k v validRows stale r).map fun c => ⟨r, c, v.score r c⟩) := by
  have hnone : ((List.range v.nCols).filter fun c => decide ((posInf : Score α) ≤ v.score r c)) =
      [] :=
    List.filter_eq_nil_iff.mpr fun c _ => by simpa using hfin r c
  have hnd : ((List.range v.nRows).filter fun r =>
      (if r < validRows then stale r else posInf) = floor).Nodup := List.nodup_range.filter _
  refine ((List.mergeSort_perm _ _).filter _).trans (List.Perm.of_eq ?_)
  rw [List.filter_append, segmentPass_row v hv _ r hr, firstSight_row k v _ hnd]
  simp only [List.mem_filter, List.mem_range, hr, true_and, decide_eq_true_eq, selected, rowCut]
  by_cases hvalid : r < validRows
  · simp only [hvalid, if_true]
    by_cases hfloor : stale r = floor
    · simp [hfloor, hnone]
    · simp [hfloor]
  · have hne : (posInf : Score α) ≠ floor := floor_lt_posInf.ne'
    simp [hvalid, hne]

theorem mem_candidates_row (k : ℕ) (v : View α) (validRows : ℕ) (stale : ℕ → Score α)
    (hv : v.Aligned) (hfin : ∀ r c, v.score r c < posInf) {c : Candidate α}
    (hc : c ∈ candidates k v validRows stale) : c.row < v.nRows ∧ c.row < validRows := by
  have hrow : c.row < v.nRows := by
    rw [candidates, List.mem_mergeSort, List.mem_append] at hc
    rcases hc with hc | hc
    · simp only [firstSight, List.mem_flatMap, List.mem_map, List.mem_filter, List.mem_range] at hc
      obtain ⟨r, hr, _, _, rfl⟩ := hc
      exact hr.1
    · simp only [segmentPass, List.mem_flatMap, List.mem_map, List.mem_filter, List.mem_range] at hc
      obtain ⟨_, ⟨r, hr, _, _, rfl⟩, _, _, rfl⟩ := hc
      exact hr
  refine ⟨hrow, ?_⟩
  by_contra hinvalid
  have hmem := (candidates_row k v hv validRows stale hfin c.row hrow).mem_iff.mp
    (List.mem_filter.mpr ⟨hc, by simp⟩)
  obtain ⟨col, hcol, _⟩ := List.mem_map.mp hmem
  rw [selected, List.mem_filter, rowCut, if_neg hinvalid, decide_eq_true_eq] at hcol
  exact absurd hcol.2 (not_le_of_gt (hfin _ _))

theorem candidates_sorted (k : ℕ) (v : View α) (validRows : ℕ) (stale : ℕ → Score α) :
    ((candidates k v validRows stale).map Candidate.row).Pairwise (· ≤ ·) := by
  rw [List.pairwise_map]
  refine (List.pairwise_mergeSort ?_ ?_ _).imp fun h => of_decide_eq_true h
  · intro a b c hab hbc
    simp only [decide_eq_true_eq] at *
    omega
  · intro a b
    simpa using le_total a.row b.row

/-! ### The local cut -/

theorem sorted_count (l : List (Score α)) (i : ℕ) :
    l.length - i ≤ l.countP fun s => partitionAt l i ≤ s := by
  by_cases hi : i < l.length
  · have hlen : (l.mergeSort (· ≤ ·)).length = l.length := List.length_mergeSort l
    have hperm := List.mergeSort_perm l fun a b => decide (a ≤ b)
    have hget : partitionAt l i = (l.mergeSort (· ≤ ·))[i] := by
      rw [partitionAt, List.getElem?_eq_getElem (by omega), Option.getD_some]
    have hall : ∀ s ∈ (l.mergeSort (· ≤ ·)).drop i, partitionAt l i ≤ s := by
      intro s hs
      have hsorted := (pairwise_mergeSort_le l).sublist (List.drop_sublist i _)
      rw [List.drop_eq_getElem_cons (by omega)] at hsorted hs
      rw [hget]
      rcases List.mem_cons.mp hs with rfl | hs
      · exact le_refl _
      · exact (List.pairwise_cons.mp hsorted).1 s hs
    rw [← hperm.countP_eq, ← List.take_append_drop i (l.mergeSort (· ≤ ·)), List.countP_append,
      List.countP_eq_length.mpr fun s hs => decide_eq_true (hall s hs), List.length_drop]
    omega
  · omega

theorem localCut_count (k : ℕ) (v : View α) (r : ℕ) (h : localCut k v r ≠ floor) :
    min k v.nCols ≤ ((List.range v.nCols).filter fun c => localCut k v r ≤ v.score r c).length := by
  have hcut : localCut k v r =
      partitionAt ((List.range v.nCols).map (v.score r)) (v.nCols - min k v.nCols) := by
    rw [localCut] at h ⊢
    rcases max_choice (partitionAt ((List.range v.nCols).map (v.score r))
      (v.nCols - min k v.nCols)) floor with hm | hm
    · exact hm
    · exact absurd hm h
  have hcount := sorted_count ((List.range v.nCols).map (v.score r)) (v.nCols - min k v.nCols)
  rw [← hcut, List.countP_map, List.length_map, List.length_range] at hcount
  rw [← List.countP_eq_length_filter]
  refine le_trans ?_ hcount
  omega

theorem localCut_le (k : ℕ) (v : View α) (r c : ℕ) (hk : v.nCols ≤ k) (hc : c < v.nCols)
    (hs : floor < v.score r c) : localCut k v r ≤ v.score r c := by
  by_cases hfloor : localCut k v r = floor
  · rw [hfloor]
    exact hs.le
  · have hcount := localCut_count k v r hfloor
    rw [min_eq_right hk] at hcount
    have hlen : ((List.range v.nCols).filter fun c => localCut k v r ≤ v.score r c).length =
        (List.range v.nCols).length := by
      refine le_antisymm (List.length_filter_le _ _) ?_
      rw [List.length_range]
      exact hcount
    have hall := List.filter_eq_self.mp
      (List.Sublist.eq_of_length List.filter_sublist hlen) c (List.mem_range.mpr hc)
    exact of_decide_eq_true hall

end AnalyticsEngine.ExactTopK
