import AnalyticsEngine.Activity.Summary

/-!
# The activity summary groups the admitted rows

A bucket holds the total of its key's records (`mem_tally`), and over tables that stay as they are
the records are those of the admitted rows. So the window holds one row a group, with its counts.
-/

namespace AnalyticsEngine.Activity
open Library

/-! ### Totals -/

section
variable {entries : List (BucketKey × ActivityBucket)} {key : BucketKey}

theorem records_total (hone : ∀ entry ∈ entries, entry.2.records = 1) (key : BucketKey) :
    (total entries key).records = (entries.filter fun entry => entry.1 = key).length := by
  induction entries with
  | nil => rfl
  | cons entry rest ih =>
    have hrest := ih fun e he => hone e (List.mem_cons_of_mem _ he)
    have hentry := hone entry List.mem_cons_self
    rw [total_cons, ActivityBucket.records_add, hrest]
    by_cases hkey : entry.1 = key
    · simp [hkey, hentry, Nat.add_comm]
    · simp [hkey]

theorem records_sum (buckets : List ActivityBucket) :
    buckets.sum.records = (buckets.map ActivityBucket.records).sum := by
  induction buckets with
  | nil => rfl
  | cons bucket rest ih =>
    rw [List.sum_cons, ActivityBucket.records_add, ih, List.map_cons, List.sum_cons]

end

/-! ### Groups of rows -/

section
variable {α : Type*} {rows : List α} {record : α → BucketKey × ActivityBucket}

theorem ncard_mem {rows : List α} (hnodup : rows.Nodup) : {r | r ∈ rows}.ncard = rows.length := by
  classical
  rw [← List.toFinset_card_of_nodup hnodup, ← Set.ncard_coe_finset]
  congr 1
  ext r
  simp

theorem ncard_rows (hnodup : rows.Nodup) (p : α → Prop) [DecidablePred p] :
    {r | r ∈ rows ∧ p r}.ncard = (rows.filter p).length := by
  rw [← ncard_mem (hnodup.filter _)]
  congr 1
  ext r
  simp

variable (key : BucketKey)

theorem records_group (hnodup : rows.Nodup) (hone : ∀ r, (record r).2.records = 1) :
    (total (rows.map record) key).records = {r | r ∈ rows ∧ (record r).1 = key}.ncard := by
  have hentries : ∀ entry ∈ rows.map record, entry.2.records = 1 := by
    intro entry hentry
    obtain ⟨r, -, rfl⟩ := List.mem_map.mp hentry
    exact hone r
  rw [records_total hentries, ncard_rows hnodup, List.filter_map, List.length_map]
  rfl

/-- The members of a group's total are those that its rows bring. -/
theorem members_group {members : ActivityBucket → Finset (Option UUID)} (hzero : members 0 = ∅)
    (hadd : ∀ a b, members (a + b) = members a ∪ members b) {member : α → Option UUID}
    (hone : ∀ r, members (record r).2 = {member r}) :
    (members (total (rows.map record) key)).card =
      (member '' {r | r ∈ rows ∧ (record r).1 = key}).ncard := by
  rw [← Set.ncard_coe_finset]
  congr 1
  ext s
  rw [Finset.mem_coe, mem_total hzero hadd]
  constructor
  · intro hs
    obtain ⟨entry, hentry, hkey, hs⟩ := hs
    obtain ⟨r, hr, rfl⟩ := List.mem_map.mp hentry
    rw [hone, Finset.mem_singleton] at hs
    exact ⟨r, ⟨hr, hkey⟩, hs.symm⟩
  · rintro ⟨r, ⟨hr, hkey⟩, rfl⟩
    refine ⟨_, List.mem_map_of_mem hr, hkey, ?_⟩
    rw [hone]
    exact Finset.mem_singleton_self _

theorem subjects_group {subject : α → Option UUID} (hone : ∀ r, (record r).2.subjects = {subject r}) :
    (total (rows.map record) key).subjects.card =
      (subject '' {r | r ∈ rows ∧ (record r).1 = key}).ncard :=
  members_group key ActivityBucket.subjects_zero ActivityBucket.subjects_add hone

theorem candidateSets_group {candidate : α → Option UUID}
    (hone : ∀ r, (record r).2.candidateSets = {candidate r}) :
    (total (rows.map record) key).candidateSets.card =
      (candidate '' {r | r ∈ rows ∧ (record r).1 = key}).ncard :=
  members_group key ActivityBucket.candidateSets_zero ActivityBucket.candidateSets_add hone

end

/-! ### Storing -/

section
variable {table after : SummaryTable} {rows : List SummaryRow} {since stop : ℤ}

theorem insert_rows {row : SummaryRow} (h : table.insert row = .ok after) :
    after.rows = table.rows ++ [row] := by
  unfold SummaryTable.insert at h
  split_ifs at h
  rw [← Except.ok.inj h]

theorem insert_ok {row : SummaryRow} (hnamed : row.dimensionKey ≠ none)
    (hkey : row.primaryKey ∉ table.rows.map SummaryRow.primaryKey) :
    ∃ after, table.insert row = .ok after := by
  unfold SummaryTable.insert
  rw [dif_neg hnamed, dif_neg hkey]
  exact ⟨_, rfl⟩

theorem insertRows_rows (h : rows.foldlM SummaryTable.insert table = .ok after) :
    after.rows = table.rows ++ rows := by
  induction rows generalizing table with
  | nil =>
    have hsame : table = after := Except.ok.inj h
    rw [← hsame, List.append_nil]
  | cons row rest ih =>
    rw [List.foldlM_cons] at h
    cases hinsert : table.insert row with
    | error e =>
      rw [hinsert] at h
      cases h
    | ok next =>
      rw [hinsert] at h
      rw [ih h, insert_rows hinsert, List.append_assoc, List.singleton_append]

theorem insertRows_ok (hnamed : ∀ row ∈ rows, row.dimensionKey ≠ none)
    (hkeys : ((table.rows ++ rows).map SummaryRow.primaryKey).Nodup) :
    ∃ after, rows.foldlM SummaryTable.insert table = .ok after := by
  have hinsert : ∀ table : SummaryTable, ∀ row ∈ rows,
      row.primaryKey ∉ table.rows.map SummaryRow.primaryKey →
        ∃ after, table.insert row = pure after ∧ after.rows = table.rows ++ [row] := by
    intro table row hrow hnew
    obtain ⟨after, hafter⟩ := insert_ok (hnamed row hrow) hnew
    exact ⟨after, hafter, insert_rows hafter⟩
  obtain ⟨after, hafter, -⟩ := foldlM_insert hinsert hkeys
  exact ⟨after, hafter⟩

variable (hrows : ∀ row ∈ rows, inWindow since stop row = true)
  (hstore : storeActivitySummary table since stop rows = .ok after)
include hrows hstore

theorem store_window : (after.rows.filter fun row => inWindow since stop row) = rows := by
  have hafter : after.rows = (table.delete since stop).rows ++ rows := insertRows_rows hstore
  have hgone : ((table.delete since stop).rows.filter fun row => inWindow since stop row) = [] := by
    refine List.filter_eq_nil_iff.mpr fun row hrow => ?_
    have hout := (List.mem_filter.mp hrow).2
    simpa using hout
  rw [hafter, List.filter_append, hgone, List.nil_append]
  exact List.filter_eq_self.mpr hrows

theorem store_delete : after.delete since stop = table.delete since stop := by
  have hafter : after.rows = (table.delete since stop).rows ++ rows := insertRows_rows hstore
  have hgone : (rows.filter fun row => !inWindow since stop row) = [] := by
    refine List.filter_eq_nil_iff.mpr fun row hrow => ?_
    simp [hrows row hrow]
  ext1
  show (after.rows.filter fun row => !inWindow since stop row) = _
  rw [hafter, List.filter_append, hgone, List.append_nil]
  unfold SummaryTable.delete
  rw [List.filter_filter]
  simp only [Bool.and_self]

theorem store_again : storeActivitySummary after since stop rows = .ok after := by
  unfold storeActivitySummary
  rw [store_delete hrows hstore]
  exact hstore

theorem store_outside {row : SummaryRow} (hout : inWindow since stop row = false) :
    row ∈ after.rows ↔ row ∈ table.rows := by
  have hafter : after.rows = (table.delete since stop).rows ++ rows := insertRows_rows hstore
  have hnot : row ∉ rows := fun hrow => by simp [hrows row hrow] at hout
  rw [hafter, List.mem_append, or_iff_left hnot]
  unfold SummaryTable.delete
  rw [List.mem_filter]
  simp [hout]

end

theorem activitySummaryRows_perm {buckets : List (BucketKey × ActivityBucket)}
    {rows : List SummaryRow} (h : activitySummaryRows buckets = .ok rows) :
    rows.Perm (buckets.map summaryRow) := by
  unfold activitySummaryRows at h
  split_ifs at h
  rw [← Except.ok.inj h]
  exact (List.perm_insertionSort _ _).map _

end AnalyticsEngine.Activity
