import AnalyticsEngine.Library.Upsert
import Mathlib.Data.Int.Notation
import Mathlib.Data.List.Perm.Subperm

/-!
# Monthly anniversaries (insights/computations.py, `compute_and_store_anniversaries`)

The rows of a response whose anniversary is a milestone are written one by one; a master's second
row updates its first one. The update leaves `release_year` out.
-/

namespace AnalyticsEngine.Computations
open Library

/- The values of a response row, `none` where the expression raises: `row["master_id"]`,
`row["title"]`, `row.get("artist_name")` and `int(row["release_year"])`. -/
structure AnniversaryItem where
  masterId : Option String
  title : Option (Option String)
  artistName : Option String
  releaseYear : Option ℤ

/- A row of insights.monthly_anniversaries. -/
structure AnniversaryRow (τ : Type*) where
  masterId : String
  title : Option String
  artistName : Option String
  releaseYear : ℤ
  anniversary : ℤ
  computedMonth : ℤ
  computedYear : ℤ
  computedAt : τ

variable {τ : Type*}

def AnniversaryRow.conflictKey (row : AnniversaryRow τ) : String × ℤ × ℤ :=
  (row.masterId, row.computedYear, row.computedMonth)

/- `DO UPDATE SET title, artist_name, anniversary, computed_at`. -/
def conflictUpdate (old excluded : AnniversaryRow τ) : AnniversaryRow τ :=
  { old with
    title := excluded.title
    artistName := excluded.artistName
    anniversary := excluded.anniversary
    computedAt := excluded.computedAt }

theorem conflictUpdate_key (old excluded : AnniversaryRow τ) :
    (conflictUpdate old excluded).conflictKey = old.conflictKey := rfl

structure AnniversaryTable (τ : Type*) where
  rows : List (AnniversaryRow τ)
  distinct : (rows.map AnniversaryRow.conflictKey).Nodup

def inMonth (year month : ℤ) (row : AnniversaryRow τ) : Bool :=
  row.computedYear = year ∧ row.computedMonth = month

def AnniversaryTable.month (table : AnniversaryTable τ) (year month : ℤ) :
    List (AnniversaryRow τ) :=
  table.rows.filter (inMonth year month)

def AnniversaryTable.delete (table : AnniversaryTable τ) (year month : ℤ) :
    AnniversaryTable τ where
  rows := table.rows.filter fun row => !inMonth year month row
  distinct := table.distinct.sublist (List.filter_sublist.map _)

def AnniversaryTable.insert (table : AnniversaryTable τ) (row : AnniversaryRow τ) :
    AnniversaryTable τ where
  rows := upsert AnniversaryRow.conflictKey conflictUpdate row table.rows
  distinct := nodup_upsert conflictUpdate_key table.distinct row

/-! ### The computation -/

def defaultMilestones : List ℤ := [25, 30, 40, 50, 75, 100]

/- `given or now`. -/
def givenOr (given : Option ℤ) (now : ℤ) : ℤ :=
  match given with
  | none => now
  | some n => if n = 0 then now else n

/- What one response row comes to: an exception, no write, or the row that is written. -/
def anniversaryRow (year month : ℤ) (milestones : List ℤ) (now : τ) (item : AnniversaryItem) :
    Option (Option (AnniversaryRow τ)) :=
  match item.releaseYear with
  | none => none
  | some releaseYear =>
    let anniversary := year - releaseYear
    if anniversary ∉ milestones then some none
    else
      match item.masterId, item.title with
      | some masterId, some title =>
        some (some ⟨masterId, title, item.artistName, releaseYear, anniversary, month, year, now⟩)
      | _, _ => none

/-- The loop over the response: the table and `rows_written`. -/
def storeAnniversaries (year month : ℤ) (milestones : List ℤ) (now : τ) :
    List AnniversaryItem → AnniversaryTable τ → ℕ → Option (AnniversaryTable τ × ℕ)
  | [], table, rowsWritten => some (table, rowsWritten)
  | item :: later, table, rowsWritten =>
    match anniversaryRow year month milestones now item with
    | none => none
    | some none => storeAnniversaries year month milestones now later table rowsWritten
    | some (some row) =>
      storeAnniversaries year month milestones now later (table.insert row) (rowsWritten + 1)

/- `none` is a run that raises; its transaction leaves the table as it was. -/
def computeAndStoreAnniversaries (nowYear nowMonth : ℤ) (now : τ)
    (currentYear currentMonth : Option ℤ) (milestoneYears : Option (List ℤ))
    (results : List AnniversaryItem) (table : AnniversaryTable τ) :
    Option (AnniversaryTable τ × ℕ) :=
  let year := givenOr currentYear nowYear
  let month := givenOr currentMonth nowMonth
  let milestones := milestoneYears.getD defaultMilestones
  match results with
  | [] => some (table, 0)
  | item :: later =>
    storeAnniversaries year month milestones now (item :: later) (table.delete year month) 0

/-! ### What is written -/

section
variable {year month : ℤ} {milestones : List ℤ} {now : τ}

/- The master of a response row that qualifies. -/
def qualifyingMaster (year : ℤ) (milestones : List ℤ) (item : AnniversaryItem) : Option String :=
  match item.releaseYear with
  | none => none
  | some releaseYear => if year - releaseYear ∈ milestones then item.masterId else none

def qualifyingMasters (year : ℤ) (milestones : List ℤ) (items : List AnniversaryItem) :
    List String :=
  items.filterMap (qualifyingMaster year milestones)

structure Written (year month : ℤ) (milestones : List ℤ) (row : AnniversaryRow τ) : Prop where
  computedYear : row.computedYear = year
  computedMonth : row.computedMonth = month
  anniversary : row.anniversary = year - row.releaseYear
  milestone : row.anniversary ∈ milestones

theorem anniversaryRow_skipped {item : AnniversaryItem}
    (h : anniversaryRow year month milestones now item = some none) :
    qualifyingMaster year milestones item = none := by
  unfold anniversaryRow at h
  unfold qualifyingMaster
  cases hyear : item.releaseYear with
  | none => rfl
  | some releaseYear =>
    simp only [hyear] at h
    split_ifs at h with hmilestone
    · split at h
      · cases h
      · cases h
    · exact if_neg hmilestone

theorem anniversaryRow_written {item : AnniversaryItem} {row : AnniversaryRow τ}
    (h : anniversaryRow year month milestones now item = some (some row)) :
    qualifyingMaster year milestones item = some row.masterId ∧
      Written year month milestones row := by
  unfold anniversaryRow at h
  unfold qualifyingMaster
  cases hyear : item.releaseYear with
  | none =>
    simp only [hyear] at h
    cases h
  | some releaseYear =>
    simp only [hyear] at h
    split_ifs at h with hmilestone
    · split at h
      next masterId title hmaster _ =>
        cases h
        refine ⟨?_, rfl, rfl, rfl, hmilestone⟩
        rw [hmaster]
        exact if_pos hmilestone
      next => cases h
    · cases h

/-- A loop that ends upserts the rows of the qualifying response rows, in their order. -/
theorem storeAnniversaries_rows {items : List AnniversaryItem} {table after : AnniversaryTable τ}
    {before count : ℕ}
    (h : storeAnniversaries year month milestones now items table before = some (after, count)) :
    ∃ rows : List (AnniversaryRow τ),
      rows.map AnniversaryRow.masterId = qualifyingMasters year milestones items ∧
      (∀ row ∈ rows, Written year month milestones row) ∧
      after.rows = upsertAll AnniversaryRow.conflictKey conflictUpdate rows table.rows ∧
      count = before + rows.length := by
  induction items generalizing table before with
  | nil =>
    unfold storeAnniversaries at h
    cases h
    exact ⟨[], rfl, nofun, rfl, rfl⟩
  | cons item later ih =>
    unfold storeAnniversaries at h
    unfold qualifyingMasters
    cases hitem : anniversaryRow year month milestones now item with
    | none =>
      rw [hitem] at h
      cases h
    | some written =>
      cases written with
      | none =>
        rw [hitem] at h
        rw [List.filterMap_cons_none (anniversaryRow_skipped hitem)]
        exact ih h
      | some row =>
        rw [hitem] at h
        obtain ⟨hmaster, hwritten⟩ := anniversaryRow_written hitem
        obtain ⟨rows, hrows, hall, hafter, hcount⟩ := ih h
        rw [List.filterMap_cons_some hmaster]
        refine ⟨row :: rows, congrArg (row.masterId :: ·) hrows, ?_, hafter, ?_⟩
        · intro r hr
          rcases List.mem_cons.mp hr with rfl | hr
          · exact hwritten
          · exact hall r hr
        · rw [hcount, List.length_cons]
          omega

/-! ### The rows of the month -/

section
variable {table after : AnniversaryTable τ} {rows : List (AnniversaryRow τ)}

theorem inMonth_iff {row : AnniversaryRow τ} : inMonth year month row = true ↔
    row.computedYear = year ∧ row.computedMonth = month := by
  unfold inMonth
  exact decide_eq_true_iff

theorem mem_month {row : AnniversaryRow τ} : row ∈ after.month year month ↔
    row ∈ after.rows ∧ row.computedYear = year ∧ row.computedMonth = month := by
  unfold AnniversaryTable.month
  rw [List.mem_filter, inMonth_iff]

theorem month_masters_nodup : ((after.month year month).map AnniversaryRow.masterId).Nodup := by
  have hkeys : ((after.month year month).map AnniversaryRow.conflictKey).Nodup :=
    after.distinct.sublist (List.filter_sublist.map _)
  have hpair : (after.month year month).map AnniversaryRow.conflictKey =
      ((after.month year month).map AnniversaryRow.masterId).map fun m => (m, year, month) := by
    rw [List.map_map]
    refine List.map_congr_left fun row hrow => ?_
    obtain ⟨-, hyear, hmonth⟩ := mem_month.mp hrow
    unfold AnniversaryRow.conflictKey
    rw [hyear, hmonth]
    rfl
  rw [hpair] at hkeys
  exact hkeys.of_map _

variable (hwritten : ∀ row ∈ rows, Written year month milestones row)
  (hafter : after.rows =
    upsertAll AnniversaryRow.conflictKey conflictUpdate rows (table.delete year month).rows)
include hwritten hafter

/-- The row of a master: its first written row, updated by the later ones. -/
theorem mem_month_iff {row : AnniversaryRow τ} : row ∈ after.month year month ↔
    ∃ first rest, (rows.filter fun r => r.masterId = row.masterId) = first :: rest ∧
      row = rest.foldl conflictUpdate first := by
  have hgone : ∀ m : String, (m, year, month) ∉
      (table.delete year month).rows.map AnniversaryRow.conflictKey := by
    intro m hkey
    obtain ⟨old, hold, hsame⟩ := List.mem_map.mp hkey
    have hout := (List.mem_filter.mp hold).2
    have hin : inMonth year month old = true :=
      inMonth_iff.mpr ⟨congrArg (·.2.1) hsame, congrArg (·.2.2) hsame⟩
    simp [hin] at hout
  have hfilter : ∀ m : String, (rows.filter fun r => r.masterId = m) =
      rows.filter fun r => r.conflictKey = (m, year, month) := by
    intro m
    refine List.filter_congr fun r hr => ?_
    unfold AnniversaryRow.conflictKey
    simp [(hwritten r hr).computedYear, (hwritten r hr).computedMonth]
  rw [hfilter, ← rowOf_upsertAll_new conflictUpdate_key (hgone _), ← hafter]
  constructor
  · intro hrow
    obtain ⟨hstored, hyear, hmonth⟩ := mem_month.mp hrow
    have hfound := rowOf_of_mem after.distinct hstored
    unfold AnniversaryRow.conflictKey at hfound
    rw [hyear, hmonth] at hfound
    exact hfound
  · intro hfound
    have hkey : row.conflictKey = (row.masterId, year, month) := rowOf_key hfound
    exact mem_month.mpr ⟨rowOf_mem hfound, congrArg (·.2.1) hkey, congrArg (·.2.2) hkey⟩

theorem mem_month_masters {m : String} :
    m ∈ (after.month year month).map AnniversaryRow.masterId ↔
      m ∈ rows.map AnniversaryRow.masterId := by
  constructor
  · intro hm
    obtain ⟨row, hrow, rfl⟩ := List.mem_map.mp hm
    obtain ⟨first, rest, hsplit, -⟩ := (mem_month_iff hwritten hafter).mp hrow
    have hfirst : first ∈ rows.filter fun r => r.masterId = row.masterId := by
      rw [hsplit]
      exact List.mem_cons_self
    obtain ⟨hmem, hmaster⟩ := List.mem_filter.mp hfirst
    exact List.mem_map.mpr ⟨first, hmem, of_decide_eq_true hmaster⟩
  · intro hm
    obtain ⟨r, hr, rfl⟩ := List.mem_map.mp hm
    cases hsplit : rows.filter fun s => s.masterId = r.masterId with
    | nil => exact absurd (decide_eq_true rfl) (List.filter_eq_nil_iff.mp hsplit r hr)
    | cons first rest =>
      have hfirst : first ∈ rows.filter fun s => s.masterId = r.masterId := by
        rw [hsplit]
        exact List.mem_cons_self
      have hmaster : (rest.foldl conflictUpdate first).masterId = r.masterId :=
        (congrArg Prod.fst (key_foldl_merge conflictUpdate_key rest first)).trans
          (of_decide_eq_true (List.mem_filter.mp hfirst).2)
      refine List.mem_map.mpr ⟨rest.foldl conflictUpdate first, ?_, hmaster⟩
      exact (mem_month_iff hwritten hafter).mpr ⟨first, rest, hmaster.symm ▸ hsplit, rfl⟩

/-- The count is the number of rows exactly if no master was written twice. -/
theorem month_length_iff : rows.length = (after.month year month).length ↔
    (rows.map AnniversaryRow.masterId).Nodup := by
  have hnodup : ((after.month year month).map AnniversaryRow.masterId).Nodup := month_masters_nodup
  constructor
  · intro hlength
    have hsub : (after.month year month).map AnniversaryRow.masterId ⊆
        rows.map AnniversaryRow.masterId :=
      fun m hm => (mem_month_masters hwritten hafter).mp hm
    have hperm := (hnodup.subperm hsub).perm_of_length_le (by simp [hlength])
    exact hperm.nodup_iff.mp hnodup
  · intro hmasters
    have hperm := (List.perm_ext_iff_of_nodup hmasters hnodup).mpr fun m =>
      (mem_month_masters hwritten hafter).symm
    simpa using hperm.length_eq

theorem month_written (hmasters : (rows.map AnniversaryRow.masterId).Nodup)
    {row : AnniversaryRow τ} (hrow : row ∈ after.month year month) :
    Written year month milestones row := by
  obtain ⟨first, rest, hsplit, rfl⟩ := (mem_month_iff hwritten hafter).mp hrow
  have hfirst := List.mem_filter.mp (hsplit ▸ List.mem_cons_self :
    first ∈ rows.filter fun r => r.masterId = (rest.foldl conflictUpdate first).masterId)
  cases rest with
  | nil => exact hwritten first hfirst.1
  | cons second rest =>
    have hsecond := List.mem_filter.mp (hsplit ▸ List.mem_cons_of_mem _ List.mem_cons_self :
      second ∈ rows.filter fun r =>
        r.masterId = ((second :: rest).foldl conflictUpdate first).masterId)
    have hpair : ((first :: second :: rest).map AnniversaryRow.masterId).Nodup := by
      rw [← hsplit]
      exact hmasters.sublist (List.filter_sublist.map _)
    refine absurd ?_ (List.nodup_cons.mp hpair).1
    rw [of_decide_eq_true hfirst.2, ← of_decide_eq_true hsecond.2]
    exact List.mem_cons_self

end

/-! ### Self-consistency -/

/-- One row a qualifying master, whose columns agree, and a count of these rows. -/
structure SelfConsistent (year month : ℤ) (milestones : List ℤ) (items : List AnniversaryItem)
    (after : AnniversaryTable τ) (count : ℕ) : Prop where
  masters : ∀ m, m ∈ (after.month year month).map AnniversaryRow.masterId ↔
    m ∈ qualifyingMasters year milestones items
  once : ((after.month year month).map AnniversaryRow.masterId).Nodup
  columns : ∀ row ∈ after.month year month,
    row.anniversary = row.computedYear - row.releaseYear ∧ row.anniversary ∈ milestones
  count : count = (after.month year month).length

/-- A successful run leaves the month self-consistent exactly if no master qualifies twice. -/
theorem anniversaries_consistent (nowYear nowMonth : ℤ) (now : τ)
    (currentYear currentMonth : Option ℤ) (milestoneYears : Option (List ℤ))
    (item : AnniversaryItem) (later : List AnniversaryItem) (before after : AnniversaryTable τ)
    (count : ℕ)
    (h : computeAndStoreAnniversaries nowYear nowMonth now currentYear currentMonth milestoneYears
      (item :: later) before = some (after, count)) :
    SelfConsistent (givenOr currentYear nowYear) (givenOr currentMonth nowMonth)
        (milestoneYears.getD defaultMilestones) (item :: later) after count ↔
      (qualifyingMasters (givenOr currentYear nowYear) (milestoneYears.getD defaultMilestones)
        (item :: later)).Nodup := by
  obtain ⟨rows, hrows, hwritten, hafter, hcount⟩ := storeAnniversaries_rows h
  rw [Nat.zero_add] at hcount
  rw [← hrows]
  constructor
  · intro hconsistent
    exact (month_length_iff hwritten hafter).mp (hcount.symm.trans hconsistent.count)
  · intro hmasters
    refine ⟨?_, month_masters_nodup, ?_, ?_⟩
    · intro m
      rw [← hrows]
      exact mem_month_masters hwritten hafter
    · intro row hrow
      have hrow := month_written hwritten hafter hmasters hrow
      rw [hrow.computedYear]
      exact ⟨hrow.anniversary, hrow.milestone⟩
    · exact hcount.trans ((month_length_iff hwritten hafter).mpr hmasters)

end

/-! ### A reissued master -/

def reissue : AnniversaryItem := ⟨some "m1", some (some "OK Computer"), some "Radiohead", some 1997⟩

def earlier : AnniversaryItem := ⟨some "m1", some (some "OK Computer"), some "Radiohead", some 1992⟩

def otherMaster : AnniversaryItem := ⟨some "m2", some (some "Selected"), none, some 1982⟩

/- Its 23rd anniversary in 2022 is no milestone. -/
def offYear : AnniversaryItem := ⟨some "m3", some none, none, some 1999⟩

def noAnniversaries : AnniversaryTable ℕ := ⟨[], List.nodup_nil⟩

/- The table after an earlier run of the same month. -/
def earlierRun : AnniversaryTable ℕ where
  rows := [⟨"m1", none, none, 1992, 30, 6, 2022, 0⟩, ⟨"m1", none, none, 1992, 29, 6, 2021, 0⟩]
  distinct := by decide

theorem anniversaries_consistent_once : ∃ after,
    computeAndStoreAnniversaries 2022 6 1 none none none [reissue, offYear, otherMaster] earlierRun =
        some (after, 2) ∧
      (after.month 2022 6).map (fun row => (row.masterId, row.releaseYear, row.anniversary)) =
        [("m1", 1997, 25), ("m2", 1982, 40)] ∧
      SelfConsistent 2022 6 defaultMilestones [reissue, offYear, otherMaster] after 2 :=
  ⟨_, rfl, by decide, (anniversaries_consistent 2022 6 1 none none none reissue
    [offYear, otherMaster] earlierRun _ _ rfl).mpr (by decide)⟩

/-- The row of 1997 is told to be 30 years old, and one row is counted twice. -/
theorem anniversaries_inconsistent : ∃ after,
    computeAndStoreAnniversaries 2022 6 0 none none none [reissue, earlier] noAnniversaries =
        some (after, 2) ∧
      (after.month 2022 6).map (fun row => (row.masterId, row.releaseYear, row.anniversary)) =
        [("m1", 1997, 30)] ∧
      ¬SelfConsistent 2022 6 defaultMilestones [reissue, earlier] after 2 := by
  refine ⟨_, rfl, by decide, fun hconsistent => ?_⟩
  exact absurd hconsistent.count (by decide)

end AnalyticsEngine.Computations
