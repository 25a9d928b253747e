import AnalyticsEngine.Activity.Monotone
import AnalyticsEngine.Library.Counter
import AnalyticsEngine.Library.Upsert
import Mathlib.Data.Set.Card
import Mathlib.Data.String.Basic
import Mathlib.Order.WithBot

/-!
# The activity summary of insights/computations.py

A run counts what the two consent-filtered reads yield by UTC day, dimension and key, and replaces
the rows of its window. Dates are day numbers from 1970-01-01. The table's constraints are those
of the statement in tests/test_activity_summary.py; its `computed_at` is left out.
-/

namespace AnalyticsEngine.Activity
open Library

def productAnalytics : String := "product_analytics"

def eventTypeDimension : String := "event_type"

def policyIdDimension : String := "policy_id"

def defaultBatchSize : ℕ := 1000

inductive SummaryError where
  | valueError (message : String)
  | overflowError
  | typeError
  | readError (e : ReadError)
  | notNullViolation
  | uniqueViolation

/-! ### The window -/

def dayMicros : ℤ := 86400000000

/-- `astimezone(UTC).date()`. -/
def utcDate (instant : ℤ) : ℤ := instant / dayMicros

/- The days of `datetime.min` and `datetime.max`. -/
def minDate : ℤ := -719162

def maxDate : ℤ := 2932896

def utcMidnight (date : ℤ) : Datetime := ⟨date * dayMicros, some 0, date * dayMicros⟩

def activitySummaryWindow (days : ℤ) (now : Datetime) :
    Except SummaryError (Datetime × Datetime) :=
  if days < 1 then .error (.valueError ("days must be positive, got " ++ toString days))
  else
    let untilDate := utcDate now.instant + 1
    if maxDate < untilDate ∨ untilDate - days < minDate then .error .overflowError
    else .ok (utcMidnight (untilDate - days), utcMidnight untilDate)

/-! ### Buckets -/

@[ext]
structure ActivityBucket where
  records : ℕ
  subjects : Finset (Option UUID)
  candidateSets : Finset (Option UUID)

instance : Zero ActivityBucket := ⟨0, ∅, ∅⟩

instance : Add ActivityBucket where
  add a b := ⟨a.records + b.records, a.subjects ∪ b.subjects, a.candidateSets ∪ b.candidateSets⟩

instance : AddCommMonoid ActivityBucket where
  nsmul := nsmulRec
  add_assoc a b c := ActivityBucket.ext (Nat.add_assoc _ _ _) (Finset.union_assoc _ _ _)
    (Finset.union_assoc _ _ _)
  zero_add a := ActivityBucket.ext (Nat.zero_add _) (Finset.empty_union _) (Finset.empty_union _)
  add_zero a := ActivityBucket.ext (Nat.add_zero _) (Finset.union_empty _) (Finset.union_empty _)
  add_comm a b := ActivityBucket.ext (Nat.add_comm _ _) (Finset.union_comm _ _)
    (Finset.union_comm _ _)

@[simp] theorem ActivityBucket.records_zero : (0 : ActivityBucket).records = 0 := rfl

@[simp] theorem ActivityBucket.subjects_zero : (0 : ActivityBucket).subjects = ∅ := rfl

@[simp] theorem ActivityBucket.candidateSets_zero : (0 : ActivityBucket).candidateSets = ∅ := rfl

@[simp] theorem ActivityBucket.records_add (a b : ActivityBucket) :
    (a + b).records = a.records + b.records := rfl

@[simp] theorem ActivityBucket.subjects_add (a b : ActivityBucket) :
    (a + b).subjects = a.subjects ∪ b.subjects := rfl

@[simp] theorem ActivityBucket.candidateSets_add (a b : ActivityBucket) :
    (a + b).candidateSets = a.candidateSets ∪ b.candidateSets := rfl

/-- `(day, dimension, key)`; a null key is `None`. -/
abbrev BucketKey := ℤ × String × Option String

section
variable {φ : Type*}

def Cell.toUUID : Cell φ → Option UUID
  | .uuid u => some u
  | _ => none

def Cell.toText : Cell φ → Option String
  | .text s => some s
  | _ => none

def Cell.toDate : Cell φ → ℤ
  | .timestamp t => utcDate t
  | _ => 0

/- What an event adds, and to which bucket. -/
def eventRecord (event : Event φ) : BucketKey × ActivityBucket :=
  ((event.occurredAt.toDate, eventTypeDimension, event.eventType.toText),
    ⟨1, {event.subjectId.toUUID}, ∅⟩)

def impressionRecord (impression : Impression φ) : BucketKey × ActivityBucket :=
  ((impression.occurredAt.toDate, policyIdDimension, impression.policyId.toText),
    ⟨1, {impression.subjectId.toUUID}, {impression.candidateSetId.toUUID}⟩)

def activityBuckets (events : List (Event φ)) (impressions : List (Impression φ)) :
    List (BucketKey × ActivityBucket) :=
  tally (impressions.map impressionRecord) (tally (events.map eventRecord) [])

/-! ### The table -/

structure SummaryRow where
  summaryDate : ℤ
  dimension : String
  dimensionKey : Option String
  recordCount : ℕ
  subjectCount : ℕ
  candidateSetCount : Option ℕ

def SummaryRow.primaryKey (row : SummaryRow) : BucketKey :=
  (row.summaryDate, row.dimension, row.dimensionKey)

@[ext]
structure SummaryTable where
  rows : List SummaryRow
  distinct : (rows.map SummaryRow.primaryKey).Nodup
  named : ∀ row ∈ rows, row.dimensionKey ≠ none

def inWindow (since stop : ℤ) (row : SummaryRow) : Bool :=
  since ≤ row.summaryDate ∧ row.summaryDate < stop

def SummaryTable.delete (table : SummaryTable) (since stop : ℤ) : SummaryTable where
  rows := table.rows.filter fun row => !inWindow since stop row
  distinct := table.distinct.sublist (List.filter_sublist.map _)
  named row hrow := table.named row (List.mem_of_mem_filter hrow)

def SummaryTable.insert (table : SummaryTable) (row : SummaryRow) :
    Except SummaryError SummaryTable :=
  if hnamed : row.dimensionKey = none then .error .notNullViolation
  else if hkey : row.primaryKey ∈ table.rows.map SummaryRow.primaryKey then .error .uniqueViolation
  else .ok {
    rows := table.rows ++ [row]
    distinct := by
      rw [List.map_append, List.map_singleton]
      exact List.nodup_append_comm.mp (List.nodup_cons.mpr ⟨hkey, table.distinct⟩)
    named := by
      intro r hr
      rcases List.mem_append.mp hr with hr | hr
      · exact table.named r hr
      · rw [List.mem_singleton.mp hr]
        exact hnamed }

/-- `_store_activity_summary`; its transaction leaves the table as it was where a row fails. -/
def storeActivitySummary (table : SummaryTable) (since stop : ℤ) (rows : List SummaryRow) :
    Except SummaryError SummaryTable :=
  rows.foldlM SummaryTable.insert (table.delete since stop)

/-! ### The computation -/

/- Whether a comparison of the two keys comes to `None` against a string. -/
def unorderable (a b : BucketKey) : Bool :=
  a.1 = b.1 ∧ a.2.1 = b.2.1 ∧ a.2.2 = none ∧ b.2.2 ≠ none

/- Where the place of `None` is asked for, `sorted` has raised. -/
def bucketOrder (key : BucketKey) : ℤ ×ₗ String ×ₗ WithBot String :=
  toLex (key.1, toLex (key.2.1, key.2.2))

def summaryRow (entry : BucketKey × ActivityBucket) : SummaryRow where
  summaryDate := entry.1.1
  dimension := entry.1.2.1
  dimensionKey := entry.1.2.2
  recordCount := entry.2.records
  subjectCount := entry.2.subjects.card
  candidateSetCount :=
    if entry.1.2.1 = policyIdDimension then some entry.2.candidateSets.card else none

def activitySummaryRows (buckets : List (BucketKey × ActivityBucket)) :
    Except SummaryError (List SummaryRow) :=
  if buckets.any fun a => buckets.any fun b => unorderable a.1 b.1 then .error .typeError
  else .ok ((buckets.insertionSort fun a b => bucketOrder a.1 ≤ bucketOrder b.1).map summaryRow)

/- What follows the two reads: the new table and the number of rows written. -/
def summarise (events : List (Event φ)) (impressions : List (Impression φ)) (since stop : ℤ)
    (table : SummaryTable) : Except SummaryError (SummaryTable × ℕ) :=
  match activitySummaryRows (activityBuckets events impressions) with
  | .error e => .error e
  | .ok rows => (storeActivitySummary table since stop rows).map fun after => (after, rows.length)

def summaryRequest (since stop : Datetime) : ReadRequest where
  since := since
  stop := stop
  purposes := [productAnalytics]
  listed := none
  subjects := none
  batchSize := defaultBatchSize

/-- `compute_and_store_activity_summary`, at the clock `now`. -/
def computeAndStoreActivitySummary [Zero φ] [DecidableEq φ] (published : List String)
    (grants : GrantTables) (database : Database φ) (days : ℤ) (now : Datetime)
    (table : SummaryTable) (fuel : ℕ) : Option (Except SummaryError (SummaryTable × ℕ)) :=
  match activitySummaryWindow days now with
  | .error e => some (.error e)
  | .ok (since, stop) =>
    match readEvents published grants (summaryRequest since stop) (fun _ => database) fuel with
    | .error e => some (.error (.readError e))
    | .ok none => none
    | .ok (some events) =>
      match readImpressions published grants (summaryRequest since stop) (fun _ => database)
        fuel with
      | .error e => some (.error (.readError e))
      | .ok none => none
      | .ok (some impressions) =>
        some (summarise events.flatten impressions.flatten (utcDate since.instant)
          (utcDate stop.instant) table)

end

end AnalyticsEngine.Activity
