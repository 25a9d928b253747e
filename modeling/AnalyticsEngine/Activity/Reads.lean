import AnalyticsEngine.Activity.Consent
import AnalyticsEngine.Library.Json
import AnalyticsEngine.Library.KeysetPaging
import Mathlib.Data.Prod.Lex
import Mathlib.Order.Interval.Finset.Defs

/-!
# read_events and read_impressions of insights/activity.py

Both tables go through `_keyset_pages`: a row is a tuple of cells in the order of its table's
column list, and the next page resumes behind the two cells that `_cursor_key_of` picks. The
statements are answered from the table as each of them sees it, while other sessions insert and
delete rows.
-/

namespace AnalyticsEngine.Activity
open Library

inductive Column where
  | eventId | eventType | schemaVersion | subjectId | sessionId | occurredAt | recordedAt
  | producer | consentPurposes | modelVersion | featureVersion | idempotencyKey | payload
  | impressionId | surface | policyId | candidateSetId | position | itemId | score | propensity
  | requestId
  deriving DecidableEq

inductive Cell (φ : Type*) where
  | null
  | uuid (u : UUID)
  | text (s : String)
  | int (n : ℤ)
  | float (x : φ)
  | timestamp (t : ℤ)
  | texts (items : List String)
  | json (value : Json φ)

def eventColumns : List Column :=
  [.eventId, .eventType, .schemaVersion, .subjectId, .sessionId, .occurredAt, .recordedAt,
    .producer, .consentPurposes, .modelVersion, .featureVersion, .idempotencyKey, .payload]

def impressionColumns : List Column :=
  [.impressionId, .subjectId, .surface, .policyId, .candidateSetId, .position, .itemId, .score,
    .propensity, .requestId, .occurredAt, .recordedAt, .consentPurposes]

section
variable {φ : Type*}

/-! ### Tables -/

/- A stored row: its primary key, which is never null, and its other columns. -/
structure Row (φ : Type*) where
  occurredAt : ℤ
  key : UUID
  other : Column → Cell φ

def Row.column (r : Row φ) (keyColumn c : Column) : Cell φ :=
  if c = .occurredAt then .timestamp r.occurredAt
  else if c = keyColumn then .uuid r.key
  else r.other c

/- `(occurred_at, key)`, in the order of PostgreSQL's row comparison. -/
def rowKey (r : Row φ) : ℤ ×ₗ UUID := toLex (r.occurredAt, r.key)

structure Table (φ : Type*) where
  rows : List (Row φ)
  distinct : (rows.map rowKey).Nodup

structure Database (φ : Type*) where
  events : Table φ
  impressions : Table φ

/-! ### Statements -/

/-- A conjunct of a page statement with its parameters bound. -/
inductive Conjunct (φ : Type*) where
  | window (since stop : ℤ)
  | snapshot (purpose : String)
  | grant (eligible : List UUID)
  | oneOf (column : Column) (values : List String)
  | after (occurredAt key : Cell φ)

/- Whether a row meets a conjunct; what SQL leaves unknown it does not meet. -/
def Conjunct.holds (keyColumn : Column) (r : Row φ) : Conjunct φ → Bool
  | .window since stop => since ≤ r.occurredAt ∧ r.occurredAt < stop
  | .snapshot purpose =>
    match r.column keyColumn .consentPurposes with
    | .texts items => purpose ∈ items
    | _ => false
  | .grant eligible =>
    match r.column keyColumn .subjectId with
    | .uuid subject => subject ∈ eligible
    | _ => false
  | .oneOf column values =>
    match r.column keyColumn column with
    | .text value => value ∈ values
    | _ => false
  | .after (.timestamp t) (.uuid u) => toLex (t, u) < rowKey r
  | .after _ _ => false

structure Statement (φ : Type*) where
  columns : List Column
  keyColumn : Column
  conjuncts : List (Conjunct φ)
  limit : ℕ

def sharedConjuncts (purposes : List String) (eligible : List UUID) (since stop : Datetime)
    (extraClause : List (Conjunct φ)) : List (Conjunct φ) :=
  .window since.instant stop.instant :: purposes.map .snapshot ++ [.grant eligible] ++ extraClause

/- `_page_query` with its parameters; it resumes behind `cursorKey`. -/
def pageQuery (columns : List Column) (keyColumn : Column) (shared : List (Conjunct φ))
    (batchSize : ℕ) (cursorKey : Option (Cell φ × Cell φ)) : Statement φ where
  columns := columns
  keyColumn := keyColumn
  conjuncts := shared ++ match cursorKey with
    | none => []
    | some (occurredAt, key) => [.after occurredAt key]
  limit := batchSize

def Statement.select (q : Statement φ) (r : Row φ) : List (Cell φ) :=
  q.columns.map (r.column q.keyColumn)

/- PostgreSQL's answer: the rows that meet every conjunct, in key order, cut at the limit. -/
def Statement.answer (q : Statement φ) (table : Table φ) : List (List (Cell φ)) :=
  (((table.rows.filter fun r => q.conjuncts.all (Conjunct.holds q.keyColumn r)).insertionSort
    fun r s => rowKey r ≤ rowKey s).take q.limit).map q.select

/-! ### The reads -/

def cursorKeyOf (row : List (Cell φ)) (keyColumn : Column) : Cell φ × Cell φ :=
  let occurredAtIndex := if keyColumn = .eventId then 5 else 10
  (row.getD occurredAtIndex .null, row.getD 0 .null)

/-- The pages of `_keyset_pages` from the `i`-th query on. -/
def keysetPagesFrom (columns : List Column) (keyColumn : Column) (shared : List (Conjunct φ))
    (batchSize : ℕ) (tables : ℕ → Table φ) :
    ℕ → ℕ → Option (Cell φ × Cell φ) → Option (List (List (List (Cell φ))))
  | 0, _, _ => none
  | fuel + 1, i, cursorKey =>
    let rows := (pageQuery columns keyColumn shared batchSize cursorKey).answer (tables i)
    match rows.getLast? with
    | none => some [rows]
    | some last =>
      if rows.length < batchSize then some [rows]
      else (keysetPagesFrom columns keyColumn shared batchSize tables fuel (i + 1)
        (some (cursorKeyOf last keyColumn))).map (rows :: ·)

/-- The arguments of a read; `listed` is `event_types` or `policy_ids`. -/
structure ReadRequest where
  since : Datetime
  stop : Datetime
  purposes : List String
  listed : Option (List String)
  subjects : Option (List UUID)
  batchSize : ℕ

/-- `extra_clause` of a read, by the truth value of its list. -/
def listedClause (listedColumn : Column) (listed : Option (List String)) : List (Conjunct φ) :=
  match listed with
  | some (value :: values) => [.oneOf listedColumn (value :: values)]
  | _ => []

/- The common body of `read_events` and `read_impressions`, as the pages it fetches. What the
generator yields is their rows one after the other. -/
def readPages (columns : List Column) (keyColumn listedColumn : Column)
    (published : List String) (grants : GrantTables) (request : ReadRequest)
    (tables : ℕ → Table φ) (fuel : ℕ) : Except ReadError (Option (List (List (List (Cell φ))))) :=
  match validatedPurposes published request.purposes with
  | .error e => .error e
  | .ok checked =>
    match validatedWindow request.since request.stop with
    | .error e => .error e
    | .ok _ =>
      match eligibleForAll published grants request.subjects checked none with
      | .error e => .error e
      | .ok eligible =>
        if eligible = [] then .ok (some [])
        else
          let extraClause := listedClause listedColumn request.listed
          let shared := sharedConjuncts checked eligible request.since request.stop extraClause
          .ok (keysetPagesFrom columns keyColumn shared request.batchSize tables fuel 0 none)

/-- `tuple(row[i] or ())`. -/
def Cell.toTexts : Cell φ → List String
  | .texts items => items
  | _ => []

/-- `row[i] or {}`. -/
def Cell.orEmpty [Zero φ] [DecidableEq φ] : Cell φ → Cell φ
  | .null => .json (.obj [])
  | .json value => if value.truthy then .json value else .json (.obj [])
  | cell => cell

structure Event (φ : Type*) where
  eventId : Cell φ
  eventType : Cell φ
  schemaVersion : Cell φ
  subjectId : Cell φ
  sessionId : Cell φ
  occurredAt : Cell φ
  recordedAt : Cell φ
  producer : Cell φ
  consentPurposes : List String
  modelVersion : Cell φ
  featureVersion : Cell φ
  idempotencyKey : Cell φ
  payload : Cell φ

structure Impression (φ : Type*) where
  impressionId : Cell φ
  subjectId : Cell φ
  surface : Cell φ
  policyId : Cell φ
  candidateSetId : Cell φ
  position : Cell φ
  itemId : Cell φ
  score : Cell φ
  propensity : Cell φ
  requestId : Cell φ
  occurredAt : Cell φ
  recordedAt : Cell φ
  consentPurposes : List String

def eventOf [Zero φ] [DecidableEq φ] (row : List (Cell φ)) : Event φ where
  eventId := row.getD 0 .null
  eventType := row.getD 1 .null
  schemaVersion := row.getD 2 .null
  subjectId := row.getD 3 .null
  sessionId := row.getD 4 .null
  occurredAt := row.getD 5 .null
  recordedAt := row.getD 6 .null
  producer := row.getD 7 .null
  consentPurposes := (row.getD 8 .null).toTexts
  modelVersion := row.getD 9 .null
  featureVersion := row.getD 10 .null
  idempotencyKey := row.getD 11 .null
  payload := (row.getD 12 .null).orEmpty

def impressionOf (row : List (Cell φ)) : Impression φ where
  impressionId := row.getD 0 .null
  subjectId := row.getD 1 .null
  surface := row.getD 2 .null
  policyId := row.getD 3 .null
  candidateSetId := row.getD 4 .null
  position := row.getD 5 .null
  itemId := row.getD 6 .null
  score := row.getD 7 .null
  propensity := row.getD 8 .null
  requestId := row.getD 9 .null
  occurredAt := row.getD 10 .null
  recordedAt := row.getD 11 .null
  consentPurposes := (row.getD 12 .null).toTexts

def readEvents [Zero φ] [DecidableEq φ] (published : List String) (grants : GrantTables)
    (request : ReadRequest) (databases : ℕ → Database φ) (fuel : ℕ) :
    Except ReadError (Option (List (List (Event φ)))) :=
  (readPages eventColumns .eventId .eventType published grants request
    (fun i => (databases i).events) fuel).map fun pages => pages.map (·.map (·.map eventOf))

def readImpressions (published : List String) (grants : GrantTables) (request : ReadRequest)
    (databases : ℕ → Database φ) (fuel : ℕ) :
    Except ReadError (Option (List (List (Impression φ)))) :=
  (readPages impressionColumns .impressionId .policyId published grants request
    (fun i => (databases i).impressions) fuel).map fun pages => pages.map (·.map (·.map impressionOf))

end

end AnalyticsEngine.Activity
