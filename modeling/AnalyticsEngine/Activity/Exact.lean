import AnalyticsEngine.Activity.Reads
import Mathlib.Data.Fintype.Prod
import Mathlib.Data.Int.Interval

/-!
# What the consent-filtered reads yield

`keysetPagesFrom_eq` reduces both reads to keyset paging by `(occurred_at, key)`, and `admits_iff` reads
the conjuncts of their statements. The window has finitely many keys, so a read ends however
many rows other sessions insert.
-/

namespace AnalyticsEngine.Activity
open Library

section
variable {φ : Type*}

/-! ### One page -/

def keyCells (k : ℤ ×ₗ UUID) : Cell φ × Cell φ :=
  (.timestamp (ofLex k).1, .uuid (ofLex k).2)

theorem cursorKeyOf_event (r : Row φ) :
    cursorKeyOf (eventColumns.map (r.column .eventId)) .eventId = keyCells (rowKey r) := rfl

theorem cursorKeyOf_impression (r : Row φ) :
    cursorKeyOf (impressionColumns.map (r.column .impressionId)) .impressionId =
      keyCells (rowKey r) := rfl

variable {columns : List Column} {keyColumn listedColumn : Column} {shared : List (Conjunct φ)}
  {eligible : List UUID} {batchSize : ℕ}

def admits (keyColumn : Column) (shared : List (Conjunct φ)) (r : Row φ) : Bool :=
  shared.all (Conjunct.holds keyColumn r)

theorem pageQuery_holds (cursor : Option (ℤ ×ₗ UUID)) (r : Row φ) :
    (pageQuery columns keyColumn shared batchSize (cursor.map keyCells)).conjuncts.all
        (Conjunct.holds keyColumn r) =
      (admits keyColumn shared r && beyond cursor (rowKey r)) := by
  unfold pageQuery admits
  rw [List.all_append]
  cases cursor with
  | none => rfl
  | some k =>
    congr 1
    exact Bool.and_true _

theorem pageQuery_answer (cursor : Option (ℤ ×ₗ UUID)) (table : Table φ) :
    (pageQuery columns keyColumn shared batchSize (cursor.map keyCells)).answer table =
      (keysetPage rowKey (admits keyColumn shared) batchSize table.rows cursor).map
        fun r => columns.map (r.column keyColumn) := by
  have hfilter : (fun r => (pageQuery columns keyColumn shared batchSize
      (cursor.map keyCells)).conjuncts.all (Conjunct.holds keyColumn r)) =
        fun r => admits keyColumn shared r && beyond cursor (rowKey r) :=
    funext (pageQuery_holds cursor)
  unfold Statement.answer keysetPage keysetOrder
  rw [← hfilter]
  rfl

/-! ### All pages -/

theorem keysetPagesFrom_eq (hcursor : ∀ r : Row φ,
      cursorKeyOf (columns.map (r.column keyColumn)) keyColumn = keyCells (rowKey r))
    (tables : ℕ → Table φ) (fuel i : ℕ) (cursor : Option (ℤ ×ₗ UUID)) :
    keysetPagesFrom columns keyColumn shared batchSize tables fuel i (cursor.map keyCells) =
      (keysetPages rowKey (admits keyColumn shared) batchSize (fun i => (tables i).rows) fuel i
        cursor).map (·.map (·.map fun r => columns.map (r.column keyColumn))) := by
  induction fuel generalizing i cursor with
  | zero => rfl
  | succ fuel ih =>
    unfold keysetPagesFrom keysetPages
    simp only [pageQuery_answer, List.getLast?_map, List.length_map]
    cases hlast : (keysetPage rowKey (admits keyColumn shared) batchSize (tables i).rows
        cursor).getLast? with
    | none => rfl
    | some last =>
      have hlater := ih (i + 1) (some (rowKey last))
      rw [Option.map_some, ← hcursor] at hlater
      simp only [Option.map_some, hlater]
      split_ifs with hshort
      · rfl
      · rw [Option.map_map, Option.map_map]
        rfl

/-! ### What the conjuncts say -/

/-- What a read may yield: a row of the window whose snapshot has every purpose, whose subject
holds a grant for every purpose and is among the caller's, and whose type or policy is listed. -/
structure Admitted (grants : GrantTables) (request : ReadRequest) (keyColumn listedColumn : Column)
    (r : Row φ) : Prop where
  since : request.since.instant ≤ r.occurredAt
  stop : r.occurredAt < request.stop.instant
  snapshot : ∀ p ∈ request.purposes,
    ∃ items, r.column keyColumn .consentPurposes = .texts items ∧ p ∈ items
  subject : ∃ subject, r.column keyColumn .subjectId = .uuid subject ∧
    (∀ p ∈ request.purposes, grants.Holds subject p) ∧
    ∀ subjects, request.subjects = some subjects → subject ∈ subjects
  listed : ∀ values, request.listed = some values →
    ∃ value ∈ values, r.column keyColumn listedColumn = .text value

theorem snapshot_holds {r : Row φ} {purpose : String} :
    Conjunct.holds keyColumn r (.snapshot purpose) = true ↔
      ∃ items, r.column keyColumn .consentPurposes = .texts items ∧ purpose ∈ items := by
  unfold Conjunct.holds
  cases r.column keyColumn .consentPurposes <;> simp

theorem grant_holds {r : Row φ} : Conjunct.holds keyColumn r (.grant eligible) = true ↔
    ∃ subject, r.column keyColumn .subjectId = .uuid subject ∧ subject ∈ eligible := by
  unfold Conjunct.holds
  cases r.column keyColumn .subjectId <;> simp

theorem oneOf_holds {r : Row φ} {column : Column} {values : List String} :
    Conjunct.holds keyColumn r (.oneOf column values) = true ↔
      ∃ value ∈ values, r.column keyColumn column = .text value := by
  unfold Conjunct.holds
  cases h : r.column keyColumn column <;> simp [h]

theorem listedClause_holds {listed : Option (List String)} (hlisted : listed ≠ some [])
    {r : Row φ} : (listedClause listedColumn listed).all (Conjunct.holds keyColumn r) = true ↔
      ∀ values, listed = some values →
        ∃ value ∈ values, r.column keyColumn listedColumn = .text value := by
  unfold listedClause
  cases listed with
  | none => simp
  | some values =>
    cases values with
    | nil => exact absurd rfl hlisted
    | cons value values =>
      simp only [List.all_cons, List.all_nil, Bool.and_true, oneOf_holds]
      constructor
      · intro h _ heq
        cases heq
        exact h
      · exact fun h => h _ rfl

theorem admits_iff {grants : GrantTables} {request : ReadRequest}
    (hlisted : request.listed ≠ some []) (heligible : ∀ subject, subject ∈ eligible ↔
      (∀ p ∈ request.purposes, grants.Holds subject p) ∧
        ∀ subjects, request.subjects = some subjects → subject ∈ subjects) {r : Row φ} :
    admits keyColumn (sharedConjuncts request.purposes.eraseDups eligible request.since
        request.stop (listedClause listedColumn request.listed)) r = true ↔
      Admitted grants request keyColumn listedColumn r := by
  have hwindow : Conjunct.holds keyColumn r
      (.window request.since.instant request.stop.instant) = true ↔
        request.since.instant ≤ r.occurredAt ∧ r.occurredAt < request.stop.instant := by
    unfold Conjunct.holds
    exact decide_eq_true_iff
  unfold admits sharedConjuncts
  rw [List.all_append, List.all_append, List.all_cons, Bool.and_eq_true, Bool.and_eq_true,
    Bool.and_eq_true, hwindow, listedClause_holds hlisted, List.all_map, List.all_eq_true]
  simp only [List.mem_eraseDups, Function.comp_apply, snapshot_holds, List.all_cons, List.all_nil,
    Bool.and_true, grant_holds, heligible]
  constructor
  · intro hfound
    obtain ⟨⟨⟨⟨hsince, hstop⟩, hsnapshot⟩, hsubject⟩, hlist⟩ := hfound
    exact ⟨hsince, hstop, hsnapshot, hsubject, hlist⟩
  · intro hfound
    obtain ⟨hsince, hstop, hsnapshot, hsubject, hlist⟩ := hfound
    exact ⟨⟨⟨⟨hsince, hstop⟩, hsnapshot⟩, hsubject⟩, hlist⟩

/-! ### The reads -/

/-- What the pages of a read hold: admitted rows only, in strictly increasing key order, and
every admitted row that is there at every query, once. -/
structure ExactRead (admitted : Row φ → Prop) (tables : ℕ → Table φ)
    (pages : List (List (Row φ))) : Prop where
  sound : ∀ r ∈ pages.flatten, admitted r ∧ ∃ i < pages.length, r ∈ (tables i).rows
  ordered : pages.flatten.Pairwise fun r s => rowKey r < rowKey s
  complete : ∀ r, admitted r → (∀ i < pages.length, r ∈ (tables i).rows) →
    ∃! n : ℕ, pages.flatten[n]? = some r

theorem unique_index {rows : List (Row φ)} (h : rows.Pairwise fun r s => rowKey r < rowKey s)
    {r : Row φ} (hr : r ∈ rows) : ∃! n : ℕ, rows[n]? = some r := by
  have hnodup : rows.Nodup := h.imp fun hlt heq => absurd (heq ▸ hlt) (lt_irrefl _)
  obtain ⟨n, hn⟩ := List.mem_iff_getElem?.mp hr
  refine ⟨n, hn, ?_⟩
  intro m hm
  obtain ⟨hlt, _⟩ := List.getElem?_eq_some_iff.mp hm
  exact (List.getElem?_inj hlt hnodup).mp (hm.trans hn.symm)

def windowKeys (since stop : Datetime) : Finset (ℤ ×ₗ UUID) :=
  (((Finset.range (stop.instant - since.instant).toNat).map
    ⟨fun n : ℕ => since.instant + n, fun m n h => by simp only at h; omega⟩) ×ˢ
      Finset.univ).map toLex.toEmbedding

theorem rowKey_mem_windowKeys {grants : GrantTables} {request : ReadRequest} {r : Row φ}
    (h : Admitted grants request keyColumn listedColumn r) :
    rowKey r ∈ windowKeys request.since request.stop := by
  have hsince := h.since
  have hstop := h.stop
  apply Finset.mem_map_of_mem
  rw [Finset.mem_product, Finset.mem_map]
  refine ⟨⟨(r.occurredAt - request.since.instant).toNat, ?_, ?_⟩, Finset.mem_univ _⟩
  · rw [Finset.mem_range]
    omega
  · show request.since.instant + ((r.occurredAt - request.since.instant).toNat : ℤ) = r.occurredAt
    omega

theorem exactRead_of_paged {grants : GrantTables} {request : ReadRequest} {tables : ℕ → Table φ}
    (hadmits : ∀ r : Row φ, admits keyColumn shared r = true ↔
      Admitted grants request keyColumn listedColumn r) {pages : List (List (Row φ))}
    (h : Paged rowKey (admits keyColumn shared) batchSize (fun i => (tables i).rows) 0 none pages) :
    ExactRead (Admitted grants request keyColumn listedColumn) tables pages := by
  have hordered := h.ordered fun i => (tables i).distinct
  refine ⟨?_, hordered, ?_⟩
  · intro r hr
    obtain ⟨hadmitted, _, i, hi, hrow⟩ := h.sound r hr
    rw [Nat.zero_add] at hrow
    exact ⟨(hadmits r).mp hadmitted, i, hi, hrow⟩
  · intro r hadmitted hrow
    apply unique_index hordered
    apply h.complete (fun i => (tables i).distinct) ((hadmits r).mpr hadmitted) rfl
    intro i hi
    rw [Nat.zero_add]
    exact hrow i hi

theorem keysetPagesFrom_exact {grants : GrantTables} {request : ReadRequest}
    {tables : ℕ → Table φ} (hcursor : ∀ r : Row φ,
      cursorKeyOf (columns.map (r.column keyColumn)) keyColumn = keyCells (rowKey r))
    (hadmits : ∀ r : Row φ, admits keyColumn shared r = true ↔
      Admitted grants request keyColumn listedColumn r) (hbatch : 1 ≤ batchSize) {fuel : ℕ}
    (hfuel : (windowKeys request.since request.stop).card < fuel) :
    ∃ pages : List (List (Row φ)),
      keysetPagesFrom columns keyColumn shared batchSize tables fuel 0 none =
        some (pages.map (·.map fun r => columns.map (r.column keyColumn))) ∧
      ExactRead (Admitted grants request keyColumn listedColumn) tables pages := by
  have hkeys : ∀ i, ∀ r ∈ (tables i).rows, admits keyColumn shared r = true →
      rowKey r ∈ windowKeys request.since request.stop :=
    fun i r _ hr => rowKey_mem_windowKeys ((hadmits r).mp hr)
  obtain ⟨pages, hpages, hpaged⟩ := keysetPages_paged hbatch hkeys
    (lt_of_le_of_lt (Finset.card_filter_le _ _) hfuel)
  refine ⟨pages, ?_, exactRead_of_paged hadmits hpaged⟩
  exact (keysetPagesFrom_eq hcursor tables fuel 0 none).trans (by rw [hpages]; rfl)

theorem exactRead_of_nobody {grants : GrantTables} {request : ReadRequest} {tables : ℕ → Table φ}
    (heligible : ∀ subject, ¬((∀ p ∈ request.purposes, grants.Holds subject p) ∧
      ∀ subjects, request.subjects = some subjects → subject ∈ subjects)) :
    ExactRead (Admitted grants request keyColumn listedColumn) tables [] := by
  refine ⟨?_, List.Pairwise.nil, ?_⟩
  · intro r hr
    cases hr
  · intro r hadmitted _
    obtain ⟨subject, _, hholds⟩ := hadmitted.subject
    exact absurd hholds (heligible subject)

theorem readPages_exact {published : List String} {request : ReadRequest} (grants : GrantTables)
    (listedColumn : Column) (tables : ℕ → Table φ) (hcursor : ∀ r : Row φ,
      cursorKeyOf (columns.map (r.column keyColumn)) keyColumn = keyCells (rowKey r))
    (hpurposes : request.purposes ≠ []) (hpublished : ∀ p ∈ request.purposes, p ∈ published)
    (hsince : request.since.zone ≠ none) (hstop : request.stop.zone ≠ none)
    (hwindow : request.since.ge request.stop = false) (hbatch : 1 ≤ request.batchSize)
    (hlisted : request.listed ≠ some []) :
    ∃ enough, ∀ fuel ≥ enough, ∃ pages : List (List (Row φ)),
      readPages columns keyColumn listedColumn published grants request tables fuel =
        .ok (some (pages.map (·.map fun r => columns.map (r.column keyColumn)))) ∧
      ExactRead (Admitted grants request keyColumn listedColumn) tables pages := by
  obtain ⟨eligible, hresult, hmem⟩ := eligibleForAll_ok grants request.subjects
    (eraseDups_ne_nil hpurposes) fun p hp => hpublished p (List.mem_eraseDups.mp hp)
  have heligible : ∀ subject, subject ∈ eligible ↔
      (∀ p ∈ request.purposes, grants.Holds subject p) ∧
        ∀ subjects, request.subjects = some subjects → subject ∈ subjects := by
    intro subject
    simp only [hmem, List.mem_eraseDups]
  refine ⟨(windowKeys request.since request.stop).card + 1, ?_⟩
  intro fuel hfuel
  unfold readPages
  simp only [validatedPurposes_ok hpurposes hpublished, validatedWindow_ok hsince hstop hwindow,
    hresult]
  split_ifs with hnobody
  · refine ⟨[], rfl, exactRead_of_nobody ?_⟩
    intro subject hholds
    have hsubject := (heligible subject).mpr hholds
    rw [hnobody] at hsubject
    cases hsubject
  · obtain ⟨pages, hpages, hexact⟩ := keysetPagesFrom_exact hcursor
      (fun r => admits_iff hlisted heligible) hbatch (Nat.lt_of_succ_le hfuel)
    exact ⟨pages, congrArg Except.ok hpages, hexact⟩

def storedEvent [Zero φ] [DecidableEq φ] (r : Row φ) : Event φ where
  eventId := .uuid r.key
  eventType := r.other .eventType
  schemaVersion := r.other .schemaVersion
  subjectId := r.other .subjectId
  sessionId := r.other .sessionId
  occurredAt := .timestamp r.occurredAt
  recordedAt := r.other .recordedAt
  producer := r.other .producer
  consentPurposes := (r.other .consentPurposes).toTexts
  modelVersion := r.other .modelVersion
  featureVersion := r.other .featureVersion
  idempotencyKey := r.other .idempotencyKey
  payload := (r.other .payload).orEmpty

theorem eventOf_row [Zero φ] [DecidableEq φ] (r : Row φ) :
    eventOf (eventColumns.map (r.column .eventId)) = storedEvent r := rfl

def storedImpression (r : Row φ) : Impression φ where
  impressionId := .uuid r.key
  subjectId := r.other .subjectId
  surface := r.other .surface
  policyId := r.other .policyId
  candidateSetId := r.other .candidateSetId
  position := r.other .position
  itemId := r.other .itemId
  score := r.other .score
  propensity := r.other .propensity
  requestId := r.other .requestId
  occurredAt := .timestamp r.occurredAt
  recordedAt := r.other .recordedAt
  consentPurposes := (r.other .consentPurposes).toTexts

theorem impressionOf_row (r : Row φ) :
    impressionOf (impressionColumns.map (r.column .impressionId)) = storedImpression r := rfl

/-- Both reads finish, and yield the admitted rows exactly. -/
theorem reads_exact [Zero φ] [DecidableEq φ] (published : List String) (grants : GrantTables)
    (request : ReadRequest) (databases : ℕ → Database φ) (hpurposes : request.purposes ≠ [])
    (hpublished : ∀ p ∈ request.purposes, p ∈ published) (hsince : request.since.zone ≠ none)
    (hstop : request.stop.zone ≠ none) (hwindow : request.since.ge request.stop = false)
    (hbatch : 1 ≤ request.batchSize) (hlisted : request.listed ≠ some []) :
    ∃ enough, ∀ fuel ≥ enough,
      (∃ pages, readEvents published grants request databases fuel =
          .ok (some (pages.map (·.map storedEvent))) ∧
        ExactRead (Admitted grants request .eventId .eventType)
          (fun i => (databases i).events) pages) ∧
      ∃ pages, readImpressions published grants request databases fuel =
          .ok (some (pages.map (·.map storedImpression))) ∧
        ExactRead (Admitted grants request .impressionId .policyId)
          (fun i => (databases i).impressions) pages := by
  obtain ⟨enough, hevents⟩ := readPages_exact grants .eventType
    (fun i => (databases i).events) cursorKeyOf_event hpurposes hpublished hsince hstop hwindow
    hbatch hlisted
  obtain ⟨enough', himpressions⟩ := readPages_exact grants .policyId
    (fun i => (databases i).impressions) cursorKeyOf_impression hpurposes hpublished hsince hstop
    hwindow hbatch hlisted
  refine ⟨max enough enough', fun fuel hfuel => ⟨?_, ?_⟩⟩
  · obtain ⟨pages, hpages, hexact⟩ := hevents fuel (le_trans (le_max_left _ _) hfuel)
    refine ⟨pages, ?_, hexact⟩
    unfold readEvents
    rw [hpages]
    simp [Except.map, eventOf_row]
  · obtain ⟨pages, hpages, hexact⟩ := himpressions fuel (le_trans (le_max_right _ _) hfuel)
    refine ⟨pages, ?_, hexact⟩
    unfold readImpressions
    rw [hpages]
    simp [Except.map, impressionOf_row]

end

instance {φ : Type*} : Inhabited (Table φ) := ⟨⟨[], List.nodup_nil⟩⟩

def tiedRow (key : UUID) : Row ℤ where
  occurredAt := 5
  key := key
  other
    | .subjectId => .uuid 7
    | .consentPurposes => .texts ["model_training"]
    | _ => .null

/- Two events at one time, the first of which is gone from the second query on. -/
def tiedDatabases (i : ℕ) : Database ℤ where
  events := if i = 0 then ⟨[tiedRow 1, tiedRow 2], by decide⟩
    else ⟨[tiedRow 2], by decide⟩
  impressions := ⟨[], List.nodup_nil⟩

def oneGrant : GrantTables where
  userSubjects := [⟨3, 7⟩]
  consentGrants := [⟨3, "model_training", 0, none⟩]
  now := 1

def oneByOne : ReadRequest where
  since := ⟨0, some 0, 0⟩
  stop := ⟨9, some 0, 9⟩
  purposes := ["model_training"]
  listed := none
  subjects := none
  batchSize := 1

theorem reads_exact_tied : ∃ enough, ∀ fuel ≥ enough, ∃ pages : List (List (Row ℤ)),
    readEvents ["model_training", "product_analytics"] oneGrant oneByOne tiedDatabases fuel =
        .ok (some (pages.map (·.map storedEvent))) ∧
      ∃! n : ℕ, pages.flatten[n]? = some (tiedRow 2) := by
  obtain ⟨enough, h⟩ := reads_exact ["model_training", "product_analytics"] oneGrant oneByOne
    tiedDatabases (by decide) (by decide) (by decide) (by decide) (by decide) (by decide) (by decide)
  refine ⟨enough, fun fuel hfuel => ?_⟩
  obtain ⟨⟨pages, hpages, hexact⟩, _⟩ := h fuel hfuel
  refine ⟨pages, hpages, hexact.complete _ ?_ ?_⟩
  · refine ⟨by decide, by decide, ?_, ⟨7, rfl, ?_, ?_⟩, ?_⟩
    · intro p hp
      exact ⟨_, rfl, hp⟩
    · intro p hp
      refine ⟨_, List.mem_singleton_self _, rfl, _, List.mem_singleton_self _, rfl, ?_⟩
      exact ⟨(List.mem_singleton.mp hp).symm, rfl, by decide⟩
    · intro subjects hsubjects
      cases hsubjects
    · intro values hvalues
      cases hvalues
  · intro i _
    cases i with
    | zero => exact List.mem_cons_of_mem _ (List.mem_singleton_self _)
    | succ i => exact List.mem_singleton_self _

end AnalyticsEngine.Activity
