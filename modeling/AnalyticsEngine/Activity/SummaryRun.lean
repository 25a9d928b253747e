import AnalyticsEngine.Activity.Grouped

/-!
# Runs of the activity summary

Over tables that stay as they are both reads yield one stream of rows each, whatever their fuel
(`computeAndStore_streams`), and a run is a function of the two streams.
-/

namespace AnalyticsEngine.Activity
open Library

section
variable {φ : Type*}

/-- The admitted rows of both tables, in the order in which the reads yield them. -/
structure Streams (grants : GrantTables) (request : ReadRequest) (database : Database φ)
    (events impressions : List (Row φ)) : Prop where
  events_ordered : events.Pairwise fun r s => rowKey r < rowKey s
  mem_events : ∀ r, r ∈ events ↔
    r ∈ database.events.rows ∧ Admitted grants request .eventId .eventType r
  impressions_ordered : impressions.Pairwise fun r s => rowKey r < rowKey s
  mem_impressions : ∀ r, r ∈ impressions ↔
    r ∈ database.impressions.rows ∧ Admitted grants request .impressionId .policyId r

theorem ordered_nodup {rows : List (Row φ)} (h : rows.Pairwise fun r s => rowKey r < rowKey s) :
    rows.Nodup :=
  h.imp fun hlt heq => absurd (heq ▸ hlt) (lt_irrefl _)

theorem ordered_unique {rows rows' : List (Row φ)}
    (h : rows.Pairwise fun r s => rowKey r < rowKey s)
    (h' : rows'.Pairwise fun r s => rowKey r < rowKey s) (hmem : ∀ r, r ∈ rows ↔ r ∈ rows') :
    rows = rows' := by
  have : Std.Irrefl fun r s : Row φ => rowKey r < rowKey s := ⟨fun r => lt_irrefl _⟩
  have : Std.Antisymm fun r s : Row φ => rowKey r < rowKey s :=
    ⟨fun r s hrs hsr => absurd (hrs.trans hsr) (lt_irrefl _)⟩
  exact h.eq_of_mem_iff h' hmem

section
variable {columns : List Column} {keyColumn listedColumn : Column} {published : List String}
  {grants : GrantTables} {request : ReadRequest} {table : Table φ}

theorem readPages_stream (haccepted : Accepted published request)
    (hlisted : request.effective = request) (hcursor : ∀ r : Row φ,
      cursorKeyOf (columns.map (r.column keyColumn)) keyColumn = keyCells (rowKey r))
    (grants : GrantTables) (listedColumn : Column) (table : Table φ) :
    ∃ rows : List (Row φ), (rows.Pairwise fun r s => rowKey r < rowKey s) ∧
      (∀ r, r ∈ rows ↔ r ∈ table.rows ∧ Admitted grants request keyColumn listedColumn r) ∧
      ∃ enough, ∀ fuel ≥ enough, ∃ pages : List (List (Row φ)),
        readPages columns keyColumn listedColumn published grants request (fun _ => table) fuel =
          .ok (some (pages.map (·.map fun r => columns.map (r.column keyColumn)))) ∧
        pages.flatten = rows := by
  obtain ⟨enough, hread⟩ := readPages_static haccepted hcursor grants listedColumn table
  rw [hlisted] at hread
  obtain ⟨pages, -, hordered, hmem⟩ := hread enough le_rfl
  refine ⟨pages.flatten, hordered, hmem, enough, fun fuel hfuel => ?_⟩
  obtain ⟨pages', hpages', hordered', hmem'⟩ := hread fuel hfuel
  refine ⟨pages', hpages', ordered_unique hordered' hordered fun r => ?_⟩
  rw [hmem', hmem]

end

/-! ### The window of a run -/

theorem activitySummaryWindow_ok {days : ℤ} {now since stop : Datetime}
    (h : activitySummaryWindow days now = .ok (since, stop)) :
    ∃ first last : ℤ, first < last ∧ since = utcMidnight first ∧ stop = utcMidnight last := by
  unfold activitySummaryWindow at h
  simp only at h
  split_ifs at h with hdays
  have hpair := Except.ok.inj h
  rw [Prod.mk.injEq] at hpair
  refine ⟨_, _, ?_, hpair.1.symm, hpair.2.symm⟩
  omega

variable {published : List String} {grants : GrantTables} {database : Database φ} {days : ℤ}
  {now since stop : Datetime}

theorem summaryRequest_accepted (hpublished : productAnalytics ∈ published)
    (hwindow : activitySummaryWindow days now = .ok (since, stop)) :
    Accepted published (summaryRequest since stop) := by
  obtain ⟨first, last, hlt, rfl, rfl⟩ := activitySummaryWindow_ok hwindow
  refine ⟨List.cons_ne_nil _ _, ?_, nofun, nofun, ?_, ?_⟩
  · intro p hp
    rw [List.mem_singleton.mp hp]
    exact hpublished
  · have hwalls : ¬last * dayMicros ≤ first * dayMicros := by
      unfold dayMicros
      omega
    exact decide_eq_false hwalls
  · show 1 ≤ defaultBatchSize
    decide

theorem inWindow_utcDate (hwindow : activitySummaryWindow days now = .ok (since, stop)) {t : ℤ}
    (hsince : since.instant ≤ t) (hstop : t < stop.instant) :
    utcDate since.instant ≤ utcDate t ∧ utcDate t < utcDate stop.instant := by
  obtain ⟨first, last, hlt, rfl, rfl⟩ := activitySummaryWindow_ok hwindow
  unfold utcMidnight utcDate dayMicros at *
  simp only at hsince hstop ⊢
  omega

theorem validatedPurposes_unpublished {purposes : List String} {purpose : String}
    (hpurpose : purpose ∈ purposes) (hpublished : purpose ∉ published) :
    ∃ e, validatedPurposes published purposes = .error e := by
  have hordered := eraseDups_ne_nil (List.ne_nil_of_mem hpurpose)
  have hunknown : (purposes.eraseDups.filter fun p => p ∉ published) ≠ [] := by
    refine List.ne_nil_of_mem (List.mem_filter.mpr ⟨List.mem_eraseDups.mpr hpurpose, ?_⟩)
    exact decide_eq_true hpublished
  unfold validatedPurposes
  simp only [hordered, hunknown, ne_eq, not_false_eq_true, if_true, if_false]
  exact ⟨_, rfl⟩

variable [Zero φ] [DecidableEq φ]

theorem computeAndStore_streams (hpublished : productAnalytics ∈ published)
    (hwindow : activitySummaryWindow days now = .ok (since, stop)) (grants : GrantTables)
    (database : Database φ) :
    ∃ events impressions, Streams grants (summaryRequest since stop) database events impressions ∧
      ∃ enough, ∀ fuel ≥ enough, ∀ table,
        computeAndStoreActivitySummary published grants database days now table fuel =
          some (summarise (events.map storedEvent) (impressions.map storedImpression)
            (utcDate since.instant) (utcDate stop.instant) table) := by
  have haccepted := summaryRequest_accepted hpublished hwindow
  obtain ⟨events, hevents, hmem, enough, hread⟩ := readPages_stream haccepted rfl
    cursorKeyOf_event grants .eventType database.events
  obtain ⟨impressions, himpressions, hmem', enough', hread'⟩ := readPages_stream haccepted rfl
    cursorKeyOf_impression grants .policyId database.impressions
  refine ⟨events, impressions, ⟨hevents, hmem, himpressions, hmem'⟩, max enough enough', ?_⟩
  intro fuel hfuel table
  obtain ⟨pages, hpages, rfl⟩ := hread fuel ((le_max_left _ _).trans hfuel)
  obtain ⟨pages', hpages', rfl⟩ := hread' fuel ((le_max_right _ _).trans hfuel)
  unfold computeAndStoreActivitySummary readEvents readImpressions
  simp only [hwindow, hpages, hpages', Except.map, Option.map_some, List.map_map,
    List.map_flatten, Function.comp_def, eventOf_row, impressionOf_row]

theorem computeAndStore_unpublished (hpublished : productAnalytics ∉ published)
    (hwindow : activitySummaryWindow days now = .ok (since, stop)) (grants : GrantTables)
    (database : Database φ) (table : SummaryTable) (fuel : ℕ) :
    ∃ e, computeAndStoreActivitySummary published grants database days now table fuel =
      some (.error e) := by
  obtain ⟨e, he⟩ := validatedPurposes_unpublished (List.mem_singleton_self _) hpublished
  unfold computeAndStoreActivitySummary readEvents readPages summaryRequest
  simp only [hwindow, he, Except.map]
  exact ⟨_, rfl⟩

end

section
variable {φ : Type*}

/-! ### Groups -/

/- The admitted events of a day and a type. -/
def eventGroup (grants : GrantTables) (request : ReadRequest) (database : Database φ) (date : ℤ)
    (eventType : String) : Set (Row φ) :=
  {r | (r ∈ database.events.rows ∧ Admitted grants request .eventId .eventType r) ∧
    utcDate r.occurredAt = date ∧ r.other .eventType = .text eventType}

def impressionGroup (grants : GrantTables) (request : ReadRequest) (database : Database φ)
    (date : ℤ) (policyId : String) : Set (Row φ) :=
  {r | (r ∈ database.impressions.rows ∧ Admitted grants request .impressionId .policyId r) ∧
    utcDate r.occurredAt = date ∧ r.other .policyId = .text policyId}

/-- The counts of a group of events: records and distinct subjects. -/
noncomputable def eventSummary (date : ℤ) (eventType : String) (group : Set (Row φ)) :
    SummaryRow where
  summaryDate := date
  dimension := eventTypeDimension
  dimensionKey := some eventType
  recordCount := group.ncard
  subjectCount := ((fun r => (r.other .subjectId).toUUID) '' group).ncard
  candidateSetCount := none

/-- The counts of a group of impressions: with the distinct candidate sets. -/
noncomputable def impressionSummary (date : ℤ) (policyId : String) (group : Set (Row φ)) :
    SummaryRow where
  summaryDate := date
  dimension := policyIdDimension
  dimensionKey := some policyId
  recordCount := group.ncard
  subjectCount := ((fun r => (r.other .subjectId).toUUID) '' group).ncard
  candidateSetCount := some ((fun r => (r.other .candidateSetId).toUUID) '' group).ncard

theorem toText_some {cell : Cell φ} {s : String} : cell.toText = some s ↔ cell = .text s := by
  cases cell <;> simp [Cell.toText]

theorem dimensions_ne : eventTypeDimension ≠ policyIdDimension := by decide

section
variable {grants : GrantTables} {request : ReadRequest} {database : Database φ}
  {events impressions : List (Row φ)}

def impressionEntry (r : Row φ) : BucketKey × ActivityBucket :=
  impressionRecord (storedImpression r)

theorem impressionGroup_eq (hstreams : Streams grants request database events impressions)
    (date : ℤ) (policyId : String) :
    {r | r ∈ impressions ∧ (impressionEntry r).1 = (date, policyIdDimension, some policyId)} =
      impressionGroup grants request database date policyId := by
  ext r
  unfold impressionGroup impressionEntry impressionRecord storedImpression
  simp [hstreams.mem_impressions, toText_some, Cell.toDate]

variable [Zero φ] [DecidableEq φ]

def eventEntry (r : Row φ) : BucketKey × ActivityBucket := eventRecord (storedEvent r)

def activityEntries (events impressions : List (Row φ)) : List (BucketKey × ActivityBucket) :=
  events.map eventEntry ++ impressions.map impressionEntry

theorem activityBuckets_eq (events impressions : List (Row φ)) :
    activityBuckets (events.map storedEvent) (impressions.map storedImpression) =
      tally (activityEntries events impressions) [] := by
  unfold activityBuckets activityEntries tally
  rw [List.foldl_append, List.map_map, List.map_map]
  rfl

theorem total_event (events impressions : List (Row φ)) (date : ℤ) (key : Option String) :
    total (activityEntries events impressions) (date, eventTypeDimension, key) =
      total (events.map eventEntry) (date, eventTypeDimension, key) := by
  have helsewhere : total (impressions.map impressionEntry) (date, eventTypeDimension, key) = 0 := by
    refine total_elsewhere fun entry hentry hkey => ?_
    obtain ⟨r, -, rfl⟩ := List.mem_map.mp hentry
    exact dimensions_ne (congrArg (fun k : BucketKey => k.2.1) hkey).symm
  unfold activityEntries
  rw [total_append, helsewhere, add_zero]

theorem total_impression (events impressions : List (Row φ)) (date : ℤ) (key : Option String) :
    total (activityEntries events impressions) (date, policyIdDimension, key) =
      total (impressions.map impressionEntry) (date, policyIdDimension, key) := by
  have helsewhere : total (events.map eventEntry) (date, policyIdDimension, key) = 0 := by
    refine total_elsewhere fun entry hentry hkey => ?_
    obtain ⟨r, -, rfl⟩ := List.mem_map.mp hentry
    exact dimensions_ne (congrArg (fun k : BucketKey => k.2.1) hkey)
  unfold activityEntries
  rw [total_append, helsewhere, zero_add]

variable (hstreams : Streams grants request database events impressions)
include hstreams

theorem eventGroup_eq (date : ℤ) (eventType : String) :
    {r | r ∈ events ∧ (eventEntry r).1 = (date, eventTypeDimension, some eventType)} =
      eventGroup grants request database date eventType := by
  ext r
  unfold eventGroup eventEntry eventRecord storedEvent
  simp [hstreams.mem_events, toText_some, Cell.toDate]

theorem summaryRow_event (date : ℤ) (eventType : String) :
    summaryRow ((date, eventTypeDimension, some eventType),
        total (activityEntries events impressions) (date, eventTypeDimension, some eventType)) =
      eventSummary date eventType (eventGroup grants request database date eventType) := by
  have hnodup := ordered_nodup hstreams.events_ordered
  unfold summaryRow eventSummary
  rw [total_event, records_group _ hnodup fun _ => rfl, subjects_group _ fun _ => rfl,
    eventGroup_eq hstreams]
  rfl

theorem summaryRow_impression (date : ℤ) (policyId : String) :
    summaryRow ((date, policyIdDimension, some policyId),
        total (activityEntries events impressions) (date, policyIdDimension, some policyId)) =
      impressionSummary date policyId (impressionGroup grants request database date policyId) := by
  have hnodup := ordered_nodup hstreams.impressions_ordered
  unfold summaryRow impressionSummary
  rw [total_impression, records_group _ hnodup fun _ => rfl, subjects_group _ fun _ => rfl,
    candidateSets_group _ fun _ => rfl, impressionGroup_eq hstreams]
  rfl

end

end

end AnalyticsEngine.Activity
