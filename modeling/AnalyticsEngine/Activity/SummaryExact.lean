import AnalyticsEngine.Activity.SummaryRun

/-!
# The activity summary is the exact grouping of admitted activity
-/

namespace AnalyticsEngine.Activity
open Library

section
variable {φ : Type*} [Zero φ] [DecidableEq φ] {grants : GrantTables} {request : ReadRequest}
  {database : Database φ} {events impressions : List (Row φ)}

/-- The summary after a run, against the tables it read and the summary before it. -/
structure ExactSummary (grants : GrantTables) (request : ReadRequest) (database : Database φ)
    (before after : SummaryTable) : Prop where
  rows : ∀ row, (row ∈ after.rows ∧
      inWindow (utcDate request.since.instant) (utcDate request.stop.instant) row = true) ↔
    (∃ date eventType, (eventGroup grants request database date eventType).Nonempty ∧
      row = eventSummary date eventType (eventGroup grants request database date eventType)) ∨
    ∃ date policyId, (impressionGroup grants request database date policyId).Nonempty ∧
      row = impressionSummary date policyId (impressionGroup grants request database date policyId)
  total : ((after.rows.filter
      (inWindow (utcDate request.since.instant) (utcDate request.stop.instant))).map
        SummaryRow.recordCount).sum =
    {r | r ∈ database.events.rows ∧ Admitted grants request .eventId .eventType r}.ncard +
      {r | r ∈ database.impressions.rows ∧
        Admitted grants request .impressionId .policyId r}.ncard
  outside : ∀ row,
    inWindow (utcDate request.since.instant) (utcDate request.stop.instant) row = false →
      (row ∈ after.rows ↔ row ∈ before.rows)

/-! ### The buckets of a run -/

theorem mem_buckets {key : BucketKey} {bucket : ActivityBucket} :
    (key, bucket) ∈ tally (activityEntries events impressions) [] ↔
      ((∃ r ∈ events, (eventEntry r).1 = key) ∨ ∃ r ∈ impressions, (impressionEntry r).1 = key) ∧
      bucket = total (activityEntries events impressions) key := by
  rw [mem_tally]
  unfold activityEntries
  simp only [List.map_append, List.mem_append, List.mem_map, List.map_map, Function.comp_apply]

theorem mem_summaryRows (hstreams : Streams grants request database events impressions)
    {row : SummaryRow} (hnamed : row.dimensionKey ≠ none) :
    row ∈ (tally (activityEntries events impressions) []).map summaryRow ↔
      (∃ date eventType, (eventGroup grants request database date eventType).Nonempty ∧
        row = eventSummary date eventType (eventGroup grants request database date eventType)) ∨
      ∃ date policyId, (impressionGroup grants request database date policyId).Nonempty ∧
        row = impressionSummary date policyId
          (impressionGroup grants request database date policyId) := by
  constructor
  · intro hrow
    obtain ⟨⟨⟨date, dimension, key⟩, bucket⟩, hentry, rfl⟩ := List.mem_map.mp hrow
    obtain ⟨hkey, rfl⟩ := mem_buckets.mp hentry
    obtain ⟨name, rfl⟩ := Option.ne_none_iff_exists'.mp hnamed
    rcases hkey with ⟨r, hr, hkey⟩ | ⟨r, hr, hkey⟩
    · have hdimension : eventTypeDimension = dimension := congrArg (fun k : BucketKey => k.2.1) hkey
      subst hdimension
      refine Or.inl ⟨date, name, ⟨r, ?_⟩, summaryRow_event hstreams date name⟩
      rw [← eventGroup_eq hstreams]
      exact ⟨hr, hkey⟩
    · have hdimension : policyIdDimension = dimension := congrArg (fun k : BucketKey => k.2.1) hkey
      subst hdimension
      refine Or.inr ⟨date, name, ⟨r, ?_⟩, summaryRow_impression hstreams date name⟩
      rw [← impressionGroup_eq hstreams]
      exact ⟨hr, hkey⟩
  · rintro (⟨date, name, ⟨r, hr⟩, rfl⟩ | ⟨date, name, ⟨r, hr⟩, rfl⟩)
    · rw [← eventGroup_eq hstreams] at hr
      rw [← summaryRow_event hstreams]
      exact List.mem_map_of_mem (mem_buckets.mpr ⟨Or.inl ⟨r, hr.1, hr.2⟩, rfl⟩)
    · rw [← impressionGroup_eq hstreams] at hr
      rw [← summaryRow_impression hstreams]
      exact List.mem_map_of_mem (mem_buckets.mpr ⟨Or.inr ⟨r, hr.1, hr.2⟩, rfl⟩)

theorem summaryRows_window {since stop : ℤ} {row : SummaryRow}
    (hevents : ∀ r ∈ events, since ≤ utcDate r.occurredAt ∧ utcDate r.occurredAt < stop)
    (himpressions : ∀ r ∈ impressions, since ≤ utcDate r.occurredAt ∧ utcDate r.occurredAt < stop)
    (hrow : row ∈ (tally (activityEntries events impressions) []).map summaryRow) :
    inWindow since stop row = true := by
  obtain ⟨⟨key, bucket⟩, hentry, rfl⟩ := List.mem_map.mp hrow
  obtain ⟨⟨r, hr, hkey⟩ | ⟨r, hr, hkey⟩, -⟩ := mem_buckets.mp hentry
  · have hdate : utcDate r.occurredAt = key.1 := congrArg Prod.fst hkey
    have hwindow := hevents r hr
    rw [hdate] at hwindow
    exact decide_eq_true hwindow
  · have hdate : utcDate r.occurredAt = key.1 := congrArg Prod.fst hkey
    have hwindow := himpressions r hr
    rw [hdate] at hwindow
    exact decide_eq_true hwindow

theorem summaryRows_total (events impressions : List (Row φ)) :
    (((tally (activityEntries events impressions) []).map summaryRow).map
      SummaryRow.recordCount).sum = events.length + impressions.length := by
  have hrecords : (tally (activityEntries events impressions) []).map
      (SummaryRow.recordCount ∘ summaryRow) =
        ((tally (activityEntries events impressions) []).map Prod.snd).map
          ActivityBucket.records := by
    rw [List.map_map]
    rfl
  have hunits : (activityEntries events impressions).map (ActivityBucket.records ∘ Prod.snd) =
      (activityEntries events impressions).map fun _ => 1 := by
    refine List.map_congr_left fun entry hentry => ?_
    rcases List.mem_append.mp hentry with hentry | hentry
    · obtain ⟨r, -, rfl⟩ := List.mem_map.mp hentry
      rfl
    · obtain ⟨r, -, rfl⟩ := List.mem_map.mp hentry
      rfl
  rw [List.map_map, hrecords, ← records_sum, sum_tally, List.map_nil, List.sum_nil, zero_add,
    records_sum, List.map_map, hunits]
  unfold activityEntries
  simp [Function.comp_def]

/-! ### One run -/

section
variable {since stop : ℤ} {before after : SummaryTable} {written : ℕ}

theorem summarise_ok (h : summarise (events.map storedEvent) (impressions.map storedImpression)
      since stop before = .ok (after, written)) :
    ∃ rows : List SummaryRow,
      rows.Perm ((tally (activityEntries events impressions) []).map summaryRow) ∧
      activitySummaryRows (tally (activityEntries events impressions) []) = .ok rows ∧
      storeActivitySummary before since stop rows = .ok after ∧ written = rows.length := by
  unfold summarise at h
  rw [activityBuckets_eq] at h
  cases hrows : activitySummaryRows (tally (activityEntries events impressions) []) with
  | error e =>
    rw [hrows] at h
    cases h
  | ok rows =>
    rw [hrows] at h
    cases hstore : storeActivitySummary before since stop rows with
    | error e =>
      simp only [hstore] at h
      cases h
    | ok stored =>
      simp only [hstore] at h
      cases h
      exact ⟨rows, activitySummaryRows_perm hrows, rfl, hstore, rfl⟩

theorem summarise_of {rows : List SummaryRow}
    (hrows : activitySummaryRows (tally (activityEntries events impressions) []) = .ok rows)
    (hstore : storeActivitySummary before since stop rows = .ok after) :
    summarise (events.map storedEvent) (impressions.map storedImpression) since stop before =
      .ok (after, rows.length) := by
  unfold summarise
  rw [activityBuckets_eq, hrows]
  simp only [hstore]
  rfl

/-- Where no key is null, neither the sort nor the table refuses a row. -/
theorem summarise_succeeds (hwindow : ∀ row ∈ (tally (activityEntries events impressions) []).map
      summaryRow, inWindow since stop row = true)
    (hevents : ∀ r ∈ events, (r.other .eventType).toText ≠ none)
    (himpressions : ∀ r ∈ impressions, (r.other .policyId).toText ≠ none) (before : SummaryTable) :
    ∃ after written, summarise (events.map storedEvent) (impressions.map storedImpression) since
      stop before = .ok (after, written) := by
  have hnamed : ∀ entry ∈ tally (activityEntries events impressions) [], entry.1.2.2 ≠ none := by
    rintro ⟨key, bucket⟩ hentry
    obtain ⟨⟨r, hr, rfl⟩ | ⟨r, hr, rfl⟩, -⟩ := mem_buckets.mp hentry
    · exact hevents r hr
    · exact himpressions r hr
  have hsorted : ∃ rows, activitySummaryRows (tally (activityEntries events impressions) []) =
      .ok rows := by
    unfold activitySummaryRows
    rw [if_neg ?_]
    · exact ⟨_, rfl⟩
    · simp only [List.any_eq_true, not_exists, not_and]
      intro a ha b _ horder
      exact hnamed a ha (of_decide_eq_true horder).2.2.1
  obtain ⟨rows, hrows⟩ := hsorted
  have hperm := activitySummaryRows_perm hrows
  have hkeys : (rows.map SummaryRow.primaryKey).Nodup := by
    rw [(hperm.map _).nodup_iff, List.map_map]
    exact nodup_tally List.nodup_nil
  have hdisjoint : ((before.delete since stop).rows.map SummaryRow.primaryKey).Disjoint
      (rows.map SummaryRow.primaryKey) := by
    intro key hold hnew
    obtain ⟨row, hrow, rfl⟩ := List.mem_map.mp hold
    obtain ⟨row', hrow', hsame⟩ := List.mem_map.mp hnew
    have hout := (List.mem_filter.mp hrow).2
    have hin := hwindow row' (hperm.mem_iff.mp hrow')
    have hdate : row'.summaryDate = row.summaryDate := congrArg Prod.fst hsame
    unfold inWindow at hout hin
    rw [hdate] at hin
    simp [hin] at hout
  have hfilled : ∀ row ∈ rows, row.dimensionKey ≠ none := by
    intro row hrow
    obtain ⟨entry, hentry, rfl⟩ := List.mem_map.mp (hperm.mem_iff.mp hrow)
    exact hnamed entry hentry
  have hnodup : (((before.delete since stop).rows ++ rows).map SummaryRow.primaryKey).Nodup := by
    rw [List.map_append]
    exact List.Nodup.append (before.delete since stop).distinct hkeys hdisjoint
  obtain ⟨after, hafter⟩ := insertRows_ok hfilled hnodup
  exact ⟨after, rows.length, summarise_of hrows hafter⟩

end

variable {published : List String} {days : ℤ} {now since stop : Datetime}

omit [Zero φ] [DecidableEq φ] in
theorem streams_window (hstreams : Streams grants (summaryRequest since stop) database events
      impressions) (hwindow : activitySummaryWindow days now = .ok (since, stop)) :
    (∀ r ∈ events, utcDate since.instant ≤ utcDate r.occurredAt ∧
      utcDate r.occurredAt < utcDate stop.instant) ∧
    ∀ r ∈ impressions, utcDate since.instant ≤ utcDate r.occurredAt ∧
      utcDate r.occurredAt < utcDate stop.instant := by
  constructor
  · intro r hr
    have hadmitted := ((hstreams.mem_events r).mp hr).2
    exact inWindow_utcDate hwindow hadmitted.since hadmitted.stop
  · intro r hr
    have hadmitted := ((hstreams.mem_impressions r).mp hr).2
    exact inWindow_utcDate hwindow hadmitted.since hadmitted.stop

theorem exactSummary_of_streams {before after : SummaryTable} {written : ℕ}
    (hstreams : Streams grants (summaryRequest since stop) database events impressions)
    (hwindow : activitySummaryWindow days now = .ok (since, stop))
    (h : summarise (events.map storedEvent) (impressions.map storedImpression)
      (utcDate since.instant) (utcDate stop.instant) before = .ok (after, written)) :
    ExactSummary grants (summaryRequest since stop) database before after ∧
      written = (after.rows.filter
        (inWindow (utcDate since.instant) (utcDate stop.instant))).length ∧
      summarise (events.map storedEvent) (impressions.map storedImpression)
        (utcDate since.instant) (utcDate stop.instant) after = .ok (after, written) := by
  obtain ⟨rows, hperm, hrows, hstore, rfl⟩ := summarise_ok h
  obtain ⟨hevents, himpressions⟩ := streams_window hstreams hwindow
  have hin : ∀ row ∈ rows, inWindow (utcDate since.instant) (utcDate stop.instant) row = true :=
    fun row hrow => summaryRows_window hevents himpressions (hperm.mem_iff.mp hrow)
  have hkept := store_window hin hstore
  refine ⟨⟨?_, ?_, ?_⟩, ?_, summarise_of hrows (store_again hin hstore)⟩
  · intro row
    have hmem : (row ∈ after.rows ∧
        inWindow (utcDate since.instant) (utcDate stop.instant) row = true) ↔ row ∈ rows := by
      rw [← List.mem_filter, hkept]
    show (row ∈ after.rows ∧
      inWindow (utcDate since.instant) (utcDate stop.instant) row = true) ↔ _
    rw [hmem, hperm.mem_iff]
    constructor
    · intro hrow
      have hstored := (hmem.mpr (hperm.mem_iff.mpr hrow)).1
      exact (mem_summaryRows hstreams (after.named row hstored)).mp hrow
    · intro hgroup
      refine (mem_summaryRows hstreams ?_).mpr hgroup
      rcases hgroup with ⟨date, name, -, rfl⟩ | ⟨date, name, -, rfl⟩
      · exact Option.some_ne_none name
      · exact Option.some_ne_none name
  · show ((after.rows.filter (inWindow (utcDate since.instant) (utcDate stop.instant))).map
      SummaryRow.recordCount).sum = _
    rw [hkept, (hperm.map SummaryRow.recordCount).sum_eq, summaryRows_total]
    congr 1
    · rw [← ncard_mem (ordered_nodup hstreams.events_ordered)]
      congr 1
      ext r
      exact hstreams.mem_events r
    · rw [← ncard_mem (ordered_nodup hstreams.impressions_ordered)]
      congr 1
      ext r
      exact hstreams.mem_impressions r
  · intro row hout
    exact store_outside hin hstore hout
  · rw [hkept]

/-! ### Withdrawn consent -/

/- The tables without the rows of a subject. -/
def Table.without (table : Table φ) (keyColumn : Column) (subject : UUID) : Table φ where
  rows := table.rows.filter fun r => (r.column keyColumn .subjectId).toUUID ≠ some subject
  distinct := table.distinct.sublist (List.filter_sublist.map _)

def Database.without (database : Database φ) (subject : UUID) : Database φ where
  events := database.events.without .eventId subject
  impressions := database.impressions.without .impressionId subject

omit [Zero φ] [DecidableEq φ] in
theorem without_admitted {subject : UUID} (hgrant : ¬grants.Holds subject productAnalytics)
    {keyColumn listedColumn : Column} {table : Table φ} {r : Row φ} :
    (r ∈ (table.without keyColumn subject).rows ∧
        Admitted grants (summaryRequest since stop) keyColumn listedColumn r) ↔
      r ∈ table.rows ∧ Admitted grants (summaryRequest since stop) keyColumn listedColumn r := by
  unfold Table.without
  rw [List.mem_filter]
  refine ⟨fun h => ⟨h.1.1, h.2⟩, fun h => ⟨⟨h.1, ?_⟩, h.2⟩⟩
  obtain ⟨owner, howner, hholds, -⟩ := h.2.subject
  have hne : owner ≠ subject := by
    rintro rfl
    exact hgrant (hholds _ (List.mem_singleton_self _))
  rw [howner]
  simpa [Cell.toUUID] using hne

omit [Zero φ] [DecidableEq φ] in
theorem streams_without {subject : UUID} (hgrant : ¬grants.Holds subject productAnalytics)
    {events' impressions' : List (Row φ)}
    (hstreams : Streams grants (summaryRequest since stop) database events impressions)
    (hwithout : Streams grants (summaryRequest since stop) (database.without subject) events'
      impressions') : events' = events ∧ impressions' = impressions := by
  constructor
  · refine ordered_unique hwithout.events_ordered hstreams.events_ordered fun r => ?_
    rw [hwithout.mem_events, hstreams.mem_events]
    exact without_admitted hgrant
  · refine ordered_unique hwithout.impressions_ordered hstreams.impressions_ordered fun r => ?_
    rw [hwithout.mem_impressions, hstreams.mem_impressions]
    exact without_admitted hgrant

/-- A run ends, and where it succeeds the window is the grouping of the admitted records, the rest
of the summary is as before, a second run changes nothing, and the rows of a subject without a
grant made no difference. It succeeds where no admitted record has a null key. -/
theorem activitySummary_exact (published : List String) (grants : GrantTables)
    (database : Database φ) (days : ℤ) (now : Datetime) (before : SummaryTable) :
    ∃ enough, ∀ fuel ≥ enough, ∃ outcome,
      computeAndStoreActivitySummary published grants database days now before fuel =
        some outcome ∧
      (∀ after written, outcome = .ok (after, written) →
        ∃ since stop, activitySummaryWindow days now = .ok (since, stop) ∧
          ExactSummary grants (summaryRequest since stop) database before after ∧
          written = (after.rows.filter
            (inWindow (utcDate since.instant) (utcDate stop.instant))).length ∧
          computeAndStoreActivitySummary published grants database days now after fuel =
            some (.ok (after, written)) ∧
          ∀ subject, ¬grants.Holds subject productAnalytics → ∃ enough', ∀ fuel' ≥ enough',
            computeAndStoreActivitySummary published grants (database.without subject) days now
              before fuel' = some (.ok (after, written))) ∧
      ∀ since stop, activitySummaryWindow days now = .ok (since, stop) →
        productAnalytics ∈ published →
        (∀ r ∈ database.events.rows,
          Admitted grants (summaryRequest since stop) .eventId .eventType r →
            (r.other .eventType).toText ≠ none) →
        (∀ r ∈ database.impressions.rows,
          Admitted grants (summaryRequest since stop) .impressionId .policyId r →
            (r.other .policyId).toText ≠ none) →
        ∃ after written, outcome = .ok (after, written) := by
  cases hwindow : activitySummaryWindow days now with
  | error e =>
    refine ⟨0, fun fuel _ => ⟨.error e, ?_, nofun, nofun⟩⟩
    unfold computeAndStoreActivitySummary
    rw [hwindow]
  | ok window =>
    obtain ⟨since, stop⟩ := window
    by_cases hpublished : productAnalytics ∈ published
    · obtain ⟨events, impressions, hstreams, enough, hrun⟩ :=
        computeAndStore_streams hpublished hwindow grants database
      refine ⟨enough, fun fuel hfuel => ⟨_, hrun fuel hfuel before, ?_, ?_⟩⟩
      · intro after written houtcome
        obtain ⟨hexact, hwritten, hagain⟩ := exactSummary_of_streams hstreams hwindow houtcome
        refine ⟨since, stop, rfl, hexact, hwritten, ?_, ?_⟩
        · rw [hrun fuel hfuel after, hagain]
        · intro subject hgrant
          obtain ⟨events', impressions', hstreams', enough', hrun'⟩ :=
            computeAndStore_streams hpublished hwindow grants (database.without subject)
          obtain ⟨rfl, rfl⟩ := streams_without hgrant hstreams hstreams'
          exact ⟨enough', fun fuel' hfuel' => by rw [hrun' fuel' hfuel' before, houtcome]⟩
      · intro since' stop' hsame _ hevents himpressions
        cases hsame
        obtain ⟨hdates, hdates'⟩ := streams_window hstreams hwindow
        refine summarise_succeeds (fun row => summaryRows_window hdates hdates') ?_ ?_ before
        · intro r hr
          obtain ⟨hrow, hadmitted⟩ := (hstreams.mem_events r).mp hr
          exact hevents r hrow hadmitted
        · intro r hr
          obtain ⟨hrow, hadmitted⟩ := (hstreams.mem_impressions r).mp hr
          exact himpressions r hrow hadmitted
    · refine ⟨0, fun fuel _ => ?_⟩
      obtain ⟨e, he⟩ := computeAndStore_unpublished hpublished hwindow grants database before fuel
      exact ⟨_, he, nofun, fun _ _ _ h => absurd h hpublished⟩

end

/-! ### A day with one event -/

def countedRow : Row ℤ where
  occurredAt := 5
  key := 1
  other
    | .subjectId => .uuid 7
    | .consentPurposes => .texts [productAnalytics]
    | .eventType => .text "recommendation.shown"
    | _ => .null

def countedDatabase : Database ℤ where
  events := ⟨[countedRow], List.nodup_singleton _⟩
  impressions := default

def countedGrant : GrantTables where
  userSubjects := [⟨3, 7⟩]
  consentGrants := [⟨3, productAnalytics, 0, none⟩]
  now := 1

/- A count of yesterday, and one of today that the run replaces. -/
def staleSummary : SummaryTable where
  rows := [⟨-1, eventTypeDimension, some "recommendation.shown", 4, 2, none⟩,
    ⟨0, eventTypeDimension, some "recommendation.clicked", 9, 3, none⟩]
  distinct := by decide
  named := by decide

theorem activitySummary_exact_counted : ∃ enough, ∀ fuel ≥ enough, ∃ after written,
    computeAndStoreActivitySummary [productAnalytics] countedGrant countedDatabase 1 ⟨6, some 0, 6⟩
      staleSummary fuel = some (.ok (after, written)) ∧
    computeAndStoreActivitySummary [productAnalytics] countedGrant countedDatabase 1 ⟨6, some 0, 6⟩
      after fuel = some (.ok (after, written)) := by
  obtain ⟨enough, h⟩ := activitySummary_exact [productAnalytics] countedGrant countedDatabase 1
    ⟨6, some 0, 6⟩ staleSummary
  refine ⟨enough, fun fuel hfuel => ?_⟩
  obtain ⟨outcome, hrun, hexact, hsucceeds⟩ := h fuel hfuel
  obtain ⟨after, written, rfl⟩ := hsucceeds (utcMidnight 0) (utcMidnight 1) rfl
    (List.mem_singleton_self _) (fun r hr _ => by
      rw [List.mem_singleton.mp hr]
      exact Option.some_ne_none _) nofun
  obtain ⟨-, -, -, -, -, hagain, -⟩ := hexact after written rfl
  exact ⟨after, written, hrun, hagain⟩

end AnalyticsEngine.Activity
