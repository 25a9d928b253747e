import AnalyticsEngine.Activity.Exact

/-!
# Narrower arguments of the reads

A read is the rows its arguments admit, so narrower arguments admit fewer of them. An empty list of
types or policies is the exception: the clause is chosen by the list's truth value, and an empty
list restricts nothing (`readPages_unlisted`).
-/

namespace AnalyticsEngine.Activity
open Library

/-- The calls that raise nothing. -/
structure Accepted (published : List String) (request : ReadRequest) : Prop where
  purposes : request.purposes ≠ []
  published : ∀ p ∈ request.purposes, p ∈ published
  since : request.since.zone ≠ none
  stop : request.stop.zone ≠ none
  window : request.since.ge request.stop = false
  batch : 1 ≤ request.batchSize

/-- `narrow` restricts where `wide` does, to no more. -/
def Narrows {α : Type*} (wide narrow : Option (List α)) : Prop :=
  ∀ values, wide = some values → ∃ fewer, narrow = some fewer ∧ fewer ⊆ values

/-- The second call asks for no more than the first. -/
structure AsksNoMore (first second : ReadRequest) : Prop where
  purposes : first.purposes ⊆ second.purposes
  window : ∀ t, second.since.instant ≤ t → t < second.stop.instant →
    first.since.instant ≤ t ∧ t < first.stop.instant
  subjects : Narrows first.subjects second.subjects
  listed : Narrows first.listed second.listed

/-- The list as the statement has it. -/
def ReadRequest.effective (request : ReadRequest) : ReadRequest :=
  { request with listed := if request.listed = some [] then none else request.listed }

section
variable {φ : Type*} {columns : List Column} {keyColumn listedColumn : Column}
  {published : List String} {grants : GrantTables} {first second request : ReadRequest}
  {table : Table φ}

theorem readPages_unlisted (tables : ℕ → Table φ) (fuel : ℕ) :
    readPages columns keyColumn listedColumn published grants request.effective tables fuel =
      readPages columns keyColumn listedColumn published grants request tables fuel := by
  have hclause : listedClause (φ := φ) listedColumn request.effective.listed =
      listedClause listedColumn request.listed := by
    unfold ReadRequest.effective
    cases request.listed with
    | none => rfl
    | some values =>
      cases values with
      | nil => rfl
      | cons value values => rfl
  unfold readPages
  rw [hclause]
  rfl

theorem effective_listed (request : ReadRequest) : request.effective.listed ≠ some [] := by
  unfold ReadRequest.effective
  simp only
  split_ifs with hempty
  · nofun
  · exact hempty

/-- Over tables that stay as they are, a read is the admitted rows of its table. -/
theorem readPages_static (haccepted : Accepted published request) (hcursor : ∀ r : Row φ,
      cursorKeyOf (columns.map (r.column keyColumn)) keyColumn = keyCells (rowKey r))
    (grants : GrantTables) (listedColumn : Column) (table : Table φ) :
    ∃ enough, ∀ fuel ≥ enough, ∃ pages : List (List (Row φ)),
      readPages columns keyColumn listedColumn published grants request (fun _ => table) fuel =
        .ok (some (pages.map (·.map fun r => columns.map (r.column keyColumn)))) ∧
      (pages.flatten.Pairwise fun r s => rowKey r < rowKey s) ∧
      ∀ r, r ∈ pages.flatten ↔
        r ∈ table.rows ∧ Admitted grants request.effective keyColumn listedColumn r := by
  have hpurposes : request.effective.purposes ≠ [] := haccepted.purposes
  obtain ⟨enough, hread⟩ := readPages_exact grants listedColumn (fun _ => table) hcursor hpurposes
    haccepted.published haccepted.since haccepted.stop haccepted.window haccepted.batch
    (effective_listed request)
  refine ⟨enough, fun fuel hfuel => ?_⟩
  obtain ⟨pages, hpages, hexact⟩ := hread fuel hfuel
  rw [readPages_unlisted] at hpages
  refine ⟨pages, hpages, hexact.ordered, fun r => ?_⟩
  constructor
  · intro hr
    obtain ⟨hadmitted, -, -, hrow⟩ := hexact.sound r hr
    exact ⟨hrow, hadmitted⟩
  · rintro ⟨hrow, hadmitted⟩
    obtain ⟨n, hn, -⟩ := hexact.complete r hadmitted fun _ _ => hrow
    exact List.mem_of_getElem? hn

/-- The second call's list is empty, and without a list it admits a row the first one's list
leaves out. -/
def Widens (grants : GrantTables) (first second : ReadRequest) (keyColumn listedColumn : Column)
    (table : Table φ) : Prop :=
  second.listed = some [] ∧ ∃ values, first.listed = some values ∧ values ≠ [] ∧
    ∃ r ∈ table.rows, Admitted grants { second with listed := none } keyColumn listedColumn r ∧
      ∀ value ∈ values, r.column keyColumn listedColumn ≠ .text value

/-- Narrower arguments admit fewer rows, up to the list. -/
theorem admitted_narrows (h : AsksNoMore first second) {r : Row φ}
    (hadmitted : Admitted grants second.effective keyColumn listedColumn r)
    (hlisted : ∀ values, first.effective.listed = some values →
      ∃ value ∈ values, r.column keyColumn listedColumn = .text value) :
    Admitted grants first.effective keyColumn listedColumn r := by
  obtain ⟨hsince, hstop⟩ := h.window _ hadmitted.since hadmitted.stop
  obtain ⟨subject, hsubject, hholds, hamong⟩ := hadmitted.subject
  refine ⟨hsince, hstop, fun p hp => hadmitted.snapshot p (h.purposes hp),
    ⟨subject, hsubject, fun p hp => hholds p (h.purposes hp), ?_⟩, hlisted⟩
  intro subjects hsubjects
  obtain ⟨fewer, hfewer, hsub⟩ := h.subjects subjects hsubjects
  exact hsub (hamong fewer hfewer)

theorem admitted_iff (h : AsksNoMore first second) :
    (∀ r ∈ table.rows, Admitted grants second.effective keyColumn listedColumn r →
      Admitted grants first.effective keyColumn listedColumn r) ↔
      ¬Widens grants first second keyColumn listedColumn table := by
  constructor
  · rintro hall ⟨hempty, values, hvalues, hne, r, hrow, hadmitted, hother⟩
    have heffective : second.effective = { second with listed := none } := by
      unfold ReadRequest.effective
      rw [if_pos hempty]
    have hfirst : first.effective.listed = some values := by
      unfold ReadRequest.effective
      simp only
      rw [hvalues, if_neg fun heq => hne (Option.some.inj heq)]
    rw [← heffective] at hadmitted
    obtain ⟨value, hvalue, hcell⟩ := (hall r hrow hadmitted).listed values hfirst
    exact hother value hvalue hcell
  · intro hnever r hrow hadmitted
    refine admitted_narrows h hadmitted ?_
    intro values hvalues
    have hfirst : first.listed = some values ∧ values ≠ [] := by
      unfold ReadRequest.effective at hvalues
      simp only at hvalues
      split_ifs at hvalues with hempty
      refine ⟨hvalues, ?_⟩
      rintro rfl
      exact hempty hvalues
    obtain ⟨fewer, hfewer, hsub⟩ := h.listed values hfirst.1
    by_cases hempty : fewer = []
    · -- nothing is listed: the row is one of the first call's types only if nothing widens
      subst hempty
      by_contra hnone
      refine hnever ⟨hfewer, values, hfirst.1, hfirst.2, r, hrow, ?_, ?_⟩
      · unfold ReadRequest.effective at hadmitted
        rw [if_pos hfewer] at hadmitted
        exact hadmitted
      · intro value hvalue hcell
        exact hnone ⟨value, hvalue, hcell⟩
    · have heffective : second.effective.listed = some fewer := by
        unfold ReadRequest.effective
        simp only
        rw [hfewer, if_neg fun heq => hempty (Option.some.inj heq)]
      obtain ⟨value, hvalue, hcell⟩ := hadmitted.listed fewer heffective
      exact ⟨value, hsub hvalue, hcell⟩

/-- What one table's two reads yield, built from rows that the key tells apart. -/
theorem readPages_monotone {β : Type*} (build : Row φ → β)
    (hbuild : ∀ r s, build r = build s → rowKey r = rowKey s)
    (hcursor : ∀ r : Row φ,
      cursorKeyOf (columns.map (r.column keyColumn)) keyColumn = keyCells (rowKey r))
    (hfirst : Accepted published first) (hsecond : Accepted published second)
    (h : AsksNoMore first second) (grants : GrantTables) (listedColumn : Column) (table : Table φ) :
    ∃ enough, ∀ fuel ≥ enough, ∃ pages pages' : List (List (Row φ)),
      readPages columns keyColumn listedColumn published grants first (fun _ => table) fuel =
        .ok (some (pages.map (·.map fun r => columns.map (r.column keyColumn)))) ∧
      readPages columns keyColumn listedColumn published grants second (fun _ => table) fuel =
        .ok (some (pages'.map (·.map fun r => columns.map (r.column keyColumn)))) ∧
      ((∀ row ∈ pages'.flatten.map build, row ∈ pages.flatten.map build) ↔
        ¬Widens grants first second keyColumn listedColumn table) := by
  obtain ⟨enough, hread⟩ := readPages_static hfirst hcursor grants listedColumn table
  obtain ⟨enough', hread'⟩ := readPages_static hsecond hcursor grants listedColumn table
  refine ⟨max enough enough', fun fuel hfuel => ?_⟩
  obtain ⟨pages, hpages, -, hrows⟩ := hread fuel ((le_max_left _ _).trans hfuel)
  obtain ⟨pages', hpages', -, hrows'⟩ := hread' fuel ((le_max_right _ _).trans hfuel)
  refine ⟨pages, pages', hpages, hpages', ?_⟩
  rw [← admitted_iff h]
  constructor
  · intro hall r hrow hadmitted
    obtain ⟨s, hs, hsame⟩ := List.mem_map.mp
      (hall (build r) (List.mem_map_of_mem ((hrows' r).mpr ⟨hrow, hadmitted⟩)))
    obtain ⟨hstored, hadmitted'⟩ := (hrows s).mp hs
    rw [List.inj_on_of_nodup_map table.distinct hrow hstored (hbuild s r hsame).symm]
    exact hadmitted'
  · intro hall row hrow
    obtain ⟨r, hr, rfl⟩ := List.mem_map.mp hrow
    obtain ⟨hstored, hadmitted⟩ := (hrows' r).mp hr
    exact List.mem_map_of_mem ((hrows r).mpr ⟨hstored, hall r hstored hadmitted⟩)

theorem storedEvent_key [Zero φ] [DecidableEq φ] {r s : Row φ} (h : storedEvent r = storedEvent s) :
    rowKey r = rowKey s := by
  have hkey := congrArg Event.eventId h
  have htime := congrArg Event.occurredAt h
  unfold rowKey
  rw [Cell.timestamp.inj htime, Cell.uuid.inj hkey]

theorem storedImpression_key {r s : Row φ} (h : storedImpression r = storedImpression s) :
    rowKey r = rowKey s := by
  have hkey := congrArg Impression.impressionId h
  have htime := congrArg Impression.occurredAt h
  unfold rowKey
  rw [Cell.timestamp.inj htime, Cell.uuid.inj hkey]

theorem readEvents_monotone [Zero φ] [DecidableEq φ] (hfirst : Accepted published first)
    (hsecond : Accepted published second) (h : AsksNoMore first second) (grants : GrantTables)
    (database : Database φ) :
    ∃ enough, ∀ fuel ≥ enough, ∃ pages pages' : List (List (Event φ)),
      readEvents published grants first (fun _ => database) fuel = .ok (some pages) ∧
      readEvents published grants second (fun _ => database) fuel = .ok (some pages') ∧
      ((∀ event ∈ pages'.flatten, event ∈ pages.flatten) ↔
        ¬Widens grants first second .eventId .eventType database.events) := by
  obtain ⟨enough, hread⟩ := readPages_monotone storedEvent (fun _ _ => storedEvent_key)
    cursorKeyOf_event hfirst hsecond h grants .eventType database.events
  refine ⟨enough, fun fuel hfuel => ?_⟩
  obtain ⟨pages, pages', hpages, hpages', hiff⟩ := hread fuel hfuel
  refine ⟨pages.map (·.map storedEvent), pages'.map (·.map storedEvent), ?_, ?_, ?_⟩
  · unfold readEvents
    rw [hpages]
    simp [Except.map, eventOf_row]
  · unfold readEvents
    rw [hpages']
    simp [Except.map, eventOf_row]
  · rw [← List.map_flatten, ← List.map_flatten]
    exact hiff

theorem readImpressions_monotone (hfirst : Accepted published first)
    (hsecond : Accepted published second) (h : AsksNoMore first second) (grants : GrantTables)
    (database : Database φ) :
    ∃ enough, ∀ fuel ≥ enough, ∃ pages pages' : List (List (Impression φ)),
      readImpressions published grants first (fun _ => database) fuel = .ok (some pages) ∧
      readImpressions published grants second (fun _ => database) fuel = .ok (some pages') ∧
      ((∀ impression ∈ pages'.flatten, impression ∈ pages.flatten) ↔
        ¬Widens grants first second .impressionId .policyId database.impressions) := by
  obtain ⟨enough, hread⟩ := readPages_monotone storedImpression (fun _ _ => storedImpression_key)
    cursorKeyOf_impression hfirst hsecond h grants .policyId database.impressions
  refine ⟨enough, fun fuel hfuel => ?_⟩
  obtain ⟨pages, pages', hpages, hpages', hiff⟩ := hread fuel hfuel
  refine ⟨pages.map (·.map storedImpression), pages'.map (·.map storedImpression), ?_, ?_, ?_⟩
  · unfold readImpressions
    rw [hpages]
    simp [Except.map, impressionOf_row]
  · unfold readImpressions
    rw [hpages']
    simp [Except.map, impressionOf_row]
  · rw [← List.map_flatten, ← List.map_flatten]
    exact hiff

/-- Narrower arguments yield fewer rows, unless an empty list takes the restriction away. -/
theorem reads_monotone [Zero φ] [DecidableEq φ] (published : List String) (grants : GrantTables)
    (database : Database φ) {first second : ReadRequest} (hfirst : Accepted published first)
    (hsecond : Accepted published second) (h : AsksNoMore first second) :
    ∃ enough, ∀ fuel ≥ enough,
      (∃ pages pages', readEvents published grants first (fun _ => database) fuel = .ok (some pages) ∧
        readEvents published grants second (fun _ => database) fuel = .ok (some pages') ∧
        ((∀ event ∈ pages'.flatten, event ∈ pages.flatten) ↔
          ¬Widens grants first second .eventId .eventType database.events)) ∧
      ∃ pages pages',
        readImpressions published grants first (fun _ => database) fuel = .ok (some pages) ∧
        readImpressions published grants second (fun _ => database) fuel = .ok (some pages') ∧
        ((∀ impression ∈ pages'.flatten, impression ∈ pages.flatten) ↔
          ¬Widens grants first second .impressionId .policyId database.impressions) := by
  obtain ⟨enough, hevents⟩ := readEvents_monotone hfirst hsecond h grants database
  obtain ⟨enough', himpressions⟩ := readImpressions_monotone hfirst hsecond h grants database
  exact ⟨max enough enough', fun fuel hfuel =>
    ⟨hevents fuel ((le_max_left _ _).trans hfuel),
      himpressions fuel ((le_max_right _ _).trans hfuel)⟩⟩

end

/-! ### An empty list of types -/

def shownRow : Row ℤ where
  occurredAt := 5
  key := 1
  other
    | .subjectId => .uuid 7
    | .consentPurposes => .texts ["model_training"]
    | .eventType => .text "recommendation.shown"
    | _ => .null

def shownDatabase : Database ℤ where
  events := ⟨[shownRow], by decide⟩
  impressions := default

def clicksOnly : ReadRequest := { oneByOne with listed := some ["recommendation.clicked"] }

def noTypes : ReadRequest := { oneByOne with listed := some [] }

theorem accepted_oneByOne (listed : Option (List String)) :
    Accepted ["model_training"] { oneByOne with listed := listed } where
  purposes := (by decide : oneByOne.purposes ≠ [])
  published _ hp := hp
  since := (by decide : oneByOne.since.zone ≠ none)
  stop := (by decide : oneByOne.stop.zone ≠ none)
  window := (by decide : oneByOne.since.ge oneByOne.stop = false)
  batch := (by decide : 1 ≤ oneByOne.batchSize)

theorem noTypes_asksNoMore : AsksNoMore clicksOnly noTypes where
  purposes := fun _ hp => hp
  window _ hsince hstop := ⟨hsince, hstop⟩
  subjects := nofun
  listed _ _ := ⟨[], rfl, List.nil_subset _⟩

theorem reads_monotone_noTypes : ∃ enough, ∀ fuel ≥ enough,
    ∃ pages pages',
      readEvents ["model_training"] oneGrant { oneByOne with listed := none }
        (fun _ => shownDatabase) fuel = .ok (some pages) ∧
      readEvents ["model_training"] oneGrant noTypes (fun _ => shownDatabase) fuel =
        .ok (some pages') ∧
      ∀ event ∈ pages'.flatten, event ∈ pages.flatten := by
  obtain ⟨enough, h⟩ := reads_monotone ["model_training"] oneGrant shownDatabase
    (accepted_oneByOne none) (accepted_oneByOne (some []))
    ⟨fun _ hp => hp, fun _ hsince hstop => ⟨hsince, hstop⟩, nofun, nofun⟩
  refine ⟨enough, fun fuel hfuel => ?_⟩
  obtain ⟨⟨pages, pages', hpages, hpages', hiff⟩, -⟩ := h fuel hfuel
  refine ⟨pages, pages', hpages, hpages', hiff.mpr ?_⟩
  rintro ⟨-, values, hvalues, -⟩
  cases hvalues

/-- Asked for clicks, the read yields nothing; asked for no type at all, it yields an event that
was shown. -/
theorem noTypes_widens : ∃ enough, ∀ fuel ≥ enough,
    ∃ pages pages',
      readEvents ["model_training"] oneGrant clicksOnly (fun _ => shownDatabase) fuel =
        .ok (some pages) ∧
      readEvents ["model_training"] oneGrant noTypes (fun _ => shownDatabase) fuel =
        .ok (some pages') ∧
      AsksNoMore clicksOnly noTypes ∧ ¬∀ event ∈ pages'.flatten, event ∈ pages.flatten := by
  obtain ⟨enough, h⟩ := readEvents_monotone (accepted_oneByOne (some ["recommendation.clicked"]))
    (accepted_oneByOne (some [])) noTypes_asksNoMore oneGrant shownDatabase
  refine ⟨enough, fun fuel hfuel => ?_⟩
  obtain ⟨pages, pages', hpages, hpages', hiff⟩ := h fuel hfuel
  refine ⟨pages, pages', hpages, hpages', noTypes_asksNoMore, hiff.not.mpr (not_not_intro ?_)⟩
  refine ⟨rfl, _, rfl, List.cons_ne_nil _ _, shownRow, List.mem_singleton_self _, ?_, ?_⟩
  · refine ⟨by decide, by decide, fun p hp => ⟨_, rfl, hp⟩, ⟨7, rfl, ?_, nofun⟩, nofun⟩
    intro p hp
    refine ⟨_, List.mem_singleton_self _, rfl, _, List.mem_singleton_self _, rfl, ?_⟩
    exact ⟨(List.mem_singleton.mp hp).symm, rfl, by decide⟩
  · intro value hvalue hcell
    rw [List.mem_singleton.mp hvalue] at hcell
    exact absurd (Cell.text.inj hcell) (by decide)

end AnalyticsEngine.Activity
