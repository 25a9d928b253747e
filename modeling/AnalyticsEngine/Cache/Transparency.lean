import AnalyticsEngine.Cache.Endpoints

/-!
# When a cached body is the body

Behind `insights:` a key is an endpoint's name and, from the first colon on, its parameters, so
equal keys mean the same endpoint with the same parameters (`cacheKey_determines`). The body of
`this_month` also depends on the year and the month, which its key names; the body of
`activity_summary` depends on the date, which its key does not name.
-/

namespace AnalyticsEngine.Cache
open Library

/-! ### What a key determines -/

/-- The part of a key in front of its parameters. -/
def Request.endpoint : Request → String
  | .topArtists _ => "top-artists"
  | .genreTrends _ => "genre-trends"
  | .labelLongevity _ _ => "label-longevity"
  | .releaseRarity _ => "release-rarity"
  | .thisMonth => "this-month"
  | .dataCompleteness => "data-completeness"
  | .activitySummary _ => "activity-summary"
  | .styleAtlas => "style-atlas"
  | .styleAtlasCotags _ => "style-atlas"

def Asked.parameters (asked : Asked) : List Char :=
  let now := fromordinal asked.today
  match asked.request with
  | .topArtists limit => ':' :: Nat.toDigits 10 limit
  | .genreTrends genre => ':' :: genre.toList
  | .labelLongevity limit includePlaceholders => ':' :: (Nat.toDigits 10 limit ++
      ':' :: (if includePlaceholders then "placeholders" else "real").toList)
  | .releaseRarity limit => ':' :: Nat.toDigits 10 limit
  | .thisMonth => ':' :: (Nat.toDigits 10 now.year ++ '-' :: Nat.toDigits 10 now.month)
  | .dataCompleteness => []
  | .activitySummary days => ':' :: Nat.toDigits 10 days
  | .styleAtlas => []
  | .styleAtlasCotags style => ':' :: ("cotags:".toList ++ style.toList)

theorem cacheKey_toList (asked : Asked) : (cacheKey asked).toList =
    "insights:".toList ++ (asked.request.endpoint.toList ++ asked.parameters) := by
  obtain ⟨request, today, recent⟩ := asked
  unfold cacheKey Asked.parameters
  generalize fromordinal today = now
  cases request with
  | labelLongevity limit includePlaceholders =>
    cases includePlaceholders <;> simp [Request.endpoint]
  | _ => simp [Request.endpoint]

theorem cacheKey_suffix (asked : Asked) : ( removeprefix (cacheKey asked) "insights:").toList =
    asked.request.endpoint.toList ++ asked.parameters := by
  have hsplit : cacheKey asked =
      "insights:" ++ String.ofList (asked.request.endpoint.toList ++ asked.parameters) := by
    apply String.toList_inj.mp
    simp only [cacheKey_toList, String.toList_append, String.toList_ofList]
  rw [hsplit, removeprefix_append, String.toList_ofList]

theorem colon_notMem_endpoint (request : Request) : ':' ∉ request.endpoint.toList := by
  cases request <;> simp [Request.endpoint]

theorem parameters_shape (asked : Asked) :
    asked.parameters = [] ∨ ∃ rest, asked.parameters = ':' :: rest := by
  obtain ⟨request, today, recent⟩ := asked
  cases request with
  | dataCompleteness => exact Or.inl rfl
  | styleAtlas => exact Or.inl rfl
  | _ => exact Or.inr ⟨_, rfl⟩

theorem suffix_inj {first second : Asked}
    (h : removeprefix (cacheKey first) "insights:" = removeprefix (cacheKey second) "insights:") :
    first.request.endpoint = second.request.endpoint ∧ first.parameters = second.parameters := by
  have hlist := congrArg String.toList h
  rw [cacheKey_suffix, cacheKey_suffix] at hlist
  obtain ⟨hendpoint, hparameters⟩ := name_cancel (colon_notMem_endpoint _)
    (colon_notMem_endpoint _) (parameters_shape _) (parameters_shape _) hlist
  exact ⟨String.toList_inj.mp hendpoint, hparameters⟩

/-- The requests of one key: the same endpoint and parameters, in the same month if the
endpoint is `this_month`. -/
structure SameKey (first second : Asked) : Prop where
  request : first.request = second.request
  month : second.request = .thisMonth →
    (fromordinal first.today).year = (fromordinal second.today).year ∧
      (fromordinal first.today).month = (fromordinal second.today).month

theorem limit_inj {hi : ℕ} {m n : Limit hi}
    (h : Nat.toDigits 10 m.val = Nat.toDigits 10 n.val) : m = n :=
  Subtype.ext (toDigits_inj h)

theorem cacheKey_determines {first second : Asked}
    (h : removeprefix (cacheKey first) "insights:" = removeprefix (cacheKey second) "insights:") :
    SameKey first second := by
  obtain ⟨hendpoint, hparameters⟩ := suffix_inj h
  obtain ⟨request, today, recent⟩ := first
  obtain ⟨request', today', recent'⟩ := second
  unfold Asked.parameters at hparameters
  generalize hnow : fromordinal today = now at hparameters
  generalize hnow' : fromordinal today' = now' at hparameters
  cases request <;> cases request' <;> simp [Request.endpoint] at hendpoint
  case topArtists.topArtists limit limit' =>
    obtain rfl := limit_inj (List.tail_eq_of_cons_eq hparameters)
    exact ⟨rfl, fun hmonth => by cases hmonth⟩
  case genreTrends.genreTrends genre genre' =>
    obtain rfl := String.toList_inj.mp (List.tail_eq_of_cons_eq hparameters)
    exact ⟨rfl, fun hmonth => by cases hmonth⟩
  case labelLongevity.labelLongevity limit flag limit' flag' =>
    obtain ⟨hlimit, hflag⟩ := digits_cancel isDigit_toDigits isDigit_toDigits (by decide)
      (List.tail_eq_of_cons_eq hparameters)
    obtain rfl := limit_inj hlimit
    obtain rfl : flag = flag' := by
      cases flag <;> cases flag' <;> simp at hflag ⊢
    exact ⟨rfl, fun hmonth => by cases hmonth⟩
  case releaseRarity.releaseRarity limit limit' =>
    obtain rfl := limit_inj (List.tail_eq_of_cons_eq hparameters)
    exact ⟨rfl, fun hmonth => by cases hmonth⟩
  case thisMonth.thisMonth =>
    obtain ⟨hyear, hmonth⟩ := digits_cancel isDigit_toDigits isDigit_toDigits (by decide)
      (List.tail_eq_of_cons_eq hparameters)
    rw [← hnow, ← hnow'] at hyear hmonth
    exact ⟨rfl, fun _ => ⟨toDigits_inj hyear, toDigits_inj hmonth⟩⟩
  case dataCompleteness.dataCompleteness => exact ⟨rfl, fun hmonth => by cases hmonth⟩
  case activitySummary.activitySummary days days' =>
    obtain rfl := limit_inj (List.tail_eq_of_cons_eq hparameters)
    exact ⟨rfl, fun hmonth => by cases hmonth⟩
  case styleAtlas.styleAtlas => exact ⟨rfl, fun hmonth => by cases hmonth⟩
  case styleAtlas.styleAtlasCotags style => cases hparameters
  case styleAtlasCotags.styleAtlas style => cases hparameters
  case styleAtlasCotags.styleAtlasCotags style style' =>
    obtain rfl := String.toList_inj.mp
      (List.append_cancel_left (List.tail_eq_of_cons_eq hparameters))
    exact ⟨rfl, fun hmonth => by cases hmonth⟩

/-! ### What a body depends on -/

section
variable {φ : Type*}

theorem cutoff_inj {today today' : ℕ} {days : Limit 90} (h : 90 ≤ today) (h' : 90 ≤ today')
    (hcutoff : cutoff today days = cutoff today' days) : today = today' := by
  unfold cutoff at hcutoff
  have hdays := days.property
  have hordinal := fromordinal_inj (by omega) (by omega) hcutoff
  omega

theorem activitySummary_since {first second : Asked} {days : Limit 90} {answers : Answers φ}
    (hfirst : first.request = .activitySummary days)
    (hsecond : second.request = .activitySummary days)
    (h : endpointBody first answers = endpointBody second answers) : first.today = second.today := by
  unfold endpointBody at h
  simp only [hfirst, hsecond, Json.obj.injEq, List.cons.injEq, Prod.mk.injEq, Json.str.injEq,
    true_and] at h
  exact cutoff_inj first.recent second.recent (isoformat_inj h.1)

/-- Requests of one key have one body, except for `activity_summary` on two dates. -/
theorem endpointBody_eq_iff {first second : Asked} (h : SameKey first second)
    (answers : Answers φ) : endpointBody first answers = endpointBody second answers ↔
      ∀ days, second.request = .activitySummary days → first.today = second.today := by
  constructor
  · intro hbody days hsecond
    exact activitySummary_since (h.request.trans hsecond) hsecond hbody
  · intro hdate
    have hrequest := h.request
    have hmonth := h.month
    obtain ⟨request, today, recent⟩ := first
    obtain ⟨request', today', recent'⟩ := second
    cases hrequest
    unfold endpointBody
    cases request with
    | activitySummary days =>
      obtain rfl : today = today' := hdate days rfl
      rfl
    | thisMonth =>
      obtain ⟨hyear, hmonth⟩ := hmonth rfl
      simp only [hyear, hmonth]
    | _ => rfl

/-- A request answered from an entry, while the tables are those the entry was computed from,
gets the body it would compute itself, unless it is `activity_summary` and the date has changed
since. -/
theorem cached_body_eq_iff {keyPrefix : String} {tables : Answers φ}
    {s : State Asked (Answers φ) (Json φ)}
    (h : Reachable (State.step (insightsApi φ) keyPrefix) (State.initial tables) s) {id : ℕ}
    {first second : Asked} {started g : ℕ} {fetched : Option ℕ} {body : Json φ}
    {reads : List (Snapshot (Answers φ))}
    (hsession : s.sessions id =
      some ⟨second, started, fetched, g, .answered body first reads⟩)
    (hunchanged : ∀ snap ∈ reads, snap.tables = s.tables) :
    body = endpointBody second s.tables ↔
      ∀ days, second.request = .activitySummary days → first.today = second.today := by
  obtain ⟨hbody, hkey, _⟩ := ((reachable_inv h).sessions id _ hsession).stage
  have hrespond : body = endpointBody first s.tables := by
    cases reads with
    | nil => cases hbody
    | cons snap later =>
      have htables := hunchanged snap List.mem_cons_self
      cases hbody
      rw [htables]
  rw [hrespond]
  exact endpointBody_eq_iff (cacheKey_determines hkey) s.tables

def askTwice (first second : Asked) : List (Action Asked (Answers φ)) :=
  [.generation 1 first false, .get 1 false, .query 1, .set 1 true, .generation 2 second false,
    .get 2 false]

theorem askTwice_hit (keyPrefix : String) (tables : Answers φ) (first second : Asked)
    (hkey : cacheKey first = cacheKey second) (hcaches : endpointCaches first tables = true) :
    ∃ s, runActions (insightsApi φ) keyPrefix (State.initial tables) (askTwice first second) =
        some s ∧
      s.log = [] ∧ s.increments = [] ∧ s.tables = tables ∧
      s.sessions 2 = some ⟨second, 4, some 4, 0,
        .answered (endpointBody first tables) first [⟨1, 2, 0, tables⟩]⟩ := by
  simp [askTwice, runActions, State.step, State.initial, State.tick, State.put, State.get,
    State.generation, State.store, State.snapshot, insightsApi, tablesOf, hcaches, hkey]

end

def noRows : Answers ℤ where
  artistCentrality _ := []
  genreTrends _ := []
  realLabels _ := []
  rankedLabels _ := []
  releaseRarity _ := []
  anniversaries _ _ := []
  dataCompleteness := []
  activitySummary _ := []
  styleAtlas := .null
  styleCotags _ := []

theorem cached_body_eq_iff_genre : ∃ s : State Asked (Answers ℤ) (Json ℤ),
    runActions (insightsApi ℤ) "groovemap:" (State.initial noRows)
      (askTwice ⟨.genreTrends "A:B", 738000, by decide⟩ ⟨.genreTrends "A:B", 738001, by decide⟩) =
        some s ∧
    ∃ body reads, s.sessions 2 = some ⟨⟨.genreTrends "A:B", 738001, by decide⟩, 4, some 4, 0,
        .answered body ⟨.genreTrends "A:B", 738000, by decide⟩ reads⟩ ∧
      body = endpointBody ⟨.genreTrends "A:B", 738001, by decide⟩ s.tables := by
  obtain ⟨s, hs, _, _, htables, hsession⟩ := askTwice_hit "groovemap:" noRows
    ⟨.genreTrends "A:B", 738000, by decide⟩ ⟨.genreTrends "A:B", 738001, by decide⟩ rfl rfl
  refine ⟨s, hs, _, _, hsession, ?_⟩
  apply (cached_body_eq_iff (runActions_reachable .start hs) hsession ?_).mpr
  · intro days hdays
    cases hdays
  · intro snap hsnap
    obtain rfl := List.mem_singleton.mp hsnap
    exact htables.symm

def lastWeek (today : ℕ) (recent : 90 ≤ today) : Asked :=
  ⟨.activitySummary ⟨7, by decide⟩, today, recent⟩

/-- One generation and one state of the tables, but the body of the day before. -/
theorem activitySummary_dayBefore : ∃ s : State Asked (Answers ℤ) (Json ℤ),
    runActions (insightsApi ℤ) "groovemap:" (State.initial noRows)
      (askTwice (lastWeek 738000 (by decide)) (lastWeek 738001 (by decide))) = some s ∧
    s.log = [] ∧ s.increments = [] ∧ s.tables = noRows ∧
    ∃ body reads, s.sessions 2 = some ⟨lastWeek 738001 (by decide), 4, some 4, 0,
        .answered body (lastWeek 738000 (by decide)) reads⟩ ∧
      body ≠ endpointBody (lastWeek 738001 (by decide)) noRows := by
  obtain ⟨s, hs, hlog, hincrements, htables, hsession⟩ := askTwice_hit "groovemap:" noRows
    (lastWeek 738000 (by decide)) (lastWeek 738001 (by decide)) rfl rfl
  refine ⟨s, hs, hlog, hincrements, htables, _, _, hsession, ?_⟩
  intro hbody
  have hdate := activitySummary_since rfl rfl hbody
  exact absurd hdate (by decide)

end AnalyticsEngine.Cache
