import AnalyticsEngine.Cache.Freshness
import AnalyticsEngine.Library.Calendar
import AnalyticsEngine.Library.Json

/-!
# The cached endpoints of insights/insights.py

The nine read endpoints: their cache keys and their bodies, as JSON, from what PostgreSQL
answers to their statements. A query parameter that FastAPI validates carries its bounds.
-/

namespace AnalyticsEngine.Cache
open Library

/-! ### What PostgreSQL answers -/

structure CentralityRow where
  rank : ℤ
  artistId : String
  artistName : String
  edgeCount : ℤ

structure TrendRow where
  decade : ℤ
  releaseCount : ℤ

structure LabelRow where
  rank : ℤ
  labelId : String
  labelName : String
  firstYear : ℤ
  lastYear : Option ℤ
  yearsActive : ℤ
  totalReleases : ℤ
  peakDecade : Option ℤ
  stillActive : Bool
  isPlaceholder : Bool

structure RarityRow (φ : Type*) where
  releaseId : ℤ
  title : String
  artistName : String
  year : Option ℤ
  rarityScore : φ
  tier : String
  hiddenGemScore : φ
  pressingScarcity : Option φ
  labelCatalog : φ
  formatRarity : φ
  temporalScarcity : φ
  graphIsolation : φ
  collectionPrevalence : φ
  mediaFamilies : Option (List String)
  familySignals : Option (List (String × List (String × φ)))
  mediumRarity : Option φ

structure AnniversaryRow where
  masterId : String
  title : String
  artistName : Option String
  releaseYear : ℤ
  anniversary : ℤ

structure CompletenessRow (φ : Type*) where
  entityType : String
  totalCount : ℤ
  withImage : ℤ
  withYear : ℤ
  withCountry : ℤ
  withGenre : ℤ
  completenessPct : Option φ

structure SummaryRow where
  summaryDate : Date
  dimension : String
  dimensionKey : String
  recordCount : ℤ
  subjectCount : ℤ
  candidateSetCount : Option ℤ

structure CotagRow where
  other : String
  releaseCount : ℤ
  rank : ℤ

/- The rows each statement returns, by its parameters, as long as the tables stay as they are.
`styleAtlas` is what `read_style_atlas` assembles from its statements, none of which depends on
the request or the clock. -/
structure Answers (φ : Type*) where
  artistCentrality : ℕ → List CentralityRow
  genreTrends : String → List TrendRow
  realLabels : ℕ → List LabelRow
  rankedLabels : ℕ → List LabelRow
  releaseRarity : ℕ → List (RarityRow φ)
  anniversaries : ℕ → ℕ → List AnniversaryRow
  dataCompleteness : List (CompletenessRow φ)
  activitySummary : Date → List SummaryRow
  styleAtlas : Json φ
  styleCotags : String → List CotagRow

/-! ### Requests -/

/-- A parameter declared with `ge=1, le=hi`. -/
abbrev Limit (hi : ℕ) := { n : ℕ // 1 ≤ n ∧ n ≤ hi }

inductive Request where
  | topArtists (limit : Limit 500)
  | genreTrends (genre : String)
  | labelLongevity (limit : Limit 200) (includePlaceholders : Bool)
  | releaseRarity (limit : Limit 500)
  | thisMonth
  | dataCompleteness
  | activitySummary (days : Limit 90)
  | styleAtlas
  | styleAtlasCotags (style : String)

/- A request and the ordinal of the UTC date at which it is answered, past the first days of
year 1. -/
structure Asked where
  request : Request
  today : ℕ
  recent : 90 ≤ today

def cutoff (today days : ℕ) : Date := fromordinal (today - (days - 1))

/-- The `cache_key` of each endpoint. -/
def cacheKey (asked : Asked) : String :=
  let now := fromordinal asked.today
  match asked.request with
  | .topArtists limit => "insights:top-artists:" ++ Nat.repr limit
  | .genreTrends genre => "insights:genre-trends:" ++ genre
  | .labelLongevity limit includePlaceholders =>
    "insights:label-longevity:" ++ Nat.repr limit ++ ":" ++
      if includePlaceholders then "placeholders" else "real"
  | .releaseRarity limit => "insights:release-rarity:" ++ Nat.repr limit
  | .thisMonth => "insights:this-month:" ++ Nat.repr now.year ++ "-" ++ Nat.repr now.month
  | .dataCompleteness => "insights:data-completeness"
  | .activitySummary days => "insights:activity-summary:" ++ Nat.repr days
  | .styleAtlas => "insights:style-atlas"
  | .styleAtlasCotags style => "insights:style-atlas:cotags:" ++ style

/-! ### Bodies -/

section
variable {φ : Type*}

/- `max(trends, key=...)`: the first of the largest. -/
def peakTrend : List TrendRow → Option TrendRow
  | [] => none
  | trend :: later => some (later.foldl
      (fun best t => if best.releaseCount < t.releaseCount then t else best) trend)

def trimTrailingPlaceholders (rows : List LabelRow) (limit : ℕ) : List LabelRow :=
  if (rows.filter fun r => !r.isPlaceholder).length < limit then rows
  else
    let lastReal := ((List.range rows.length).filter fun i =>
      (rows[i]?.map fun r => !r.isPlaceholder).getD false).foldr max 0
    rows.take (lastReal + 1)

def listBody (items : List (Json φ)) : Json φ :=
  .obj [("items", .arr items), ("count", .int items.length)]

def centralityItem (r : CentralityRow) : Json φ :=
  .obj [("rank", .int r.rank), ("artist_id", .str r.artistId), ("artist_name", .str r.artistName),
    ("edge_count", .int r.edgeCount)]

def trendItem (r : TrendRow) : Json φ :=
  .obj [("decade", .int r.decade), ("release_count", .int r.releaseCount)]

def labelItem (r : LabelRow) : Json φ :=
  .obj [("rank", .int r.rank), ("label_id", .str r.labelId), ("label_name", .str r.labelName),
    ("first_year", .int r.firstYear), ("last_year", .orNull .int r.lastYear),
    ("years_active", .int r.yearsActive), ("total_releases", .int r.totalReleases),
    ("peak_decade", .orNull .int r.peakDecade), ("still_active", .bool r.stillActive),
    ("is_placeholder", .bool r.isPlaceholder)]

def rarityItem (r : RarityRow φ) : Json φ :=
  .obj [("release_id", .int r.releaseId), ("title", .str r.title),
    ("artist_name", .str r.artistName), ("year", .orNull .int r.year),
    ("rarity_score", .float r.rarityScore), ("tier", .str r.tier),
    ("hidden_gem_score", .float r.hiddenGemScore),
    ("pressing_scarcity", .orNull .float r.pressingScarcity),
    ("label_catalog", .float r.labelCatalog), ("format_rarity", .float r.formatRarity),
    ("temporal_scarcity", .float r.temporalScarcity),
    ("graph_isolation", .float r.graphIsolation),
    ("collection_prevalence", .float r.collectionPrevalence),
    ("medium_rarity", .orNull .float r.mediumRarity),
    ("media_families", .arr ((r.mediaFamilies.getD []).map .str)),
    ("family_signals", .obj ((r.familySignals.getD []).map fun family =>
      (family.1, .obj (family.2.map fun signal => (signal.1, .float signal.2)))))]

def anniversaryItem (r : AnniversaryRow) : Json φ :=
  .obj [("master_id", .str r.masterId), ("title", .str r.title),
    ("artist_name", .orNull .str r.artistName), ("release_year", .int r.releaseYear),
    ("anniversary", .int r.anniversary)]

def completenessItem (r : CompletenessRow φ) : Json φ :=
  .obj [("entity_type", .str r.entityType), ("total_count", .int r.totalCount),
    ("with_image", .int r.withImage), ("with_year", .int r.withYear),
    ("with_country", .int r.withCountry), ("with_genre", .int r.withGenre),
    ("completeness_pct", .orNull .float r.completenessPct)]

def summaryItem (r : SummaryRow) : Json φ :=
  .obj [("summary_date", .str r.summaryDate.isoformat), ("dimension", .str r.dimension),
    ("dimension_key", .str r.dimensionKey), ("record_count", .int r.recordCount),
    ("subject_count", .int r.subjectCount),
    ("candidate_set_count", .orNull .int r.candidateSetCount)]

def cotagItem (r : CotagRow) : Json φ :=
  .obj [("other", .str r.other), ("release_count", .int r.releaseCount), ("rank", .int r.rank)]

/-- The body an endpoint computes from PostgreSQL. -/
def endpointBody (asked : Asked) (answers : Answers φ) : Json φ :=
  let now := fromordinal asked.today
  match asked.request with
  | .topArtists limit =>
    let items := (answers.artistCentrality limit).map centralityItem
    .obj [("metric", .str "centrality"), ("items", .arr items), ("count", .int items.length)]
  | .genreTrends genre =>
    let rows := answers.genreTrends genre
    .obj [("genre", .str genre), ("trends", .arr (rows.map trendItem)),
      ("peak_decade", .orNull (fun t => .int t.decade) (peakTrend rows))]
  | .labelLongevity limit includePlaceholders =>
    let rows := if includePlaceholders then
        trimTrailingPlaceholders (answers.rankedLabels limit) limit
      else answers.realLabels limit
    listBody (rows.map labelItem)
  | .releaseRarity limit => listBody ((answers.releaseRarity limit).map rarityItem)
  | .thisMonth =>
    let items := (answers.anniversaries now.year now.month).map anniversaryItem
    .obj [("month", .int now.month), ("year", .int now.year), ("items", .arr items),
      ("count", .int items.length)]
  | .dataCompleteness => listBody (answers.dataCompleteness.map completenessItem)
  | .activitySummary days =>
    let items := (answers.activitySummary (cutoff asked.today days)).map summaryItem
    .obj [("days", .int days), ("since", .str (cutoff asked.today days).isoformat),
      ("items", .arr items), ("count", .int items.length)]
  | .styleAtlas => answers.styleAtlas
  | .styleAtlasCotags style => .arr ((answers.styleCotags style).map cotagItem)

/- `if _cache and items` of `this_month`; every other endpoint caches what it computes. -/
def endpointCaches (asked : Asked) (answers : Answers φ) : Bool :=
  let now := fromordinal asked.today
  match asked.request with
  | .thisMonth => !(answers.anniversaries now.year now.month).isEmpty
  | _ => true

/- The endpoints, a request's statements being answered from one state of the tables. -/
def insightsApi (φ : Type*) : Api Asked (Answers φ) (Json φ) where
  cacheKey := cacheKey
  respond asked reads := reads.head?.map (endpointBody asked)
  respond_nil _ := rfl
  caches asked reads := (reads.head?.map (endpointCaches asked)).getD false

end

end AnalyticsEngine.Cache
