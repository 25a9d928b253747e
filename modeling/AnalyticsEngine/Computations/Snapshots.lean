import AnalyticsEngine.Cache.Endpoints
import AnalyticsEngine.Computations.Log
import AnalyticsEngine.Library.Snapshots
import AnalyticsEngine.Library.TopBy
import AnalyticsEngine.StyleAtlas.Read

/-!
# Snapshots of the catalog (insights/computations.py)

These computations replace their whole table by what the producer returned, or leave it as it is.
Their readers see the last response that was stored, ranked and cut by the writer, whatever failed
since.
-/

namespace AnalyticsEngine.Computations
open Library

/- One call: what the GET returned, `none` if it raised, and how the transaction ended if it came
to its commit. -/
structure Call (α : Type*) where
  items : Option (List α)
  transaction : Statement

/- What one of the computations does with a response, and the constraints of its table. -/
structure Snapshot (α ρ : Type*) where
  keep : List α → List α
  rowsOf : List α → Option (List ρ)
  admits : List ρ → ρ → Bool

/-- The table after a history of calls. -/
def tableAfter {α ρ : Type*} (computation : List ρ → Call α → List ρ × Option ℕ) (table : List ρ)
    (history : List (Call α)) : List ρ :=
  history.foldl (fun table call => (computation table call).1) table

namespace Snapshot
variable {α ρ : Type*}

/-- `DELETE` and the inserts in one transaction. `none` is a call that raises. -/
def replaceRows (snapshot : Snapshot α ρ) (rows : List ρ) (transaction : Statement)
    (table : List ρ) : List ρ × Option ℕ :=
  match insertAll snapshot.admits [] rows with
  | none => (table, none)
  | some inserted =>
    (if transaction.commits then inserted else table,
      if transaction.fault = none then some rows.length else none)

/-- The shape of these computations: nothing to store keeps the previous snapshot. -/
def computeAndStore (snapshot : Snapshot α ρ) (table : List ρ) (call : Call α) :
    List ρ × Option ℕ :=
  match call.items with
  | none => (table, none)
  | some items =>
    match snapshot.keep items with
    | [] => (table, some 0)
    | item :: later =>
      match snapshot.rowsOf (item :: later) with
      | none => (table, none)
      | some rows => snapshot.replaceRows rows call.transaction table

/-- The response of a call whose rows replaced the table's. -/
def stored (snapshot : Snapshot α ρ) (call : Call α) : Option (List α) :=
  call.items.filter fun items =>
    snapshot.keep items ≠ [] ∧
      ((snapshot.rowsOf (snapshot.keep items)).bind (insertAll snapshot.admits [])).isSome ∧
      call.transaction.commits

def lastStored (snapshot : Snapshot α ρ) (history : List (Call α)) : Option (List α) :=
  (history.filterMap snapshot.stored).getLast?

theorem computeAndStore_stored (snapshot : Snapshot α ρ) (table : List ρ) (call : Call α) :
    (snapshot.computeAndStore table call).1 = (snapshot.stored call).elim table fun items =>
      (snapshot.rowsOf (snapshot.keep items)).getD [] := by
  unfold computeAndStore stored
  cases call.items with
  | none => rfl
  | some items =>
    simp only
    cases hkeep : snapshot.keep items with
    | nil => simp [Option.filter, hkeep]
    | cons item later =>
      simp only
      cases hrows : snapshot.rowsOf (item :: later) with
      | none => simp [Option.filter, hkeep, hrows]
      | some rows =>
        unfold replaceRows
        cases hinsert : insertAll snapshot.admits [] rows with
        | none => simp [Option.filter, hkeep, hrows, hinsert]
        | some inserted =>
          have hinserted : inserted = rows := insertAll_rows hinsert
          cases call.transaction.commits with
          | false => simp [Option.filter, hkeep, hrows, hinsert]
          | true => simp [Option.filter, hkeep, hrows, hinsert, hinserted]

/-- After any history the table holds the rows of the last response that was stored. -/
theorem tableAfter_rows {snapshot : Snapshot α ρ} {history : List (Call α)} {items : List α}
    (h : snapshot.lastStored history = some items) (table : List ρ) :
    snapshot.rowsOf (snapshot.keep items) =
      some (tableAfter snapshot.computeAndStore table history) := by
  have htable : tableAfter snapshot.computeAndStore table history =
      (snapshot.lastStored history).elim table fun items =>
        (snapshot.rowsOf (snapshot.keep items)).getD [] :=
    foldl_replaced snapshot.computeAndStore_stored history table
  obtain ⟨call, _, hcall⟩ := List.mem_filterMap.mp (List.mem_of_getLast? h)
  obtain ⟨_, hstored⟩ := Option.filter_eq_some_iff.mp hcall
  have hrows := (of_decide_eq_true hstored).2.1
  rw [htable, h]
  cases hsome : snapshot.rowsOf (snapshot.keep items) with
  | none => simp [hsome] at hrows
  | some rows => simp [hsome]

end Snapshot

/-! ### Rows ranked within their style -/

section
variable {α ρ : Type*}

/-- The loop of `setdefault(row["style"], []).append(row)`, then each style's first rows with their
ranks; `none` where a key is missing. -/
def styleRows (style : α → Option String) (row : String → α → ℕ → Option ρ) (maxRank : ℕ)
    (items : List α) : Option (List ρ) :=
  (items.mapM fun item => (style item).map fun name => (name, item)).bind
    (rankedRows Prod.fst (fun name entry => row name entry.2) maxRank)

variable {style : α → Option String} {row : String → α → ℕ → Option ρ} {maxRank : ℕ}
  {items : List α} {rows : List ρ}

theorem keyed_filter (name : String) {keyed : List (String × α)}
    (h : (items.mapM fun item => (style item).map fun name => (name, item)) = some keyed) :
    (keyed.filter fun entry => entry.1 = name).map Prod.snd =
      items.filter fun item => style item = some name := by
  induction items generalizing keyed with
  | nil =>
    cases h
    rfl
  | cons item later ih =>
    obtain ⟨entry, rest, hentry, hrest, rfl⟩ := mapM_some_cons h
    obtain ⟨key, hkey, rfl⟩ := Option.map_eq_some_iff.mp hentry
    rw [List.filter_cons, List.filter_cons, ← ih hrest]
    by_cases hname : key = name <;> simp [hkey, hname]

theorem rankRows_snd {κ β γ : Type*} (row : κ → α → ℕ → Option β) (cap : ℕ) (k : κ)
    (entries : List (γ × α)) :
    rankRows (fun k entry => row k entry.2) cap k entries =
      rankRows row cap k (entries.map Prod.snd) := by
  unfold rankRows
  rw [← List.map_take, List.zipIdx_map, List.mapM_map]
  rfl

/-- The rows of a style are its first `maxRank` entries, in their order. -/
theorem styleRows_filter (rowStyle : ρ → String)
    (hstyle : ∀ name item rank r, row name item rank = some r → rowStyle r = name)
    (h : styleRows style row maxRank items = some rows) (name : String) :
    rankRows row maxRank name (items.filter fun item => style item = some name) =
      some (rows.filter fun r => rowStyle r = name) := by
  obtain ⟨keyed, hkeyed, hrows⟩ := Option.bind_eq_some_iff.mp h
  have hfilter := rankedRows_filter (fun k entry n b => hstyle k entry.2 n b) hrows name
  rw [rankRows_snd] at hfilter
  rw [← keyed_filter name hkeyed]
  exact hfilter

end

theorem sorter_rising {ρ : Type*} {rank : ρ → ℕ}
    (sorter : Sorter fun row => OrderDual.toDual (rank row)) {rows : List ρ}
    (h : rows.Pairwise fun a b => rank a < rank b) : sorter.run rows = rows := by
  have hsorted := (sorter.sorted rows).imp fun hle => OrderDual.toDual_le_toDual.mp hle
  exact eq_of_rising (sorter.perm rows) hsorted h

/-! ### insights.style_landmark_masters -/

def styleLandmarkMaxRank : ℕ := 25
def styleLandmarkMissingTitle : String := ""

/- The values of a response row, `none` where the key is missing. -/
structure LandmarkItem where
  style : Option String
  masterId : Option String
  title : Option (Option String)
  year : Option (Option ℤ)
  releaseCount : Option ℕ
deriving DecidableEq

def styleLandmarkRow (style : String) (item : LandmarkItem) (rank : ℕ) :
    Option StyleAtlas.AtlasMaster := do
  let masterId ← item.masterId
  let title ← item.title
  let year ← item.year
  let releaseCount ← item.releaseCount
  return ⟨masterId, title.getD styleLandmarkMissingTitle, year, style, releaseCount, rank⟩

def styleLandmarkRows : List LandmarkItem → Option (List StyleAtlas.AtlasMaster) :=
  styleRows LandmarkItem.style styleLandmarkRow styleLandmarkMaxRank

def styleLandmarksSnapshot (admits : List StyleAtlas.AtlasMaster → StyleAtlas.AtlasMaster → Bool) :
    Snapshot LandmarkItem StyleAtlas.AtlasMaster where
  keep := id
  rowsOf := styleLandmarkRows
  admits := admits

def computeAndStoreStyleLandmarks (admits : List StyleAtlas.AtlasMaster → StyleAtlas.AtlasMaster → Bool) :
    List StyleAtlas.AtlasMaster → Call LandmarkItem → List StyleAtlas.AtlasMaster × Option ℕ :=
  (styleLandmarksSnapshot admits).computeAndStore

theorem styleLandmarkRow_columns {style : String} {item : LandmarkItem} {rank : ℕ}
    {row : StyleAtlas.AtlasMaster} (h : styleLandmarkRow style item rank = some row) :
    row.style = style ∧ row.rank = rank := by
  unfold styleLandmarkRow at h
  obtain ⟨masterId, _, h⟩ := Option.bind_eq_some_iff.mp h
  obtain ⟨title, _, h⟩ := Option.bind_eq_some_iff.mp h
  obtain ⟨year, _, h⟩ := Option.bind_eq_some_iff.mp h
  obtain ⟨releaseCount, _, h⟩ := Option.bind_eq_some_iff.mp h
  cases h
  exact ⟨rfl, rfl⟩

section
variable {K F : Type*} [Field K] [LinearOrder K] [LinearOrder F]

theorem readStyleAtlas_masters (ar : StyleAtlas.YearArithmetic F) {tables : StyleAtlas.Tables K}
    {month : StyleAtlas.AtlasMonth} (hmonth : tables.atlas.latestMonth = some month) :
    (StyleAtlas.readStyleAtlas ar tables).masters = (tables.masters.filter fun master =>
      StyleAtlas.placed (tables.atlas.nodesOf month) master.style).insertionSort
        fun m n => toLex (m.style, m.rank) ≤ toLex (n.style, n.rank) := by
  unfold StyleAtlas.readStyleAtlas
  rw [hmonth]
  have hplaced : ∀ style, StyleAtlas.placed ((tables.atlas.nodesOf month).insertionSort
      fun m n => m.key ≤ n.key) style = StyleAtlas.placed (tables.atlas.nodesOf month) style :=
    fun style => (List.perm_insertionSort _ _).any_eq
  simp only [hplaced]

/-- After any history of calls the masters the atlas shows of a placed style are its first 25 in the
last response that was stored, in the producer's order and ranked from 1; of another style it shows
none. -/
theorem styleLandmarks_last (ar : StyleAtlas.YearArithmetic F)
    {admits : List StyleAtlas.AtlasMaster → StyleAtlas.AtlasMaster → Bool}
    {history : List (Call LandmarkItem)} {items : List LandmarkItem}
    (h : (styleLandmarksSnapshot admits).lastStored history = some items)
    {tables : StyleAtlas.Tables K} {month : StyleAtlas.AtlasMonth}
    (hmonth : tables.atlas.latestMonth = some month) (style : String) :
    let stored := tableAfter (computeAndStoreStyleLandmarks admits) tables.masters history
    let masters := (StyleAtlas.readStyleAtlas ar { tables with masters := stored }).masters
    if StyleAtlas.placed (tables.atlas.nodesOf month) style then
      rankRows styleLandmarkRow 25 style (items.filter fun item => item.style = some style) =
        some (masters.filter fun master => master.style = style)
    else (masters.filter fun master => master.style = style) = [] := by
  intro stored masters
  have hmasters : masters = _ := readStyleAtlas_masters ar hmonth
  have hrows : styleLandmarkRows items = some stored := Snapshot.tableAfter_rows h tables.masters
  have hstyle := styleRows_filter StyleAtlas.AtlasMaster.style
    (fun name item rank r hr => (styleLandmarkRow_columns hr).1) hrows style
  have hrank : ∀ name item rank r, styleLandmarkRow name item rank = some r → r.rank = rank :=
    fun name item rank r hr => (styleLandmarkRow_columns hr).2
  have hperm : masters.Perm (stored.filter fun master =>
      StyleAtlas.placed (tables.atlas.nodesOf month) master.style) := by
    rw [hmasters]
    exact List.perm_insertionSort _ _
  have hsorted : masters.Pairwise fun m n => toLex (m.style, m.rank) ≤ toLex (n.style, n.rank) := by
    rw [hmasters]
    exact List.pairwise_insertionSort _ _
  split_ifs with hplaced
  · have hsame : ((stored.filter fun master =>
          StyleAtlas.placed (tables.atlas.nodesOf month) master.style).filter fun master =>
            master.style = style) = stored.filter fun master => master.style = style := by
      rw [List.filter_filter]
      apply List.filter_congr
      intro master _
      by_cases hmaster : master.style = style <;> simp [hmaster, hplaced]
    have hfilter := hperm.filter fun master => master.style = style
    rw [hsame] at hfilter
    have hin : (masters.filter fun master => master.style = style).Pairwise fun m n =>
        m.rank ≤ n.rank := by
      rw [List.pairwise_filter]
      refine hsorted.imp ?_
      intro m n hle hm hn
      rcases Prod.Lex.le_iff.mp hle with hlt | ⟨_, hrank⟩
      · rw [of_decide_eq_true hm, of_decide_eq_true hn] at hlt
        exact absurd hlt (lt_irrefl _)
      · exact hrank
    rw [eq_of_rising hfilter hin (rankRows_rising hrank hstyle)]
    exact hstyle
  · rw [List.filter_eq_nil_iff]
    intro master hmaster hname
    have hshown := (List.mem_filter.mp (hperm.mem_iff.mp hmaster)).2
    rw [of_decide_eq_true hname] at hshown
    exact hplaced hshown

end

/-! ### insights.style_cotags -/

def styleCotagMaxRank : ℕ := 25

structure CotagItem where
  style : Option String
  other : Option String
  releaseCount : Option ℕ
deriving DecidableEq

structure CotagRow where
  style : String
  other : String
  releaseCount : ℕ
  rank : ℕ
deriving DecidableEq, Repr

def styleCotagRow (style : String) (item : CotagItem) (rank : ℕ) : Option CotagRow := do
  let other ← item.other
  let releaseCount ← item.releaseCount
  return ⟨style, other, releaseCount, rank⟩

def styleCotagRows : List CotagItem → Option (List CotagRow) :=
  styleRows CotagItem.style styleCotagRow styleCotagMaxRank

def styleCotagsSnapshot (admits : List CotagRow → CotagRow → Bool) : Snapshot CotagItem CotagRow where
  keep := id
  rowsOf := styleCotagRows
  admits := admits

def computeAndStoreStyleCotags (admits : List CotagRow → CotagRow → Bool) :
    List CotagRow → Call CotagItem → List CotagRow × Option ℕ :=
  (styleCotagsSnapshot admits).computeAndStore

/- A row without its style. -/
structure StyleCotag where
  other : String
  releaseCount : ℕ
  rank : ℕ
deriving DecidableEq, Repr

def CotagRow.cotag (row : CotagRow) : StyleCotag := ⟨row.other, row.releaseCount, row.rank⟩

/-- `read_style_cotags`: `WHERE style = … ORDER BY rank LIMIT 25`. -/
def readStyleCotags (sorter : Sorter fun row : CotagRow => OrderDual.toDual row.rank)
    (table : List CotagRow) (style : String) : List StyleCotag :=
  ((sorter.run (table.filter fun row => row.style = style)).take 25).map CotagRow.cotag

theorem styleCotagRow_columns {style : String} {item : CotagItem} {rank : ℕ} {row : CotagRow}
    (h : styleCotagRow style item rank = some row) : row.style = style ∧ row.rank = rank := by
  unfold styleCotagRow at h
  obtain ⟨other, _, h⟩ := Option.bind_eq_some_iff.mp h
  obtain ⟨releaseCount, _, h⟩ := Option.bind_eq_some_iff.mp h
  cases h
  exact ⟨rfl, rfl⟩

/-- After any history of calls the co-tags of a style are its first 25 in the last response that was
stored, in the producer's order and ranked from 1. -/
theorem readStyleCotags_last {admits : List CotagRow → CotagRow → Bool}
    (sorter : Sorter fun row : CotagRow => OrderDual.toDual row.rank)
    {history : List (Call CotagItem)} {items : List CotagItem}
    (h : (styleCotagsSnapshot admits).lastStored history = some items) (table : List CotagRow)
    (style : String) :
    ((rankRows styleCotagRow 25 style (items.filter fun item => item.style = some style)).map fun
        rows => rows.map CotagRow.cotag) =
      some (readStyleCotags sorter (tableAfter (computeAndStoreStyleCotags admits) table history)
        style) := by
  have hrows : styleCotagRows items =
      some (tableAfter (computeAndStoreStyleCotags admits) table history) :=
    Snapshot.tableAfter_rows h table
  have hstyle := styleRows_filter CotagRow.style
    (fun name item rank r hr => (styleCotagRow_columns hr).1) hrows style
  have hrank : ∀ name item rank r, styleCotagRow name item rank = some r → r.rank = rank :=
    fun name item rank r hr => (styleCotagRow_columns hr).2
  have hlength : _ ≤ 25 := rankRows_length hrank hstyle
  unfold readStyleCotags
  rw [sorter_rising sorter (rankRows_rising hrank hstyle), List.take_of_length_le hlength]
  exact congrArg (Option.map fun rows => rows.map CotagRow.cotag) hstyle

/-! ### insights.artist_centrality -/

/- `artist_name` is read with `get`. -/
structure ArtistItem where
  artistId : Option String
  artistName : Option String
  edgeCount : Option ℤ
deriving DecidableEq

structure ArtistCentralityRow where
  rank : ℕ
  artistId : String
  artistName : String
  edgeCount : ℤ
deriving DecidableEq, Repr

def ArtistItem.named (item : ArtistItem) : Bool := item.artistName.any (· ≠ "")

def artistCentralityRow (item : ArtistItem) (rank : ℕ) : Option ArtistCentralityRow := do
  let artistId ← item.artistId
  let artistName ← item.artistName
  let edgeCount ← item.edgeCount
  return ⟨rank, artistId, artistName, edgeCount⟩

def artistCentralityRows (items : List ArtistItem) : Option (List ArtistCentralityRow) :=
  (items.zipIdx 1).mapM fun entry => artistCentralityRow entry.1 entry.2

def artistCentralitySnapshot (admits : List ArtistCentralityRow → ArtistCentralityRow → Bool) :
    Snapshot ArtistItem ArtistCentralityRow where
  keep := List.filter ArtistItem.named
  rowsOf := artistCentralityRows
  admits := admits

def computeAndStoreArtistCentrality (admits : List ArtistCentralityRow → ArtistCentralityRow → Bool) :
    List ArtistCentralityRow → Call ArtistItem → List ArtistCentralityRow × Option ℕ :=
  (artistCentralitySnapshot admits).computeAndStore

/-- The rows of `/api/insights/top-artists`: `ORDER BY rank LIMIT …`. -/
def topArtists (sorter : Sorter fun row : ArtistCentralityRow => OrderDual.toDual row.rank)
    (table : List ArtistCentralityRow) (limit : ℕ) : List ArtistCentralityRow :=
  (sorter.run table).take limit

def ArtistCentralityRow.answer (row : ArtistCentralityRow) : Cache.CentralityRow :=
  ⟨row.rank, row.artistId, row.artistName, row.edgeCount⟩

/-- The endpoint serves these rows where it has no cached body. -/
theorem endpoint_topArtists {φ : Type*}
    (sorter : Sorter fun row : ArtistCentralityRow => OrderDual.toDual row.rank)
    (table : List ArtistCentralityRow) (answers : Cache.Answers φ)
    (hranked : ∀ limit, answers.artistCentrality limit =
      (topArtists sorter table limit).map ArtistCentralityRow.answer)
    (today : ℕ) (recent : 90 ≤ today) (limit : Cache.Limit 500) :
    Cache.endpointBody ⟨.topArtists limit, today, recent⟩ answers =
      .obj [("metric", .str "centrality"),
        ("items", .arr ((topArtists sorter table limit).map fun row =>
          Cache.centralityItem row.answer)),
        ("count", .int (topArtists sorter table limit).length)] := by
  unfold Cache.endpointBody
  simp only [hranked, List.map_map, List.length_map]
  rfl

theorem artistCentralityRow_rank {item : ArtistItem} {rank : ℕ} {row : ArtistCentralityRow}
    (h : artistCentralityRow item rank = some row) : row.rank = rank := by
  unfold artistCentralityRow at h
  obtain ⟨artistId, _, h⟩ := Option.bind_eq_some_iff.mp h
  obtain ⟨artistName, _, h⟩ := Option.bind_eq_some_iff.mp h
  obtain ⟨edgeCount, _, h⟩ := Option.bind_eq_some_iff.mp h
  cases h
  rfl

/-- After any history of calls the top artists are the first named ones of the last response that was
stored, in the producer's order and ranked from 1. -/
theorem topArtists_last {admits : List ArtistCentralityRow → ArtistCentralityRow → Bool}
    (sorter : Sorter fun row : ArtistCentralityRow => OrderDual.toDual row.rank)
    {history : List (Call ArtistItem)} {items : List ArtistItem}
    (h : (artistCentralitySnapshot admits).lastStored history = some items)
    (table : List ArtistCentralityRow) (limit : ℕ) :
    ((((items.filter ArtistItem.named).take limit).zipIdx 1).mapM fun entry =>
        artistCentralityRow entry.1 entry.2) =
      some (topArtists sorter (tableAfter (computeAndStoreArtistCentrality admits) table history)
        limit) := by
  have hrows : artistCentralityRows (items.filter ArtistItem.named) =
      some (tableAfter (computeAndStoreArtistCentrality admits) table history) :=
    Snapshot.tableAfter_rows h table
  have hranked : rankRows (fun _ => artistCentralityRow) (items.filter ArtistItem.named).length ()
      (items.filter ArtistItem.named) =
        some (tableAfter (computeAndStoreArtistCentrality admits) table history) := by
    unfold rankRows
    rw [List.take_length]
    exact hrows
  have hrank : ∀ (_ : Unit) item rank r, artistCentralityRow item rank = some r → r.rank = rank :=
    fun _ item rank r hr => artistCentralityRow_rank hr
  unfold topArtists
  rw [sorter_rising sorter (rankRows_rising hrank hranked), zipIdx_take]
  exact mapM_some_take limit hrows

/-! ### insights.genre_trends -/

structure GenreItem where
  genre : Option String
  decade : Option ℤ
  releaseCount : Option ℤ
deriving DecidableEq

structure GenreTrendRow where
  genre : String
  decade : ℤ
  releaseCount : ℤ
deriving DecidableEq, Repr

def GenreItem.row (item : GenreItem) : Option GenreTrendRow := do
  let genre ← item.genre
  let decade ← item.decade
  let releaseCount ← item.releaseCount
  return ⟨genre, decade, releaseCount⟩

def genreTrendsSnapshot (admits : List GenreTrendRow → GenreTrendRow → Bool) :
    Snapshot GenreItem GenreTrendRow where
  keep := id
  rowsOf := fun items => items.mapM GenreItem.row
  admits := admits

def computeAndStoreGenreTrends (admits : List GenreTrendRow → GenreTrendRow → Bool) :
    List GenreTrendRow → Call GenreItem → List GenreTrendRow × Option ℕ :=
  (genreTrendsSnapshot admits).computeAndStore

structure GenreTrendsResponse where
  genre : String
  trends : List GenreTrendRow
  peakDecade : Option ℤ

/- `max(trends, key=…)`: the first of the largest. -/
def busiest : List GenreTrendRow → Option GenreTrendRow
  | [] => none
  | row :: later =>
    some (later.foldl (fun best row => if best.releaseCount < row.releaseCount then row else best) row)

/-- `/api/insights/genre-trends`: `WHERE genre = … ORDER BY decade`, and the peak. -/
def genreTrends (sorter : Sorter fun row : GenreTrendRow => OrderDual.toDual row.decade)
    (table : List GenreTrendRow) (genre : String) : GenreTrendsResponse :=
  let trends := sorter.run (table.filter fun row => row.genre = genre)
  ⟨genre, trends, (busiest trends).map GenreTrendRow.decade⟩

def GenreTrendRow.answer (row : GenreTrendRow) : Cache.TrendRow := ⟨row.decade, row.releaseCount⟩

def GenreTrendsResponse.body {φ : Type*} (response : GenreTrendsResponse) : Json φ :=
  .obj [("genre", .str response.genre),
    ("trends", .arr (response.trends.map fun row => Cache.trendItem row.answer)),
    ("peak_decade", .orNull .int response.peakDecade)]

theorem peakTrend_answer (rows : List GenreTrendRow) :
    Cache.peakTrend (rows.map GenreTrendRow.answer) = (busiest rows).map GenreTrendRow.answer := by
  cases rows with
  | nil => rfl
  | cons row later =>
    rw [List.map_cons, Cache.peakTrend, busiest, List.foldl_map, Option.map_some]
    congr 1
    induction later generalizing row with
    | nil => rfl
    | cons next later ih =>
      rw [List.foldl_cons, List.foldl_cons, ← ih]
      congr 1
      exact (apply_ite GenreTrendRow.answer _ _ _).symm

/-- The endpoint serves this response where it has no cached body. -/
theorem endpoint_genreTrends {φ : Type*}
    (sorter : Sorter fun row : GenreTrendRow => OrderDual.toDual row.decade)
    (table : List GenreTrendRow) (answers : Cache.Answers φ)
    (htrends : ∀ genre, answers.genreTrends genre =
      (genreTrends sorter table genre).trends.map GenreTrendRow.answer)
    (today : ℕ) (recent : 90 ≤ today) (genre : String) :
    Cache.endpointBody ⟨.genreTrends genre, today, recent⟩ answers =
      (genreTrends sorter table genre).body := by
  have hpeak : (genreTrends sorter table genre).peakDecade =
      (busiest (genreTrends sorter table genre).trends).map GenreTrendRow.decade := rfl
  unfold Cache.endpointBody GenreTrendsResponse.body
  rw [hpeak]
  simp only [htrends, peakTrend_answer, List.map_map]
  cases busiest (genreTrends sorter table genre).trends <;> rfl

/- The earliest decade with the most releases. -/
def Peak (rows : List GenreTrendRow) (peak : GenreTrendRow) : Prop :=
  peak ∈ rows ∧ ∀ row ∈ rows, row.releaseCount ≤ peak.releaseCount ∧
    (row.releaseCount = peak.releaseCount → peak.decade ≤ row.decade)

theorem busiest_foldl {rows : List GenreTrendRow} {best : GenreTrendRow}
    (hsorted : (best :: rows).Pairwise fun a b => a.decade ≤ b.decade) :
    Peak (best :: rows) (rows.foldl
      (fun best row => if best.releaseCount < row.releaseCount then row else best) best) := by
  induction rows generalizing best with
  | nil =>
    refine ⟨List.mem_cons_self, ?_⟩
    intro row hrow
    rw [List.mem_singleton.mp hrow]
    exact ⟨le_rfl, fun _ => le_rfl⟩
  | cons row later ih =>
    obtain ⟨hbest, hlater⟩ := List.pairwise_cons.mp hsorted
    rw [List.foldl_cons]
    by_cases hlt : best.releaseCount < row.releaseCount
    · rw [if_pos hlt]
      obtain ⟨hmem, hmost⟩ := ih hlater
      refine ⟨List.mem_cons_of_mem _ hmem, ?_⟩
      intro r hr
      rcases List.mem_cons.mp hr with rfl | hr
      · have hrow := (hmost row List.mem_cons_self).1
        exact ⟨by omega, fun _ => by omega⟩
      · exact hmost r hr
    · rw [if_neg hlt]
      have hrest : (best :: later).Pairwise fun a b => a.decade ≤ b.decade :=
        List.pairwise_cons.mpr ⟨fun r hr => hbest r (List.mem_cons_of_mem _ hr),
          (List.pairwise_cons.mp hlater).2⟩
      obtain ⟨hmem, hmost⟩ := ih hrest
      have hfirst := hmost best List.mem_cons_self
      have hdecade := hbest row List.mem_cons_self
      refine ⟨?_, ?_⟩
      · rcases List.mem_cons.mp hmem with hmem | hmem
        · rw [hmem]
          exact List.mem_cons_self
        · exact List.mem_cons_of_mem _ (List.mem_cons_of_mem _ hmem)
      · intro r hr
        rcases List.mem_cons.mp hr with rfl | hr
        · exact hfirst
        · rcases List.mem_cons.mp hr with rfl | hr
          · refine ⟨by omega, ?_⟩
            intro hsame
            have := hfirst.2 (by omega)
            omega
          · exact hmost r (List.mem_cons_of_mem _ hr)

/-- After any history of calls the trends of a genre are its rows in the last response that was
stored, by decade, and the peak is the earliest of its busiest decades. -/
theorem genreTrends_last {admits : List GenreTrendRow → GenreTrendRow → Bool}
    (sorter : Sorter fun row : GenreTrendRow => OrderDual.toDual row.decade)
    {history : List (Call GenreItem)} {items : List GenreItem}
    (h : (genreTrendsSnapshot admits).lastStored history = some items) (table : List GenreTrendRow)
    (genre : String) :
    let response := genreTrends sorter
      (tableAfter (computeAndStoreGenreTrends admits) table history) genre
    response.trends.Perm ((items.filterMap GenreItem.row).filter fun row => row.genre = genre) ∧
      response.trends.Pairwise (fun a b => a.decade ≤ b.decade) ∧
      (response.peakDecade = none → response.trends = []) ∧
      ∀ decade, response.peakDecade = some decade →
        ∃ peak, peak.decade = decade ∧ Peak response.trends peak := by
  have hrows : items.mapM GenreItem.row =
      some (tableAfter (computeAndStoreGenreTrends admits) table history) :=
    Snapshot.tableAfter_rows h table
  have hfilterMap : ∀ (items : List GenreItem) (rows : List GenreTrendRow),
      items.mapM GenreItem.row = some rows → items.filterMap GenreItem.row = rows := by
    intro items
    induction items with
    | nil =>
      intro rows hrows
      cases hrows
      rfl
    | cons item later ih =>
      intro rows hrows
      obtain ⟨row, rest, hrow, hrest, rfl⟩ := mapM_some_cons hrows
      rw [List.filterMap_cons_some hrow, ih rest hrest]
  intro response
  have hsorted : response.trends.Pairwise fun a b => a.decade ≤ b.decade :=
    (sorter.sorted _).imp fun hle => OrderDual.toDual_le_toDual.mp hle
  have hpeak : response.peakDecade = (busiest response.trends).map GenreTrendRow.decade := rfl
  refine ⟨?_, hsorted, ?_, ?_⟩
  · rw [hfilterMap items _ hrows]
    exact sorter.perm _
  · intro hnone
    rw [hpeak] at hnone
    cases htrends : response.trends with
    | nil => rfl
    | cons row later => simp [htrends, busiest] at hnone
  · intro decade hdecade
    rw [hpeak] at hdecade
    cases htrends : response.trends with
    | nil => simp [htrends, busiest] at hdecade
    | cons row later =>
      rw [htrends] at hdecade hsorted
      simp only [busiest, Option.map_some, Option.some.injEq] at hdecade
      exact ⟨_, hdecade, busiest_foldl hsorted⟩

/-! ### A stored response and a failed one -/

def calls {α : Type*} (items : List α) : List (Call α) := [⟨some items, .done⟩, ⟨none, .done⟩]

def ambientCotags : List CotagItem := [⟨some "Ambient", some "Drone", some 7⟩,
  ⟨some "Dub", some "Ambient", some 5⟩, ⟨some "Ambient", some "Dub", some 5⟩]

theorem readStyleCotags_last_ambient :
    readStyleCotags (Sorter.stable _) (tableAfter
      (computeAndStoreStyleCotags fun _ row => row.style ≠ row.other) [] (calls ambientCotags))
        "Ambient" = [⟨"Drone", 7, 1⟩, ⟨"Dub", 5, 2⟩] := by
  have hstored : (styleCotagsSnapshot fun _ row => row.style ≠ row.other).lastStored
      (calls ambientCotags) = some ambientCotags := by decide
  have hread := readStyleCotags_last (Sorter.stable _) hstored [] "Ambient"
  exact Option.some.inj (hread.symm.trans (by decide))

def ambientLandmarks : List LandmarkItem :=
  [⟨some "Ambient", some "m1", some none, some (some 1978), some 9⟩]

def ambientTables : StyleAtlas.Tables ℚ where
  atlas := ⟨[(toLex (2026, 6), ⟨"Electronic", 0, 0, 1, 1, 0⟩)],
    [(toLex (2026, 6), ⟨.style, "Ambient", "Electronic", 1, 0⟩)]⟩
  yearCounts := []
  parents := []
  genreYears := []
  masters := []

def ambientMasters : List StyleAtlas.AtlasMaster :=
  tableAfter (computeAndStoreStyleLandmarks fun _ _ => true) [] (calls ambientLandmarks)

theorem styleLandmarks_last_ambient : ((StyleAtlas.readStyleAtlas StyleAtlas.ratArithmetic
      { ambientTables with masters := ambientMasters }).masters.filter fun master =>
        master.style = "Ambient") = [⟨"m1", "", some 1978, "Ambient", 9, 1⟩] := by
  have hstored : (styleLandmarksSnapshot fun _ _ => true).lastStored (calls ambientLandmarks) =
      some ambientLandmarks := by decide
  have hmonth : ambientTables.atlas.latestMonth = some (toLex (2026, 6)) := by decide
  have hread := styleLandmarks_last StyleAtlas.ratArithmetic hstored hmonth "Ambient"
  rw [if_pos (by decide)] at hread
  exact (Option.some.inj hread).symm

def fewArtists : List ArtistItem :=
  [⟨some "a1", some "", some 40⟩, ⟨some "a2", some "Brian Eno", some 30⟩]

theorem topArtists_last_few :
    topArtists (Sorter.stable _) (tableAfter (computeAndStoreArtistCentrality fun _ _ => true) []
      (calls fewArtists)) 100 = [⟨1, "a2", "Brian Eno", 30⟩] := by
  have hstored : (artistCentralitySnapshot fun _ _ => true).lastStored (calls fewArtists) =
      some fewArtists := by decide
  have hread := topArtists_last (Sorter.stable _) hstored [] 100
  exact Option.some.inj (hread.symm.trans (by decide))

def jazzDecades : List GenreItem := [⟨some "Jazz", some 1960, some 9⟩, ⟨some "Jazz", some 1950, some 9⟩]

theorem genreTrends_last_jazz : (genreTrends (Sorter.stable _) (tableAfter
    (computeAndStoreGenreTrends fun _ _ => true) [] (calls jazzDecades)) "Jazz").trends.Perm
      [⟨"Jazz", 1960, 9⟩, ⟨"Jazz", 1950, 9⟩] := by
  have hstored : (genreTrendsSnapshot fun _ _ => true).lastStored (calls jazzDecades) =
      some jazzDecades := by decide
  have hread := (genreTrends_last (Sorter.stable _) hstored [] "Jazz").1
  exact hread

end AnalyticsEngine.Computations
