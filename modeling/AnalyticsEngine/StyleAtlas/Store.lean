import AnalyticsEngine.StyleAtlas.Lifecycle
import AnalyticsEngine.StyleAtlas.Months

/-!
# insights/computations.py: the atlas tables

What a run of a month lays out, from the producer's response and the sectors of the latest month
before it. A response that is laid out has sectors (`layOut_sectors`), so a month's rows can be
looked for in the sectors alone.
-/

namespace AnalyticsEngine.StyleAtlas
open Library

/-- The first day of a month, by year and month. -/
abbrev AtlasMonth := ℤ ×ₗ ℕ

def lastCompleteYear (month : AtlasMonth) : ℤ := (ofLex month).1 - 1

structure ShareRow (K : Type*) where
  style : String
  genre : String
  share : K

structure StyleYear extends YearCount where
  masterCount : ℕ
deriving DecidableEq

/- What the producer serves at the style-year-counts path. A genre's years are rows whose `style`
is the genre. -/
structure StyleYearCounts (K : Type*) where
  styleYears : List StyleYear
  styleParents : List (ShareRow K)
  genreYears : List YearCount

/- The rows of `insights.genre_atlas_sectors` and `insights.style_atlas_layout`. -/
structure AtlasTables (K : Type*) where
  sectors : List (AtlasMonth × Sector K)
  nodes : List (AtlasMonth × Node K)

section
variable {K : Type*}

/- `shares.setdefault(style, {})[genre] = share`, over the rows. -/
def addShare (shares : Shares K) (row : ShareRow K) : Shares K :=
  shares.insert row.style (((shares.lookup row.style).getD ∅).insert row.genre row.share)

def sharesOf (rows : List (ShareRow K)) : Shares K := rows.foldl addShare ∅

def AtlasTables.sectorsOf (tables : AtlasTables K) (month : AtlasMonth) : List (Sector K) :=
  (tables.sectors.filter fun row => row.1 = month).map Prod.snd

def AtlasTables.nodesOf (tables : AtlasTables K) (month : AtlasMonth) : List (Node K) :=
  (tables.nodes.filter fun row => row.1 = month).map Prod.snd

/- `SELECT 1 FROM insights.genre_atlas_sectors WHERE month = …`. -/
def AtlasTables.monthExists (tables : AtlasTables K) (month : AtlasMonth) : Bool :=
  tables.sectors.any fun row => row.1 = month

/- `SELECT max(month) … WHERE month < …`. -/
def AtlasTables.monthBefore (tables : AtlasTables K) (month : AtlasMonth) : Option AtlasMonth :=
  ((tables.sectors.map Prod.fst).filter fun earlier => earlier < month).max?

def AtlasTables.pinnedSectors (tables : AtlasTables K) (month : AtlasMonth) : List (Sector K) :=
  match tables.monthBefore month with
  | none => []
  | some earlier => (tables.sectorsOf earlier).insertionSort fun s t => s.ringOrder ≤ t.ringOrder

/- The two inserts of a run. -/
def AtlasTables.insert (tables : AtlasTables K) (month : AtlasMonth) (sectors : List (Sector K))
    (nodes : List (Node K)) : AtlasTables K where
  sectors := tables.sectors ++ sectors.map fun s => (month, s)
  nodes := tables.nodes ++ nodes.map fun n => (month, n)

/-! ### Rows of a month -/

section Rows
variable {tables : AtlasTables K} {month other : AtlasMonth} {sectors : List (Sector K)}
  {nodes : List (Node K)}

theorem monthExists_iff : tables.monthExists month = true ↔ tables.sectorsOf month ≠ [] := by
  unfold AtlasTables.monthExists AtlasTables.sectorsOf
  rw [List.any_eq_true, ne_eq, List.map_eq_nil_iff, List.filter_eq_nil_iff, not_forall₂]
  refine exists_congr fun row => ?_
  rw [exists_prop, not_not]

theorem filter_month_map {α : Type*} (rows : List α) (month other : AtlasMonth) :
    ((rows.map fun row => (month, row)).filter fun row => row.1 = other).map Prod.snd =
      if month = other then rows else [] := by
  by_cases h : month = other
  · simp [h, List.filter_map, Function.comp_def]
  · simp [h, List.filter_map, Function.comp_def]

theorem insert_sectorsOf : (tables.insert month sectors nodes).sectorsOf other =
    tables.sectorsOf other ++ if month = other then sectors else [] := by
  unfold AtlasTables.insert AtlasTables.sectorsOf
  rw [List.filter_append, List.map_append, filter_month_map]

theorem insert_nodesOf : (tables.insert month sectors nodes).nodesOf other =
    tables.nodesOf other ++ if month = other then nodes else [] := by
  unfold AtlasTables.insert AtlasTables.nodesOf
  rw [List.filter_append, List.map_append, filter_month_map]

/-- Pinned sectors are the rows of one earlier month. -/
theorem pinnedSectors_nodup
    (h : ∀ earlier, ((tables.sectorsOf earlier).map Sector.genre).Nodup) (month : AtlasMonth) :
    ((tables.pinnedSectors month).map Sector.genre).Nodup := by
  unfold AtlasTables.pinnedSectors
  split
  · exact List.nodup_nil
  · exact ((List.perm_insertionSort _ _).map _).nodup_iff.mpr (h _)

end Rows

theorem mem_sharesOf {rows : List (ShareRow K)} (h : rows ≠ []) :
    ∃ entry ∈ (sharesOf rows).entries, ∃ genre, genre ∈ entry.2.keys := by
  have hlast : sharesOf rows = addShare (sharesOf rows.dropLast) (rows.getLast h) := by
    unfold sharesOf
    conv_lhs => rw [← List.dropLast_append_getLast h, List.foldl_append]
    rfl
  rw [hlast]
  unfold addShare
  refine ⟨⟨(rows.getLast h).style, _⟩, AList.mem_lookup_iff.mp (AList.lookup_insert _),
    (rows.getLast h).genre, ?_⟩
  exact AList.mem_keys.mp (AList.mem_insert _ |>.mpr (Or.inl rfl))

end

/-! ### The layout of a response -/

section
variable {K F : Type*} [Field K] [LinearOrder K] [LinearOrder F]

def styleParentMinShare : K := 1 / 5

def keptShares (shares : List (ShareRow K)) : List (ShareRow K) :=
  shares.filter fun row => styleParentMinShare ≤ row.share

/- A style's entry of `by_style`. -/
def parentShares (shares : List (ShareRow K)) (style : String) : List (String × K) :=
  ((keptShares shares).filter fun row => row.style = style).map fun row => (row.genre, row.share)

def dominantGenre (shares : List (ShareRow K)) (style : String) : String :=
  (((parentShares shares style).argmin fun p => toLex (-p.2, p.1)).map Prod.fst).getD ""

/-- `_style_parent_rows`. -/
def styleParentRows (shares : List (ShareRow K)) : List (ParentRow K) :=
  let styles := ((keptShares shares).map ShareRow.style).toFinset.sort (· ≤ ·)
  styles.flatMap fun style =>
    ((parentShares shares style).insertionSort fun p q => toLex p ≤ toLex q).map fun p =>
      ⟨style, p.1, p.2, p.1 = dominantGenre shares style⟩

/-- One row for each share at the threshold, dominant by its style's genre. -/
theorem mem_styleParentRows {shares : List (ShareRow K)} {row : ParentRow K} :
    row ∈ styleParentRows shares ↔ ∃ share ∈ shares, styleParentMinShare ≤ share.share ∧
      row = ⟨share.style, share.genre, share.share,
        share.genre = dominantGenre shares share.style⟩ := by
  unfold styleParentRows
  simp only [List.mem_flatMap, Finset.mem_sort, List.mem_toFinset, List.mem_map,
    List.mem_insertionSort, parentShares, keptShares, List.mem_filter, decide_eq_true_iff]
  constructor
  · rintro ⟨style, -, pair, ⟨share, ⟨⟨hshare, hmin⟩, rfl⟩, rfl⟩, rfl⟩
    exact ⟨share, hshare, hmin, rfl⟩
  · rintro ⟨share, hshare, hmin, rfl⟩
    exact ⟨share.style, ⟨share, ⟨hshare, hmin⟩, rfl⟩, (share.genre, share.share),
      ⟨share, ⟨⟨hshare, hmin⟩, rfl⟩, rfl⟩, rfl⟩

/- The inputs of `build_layout`. -/
def monthInput (ar : YearArithmetic F) (data : StyleYearCounts K) (month : AtlasMonth) : Month K where
  shares := sharesOf data.styleParents
  parents := styleParentRows data.styleParents
  emergence := fun style =>
    let lifecycles := styleLifecycles ar (data.styleYears.map StyleYear.toYearCount)
      (lastCompleteYear month) (lifecycleRule ar)
    ((lifecycles.emergenceYears ar).lookup style).join

/- The month's rows as a run computes them: `none` where a half of the input is missing. -/
def layOut (circle : Circle K) (ar : YearArithmetic F) (data : StyleYearCounts K)
    (month : AtlasMonth) (pinned : List (Sector K)) : Option (Except AtlasError (AtlasLayout K)) :=
  if data.styleYears.isEmpty ∨ data.styleParents.isEmpty then none
  else some (buildLayout circle (monthInput ar data month) pinned)

/-- Pinned or exact, a ring holds the month's genres once. -/
theorem monthRing_genres {month : Month K} {pinned : List (Sector K)} {ring : List String}
    (hpinned : (pinned.map Sector.genre).Nodup) (h : monthRing month pinned = .ok ring) :
    ring.Nodup ∧ ∀ genre, genre ∈ ring ↔ genre ∈ month.genres := by
  unfold monthRing at h
  simp only at h
  split at h
  · have hring := Except.ok.inj h
    have hnodup : (pinnedRingOrder pinned).Nodup :=
      ((List.perm_insertionSort _ _).map _).nodup_iff.mpr hpinned
    obtain ⟨hnodup', hmem, -, -⟩ := pinnedRing_spec month.genres
      (genreAffinity month.genres month.shares) hnodup
    rw [← hring]
    exact ⟨hnodup', hmem⟩
  · split at h
    · cases h
    · rename_i order horder
      have hring := Except.ok.inj h
      have hperm : (order.map fun j => month.genres.getD j "").Perm month.genres := by
        conv_rhs => rw [← map_getD_range month.genres ""]
        exact (ringOrder_perm horder).map _
      rw [← hring]
      exact ⟨hperm.nodup_iff.mpr (nodup_genres month), fun genre => hperm.mem_iff⟩

theorem buildLayout_genres {circle : Circle K} {month : Month K} {pinned : List (Sector K)}
    {layout : AtlasLayout K} (hpinned : (pinned.map Sector.genre).Nodup)
    (h : buildLayout circle month pinned = .ok layout) :
    (layout.sectors.map Sector.genre).Nodup ∧
      ∀ genre, genre ∈ layout.sectors.map Sector.genre ↔ genre ∈ month.genres := by
  unfold buildLayout at h
  split at h
  · cases h
  · rename_i ring hring
    cases h
    simp only [ringSectors_genre]
    exact monthRing_genres hpinned hring

/-- A response that is laid out has shares, so it has sectors. -/
theorem layOut_sectors {circle : Circle K} {ar : YearArithmetic F} {data : StyleYearCounts K}
    {month : AtlasMonth} {pinned : List (Sector K)} {layout : AtlasLayout K}
    (hpinned : (pinned.map Sector.genre).Nodup)
    (h : layOut circle ar data month pinned = some (.ok layout)) :
    (layout.sectors.map Sector.genre).Nodup ∧ layout.sectors ≠ [] := by
  unfold layOut at h
  split at h
  · cases h
  · rename_i hhalf
    obtain ⟨hnodup, hmem⟩ := buildLayout_genres hpinned (Option.some.inj h)
    refine ⟨hnodup, fun hnone => ?_⟩
    have hshares : data.styleParents ≠ [] := by
      intro hnil
      exact hhalf (Or.inr (by rw [hnil]; rfl))
    obtain ⟨entry, hentry, genre, hgenre⟩ := mem_sharesOf hshares
    have hsector := (hmem genre).mpr (mem_genres.mpr (Or.inl ⟨entry, hentry, hgenre⟩))
    rw [hnone] at hsector
    cases hsector

end

end AnalyticsEngine.StyleAtlas
