import AnalyticsEngine.StyleAtlas.Read

/-!
# Hosts and parents over a history of runs

The year-counts run replaces the parents every cycle, the atlas run adds a month's nodes once. A
response agrees with its own parents as long as each commit matches the other side
(`agreement_run`), which nothing makes it do.
-/

namespace AnalyticsEngine.StyleAtlas
open Library

variable {K F : Type*} [Field K] [LinearOrder K] [LinearOrder F]

/-- `compute_and_store_style_year_counts`, committing. -/
def storeStyleYearCounts (tables : Tables K) (data : StyleYearCounts K) : Tables K :=
  if data.styleYears.isEmpty ∨ data.styleParents.isEmpty ∨ data.genreYears.isEmpty then tables
  else { tables with
    yearCounts := data.styleYears
    parents := styleParentRows data.styleParents
    genreYears := data.genreYears }

/-- `compute_and_store_style_atlas`, committing; a layout that raises leaves the tables. -/
def storeStyleAtlas (circle : Circle K) (ar : YearArithmetic F) (tables : Tables K)
    (month : AtlasMonth) (data : StyleYearCounts K) : Tables K :=
  if tables.atlas.monthExists month then tables
  else
    match layOut circle ar data month (tables.atlas.pinnedSectors month) with
    | some (.ok layout) =>
      { tables with atlas := tables.atlas.insert month layout.sectors layout.nodes }
    | _ => tables

/- One run of a history, with its producer response. A run that does not commit leaves its
tables unchanged. -/
inductive CycleRun (K : Type*) where
  | yearCounts (data : StyleYearCounts K) (commits : Bool)
  | atlas (month : AtlasMonth) (data : StyleYearCounts K) (commits : Bool)

def cycleStep (circle : Circle K) (ar : YearArithmetic F) (tables : Tables K) :
    CycleRun K → Tables K
  | .yearCounts data commits => if commits then storeStyleYearCounts tables data else tables
  | .atlas month data commits => if commits then storeStyleAtlas circle ar tables month data else tables

def history (circle : Circle K) (ar : YearArithmetic F) (tables : Tables K)
    (runs : List (CycleRun K)) : Tables K :=
  runs.foldl (cycleStep circle ar) tables

def emptyTables (masters : List AtlasMaster) : Tables K where
  atlas := ⟨[], []⟩
  yearCounts := []
  parents := []
  genreYears := []
  masters := masters

/- The shares of a year-counts commit reduce to the latest month's nodes; those of an atlas
commit that becomes the latest month, to the stored parents. -/
def Meets (circle : Circle K) (ar : YearArithmetic F) (tables : Tables K) : CycleRun K → Prop
  | .yearCounts data commits =>
    commits = true → data.styleYears ≠ [] → data.styleParents ≠ [] → data.genreYears ≠ [] →
      Match ((latestNodes tables.atlas).map Node.entry) (styleParentRows data.styleParents)
  | .atlas month data commits =>
    commits = true → (∀ row ∈ tables.atlas.sectors, row.1 < month) →
      (∃ layout, layOut circle ar data month (tables.atlas.pinnedSectors month) =
        some (.ok layout)) →
      Match (entriesOf (styleParentRows data.styleParents)) tables.parents

/-! ### The nodes of a layout -/

omit [LinearOrder K] in
theorem ranks_length {α : Type*} [LinearOrder α] (keys : List α) :
    (ranks keys : List K).length = keys.length := by
  unfold ranks
  rw [List.length_map, List.length_range]

theorem sectorNodes_entries (circle : Circle K) (month : Month K) (ring : List String)
    (frames : String → K × K) (genre : String) :
    (sectorNodes circle month ring frames genre).map Node.entry =
      (entriesOf month.parents).filter fun e => e.host = genre := by
  unfold sectorNodes
  simp only
  split
  · rename_i hnone
    rw [hnone]
    rfl
  · generalize hhosted : ((entriesOf month.parents).filter fun e => e.host = genre) = hosted
    rw [List.map_map]
    refine (List.map_congr_left fun p hp => ?_).trans (List.map_fst_zip ?_)
    · have hp1 := (List.of_mem_zip hp).1
      rw [← hhosted, List.mem_filter, decide_eq_true_iff] at hp1
      show (⟨p.1.kind, p.1.style, genre⟩ : Entry) = p.1
      rw [← hp1.2]
    · rw [List.length_zip, ranks_length, ranks_length, List.length_map, List.length_map, min_self]

theorem buildLayout_entries {circle : Circle K} {month : Month K} {pinned : List (Sector K)}
    {layout : AtlasLayout K} (hpinned : (pinned.map Sector.genre).Nodup)
    (h : buildLayout circle month pinned = .ok layout) (entry : Entry) :
    entry ∈ layout.nodes.map Node.entry ↔ entry ∈ entriesOf month.parents := by
  unfold buildLayout at h
  split at h
  · cases h
  · rename_i ring hring
    cases h
    obtain ⟨-, hgenres⟩ := monthRing_genres hpinned hring
    simp only
    rw [((List.perm_insertionSort _ _).map _).mem_iff, List.map_flatMap, List.mem_flatMap]
    simp only [sectorNodes_entries, List.mem_filter, decide_eq_true_iff]
    constructor
    · rintro ⟨genre, -, hentry, -⟩
      exact hentry
    · intro hentry
      refine ⟨entry.host, (hgenres _).mpr ?_, hentry, rfl⟩
      obtain ⟨row, hrow, rfl⟩ := List.mem_map.mp hentry
      exact mem_genres.mpr (Or.inr ⟨row, hrow, rfl⟩)

/-- A style's parents mark one genre dominant, whatever its shares. -/
theorem styleParentRows_hosted (shares : List (ShareRow K)) :
    Hosted (entriesOf (styleParentRows shares)) := by
  have hflag : ∀ row ∈ styleParentRows shares,
      row.isDominant = decide (row.genre = dominantGenre shares row.style) := by
    intro row hrow
    obtain ⟨share, -, -, rfl⟩ := mem_styleParentRows.mp hrow
    rfl
  refine ⟨?_, ?_⟩
  · intro style host other hhost hother
    obtain ⟨row, hrow, rfl, hdominant, rfl⟩ := dominant_mem.mp hhost
    obtain ⟨row', hrow', hstyle, hdominant', rfl⟩ := dominant_mem.mp hother
    rw [hflag row hrow, decide_eq_true_iff] at hdominant
    rw [hflag row' hrow', decide_eq_true_iff] at hdominant'
    rw [hdominant, hdominant', hstyle]
  · intro style host hhost hghost
    obtain ⟨row, hrow, rfl, hdominant, rfl⟩ := dominant_mem.mp hhost
    obtain ⟨row', hrow', hstyle, hsecondary, hgenre⟩ := secondary_mem.mp hghost
    rw [hflag row hrow, decide_eq_true_iff] at hdominant
    rw [hflag row' hrow', decide_eq_false_iff_not, hstyle, hgenre] at hsecondary
    exact hsecondary hdominant

theorem Hosted.congr {drawn others : List Entry} (h : ∀ entry, entry ∈ others ↔ entry ∈ drawn)
    (hdrawn : Hosted drawn) : Hosted others := by
  refine ⟨?_, ?_⟩
  · intro style host other hhost hother
    exact hdrawn.unique style host other ((h _).mp hhost) ((h _).mp hother)
  · intro style host hhost hghost
    exact hdrawn.apart style host ((h _).mp hhost) ((h _).mp hghost)

omit [Field K] [LinearOrder K] in
theorem Match.congr {drawn others : List Entry} {rows : List (ParentRow K)}
    (h : ∀ entry, entry ∈ others ↔ entry ∈ drawn) : Match others rows ↔ Match drawn rows := by
  unfold Match
  simp only [h]

/-! ### Months -/

section Months
omit [Field K] [LinearOrder K]
variable {tables : AtlasTables K} {month latest : AtlasMonth} {sectors : List (Sector K)}
  {nodes : List (Node K)}

theorem mem_sectors_of_ne_nil (h : tables.sectorsOf month ≠ []) :
    ∃ row ∈ tables.sectors, row.1 = month := by
  obtain ⟨row, hrow, hmonth⟩ := List.any_eq_true.mp (monthExists_iff.mpr h)
  exact ⟨row, hrow, of_decide_eq_true hmonth⟩

theorem latestMonth_eq_some : tables.latestMonth = some latest ↔
    tables.sectorsOf latest ≠ [] ∧ ∀ row ∈ tables.sectors, row.1 ≤ latest := by
  unfold AtlasTables.latestMonth
  rw [List.max?_eq_some_iff, List.forall_mem_map, List.mem_map, ← monthExists_iff]
  unfold AtlasTables.monthExists
  simp only [List.any_eq_true, decide_eq_true_iff]

/-- A new month that is the latest one. -/
theorem latestNodes_insert_newest (hnone : tables.sectorsOf month = [])
    (hbare : tables.nodesOf month = []) (hsectors : sectors ≠ [])
    (hnewest : ∀ row ∈ tables.sectors, row.1 < month) :
    latestNodes (tables.insert month sectors nodes) = nodes := by
  have hlatest : (tables.insert month sectors nodes).latestMonth = some month := by
    rw [latestMonth_eq_some, insert_sectorsOf, hnone, if_pos rfl, List.nil_append]
    refine ⟨hsectors, fun row hrow => ?_⟩
    rcases List.mem_append.mp hrow with hrow | hrow
    · exact (hnewest row hrow).le
    · obtain ⟨sector, -, rfl⟩ := List.mem_map.mp hrow
      exact le_refl _
  unfold latestNodes
  rw [hlatest]
  simp only
  rw [insert_nodesOf, hbare, if_pos rfl, List.nil_append]

/-- A new month before a stored one leaves what is read. -/
theorem latestNodes_insert_older (hnone : tables.sectorsOf month = [])
    (holder : ¬ ∀ row ∈ tables.sectors, row.1 < month) :
    latestNodes (tables.insert month sectors nodes) = latestNodes tables := by
  obtain ⟨row, hrow, hle⟩ : ∃ row ∈ tables.sectors, month ≤ row.1 := by
    simpa only [not_forall, not_lt, exists_prop] using holder
  cases hbefore : tables.latestMonth with
  | none =>
    unfold AtlasTables.latestMonth at hbefore
    rw [List.max?_eq_none_iff, List.map_eq_nil_iff] at hbefore
    rw [hbefore] at hrow
    cases hrow
  | some latest =>
    obtain ⟨hlatest, hmax⟩ := latestMonth_eq_some.mp hbefore
    have hne : month ≠ latest := by
      rintro rfl
      exact hlatest hnone
    have hafter : (tables.insert month sectors nodes).latestMonth = some latest := by
      rw [latestMonth_eq_some, insert_sectorsOf, if_neg hne, List.append_nil]
      refine ⟨hlatest, fun row' hrow' => ?_⟩
      rcases List.mem_append.mp hrow' with hrow' | hrow'
      · exact hmax row' hrow'
      · obtain ⟨sector, -, rfl⟩ := List.mem_map.mp hrow'
        exact hle.trans (hmax row hrow)
    unfold latestNodes
    rw [hbefore, hafter]
    simp only
    rw [insert_nodesOf, if_neg hne, List.append_nil]

end Months

/-! ### Histories -/

structure HistoryInv (tables : Tables K) : Prop where
  nodup : ∀ month, ((tables.atlas.sectorsOf month).map Sector.genre).Nodup
  bare : ∀ month, tables.atlas.sectorsOf month = [] → tables.atlas.nodesOf month = []
  nodes : ∀ month, Hosted ((tables.atlas.nodesOf month).map Node.entry)
  parents : Hosted (entriesOf tables.parents)

section History
variable {circle : Circle K} {ar : YearArithmetic F} {tables : Tables K}

theorem hosted_nil : Hosted [] where
  unique _ _ _ h := by cases h
  apart _ _ h := by cases h

omit [Field K] [LinearOrder K] in
theorem HistoryInv.latest (hinv : HistoryInv tables) :
    Hosted ((latestNodes tables.atlas).map Node.entry) := by
  unfold latestNodes
  split
  · exact hosted_nil
  · exact hinv.nodes _

/-- What a committing atlas run that finds no month does. -/
theorem storeStyleAtlas_cases (circle : Circle K) (ar : YearArithmetic F)
    (hinv : HistoryInv tables) (month : AtlasMonth) (data : StyleYearCounts K) :
    (storeStyleAtlas circle ar tables month data = tables ∧
      (tables.atlas.sectorsOf month ≠ [] ∨ ¬ ∃ layout, layOut circle ar data month
        (tables.atlas.pinnedSectors month) = some (.ok layout))) ∨
    ∃ layout, layOut circle ar data month (tables.atlas.pinnedSectors month) =
        some (.ok layout) ∧ tables.atlas.sectorsOf month = [] ∧
      (layout.sectors.map Sector.genre).Nodup ∧ layout.sectors ≠ [] ∧
      (∀ entry, entry ∈ layout.nodes.map Node.entry ↔
        entry ∈ entriesOf (styleParentRows data.styleParents)) ∧
      storeStyleAtlas circle ar tables month data =
        { tables with atlas := tables.atlas.insert month layout.sectors layout.nodes } := by
  unfold storeStyleAtlas
  split
  · rename_i hexists
    exact Or.inl ⟨rfl, Or.inl (monthExists_iff.mp hexists)⟩
  · rename_i hexists
    have hnone : tables.atlas.sectorsOf month = [] :=
      not_not.mp (mt monthExists_iff.mpr hexists)
    split
    · rename_i layout hlayout
      have hpinned := pinnedSectors_nodup hinv.nodup month
      obtain ⟨hnodup, hne⟩ := layOut_sectors hpinned hlayout
      refine Or.inr ⟨layout, hlayout, hnone, hnodup, hne, ?_, rfl⟩
      unfold layOut at hlayout
      split at hlayout
      · cases hlayout
      · exact buildLayout_entries hpinned (Option.some.inj hlayout)
    · rename_i hfails
      refine Or.inl ⟨rfl, Or.inr ?_⟩
      rintro ⟨layout, hlayout⟩
      exact hfails layout hlayout

theorem storeStyleYearCounts_cases (tables : Tables K) (data : StyleYearCounts K) :
    (storeStyleYearCounts tables data = tables ∧
      (data.styleYears = [] ∨ data.styleParents = [] ∨ data.genreYears = [])) ∨
    (data.styleYears ≠ [] ∧ data.styleParents ≠ [] ∧ data.genreYears ≠ [] ∧
      (storeStyleYearCounts tables data).atlas = tables.atlas ∧
      (storeStyleYearCounts tables data).parents = styleParentRows data.styleParents) := by
  unfold storeStyleYearCounts
  simp only [List.isEmpty_iff]
  split
  · rename_i hpart
    exact Or.inl ⟨rfl, hpart⟩
  · rename_i hpart
    rw [not_or, not_or] at hpart
    exact Or.inr ⟨hpart.1, hpart.2.1, hpart.2.2, rfl, rfl⟩

omit [Field K] [LinearOrder K] in
theorem historyInv_empty (masters : List AtlasMaster) :
    HistoryInv (emptyTables masters : Tables K) where
  nodup _ := List.nodup_nil
  bare _ _ := rfl
  nodes _ := hosted_nil
  parents := hosted_nil

theorem historyInv_step (circle : Circle K) (ar : YearArithmetic F) (hinv : HistoryInv tables)
    (run : CycleRun K) :
    HistoryInv (cycleStep circle ar tables run) := by
  cases run with
  | yearCounts data commits =>
    simp only [cycleStep]
    cases commits with
    | false => exact hinv
    | true =>
      simp only [if_true]
      rcases storeStyleYearCounts_cases tables data with ⟨hsame, -⟩ | ⟨-, -, -, hatlas, hparents⟩
      · rw [hsame]
        exact hinv
      · refine ⟨?_, ?_, ?_, ?_⟩
        · rw [hatlas]
          exact hinv.nodup
        · rw [hatlas]
          exact hinv.bare
        · rw [hatlas]
          exact hinv.nodes
        · rw [hparents]
          exact styleParentRows_hosted _
  | atlas month data commits =>
    simp only [cycleStep]
    cases commits with
    | false => exact hinv
    | true =>
      simp only [if_true]
      rcases storeStyleAtlas_cases circle ar hinv month data with
        ⟨hsame, -⟩ | ⟨layout, -, hnone, hnodup, hne, hentries, hstore⟩
      · rw [hsame]
        exact hinv
      · rw [hstore]
        refine ⟨fun other => ?_, fun other hother => ?_, fun other => ?_, hinv.parents⟩
        · simp only
          rw [insert_sectorsOf]
          by_cases h : month = other
          · rw [if_pos h, ← h, hnone]
            exact hnodup
          · rw [if_neg h, List.append_nil]
            exact hinv.nodup other
        · simp only at hother ⊢
          rw [insert_sectorsOf, List.append_eq_nil_iff] at hother
          by_cases h : month = other
          · rw [if_pos h] at hother
            exact absurd hother.2 hne
          · rw [insert_nodesOf, if_neg h, List.append_nil]
            exact hinv.bare other hother.1
        · simp only
          rw [insert_nodesOf]
          by_cases h : month = other
          · rw [if_pos h, ← h, hinv.bare month hnone, List.nil_append]
            exact (styleParentRows_hosted _).congr hentries
          · rw [if_neg h, List.append_nil]
            exact hinv.nodes other

/-- One run keeps the two sides matched exactly when it meets the condition. -/
theorem match_step (hinv : HistoryInv tables)
    (hmatch : Match ((latestNodes tables.atlas).map Node.entry) tables.parents)
    (run : CycleRun K) :
    Match ((latestNodes (cycleStep circle ar tables run).atlas).map Node.entry)
        (cycleStep circle ar tables run).parents ↔ Meets circle ar tables run := by
  cases run with
  | yearCounts data commits =>
    simp only [cycleStep, Meets]
    cases commits with
    | false => exact iff_of_true hmatch nofun
    | true =>
      simp only [if_true]
      rcases storeStyleYearCounts_cases tables data with
        ⟨hsame, hpart⟩ | ⟨hyears, hshares, hgenres, hatlas, hparents⟩
      · rw [hsame]
        refine iff_of_true hmatch fun _ hyears hshares hgenres => ?_
        rcases hpart with hpart | hpart | hpart
        · exact absurd hpart hyears
        · exact absurd hpart hshares
        · exact absurd hpart hgenres
      · rw [hatlas, hparents]
        exact ⟨fun h _ _ _ _ => h, fun h => h trivial hyears hshares hgenres⟩
  | atlas month data commits =>
    simp only [cycleStep, Meets]
    cases commits with
    | false => exact iff_of_true hmatch nofun
    | true =>
      simp only [if_true]
      rcases storeStyleAtlas_cases circle ar hinv month data with
        ⟨hsame, hnot⟩ | ⟨layout, hlayout, hnone, -, hne, hentries, hstore⟩
      · rw [hsame]
        refine iff_of_true hmatch fun _ hnewest hlays => ?_
        rcases hnot with hstored | hfails
        · obtain ⟨row, hrow, hmonth⟩ := mem_sectors_of_ne_nil hstored
          exact absurd (hnewest row hrow) (by rw [hmonth]; exact lt_irrefl _)
        · exact absurd hlays hfails
      · rw [hstore]
        simp only
        by_cases hnewest : ∀ row ∈ tables.atlas.sectors, row.1 < month
        · rw [latestNodes_insert_newest hnone (hinv.bare month hnone) hne hnewest,
            Match.congr hentries]
          exact ⟨fun h _ _ _ => h, fun h => h trivial hnewest ⟨layout, hlayout⟩⟩
        · rw [latestNodes_insert_older hnone hnewest]
          exact iff_of_true hmatch fun _ h => absurd h hnewest

/-- From tables that agree, every state of a history agrees exactly when every run of it meets the
condition in the state it starts from. -/
theorem history_iff (hinv : HistoryInv tables) (hagrees : (readStyleAtlas ar tables).Agrees)
    (runs : List (CycleRun K)) :
    (∀ n, (readStyleAtlas ar (history circle ar tables (runs.take n))).Agrees) ↔
      ∀ n run, runs[n]? = some run → Meets circle ar (history circle ar tables (runs.take n)) run := by
  induction runs generalizing tables with
  | nil =>
    refine iff_of_true (fun n => ?_) nofun
    rw [List.take_nil]
    exact hagrees
  | cons first rest ih =>
    have hinv' : HistoryInv (cycleStep circle ar tables first) := historyInv_step circle ar hinv first
    have hmatch := (readStyleAtlas_agrees_iff ar hinv.latest hinv.parents).mp hagrees
    have hfirst := (readStyleAtlas_agrees_iff ar hinv'.latest hinv'.parents).trans
      (match_step hinv hmatch first)
    constructor
    · intro hall n run hrun
      have hafter : (readStyleAtlas ar (cycleStep circle ar tables first)).Agrees := hall 1
      cases n with
      | zero =>
        cases hrun
        exact hfirst.mp hafter
      | succ n => exact (ih hinv' hafter).mp (fun k => hall (k + 1)) n run hrun
    · intro hmeets n
      have hafter := hfirst.mpr (hmeets 0 first rfl)
      cases n with
      | zero => exact hagrees
      | succ n => exact (ih hinv' hafter).mpr (fun k run hrun => hmeets (k + 1) run hrun) n

/-- From empty tables. -/
theorem agreement_run (circle : Circle K) (ar : YearArithmetic F) (masters : List AtlasMaster)
    (runs : List (CycleRun K)) :
    (∀ n, (readStyleAtlas ar (history circle ar (emptyTables masters) (runs.take n))).Agrees) ↔
      ∀ n run, runs[n]? = some run →
        Meets circle ar (history circle ar (emptyTables masters) (runs.take n)) run := by
  refine history_iff (historyInv_empty masters) ?_ runs
  intro style hstyle
  cases hstyle

end History

/-! ### Shares that change within a month -/

/-- The highest share dominates. -/
theorem dominantGenre_eq [IsStrictOrderedRing K] {shares : List (ShareRow K)}
    {style genre : String} (share : K) (hmem : (genre, share) ∈ parentShares shares style)
    (hhighest : ∀ p ∈ parentShares shares style, p.1 ≠ genre → p.2 < share) :
    dominantGenre shares style = genre := by
  unfold dominantGenre
  cases hmin : (parentShares shares style).argmin fun p => toLex (-p.2, p.1) with
  | none =>
    rw [List.argmin_eq_none] at hmin
    rw [hmin] at hmem
    cases hmem
  | some p =>
    by_contra hne
    have hlower := hhighest p (List.argmin_mem hmin) hne
    have hle := List.le_of_mem_argmin hmem hmin
    rw [Prod.Lex.toLex_le_toLex] at hle
    rcases hle with hlt | ⟨heq, -⟩
    · exact absurd hlower (neg_lt_neg_iff.mp hlt).asymm
    · exact absurd hlower (neg_inj.mp heq).not_lt

/- Synthpop, with its shares in Electronic and Pop. -/
def synthpop (electronic pop : ℝ) : StyleYearCounts ℝ where
  styleYears := [⟨⟨"Synthpop", 1981, 30⟩, 12⟩]
  styleParents := [⟨"Synthpop", "Electronic", electronic⟩, ⟨"Synthpop", "Pop", pop⟩]
  genreYears := [⟨"Electronic", 1975, 40⟩, ⟨"Pop", 1960, 50⟩]

theorem synthpop_parents {electronic pop : ℝ} (he : 1 / 5 ≤ electronic) (hp : 1 / 5 ≤ pop) :
    parentShares (synthpop electronic pop).styleParents "Synthpop" =
      [("Electronic", electronic), ("Pop", pop)] := by
  have hkept : keptShares (synthpop electronic pop).styleParents =
      (synthpop electronic pop).styleParents := by
    refine List.filter_eq_self.mpr fun row hrow => decide_eq_true ?_
    rcases List.mem_pair.mp hrow with rfl | rfl
    · exact he
    · exact hp
  unfold parentShares
  rw [hkept]
  simp [synthpop]

/-- More electronic than pop one day, more pop than electronic later in the month. -/
theorem synthpop_dominant : dominantGenre (synthpop (3 / 5) (2 / 5)).styleParents "Synthpop" =
      "Electronic" ∧
    dominantGenre (synthpop (2 / 5) (3 / 5)).styleParents "Synthpop" = "Pop" := by
  refine ⟨?_, ?_⟩
  · refine dominantGenre_eq (3 / 5) ?_ ?_
    · rw [synthpop_parents (by norm_num) (by norm_num)]
      exact List.mem_cons_self
    · rw [synthpop_parents (by norm_num) (by norm_num)]
      intro p hp hne
      rcases List.mem_pair.mp hp with rfl | rfl
      · exact absurd rfl hne
      · norm_num
  · refine dominantGenre_eq (3 / 5) ?_ ?_
    · rw [synthpop_parents (by norm_num) (by norm_num)]
      exact List.mem_cons_of_mem _ List.mem_cons_self
    · rw [synthpop_parents (by norm_num) (by norm_num)]
      intro p hp hne
      rcases List.mem_pair.mp hp with rfl | rfl
      · norm_num
      · exact absurd rfl hne

/-- Two genres start a ring, so the month is laid out. -/
theorem synthpop_laidOut (month : AtlasMonth) : ∃ layout,
    layOut realCircle ratArithmetic (synthpop (3 / 5) (2 / 5)) month [] = some (.ok layout) := by
  have hfew : (monthInput ratArithmetic (synthpop (3 / 5) (2 / 5)) month).genres.length ≤
      ringExactMaxGenres := by
    unfold Month.genres
    rw [Finset.length_sort]
    refine (Finset.card_le_card (t := {"Electronic", "Pop"}) fun genre hgenre => ?_).trans
      (by decide)
    rw [List.mem_toFinset, List.mem_append] at hgenre
    rcases hgenre with hgenre | hgenre
    · have hkeys : (sharesOf (synthpop (3 / 5) (2 / 5)).styleParents).entries.flatMap
          (fun e => e.2.keys) = ["Pop", "Electronic"] := rfl
      have hgenre' := hkeys ▸ hgenre
      rcases List.mem_pair.mp hgenre' with rfl | rfl <;> decide
    · obtain ⟨entry, hentry, rfl⟩ := List.mem_map.mp hgenre
      obtain ⟨row, hrow, rfl⟩ := List.mem_map.mp hentry
      obtain ⟨share, hshare, -, rfl⟩ := mem_styleParentRows.mp hrow
      rcases List.mem_pair.mp hshare with rfl | rfl <;> decide
  obtain ⟨order, horder⟩ := ringOrder_ok (genreAffinity
    (monthInput ratArithmetic (synthpop (3 / 5) (2 / 5)) month).genres
    (monthInput ratArithmetic (synthpop (3 / 5) (2 / 5)) month).shares) hfew
  unfold layOut buildLayout monthRing
  simp only
  rw [horder]
  exact ⟨_, rfl⟩

/- The parents and the layout of one response, and then a later cycle's parents: the style stays in
Electronic, and its parents mark Pop. -/
theorem history_disagrees : ¬ (readStyleAtlas ratArithmetic
    (history realCircle ratArithmetic (emptyTables [])
      [.yearCounts (synthpop (3 / 5) (2 / 5)) true,
        .atlas (toLex (2026, 10)) (synthpop (3 / 5) (2 / 5)) true,
        .yearCounts (synthpop (2 / 5) (3 / 5)) true])).Agrees := by
  obtain ⟨hfirst, hsecond⟩ := synthpop_dominant
  let month : AtlasMonth := toLex (2026, 10)
  let counted := storeStyleYearCounts (emptyTables []) (synthpop (3 / 5) (2 / 5))
  let laidOut := storeStyleAtlas realCircle ratArithmetic counted month (synthpop (3 / 5) (2 / 5))
  let recounted := storeStyleYearCounts laidOut (synthpop (2 / 5) (3 / 5))
  have hcounted : HistoryInv counted := historyInv_step realCircle
    ratArithmetic (historyInv_empty []) (.yearCounts (synthpop (3 / 5) (2 / 5)) true)
  have hlaidOut : HistoryInv laidOut := historyInv_step realCircle
    ratArithmetic hcounted (.atlas month (synthpop (3 / 5) (2 / 5)) true)
  have hrecounted : HistoryInv recounted := historyInv_step realCircle
    ratArithmetic hlaidOut (.yearCounts (synthpop (2 / 5) (3 / 5)) true)
  intro hagrees
  have hmatch := (readStyleAtlas_agrees_iff ratArithmetic hrecounted.latest
    hrecounted.parents).mp hagrees
  rcases storeStyleAtlas_cases realCircle ratArithmetic hcounted month (synthpop (3 / 5) (2 / 5))
    with ⟨-, hstored | hfails⟩ | ⟨layout, -, hnone, -, hne, hentries, hstore⟩
  · exact hstored rfl
  · exact hfails (synthpop_laidOut month)
  · have hlatest : latestNodes laidOut.atlas = layout.nodes := by
      show latestNodes (storeStyleAtlas realCircle ratArithmetic counted month
        (synthpop (3 / 5) (2 / 5))).atlas = _
      rw [hstore]
      exact latestNodes_insert_newest hnone rfl hne nofun
    have hhost : (⟨.style, "Synthpop", "Electronic"⟩ : Entry) ∈
        (latestNodes recounted.atlas).map Node.entry := by
      show _ ∈ (latestNodes laidOut.atlas).map Node.entry
      rw [hlatest, hentries, dominant_mem]
      refine ⟨_, mem_styleParentRows.mpr ⟨_, List.mem_cons_self, ?_, rfl⟩, rfl, ?_, rfl⟩
      · show (1 / 5 : ℝ) ≤ 3 / 5
        norm_num
      · exact decide_eq_true hfirst.symm
    have hdominant := (hmatch "Synthpop" "Electronic" hhost .style "Electronic").mp hhost
    obtain ⟨row, hrow, -, hflag, hgenre⟩ := dominant_mem.mp hdominant
    obtain ⟨share, hshare, -, rfl⟩ := mem_styleParentRows.mp hrow
    rcases List.mem_pair.mp hshare with rfl | rfl
    · have hsame := of_decide_eq_true hflag
      rw [hsecond] at hsame
      exact absurd hsame (by decide)
    · exact absurd hgenre (by decide)

end AnalyticsEngine.StyleAtlas
