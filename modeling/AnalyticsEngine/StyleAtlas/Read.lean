import AnalyticsEngine.StyleAtlas.Store

/-!
# insights/style_atlas_read.py

The response joins the latest month's stored nodes with the parents and year counts as they are
when it is read.
-/

namespace AnalyticsEngine.StyleAtlas
open Library

/-- A row of `insights.style_landmark_masters`. -/
structure AtlasMaster where
  masterId : String
  title : String
  year : Option ℤ
  style : String
  releaseCount : ℕ
  rank : ℕ

/- The tables the read joins. -/
structure Tables (K : Type*) where
  atlas : AtlasTables K
  yearCounts : List StyleYear
  parents : List (ParentRow K)
  genreYears : List YearCount
  masters : List AtlasMaster

structure AtlasParent (K : Type*) where
  genre : String
  share : K
  dominant : Bool
  emergenceEdge : Bool

structure AtlasStyle (K : Type*) where
  style : String
  genre : String
  x : K
  y : K
  stage : Stage
  settledStage : Option Stage
  emergenceYear : Option ℤ
  stages : List Stage
  parents : List (AtlasParent K)

structure AtlasGhost (K : Type*) where
  style : String
  genre : String
  x : K
  y : K

structure AtlasGenre (K : Type*) where
  genre : String
  ringOrder : ℕ
  sectorStart : K
  sectorEnd : K
  x : K
  y : K
  emergenceYear : Option ℤ

structure AtlasTimeline where
  firstYear : ℤ
  lastYear : ℤ
  provisionalFrom : ℤ

structure StyleAtlasResponse (K : Type*) where
  month : Option AtlasMonth
  timeline : Option AtlasTimeline
  genres : List (AtlasGenre K)
  styles : List (AtlasStyle K)
  ghosts : List (AtlasGhost K)
  masters : List AtlasMaster

def emptyStyleAtlas {K : Type*} : StyleAtlasResponse K where
  month := none
  timeline := none
  genres := []
  styles := []
  ghosts := []
  masters := []

/-- `_emerges_after`. -/
def emergesAfter (styleYear genreYear : Option ℤ) : Bool :=
  match styleYear, genreYear with
  | some styleYear, some genreYear => genreYear < styleYear
  | _, _ => false

section
variable {K F : Type*} [Field K] [LinearOrder K] [LinearOrder F]

def AtlasTables.latestMonth {K : Type*} (tables : AtlasTables K) : Option AtlasMonth :=
  (tables.sectors.map Prod.fst).max?

/- `WHERE style IN (SELECT style … WHERE month = … AND node_kind = 'style')`. -/
def placed {K : Type*} (nodes : List (Node K)) (style : String) : Bool :=
  nodes.any fun node => node.kind = .style && node.style = style

def emergenceOf (ar : YearArithmetic F) (lifecycles : StyleLifecycles F) (name : String) : Option ℤ :=
  ((lifecycles.emergenceYears ar).lookup name).join

/- `ORDER BY style, share DESC, genre`, one style's rows. -/
def parentsOf (rows : List (ParentRow K)) (nodes : List (Node K)) (style : String) :
    List (ParentRow K) :=
  (rows.filter fun row => row.style = style && placed nodes row.style).insertionSort fun r s =>
    toLex (-r.share, r.genre) ≤ toLex (-s.share, s.genre)

/-- A style's stages, absent throughout when the year counts have no row for it. -/
def timelineOf (lifecycles : StyleLifecycles F) (style : String) : List Stage :=
  (lifecycles.stages[lifecycles.styles.idxOf style]?).getD
    (List.replicate (yearsFrom lifecycles.firstYear lifecycles.lastYear) .absent)

/-- `read_style_atlas`. -/
def readStyleAtlas (ar : YearArithmetic F) (tables : Tables K) : StyleAtlasResponse K :=
  match tables.atlas.latestMonth with
  | none => emptyStyleAtlas
  | some month =>
    let sectors := (tables.atlas.sectorsOf month).insertionSort fun s t => s.ringOrder ≤ t.ringOrder
    let nodes := (tables.atlas.nodesOf month).insertionSort fun m n => m.key ≤ n.key
    let lastYear := lastCompleteYear month
    let lifecycles := styleLifecycles ar (keptRows (tables.yearCounts.map StyleYear.toYearCount)
      lastYear) lastYear (lifecycleRule ar)
    let genreLifecycles := styleLifecycles ar (keptRows tables.genreYears lastYear) lastYear
      lifecycles.rule
    let emergence := emergenceOf ar lifecycles
    let genreEmergence := emergenceOf ar genreLifecycles
    let parents := fun style => (parentsOf tables.parents nodes style).map fun row =>
      (⟨row.genre, row.share, row.isDominant,
        emergesAfter (emergence style) (genreEmergence row.genre)⟩ : AtlasParent K)
    let provisionalFrom := lastYear - lifecycles.rule.provisionalYears + 1
    let settledIndex := provisionalFrom - 1 - lifecycles.firstYear
    { month := some month
      timeline := some ⟨lifecycles.firstYear, lastYear, provisionalFrom⟩
      genres := sectors.map fun s =>
        ⟨s.genre, s.ringOrder, s.start, s.stop, s.x, s.y, genreEmergence s.genre⟩
      styles := (nodes.filter fun node => node.kind = .style).map fun node =>
        let timeline := timelineOf lifecycles node.style
        { style := node.style
          genre := node.genre
          x := node.x
          y := node.y
          stage := timeline.getLast?.getD .absent
          settledStage := if 0 ≤ settledIndex then timeline[settledIndex.toNat]? else none
          emergenceYear := emergence node.style
          stages := timeline
          parents := parents node.style }
      ghosts := (nodes.filter fun node => node.kind = .ghost).map fun node =>
        ⟨node.style, node.genre, node.x, node.y⟩
      masters := (tables.masters.filter fun master => placed nodes master.style).insertionSort
        fun m n => toLex (m.style, m.rank) ≤ toLex (n.style, n.rank) }

/-! ### What the response says of membership -/

/- The genres a style's own parents mark dominant are its host, and its ghosts' the others. -/
def StyleAtlasResponse.Agrees {K : Type*} (response : StyleAtlasResponse K) : Prop :=
  ∀ style ∈ response.styles,
    (∀ genre, (∃ parent ∈ style.parents, parent.dominant = true ∧ parent.genre = genre) ↔
      genre = style.genre) ∧
    ∀ genre, (∃ ghost ∈ response.ghosts, ghost.style = style.style ∧ ghost.genre = genre) ↔
      ∃ parent ∈ style.parents, parent.genre = genre ∧ genre ≠ style.genre

def Node.entry {K : Type*} (node : Node K) : Entry := ⟨node.kind, node.style, node.genre⟩

/- The drawn copies of the styles in `drawn` are those of the rows. -/
def Match (drawn : List Entry) (rows : List (ParentRow K)) : Prop :=
  ∀ style host, (⟨.style, style, host⟩ : Entry) ∈ drawn →
    ∀ kind genre, (⟨kind, style, genre⟩ : Entry) ∈ drawn ↔
      (⟨kind, style, genre⟩ : Entry) ∈ entriesOf rows

/- A style is hosted once, and has no ghost where it is hosted. -/
structure Hosted (drawn : List Entry) : Prop where
  unique : ∀ style host other, (⟨.style, style, host⟩ : Entry) ∈ drawn →
    (⟨.style, style, other⟩ : Entry) ∈ drawn → host = other
  apart : ∀ style host, (⟨.style, style, host⟩ : Entry) ∈ drawn →
    (⟨.ghost, style, host⟩ : Entry) ∉ drawn

def latestNodes {K : Type*} (tables : AtlasTables K) : List (Node K) :=
  match tables.latestMonth with
  | none => []
  | some month => tables.nodesOf month

section Entries
omit [Field K] [LinearOrder K]
variable {rows : List (ParentRow K)} {nodes : List (Node K)} {style genre host : String}

theorem entry_mem {kind : NodeKind} : (⟨kind, style, genre⟩ : Entry) ∈ entriesOf rows ↔
    ∃ row ∈ rows, row.style = style ∧ row.isDominant = decide (kind = .style) ∧
      row.genre = genre := by
  unfold entriesOf
  rw [List.mem_map]
  refine exists_congr fun row => and_congr_right fun _ => ?_
  cases hdominant : row.isDominant <;> cases kind <;> simp

theorem dominant_mem : (⟨.style, style, genre⟩ : Entry) ∈ entriesOf rows ↔
    ∃ row ∈ rows, row.style = style ∧ row.isDominant = true ∧ row.genre = genre := entry_mem

theorem secondary_mem : (⟨.ghost, style, genre⟩ : Entry) ∈ entriesOf rows ↔
    ∃ row ∈ rows, row.style = style ∧ row.isDominant = false ∧ row.genre = genre := entry_mem

theorem parent_mem : (∃ row ∈ rows, row.style = style ∧ row.genre = genre) ↔
    (⟨.style, style, genre⟩ : Entry) ∈ entriesOf rows ∨
      (⟨.ghost, style, genre⟩ : Entry) ∈ entriesOf rows := by
  rw [dominant_mem, secondary_mem]
  constructor
  · rintro ⟨row, hrow, hstyle, hgenre⟩
    cases hdominant : row.isDominant with
    | true => exact Or.inl ⟨row, hrow, hstyle, hdominant, hgenre⟩
    | false => exact Or.inr ⟨row, hrow, hstyle, hdominant, hgenre⟩
  · rintro (⟨row, hrow, hstyle, -, hgenre⟩ | ⟨row, hrow, hstyle, -, hgenre⟩)
    · exact ⟨row, hrow, hstyle, hgenre⟩
    · exact ⟨row, hrow, hstyle, hgenre⟩

theorem node_mem {kind : NodeKind} : (⟨kind, style, genre⟩ : Entry) ∈ nodes.map Node.entry ↔
    ∃ node ∈ nodes, node.kind = kind ∧ node.style = style ∧ node.genre = genre := by
  rw [List.mem_map]
  refine exists_congr fun node => and_congr_right fun _ => ?_
  unfold Node.entry
  rw [Entry.mk.injEq]

theorem placed_iff : placed nodes style = true ↔
    ∃ host, (⟨.style, style, host⟩ : Entry) ∈ nodes.map Node.entry := by
  unfold placed
  simp only [node_mem, List.any_eq_true, Bool.and_eq_true, decide_eq_true_iff]
  constructor
  · rintro ⟨node, hnode, hkind, hstyle⟩
    exact ⟨node.genre, node, hnode, hkind, hstyle, rfl⟩
  · rintro ⟨_, node, hnode, hkind, hstyle, -⟩
    exact ⟨node, hnode, hkind, hstyle⟩

theorem ghost_node : (∃ ghost ∈ (nodes.filter fun node => node.kind = .ghost).map fun node =>
      (⟨node.style, node.genre, node.x, node.y⟩ : AtlasGhost K),
      ghost.style = style ∧ ghost.genre = genre) ↔
    (⟨.ghost, style, genre⟩ : Entry) ∈ nodes.map Node.entry := by
  rw [node_mem]
  simp only [List.mem_map, exists_exists_and_eq_and, List.mem_filter, decide_eq_true_iff]
  exact exists_congr fun node => and_assoc

/-- The ghosts of a style's rows are its parents but the host. -/
theorem secondary_iff (hrows : Hosted (entriesOf rows))
    (hdominant : ∀ genre, (⟨.style, style, genre⟩ : Entry) ∈ entriesOf rows ↔ genre = host) :
    (⟨.ghost, style, genre⟩ : Entry) ∈ entriesOf rows ↔
      (genre = host ∨ (⟨.ghost, style, genre⟩ : Entry) ∈ entriesOf rows) ∧ genre ≠ host := by
  constructor
  · intro hghost
    refine ⟨Or.inr hghost, ?_⟩
    rintro rfl
    exact hrows.apart style _ ((hdominant _).mpr rfl) hghost
  · rintro ⟨hgenre | hghost, hne⟩
    · exact absurd hgenre hne
    · exact hghost

/-- Where each style is hosted once, matching is agreement on hosts and ghosts. -/
theorem match_iff {drawn : List Entry} (hdrawn : Hosted drawn) (hrows : Hosted (entriesOf rows)) :
    Match drawn rows ↔ ∀ style host, (⟨.style, style, host⟩ : Entry) ∈ drawn →
      (∀ genre, (⟨.style, style, genre⟩ : Entry) ∈ entriesOf rows ↔ genre = host) ∧
      ∀ genre, (⟨.ghost, style, genre⟩ : Entry) ∈ drawn ↔
        ((⟨.style, style, genre⟩ : Entry) ∈ entriesOf rows ∨
          (⟨.ghost, style, genre⟩ : Entry) ∈ entriesOf rows) ∧ genre ≠ host := by
  refine forall_congr' fun style => forall_congr' fun host => forall_congr' fun hhost => ?_
  have hhosted : ∀ genre, (⟨.style, style, genre⟩ : Entry) ∈ drawn ↔ genre = host := by
    intro genre
    constructor
    · exact fun hgenre => hdrawn.unique style genre host hgenre hhost
    · rintro rfl
      exact hhost
  constructor
  · intro hmatch
    have hdominant : ∀ genre, (⟨.style, style, genre⟩ : Entry) ∈ entriesOf rows ↔ genre = host :=
      fun genre => (hmatch .style genre).symm.trans (hhosted genre)
    refine ⟨hdominant, fun genre => ?_⟩
    rw [hmatch .ghost genre, hdominant]
    exact secondary_iff hrows hdominant
  · rintro ⟨hdominant, hghosts⟩ kind genre
    cases kind with
    | style => rw [hhosted, hdominant]
    | ghost =>
      rw [hghosts, hdominant]
      exact (secondary_iff hrows hdominant).symm

end Entries

section Parents
variable {rows : List (ParentRow K)} {nodes : List (Node K)} {style genre host : String}

theorem mem_parentsOf {row : ParentRow K} (hplaced : placed nodes style = true) :
    row ∈ parentsOf rows nodes style ↔ row ∈ rows ∧ row.style = style := by
  unfold parentsOf
  rw [List.mem_insertionSort, List.mem_filter, Bool.and_eq_true, decide_eq_true_iff]
  refine and_congr_right fun _ => ⟨And.left, fun hstyle => ⟨hstyle, ?_⟩⟩
  rw [hstyle]
  exact hplaced

theorem dominant_parent (edge : ParentRow K → Bool) (hplaced : placed nodes style = true) :
    (∃ parent ∈ (parentsOf rows nodes style).map fun row =>
        (⟨row.genre, row.share, row.isDominant, edge row⟩ : AtlasParent K),
      parent.dominant = true ∧ parent.genre = genre) ↔
    (⟨.style, style, genre⟩ : Entry) ∈ entriesOf rows := by
  rw [dominant_mem]
  simp only [List.mem_map, exists_exists_and_eq_and, mem_parentsOf hplaced]
  exact exists_congr fun row => and_assoc

theorem other_parent (edge : ParentRow K → Bool) (hplaced : placed nodes style = true) :
    (∃ parent ∈ (parentsOf rows nodes style).map fun row =>
        (⟨row.genre, row.share, row.isDominant, edge row⟩ : AtlasParent K),
      parent.genre = genre ∧ genre ≠ host) ↔
    ((⟨.style, style, genre⟩ : Entry) ∈ entriesOf rows ∨
      (⟨.ghost, style, genre⟩ : Entry) ∈ entriesOf rows) ∧ genre ≠ host := by
  rw [← parent_mem]
  simp only [List.mem_map, exists_exists_and_eq_and, mem_parentsOf hplaced]
  constructor
  · rintro ⟨row, ⟨hrow, hstyle⟩, hgenre, hne⟩
    exact ⟨⟨row, hrow, hstyle, hgenre⟩, hne⟩
  · rintro ⟨⟨row, hrow, hstyle, hgenre⟩, hne⟩
    exact ⟨row, ⟨hrow, hstyle⟩, hgenre, hne⟩

end Parents

/-- What the response says of membership is what the stored nodes and parents say. -/
theorem readStyleAtlas_agrees_iff (ar : YearArithmetic F) {tables : Tables K}
    (hnodes : Hosted ((latestNodes tables.atlas).map Node.entry))
    (hparents : Hosted (entriesOf tables.parents)) :
    (readStyleAtlas ar tables).Agrees ↔
      Match ((latestNodes tables.atlas).map Node.entry) tables.parents := by
  rw [match_iff hnodes hparents]
  unfold readStyleAtlas latestNodes
  cases tables.atlas.latestMonth with
  | none =>
    refine iff_of_true ?_ ?_
    · intro style hstyle
      cases hstyle
    · intro style host hhost
      cases hhost
  | some month =>
    simp only
    generalize hnodes' : (tables.atlas.nodesOf month).insertionSort (fun m n => m.key ≤ n.key) =
      nodes
    have hmem : ∀ entry, entry ∈ (tables.atlas.nodesOf month).map Node.entry ↔
        entry ∈ nodes.map Node.entry := by
      intro entry
      rw [← hnodes']
      exact ((List.perm_insertionSort _ _).map _).mem_iff.symm
    simp only [hmem]
    unfold StyleAtlasResponse.Agrees
    rw [List.forall_mem_map]
    constructor
    · intro hagrees style host hhost
      have hplaced : placed nodes style = true := placed_iff.mpr ⟨host, hhost⟩
      obtain ⟨node, hnode, hkind, rfl, rfl⟩ := node_mem.mp hhost
      obtain ⟨hdominant, hghosts⟩ := hagrees node
        (List.mem_filter.mpr ⟨hnode, decide_eq_true hkind⟩)
      refine ⟨fun genre => (dominant_parent _ hplaced).symm.trans (hdominant genre), fun genre => ?_⟩
      exact ghost_node.symm.trans ((hghosts genre).trans (other_parent _ hplaced))
    · intro hmatch node hnode
      obtain ⟨hnode, hkind⟩ := List.mem_filter.mp hnode
      have hhost : (⟨.style, node.style, node.genre⟩ : Entry) ∈ nodes.map Node.entry :=
        node_mem.mpr ⟨node, hnode, of_decide_eq_true hkind, rfl, rfl⟩
      have hplaced : placed nodes node.style = true := placed_iff.mpr ⟨_, hhost⟩
      obtain ⟨hdominant, hghosts⟩ := hmatch node.style node.genre hhost
      refine ⟨fun genre => (dominant_parent _ hplaced).trans (hdominant genre), fun genre => ?_⟩
      exact ghost_node.trans ((hghosts genre).trans (other_parent _ hplaced).symm)

end

end AnalyticsEngine.StyleAtlas
