import AnalyticsEngine.DumpGraph.Checkpoint
import AnalyticsEngine.DumpGraph.Passes

/-!
# The graph of two dumps (scripts/embeddings_from_dump.py)

`build_graph` joins the columns of both passes, numbers their distinct keys and builds the adjacency.
Of the order in which chunks, credits and ids came nothing is left but the order of the artist ids:
the graph is that of the record lists (`buildGraph_records`), and every artist of a record is one of
its nodes (`artists_nodes`).
-/

namespace AnalyticsEngine.DumpGraph
open Library Library.Xml Embeddings

/-- `ALL_RELATIONS`. -/
def allRelations : List Relation :=
  [.byArtist, .onLabel, .derivedFrom, .inGenre, .inStyle, .masterByArtist, .masterInGenre,
    .masterInStyle, .creditedByArtist, .trackCreditedByArtist, .trackByArtist]

theorem mem_allRelations (name : Relation) : name ∈ allRelations := by
  cases name <;> decide

/-- `_RELEASE_SOURCED_RELATIONS`. -/
def releaseSourcedRelations : List Relation :=
  [.byArtist, .onLabel, .derivedFrom, .inGenre, .inStyle, .creditedByArtist, .trackCreditedByArtist,
    .trackByArtist]

/- The scalars of `build_graph`'s dictionary; the times and memory peaks are one of them. -/
structure Scalars (τ : Type*) where
  releaseCount : ℕ
  masterCount : ℕ
  relationCounts : Relation → ℕ
  distinctByKind : List (Char × ℕ)
  measured : τ

/-! ### Artists -/

/-- What `setdefault` leaves of two entries with one key. -/
def firstId (old _new : U64 × String) : U64 × String := old

theorem firstId_key (old new : U64 × String) : (firstId old new).1 = old.1 := rfl

section
variable (nodeKey : Char → Str → U64)

def artistEntry (aid : Str) : U64 × String := (nodeKey 'a' aid, String.ofList aid)

theorem nodup_artists (ids : List Str) :
    ((upsertAll Prod.fst firstId (ids.map (artistEntry nodeKey)) []).map Prod.fst).Nodup := by
  have hempty : (([] : List (U64 × String)).map Prod.fst).Nodup := List.nodup_nil
  exact nodup_upsertAll firstId_key hempty _

/-- `artist_key_to_id` after the ids of both passes. -/
def artistKeyToId (ids : List Str) : Dict U64 String :=
  ⟨upsertAll Prod.fst firstId (ids.map (artistEntry nodeKey)) [], nodup_artists nodeKey ids⟩

end

/-! ### build_graph -/

/-- The arrays of a relation, those of the release pass and then those of the master pass. -/
def relationArrays (releases masters : PoolResult) (name : Relation) : List U64 × List U64 :=
  ((releases.sources name ++ masters.sources name).flatten,
    (releases.targets name ++ masters.targets name).flatten)

def distinctCount (arrays : List (List U64)) : ℕ := arrays.flatten.toFinset.card

/- `distinct_by_kind`, with the number of artists. -/
def distinctByKind (artists : ℕ) (arrays : Relation → List U64 × List U64) : List (Char × ℕ) :=
  [('a', artists),
   ('r', distinctCount (releaseSourcedRelations.map fun name => (arrays name).1)),
   ('l', distinctCount [(arrays .onLabel).2]),
   ('m', distinctCount [(arrays .derivedFrom).2, (arrays .masterByArtist).1]),
   ('g', distinctCount [(arrays .inGenre).2, (arrays .masterInGenre).2]),
   ('s', distinctCount [(arrays .inStyle).2, (arrays .masterInStyle).2])]

section
variable {F D O τ : Type*} (ar : Arithmetic F D O) (junk : ℕ → ℕ) (nodeKey : Char → Str → U64)

def Graph.ofAdjacency {M : Type*} (adjacency : Adjacency F) (artists : Dict U64 String) (scalars : M) :
    Graph F M where
  nodes := adjacency.nodes
  transition := adjacency.transition
  degree := (List.range adjacency.nodes.keys.length).map fun p => (adjacency.degree p : ℤ)
  artistKeyToId := artists
  scalars := scalars

/-- The calls of `add_edges`, one for each relation that has edges. -/
def edgeBlocks (arrays : Relation → List U64 × List U64) : List (List U64 × List U64) :=
  (allRelations.map arrays).filter fun columns => columns.1 ≠ []

/-- `build_graph` behind the passes; the ids of a pass come in any order. -/
def buildGraph (releases masters : PoolResult) (releaseIds masterIds : List Str) (measured : τ) :
    Except GraphError (Graph F (Scalars τ)) :=
  let artists := artistKeyToId nodeKey (releaseIds ++ masterIds)
  let arrays := relationArrays releases masters
  let allKeys := allRelations.flatMap fun name => (arrays name).1 ++ (arrays name).2
  (Embeddings.buildGraph ar junk (allKeys.toFinset.sort (· ≤ ·))
    ((edgeBlocks arrays).map fun columns => .keys columns.1 columns.2)).map fun adjacency =>
      .ofAdjacency adjacency artists
        { releaseCount := releases.count
          masterCount := masters.count
          relationCounts := fun name => (arrays name).1.length
          distinctByKind := distinctByKind artists.items.length arrays
          measured := measured }

end

/-! ### The record lists -/

def recordEdges (releases masters : ChunkResult) (name : Relation) : List (U64 × U64) :=
  releases.edges name ++ masters.edges name

def allEdges (releases masters : ChunkResult) : List (U64 × U64) :=
  allRelations.flatMap (recordEdges releases masters)

/-- The distinct ends of the edges, in order. -/
def recordKeys (releases masters : ChunkResult) : List U64 :=
  ((allEdges releases masters).flatMap fun e => [e.1, e.2]).toFinset.sort (· ≤ ·)

/-- A graph is that of two lists of records. -/
structure OfRecords {F D O τ : Type*} (ar : Arithmetic F D O) (nodeKey : Char → Str → U64)
    (releases masters : ChunkResult) (graph : Graph F (Scalars τ)) : Prop where
  keys : graph.nodes.keys = recordKeys releases masters
  transition : graph.transition =
    (adjacencyOf ar graph.nodes (simpleGraph (allEdges releases masters))).transition
  degree : graph.degree = (recordKeys releases masters).map fun key =>
    (((recordKeys releases masters).filter
      ((simpleGraph (allEdges releases masters)).Adj key)).length : ℤ)
  artists : ∀ entry ∈ graph.artistKeyToId.items,
    ∃ aid ∈ releases.artistIds ++ masters.artistIds, entry = artistEntry nodeKey aid
  every_artist : ∀ aid ∈ releases.artistIds ++ masters.artistIds,
    nodeKey 'a' aid ∈ graph.artistKeyToId.items.map Prod.fst
  artists_nodes : ∀ entry ∈ graph.artistKeyToId.items, entry.1 ∈ graph.nodes.keys
  releaseCount : graph.scalars.releaseCount = releases.count
  masterCount : graph.scalars.masterCount = masters.count
  relationCounts : ∀ name, graph.scalars.relationCounts name = (recordEdges releases masters name).length
  distinctByKind : graph.scalars.distinctByKind =
    distinctByKind ((releases.artistIds ++ masters.artistIds).map (nodeKey 'a')).toFinset.card
      fun name => ((recordEdges releases masters name).map Prod.fst,
        (recordEdges releases masters name).map Prod.snd)

/-! ### What was collected -/

section
variable {releases masters : PoolResult} {R M : ChunkResult}

/-- The arrays of a relation are the two columns of its edges, in some order. -/
def Columns (R M : ChunkResult) (arrays : Relation → List U64 × List U64)
    (pairs : Relation → List (U64 × U64)) : Prop :=
  ∀ name, (pairs name).Perm (recordEdges R M name) ∧
    arrays name = ((pairs name).map Prod.fst, (pairs name).map Prod.snd)

theorem relationArrays_columns (hr : Collected releases R) (hm : Collected masters M) :
    ∃ pairs, Columns R M (relationArrays releases masters) pairs := by
  have hall : ∀ name, ∃ pairs : List (U64 × U64), pairs.Perm (recordEdges R M name) ∧
      relationArrays releases masters name = (pairs.map Prod.fst, pairs.map Prod.snd) := by
    intro name
    obtain ⟨first, hfirst, hsources, htargets⟩ := hr.edges name
    obtain ⟨second, hsecond, hsources', htargets'⟩ := hm.edges name
    refine ⟨first ++ second, hfirst.append hsecond, ?_⟩
    unfold relationArrays
    rw [List.flatten_append, List.flatten_append, hsources, htargets, hsources', htargets',
      List.map_append, List.map_append]
  exact ⟨fun name => (hall name).choose, fun name => (hall name).choose_spec⟩

variable {arrays : Relation → List U64 × List U64} {pairs : Relation → List (U64 × U64)}

theorem mem_pairs (h : Columns R M arrays pairs) (name : Relation) (e : U64 × U64) :
    e ∈ pairs name ↔ e ∈ recordEdges R M name := (h name).1.mem_iff

theorem mem_allEdges {e : U64 × U64} : e ∈ allEdges R M ↔ ∃ name, e ∈ recordEdges R M name := by
  unfold allEdges
  rw [List.mem_flatMap]
  exact ⟨fun ⟨name, _, he⟩ => ⟨name, he⟩, fun ⟨name, he⟩ => ⟨name, mem_allRelations name, he⟩⟩

theorem sort_congr {a b : Finset U64} (h : a = b) : a.sort (· ≤ ·) = b.sort (· ≤ ·) := by
  rw [h]

theorem unique_keys (h : Columns R M arrays pairs) :
    ((allRelations.flatMap fun name => (arrays name).1 ++ (arrays name).2).toFinset.sort (· ≤ ·)) =
      recordKeys R M := by
  apply sort_congr
  ext key
  simp only [List.mem_toFinset, List.mem_flatMap, mem_allRelations, true_and, (h _).2,
    List.mem_append, List.mem_map, mem_pairs h, mem_allEdges, List.mem_cons, List.not_mem_nil,
    or_false]
  constructor
  · rintro ⟨name, ⟨e, he, rfl⟩ | ⟨e, he, rfl⟩⟩
    · exact ⟨e, ⟨name, he⟩, Or.inl rfl⟩
    · exact ⟨e, ⟨name, he⟩, Or.inr rfl⟩
  · rintro ⟨e, ⟨name, he⟩, rfl | rfl⟩
    · exact ⟨name, Or.inl ⟨e, he, rfl⟩⟩
    · exact ⟨name, Or.inr ⟨e, he, rfl⟩⟩

theorem recordKeys_ordered (R M : ChunkResult) : (recordKeys R M).Pairwise (· < ·) :=
  (Finset.sortedLT_sort _).pairwise

theorem mem_recordKeys {key : U64} :
    key ∈ recordKeys R M ↔ ∃ e ∈ allEdges R M, key = e.1 ∨ key = e.2 := by
  unfold recordKeys
  simp only [Finset.mem_sort, List.mem_toFinset, List.mem_flatMap, List.mem_cons, List.not_mem_nil,
    or_false]

/-! ### The blocks -/

theorem mem_edgeBlocks {columns : List U64 × List U64} :
    columns ∈ edgeBlocks arrays ↔ ∃ name, arrays name = columns ∧ columns.1 ≠ [] := by
  unfold edgeBlocks
  rw [List.mem_filter, List.mem_map, decide_eq_true_eq]
  constructor
  · rintro ⟨⟨name, _, hname⟩, hne⟩
    exact ⟨name, hname, hne⟩
  · rintro ⟨name, hname, hne⟩
    exact ⟨⟨name, mem_allRelations name, hname⟩, hne⟩

theorem blocks_length (h : Columns R M arrays pairs) :
    ∀ columns ∈ edgeBlocks arrays, columns.1.length = columns.2.length := by
  intro columns hcolumns
  obtain ⟨name, rfl, _⟩ := mem_edgeBlocks.mp hcolumns
  rw [(h name).2, List.length_map, List.length_map]

theorem blocks_keys (h : Columns R M arrays pairs) :
    ∀ columns ∈ edgeBlocks arrays, ∀ key ∈ columns.1 ++ columns.2, key ∈ recordKeys R M := by
  intro columns hcolumns key hkey
  obtain ⟨name, rfl, _⟩ := mem_edgeBlocks.mp hcolumns
  rw [(h name).2] at hkey
  rw [mem_recordKeys]
  rcases List.mem_append.mp hkey with hkey | hkey
  · obtain ⟨e, he, rfl⟩ := List.mem_map.mp hkey
    exact ⟨e, mem_allEdges.mpr ⟨name, (mem_pairs h name e).mp he⟩, Or.inl rfl⟩
  · obtain ⟨e, he, rfl⟩ := List.mem_map.mp hkey
    exact ⟨e, mem_allEdges.mpr ⟨name, (mem_pairs h name e).mp he⟩, Or.inr rfl⟩

/-- No edge is lost with the relations that have none. -/
theorem mem_blockEdges (h : Columns R M arrays pairs) (keys : List U64) (e : U64 × U64) :
    e ∈ ((edgeBlocks arrays).map fun columns => EdgeBlock.keys columns.1 columns.2).flatMap
      (EdgeBlock.edges keys) ↔ e ∈ allEdges R M := by
  have hedges : ∀ name, (EdgeBlock.keys (arrays name).1 (arrays name).2).edges keys = pairs name := by
    intro name
    unfold EdgeBlock.edges
    dsimp only
    rw [(h name).2, List.zip_map', List.map_id']
  rw [List.flatMap_map, List.mem_flatMap, mem_allEdges]
  constructor
  · rintro ⟨columns, hcolumns, he⟩
    obtain ⟨name, rfl, _⟩ := mem_edgeBlocks.mp hcolumns
    rw [hedges] at he
    exact ⟨name, (mem_pairs h name e).mp he⟩
  · rintro ⟨name, he⟩
    have hpair := (mem_pairs h name e).mpr he
    refine ⟨arrays name, mem_edgeBlocks.mpr ⟨name, rfl, ?_⟩, ?_⟩
    · rw [(h name).2]
      exact List.ne_nil_of_mem (List.mem_map_of_mem hpair)
    · rw [hedges]
      exact hpair

theorem buildGraph_blocks {F D O : Type*} (ar : Arithmetic F D O) (junk : ℕ → ℕ)
    (h : Columns R M arrays pairs) :
    Embeddings.buildGraph ar junk (recordKeys R M)
        ((edgeBlocks arrays).map fun columns => .keys columns.1 columns.2) =
      if hsize : maxNodes < (recordKeys R M).length then .error (.tooMany (recordKeys R M).length)
      else .ok (adjacencyOf ar ⟨recordKeys R M, recordKeys_ordered R M, not_lt.mp hsize⟩
        (simpleGraph (allEdges R M))) := by
  unfold Embeddings.buildGraph
  rw [NodeIndex.new_ordered (recordKeys_ordered R M)]
  split_ifs with hsize
  · rfl
  · let nodes : NodeIndex := ⟨recordKeys R M, recordKeys_ordered R M, not_lt.mp hsize⟩
    have hopen : (AdjacencyBuilder.new nodes).built = false := rfl
    obtain ⟨builder, hbuilder⟩ := addAll_of_mem hopen (blocks_length h) (blocks_keys h)
    have hcollected := addAll_collected (Embeddings.collected_new nodes) hbuilder
    have hgraph : simpleGraph ([] ++ ((edgeBlocks arrays).map fun columns =>
        EdgeBlock.keys columns.1 columns.2).flatMap (EdgeBlock.edges nodes.keys)) =
          simpleGraph (allEdges R M) := by
      apply simpleGraph_congr
      intro e
      rw [List.nil_append, mem_blockEdges h]
    simp only [nodes] at hbuilder hcollected hgraph
    simp only [hbuilder, build_eq hcollected ar junk]
    exact congrArg Except.ok (adjacencyOf_congr ar nodes hgraph)

/-! ### Degrees and counts -/

theorem length_neighbourColumns {keys : List U64} (g : SimpleGraph U64) [DecidableRel g.Adj] {p : ℕ}
    {key : U64} (hp : keys[p]? = some key) :
    (neighbourColumns keys g p).length = (keys.filter (g.Adj key)).length := by
  have hkeys : (List.range keys.length).map (keys.getD · 0) = keys := by
    apply List.ext_getElem
    · simp
    · intro i hi hi'
      simp [hi']
  unfold neighbourColumns
  conv_rhs => rw [← hkeys]
  rw [List.filter_map, List.length_map]
  congr 1
  apply List.filter_congr
  intro c hc
  have hlt := List.mem_range.mp hc
  simp [hp, hlt]

theorem degrees_eq (keys : List U64) (g : SimpleGraph U64) [DecidableRel g.Adj] :
    ((List.range keys.length).map fun p => ((neighbourColumns keys g p).length : ℤ)) =
      keys.map fun key => ((keys.filter (g.Adj key)).length : ℤ) := by
  apply List.ext_getElem
  · simp
  · intro p hp hp'
    rw [List.length_map] at hp'
    simp [length_neighbourColumns g (List.getElem?_eq_getElem hp')]

theorem distinctCount_perm {arrays arrays' : List (List U64)}
    (h : List.Forall₂ List.Perm arrays arrays') :
    distinctCount arrays = distinctCount arrays' := by
  have hperm : arrays.flatten.Perm arrays'.flatten := by
    induction h with
    | nil => exact .refl _
    | cons hfirst _ ih => exact hfirst.append ih
  unfold distinctCount
  rw [List.toFinset_eq_of_perm _ _ hperm]

theorem distinctByKind_columns (h : Columns R M arrays pairs) (artists : ℕ) :
    distinctByKind artists arrays = distinctByKind artists fun name =>
      ((recordEdges R M name).map Prod.fst, (recordEdges R M name).map Prod.snd) := by
  have hfst : ∀ name, (arrays name).1.Perm ((recordEdges R M name).map Prod.fst) := by
    intro name
    rw [(h name).2]
    exact (h name).1.map _
  have hsnd : ∀ name, (arrays name).2.Perm ((recordEdges R M name).map Prod.snd) := by
    intro name
    rw [(h name).2]
    exact (h name).1.map _
  have hsources : List.Forall₂ List.Perm (releaseSourcedRelations.map fun name => (arrays name).1)
      (releaseSourcedRelations.map fun name => (recordEdges R M name).map Prod.fst) := by
    rw [List.forall₂_map_left_iff, List.forall₂_map_right_iff, List.forall₂_same]
    exact fun name _ => hfst name
  unfold distinctByKind
  rw [distinctCount_perm hsources, distinctCount_perm (.cons (hsnd .onLabel) .nil),
    distinctCount_perm (.cons (hsnd .derivedFrom) (.cons (hfst .masterByArtist) .nil)),
    distinctCount_perm (.cons (hsnd .inGenre) (.cons (hsnd .masterInGenre) .nil)),
    distinctCount_perm (.cons (hsnd .inStyle) (.cons (hsnd .masterInStyle) .nil))]

/-! ### Artist ids -/

section
variable {nodeKey : Char → Str → U64} {ids : List Str}

theorem mem_firstIds {rows table : List (U64 × String)} {entry : U64 × String}
    (h : entry ∈ upsertAll Prod.fst firstId rows table) : entry ∈ table ∨ entry ∈ rows := by
  induction rows generalizing table with
  | nil => exact Or.inl h
  | cons row rest ih =>
    have hstep : entry ∈ upsert Prod.fst firstId row table → entry ∈ table ∨ entry = row := by
      clear h
      induction table with
      | nil => exact fun h => Or.inr (List.mem_singleton.mp h)
      | cons old later ih' =>
        unfold upsert firstId
        split_ifs
        · exact Or.inl
        · intro h
          rcases List.mem_cons.mp h with rfl | h
          · exact Or.inl List.mem_cons_self
          · exact (ih' h).imp_left (List.mem_cons_of_mem _)
    rcases ih h with htable | hrest
    · rcases hstep htable with hold | rfl
      · exact Or.inl hold
      · exact Or.inr List.mem_cons_self
    · exact Or.inr (List.mem_cons_of_mem _ hrest)

theorem mem_artistKeyToId {entry : U64 × String} (h : entry ∈ (artistKeyToId nodeKey ids).items) :
    ∃ aid ∈ ids, entry = artistEntry nodeKey aid := by
  rcases mem_firstIds h with hnone | hrow
  · cases hnone
  · obtain ⟨aid, haid, rfl⟩ := List.mem_map.mp hrow
    exact ⟨aid, haid, rfl⟩

theorem keys_artistKeyToId (key : U64) :
    key ∈ (artistKeyToId nodeKey ids).items.map Prod.fst ↔ key ∈ ids.map (nodeKey 'a') := by
  have hrows : (ids.map (artistEntry nodeKey)).map Prod.fst = ids.map (nodeKey 'a') := by
    rw [List.map_map]
    rfl
  unfold artistKeyToId
  rw [mem_keys_upsertAll firstId_key, hrows, List.map_nil]
  simp

theorem length_artistKeyToId :
    (artistKeyToId nodeKey ids).items.length = (ids.map (nodeKey 'a')).toFinset.card := by
  have hkeys : ((artistKeyToId nodeKey ids).items.map Prod.fst).toFinset =
      (ids.map (nodeKey 'a')).toFinset := by
    ext key
    rw [List.mem_toFinset, List.mem_toFinset, keys_artistKeyToId]
  rw [← hkeys, List.toFinset_card_of_nodup (artistKeyToId nodeKey ids).distinct, List.length_map]

end

/-! ### Artists are nodes -/

section
variable (nodeKey : Char → Str → U64)

/-- Every artist seen is the end of an edge. -/
def Seen (result : ChunkResult) : Prop :=
  ∀ aid ∈ result.artistIds, ∃ name, ∃ e ∈ result.edges name, e.2 = nodeKey 'a' aid

variable {nodeKey} {result : ChunkResult}

theorem seen_counted (h : Seen nodeKey result) : Seen nodeKey result.counted := h

theorem seen_add (h : Seen nodeKey result) (name : Relation) (new : List (U64 × U64)) :
    Seen nodeKey (result.add name new) := by
  intro aid haid
  obtain ⟨other, e, he, hkey⟩ := h aid haid
  refine ⟨other, e, ?_, hkey⟩
  unfold ChunkResult.add
  dsimp only
  split_ifs
  · exact List.mem_append_left _ he
  · exact he

/-- The artists of a relation are seen with their edges. -/
theorem seen_links (h : Seen nodeKey result) (name : Relation) (source : U64) (ids : List Str) :
    Seen nodeKey ((result.add name (ids.map fun aid => (source, nodeKey 'a' aid))).see ids) := by
  intro aid haid
  rcases List.mem_append.mp haid with hold | hnew
  · exact seen_add h name _ aid hold
  · refine ⟨name, (source, nodeKey 'a' aid), ?_, rfl⟩
    unfold ChunkResult.see ChunkResult.add
    dsimp only
    rw [if_pos rfl]
    exact List.mem_append_right _ (List.mem_map_of_mem hnew)

theorem parseRelease_seen {categorizeRole : Str → Str} {sameAs : SameAs} {order : SetOrder}
    (h : Seen nodeKey result) (rel : Element) :
    Seen nodeKey (parseRelease nodeKey categorizeRole sameAs order result rel) := by
  unfold parseRelease
  cases usableId (rel.get "id".toList) with
  | none => exact h
  | some rid =>
    dsimp only
    apply seen_links
    apply seen_links
    apply seen_links
    -- genres, styles, masters and labels are no artists
    exact seen_add (seen_add (seen_add (seen_add (seen_links (seen_counted h) _ _ _) _ _) _ _) _ _) _ _

theorem parseMaster_seen (h : Seen nodeKey result) (master : Element) :
    Seen nodeKey (parseMaster nodeKey result master) := by
  unfold parseMaster
  cases usableId (master.get "id".toList) with
  | none => exact h
  | some mid =>
    dsimp only
    exact seen_add (seen_add (seen_links (seen_counted h) _ _ _) _ _) _ _

theorem foldl_seen {parse : ChunkResult → Element → ChunkResult}
    (hparse : ∀ result rel, Seen nodeKey result → Seen nodeKey (parse result rel))
    (records : List Element) : Seen nodeKey (records.foldl parse .new) := by
  have hfold : ∀ result, Seen nodeKey result → Seen nodeKey (records.foldl parse result) := by
    induction records with
    | nil => exact fun _ h => h
    | cons rel records ih => exact fun result h => ih _ (hparse result rel h)
  exact hfold .new fun _ haid => by cases haid

end

/-! ### The graph of the records -/

theorem ids_mem {pool : PoolResult} {result : ChunkResult} (h : Collected pool result) {ids : List Str}
    (hids : (ids : Multiset Str) = pool.artistIds.val) (aid : Str) :
    aid ∈ ids ↔ aid ∈ result.artistIds := by
  rw [← Multiset.mem_coe, hids, Finset.mem_val, h.artistIds, List.mem_toFinset]

variable {F D O τ : Type*} (ar : Arithmetic F D O) {nodeKey : Char → Str → U64}
  {releaseIds masterIds : List Str}

/-- Whatever the order of the ids, the graph is that of the records, unless its nodes are too many. -/
theorem buildGraph_records (hr : Collected releases R) (hm : Collected masters M)
    (hrSeen : Seen nodeKey R) (hmSeen : Seen nodeKey M)
    (hrIds : (releaseIds : Multiset Str) = releases.artistIds.val)
    (hmIds : (masterIds : Multiset Str) = masters.artistIds.val) (junk : ℕ → ℕ) (measured : τ) :
    if maxNodes < (recordKeys R M).length then
      buildGraph ar junk nodeKey releases masters releaseIds masterIds measured =
        .error (.tooMany (recordKeys R M).length)
    else ∃ graph, buildGraph ar junk nodeKey releases masters releaseIds masterIds measured =
      .ok graph ∧ OfRecords ar nodeKey R M graph := by
  obtain ⟨pairs, hcolumns⟩ := relationArrays_columns hr hm
  have hids : ∀ aid, aid ∈ releaseIds ++ masterIds ↔ aid ∈ R.artistIds ++ M.artistIds := by
    intro aid
    rw [List.mem_append, List.mem_append, ids_mem hr hrIds, ids_mem hm hmIds]
  have hartistKeys : ((releaseIds ++ masterIds).map (nodeKey 'a')).toFinset =
      ((R.artistIds ++ M.artistIds).map (nodeKey 'a')).toFinset := by
    ext key
    simp only [List.mem_toFinset, List.mem_map, hids]
  unfold buildGraph
  dsimp only
  rw [unique_keys hcolumns, buildGraph_blocks ar junk hcolumns]
  split_ifs with hsize
  · rfl
  · refine ⟨_, rfl, ?_⟩
    constructor
    · rfl
    · rfl
    · exact degrees_eq (recordKeys R M) (simpleGraph (allEdges R M))
    · intro entry hentry
      obtain ⟨aid, haid, heq⟩ := mem_artistKeyToId hentry
      exact ⟨aid, (hids aid).mp haid, heq⟩
    · intro aid haid
      exact (keys_artistKeyToId _).mpr (List.mem_map_of_mem ((hids aid).mpr haid))
    · intro entry hentry
      obtain ⟨aid, haid, rfl⟩ := mem_artistKeyToId hentry
      refine mem_recordKeys.mpr ?_
      rcases List.mem_append.mp ((hids aid).mp haid) with haid | haid
      · obtain ⟨name, e, he, hkey⟩ := hrSeen aid haid
        exact ⟨e, mem_allEdges.mpr ⟨name, List.mem_append_left _ he⟩, Or.inr hkey.symm⟩
      · obtain ⟨name, e, he, hkey⟩ := hmSeen aid haid
        exact ⟨e, mem_allEdges.mpr ⟨name, List.mem_append_right _ he⟩, Or.inr hkey.symm⟩
    · exact hr.count
    · exact hm.count
    · intro name
      show (relationArrays releases masters name).1.length = _
      rw [(hcolumns name).2, List.length_map, (hcolumns name).1.length_eq]
    · show distinctByKind _ _ = _
      rw [length_artistKeyToId, hartistKeys, distinctByKind_columns hcolumns]

end

end AnalyticsEngine.DumpGraph
