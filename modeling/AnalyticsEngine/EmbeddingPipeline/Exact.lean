import AnalyticsEngine.EmbeddingPipeline.ReadGraph
import AnalyticsEngine.Embeddings.Exact

/-!
# The graph of a read

Whatever order and batches the rows come in, a read takes in the vertices of the content and the
keys of its edges, so its node index and adjacency are functions of the content (`readGraph_eq`).
-/

namespace AnalyticsEngine.EmbeddingPipeline
open Embeddings

variable {F D O : Type*}

/-! ### The vertices and edges of the content -/

namespace Content

/-- The vertices that `graph.vertex_degree` or a discovery query lists. -/
def listed (content : Content) : List Vertex :=
  content.vertexDegree.filter (fun v => v.1 ∈ vertexKinds) ++
    discoveryQueries.flatMap fun query => (content.discovery query.1).map fun id => (query.2, id)

def ends (content : Content) : List Vertex :=
  edgeRelations.flatMap fun relation => (content.edges relation.1).flatMap fun row =>
    [(relation.2.1, row.1), (relation.2.2, row.2)]

def vertices (content : Content) : List Vertex := content.listed ++ content.ends

def keyEdges (nodeKey : VertexKind → String → U64) (content : Content) : List (U64 × U64) :=
  edgeRelations.flatMap fun relation => (content.edges relation.1).map fun row =>
    (nodeKey relation.2.1 row.1, nodeKey relation.2.2 row.2)

def keys (nodeKey : VertexKind → String → U64) (content : Content) : List U64 :=
  (content.vertices.map fun v => nodeKey v.1 v.2).toFinset.sort (· ≤ ·)

theorem keys_ordered (nodeKey : VertexKind → String → U64) (content : Content) :
    (content.keys nodeKey).Pairwise (· < ·) :=
  (Finset.sortedLT_sort _).pairwise

variable {nodeKey : VertexKind → String → U64} {content : Content}

theorem mem_keys {key : U64} :
    key ∈ content.keys nodeKey ↔ ∃ v ∈ content.vertices, nodeKey v.1 v.2 = key := by
  unfold keys
  rw [Finset.mem_sort, List.mem_toFinset, List.mem_map]

theorem length_keys (hinj : ∀ v ∈ content.vertices, ∀ w ∈ content.vertices,
    nodeKey v.1 v.2 = nodeKey w.1 w.2 → v = w) :
    (content.keys nodeKey).length = content.vertices.toFinset.card := by
  have himage : (content.vertices.map fun v => nodeKey v.1 v.2).toFinset =
      content.vertices.toFinset.image fun v => nodeKey v.1 v.2 := by
    ext key
    simp
  unfold keys
  rw [Finset.length_sort, himage]
  apply Finset.card_image_of_injOn
  intro v hv w hw heq
  exact hinj v (List.mem_toFinset.mp hv) w (List.mem_toFinset.mp hw) heq

theorem mem_ends {v : Vertex} : v ∈ content.ends ↔ ∃ relation ∈ edgeRelations,
    ∃ row ∈ content.edges relation.1, v = (relation.2.1, row.1) ∨ v = (relation.2.2, row.2) := by
  unfold ends
  simp [List.mem_flatMap]

end Content

/-! ### What a read takes in -/

section
variable {nodeKey : VertexKind → String → U64} {known : Set Vertex}

theorem foldl_covers {σ β : Type*} (vertexSet : σ → VertexSet) {step : σ → β → σ} {l : List β}
    (adds : β → Set Vertex)
    (hstep : ∀ x ∈ l, ∀ (known : Set Vertex) (state : σ), Covers nodeKey known (vertexSet state) →
      Covers nodeKey (known ∪ adds x) (vertexSet (step state x)))
    {state : σ} (h : Covers nodeKey known (vertexSet state)) :
    Covers nodeKey (known ∪ {v | ∃ x ∈ l, v ∈ adds x}) (vertexSet (l.foldl step state)) := by
  induction l generalizing known state with
  | nil =>
    have hnone : known ∪ {v | ∃ x ∈ ([] : List β), v ∈ adds x} = known := by simp
    rw [hnone]
    exact h
  | cons x l ih =>
    have hsplit : known ∪ {v | ∃ y ∈ x :: l, v ∈ adds y} =
        known ∪ adds x ∪ {v | ∃ y ∈ l, v ∈ adds y} := by
      ext v
      simp [or_assoc]
    rw [hsplit]
    exact ih (fun y hy => hstep y (List.mem_cons_of_mem _ hy))
      (hstep x List.mem_cons_self known state h)

theorem readVertices_covers {content : Content} (cursors : Cursors content) :
    Covers nodeKey {v | v ∈ content.listed} (readVertices nodeKey cursors) := by
  have hkind : ∀ query ∈ discoveryQueries, query.2 ≠ .a := by decide
  have hdegree := foldl_covers id (l := cursors.vertices.batches)
    (fun batch : List Vertex => {v | v ∈ batch})
    (fun batch _ _ _ h => readBatch_covers h batch) (covers_empty nodeKey)
  have hall := foldl_covers id (l := discoveryQueries)
    (fun query : DiscoveryQuery × VertexKind =>
      {v : Vertex | v.1 = query.2 ∧ v.2 ∈ content.discovery query.1})
    (fun query hquery _ _ h => readDiscovery_covers h cursors (hkind query hquery)) hdegree
  have hset : {v | v ∈ content.listed} =
      ∅ ∪ {v | ∃ batch ∈ cursors.vertices.batches, v ∈ {v | v ∈ batch}} ∪
        {v | ∃ query ∈ discoveryQueries,
          v ∈ {v : Vertex | v.1 = query.2 ∧ v.2 ∈ content.discovery query.1}} := by
    have hreturns := cursors.vertices.returns
    ext v
    unfold Content.listed
    simp only [Set.mem_ofPred_eq, Set.mem_union, Set.mem_empty_iff_false, false_or, List.mem_append,
      ← hreturns, List.mem_flatten, List.mem_flatMap, List.mem_map]
    apply or_congr_right
    constructor
    · intro hfound
      obtain ⟨query, hquery, id, hid, rfl⟩ := hfound
      exact ⟨query, hquery, rfl, hid⟩
    · intro hfound
      obtain ⟨query, hquery, hkind, hid⟩ := hfound
      exact ⟨query, hquery, v.2, hid, Prod.ext hkind.symm rfl⟩
  rw [hset]
  exact hall

theorem streamEdgeBlocks_covers {content : Content} (cursors : Cursors content)
    {vertices : VertexSet} (h : Covers nodeKey known vertices) :
    Covers nodeKey (known ∪ {v | v.1 = .a ∧ v ∈ content.ends})
      (streamEdgeBlocks nodeKey cursors vertices).1 := by
  have hrelation : ∀ relation ∈ edgeRelations, ∀ (known : Set Vertex) (state : EdgeStream),
      Covers nodeKey known state.1 →
        Covers nodeKey (known ∪ artistEnds relation.2.1 relation.2.2 (content.edges relation.1))
          (streamRelation nodeKey cursors state relation).1 := by
    intro relation _ known state h
    have hreturns := (cursors.edges relation.1).returns
    have hbatches := foldl_covers Prod.fst (artistEnds relation.2.1 relation.2.2)
      (l := (cursors.edges relation.1).batches)
      (fun batch _ known state h => streamBatch_covers h relation.2.1 relation.2.2 batch) h
    have hset : artistEnds relation.2.1 relation.2.2 (content.edges relation.1) =
        {v | ∃ batch ∈ (cursors.edges relation.1).batches,
          v ∈ artistEnds relation.2.1 relation.2.2 batch} := by
      ext v
      unfold artistEnds
      simp only [Set.mem_ofPred_eq, ← hreturns, List.mem_flatten]
      constructor
      · intro hfound
        obtain ⟨hkind, row, ⟨batch, hbatch, hrow⟩, hv⟩ := hfound
        exact ⟨batch, hbatch, hkind, row, hrow, hv⟩
      · intro hfound
        obtain ⟨batch, hbatch, hkind, row, hrow, hv⟩ := hfound
        exact ⟨hkind, row, ⟨batch, hbatch, hrow⟩, hv⟩
    rw [hset]
    exact hbatches
  have hnone : Covers nodeKey known ((vertices, []) : EdgeStream).1 := h
  have hall := foldl_covers Prod.fst (fun relation : EdgeRelation × VertexKind × VertexKind =>
    artistEnds relation.2.1 relation.2.2 (content.edges relation.1)) hrelation hnone
  have hset : {v : Vertex | v.1 = .a ∧ v ∈ content.ends} = {v | ∃ relation ∈ edgeRelations,
      v ∈ artistEnds relation.2.1 relation.2.2 (content.edges relation.1)} := by
    ext v
    unfold artistEnds
    simp only [Set.mem_ofPred_eq, Content.mem_ends]
    constructor
    · intro hfound
      obtain ⟨hkind, relation, hrelation, hv⟩ := hfound
      exact ⟨relation, hrelation, hkind, hv⟩
    · intro hfound
      obtain ⟨relation, hrelation, hkind, hv⟩ := hfound
      exact ⟨hkind, relation, hrelation, hv⟩
  rw [hset]
  exact hall

/-- When the edges have been read every vertex is known: an end that is not an artist was
listed, and an artist was taken in from its edge. -/
theorem read_covers {content : Content} (hlisted : ∀ v ∈ content.ends, v.1 ≠ .a → v ∈ content.listed)
    (cursors : Cursors content) : Covers nodeKey {v | v ∈ content.vertices}
      (streamEdgeBlocks nodeKey cursors (readVertices nodeKey cursors)).1 := by
  have hset : {v | v ∈ content.vertices} =
      {v | v ∈ content.listed} ∪ {v | v.1 = .a ∧ v ∈ content.ends} := by
    ext v
    unfold Content.vertices
    simp only [Set.mem_ofPred_eq, Set.mem_union, List.mem_append]
    constructor
    · intro hcases
      rcases hcases with hv | hv
      · exact Or.inl hv
      · by_cases hkind : v.1 = .a
        · exact Or.inr ⟨hkind, hv⟩
        · exact Or.inl (hlisted v hv hkind)
    · intro hcases
      rcases hcases with hv | ⟨_, hv⟩
      · exact Or.inl hv
      · exact Or.inr hv
  rw [hset]
  exact streamEdgeBlocks_covers cursors (readVertices_covers cursors)

theorem uniqueKeys_eq {content : Content} {vertices : VertexSet}
    (h : Covers nodeKey {v | v ∈ content.vertices} vertices) :
    uniqueKeys vertices.keyChunks = content.keys nodeKey := by
  unfold uniqueKeys Content.keys
  congr 1
  ext key
  rw [List.mem_toFinset, List.mem_toFinset, h.keys, List.mem_map]
  rfl

/-! ### The edge blocks -/

theorem foldl_streamBatch_blocks (source target : VertexKind) (batches : List (List (String × String)))
    (state : EdgeStream) : (batches.foldl (streamBatch nodeKey source target) state).2 =
      state.2 ++ batches.map (keyBlock nodeKey source target) := by
  induction batches generalizing state with
  | nil => simp
  | cons batch later ih =>
    rw [List.foldl_cons, ih, List.map_cons]
    unfold streamBatch
    simp

theorem streamEdgeBlocks_blocks {content : Content} (cursors : Cursors content)
    (vertices : VertexSet) : (streamEdgeBlocks nodeKey cursors vertices).2 =
      edgeRelations.flatMap fun relation =>
        (cursors.edges relation.1).batches.map (keyBlock nodeKey relation.2.1 relation.2.2) := by
  have hfold : ∀ (relations : List (EdgeRelation × VertexKind × VertexKind)) (state : EdgeStream),
      (relations.foldl (streamRelation nodeKey cursors) state).2 =
        state.2 ++ relations.flatMap fun relation =>
          (cursors.edges relation.1).batches.map (keyBlock nodeKey relation.2.1 relation.2.2) := by
    intro relations
    induction relations with
    | nil => simp
    | cons relation later ih =>
      intro state
      rw [List.foldl_cons, ih, List.flatMap_cons]
      unfold streamRelation
      rw [foldl_streamBatch_blocks, List.append_assoc]
  exact hfold _ _

theorem keyBlock_zip (source target : VertexKind) (batch : List (String × String)) :
    (keyBlock nodeKey source target batch).1.zip (keyBlock nodeKey source target batch).2 =
      batch.map fun row => (nodeKey source row.1, nodeKey target row.2) := by
  unfold keyBlock
  rw [List.map_map, List.map_map, List.zip_map']
  rfl

theorem mem_blocks {content : Content} (cursors : Cursors content) (vertices : VertexSet)
    (e : U64 × U64) :
    (∃ b ∈ (streamEdgeBlocks nodeKey cursors vertices).2, e ∈ b.1.zip b.2) ↔
      e ∈ content.keyEdges nodeKey := by
  rw [streamEdgeBlocks_blocks]
  unfold Content.keyEdges
  simp only [List.mem_flatMap, List.mem_map]
  constructor
  · intro hfound
    obtain ⟨b, ⟨relation, hrelation, batch, hbatch, rfl⟩, he⟩ := hfound
    rw [keyBlock_zip, List.mem_map] at he
    obtain ⟨row, hrow, rfl⟩ := he
    exact ⟨relation, hrelation, row,
      ((cursors.edges relation.1).returns row).mp (List.mem_flatten.mpr ⟨batch, hbatch, hrow⟩), rfl⟩
  · intro hfound
    obtain ⟨relation, hrelation, row, hrow, rfl⟩ := hfound
    obtain ⟨batch, hbatch, hrow'⟩ :=
      List.mem_flatten.mp (((cursors.edges relation.1).returns row).mpr hrow)
    refine ⟨_, ⟨relation, hrelation, batch, hbatch, rfl⟩, ?_⟩
    rw [keyBlock_zip]
    exact List.mem_map.mpr ⟨row, hrow', rfl⟩

theorem keyEdges_mem_keys {content : Content} {e : U64 × U64} (he : e ∈ content.keyEdges nodeKey) :
    e.1 ∈ content.keys nodeKey ∧ e.2 ∈ content.keys nodeKey := by
  unfold Content.keyEdges at he
  obtain ⟨relation, hrelation, he⟩ := List.mem_flatMap.mp he
  obtain ⟨row, hrow, rfl⟩ := List.mem_map.mp he
  have hend : ∀ v : Vertex, v = (relation.2.1, row.1) ∨ v = (relation.2.2, row.2) →
      v ∈ content.vertices := fun v hv =>
    List.mem_append_right _ (Content.mem_ends.mpr ⟨relation, hrelation, row, hrow, hv⟩)
  exact ⟨Content.mem_keys.mpr ⟨_, hend _ (Or.inl rfl), rfl⟩,
    Content.mem_keys.mpr ⟨_, hend _ (Or.inr rfl), rfl⟩⟩

end

/-! ### The graph -/

/-- What a read should return. -/
structure IsGraphOf (ar : Arithmetic F D O) (nodeKey : VertexKind → String → U64) (content : Content)
    (graph : Graph F) : Prop where
  position : ∀ v ∈ content.vertices, ∃! p : ℕ, graph.nodes.keys[p]? = some (nodeKey v.1 v.2)
  size : graph.nodes.keys.length = content.vertices.toFinset.card
  artists_nodup : graph.artistIds.Nodup
  artists : ∀ id, id ∈ graph.artistIds ↔ (.a, id) ∈ content.vertices
  adjacency : graph.adjacency =
    adjacencyOf ar graph.nodes (simpleGraph (content.keyEdges nodeKey))

section
variable {ar : Arithmetic F D O} {nodeKey : VertexKind → String → U64} {content : Content}

/-- Where no key of an edge is missing from the node index, the blocks merge into one graph. -/
theorem assemble_known {vertices : VertexSet} {blocks : List (List U64 × List U64)}
    {known : List U64} (hunique : uniqueKeys vertices.keyChunks = known)
    (hordered : known.Pairwise (· < ·)) (hlength : ∀ b ∈ blocks, b.1.length = b.2.length)
    (hblocks : ∀ e, (∃ b ∈ blocks, e ∈ b.1.zip b.2) ↔ e ∈ content.keyEdges nodeKey)
    (hends : ∀ e ∈ content.keyEdges nodeKey, e.1 ∈ known ∧ e.2 ∈ known)
    (junk : ℕ → ℕ) : assemble ar junk vertices blocks =
      if hsize : maxNodes < known.length then .error (.tooMany known.length)
      else
        let nodes : NodeIndex := ⟨known, hordered, not_lt.mp hsize⟩
        .ok ⟨nodes, vertices.artistIds,
          adjacencyOf ar nodes (simpleGraph (content.keyEdges nodeKey))⟩ := by
  unfold assemble
  rw [hunique, NodeIndex.new_ordered hordered]
  split_ifs with hsize
  · rfl
  generalize hnodes : (⟨known, _, _⟩ : NodeIndex) = nodes
  have hkeys : nodes.keys = known := by rw [← hnodes]
  have hmem : ∀ b ∈ blocks.reverse, ∀ key ∈ b.1 ++ b.2, key ∈ nodes.keys := by
    intro b hb key hkey
    have hb' := List.mem_reverse.mp hb
    have hedge : ∀ i (hi : i < b.1.length) (hi' : i < b.2.length),
        b.1[i] ∈ nodes.keys ∧ b.2[i] ∈ nodes.keys := by
      intro i hi hi'
      rw [hkeys]
      have hzip : (b.1[i], b.2[i]) ∈ b.1.zip b.2 := by
        rw [← List.getElem_zip (h := by rw [List.length_zip]; omega)]
        exact List.getElem_mem _
      exact hends _ ((hblocks _).mp ⟨b, hb', hzip⟩)
    have hsame := hlength b hb'
    rcases List.mem_append.mp hkey with hkey | hkey
    · obtain ⟨i, hi, rfl⟩ := List.mem_iff_getElem.mp hkey
      exact (hedge i hi (hsame ▸ hi)).1
    · obtain ⟨i, hi, rfl⟩ := List.mem_iff_getElem.mp hkey
      exact (hedge i (hsame ▸ hi) hi).2
  have hopen : (AdjacencyBuilder.new nodes).built = false := rfl
  obtain ⟨builder, hbuilder⟩ := addAll_of_mem hopen
    (fun b hb => hlength b (List.mem_reverse.mp hb)) hmem
  have hcollected := addAll_collected (collected_new nodes) hbuilder
  have hgraph : simpleGraph ([] ++ (blocks.reverse.map fun b => EdgeBlock.keys b.1 b.2).flatMap
      (EdgeBlock.edges nodes.keys)) = simpleGraph (content.keyEdges nodeKey) := by
    apply simpleGraph_congr
    intro e
    rw [← hblocks e]
    simp [List.mem_flatMap, EdgeBlock.edges]
  simp only [hbuilder, build_eq hcollected ar junk, adjacencyOf_congr ar nodes hgraph]

theorem streamEdgeBlocks_length (cursors : Cursors content) (vertices : VertexSet) :
    ∀ b ∈ (streamEdgeBlocks nodeKey cursors vertices).2, b.1.length = b.2.length := by
  intro b hb
  rw [streamEdgeBlocks_blocks] at hb
  obtain ⟨relation, _, hb⟩ := List.mem_flatMap.mp hb
  obtain ⟨batch, _, rfl⟩ := List.mem_map.mp hb
  simp [keyBlock]

/-- A read is a function of the content but for the order of the artist ids. -/
theorem readGraph_eq (hlisted : ∀ v ∈ content.ends, v.1 ≠ .a → v ∈ content.listed) (junk : ℕ → ℕ)
    (cursors : Cursors content) : readGraph ar nodeKey junk cursors =
      if hsize : maxNodes < (content.keys nodeKey).length then
        .error (.tooMany (content.keys nodeKey).length)
      else
        let nodes : NodeIndex := ⟨content.keys nodeKey, content.keys_ordered nodeKey, not_lt.mp hsize⟩
        .ok ⟨nodes, (streamEdgeBlocks nodeKey cursors (readVertices nodeKey cursors)).1.artistIds,
          adjacencyOf ar nodes (simpleGraph (content.keyEdges nodeKey))⟩ := by
  unfold readGraph
  exact assemble_known (uniqueKeys_eq (read_covers hlisted cursors)) (content.keys_ordered nodeKey)
    (streamEdgeBlocks_length cursors _) (mem_blocks cursors _) (fun _ he => keyEdges_mem_keys he) junk

theorem isGraphOf_read
    (hinj : ∀ v ∈ content.vertices, ∀ w ∈ content.vertices,
      nodeKey v.1 v.2 = nodeKey w.1 w.2 → v = w)
    {nodes : NodeIndex} (hnodes : nodes.keys = content.keys nodeKey) {vertices : VertexSet}
    (hcovers : Covers nodeKey {v | v ∈ content.vertices} vertices) :
    IsGraphOf ar nodeKey content ⟨nodes, vertices.artistIds,
      adjacencyOf ar nodes (simpleGraph (content.keyEdges nodeKey))⟩ where
  position v hv := by
    have hkey : nodeKey v.1 v.2 ∈ nodes.keys := by
      rw [hnodes]
      exact Content.mem_keys.mpr ⟨v, hv, rfl⟩
    refine ⟨searchPosition nodes.keys (nodeKey v.1 v.2),
      getElem?_searchPosition nodes.ordered hkey, ?_⟩
    intro p hp
    exact nodes.position_unique hp (getElem?_searchPosition nodes.ordered hkey)
  size := by rw [hnodes, Content.length_keys hinj]
  artists_nodup := vertices.nodup
  artists := hcovers.artists
  adjacency := rfl

/-- Where every artist has a node, its vector is the row of that node. -/
theorem artistVectors_rows {graph : Graph F}
    (hnode : ∀ id ∈ graph.artistIds, nodeKey .a id ∈ graph.nodes.keys)
    (hnodes : graph.adjacency.nodes = graph.nodes) (env : Surroundings F)
    {config : FastRPConfig ar} (hseed : 0 ≤ config.seed ∧ config.seed < 2 ^ 64) :
    ∃ vectors, artistVectors ar env nodeKey config graph = .ok vectors ∧
      ∀ i id, graph.artistIds[i]? = some id → ∀ j < config.dim, vectors i j =
        ar.store (embedding ar graph.adjacency.transition config
          (defaultBlock graph.adjacency config)
          (searchPosition graph.nodes.keys (nodeKey .a id)) j) := by
  have hpositions : graph.nodes.positions (graph.artistIds.map (nodeKey .a)) =
      .ok ((graph.artistIds.map (nodeKey .a)).map (searchPosition graph.nodes.keys)) := by
    apply graph.nodes.positions_of_mem
    intro key hkey
    obtain ⟨id, hid, rfl⟩ := List.mem_map.mp hkey
    exact hnode id hid
  have hsquare : graph.adjacency.transition.rows = graph.nodes.keys.length := by
    rw [graph.adjacency.square, hnodes]
  obtain ⟨p, hp, hindependent⟩ := projectionOf_default env.junk graph.adjacency hseed
  obtain ⟨vectors, hvectors, hentry⟩ := (fastrp_exact ar env graph.adjacency config
    (some ((graph.artistIds.map (nodeKey .a)).map (searchPosition graph.nodes.keys))) none 4 6
    (by decide) (by decide) (by
      intro selected heq v hv
      cases heq
      rw [List.map_map, List.mem_map] at hv
      obtain ⟨id, hid, rfl⟩ := hv
      rw [hsquare]
      exact (List.getElem?_eq_some_iff.mp
        (getElem?_searchPosition graph.nodes.ordered (hnode id hid))).1) hp _ hindependent).2
  refine ⟨vectors, ?_, ?_⟩
  · unfold artistVectors
    simp only [hpositions, hvectors]
  · intro i id hid j hj
    have hlt := (List.getElem?_eq_some_iff.mp hid).1
    rw [hentry i (by simpa [outRows] using hlt) j hj]
    unfold rowOf
    simp [hid]

theorem artistVectors_entry {graph : Graph F} (hgraph : IsGraphOf ar nodeKey content graph)
    (env : Surroundings F) {config : FastRPConfig ar}
    (hseed : 0 ≤ config.seed ∧ config.seed < 2 ^ 64) :
    ∃ vectors, artistVectors ar env nodeKey config graph = .ok vectors ∧
      ∀ i id, graph.artistIds[i]? = some id → ∀ j < config.dim, vectors i j =
        ar.store (embedding ar graph.adjacency.transition config
          (defaultBlock graph.adjacency config)
          (searchPosition graph.nodes.keys (nodeKey .a id)) j) := by
  refine artistVectors_rows (fun id hid => ?_) (congrArg Adjacency.nodes hgraph.adjacency) env hseed
  obtain ⟨p, hp, _⟩ := hgraph.position _ ((hgraph.artists id).mp hid)
  exact List.mem_of_getElem? hp

/-- Past the hash and the unlisted vertices, a read fails only on too many vertices, with no
`KeyError`; otherwise it returns the graph of the content, and two reads return the same nodes,
adjacency, artists and vectors. -/
theorem readGraph_exact (ar : Arithmetic F D O) (nodeKey : VertexKind → String → U64)
    (content : Content)
    (hinj : ∀ v ∈ content.vertices, ∀ w ∈ content.vertices,
      nodeKey v.1 v.2 = nodeKey w.1 w.2 → v = w)
    (hlisted : ∀ v ∈ content.ends, v.1 ≠ .a → v ∈ content.listed) :
    (maxNodes < content.vertices.toFinset.card → ∀ junk (cursors : Cursors content),
      readGraph ar nodeKey junk cursors = .error (.tooMany content.vertices.toFinset.card)) ∧
    (content.vertices.toFinset.card ≤ maxNodes → ∀ junk₁ junk₂ (cursors₁ cursors₂ : Cursors content),
      ∃ graph₁ graph₂, readGraph ar nodeKey junk₁ cursors₁ = .ok graph₁ ∧
        readGraph ar nodeKey junk₂ cursors₂ = .ok graph₂ ∧
        IsGraphOf ar nodeKey content graph₁ ∧ IsGraphOf ar nodeKey content graph₂ ∧
        graph₁.nodes = graph₂.nodes ∧ graph₁.adjacency = graph₂.adjacency ∧
        graph₁.artistIds.Perm graph₂.artistIds ∧
        ∀ (env₁ env₂ : Surroundings F) (config : FastRPConfig ar),
          0 ≤ config.seed ∧ config.seed < 2 ^ 64 →
            ∃ vectors₁ vectors₂, artistVectors ar env₁ nodeKey config graph₁ = .ok vectors₁ ∧
              artistVectors ar env₂ nodeKey config graph₂ = .ok vectors₂ ∧
              ∀ i₁ i₂ id, graph₁.artistIds[i₁]? = some id → graph₂.artistIds[i₂]? = some id →
                ∀ j < config.dim, vectors₁ i₁ j = vectors₂ i₂ j) := by
  have hlength := Content.length_keys hinj
  constructor
  · intro hmany junk cursors
    rw [readGraph_eq hlisted, dif_pos (hlength.symm ▸ hmany), hlength]
  · intro hfew junk₁ junk₂ cursors₁ cursors₂
    have hsize : ¬maxNodes < (content.keys nodeKey).length := by
      rw [hlength]
      exact not_lt.mpr hfew
    have hgraph : ∀ cursors : Cursors content, IsGraphOf ar nodeKey content
        ⟨⟨content.keys nodeKey, content.keys_ordered nodeKey, not_lt.mp hsize⟩,
          (streamEdgeBlocks nodeKey cursors (readVertices nodeKey cursors)).1.artistIds,
          adjacencyOf ar ⟨content.keys nodeKey, content.keys_ordered nodeKey, not_lt.mp hsize⟩
            (simpleGraph (content.keyEdges nodeKey))⟩ := fun cursors =>
      isGraphOf_read hinj rfl (read_covers hlisted cursors)
    refine ⟨_, _, (readGraph_eq hlisted junk₁ cursors₁).trans (dif_neg hsize),
      (readGraph_eq hlisted junk₂ cursors₂).trans (dif_neg hsize), hgraph cursors₁, hgraph cursors₂,
      rfl, rfl, ?_, ?_⟩
    · rw [List.perm_ext_iff_of_nodup (hgraph cursors₁).artists_nodup
        (hgraph cursors₂).artists_nodup]
      intro id
      rw [(hgraph cursors₁).artists, (hgraph cursors₂).artists]
    · intro env₁ env₂ config hseed
      obtain ⟨vectors₁, hvectors₁, hentry₁⟩ := artistVectors_entry (hgraph cursors₁) env₁ hseed
      obtain ⟨vectors₂, hvectors₂, hentry₂⟩ := artistVectors_entry (hgraph cursors₂) env₂ hseed
      refine ⟨vectors₁, vectors₂, hvectors₁, hvectors₂, ?_⟩
      intro i₁ i₂ id hid₁ hid₂ j hj
      rw [hentry₁ i₁ id hid₁ j hj, hentry₂ i₂ id hid₂ j hj]

end

/-! ### Too many vertices -/

def wholeCursor {α : Type*} : (rows : List α) → Cursor rows
  | [] => ⟨[], fun _ h => absurd h List.not_mem_nil, fun _ => Iff.rfl⟩
  | row :: rows => ⟨[row :: rows], by simp, by simp⟩

def wholeCursors (content : Content) : Cursors content where
  vertices := wholeCursor _
  discovery _ := wholeCursor _
  edges _ := wholeCursor _

def artistsOnly (n : ℕ) : Content where
  vertexDegree := (List.range n).map fun i => (.a, Nat.repr i)
  discovery _ := []
  edges _ := []

def decimalKey (_ : VertexKind) (key : String) : U64 :=
  Fin.ofNat (2 ^ 64) (Nat.ofDigitChars 10 key.toList 0)

theorem decimalKey_repr {i : ℕ} (hi : i < 2 ^ 64) : (decimalKey .a (Nat.repr i)).val = i := by
  unfold decimalKey Nat.repr
  rw [String.toList_ofList, Nat.ofDigitChars_ten_toDigits, Fin.val_ofNat, Nat.mod_eq_of_lt hi]

theorem vertices_artistsOnly (n : ℕ) :
    (artistsOnly n).vertices = (List.range n).map fun i => (.a, Nat.repr i) := by
  unfold Content.vertices Content.listed Content.ends artistsOnly
  simp [List.filter_map, Function.comp_def, vertexKinds]

theorem decimalKey_injOn {n : ℕ} (hn : n ≤ 2 ^ 64) :
    ∀ v ∈ (artistsOnly n).vertices, ∀ w ∈ (artistsOnly n).vertices,
      decimalKey v.1 v.2 = decimalKey w.1 w.2 → v = w := by
  rw [vertices_artistsOnly]
  intro v hv w hw heq
  obtain ⟨i, hi, rfl⟩ := List.mem_map.mp hv
  obtain ⟨k, hk, rfl⟩ := List.mem_map.mp hw
  have hi' := (List.mem_range.mp hi).trans_le hn
  have hk' := (List.mem_range.mp hk).trans_le hn
  have hval := congrArg Fin.val heq
  rw [decimalKey_repr hi', decimalKey_repr hk'] at hval
  rw [hval]

theorem card_artistsOnly {n : ℕ} (hn : n ≤ 2 ^ 64) : (artistsOnly n).vertices.toFinset.card = n := by
  have hnodup : (artistsOnly n).vertices.Nodup := by
    rw [vertices_artistsOnly]
    apply List.Nodup.map_on _ List.nodup_range
    intro i hi k hk heq
    have hid : Nat.repr i = Nat.repr k := congrArg Prod.snd heq
    rw [← decimalKey_repr ((List.mem_range.mp hi).trans_le hn), hid,
      decimalKey_repr ((List.mem_range.mp hk).trans_le hn)]
  rw [List.toFinset_card_of_nodup hnodup, vertices_artistsOnly, List.length_map, List.length_range]

/-- 2147483648 artists with distinct node keys are one too many for a node index. -/
theorem readGraph_crowded :
    (∀ v ∈ (artistsOnly (2 ^ 31)).vertices, ∀ w ∈ (artistsOnly (2 ^ 31)).vertices,
      decimalKey v.1 v.2 = decimalKey w.1 w.2 → v = w) ∧
    (∀ v ∈ (artistsOnly (2 ^ 31)).ends, v.1 ≠ .a → v ∈ (artistsOnly (2 ^ 31)).listed) ∧
    readGraph integerArithmetic decimalKey (fun _ => 0) (wholeCursors (artistsOnly (2 ^ 31))) =
      .error (.tooMany (2 ^ 31)) := by
  have hfew : 2 ^ 31 ≤ 2 ^ 64 := Nat.pow_le_pow_right (by decide) (by decide)
  have hcard := card_artistsOnly hfew
  have hlisted : ∀ v ∈ (artistsOnly (2 ^ 31)).ends, v.1 ≠ .a → v ∈ (artistsOnly (2 ^ 31)).listed := by
    intro v hv
    obtain ⟨_, _, _, hrow, _⟩ := Content.mem_ends.mp hv
    cases hrow
  have hinj := decimalKey_injOn hfew
  have hlength := (Content.length_keys hinj).trans hcard
  have hmany : maxNodes < ((artistsOnly (2 ^ 31)).keys decimalKey).length := by
    rw [hlength]
    unfold maxNodes
    omega
  refine ⟨hinj, hlisted, ?_⟩
  rw [readGraph_eq hlisted, dif_pos hmany, hlength]

/-! ### A read -/

/- The keys that BLAKE2b gives the vertices of `smallCatalog`. -/
def catalogKey : VertexKind → String → U64
  | .a, "1" => 0xc13cd84a6bc18181
  | .a, "99" => 0xb19768204a03b7fc
  | .r, "101" => 0x1a48e4d1e4a681c8
  | .r, "202" => 0x70c23a178e79185b
  | _, _ => 0

/- Artist `99` appears in the credits alone, and release `202` too. -/
def smallCatalog : Content where
  vertexDegree := [(.a, "1"), (.other "person", "7"), (.r, "101")]
  discovery
    | .creditedReleaseIds => ["202"]
    | _ => []
  edges
    | .byArtist => [("101", "1")]
    | .creditedOn => [("101", "99"), ("202", "99"), ("101", "1")]
    | _ => []

def splitCursors : Cursors smallCatalog :=
  { wholeCursors smallCatalog with
    edges := fun
      | .creditedOn => ⟨[[("202", "99"), ("101", "1")], [("101", "99"), ("202", "99")]],
          by simp, by simp [smallCatalog]; tauto⟩
      | relation => wholeCursor _ }

theorem readGraph_exact_smallCatalog : ∃ graph₁ graph₂ : Graph ℤ,
    readGraph integerArithmetic catalogKey (fun _ => 3) (wholeCursors smallCatalog) = .ok graph₁ ∧
      readGraph integerArithmetic catalogKey (fun _ => 0) splitCursors = .ok graph₂ ∧
        graph₁.nodes = graph₂.nodes ∧ graph₁.adjacency = graph₂.adjacency := by
  obtain ⟨graph₁, graph₂, hread₁, hread₂, _, _, hnodes, hadjacency, _⟩ :=
    (readGraph_exact integerArithmetic catalogKey smallCatalog (by decide) (by decide)).2 (by decide)
      (fun _ => 3) (fun _ => 0) (wholeCursors smallCatalog) splitCursors
  exact ⟨graph₁, graph₂, hread₁, hread₂, hnodes, hadjacency⟩

end AnalyticsEngine.EmbeddingPipeline
