import AnalyticsEngine.EmbeddingPipeline.Exact

/-!
# Vertices with one node key

`_assemble` passes the key chunks through `np.unique` before the node index looks for duplicates, so
two vertices with one key take one position. A read raises only on too many keys or on an edge end
that was not streamed (`readGraph_ok_iff`).
-/

namespace AnalyticsEngine.EmbeddingPipeline
open Embeddings

variable {F D O : Type*}

namespace Content

/-- The vertices that the load streams: the listed ones and the artists named by edges. -/
def streamed (content : Content) : List Vertex :=
  content.listed ++ content.ends.filter fun v => v.1 = .a

def streamedKeys (nodeKey : VertexKind → String → U64) (content : Content) : List U64 :=
  (content.streamed.map fun v => nodeKey v.1 v.2).toFinset.sort (· ≤ ·)

theorem streamedKeys_ordered (nodeKey : VertexKind → String → U64) (content : Content) :
    (content.streamedKeys nodeKey).Pairwise (· < ·) :=
  (Finset.sortedLT_sort _).pairwise

theorem mem_streamedKeys {nodeKey : VertexKind → String → U64} {content : Content} {key : U64} :
    key ∈ content.streamedKeys nodeKey ↔ ∃ v ∈ content.streamed, nodeKey v.1 v.2 = key := by
  unfold streamedKeys
  rw [Finset.mem_sort, List.mem_toFinset, List.mem_map]

end Content

section
variable {ar : Arithmetic F D O} {nodeKey : VertexKind → String → U64} {content : Content}
  {junk : ℕ → ℕ} {cursors : Cursors content}

theorem streamed_covers (cursors : Cursors content) : Covers nodeKey {v | v ∈ content.streamed}
    (streamEdgeBlocks nodeKey cursors (readVertices nodeKey cursors)).1 := by
  have hset : {v | v ∈ content.streamed} =
      {v | v ∈ content.listed} ∪ {v | v.1 = .a ∧ v ∈ content.ends} := by
    ext v
    unfold Content.streamed
    simp only [Set.mem_ofPred_eq, Set.mem_union, List.mem_append, List.mem_filter,
      decide_eq_true_eq, and_comm]
  rw [hset]
  exact streamEdgeBlocks_covers cursors (readVertices_covers cursors)

theorem uniqueKeys_streamed (cursors : Cursors content) :
    uniqueKeys (streamEdgeBlocks nodeKey cursors (readVertices nodeKey cursors)).1.keyChunks =
      content.streamedKeys nodeKey := by
  unfold uniqueKeys Content.streamedKeys
  congr 1
  ext key
  rw [List.mem_toFinset, List.mem_toFinset, (streamed_covers cursors).keys, List.mem_map]
  rfl

/-- A read that returns has a node for every streamed key and for every end of an edge. -/
theorem readGraph_ok {graph : Graph F} (h : readGraph ar nodeKey junk cursors = .ok graph) :
    graph.nodes.keys = content.streamedKeys nodeKey ∧
      ∀ e ∈ content.keyEdges nodeKey, e.1 ∈ graph.nodes.keys ∧ e.2 ∈ graph.nodes.keys := by
  unfold readGraph assemble at h
  simp only at h
  rw [uniqueKeys_streamed] at h
  cases hnodes : NodeIndex.new (content.streamedKeys nodeKey) with
  | error e =>
    rw [hnodes] at h
    cases h
  | ok nodes =>
    rw [hnodes] at h
    simp only at h
    have hkeys := NodeIndex.new_ok hnodes
    rw [((content.streamedKeys_ordered nodeKey).imp le_of_lt).insertionSort_eq] at hkeys
    split at h
    · cases h
    next builder hbuilder =>
      have hcollected := addAll_collected (collected_new nodes) hbuilder
      split at h
      · cases h
      · cases h
        refine ⟨hkeys, fun e he => hcollected.endpoints e ?_⟩
        obtain ⟨b, hb, hzip⟩ := (mem_blocks cursors _ e).mpr he
        refine List.mem_append_right _ (List.mem_flatMap.mpr ⟨.keys b.1 b.2, ?_, hzip⟩)
        exact List.mem_map_of_mem (List.mem_reverse.mpr hb)

theorem readGraph_known (hends : ∀ e ∈ content.keyEdges nodeKey,
      e.1 ∈ content.streamedKeys nodeKey ∧ e.2 ∈ content.streamedKeys nodeKey)
    (ar : Arithmetic F D O) (junk : ℕ → ℕ) (cursors : Cursors content) :
    readGraph ar nodeKey junk cursors =
      if hsize : maxNodes < (content.streamedKeys nodeKey).length then
        .error (.tooMany (content.streamedKeys nodeKey).length)
      else
        let nodes : NodeIndex :=
          ⟨content.streamedKeys nodeKey, content.streamedKeys_ordered nodeKey, not_lt.mp hsize⟩
        .ok ⟨nodes, (streamEdgeBlocks nodeKey cursors (readVertices nodeKey cursors)).1.artistIds,
          adjacencyOf ar nodes (simpleGraph (content.keyEdges nodeKey))⟩ := by
  unfold readGraph
  exact assemble_known (uniqueKeys_streamed cursors) (content.streamedKeys_ordered nodeKey)
    (streamEdgeBlocks_length cursors _) (mem_blocks cursors _) hends junk

theorem readGraph_ok_iff (ar : Arithmetic F D O) (junk : ℕ → ℕ) (cursors : Cursors content) :
    (∃ graph, readGraph ar nodeKey junk cursors = .ok graph) ↔
      (content.streamedKeys nodeKey).length ≤ maxNodes ∧ ∀ e ∈ content.keyEdges nodeKey,
        e.1 ∈ content.streamedKeys nodeKey ∧ e.2 ∈ content.streamedKeys nodeKey := by
  constructor
  · rintro ⟨graph, h⟩
    obtain ⟨hkeys, hends⟩ := readGraph_ok h
    rw [← hkeys]
    exact ⟨graph.nodes.bounded, hends⟩
  · rintro ⟨hsize, hends⟩
    exact ⟨_, (readGraph_known hends ar junk cursors).trans (dif_neg (not_lt.mpr hsize))⟩

/-- Different streamed vertices have different positions. -/
def Separates (nodeKey : VertexKind → String → U64) (content : Content) (nodes : NodeIndex) : Prop :=
  ∀ v ∈ content.streamed, ∀ w ∈ content.streamed, v ≠ w →
    searchPosition nodes.keys (nodeKey v.1 v.2) ≠ searchPosition nodes.keys (nodeKey w.1 w.2)

theorem separates_iff {graph : Graph F} (h : readGraph ar nodeKey junk cursors = .ok graph) :
    Separates nodeKey content graph.nodes ↔ ∀ v ∈ content.streamed, ∀ w ∈ content.streamed,
      nodeKey v.1 v.2 = nodeKey w.1 w.2 → v = w := by
  have hnode : ∀ v ∈ content.streamed, graph.nodes.keys[searchPosition graph.nodes.keys
      (nodeKey v.1 v.2)]? = some (nodeKey v.1 v.2) := by
    intro v hv
    apply getElem?_searchPosition graph.nodes.ordered
    rw [(readGraph_ok h).1]
    exact Content.mem_streamedKeys.mpr ⟨v, hv, rfl⟩
  constructor
  · intro hseparates v hv w hw hkey
    by_contra hne
    exact hseparates v hv w hw hne (by rw [hkey])
  · intro hinj v hv w hw hne hposition
    have hfound := hnode v hv
    rw [hposition, hnode w hw] at hfound
    exact hne (hinj v hv w hw (Option.some.inj hfound).symm)

/-- Two artists with one node key are stored with one vector. -/
theorem collision_vectors {graph : Graph F} (h : readGraph ar nodeKey junk cursors = .ok graph)
    (env : Surroundings F) {config : FastRPConfig ar} (hseed : 0 ≤ config.seed ∧ config.seed < 2 ^ 64)
    {i k : ℕ} {id id' : String} (hid : graph.artistIds[i]? = some id)
    (hid' : graph.artistIds[k]? = some id') (hkey : nodeKey .a id = nodeKey .a id') :
    ∃ vectors, artistVectors ar env nodeKey config graph = .ok vectors ∧
      ∀ j < config.dim, vectors i j = vectors k j := by
  obtain ⟨hsize, hends⟩ := (readGraph_ok_iff ar junk cursors).mp ⟨graph, h⟩
  rw [readGraph_known hends, dif_neg (not_lt.mpr hsize)] at h
  have hgraph := Except.ok.inj h
  have hnode : ∀ id ∈ graph.artistIds, nodeKey .a id ∈ graph.nodes.keys := by
    rw [← hgraph]
    intro id hid
    exact Content.mem_streamedKeys.mpr ⟨(.a, id), ((streamed_covers cursors).artists id).mp hid, rfl⟩
  have hnodes : graph.adjacency.nodes = graph.nodes := by
    rw [← hgraph]
    rfl
  obtain ⟨vectors, hvectors, hentry⟩ := artistVectors_rows hnode hnodes env hseed
  refine ⟨vectors, hvectors, fun j hj => ?_⟩
  rw [hentry i id hid j hj, hentry k id' hid' j hj, hkey]

/-- A read raises or keeps different vertices apart exactly if no two streamed vertices have one
node key, or there are too many keys, or an edge has an end that was not streamed. -/
theorem readGraph_collisions (ar : Arithmetic F D O) (nodeKey : VertexKind → String → U64)
    (junk : ℕ → ℕ) (content : Content) (cursors : Cursors content) :
    ((∃ e, readGraph ar nodeKey junk cursors = .error e) ∨
        ∃ graph, readGraph ar nodeKey junk cursors = .ok graph ∧
          Separates nodeKey content graph.nodes) ↔
      (∀ v ∈ content.streamed, ∀ w ∈ content.streamed,
        nodeKey v.1 v.2 = nodeKey w.1 w.2 → v = w) ∨
      maxNodes < (content.streamedKeys nodeKey).length ∨
      ∃ e ∈ content.keyEdges nodeKey,
        ¬(e.1 ∈ content.streamedKeys nodeKey ∧ e.2 ∈ content.streamedKeys nodeKey) := by
  cases hread : readGraph ar nodeKey junk cursors with
  | error e =>
    refine iff_of_true (Or.inl ⟨e, rfl⟩) (Or.inr ?_)
    by_contra hnone
    push Not at hnone
    obtain ⟨graph, hgraph⟩ := (readGraph_ok_iff ar junk cursors).mpr hnone
    rw [hread] at hgraph
    cases hgraph
  | ok graph =>
    have hfine := (readGraph_ok_iff ar junk cursors).mp ⟨graph, hread⟩
    have hleft : ((∃ e, Except.ok graph = Except.error (ε := GraphError) e) ∨
        ∃ graph', Except.ok (ε := GraphError) graph = .ok graph' ∧
          Separates nodeKey content graph'.nodes) ↔ Separates nodeKey content graph.nodes := by
      constructor
      · rintro (⟨e, he⟩ | ⟨graph', hsame, hseparates⟩)
        · cases he
        · cases hsame
          exact hseparates
      · intro hseparates
        exact Or.inr ⟨graph, rfl, hseparates⟩
    rw [hleft, separates_iff hread]
    refine ⟨Or.inl, ?_⟩
    rintro (hinj | hmany | ⟨e, he, hmissing⟩)
    · exact hinj
    · exact absurd hfine.1 (not_le.mpr hmany)
    · exact absurd (hfine.2 e he) hmissing

end

/-! ### Two artists with one key -/

def collidingKey (_ : VertexKind) (_ : String) : U64 := 7

theorem streamedKeys_colliding : (artistsOnly 2).streamedKeys collidingKey = [7] := by
  have hstreamed : (artistsOnly 2).streamed = [(.a, "0"), (.a, "1")] := by decide
  have hkeys : ([(.a, "0"), (.a, "1")].map fun v : Vertex => collidingKey v.1 v.2).toFinset = {7} := by
    decide
  unfold Content.streamedKeys
  rw [hstreamed, hkeys, Finset.sort_singleton]

/-- The load takes the two for one node, and stores one vector for both. -/
theorem readGraph_merges : ∃ graph : Graph ℤ,
    readGraph integerArithmetic collidingKey (fun _ => 0) (wholeCursors (artistsOnly 2)) = .ok graph ∧
      graph.nodes.keys = [7] ∧ graph.artistIds = ["0", "1"] ∧
      ¬Separates collidingKey (artistsOnly 2) graph.nodes ∧
      ∀ (env : Surroundings ℤ) (config : FastRPConfig integerArithmetic),
        0 ≤ config.seed ∧ config.seed < 2 ^ 64 →
          ∃ vectors, artistVectors integerArithmetic env collidingKey config graph = .ok vectors ∧
            ∀ j < config.dim, vectors 0 j = vectors 1 j := by
  have hends : ∀ e ∈ (artistsOnly 2).keyEdges collidingKey,
      e.1 ∈ (artistsOnly 2).streamedKeys collidingKey ∧
        e.2 ∈ (artistsOnly 2).streamedKeys collidingKey := by
    intro e he
    cases he
  have hread := readGraph_known hends integerArithmetic (fun _ => 0) (wholeCursors (artistsOnly 2))
  rw [dif_neg (by rw [streamedKeys_colliding]; decide)] at hread
  refine ⟨_, hread, streamedKeys_colliding, rfl, ?_, ?_⟩
  · rw [separates_iff hread]
    intro hinj
    exact absurd (hinj (.a, "0") (by decide) (.a, "1") (by decide) rfl) (by decide)
  · intro env config hseed
    exact collision_vectors hread env hseed rfl rfl rfl

end AnalyticsEngine.EmbeddingPipeline
