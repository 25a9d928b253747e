import AnalyticsEngine.Embeddings.Edges
import AnalyticsEngine.Embeddings.FastRP

/-!
# insights/embedding_pipeline.py: reading the graph

The vertices come from `graph.vertex_degree`, from the discovery queries and, for artists, from
the edges themselves; `Covers` is what the vertex set has taken in so far, whatever order and
batches the rows came in. The node index is built once the edges have been read.
-/

namespace AnalyticsEngine.EmbeddingPipeline
open Embeddings

variable {F D O : Type*}

/- The kinds of `graph.vertex_degree`, of which the wider graph has more. -/
inductive VertexKind where
  | a
  | r
  | l
  | m
  | g
  | s
  | other (code : String)
deriving DecidableEq

abbrev Vertex := VertexKind × String

def vertexKinds : List VertexKind := [.a, .r, .l, .m, .g, .s]

inductive DiscoveryQuery where
  | creditedReleaseIds
  | trackCreditedReleaseIds
  | trackPerformerReleaseIds

/-- `_DISCOVERY_QUERIES`, with the kind of the ids. -/
def discoveryQueries : List (DiscoveryQuery × VertexKind) :=
  [(.creditedReleaseIds, .r), (.trackCreditedReleaseIds, .r), (.trackPerformerReleaseIds, .r)]

inductive EdgeRelation where
  | byArtist
  | onLabel
  | derivedFrom
  | inGenre
  | inStyle
  | masterByArtist
  | masterInGenre
  | masterInStyle
  | creditedOn
  | trackCreditedOn
  | trackByArtist

/-- `_EDGE_RELATIONS`, with the source and the target kind. -/
def edgeRelations : List (EdgeRelation × VertexKind × VertexKind) :=
  [(.byArtist, .r, .a), (.onLabel, .r, .l), (.derivedFrom, .r, .m), (.inGenre, .r, .g),
    (.inStyle, .r, .s), (.masterByArtist, .m, .a), (.masterInGenre, .m, .g),
    (.masterInStyle, .m, .s), (.creditedOn, .r, .a), (.trackCreditedOn, .r, .a),
    (.trackByArtist, .r, .a)]

/-- The rows of `graph.vertex_degree` and of every query. -/
structure Content where
  vertexDegree : List Vertex
  discovery : DiscoveryQuery → List String
  edges : EdgeRelation → List (String × String)

/- What `fetchmany` returns before its first empty batch: the rows in any order, some of them
more than once. -/
structure Cursor {α : Type*} (rows : List α) where
  batches : List (List α)
  nonempty : ∀ batch ∈ batches, batch ≠ []
  returns : ∀ row, row ∈ batches.flatten ↔ row ∈ rows

structure Cursors (content : Content) where
  vertices : Cursor (content.vertexDegree.filter fun v => v.1 ∈ vertexKinds)
  discovery : ∀ query, Cursor (content.discovery query)
  edges : ∀ relation, Cursor (content.edges relation)

/-! ### _VertexSet -/

structure VertexSet where
  keyChunks : List (List U64)
  artistIds : List String
  seenArtistIds : Finset String
  nodup : artistIds.Nodup
  seen : ∀ id, id ∈ seenArtistIds ↔ id ∈ artistIds

def VertexSet.empty : VertexSet := ⟨[], [], ∅, List.nodup_nil, by simp⟩

theorem nodup_eraseDups {α : Type*} [BEq α] [LawfulBEq α] (l : List α) : l.eraseDups.Nodup := by
  induction hn : l.length using Nat.strong_induction_on generalizing l with
  | _ n ih =>
    cases l with
    | nil => exact List.nodup_nil
    | cons a l =>
      have hlt : (l.filter fun b => !b == a).length < n := by
        have := List.length_filter_le (fun b => !b == a) l
        rw [List.length_cons] at hn
        omega
      rw [List.eraseDups_cons]
      refine List.nodup_cons.mpr ⟨?_, ih _ hlt _ rfl⟩
      intro hmem
      have := (List.mem_filter.mp (List.mem_eraseDups.mp hmem)).2
      simp at this

theorem nodup_append_unseen {ids newIds : List String} {seenIds : Finset String}
    (hids : ids.Nodup) (hseen : ∀ id, id ∈ seenIds ↔ id ∈ ids) (hnew : newIds.Nodup) :
    (ids ++ newIds.filter fun id => id ∉ seenIds).Nodup := by
  refine List.nodup_append.mpr ⟨hids, hnew.filter _, ?_⟩
  intro id hid _ hid' heq
  subst heq
  exact of_decide_eq_true (List.mem_filter.mp hid').2 ((hseen id).mpr hid)

def VertexSet.extend (vertices : VertexSet) (newIds : List String) (hnew : newIds.Nodup) :
    VertexSet where
  keyChunks := vertices.keyChunks
  artistIds := vertices.artistIds ++ newIds.filter fun id => id ∉ vertices.seenArtistIds
  seenArtistIds := vertices.seenArtistIds ∪ newIds.toFinset
  nodup := nodup_append_unseen vertices.nodup vertices.seen hnew
  seen id := by
    have := vertices.seen id
    simp only [Finset.mem_union, List.mem_toFinset, List.mem_append, List.mem_filter,
      decide_eq_true_eq]
    tauto

def VertexSet.addChunk (vertices : VertexSet) (chunk : List U64) : VertexSet :=
  { vertices with keyChunks := vertices.keyChunks ++ [chunk] }

def VertexSet.addArtists (nodeKey : VertexKind → String → U64) (vertices : VertexSet)
    (candidates : List String) : VertexSet :=
  let newIds := candidates.eraseDups.filter fun id => id ∉ vertices.seenArtistIds
  if newIds = [] then vertices
  else (vertices.addChunk (newIds.map (nodeKey .a))).extend newIds
    ((nodup_eraseDups candidates).filter _)

/-! ### _read_vertices -/

/-- One batch of `graph.vertex_degree`. -/
def readBatch (nodeKey : VertexKind → String → U64) (vertices : VertexSet) (batch : List Vertex) :
    VertexSet :=
  batch.foldl (fun vertices v =>
    if v.1 = .a then vertices.extend [v.2] (List.nodup_singleton _) else vertices)
    (vertices.addChunk (batch.map fun v => nodeKey v.1 v.2))

/-- One discovery query, its ids collected first. -/
def readDiscovery (nodeKey : VertexKind → String → U64) {content : Content}
    (cursors : Cursors content) (vertices : VertexSet) (query : DiscoveryQuery × VertexKind) :
    VertexSet :=
  let ids := (cursors.discovery query.1).batches.flatten
  if ids = [] then vertices else vertices.addChunk (ids.map (nodeKey query.2))

def readVertices (nodeKey : VertexKind → String → U64) {content : Content}
    (cursors : Cursors content) : VertexSet :=
  discoveryQueries.foldl (readDiscovery nodeKey cursors)
    (cursors.vertices.batches.foldl (readBatch nodeKey) VertexSet.empty)

/-! ### _stream_edge_blocks -/

abbrev EdgeStream := VertexSet × List (List U64 × List U64)

def keyBlock (nodeKey : VertexKind → String → U64) (source target : VertexKind)
    (batch : List (String × String)) : List U64 × List U64 :=
  ((batch.map Prod.fst).map (nodeKey source), (batch.map Prod.snd).map (nodeKey target))

/-- One batch of an edge relation. -/
def streamBatch (nodeKey : VertexKind → String → U64) (source target : VertexKind)
    (state : EdgeStream) (batch : List (String × String)) : EdgeStream :=
  let vertices := state.1
  let vertices := if source = .a then vertices.addArtists nodeKey (batch.map Prod.fst) else vertices
  let vertices := if target = .a then vertices.addArtists nodeKey (batch.map Prod.snd) else vertices
  (vertices, state.2 ++ [keyBlock nodeKey source target batch])

def streamRelation (nodeKey : VertexKind → String → U64) {content : Content}
    (cursors : Cursors content) (state : EdgeStream)
    (relation : EdgeRelation × VertexKind × VertexKind) : EdgeStream :=
  (cursors.edges relation.1).batches.foldl (streamBatch nodeKey relation.2.1 relation.2.2) state

def streamEdgeBlocks (nodeKey : VertexKind → String → U64) {content : Content}
    (cursors : Cursors content) (vertices : VertexSet) : EdgeStream :=
  edgeRelations.foldl (streamRelation nodeKey cursors) (vertices, [])

/-! ### _assemble and _read_graph -/

structure Graph (F : Type*) where
  nodes : NodeIndex
  artistIds : List String
  adjacency : Adjacency F

/- `np.unique` of the key chunks; `np.zeros(0)` when there are none. -/
def uniqueKeys (keyChunks : List (List U64)) : List U64 := keyChunks.flatten.toFinset.sort (· ≤ ·)

/-- `_assemble`; the blocks are popped from the end. -/
def assemble (ar : Arithmetic F D O) (junk : ℕ → ℕ) (vertices : VertexSet)
    (blocks : List (List U64 × List U64)) : Except GraphError (Graph F) :=
  match NodeIndex.new (uniqueKeys vertices.keyChunks) with
  | .error e => .error e
  | .ok nodes =>
    match (AdjacencyBuilder.new nodes).addAll (blocks.reverse.map fun b => .keys b.1 b.2) with
    | .error e => .error e
    | .ok builder =>
      match builder.build ar junk with
      | .error e => .error e
      | .ok adjacency => .ok ⟨nodes, vertices.artistIds, adjacency⟩

def readGraph (ar : Arithmetic F D O) (nodeKey : VertexKind → String → U64) (junk : ℕ → ℕ)
    {content : Content} (cursors : Cursors content) : Except GraphError (Graph F) :=
  let stream := streamEdgeBlocks nodeKey cursors (readVertices nodeKey cursors)
  assemble ar junk stream.1 stream.2

inductive LoadError where
  | graph (e : GraphError)
  | fastrp (e : FastRPError)

/- The vectors of a load: `fastrp` of the rows of the artists, in six threads. -/
def artistVectors (ar : Arithmetic F D O) (env : Surroundings F)
    (nodeKey : VertexKind → String → U64) (config : FastRPConfig ar) (graph : Graph F) :
    Except LoadError (Block O) :=
  match graph.nodes.positions (graph.artistIds.map (nodeKey .a)) with
  | .error e => .error (.graph e)
  | .ok positions =>
    match fastrp ar env graph.adjacency config (some positions) 4 none 6 with
    | .error e => .error (.fastrp e)
    | .ok vectors => .ok vectors

/-! ### What the vertex set has taken in -/

/-- The vertex set holds the key of every vertex in `known`, and every artist in it once. -/
structure Covers (nodeKey : VertexKind → String → U64) (known : Set Vertex) (vertices : VertexSet) :
    Prop where
  keys : ∀ key, key ∈ vertices.keyChunks.flatten ↔ ∃ v ∈ known, nodeKey v.1 v.2 = key
  artists : ∀ id, id ∈ vertices.artistIds ↔ (.a, id) ∈ known

section
variable {nodeKey : VertexKind → String → U64} {known : Set Vertex} {vertices : VertexSet}

theorem covers_empty (nodeKey : VertexKind → String → U64) : Covers nodeKey ∅ VertexSet.empty where
  keys key := by simp [VertexSet.empty]
  artists id := by simp [VertexSet.empty]

theorem mem_extend {newIds : List String} {hnew : newIds.Nodup} {id : String} :
    id ∈ (vertices.extend newIds hnew).artistIds ↔ id ∈ vertices.artistIds ∨ id ∈ newIds := by
  have := vertices.seen id
  unfold VertexSet.extend
  simp only [List.mem_append, List.mem_filter, decide_eq_true_eq]
  tauto

theorem readBatch_keyChunks (batch : List Vertex) : (readBatch nodeKey vertices batch).keyChunks =
    vertices.keyChunks ++ [batch.map fun v => nodeKey v.1 v.2] := by
  unfold readBatch
  apply Library.foldl_frame VertexSet.keyChunks
  intro v _ vertices
  split_ifs <;> rfl

theorem readBatch_artists (batch : List Vertex) (id : String) :
    id ∈ (readBatch nodeKey vertices batch).artistIds ↔
      id ∈ vertices.artistIds ∨ (.a, id) ∈ batch := by
  have hfold : ∀ (batch : List Vertex) (vertices : VertexSet),
      id ∈ (batch.foldl (fun vertices v =>
        if v.1 = .a then vertices.extend [v.2] (List.nodup_singleton _) else vertices)
        vertices).artistIds ↔ id ∈ vertices.artistIds ∨ (.a, id) ∈ batch := by
    intro batch
    induction batch with
    | nil => simp
    | cons v batch ih =>
      intro vertices
      rw [List.foldl_cons, ih, List.mem_cons]
      obtain ⟨kind, key⟩ := v
      split_ifs with hkind
      · rw [mem_extend, List.mem_singleton, or_assoc]
        simp [show kind = .a from hkind]
      · have hne : (VertexKind.a, id) ≠ (kind, key) := fun heq => hkind (congrArg Prod.fst heq).symm
        simp [hne]
  exact hfold batch _

theorem readBatch_covers (h : Covers nodeKey known vertices) (batch : List Vertex) :
    Covers nodeKey (known ∪ {v | v ∈ batch}) (readBatch nodeKey vertices batch) where
  keys key := by
    rw [readBatch_keyChunks, List.flatten_append, List.mem_append, h.keys]
    simp [or_and_right, exists_or]
  artists id := by
    rw [readBatch_artists, h.artists]
    rfl

theorem readDiscovery_covers (h : Covers nodeKey known vertices) {content : Content}
    (cursors : Cursors content) {query : DiscoveryQuery × VertexKind} (hquery : query.2 ≠ .a) :
    Covers nodeKey (known ∪ {v | v.1 = query.2 ∧ v.2 ∈ content.discovery query.1})
      (readDiscovery nodeKey cursors vertices query) := by
  have hreturns := (cursors.discovery query.1).returns
  unfold readDiscovery
  simp only
  split_ifs with hids
  · have hnone : ∀ id, id ∉ content.discovery query.1 := by
      intro id hid
      rw [← hreturns, hids] at hid
      cases hid
    simpa [hnone] using h
  · constructor
    · intro key
      unfold VertexSet.addChunk
      simp only [List.flatten_append, List.mem_append, h.keys, List.flatten_singleton, List.mem_map,
        hreturns, Set.mem_union, Set.mem_ofPred_eq, or_and_right, exists_or, Prod.exists]
      apply or_congr_right
      constructor
      · intro hfound
        obtain ⟨id, hid, rfl⟩ := hfound
        exact ⟨_, id, ⟨rfl, hid⟩, rfl⟩
      · intro hfound
        obtain ⟨_, id, ⟨rfl, hid⟩, rfl⟩ := hfound
        exact ⟨id, hid, rfl⟩
    · intro id
      unfold VertexSet.addChunk
      simp only [h.artists, Set.mem_union, Set.mem_ofPred_eq, hquery.symm, false_and, or_false]

theorem addArtists_covers (h : Covers nodeKey known vertices) (candidates : List String) :
    Covers nodeKey (known ∪ {v | v.1 = .a ∧ v.2 ∈ candidates})
      (vertices.addArtists nodeKey candidates) := by
  -- a candidate that was seen before is an artist already covered
  have hold : ∀ id ∈ candidates, id ∈ vertices.seenArtistIds → (.a, id) ∈ known := fun id _ hid =>
    (h.artists id).mp ((vertices.seen id).mp hid)
  unfold VertexSet.addArtists
  simp only
  split_ifs with hnew
  · have hall : ∀ id ∈ candidates, (.a, id) ∈ known := by
      intro id hid
      have := List.filter_eq_nil_iff.mp hnew id (List.mem_eraseDups.mpr hid)
      exact hold id hid (by simpa using this)
    have hsame : known ∪ {v | v.1 = .a ∧ v.2 ∈ candidates} = known := by
      apply Set.union_eq_self_of_subset_right
      intro hfound hparts
      obtain ⟨_, id⟩ := hfound
      obtain ⟨rfl, hid⟩ := hparts
      exact hall id hid
    rw [hsame]
    exact h
  · constructor
    · intro key
      unfold VertexSet.extend VertexSet.addChunk
      simp only [List.flatten_append, List.flatten_singleton]
      rw [List.mem_append, h.keys, List.mem_map]
      constructor
      · intro hcases
        rcases hcases with ⟨v, hv, rfl⟩ | ⟨id, hid, rfl⟩
        · exact ⟨v, Or.inl hv, rfl⟩
        · exact ⟨(.a, id), Or.inr ⟨rfl, List.mem_eraseDups.mp (List.mem_filter.mp hid).1⟩, rfl⟩
      · intro hfound
        rcases hfound with ⟨⟨kind, id⟩, hv | ⟨rfl, hid⟩, rfl⟩
        · exact Or.inl ⟨_, hv, rfl⟩
        · by_cases hseen : id ∈ vertices.seenArtistIds
          · exact Or.inl ⟨_, hold id hid hseen, rfl⟩
          · exact Or.inr ⟨id, List.mem_filter.mpr
              ⟨List.mem_eraseDups.mpr hid, decide_eq_true hseen⟩, rfl⟩
    · intro id
      rw [mem_extend, List.mem_filter, List.mem_eraseDups]
      have hseen := vertices.seen id
      have hknown := h.artists id
      unfold VertexSet.addChunk
      simp only [decide_eq_true_eq, Set.mem_union, Set.mem_ofPred_eq, true_and]
      tauto

def artistEnds (source target : VertexKind) (rows : List (String × String)) : Set Vertex :=
  {v | v.1 = .a ∧ ∃ row ∈ rows, v = (source, row.1) ∨ v = (target, row.2)}

theorem streamBatch_covers {state : EdgeStream} (h : Covers nodeKey known state.1)
    (source target : VertexKind) (batch : List (String × String)) :
    Covers nodeKey (known ∪ artistEnds source target batch)
      (streamBatch nodeKey source target state batch).1 := by
  have hends : artistEnds source target batch =
      {v | source = .a ∧ v.1 = .a ∧ v.2 ∈ batch.map Prod.fst} ∪
        {v | target = .a ∧ v.1 = .a ∧ v.2 ∈ batch.map Prod.snd} := by
    unfold artistEnds
    ext ⟨kind, id⟩
    simp only [Set.mem_ofPred_eq, Set.mem_union, List.mem_map, Prod.mk.injEq]
    constructor
    · intro hfound
      rcases hfound with ⟨rfl, row, hrow, ⟨hkind, rfl⟩ | ⟨hkind, rfl⟩⟩
      · exact Or.inl ⟨hkind.symm, rfl, row, hrow, rfl⟩
      · exact Or.inr ⟨hkind.symm, rfl, row, hrow, rfl⟩
    · intro hcases
      rcases hcases with ⟨hkind, rfl, row, hrow, rfl⟩ | ⟨hkind, rfl, row, hrow, rfl⟩
      · exact ⟨rfl, row, hrow, Or.inl ⟨hkind.symm, rfl⟩⟩
      · exact ⟨rfl, row, hrow, Or.inr ⟨hkind.symm, rfl⟩⟩
  have hside : ∀ {known : Set Vertex} {vertices : VertexSet}, Covers nodeKey known vertices →
      ∀ (kind : VertexKind) (ids : List String),
        Covers nodeKey (known ∪ {v | kind = .a ∧ v.1 = .a ∧ v.2 ∈ ids})
          (if kind = .a then vertices.addArtists nodeKey ids else vertices) := by
    intro known vertices h kind ids
    split_ifs with hkind
    · simpa [hkind] using addArtists_covers h ids
    · simpa [hkind] using h
  rw [hends, ← Set.union_assoc]
  exact hside (hside h source _) target _

end

end AnalyticsEngine.EmbeddingPipeline
