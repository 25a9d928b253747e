import AnalyticsEngine.EmbeddingPipeline.Exact
import AnalyticsEngine.EmbeddingPipeline.Version
import AnalyticsEngine.Library.Calendar
import AnalyticsEngine.Library.RowVersions
import AnalyticsEngine.Library.Transition

/-!
# Loads of the embeddings (insights/embedding_pipeline.py, `load_embeddings`)

Any number of loads take their steps in any order and may stop at each. The already-loaded check
and the graph read come before the transaction of the write, which deletes the version and copies
a row per artist.
-/

namespace AnalyticsEngine.EmbeddingPipeline
open Embeddings Library

variable {F O : Type*}

/-- A row of `public.artist_embeddings`. -/
structure EmbeddingRow (O : Type*) where
  artistId : String
  modelVersion : String
  embedding : List O
  sourceDumpId : String
  sourceDumpDate : Date
  computedAt : ℕ

def EmbeddingRow.primaryKey (row : EmbeddingRow O) : String × String :=
  (row.artistId, row.modelVersion)

structure LoadResult where
  methodVersion : String
  modelVersion : String
  rowsWritten : ℕ
  skipped : Bool

structure LoadArgs (ar : Arithmetic F Float64 O) where
  config : FastRPConfig ar
  dumpId : String
  dumpDate : Date

variable {ar : Arithmetic F Float64 O}

/- What `_write_embeddings` copies. -/
def embeddingRows (args : LoadArgs ar) (version : String) (computedAt : ℕ)
    (artistIds : List String) (vectors : Block O) : List (EmbeddingRow O) :=
  artistIds.zipIdx.map fun artist =>
    ⟨artist.1, version, (List.range args.config.dim).map (vectors artist.2), args.dumpId,
      args.dumpDate, computedAt⟩

/- Where a load is. The write starts with its `DELETE`, which ends once no row it wants is being
deleted by another. -/
inductive LoadStage (O : Type*) where
  | checking
  | reading
  | writing (artistIds : List String) (vectors : Block O)
  | deleting (seen : ℕ → Bool) (rows : List (EmbeddingRow O))
  | copying (copied rest : List (EmbeddingRow O))
  | returned (result : LoadResult)
  | raised

/- `content` is what the graph read found. -/
structure LoadRun (ar : Arithmetic F Float64 O) where
  args : LoadArgs ar
  version : String
  content : Option Content
  stage : LoadStage O

structure LoadState (ar : Arithmetic F Float64 O) where
  table : Heap (EmbeddingRow O)
  runs : ℕ → Option (LoadRun ar)

inductive LoadAction (ar : Arithmetic F Float64 O) where
  | start (id : ℕ) (args : LoadArgs ar)
  | check (id : ℕ)
  | read (id : ℕ) (content : Content) (cursors : Cursors content) (junk : ℕ → ℕ)
      (env : Surroundings F)
  | delete (id : ℕ) (now : ℕ)
  | deleted (id : ℕ)
  | copyRow (id : ℕ)
  | commit (id : ℕ)
  | stop (id : ℕ)

namespace LoadState

def initial : LoadState ar where
  table := Heap.empty
  runs := fun _ => none

def put (s : LoadState ar) (id : ℕ) (run : LoadRun ar) : LoadState ar :=
  { s with runs := Function.update s.runs id (some run) }

def withTable (s : LoadState ar) (table : Heap (EmbeddingRow O)) : LoadState ar :=
  { s with table := table }

/-- The committed rows of a stored `model_version`. -/
def rowsOf (s : LoadState ar) (version : String) : List (ℕ × EmbeddingRow O) :=
  s.table.rows.filter fun x => x.2.modelVersion = version

def alreadyLoaded (s : LoadState ar) (version : String) : Bool :=
  s.table.rows.any fun x => x.2.modelVersion = version

/-- The steps, `none` where an action is not enabled. -/
def step (nodeKey : VertexKind → String → U64) (s : LoadState ar) :
    LoadAction ar → Option (LoadState ar)
  -- A dump id with the separator raises before there is a connection.
  | .start id args =>
    match s.runs id, storedModelVersion args.config args.dumpId with
    | none, .ok version => some (s.put id ⟨args, version, none, .checking⟩)
    | _, _ => none
  | .check id =>
    match s.runs id with
    | some ⟨args, version, content, .checking⟩ =>
      some (s.put id ⟨args, version, content,
        if s.alreadyLoaded version then
          .returned ⟨modelVersion args.config, version, 0, true⟩
        else .reading⟩)
    | _ => none
  | .read id content cursors junk env =>
    match s.runs id with
    | some ⟨args, version, _, .reading⟩ =>
      match readGraph ar nodeKey junk cursors with
      | .error _ => some (s.put id ⟨args, version, some content, .raised⟩)
      | .ok graph =>
        if graph.artistIds = [] then
          some (s.put id ⟨args, version, some content,
            .returned ⟨modelVersion args.config, version, 0, false⟩⟩)
        else
          match artistVectors ar env nodeKey args.config graph with
          | .error _ => some (s.put id ⟨args, version, some content, .raised⟩)
          | .ok vectors =>
            some (s.put id ⟨args, version, some content, .writing graph.artistIds vectors⟩)
    | _ => none
  | .delete id now =>
    match s.runs id with
    | some ⟨args, version, content, .writing artistIds vectors⟩ =>
      some (s.put id ⟨args, version, content,
        .deleting s.table.committed (embeddingRows args version now artistIds vectors)⟩)
    | _ => none
  | .deleted id =>
    match s.runs id with
    | some ⟨args, version, content, .deleting seen rows⟩ =>
      if s.table.deleteWaits id seen EmbeddingRow.modelVersion version then none
      else some ((s.withTable (s.table.delete id seen EmbeddingRow.modelVersion version)).put id
        ⟨args, version, content, .copying [] rows⟩)
    | _ => none
  | .copyRow id =>
    match s.runs id with
    | some ⟨args, version, content, .copying copied (row :: rest)⟩ =>
      if s.table.insertWaits EmbeddingRow.primaryKey id row then none
      else if s.table.violates EmbeddingRow.primaryKey id row then
        some ((s.withTable (s.table.abort id)).put id ⟨args, version, content, .raised⟩)
      else some ((s.withTable (s.table.insert id row)).put id
        ⟨args, version, content, .copying (copied ++ [row]) rest⟩)
    | _ => none
  | .commit id =>
    match s.runs id with
    | some ⟨args, version, content, .copying copied []⟩ =>
      some ((s.withTable (s.table.commit id)).put id ⟨args, version, content,
        .returned ⟨modelVersion args.config, version, copied.length, false⟩⟩)
    | _ => none
  | .stop id =>
    match s.runs id with
    | none => none
    | some ⟨_, _, _, .returned _⟩ => none
    | some ⟨_, _, _, .raised⟩ => none
    | some run => some ((s.withTable (s.table.abort id)).put id { run with stage := .raised })

end LoadState

/-! ### The output of a load -/

/- The artists and the vectors of a graph read of `content`. -/
def Embedded (ar : Arithmetic F Float64 O) (nodeKey : VertexKind → String → U64)
    (config : FastRPConfig ar) (content : Content) (artistIds : List String) (vectors : Block O) :
    Prop :=
  ∃ (cursors : Cursors content) (junk : ℕ → ℕ) (env : Surroundings F) (graph : Graph F),
    readGraph ar nodeKey junk cursors = .ok graph ∧ graph.artistIds = artistIds ∧
      artistIds ≠ [] ∧ artistVectors ar env nodeKey config graph = .ok vectors

/-- The complete output of a load for the content it read. -/
def LoadRun.Output (nodeKey : VertexKind → String → U64) (run : LoadRun ar)
    (rows : List (EmbeddingRow O)) : Prop :=
  ∃ content artistIds vectors computedAt, run.content = some content ∧
    Embedded ar nodeKey run.args.config content artistIds vectors ∧
      rows = embeddingRows run.args run.version computedAt artistIds vectors

section
variable {nodeKey : VertexKind → String → U64}

theorem embeddingRows_ids (args : LoadArgs ar) (version : String) (computedAt : ℕ)
    (artistIds : List String) (vectors : Block O) :
    (embeddingRows args version computedAt artistIds vectors).map EmbeddingRow.artistId =
      artistIds := by
  unfold embeddingRows
  rw [List.map_map]
  exact List.zipIdx_map_fst 0 artistIds

theorem readGraph_artistIds {junk : ℕ → ℕ} {content : Content} {cursors : Cursors content}
    {graph : Graph F} (h : readGraph ar nodeKey junk cursors = .ok graph) :
    graph.artistIds =
      (streamEdgeBlocks nodeKey cursors (readVertices nodeKey cursors)).1.artistIds := by
  unfold readGraph assemble at h
  simp only at h
  split at h
  · cases h
  · split at h
    · cases h
    · split at h
      · cases h
      · cases h
        rfl

/-- The artists of a read are those of the content, once each. -/
theorem Embedded.artists {config : FastRPConfig ar} {content : Content} {artistIds : List String}
    {vectors : Block O} (h : Embedded ar nodeKey config content artistIds vectors) :
    artistIds.Nodup ∧ ∀ id, id ∈ artistIds ↔ (.a, id) ∈ content.vertices := by
  obtain ⟨cursors, junk, env, graph, hgraph, rfl, _, _⟩ := h
  rw [readGraph_artistIds hgraph]
  refine ⟨VertexSet.nodup _, fun id => ?_⟩
  have hcovers : Covers nodeKey _ _ := streamEdgeBlocks_covers cursors (readVertices_covers cursors)
  rw [hcovers.artists]
  unfold Content.vertices
  simp [List.mem_append]

/-- An output has one row per artist of the graph, all under the run's version. -/
theorem LoadRun.Output.rows {run : LoadRun ar} {rows : List (EmbeddingRow O)}
    (h : run.Output nodeKey rows) : rows ≠ [] ∧ (∀ row ∈ rows, row.modelVersion = run.version) ∧
      (rows.map EmbeddingRow.artistId).Nodup ∧ ∃ content, run.content = some content ∧
        ∀ id, id ∈ rows.map EmbeddingRow.artistId ↔ (.a, id) ∈ content.vertices := by
  obtain ⟨content, artistIds, vectors, computedAt, hcontent, hembedded, rfl⟩ := h
  obtain ⟨hnodup, hartists⟩ := hembedded.artists
  have hne : artistIds ≠ [] := by
    obtain ⟨_, _, _, _, _, _, hne, _⟩ := hembedded
    exact hne
  rw [embeddingRows_ids]
  refine ⟨?_, ?_, hnodup, content, hcontent, hartists⟩
  · intro hnil
    have hids := embeddingRows_ids run.args run.version computedAt artistIds vectors
    rw [hnil] at hids
    exact hne hids.symm
  · intro row hrow
    unfold embeddingRows at hrow
    obtain ⟨artist, _, rfl⟩ := List.mem_map.mp hrow
    rfl

end

end AnalyticsEngine.EmbeddingPipeline
