import AnalyticsEngine.EmbeddingPipeline.Load
import AnalyticsEngine.Library.Slices
import AnalyticsEngine.Library.Words
import Mathlib.Data.List.GetD

/-!
# The COPY of the embeddings (insights/embedding_pipeline.py, `_halfvec_binary_rows` and
`_write_embeddings`)

One transaction deletes the version's rows and copies a payload per artist, in batches. What the
server does with a payload (`halfvec_recv`, and `halfvec_send` when it is read) is a parameter.
-/

namespace AnalyticsEngine.EmbeddingPipeline
open Library

/-- A float16 array, as bit patterns. -/
structure HalfArray where
  columns : ℕ
  rows : List (List Word)
  row_length : ∀ row ∈ rows, row.length = columns

/-- `vectors[start:stop]`. -/
def HalfArray.slice (vectors : HalfArray) (start stop : ℕ) : HalfArray where
  columns := vectors.columns
  rows := (vectors.rows.drop start).take (stop - start)
  row_length := fun row hrow =>
    vectors.row_length row (List.mem_of_mem_drop (List.mem_of_mem_take hrow))

inductive WriteError where
  | overflowError
  | refused
  | uniqueViolation
deriving DecidableEq

/-- The words of a payload. -/
def headerRow (columns : ℕ) (row : List Word) : List Word := BitVec.ofNat 16 columns :: 0 :: row

/-- `_halfvec_binary_rows`. -/
def halfvecBinaryRows (vectors : HalfArray) : Except WriteError (List (List Byte)) :=
  -- Only a 16-bit number can be stored in the first column.
  if vectors.columns > 65535 then .error .overflowError
  else
    let words := vectors.rows.map (headerRow vectors.columns)
    let rowBytes := (vectors.columns + 2) * 2
    .ok (cut rowBytes vectors.rows.length (bytesOf words.flatten))

def payload (vectors : HalfArray) (row : List Word) : List Byte :=
  bytesOf (headerRow vectors.columns row)

theorem length_payload {vectors : HalfArray} {row : List Word} (h : row ∈ vectors.rows) :
    (payload vectors row).length = (vectors.columns + 2) * 2 := by
  have hrow := vectors.row_length row h
  unfold payload headerRow
  rw [length_bytesOf, List.length_cons, List.length_cons, hrow]
  ring

theorem halfvecBinaryRows_payloads (vectors : HalfArray) (h : vectors.columns ≤ 65535) :
    halfvecBinaryRows vectors = .ok (vectors.rows.map (payload vectors)) := by
  have hlength : ∀ blob ∈ vectors.rows.map (payload vectors),
      blob.length = (vectors.columns + 2) * 2 := by
    intro blob hblob
    obtain ⟨row, hrow, rfl⟩ := List.mem_map.mp hblob
    exact length_payload hrow
  have hbytes : bytesOf (vectors.rows.map (headerRow vectors.columns)).flatten =
      (vectors.rows.map (payload vectors)).flatten := by
    rw [bytesOf_flatten, List.map_map]
    rfl
  have hcut := cut_flatten_rows hlength
  rw [List.length_map] at hcut
  unfold halfvecBinaryRows
  rw [if_neg (by omega)]
  dsimp only
  rw [hbytes, hcut]

/-! ### _write_embeddings -/

/-- The values every row of a load shares. -/
structure RowMeta where
  modelVersion : String
  dumpId : String
  dumpDate : Date
  computedAt : ℕ

def RowMeta.row (fields : RowMeta) (artistId : String) (payload : List Byte) : EmbeddingRow Byte :=
  ⟨artistId, fields.modelVersion, payload, fields.dumpId, fields.dumpDate, fields.computedAt⟩

/-- One round of the loop: `vectors[start:stop]` encoded, a row for each payload. -/
def writeBatch (fields : RowMeta) (artistIds : List String) (vectors : HalfArray) (s : ℕ × ℕ) :
    Except WriteError (List (EmbeddingRow Byte)) := do
  let encoded ← halfvecBinaryRows (vectors.slice s.1 s.2)
  return encoded.zipIdx.map fun x => fields.row (artistIds.getD (s.1 + x.2) "") x.1

def writtenRows (copyBatchSize : ℕ) (fields : RowMeta) (artistIds : List String)
    (vectors : HalfArray) : Except WriteError (List (EmbeddingRow Byte)) := do
  let batches ← (stepSlices artistIds.length copyBatchSize).mapM
    (writeBatch fields artistIds vectors)
  return batches.flatten

/-- The server's end of the COPY: every payload is received as a `halfvec`, and no row may repeat
a primary key. -/
def copyInto (column : List Byte → Option (List Byte)) (kept rows : List (EmbeddingRow Byte)) :
    Except WriteError (List (EmbeddingRow Byte)) :=
  match rows.mapM fun row => (column row.embedding).map fun e => { row with embedding := e } with
  | none => .error .refused
  | some stored =>
    if (stored.map EmbeddingRow.primaryKey).Nodup ∧
        ∀ row ∈ stored, row.primaryKey ∉ kept.map EmbeddingRow.primaryKey then
      .ok (kept ++ stored)
    else .error .uniqueViolation

/-- `_write_embeddings`: the rows written and the table once it has committed. -/
def writeEmbeddings (column : List Byte → Option (List Byte)) (copyBatchSize : ℕ)
    (fields : RowMeta) (artistIds : List String) (vectors : HalfArray)
    (table : List (EmbeddingRow Byte)) : Except WriteError (ℕ × List (EmbeddingRow Byte)) := do
  let kept := table.filter fun row => row.modelVersion ≠ fields.modelVersion
  let rows ← writtenRows copyBatchSize fields artistIds vectors
  let table' ← copyInto column kept rows
  return (rows.length, table')

section
variable {fields : RowMeta} {artistIds : List String} {vectors : HalfArray}

/-- The row of each artist. -/
def artistRows (fields : RowMeta) (artistIds : List String) (vectors : HalfArray) :
    List (EmbeddingRow Byte) :=
  (artistIds.zip vectors.rows).map fun x => fields.row x.1 (payload vectors x.2)

def artistRow (fields : RowMeta) (artistIds : List String) (vectors : HalfArray) (i : ℕ) :
    EmbeddingRow Byte :=
  fields.row (artistIds.getD i "") (payload vectors (vectors.rows.getD i []))

theorem writeBatch_rows (hcolumns : vectors.columns ≤ 65535) {s : ℕ × ℕ}
    (hs : s.2 ≤ vectors.rows.length) :
    writeBatch fields artistIds vectors s =
      .ok ((sliceRows s).map (artistRow fields artistIds vectors)) := by
  have hencoded : halfvecBinaryRows (vectors.slice s.1 s.2) =
      .ok ((vectors.slice s.1 s.2).rows.map (payload vectors)) :=
    halfvecBinaryRows_payloads (vectors.slice s.1 s.2) hcolumns
  unfold writeBatch
  rw [hencoded]
  change Except.ok _ = _
  congr 1
  apply List.ext_getElem
  · simp only [HalfArray.slice, sliceRows, List.length_map, List.length_zipIdx, List.length_take,
      List.length_drop, List.length_range']
    omega
  · intro i hi hi'
    simp only [HalfArray.slice, List.length_map, List.length_zipIdx, List.length_take,
      List.length_drop] at hi
    simp only [HalfArray.slice, sliceRows, List.getElem_map, List.getElem_zipIdx, Nat.zero_add,
      List.getElem_take, List.getElem_drop, List.getElem_range', Nat.one_mul, artistRow]
    rw [List.getD_eq_getElem vectors.rows [] (by omega)]

theorem writtenRows_eq {copyBatchSize : ℕ} (hsize : 1 ≤ copyBatchSize)
    (hcolumns : vectors.columns ≤ 65535) (hcount : vectors.rows.length = artistIds.length) :
    writtenRows copyBatchSize fields artistIds vectors =
      .ok (artistRows fields artistIds vectors) := by
  have hbatches : ∀ s ∈ stepSlices artistIds.length copyBatchSize,
      writeBatch fields artistIds vectors s =
        .ok ((sliceRows s).map (artistRow fields artistIds vectors)) := by
    intro s hs
    obtain ⟨i, _, rfl⟩ := List.mem_map.mp hs
    apply writeBatch_rows hcolumns
    rw [hcount]
    exact Nat.min_le_right _ _
  have hloop := mapM_stepSlices hsize hbatches
  rw [map_eq_pure_bind] at hloop
  have hrows : (List.range artistIds.length).map (artistRow fields artistIds vectors) =
      artistRows fields artistIds vectors := by
    unfold artistRows
    apply List.ext_getElem
    · simp [hcount]
    · intro i hi _
      rw [List.length_map, List.length_range] at hi
      simp only [List.getElem_map, List.getElem_range, List.getElem_zip, artistRow]
      rw [List.getD_eq_getElem artistIds "" hi, List.getD_eq_getElem vectors.rows [] (by omega)]
  rw [hrows] at hloop
  exact hloop

theorem copyInto_stored {column : List Byte → Option (List Byte)} {kept rows : List (EmbeddingRow Byte)}
    (hcolumn : ∀ row ∈ rows, column row.embedding = some row.embedding)
    (hkeys : (rows.map EmbeddingRow.primaryKey).Nodup)
    (hnew : ∀ row ∈ rows, row.primaryKey ∉ kept.map EmbeddingRow.primaryKey) :
    copyInto column kept rows = .ok (kept ++ rows) := by
  have hstored : (rows.mapM fun row =>
      (column row.embedding).map fun e => { row with embedding := e }) = some rows := by
    have hpure : ∀ row ∈ rows,
        ((column row.embedding).map fun e => { row with embedding := e }) = pure (id row) := by
      intro row hrow
      rw [hcolumn row hrow]
      rfl
    rw [mapM_eq_pure hpure, List.map_id]
    rfl
  unfold copyInto
  rw [hstored]
  dsimp only
  rw [if_pos ⟨hkeys, hnew⟩]

theorem artistRows_ids (hcount : vectors.rows.length = artistIds.length) :
    (artistRows fields artistIds vectors).map EmbeddingRow.artistId = artistIds := by
  unfold artistRows
  rw [List.map_map]
  exact List.map_fst_zip hcount.ge

theorem mem_artistRows {row : EmbeddingRow Byte} (h : row ∈ artistRows fields artistIds vectors) :
    row.modelVersion = fields.modelVersion ∧
      ∃ values ∈ vectors.rows, row.embedding = payload vectors values := by
  obtain ⟨x, hx, rfl⟩ := List.mem_map.mp h
  exact ⟨rfl, x.2, (List.of_mem_zip hx).2, rfl⟩

theorem writeEmbeddings_ok {column : List Byte → Option (List Byte)} {copyBatchSize : ℕ}
    (table : List (EmbeddingRow Byte)) (hsize : 1 ≤ copyBatchSize)
    (hcolumns : vectors.columns ≤ 65535) (hcount : vectors.rows.length = artistIds.length)
    (hids : artistIds.Nodup)
    (hcolumn : ∀ row ∈ vectors.rows, column (payload vectors row) = some (payload vectors row)) :
    writeEmbeddings column copyBatchSize fields artistIds vectors table =
      .ok (artistIds.length, (table.filter fun row => row.modelVersion ≠ fields.modelVersion) ++
        artistRows fields artistIds vectors) := by
  have hlength : (artistRows fields artistIds vectors).length = artistIds.length := by
    have hlengths : ((artistRows fields artistIds vectors).map EmbeddingRow.artistId).length =
        artistIds.length := congrArg List.length (artistRows_ids hcount)
    rwa [List.length_map] at hlengths
  have hstored : copyInto column (table.filter fun row => row.modelVersion ≠ fields.modelVersion)
      (artistRows fields artistIds vectors) = .ok ((table.filter fun row =>
        row.modelVersion ≠ fields.modelVersion) ++ artistRows fields artistIds vectors) := by
    apply copyInto_stored
    · intro row hrow
      obtain ⟨_, values, hvalues, hembedding⟩ := mem_artistRows hrow
      rw [hembedding]
      exact hcolumn values hvalues
    · apply List.Nodup.of_map Prod.fst
      rw [List.map_map]
      have hfst : Prod.fst ∘ EmbeddingRow.primaryKey = @EmbeddingRow.artistId Byte := rfl
      rw [hfst, artistRows_ids hcount]
      exact hids
    · intro row hrow hkept
      obtain ⟨other, hother, hkey⟩ := List.mem_map.mp hkept
      have hversion := of_decide_eq_true (List.mem_filter.mp hother).2
      have hsame := congrArg Prod.snd hkey
      exact hversion (hsame.trans (mem_artistRows hrow).1)
  unfold writeEmbeddings
  rw [writtenRows_eq hsize hcolumns hcount]
  change (copyInto _ _ _ >>= _) = _
  rw [hstored]
  change Except.ok _ = _
  rw [hlength]

end

end AnalyticsEngine.EmbeddingPipeline
