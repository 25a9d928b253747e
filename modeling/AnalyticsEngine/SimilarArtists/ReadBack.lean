import AnalyticsEngine.EmbeddingPipeline.Halfvec
import AnalyticsEngine.SimilarArtists.Halfvec
import Mathlib.Data.String.Basic

/-!
# Reading the vectors back (insights/similar_artists.py, `read_embeddings`)

The rows of a version come in `artist_id` order, in batches that need not be those they were
written in. What one round of the loop adds is its batch's rows, so that the whole array is that
of the stored rows (`readEmbeddings_rows`).
-/

namespace AnalyticsEngine.SimilarArtists
open Library EmbeddingPipeline

section
variable {κ : Type*} [LinearOrder κ]

/- `_COUNT_EMBEDDINGS_SQL`. -/
def countEmbeddings (table : List (EmbeddingRow Byte)) (modelVersion : String) : ℕ :=
  (table.filter fun row => row.modelVersion = modelVersion).length

/- `_READ_EMBEDDINGS_SQL`. The collation orders ids by their `collate`. -/
def selectEmbeddings (collate : String → κ) (table : List (EmbeddingRow Byte))
    (modelVersion : String) : List (EmbeddingRow Byte) :=
  (table.filter fun row => row.modelVersion = modelVersion).insertionSort
    fun a b => collate a.artistId ≤ collate b.artistId

end

/-- `vectors`, the number of its columns and its rows. -/
structure Vectors where
  columns : ℕ
  rows : List (List Word)

/-- `np.empty`. -/
def emptyVectors (junk : ℕ → ℕ → Word) (count columns : ℕ) : Vectors where
  columns := columns
  rows := (List.range count).map fun r => (List.range columns).map (junk r)

/-- An array as one of `count` rows and `columns` columns, `none` where NumPy cannot broadcast. -/
def broadcast (count columns : ℕ) (block : List (List Word)) : Option (List (List Word)) :=
  let width := (block.headD []).length
  if (block.length = count ∨ block.length = 1) ∧ (width = columns ∨ width = 1) then
    some ((List.range count).map fun i => (List.range columns).map fun j =>
      (block.getD (if block.length = 1 then 0 else i) []).getD (if width = 1 then 0 else j) 0)
  else none

/-- `vectors[start:stop] = block`. -/
def Vectors.assign (vectors : Vectors) (start stop : ℕ) (block : List (List Word)) :
    Except DecodeError Vectors :=
  match broadcast ((vectors.rows.take stop).drop start).length vectors.columns block with
  | none => .error (.valueError "could not broadcast input array")
  | some rows => .ok { vectors with
      rows := vectors.rows.take start ++ rows ++ vectors.rows.drop stop }

structure ReadState where
  ids : List String
  vectors : Option Vectors

/-- One round of the loop. -/
def readBatch (count : ℕ) (junk : ℕ → ℕ → Word) (s : ReadState)
    (batch : List (EmbeddingRow Byte)) : Except DecodeError ReadState := do
  let parsed ← parseHalfvecBlock (batch.map EmbeddingRow.embedding)
  let vectors := s.vectors.getD (emptyVectors junk count (parsed.headD []).length)
  let vectors ← vectors.assign s.ids.length (s.ids.length + batch.length) parsed
  return ⟨s.ids ++ batch.map EmbeddingRow.artistId, some vectors⟩

/-- `read_embeddings`, where `count` is the first statement's answer and `batches` what
`fetchmany` returned before it returned nothing. -/
def readEmbeddings (count : ℕ) (junk : ℕ → ℕ → Word) (batches : List (List (EmbeddingRow Byte))) :
    Except DecodeError (List String × List (List Word)) := do
  let s ← batches.foldlM (readBatch count junk) ⟨[], none⟩
  match s.vectors with
  | none => return ([], [])
  | some vectors => return (s.ids, vectors.rows.take s.ids.length)

/-! ### One round -/

theorem broadcast_self {columns : ℕ} {block : List (List Word)}
    (hhead : (block.headD []).length = columns) (h : ∀ row ∈ block, row.length = columns) :
    broadcast block.length columns block = some block := by
  unfold broadcast
  dsimp only
  rw [hhead, if_pos ⟨Or.inl rfl, Or.inl rfl⟩, Option.some.injEq]
  apply List.ext_getElem
  · simp
  · intro i hi hi'
    have hrow := h _ (List.getElem_mem hi')
    have hindex : (if block.length = 1 then 0 else i) = i := by
      split <;> omega
    rw [List.getElem_map, List.getElem_range, hindex, List.getD_eq_getElem block [] hi']
    apply List.ext_getElem
    · simp [hrow]
    · intro j hj hj'
      have hcolumn : (if columns = 1 then 0 else j) = j := by
        split <;> omega
      rw [List.getElem_map, List.getElem_range, hcolumn, List.getD_eq_getElem _ 0 hj']

theorem emptyVectors_length (junk : ℕ → ℕ → Word) (count columns : ℕ) :
    (emptyVectors junk count columns).rows.length = count := by
  unfold emptyVectors
  rw [List.length_map, List.length_range]

/-- The rows read so far. -/
structure Holds (count columns : ℕ) (ids : List String) (rows : List (List Word))
    (s : ReadState) : Prop where
  ids_eq : s.ids = ids
  length_eq : rows.length = ids.length
  vectors_eq : ∀ vectors, s.vectors = some vectors → vectors.columns = columns ∧
    vectors.rows.length = count ∧ vectors.rows.take ids.length = rows
  unread : s.vectors = none → ids = []

theorem holds_initial (count columns : ℕ) : Holds count columns [] [] ⟨[], none⟩ where
  ids_eq := rfl
  length_eq := rfl
  vectors_eq := by
    intro vectors h
    cases h
  unread := fun _ => rfl

/-- A stored row of an artist. -/
def Stores (columns : ℕ) (values : List Word) (row : EmbeddingRow Byte) : Prop :=
  values.length = columns ∧ row.embedding = bytesOf (headerRow columns values)

section
variable {count columns : ℕ} (junk : ℕ → ℕ → Word)

theorem headerRow_row (hmax : columns ≤ 65535) {values : List Word}
    (h : values.length = columns) : HeaderRow columns (headerRow columns values) where
  length := by
    unfold headerRow
    rw [List.length_cons, List.length_cons, h]
  dimensions := by
    unfold headerRow
    rw [List.getD_cons_zero, BitVec.toNat_ofNat]
    exact Nat.mod_eq_of_lt (by omega)
  unused := rfl

theorem parseHalfvecBlock_stored (hmin : 1 ≤ columns) (hmax : columns ≤ 65535)
    {rows : List (List Word)} {batch : List (EmbeddingRow Byte)} (hne : batch ≠ [])
    (hstored : List.Forall₂ (Stores columns) rows batch) :
    parseHalfvecBlock (batch.map EmbeddingRow.embedding) = .ok rows := by
  have hblobs : batch.map EmbeddingRow.embedding =
      (rows.map (headerRow columns)).map bytesOf := by
    clear hne
    induction hstored with
    | nil => rfl
    | cons hrow _ ih => rw [List.map_cons, List.map_cons, List.map_cons, ih, hrow.2]
  have hheader : ∀ row ∈ rows.map (headerRow columns), HeaderRow columns row := by
    clear hne hblobs
    induction hstored with
    | nil => simp
    | cons hrow _ ih => exact List.forall_mem_cons.mpr ⟨headerRow_row hmax hrow.1, ih⟩
  cases hstored with
  | nil => exact absurd rfl hne
  | @cons values row rows batch hrow hrest =>
    have hlength : (bytesOf (headerRow columns values)).length / 2 = columns + 2 := by
      rw [length_bytesOf, (headerRow_row hmax hrow.1).length]
      omega
    rw [hblobs, List.map_cons, List.map_cons]
    rw [parseHalfvecBlock_rows hmin hlength _ hheader]
    · rw [List.map_map]
      congr 1
      exact List.map_id _
    · rw [bytesOf_flatten]
      rfl
    · simp

theorem stored_length {rows : List (List Word)} {batch : List (EmbeddingRow Byte)}
    (hstored : List.Forall₂ (Stores columns) rows batch) : ∀ row ∈ rows, row.length = columns := by
  induction hstored with
  | nil => simp
  | cons hrow _ ih => exact List.forall_mem_cons.mpr ⟨hrow.1, ih⟩

theorem Holds.current {ids : List String} {done : List (List Word)} {s : ReadState}
    (hs : Holds count columns ids done s) :
    (s.vectors.getD (emptyVectors junk count columns)).columns = columns ∧
      (s.vectors.getD (emptyVectors junk count columns)).rows.length = count ∧
      (s.vectors.getD (emptyVectors junk count columns)).rows.take ids.length = done := by
  cases hvectors : s.vectors with
  | none =>
    have hids := hs.unread hvectors
    have hdone := hs.length_eq
    rw [hids, List.length_nil] at hdone
    refine ⟨rfl, emptyVectors_length junk count columns, ?_⟩
    rw [hids, List.eq_nil_of_length_eq_zero hdone]
    rfl
  | some vectors => exact hs.vectors_eq vectors hvectors

theorem assign_rows {vectors : Vectors} (start : ℕ) {rows : List (List Word)} (hne : rows ≠ [])
    (hwidth : ∀ row ∈ rows, row.length = vectors.columns)
    (hstop : start + rows.length ≤ vectors.rows.length) :
    vectors.assign start (start + rows.length) rows = .ok ⟨vectors.columns,
      vectors.rows.take start ++ rows ++ vectors.rows.drop (start + rows.length)⟩ := by
  have hslice : ((vectors.rows.take (start + rows.length)).drop start).length = rows.length := by
    rw [List.length_drop, List.length_take]
    omega
  have hhead : (rows.headD []).length = vectors.columns := by
    cases rows with
    | nil => exact absurd rfl hne
    | cons row rows => exact hwidth row List.mem_cons_self
  unfold Vectors.assign
  rw [hslice, broadcast_self hhead hwidth]

theorem readBatch_holds (hmin : 1 ≤ columns) (hmax : columns ≤ 65535) {ids : List String}
    {done rows : List (List Word)} {s : ReadState} (hs : Holds count columns ids done s)
    {batch : List (EmbeddingRow Byte)} (hne : batch ≠ [])
    (hstored : List.Forall₂ (Stores columns) rows batch)
    (hcount : ids.length + batch.length ≤ count) :
    ∃ s', readBatch count junk s batch = .ok s' ∧ s'.vectors ≠ none ∧
      Holds count columns (ids ++ batch.map EmbeddingRow.artistId) (done ++ rows) s' := by
  have hparse := parseHalfvecBlock_stored hmin hmax hne hstored
  have hlength : rows.length = batch.length := hstored.length_eq
  have hwidth := stored_length hstored
  have hrows : rows ≠ [] := by
    rintro rfl
    exact hne (List.eq_nil_of_length_eq_zero hlength.symm)
  have hhead : (rows.headD []).length = columns := by
    cases rows with
    | nil => exact absurd rfl hrows
    | cons row rows => exact hwidth row List.mem_cons_self
  have hcurrent : (s.vectors.getD (emptyVectors junk count (rows.headD []).length)).columns =
      columns ∧ (s.vectors.getD (emptyVectors junk count (rows.headD []).length)).rows.length =
        count ∧ (s.vectors.getD (emptyVectors junk count (rows.headD []).length)).rows.take
          ids.length = done := by
    rw [hhead]
    exact hs.current junk
  generalize hvectors : s.vectors.getD (emptyVectors junk count (rows.headD []).length) = vectors
    at hcurrent
  obtain ⟨hcolumns, hfull, hdone⟩ := hcurrent
  rw [← hcolumns] at hwidth
  have hassign := assign_rows ids.length hrows hwidth (by omega)
  refine ⟨⟨ids ++ batch.map EmbeddingRow.artistId, some ⟨vectors.columns,
    vectors.rows.take ids.length ++ rows ++ vectors.rows.drop (ids.length + rows.length)⟩⟩,
    ?_, Option.some_ne_none _, ?_⟩
  · unfold readBatch
    rw [hparse]
    change (Vectors.assign _ _ _ _ >>= _) = _
    rw [hvectors, hs.ids_eq, ← hlength, hassign]
    rfl
  · have hlengths : (ids ++ batch.map EmbeddingRow.artistId).length = ids.length + rows.length := by
      rw [List.length_append, List.length_map, hlength]
    refine ⟨rfl, ?_, ?_, ?_⟩
    · rw [hlengths, List.length_append, hs.length_eq]
    · intro vectors' heq
      cases heq
      refine ⟨hcolumns, ?_, ?_⟩
      · simp only [List.length_append, List.length_take, List.length_drop]
        omega
      · rw [hdone, hlengths]
        apply List.take_left'
        rw [List.length_append, hs.length_eq]
    · intro hnone
      cases hnone

theorem readBatches_holds (hmin : 1 ≤ columns) (hmax : columns ≤ 65535) {ids : List String}
    {done rows : List (List Word)} {s : ReadState} (hs : Holds count columns ids done s)
    {batches : List (List (EmbeddingRow Byte))} (hne : ∀ batch ∈ batches, batch ≠ [])
    (hstored : List.Forall₂ (Stores columns) rows batches.flatten)
    (hcount : ids.length + batches.flatten.length ≤ count) :
    ∃ s', batches.foldlM (readBatch count junk) s = .ok s' ∧
      Holds count columns (ids ++ batches.flatten.map EmbeddingRow.artistId) (done ++ rows) s' := by
  induction batches generalizing ids done rows s with
  | nil =>
    rw [List.flatten_nil] at hstored
    cases hstored
    refine ⟨s, rfl, ?_⟩
    simpa using hs
  | cons batch batches ih =>
    rw [List.flatten_cons, List.length_append] at hcount
    rw [List.flatten_cons] at hstored
    have hfirst := List.forall₂_take_append rows batch batches.flatten hstored
    have hrest := List.forall₂_drop_append rows batch batches.flatten hstored
    obtain ⟨s', hs', _, hholds⟩ := readBatch_holds junk hmin hmax hs
      (hne batch List.mem_cons_self) hfirst (by omega)
    have hlater : (ids ++ batch.map EmbeddingRow.artistId).length + batches.flatten.length ≤
        count := by
      rw [List.length_append, List.length_map]
      omega
    obtain ⟨last, hlast, hholds'⟩ :=
      ih hholds (fun b hb => hne b (List.mem_cons_of_mem _ hb)) hrest hlater
    refine ⟨last, ?_, ?_⟩
    · rw [List.foldlM_cons, hs']
      exact hlast
    · rw [List.append_assoc, List.append_assoc, List.take_append_drop] at hholds'
      rw [List.flatten_cons, List.map_append]
      exact hholds'

/-- Reading a version whose stored rows hold `rows` returns these with their ids. -/
theorem readEmbeddings_rows (hmin : 1 ≤ columns) (hmax : columns ≤ 65535)
    {rows : List (List Word)} {batches : List (List (EmbeddingRow Byte))}
    (hne : ∀ batch ∈ batches, batch ≠ [])
    (hstored : List.Forall₂ (Stores columns) rows batches.flatten) :
    readEmbeddings batches.flatten.length junk batches =
      .ok (batches.flatten.map EmbeddingRow.artistId, rows) := by
  have hlength := hstored.length_eq
  obtain ⟨s, hs, hholds⟩ := readBatches_holds junk hmin hmax
    (holds_initial batches.flatten.length columns) hne hstored (by simp)
  rw [List.nil_append, List.nil_append] at hholds
  unfold readEmbeddings
  rw [hs]
  change (match s.vectors with | none => _ | some vectors => _) = _
  cases hvectors : s.vectors with
  | none =>
    have hids := hholds.unread hvectors
    have hrows := hholds.length_eq
    rw [hids, List.length_nil] at hrows
    rw [hids, List.eq_nil_of_length_eq_zero hrows]
    rfl
  | some vectors =>
    have hrows := (hholds.vectors_eq vectors hvectors).2.2
    dsimp only
    rw [hholds.ids_eq, hrows]
    rfl

end

/-! ### Written and read back -/

section
variable {κ : Type*} [LinearOrder κ]

def byId (collate : String → κ) (a b : String × List Word) : Prop := collate a.1 ≤ collate b.1

instance (collate : String → κ) : DecidableRel (byId collate) :=
  fun a b => inferInstanceAs (Decidable (collate a.1 ≤ collate b.1))

theorem byId_total (collate : String → κ) : Std.Total (byId collate) :=
  ⟨fun a b => le_total (collate a.1) (collate b.1)⟩

theorem byId_trans (collate : String → κ) : IsTrans (String × List Word) (byId collate) :=
  ⟨fun _ _ _ hab hbc => le_trans (α := κ) hab hbc⟩

variable {fields : RowMeta} {artistIds : List String} {vectors : HalfArray}

theorem filter_written (table : List (EmbeddingRow Byte)) :
    (((table.filter fun row => row.modelVersion ≠ fields.modelVersion) ++
      artistRows fields artistIds vectors).filter fun row =>
        row.modelVersion = fields.modelVersion) = artistRows fields artistIds vectors := by
  have hkept : ((table.filter fun row => row.modelVersion ≠ fields.modelVersion).filter fun row =>
      row.modelVersion = fields.modelVersion) = [] := by
    apply List.filter_eq_nil_iff.mpr
    intro row hrow
    have hne := of_decide_eq_true (List.mem_filter.mp hrow).2
    simpa using hne
  have hwritten : ((artistRows fields artistIds vectors).filter fun row =>
      row.modelVersion = fields.modelVersion) = artistRows fields artistIds vectors := by
    apply List.filter_eq_self.mpr
    intro row hrow
    exact decide_eq_true (mem_artistRows hrow).1
  rw [List.filter_append, hkept, hwritten, List.nil_append]

theorem selectEmbeddings_written (collate : String → κ) (table : List (EmbeddingRow Byte)) :
    selectEmbeddings collate ((table.filter fun row => row.modelVersion ≠ fields.modelVersion) ++
      artistRows fields artistIds vectors) fields.modelVersion =
        ((artistIds.zip vectors.rows).insertionSort (byId collate)).map fun x =>
          fields.row x.1 (payload vectors x.2) := by
  unfold selectEmbeddings
  rw [filter_written]
  exact (List.map_insertionSort (byId collate)
    (fun a b : EmbeddingRow Byte => collate a.artistId ≤ collate b.artistId) _ _
    fun _ _ _ _ => Iff.rfl).symm

theorem readBack_exact (collate : String → κ) (column : List Byte → Option (List Byte))
    (copyBatchSize : ℕ) (fields : RowMeta) (artistIds : List String) (vectors : HalfArray)
    (table : List (EmbeddingRow Byte)) (hsize : 1 ≤ copyBatchSize) (hmin : 1 ≤ vectors.columns)
    (hmax : vectors.columns ≤ 65535) (hcount : vectors.rows.length = artistIds.length)
    (hids : artistIds.Nodup)
    (hcolumn : ∀ row ∈ vectors.rows, column (payload vectors row) = some (payload vectors row)) :
    ∃ table', writeEmbeddings column copyBatchSize fields artistIds vectors table =
        .ok (artistIds.length, table') ∧
      ∀ junk batches, (∀ batch ∈ batches, batch ≠ []) →
        batches.flatten = selectEmbeddings collate table' fields.modelVersion →
        ∃ ids rows, readEmbeddings (countEmbeddings table' fields.modelVersion) junk batches =
            .ok (ids, rows) ∧
          rows.length = ids.length ∧ (ids.zip rows).Perm (artistIds.zip vectors.rows) ∧
            ids.Pairwise (fun a b => collate a ≤ collate b) ∧
              (artistIds.Pairwise (fun a b => collate a ≤ collate b) →
                ids = artistIds ∧ rows = vectors.rows) := by
  refine ⟨_, writeEmbeddings_ok table hsize hmax hcount hids hcolumn, ?_⟩
  intro junk batches hne hbatches
  rw [selectEmbeddings_written] at hbatches
  have hperm := List.perm_insertionSort (byId collate) (artistIds.zip vectors.rows)
  have hsorted := @List.pairwise_insertionSort _ (byId collate) _ (byId_total collate)
    (byId_trans collate) (artistIds.zip vectors.rows)
  have hsame : (artistIds.zip vectors.rows).Pairwise (byId collate) →
      (artistIds.zip vectors.rows).insertionSort (byId collate) = artistIds.zip vectors.rows :=
    List.Pairwise.insertionSort_eq
  generalize (artistIds.zip vectors.rows).insertionSort (byId collate) = pairs
    at hbatches hperm hsorted hsame
  have hstored : List.Forall₂ (Stores vectors.columns) (pairs.map Prod.snd) batches.flatten := by
    rw [hbatches, List.forall₂_map_left_iff, List.forall₂_map_right_iff, List.forall₂_same]
    intro x hx
    have hzip := (hperm.mem_iff.mp hx)
    exact ⟨vectors.row_length x.2 (List.of_mem_zip hzip).2, rfl⟩
  have hlength : batches.flatten.length = countEmbeddings
      ((table.filter fun row => row.modelVersion ≠ fields.modelVersion) ++
        artistRows fields artistIds vectors) fields.modelVersion := by
    unfold countEmbeddings
    rw [filter_written, hbatches, List.length_map, hperm.length_eq]
    unfold artistRows
    rw [List.length_map]
  have hread := readEmbeddings_rows junk hmin hmax hne hstored
  have hreadIds : batches.flatten.map EmbeddingRow.artistId = pairs.map Prod.fst := by
    rw [hbatches, List.map_map]
    rfl
  rw [hlength, hreadIds] at hread
  refine ⟨pairs.map Prod.fst, pairs.map Prod.snd, hread, ?_, ?_, ?_, ?_⟩
  · rw [List.length_map, List.length_map]
  · have hzip : (pairs.map Prod.fst).zip (pairs.map Prod.snd) = pairs :=
      List.zip_map'.trans (List.map_id pairs)
    rw [hzip]
    exact hperm
  · exact List.pairwise_map.mpr hsorted
  · intro hascending
    have hzip : (artistIds.zip vectors.rows).Pairwise (byId collate) := by
      have hids' := List.map_fst_zip hcount.ge
      rw [← hids', List.pairwise_map] at hascending
      exact hascending
    rw [hsame hzip]
    exact ⟨List.map_fst_zip hcount.ge, List.map_snd_zip hcount.le⟩

/- Two rows of one column, the second artist's id before the first's. -/
def twoRows : HalfArray where
  columns := 1
  rows := [[0x3c00], [0x4000]]
  row_length := by decide

def someLoad : RowMeta := ⟨"v1", "d1", ⟨2026, 1, 1⟩, 0⟩

theorem readBack_reordered :
    ∃ table', writeEmbeddings some 1 someLoad ["b", "a"] twoRows [] = .ok (2, table') ∧
      readEmbeddings (countEmbeddings table' "v1") (fun _ _ => 0)
          [selectEmbeddings (fun id => id) table' "v1"] =
        .ok (["a", "b"], [[0x4000], [0x3c00]]) ∧ [[0x4000], [0x3c00]] ≠ twoRows.rows := by
  refine ⟨_, rfl, ?_, ?_⟩
  · decide
  · decide

theorem readBack_exact_two :
    ∃ table', writeEmbeddings some 1 someLoad ["b", "a"] twoRows [] = .ok (2, table') ∧
      ∀ junk batches, (∀ batch ∈ batches, batch ≠ []) →
        batches.flatten = selectEmbeddings (fun id => id) table' "v1" →
        ∃ ids rows, readEmbeddings (countEmbeddings table' "v1") junk batches = .ok (ids, rows) ∧
          rows.length = ids.length ∧ (ids.zip rows).Perm (["b", "a"].zip twoRows.rows) ∧
            ids.Pairwise (fun a b => a ≤ b) ∧
              (["b", "a"].Pairwise (fun a b => a ≤ b) → ids = ["b", "a"] ∧ rows = twoRows.rows) :=
  readBack_exact (fun id => id) some 1 someLoad ["b", "a"] twoRows [] (by decide) (by decide)
    (by decide) rfl (by decide) fun _ _ => rfl

end

end AnalyticsEngine.SimilarArtists
