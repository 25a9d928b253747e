import AnalyticsEngine.DumpGraph.Records

/-!
# Workers over chunks (scripts/embeddings_from_dump.py)

`_build_same_as_map` merges the partial maps of the chunks in whatever order they arrive;
`_run_pool` collects the results of the chunks in their order. The chunks hold the records of the
dump (`chunkRecords_chunks`), so that the two passes read what the record list gives directly
(`buildSameAsMap_ids`, `runPool_exact`).
-/

namespace AnalyticsEngine.DumpGraph
open Library Library.Xml Embeddings

section
variable (names : NameTable)

/-- Whether `_reject_entity_declarations` raises. -/
def hasDeclaration (chunk : Bytes) : Bool := entityMarkers.any fun marker => marker <:+: chunk

/-- The records that a worker reads; none in a chunk that is refused or does not parse. -/
def chunkRecords (tag : Str) (chunk : Bytes) : List Element :=
  if hasDeclaration chunk then []
  else match fromstring names (wrapped chunk) with
    | none => []
    | some root => root.findall tag

/-- `_pass1_same_as_chunk`. -/
def pass1SameAsChunk (chunk : Bytes) : SameAs :=
  (chunkRecords names "release".toList chunk).foldl addSameAs []

def parseReleaseChunk (nodeKey : Char → Str → U64) (categorizeRole : Str → Str) (sameAs : SameAs)
    (order : SetOrder) (chunk : Bytes) : ChunkResult :=
  (chunkRecords names "release".toList chunk).foldl
    (parseRelease nodeKey categorizeRole sameAs order) .new

def parseMasterChunk (nodeKey : Char → Str → U64) (chunk : Bytes) : ChunkResult :=
  (chunkRecords names "master".toList chunk).foldl (parseMaster nodeKey) .new

/-- No limit is 0. -/
def limited (limitChunks : ℕ) (source : List Bytes) : List Bytes :=
  if limitChunks = 0 then source else source.take limitChunks

/-- The merge loop of `_build_same_as_map`. -/
def mergePartials (arrived : List SameAs) : SameAs :=
  arrived.foldl (fun sameAs rows => upsertAll Prod.fst union rows sameAs) []

/-- `_build_same_as_map`: `imap_unordered` gives the results of the chunks in any order. -/
def BuildsSameAsMap (chunkBytes limitChunks : ℕ) (dump : Bytes) (sameAs : SameAs) : Prop :=
  ∃ arrived : List SameAs,
    arrived.Perm ((limited limitChunks (chunks chunkBytes (ascii "release") dump)).map
      (pass1SameAsChunk names)) ∧
    sameAs = mergePartials arrived

end

/-! ### Collecting the results -/

structure PoolResult where
  sources : Relation → List (List U64)
  targets : Relation → List (List U64)
  artistIds : Finset Str
  count : ℕ

def PoolResult.new : PoolResult := ⟨fun _ => [], fun _ => [], ∅, 0⟩

/-- Two columns for each relation that has pairs. -/
def PoolResult.collect (pool : PoolResult) (result : ChunkResult) : PoolResult where
  sources name := if result.edges name = [] then pool.sources name
    else pool.sources name ++ [(result.edges name).map Prod.fst]
  targets name := if result.edges name = [] then pool.targets name
    else pool.targets name ++ [(result.edges name).map Prod.snd]
  artistIds := pool.artistIds ∪ result.artistIds.toFinset
  count := pool.count + result.count

/-- `_run_pool`, where `imap` keeps the order of the chunks and each is parsed by its worker. -/
def runPool (chunkBytes : ℕ) (recordTag : Bytes) (parseChunk : ℕ → Bytes → ChunkResult)
    (limitChunks : ℕ) (dump : Bytes) : PoolResult :=
  ((limited limitChunks (chunks chunkBytes recordTag dump)).zipIdx.map fun chunk =>
    parseChunk chunk.2 chunk.1).foldl PoolResult.collect .new

/-- The columns are those of the edges of the result, in some order. -/
structure Collected (pool : PoolResult) (result : ChunkResult) : Prop where
  edges : ∀ name, ∃ pairs : List (U64 × U64), pairs.Perm (result.edges name) ∧
    (pool.sources name).flatten = pairs.map Prod.fst ∧
    (pool.targets name).flatten = pairs.map Prod.snd
  artistIds : pool.artistIds = result.artistIds.toFinset
  count : pool.count = result.count

theorem collected_new : Collected .new .new := ⟨fun _ => ⟨[], .refl _, rfl, rfl⟩, rfl, rfl⟩

theorem collected_same {pool : PoolResult} {a b : ChunkResult} (h : Collected pool a)
    (hsame : a.Same b) : Collected pool b := by
  refine ⟨fun name => ?_, ?_, h.count.trans hsame.count⟩
  · obtain ⟨pairs, hpairs, hcolumns⟩ := h.edges name
    exact ⟨pairs, hpairs.trans (hsame.edges name), hcolumns⟩
  · rw [h.artistIds]
    exact List.toFinset_eq_of_perm _ _ hsame.artistIds

theorem column_flatten {α : Type*} (column : U64 × U64 → α) (columns : List (List α))
    (pairs : List (U64 × U64)) :
    (if pairs = [] then columns else columns ++ [pairs.map column]).flatten =
      columns.flatten ++ pairs.map column := by
  split_ifs with hempty
  · rw [hempty, List.map_nil, List.append_nil]
  · rw [List.flatten_append, List.flatten_singleton]

theorem collected_collect {pool : PoolResult} {total result : ChunkResult} (h : Collected pool total) :
    Collected (pool.collect result) (total.append result) := by
  refine ⟨fun name => ?_, ?_, ?_⟩
  · obtain ⟨pairs, hpairs, hsources, htargets⟩ := h.edges name
    refine ⟨pairs ++ result.edges name, hpairs.append_right _, ?_, ?_⟩
    · rw [List.map_append, ← hsources]
      exact column_flatten Prod.fst _ _
    · rw [List.map_append, ← htargets]
      exact column_flatten Prod.snd _ _
  · unfold PoolResult.collect ChunkResult.append
    rw [List.toFinset_append, h.artistIds]
  · unfold PoolResult.collect ChunkResult.append
    rw [h.count]

theorem collected_foldl {results : List ChunkResult} {pool : PoolResult} {total : ChunkResult}
    (h : Collected pool total) :
    Collected (results.foldl PoolResult.collect pool) (results.foldl ChunkResult.append total) := by
  induction results generalizing pool total with
  | nil => exact h
  | cons result results ih => exact ih (collected_collect h)

/-! ### The records of the dump -/

section
variable {names : NameTable} {recordTag dump lead : Bytes} {root : Element}

theorem hasDeclaration_infix (hplain : ∀ marker ∈ entityMarkers, ¬marker <:+: dump) {chunk : Bytes}
    (hchunk : chunk <:+: dump) : hasDeclaration chunk = false := by
  unfold hasDeclaration
  rw [List.any_eq_false]
  intro marker hmarker
  rw [decide_eq_true_iff]
  exact fun hin => hplain marker hmarker (hin.trans hchunk)

theorem findall_flatMap (roots : List Element) (tag : Str) :
    roots.flatMap (fun root => root.findall tag) =
      (roots.flatMap Element.children).filter fun child => child.tag = tag := by
  rw [List.filter_flatMap]
  rfl

theorem chunkRecords_body {tag : Str} {body : Bytes} (hplain : hasDeclaration body = false)
    (hroot : fromstring names (wrapped body) = some root) :
    chunkRecords names tag body = root.findall tag := by
  unfold chunkRecords
  rw [hplain, hroot]
  rfl

theorem chunkRecords_none {tag : Str} {chunk : Bytes}
    (hnone : fromstring names (wrapped chunk) = none) : chunkRecords names tag chunk = [] := by
  unfold chunkRecords
  rw [hnone]
  exact ite_self []

theorem chunkRecords_bodies {tag : Str} {bodies : List Bytes} {roots : List Element}
    (hplain : ∀ body ∈ bodies, hasDeclaration body = false)
    (hroots : bodies.map (fun body => fromstring names (wrapped body)) = roots.map some) :
    bodies.flatMap (chunkRecords names tag) = roots.flatMap fun root => root.findall tag := by
  induction bodies generalizing roots with
  | nil =>
    obtain rfl := List.map_eq_nil_iff.mp hroots.symm
    rfl
  | cons body bodies ih =>
    cases roots with
    | nil => cases hroots
    | cons root roots =>
      obtain ⟨hroot, hlater⟩ := List.cons.inj hroots
      rw [List.flatMap_cons, List.flatMap_cons,
        chunkRecords_body (hplain body List.mem_cons_self) hroot,
        ih (fun b hb => hplain b (List.mem_cons_of_mem _ hb)) hlater]

theorem chunkRecords_chunks (hdump : RecordDump names recordTag dump lead root) {chunkBytes : ℕ}
    (hblock : (lead ++ openMarker recordTag).length ≤ chunkBytes) (tag : Str) :
    (chunks chunkBytes recordTag dump).flatMap (chunkRecords names tag) = root.findall tag := by
  obtain ⟨bodies, rest, roots, hchunks, hflatten, hroots, hchildren, hlast⟩ :=
    chunks_exact hdump hblock
  have hrest : (lastChunk rest).flatMap (chunkRecords names tag) = [] :=
    List.flatMap_eq_nil_iff.mpr fun chunk hchunk => chunkRecords_none (hlast chunk hchunk)
  have hplain : ∀ body ∈ bodies, hasDeclaration body = false := by
    intro body hbody
    apply hasDeclaration_infix hdump.noDeclaration
    have hrecords := (List.infix_of_mem_flatten hbody).trans (List.suffix_append lead _).isInfix
    rw [hflatten]
    exact hrecords.trans (List.prefix_append _ rest).isInfix
  rw [hchunks, List.flatMap_append, hrest, List.append_nil, chunkRecords_bodies hplain hroots,
    findall_flatMap, hchildren]
  rfl

end

/-! ### Pass 1 -/

/-- The ids given for a name by the release-level and the track-level credits of some records. -/
def namedIds (records : List Element) (name : Str) : Finset Str :=
  (records.flatMap fun rel =>
    (releaseExtraartists (rel.find "extraartists".toList) ++
      (iterTrackCredits (rel.find "tracklist".toList)).map TrackCredit.credit).filterMap fun credit =>
        if credit.name = name then credit.xmlId else none).toFinset

theorem creditIds_gives {credits : List Credit} {name id : Str} :
    (creditIds credits).Gives name id ↔
      ∃ credit ∈ credits, (if credit.name = name then credit.xmlId else none) = some id := by
  unfold creditIds
  constructor
  · rintro ⟨row, hrow, hname, hid⟩
    obtain ⟨credit, hcredit, hmap⟩ := List.mem_filterMap.mp hrow
    obtain ⟨xmlId, hxml, rfl⟩ := Option.map_eq_some_iff.mp hmap
    obtain rfl := Finset.mem_singleton.mp hid
    refine ⟨credit, hcredit, ?_⟩
    rw [if_pos hname, hxml]
  · rintro ⟨credit, hcredit, hgiven⟩
    split_ifs at hgiven with hname
    refine ⟨(credit.name, {id}), List.mem_filterMap.mpr ⟨credit, hcredit, ?_⟩, hname,
      Finset.mem_singleton_self id⟩
    rw [hgiven]
    rfl

theorem sameAsRows_inhabited (rel : Element) : ∀ row ∈ sameAsRows rel, row.2 ≠ ∅ := by
  have hcredits : ∀ credits : List Credit, ∀ row ∈ creditIds credits, row.2 ≠ ∅ := by
    intro credits row hrow
    obtain ⟨credit, _, hmap⟩ := List.mem_filterMap.mp hrow
    obtain ⟨xmlId, _, rfl⟩ := Option.map_eq_some_iff.mp hmap
    exact Finset.singleton_ne_empty xmlId
  intro row hrow
  unfold sameAsRows at hrow
  split_ifs at hrow
  · cases hrow
  · rcases List.mem_append.mp hrow with hrow | hrow
    · exact hcredits _ row hrow
    · exact hcredits _ row hrow

theorem mem_namedIds {records : List Element} {name id : Str} :
    id ∈ namedIds (records.filter fun rel => (rel.get "id".toList).isSome) name ↔
      ∃ rel ∈ records, (sameAsRows rel).Gives name id := by
  unfold namedIds
  rw [List.mem_toFinset, List.mem_flatMap]
  have hrecord : ∀ rel : Element, (sameAsRows rel).Gives name id ↔
      (rel.get "id".toList).isSome ∧ id ∈ (releaseExtraartists (rel.find "extraartists".toList) ++
        (iterTrackCredits (rel.find "tracklist".toList)).map TrackCredit.credit).filterMap
          fun credit => if credit.name = name then credit.xmlId else none := by
    intro rel
    rw [List.filterMap_append, List.mem_append, List.mem_filterMap, List.mem_filterMap,
      ← creditIds_gives, ← creditIds_gives, ← gives_append]
    unfold sameAsRows
    cases rel.get "id".toList with
    | none => simp [SameAs.Gives]
    | some _ => simp
  simp only [hrecord, List.mem_filter, and_assoc]

/-- The rows of many records, added one record after the other. -/
theorem foldl_addSameAs (records : List Element) (sameAs : SameAs) :
    records.foldl addSameAs sameAs = upsertAll Prod.fst union (records.flatMap sameAsRows) sameAs := by
  unfold addSameAs upsertAll
  rw [List.foldl_flatMap]

theorem mergePartials_eq (arrived : List SameAs) :
    mergePartials arrived = upsertAll Prod.fst union arrived.flatten [] := by
  unfold mergePartials upsertAll
  rw [List.foldl_flatten]

theorem proper_nil : SameAs.Proper [] := ⟨List.nodup_nil, fun _ h => absurd h List.not_mem_nil⟩

theorem pass1_proper (names : NameTable) (chunk : Bytes) : (pass1SameAsChunk names chunk).Proper := by
  unfold pass1SameAsChunk
  rw [foldl_addSameAs]
  apply proper_upsertAll proper_nil
  intro row hrow
  obtain ⟨rel, _, hrel⟩ := List.mem_flatMap.mp hrow
  exact sameAsRows_inhabited rel row hrel

theorem pass1_gives {names : NameTable} {chunk : Bytes} {name id : Str} :
    (pass1SameAsChunk names chunk).Gives name id ↔
      ∃ rel ∈ chunkRecords names "release".toList chunk, (sameAsRows rel).Gives name id := by
  unfold pass1SameAsChunk
  rw [foldl_addSameAs, gives_upsertAll, gives_flatMap]
  simp [SameAs.Gives]

/-- Whatever order the partial maps arrive in, each name has the ids that the records with the
attribute `id` give it. -/
theorem buildSameAsMap_get {names : NameTable} {dump lead : Bytes} {root : Element}
    (hdump : RecordDump names (ascii "release") dump lead root) {chunkBytes : ℕ}
    (hblock : (lead ++ openMarker (ascii "release")).length ≤ chunkBytes) {sameAs : SameAs}
    (hbuild : BuildsSameAsMap names chunkBytes 0 dump sameAs) (name : Str) :
    sameAs.get name =
      let ids := namedIds ((root.findall "release".toList).filter fun rel =>
        (rel.get "id".toList).isSome) name
      if ids = ∅ then none else some ids := by
  obtain ⟨arrived, hperm, rfl⟩ := hbuild
  have hmem : ∀ rows, rows ∈ arrived ↔
      ∃ chunk ∈ chunks chunkBytes (ascii "release") dump, pass1SameAsChunk names chunk = rows := by
    intro rows
    rw [hperm.mem_iff, List.mem_map]
    rfl
  rw [mergePartials_eq]
  refine get_eq (proper_upsertAll proper_nil ?_) fun id => ?_
  · intro row hrow
    obtain ⟨rows, hrows, hrow⟩ := List.mem_flatten.mp hrow
    obtain ⟨chunk, _, rfl⟩ := (hmem rows).mp hrows
    exact (pass1_proper names chunk).inhabited row hrow
  · have hnone : ¬SameAs.Gives [] name id := fun ⟨_, h, _⟩ => absurd h List.not_mem_nil
    rw [mem_namedIds, ← chunkRecords_chunks hdump hblock, gives_upsertAll, or_iff_right hnone,
      ← List.flatMap_id, gives_flatMap]
    constructor
    · rintro ⟨rel, hrel, hgives⟩
      obtain ⟨chunk, hchunk, hrel⟩ := List.mem_flatMap.mp hrel
      exact ⟨_, (hmem _).mpr ⟨chunk, hchunk, rfl⟩, pass1_gives.mpr ⟨rel, hrel, hgives⟩⟩
    · rintro ⟨rows, hrows, hgives⟩
      obtain ⟨chunk, hchunk, rfl⟩ := (hmem rows).mp hrows
      obtain ⟨rel, hrel, hgives⟩ := pass1_gives.mp hgives
      exact ⟨rel, List.mem_flatMap.mpr ⟨chunk, hchunk, hrel⟩, hgives⟩

/-! ### Pass 2 -/

section
variable {ω : Type*} {parse : ω → ChunkResult → Element → ChunkResult}
  (happend : ∀ order (a b : ChunkResult) rel,
    parse order (a.append b) rel = a.append (parse order b rel))
  (hsame : ∀ order order' (a b : ChunkResult) rel, a.Same b →
    (parse order a rel).Same (parse order' b rel))

include happend in
theorem foldl_parse_append (order : ω) (records : List Element) (a b : ChunkResult) :
    records.foldl (parse order) (a.append b) = a.append (records.foldl (parse order) b) := by
  induction records generalizing b with
  | nil => rfl
  | cons rel records ih => rw [List.foldl_cons, List.foldl_cons, happend, ih]

include hsame in
theorem foldl_parse_same (order order' : ω) (records : List Element) {a b : ChunkResult}
    (h : a.Same b) : (records.foldl (parse order) a).Same (records.foldl (parse order') b) := by
  induction records generalizing a b with
  | nil => exact h
  | cons rel records ih => exact ih (hsame order order' a b rel h)

include happend hsame in
/-- Results of pieces, put together, are the result of all their records. -/
theorem pieces_same (order : ω) (pieces : List (ω × List Element)) {a b : ChunkResult}
    (h : a.Same b) :
    ((pieces.map fun piece => piece.2.foldl (parse piece.1) .new).foldl ChunkResult.append a).Same
      ((pieces.flatMap Prod.snd).foldl (parse order) b) := by
  induction pieces generalizing a b with
  | nil => exact h
  | cons piece pieces ih =>
    rw [List.map_cons, List.foldl_cons, List.flatMap_cons, List.foldl_append,
      ← foldl_parse_append happend, ChunkResult.append_new]
    exact ih (foldl_parse_same hsame piece.1 order piece.2 h)

variable (parse) in
include happend hsame in
theorem runPool_exact {names : NameTable} {recordTag dump lead : Bytes} {root : Element}
    (hdump : RecordDump names recordTag dump lead root) {chunkBytes : ℕ}
    (hblock : (lead ++ openMarker recordTag).length ≤ chunkBytes) (tag : Str)
    (orders : ℕ → ω) (order : ω) :
    Collected
      (runPool chunkBytes recordTag
        (fun i chunk => (chunkRecords names tag chunk).foldl (parse (orders i)) .new) 0 dump)
      ((root.findall tag).foldl (parse order) .new) := by
  have hpieces : ((chunks chunkBytes recordTag dump).zipIdx.map fun chunk =>
      (orders chunk.2, chunkRecords names tag chunk.1)).flatMap Prod.snd = root.findall tag := by
    rw [← chunkRecords_chunks hdump hblock, List.flatMap_map]
    calc (chunks chunkBytes recordTag dump).zipIdx.flatMap (fun chunk => chunkRecords names tag chunk.1)
        = ((chunks chunkBytes recordTag dump).zipIdx.map Prod.fst).flatMap (chunkRecords names tag) :=
          (List.flatMap_map ..).symm
      _ = (chunks chunkBytes recordTag dump).flatMap (chunkRecords names tag) := by
          rw [List.zipIdx_map_fst]
  have htotal := pieces_same happend hsame order
    ((chunks chunkBytes recordTag dump).zipIdx.map fun chunk =>
      (orders chunk.2, chunkRecords names tag chunk.1)) (a := .new) .rfl
  rw [hpieces, List.map_map] at htotal
  exact collected_same (collected_foldl collected_new) htotal

end

end AnalyticsEngine.DumpGraph
