import AnalyticsEngine.Library.CrashLogic
import AnalyticsEngine.RecallChurn.Sweep

/-!
# Writing a month (scripts/measure_recall_churn.py, `_write_month`)

The rows go into the table slice by slice: a trial of the first chunk, the rest of it, every later
chunk. Unless the trial was slow each slice goes through `_write_embeddings`, which deletes the
version first, so that only the last one stays (`writeMonth_rows`).
-/

namespace AnalyticsEngine.RecallChurn
open Library

variable {β ι : Type*}

/- A row of `artist_embeddings`; the vector is kept as the bytes of its row in the file. -/
structure StoredRow (ι β : Type*) where
  artistId : ι
  modelVersion : String
  embedding : List β
deriving DecidableEq

def StoredRow.primaryKey (row : StoredRow ι β) : ι × String := (row.artistId, row.modelVersion)

def TRIAL_BATCH_ROWS : ℕ := 100000

def TRIAL_TIME_BUDGET_S : ℚ := 30 * 60

def WRITE_CHUNK_BYTES : ℕ := 256 * 1024 * 1024

/- A statement of the write, in a transaction of its own. -/
inductive Write (ι β : Type*) where
  -- `_write_embeddings`
  | replace (version : String) (rows : List (StoredRow ι β))
  -- `_write_chunk_via_copy`
  | copy (rows : List (StoredRow ι β))

/-- The rows of some artists and their vectors. -/
def rowsFor (version : String) (artistIds : List ι) (vectors : List (List β)) :
    List (StoredRow ι β) :=
  (artistIds.zip vectors).map fun x => ⟨x.1, version, x.2⟩

/-- The slices of the chunks after the first. -/
def laterSlices (version : String) : List ι → List (List (List β)) → List (List (StoredRow ι β))
  | _, [] => []
  | artistIds, chunk :: chunks =>
    let rest := artistIds.take chunk.length
    (if rest.isEmpty then [] else [rowsFor version rest chunk]) ++
      laterSlices version (artistIds.drop chunk.length) chunks

/-- The slices after the trial. -/
def restSlices (version : String) (artistIds : List ι) (chunk : List (List β))
    (chunks : List (List (List β))) : List (List (StoredRow ι β)) :=
  let trial := min TRIAL_BATCH_ROWS chunk.length
  let rest := (artistIds.take chunk.length).drop trial
  (if rest.isEmpty then [] else [rowsFor version rest (chunk.drop trial)]) ++
    laterSlices version (artistIds.drop chunk.length) chunks

/-- Whether the trial sends the rest through `COPY`. -/
def usesCopy (total chunkRows : ℕ) (trialElapsed : ℚ) : Bool :=
  let trial := min TRIAL_BATCH_ROWS chunkRows
  let extrapolated := if trial = 0 then 0 else trialElapsed * (total / trial)
  decide (TRIAL_TIME_BUDGET_S < extrapolated ∧ trial < total)

/-- The statements for the chunks of a month. -/
def monthWrites (version : String) (artistIds : List ι) (trialElapsed : ℚ) :
    List (List (List β)) → List (Write ι β)
  | [] => []
  | chunk :: chunks =>
    let trial := min TRIAL_BATCH_ROWS chunk.length
    .replace version (rowsFor version ((artistIds.take chunk.length).take trial) (chunk.take trial)) ::
      (restSlices version artistIds chunk chunks).map
        (if usesCopy artistIds.length chunk.length trialElapsed then .copy else .replace version)

def Write.rows : Write ι β → List (StoredRow ι β)
  | .replace _ rows => rows
  | .copy rows => rows

/-- `_already_loaded`. -/
def alreadyLoaded (version : String) (table : List (StoredRow ι β)) : Bool :=
  table.any fun row => row.modelVersion = version

/-- The rows of a version. -/
def versionRows (version : String) (table : List (StoredRow ι β)) : List (StoredRow ι β) :=
  table.filter fun row => row.modelVersion = version

/-- The rows of the other versions. -/
def otherRows (version : String) (table : List (StoredRow ι β)) : List (StoredRow ι β) :=
  table.filter fun row => row.modelVersion ≠ version

/-- The rows that a month has under a version. -/
def Month.storedRows (month : Month ι β) (version : String) (n nCols : ℕ) : List (StoredRow ι β) :=
  rowsFor version month.artistIds ((List.range n).map (month.member.row nCols))

/-- The statements of `_write_month`, and whether they copy. -/
def Month.writes (month : Month ι β) (version : String) (trialElapsed : ℚ) : List (Write ι β) :=
  monthWrites version month.artistIds trialElapsed
    (iterNpzVectorChunks month.member WRITE_CHUNK_BYTES).yielded

def Month.usesCopy (month : Month ι β) (trialElapsed : ℚ) : Bool :=
  RecallChurn.usesCopy month.artistIds.length
    ((iterNpzVectorChunks month.member WRITE_CHUNK_BYTES).yielded.headD []).length trialElapsed

variable [DecidableEq ι]

/-- A statement on the table, which raises where a primary key would be there twice. -/
def writeStep (table : List (StoredRow ι β)) (write : Write ι β) : Option (List (StoredRow ι β)) :=
  let kept := match write with
    | .replace version _ => table.filter fun row => row.modelVersion ≠ version
    | .copy _ => table
  if ((kept ++ write.rows).map StoredRow.primaryKey).Nodup then some (kept ++ write.rows) else none

/- `used_copy` and what else is returned; the times are left out. -/
structure WriteResult where
  rowsWritten : ℕ
  usedCopy : Bool
  skipped : Bool

inductive WriteError where
  | uniqueViolation
  | reading (e : ScriptError)

/-- `_write_month`, with the time that the trial takes, and the table it leaves. -/
def writeMonth (month : Month ι β) (version : String) (trialElapsed : ℚ)
    (table : List (StoredRow ι β)) : Except WriteError WriteResult × List (StoredRow ι β) :=
  if alreadyLoaded version table then (.ok ⟨month.artistIds.length, false, true⟩, table)
  else
    let writes := month.writes version trialElapsed
    let (after, completed) := perform writeStep writes table
    let result := match completed, (iterNpzVectorChunks month.member WRITE_CHUNK_BYTES).raised with
      | false, _ => .error .uniqueViolation
      | true, some e => .error (.reading e)
      | true, none => .ok ⟨(writes.map fun write => write.rows.length).sum,
          month.usesCopy trialElapsed, false⟩
    (result, after)

/-! ### Slices -/

section
omit [DecidableEq ι]
variable {version : String}

theorem take_length_eq {δ : Type*} {l : List δ} {l' : List β} (h : l.length = l'.length) (k : ℕ) :
    (l.take k).length = (l'.take k).length := by
  rw [List.length_take, List.length_take, h]

theorem drop_length_eq {δ : Type*} {l : List δ} {l' : List β} (h : l.length = l'.length) (k : ℕ) :
    (l.drop k).length = (l'.drop k).length := by
  rw [List.length_drop, List.length_drop, h]

theorem rowsFor_append (version : String) {ids : List ι} {vectors : List (List β)} (ids' : List ι)
    (vectors' : List (List β))
    (h : ids.length = vectors.length) : rowsFor version (ids ++ ids') (vectors ++ vectors') =
      rowsFor version ids vectors ++ rowsFor version ids' vectors' := by
  unfold rowsFor
  rw [List.zip_append h, List.map_append]

theorem rowsFor_length (version : String) {ids : List ι} {vectors : List (List β)}
    (h : ids.length = vectors.length) :
    (rowsFor version ids vectors).length = ids.length := by
  unfold rowsFor
  rw [List.length_map, List.length_zip, h, min_self]

theorem rowsFor_version {ids : List ι} {vectors : List (List β)} :
    ∀ row ∈ rowsFor version ids vectors, row.modelVersion = version := by
  unfold rowsFor
  intro row hrow
  obtain ⟨x, _, rfl⟩ := List.mem_map.mp hrow
  rfl

theorem rowsFor_keys {ids : List ι} {vectors : List (List β)} (hnodup : ids.Nodup)
    (h : ids.length = vectors.length) :
    ((rowsFor version ids vectors).map StoredRow.primaryKey).Nodup := by
  have hids : ((rowsFor version ids vectors).map StoredRow.primaryKey).map Prod.fst = ids := by
    unfold rowsFor
    rw [List.map_map, List.map_map]
    exact List.map_fst_zip h.le
  exact List.Nodup.of_map Prod.fst (by rw [hids]; exact hnodup)

theorem laterSlices_flatten (version : String) {ids : List ι} {chunks : List (List (List β))}
    (h : ids.length = chunks.flatten.length) :
    (laterSlices version ids chunks).flatten = rowsFor version ids chunks.flatten := by
  induction chunks generalizing ids with
  | nil =>
    rw [List.length_eq_zero_iff.mp h]
    rfl
  | cons chunk chunks ih =>
    rw [List.flatten_cons, List.length_append] at h
    have hrest : (ids.drop chunk.length).length = chunks.flatten.length := by
      rw [List.length_drop]
      omega
    have hhere : (ids.take chunk.length).length = chunk.length := by
      rw [List.length_take]
      omega
    have hsplit := rowsFor_append version (ids.drop chunk.length) chunks.flatten
      hhere
    rw [List.take_append_drop] at hsplit
    rw [List.flatten_cons, hsplit, ← ih hrest, laterSlices]
    by_cases hempty : ids.take chunk.length = []
    · rw [hempty] at hhere ⊢
      rw [List.length_eq_zero_iff.mp hhere.symm]
      rfl
    · simp [hempty]

theorem laterSlices_nonempty (version : String) {ids : List ι} {chunks : List (List (List β))}
    (h : ids.length = chunks.flatten.length) : [] ∉ laterSlices version ids chunks := by
  induction chunks generalizing ids with
  | nil => exact List.not_mem_nil
  | cons chunk chunks ih =>
    rw [List.flatten_cons, List.length_append] at h
    have hrest : (ids.drop chunk.length).length = chunks.flatten.length := by
      rw [List.length_drop]
      omega
    have hhere : (ids.take chunk.length).length = chunk.length := by
      rw [List.length_take]
      omega
    unfold laterSlices
    dsimp only
    intro hmem
    rcases List.mem_append.mp hmem with hmem | hmem
    · by_cases hempty : ids.take chunk.length = []
      · simp [hempty] at hmem
      · have hlength := rowsFor_length version hhere
        rw [if_neg (by simpa using hempty), List.mem_singleton] at hmem
        rw [← hmem] at hlength
        exact hempty (List.length_eq_zero_iff.mp hlength.symm)
    · exact ih hrest hmem

/-- Every slice, the trial first. -/
def monthSlices (version : String) (ids : List ι) : List (List (List β)) → List (List (StoredRow ι β))
  | [] => []
  | chunk :: chunks =>
    let trial := min TRIAL_BATCH_ROWS chunk.length
    rowsFor version ((ids.take chunk.length).take trial) (chunk.take trial) ::
      restSlices version ids chunk chunks

theorem trial_pos : 0 < TRIAL_BATCH_ROWS := by
  unfold TRIAL_BATCH_ROWS
  omega

section
variable {ids : List ι} {chunk : List (List β)} {chunks : List (List (List β))}

theorem chunk_ids (h : ids.length = (chunk :: chunks).flatten.length) :
    (ids.take chunk.length).length = chunk.length ∧
      (ids.drop chunk.length).length = chunks.flatten.length := by
  rw [List.flatten_cons, List.length_append] at h
  rw [List.length_take, List.length_drop]
  omega

/-- The slices are the rows of the month, cut. -/
theorem monthSlices_flatten (version : String) (h : ids.length = (chunk :: chunks).flatten.length) :
    (monthSlices version ids (chunk :: chunks)).flatten =
      rowsFor version ids (chunk :: chunks).flatten := by
  obtain ⟨hhere, hrest⟩ := chunk_ids h
  have htrial := take_length_eq hhere (min TRIAL_BATCH_ROWS chunk.length)
  have hfirst := rowsFor_append version
    ((ids.take chunk.length).drop (min TRIAL_BATCH_ROWS chunk.length))
    (chunk.drop (min TRIAL_BATCH_ROWS chunk.length)) htrial
  have hall := rowsFor_append version (ids.drop chunk.length) chunks.flatten hhere
  rw [List.take_append_drop, List.take_append_drop] at hfirst
  rw [List.take_append_drop] at hall
  rw [List.flatten_cons, hall, hfirst, ← laterSlices_flatten version hrest]
  unfold monthSlices restSlices
  dsimp only
  rw [List.flatten_cons, List.flatten_append, List.append_assoc]
  congr 2
  by_cases hempty : (ids.take chunk.length).drop (min TRIAL_BATCH_ROWS chunk.length) = []
  · simp [hempty, rowsFor]
  · simp [hempty]

theorem monthSlices_nonempty (version : String) (h : ids.length = (chunk :: chunks).flatten.length)
    (hchunk : chunk ≠ []) : [] ∉ monthSlices version ids (chunk :: chunks) := by
  obtain ⟨hhere, hrest⟩ := chunk_ids h
  have hpos := List.length_pos_iff.mpr hchunk
  have htrial := trial_pos
  unfold monthSlices restSlices
  dsimp only
  intro hmem
  rcases List.mem_cons.mp hmem with hmem | hmem
  · have hlength := congrArg List.length hmem
    rw [rowsFor_length version (take_length_eq hhere _), take_length_eq hhere, List.length_take,
      List.length_nil] at hlength
    omega
  · rcases List.mem_append.mp hmem with hmem | hmem
    · split_ifs at hmem with hempty
      · cases hmem
      · have hlength := congrArg List.length (List.mem_singleton.mp hmem)
        rw [rowsFor_length version (drop_length_eq hhere _), List.length_nil] at hlength
        exact hempty (List.isEmpty_iff.mpr (List.length_eq_zero_iff.mp hlength.symm))
    · exact laterSlices_nonempty version hrest hmem

/-- There is one slice if the trial takes all of one chunk. -/
theorem restSlices_eq_nil (version : String) (h : ids.length = (chunk :: chunks).flatten.length)
    (hchunks : [] ∉ chunks) :
    restSlices version ids chunk chunks = [] ↔ chunk.length ≤ TRIAL_BATCH_ROWS ∧ chunks = [] := by
  obtain ⟨hhere, hrest⟩ := chunk_ids h
  have hlater : laterSlices version (ids.drop chunk.length) chunks = [] ↔ chunks = [] := by
    constructor
    · intro hnil
      have hflatten := laterSlices_flatten version hrest
      have hlength := congrArg List.length hflatten
      rw [hnil, rowsFor_length version hrest, hrest, List.flatten_nil, List.length_nil] at hlength
      have hempty := List.flatten_eq_nil_iff.mp (List.length_eq_zero_iff.mp hlength.symm)
      exact List.eq_nil_iff_forall_not_mem.mpr fun c hc => hchunks (hempty c hc ▸ hc)
    · rintro rfl
      rfl
  have hdrop : (ids.take chunk.length).drop (min TRIAL_BATCH_ROWS chunk.length) = [] ↔
      chunk.length ≤ TRIAL_BATCH_ROWS := by
    rw [List.drop_eq_nil_iff, hhere]
    omega
  unfold restSlices
  dsimp only
  rw [List.append_eq_nil_iff, hlater]
  split_ifs with hempty
  · simp [hdrop.mp (List.isEmpty_iff.mp hempty)]
  · have hlong := hdrop.not.mp (fun h => hempty (List.isEmpty_iff.mpr h))
    simp [hlong]

end

end

/-! ### Statements on the table -/

section
variable {version : String} {table rows : List (StoredRow ι β)} {slices : List (List (StoredRow ι β))}

/-- The statements for some slices. -/
def sliceWrites (copy : Bool) (version : String) :
    List (List (StoredRow ι β)) → List (Write ι β)
  | [] => []
  | slice :: slices => .replace version slice :: slices.map (if copy then .copy else .replace version)

/-- What the statements leave of their slices. -/
def leftAfter (copy : Bool) (slices : List (List (StoredRow ι β))) : List (StoredRow ι β) :=
  if copy then slices.flatten else slices.getLastD []

omit [DecidableEq ι] in
theorem monthWrites_slices (version : String) (ids : List ι) (elapsed : ℚ)
    (chunks : List (List (List β))) : monthWrites version ids elapsed chunks =
      sliceWrites (usesCopy ids.length (chunks.headD []).length elapsed) version
        (monthSlices version ids chunks) := by
  cases chunks <;> rfl

omit [DecidableEq ι] in
theorem sliceWrites_take (copy : Bool) (version : String) (slices : List (List (StoredRow ι β)))
    (m : ℕ) : (sliceWrites copy version slices).take m = sliceWrites copy version (slices.take m) := by
  cases slices with
  | nil => simp [sliceWrites]
  | cons slice slices =>
    cases m with
    | zero => rfl
    | succ m => simp [sliceWrites, List.map_take]

omit [DecidableEq ι] in
/-- Rows of a version go beside those of the others. -/
theorem keys_beside (hother : ∀ row ∈ table, row.modelVersion ≠ version)
    (hrows : ∀ row ∈ rows, row.modelVersion = version)
    (htableKeys : (table.map StoredRow.primaryKey).Nodup)
    (hkeys : (rows.map StoredRow.primaryKey).Nodup) :
    ((table ++ rows).map StoredRow.primaryKey).Nodup := by
  rw [List.map_append, List.nodup_append]
  refine ⟨htableKeys, hkeys, ?_⟩
  intro a ha b hb hab
  obtain ⟨row, hrow, rfl⟩ := List.mem_map.mp ha
  obtain ⟨row', hrow', rfl⟩ := List.mem_map.mp hb
  refine hother row hrow ?_
  rw [← hrows row' hrow']
  exact congrArg Prod.snd hab

omit [DecidableEq ι] in
theorem versionRows_beside (hother : ∀ row ∈ table, row.modelVersion ≠ version)
    (hrows : ∀ row ∈ rows, row.modelVersion = version) :
    versionRows version (table ++ rows) = rows ∧ otherRows version (table ++ rows) = table := by
  unfold versionRows otherRows
  rw [List.filter_append, List.filter_append]
  constructor
  · rw [List.filter_eq_nil_iff.mpr fun row hrow => by simpa using hother row hrow,
      List.filter_eq_self.mpr fun row hrow => by simpa using hrows row hrow, List.nil_append]
  · rw [List.filter_eq_self.mpr fun row hrow => by simpa using hother row hrow,
      List.filter_eq_nil_iff.mpr fun row hrow => by simpa using hrows row hrow, List.append_nil]

variable (rows) in
theorem replace_step (hother : ∀ row ∈ table, row.modelVersion ≠ version)
    (hrows : ∀ row ∈ rows, row.modelVersion = version) {slice : List (StoredRow ι β)}
    (hkeys : ((table ++ slice).map StoredRow.primaryKey).Nodup) :
    writeStep (table ++ rows) (.replace version slice) = some (table ++ slice) := by
  have hkept : (table ++ rows).filter (fun row => row.modelVersion ≠ version) = table :=
    (versionRows_beside hother hrows).2
  unfold writeStep
  dsimp only
  rw [hkept]
  exact if_pos hkeys

variable (rows) in
/-- Written one after the other through `_write_embeddings`, the last slice stays. -/
theorem perform_replaces (hother : ∀ row ∈ table, row.modelVersion ≠ version)
    (htableKeys : (table.map StoredRow.primaryKey).Nodup)
    (hslices : ∀ row ∈ slices.flatten, row.modelVersion = version)
    (hkeys : (slices.flatten.map StoredRow.primaryKey).Nodup)
    (hrows : ∀ row ∈ rows, row.modelVersion = version) :
    perform writeStep (slices.map (.replace version)) (table ++ rows) =
      (table ++ slices.getLastD rows, true) := by
  induction slices generalizing rows with
  | nil => rfl
  | cons slice slices ih =>
    rw [List.flatten_cons] at hslices hkeys
    rw [List.map_append] at hkeys
    have hslice : ∀ row ∈ slice, row.modelVersion = version := fun row hrow =>
      hslices row (List.mem_append_left _ hrow)
    have hbeside := keys_beside hother hslice htableKeys hkeys.of_append_left
    rw [List.map_cons, perform_complete (replace_step rows hother hrows hbeside),
      ih slice (fun row hrow => hslices row (List.mem_append_right _ hrow)) hkeys.of_append_right hslice]
    rw [List.getLastD_cons]

/-- Copied, they all stay. -/
theorem perform_copies (hkeys : ((table ++ slices.flatten).map StoredRow.primaryKey).Nodup) :
    perform writeStep (slices.map .copy) table = (table ++ slices.flatten, true) := by
  induction slices generalizing table with
  | nil => rw [List.flatten_nil, List.append_nil]; rfl
  | cons slice slices ih =>
    rw [List.flatten_cons, ← List.append_assoc] at hkeys ⊢
    have hslice : ((table ++ slice).map StoredRow.primaryKey).Nodup := by
      rw [List.map_append] at hkeys
      exact hkeys.of_append_left
    have hstep : writeStep table (.copy slice) = some (table ++ slice) := if_pos hslice
    rw [List.map_cons, perform_complete hstep, ih hkeys]

theorem perform_slices (copy : Bool) (hother : ∀ row ∈ table, row.modelVersion ≠ version)
    (htableKeys : (table.map StoredRow.primaryKey).Nodup)
    (hslices : ∀ row ∈ slices.flatten, row.modelVersion = version)
    (hkeys : (slices.flatten.map StoredRow.primaryKey).Nodup) :
    perform writeStep (sliceWrites copy version slices) table =
      (table ++ leftAfter copy slices, true) := by
  cases slices with
  | nil => cases copy <;> simp [sliceWrites, leftAfter, perform]
  | cons slice slices =>
    cases copy with
    | false =>
      have h := perform_replaces [] hother htableKeys hslices hkeys (fun _ h => by cases h)
      rw [List.append_nil] at h
      exact h
    | true =>
      have hbeside := keys_beside hother hslices htableKeys hkeys
      rw [List.flatten_cons, ← List.append_assoc] at hbeside
      have hslice : ((table ++ slice).map StoredRow.primaryKey).Nodup := by
        rw [List.map_append] at hbeside
        exact hbeside.of_append_left
      have hstep := replace_step [] hother (fun _ h => by cases h) hslice
      rw [List.append_nil] at hstep
      have hcopies := perform_copies hbeside
      rw [List.append_assoc, ← List.flatten_cons] at hcopies
      rw [sliceWrites, perform_complete hstep, if_pos rfl, hcopies]
      rfl

omit [DecidableEq ι] in
/-- The last slice is all of them if there is one. -/
theorem leftAfter_drop (copy : Bool) (hne : slices ≠ []) (hnonempty : [] ∉ slices) :
    ∃ k, k < slices.flatten.length ∧ leftAfter copy slices = slices.flatten.drop k ∧
      (k = 0 ↔ copy = true ∨ slices.length = 1) := by
  obtain ⟨earlier, last, rfl⟩ := (List.eq_nil_or_concat slices).resolve_left hne
  rw [List.concat_eq_append] at *
  have hlast : 0 < last.length := by
    rw [List.length_pos_iff]
    rintro rfl
    exact hnonempty (by simp)
  cases copy with
  | true => exact ⟨0, by simp; omega, rfl, by simp⟩
  | false =>
    refine ⟨earlier.flatten.length, ?_, ?_, ?_⟩
    · rw [List.flatten_append, List.length_append, List.flatten_singleton]
      omega
    · unfold leftAfter
      simp
    · rw [List.length_append, List.length_singleton, List.length_eq_zero_iff, List.flatten_eq_nil_iff]
      cases earlier with
      | nil => simp
      | cons slice earlier =>
        have hslice : slice ≠ [] := by
          rintro rfl
          exact hnonempty (by simp)
        simp [hslice]

omit [DecidableEq ι] in
/-- Cut off after some statements, all rows are there only if none were to come. -/
theorem leftAfter_take (copy : Bool) (hnonempty : [] ∉ slices) {m : ℕ} (hm : 1 ≤ m)
    (hne : slices ≠ []) : leftAfter copy (slices.take m) ≠ [] ∧
      leftAfter copy (slices.take m) ⊆ slices.flatten ∧
      (leftAfter copy (slices.take m) = slices.flatten ↔
        slices.length ≤ m ∧ (copy = true ∨ slices.length = 1)) := by
  have hpos := List.length_pos_iff.mpr hne
  have htake : slices.take m ≠ [] := by
    rw [← List.length_pos_iff, List.length_take]
    omega
  obtain ⟨k, hk, hleft, hzero⟩ := leftAfter_drop copy htake
    fun h => hnonempty (List.mem_of_mem_take h)
  have hsplit : slices.flatten.length =
      (slices.take m).flatten.length + (slices.drop m).flatten.length := by
    rw [← List.length_append, ← List.flatten_append, List.take_append_drop]
  have hlength := congrArg List.length hleft
  rw [List.length_drop] at hlength
  refine ⟨?_, ?_, ?_⟩
  · rw [← List.length_pos_iff]
    omega
  · intro row hrow
    rw [hleft] at hrow
    exact (List.take_sublist m slices).flatten.subset (List.mem_of_mem_drop hrow)
  · constructor
    · intro hall
      rw [hall] at hlength
      have hdrop : slices.length ≤ m := by
        by_contra hlt
        have hrest : slices.drop m ≠ [] := by
          rw [← List.length_pos_iff, List.length_drop]
          omega
        obtain ⟨slice, hslice⟩ := List.exists_mem_of_ne_nil _ hrest
        have hsome : (slices.drop m).flatten ≠ [] := by
          intro hnil
          have hempty := List.flatten_eq_nil_iff.mp hnil slice hslice
          exact hnonempty (hempty ▸ List.mem_of_mem_drop hslice)
        have := List.length_pos_iff.mpr hsome
        omega
      rw [List.take_of_length_le hdrop] at hzero hlength
      exact ⟨hdrop, hzero.mp (by omega)⟩
    · rintro ⟨hdrop, hone⟩
      rw [List.take_of_length_le hdrop] at hzero hleft ⊢
      rw [hleft, hzero.mpr hone, List.drop_zero]

end

/-! ### Whole runs -/

section
variable {month : Month ι β} {n nCols : ℕ} {version : String} {table : List (StoredRow ι β)}

omit [DecidableEq ι] in
/-- The chunks of a whole month, and what the slices of it come to. -/
theorem month_slices (hmonth : month.Loaded n nCols) (hn : 0 < n) (version : String) :
    ∃ chunk chunks, iterNpzVectorChunks month.member WRITE_CHUNK_BYTES = ⟨chunk :: chunks, none⟩ ∧
      [] ∉ monthSlices version month.artistIds (chunk :: chunks) ∧
      (monthSlices version month.artistIds (chunk :: chunks)).flatten =
        month.storedRows version n nCols ∧
      ((monthSlices version month.artistIds (chunk :: chunks)).length = 1 ↔
        n ≤ TRIAL_BATCH_ROWS ∧ n ≤ max 1 (WRITE_CHUNK_BYTES / (nCols * month.member.itemsize))) := by
  rw [iter_matrix hmonth.matrix]
  generalize WRITE_CHUNK_BYTES / (nCols * month.member.itemsize) = chunkRows
  have hwhole := hmonth.whole
  unfold Member.Whole at hwhole
  obtain ⟨hraised, hrows⟩ := readRows_whole chunkRows n hwhole
  have hnonempty := readRows_nonempty (nCols * month.member.itemsize) chunkRows n month.member.data
  have hfull : min (max 1 chunkRows) n * (nCols * month.member.itemsize) ≤ month.member.data.length :=
    (Nat.mul_le_mul_right _ (min_le_right _ _)).trans hwhole
  have hfirst := readRows_chunk (by omega) hfull
  generalize readRows (nCols * month.member.itemsize) chunkRows n month.member.data = stream at *
  obtain ⟨yielded, raised⟩ := stream
  obtain ⟨hyielded, -⟩ := Stream.mk.inj hfirst
  dsimp only at hraised hrows hnonempty hyielded
  generalize hchunk : rowsOf _ _ _ = chunk at hyielded
  generalize hchunks : Stream.yielded _ = chunks at hyielded
  subst hraised hyielded
  have hsize : chunk.length = min (max 1 chunkRows) n := by
    rw [← hchunk, rowsOf_length]
  have hlength := congrArg List.length hrows
  rw [List.length_map, List.length_range] at hlength
  have hids : month.artistIds.length = (chunk :: chunks).flatten.length := by
    rw [hlength, hmonth.ids]
  have hlater : chunks = [] ↔ n ≤ max 1 chunkRows := by
    rw [List.flatten_cons, List.length_append, hsize] at hlength
    constructor
    · rintro rfl
      rw [List.flatten_nil, List.length_nil] at hlength
      omega
    · intro hle
      have hnil := List.length_eq_zero_iff.mp (by omega : chunks.flatten.length = 0)
      refine List.eq_nil_iff_forall_not_mem.mpr fun c hc => hnonempty ?_
      rw [← List.flatten_eq_nil_iff.mp hnil c hc]
      exact List.mem_cons_of_mem _ hc
  refine ⟨chunk, chunks, rfl, ?_, ?_, ?_⟩
  · apply monthSlices_nonempty version hids
    rintro rfl
    exact hnonempty List.mem_cons_self
  · rw [monthSlices_flatten version hids, hrows]
    rfl
  · have hrest := restSlices_eq_nil version hids fun h => hnonempty (List.mem_cons_of_mem _ h)
    unfold monthSlices
    rw [List.length_cons, Nat.add_eq_right, List.length_eq_zero_iff, hrest, hlater, hsize]
    omega

omit [DecidableEq ι] in
theorem alreadyLoaded_iff : alreadyLoaded version table = true ↔ versionRows version table ≠ [] := by
  unfold alreadyLoaded versionRows
  rw [List.any_eq_true, Ne, List.filter_eq_nil_iff, not_forall]
  simp

/-- The statements of a whole month, and what they leave of it when they are cut off. -/
theorem month_writes (hmonth : month.Loaded n nCols) (hn : 0 < n)
    (hother : ∀ row ∈ table, row.modelVersion ≠ version)
    (hkeys : (table.map StoredRow.primaryKey).Nodup) (trialElapsed : ℚ) :
    ∃ slices : List (List (StoredRow ι β)), slices ≠ [] ∧ [] ∉ slices ∧
      slices.flatten = month.storedRows version n nCols ∧
      month.writes version trialElapsed =
        sliceWrites (month.usesCopy trialElapsed) version slices ∧
      (slices.length = 1 ↔ n ≤ TRIAL_BATCH_ROWS ∧
        n ≤ max 1 (WRITE_CHUNK_BYTES / (nCols * month.member.itemsize))) ∧
      ∀ m, perform writeStep ((month.writes version trialElapsed).take m) table =
        (table ++ leftAfter (month.usesCopy trialElapsed) (slices.take m), true) := by
  obtain ⟨chunk, chunks, hstream, hnonempty, hflatten, hone⟩ := month_slices hmonth hn version
  have hwrites : month.writes version trialElapsed = sliceWrites (month.usesCopy trialElapsed) version
      (monthSlices version month.artistIds (chunk :: chunks)) := by
    unfold Month.writes Month.usesCopy
    rw [hstream]
    exact monthWrites_slices version month.artistIds trialElapsed (chunk :: chunks)
  have hlength : month.artistIds.length = ((List.range n).map (month.member.row nCols)).length := by
    rw [hmonth.ids, List.length_map, List.length_range]
  refine ⟨_, by simp [monthSlices], hnonempty, hflatten, hwrites, hone, ?_⟩
  intro m
  have hsub : ((monthSlices version month.artistIds (chunk :: chunks)).take m).flatten.Sublist
      (month.storedRows version n nCols) := by
    rw [← hflatten]
    exact (List.take_sublist m _).flatten
  rw [hwrites, sliceWrites_take]
  apply perform_slices _ hother hkeys
  · intro row hrow
    exact rowsFor_version row (hsub.subset hrow)
  · exact (rowsFor_keys hmonth.nodup hlength).sublist (hsub.map _)

variable (version table) in
/-- A month that is written at one go reports all its rows. They are all in the table exactly if the
trial was slow or took them all; otherwise only those of the last slice are. -/
theorem writeMonth_rows (hmonth : month.Loaded n nCols) (hn : 0 < n)
    (hother : ∀ row ∈ table, row.modelVersion ≠ version)
    (hkeys : (table.map StoredRow.primaryKey).Nodup) (trialElapsed : ℚ) :
    ∃ (k : ℕ) (after : List (StoredRow ι β)),
      writeMonth month version trialElapsed table =
        (.ok ⟨n, month.usesCopy trialElapsed, false⟩, after) ∧
      otherRows version after = table ∧
      versionRows version after = (month.storedRows version n nCols).drop k ∧ k < n ∧
      (k = 0 ↔ month.usesCopy trialElapsed = true ∨ n ≤ TRIAL_BATCH_ROWS ∧
        n ≤ max 1 (WRITE_CHUNK_BYTES / (nCols * month.member.itemsize))) := by
  obtain ⟨slices, hne, hnonempty, hflatten, hwrites, hone, hperform⟩ :=
    month_writes hmonth hn hother hkeys trialElapsed
  obtain ⟨chunk, chunks, hstream, _⟩ := month_slices hmonth hn version
  obtain ⟨k, hk, hleft, hzero⟩ := leftAfter_drop (month.usesCopy trialElapsed) hne hnonempty
  have hsize : (month.storedRows version n nCols).length = n := by
    unfold Month.storedRows
    rw [rowsFor_length version (by rw [hmonth.ids, List.length_map, List.length_range]), hmonth.ids]
  have hall := hperform (month.writes version trialElapsed).length
  have hslices : slices.length ≤ (month.writes version trialElapsed).length := by
    rw [hwrites]
    cases slices <;> simp [sliceWrites]
  rw [List.take_length, List.take_of_length_le hslices, hleft] at hall
  have hcount : ((month.writes version trialElapsed).map fun write => write.rows.length).sum = n := by
    rw [← hsize, ← hflatten, List.length_flatten, hwrites]
    cases slices with
    | nil => rfl
    | cons slice slices =>
      unfold sliceWrites
      cases month.usesCopy trialElapsed <;> simp [Write.rows, Function.comp_def]
  have hfresh : alreadyLoaded version table = false := by
    unfold alreadyLoaded
    simpa using hother
  have hrows : ∀ row ∈ slices.flatten.drop k, row.modelVersion = version := by
    intro row hrow
    rw [hflatten] at hrow
    exact rowsFor_version row (List.mem_of_mem_drop hrow)
  refine ⟨k, table ++ slices.flatten.drop k, ?_, (versionRows_beside hother hrows).2, ?_, ?_, ?_⟩
  · unfold writeMonth
    rw [hfresh, if_neg Bool.false_ne_true]
    dsimp only
    rw [hall, hstream]
    simp only [hcount]
  · rw [(versionRows_beside hother hrows).1, hflatten]
  · rw [← hsize, ← hflatten]
    exact hk
  · rw [hzero, hone]

variable (version table) in
/-- A write that was cut off is not taken up again: the next run leaves the table as it is and
reports every row, though all of them are there only if the cut came after the last statement and
these left them all. -/
theorem writeMonth_restart (hmonth : month.Loaded n nCols) (hn : 0 < n)
    (hother : ∀ row ∈ table, row.modelVersion ≠ version)
    (hkeys : (table.map StoredRow.primaryKey).Nodup) (trialElapsed trialElapsed' : ℚ) {m : ℕ}
    (hm : 1 ≤ m) :
    ∃ left : List (StoredRow ι β),
      perform writeStep ((month.writes version trialElapsed).take m) table = (table ++ left, true) ∧
      writeMonth month version trialElapsed' (table ++ left) =
        (.ok ⟨n, false, true⟩, table ++ left) ∧
      (left = month.storedRows version n nCols ↔
        (month.writes version trialElapsed).length ≤ m ∧
          (month.usesCopy trialElapsed = true ∨ (month.writes version trialElapsed).length = 1)) := by
  obtain ⟨slices, hne, hnonempty, hflatten, hwrites, _, hperform⟩ :=
    month_writes hmonth hn hother hkeys trialElapsed
  obtain ⟨hsome, hsub, hall⟩ := leftAfter_take (month.usesCopy trialElapsed) hnonempty hm hne
  have hlength : (month.writes version trialElapsed).length = slices.length := by
    rw [hwrites]
    cases slices <;> simp [sliceWrites]
  refine ⟨_, hperform m, ?_, ?_⟩
  · have hloaded : alreadyLoaded version (table ++
        leftAfter (month.usesCopy trialElapsed) (slices.take m)) = true := by
      have hrows : ∀ row ∈ leftAfter (month.usesCopy trialElapsed) (slices.take m),
          row.modelVersion = version := by
        intro row hrow
        have hrow := hsub hrow
        rw [hflatten] at hrow
        exact rowsFor_version row hrow
      rw [alreadyLoaded_iff, (versionRows_beside hother hrows).1]
      exact hsome
    unfold writeMonth
    rw [hloaded, if_pos rfl, hmonth.ids]
  · rw [hlength, ← hflatten, hall]

end

/- Three artists with vectors of 128 columns. -/
def threeVectors : Month ℕ ℤ :=
  ⟨⟨1, false, [3, 128], 1, (List.range 384).map Int.ofNat⟩, [7, 8, 9], none⟩

theorem threeVectors_loaded : threeVectors.Loaded 3 128 :=
  ⟨⟨Or.inl rfl, rfl, rfl, by decide⟩, by simp [threeVectors, Member.Whole], rfl, by decide,
    fun _ hd => by cases hd⟩

theorem writeMonth_rows_threeArtists : ∃ k after,
    writeMonth threeVectors "v" 0 [] = (.ok ⟨3, threeVectors.usesCopy 0, false⟩, after) ∧
      versionRows "v" after = (threeVectors.storedRows "v" 3 128).drop k := by
  obtain ⟨k, after, hwrite, _, hrows, _⟩ := writeMonth_rows "v" [] threeVectors_loaded
    (by decide) (by decide) (by decide) 0
  exact ⟨k, after, hwrite, hrows⟩

theorem writeMonth_restart_threeArtists : ∃ left,
    writeMonth threeVectors "v" 0 ([] ++ left) = (.ok ⟨3, false, true⟩, [] ++ left) := by
  obtain ⟨left, _, hskip, _⟩ := writeMonth_restart "v" [] threeVectors_loaded (by decide)
    (by decide) (by decide) 0 0 (m := 1) (by decide)
  exact ⟨left, hskip⟩

end AnalyticsEngine.RecallChurn
