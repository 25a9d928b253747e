import AnalyticsEngine.Library.KBest
import Mathlib.Data.List.GetD
import Mathlib.Data.List.TakeWhile

/-!
# Streaming a matrix out of an npz (scripts/measure_recall_churn.py)

`_iter_npz_vector_chunks` yields the rows of a member chunk by chunk until it runs out of rows or
raises; `_extract_rows` picks rows out of the stream and stops reading once it has them all. What it
returns does not depend on the chunk size (`extractRows_ok_iff`).
-/

namespace AnalyticsEngine.RecallChurn
open Library

/- The header of a member and the bytes after it. -/
structure Member (β : Type*) where
  major : ℕ
  fortranOrder : Bool
  shape : List ℕ
  itemsize : ℕ
  data : List β

inductive ScriptError where
  | unsupportedVersion (major : ℕ)
  | fortranOrder
  | notMatrix (shape : List ℕ)
  | zeroDivision
  | truncated (got wanted : ℕ)
  | unsorted
  | outOfRange (position total : ℕ)
  | missingKey
  -- `np.stack` of no arrays
  | nothingToStack
  -- `zip(…, strict=True)`
  | lengthMismatch
  -- `np.argpartition` around a place past the end
  | kthOutOfBounds
deriving DecidableEq, Repr

/- What a generator yields, and the exception it ends with, if any. -/
structure Stream (α : Type*) where
  yielded : List α
  raised : Option ScriptError

variable {β : Type*}

/-- `np.frombuffer(buf).reshape(count, n_cols)`; a row is its bytes. -/
def rowsOf (rowBytes count : ℕ) (buf : List β) : List (List β) :=
  (List.range count).map fun i => (buf.drop (i * rowBytes)).take rowBytes

/-- The loop over `remaining`. -/
def readRows (rowBytes chunkRows remaining : ℕ) (data : List β) : Stream (List (List β)) :=
  if remaining = 0 then ⟨[], none⟩
  else
    let take := min (max 1 chunkRows) remaining
    let buf := data.take (take * rowBytes)
    if buf.length ≠ take * rowBytes then ⟨[], some (.truncated buf.length (take * rowBytes))⟩
    else
      let later := readRows rowBytes chunkRows (remaining - take) (data.drop (take * rowBytes))
      ⟨rowsOf rowBytes take buf :: later.yielded, later.raised⟩
termination_by remaining

/-- `_iter_npz_vector_chunks`. -/
def iterNpzVectorChunks (m : Member β) (chunkBytes : ℕ) : Stream (List (List β)) :=
  if m.major ≠ 1 ∧ m.major ≠ 2 then ⟨[], some (.unsupportedVersion m.major)⟩
  else if m.fortranOrder then ⟨[], some .fortranOrder⟩
  else match m.shape with
    | [nRows, nCols] =>
      let rowBytes := nCols * m.itemsize
      if rowBytes = 0 then ⟨[], some .zeroDivision⟩
      else readRows rowBytes (chunkBytes / rowBytes) nRows m.data
    | shape => ⟨[], some (.notMatrix shape)⟩

/-- The loop of `_extract_rows`; `wanted` are the positions still to come. -/
def takeRows (raised : Option ScriptError) :
    List (List (List β)) → ℕ → List ℕ → Except ScriptError (List (List β))
  | [], position, wanted =>
    match raised, wanted with
    | some e, _ => .error e
    | none, p :: _ => .error (.outOfRange p position)
    | none, [] => .ok []
  | chunk :: chunks, position, wanted =>
    let stop := position + chunk.length
    let here := (wanted.takeWhile (· < stop)).map fun p => chunk.getD (p - position) []
    match wanted.dropWhile (· < stop) with
    -- the rest of the stream is not read
    | [] => .ok here
    | p :: left => (takeRows raised chunks stop (p :: left)).map (here ++ ·)

/-- `_extract_rows`. -/
def extractRows (m : Member β) (positions : List ℕ) (chunkBytes : ℕ) :
    Except ScriptError (List (List β)) :=
  if positions ≠ positions.toFinset.sort then .error .unsorted
  else if positions = [] then .ok []
  else
    let stream := iterNpzVectorChunks m chunkBytes
    takeRows stream.raised stream.yielded 0 positions

/-! ### What is read -/

/-- A member that the reader accepts. -/
structure Member.Matrix (m : Member β) (nRows nCols : ℕ) : Prop where
  major : m.major = 1 ∨ m.major = 2
  order : m.fortranOrder = false
  shape : m.shape = [nRows, nCols]
  bytes : 0 < nCols * m.itemsize

/-- Row `i`, `width` bytes of the data. -/
def rowAt (width : ℕ) (data : List β) (i : ℕ) : List β := (data.drop (i * width)).take width

/-- The rows that are read to get at row `i`: whole chunks, or all there are. -/
def rowsRead (chunkRows n i : ℕ) : ℕ := min n ((i / max 1 chunkRows + 1) * max 1 chunkRows)

section
variable {rowBytes chunkRows : ℕ}

theorem rowsOf_length (count : ℕ) (buf : List β) : (rowsOf rowBytes count buf).length = count := by
  simp [rowsOf]

theorem rowsOf_getD {count i : ℕ} (hi : i < count) (data : List β) :
    (rowsOf rowBytes count (data.take (count * rowBytes))).getD i [] = rowAt rowBytes data i := by
  have hend : i * rowBytes + rowBytes ≤ count * rowBytes := by
    calc i * rowBytes + rowBytes = (i + 1) * rowBytes := by rw [Nat.succ_mul]
      _ ≤ count * rowBytes := Nat.mul_le_mul_right _ hi
  rw [List.getD_eq_getElem _ _ (by rw [rowsOf_length]; exact hi)]
  simp only [rowsOf, List.getElem_map, List.getElem_range, rowAt]
  rw [List.drop_take, List.take_take, min_eq_left (by omega)]

theorem rowAt_drop (data : List β) (a i : ℕ) :
    rowAt rowBytes (data.drop (a * rowBytes)) i = rowAt rowBytes data (a + i) := by
  unfold rowAt
  rw [List.drop_drop, ← Nat.add_mul]

theorem rowsRead_chunk {n i : ℕ} (hi : i < max 1 chunkRows) :
    rowsRead chunkRows n i = min (max 1 chunkRows) n := by
  unfold rowsRead
  rw [Nat.div_eq_of_lt hi, Nat.zero_add, Nat.one_mul, min_comm]

theorem rowsRead_later {n i : ℕ} (hi : max 1 chunkRows ≤ i) (hn : max 1 chunkRows ≤ n) :
    rowsRead chunkRows n i =
      max 1 chunkRows + rowsRead chunkRows (n - max 1 chunkRows) (i - max 1 chunkRows) := by
  have hpos : 0 < max 1 chunkRows := by omega
  unfold rowsRead
  generalize max 1 chunkRows = c at *
  have hdiv : i / c = (i - c) / c + 1 := by
    rw [← Nat.sub_add_cancel hi, Nat.add_sub_cancel, Nat.add_div_right _ hpos]
  rw [hdiv, Nat.succ_mul ((i - c) / c + 1)]
  omega

theorem le_rowsRead (n i : ℕ) : min (max 1 chunkRows) n ≤ rowsRead chunkRows n i := by
  unfold rowsRead
  have : max 1 chunkRows ≤ (i / max 1 chunkRows + 1) * max 1 chunkRows :=
    Nat.le_mul_of_pos_left _ (Nat.succ_pos _)
  omega

theorem readRows_zero (data : List β) : readRows rowBytes chunkRows 0 data = ⟨[], none⟩ := by
  rw [readRows, if_pos rfl]

theorem readRows_short {remaining : ℕ} {data : List β} (hpos : remaining ≠ 0)
    (hshort : data.length < min (max 1 chunkRows) remaining * rowBytes) :
    readRows rowBytes chunkRows remaining data = ⟨[],
      some (.truncated data.length (min (max 1 chunkRows) remaining * rowBytes))⟩ := by
  have hbuf : (data.take (min (max 1 chunkRows) remaining * rowBytes)).length = data.length := by
    rw [List.length_take]
    omega
  rw [readRows, if_neg hpos]
  simp only [hbuf, ne_eq, hshort.ne, not_false_eq_true, if_true]

theorem readRows_chunk {remaining : ℕ} {data : List β} (hpos : remaining ≠ 0)
    (hfull : min (max 1 chunkRows) remaining * rowBytes ≤ data.length) :
    readRows rowBytes chunkRows remaining data =
      let take := min (max 1 chunkRows) remaining
      let later := readRows rowBytes chunkRows (remaining - take) (data.drop (take * rowBytes))
      ⟨rowsOf rowBytes take (data.take (take * rowBytes)) :: later.yielded, later.raised⟩ := by
  have hbuf : (data.take (min (max 1 chunkRows) remaining * rowBytes)).length =
      min (max 1 chunkRows) remaining * rowBytes := by
    rw [List.length_take]
    omega
  rw [readRows, if_neg hpos]
  simp only [hbuf, ne_eq, not_true_eq_false, if_false]

theorem le_of_mem_dropWhile {l : List ℕ} (h : l.Pairwise (· < ·)) {stop p : ℕ}
    (hp : p ∈ l.dropWhile (· < stop)) : stop ≤ p := by
  induction l with
  | nil => cases hp
  | cons q l ih =>
    obtain ⟨hq, hl⟩ := List.pairwise_cons.mp h
    by_cases hlt : q < stop
    · rw [List.dropWhile_cons_of_pos (by simpa using hlt)] at hp
      exact ih hl hp
    · rw [List.dropWhile_cons_of_neg (by simpa using hlt)] at hp
      rcases List.mem_cons.mp hp with rfl | hp
      · exact not_lt.mp hlt
      · exact (not_lt.mp hlt).trans (hq p hp).le

/-- A row after the chunk, seen from the chunk and from the rest of the stream. -/
theorem rowsRead_step {remaining take position p : ℕ} {data : List β}
    (htake : min (max 1 chunkRows) remaining = take) (hfull : take * rowBytes ≤ data.length)
    (hp : position + take ≤ p) :
    (p < position + take + (remaining - take) ∧
      rowsRead chunkRows (remaining - take) (p - (position + take)) * rowBytes ≤
        (data.drop (take * rowBytes)).length) ↔
      p < position + remaining ∧ rowsRead chunkRows remaining (p - position) * rowBytes ≤ data.length := by
  by_cases hall : remaining ≤ max 1 chunkRows
  · rw [min_eq_right hall] at htake
    omega
  · rw [min_eq_left (by omega)] at htake
    have hread : rowsRead chunkRows remaining (p - position) = _ :=
      rowsRead_later (by omega) (by omega)
    rw [hread, htake, Nat.add_mul, List.length_drop, Nat.sub_sub]
    omega

/-- No chunk is empty. -/
theorem readRows_nonempty (rowBytes chunkRows remaining : ℕ) (data : List β) :
    [] ∉ (readRows rowBytes chunkRows remaining data).yielded := by
  induction remaining using Nat.strong_induction_on generalizing data with
  | _ remaining ih =>
    by_cases hzero : remaining = 0
    · rw [hzero, readRows_zero]
      exact List.not_mem_nil
    by_cases hfull : min (max 1 chunkRows) remaining * rowBytes ≤ data.length
    · rw [readRows_chunk hzero hfull]
      intro hmem
      rcases List.mem_cons.mp hmem with hmem | hmem
      · have hlength := congrArg List.length hmem
        rw [rowsOf_length, List.length_nil] at hlength
        omega
      · exact ih _ (by omega) _ hmem
    · rw [readRows_short hzero (by omega)]
      exact List.not_mem_nil

/-- With all the data there, the stream yields every row and does not raise. -/
theorem readRows_whole (chunkRows remaining : ℕ) {data : List β}
    (h : remaining * rowBytes ≤ data.length) :
    (readRows rowBytes chunkRows remaining data).raised = none ∧
      (readRows rowBytes chunkRows remaining data).yielded.flatten =
        (List.range remaining).map (rowAt rowBytes data) := by
  induction remaining using Nat.strong_induction_on generalizing data with
  | _ remaining ih =>
    by_cases hzero : remaining = 0
    · rw [hzero, readRows_zero]
      exact ⟨rfl, rfl⟩
    generalize htake : min (max 1 chunkRows) remaining = take
    have hle : take * rowBytes ≤ remaining * rowBytes := Nat.mul_le_mul_right _ (by omega)
    have hsplit : remaining = take + (remaining - take) := by omega
    have hrest : (remaining - take) * rowBytes ≤ (data.drop (take * rowBytes)).length := by
      rw [List.length_drop, Nat.sub_mul]
      omega
    obtain ⟨hraised, hrows⟩ := ih (remaining - take) (by omega) hrest
    have hchunk : rowsOf rowBytes take (data.take (take * rowBytes)) =
        (List.range take).map (rowAt rowBytes data) := by
      apply List.ext_getElem
      · rw [rowsOf_length, List.length_map, List.length_range]
      · intro i hi hi'
        have hlt : i < take := by simpa using hi'
        have hget : _ = rowAt rowBytes data i := rowsOf_getD hlt data
        rw [List.getD_eq_getElem _ _ hi] at hget
        rw [hget, List.getElem_map, List.getElem_range]
    rw [readRows_chunk hzero (by rw [htake]; omega)]
    simp only [htake, List.flatten_cons, hraised, hrows, hchunk, true_and]
    conv_rhs => rw [hsplit, List.range_add, List.map_append, List.map_map]
    congr 1
    apply List.map_congr_left
    intro i _
    exact rowAt_drop data take i

/-- The rows wanted from a stream arrive exactly if they are there and so is every chunk read on
the way to them. -/
theorem takeRows_ok_iff (rowBytes chunkRows remaining : ℕ) (data : List β) {position : ℕ}
    {wanted : List ℕ}
    (hne : wanted ≠ []) (hsorted : wanted.Pairwise (· < ·)) (hfrom : ∀ p ∈ wanted, position ≤ p)
    (rows : List (List β)) :
    takeRows (readRows rowBytes chunkRows remaining data).raised
        (readRows rowBytes chunkRows remaining data).yielded position wanted = .ok rows ↔
      (∀ p ∈ wanted, p < position + remaining ∧
        rowsRead chunkRows remaining (p - position) * rowBytes ≤ data.length) ∧
      rows = wanted.map fun p => rowAt rowBytes data (p - position) := by
  induction remaining using Nat.strong_induction_on generalizing data position wanted rows with
  | _ remaining ih =>
    obtain ⟨first, others, rfl⟩ := List.exists_cons_of_ne_nil hne
    have hfirst := hfrom first List.mem_cons_self
    by_cases hzero : remaining = 0
    · rw [hzero, readRows_zero]
      refine iff_of_false (fun h => by cases h) fun h => ?_
      have := (h.1 first List.mem_cons_self).1
      omega
    have hchunk : ∀ p, min (max 1 chunkRows) remaining * rowBytes ≤
        rowsRead chunkRows remaining p * rowBytes := fun p =>
      Nat.mul_le_mul_right _ (le_rowsRead remaining p)
    by_cases hshort : data.length < min (max 1 chunkRows) remaining * rowBytes
    · rw [readRows_short hzero hshort]
      refine iff_of_false (fun h => by cases h) fun h => ?_
      have := (h.1 first List.mem_cons_self).2
      have := hchunk (first - position)
      omega
    rw [readRows_chunk hzero (not_lt.mp hshort)]
    generalize htake : min (max 1 chunkRows) remaining = take at *
    simp only [takeRows, rowsOf_length]
    -- the wanted rows of this chunk, and the ones after it
    have hhere : ∀ p ∈ (first :: others).takeWhile (· < position + take),
        (rowsOf rowBytes take (data.take (take * rowBytes))).getD (p - position) [] =
          rowAt rowBytes data (p - position) := by
      intro p hp
      have hlt : p < position + take := by simpa using List.mem_takeWhile_imp hp
      have hle := hfrom p ((List.takeWhile_sublist _).subset hp)
      exact rowsOf_getD (by omega) data
    rw [List.map_congr_left hhere]
    have hsplit : (first :: others).takeWhile (· < position + take) ++
        (first :: others).dropWhile (· < position + take) = first :: others :=
      List.takeWhile_append_dropWhile
    have hbefore : ∀ p ∈ (first :: others).takeWhile (· < position + take),
        p < position + remaining ∧
          rowsRead chunkRows remaining (p - position) * rowBytes ≤ data.length := by
      intro p hp
      have hlt : p < position + take := by simpa using List.mem_takeWhile_imp hp
      rw [rowsRead_chunk (by omega), htake]
      omega
    have hafter : ∀ p ∈ (first :: others).dropWhile (· < position + take), position + take ≤ p :=
      fun p hp => le_of_mem_dropWhile hsorted hp
    have hlater := hsorted.sublist (List.dropWhile_sublist (· < position + take))
    conv_rhs => rw [← hsplit]
    generalize (first :: others).takeWhile (· < position + take) = here at hbefore ⊢
    generalize (first :: others).dropWhile (· < position + take) = left at hafter hlater ⊢
    rw [List.map_append, List.forall_mem_append, and_iff_right hbefore]
    cases left with
    | nil =>
      simp only [List.map_nil, List.append_nil, Except.ok.injEq]
      refine eq_comm.trans (and_iff_right ?_).symm
      exact fun p hp => absurd hp List.not_mem_nil
    | cons q left =>
      have hnext := ih (remaining - take) (by omega) (data.drop (take * rowBytes))
        (List.cons_ne_nil q left) hlater hafter
      have hstep : (∀ p ∈ q :: left, p < position + take + (remaining - take) ∧
          rowsRead chunkRows (remaining - take) (p - (position + take)) * rowBytes ≤
            (data.drop (take * rowBytes)).length) ↔
          ∀ p ∈ q :: left, p < position + remaining ∧
            rowsRead chunkRows remaining (p - position) * rowBytes ≤ data.length :=
        forall₂_congr fun p hp => rowsRead_step htake (not_lt.mp hshort) (hafter p hp)
      have hrows : (q :: left).map (fun p => rowAt rowBytes (data.drop (take * rowBytes))
          (p - (position + take))) = (q :: left).map fun p => rowAt rowBytes data (p - position) := by
        apply List.map_congr_left
        intro p hp
        have := hafter p hp
        rw [rowAt_drop]
        congr 1
        omega
      rw [hstep, hrows] at hnext
      dsimp only
      cases hresult : takeRows (readRows rowBytes chunkRows (remaining - take)
          (data.drop (take * rowBytes))).raised (readRows rowBytes chunkRows (remaining - take)
          (data.drop (take * rowBytes))).yielded (position + take) (q :: left) with
      | error e =>
        refine iff_of_false (fun h => by cases h) fun h => ?_
        have hok := (hnext _).mpr ⟨h.1, rfl⟩
        rw [hresult] at hok
        cases hok
      | ok later =>
        obtain ⟨hall, hvalue⟩ := (hnext later).mp hresult
        rw [and_iff_right hall, hvalue]
        simp only [Except.map, Except.ok.injEq]
        exact eq_comm

end

/-! ### Picking rows -/

section
variable {m : Member β} {nRows nCols : ℕ}

/-- A row of the member. -/
def Member.row (m : Member β) (nCols i : ℕ) : List β := rowAt (nCols * m.itemsize) m.data i

/-- The member holds every row its header announces. -/
def Member.Whole (m : Member β) (nRows nCols : ℕ) : Prop :=
  nRows * (nCols * m.itemsize) ≤ m.data.length

theorem iter_matrix (hm : m.Matrix nRows nCols) (chunkBytes : ℕ) :
    iterNpzVectorChunks m chunkBytes =
      readRows (nCols * m.itemsize) (chunkBytes / (nCols * m.itemsize)) nRows m.data := by
  have hmajor : ¬(m.major ≠ 1 ∧ m.major ≠ 2) := by
    rcases hm.major with h | h <;> simp [h]
  unfold iterNpzVectorChunks
  rw [if_neg hmajor, hm.order, if_neg Bool.false_ne_true, hm.shape]
  exact if_neg hm.bytes.ne'

theorem sorted_iff (positions : List ℕ) :
    positions = positions.toFinset.sort ↔ positions.Pairwise (· < ·) := by
  constructor
  · intro h
    rw [h]
    exact sort_pairwise_lt _
  · intro h
    exact ((List.toFinset_sort (· ≤ ·) (h.imp ne_of_lt)).mpr (h.imp le_of_lt)).symm

/-- `_extract_rows` returns the rows asked for exactly when the positions are in order, in range and
within the chunks that the file has in full. -/
theorem extractRows_ok_iff (hm : m.Matrix nRows nCols) (positions : List ℕ) (chunkBytes : ℕ)
    (rows : List (List β)) :
    extractRows m positions chunkBytes = .ok rows ↔
      positions.Pairwise (· < ·) ∧
      (∀ p ∈ positions, p < nRows ∧
        rowsRead (chunkBytes / (nCols * m.itemsize)) nRows p * (nCols * m.itemsize) ≤ m.data.length) ∧
      rows = positions.map (m.row nCols) := by
  unfold extractRows
  by_cases hsorted : positions = positions.toFinset.sort
  · rw [if_neg (not_not.mpr hsorted), and_iff_right ((sorted_iff positions).mp hsorted)]
    by_cases hempty : positions = []
    · subst hempty
      simp [eq_comm]
    · rw [if_neg hempty, iter_matrix hm]
      have htake := takeRows_ok_iff (nCols * m.itemsize) (chunkBytes / (nCols * m.itemsize)) nRows
        m.data hempty ((sorted_iff positions).mp hsorted) (fun p _ => Nat.zero_le p) rows
      simp only [Nat.zero_add, Nat.sub_zero] at htake
      exact htake
  · rw [if_pos hsorted]
    refine iff_of_false (fun h => by cases h) fun h => ?_
    exact hsorted ((sorted_iff positions).mpr h.1)

/-- From a whole file the rows come back for every chunk size. -/
theorem extractRows_whole (hm : m.Matrix nRows nCols) (hwhole : m.Whole nRows nCols)
    {positions : List ℕ} (hsorted : positions.Pairwise (· < ·)) (hrange : ∀ p ∈ positions, p < nRows)
    (chunkBytes : ℕ) : extractRows m positions chunkBytes = .ok (positions.map (m.row nCols)) := by
  rw [extractRows_ok_iff hm]
  refine ⟨hsorted, fun p hp => ⟨hrange p hp, ?_⟩, rfl⟩
  exact (Nat.mul_le_mul_right _ (min_le_left nRows _)).trans hwhole

end

end AnalyticsEngine.RecallChurn
