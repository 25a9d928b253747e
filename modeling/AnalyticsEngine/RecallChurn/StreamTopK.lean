import AnalyticsEngine.Library.Slices
import AnalyticsEngine.Library.TopBy
import AnalyticsEngine.RecallChurn.Npz
import Mathlib.Order.WithBot

/-!
# Exact neighbours from a stream (scripts/measure_recall_churn.py)

`_stream_exact_top_k` scores the rows of a file chunk by chunk and keeps `k` entries for each query;
`_exact_top_k` scores a matrix in memory. Both leave open which of several equal scores they take
(`argpartition`, `argsort`). A score is taken to be the same whatever is multiplied along with it.
-/

namespace AnalyticsEngine.RecallChurn
open Library

variable {β V α : Type*}

/-! ### The cache of normalized rows -/

/- `dict[int, np.ndarray]`. -/
abbrev RowCache (V : Type*) := ℕ → Option V

/-- `for position, vector in zip(…): cache[position] = vector`. -/
def assignRows (cache : RowCache V) (rows : List (ℕ × V)) : RowCache V :=
  rows.foldl (fun cache row => Function.update cache row.1 (some row.2)) cache

/-- `_ensure_normalized_cached`. -/
def ensureNormalizedCached (normalize : List β → V) (m : Member β) (cache : RowCache V)
    (positions : List ℕ) (chunkBytes : ℕ) : Except ScriptError (RowCache V) :=
  let missing := (positions.toFinset.filter fun p => (cache p).isNone).sort
  if missing = [] then .ok cache
  else (extractRows m missing chunkBytes).map fun rows =>
    assignRows cache (missing.zip (rows.map normalize))

/-- `np.stack([rows[p] for p in positions])`. -/
def stackRows (cache : RowCache V) (positions : List ℕ) : Except ScriptError (List V) :=
  match positions.mapM cache with
  | none => .error .missingKey
  | some rows => if rows.isEmpty then .error .nothingToStack else .ok rows

/-- The normalized rows of the queries, and the cache as it is then. -/
def queryRows (normalize : List β → V) (m : Member β) (cache : Option (RowCache V))
    (queries : List ℕ) (chunkBytes : ℕ) : Except ScriptError (List V × Option (RowCache V)) :=
  match cache with
  | some cache =>
    (ensureNormalizedCached normalize m cache queries chunkBytes).bind fun cache =>
      (stackRows cache queries).map fun rows => (rows, some cache)
  | none =>
    let unique := queries.toFinset.sort
    (extractRows m unique chunkBytes).bind fun rows =>
      (stackRows (assignRows (fun _ => none) (unique.zip (rows.map normalize))) queries).map
        fun rows => (rows, none)

/-! ### The running choice -/

/- A cell of the score and of the position array; `-inf` is the bottom. -/
@[ext] structure Entry (α : Type*) where
  score : WithBot α
  position : ℤ

variable [LinearOrder α]

/-- `(-np.inf, -1)`, what the arrays are filled with. -/
def Entry.filler : Entry α := ⟨⊥, -1⟩

/- What NumPy is asked for: a partial sort, and a full sort that need not be stable. -/
structure Numpy (α : Type*) [LinearOrder α] where
  argpartition : Selector (Entry.score : Entry α → WithBot α)
  argsort : Sorter (Entry.score : Entry α → WithBot α)

/-- The scores of the rows from `position` on for one query, its own row excluded. -/
def chunkEntries (score : V → V → α) (query : ℕ × V) (position : ℕ) (chunk : List V) :
    List (Entry α) :=
  (chunk.zipIdx position).map fun row =>
    ⟨if row.2 = query.1 then ⊥ else (score row.1 query.2 : WithBot α), row.2⟩

/-- `top_scores` and `top_positions` of one query after a chunk. -/
def mergeChunk (numpy : Numpy α) (k : ℕ) (top block : List (Entry α)) : List (Entry α) :=
  let combined := top ++ block
  let keep := min k combined.length
  numpy.argpartition.run keep combined ++ List.replicate (k - keep) Entry.filler

/-- The loop over the chunks: the position reached, and what is kept for each query. -/
def mergeChunks (numpy : Numpy α) (score : V → V → α) (k : ℕ) (queries : List (ℕ × V))
    (chunks : List (List V)) : ℕ × List (List (Entry α)) :=
  chunks.foldl
    (fun state chunk => (state.1 + chunk.length, (queries.zip state.2).map fun x =>
      mergeChunk numpy k x.2 (chunkEntries score x.1 state.1 chunk)))
    (0, queries.map fun _ => List.replicate k Entry.filler)

/- Positions best first and the k-th score, for each query. -/
structure TopK (α : Type*) where
  results : List (List ℤ)
  kthScores : List (WithBot α)

/-- The lists that come back for the sorted entries of each query. -/
def TopK.of (tops : List (List (Entry α))) : TopK α where
  results := tops.map fun top => top.map Entry.position
  kthScores := tops.map fun top => (top.getLast?.map Entry.score).getD ⊥

/-- `_stream_exact_top_k`, and the cache it leaves. -/
def streamExactTopK (numpy : Numpy α) (normalize : List β → V) (score : V → V → α) (m : Member β)
    (queryPositions : List ℕ) (k chunkBytes : ℕ) (cache : Option (RowCache V)) :
    Except ScriptError (TopK α × Option (RowCache V)) :=
  (queryRows normalize m cache queryPositions chunkBytes).bind fun (queries, cache) =>
    let dim := m.shape.getD 1 0
    let bytesPerRow := dim * 4 + queryPositions.length * 4 + queryPositions.length * 4
    let chunkRows := max 1 (chunkBytes / bytesPerRow)
    let stream := iterNpzVectorChunks m (chunkRows * dim * 4)
    match stream.raised with
    | some e => .error e
    | none =>
      let tops := (mergeChunks numpy score k (queryPositions.zip queries)
        (stream.yielded.map fun chunk => chunk.map normalize)).2
      .ok (.of (tops.map numpy.argsort.run), cache)

/-- The sorted entries of one query of `_exact_top_k`. -/
def exactTop (numpy : Numpy α) (score : V → V → α) (normalized : List V) (k position : ℕ) :
    Except ScriptError (List (Entry α)) :=
  match normalized[position]? with
  | none => .error (.outOfRange position normalized.length)
  | some query =>
    if normalized.length ≤ k then .error .kthOutOfBounds
    else .ok (numpy.argsort.run
      (numpy.argpartition.run k (chunkEntries score (position, query) 0 normalized)))

/-- `_exact_top_k`. -/
def exactTopK (numpy : Numpy α) (score : V → V → α) (normalized : List V) (queryPositions : List ℕ)
    (k : ℕ) : Except ScriptError (TopK α) :=
  (queryPositions.mapM (exactTop numpy score normalized k)).map TopK.of

/-! ### What the cache holds -/

section
omit [LinearOrder α]
variable {normalize : List β → V} {m : Member β} {nRows nCols : ℕ}

/-- Every row in the cache is the normalized row of its position. -/
def Coherent (normalize : List β → V) (m : Member β) (nCols : ℕ) (cache : RowCache V) : Prop :=
  ∀ p v, cache p = some v → v = normalize (m.row nCols p)

/-- The cache with the rows of the positions. -/
def RowCache.fill (cache : RowCache V) (positions : List ℕ) (row : ℕ → V) : RowCache V :=
  fun p => if p ∈ positions ∧ (cache p).isNone then some (row p) else cache p

theorem assignRows_get (cache : RowCache V) (row : ℕ → V) (positions : List ℕ) (p : ℕ) :
    assignRows cache (positions.zip (positions.map row)) p =
      if p ∈ positions then some (row p) else cache p := by
  unfold assignRows
  induction positions generalizing cache with
  | nil => rfl
  | cons q positions ih =>
    rw [List.map_cons, List.zip_cons_cons, List.foldl_cons, ih]
    by_cases hp : p ∈ positions
    · rw [if_pos hp, if_pos (List.mem_cons_of_mem q hp)]
    · rw [if_neg hp]
      by_cases hq : p = q
      · subst hq
        rw [Function.update_self, if_pos List.mem_cons_self]
      · rw [Function.update_of_ne hq, if_neg (by simp [hp, hq])]

theorem assign_fill (cache : RowCache V) (row : ℕ → V) {positions missing : List ℕ}
    (h : ∀ p, p ∈ missing ↔ p ∈ positions ∧ (cache p).isNone) :
    assignRows cache (missing.zip (missing.map row)) = cache.fill positions row := by
  funext p
  rw [assignRows_get]
  unfold RowCache.fill
  simp only [h]

theorem coherent_fill {cache : RowCache V} (h : Coherent normalize m nCols cache)
    (positions : List ℕ) :
    Coherent normalize m nCols (cache.fill positions fun p => normalize (m.row nCols p)) := by
  intro p v hv
  unfold RowCache.fill at hv
  split_ifs at hv with hp
  · exact (Option.some.inj hv).symm
  · exact h p v hv

theorem fill_get {cache : RowCache V} (h : Coherent normalize m nCols cache) {positions : List ℕ}
    {p : ℕ} (hp : p ∈ positions) :
    cache.fill positions (fun p => normalize (m.row nCols p)) p = some (normalize (m.row nCols p)) := by
  unfold RowCache.fill
  cases hcache : cache p with
  | none => rw [if_pos ⟨hp, rfl⟩]
  | some v =>
    rw [if_neg (by simp)]
    rw [h p v hcache]

/-- From a whole file the cache gets the rows that it lacks. -/
theorem ensure_whole (hm : m.Matrix nRows nCols) (hwhole : m.Whole nRows nCols) {positions : List ℕ}
    (hrange : ∀ p ∈ positions, p < nRows) (cache : RowCache V) (chunkBytes : ℕ) :
    ensureNormalizedCached normalize m cache positions chunkBytes =
      .ok (cache.fill positions fun p => normalize (m.row nCols p)) := by
  have hmissing : ∀ p, p ∈ (positions.toFinset.filter fun p => (cache p).isNone).sort ↔
      p ∈ positions ∧ (cache p).isNone := by
    intro p
    rw [Finset.mem_sort, Finset.mem_filter, List.mem_toFinset]
  have hsorted := sort_pairwise_lt (positions.toFinset.filter fun p => (cache p).isNone)
  unfold ensureNormalizedCached
  rw [← assign_fill cache _ hmissing]
  generalize (positions.toFinset.filter fun p => (cache p).isNone).sort = missing at *
  dsimp only
  by_cases hempty : missing = []
  · rw [if_pos hempty, hempty]
    rfl
  · rw [if_neg hempty, extractRows_whole hm hwhole hsorted fun p hp => hrange p ((hmissing p).mp hp).1]
    simp only [Except.map, List.map_map]
    rfl

theorem stackRows_ok {cache : RowCache V} {positions : List ℕ} {row : ℕ → V}
    (hne : positions ≠ []) (h : ∀ p ∈ positions, cache p = some (row p)) :
    stackRows cache positions = .ok (positions.map row) := by
  have hall : positions.mapM cache = some (positions.map row) := by
    clear hne
    induction positions with
    | nil => rfl
    | cons p positions ih =>
      rw [List.mapM_cons, h p List.mem_cons_self, ih fun q hq => h q (List.mem_cons_of_mem p hq)]
      rfl
  unfold stackRows
  rw [hall]
  simp [hne]

/-- The normalized rows of the queries, whatever the cache already held of them. -/
theorem queryRows_whole (hm : m.Matrix nRows nCols) (hwhole : m.Whole nRows nCols)
    {queries : List ℕ} (hne : queries ≠ []) (hrange : ∀ q ∈ queries, q < nRows)
    {cache : Option (RowCache V)} (hcache : ∀ c ∈ cache, Coherent normalize m nCols c)
    (chunkBytes : ℕ) :
    queryRows normalize m cache queries chunkBytes =
      .ok (queries.map fun q => normalize (m.row nCols q),
        cache.map fun c => c.fill queries fun p => normalize (m.row nCols p)) := by
  unfold queryRows
  cases cache with
  | some cache =>
    have hrows := stackRows_ok hne fun p hp => fill_get (hcache cache rfl) hp
    simp only [ensure_whole hm hwhole hrange, Except.bind, hrows, Except.map, Option.map_some]
  | none =>
    have hunique : ∀ q, q ∈ queries.toFinset.sort ↔ q ∈ queries ∧ ((none : Option V)).isNone := by
      simp
    have hempty : Coherent normalize m nCols fun _ => none := by
      intro p v h
      cases h
    have hrows := stackRows_ok hne fun p hp => fill_get hempty hp
    have hsorted := sort_pairwise_lt queries.toFinset
    dsimp only
    rw [extractRows_whole hm hwhole hsorted fun q hq => hrange q ((hunique q).mp hq).1]
    simp only [Except.bind, List.map_map, Function.comp_def]
    rw [assign_fill (fun _ => none) (fun p => normalize (m.row nCols p)) hunique, hrows]
    rfl

end

/-! ### The entries of one query -/

section
omit [LinearOrder α]
variable {score : V → V → α} {query : ℕ × V}

theorem chunkEntries_append (position : ℕ) (chunk later : List V) :
    chunkEntries score query position (chunk ++ later) =
      chunkEntries score query position chunk ++
        chunkEntries score query (position + chunk.length) later := by
  unfold chunkEntries
  rw [List.zipIdx_append, List.map_append]

/-- The blocks of entries that the chunks give. -/
def blocks (score : V → V → α) (query : ℕ × V) : ℕ → List (List V) → List (List (Entry α))
  | _, [] => []
  | position, chunk :: chunks =>
    chunkEntries score query position chunk :: blocks score query (position + chunk.length) chunks

theorem blocks_flatten (position : ℕ) (chunks : List (List V)) :
    (blocks score query position chunks).flatten =
      chunkEntries score query position chunks.flatten := by
  induction chunks generalizing position with
  | nil => rfl
  | cons chunk chunks ih =>
    rw [blocks, List.flatten_cons, List.flatten_cons, chunkEntries_append, ih]

end

theorem zip_map_self {ι γ δ : Type*} (l : List ι) (f : ι → γ) (g : ι × γ → δ) :
    (l.zip (l.map f)).map g = l.map fun x => g (x, f x) := by
  induction l with
  | nil => rfl
  | cons x l ih => rw [List.map_cons, List.zip_cons_cons, List.map_cons, List.map_cons, ih]

/-- Each query is served by itself. -/
theorem mergeChunks_queries (score : V → V → α) (numpy : Numpy α) (k : ℕ) (queries : List (ℕ × V))
    (chunks : List (List V)) :
    (mergeChunks numpy score k queries chunks).2 = queries.map fun query =>
      (blocks score query 0 chunks).foldl (mergeChunk numpy k) (List.replicate k Entry.filler) := by
  unfold mergeChunks
  generalize 0 = position
  generalize hstart : (fun _ : ℕ × V => List.replicate k (Entry.filler : Entry α)) = start
  have hsame : (queries.map fun query => (blocks score query position chunks).foldl
      (mergeChunk numpy k) (List.replicate k Entry.filler)) =
      queries.map fun query => (blocks score query position chunks).foldl (mergeChunk numpy k)
        (start query) := by
    rw [← hstart]
  rw [hsame]
  clear hsame hstart
  induction chunks generalizing position start with
  | nil => rfl
  | cons chunk chunks ih =>
    rw [List.foldl_cons, zip_map_self, ih]
    rfl

theorem mergeChunk_topBy (numpy : Numpy α) (k : ℕ) (top block : List (Entry α))
    (htop : top.length = k) : TopBy Entry.score k (top ++ block) (mergeChunk numpy k top block) := by
  have hkeep : min k (top ++ block).length = k := by
    rw [List.length_append]
    omega
  unfold mergeChunk
  simp only [hkeep, Nat.sub_self, List.replicate_zero, List.append_nil]
  exact numpy.argpartition.selects k _

/-- The other rows as entries of a query; `s c q` is the score of row `c` for query `q`. -/
def others (s : ℕ → ℕ → α) (n q : ℕ) : List (Entry α) :=
  ((List.range n).filter (· ≠ q)).map fun c => ⟨(s c q : WithBot α), c⟩

section
omit [LinearOrder α]
variable {s : ℕ → ℕ → α} {n q k : ℕ}

theorem mem_others {e : Entry α} :
    e ∈ others s n q ↔ ∃ c < n, c ≠ q ∧ e = ⟨(s c q : WithBot α), c⟩ := by
  unfold others
  simp only [List.mem_map, List.mem_filter, List.mem_range, ne_eq, decide_eq_true_eq, and_assoc,
    eq_comm (b := e)]

theorem others_nodup : ((others s n q).map Entry.position).Nodup := by
  unfold others
  rw [List.map_map]
  refine (List.nodup_range.filter _).map ?_
  intro a b h
  exact Int.ofNat_inj.mp h

theorem range_perm (hq : q < n) : (List.range n).Perm (q :: (List.range n).filter (· ≠ q)) :=
  perm_cons_without List.nodup_range (List.mem_range.mpr hq)

theorem others_length (hq : q < n) : (others s n q).length = n - 1 := by
  have hlength := (range_perm hq).length_eq
  unfold others
  rw [List.length_range, List.length_cons] at hlength
  rw [List.length_map]
  omega

/-- The entries of the whole matrix are the other rows and the query's own, without a score. -/
theorem chunkEntries_perm (score : V → V → α) (row : ℕ → V) (hq : q < n) :
    (chunkEntries score (q, row q) 0 ((List.range n).map row)).Perm
      (others (fun c q => score (row c) (row q)) n q ++ [⟨⊥, q⟩]) := by
  have hentries : chunkEntries score (q, row q) 0 ((List.range n).map row) =
      (List.range n).map fun c =>
        ⟨if c = q then ⊥ else (score (row c) (row q) : WithBot α), c⟩ := by
    unfold chunkEntries
    apply List.ext_getElem
    · simp
    · intro i hi hi'
      simp
  have hothers : ((List.range n).filter (· ≠ q)).map (fun c =>
      (⟨if c = q then ⊥ else (score (row c) (row q) : WithBot α), c⟩ : Entry α)) =
        others (fun c q => score (row c) (row q)) n q := by
    apply List.map_congr_left
    intro c hc
    have hne : c ≠ q := of_decide_eq_true (List.mem_filter.mp hc).2
    rw [if_neg hne]
  rw [hentries]
  refine ((range_perm hq).map _).trans ?_
  rw [List.map_cons, hothers, if_pos rfl]
  exact (List.perm_append_singleton _ _).symm

end

/-! ### The nearest rows -/

/-- `k` other rows, best first, none of the rows left out scoring better than the last. -/
structure Nearest (s : ℕ → ℕ → α) (n k q : ℕ) (row : List ℤ) (kth : WithBot α) : Prop where
  length : row.length = k
  nodup : row.Nodup
  inRange : ∀ p ∈ row, ∃ c < n, c ≠ q ∧ p = c
  sorted : row.Pairwise fun a b => s b.toNat q ≤ s a.toNat q
  last : ∃ p, row.getLast? = some p ∧ kth = s p.toNat q
  leftOut : ∀ c < n, c ≠ q → (c : ℤ) ∉ row → (s c q : WithBot α) ≤ kth

section
variable {s : ℕ → ℕ → α} {n q k : ℕ} {top top' : List (Entry α)}

/-- What `TopK.of` makes of the entries of one query. -/
def kthScore (top : List (Entry α)) : WithBot α := (top.getLast?.map Entry.score).getD ⊥

omit [LinearOrder α] in
theorem entry_others {e : Entry α} (he : e ∈ others s n q) :
    e.score = s e.position.toNat q := by
  obtain ⟨c, _, _, rfl⟩ := mem_others.mp he
  simp

theorem kthScore_le (hsorted : top.Pairwise fun a b => b.score ≤ a.score) {a : Entry α}
    (ha : a ∈ top) : kthScore top ≤ a.score := by
  unfold kthScore
  rcases List.eq_nil_or_concat top with rfl | ⟨earlier, e, rfl⟩
  · cases ha
  · rw [List.concat_eq_append] at ha hsorted ⊢
    rw [List.getLast?_concat, Option.map_some, Option.getD_some]
    rcases List.mem_append.mp ha with ha | ha
    · exact (List.pairwise_append.mp hsorted).2.2 a ha e (List.mem_singleton_self e)
    · rw [List.mem_singleton.mp ha]

theorem nearest_of_topBy (h : TopBy Entry.score k (others s n q) top)
    (hsorted : top.Pairwise fun a b => b.score ≤ a.score) (hq : q < n) (hk : 1 ≤ k) (hkn : k < n) :
    Nearest s n k q (top.map Entry.position) (kthScore top) := by
  have hlength := h.length
  rw [others_length hq, min_eq_left (by omega)] at hlength
  have hlast : ∃ e, top.getLast? = some e := by
    refine ⟨_, List.getLast?_eq_some_getLast ?_⟩
    rintro rfl
    simp at hlength
    omega
  obtain ⟨e, he⟩ := hlast
  have hmem := List.mem_of_getLast? he
  refine ⟨?_, ?_, ?_, ?_, ?_, ?_⟩
  · rw [List.length_map, hlength]
  · obtain ⟨rest, hperm, _⟩ := h
    have hnodup := (hperm.map Entry.position).nodup_iff.mpr others_nodup
    rw [List.map_append] at hnodup
    exact hnodup.of_append_left
  · intro p hp
    obtain ⟨x, hx, rfl⟩ := List.mem_map.mp hp
    obtain ⟨c, hc, hcq, rfl⟩ := mem_others.mp (h.subset hx)
    exact ⟨c, hc, hcq, rfl⟩
  · rw [List.pairwise_map]
    refine hsorted.imp_of_mem ?_
    intro a b ha hb hab
    rw [entry_others (h.subset ha), entry_others (h.subset hb)] at hab
    exact WithBot.coe_le_coe.mp hab
  · refine ⟨e.position, ?_, ?_⟩
    · rw [List.getLast?_map, he]
      rfl
    · rw [← entry_others (h.subset hmem)]
      unfold kthScore
      rw [he]
      rfl
  · intro c hc hcq hnot
    have hout : (⟨(s c q : WithBot α), c⟩ : Entry α) ∉ top := fun hin =>
      hnot (List.mem_map.mpr ⟨_, hin, rfl⟩)
    have hle := h.left_out hmem (mem_others.mpr ⟨c, hc, hcq, rfl⟩) hout
    unfold kthScore
    rw [he]
    exact hle

/-- Two such choices agree in their scores, and in their rows where the last score has no tie. -/
theorem nearest_agree (h : TopBy Entry.score k (others s n q) top)
    (h' : TopBy Entry.score k (others s n q) top')
    (hsorted : top.Pairwise fun a b => b.score ≤ a.score)
    (hsorted' : top'.Pairwise fun a b => b.score ≤ a.score) :
    kthScore top = kthScore top' ∧
      (top.map Entry.position).map (fun p => s p.toNat q) =
        (top'.map Entry.position).map (fun p => s p.toNat q) ∧
      ((∀ c < n, c ≠ q → (c : ℤ) ∉ top.map Entry.position → (s c q : WithBot α) < kthScore top) →
        (top'.map Entry.position).Perm (top.map Entry.position)) := by
  have hkeys := h.keys_eq h' hsorted hsorted'
  refine ⟨?_, ?_, ?_⟩
  · unfold kthScore
    rw [← List.getLast?_map, ← List.getLast?_map, hkeys]
  · have hscores : ∀ {t : List (Entry α)}, t ⊆ others s n q →
        ((t.map Entry.position).map fun p => s p.toNat q).map WithBot.some = t.map Entry.score := by
      intro t ht
      rw [List.map_map, List.map_map]
      apply List.map_congr_left
      intro e he
      exact (entry_others (ht he)).symm
    apply List.map_injective_iff.mpr (WithBot.coe_injective (α := α))
    rw [hscores h.subset, hscores h'.subset, hkeys]
  · intro hgap
    refine (h.perm_of_gap h' others_nodup.of_map ?_).map _
    intro a ha b hb hnot
    obtain ⟨c, hc, hcq, rfl⟩ := mem_others.mp hb
    refine (hgap c hc hcq ?_).trans_le (kthScore_le hsorted ha)
    intro hin
    obtain ⟨e, he, hposition⟩ := List.mem_map.mp hin
    obtain ⟨d, _, _, rfl⟩ := mem_others.mp (h.subset he)
    have hdc : d = c := Int.ofNat_inj.mp hposition
    exact hnot (hdc ▸ he)

end

/-! ### The two computations -/

section
variable {normalize : List β → V} (score : V → V → α) {m : Member β} {nRows nCols : ℕ}
  {queries : List ℕ}

/-- The score of two rows of the member. -/
def Member.rowScore (normalize : List β → V) (score : V → V → α) (m : Member β) (nCols c q : ℕ) :
    α :=
  score (normalize (m.row nCols c)) (normalize (m.row nCols q))

/-- The sorted entries that the stream ends with for one query. -/
def streamTop (numpy : Numpy α) (score : V → V → α) (row : ℕ → V) (k : ℕ) (chunks : List (List V))
    (q : ℕ) : List (Entry α) :=
  numpy.argsort.run ((blocks score (q, row q) 0 chunks).foldl (mergeChunk numpy k)
    (List.replicate k Entry.filler))

theorem streamExactTopK_whole (hm : m.Matrix nRows nCols) (hwhole : m.Whole nRows nCols)
    (hne : queries ≠ []) (hrange : ∀ q ∈ queries, q < nRows) {cache : Option (RowCache V)}
    (hcache : ∀ c ∈ cache, Coherent normalize m nCols c) (numpy : Numpy α) (k chunkBytes : ℕ) :
    ∃ chunks : List (List V),
      chunks.flatten = (List.range nRows).map (fun c => normalize (m.row nCols c)) ∧
      streamExactTopK numpy normalize score m queries k chunkBytes cache =
        .ok (.of (queries.map (streamTop numpy score (fun c => normalize (m.row nCols c)) k chunks)),
          cache.map fun c => c.fill queries fun p => normalize (m.row nCols p)) := by
  unfold streamExactTopK
  rw [queryRows_whole hm hwhole hne hrange hcache chunkBytes]
  simp only [Except.bind, iter_matrix hm]
  generalize max 1 (chunkBytes / _) * m.shape.getD 1 0 * 4 / (nCols * m.itemsize) = chunkRows
  obtain ⟨hraised, hrows⟩ := readRows_whole chunkRows nRows hwhole
  rw [hraised]
  refine ⟨(readRows (nCols * m.itemsize) chunkRows nRows m.data).yielded.map fun chunk =>
    chunk.map normalize, ?_, ?_⟩
  · rw [← List.map_flatten, hrows, List.map_map]
    rfl
  · dsimp only
    rw [mergeChunks_queries, ← List.map_id (queries.zip _), zip_map_self]
    simp only [List.map_map]
    rfl

/-- The stream's choice is one among the other rows and fillers. -/
theorem streamTop_topBy (numpy : Numpy α) (row : ℕ → V) (k : ℕ) {chunks : List (List V)} {n q : ℕ}
    (hchunks : chunks.flatten = (List.range n).map row) (hq : q < n) :
    TopBy Entry.score k (others (fun c q => score (row c) (row q)) n q ++
        ⟨⊥, q⟩ :: List.replicate k Entry.filler) (streamTop numpy score row k chunks q) ∧
      (streamTop numpy score row k chunks q).Pairwise fun a b => b.score ≤ a.score := by
  have hstart : (List.replicate k (Entry.filler : Entry α)).length = k := List.length_replicate
  have htop := topBy_foldl (mergeChunk_topBy numpy k) (blocks score (q, row q) 0 chunks)
    (TopBy.self hstart.le) hstart
  rw [blocks_flatten, hchunks] at htop
  refine ⟨?_, numpy.argsort.sorted _⟩
  refine (htop.perm ?_).perm_out (numpy.argsort.perm _).symm
  refine ((chunkEntries_perm score row hq).append_left _).trans ?_
  refine List.perm_append_comm.trans ?_
  rw [List.append_assoc]
  exact List.Perm.refl _

theorem behind_others {s : ℕ → ℕ → α} {n q k : ℕ} :
    ∀ a ∈ others s n q, ∀ b ∈ (⟨⊥, q⟩ :: List.replicate k Entry.filler : List (Entry α)),
      b.score < a.score := by
  intro a ha b hb
  obtain ⟨c, _, _, rfl⟩ := mem_others.mp ha
  have hbot : b.score = ⊥ := by
    rcases List.mem_cons.mp hb with rfl | hb
    · rfl
    · rw [List.eq_of_mem_replicate hb]
      rfl
  rw [hbot]
  exact WithBot.bot_lt_coe _

theorem exactTopK_rows (numpy : Numpy α) (row : ℕ → V) {k n : ℕ} (hk : k < n)
    (hrange : ∀ q ∈ queries, q < n) :
    exactTopK numpy score ((List.range n).map row) queries k =
      .ok (.of (queries.map fun q => numpy.argsort.run (numpy.argpartition.run k
        (chunkEntries score (q, row q) 0 ((List.range n).map row))))) := by
  unfold exactTopK
  rw [mapM_eq_pure]
  · rfl
  · intro q hq
    have hget : ((List.range n).map row)[q]? = some (row q) := by
      rw [List.getElem?_map, List.getElem?_range (hrange q hq)]
      rfl
    unfold exactTop
    rw [hget]
    simp only [List.length_map, List.length_range, if_neg (not_le.mpr hk)]
    rfl

/-- Streamed from a file, in chunks of any size and with or without a cache, the nearest rows are
those of the matrix in memory: rank by rank the scores are the same, and where no score is tied with
the last one, so are the rows. -/
theorem streamExactTopK_exact (hm : m.Matrix nRows nCols) (hwhole : m.Whole nRows nCols)
    (hne : queries ≠ []) (hrange : ∀ q ∈ queries, q < nRows) {cache : Option (RowCache V)}
    (hcache : ∀ c ∈ cache, Coherent normalize m nCols c) {k : ℕ} (hk : 1 ≤ k) (hkn : k < nRows)
    (numpy numpy' : Numpy α) (chunkBytes : ℕ) :
    ∃ (row row' : ℕ → List ℤ) (kth : ℕ → WithBot α),
      streamExactTopK numpy normalize score m queries k chunkBytes cache =
        .ok (⟨queries.map row, queries.map kth⟩,
          cache.map fun c => c.fill queries fun p => normalize (m.row nCols p)) ∧
      exactTopK numpy' score ((List.range nRows).map fun c => normalize (m.row nCols c)) queries k =
        .ok ⟨queries.map row', queries.map kth⟩ ∧
      ∀ q ∈ queries,
        Nearest (m.rowScore normalize score nCols) nRows k q (row q) (kth q) ∧
        Nearest (m.rowScore normalize score nCols) nRows k q (row' q) (kth q) ∧
        (row q).map (fun p => m.rowScore normalize score nCols p.toNat q) =
          (row' q).map (fun p => m.rowScore normalize score nCols p.toNat q) ∧
        ((∀ c < nRows, c ≠ q → (c : ℤ) ∉ row q →
            ((m.rowScore normalize score nCols c q : α) : WithBot α) < kth q) →
          (row' q).Perm (row q)) := by
  obtain ⟨chunks, hchunks, hstream⟩ :=
    streamExactTopK_whole score hm hwhole hne hrange hcache numpy k chunkBytes
  generalize hrows : (fun c => normalize (m.row nCols c)) = rows at *
  have hscore : m.rowScore normalize score nCols = fun c q => score (rows c) (rows q) := by
    rw [← hrows]
    rfl
  have hexact := exactTopK_rows score numpy' rows hkn hrange
  generalize hexactTop : (fun q => numpy'.argsort.run (numpy'.argpartition.run k
    (chunkEntries score (q, rows q) 0 ((List.range nRows).map rows)))) = top' at hexact
  have hboth : ∀ q ∈ queries,
      (TopBy Entry.score k (others (fun c q => score (rows c) (rows q)) nRows q)
          (streamTop numpy score rows k chunks q) ∧
        (streamTop numpy score rows k chunks q).Pairwise fun a b => b.score ≤ a.score) ∧
      TopBy Entry.score k (others (fun c q => score (rows c) (rows q)) nRows q) (top' q) ∧
        (top' q).Pairwise fun a b => b.score ≤ a.score := by
    intro q hq
    have hroom : k ≤ (others (fun c q => score (rows c) (rows q)) nRows q).length := by
      rw [others_length (hrange q hq)]
      omega
    obtain ⟨hstreamTop, hsorted⟩ := streamTop_topBy score numpy rows k hchunks (hrange q hq)
    refine ⟨⟨hstreamTop.of_append hroom behind_others, hsorted⟩, ?_, ?_⟩
    · rw [← hexactTop]
      refine (TopBy.of_append ?_ hroom (behind_others (k := 0))).perm_out
        (numpy'.argsort.perm _).symm
      exact (numpy'.argpartition.selects k _).perm (chunkEntries_perm score rows (hrange q hq))
    · rw [← hexactTop]
      exact numpy'.argsort.sorted _
  have hkth : ∀ q ∈ queries, kthScore (streamTop numpy score rows k chunks q) = kthScore (top' q) := by
    intro q hq
    obtain ⟨⟨htop, hsorted⟩, htop', hsorted'⟩ := hboth q hq
    exact (nearest_agree htop htop' hsorted hsorted').1
  refine ⟨fun q => (streamTop numpy score rows k chunks q).map Entry.position,
    fun q => (top' q).map Entry.position, fun q => kthScore (top' q), ?_, ?_, ?_⟩
  · rw [hstream, ← List.map_congr_left hkth]
    simp only [TopK.of, List.map_map]
    rfl
  · rw [hexact]
    simp only [TopK.of, List.map_map]
    rfl
  · intro q hq
    obtain ⟨⟨htop, hsorted⟩, htop', hsorted'⟩ := hboth q hq
    obtain ⟨_, hscores, hgap⟩ := nearest_agree htop htop' hsorted hsorted'
    have hnearest := nearest_of_topBy htop hsorted (hrange q hq) hk hkn
    rw [hkth q hq] at hnearest hgap
    rw [hscore]
    exact ⟨hnearest, nearest_of_topBy htop' hsorted' (hrange q hq) hk hkn, hscores, hgap⟩

/-- With fewer than `k` other rows the stream returns them all and fills up with the query's own
position and `-1`, at a k-th score of `-inf`; the matrix in memory is refused. -/
theorem streamExactTopK_short (hm : m.Matrix nRows nCols) (hwhole : m.Whole nRows nCols)
    (hne : queries ≠ []) (hrange : ∀ q ∈ queries, q < nRows) {cache : Option (RowCache V)}
    (hcache : ∀ c ∈ cache, Coherent normalize m nCols c) {k : ℕ} (hkn : nRows ≤ k)
    (numpy numpy' : Numpy α) (chunkBytes : ℕ) :
    exactTopK numpy' score ((List.range nRows).map fun c => normalize (m.row nCols c)) queries k =
      .error .kthOutOfBounds ∧
    ∃ row : ℕ → List ℤ,
      streamExactTopK numpy normalize score m queries k chunkBytes cache =
        .ok (⟨queries.map row, queries.map fun _ => ⊥⟩,
          cache.map fun c => c.fill queries fun p => normalize (m.row nCols p)) ∧
      ∀ q ∈ queries, ∃ fill : List ℤ,
        (row q).Perm (((List.range nRows).filter (· ≠ q)).map Int.ofNat ++ fill) ∧
        fill.length = k - (nRows - 1) ∧ ∀ p ∈ fill, p = -1 ∨ p = q := by
  obtain ⟨chunks, hchunks, hstream⟩ :=
    streamExactTopK_whole score hm hwhole hne hrange hcache numpy k chunkBytes
  generalize (fun c => normalize (m.row nCols c)) = rows at *
  constructor
  · obtain ⟨q, rest, rfl⟩ := List.exists_cons_of_ne_nil hne
    have hget : ((List.range nRows).map rows)[q]? = some (rows q) := by
      rw [List.getElem?_map, List.getElem?_range (hrange q List.mem_cons_self)]
      rfl
    have hlong : ((List.range nRows).map rows).length ≤ k := by
      rw [List.length_map, List.length_range]
      exact hkn
    unfold exactTopK
    rw [List.mapM_cons, exactTop, hget]
    simp only [if_pos hlong]
    rfl
  · have hfilled : ∀ q ∈ queries, ∃ fill : List (Entry α),
        (streamTop numpy score rows k chunks q).Perm
          (others (fun c q => score (rows c) (rows q)) nRows q ++ fill) ∧
        fill.length = k - (nRows - 1) ∧ ∀ e ∈ fill, e.score = ⊥ ∧ (e.position = -1 ∨ e.position = q) := by
      intro q hq
      have hcount := others_length (s := fun c q => score (rows c) (rows q)) (hrange q hq)
      have hlt := hrange q hq
      obtain ⟨htop, _⟩ := streamTop_topBy score numpy rows k hchunks hlt
      have hlength := htop.length
      obtain ⟨fill, hperm, hsub⟩ := htop.fill_up (by omega) behind_others
      have hsize := hperm.length_eq
      rw [List.length_append, List.length_cons, List.length_replicate] at hlength
      rw [List.length_append] at hsize
      refine ⟨fill, hperm, by omega, ?_⟩
      intro e he
      rcases List.mem_cons.mp (hsub he) with rfl | he
      · exact ⟨rfl, Or.inr rfl⟩
      · rw [List.eq_of_mem_replicate he]
        exact ⟨rfl, Or.inl rfl⟩
    have hkth : ∀ q ∈ queries, kthScore (streamTop numpy score rows k chunks q) = ⊥ := by
      intro q hq
      obtain ⟨fill, hperm, hlength, hfill⟩ := hfilled q hq
      have hlt := hrange q hq
      obtain ⟨e, later, rfl⟩ := List.exists_cons_of_length_pos (l := fill) (by omega)
      have he := hperm.mem_iff.mpr (List.mem_append_right _ List.mem_cons_self)
      have hle := kthScore_le (streamTop_topBy score numpy rows k hchunks hlt).2 he
      rw [(hfill e List.mem_cons_self).1] at hle
      exact le_bot_iff.mp hle
    refine ⟨fun q => (streamTop numpy score rows k chunks q).map Entry.position, ?_, ?_⟩
    · rw [hstream, ← List.map_congr_left hkth]
      simp only [TopK.of, List.map_map]
      rfl
    · intro q hq
      obtain ⟨fill, hperm, hlength, hfill⟩ := hfilled q hq
      refine ⟨fill.map Entry.position, ?_, ?_, ?_⟩
      · refine (hperm.map _).trans (List.Perm.of_eq ?_)
        unfold others
        rw [List.map_append, List.map_map]
        rfl
      · rw [List.length_map, hlength]
      · intro p hp
        obtain ⟨e, he, rfl⟩ := List.mem_map.mp hp
        exact (hfill e he).2

end

/-! ### A file of three rows -/

def Numpy.stable : Numpy α := ⟨.stable _, .stable _⟩

/- One column, one byte for each value. -/
def threeRows : Member ℤ := ⟨1, false, [3, 1], 1, [4, -2, 3]⟩

theorem threeRows_matrix : threeRows.Matrix 3 1 := ⟨Or.inl rfl, rfl, rfl, by decide⟩

theorem threeRows_whole : threeRows.Whole 3 1 := Nat.le_refl 3

def dot (a b : List ℤ) : ℤ := (List.zipWith (· * ·) a b).sum

theorem noCache_coherent : ∀ c ∈ (none : Option (RowCache (List ℤ))), Coherent id threeRows 1 c :=
  fun _ h => by cases h

theorem streamExactTopK_exact_threeRows : ∃ (row : ℕ → List ℤ) (kth : ℕ → WithBot ℤ),
    streamExactTopK .stable id dot threeRows [0, 2] 1 8 none =
      .ok (⟨[0, 2].map row, [0, 2].map kth⟩, none) ∧
    Nearest (threeRows.rowScore id dot 1) 3 1 0 (row 0) (kth 0) := by
  obtain ⟨row, _, kth, hstream, _, hrows⟩ := streamExactTopK_exact dot threeRows_matrix
    threeRows_whole (List.cons_ne_nil 0 [2]) (by decide) noCache_coherent (k := 1)
    (by decide) (by decide) .stable .stable 8
  exact ⟨row, kth, hstream, (hrows 0 (by decide)).1⟩

theorem streamExactTopK_short_threeRows : ∃ row : ℕ → List ℤ,
    streamExactTopK .stable id dot threeRows [0] 4 8 none = .ok (⟨[row 0], [⊥]⟩, none) ∧
    ∃ fill : List ℤ, (row 0).Perm ([1, 2] ++ fill) ∧ fill.length = 2 ∧ ∀ p ∈ fill, p = -1 ∨ p = 0 := by
  obtain ⟨_, row, hstream, hrows⟩ := streamExactTopK_short dot threeRows_matrix
    threeRows_whole (List.cons_ne_nil 0 []) (by decide) noCache_coherent (k := 4) (by decide)
    .stable .stable 8
  exact ⟨row, hstream, hrows 0 (by decide)⟩

end AnalyticsEngine.RecallChurn
