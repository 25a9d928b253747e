import AnalyticsEngine.Library.Grouping
import AnalyticsEngine.RecallChurn.StreamTopK
import Mathlib.Algebra.Order.BigOperators.Group.List
import Mathlib.Data.List.ReduceOption
import Mathlib.Data.Rat.Cast.Order
import Mathlib.Tactic.Positivity

/-!
# Recall of an index (scripts/measure_recall_churn.py)

`compute_exact_ground_truth` finds the exact neighbours of the sampled artists once; for each value
of `ef_search` the index is asked for theirs, and the recall is taken strictly, up to ties, and by
degree. The vectors are read through one cache that grows all along. Scores and means are taken to
be exact numbers.
-/

namespace AnalyticsEngine.RecallChurn
open Library

variable {β V ι γ : Type*}

/- A month as `_load_month` returns it; the vectors stay in the file. -/
structure Month (ι β : Type*) where
  member : Member β
  artistIds : List ι
  degrees : Option (List ℕ)

/- `ef_search`, the vector asked for and the limit, to the ids in their order. -/
abbrev Index (ι V : Type*) := ℕ → V → ℕ → List ι

def EF_SEARCH_SWEEP : List ℕ := [40, 100, 200, 400, 800, 1000]

def RECALL_TARGET : ℚ := 95 / 100

def TIE_TOLERANCE : ℚ := 1 / 10000

def DEGREE_BUCKET_EDGES : List ℕ := [1, 2, 4, 8, 16, 32, 64, 128, 256]

def DEFAULT_CHUNK_BYTES : ℕ := 256 * 1024 * 1024

/-! ### Recall of given lists -/

/-- `sum(scores) / len(scores) if scores else 0.0`. -/
def mean (scores : List ℚ) : ℚ := if scores = [] then 0 else scores.sum / scores.length

/-- `hits / min(k, len(exact))`. -/
def found (hits k : ℕ) (exact : List ι) : Except ScriptError (Option ℚ) :=
  if min k exact.length = 0 then .error .zeroDivision
  else .ok (some (hits / (min k exact.length : ℕ)))

section
variable [DecidableEq ι]

/-- One query of `_recall_at_k`; none where there is nothing to be found. -/
def strictScore (k : ℕ) (ann exact : List ι) : Except ScriptError (Option ℚ) :=
  if exact = [] then .ok none
  else found ((ann.take k).toFinset ∩ (exact.take k).toFinset).card k exact

def strictScores (k : ℕ) : List (List ι) → List (List ι) → Except ScriptError (List (Option ℚ))
  | [], [] => .ok []
  | ann :: anns, exact :: exacts =>
    (strictScore k ann exact).bind fun score => (strictScores k anns exacts).map (score :: ·)
  | _, _ => .error .lengthMismatch

/-- `_recall_at_k`. -/
def recallAtK (ann exactIds : List (List ι)) (k : ℕ) : Except ScriptError ℚ :=
  (strictScores k ann exactIds).map fun scores => mean scores.reduceOption

/-- Whether a candidate counts. -/
def tieHit (score : V → V → ℚ) (cache : RowCache V) (idToPosition : ι → Option ℕ)
    (exactSet : List ι) (kthScore : WithBot ℚ) (queryPosition : ℕ) (candidate : ι) :
    Except ScriptError Bool :=
  if candidate ∈ exactSet then .ok true
  else match (idToPosition candidate).bind cache with
    | none => .ok false
    | some vector => match cache queryPosition with
      | none => .error .missingKey
      | some query => .ok (decide (kthScore.map (· - TIE_TOLERANCE) ≤ score vector query))

/-- One query of `_tie_tolerant_recall_at_k`. -/
def tieScore (score : V → V → ℚ) (cache : RowCache V) (idToPosition : ι → Option ℕ) (k : ℕ)
    (ann exact : List ι) (kthScore : WithBot ℚ) (queryPosition : ℕ) :
    Except ScriptError (Option ℚ) :=
  if exact = [] then .ok none
  else ((ann.take k).mapM
      (tieHit score cache idToPosition (exact.take k) kthScore queryPosition)).bind fun hits =>
    found (hits.count true) k exact

def tieScores (score : V → V → ℚ) (cache : RowCache V) (idToPosition : ι → Option ℕ) (k : ℕ) :
    List (List ι) → List (List ι) → List (WithBot ℚ) → List ℕ → Except ScriptError (List (Option ℚ))
  | [], [], [], [] => .ok []
  | ann :: anns, exact :: exacts, kthScore :: kthScores, position :: positions =>
    (tieScore score cache idToPosition k ann exact kthScore position).bind fun one =>
      (tieScores score cache idToPosition k anns exacts kthScores positions).map (one :: ·)
  | _, _, _, _ => .error .lengthMismatch

/-- `_tie_tolerant_recall_at_k`. -/
def tieTolerantRecallAtK (score : V → V → ℚ) (ann exactIds : List (List ι))
    (kthScores : List (WithBot ℚ)) (queryPositions : List ℕ) (cache : RowCache V)
    (idToPosition : ι → Option ℕ) (k : ℕ) : Except ScriptError ℚ :=
  (tieScores score cache idToPosition k ann exactIds kthScores queryPositions).map fun scores =>
    mean scores.reduceOption

end

/-! ### By degree -/

/-- `_degree_bucket_label`. -/
def degreeBucketLabel (degree : ℕ) : String :=
  if degree < DEGREE_BUCKET_EDGES.headD 0 then "0"
  else match (pairwise DEGREE_BUCKET_EDGES).find? fun edges => edges.1 ≤ degree ∧ degree < edges.2 with
    | some (lo, hi) => toString lo ++ "-" ++ toString (hi - 1)
    | none => toString (DEGREE_BUCKET_EDGES.getLastD 0) ++ "+"

/-- `_degree_bucket_sort_key`, of a label. -/
def degreeBucketSortKey (label : String) : ℕ :=
  ((label.toList.reverse.dropWhile (· = '+')).reverse.takeWhile (· ≠ '-')).foldl
    (fun n c => 10 * n + (c.toNat - '0'.toNat)) 0

/-- `[l[i] for i in indices]`. -/
def pick (l : List γ) (indices : List ℕ) : Except ScriptError (List γ) :=
  indices.mapM fun i => match l[i]? with
    | some x => .ok x
    | none => .error (.outOfRange i l.length)

/- What is reported of a bucket. -/
structure Bucket where
  label : String
  n : ℕ
  recallStrict : ℚ
  recallTieTolerant : ℚ

section
variable [DecidableEq ι]

/-- What one bucket is reported with. -/
def bucketOf (score : V → V → ℚ) (ann exactIds : List (List ι)) (kthScores : List (WithBot ℚ))
    (queryPositions : List ℕ) (cache : RowCache V) (idToPosition : ι → Option ℕ) (k : ℕ)
    (label : String) (indices : List ℕ) : Except ScriptError Bucket :=
  (pick ann indices).bind fun annSubset =>
  (pick exactIds indices).bind fun exactSubset =>
  (pick kthScores indices).bind fun kthSubset =>
  (pick queryPositions indices).bind fun positionsSubset =>
  (recallAtK annSubset exactSubset k).bind fun strict =>
  (tieTolerantRecallAtK score annSubset exactSubset kthSubset positionsSubset cache idToPosition
    k).map fun tieTolerant => ⟨label, indices.length, strict, tieTolerant⟩

/-- `_recall_by_degree_bucket`. -/
def recallByDegreeBucket (score : V → V → ℚ) (ann exactIds : List (List ι))
    (kthScores : List (WithBot ℚ)) (queryPositions : List ℕ) (degrees : Option (List ℕ))
    (cache : RowCache V) (idToPosition : ι → Option ℕ) (k : ℕ) :
    Except ScriptError (Option (List Bucket)) :=
  match degrees with
  | none => .ok none
  | some degrees => (pick degrees queryPositions).bind fun queryDegrees =>
    let buckets := (groups Prod.fst (queryDegrees.map degreeBucketLabel).zipIdx).mergeSort fun a b =>
      degreeBucketSortKey a.1 ≤ degreeBucketSortKey b.1
    (buckets.mapM fun bucket =>
      bucketOf score ann exactIds kthScores queryPositions cache idToPosition k bucket.1
        (bucket.2.map Prod.snd)).map some

/-! ### The sweep -/

/-- One query of `_ann_top_k`. -/
def annOne (index : Index ι V) (artistIds : List ι) (cache : RowCache V) (efSearch k position : ℕ) :
    Except ScriptError (List ι) :=
  match cache position, artistIds[position]? with
  | none, _ => .error .missingKey
  | some _, none => .error (.outOfRange position artistIds.length)
  | some vector, some ownId =>
    .ok (((index efSearch vector (k + 1)).filter (· ≠ ownId)).take k)

/-- `_ann_top_k`, and the cache it leaves. -/
def annTopK (normalize : List β → V) (index : Index ι V) (month : Month ι β) (cache : RowCache V)
    (positions : List ℕ) (efSearch k : ℕ) : Except ScriptError (List (List ι) × RowCache V) :=
  (ensureNormalizedCached normalize month.member cache positions DEFAULT_CHUNK_BYTES).bind
    fun cache => (positions.mapM (annOne index month.artistIds cache efSearch k)).map
      fun results => (results, cache)

/- What is recorded for one value of `ef_search`. -/
structure SweepPoint where
  efSearch : ℕ
  recallStrict : ℚ
  recallTieTolerant : ℚ
  byDegreeBucket : Option (List Bucket)

structure Sweep where
  points : List SweepPoint
  productionEfSearch : Option ℕ

/- `ExactGroundTruth`. -/
structure ExactGroundTruth (ι V : Type*) where
  cache : RowCache V
  idToPosition : ι → Option ℕ
  exactIdsByQuery : List (List ι)
  kthScores : List (WithBot ℚ)

/-- One turn of the loop of `_sweep_recall`, with the truth as the cache is then. -/
def sweepPoint (normalize : List β → V) (score : V → V → ℚ) (index : Index ι V) (month : Month ι β)
    (queryPositions : List ℕ) (truth : ExactGroundTruth ι V) (efSearch : ℕ) :
    Except ScriptError (SweepPoint × ExactGroundTruth ι V) :=
  (annTopK normalize index month truth.cache queryPositions efSearch 10).bind fun (ann, cache) =>
  (recallAtK ann truth.exactIdsByQuery 10).bind fun strict =>
  let candidatePositions := ann.flatMap fun ids => (ids.take 10).filterMap truth.idToPosition
  (ensureNormalizedCached normalize month.member cache candidatePositions DEFAULT_CHUNK_BYTES).bind
    fun cache =>
  (tieTolerantRecallAtK score ann truth.exactIdsByQuery truth.kthScores queryPositions cache
    truth.idToPosition 10).bind fun tieRecall =>
  (recallByDegreeBucket score ann truth.exactIdsByQuery truth.kthScores queryPositions month.degrees
    cache truth.idToPosition 10).map fun byDegree =>
  (⟨efSearch, strict, tieRecall, byDegree⟩, { truth with cache })

/-- The loop of `_sweep_recall`. -/
def sweepLoop (normalize : List β → V) (score : V → V → ℚ) (index : Index ι V) (month : Month ι β)
    (queryPositions : List ℕ) :
    List ℕ → Sweep → ExactGroundTruth ι V → Except ScriptError (Sweep × ExactGroundTruth ι V)
  | [], sweep, truth => .ok (sweep, truth)
  | efSearch :: later, sweep, truth =>
    (sweepPoint normalize score index month queryPositions truth efSearch).bind
      fun (point, truth) =>
        let production :=
          if sweep.productionEfSearch = none ∧ RECALL_TARGET ≤ point.recallStrict then some efSearch
          else sweep.productionEfSearch
        sweepLoop normalize score index month queryPositions later
          ⟨sweep.points ++ [point], production⟩ truth

/-- `_sweep_recall`. -/
def sweepRecall (normalize : List β → V) (score : V → V → ℚ) (index : Index ι V)
    (month : Month ι β) (queryPositions : List ℕ) (truth : ExactGroundTruth ι V) :
    Except ScriptError (Sweep × ExactGroundTruth ι V) :=
  sweepLoop normalize score index month queryPositions EF_SEARCH_SWEEP ⟨[], none⟩ truth

/-- `{aid: index for index, aid in enumerate(artist_ids)}`. -/
def idToPosition (artistIds : List ι) (id : ι) : Option ℕ :=
  (artistIds.zipIdx.reverse.find? fun entry => entry.1 = id).map Prod.snd

/-- `l[i]`, from the end if negative. -/
def atIndex (l : List γ) (i : ℤ) : Except ScriptError γ :=
  let place := if i < 0 then l.length + i else i
  match if place < 0 then none else l[place.toNat]? with
  | some x => .ok x
  | none => .error (.outOfRange i.natAbs l.length)

/-- `compute_exact_ground_truth`. -/
def computeExactGroundTruth (numpy : Numpy ℚ) (normalize : List β → V) (score : V → V → ℚ)
    (month : Month ι β) (queryPositions : List ℕ) : Except ScriptError (ExactGroundTruth ι V) :=
  (streamExactTopK numpy normalize score month.member queryPositions 10 DEFAULT_CHUNK_BYTES
    (some fun _ => none)).bind fun (top, cache) =>
  (top.results.mapM fun row : List ℤ => row.mapM (atIndex month.artistIds)).map fun exactIds =>
  ⟨cache.getD fun _ => none, idToPosition month.artistIds, exactIds, top.kthScores⟩

/-- The sweeps of the index variants, one after the other with one ground truth. -/
def measureVariants (normalize : List β → V) (score : V → V → ℚ) (month : Month ι β)
    (queryPositions : List ℕ) : List (Index ι V) → ExactGroundTruth ι V →
      Except ScriptError (List Sweep × ExactGroundTruth ι V)
  | [], truth => .ok ([], truth)
  | index :: later, truth =>
    (sweepRecall normalize score index month queryPositions truth).bind fun (sweep, truth) =>
      (measureVariants normalize score month queryPositions later truth).map
        fun (sweeps, truth) => (sweep :: sweeps, truth)

/-- The recall of a month: the ground truth, then each index variant. -/
def measureRecall (numpy : Numpy ℚ) (normalize : List β → V) (score : V → V → ℚ)
    (month : Month ι β) (queryPositions : List ℕ) (variants : List (Index ι V)) :
    Except ScriptError (List Sweep × ExactGroundTruth ι V) :=
  (computeExactGroundTruth numpy normalize score month queryPositions).bind
    (measureVariants normalize score month queryPositions variants)

end

/-! ### Scores of lists -/

theorem mean_sum (scores : List ℚ) : scores.length * mean scores = scores.sum := by
  unfold mean
  by_cases hempty : scores = []
  · simp [hempty]
  · have hlength : (scores.length : ℚ) ≠ 0 := by simp [hempty]
    rw [if_neg hempty, mul_div_cancel₀ _ hlength]

theorem mean_le_mean {l : List γ} {f g : γ → ℚ} (h : ∀ x ∈ l, f x ≤ g x) :
    mean (l.map f) ≤ mean (l.map g) := by
  unfold mean
  by_cases hempty : l = []
  · simp [hempty]
  · simp only [List.map_eq_nil_iff, hempty, if_false, List.length_map]
    exact div_le_div_of_nonneg_right (List.sum_le_sum h) (by positivity)

theorem mean_const {l : List γ} (hne : l ≠ []) (c : ℚ) : mean (l.map fun _ => c) = c := by
  have hlength : (l.length : ℚ) ≠ 0 := by simp [hne]
  unfold mean
  rw [if_neg (by simpa using hne)]
  simp [hlength]

section
variable [DecidableEq ι] {a : γ → List ι} {e : γ → List ι} {l : List γ} {k : ℕ}

/-- The share of the exact neighbours that the index found. -/
def overlap (k : ℕ) (ann exact : List ι) : ℚ :=
  ((ann.take k).toFinset ∩ (exact.take k).toFinset).card / (min k exact.length : ℕ)

omit [DecidableEq ι] in
theorem found_ok {exact : List ι} (hk : 1 ≤ k) (hexact : exact ≠ []) (hits : ℕ) :
    found hits k exact = .ok (some (hits / (min k exact.length : ℕ))) := by
  have hpos := List.length_pos_iff.mpr hexact
  unfold found
  rw [if_neg (by omega)]

theorem recallAtK_map (hk : 1 ≤ k) (hexact : ∀ x ∈ l, e x ≠ []) :
    recallAtK (l.map a) (l.map e) k = .ok (mean (l.map fun x => overlap k (a x) (e x))) := by
  have hscores : strictScores k (l.map a) (l.map e) =
      .ok (l.map fun x => some (overlap k (a x) (e x))) := by
    induction l with
    | nil => rfl
    | cons x l ih =>
      have hx := hexact x List.mem_cons_self
      have hl := ih fun y hy => hexact y (List.mem_cons_of_mem x hy)
      simp only [List.map_cons, strictScores, hl, strictScore, if_neg hx, found_ok hk hx]
      rfl
  unfold recallAtK
  rw [hscores]
  simp only [Except.map, List.reduceOption, List.filterMap_map]
  simp

/-- A candidate that counts, whatever the cache holds. -/
def closeEnough (score : V → V → ℚ) (row : ℕ → V) (idToPosition : ι → Option ℕ)
    (exactSet : List ι) (kthScore : WithBot ℚ) (query : ℕ) (candidate : ι) : Bool :=
  decide (candidate ∈ exactSet) || (idToPosition candidate).any fun position =>
    decide (kthScore.map (· - TIE_TOLERANCE) ≤ score (row position) (row query))

/-- The share that the index found up to ties. -/
def tieOverlap (score : V → V → ℚ) (row : ℕ → V) (idToPosition : ι → Option ℕ) (k : ℕ)
    (ann exact : List ι) (kthScore : WithBot ℚ) (query : ℕ) : ℚ :=
  ((ann.take k).countP (closeEnough score row idToPosition (exact.take k) kthScore query) : ℕ) /
    (min k exact.length : ℕ)

variable {score : V → V → ℚ} {row : ℕ → V} {cache : RowCache V} {position : ι → Option ℕ}

theorem tieHit_cached {exactSet : List ι} {kthScore : WithBot ℚ} {query : ℕ} {candidate : ι}
    (hquery : cache query = some (row query))
    (hcandidate : ∀ p, position candidate = some p → cache p = some (row p)) :
    tieHit score cache position exactSet kthScore query candidate =
      .ok (closeEnough score row position exactSet kthScore query candidate) := by
  unfold tieHit closeEnough
  by_cases hmem : candidate ∈ exactSet
  · simp [hmem]
  · cases hposition : position candidate with
    | none => simp [hmem]
    | some p => simp [hmem, hcandidate p hposition, hquery]

/-- With every row in the cache that is asked for, the cache is of no consequence. -/
theorem tieTolerant_map (score : V → V → ℚ) (kth : γ → WithBot ℚ) (query : γ → ℕ) (hk : 1 ≤ k)
    (hexact : ∀ x ∈ l, e x ≠ [])
    (hquery : ∀ x ∈ l, cache (query x) = some (row (query x)))
    (hcandidate : ∀ x ∈ l, ∀ c ∈ (a x).take k, ∀ p, position c = some p → cache p = some (row p)) :
    tieTolerantRecallAtK score (l.map a) (l.map e) (l.map kth) (l.map query) cache position k =
      .ok (mean (l.map fun x => tieOverlap score row position k (a x) (e x) (kth x) (query x))) := by
  have hscores : tieScores score cache position k (l.map a) (l.map e) (l.map kth) (l.map query) =
      .ok (l.map fun x => some (tieOverlap score row position k (a x) (e x) (kth x) (query x))) := by
    induction l with
    | nil => rfl
    | cons x l ih =>
      have hx := hexact x List.mem_cons_self
      have hl := ih (fun y hy => hexact y (List.mem_cons_of_mem x hy))
        (fun y hy => hquery y (List.mem_cons_of_mem x hy))
        fun y hy => hcandidate y (List.mem_cons_of_mem x hy)
      have hhits : ((a x).take k).mapM (tieHit score cache position ((e x).take k) (kth x) (query x)) =
          pure (((a x).take k).map (closeEnough score row position ((e x).take k) (kth x) (query x))) :=
        mapM_eq_pure fun c hc => tieHit_cached (hquery x List.mem_cons_self)
          (hcandidate x List.mem_cons_self c hc)
      simp only [List.map_cons, tieScores, hl, tieScore, if_neg hx, hhits]
      simp only [pure, Except.pure, Except.bind, found_ok hk hx, Except.map]
      unfold tieOverlap
      rw [List.count_eq_countP, List.countP_map]
      simp [Function.comp_def]
  unfold tieTolerantRecallAtK
  rw [hscores]
  simp only [Except.map, List.reduceOption, List.filterMap_map]
  simp

end

/-! ### Buckets -/

/-- Every label there is. -/
def degreeBucketLabels : List String :=
  ["0", "1-1", "2-3", "4-7", "8-15", "16-31", "32-63", "64-127", "128-255", "256+"]

theorem degreeBucketLabel_mem (degree : ℕ) : degreeBucketLabel degree ∈ degreeBucketLabels := by
  unfold degreeBucketLabel
  split
  · decide
  · split
    · rename_i lo hi hfind
      have hall : (pairwise DEGREE_BUCKET_EDGES).all fun edges =>
          (toString edges.1 ++ "-" ++ toString (edges.2 - 1)) ∈ degreeBucketLabels := by decide
      have hedges := List.mem_of_find?_eq_some hfind
      exact of_decide_eq_true (List.all_eq_true.mp hall (lo, hi) hedges)
    · decide

/-- The labels sort by their lower bounds, all different. -/
theorem degreeBucketLabels_sorted :
    (degreeBucketLabels.map degreeBucketSortKey).Pairwise (· < ·) := by
  decide

theorem degreeBucketSortKey_inj {a b : String} (ha : a ∈ degreeBucketLabels)
    (hb : b ∈ degreeBucketLabels) (h : degreeBucketSortKey a = degreeBucketSortKey b) : a = b :=
  List.inj_on_of_nodup_map (degreeBucketLabels_sorted.imp fun h => Nat.ne_of_lt h) ha hb h

theorem pick_ok (l : List γ) (d : γ) {indices : List ℕ} (h : ∀ i ∈ indices, i < l.length) :
    pick l indices = .ok (indices.map fun i => l.getD i d) := by
  unfold pick
  apply mapM_eq_pure
  intro i hi
  rw [List.getElem?_eq_getElem (h i hi), List.getD_eq_getElem l d (h i hi)]
  rfl

theorem pick_map {δ : Type*} (l : List γ) (d : γ) (f : γ → δ) {indices : List ℕ}
    (h : ∀ i ∈ indices, i < l.length) :
    pick (l.map f) indices = .ok ((indices.map fun i => l.getD i d).map f) := by
  have hlength : ∀ i ∈ indices, i < (l.map f).length := by
    intro i hi
    rw [List.length_map]
    exact h i hi
  rw [pick_ok (l.map f) (f d) hlength, List.map_map]
  simp only [List.getD_map, Function.comp_def]

/-- The places with a key, and what stands there. -/
theorem filter_zipIdx {κ : Type*} [DecidableEq κ] (g : γ → κ) (l : List γ) (d : γ) (k : κ) :
    ((((l.map g).zipIdx.filter fun x => x.1 = k).map Prod.snd).map fun i => l.getD i d) =
      l.filter fun x => g x = k := by
  have hpairs : (l.map g).zipIdx = l.zipIdx.map (Prod.map g id) := List.zipIdx_map ..
  have hgetD : ∀ x ∈ l.zipIdx, l.getD x.2 d = x.1 := by
    intro x hx
    rw [List.getD_eq_getElem?_getD, List.mem_zipIdx_iff_getElem?.mp hx]
    rfl
  have hvalues : l.filter (fun x => g x = k) =
      (l.zipIdx.filter fun x => g x.1 = k).map Prod.fst := by
    conv_lhs => rw [← List.zipIdx_map_fst 0 l, List.filter_map]
    rfl
  rw [hpairs, List.filter_map, List.map_map, List.map_map, hvalues]
  apply List.map_congr_left
  intro x hx
  exact hgetD x (List.mem_of_mem_filter hx)

section
variable [DecidableEq ι] {degree : ℕ → ℕ} {queries : List ℕ}

/-- The labels of the buckets that are reported, in their order. -/
def bucketLabels (degree : ℕ → ℕ) (queries : List ℕ) : List String :=
  ((groups Prod.fst (queries.map fun q => degreeBucketLabel (degree q)).zipIdx).mergeSort
    fun a b => degreeBucketSortKey a.1 ≤ degreeBucketSortKey b.1).map Prod.fst

/-- The queries of a bucket. -/
def bucketQueries (degree : ℕ → ℕ) (queries : List ℕ) (label : String) : List ℕ :=
  queries.filter fun q => degreeBucketLabel (degree q) = label

theorem mem_bucketLabels {label : String} :
    label ∈ bucketLabels degree queries ↔ bucketQueries degree queries label ≠ [] := by
  unfold bucketLabels bucketQueries
  rw [((List.mergeSort_perm _ _).map _).mem_iff, List.mem_map]
  have hfilter := filter_zipIdx (fun q => degreeBucketLabel (degree q)) queries 0 label
  constructor
  · rintro ⟨⟨_, members⟩, hgroup, rfl⟩
    obtain ⟨hmembers, hne⟩ := mem_groups.mp hgroup
    rw [← hfilter, ← hmembers]
    simpa using hne
  · intro hne
    refine ⟨(label, _), mem_groups.mpr ⟨rfl, ?_⟩, rfl⟩
    rw [← hfilter] at hne
    simpa using hne

theorem bucketLabels_sorted :
    (bucketLabels degree queries).Pairwise fun a b => degreeBucketSortKey a < degreeBucketSortKey b := by
  have hmem : ∀ label ∈ bucketLabels degree queries, label ∈ degreeBucketLabels := by
    intro label hlabel
    obtain ⟨q, hq⟩ := List.exists_mem_of_ne_nil _ (mem_bucketLabels.mp hlabel)
    rw [← of_decide_eq_true (List.mem_filter.mp hq).2]
    exact degreeBucketLabel_mem _
  have hnodup : (bucketLabels degree queries).Nodup := by
    unfold bucketLabels
    exact ((List.mergeSort_perm _ _).map _).nodup_iff.mpr (groups_nodup _ _)
  have hsorted : (bucketLabels degree queries).Pairwise fun a b =>
      degreeBucketSortKey a ≤ degreeBucketSortKey b := by
    unfold bucketLabels
    rw [List.pairwise_map]
    refine (List.pairwise_mergeSort ?_ ?_ _).imp fun h => of_decide_eq_true h
    · intro a b c hab hbc
      simp only [decide_eq_true_eq] at *
      omega
    · intro a b
      simp only [Bool.or_eq_true, decide_eq_true_eq]
      omega
  refine (hsorted.and hnodup).imp_of_mem ?_
  rintro a b ha hb ⟨hle, hne⟩
  exact lt_of_le_of_ne hle fun h => hne (degreeBucketSortKey_inj (hmem a ha) (hmem b hb) h)

/-- A sum over the queries, bucket by bucket. -/
theorem sum_buckets {M : Type*} [AddCommMonoid M] (f : ℕ → M) :
    ((bucketLabels degree queries).map fun label =>
      ((bucketQueries degree queries label).map f).sum).sum = (queries.map f).sum := by
  have hsum := sum_groups Prod.fst
    (queries.map fun q => degreeBucketLabel (degree q)).zipIdx fun x => f (queries.getD x.2 0)
  have hgroups : ∀ group ∈ groups Prod.fst
      (queries.map fun q => degreeBucketLabel (degree q)).zipIdx,
      (group.2.map fun x => f (queries.getD x.2 0)) = (bucketQueries degree queries group.1).map f := by
    intro group hgroup
    unfold bucketQueries
    rw [(mem_groups.mp hgroup).1,
      ← filter_zipIdx (fun q => degreeBucketLabel (degree q)) queries 0 group.1, List.map_map,
      List.map_map]
    rfl
  have hall : ((queries.map fun q => degreeBucketLabel (degree q)).zipIdx.map
      fun x => f (queries.getD x.2 0)) = queries.map f := by
    apply List.ext_getElem
    · simp
    · intro i hi hi'
      have hi : i < queries.length := by simpa using hi'
      simp [hi]
  unfold bucketLabels
  rw [((List.mergeSort_perm _ _).map _ |>.map _).sum_eq, List.map_map, ← hall, ← hsum]
  congr 1
  apply List.map_congr_left
  intro group hgroup
  rw [hgroups group hgroup]
  rfl

/-- What is reported of a bucket whose queries have these scores. -/
def bucketReport (degree : ℕ → ℕ) (queries : List ℕ) (strict tie : ℕ → ℚ) (label : String) : Bucket :=
  let members := bucketQueries degree queries label
  ⟨label, members.length, mean (members.map strict), mean (members.map tie)⟩

variable {a e : ℕ → List ι} {kth : ℕ → WithBot ℚ} {score : V → V → ℚ} {row : ℕ → V}
  {cache : RowCache V} {position : ι → Option ℕ} {k : ℕ}

theorem recallByDegreeBucket_map {degrees : List ℕ} (hk : 1 ≤ k) (hexact : ∀ q ∈ queries, e q ≠ [])
    (hdegrees : ∀ q ∈ queries, degrees[q]? = some (degree q))
    (hquery : ∀ q ∈ queries, cache q = some (row q))
    (hcandidate : ∀ q ∈ queries, ∀ c ∈ (a q).take k, ∀ p, position c = some p → cache p = some (row p)) :
    recallByDegreeBucket score (queries.map a) (queries.map e) (queries.map kth) queries (some degrees)
      cache position k =
      .ok (some ((bucketLabels degree queries).map (bucketReport degree queries
        (fun q => overlap k (a q) (e q))
        fun q => tieOverlap score row position k (a q) (e q) (kth q) q))) := by
  have hpick : pick degrees queries = .ok (queries.map degree) := by
    unfold pick
    apply mapM_eq_pure
    intro q hq
    rw [hdegrees q hq]
    rfl
  unfold recallByDegreeBucket bucketLabels
  dsimp only
  rw [hpick]
  simp only [Except.bind, List.map_map, Function.comp_def]
  rw [mapM_eq_pure]
  · rfl
  · intro bucket hbucket
    have hgroup := (List.mergeSort_perm _ _).mem_iff.mp hbucket
    obtain ⟨hmembers, _⟩ := mem_groups.mp hgroup
    have hindices : ∀ i ∈ bucket.2.map Prod.snd, i < queries.length := by
      intro i hi
      obtain ⟨x, hx, rfl⟩ := List.mem_map.mp hi
      rw [hmembers] at hx
      simpa using (List.mem_zipIdx (List.mem_of_mem_filter hx)).2.1
    have hqueries : ((bucket.2.map Prod.snd).map fun i => queries.getD i 0) =
        bucketQueries degree queries bucket.1 := by
      rw [hmembers]
      exact filter_zipIdx (fun q => degreeBucketLabel (degree q)) queries 0 bucket.1
    have hlength := congrArg List.length hqueries
    have hsub : ∀ q ∈ bucketQueries degree queries bucket.1, q ∈ queries := fun q hq =>
      List.mem_of_mem_filter hq
    unfold bucketOf
    have hid := pick_map queries 0 id hindices
    rw [List.map_id, List.map_id] at hid
    rw [pick_map queries 0 a hindices, pick_map queries 0 e hindices, pick_map queries 0 kth hindices,
      hid, hqueries]
    simp only [Except.bind]
    rw [recallAtK_map hk fun q hq => hexact q (hsub q hq)]
    have htie := tieTolerant_map score kth id hk (fun q hq => hexact q (hsub q hq))
      (fun q hq => hquery q (hsub q hq))
      fun q hq => hcandidate q (hsub q hq)
    rw [List.map_id] at htie
    simp only [htie, Except.map]
    rw [List.length_map] at hlength
    unfold bucketReport
    rw [hlength]
    rfl

end

end AnalyticsEngine.RecallChurn
