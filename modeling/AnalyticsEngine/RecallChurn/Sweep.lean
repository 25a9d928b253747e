import AnalyticsEngine.RecallChurn.Recall

/-!
# The recall sweep over whole runs (scripts/measure_recall_churn.py)

The cache that `_sweep_recall` fills never shows in its numbers: every value of `ef_search` of every
index variant is reported with what it would be reported with alone (`measureRecall_alone`).
-/

namespace AnalyticsEngine.RecallChurn
open Library

variable {β V ι : Type*}

/-- A month whose file is whole, with an id and a degree for every row. -/
structure Month.Loaded (month : Month ι β) (n nCols : ℕ) : Prop where
  matrix : month.member.Matrix n nCols
  whole : month.member.Whole n nCols
  ids : month.artistIds.length = n
  nodup : month.artistIds.Nodup
  degrees : ∀ d ∈ month.degrees, d.length = n

/-- The normalized row of a position. -/
def Month.vector (normalize : List β → V) (month : Month ι β) (nCols position : ℕ) : V :=
  normalize (month.member.row nCols position)

/-- The scores of the rows of a month. -/
def Month.scores (normalize : List β → V) (score : V → V → ℚ) (month : Month ι β) (nCols : ℕ) :
    ℕ → ℕ → ℚ :=
  fun c q => score (month.vector normalize nCols c) (month.vector normalize nCols q)

/-- The ids the index answers with, the one asked for left out. -/
def annIds [DecidableEq ι] (index : Index ι V) (vector : ℕ → V) (artistIds : List ι)
    (efSearch k query : ℕ) :
    List ι :=
  ((index efSearch (vector query) (k + 1)).filter fun id => some id ≠ artistIds[query]?).take k

/-! ### Ids and positions -/

section
variable {ids : List ι}

theorem mem_zipIdx_iff {id : ι} {p : ℕ} : (id, p) ∈ ids.zipIdx ↔ ids[p]? = some id :=
  List.mem_zipIdx_iff_getElem?

/-- The id at a position, or at one counted from the end. -/
def idAt (ids : List ι) (d : ι) (p : ℤ) : ι :=
  ids.getD (if p < 0 then ids.length + p else p).toNat d

theorem atIndex_ok {ids : List ι} (d : ι) {p : ℤ} (hne : ids ≠ []) (hlow : -1 ≤ p)
    (hhigh : p < ids.length) : atIndex ids p = .ok (idAt ids d p) := by
  have hpos := List.length_pos_iff.mpr hne
  unfold atIndex idAt
  dsimp only
  generalize hplace : (if p < 0 then (ids.length : ℤ) + p else p) = place
  have hbounds : 0 ≤ place ∧ place < ids.length := by
    rw [← hplace]
    split_ifs <;> omega
  have hlt : place.toNat < ids.length := by omega
  rw [if_neg (by omega), List.getElem?_eq_getElem hlt, List.getD_eq_getElem _ _ hlt]

variable [DecidableEq ι]

theorem idToPosition_get {id : ι} {p : ℕ} (h : idToPosition ids id = some p) : ids[p]? = some id := by
  unfold idToPosition at h
  obtain ⟨entry, hfind, rfl⟩ := Option.map_eq_some_iff.mp h
  have hmem := List.mem_reverse.mp (List.mem_of_find?_eq_some hfind)
  have hid := List.find?_some hfind
  rw [← of_decide_eq_true hid]
  exact mem_zipIdx_iff.mp hmem

theorem idToPosition_lt {id : ι} {p : ℕ} (h : idToPosition ids id = some p) : p < ids.length :=
  (List.getElem?_eq_some_iff.mp (idToPosition_get h)).1

theorem idToPosition_of_get (hnodup : ids.Nodup) {id : ι} {p : ℕ} (h : ids[p]? = some id) :
    idToPosition ids id = some p := by
  cases hposition : idToPosition ids id with
  | none =>
    unfold idToPosition at hposition
    rw [Option.map_eq_none_iff, List.find?_eq_none] at hposition
    have hmem := List.mem_reverse.mpr (mem_zipIdx_iff.mpr h)
    exact absurd (decide_eq_true rfl) (hposition _ hmem)
  | some p' =>
    obtain ⟨hlt, hget⟩ := List.getElem?_eq_some_iff.mp h
    obtain ⟨hlt', hget'⟩ := List.getElem?_eq_some_iff.mp (idToPosition_get hposition)
    rw [(List.Nodup.getElem_inj_iff hnodup).mp (hget'.trans hget.symm)]

end

/-! ### One value of `ef_search` -/

section
variable [DecidableEq ι]
variable {normalize : List β → V} {score : V → V → ℚ} {index : Index ι V} {month : Month ι β}
  {n nCols : ℕ} {queries : List ℕ} {exact : ℕ → List ι} {kth : ℕ → WithBot ℚ}
  {truth : ExactGroundTruth ι V}

theorem annTopK_cached (index : Index ι V) (hmonth : month.Loaded n nCols) (hrange : ∀ q ∈ queries, q < n)
    {cache : RowCache V} (hcache : Coherent normalize month.member nCols cache) (efSearch k : ℕ) :
    annTopK normalize index month cache queries efSearch k =
      .ok (queries.map (annIds index (month.vector normalize nCols) month.artistIds efSearch k),
        cache.fill queries (month.vector normalize nCols)) := by
  unfold annTopK
  rw [ensure_whole hmonth.matrix hmonth.whole hrange]
  simp only [Except.bind]
  rw [mapM_eq_pure]
  · rfl
  · intro q hq
    have hlt : q < month.artistIds.length := by
      rw [hmonth.ids]
      exact hrange q hq
    have hvector := fill_get hcache hq
    unfold annOne annIds Month.vector
    rw [hvector, List.getElem?_eq_getElem hlt]
    simp only [ne_eq, Option.some.injEq]
    rfl

theorem annIds_take (index : Index ι V) (vector : ℕ → V) (artistIds : List ι) (efSearch k query : ℕ) :
    (annIds index vector artistIds efSearch k query).take k =
      annIds index vector artistIds efSearch k query := by
  unfold annIds
  rw [List.take_take, min_self]

/-- The rows that are looked up besides those of the queries. -/
def candidates (index : Index ι V) (vector : ℕ → V) (artistIds : List ι) (queries : List ℕ)
    (efSearch : ℕ) : List ℕ :=
  (queries.map (annIds index vector artistIds efSearch 10)).flatMap fun ids =>
    (ids.take 10).filterMap (idToPosition artistIds)

/-- What is recorded for one value, read off the rows themselves. -/
def pointOf (score : V → V → ℚ) (index : Index ι V) (vector : ℕ → V) (month : Month ι β)
    (queries : List ℕ) (exact : ℕ → List ι) (kth : ℕ → WithBot ℚ) (efSearch : ℕ) : SweepPoint :=
  let ann := annIds index vector month.artistIds efSearch 10
  let strict := fun q => overlap 10 (ann q) (exact q)
  let tie := fun q => tieOverlap score vector (idToPosition month.artistIds) 10 (ann q) (exact q)
    (kth q) q
  { efSearch
    recallStrict := mean (queries.map strict)
    recallTieTolerant := mean (queries.map tie)
    byDegreeBucket := month.degrees.map fun degrees =>
      let degree := fun q => degrees.getD q 0
      (bucketLabels degree queries).map (bucketReport degree queries strict tie) }

/-- A ground truth for the queries, and a cache that holds rows of the month. -/
structure TruthOf (normalize : List β → V) (month : Month ι β) (nCols : ℕ) (queries : List ℕ)
    (exact : ℕ → List ι) (kth : ℕ → WithBot ℚ) (truth : ExactGroundTruth ι V) : Prop where
  position : truth.idToPosition = idToPosition month.artistIds
  exactIds : truth.exactIdsByQuery = queries.map exact
  kthScores : truth.kthScores = queries.map kth
  nonempty : ∀ q ∈ queries, exact q ≠ []
  coherent : Coherent normalize month.member nCols truth.cache

theorem fill_keeps {cache : RowCache V} {positions : List ℕ} {row : ℕ → V} {p : ℕ} {v : V}
    (h : cache p = some v) : cache.fill positions row p = some v := by
  unfold RowCache.fill
  rw [if_neg (by simp [h]), h]

theorem fill_isSome {cache : RowCache V} {positions : List ℕ} {row : ℕ → V} {p : ℕ} :
    (cache.fill positions row p).isSome ↔ (cache p).isSome ∨ p ∈ positions := by
  unfold RowCache.fill
  by_cases hp : p ∈ positions
  · cases cache p <;> simp [hp]
  · simp [hp]

theorem sweepPoint_cached (score : V → V → ℚ) (index : Index ι V) (hmonth : month.Loaded n nCols)
    (hrange : ∀ q ∈ queries, q < n)
    (htruth : TruthOf normalize month nCols queries exact kth truth) (efSearch : ℕ) :
    sweepPoint normalize score index month queries truth efSearch =
      .ok (pointOf score index (month.vector normalize nCols) month queries exact kth efSearch,
        { truth with
          cache := (truth.cache.fill queries (month.vector normalize nCols)).fill
            (candidates index (month.vector normalize nCols) month.artistIds queries efSearch)
            (month.vector normalize nCols) }) := by
  obtain ⟨hposition, hexact, hkth, hnonempty, hcoherent⟩ := htruth
  have hfilled := coherent_fill hcoherent queries
  have hcandidates : ∀ p ∈ candidates index (month.vector normalize nCols) month.artistIds queries
      efSearch, p < n := by
    intro p hp
    obtain ⟨ids, _, hp⟩ := List.mem_flatMap.mp hp
    obtain ⟨id, _, hid⟩ := List.mem_filterMap.mp hp
    rw [← hmonth.ids]
    exact idToPosition_lt hid
  have hann := annTopK_cached index hmonth hrange hcoherent efSearch 10
  have hgetQuery : ∀ q ∈ queries, truth.cache.fill queries (month.vector normalize nCols) q =
      some (month.vector normalize nCols q) := fun q hq => fill_get hcoherent hq
  generalize hlooked : candidates index (month.vector normalize nCols) month.artistIds queries
    efSearch = looked at *
  have hgetLooked : ∀ p ∈ looked, (truth.cache.fill queries (month.vector normalize nCols)).fill
      looked (month.vector normalize nCols) p = some (month.vector normalize nCols p) :=
    fun p hp => fill_get hfilled hp
  have hensure : ensureNormalizedCached normalize month.member
      (truth.cache.fill queries (month.vector normalize nCols)) looked DEFAULT_CHUNK_BYTES =
        .ok ((truth.cache.fill queries (month.vector normalize nCols)).fill looked
          (month.vector normalize nCols)) :=
    ensure_whole hmonth.matrix hmonth.whole hcandidates _ _
  generalize month.vector normalize nCols = row at *
  have hquery : ∀ q ∈ queries, ((truth.cache.fill queries row).fill looked row) q = some (row q) :=
    fun q hq => fill_keeps (hgetQuery q hq)
  have hcandidate : ∀ q ∈ queries, ∀ id ∈ (annIds index row month.artistIds efSearch 10 q).take 10,
      ∀ p, idToPosition month.artistIds id = some p →
        ((truth.cache.fill queries row).fill looked row) p = some (row p) := by
    intro q hq id hid p hp
    have hmem : p ∈ looked := by
      rw [← hlooked]
      exact List.mem_flatMap.mpr ⟨_, List.mem_map_of_mem hq, List.mem_filterMap.mpr ⟨id, hid, hp⟩⟩
    exact hgetLooked p hmem
  have htie := tieTolerant_map score kth id (by omega) hnonempty hquery hcandidate
  rw [List.map_id] at htie
  unfold sweepPoint
  rw [hann]
  simp only [Except.bind]
  rw [hexact, recallAtK_map (by omega) hnonempty, hposition, hkth]
  have hpositions : ((queries.map (annIds index row month.artistIds efSearch 10)).flatMap fun ids =>
      (ids.take 10).filterMap (idToPosition month.artistIds)) = looked := hlooked
  simp only [hpositions, hensure, htie]
  cases hdegrees : month.degrees with
  | none =>
    unfold pointOf recallByDegreeBucket
    rw [hdegrees]
    rfl
  | some degrees =>
    have hget : ∀ q ∈ queries, degrees[q]? = some (degrees.getD q 0) := by
      intro q hq
      have hlt : q < degrees.length := by
        rw [hmonth.degrees degrees hdegrees]
        exact hrange q hq
      rw [List.getD_eq_getElem _ _ hlt, List.getElem?_eq_getElem hlt]
    rw [recallByDegreeBucket_map (by omega) hnonempty hget hquery hcandidate]
    unfold pointOf
    rw [hdegrees]
    rfl

/-- What a run of the loop leaves. -/
theorem sweepLoop_cached (score : V → V → ℚ) (index : Index ι V) (hmonth : month.Loaded n nCols)
    (hrange : ∀ q ∈ queries, q < n)
    (htruth : TruthOf normalize month nCols queries exact kth truth)
    (hqueried : ∀ q ∈ queries, (truth.cache q).isSome) (efs : List ℕ) (sweep : Sweep) :
    ∃ truth', sweepLoop normalize score index month queries efs sweep truth =
        .ok (⟨sweep.points ++ efs.map (pointOf score index (month.vector normalize nCols) month
            queries exact kth),
          sweep.productionEfSearch.or (efs.find? fun ef => RECALL_TARGET ≤
            (pointOf score index (month.vector normalize nCols) month queries exact kth ef).recallStrict)⟩,
          truth') ∧
      TruthOf normalize month nCols queries exact kth truth' ∧
      (∀ p, (truth'.cache p).isSome ↔ (truth.cache p).isSome ∨
        ∃ ef ∈ efs, p ∈ candidates index (month.vector normalize nCols) month.artistIds queries ef) := by
  induction efs generalizing sweep truth with
  | nil => exact ⟨truth, by simp [sweepLoop], htruth, by simp⟩
  | cons ef efs ih =>
    have hpoint := sweepPoint_cached score index hmonth hrange htruth ef
    generalize hnext : ({ truth with cache := _ } : ExactGroundTruth ι V) = next at hpoint
    have hnextTruth : TruthOf normalize month nCols queries exact kth next := by
      rw [← hnext]
      exact ⟨htruth.position, htruth.exactIds, htruth.kthScores, htruth.nonempty,
        coherent_fill (coherent_fill htruth.coherent _) _⟩
    have hnextCache : ∀ p, (next.cache p).isSome ↔ (truth.cache p).isSome ∨
        p ∈ candidates index (month.vector normalize nCols) month.artistIds queries ef := by
      intro p
      rw [← hnext, fill_isSome, fill_isSome]
      constructor
      · rintro ((hp | hp) | hp)
        · exact Or.inl hp
        · exact Or.inl (hqueried p hp)
        · exact Or.inr hp
      · rintro (hp | hp)
        · exact Or.inl (Or.inl hp)
        · exact Or.inr hp
    generalize pointOf score index (month.vector normalize nCols) month queries exact kth = point at *
    obtain ⟨last, hloop, hlast, hlastCache⟩ := ih hnextTruth
      (fun q hq => (hnextCache q).mpr (Or.inl (hqueried q hq)))
      ⟨sweep.points ++ [point ef],
        if sweep.productionEfSearch = none ∧ RECALL_TARGET ≤ (point ef).recallStrict then some ef
        else sweep.productionEfSearch⟩
    refine ⟨last, ?_, hlast, ?_⟩
    · rw [sweepLoop, hpoint]
      simp only [Except.bind]
      rw [hloop]
      simp only [List.map_cons, List.append_assoc, List.singleton_append, List.find?_cons]
      congr 3
      cases sweep.productionEfSearch with
      | some production => simp
      | none =>
        by_cases htarget : RECALL_TARGET ≤ (point ef).recallStrict
        · simp [htarget]
        · simp [htarget]
    · intro p
      rw [hlastCache, hnextCache, List.exists_mem_cons_iff, or_assoc]

/-- Every variant is measured as it would be alone. -/
theorem measureVariants_cached (score : V → V → ℚ) (hmonth : month.Loaded n nCols)
    (hrange : ∀ q ∈ queries, q < n)
    (htruth : TruthOf normalize month nCols queries exact kth truth)
    (hqueried : ∀ q ∈ queries, (truth.cache q).isSome) (variants : List (Index ι V)) :
    ∃ truth', measureVariants normalize score month queries variants truth =
        .ok (variants.map fun index =>
          let point := pointOf score index (month.vector normalize nCols) month queries exact kth
          ⟨EF_SEARCH_SWEEP.map point,
            EF_SEARCH_SWEEP.find? fun ef => RECALL_TARGET ≤ (point ef).recallStrict⟩,
          truth') ∧
      TruthOf normalize month nCols queries exact kth truth' ∧
      (∀ p, (truth'.cache p).isSome ↔ (truth.cache p).isSome ∨
        ∃ index ∈ variants, ∃ ef ∈ EF_SEARCH_SWEEP,
          p ∈ candidates index (month.vector normalize nCols) month.artistIds queries ef) := by
  induction variants generalizing truth with
  | nil => exact ⟨truth, rfl, htruth, by simp⟩
  | cons index variants ih =>
    obtain ⟨next, hsweep, hnext, hnextCache⟩ := sweepLoop_cached score index hmonth
      hrange htruth hqueried EF_SEARCH_SWEEP ⟨[], none⟩
    obtain ⟨last, hlater, hlast, hlastCache⟩ := ih hnext
      fun q hq => (hnextCache q).mpr (Or.inl (hqueried q hq))
    refine ⟨last, ?_, hlast, ?_⟩
    · rw [measureVariants]
      unfold sweepRecall
      rw [hsweep]
      simp only [Except.bind]
      rw [hlater]
      rfl
    · intro p
      rw [hlastCache, hnextCache, List.exists_mem_cons_iff, or_assoc]

/-! ### The ground truth -/

theorem groundTruth_ok (normalize : List β → V) (score : V → V → ℚ) (hmonth : month.Loaded n nCols)
    (hne : queries ≠ [])
    (hrange : ∀ q ∈ queries, q < n) (numpy : Numpy ℚ) :
    ∃ (top : ℕ → List (Entry ℚ)) (d : ι) (truth : ExactGroundTruth ι V), d ∈ month.artistIds ∧
      computeExactGroundTruth numpy normalize score month queries = .ok truth ∧
      TruthOf normalize month nCols queries
        (fun q => ((top q).map Entry.position).map (idAt month.artistIds d))
        (fun q => kthScore (top q)) truth ∧
      (∀ p, (truth.cache p).isSome ↔ p ∈ queries) ∧
      ∀ q ∈ queries, TopBy Entry.score 10 (others (month.scores normalize score nCols) n q ++
          ⟨⊥, q⟩ :: List.replicate 10 Entry.filler) (top q) ∧
        (top q).Pairwise fun a b => b.score ≤ a.score := by
  have hempty : ∀ c ∈ (some fun _ => none : Option (RowCache V)),
      Coherent normalize month.member nCols c := by
    intro c hc p v hv
    cases hc
    cases hv
  obtain ⟨chunks, hchunks, hstream⟩ := streamExactTopK_whole score hmonth.matrix hmonth.whole hne
    hrange hempty numpy 10 DEFAULT_CHUNK_BYTES
  generalize htop : streamTop numpy score (fun c => normalize (month.member.row nCols c)) 10 chunks =
    top at hstream
  have hentries : ∀ q ∈ queries, TopBy Entry.score 10 (others (month.scores normalize score nCols) n q ++
      ⟨⊥, q⟩ :: List.replicate 10 Entry.filler) (top q) ∧
        (top q).Pairwise fun a b => b.score ≤ a.score := by
    intro q hq
    rw [← htop]
    exact streamTop_topBy score numpy _ 10 hchunks (hrange q hq)
  have hids : month.artistIds ≠ [] := by
    obtain ⟨q, hq⟩ := List.exists_mem_of_ne_nil _ hne
    rw [← List.length_pos_iff, hmonth.ids]
    exact Nat.zero_lt_of_lt (hrange q hq)
  obtain ⟨d, hd⟩ := List.exists_mem_of_ne_nil _ hids
  have hpositions : ∀ q ∈ queries, ∀ e ∈ top q, -1 ≤ e.position ∧ e.position < month.artistIds.length := by
    intro q hq e he
    have hlt := hrange q hq
    rw [hmonth.ids]
    rcases List.mem_append.mp ((hentries q hq).1.subset he) with he | he
    · obtain ⟨c, hc, _, rfl⟩ := mem_others.mp he
      constructor
      · dsimp only
        omega
      · dsimp only
        omega
    · rcases List.mem_cons.mp he with rfl | he
      · dsimp only
        omega
      · rw [List.eq_of_mem_replicate he]
        unfold Entry.filler
        dsimp only
        omega
  have hrows : (queries.map fun q => (top q).map Entry.position).mapM
      (fun row : List ℤ => row.mapM (atIndex month.artistIds)) =
        .ok (queries.map fun q => ((top q).map Entry.position).map (idAt month.artistIds d)) := by
    rw [mapM_eq_pure (g := List.map (idAt month.artistIds d)), List.map_map]
    · rfl
    · intro row hrow
      obtain ⟨q, hq, rfl⟩ := List.mem_map.mp hrow
      apply mapM_eq_pure
      intro p hp
      obtain ⟨e, he, rfl⟩ := List.mem_map.mp hp
      obtain ⟨hlow, hhigh⟩ := hpositions q hq e he
      exact atIndex_ok d hids hlow hhigh
  refine ⟨top, d, ⟨RowCache.fill (fun _ => none) queries (month.vector normalize nCols),
    idToPosition month.artistIds,
    queries.map fun q => ((top q).map Entry.position).map (idAt month.artistIds d),
    queries.map fun q => kthScore (top q)⟩, hd, ?_, ?_, ?_, hentries⟩
  · unfold computeExactGroundTruth
    rw [hstream]
    simp only [Except.bind, TopK.of, List.map_map, Function.comp_def] at hrows ⊢
    rw [hrows]
    rfl
  · refine ⟨rfl, rfl, rfl, ?_, ?_⟩
    · intro q hq hnil
      have hlength := (hentries q hq).1.length
      simp only [List.length_append, List.length_cons, List.length_replicate] at hlength
      have hzero := congrArg List.length hnil
      simp only [List.length_map, List.length_nil] at hzero
      omega
    · exact coherent_fill (hempty _ rfl) queries
  · intro p
    rw [fill_isSome]
    simp

/-- The sweep of one variant, read off the rows themselves. -/
def sweepOf (score : V → V → ℚ) (vector : ℕ → V) (month : Month ι β) (queries : List ℕ)
    (exact : ℕ → List ι) (kth : ℕ → WithBot ℚ) (index : Index ι V) : Sweep :=
  let point := pointOf score index vector month queries exact kth
  ⟨EF_SEARCH_SWEEP.map point, EF_SEARCH_SWEEP.find? fun ef => RECALL_TARGET ≤ (point ef).recallStrict⟩

theorem measureRecall_ok (normalize : List β → V) (score : V → V → ℚ)
    (hmonth : month.Loaded n nCols) (hne : queries ≠ [])
    (hrange : ∀ q ∈ queries, q < n) (numpy : Numpy ℚ) (variants : List (Index ι V)) :
    ∃ (top : ℕ → List (Entry ℚ)) (d : ι) (truth last : ExactGroundTruth ι V),
      let exact := fun q => ((top q).map Entry.position).map (idAt month.artistIds d)
      let kth := fun q => kthScore (top q)
      d ∈ month.artistIds ∧
      computeExactGroundTruth numpy normalize score month queries = .ok truth ∧
      measureRecall numpy normalize score month queries variants =
        .ok (variants.map (sweepOf score (month.vector normalize nCols) month queries exact kth), last) ∧
      TruthOf normalize month nCols queries exact kth truth ∧
      TruthOf normalize month nCols queries exact kth last ∧
      (∀ p, (last.cache p).isSome ↔ p ∈ queries ∨ ∃ index ∈ variants, ∃ ef ∈ EF_SEARCH_SWEEP,
        p ∈ candidates index (month.vector normalize nCols) month.artistIds queries ef) ∧
      ∀ q ∈ queries, TopBy Entry.score 10 (others (month.scores normalize score nCols) n q ++
          ⟨⊥, q⟩ :: List.replicate 10 Entry.filler) (top q) ∧
        (top q).Pairwise fun a b => b.score ≤ a.score := by
  obtain ⟨top, d, truth, hd, htruth, hof, hcache, htop⟩ :=
    groundTruth_ok normalize score hmonth hne hrange numpy
  obtain ⟨last, hvariants, hlast, hlastCache⟩ :=
    measureVariants_cached score hmonth hrange hof (fun q hq => (hcache q).mpr hq) variants
  refine ⟨top, d, truth, last, hd, htruth, ?_, hof, hlast, ?_, htop⟩
  · unfold measureRecall
    rw [htruth]
    exact hvariants
  · intro p
    rw [hlastCache, hcache]

/-- The cache that grows from value to value and from variant to variant does not show: every value
is reported with what it would be reported with on any cache of the month's rows, the empty one
among them, and the value named is the first that reaches the target. What the cache holds in the
end is what was looked up. -/
theorem measureRecall_alone (normalize : List β → V) (score : V → V → ℚ)
    (hmonth : month.Loaded n nCols) (hne : queries ≠ [])
    (hrange : ∀ q ∈ queries, q < n) (numpy : Numpy ℚ) (variants : List (Index ι V)) :
    ∃ (truth last : ExactGroundTruth ι V) (sweeps : List Sweep),
      computeExactGroundTruth numpy normalize score month queries = .ok truth ∧
      measureRecall numpy normalize score month queries variants = .ok (sweeps, last) ∧
      List.Forall₂ (fun index sweep =>
        sweep.points.map SweepPoint.efSearch = EF_SEARCH_SWEEP ∧
        sweep.productionEfSearch =
          (sweep.points.find? fun point => RECALL_TARGET ≤ point.recallStrict).map SweepPoint.efSearch ∧
        ∀ point ∈ sweep.points, ∀ cache, Coherent normalize month.member nCols cache →
          ∃ next, sweepPoint normalize score index month queries { truth with cache } point.efSearch =
            .ok (point, next)) variants sweeps ∧
      ∀ p, (last.cache p).isSome ↔ p ∈ queries ∨ ∃ index ∈ variants, ∃ ef ∈ EF_SEARCH_SWEEP,
        ∃ q ∈ queries, ∃ id ∈ annIds index (month.vector normalize nCols) month.artistIds ef 10 q,
          idToPosition month.artistIds id = some p := by
  obtain ⟨top, d, truth, last, _, htruth, hmeasure, hof, _, hcache, _⟩ :=
    measureRecall_ok normalize score hmonth hne hrange numpy variants
  generalize (fun q => ((top q).map Entry.position).map (idAt month.artistIds d)) = exact at *
  generalize (fun q => kthScore (top q)) = kth at *
  refine ⟨truth, last, _, htruth, hmeasure, ?_, ?_⟩
  · rw [List.forall₂_map_right_iff, List.forall₂_same]
    intro index _
    unfold sweepOf
    dsimp only
    refine ⟨?_, ?_, ?_⟩
    · rw [List.map_map]
      exact List.map_id _
    · rw [List.find?_map, Option.map_map]
      exact (congrFun Option.map_id _).symm
    · intro point hpoint cache hcoherent
      obtain ⟨ef, _, rfl⟩ := List.mem_map.mp hpoint
      have hof' : TruthOf normalize month nCols queries exact kth { truth with cache } :=
        ⟨hof.position, hof.exactIds, hof.kthScores, hof.nonempty, hcoherent⟩
      exact ⟨_, sweepPoint_cached score index hmonth hrange hof' ef⟩
  · intro p
    rw [hcache]
    unfold candidates
    simp only [List.mem_flatMap, List.mem_map, List.mem_filterMap, exists_exists_and_eq_and, annIds_take]

/-- The buckets part the queries by degree, and both recalls of the sweep are the averages of theirs,
weighted by their sizes. -/
theorem measureRecall_buckets (normalize : List β → V) (score : V → V → ℚ)
    (hmonth : month.Loaded n nCols) (hne : queries ≠ []) (hrange : ∀ q ∈ queries, q < n)
    (numpy : Numpy ℚ) (variants : List (Index ι V)) :
    ∃ (sweeps : List Sweep) (last : ExactGroundTruth ι V),
      measureRecall numpy normalize score month queries variants = .ok (sweeps, last) ∧
      ∀ sweep ∈ sweeps, ∀ point ∈ sweep.points,
        point.byDegreeBucket.isSome = month.degrees.isSome ∧
        ∀ buckets ∈ point.byDegreeBucket, ∀ degrees ∈ month.degrees,
          (buckets.Pairwise fun a b => degreeBucketSortKey a.label < degreeBucketSortKey b.label) ∧
          (∀ q ∈ queries, ∃ bucket ∈ buckets, bucket.label = degreeBucketLabel (degrees.getD q 0)) ∧
          (∀ bucket ∈ buckets, 0 < bucket.n ∧
            bucket.n = queries.countP fun q => degreeBucketLabel (degrees.getD q 0) = bucket.label) ∧
          (buckets.map fun bucket => (bucket.n : ℚ) * bucket.recallStrict).sum =
            queries.length * point.recallStrict ∧
          (buckets.map fun bucket => (bucket.n : ℚ) * bucket.recallTieTolerant).sum =
            queries.length * point.recallTieTolerant := by
  obtain ⟨top, d, _, last, _, _, hmeasure, _⟩ :=
    measureRecall_ok normalize score hmonth hne hrange numpy variants
  generalize (fun q => ((top q).map Entry.position).map (idAt month.artistIds d)) = exact at *
  generalize (fun q => kthScore (top q)) = kth at *
  refine ⟨_, last, hmeasure, ?_⟩
  intro sweep hsweep point hpoint
  obtain ⟨index, _, rfl⟩ := List.mem_map.mp hsweep
  obtain ⟨ef, _, rfl⟩ := List.mem_map.mp hpoint
  refine ⟨Option.isSome_map, ?_⟩
  intro buckets hbuckets degrees hdegrees
  unfold pointOf at hbuckets ⊢
  rw [Option.mem_def.mp hdegrees] at hbuckets
  dsimp only [Option.map_some, Option.mem_def] at hbuckets ⊢
  rw [← Option.some.inj hbuckets]
  generalize hdegree : (fun q => degrees.getD q 0) = degree
  have hdegreeOf : ∀ q, degrees.getD q 0 = degree q := congrFun hdegree
  simp only [hdegreeOf]
  generalize annIds index (month.vector normalize nCols) month.artistIds ef 10 = ann
  generalize (fun q => overlap 10 (ann q) (exact q)) = strict
  generalize (fun q => tieOverlap score (month.vector normalize nCols)
    (idToPosition month.artistIds) 10 (ann q) (exact q) (kth q) q) = tie
  have haverage : ∀ f : ℕ → ℚ, ((bucketLabels degree queries).map fun label =>
      ((bucketQueries degree queries label).length : ℚ) *
        mean ((bucketQueries degree queries label).map f)).sum =
          queries.length * mean (queries.map f) := by
    intro f
    have hmembers : ∀ l : List ℕ, (l.length : ℚ) * mean (l.map f) = (l.map f).sum := by
      intro l
      rw [← List.length_map f, mean_sum]
    simp only [hmembers]
    exact sum_buckets f
  refine ⟨?_, ?_, ?_, ?_, ?_⟩
  · rw [List.pairwise_map]
    exact bucketLabels_sorted
  · intro q hq
    refine ⟨_, List.mem_map_of_mem (mem_bucketLabels.mpr ?_), rfl⟩
    exact List.ne_nil_of_mem (List.mem_filter.mpr ⟨hq, decide_eq_true rfl⟩)
  · intro bucket hbucket
    obtain ⟨label, hlabel, rfl⟩ := List.mem_map.mp hbucket
    refine ⟨List.length_pos_iff.mpr (mem_bucketLabels.mp hlabel), ?_⟩
    rw [List.countP_eq_length_filter]
    rfl
  · rw [List.map_map]
    exact haverage strict
  · rw [List.map_map]
    exact haverage tie

end

/-! ### A month of three artists -/

def threeArtists : Month ℕ ℤ := ⟨threeRows, [7, 8, 9], some [1, 5, 0]⟩

theorem threeArtists_loaded : threeArtists.Loaded 3 1 :=
  ⟨threeRows_matrix, threeRows_whole, rfl, by decide, fun d hd => by cases hd; rfl⟩

def ratDot (a b : List ℤ) : ℚ := dot a b

/- An index that knows the first ids only. -/
def listed (ids : List ℕ) : Index ℕ (List ℤ) := fun _ _ limit => ids.take limit

theorem measureRecall_alone_threeArtists : ∃ sweeps last,
    measureRecall .stable id ratDot threeArtists [0, 2] [listed [8, 9]] = .ok (sweeps, last) ∧
      sweeps.map (fun sweep => sweep.points.map SweepPoint.efSearch) = [EF_SEARCH_SWEEP] := by
  obtain ⟨_, last, sweeps, _, hmeasure, hforall, _⟩ := measureRecall_alone id ratDot
    threeArtists_loaded (List.cons_ne_nil 0 [2]) (by decide) .stable [listed [8, 9]]
  refine ⟨sweeps, last, hmeasure, ?_⟩
  obtain ⟨sweep, rest, hsweep, hrest, rfl⟩ := List.forall₂_cons_left_iff.mp hforall
  rw [List.forall₂_nil_left_iff.mp hrest, List.map_singleton, hsweep.1]

theorem measureRecall_buckets_threeArtists : ∃ sweeps last,
    measureRecall .stable id ratDot threeArtists [0, 2] [listed [8, 9]] = .ok (sweeps, last) ∧
      ∀ sweep ∈ sweeps, ∀ point ∈ sweep.points, point.byDegreeBucket.isSome := by
  obtain ⟨sweeps, last, hmeasure, hbuckets⟩ := measureRecall_buckets id ratDot
    threeArtists_loaded (List.cons_ne_nil 0 [2]) (by decide) .stable [listed [8, 9]]
  exact ⟨sweeps, last, hmeasure, fun sweep hsweep point hpoint => (hbuckets sweep hsweep point hpoint).1⟩

end AnalyticsEngine.RecallChurn
