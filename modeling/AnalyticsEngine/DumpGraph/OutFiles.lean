import AnalyticsEngine.DumpGraph.Sessions

/-!
# The output files of main (scripts/embeddings_from_dump.py)

What is found under the name of a weight is right for the weights it was written with (`main_files`),
weights that agree to six digits share one file (`sweep_files`), and no crash keeps a later process from
writing all of them (`main_completes`).
-/

namespace AnalyticsEngine.DumpGraph
open Library Library.Xml Embeddings EmbeddingPipeline

/-! ### What the files hold -/

section
variable {F O τ : Type*} {s : Setting F Float64 O} {lead lead' : Bytes} {root root' : Element}
  {order : SetOrder} {out : OutName} {x : Session F O τ}

/-- The file of a weight: the ids of the records, with their degrees and vectors beside them. -/
structure MonthFile.Written (s : Setting F Float64 O) (root root' : Element) (order : SetOrder)
    (vector : FastRPConfig s.ar → U64 → ℕ → O) (w0 selfWeight : Float64) (config : FastRPConfig s.ar)
    (ids : List Str) (file : MonthFile O) : Prop where
  accepted : sweepConfig s.ar (sweepWeights w0) selfWeight = .ok config
  rows : ArtistIds s root root' order ids
  weights : file.weights = some (sweepWeights w0)
  self : file.selfWeight = some selfWeight
  method : file.modelVersion = EmbeddingPipeline.modelVersion config
  artistIds : file.artistIds = ids.map String.ofList
  degrees : file.degrees =
    some (ids.map fun aid => recordDegree s root root' order (s.nodeKey 'a' aid))
  vectors : ∀ i aid, ids[i]? = some aid → ∀ j < config.dim,
    file.vectors i j = vector config (s.nodeKey 'a' aid) j

theorem mainOutput_positive {ar : Arithmetic F Float64 O} {env : Surroundings F}
    {graph : Graph F (Scalars τ)} {adjacency : Adjacency F} {config : FastRPConfig ar}
    {blockColumns threads : ℕ} {output : Output O}
    (h : mainOutput ar env graph adjacency config blockColumns threads = .ok output) :
    1 ≤ blockColumns ∧ 1 ≤ threads := by
  by_contra hneg
  have hzero : blockColumns < 1 ∨ threads < 1 := by omega
  unfold mainOutput fastrp at h
  split at h
  · cases h
  · rw [if_pos hzero] at h
    cases h

/-- What is written is the file of its weight. -/
theorem monthFile_written {vector : FastRPConfig s.ar → U64 → ℕ → O} {graph : Graph F (Scalars τ)}
    (houtput : ∀ (config : FastRPConfig s.ar) (env : Surroundings F) (blockColumns threads : ℕ),
      0 ≤ config.seed ∧ config.seed < 2 ^ 64 → 1 ≤ blockColumns → 1 ≤ threads →
      ∃ adjacency, graph.IsAdjacency adjacency ∧ ∃ (ids : List Str) (vectors : Block O),
        ArtistIds s root root' order ids ∧
        mainOutput s.ar env graph adjacency config blockColumns threads = .ok
          { artistIds := ids.map String.ofList
            degrees := ids.map fun aid => recordDegree s root root' order (s.nodeKey 'a' aid)
            vectors := vectors } ∧
        ∀ i aid, ids[i]? = some aid → ∀ j < config.dim,
          vectors i j = vector config (s.nodeKey 'a' aid) j)
    {env : Surroundings F} {request : Request} {w0 : Float64} {file : MonthFile O}
    (h : monthFile s.ar env graph request w0 = .ok file) :
    ∃ config ids, file.Written s root root' order vector w0 request.selfWeight config ids := by
  unfold monthFile at h
  split at h
  next => cases h
  next adjacency hadjacency =>
    split at h
    next => cases h
    next config hconfig =>
      split at h
      next => cases h
      next output hmain =>
        cases h
        obtain ⟨hblockColumns, hthreads⟩ := mainOutput_positive hmain
        obtain ⟨adjacency', hisAdjacency, ids, vectors, hids, hmain', hvectors⟩ :=
          houtput config env _ _ (sweepConfig_seed hconfig) hblockColumns hthreads
        rw [hisAdjacency.eq] at hadjacency
        cases hadjacency
        rw [hmain'] at hmain
        cases hmain
        exact ⟨config, ids, hconfig, hids, rfl, rfl, rfl, rfl, rfl, hvectors⟩

/-- The reader takes the file of a weight for what it is. -/
theorem loadMonth_written {vector : FastRPConfig s.ar → U64 → ℕ → O} {w0 selfWeight : Float64}
    {config : FastRPConfig s.ar} {ids : List Str} {file : MonthFile O}
    (h : file.Written s root root' order vector w0 selfWeight config ids) :
    loadMonth s.ar file =
      ((storedModelVersion config file.dumpId).mapError LoadError.version).map fun version =>
        { artistIds := ids.map String.ofList
          vectors := file.vectors
          degrees := some (ids.map fun aid => recordDegree s root root' order (s.nodeKey 'a' aid))
          methodVersion := modelVersion config
          modelVersion := version
          dumpId := file.dumpId
          dumpDate := file.dumpDate } := by
  unfold loadMonth
  simp only [h.weights, h.self, Option.getD_some, h.accepted, h.method, h.artistIds, h.degrees,
    ne_eq, not_true_eq_false, if_false]
  cases storedModelVersion config file.dumpId with
  | error e => rfl
  | ok version => rfl

theorem files_written {vector : FastRPConfig s.ar → U64 → ℕ → O}
    (houtput : ∀ (w : World F τ) (args : Args) (graph : Graph F (Scalars τ)),
      Reachable (World.wholeStep s) .initial w → w.process = some (args, .ready graph) →
      ∀ (env : Surroundings F) (request : Request) (w0 : Float64) (file : MonthFile O),
      monthFile s.ar env graph request w0 = .ok file →
      ∃ config ids, file.Written s root root' order vector w0 request.selfWeight config ids)
    (h : Reachable (Session.wholeStep s out) .initial x) :
    ∀ name file, x.files name = some file → ∃ w0 selfWeight multiple config ids,
      name = outPathForConfig out w0 selfWeight multiple ∧
      file.Written s root root' order vector w0 selfWeight config ids := by
  induction h with
  | start =>
    intro name file hfile
    cases hfile
  | @step x y action hreach hstep ih =>
    cases session_turn (permit_eq_some.mp hstep).2 with
    | start args request hw => exact ih
    | main _ hw => exact ih
    | @wrote args graph request done w0 env file hprocess _ _ hfile =>
      intro name file' hname
      dsimp only at hname
      by_cases heq : name = request.outPath out w0
      · subst heq
        rw [Function.update_self] at hname
        cases hname
        obtain ⟨config, ids, hwritten⟩ :=
          houtput x.world args graph (reachable_world hreach) hprocess env request w0 file hfile
        exact ⟨w0, request.selfWeight, _, config, ids, rfl, hwritten⟩
      · rw [Function.update_of_ne heq] at hname
        exact ih name file' hname
    | refused hstop => exact ih

/-- Whatever processes without a limit wrote beside one `--out` and wherever they were stopped, what is
found under the name of a weight is a whole file of the records for a weight of that name: its rows,
degrees and vectors are those of the weights it tells itself, and its reader takes it for just that. -/
theorem main_files (hread : Readable s lead lead' root root') (out : OutName) (order : SetOrder) :
    ∃ vector : FastRPConfig s.ar → U64 → ℕ → O,
      ∀ x : Session F O τ, Reachable (Session.wholeStep s out) .initial x →
      ∀ (w0 selfWeight : Float64) (multiple : Bool) (file : MonthFile O),
      x.files (outPathForConfig out w0 selfWeight multiple) = some file →
      ∃ w0' selfWeight' multiple' config ids,
        outKey w0' selfWeight' multiple' = outKey w0 selfWeight multiple ∧
        file.Written s root root' order vector w0' selfWeight' config ids ∧
        loadMonth s.ar file =
          ((storedModelVersion config file.dumpId).mapError LoadError.version).map fun version =>
            { artistIds := ids.map String.ofList
              vectors := file.vectors
              degrees := some (ids.map fun aid => recordDegree s root root' order (s.nodeKey 'a' aid))
              methodVersion := modelVersion config
              modelVersion := version
              dumpId := file.dumpId
              dumpDate := file.dumpDate } := by
  obtain ⟨vector, hvector⟩ := main_output (τ := τ) hread order
  refine ⟨vector, ?_⟩
  intro x hreach w0 selfWeight multiple file hfile
  have houtput : ∀ (w : World F τ) (args : Args) (graph : Graph F (Scalars τ)),
      Reachable (World.wholeStep s) .initial w → w.process = some (args, .ready graph) →
      ∀ (env : Surroundings F) (request : Request) (w0 : Float64) (file : MonthFile O),
      monthFile s.ar env graph request w0 = .ok file →
      ∃ config ids, file.Written s root root' order vector w0 request.selfWeight config ids :=
    fun w args graph hw hready _ _ _ _ h => monthFile_written (hvector w args graph hw hready) h
  obtain ⟨w0', selfWeight', multiple', config, ids, hname, hwritten⟩ :=
    files_written houtput hreach _ file hfile
  exact ⟨w0', selfWeight', multiple', config, ids, ((outPath_eq_iff ..).mp hname).symm, hwritten,
    loadMonth_written hwritten⟩

end

section
variable {F O τ : Type*} {s : Setting F Float64 O} {lead lead' : Bytes} {root root' : Element}
  {out : OutName} {x : Session F O τ} {request : Request} {done : ℕ}

/-- Of the weights that a process has written, the last one that agrees with a weight to six digits has
the file of its name; each has its own exactly if no two of them agree. -/
theorem sweep_files (h : Reachable (Session.step s out) .initial x)
    (hsweep : x.sweep = some (request, done)) :
    (∀ w ∈ request.weights.take done, ∃ w',
      lastAlike (request.weights.take done) w = some w' ∧ FileOf request out x w w') ∧
    ((∀ w ∈ request.weights.take done, FileOf request out x w w) ↔
      ∀ w ∈ request.weights.take done, ∀ w' ∈ request.weights.take done,
        w.sixDigits = w'.sixDigits → w = w') := by
  have hfiles := fileOf_lastAlike h request done hsweep
  refine ⟨hfiles, ?_, ?_⟩
  · intro hown w hw w' hw' hdigits
    obtain ⟨file, hfile, hweights, _⟩ := hown w hw
    obtain ⟨file', hfile', hweights', _⟩ := hown w' hw'
    rw [(outPath_same (List.mem_of_mem_take hw) (List.mem_of_mem_take hw')).mpr hdigits, hfile'] at hfile
    cases hfile
    exact sweepWeights_inj (Option.some.inj (hweights.symm.trans hweights'))
  · intro happart w hw
    obtain ⟨w', hlast, hfile⟩ := hfiles w hw
    obtain ⟨hmem, hdigits⟩ := lastAlike_mem hlast
    rw [happart w' hmem w hw hdigits] at hfile
    exact hfile

/-- With no process under way a new one without a limit can write all it is asked for, whatever the
earlier ones left behind, exactly if the nodes of the records are not too many and it has a graph to
load or both dumps to read. -/
theorem main_completes [Nonempty τ] (hread : Readable s lead lead' root root')
    (hzero : s.ar.isZero = Float64.isZero) (h : Reachable (Session.wholeStep s out) .initial x)
    (hidle : x.world.process = none) {args : Args} (hlimit : args.limitChunks = 0)
    (hrequest : request.Sensible) (env : Surroundings F) (order : SetOrder) :
    (∃ (y : Session F O τ) (graph : Graph F (Scalars τ)), Reachable (Session.wholeStep s out) x y ∧
      y.world.process = some (args, .ready graph) ∧
      y.sweep = some (request, request.weights.length)) ↔
    (recordKeys (releaseRecords s root order) (masterRecords s root')).length ≤ maxNodes ∧
      x.world.Provided args := by
  have hsound : x.world.Sound s root root' order := sound_reachable hread (reachable_world h)
  constructor
  · rintro ⟨y, graph, hreach, hready, _⟩
    have hexact : Exact s root root' order graph :=
      (sound_reachable hread (reachable_world (h.trans hreach))).process args (.ready graph) hready
    refine ⟨?_, never_ready hread hsound hidle (reachable_world hreach) hready⟩
    rw [← hexact.keys]
    exact graph.nodes.bounded
  · rintro ⟨hfits, hprovided⟩
    exact reach_completed hread hzero h hidle hlimit hprovided hrequest env hfits

end

/-! ### Two weights that differ in the seventh digit -/

def floatArithmetic : Arithmetic ℤ Float64 ℤ where
  zero := 0
  add := (· + ·)
  mul := (· * ·)
  mul_comm := mul_comm
  sqrt3 := 2
  neg := Neg.neg
  zero64 := zeroWeight
  one64 := unitWeight
  add64 a _ := a
  mul64 a _ := a
  div64 a _ := a
  pow64 a _ := a
  sqrt64 := id
  ofNat64 _ := unitWeight
  isZero := Float64.isZero
  widen _ := unitWeight
  narrow _ := 1
  store := id

def oneArtistFloat : Setting ℤ Float64 ℤ where
  names := asciiNames
  nodeKey := kindKey
  categorizeRole := id
  ar := floatArithmetic
  chunkBytes := 16
  releases := artistRecord "release"
  masters := oneRecord "master"
  releasesPath := true

theorem oneArtistFloat_readable :
    Readable oneArtistFloat (ascii "<d>") (ascii "<d>") (artistRoot "release") (oneRoot "master") where
  releases := recordDump_artistRelease
  releases_block := by decide
  masters := recordDump_oneMaster
  masters_block := by decide

theorem oneArtistFloat_fits : (recordKeys (releaseRecords oneArtistFloat (artistRoot "release")
    sortedOrder) (masterRecords oneArtistFloat (oneRoot "master"))).length ≤ maxNodes :=
  oneArtist_fits

def seventhDigit : Request where
  dumpId := "2026-09"
  dumpDate := "2026-09-01"
  weights := [seventhSeven, seventhEight]
  selfWeight := zeroWeight
  blockColumns := 2
  threads := 3
  parityOnly := false

theorem seventhDigit_sensible : seventhDigit.Sensible where
  blockColumns := by decide
  threads := by decide
  notOnly := rfl

def monthName : OutName := ⟨"sep", ".npz"⟩

theorem initial_provided (args : Args) : (Session.initial : Session ℤ ℤ Unit).world.Provided args :=
  Or.inr fun _ => rfl

theorem main_completes_seventhDigit : ∃ (x : Session ℤ ℤ Unit) (graph : Graph ℤ (Scalars Unit)),
    Reachable (Session.wholeStep oneArtistFloat monthName) .initial x ∧
      x.world.process = some (checkpointsThenDelete, .ready graph) ∧
      x.sweep = some (seventhDigit, 2) :=
  (main_completes oneArtistFloat_readable rfl .start rfl rfl seventhDigit_sensible inOrder
    sortedOrder).mpr ⟨oneArtistFloat_fits, initial_provided _⟩

theorem exists_seventhDigit : ∃ x : Session ℤ ℤ Unit,
    Reachable (Session.wholeStep oneArtistFloat monthName) .initial x ∧
      x.sweep = some (seventhDigit, 2) := by
  have hinitial : Reachable (Session.wholeStep oneArtistFloat monthName) .initial
      (.initial : Session ℤ ℤ Unit) := .start
  obtain ⟨x, _, hreach, _, hsweep⟩ := reach_completed oneArtistFloat_readable rfl hinitial rfl rfl
    (initial_provided checkpointsThenDelete) seventhDigit_sensible inOrder oneArtistFloat_fits
  exact ⟨x, hreach, hsweep⟩

/-- The file that is found under the first name is accepted, with the weights of the second. -/
theorem main_files_seventhDigit : ∃ (x : Session ℤ ℤ Unit) (file : MonthFile ℤ)
    (month : Month ℤ), Reachable (Session.wholeStep oneArtistFloat monthName) .initial x ∧
      x.files (outPathForConfig monthName seventhSeven zeroWeight true) = some file ∧
      file.weights = some (sweepWeights seventhEight) ∧
      loadMonth floatArithmetic file = .ok month ∧ month.vectors = file.vectors := by
  obtain ⟨x, hreach, hsweep⟩ := exists_seventhDigit
  have hdigits : seventhSeven.sixDigits = seventhEight.sixDigits := by decide +kernel
  have htake : seventhDigit.weights.take 2 = [seventhSeven] ++ [seventhEight] := rfl
  have hfiles := fileOf_lastAlike hreach.of_permit seventhDigit 2 hsweep
  rw [htake] at hfiles
  obtain ⟨w', hlast, file, hfile, hweights, _, hdump⟩ := hfiles seventhSeven List.mem_cons_self
  rw [lastAlike_append, if_pos hdigits.symm] at hlast
  cases hlast
  obtain ⟨vector, hvector⟩ := main_files (τ := Unit) oneArtistFloat_readable monthName sortedOrder
  obtain ⟨w0', selfWeight', multiple', config, ids, _, _, hload⟩ :=
    hvector x hreach seventhSeven zeroWeight true file hfile
  have hversion : storedModelVersion config file.dumpId =
      .ok (modelVersion config ++ ":" ++ edgeSetVersion ++ String.singleton storedVersionSeparator ++
        file.dumpId) := by
    unfold storedModelVersion
    rw [if_neg (by rw [hdump]; decide)]
  rw [hversion] at hload
  exact ⟨x, file, _, hreach, hfile, hweights, hload, rfl⟩

theorem sweep_files_seventhDigit : ∃ x : Session ℤ ℤ Unit,
    Reachable (Session.step oneArtistFloat monthName) .initial x ∧
      FileOf seventhDigit monthName x seventhSeven seventhEight ∧
      ¬FileOf seventhDigit monthName x seventhSeven seventhSeven := by
  obtain ⟨x, hreach, hsweep⟩ := exists_seventhDigit
  have hdigits : seventhSeven.sixDigits = seventhEight.sixDigits := by decide +kernel
  obtain ⟨hfiles, hown⟩ := sweep_files hreach.of_permit hsweep
  have htake : seventhDigit.weights.take 2 = [seventhSeven] ++ [seventhEight] := rfl
  rw [htake] at hfiles hown
  obtain ⟨w', hlast, hfile⟩ := hfiles seventhSeven List.mem_cons_self
  rw [lastAlike_append, if_pos hdigits.symm] at hlast
  cases hlast
  refine ⟨x, hreach.of_permit, hfile, ?_⟩
  rintro ⟨file, hname, hweights, _⟩
  obtain ⟨file', hname', hweights', _⟩ := hfile
  rw [hname] at hname'
  cases hname'
  have hsame : seventhSeven = seventhEight :=
    sweepWeights_inj (Option.some.inj (hweights.symm.trans hweights'))
  exact absurd hsame (by decide)

end AnalyticsEngine.DumpGraph
