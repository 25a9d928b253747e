import AnalyticsEngine.DumpGraph.Output
import AnalyticsEngine.DumpGraph.OutNames

/-!
# The processes and their output files (scripts/embeddings_from_dump.py)

For each weight of step 0 `main` writes a file, and scripts/measure_recall_churn.py reads it again. A
process may be stopped between two files, or anywhere before; the next one writes over what it finds.
-/

namespace AnalyticsEngine.DumpGraph
open Library Library.Xml Embeddings EmbeddingPipeline

/-! ### A file and its reader -/

section
variable {F D O τ : Type*}

theorem valid_iff (m : Csr F) : m.Valid ↔
    m.indptr.length = m.rows + 1 ∧ (∀ i < m.rows, m.start i ≤ m.start (i + 1)) ∧
      m.start m.rows = m.nnz ∧ m.data.length = m.nnz ∧ ∀ c ∈ m.indices, c < m.rows := by
  constructor
  · intro h
    exact ⟨h.length_indptr, h.mono, h.last, h.length_data, h.columns⟩
  · rintro ⟨hlength, hmono, hlast, hdata, hcolumns⟩
    exact ⟨hlength, hmono, hlast, hdata, hcolumns⟩

instance decidableValid (m : Csr F) : Decidable m.Valid := decidable_of_iff _ (valid_iff m).symm

/-- The adjacency that FastRP is given. -/
def Graph.adjacency {M : Type*} (graph : Graph F M) : Option (Adjacency F) :=
  if h : graph.transition.Valid ∧ graph.transition.rows = graph.nodes.keys.length then some
    { nodes := graph.nodes
      transition := graph.transition
      degree := fun p => (graph.degree.getD p 0).toNat
      valid := h.1
      square := h.2 }
  else none

theorem Graph.IsAdjacency.eq {M : Type*} {graph : Graph F M} {adjacency : Adjacency F}
    (h : graph.IsAdjacency adjacency) : graph.adjacency = some adjacency := by
  obtain ⟨hnodes, htransition, hdegree⟩ := h
  obtain ⟨nodes, transition, degree, valid, square⟩ := adjacency
  cases hnodes
  cases htransition
  have hdegrees : (fun p => (graph.degree.getD p 0).toNat) = degree := by
    funext p
    rw [← hdegree p]
    rfl
  unfold Graph.adjacency
  rw [dif_pos ⟨valid, square⟩]
  cases hdegrees
  rfl

inductive ConfigError where
  | dim
  | weights

/-- `FastRPConfig`, with the checks of its `__post_init__`. -/
def newConfig (ar : Arithmetic F D O) (dim : ℕ) (weights : List D) (beta selfWeight : D) (seed : ℤ) :
    Except ConfigError (FastRPConfig ar) :=
  if hdim : dim < 1 then .error .dim
  else if hweights : ∃ w ∈ weights, ar.isZero w = false then
    .ok ⟨dim, weights, beta, selfWeight, seed, Nat.not_lt.mp hdim, hweights⟩
  else .error .weights

end

theorem zero_format : (0 < 2 ^ 52 ∧ (-1074 : ℤ) = -1074) ∨
    (2 ^ 52 ≤ 0 ∧ 0 < 2 ^ 53 ∧ -1074 ≤ (-1074 : ℤ) ∧ (-1074 : ℤ) ≤ 971) := by decide

/-- `0.0` -/
def zeroWeight : Float64 := .finite false ⟨0, -1074, zero_format⟩

/-- `1.0` -/
def unitWeight : Float64 := .finite false ⟨2 ^ 52, -52, by decide⟩

/-- `DEFAULT_SEED` -/
def defaultSeed : ℤ := 20260924

def sweepWeights (w0 : Float64) : List Float64 :=
  [w0, unitWeight, unitWeight, unitWeight, unitWeight]

section
variable {F O τ : Type*} (ar : Arithmetic F Float64 O)

/-- `FastRPConfig(weights=weights, self_weight=self_weight)` -/
def sweepConfig (weights : List Float64) (selfWeight : Float64) : Except ConfigError (FastRPConfig ar) :=
  newConfig ar 128 weights zeroWeight selfWeight defaultSeed

variable {ar}

theorem sweepConfig_seed {weights : List Float64} {selfWeight : Float64}
    {config : FastRPConfig ar} (h : sweepConfig ar weights selfWeight = .ok config) :
    0 ≤ config.seed ∧ config.seed < 2 ^ 64 := by
  unfold sweepConfig newConfig at h
  split_ifs at h with hweights
  cases h
  have hseed : 0 ≤ defaultSeed ∧ defaultSeed < 2 ^ 64 := by decide
  exact hseed

theorem sweepConfig_ok (hzero : ar.isZero = Float64.isZero)
    (w0 selfWeight : Float64) : ∃ config, sweepConfig ar (sweepWeights w0) selfWeight = .ok config := by
  have hweights : ∃ w ∈ sweepWeights w0, ar.isZero w = false := by
    refine ⟨unitWeight, List.mem_cons_of_mem _ List.mem_cons_self, ?_⟩
    rw [hzero]
    rfl
  unfold sweepConfig newConfig
  rw [dif_neg (by decide), dif_pos hweights]
  exact ⟨_, rfl⟩

/- The arrays of an output file; the optional ones came later. -/
structure MonthFile (O : Type*) where
  artistIds : List String
  vectors : Block O
  modelVersion : String
  weights : Option (List Float64)
  selfWeight : Option Float64
  degrees : Option (List ℤ)
  dumpId : String
  dumpDate : String

/- What `main` is asked to write. -/
structure Request where
  dumpId : String
  dumpDate : String
  weights : List Float64
  selfWeight : Float64
  blockColumns : ℕ
  threads : ℕ
  parityOnly : Bool

inductive WriteError where
  | adjacency
  | config (error : ConfigError)
  | output (error : OutputError)

variable (ar)

/-- One turn of the loop over `--w0`, up to its write. -/
def monthFile (env : Surroundings F) (graph : Graph F (Scalars τ)) (request : Request)
    (w0 : Float64) : Except WriteError (MonthFile O) :=
  match graph.adjacency with
  | none => .error .adjacency
  | some adjacency =>
    match sweepConfig ar (sweepWeights w0) request.selfWeight with
    | .error e => .error (.config e)
    | .ok config =>
      match mainOutput ar env graph adjacency config request.blockColumns request.threads with
      | .error e => .error (.output e)
      | .ok output => .ok
          { artistIds := output.artistIds
            vectors := output.vectors
            modelVersion := modelVersion config
            weights := some (sweepWeights w0)
            selfWeight := some request.selfWeight
            degrees := some output.degrees
            dumpId := request.dumpId
            dumpDate := request.dumpDate }

/- The dictionary of `_load_month`; its vectors stay in the file. -/
structure Month (O : Type*) where
  artistIds : List String
  vectors : Block O
  degrees : Option (List ℤ)
  methodVersion : String
  modelVersion : String
  dumpId : String
  dumpDate : String

inductive LoadError where
  | config (error : ConfigError)
  -- the file is inconsistent with itself
  | inconsistent (methodVersion modelVersion : String)
  | version (error : VersionError)

def loadMonth (file : MonthFile O) : Except LoadError (Month O) :=
  let weights := file.weights.getD (sweepWeights zeroWeight)
  let selfWeight := file.selfWeight.getD zeroWeight
  match sweepConfig ar weights selfWeight with
  | .error e => .error (.config e)
  | .ok config =>
    if file.modelVersion ≠ modelVersion config then
      .error (.inconsistent file.modelVersion (modelVersion config))
    else
      match storedModelVersion config file.dumpId with
      | .error e => .error (.version e)
      | .ok version => .ok
          { artistIds := file.artistIds
            vectors := file.vectors
            degrees := file.degrees
            methodVersion := file.modelVersion
            modelVersion := version
            dumpId := file.dumpId
            dumpDate := file.dumpDate }

end

/-! ### The processes and their files -/

section
variable {F O τ : Type*}

/- With the request of the latest process, and how many of its weights it has written. -/
structure Session (F O τ : Type*) where
  world : World F τ
  files : String → Option (MonthFile O)
  sweep : Option (Request × ℕ)

def Session.initial : Session F O τ := ⟨.initial, fun _ => none, none⟩

inductive SessionAction (F τ : Type*) where
  | start (args : Args) (request : Request)
  | main (action : Action F τ)
  | wrote (env : Surroundings F)

def Request.outPath (request : Request) (out : OutName) (w0 : Float64) : String :=
  outPathForConfig out w0 request.selfWeight (decide (1 < request.weights.length))

/- One step of `main`; `_atomic_savez_compressed` replaces a file at once. -/
def Session.step (s : Setting F Float64 O) (out : OutName) (x : Session F O τ)
    (action : SessionAction F τ) : Option (Session F O τ) :=
  match action with
  | .start args request =>
    (x.world.step s (.start args)).map fun w => { x with world := w, sweep := some (request, 0) }
  | .main (.start _) => none
  | .main action => (x.world.step s action).map fun w => { x with world := w }
  | .wrote env =>
    match x.world.process, x.sweep with
    | some (_, .ready graph), some (request, done) =>
      if request.parityOnly then none
      else
        match request.weights[done]? with
        | none => none
        | some w0 =>
          match monthFile s.ar env graph request w0 with
          | .error _ => some { x with world := x.world.stop }
          | .ok file => some
              { x with
                files := Function.update x.files (request.outPath out w0) (some file)
                sweep := some (request, done + 1) }
    | _, _ => none

def SessionAction.whole : SessionAction F τ → Bool
  | .start args _ => args.limitChunks = 0
  | _ => true

/-- The steps of processes without a limit. -/
def Session.wholeStep (s : Setting F Float64 O) (out : OutName) :
    Session F O τ → SessionAction F τ → Option (Session F O τ) :=
  permit SessionAction.whole (Session.step s out)

variable {s : Setting F Float64 O} {out : OutName} {x y : Session F O τ} {action : SessionAction F τ}

/- What a step does. -/
inductive Turn (s : Setting F Float64 O) (out : OutName) (x : Session F O τ) :
    SessionAction F τ → Session F O τ → Prop where
  | start (args : Args) (request : Request) {w : World F τ} :
      x.world.step s (.start args) = some w →
      Turn s out x (.start args request) { x with world := w, sweep := some (request, 0) }
  | main {action : Action F τ} {w : World F τ} : action.whole = true →
      x.world.step s action = some w → Turn s out x (.main action) { x with world := w }
  | wrote {args : Args} {graph : Graph F (Scalars τ)} {request : Request} {done : ℕ} {w0 : Float64}
      {env : Surroundings F} {file : MonthFile O} :
      x.world.process = some (args, .ready graph) → x.sweep = some (request, done) →
      request.weights[done]? = some w0 → monthFile s.ar env graph request w0 = .ok file →
      Turn s out x (.wrote env)
        { x with
          files := Function.update x.files (request.outPath out w0) (some file)
          sweep := some (request, done + 1) }
  | refused {env : Surroundings F} : x.world.step s .stopped = some x.world.stop →
      Turn s out x (.wrote env) { x with world := x.world.stop }

theorem session_turn (h : x.step s out action = some y) : Turn s out x action y := by
  unfold Session.step at h
  split at h
  next args request =>
    obtain ⟨w, hw, rfl⟩ := Option.map_eq_some_iff.mp h
    exact .start args request hw
  next => cases h
  next action hstart =>
    obtain ⟨w, hw, rfl⟩ := Option.map_eq_some_iff.mp h
    refine .main ?_ hw
    cases action with
    | start args => exact absurd rfl (hstart args)
    | _ => rfl
  next env =>
    split at h
    next args graph request done hprocess hsweep =>
      split at h
      next => cases h
      next =>
        split at h
        next => cases h
        next w0 hw0 =>
          split at h
          next =>
            cases h
            refine .refused ?_
            unfold World.step
            simp only [hprocess]
          next file hfile =>
            cases h
            exact .wrote hprocess hsweep hw0 hfile
    next => cases h

/-- Beside its files a session is a run of the processes. -/
theorem reachable_world (h : Reachable (Session.wholeStep s out) x y) :
    Reachable (World.wholeStep s) x.world y.world := by
  induction h with
  | start => exact .start
  | step _ hstep ih =>
    obtain ⟨hwhole, hstep⟩ := permit_eq_some.mp hstep
    cases session_turn hstep with
    | start args request hw =>
      have haction : (Action.start args : Action F τ).whole = true := hwhole
      exact ih.step (permit_eq_some.mpr ⟨haction, hw⟩)
    | main haction hw => exact ih.step (permit_eq_some.mpr ⟨haction, hw⟩)
    | wrote _ _ _ _ => exact ih
    | refused hstop => exact ih.step (permit_eq_some.mpr ⟨rfl, hstop⟩)

end

/-! ### The files of a sweep -/

section
variable {F O τ : Type*} {s : Setting F Float64 O} {out : OutName} {x : Session F O τ}
  {request : Request} {done : ℕ}

/-- Names of one request are told apart by six digits of the weight. -/
theorem outPath_same {w w' : Float64} (hw : w ∈ request.weights) (hw' : w' ∈ request.weights) :
    request.outPath out w = request.outPath out w' ↔ w.sixDigits = w'.sixDigits := by
  unfold Request.outPath
  rw [outPath_eq_iff]
  unfold outKey
  by_cases hmultiple : 1 < request.weights.length
  · simp [hmultiple]
  · have hsame : w = w' := by
      obtain ⟨i, hi⟩ := List.getElem?_of_mem hw
      obtain ⟨j, hj⟩ := List.getElem?_of_mem hw'
      have hi' := (List.getElem?_eq_some_iff.mp hi).1
      have hj' := (List.getElem?_eq_some_iff.mp hj).1
      obtain rfl : i = j := by omega
      exact Option.some.inj (hi.symm.trans hj)
    simp [hsame]

/-- The last of the weights written so far that agrees with `w` to six digits. -/
def lastAlike (weights : List Float64) (w : Float64) : Option Float64 :=
  (weights.filter fun v => v.sixDigits = w.sixDigits).getLast?

theorem lastAlike_mem {weights : List Float64} {w w' : Float64} (h : lastAlike weights w = some w') :
    w' ∈ weights ∧ w'.sixDigits = w.sixDigits := by
  obtain ⟨hmem, hdigits⟩ := List.mem_filter.mp (List.mem_of_getLast? h)
  exact ⟨hmem, of_decide_eq_true hdigits⟩

theorem lastAlike_append (weights : List Float64) (v w : Float64) :
    lastAlike (weights ++ [v]) w =
      if v.sixDigits = w.sixDigits then some v else lastAlike weights w := by
  unfold lastAlike
  rw [List.filter_append]
  split_ifs with hdigits
  · rw [List.filter_singleton, decide_eq_true hdigits]
    exact List.getLast?_concat
  · rw [List.filter_singleton, decide_eq_false hdigits]
    simp

/-- Under the name of `w` is the file of `w'`. -/
def FileOf (request : Request) (out : OutName) (x : Session F O τ) (w w' : Float64) : Prop :=
  ∃ file, x.files (request.outPath out w) = some file ∧ file.weights = some (sweepWeights w') ∧
    file.selfWeight = some request.selfWeight ∧ file.dumpId = request.dumpId

theorem monthFile_weights {ar : Arithmetic F Float64 O} {env : Surroundings F}
    {graph : Graph F (Scalars τ)} {w0 : Float64} {file : MonthFile O}
    (h : monthFile ar env graph request w0 = .ok file) :
    file.weights = some (sweepWeights w0) ∧ file.selfWeight = some request.selfWeight ∧
      file.dumpId = request.dumpId := by
  unfold monthFile at h
  split at h
  next => cases h
  next =>
    split at h
    next => cases h
    next =>
      split at h
      next => cases h
      next =>
        cases h
        exact ⟨rfl, rfl, rfl⟩

theorem fileOf_lastAlike (h : Reachable (Session.step s out) .initial x) :
    ∀ request done, x.sweep = some (request, done) → ∀ w ∈ request.weights.take done,
      ∃ w', lastAlike (request.weights.take done) w = some w' ∧ FileOf request out x w w' := by
  induction h with
  | start =>
    intro request done hsweep
    cases hsweep
  | @step x y action hreach hstep ih =>
    cases session_turn hstep with
    | start args request hw =>
      intro request' done hsweep w hmem
      cases hsweep
      rw [List.take_zero] at hmem
      cases hmem
    | main _ hw => exact ih
    | @wrote args graph request done w0 env file hprocess hsweep hw0 hfile =>
      intro request' done' hsweep' w hmem
      cases hsweep'
      have htake : request.weights.take (done + 1) = request.weights.take done ++ [w0] := by
        rw [List.take_add_one, hw0]
        rfl
      rw [htake] at hmem ⊢
      have hw0mem : w0 ∈ request.weights := List.mem_of_getElem? hw0
      have hwmem : w ∈ request.weights := by
        rw [← htake] at hmem
        exact List.mem_of_mem_take hmem
      rw [lastAlike_append]
      split_ifs with hdigits
      · obtain ⟨hweights, hself, hdump⟩ := monthFile_weights hfile
        refine ⟨w0, rfl, file, ?_, hweights, hself, hdump⟩
        dsimp only
        rw [(outPath_same hwmem hw0mem).mpr hdigits.symm, Function.update_self]
      · have hbefore : w ∈ request.weights.take done := by
          rcases List.mem_append.mp hmem with hmem | hmem
          · exact hmem
          · exact absurd (List.mem_singleton.mp hmem ▸ rfl) hdigits
        obtain ⟨w', hlast, file', hfile', hrest⟩ := ih request done hsweep w hbefore
        refine ⟨w', hlast, file', ?_, hrest⟩
        dsimp only
        rw [Function.update_of_ne fun heq =>
          hdigits ((outPath_same hwmem hw0mem).mp heq).symm]
        exact hfile'
    | refused hstop => exact ih

theorem sweepWeights_inj {w w' : Float64} (h : sweepWeights w = sweepWeights w') : w = w' :=
  (List.cons.inj h).1

end

/-! ### Coming to the end -/

section
variable {F O τ : Type*} {s : Setting F Float64 O} {lead lead' : Bytes} {root root' : Element}
  {order : SetOrder} {out : OutName} {x : Session F O τ} {request : Request}

theorem start_of_idle {w next : World F τ} {action : Action F τ} (hidle : w.process = none)
    (hstep : w.step s action = some next) : ∃ args, action = .start args := by
  unfold World.step at hstep
  cases action with
  | start args => exact ⟨args, rfl⟩
  | _ =>
    simp only [hidle] at hstep
    cases hstep

/-- A run of the processes is the run of a session that asks each of them for the same. -/
theorem exists_session (out : OutName) (request : Request) {w : World F τ}
    (hidle : x.world.process = none)
    (h : Reachable (World.wholeStep s) x.world w) :
    ∃ y : Session F O τ, Reachable (Session.wholeStep s out) x y ∧ y.world = w ∧
      (w.process = none ∨ y.sweep = some (request, 0)) := by
  induction h with
  | start => exact ⟨x, .start, rfl, Or.inl hidle⟩
  | @step w next action _ hstep ih =>
    obtain ⟨y, hreach, rfl, hsweep⟩ := ih
    obtain ⟨hwhole, hstep⟩ := permit_eq_some.mp hstep
    by_cases hstart : ∃ args, action = .start args
    · obtain ⟨args, rfl⟩ := hstart
      have hnext : y.step s out (.start args request) =
          some { y with world := next, sweep := some (request, 0) } := by
        unfold Session.step
        simp only [hstep, Option.map_some]
      have haction : (SessionAction.start args request : SessionAction F τ).whole = true := hwhole
      exact ⟨_, hreach.step (permit_eq_some.mpr ⟨haction, hnext⟩), rfl, Or.inr rfl⟩
    · have hbusy : y.sweep = some (request, 0) := by
        rcases hsweep with hnone | hsweep
        · exact absurd (start_of_idle hnone hstep) hstart
        · exact hsweep
      have hnext : y.step s out (.main action) = some { y with world := next } := by
        unfold Session.step
        cases action with
        | start args => exact absurd ⟨args, rfl⟩ hstart
        | _ => simp only [hstep, Option.map_some]
      exact ⟨_, hreach.step (permit_eq_some.mpr ⟨rfl, hnext⟩), rfl, Or.inr hbusy⟩

/-- What `main` needs to come through its loop. -/
structure Request.Sensible (request : Request) : Prop where
  blockColumns : 1 ≤ request.blockColumns
  threads : 1 ≤ request.threads
  notOnly : request.parityOnly = false

theorem monthFile_ok {graph : Graph F (Scalars τ)} (hzero : s.ar.isZero = Float64.isZero)
    (hexact : Exact s root root' order graph) (hrequest : request.Sensible) (env : Surroundings F)
    (w0 : Float64) : ∃ file, monthFile s.ar env graph request w0 = .ok file := by
  obtain ⟨config, hconfig⟩ := sweepConfig_ok hzero w0 request.selfWeight
  obtain ⟨adjacency, hadjacency, ids, vectors, _, hmain, _⟩ :=
    output_of_exact hexact (sweepConfig_seed hconfig) env hrequest.blockColumns hrequest.threads
  unfold monthFile
  simp only [hadjacency.eq, hconfig, hmain]
  exact ⟨_, rfl⟩

/-- From FastRP on a process can write one file after the other. -/
theorem reach_written (out : OutName) {graph : Graph F (Scalars τ)} {args : Args}
    (hzero : s.ar.isZero = Float64.isZero) (hexact : Exact s root root' order graph)
    (hrequest : request.Sensible) (env : Surroundings F)
    (hready : x.world.process = some (args, .ready graph)) (hsweep : x.sweep = some (request, 0)) :
    ∀ done ≤ request.weights.length, ∃ y : Session F O τ, Reachable (Session.wholeStep s out) x y ∧
      y.world = x.world ∧ y.sweep = some (request, done) := by
  intro done hdone
  induction done with
  | zero => exact ⟨x, .start, rfl, hsweep⟩
  | succ done ih =>
    obtain ⟨y, hreach, hworld, hdone'⟩ := ih (by omega)
    have hw0 : request.weights[done]? = some request.weights[done] := List.getElem?_eq_getElem (by omega)
    obtain ⟨file, hfile⟩ := monthFile_ok hzero hexact hrequest env request.weights[done]
    have hnext : y.step s out (.wrote env) = some
        { y with
          files := Function.update y.files (request.outPath out request.weights[done]) (some file)
          sweep := some (request, done + 1) } := by
      unfold Session.step
      simp only [hworld, hready, hdone', hrequest.notOnly, hw0, hfile, Bool.false_eq_true, if_false]
    exact ⟨_, hreach.step (permit_eq_some.mpr ⟨rfl, hnext⟩), hworld, rfl⟩

theorem reach_completed [Nonempty τ] (hread : Readable s lead lead' root root')
    (hzero : s.ar.isZero = Float64.isZero) (h : Reachable (Session.wholeStep s out) .initial x)
    (hidle : x.world.process = none) {args : Args} (hlimit : args.limitChunks = 0)
    (hprovided : x.world.Provided args) (hrequest : request.Sensible) (env : Surroundings F)
    (hfits : (recordKeys (releaseRecords s root order) (masterRecords s root')).length ≤ maxNodes) :
    ∃ (y : Session F O τ) (graph : Graph F (Scalars τ)), Reachable (Session.wholeStep s out) x y ∧
      y.world.process = some (args, .ready graph) ∧
      y.sweep = some (request, request.weights.length) := by
  have hsound : x.world.Sound s root root' order := sound_reachable hread (reachable_world h)
  obtain ⟨later, graph, hlater, hready⟩ := reach_ready hread hsound hfits hidle hlimit hprovided
  obtain ⟨y, hreach, rfl, hsweep⟩ := exists_session out request hidle hlater
  have hstarted : y.sweep = some (request, 0) := by
    rcases hsweep with hnone | hsweep
    · rw [hready] at hnone
      cases hnone
    · exact hsweep
  have hexact : Exact s root root' order graph :=
    (sound_reachable hread (reachable_world (h.trans hreach))).process args (.ready graph) hready
  obtain ⟨z, hreach', hworld, hdone⟩ :=
    reach_written out hzero hexact hrequest env hready hstarted _ le_rfl
  exact ⟨z, graph, hreach.trans hreach', hworld ▸ hready, hdone⟩

end

end AnalyticsEngine.DumpGraph
