import AnalyticsEngine.Computations.Log
import AnalyticsEngine.Library.TopBy

/-!
# The engine's processes and the status endpoint (insights/computations.py, insights/insights.py)

A process closes the runs that an earlier one left `running` and then goes through the twelve
computations, cycle after cycle, until it is stopped or killed. The status endpoint reads the log
that all processes so far have left.
-/

namespace AnalyticsEngine.Computations
open Library

variable {τ : Type*}

/-! ### A startup -/

/- The clock of the sweep's statement, the age of a run by it, and how the statement ends. -/
structure Sweep (τ : Type*) where
  now : τ
  durationMs : τ → ℤ
  statement : Statement

def Row.interrupt (sweep : Sweep τ) (row : Row τ) : Row τ :=
  if row.status = .running then
    { row with
      status := .interrupted
      completedAt := some sweep.now
      durationMs := some (sweep.durationMs row.startedAt)
      errorMessage := some "the engine stopped before this run finished" }
  else row

theorem interrupt_id (sweep : Sweep τ) (row : Row τ) : (row.interrupt sweep).id = row.id := by
  unfold Row.interrupt
  split <;> rfl

theorem interrupt_insightType (sweep : Sweep τ) (row : Row τ) :
    (row.interrupt sweep).insightType = row.insightType := by
  unfold Row.interrupt
  split <;> rfl

def Log.interrupt (log : Log τ) (sweep : Sweep τ) : Log τ where
  rows := log.rows.map (Row.interrupt sweep)
  nextId := log.nextId
  fresh := by
    intro r hr
    obtain ⟨row, hrow, rfl⟩ := List.mem_map.mp hr
    rw [interrupt_id]
    exact log.fresh row hrow

/-- `mark_interrupted_runs`: it counts the rows it closes. -/
def markInterruptedRuns (log : Log τ) (sweep : Sweep τ) : Log τ × Except Failure ℕ :=
  let swept := if sweep.statement.commits then log.interrupt sweep else log
  match sweep.statement.fault with
  | none => (swept, .ok (log.rows.countP fun row => row.status = .running))
  | some failure => (swept, .error failure)

/-! ### A process -/

/- One call of a wrapped computation: its clock and how everything in it ends. -/
structure Computation (τ : Type*) where
  startedAt : τ
  durationMs : τ → ℤ
  script : Script τ

def Computation.run (computation : Computation τ) (insightType : String) : Run τ where
  insightType := insightType
  startedAt := computation.startedAt
  durationMs := computation.durationMs

/- How far a call has come. -/
inductive Point where
  | begun
  | started
  | operated
  | attempted
  | finished
deriving DecidableEq, Repr

/-- The log when a call of the wrapper has come so far. -/
def lifecycleAt (run : Run τ) (log : Log τ) (script : Script τ) : Point → Log τ
  | .begun => log
  | .started => (startComputation log run script.start).1
  | .operated =>
    match startComputation log run script.start with
    | (started, .error _) => started
    | (started, .ok _) => started.delete script.removed
  | .attempted =>
    match startComputation log run script.start with
    | (started, .error _) => started
    | (started, .ok runId) => (attempt run (started.delete script.removed) runId script).1
  | .finished => (recordLifecycle run log script).1

/- The names in the order of `run_all_computations`, which is that of the status endpoint. -/
def insightTypes : List String :=
  ["artist_centrality", "genre_trends", "style_year_counts", "style_atlas", "style_landmarks",
    "style_cotags", "label_longevity", "anniversaries", "data_completeness",
    "community_enrichment", "release_rarity", "activity_summary"]

/- `computing` is inside `run_all_computations`, with the computations left and the two dicts. -/
inductive Phase where
  | down
  | sleeping
  | computing (left : List String) (results : List (String × ℤ)) (errors : List (String × String))

structure Engine (τ : Type*) where
  log : Log τ
  phase : Phase

/- `killed` ends the process inside a computation; `stop` ends it anywhere else. -/
inductive Action (τ : Type*) where
  | startup (sweep : Sweep τ)
  | cycle
  | compute (insightType : String) (computation : Computation τ)
  | rest
  | killed (insightType : String) (computation : Computation τ) (point : Point)
  | stop

def Engine.new : Engine τ := ⟨⟨[], 1, fun _ h => absurd h List.not_mem_nil⟩, .down⟩

/-- What one action does; a failed computation does not stop the ones after it. -/
def engineStep (engine : Engine τ) : Action τ → Option (Engine τ)
  | .startup sweep =>
    match engine.phase, markInterruptedRuns engine.log sweep with
    -- Only a cancellation gets past `except Exception` in `lifespan`.
    | .down, (log, .error .cancelled) => some ⟨log, .down⟩
    | .down, (log, _) => some ⟨log, .sleeping⟩
    | _, _ => none
  | .cycle =>
    match engine.phase with
    | .sleeping => some ⟨engine.log, .computing insightTypes [] []⟩
    | _ => none
  | .compute insightType computation =>
    match engine.phase with
    | .computing (next :: left) results errors =>
      if insightType = next then
        match recordLifecycle (computation.run insightType) engine.log computation.script with
        | (log, .returned rowsAffected) =>
          some ⟨log, .computing left (results ++ [(next, rowsAffected)]) errors⟩
        | (log, .stopped (.raised description)) =>
          some ⟨log, .computing left results (errors ++ [(next, description)])⟩
        | (log, .stopped .cancelled) => some ⟨log, .down⟩
      else none
    | _ => none
  | .rest =>
    match engine.phase with
    | .computing [] _ _ => some ⟨engine.log, .sleeping⟩
    | _ => none
  | .killed insightType computation point =>
    match engine.phase with
    | .computing (next :: _) _ _ =>
      if insightType = next then
        some ⟨lifecycleAt (computation.run insightType) engine.log computation.script point, .down⟩
      else none
    | _ => none
  | .stop =>
    match engine.phase with
    | .down => none
    | _ => some ⟨engine.log, .down⟩

def engineRun (engine : Engine τ) (actions : List (Action τ)) : Option (Engine τ) :=
  actions.foldlM engineStep engine

/-! ### The status endpoint -/

inductive Reported where
  | neverRun
  | stale
  | last (status : Status)
deriving DecidableEq, Repr

structure ComputationStatus (τ : Type*) where
  insightType : String
  status : Reported
  lastComputed : Option τ
  durationMs : Option ℤ

section
variable [LinearOrder τ]

/- `WHERE … ORDER BY started_at DESC LIMIT 1`. -/
def newest (first : Selector (Row.startedAt (τ := τ))) (rows : List (Row τ)) : Option (Row τ) :=
  (first.run 1 rows).head?

def computationStatusOf (first : Selector (Row.startedAt (τ := τ))) (staleBefore : τ) (log : Log τ)
    (itype : String) : ComputationStatus τ :=
  match newest first (log.rows.filter fun row => row.insightType = itype) with
  | none => ⟨itype, .neverRun, none, none⟩
  | some row =>
    if row.status = .completed then
      ⟨row.insightType, .last .completed, row.completedAt, row.durationMs⟩
    else
      let status :=
        if row.status = .running ∧ row.startedAt < staleBefore then .stale else .last row.status
      let completed := newest first
        (log.rows.filter fun row => row.insightType = itype ∧ row.status = .completed)
      ⟨row.insightType, status, completed.bind Row.completedAt, row.durationMs⟩

def computationStatus (first : Selector (Row.startedAt (τ := τ))) (staleBefore : τ) (log : Log τ) :
    List (ComputationStatus τ) :=
  insightTypes.map (computationStatusOf first staleBefore log)

end

end AnalyticsEngine.Computations
