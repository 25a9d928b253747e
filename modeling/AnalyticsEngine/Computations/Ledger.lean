import AnalyticsEngine.Computations.Engine
import Mathlib.Data.List.Basic

/-!
# What the status endpoint reports

The ledger of a computation is its runs in order, as an observer who knows of every call and every
startup writes them down. The rows of a computation whose log writes all work are its ledger, however
the writes of the others fail, and the endpoint reports what the ledger says.
-/

namespace AnalyticsEngine.Computations
open Library

variable {τ : Type*}

/-! ### The ledger -/

structure Entry (τ : Type*) where
  startedAt : τ
  status : Status
  completedAt : Option τ
  durationMs : Option ℤ

def Row.entry (row : Row τ) : Entry τ :=
  ⟨row.startedAt, row.status, row.completedAt, row.durationMs⟩

def Entry.interrupt (sweep : Sweep τ) (entry : Entry τ) : Entry τ :=
  if entry.status = .running then
    ⟨entry.startedAt, .interrupted, some sweep.now, some (sweep.durationMs entry.startedAt)⟩
  else entry

theorem entry_interrupt (sweep : Sweep τ) (row : Row τ) :
    (row.interrupt sweep).entry = row.entry.interrupt sweep := by
  unfold Row.interrupt Entry.interrupt
  by_cases h : row.status = .running <;> simp [Row.entry, h]

def Outcome.status : Outcome → Status
  | .returned _ => .completed
  | .stopped (.raised _) => .failed
  | .stopped .cancelled => .interrupted

/- The write that records how the operation ended. -/
def Script.outcomeWrite (script : Script τ) : Write τ :=
  match script.operation with
  | .returned _ => script.completed
  | .stopped (.raised _) => script.failed
  | .stopped .cancelled => script.interrupted

namespace Computation

def startEntry (computation : Computation τ) : Entry τ :=
  ⟨computation.startedAt, .running, none, none⟩

def outcomeEntry (computation : Computation τ) : Entry τ :=
  let completedAt := computation.script.outcomeWrite.completedAt
  ⟨computation.startedAt, computation.script.operation.status, some completedAt,
    some (computation.durationMs completedAt)⟩

/- What is known of a call that came so far. -/
def entryAt (computation : Computation τ) (point : Point) : Option (Entry τ) :=
  let started := if computation.script.start.commits then some computation.startEntry else none
  if computation.script.start.fault = some .cancelled then
    if point = .begun then none else started
  else
    match point, computation.script.operation with
    | .begun, _ => none
    | .finished, _ => some computation.outcomeEntry
    | .attempted, .returned _ => some computation.outcomeEntry
    | _, _ => started

/- The log writes that the call comes to all work: its start may go unrecorded, but an insert that
takes effect does not raise. -/
structure Recorded (computation : Computation τ) : Prop where
  start : ∀ description, computation.script.start ≠ .failed true (.raised description)
  update : computation.script.outcomeWrite.update = .done
  insert : computation.script.outcomeWrite.insert = .done

end Computation

def ledgerStep (insightType : String) (entries : List (Entry τ)) : Action τ → List (Entry τ)
  | .startup sweep =>
    if sweep.statement.commits then entries.map (Entry.interrupt sweep) else entries
  | .compute name computation =>
    if name = insightType then entries ++ (computation.entryAt .finished).toList else entries
  | .killed name computation point =>
    if name = insightType then entries ++ (computation.entryAt point).toList else entries
  | _ => entries

def ledger (insightType : String) (actions : List (Action τ)) : List (Entry τ) :=
  actions.foldl (ledgerStep insightType) []

def Action.Keeps : Action τ → Prop
  | .compute _ computation => computation.script.removed = []
  | .killed _ computation _ => computation.script.removed = []
  | _ => True

def Action.Recorded (insightType : String) : Action τ → Prop
  | .compute name computation => name = insightType → computation.Recorded
  | .killed name computation _ => name = insightType → computation.Recorded
  | _ => True

/-! ### A call appends rows of its own type -/

/- `final` is `log` and rows of one call. -/
def Appends (log final : Log τ) (insightType : String) : Prop :=
  ∃ new : List (Row τ), final.rows = log.rows ++ new ∧
    ∀ row ∈ new, log.nextId ≤ row.id ∧ row.insightType = insightType

section Appends
variable {log final : Log τ} {insightType : String}

theorem appends_refl (log : Log τ) (insightType : String) : Appends log log insightType :=
  ⟨[], (List.append_nil _).symm, fun _ h => absurd h List.not_mem_nil⟩

theorem appends_insert (h : Appends log final insightType) (hnext : log.nextId ≤ final.nextId)
    {row : Row τ} (hrow : row.insightType = insightType) :
    Appends log (final.insert row) insightType := by
  obtain ⟨new, hrows, hnew⟩ := h
  refine ⟨new ++ [{ row with id := final.nextId }], ?_, ?_⟩
  · rw [insert_rows, hrows, List.append_assoc]
  · intro r hr
    rcases List.mem_append.mp hr with hr | hr
    · exact hnew r hr
    · rw [List.mem_singleton.mp hr]
      exact ⟨hnext, hrow⟩

def Row.closed (row outcome : Row τ) : Row τ :=
  { row with
    status := outcome.status
    completedAt := outcome.completedAt
    rowsAffected := outcome.rowsAffected
    durationMs := outcome.durationMs
    errorMessage := outcome.errorMessage }

/-- An update under an id of the call leaves the earlier rows as they are. -/
theorem update_rows {new : List (Row τ)} (h : final.rows = log.rows ++ new) {id : ℕ}
    (hid : log.nextId ≤ id) (outcome : Row τ) :
    (final.update id outcome).rows =
      log.rows ++ new.map fun row => if row.id = id then row.closed outcome else row := by
  have hsame : ∀ row ∈ log.rows, (if row.id = id then row.closed outcome else row) = row := by
    intro row hrow
    have := log.fresh row hrow
    exact if_neg (by omega)
  change final.rows.map (fun row => if row.id = id then row.closed outcome else row) = _
  rw [h, List.map_append]
  congr 1
  exact (List.map_congr_left hsame).trans (List.map_id _)

theorem appends_update (h : Appends log final insightType) {id : ℕ} (hid : log.nextId ≤ id)
    (outcome : Row τ) : Appends log (final.update id outcome) insightType := by
  obtain ⟨new, hrows, hnew⟩ := h
  refine ⟨_, update_rows hrows hid outcome, ?_⟩
  intro r hr
  obtain ⟨row, hrow, rfl⟩ := List.mem_map.mp hr
  split <;> exact hnew row hrow

theorem appends_log {run : Run τ} (h : Appends log final run.insightType)
    (hnext : log.nextId ≤ final.nextId) {runId : Option ℕ}
    (hid : ∀ id, runId = some id → log.nextId ≤ id) (status : Status) (rowsAffected : ℤ)
    (errorMessage : Option String) (write : Write τ) :
    Appends log (logComputation final run status rowsAffected errorMessage runId write).1
      run.insightType := by
  have hinsert : ∀ committed : Bool, Appends log (if committed then final.insert
      (run.outcomeRow final.nextId status rowsAffected errorMessage write.completedAt)
      else final) run.insightType := by
    intro committed
    cases committed with
    | false => exact h
    | true => exact appends_insert h hnext rfl
  cases runId with
  | none => exact hinsert _
  | some id =>
    have hupdate := appends_update h (hid id rfl)
      (run.outcomeRow final.nextId status rowsAffected errorMessage write.completedAt)
    unfold logComputation
    simp only
    cases write.update.fault with
    | some failure =>
      cases write.update.commits with
      | false => exact h
      | true => exact hupdate
    | none =>
      cases final.has id with
      | false => exact hinsert _
      | true => exact hupdate

end Appends

section Lifecycle
variable {log : Log τ} {run : Run τ} {script : Script τ}

theorem delete_nothing (log : Log τ) : log.delete [] = log := by
  cases log with
  | mk rows nextId fresh => simp [Log.delete]

/- What a call knows of the log as its operation begins. -/
structure Begun (log started : Log τ) (insightType : String) (runId : Option ℕ) : Prop where
  appends : Appends log started insightType
  nextId : log.nextId ≤ started.nextId
  known : ∀ id, runId = some id → log.nextId ≤ id

theorem start_begun (log : Log τ) (run : Run τ) (insert : Statement) :
    ∃ runId, Begun log (startComputation log run insert).1 run.insightType runId ∧
      ∀ id, (startComputation log run insert).2 = .ok id → id = runId := by
  have happends : Appends log (log.insert (run.startRow log.nextId)) run.insightType :=
    appends_insert (appends_refl log _) le_rfl rfl
  have hstarted : ∀ committed : Bool,
      Begun log (if committed then log.insert (run.startRow log.nextId) else log)
        run.insightType none := by
    intro committed
    cases committed with
    | false => exact ⟨appends_refl log _, le_rfl, fun _ h => by cases h⟩
    | true => exact ⟨happends, Nat.le_succ _, fun _ h => by cases h⟩
  cases insert with
  | done =>
    refine ⟨some log.nextId, ⟨happends, Nat.le_succ _, ?_⟩, ?_⟩
    · intro id hid
      cases hid
      exact le_rfl
    · intro id hid
      cases hid
      rfl
  | failed committed failure =>
    refine ⟨none, ?_, ?_⟩
    · cases failure <;> exact hstarted committed
    · intro id hid
      cases failure with
      | raised description =>
        cases hid
        rfl
      | cancelled => cases hid

theorem attempt_appends {started : Log τ} {runId : Option ℕ}
    (h : Begun log started run.insightType runId) (script : Script τ) :
    Begun log (attempt run started runId script).1 run.insightType runId := by
  unfold attempt
  cases script.operation with
  | stopped failure => exact h
  | returned rowsAffected =>
    have hlog := appends_log h.appends h.nextId h.known .completed rowsAffected none
      script.completed
    have hnext := h.nextId.trans (logComputation_nextId started run .completed rowsAffected none
      runId script.completed)
    simp only
    split
    · next final heq =>
      rw [heq] at hlog hnext
      exact ⟨hlog, hnext, h.known⟩
    · next final failure heq =>
      rw [heq] at hlog hnext
      exact ⟨hlog, hnext, h.known⟩

/-- Wherever a call has come to, it has only appended rows of its own. -/
theorem lifecycleAt_appends (run : Run τ) (log : Log τ) {script : Script τ}
    (hremoved : script.removed = []) (point : Point) :
    Appends log (lifecycleAt run log script point) run.insightType := by
  obtain ⟨runId, hbegun, hknown⟩ := start_begun log run script.start
  unfold lifecycleAt recordLifecycle
  rw [hremoved]
  rcases hstart : startComputation log run script.start with ⟨started, failure | id⟩
  · rw [hstart] at hbegun
    cases point with
    | begun => exact appends_refl log _
    | _ => exact hbegun.appends
  · rw [hstart] at hbegun hknown
    have hid := hknown id rfl
    subst hid
    simp only [delete_nothing] at hbegun ⊢
    have hattempt := attempt_appends hbegun script
    cases point with
    | begun => exact appends_refl log _
    | started => exact hbegun.appends
    | operated => exact hbegun.appends
    | attempted => exact hattempt.appends
    | finished =>
      rcases hafter : attempt run started id script with ⟨after, rowsAffected | failure⟩
      · rw [hafter] at hattempt
        exact hattempt.appends
      · rw [hafter] at hattempt
        cases failure with
        | raised description =>
          simp only
          rw [failed_log]
          exact appends_log hattempt.appends hattempt.nextId hattempt.known _ _ _ _
        | cancelled => exact appends_log hattempt.appends hattempt.nextId hattempt.known _ _ _ _

/- The log and the run's row id as a recorded operation begins. -/
inductive Ready (log : Log τ) (run : Run τ) : Log τ → Option ℕ → Prop where
  | inserted : Ready log run (log.insert (run.startRow log.nextId)) (some log.nextId)
  | unrecorded : Ready log run log none

/-- A write that works leaves one row of the call, with what it was given. -/
theorem logComputation_recorded {started : Log τ} {runId : Option ℕ}
    (h : Ready log run started runId) (status : Status) (rowsAffected : ℤ)
    (errorMessage : Option String) {write : Write τ} (hupdate : write.update = .done)
    (hinsert : write.insert = .done) :
    ∃ final row, logComputation started run status rowsAffected errorMessage runId write =
        (final, none) ∧ final.rows = log.rows ++ [row] ∧
      row.entry = ⟨run.startedAt, status, some write.completedAt,
        some (run.durationMs write.completedAt)⟩ := by
  unfold logComputation
  rw [hupdate, hinsert]
  cases h with
  | unrecorded => exact ⟨_, _, rfl, insert_rows _, rfl⟩
  | inserted =>
    have hhas : (log.insert (run.startRow log.nextId)).has log.nextId = true := by
      rw [has_iff]
      exact ⟨_, List.mem_append_right _ (List.mem_singleton.mpr rfl), rfl⟩
    have hrows : ((log.insert (run.startRow log.nextId)).update log.nextId (run.outcomeRow
        (log.insert (run.startRow log.nextId)).nextId status rowsAffected errorMessage
        write.completedAt)).rows = log.rows ++ [({ run.startRow log.nextId with
          id := log.nextId }).closed (run.outcomeRow (log.insert (run.startRow log.nextId)).nextId
            status rowsAffected errorMessage write.completedAt)] := by
      rw [update_rows (insert_rows _) le_rfl]
      simp
    simp only [Statement.fault, hhas, if_true]
    exact ⟨_, _, rfl, hrows, rfl⟩

end Lifecycle

section Recorded
variable {computation : Computation τ}

/-- A recorded call is cancelled as it starts, or its operation begins with a log that it knows. -/
theorem start_recorded (log : Log τ) (insightType : String) (h : computation.Recorded) :
    ∃ started result, startComputation log (computation.run insightType) computation.script.start =
        (started, result) ∧
      (∃ new, started.rows = log.rows ++ new ∧ new.map Row.entry =
        (if computation.script.start.commits then some computation.startEntry else none).toList) ∧
      match result with
      | .error _ => computation.script.start.fault = some .cancelled
      | .ok runId => computation.script.start.fault ≠ some .cancelled ∧
        Ready log (computation.run insightType) started runId := by
  have hnew : ∀ committed : Bool, ∃ new, (if committed then
        log.insert ((computation.run insightType).startRow log.nextId) else log).rows =
          log.rows ++ new ∧
      new.map Row.entry = (if committed then some computation.startEntry else none).toList := by
    intro committed
    cases committed with
    | false => exact ⟨[], (List.append_nil _).symm, rfl⟩
    | true => exact ⟨_, insert_rows _, rfl⟩
  unfold startComputation
  cases hstart : computation.script.start with
  | done => exact ⟨_, _, rfl, hnew true, by simp [Statement.fault], .inserted⟩
  | failed committed failure =>
    cases failure with
    | cancelled => exact ⟨_, _, rfl, hnew committed, rfl⟩
    | raised description =>
      cases committed with
      | true => exact absurd hstart (h.start description)
      | false => exact ⟨_, _, rfl, hnew false, by simp [Statement.fault], .unrecorded⟩

/-- A recorded call is in the log as it is in the ledger. -/
theorem lifecycleAt_recorded (insightType : String) (log : Log τ) (h : computation.Recorded)
    (hremoved : computation.script.removed = []) (point : Point) :
    ∃ new, (lifecycleAt (computation.run insightType) log computation.script point).rows =
        log.rows ++ new ∧ new.map Row.entry = (computation.entryAt point).toList := by
  have hbegun : ∃ new, log.rows = log.rows ++ new ∧ new.map Row.entry = [] :=
    ⟨[], (List.append_nil _).symm, rfl⟩
  obtain ⟨started, result, hstart, hstarted, hresult⟩ := start_recorded log insightType h
  unfold lifecycleAt recordLifecycle Computation.entryAt
  rw [hstart, hremoved]
  cases result with
  | error failure =>
    simp only [hresult, if_true]
    cases point with
    | begun => exact hbegun
    | _ => exact hstarted
  | ok runId =>
    obtain ⟨hran, hready⟩ := hresult
    simp only [hran, if_false, delete_nothing]
    have hwrite := fun rowsAffected errorMessage =>
      logComputation_recorded hready computation.script.operation.status rowsAffected errorMessage
        h.update h.insert
    have hrow : ∀ {final : Log τ} {row : Row τ}, final.rows = log.rows ++ [row] →
        ∃ new, final.rows = log.rows ++ new ∧ new.map Row.entry = [row.entry] :=
      fun hrows => ⟨_, hrows, rfl⟩
    unfold attempt Computation.outcomeEntry
    unfold Script.outcomeWrite at hwrite ⊢
    cases hop : computation.script.operation with
    | returned rowsAffected =>
      rw [hop] at hwrite
      obtain ⟨final, row, hfinal, hrows, hentry⟩ := hwrite rowsAffected none
      simp only [Outcome.status] at hfinal
      simp only [hfinal]
      cases point with
      | begun => exact hbegun
      | started => exact hstarted
      | operated => exact hstarted
      | _ => exact hentry ▸ hrow hrows
    | stopped failure =>
      rw [hop] at hwrite
      cases failure with
      | raised description =>
        obtain ⟨final, row, hfinal, hrows, hentry⟩ := hwrite 0 (some description)
        simp only [Outcome.status] at hfinal
        simp only [hfinal]
        cases point with
        | begun => exact hbegun
        | finished => exact hentry ▸ hrow hrows
        | _ => exact hstarted
      | cancelled =>
        obtain ⟨final, row, hfinal, hrows, hentry⟩ := hwrite 0 (some "cancelled before it finished")
        simp only [Outcome.status] at hfinal
        simp only [hfinal]
        cases point with
        | begun => exact hbegun
        | finished => exact hentry ▸ hrow hrows
        | _ => exact hstarted

end Recorded

/-! ### The log keeps the ledger -/

/- What an action does to the log. -/
def logStep (log : Log τ) : Action τ → Log τ
  | .startup sweep => if sweep.statement.commits then log.interrupt sweep else log
  | .compute name computation =>
    lifecycleAt (computation.run name) log computation.script .finished
  | .killed name computation point =>
    lifecycleAt (computation.run name) log computation.script point
  | _ => log

theorem startup_log (log : Log τ) (sweep : Sweep τ) :
    (markInterruptedRuns log sweep).1 = logStep log (.startup sweep) := by
  unfold markInterruptedRuns
  cases sweep.statement.fault <;> rfl

theorem engineStep_log {engine next : Engine τ} {action : Action τ}
    (h : engineStep engine action = some next) : next.log = logStep engine.log action := by
  unfold engineStep at h
  cases action with
  | startup sweep =>
    have hlog := startup_log engine.log sweep
    simp only at h
    split at h
    · next heq =>
      rw [heq] at hlog
      cases h
      exact hlog
    · next heq =>
      rw [heq] at hlog
      cases h
      exact hlog
    · cases h
  | cycle =>
    simp only at h
    split at h
    · cases h
      rfl
    · cases h
  | compute name computation =>
    simp only at h
    split at h
    · split_ifs at h with hname
      split at h
      · next heq =>
        cases h
        exact (congrArg Prod.fst heq).symm
      · next heq =>
        cases h
        exact (congrArg Prod.fst heq).symm
      · next heq =>
        cases h
        exact (congrArg Prod.fst heq).symm
    · cases h
  | rest =>
    simp only at h
    split at h
    · cases h
      rfl
    · cases h
  | killed name computation point =>
    simp only at h
    split at h
    · split_ifs at h with hname
      cases h
      rfl
    · cases h
  | stop =>
    simp only at h
    split at h
    · cases h
    · cases h
      rfl

section
variable {insightType : String}

def ofType (insightType : String) (log : Log τ) : List (Row τ) :=
  log.rows.filter fun row => row.insightType = insightType

theorem ofType_interrupt (log : Log τ) (sweep : Sweep τ) :
    ofType insightType (log.interrupt sweep) =
      (ofType insightType log).map (Row.interrupt sweep) := by
  unfold ofType Log.interrupt
  rw [List.filter_map]
  congr 1
  apply List.filter_congr
  intro row _
  simp [interrupt_insightType]

theorem ofType_call (log : Log τ) {name : String} {computation : Computation τ} (point : Point)
    (hremoved : computation.script.removed = [])
    (hrecorded : name = insightType → computation.Recorded) :
    (ofType insightType (lifecycleAt (computation.run name) log computation.script point)).map
        Row.entry =
      if name = insightType then
        (ofType insightType log).map Row.entry ++ (computation.entryAt point).toList
      else (ofType insightType log).map Row.entry := by
  obtain ⟨new, hrows, hnew⟩ := lifecycleAt_appends (computation.run name) log hremoved point
  unfold ofType
  rw [hrows, List.filter_append, List.map_append]
  by_cases hname : name = insightType
  · obtain ⟨own, hown, hentries⟩ := lifecycleAt_recorded name log (hrecorded hname) hremoved point
    have hsame : new = own := List.append_cancel_left (hrows.symm.trans hown)
    have hall : new.filter (fun row => row.insightType = insightType) = new := by
      rw [List.filter_eq_self]
      intro row hrow
      exact decide_eq_true ((hnew row hrow).2.trans hname)
    rw [if_pos hname, hall, hsame, hentries]
  · have hnone : new.filter (fun row => row.insightType = insightType) = [] := by
      rw [List.filter_eq_nil_iff]
      intro row hrow
      have htype : row.insightType = name := (hnew row hrow).2
      simpa [htype] using hname
    rw [if_neg hname, hnone, List.map_nil, List.append_nil]

theorem logStep_ledger (log : Log τ) {action : Action τ} (hkeeps : action.Keeps)
    (hrecorded : action.Recorded insightType) :
    (ofType insightType (logStep log action)).map Row.entry =
      ledgerStep insightType ((ofType insightType log).map Row.entry) action := by
  cases action with
  | startup sweep =>
    simp only [logStep, ledgerStep]
    split_ifs
    · rw [ofType_interrupt, List.map_map, List.map_map]
      exact List.map_congr_left fun row _ => entry_interrupt sweep row
    · rfl
  | compute name computation => exact ofType_call log .finished hkeeps hrecorded
  | killed name computation point => exact ofType_call log point hkeeps hrecorded
  | _ => rfl

/-- In every run of the engine the rows of a recorded computation are its ledger. -/
theorem engineRun_ledger {actions : List (Action τ)} {start engine : Engine τ}
    (hrun : engineRun start actions = some engine) (hkeeps : ∀ a ∈ actions, a.Keeps)
    (hrecorded : ∀ a ∈ actions, a.Recorded insightType) :
    (ofType insightType engine.log).map Row.entry =
      actions.foldl (ledgerStep insightType) ((ofType insightType start.log).map Row.entry) := by
  unfold engineRun at hrun
  induction actions generalizing start with
  | nil =>
    cases hrun
    rfl
  | cons action later ih =>
    rw [List.foldlM_cons] at hrun
    obtain ⟨next, hnext, hlater⟩ := Option.bind_eq_some_iff.mp hrun
    have hstep := logStep_ledger start.log (hkeeps action List.mem_cons_self)
      (hrecorded action List.mem_cons_self)
    rw [← engineStep_log hnext] at hstep
    rw [List.foldl_cons, ← hstep]
    exact ih hlater (fun a ha => hkeeps a (List.mem_cons_of_mem _ ha))
      fun a ha => hrecorded a (List.mem_cons_of_mem _ ha)

end

/-! ### The report -/

section
variable [LinearOrder τ]

/-- What is to be reported of a ledger: how the newest run ended, or that it is under way or lost,
and when the newest completed one ended. -/
def report (staleBefore : τ) (insightType : String) (entries : List (Entry τ)) :
    ComputationStatus τ where
  insightType := insightType
  status :=
    match entries.getLast? with
    | none => .neverRun
    | some entry =>
      if entry.status = .running ∧ entry.startedAt < staleBefore then .stale else .last entry.status
  lastComputed :=
    (entries.filter fun entry => entry.status = .completed).getLast?.bind Entry.completedAt
  durationMs := entries.getLast?.bind Entry.durationMs

variable (first : Selector (Row.startedAt (τ := τ))) {insightType : String}

theorem newest_rising {rows : List (Row τ)}
    (hrising : rows.Pairwise fun a b => a.startedAt < b.startedAt) :
    newest first rows = rows.getLast? :=
  (first.selects 1 rows).head_of_rising hrising

theorem computationStatusOf_report (staleBefore : τ) (log : Log τ)
    (hrising : (((ofType insightType log).map Row.entry).map Entry.startedAt).Pairwise (· < ·)) :
    computationStatusOf first staleBefore log insightType =
      report staleBefore insightType ((ofType insightType log).map Row.entry) := by
  rw [List.map_map, List.pairwise_map] at hrising
  have hcompleted : (log.rows.filter fun row =>
      row.insightType = insightType ∧ row.status = .completed) =
        (ofType insightType log).filter fun row => row.status = .completed := by
    unfold ofType
    rw [List.filter_filter]
    apply List.filter_congr
    intro row _
    simp [Bool.and_comm]
  have hentries : ((ofType insightType log).map Row.entry).filter
      (fun entry => entry.status = .completed) =
        ((ofType insightType log).filter fun row => row.status = .completed).map Row.entry := by
    rw [List.filter_map]
    rfl
  have hrows : log.rows.filter (fun row => row.insightType = insightType) =
      ofType insightType log := rfl
  have hnewest := newest_rising first hrising
  have hlast := newest_rising first (hrising.sublist (List.filter_sublist
    (p := fun row => decide (row.status = .completed))))
  unfold computationStatusOf report
  rw [hcompleted, hlast, hentries, List.getLast?_map, List.getLast?_map]
  rw [hrows, hnewest]
  cases hrow : (ofType insightType log).getLast? with
  | none =>
    rw [List.getLast?_eq_none_iff.mp hrow]
    rfl
  | some row =>
    obtain ⟨init, hinit⟩ := List.getLast?_eq_some_iff.mp hrow
    have htype : row.insightType = insightType := by
      have hmem : row ∈ ofType insightType log := by simp [hinit]
      exact of_decide_eq_true (List.mem_filter.mp hmem).2
    by_cases hstatus : row.status = .completed
    · have hdone : ((ofType insightType log).filter fun row => row.status = .completed).getLast? =
          some row := by
        rw [hinit, List.filter_append]
        simp [hstatus]
      simp [hdone, hstatus, htype, Row.entry]
    · simp [hstatus, htype, Row.entry, Option.bind_map, Function.comp_def]

/-- Of a computation whose log writes all work, and whose runs start later and later, the response
says what its ledger says, whatever befalls the log writes of the others and whenever the processes
are stopped or killed. -/
theorem computationStatus_ledger (staleBefore : τ) (actions : List (Action τ)) {engine : Engine τ}
    (hrun : engineRun .new actions = some engine) (hkeeps : ∀ a ∈ actions, a.Keeps) {i : ℕ}
    (hi : insightTypes[i]? = some insightType) (hrecorded : ∀ a ∈ actions, a.Recorded insightType)
    (hrising : ((ledger insightType actions).map Entry.startedAt).Pairwise (· < ·)) :
    (computationStatus first staleBefore engine.log)[i]? =
      some (report staleBefore insightType (ledger insightType actions)) := by
  have hledger := engineRun_ledger hrun hkeeps hrecorded
  change _ = ledger insightType actions at hledger
  rw [← hledger] at hrising ⊢
  unfold computationStatus
  rw [List.getElem?_map, hi, Option.map_some,
    computationStatusOf_report first staleBefore engine.log hrising]

end

/-! ### A killed run -/

def promptWrite (completedAt : ℕ) : Write ℕ := ⟨completedAt, .done, .done⟩

def promptCall (startedAt : ℕ) : Computation ℕ where
  startedAt := startedAt
  durationMs completedAt := completedAt - startedAt
  script :=
    { start := .done
      operation := .returned 7
      removed := []
      completed := promptWrite (startedAt + 5)
      failed := promptWrite (startedAt + 6)
      interrupted := promptWrite (startedAt + 7) }

theorem promptCall_recorded (startedAt : ℕ) : (promptCall startedAt).Recorded :=
  ⟨fun _ h => (by cases h), rfl, rfl⟩

def promptSweep (now : ℕ) : Sweep ℕ := ⟨now, fun startedAt => now - startedAt, .done⟩

/- The process is killed in the second computation; the next one closes its run. -/
def killedOnce : List (Action ℕ) :=
  [.startup (promptSweep 1), .cycle, .compute "artist_centrality" (promptCall 10),
    .killed "genre_trends" (promptCall 20) .started, .startup (promptSweep 30)]

theorem computationStatus_ledger_killedOnce : ∃ engine,
    engineRun .new killedOnce = some engine ∧
      (computationStatus (Selector.stable _) 0 engine.log)[1]? =
        some ⟨"genre_trends", .last .interrupted, none, some 10⟩ := by
  refine ⟨_, rfl, ?_⟩
  refine computationStatus_ledger (Selector.stable _) 0 killedOnce rfl ?_ rfl ?_ ?_
  · simp [killedOnce, Action.Keeps, promptCall]
  · simp [killedOnce, Action.Recorded, promptCall_recorded]
  · simp [killedOnce, ledger, ledgerStep, Computation.entryAt, promptCall, promptSweep,
      Statement.commits, Statement.fault]

end AnalyticsEngine.Computations
