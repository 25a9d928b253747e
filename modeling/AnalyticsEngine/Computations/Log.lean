import Mathlib.Data.List.Basic
import Mathlib.Order.Nat
import Mathlib.Data.Int.Notation

/-!
# The computation log (insights/computations.py, `_record_lifecycle`)

A run writes a `running` row before its operation and one outcome after it. Each of these
statements may raise or be cut by a cancellation, before or after it commits.
-/

namespace AnalyticsEngine.Computations

inductive Status where
  | running
  | completed
  | failed
  | interrupted
deriving DecidableEq, Repr

/- A row of insights.computation_log; a column its insert leaves out is `none`. -/
structure Row (τ : Type*) where
  id : ℕ
  insightType : String
  status : Status
  startedAt : τ
  completedAt : Option τ
  rowsAffected : Option ℤ
  durationMs : Option ℤ
  errorMessage : Option String

/- The table with its id sequence. -/
structure Log (τ : Type*) where
  rows : List (Row τ)
  nextId : ℕ
  fresh : ∀ row ∈ rows, row.id < nextId

variable {τ : Type*}

def Log.has (log : Log τ) (id : ℕ) : Bool := log.rows.any fun row => row.id == id

def Log.insert (log : Log τ) (row : Row τ) : Log τ where
  rows := log.rows ++ [{ row with id := log.nextId }]
  nextId := log.nextId + 1
  fresh := by
    intro r hr
    rcases List.mem_append.mp hr with hr | hr
    · have := log.fresh r hr
      omega
    · rw [List.mem_singleton.mp hr]
      exact Nat.lt_succ_self _

/- `UPDATE … SET status, completed_at, rows_affected, duration_ms, error_message WHERE id`. -/
def Log.update (log : Log τ) (id : ℕ) (outcome : Row τ) : Log τ where
  rows := log.rows.map fun row =>
    if row.id = id then
      { row with
        status := outcome.status
        completedAt := outcome.completedAt
        rowsAffected := outcome.rowsAffected
        durationMs := outcome.durationMs
        errorMessage := outcome.errorMessage }
    else row
  nextId := log.nextId
  fresh := by
    intro r hr
    obtain ⟨row, hrow, rfl⟩ := List.mem_map.mp hr
    have := log.fresh row hrow
    split <;> exact this

def Log.delete (log : Log τ) (ids : List ℕ) : Log τ where
  rows := log.rows.filter fun row => row.id ∉ ids
  nextId := log.nextId
  fresh := fun row hrow => log.fresh row (List.mem_of_mem_filter hrow)

/-! ### Faults -/

inductive Failure where
  | raised (description : String)
  | cancelled
deriving DecidableEq, Repr

/- How awaiting a statement ends, and whether the statement took effect if it did not return. -/
inductive Statement where
  | done
  | failed (committed : Bool) (failure : Failure)
deriving DecidableEq, Repr

def Statement.commits : Statement → Bool
  | .done => true
  | .failed committed _ => committed

def Statement.fault : Statement → Option Failure
  | .done => none
  | .failed _ failure => some failure

/- One call of `_log_computation`: its clock and how its statements end, if they are reached. -/
structure Write (τ : Type*) where
  completedAt : τ
  update : Statement
  insert : Statement

inductive Outcome where
  | returned (rowsAffected : ℤ)
  | stopped (failure : Failure)
deriving DecidableEq, Repr

/- `removed` are the rows that go while the operation runs. -/
structure Script (τ : Type*) where
  start : Statement
  operation : Outcome
  removed : List ℕ
  completed : Write τ
  failed : Write τ
  interrupted : Write τ

/-! ### The wrapper -/

/- `durationMs` is `int((completed_at - started_at).total_seconds() * 1000)`, in floats. -/
structure Run (τ : Type*) where
  insightType : String
  startedAt : τ
  durationMs : τ → ℤ

def Run.startRow (run : Run τ) (id : ℕ) : Row τ where
  id := id
  insightType := run.insightType
  status := .running
  startedAt := run.startedAt
  completedAt := none
  rowsAffected := none
  durationMs := none
  errorMessage := none

def Run.outcomeRow (run : Run τ) (id : ℕ) (status : Status) (rowsAffected : ℤ)
    (errorMessage : Option String) (completedAt : τ) : Row τ where
  id := id
  insightType := run.insightType
  status := status
  startedAt := run.startedAt
  completedAt := some completedAt
  rowsAffected := some rowsAffected
  durationMs := some (run.durationMs completedAt)
  errorMessage := errorMessage

/-- `_start_computation`: an exception is logged and swallowed, a cancellation is not. -/
def startComputation (log : Log τ) (run : Run τ) (insert : Statement) :
    Log τ × Except Failure (Option ℕ) :=
  let started := if insert.commits then log.insert (run.startRow log.nextId) else log
  match insert.fault with
  | none => (started, .ok (some log.nextId))
  | some (.raised _) => (started, .ok none)
  | some .cancelled => (started, .error .cancelled)

/-- `_log_computation`: the log it leaves, and what leaves the call if it does not return. -/
def logComputation (log : Log τ) (run : Run τ) (status : Status) (rowsAffected : ℤ)
    (errorMessage : Option String) (runId : Option ℕ) (write : Write τ) : Log τ × Option Failure :=
  let outcome := run.outcomeRow log.nextId status rowsAffected errorMessage write.completedAt
  let inserted := (if write.insert.commits then log.insert outcome else log, write.insert.fault)
  match runId with
  | none => inserted
  | some id =>
    match write.update.fault with
    | some failure =>
      (if write.update.commits then log.update id outcome else log, some failure)
    | none => if log.has id then (log.update id outcome, none) else inserted

/-- The body of the `try`: the success write is inside it. -/
def attempt (run : Run τ) (log : Log τ) (runId : Option ℕ) (script : Script τ) :
    Log τ × Outcome :=
  match script.operation with
  | .stopped failure => (log, .stopped failure)
  | .returned rowsAffected =>
    match logComputation log run .completed rowsAffected none runId script.completed with
    | (log, none) => (log, .returned rowsAffected)
    | (log, some failure) => (log, .stopped failure)

/-- `_record_lifecycle`. -/
def recordLifecycle (run : Run τ) (log : Log τ) (script : Script τ) : Log τ × Outcome :=
  match startComputation log run script.start with
  | (log, .error failure) => (log, .stopped failure)
  | (log, .ok runId) =>
    match attempt run (log.delete script.removed) runId script with
    | (log, .returned rowsAffected) => (log, .returned rowsAffected)
    | (log, .stopped (.raised description)) =>
      match logComputation log run .failed 0 (some description) runId script.failed with
      -- `except Exception` around this write does not catch a cancellation.
      | (log, some .cancelled) => (log, .stopped .cancelled)
      | (log, _) => (log, .stopped (.raised description))
    | (log, .stopped .cancelled) =>
      ((logComputation log run .interrupted 0 (some "cancelled before it finished") runId
        script.interrupted).1, .stopped .cancelled)

/-! ### What one write of the log does -/

/- The start row as the run's writes find it: still there, gone, or not known to the run. -/
inductive Target where
  | row
  | gone
  | unknown
deriving DecidableEq, Repr

def Log.target (log : Log τ) : Option ℕ → Target
  | none => .unknown
  | some id => if log.has id then .row else .gone

/- What leaves the write: an update that finds its row is the last statement. -/
def Write.fault (write : Write τ) : Target → Option Failure
  | .row => write.update.fault
  | .gone => write.update.fault.or write.insert.fault
  | .unknown => write.insert.fault

/- Whether the outcome is in the log after the write. -/
def Write.commits (write : Write τ) : Target → Bool
  | .row => write.update.commits
  | .gone => write.update.fault.isNone && write.insert.commits
  | .unknown => write.insert.commits

section Writes
variable {log : Log τ} {run : Run τ} {status : Status} {rowsAffected : ℤ}
  {errorMessage : Option String} {runId : Option ℕ} {write : Write τ}

theorem Statement.commits_of_fault {statement : Statement} (h : statement.fault = none) :
    statement.commits = true := by
  cases statement with
  | done => rfl
  | failed committed failure => cases h

theorem has_iff {id : ℕ} : log.has id = true ↔ ∃ row ∈ log.rows, row.id = id := by
  simp [Log.has]

@[simp] theorem insert_rows (row : Row τ) :
    (log.insert row).rows = log.rows ++ [{ row with id := log.nextId }] := rfl

@[simp] theorem insert_nextId (row : Row τ) : (log.insert row).nextId = log.nextId + 1 := rfl

@[simp] theorem update_nextId (id : ℕ) (row : Row τ) : (log.update id row).nextId = log.nextId :=
  rfl

@[simp] theorem delete_nextId (ids : List ℕ) : (log.delete ids).nextId = log.nextId := rfl

theorem mem_update {id : ℕ} {outcome row : Row τ} (h : row ∈ (log.update id outcome).rows) :
    row ∈ log.rows ∨ row.status = outcome.status := by
  obtain ⟨before, hbefore, rfl⟩ := List.mem_map.mp h
  split
  · exact Or.inr rfl
  · exact Or.inl hbefore

theorem update_mem {id : ℕ} (outcome : Row τ) (h : log.has id = true) :
    ∃ row ∈ (log.update id outcome).rows, row.id = id ∧ row.status = outcome.status := by
  obtain ⟨row, hrow, hid⟩ := has_iff.mp h
  refine ⟨_, List.mem_map.mpr ⟨row, hrow, rfl⟩, ?_, ?_⟩
  · rw [if_pos hid]
    exact hid
  · rw [if_pos hid]

theorem update_has (id other : ℕ) (outcome : Row τ) :
    (log.update id outcome).has other = log.has other := by
  unfold Log.has Log.update
  rw [List.any_map]
  congr 1
  funext row
  simp only [Function.comp_apply]
  split <;> rfl

/-- An update of a row that is not there changes nothing. -/
theorem update_absent {id : ℕ} (outcome : Row τ) (h : log.has id = false) :
    (log.update id outcome).rows = log.rows := by
  have hne : ∀ row ∈ log.rows, row.id ≠ id := by
    intro row hrow hid
    rw [has_iff.mpr ⟨row, hrow, hid⟩] at h
    cases h
  refine (List.map_congr_left fun row hrow => ?_).trans (List.map_id _)
  exact if_neg (hne row hrow)

theorem logComputation_fault (log : Log τ) (run : Run τ) (status : Status) (rowsAffected : ℤ)
    (errorMessage : Option String) (runId : Option ℕ) (write : Write τ) :
    (logComputation log run status rowsAffected errorMessage runId write).2 =
      write.fault (log.target runId) := by
  cases runId with
  | none => rfl
  | some id =>
    unfold logComputation Log.target
    cases hhas : log.has id with
    | true => cases hfault : write.update.fault <;> simp [Write.fault, hfault, hhas]
    | false => cases hfault : write.update.fault <;> simp [Write.fault, hfault, hhas]

theorem ite_log_cases (committed : Bool) (changed : Log τ) :
    (if committed then changed else log) = log ∨
      (if committed then changed else log) = changed := by
  cases committed with
  | false => exact Or.inl rfl
  | true => exact Or.inr rfl

/-- One statement of the write takes effect, or none does. -/
theorem logComputation_cases (log : Log τ) (run : Run τ) (status : Status) (rowsAffected : ℤ)
    (errorMessage : Option String) (runId : Option ℕ) (write : Write τ) :
    ∃ outcome : Row τ, outcome.status = status ∧
      ((logComputation log run status rowsAffected errorMessage runId write).1 = log ∨
        (logComputation log run status rowsAffected errorMessage runId write).1 =
          log.insert outcome ∨
        ∃ id, runId = some id ∧
          (logComputation log run status rowsAffected errorMessage runId write).1 =
            log.update id outcome) := by
  refine ⟨run.outcomeRow log.nextId status rowsAffected errorMessage write.completedAt, rfl, ?_⟩
  cases runId with
  | none =>
    rcases ite_log_cases write.insert.commits _ with h | h
    · exact Or.inl h
    · exact Or.inr (Or.inl h)
  | some id =>
    unfold logComputation
    simp only
    cases write.update.fault with
    | some failure =>
      rcases ite_log_cases write.update.commits _ with h | h
      · exact Or.inl h
      · exact Or.inr (Or.inr ⟨id, rfl, h⟩)
    | none =>
      cases log.has id with
      | true => exact Or.inr (Or.inr ⟨id, rfl, rfl⟩)
      | false =>
        rcases ite_log_cases write.insert.commits _ with h | h
        · exact Or.inl h
        · exact Or.inr (Or.inl h)

theorem logComputation_status {row : Row τ}
    (h : row ∈ (logComputation log run status rowsAffected errorMessage runId write).1.rows) :
    row ∈ log.rows ∨ row.status = status := by
  obtain ⟨outcome, houtcome, hlog | hlog | ⟨id, -, hlog⟩⟩ :=
    logComputation_cases log run status rowsAffected errorMessage runId write
  · rw [hlog] at h
    exact Or.inl h
  · rw [hlog] at h
    rcases List.mem_append.mp h with h | h
    · exact Or.inl h
    · rw [List.mem_singleton.mp h]
      exact Or.inr houtcome
  · rw [hlog] at h
    rw [← houtcome]
    exact mem_update h

/-- A write that does not commit leaves the rows as they are. -/
theorem logComputation_silent (h : write.commits (log.target runId) = false) :
    (logComputation log run status rowsAffected errorMessage runId write).1.rows = log.rows := by
  cases runId with
  | none =>
    have hinsert : write.insert.commits = false := h
    simp [logComputation, hinsert]
  | some id =>
    unfold Log.target at h
    cases hhas : log.has id with
    | true =>
      simp only [hhas, if_true, Write.commits] at h
      cases hfault : write.update.fault with
      | none =>
        rw [Statement.commits_of_fault hfault] at h
        cases h
      | some failure => simp [logComputation, hfault, h]
    | false =>
      simp only [hhas, Bool.false_eq_true, if_false, Write.commits, Bool.and_eq_false_iff] at h
      cases hfault : write.update.fault with
      | none =>
        rcases h with h | h
        · rw [hfault] at h
          cases h
        · simp [logComputation, hfault, hhas, h]
      | some failure =>
        simp only [logComputation, hfault]
        split
        · exact update_absent _ hhas
        · rfl

/-- A write that commits leaves a row with its status, under an id the run owns. -/
theorem logComputation_commits {first : ℕ} (hnext : first ≤ log.nextId)
    (hid : ∀ id, runId = some id → first ≤ id) (h : write.commits (log.target runId) = true) :
    ∃ row ∈ (logComputation log run status rowsAffected errorMessage runId write).1.rows,
      first ≤ row.id ∧ row.status = status := by
  have hinsert : ∀ outcome : Row τ, outcome.status = status →
      ∃ row ∈ (log.insert outcome).rows, first ≤ row.id ∧ row.status = status := by
    intro outcome hstatus
    exact ⟨_, List.mem_append_right _ (List.mem_singleton.mpr rfl), hnext, hstatus⟩
  cases runId with
  | none =>
    have hcommits : write.insert.commits = true := h
    simp only [logComputation, hcommits, if_true]
    exact hinsert _ rfl
  | some id =>
    unfold Log.target at h
    cases hhas : log.has id with
    | true =>
      simp only [hhas, if_true, Write.commits] at h
      obtain ⟨row, hrow, hrowId, hstatus⟩ := update_mem (run.outcomeRow log.nextId status
        rowsAffected errorMessage write.completedAt) hhas
      refine ⟨row, ?_, (hid id rfl).trans_eq hrowId.symm, hstatus⟩
      cases hfault : write.update.fault with
      | none => simpa [logComputation, hfault, hhas] using hrow
      | some failure => simpa [logComputation, hfault, h] using hrow
    | false =>
      simp only [hhas, Bool.false_eq_true, if_false, Write.commits, Bool.and_eq_true,
        Option.isNone_iff_eq_none] at h
      simp only [logComputation, h.1, h.2, hhas, Bool.false_eq_true, if_false, if_true]
      exact hinsert _ rfl

end Writes

/-! ### What the log says of a run -/

/- No row the run wrote contradicts how its operation ended. -/
def Agrees (log : Log τ) (script : Script τ) (final : Log τ) : Prop :=
  ∀ row ∈ final.rows, log.nextId ≤ row.id →
    match script.operation with
    | .returned _ => row.status ≠ .failed ∧ row.status ≠ .interrupted
    | .stopped _ => row.status ≠ .completed

def Script.target (log : Log τ) (script : Script τ) : Target :=
  match script.start.fault with
  | some _ => .unknown
  | none => if log.nextId ∈ script.removed then .gone else .row

/- A success write that does not return is followed by a second write that takes effect. -/
def Script.Overwrites (log : Log τ) (script : Script τ) : Prop :=
  match script.completed.fault (script.target log) with
  | none => False
  | some (.raised _) => script.failed.commits (script.target log) = true
  | some .cancelled => script.interrupted.commits (script.target log) = true

section Lifecycle
variable {log : Log τ} {run : Run τ} {script : Script τ}

/- The log and the run's row id as the operation returns. -/
structure Started (log : Log τ) (script : Script τ) (before : Log τ) (runId : Option ℕ) : Prop where
  nextId : log.nextId ≤ before.nextId
  known : ∀ id, runId = some id → log.nextId ≤ id ∧ id < before.nextId
  target : before.target runId = script.target log
  running : ∀ row ∈ before.rows, log.nextId ≤ row.id → row.status = .running

theorem start_rows {committed : Bool} {row : Row τ}
    (hrow : row ∈ (if committed then log.insert (run.startRow log.nextId) else log).rows) :
    row.id < log.nextId ∨ (row.id = log.nextId ∧ row.status = .running) := by
  cases committed with
  | false => exact Or.inl (log.fresh row hrow)
  | true =>
    rcases List.mem_append.mp hrow with hrow | hrow
    · exact Or.inl (log.fresh row hrow)
    · rw [List.mem_singleton.mp hrow]
      exact Or.inr ⟨rfl, rfl⟩

theorem start_cases (log : Log τ) (run : Run τ) (script : Script τ) :
    (∃ started failure, startComputation log run script.start = (started, .error failure) ∧
      script.start.fault = some .cancelled ∧
      ∀ row ∈ started.rows, log.nextId ≤ row.id → row.status = .running) ∨
    ∃ started runId, startComputation log run script.start = (started, .ok runId) ∧
      script.start.fault ≠ some .cancelled ∧
      Started log script (started.delete script.removed) runId := by
  have hrunning : ∀ committed : Bool, ∀ row : Row τ,
      row ∈ (if committed then log.insert (run.startRow log.nextId) else log).rows →
        log.nextId ≤ row.id → row.status = .running := by
    intro committed row hrow hid
    rcases start_rows hrow with h | h
    · omega
    · exact h.2
  have hnext : ∀ committed : Bool, log.nextId ≤
      (if committed then log.insert (run.startRow log.nextId) else log).nextId := by
    intro committed
    cases committed with
    | false => exact Nat.le_refl _
    | true => exact Nat.le_succ _
  unfold startComputation
  cases hstart : script.start with
  | done =>
    refine Or.inr ⟨log.insert (run.startRow log.nextId), some log.nextId, rfl, nofun, ?_⟩
    refine ⟨Nat.le_succ _, ?_, ?_, ?_⟩
    · intro id hid
      cases hid
      exact ⟨Nat.le_refl _, Nat.lt_succ_self _⟩
    · have hhas : ((log.insert (run.startRow log.nextId)).delete script.removed).has log.nextId =
          !decide (log.nextId ∈ script.removed) := by
        rw [Bool.eq_iff_iff, has_iff]
        constructor
        · rintro ⟨row, hrow, hid⟩
          have := (List.mem_filter.mp hrow).2
          rw [hid] at this
          simpa using this
        · intro hkept
          refine ⟨{ run.startRow log.nextId with id := log.nextId }, ?_, rfl⟩
          refine List.mem_filter.mpr ⟨List.mem_append_right _ (List.mem_singleton.mpr rfl), ?_⟩
          simpa using hkept
      simp only [Log.target, Script.target, hstart, Statement.fault, hhas]
      by_cases hgone : log.nextId ∈ script.removed <;> simp [hgone]
    · intro row hrow hid
      exact hrunning true row (List.mem_of_mem_filter hrow) hid
  | failed committed failure =>
    cases failure with
    | cancelled => exact Or.inl ⟨_, .cancelled, rfl, rfl, fun row => hrunning committed row⟩
    | raised description =>
      refine Or.inr ⟨_, none, rfl, nofun, ⟨hnext committed, nofun, ?_, ?_⟩⟩
      · simp [Log.target, Script.target, hstart, Statement.fault]
      · intro row hrow hid
        exact hrunning committed row (List.mem_of_mem_filter hrow) hid

/-- A write under another id leaves the start row's place as it is. -/
theorem logComputation_target (run : Run τ) (status : Status) (rowsAffected : ℤ)
    (errorMessage : Option String) {runId : Option ℕ} (write : Write τ) {before : Log τ}
    (hid : ∀ id, runId = some id → id < before.nextId) :
    (logComputation before run status rowsAffected errorMessage runId write).1.target runId =
      before.target runId := by
  cases runId with
  | none => rfl
  | some id =>
    have hlt := hid id rfl
    have hhas : (logComputation before run status rowsAffected errorMessage (some id) write).1.has
        id = before.has id := by
      obtain ⟨outcome, -, hlog | hlog | ⟨other, -, hlog⟩⟩ :=
        logComputation_cases before run status rowsAffected errorMessage (some id) write
      · rw [hlog]
      · have hne : (before.nextId == id) = false := by
          rw [beq_eq_false_iff_ne]
          omega
        rw [hlog]
        simp [Log.has, hne]
      · rw [hlog]
        exact update_has ..
    unfold Log.target
    simp only [hhas]

theorem logComputation_nextId (before : Log τ) (run : Run τ) (status : Status) (rowsAffected : ℤ)
    (errorMessage : Option String) (runId : Option ℕ) (write : Write τ) :
    before.nextId ≤
      (logComputation before run status rowsAffected errorMessage runId write).1.nextId := by
  obtain ⟨outcome, -, hlog | hlog | ⟨other, -, hlog⟩⟩ :=
    logComputation_cases before run status rowsAffected errorMessage runId write
  · rw [hlog]
  · rw [hlog]
    exact Nat.le_succ _
  · rw [hlog]
    exact Nat.le_refl _

/-- After a success write that raised, the follow-up write decides what the log says. -/
theorem follow_up {before : Log τ} {runId : Option ℕ} {write : Write τ} {status : Status}
    {errorMessage : Option String} {first : ℕ} (hnext : first ≤ before.nextId)
    (hid : ∀ id, runId = some id → first ≤ id)
    (hclean : ∀ row ∈ before.rows, first ≤ row.id →
      row.status ≠ .failed ∧ row.status ≠ .interrupted)
    (hstatus : status = .failed ∨ status = .interrupted) :
    (∀ row ∈ (logComputation before run status 0 errorMessage runId write).1.rows,
        first ≤ row.id → row.status ≠ .failed ∧ row.status ≠ .interrupted) ↔
      ¬ write.commits (before.target runId) = true := by
  constructor
  · intro hall hcommits
    have hwritten : ∃ row ∈ (logComputation before run status 0 errorMessage runId write).1.rows,
        first ≤ row.id ∧ row.status = status := logComputation_commits hnext hid hcommits
    obtain ⟨row, hrow, hown, hrowStatus⟩ := hwritten
    obtain ⟨hfailed, hinterrupted⟩ := hall row hrow hown
    rcases hstatus with hs | hs
    · exact hfailed (hrowStatus.trans hs)
    · exact hinterrupted (hrowStatus.trans hs)
  · intro hsilent row hrow
    rw [logComputation_silent (Bool.eq_false_iff.mpr hsilent)] at hrow
    exact hclean row hrow

theorem attempt_returned {rowsAffected : ℤ} {before : Log τ} {runId : Option ℕ}
    (h : script.operation = .returned rowsAffected) :
    attempt run before runId script =
      ((logComputation before run .completed rowsAffected none runId script.completed).1,
        match script.completed.fault (before.target runId) with
        | none => .returned rowsAffected
        | some failure => .stopped failure) := by
  have hfault := logComputation_fault before run .completed rowsAffected none runId
    script.completed
  unfold attempt
  rw [h]
  simp only
  rw [← hfault]
  rcases logComputation before run .completed rowsAffected none runId script.completed with
    ⟨final, _ | failure⟩ <;> rfl

/-- Only a cancellation of the `failed` write hides the exception of the operation. -/
theorem recordLifecycle_raised {description : String} (hstart : script.start.fault ≠ some .cancelled)
    (hop : script.operation = .stopped (.raised description)) :
    (recordLifecycle run log script).2 = .stopped (.raised description) ∨
      (recordLifecycle run log script).2 = .stopped .cancelled := by
  rcases start_cases log run script with
    ⟨started, failure, -, hcancelled, -⟩ | ⟨started, runId, hstarted, -, -⟩
  · exact absurd hcancelled hstart
  · have hattempt : attempt run (started.delete script.removed) runId script =
        (started.delete script.removed, .stopped (.raised description)) := by
      unfold attempt
      rw [hop]
    unfold recordLifecycle
    rw [hstarted]
    simp only
    rw [hattempt]
    simp only
    split
    · exact Or.inr rfl
    · exact Or.inl rfl

/-- An operation that returns is returned when its success write does. -/
theorem recordLifecycle_returned {rowsAffected : ℤ} (hstart : script.start.fault ≠ some .cancelled)
    (hop : script.operation = .returned rowsAffected)
    (hwrite : script.completed.fault (script.target log) = none) :
    (recordLifecycle run log script).2 = .returned rowsAffected := by
  rcases start_cases log run script with
    ⟨started, failure, -, hcancelled, -⟩ | ⟨started, runId, hstarted, -, hknown⟩
  · exact absurd hcancelled hstart
  · have hattempt : attempt run (started.delete script.removed) runId script =
        ((logComputation (started.delete script.removed) run .completed rowsAffected none runId
          script.completed).1, .returned rowsAffected) := by
      rw [attempt_returned hop, hknown.target, hwrite]
    unfold recordLifecycle
    rw [hstarted]
    simp only [hattempt]

/-- A success write that is cut stops the run. -/
theorem recordLifecycle_cut {rowsAffected : ℤ} {failure : Failure}
    (hstart : script.start.fault ≠ some .cancelled)
    (hop : script.operation = .returned rowsAffected)
    (hwrite : script.completed.fault (script.target log) = some failure) :
    ∃ failure, (recordLifecycle run log script).2 = .stopped failure := by
  rcases start_cases log run script with
    ⟨started, failure, -, hcancelled, -⟩ | ⟨started, runId, hstarted, -, hknown⟩
  · exact absurd hcancelled hstart
  · have hattempt : attempt run (started.delete script.removed) runId script =
        ((logComputation (started.delete script.removed) run .completed rowsAffected none runId
          script.completed).1, .stopped failure) := by
      rw [attempt_returned hop, hknown.target, hwrite]
    unfold recordLifecycle
    rw [hstarted]
    simp only [hattempt]
    cases failure with
    | cancelled => exact ⟨_, rfl⟩
    | raised description =>
      simp only
      split
      · exact ⟨_, rfl⟩
      · exact ⟨_, rfl⟩

/-- Whatever leaves the handler, the log is what its write left. -/
theorem failed_log (final : Log τ × Option Failure) (description : String) :
    (match final with
      | (log, some .cancelled) => (log, Outcome.stopped .cancelled)
      | (log, _) => (log, .stopped (.raised description))).1 = final.1 := by
  rcases final with ⟨log, _ | _ | _⟩ <;> rfl

/-- No write but a success write contradicts an operation that stopped. -/
theorem stopped_agrees {before : Log τ} {runId : Option ℕ} {failure : Failure}
    (hstarted : Started log script before runId) (hop : script.operation = .stopped failure)
    {status : Status} (hstatus : status ≠ .completed) (rowsAffected : ℤ)
    (errorMessage : Option String) (write : Write τ) :
    Agrees log script
      (logComputation before run status rowsAffected errorMessage runId write).1 := by
  unfold Agrees
  rw [hop]
  intro row hrow hid
  rcases logComputation_status hrow with hrow | hsame
  · simp [hstarted.running row hrow hid]
  · exact fun hcompleted => hstatus (hsame.symm.trans hcompleted)

/-- The log agrees with the operation unless a success write that raised, or was cancelled, is
followed by a `failed`, or `interrupted`, write that takes effect. -/
theorem recordLifecycle_agrees_iff (run : Run τ) (log : Log τ) (script : Script τ) :
    Agrees log script (recordLifecycle run log script).1 ↔
      ¬ (script.start.fault ≠ some .cancelled ∧
          (∃ rowsAffected, script.operation = .returned rowsAffected) ∧
          script.Overwrites log) := by
  unfold recordLifecycle
  rcases start_cases log run script with
    ⟨started, failure, hstart, hcancelled, hrunning⟩ | ⟨started, runId, hstart, hran, hstarted⟩
  · rw [hstart]
    refine iff_of_true ?_ fun hbad => hbad.1 hcancelled
    intro row hrow hid
    have hstatus := hrunning row hrow hid
    split <;> simp [hstatus]
  · rw [hstart]
    simp only
    generalize started.delete script.removed = before at hstarted
    cases hop : script.operation with
    | stopped failure =>
      -- No success write was reached.
      refine iff_of_true ?_ ?_
      · have hattempt : attempt run before runId script = (before, .stopped failure) := by
          unfold attempt
          rw [hop]
        rw [hattempt]
        cases failure with
        | cancelled =>
          simp only
          exact stopped_agrees hstarted hop (by decide) 0 _ _
        | raised description =>
          simp only
          rw [failed_log]
          exact stopped_agrees hstarted hop (by decide) 0 _ _
      · rintro ⟨-, ⟨rowsAffected, hreturned⟩, -⟩
        cases hreturned
    | returned rowsAffected =>
      have hagrees : ∀ final : Log τ, Agrees log script final ↔ ∀ row ∈ final.rows,
          log.nextId ≤ row.id → row.status ≠ .failed ∧ row.status ≠ .interrupted := by
        intro final
        unfold Agrees
        rw [hop]
      have hclean : ∀ row ∈ (logComputation before run .completed rowsAffected none runId
          script.completed).1.rows, log.nextId ≤ row.id →
            row.status ≠ .failed ∧ row.status ≠ .interrupted := by
        intro row hrow hid
        rcases logComputation_status hrow with hrow | hstatus
        · simp [hstarted.running row hrow hid]
        · simp [hstatus]
      have hnext := hstarted.nextId.trans (logComputation_nextId before run .completed
        rowsAffected none runId script.completed)
      have htarget := logComputation_target run .completed rowsAffected none script.completed
        fun id hid => (hstarted.known id hid).2
      rw [hagrees, attempt_returned hop, hstarted.target]
      rw [hstarted.target] at htarget
      have hreduce : (script.start.fault ≠ some .cancelled ∧
          (∃ n, Outcome.returned rowsAffected = .returned n) ∧ script.Overwrites log) ↔
            script.Overwrites log :=
        ⟨fun h => h.2.2, fun h => ⟨hran, ⟨rowsAffected, rfl⟩, h⟩⟩
      rw [hreduce]
      unfold Script.Overwrites
      cases hfault : script.completed.fault (script.target log) with
      | none => exact iff_of_true hclean id
      | some failure =>
        cases failure with
        | raised description =>
          simp only
          rw [failed_log, follow_up hnext (fun id hid => (hstarted.known id hid).1) hclean
            (Or.inl rfl), htarget]
        | cancelled =>
          simp only
          rw [follow_up hnext (fun id hid => (hstarted.known id hid).1) hclean (Or.inr rfl),
            htarget]

end Lifecycle

/- SIGTERM reaches the run in its success write: the operation returned 7, its data is committed,
and the run is recorded as cancelled before it finished. -/
theorem recordLifecycle_contradicts :
    let log : Log ℕ := ⟨[], 1, nofun⟩
    let script : Script ℕ :=
      { start := .done
        operation := .returned 7
        removed := []
        completed := ⟨2, .failed false .cancelled, .done⟩
        failed := ⟨3, .done, .done⟩
        interrupted := ⟨3, .done, .done⟩ }
    ¬ Agrees log script
      (recordLifecycle ⟨"release_rarity", 0, Int.ofNat⟩ log script).1 := by
  intro log script h
  have hrow := h ⟨1, "release_rarity", .interrupted, 0, some 3, some 0, some 3,
    some "cancelled before it finished"⟩ (List.Mem.head _) (Nat.le_refl _)
  exact hrow.2 rfl

end AnalyticsEngine.Computations
